import MeteredArrays.Proofs.Invocation.Accounting
import MeteredArrays.Proofs.Invocation.Rejection

namespace MeteredArrays

namespace Heap

variable {heap after : Heap} {id : ArrayId} {contents : Contents ArrayId}

theorem Changes.held? {read : Slot → Option Record} {allowed : Link → Prop}
    (changes : Changes read allowed heap after) (held : heap.held? id = some contents) :
    ∃ contents', after.held? id = some contents' :=
  inMemory_iff.mp (changes.inMemory (inMemory_iff.mpr ⟨contents, held⟩))

theorem Spares.size_le (spares : heap.Spares (fun _ => False) after) : heap.size ≤ after.size := by
  apply Nat.le_of_not_lt
  intro less
  obtain ⟨array, here⟩ := exists_of_lt less
  obtain ⟨array', there, _⟩ := spares _ _ here
  exact Nat.lt_irrefl _ (lt_size there)

theorem Spares.insert (spares : heap.Spares (fun _ => False) after) (new : LiveArray) :
    heap.Spares (fun _ => False) (after.insert new).2 := by
  intro known array here
  obtain ⟨array', there, spared⟩ := spares known array here
  exact ⟨array', arrays_insert_of_some there new, spared⟩

def Children (read : Slot → Option Record) (heap : Heap) (id : ArrayId) (link : Link) : Prop :=
  ∃ kind slot, heap.arrays[id]? = some (.named kind slot) ∧ Lists read kind slot link

/-- Contents may have been read, and at most the arrays were added that the record of the array `id` names. -/
structure OnlyReads (read : Slot → Option Record) (id : ArrayId) (heap after : Heap) : Prop where
  spares : heap.Spares (fun _ => False) after
  content : ∀ known < heap.size, after.content? read known = heap.content? read known
  appends : Appends (heap.Children read id) heap after

theorem Appends.refl {names : Link → Prop} (indexed : heap.Indexed) : Appends names heap heap where
  indexed := indexed
  added outside here := absurd (lt_size here) (Nat.not_lt.mpr outside)
  apart outside _ here := absurd (lt_size here) (Nat.not_lt.mpr outside)

theorem Appends.imp {names names' : Link → Prop} (appends : Appends names heap after)
    (weaker : ∀ link, names link → names' link) : Appends names' heap after where
  indexed := appends.indexed
  added outside here := by
    obtain ⟨link, named, rest⟩ := appends.added outside here
    exact ⟨link, weaker link named, rest⟩
  apart := appends.apart

end Heap

namespace Workspace

open Heap

variable {σ : Type} [Storage σ] {workspace opened : Workspace σ} {id : ArrayId}

theorem materialize_appends (indexed : workspace.heap.Indexed) :
    Ends (materialize id workspace)
      (fun _ after => Appends (workspace.heap.Children (Storage.read workspace.storage) id) workspace.heap after.heap)
      fun _ _ => True := by
  apply materialize_cases
  · intro _
    trivial
  · intro kind slot here
    apply (load_isolated indexed here).imp
    · intro _ after opened
      exact opened.appends.imp fun link listed => ⟨kind, slot, here, listed⟩
    · intro _ _ _
      trivial
  · intro _ _ _ _
    exact .refl @indexed

theorem onlyReads_of_materialize (wf : workspace.heap.WellFormed)
    (opens : materialize id workspace = .ok () opened) :
    opened.storage = workspace.storage ∧ opened.heap.WellFormed ∧
      workspace.heap.OnlyReads (Storage.read workspace.storage) id opened.heap ∧
      ∃ contents, opened.heap.held? id = some contents := by
  have undisturbed := @materialize_undisturbed _ _ _ id wf
  have spares := materialize_spares @wf.indexed id
  have appends := @materialize_appends _ _ _ id @wf.indexed
  rw [opens] at undisturbed spares appends
  obtain ⟨⟨storage, same⟩, wf', _, array, contents, here, held⟩ := undisturbed
  refine ⟨storage, wf', ⟨spares.1, ?_, appends⟩, contents, held?_eq_some.mpr ⟨array, here, held⟩⟩
  intro known inside
  exact same.content known inside (Set.notMem_empty known)

end Workspace

namespace Invocation

open Heap

variable {σ : Type} [Storage σ] {invocation : Invocation σ}

theorem content?_of_held? {id : ArrayId} {contents : Contents ArrayId}
    (held : invocation.heap.held? id = some contents) :
    invocation.content? id = some (contents.map invocation.heap.name) := by
  obtain ⟨array, here, held⟩ := held?_eq_some.mp held
  exact content?_of_contents? here held

theorem runAll_held? (wf : invocation.WellFormed) (calls : List Call) {id : ArrayId} {contents : Contents ArrayId}
    (held : invocation.heap.held? id = some contents)
    (kept : ¬ Rewritten calls (Call.runAll calls invocation).1 id) :
    (Call.runAll calls invocation).2.heap.held? id = some contents := by
  obtain ⟨array, here, _⟩ := held?_eq_some.mp held
  have shown := runAll_content? wf calls (lt_size here) kept
  have advances := runAll_advances ⟨wf, fun _ => trivial⟩ (fun _ _ _ _ _ => trivial) calls fun _ _ _ => trivial
  have wf' := advances.wellFormed wf
  have changes : Changes _ _ invocation.heap (Call.runAll calls invocation).2.heap := advances.workspace.changes
  obtain ⟨contents', held'⟩ := changes.held? held
  have within := wf.heap.within_held? held
  have within' := wf'.heap.within_held? held'
  rw [content?_of_held? held', content?_of_held? held,
    ← map_name (fun _ inside => changes.name inside) within.inside] at shown
  -- Both contents have the same names in the last state, in which names are unique.
  have same : contents' = contents := by
    apply Contents.eq_of_map_eq (Option.some.inj shown)
    intro target member target' member' equal
    have inside' := (within.inside target' member').trans_le changes.size_le
    exact Indexed.name_inj @wf'.heap.indexed (within'.inside target member) inside' equal
  rw [← same]
  exact held'

theorem clone_opened {before : Invocation σ} (running : before.exit? = none) {id : ArrayId} {opened : Workspace σ}
    {contents : Contents ArrayId} (opens : before.workspace.Opens id contents opened)
    (short : contents.length ≤ Record.maxLength) :
    Ends (pay (.cloning (Int32.ofNat contents.length)) (before.withWorkspace opened))
      (fun _ paid => clone id before = .ok paid.heap.size (paid.withArray contents (.cloned id)))
      (fun fault last => clone id before = .error fault (last.halt fault)) := by
  cases pays : pay (.cloning (Int32.ofNat contents.length)) (before.withWorkspace opened) with
  | ok _ paid =>
    obtain ⟨copy, done, same⟩ := estate_map_eq_ok.mp ((Succeeds.clone opens short pays).run running)
    cases same
    exact done
  | error fault last => exact estate_map_eq_error.mp ((Fails.unpaidCopy opens short pays).run running)

/-- A copy was made and paid for. What is done to other arrays from then on changes neither the copy nor its
    source. -/
structure Copies (before : Invocation σ) (id : ArrayId) (contents : Contents ArrayId) (cost : Nat) (copy : ArrayId)
    (after : Invocation σ) : Prop where
  new : before.heap.size ≤ copy
  copied : after.heap.arrays[copy]? = some (.fresh contents false)
  paid : Meter.Spends cost before.meter after.meter
  roots : after.roots = before.roots
  source : after.heap.held? id = some contents
  spares : before.heap.Spares (fun _ => False) after.heap
  content : ∀ known < before.heap.size, after.content? known = before.content? known
  added : ∀ other array, before.heap.size ≤ other → other ≠ copy → after.heap.arrays[other]? = some array →
    ∃ link, before.heap.Children (Storage.read before.workspace.storage) id link ∧
      array = .named link.kind link.slot
  independent : ∀ one, one = id ∨ one = copy → ∀ earlier later : List Call,
    let middle := (Call.runAll earlier after).2
    ¬ Rewritten later (Call.runAll later middle).1 one →
      (Call.runAll later middle).2.heap.held? one = middle.heap.held? one

structure Declines (before : Invocation σ) (id : ArrayId) (after : Invocation σ) : Prop where
  unpaid : after.meter = before.meter
  roots : after.roots = before.roots
  reads : before.heap.OnlyReads (Storage.read before.workspace.storage) id after.heap

theorem held?_later {after : Invocation σ} (wf : after.WellFormed) {one : ArrayId} {contents : Contents ArrayId}
    (held : after.heap.held? one = some contents) (earlier later : List Call) :
    let middle := (Call.runAll earlier after).2
    ¬ Rewritten later (Call.runAll later middle).1 one →
      (Call.runAll later middle).2.heap.held? one = middle.heap.held? one := by
  intro middle kept
  have advances := runAll_advances ⟨wf, fun _ => trivial⟩ (fun _ _ _ _ _ => trivial) earlier fun _ _ _ => trivial
  obtain ⟨contents', held'⟩ := advances.workspace.changes.held? held
  have same := runAll_held? (advances.wellFormed wf) later held' kept
  exact same.trans held'.symm

theorem copies_of_insert {before after : Invocation σ} {id : ArrayId} {opened : Workspace σ}
    {contents : Contents ArrayId} {cost : Nat} (wf : opened.heap.WellFormed) (wf' : after.WellFormed)
    (reads : before.heap.OnlyReads (Storage.read before.workspace.storage) id opened.heap)
    (held : opened.heap.held? id = some contents)
    (heap : after.heap = (opened.heap.insert (.fresh contents false)).2)
    (storage : after.workspace.storage = before.workspace.storage)
    (roots : after.roots = before.roots) (paid : Meter.Spends cost before.meter after.meter) :
    Copies before id contents cost opened.heap.size after := by
  obtain ⟨array, here, inMemory⟩ := held?_eq_some.mp held
  have copied : after.heap.arrays[opened.heap.size]? = some (.fresh contents false) := by
    rw [heap, arrays_insert, if_pos rfl]
  have source : after.heap.held? id = some contents := by
    rw [heap]
    exact held?_eq_some.mpr ⟨array, arrays_insert_of_some here _, inMemory⟩
  refine ⟨reads.spares.size_le, copied, paid, roots, source, ?_, ?_, ?_, ?_⟩
  · rw [heap]
    exact reads.spares.insert _
  · intro known inside
    have inside' := inside.trans_le reads.spares.size_le
    have inserted : Undisturbed (Storage.read before.workspace.storage) _ opened.heap _ :=
      undisturbed_insert wf (.fresh contents false)
    have same := inserted.content known inside' (Nat.ne_of_lt inside')
    rw [← heap] at same
    rw [content?, content?, Workspace.content?, Workspace.content?, storage]
    exact same.trans (reads.content known inside)
  · intro other array outside apart there
    rw [heap, arrays_insert, if_neg apart] at there
    obtain ⟨link, named, same, _⟩ := reads.appends.added outside there
    exact ⟨link, named, same⟩
  · intro one either earlier later
    rcases either with rfl | rfl
    · exact held?_later wf' source earlier later
    · exact held?_later wf' (held?_eq_some.mpr ⟨_, copied, rfl⟩) earlier later

/-- An array that can be brought into memory is copied if its copy can be paid for. The copy is an array of its
    own, and if it cannot be paid for there is none and nothing is spent. -/
theorem clone_copies {storage : σ} {before : Invocation σ} (reached : Reached storage before)
    (running : before.exit? = none) {id : ArrayId} {opened : Workspace σ}
    (opens : Workspace.materialize id before.workspace = .ok () opened) :
    ∃ contents, opened.heap.held? id = some contents ∧
      let cost := before.meter.schedule.cloneBase.toNat + contents.length * before.meter.schedule.cloneElement.toNat
      (cost ≤ before.remaining.toNat →
        ∃ copy after, clone id before = .ok copy after ∧ Copies before id contents cost copy after) ∧
      (before.remaining.toNat < cost →
        ∃ fault after, clone id before = .error fault after ∧ Declines before id after) := by
  have wf := reached.sound.wellFormed
  obtain ⟨same, wf', reads, contents, held⟩ := Workspace.onlyReads_of_materialize wf.heap opens
  have opens : before.workspace.Opens id contents opened := ⟨opens, held⟩
  have short := (wf'.within_held? held).short
  have price := Metered.exact_cloning before.meter.schedule short
  have copying := clone_opened running opens short
  have settles := pay_settles (.cloning (Int32.ofNat contents.length)) (before.withWorkspace opened)
  refine ⟨contents, held, ?_⟩
  rw [← price]
  cases pays : pay (.cloning (Int32.ofNat contents.length)) (before.withWorkspace opened) with
  | ok _ paid =>
    obtain ⟨room, spends, heap, storage, roots⟩ := settles.ok pays
    have heap : paid.heap = opened.heap := heap
    have ready : Ready (fun _ => True) before := ⟨wf, fun _ => trivial⟩
    have advances := (Succeeds.clone opens short pays).advances ready (discloses_true _ _) fun _ _ _ => trivial
    have sound := advances.wellFormed wf
    constructor
    · intro _
      have copied : (paid.withArray contents (.cloned id)).heap = (opened.heap.insert (.fresh contents false)).2 := by
        rw [← heap]
        rfl
      have copies := copies_of_insert wf' sound reads held copied (storage.trans same) roots spends
      exact ⟨_, _, copying.ok pays, heap ▸ copies⟩
    · intro short
      exact absurd room (Nat.not_le.mpr short)
  | error fault last =>
    obtain ⟨short, unpaid, heap, roots⟩ := settles.error pays
    constructor
    · intro room
      exact absurd room (Nat.not_le.mpr short)
    · intro _
      have heap : last.heap = opened.heap := heap
      exact ⟨fault, _, copying.error pays, unpaid, roots, heap ▸ reads⟩

def parentAffordable : Invocation Memory :=
  (Call.runAll [.load ⟨0⟩ .reference] (start 108 .mainnet parentAndChild)).2

theorem clone_parentAffordable : ∃ copy after, clone 0 parentAffordable = .ok copy after ∧
    Copies parentAffordable 0 (.references #[some 1]) 108 copy after := by
  have reached : Reached parentAndChild parentAffordable := ⟨108, .mainnet, _, rfl⟩
  have running : parentAffordable.exit? = none := by decide +kernel
  have schedule : parentAffordable.meter.schedule = .mainnet := by decide +kernel
  have remaining : parentAffordable.remaining.toNat = 108 := by decide +kernel
  have ran : Ends (Workspace.materialize 0 parentAffordable.workspace)
      (fun _ opened => opened.heap.held? 0 = some (.references #[some 1])) fun _ _ => False := by decide +kernel
  obtain ⟨_, opened, opens, read⟩ := ran.exists_ok fun _ _ => not_false
  obtain ⟨contents, held, affordable, _⟩ := clone_copies reached running opens
  rw [read] at held
  cases held
  rw [schedule, remaining] at affordable
  exact affordable (by decide)

end Invocation

end MeteredArrays
