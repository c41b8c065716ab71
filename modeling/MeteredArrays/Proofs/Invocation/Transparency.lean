import MeteredArrays.Proofs.Heap.Content
import MeteredArrays.Proofs.Invocation.Updates

namespace MeteredArrays

namespace Workspace

open Heap

variable {σ : Type} [Storage σ] {workspace : Workspace σ} {id : ArrayId}

structure Undisturbed (except : Set ArrayId) (before after : Workspace σ) : Prop where
  storage : after.storage = before.storage
  heap : Heap.Undisturbed (Storage.read before.storage) except before.heap after.heap

namespace Undisturbed

variable {except except' : Set ArrayId} {before after : Workspace σ}

theorem refl (workspace : Workspace σ) : Undisturbed except workspace workspace := ⟨rfl, .refl _⟩

theorem trans {first second third : Workspace σ} (one : Undisturbed except first second)
    (two : Undisturbed except second third) : Undisturbed except first third :=
  ⟨two.storage.trans one.storage, one.heap.trans (one.storage ▸ two.heap)⟩

theorem mono (undisturbed : Undisturbed except before after) (wider : except ⊆ except') :
    Undisturbed except' before after :=
  ⟨undisturbed.storage, undisturbed.heap.mono wider⟩

end Undisturbed

def content? (workspace : Workspace σ) (id : ArrayId) : Option (Contents Name) :=
  workspace.heap.content? (Storage.read workspace.storage) id

theorem Undisturbed.content? {except : Set ArrayId} {after : Workspace σ}
    (undisturbed : workspace.Undisturbed except after) (known : id < workspace.heap.size) (apart : id ∉ except) :
    after.content? id = workspace.content? id := by
  rw [Workspace.content?, Workspace.content?, undisturbed.storage]
  exact undisturbed.heap.content id known apart

theorem Undisturbed.content?_of_contents? {after : Workspace σ} (undisturbed : workspace.Undisturbed ∅ after)
    (inside : id < workspace.heap.size) {array : LiveArray} {contents : Contents ArrayId}
    (here : after.heap.arrays[id]? = some array) (held : array.contents? = some contents) :
    workspace.content? id = some (contents.map after.heap.name) := by
  rw [← undisturbed.content? inside (Set.notMem_empty id)]
  exact Heap.content?_of_contents? here held

theorem load_undisturbed (wf : workspace.heap.WellFormed) {kind : Kind} {slot : Slot}
    (here : workspace.heap.arrays[id]? = some (.named kind slot)) :
    Ends (load id kind slot workspace) (fun _ after => workspace.Undisturbed ∅ after)
      (fun _ after => workspace.Undisturbed ∅ after) := by
  have allows : workspace.heap.Allows fun _ => True := fun _ => trivial
  refine (load_opens @wf.indexed allows here (discloses_true _ _ _)).imp ?_ ?_
  · rintro _ ⟨heap, storage, journal⟩ ⟨rfl, opened, contents, ext, rfl, saved, rfl, _⟩
    have named : workspace.heap.Undisturbed (Storage.read workspace.storage) ∅ opened := ext.undisturbed wf
    exact ⟨rfl, named.trans (undisturbed_load (ext.changes.wellFormed wf) (ext.same here) saved)⟩
  -- Arrays that were named before the record turned out to be unusable stay, but they are not read.
  · rintro fault after ⟨storage, ext, _⟩
    exact ⟨storage, ext.undisturbed wf⟩

theorem materialize_undisturbed (wf : workspace.heap.WellFormed) :
    Ends (materialize id workspace)
      (fun _ after => workspace.Undisturbed ∅ after ∧ after.heap.WellFormed ∧ id < workspace.heap.size ∧
        ∃ array contents, after.heap.arrays[id]? = some array ∧ array.contents? = some contents)
      (fun _ after => workspace.Undisturbed ∅ after) := by
  have allows : workspace.heap.Allows fun _ => True := fun _ => trivial
  have undisturbed : Ends (materialize id workspace)
      (fun _ after => workspace.Undisturbed ∅ after ∧ id < workspace.heap.size)
      (fun _ after => workspace.Undisturbed ∅ after) := by
    refine materialize_cases (fun _ => .refl workspace) ?_ fun _ _ here _ => ⟨.refl workspace, lt_size here⟩
    intro kind slot here
    exact (load_undisturbed wf here).imp (fun _ _ h => ⟨h, lt_size here⟩) fun _ _ h => h
  refine (undisturbed.and (materialize_ends wf allows (discloses_true _ _ id))).imp ?_ fun _ _ h => h.1
  rintro _ after ⟨⟨undisturbed, inside⟩, advances, _, inMemory⟩
  exact ⟨undisturbed, advances.changes.wellFormed wf, inside, inMemory⟩

theorem Opens.undisturbed {contents : Contents ArrayId} {opened : Workspace σ} (wf : workspace.heap.WellFormed)
    (opens : workspace.Opens id contents opened) :
    workspace.Undisturbed ∅ opened ∧ opened.heap.WellFormed ∧
      workspace.content? id = some (contents.map opened.heap.name) := by
  obtain ⟨undisturbed, wf', inside, _⟩ := (materialize_undisturbed wf).ok opens.read
  obtain ⟨array, here, held⟩ := held?_eq_some.mp opens.held
  exact ⟨undisturbed, wf', undisturbed.content?_of_contents? inside here held⟩

theorem rewrite_undisturbed (change : Contents ArrayId → Contents ArrayId) (wf : workspace.heap.WellFormed)
    {current : Contents ArrayId} (inMemory : workspace.heap.held? id = some current)
    (kind : (change current).kind = current.kind) :
    let heap := (workspace.heap.update id .touch).update id (.mapContents change)
    workspace.Undisturbed {id} { workspace with heap } ∧
      heap.content? (Storage.read workspace.storage) id = some ((change current).map heap.name) := by
  obtain ⟨array, here, held⟩ := held?_eq_some.mp inMemory
  have touched : (workspace.heap.update id .touch).arrays[id]? = some array.touch := arrays_update_self here
  have touch : Change (Storage.read workspace.storage) (fun _ => True) workspace.heap
      (workspace.heap.update id .touch) := .touched id
  have wf' := touch.wellFormed wf
  have keeps : ∀ other, (workspace.heap.update id .touch).arrays[id]? = some other →
      other.Keeps (other.mapContents change) := by
    intro other there
    rw [touched] at there
    cases there
    cases array <;> cases held <;> exact ⟨kind, rfl, fun inMemory => inMemory⟩
  refine ⟨⟨rfl, (undisturbed_touch wf here).trans (undisturbed_update wf' keeps)⟩, ?_⟩
  obtain ⟨array', there, held'⟩ := held?_eq_some.mp (Invocation.held?_rewritten inMemory change)
  exact content?_of_contents? there held'

end Workspace

namespace Invocation

open Heap

variable {σ : Type} [Storage σ] {before after invocation : Invocation σ}

def content? (invocation : Invocation σ) (id : ArrayId) : Option (Contents Name) :=
  invocation.workspace.content? id

abbrev Keeps (before after : Invocation σ) : Prop :=
  before.workspace.Undisturbed ∅ after.workspace

structure Adds (before after : Invocation σ) (id : ArrayId) (contents : Contents Name) : Prop where
  outside : before.heap.size ≤ id
  name : after.heap.name id = .unsaved id
  content : after.content? id = some contents
  others : before.workspace.Undisturbed {id} after.workspace

/-- What a call answers and does, in terms of the contents of arrays. Whether they are in memory
    does not matter. -/
def Tells (before after : Invocation σ) : Call → Answer → Prop
  | .create length kind, .array id =>
    0 ≤ length.toInt ∧ Adds before after id (.new kind length.toInt.toNat)
  | .load slot kind, .array id => after.heap.name id = .stored ⟨kind, slot⟩ ∧ Keeps before after
  | .length id, .length length =>
    (∃ contents, before.content? id = some contents ∧ length = contents.length) ∧ Keeps before after
  | .get id index, .value value =>
    (∃ contents, before.content? id = some contents ∧ 0 ≤ index.toInt ∧ index.toInt < contents.length ∧
      contents.get? index.toInt.toNat = some (value.map after.heap.name)) ∧ Keeps before after
  | .set id index value, .done =>
    (∃ contents contents', before.content? id = some contents ∧ 0 ≤ index.toInt ∧
      index.toInt < contents.length ∧ value.kind = contents.kind ∧ after.content? id = some contents' ∧
      Contents.Puts index.toInt.toNat (value.map before.heap.name) contents contents') ∧
    before.workspace.Undisturbed {id} after.workspace
  | .contents id, .contents contents =>
    before.content? id = some (contents.map after.heap.name) ∧ Keeps before after
  | .replace id new, .done =>
    (∃ contents, before.content? id = some contents ∧ new.kind = contents.kind ∧
      new.length = contents.length ∧ after.content? id = some (new.map before.heap.name)) ∧
    before.workspace.Undisturbed {id} after.workspace
  | .clone source, .array id =>
    ∃ contents, before.content? source = some contents ∧ Adds before after id contents
  | .addRoot _, .done | .abort, .done => Keeps before after
  | _, _ => False

theorem Adds.after_keeps {first second third : Invocation σ} {id : ArrayId} {contents : Contents Name}
    (keeps : Keeps first second) (adds : Adds second third id contents) : Adds first third id contents where
  outside := keeps.heap.size_le.trans adds.outside
  name := adds.name
  content := adds.content
  others := (keeps.mono (Set.empty_subset _)).trans adds.others

theorem keeps_of_peers (peers : Peers before after) : Keeps before after := by
  have same : before.workspace.heap = after.workspace.heap := peers.heap
  exact ⟨peers.storage.symm, same ▸ .refl _⟩

theorem adds_withArray (wf : before.heap.WellFormed) (contents : Contents ArrayId) (event : ArrayId → Event) :
    Adds before (before.withArray contents event) before.heap.size
      (contents.map (before.withArray contents event).heap.name) := by
  have here : (before.withArray contents event).heap.arrays[before.heap.size]? = some (.fresh contents false) :=
    (arrays_insert before.heap _ _).trans (if_pos rfl)
  exact ⟨Nat.le_refl _, name_of_arrays here, content?_of_contents? here rfl, rfl, undisturbed_insert wf _⟩

omit [Storage σ] in
theorem toInt_nonneg {number : Int32} (other : ¬ number < 0) : 0 ≤ number.toInt :=
  Int.not_lt.mp fun negative => other (Int32.lt_iff_toInt_lt.mpr negative)

theorem tells_of_shows {id : ArrayId} {contents : Contents ArrayId} {call : Call} {answer : Answer}
    (keeps : Keeps before after) (told : before.content? id = some (contents.map after.heap.name))
    (shown : call.Shows id contents answer) : Tells before after call answer := by
  cases shown with
  | length => exact ⟨⟨_, told, (Contents.length_map _ contents).symm⟩, keeps⟩
  | contents => exact ⟨told, keeps⟩
  | @get index value nonneg found =>
    have inside := Contents.lt_length_of_get? found
    have same : index.toNatClampNeg = index.toInt.toNat := rfl
    have positive := toInt_nonneg nonneg
    refine ⟨⟨_, told, positive, ?_, ?_⟩, keeps⟩
    · rw [Contents.length_map]
      omega
    · rw [Contents.get?_map, ← same, found]
      rfl

theorem Succeeds.tells {call : Call} {answer : Answer} (succeeds : Succeeds before call answer after)
    (wf : before.WellFormed) : Tells before after call answer := by
  cases succeeds with
  | @create length kind paid pays nonneg =>
    have peers := (peers_pay _ _).ok pays
    have adds := adds_withArray (peers.heap ▸ wf.heap) (.new kind length.toNatClampNeg) (.created · kind length)
    rw [Contents.map_new] at adds
    exact ⟨toInt_nonneg nonneg, adds.after_keeps (keeps_of_peers peers)⟩
  | load resolves =>
    obtain ⟨ext, named⟩ := extends_of_resolve (Storage.read before.workspace.storage) @wf.heap.indexed resolves
    exact ⟨name_of_link named, rfl, ext.undisturbed wf.heap⟩
  | look opens shown =>
    obtain ⟨keeps, _, told⟩ := opens.undisturbed wf.heap
    exact tells_of_shows keeps told shown
  | @set id index value contents opened checked opens fits =>
    obtain ⟨keeps, wf', told⟩ := opens.undisturbed wf.heap
    obtain ⟨short, kind⟩ := Contents.refusal?_eq_none.mp fits
    obtain ⟨rewrites, written⟩ := Workspace.rewrite_undisturbed (.put index.toNatClampNeg value) wf' opens.held
      (Contents.kind_put _ _ _)
    have undisturbed := (keeps.mono (Set.empty_subset _)).trans rewrites
    have same : index.toNatClampNeg = index.toInt.toNat := rfl
    have positive := toInt_nonneg (checked.nonneg _ _ _ rfl)
    refine ⟨⟨_, _, told, positive, ?_, ?_, written, ?_⟩, undisturbed⟩
    · rw [Contents.length_map]
      omega
    · rw [Contents.kind_map, kind]
    -- The old contents, the value and the new contents were named in three states; the last one names all alike.
    · have value_eq : value.map _ = value.map before.heap.name := Value.map_congr fun target same =>
        undisturbed.heap.name target (checked.inside target (by simp [Call.required, same]))
      rw [← map_name rewrites.heap.name (wf'.within_held? opens.held).inside, ← value_eq]
      exact (Contents.puts_put fits).map _
  | @replace id new current checked held kind length =>
    obtain ⟨rewrites, written⟩ := Workspace.rewrite_undisturbed (fun _ => new) wf.heap held kind.symm
    obtain ⟨array, here, inMemory⟩ := held?_eq_some.mp held
    refine ⟨⟨_, content?_of_contents? here inMemory, ?_, ?_, written.trans ?_⟩, rewrites⟩
    · rw [Contents.kind_map, kind]
    · rw [Contents.length_map, length]
    · have inside := fun target member => checked.inside target (List.mem_cons_of_mem _ member)
      exact congrArg some (map_name rewrites.heap.name inside)
  | @clone id contents opened paid opens short pays =>
    obtain ⟨keeps, wf', told⟩ := opens.undisturbed wf.heap
    have peers := (peers_pay _ _).ok pays
    have same : paid.heap = opened.heap := peers.heap.symm
    have adds := adds_withArray (same ▸ wf') contents (.cloned id)
    have names : contents.map (paid.withArray contents (.cloned id)).heap.name = contents.map opened.heap.name := by
      rw [← same] at wf' ⊢
      exact map_name adds.others.heap.name (wf'.within_held? (same ▸ opens.held)).inside
    exact ⟨_, told, names ▸ (adds.after_keeps (keeps_of_peers peers)).after_keeps keeps⟩
  | addRoot checked => exact ⟨rfl, .refl _⟩

theorem Fails.keeps {call : Call} {fault : Fault} (fails : Fails before call fault after) (wf : before.WellFormed) :
    Keeps before after := by
  cases fails with
  | early rejects => exact .refl _
  | unread subject checked failed => exact (Workspace.materialize_undisturbed wf.heap).error failed
  | look opens balks => exact (opens.undisturbed wf.heap).1
  | refused checked opens refused =>
    obtain ⟨keeps, wf', _⟩ := opens.undisturbed wf.heap
    obtain ⟨array, here, _⟩ := held?_eq_some.mp opens.held
    exact keeps.trans ⟨rfl, undisturbed_touch wf' here⟩
  | unpaidCreation refused => exact keeps_of_peers ((peers_pay _ _).error refused)
  | negativeLength pays negative => exact keeps_of_peers ((peers_pay _ _).ok pays)
  | unpaidCopy opens short refused =>
    exact (opens.undisturbed wf.heap).1.trans (keeps_of_peers ((peers_pay _ _).error refused))

theorem run_tells (wf : invocation.WellFormed) (call : Call) :
    Ends (call.run invocation) (fun answer after => Tells invocation after call answer)
      (fun _ => Keeps invocation) := by
  apply run_cases
  · intro _ _ _
    exact .refl _
  · rintro rfl
    unfold abort
    cases invocation.exit? <;> exact ⟨rfl, .refl _⟩
  · intro answer after _ succeeds
    exact succeeds.tells wf
  · intro fault last _ fails
    exact ⟨(fails.keeps wf).storage, (fails.keeps wf).heap⟩

/-- Reading lazily cannot be told from having read all records in advance: in every state before the end,
    a call that succeeds answers and does what the contents say, and one that fails does nothing to them. -/
theorem reached_tells {storage : σ} (reached : Reached storage invocation) (call : Call) :
    Ends (call.run invocation) (fun answer after => Tells invocation after call answer)
      (fun _ => Keeps invocation) :=
  run_tells reached.sound.wellFormed call

def parentNamed : Invocation Memory :=
  (Call.runAll [.load ⟨0⟩ .reference] (start 0 .free parentAndChild)).2

theorem get_parentNamed_tells : ∃ after,
    (Call.get 0 0).run parentNamed = .ok (.value (.reference (some 1))) after ∧
      Tells parentNamed after (.get 0 0) (.value (.reference (some 1))) := by
  have reached : Reached parentAndChild parentNamed := ⟨0, .free, _, rfl⟩
  have ran : Ends ((Call.get 0 0).run parentNamed) (fun answer _ => answer = .value (.reference (some 1)))
      fun _ _ => False := by decide +kernel
  obtain ⟨_, after, done, rfl⟩ := ran.exists_ok fun _ _ => not_false
  exact ⟨after, done, (reached_tells reached (.get 0 0)).ok done⟩

theorem Tells.content? {call : Call} {answer : Answer} (tells : Tells before after call answer) {id : ArrayId}
    (known : id < before.heap.size) (other : rewritten? call ≠ some id) :
    after.content? id = before.content? id := by
  have apart : ∀ {new contents}, Adds before after new contents → id ∉ ({new} : Set ArrayId) := by
    rintro new contents adds rfl
    exact Nat.not_lt.mpr adds.outside known
  cases call <;> cases answer <;> try exact tells.elim
  case create => exact tells.2.others.content? known (apart tells.2)
  case clone =>
    obtain ⟨contents, _, adds⟩ := tells
    exact adds.others.content? known (apart adds)
  case set | replace => exact tells.2.content? known fun same => other (congrArg some same).symm
  case load | length | get | contents => exact tells.2.content? known (Set.notMem_empty id)
  case addRoot | abort => exact Workspace.Undisturbed.content? tells known (Set.notMem_empty id)

theorem runAll_content? (wf : invocation.WellFormed) (calls : List Call) {id : ArrayId}
    (known : id < invocation.heap.size) (kept : ¬ Rewritten calls (Call.runAll calls invocation).1 id) :
    (Call.runAll calls invocation).2.content? id = invocation.content? id := by
  induction calls generalizing invocation with
  | nil => rfl
  | cons call calls ih =>
    have advances := run_advances wf call
    have tells := run_tells wf call
    simp only [Call.runAll] at kept ⊢
    have later : ∀ {after : Invocation σ} {answer}, Advances (fun _ => True) invocation after →
        ¬ Rewritten (call :: calls) (answer :: (Call.runAll calls after).1) id →
        (Call.runAll calls after).2.content? id = after.content? id := by
      intro after answer advances kept
      refine ih (advances.wellFormed wf) (known.trans_le advances.workspace.changes.size_le) ?_
      rintro ⟨rewriting, answer, member, rewrites⟩
      exact kept ⟨rewriting, answer, List.mem_cons_of_mem _ member, rewrites⟩
    cases ran : call.run invocation with
    | ok answer after =>
      rw [ran] at kept
      refine (later (advances.ok ran) kept).trans ((tells.ok ran).content? known fun rewrites => kept ?_)
      exact ⟨call, answer, List.mem_cons_self, rewrites⟩
    | error fault after =>
      rw [ran] at kept
      exact (later (advances.error ran) kept).trans ((tells.error ran).content? known (Set.notMem_empty id))

end Invocation

end MeteredArrays
