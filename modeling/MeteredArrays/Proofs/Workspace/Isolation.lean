import MeteredArrays.Proofs.Storage.Memory
import MeteredArrays.Proofs.Workspace.Loading

namespace MeteredArrays

namespace Heap

def Lists (read : Slot → Option Record) (kind : Kind) (slot : Slot) (link : Link) : Prop :=
  ∃ record links, read slot = some record ∧ Record.decode kind record = .ok links ∧ link ∈ links.targets

/-- An entry gives a slot another kind than a second entry does or than an array on the heap has. -/
def Contradicts (heap : Heap) (links : List Link) : Prop :=
  ∃ link ∈ links, (∃ other ∈ links, other.slot = link.slot ∧ other.kind ≠ link.kind) ∨
    ∃ (id : ArrayId) (array : LiveArray), heap.arrays[id]? = some array ∧ array.slot? = some link.slot ∧
      array.kind ≠ link.kind

/-- The arrays that were added are unread ones that `names` tells of, each at a slot of its own that no
    array had before. -/
structure Appends (names : Link → Prop) (heap after : Heap) : Prop where
  indexed : after.Indexed
  added : ∀ {id : ArrayId} {array : LiveArray}, heap.size ≤ id → after.arrays[id]? = some array →
    ∃ link, names link ∧ array = .named link.kind link.slot ∧
      ∀ {old : ArrayId} {before : LiveArray}, heap.arrays[old]? = some before → before.slot? ≠ some link.slot
  apart : ∀ {id id' : ArrayId} {array array' : LiveArray}, heap.size ≤ id → heap.size ≤ id' →
    after.arrays[id]? = some array → after.arrays[id']? = some array' → array.slot? = array'.slot? → id = id'

def Known (heap : Heap) (names : Link → Prop) (link : Link) : Prop :=
  names link ∨ ∃ id, heap.link id = .ok link

variable {read : Slot → Option Record} {names : Link → Prop} {heap after : Heap} {id : ArrayId}

theorem allows_known (heap : Heap) (names : Link → Prop) : heap.Allows (heap.Known names) :=
  fun named => Or.inr ⟨_, named⟩

theorem Extends.appends (ext : Extends read (heap.Known names) heap after) (indexed : heap.Indexed) :
    Appends names heap after := by
  have indexed' : after.Indexed := ext.changes.indexed indexed
  have added : ∀ {id : ArrayId} {array : LiveArray}, heap.size ≤ id → after.arrays[id]? = some array →
      ∃ link, names link ∧ array = .named link.kind link.slot ∧
        ∀ {old : ArrayId} {before : LiveArray}, heap.arrays[old]? = some before →
          before.slot? ≠ some link.slot := by
    intro id array outside here
    obtain ⟨kind, slot, rfl⟩ := LiveArray.eq_named_of_contents? (ext.added outside here)
    have unknown : ∀ {old : ArrayId} {before : LiveArray}, heap.arrays[old]? = some before →
        before.slot? ≠ some slot := by
      intro old before was bound
      -- The old array is still there, and a slot leads to one array only.
      have same : old = id := indexed'.slot_unique (ext.same was) bound here rfl
      exact absurd (same ▸ lt_size was) (Nat.not_lt.mpr outside)
    rcases ext.changes.allows (allows_known heap names) (link_of_slot here rfl) with named | ⟨old, link⟩
    · exact ⟨⟨kind, slot⟩, named, rfl, unknown⟩
    · obtain ⟨before, was, _, bound⟩ := link_eq_ok.mp link
      exact absurd bound (unknown was)
  refine ⟨indexed', added, ?_⟩
  intro id id' array array' outside outside' here there same
  obtain ⟨link, _, rfl, _⟩ := added outside here
  exact indexed'.slot_unique here rfl there same.symm

theorem arrays_load_other {other : ArrayId} (apart : other ≠ id) (contents : Contents ArrayId) :
    (heap.update id (.load contents)).arrays[other]? = heap.arrays[other]? := by
  rw [arrays_update, if_neg (Ne.symm apart)]

theorem Appends.load {kind : Kind} {slot : Slot} (appends : Appends names heap after) (inside : id < heap.size)
    (still : after.arrays[id]? = some (.named kind slot)) (contents : Contents ArrayId) :
    Appends names heap (after.update id (.load contents)) := by
  have others : ∀ {other : ArrayId}, heap.size ≤ other →
      (after.update id (.load contents)).arrays[other]? = after.arrays[other]? :=
    fun outside => arrays_load_other (Nat.ne_of_gt (Nat.lt_of_lt_of_le inside outside)) contents
  constructor
  · apply Indexed.update @appends.indexed
    intro array here
    rw [still] at here
    cases here
    rfl
  · intro other array outside here
    rw [others outside] at here
    exact appends.added outside here
  · intro other other' array array' outside outside' here there same
    rw [others outside] at here
    rw [others outside'] at there
    exact appends.apart outside outside' here there same

theorem not_contradicts {links : List Link} (indexed : after.Indexed)
    (named : ∀ link ∈ links, ∃ id, after.link id = .ok link)
    (keeps : ∀ {id : ArrayId} {array : LiveArray}, heap.arrays[id]? = some array →
      ∃ array', after.arrays[id]? = some array' ∧ array.Keeps array') : ¬ heap.Contradicts links := by
  rintro ⟨link, member, contradiction⟩
  obtain ⟨id, found⟩ := named link member
  obtain ⟨array, here, kind, slot⟩ := link_eq_ok.mp found
  rcases contradiction with ⟨other, member', sameSlot, differs⟩ | ⟨old, before, was, bound, differs⟩
  · obtain ⟨id', found'⟩ := named other member'
    obtain ⟨array', there, kind', slot'⟩ := link_eq_ok.mp found'
    have same : id' = id := indexed.slot_unique there (slot'.trans (congrArg some sameSlot)) here slot
    subst same
    rw [here] at there
    cases there
    exact differs (kind'.symm.trans kind)
  · obtain ⟨array', there, kept⟩ := keeps was
    have same : old = id := indexed.slot_unique there (kept.slot.trans bound) here slot
    subst same
    rw [here] at there
    cases there
    exact differs (kept.kind.symm.trans kind)

theorem Unreadable.contradicts {kind : Kind} {slot : Slot} {record : Record} {links : Contents Link} {fault : Fault}
    (unreadable : heap.Unreadable read (heap.Known (Lists read kind slot)) id fault)
    (here : heap.arrays[id]? = some (.named kind slot)) (stored : read slot = some record)
    (decoded : Record.decode kind record = .ok links) :
    fault = .storageCorruption .kindMismatch ∧ heap.Contradicts links.targets := by
  cases unreadable with
  | dangling absent =>
    rw [here] at absent
    cases absent
  | missing there absent =>
    rw [here] at there
    cases there
    rw [stored] at absent
    cases absent
  | rejected there stored' refused =>
    rw [here] at there
    cases there
    rw [stored] at stored'
    cases stored'
    rw [decoded] at refused
    cases refused
  | clash there stored' decoded' clash =>
    rw [here] at there
    cases there
    rw [stored] at stored'
    cases stored'
    rw [decoded] at decoded'
    cases decoded'
    obtain ⟨rfl, link, member, kind', differs, known⟩ := clash
    refine ⟨rfl, link, member, ?_⟩
    rcases known with ⟨record', links', again, decoded', member'⟩ | ⟨old, named⟩
    · rw [stored] at again
      cases again
      rw [decoded] at decoded'
      cases decoded'
      exact Or.inl ⟨⟨kind', link.slot⟩, member', rfl, differs⟩
    · obtain ⟨before, was, same, bound⟩ := link_eq_ok.mp named
      exact Or.inr ⟨old, before, was, bound, same ▸ differs⟩

end Heap

namespace Workspace

open Heap

variable {σ : Type} [Storage σ] {workspace : Workspace σ} {id : ArrayId} {kind : Kind} {slot : Slot}

theorem materialize_eq_load (here : workspace.heap.arrays[id]? = some (.named kind slot)) :
    materialize id workspace = load id kind slot workspace := by
  simp only [materialize, Bind.bind, EStateM.bind, query, find_eq_ok.mpr here]

/-- The array `id` got the contents that its record tells, and the other arrays stayed as they were. -/
structure Opened (id : ArrayId) (kind : Kind) (slot : Slot) (before after : Workspace σ) : Prop where
  storage : after.storage = before.storage
  appends : Appends (Lists (Storage.read before.storage) kind slot) before.heap after.heap
  others : ∀ {other : ArrayId} {array : LiveArray}, other ≠ id → before.heap.arrays[other]? = some array →
    after.heap.arrays[other]? = some array
  opened : ∃ record links contents, Storage.read before.storage slot = some record ∧
    Record.decode kind record = .ok links ∧ contents.kind = kind ∧ contents.traverse after.heap.link = .ok links ∧
      after.heap.arrays[id]? = some (.loaded slot contents false)

/-- Every array stayed as it was, although arrays may have been added that the record names. -/
structure Unopened (kind : Kind) (slot : Slot) (before after : Workspace σ) : Prop where
  storage : after.storage = before.storage
  appends : Appends (Lists (Storage.read before.storage) kind slot) before.heap after.heap
  same : ∀ {other : ArrayId} {array : LiveArray}, before.heap.arrays[other]? = some array →
    after.heap.arrays[other]? = some array

theorem load_isolated (indexed : workspace.heap.Indexed)
    (here : workspace.heap.arrays[id]? = some (.named kind slot)) :
    Ends (load id kind slot workspace) (fun _ after => Opened id kind slot workspace after)
      (fun fault after => Unopened kind slot workspace after ∧
        workspace.heap.Unreadable (Storage.read workspace.storage)
          (workspace.heap.Known (Lists (Storage.read workspace.storage) kind slot)) id fault) := by
  have discloses : workspace.heap.Discloses (Storage.read workspace.storage)
      (workspace.heap.Known (Lists (Storage.read workspace.storage) kind slot)) id := by
    intro kind' slot' record links there stored decoded link member
    rw [here] at there
    cases there
    exact Or.inl ⟨record, links, stored, decoded, member⟩
  refine (load_opens indexed (allows_known _ _) here discloses).imp ?_ ?_
  · rintro _ ⟨heap, storage, journal⟩ ⟨rfl, middle, contents, ext, rfl, saved, rfl, _⟩
    have still := ext.same here
    have opens : Change (Storage.read workspace.storage) (fun _ => True) middle _ :=
      .loaded id slot contents still saved
    obtain ⟨record, links, stored, decoded, resolved⟩ := saved.mono _ fun _ _ => opens.link
    refine ⟨rfl, (ext.appends indexed).load (lt_size here) still contents, ?_,
      record, links, contents, stored, decoded, rfl, resolved, arrays_update_self still⟩
    intro other array apart was
    exact (arrays_load_other apart contents).trans (ext.same was)
  · rintro fault after ⟨storage, ext, unreadable, _⟩
    exact ⟨⟨storage, ext.appends indexed, ext.same⟩, unreadable⟩

theorem Opened.not_contradicts {after : Workspace σ} (opened : Opened id kind slot workspace after)
    (here : workspace.heap.arrays[id]? = some (.named kind slot)) {record : Record} {links : Contents Link}
    (stored : Storage.read workspace.storage slot = some record) (decoded : Record.decode kind record = .ok links) :
    ¬ workspace.heap.Contradicts links.targets := by
  obtain ⟨record', links', contents, stored', decoded', rfl, resolved, now⟩ := opened.opened
  rw [stored] at stored'
  cases stored'
  rw [decoded] at decoded'
  cases decoded'
  apply Heap.not_contradicts @opened.appends.indexed
  · intro link member
    have entries := (Contents.traverse_eq_ok.mp resolved).targets.flip
    obtain ⟨target, _, named⟩ := forall₂_exists_of_mem entries member
    exact ⟨target, named⟩
  · intro other array was
    by_cases same : other = id
    · subst same
      rw [here] at was
      cases was
      exact ⟨_, now, rfl, rfl, fun _ => rfl⟩
    · exact ⟨array, opened.others same was, .refl array⟩

/-- Bringing contents into memory touches no other array that was there, and not even the array itself if it
    fails. It fails because of a kind exactly if the record contradicts itself or the heap. -/
theorem materialize_isolated (indexed : workspace.heap.Indexed)
    (here : workspace.heap.arrays[id]? = some (.named kind slot)) :
    Ends (materialize id workspace) (fun _ after => Opened id kind slot workspace after)
      (fun _ after => Unopened kind slot workspace after) ∧
    ∀ record links, Storage.read workspace.storage slot = some record → Record.decode kind record = .ok links →
      ((∃ after, materialize id workspace = .error (.storageCorruption .kindMismatch) after) ↔
        workspace.heap.Contradicts links.targets) := by
  rw [materialize_eq_load here]
  have isolated := load_isolated indexed here
  refine ⟨isolated.imp_fail fun _ _ h => h.1, ?_⟩
  intro record links stored decoded
  cases result : load id kind slot workspace with
  | ok answer after =>
    constructor
    · rintro ⟨_, failed⟩
      cases failed
    · exact fun contradicts => absurd contradicts ((isolated.ok result).not_contradicts here stored decoded)
  | error fault after =>
    obtain ⟨rfl, contradicts⟩ := (isolated.error result).2.contradicts here stored decoded
    exact ⟨fun _ => contradicts, fun _ => ⟨after, rfl⟩⟩

def twoKinds : Record :=
  Record.ofContents (.references #[some ⟨.primitive .int, ⟨1⟩⟩, some ⟨.reference, ⟨1⟩⟩])

def twoKindsNamed : Workspace Memory :=
  ⟨(Heap.empty.insert (.named .reference ⟨0⟩)).2, Memory.empty.insert ⟨0⟩ twoKinds, #[]⟩

/-- The array of the first entry was added before the second entry was found to be wrong. -/
theorem materialize_twoKindsNamed : ∃ after,
    materialize 0 twoKindsNamed = .error (.storageCorruption .kindMismatch) after ∧
      after.heap.arrays = #[.named .reference ⟨0⟩, .named (.primitive .int) ⟨1⟩] := by
  have indexed : twoKindsNamed.heap.Indexed := Indexed.insert @wellFormed_empty.indexed fun _ _ => rfl
  have here : twoKindsNamed.heap.arrays[0]? = some (.named .reference ⟨0⟩) := by decide +kernel
  have stored : Storage.read twoKindsNamed.storage ⟨0⟩ = some twoKinds := by decide +kernel
  have decoded : Record.decode .reference twoKinds =
      .ok (.references #[some ⟨.primitive .int, ⟨1⟩⟩, some ⟨.reference, ⟨1⟩⟩]) := by decide +kernel
  have contradicts : twoKindsNamed.heap.Contradicts [⟨.primitive .int, ⟨1⟩⟩, ⟨.reference, ⟨1⟩⟩] :=
    ⟨⟨.primitive .int, ⟨1⟩⟩, by simp, Or.inl ⟨⟨.reference, ⟨1⟩⟩, by simp, rfl, by simp⟩⟩
  obtain ⟨after, failed⟩ := ((materialize_isolated indexed here).2 _ _ stored decoded).mpr contradicts
  have ran : Ends (materialize 0 twoKindsNamed) (fun _ _ => False) fun _ after =>
      after.heap.arrays = #[.named .reference ⟨0⟩, .named (.primitive .int) ⟨1⟩] := by decide +kernel
  exact ⟨after, failed, ran.error failed⟩

end Workspace

end MeteredArrays
