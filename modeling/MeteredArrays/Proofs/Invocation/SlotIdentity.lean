import MeteredArrays.Proofs.Invocation.Ending
import MeteredArrays.Storage.Memory

namespace MeteredArrays

namespace Heap

/-- No two arrays have the same slot, and the index finds the array of every slot. -/
structure Identified (heap : Heap) : Prop where
  unique : ∀ {id id' : ArrayId} {array array' : LiveArray} {slot : Slot}, heap.arrays[id]? = some array →
    array.slot? = some slot → heap.arrays[id']? = some array' → array'.slot? = some slot → id = id'
  found : ∀ {id : ArrayId} {array : LiveArray} {slot : Slot}, heap.arrays[id]? = some array →
    array.slot? = some slot → heap.bound? slot = some id

theorem WellFormed.identified {heap : Heap} (wf : heap.WellFormed) : heap.Identified :=
  ⟨wf.slot_unique, wf.index_of_slot⟩

end Heap

namespace Workspace

open Heap

variable {σ : Type} [Storage σ] {before after : Workspace σ} {roots : List ArrayId} {persisted : Persisted}

/-- The slots handed out to a commit are different ones, and no array of the heap has one of them. -/
structure Untaken (before : Workspace σ) (roots : List ArrayId) : Prop where
  nodup : (Storage.handouts (before.heap.unbound roots).length before.storage).Nodup
  unknown : ∀ slot ∈ Storage.handouts (before.heap.unbound roots).length before.storage,
    before.heap.bound? slot = none

theorem untaken_of_recorded (wf : before.heap.WellFormed)
    (supplies : Storage.Supplies (before.heap.unbound roots).length before.storage)
    (recorded : ∀ {id : ArrayId} {array : LiveArray} {slot : Slot}, before.heap.arrays[id]? = some array →
      array.slot? = some slot → Storage.read before.storage slot ≠ none) : before.Untaken roots := by
  refine ⟨supplies.nodup, fun slot member => ?_⟩
  cases known : before.heap.bound? slot with
  | none => rfl
  | some id =>
    obtain ⟨array, here, bound⟩ := wf.indexed.mp known
    exact absurd (supplies.unrecorded slot member) (recorded here bound)

theorem assigned_wellFormed (wf : before.heap.WellFormed) (inside : ∀ root ∈ roots, root < before.heap.size)
    (untaken : before.Untaken roots) : (before.assigned roots).WellFormed := by
  refine wf.bindAll ?_ ?_ ?_ ?_
  · rw [grants_fst]
    exact fun id member => List.of_mem_filter member
  · rw [grants_fst]
    exact nodup_unbound wf inside
  · rw [grants_snd]
    exact untaken.nodup
  · rw [grants_snd]
    exact untaken.unknown

theorem Untaken.separable (untaken : before.Untaken roots) (wf : before.heap.WellFormed)
    (inside : ∀ root ∈ roots, root < before.heap.size) (backed : before.heap.Backed (Storage.read before.storage)) :
    before.Separable roots where
  wellFormed := wf
  inside := inside
  backed := backed
  distinct here there := (assigned_wellFormed wf inside untaken).slot_unique here rfl there rfl

namespace Commits

theorem wellFormed (wf : before.heap.WellFormed) (inside : ∀ root ∈ roots, root < before.heap.size)
    (untaken : before.Untaken roots) (commits : Commits roots before after persisted) :
    after.heap.WellFormed := by
  rw [commits.heap]
  exact (assigned_wellFormed wf inside untaken).cleanAll _

theorem granted (wf : before.heap.WellFormed) (inside : ∀ root ∈ roots, root < before.heap.size)
    (commits : Commits roots before after persisted) {id : ArrayId} {slot : Slot}
    (member : (id, slot) ∈ before.grants roots) :
    before.heap.isFresh id = true ∧
      ∃ array, after.heap.arrays[id]? = some array ∧ array.slot? = some slot := by
  have fresh : id ∈ before.heap.unbound roots := by
    rw [← grants_fst]
    exact List.mem_map.mpr ⟨_, member, rfl⟩
  obtain ⟨contents, dirty, here⟩ := isFresh_iff.mp (List.of_mem_filter fresh)
  have now : (before.assigned roots).arrays[id]? = some (.loaded slot contents dirty) := by
    rw [assigned, arrays_bindAll_of_mem (by rw [grants_fst]; exact nodup_unbound wf inside) member, here]
    rfl
  have named : after.heap.link id = .ok ⟨contents.kind, slot⟩ := by
    rw [commits.link_eq]
    exact link_of_slot now rfl
  obtain ⟨array, there, _, bound⟩ := link_eq_ok.mp named
  exact ⟨List.of_mem_filter fresh, array, there, bound⟩

theorem keeps_slot (wf : before.heap.WellFormed) (inside : ∀ root ∈ roots, root < before.heap.size)
    (commits : Commits roots before after persisted) {id : ArrayId} {array : LiveArray} {slot : Slot}
    (here : before.heap.arrays[id]? = some array) (bound : array.slot? = some slot) :
    ∃ array, after.heap.arrays[id]? = some array ∧ array.slot? = some slot := by
  have named : (before.assigned roots).link id = .ok ⟨array.kind, slot⟩ :=
    link_assigned wf inside (link_of_slot here bound)
  rw [← commits.link_eq] at named
  obtain ⟨array', there, _, bound'⟩ := link_eq_ok.mp named
  exact ⟨array', there, bound'⟩

theorem identified_iff (wf : before.heap.WellFormed) (inside : ∀ root ∈ roots, root < before.heap.size)
    (commits : Commits roots before after persisted) : after.heap.Identified ↔ before.Untaken roots := by
  constructor
  · intro identified
    constructor
    · have nodup : (before.grants roots).Nodup := by
        refine List.Nodup.of_map Prod.fst ?_
        rw [grants_fst]
        exact nodup_unbound wf inside
      rw [← grants_snd]
      refine nodup.map_on ?_
      rintro ⟨id, slot⟩ member ⟨id', slot'⟩ member' same
      obtain ⟨_, array, here, bound⟩ := commits.granted wf inside member
      obtain ⟨_, array', there, bound'⟩ := commits.granted wf inside member'
      have same : slot = slot' := same
      rw [identified.unique here bound there (bound'.trans (congrArg some same.symm)), same]
    · intro slot member
      rw [← grants_snd] at member
      obtain ⟨⟨id, slot'⟩, granted, rfl⟩ := List.mem_map.mp member
      obtain ⟨fresh, array, here, bound⟩ := commits.granted wf inside granted
      cases known : before.heap.bound? slot' with
      | none => rfl
      | some id' =>
        obtain ⟨old, was, bound'⟩ := wf.indexed.mp known
        obtain ⟨array', there, bound''⟩ := commits.keeps_slot wf inside was bound'
        have same := identified.unique here bound there bound''
        subst id'
        obtain ⟨contents, dirty, was'⟩ := isFresh_iff.mp fresh
        rw [was] at was'
        cases was'
        cases bound'
  · intro untaken
    exact (commits.wellFormed wf inside untaken).identified

end Commits

end Workspace

namespace Invocation

open Heap

variable {σ : Type} [Storage σ] {before after : Invocation σ} {finalized : Finalized}

/-- A commit keeps slots and arrays in one-to-one correspondence exactly if the slots that it is
    handed are different ones and none of them belongs to an array already: a named array whose slot has
    no record is the one way in which a fresh slot can belong to an array. -/
theorem finalize_identified_iff {storage : σ} (reached : Reached storage before)
    (done : finalize before = .ok finalized after) :
    after.heap.Identified ↔ before.workspace.Untaken before.roots.toList := by
  have sound := reached.sound
  obtain ⟨_, persisted, commits, _⟩ := finalize_ok sound.wellFormed done
  exact commits.identified_iff sound.wellFormed.heap (roots_inside sound.wellFormed)

def namedAndCreated : Invocation Memory :=
  (Call.runAll [.load ⟨0⟩ (.primitive .int), .create 1 (.primitive .int), .addRoot 1]
    (start 0 .free Memory.empty)).2

theorem namedAndCreated_not_identified : ∃ finalized after, finalize namedAndCreated = .ok finalized after ∧
    ¬ after.heap.Identified := by
  have reached : Reached Memory.empty namedAndCreated := ⟨0, .free, _, rfl⟩
  have ran : Ends (finalize namedAndCreated) (fun _ _ => True) fun _ _ => False := by decide +kernel
  obtain ⟨finalized, after, done, _⟩ := ran.exists_ok fun _ _ => not_false
  refine ⟨finalized, after, done, fun identified => ?_⟩
  have untaken := (finalize_identified_iff reached done).mp identified
  have known : namedAndCreated.heap.bound? ⟨0⟩ = some 0 := by decide +kernel
  have handed : (⟨0⟩ : Slot) ∈ Storage.handouts
      (namedAndCreated.heap.unbound namedAndCreated.roots.toList).length namedAndCreated.workspace.storage := by
    decide +kernel
  have unknown := untaken.unknown ⟨0⟩ handed
  rw [show namedAndCreated.workspace.heap.bound? ⟨0⟩ = some 0 from known] at unknown
  cases unknown

end Invocation

end MeteredArrays
