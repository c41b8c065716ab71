import MeteredArrays.Proofs.Invocation.SlotIdentity
import MeteredArrays.Proofs.Invocation.Updates

namespace MeteredArrays

namespace Workspace

open Heap

variable {σ : Type} [Storage σ] {before after : Workspace σ} {roots : List ArrayId} {persisted : Persisted}

/-- One slot each for the arrays without a slot that `roots` lead to, and no slot for any other array. -/
structure Granting (roots : List ArrayId) (before after : Workspace σ) (grants : List (ArrayId × Slot)) : Prop where
  once : (grants.map Prod.fst).Nodup
  granted : ∀ id, id ∈ grants.map Prod.fst ↔ before.heap.Reaches roots id ∧
    ∃ array, before.heap.arrays[id]? = some array ∧ array.isBound = false
  bound : ∀ id slot, (id, slot) ∈ grants → ∃ array, after.heap.arrays[id]? = some array ∧ array.slot? = some slot
  handed : grants.map Prod.snd = Storage.handouts grants.length before.storage

/-- One write each for the arrays without a slot and for the changed arrays that `roots` lead to, and no write
    for any other array. -/
structure Saving (roots : List ArrayId) (before after : Workspace σ) (saves : List (ArrayId × Slot × Record)) :
    Prop where
  once : (saves.map Prod.fst).Nodup
  saved : ∀ id, id ∈ saves.map Prod.fst ↔ before.heap.Reaches roots id ∧
    ∃ array, before.heap.arrays[id]? = some array ∧ (array.isBound = false ∨ array.isDirty = true)
  record : ∀ id write, (id, write) ∈ saves → after.heap.record id = .ok write
  apart : ((saves.map Prod.snd).map Prod.fst).Nodup

namespace Commits

theorem granting (wf : before.heap.WellFormed) (inside : ∀ root ∈ roots, root < before.heap.size)
    (commits : Commits roots before after persisted) : Granting roots before after (before.grants roots) where
  once := by
    rw [grants_fst]
    exact nodup_unbound wf inside
  granted id := by
    rw [grants_fst, mem_unbound wf inside, isFresh_iff_isBound]
  bound id slot member := (commits.granted wf inside member).2
  handed := by
    rw [grants_snd, length_grants]

theorem saving (separable : before.Separable roots) (commits : Commits roots before after persisted) :
    Saving roots before after (before.saves roots) where
  once := by
    rw [saves_fst separable.wellFormed separable.inside]
    exact (walk_complete separable.wellFormed separable.inside).nodup.filter _
  saved id := by
    rw [saves_fst separable.wellFormed separable.inside, mem_pending separable.wellFormed separable.inside,
      needsWriting_iff]
  record id write member := by
    have all := records_writes separable.wellFormed separable.inside
    rw [commits.heap, record_cleanAll]
    exact (List.forall₂_iff_zip.mp all).2 member
  apart := by
    rw [saves_snd separable.wellFormed separable.inside]
    exact separable.nodup_slots (records_writes separable.wellFormed separable.inside)

theorem root_slots (commits : Commits roots before after persisted) :
    List.Forall₂ (fun root slot => ∃ array, after.heap.arrays[root]? = some array ∧ array.slot? = some slot)
      roots persisted.roots := by
  apply (except_mapM_eq_ok.mp commits.roots).imp
  intro root slot placed
  rw [← commits.link_eq] at placed
  cases named : after.heap.link root with
  | error fault =>
    rw [named] at placed
    cases placed
  | ok link =>
    rw [named] at placed
    cases placed
    obtain ⟨array, here, _, bound⟩ := link_eq_ok.mp named
    exact ⟨array, here, bound⟩

theorem arrays_of_not_reaches (wf : before.heap.WellFormed) (inside : ∀ root ∈ roots, root < before.heap.size)
    (commits : Commits roots before after persisted) {id : ArrayId} (apart : ¬ before.heap.Reaches roots id) :
    after.heap.arrays[id]? = before.heap.arrays[id]? := by
  have unwritten : id ∉ before.heap.pending roots := fun member => apart ((mem_pending wf inside id).mp member).1
  have ungranted : id ∉ before.heap.unbound roots := fun member => apart ((mem_unbound wf inside id).mp member).1
  rw [commits.heap, arrays_cleanAll, if_neg unwritten]
  apply arrays_bindAll_of_not_mem
  rw [grants_fst]
  exact ungranted

end Commits

end Workspace

namespace Invocation

open Heap

variable {σ : Type} [Storage σ] {storage : σ} {before : Invocation σ}

/-- An end that hands out slots for `grants`, makes the writes `saves`, and does nothing else to the storage
    or to arrays that the roots do not lead to. -/
structure Exact (before after : Invocation σ) (finalized : Finalized) (grants : List (ArrayId × Slot))
    (saves : List (ArrayId × Slot × Record)) : Prop where
  granting : Workspace.Granting before.roots.toList before.workspace after.workspace grants
  saving : Workspace.Saving before.roots.toList before.workspace after.workspace saves
  storage : Storage.Wrote (saves.map Prod.snd) (Storage.reserve grants.length before.workspace.storage)
    after.workspace.storage
  journal : after.journal = before.journal ++ (Workspace.grantEvents grants ++ Workspace.saveEvents saves) ++
    [Event.finalized finalized.written before.used]
  written : finalized.written = saves.length
  roots : List.Forall₂ (fun root slot => ∃ array, after.heap.arrays[root]? = some array ∧ array.slot? = some slot)
    before.roots.toList finalized.roots
  reads : FaithfulStorage σ → ∀ slot, slot ∉ (saves.map Prod.snd).map Prod.fst →
    Storage.read after.workspace.storage slot = Storage.read before.workspace.storage slot
  others : ∀ id, ¬ before.heap.Reaches before.roots.toList id → after.heap.arrays[id]? = before.heap.arrays[id]?

/-- An invocation ends with the writes that it owes: each array that the roots lead to gets a slot if it has
    none, and is written if it had none or was changed, once and at a slot of its own. Nothing else is asked
    of the storage. -/
theorem finalize_exact (reached : Reached storage before)
    (untaken : before.workspace.Untaken before.roots.toList) :
    (∀ {finalized : Finalized} {after : Invocation σ}, finalize before = .ok finalized after →
      ∃ grants saves, Exact before after finalized grants saves) ∧
    (Storage.Accepting storage → (∃ finalized after, finalize before = .ok finalized after) ∨
      ∃ fault, before.exit? = some fault ∧ finalize before = .error fault before) := by
  obtain ⟨rfl, wf, backed⟩ := reached.sound
  have heap : before.workspace.heap.WellFormed := wf.heap
  have inside : ∀ root ∈ before.roots.toList, root < before.workspace.heap.size := roots_inside wf
  constructor
  · intro finalized after done
    have running := (finalize_ok wf done).1
    obtain ⟨commits, wrote, written, told⟩ := (finalize_ends wf running).ok done
    refine ⟨before.workspace.grants before.roots.toList, before.workspace.saves before.roots.toList, ?_⟩
    exact {
      granting := commits.granting heap inside
      saving := commits.saving (untaken.separable heap inside backed)
      storage := by
        rw [Workspace.saves_snd heap inside, Workspace.length_grants]
        exact wrote
      journal := told
      written := by
        rw [written, Workspace.length_saves heap inside]
        rfl
      roots := commits.root_slots
      reads := by
        intro _ slot unwritten
        rw [Workspace.saves_snd heap inside] at unwritten
        rw [wrote.read, overwrite_of_not_mem unwritten, Storage.read_reserve]
      others := fun id apart => commits.arrays_of_not_reaches heap inside apart }
  · intro accepting
    cases running : before.exit? with
    | some fault => exact Or.inr ⟨fault, rfl, finalize_halted running⟩
    | none => exact Or.inl (finalize_succeeds wf running accepting)

def childShared : Invocation Memory :=
  (Call.runAll [.load ⟨0⟩ .reference, .get 0 0, .set 1 0 (.scalar .int 7), .create 2 .reference,
      .set 2 0 (.reference (some 0)), .set 2 1 (.reference (some 1)), .create 1 .reference, .addRoot 2, .addRoot 2]
    (start 0 .free parentAndChild)).2

theorem childShared_exact : ∃ finalized after, finalize childShared = .ok finalized after ∧
    finalized.written = 2 ∧ ∃ grants saves, Exact childShared after finalized grants saves := by
  have reached : Reached parentAndChild childShared := ⟨0, .free, _, rfl⟩
  have untaken : childShared.workspace.Untaken childShared.roots.toList := by
    constructor <;> decide +kernel
  have ran : Ends (finalize childShared) (fun finalized _ => finalized.written = 2) fun _ _ => False := by
    decide +kernel
  obtain ⟨finalized, after, done, written⟩ := ran.exists_ok fun _ _ => not_false
  exact ⟨finalized, after, done, written, (finalize_exact reached untaken).1 done⟩

end Invocation

end MeteredArrays
