import MeteredArrays.Proofs.Invocation.SlotIdentity
import MeteredArrays.Proofs.Invocation.Updates

namespace MeteredArrays

namespace Workspace

open Heap

variable {σ : Type} [Storage σ] {before after : Workspace σ} {roots : List ArrayId} {persisted : Persisted}

theorem Commits.saved_reached [FaithfulStorage σ] (apart : before.Separable roots)
    (commits : Commits roots before after persisted) {id : ArrayId} {array : LiveArray}
    {contents : Contents ArrayId} (reaches : after.heap.Reaches roots id)
    (here : after.heap.arrays[id]? = some array) (held : array.contents? = some contents) :
    ∃ slot, array = .loaded slot contents false ∧
      after.heap.Saved (Storage.read after.storage) slot contents := by
  have same := commits.contents?_eq apart.wellFormed apart.inside id
  rw [here, Option.bind_some, held] at same
  obtain ⟨old, was, held'⟩ := Option.bind_eq_some_iff.mp same.symm
  have reached := (commits.reaches_iff apart.wellFormed apart.inside id).mp reaches
  obtain ⟨slot, now, saved⟩ := commits.saved apart reached was held'
  rw [here] at now
  exact ⟨slot, Option.some.inj now, saved⟩

end Workspace

namespace Invocation

open Heap

variable {σ : Type} [Storage σ] {storage : σ} {before : Invocation σ}

/-- Contents that are not marked as changed are those of the record: in every state before the end, and for
    all arrays that the roots lead to once the invocation ended well, if no slot that was handed out for it
    belonged to an array by then. -/
theorem clean_eq_stored (reached : Reached storage before) :
    (∀ {id : ArrayId} {array : LiveArray} {contents : Contents ArrayId},
      before.heap.arrays[id]? = some array → array.isBound = true → array.contents? = some contents →
      array.isDirty = false → ∃ slot, array.slot? = some slot ∧
        before.heap.Saved (Storage.read before.workspace.storage) slot contents) ∧
    ∀ [FaithfulStorage σ] {finalized : Finalized} {after : Invocation σ},
      before.workspace.Untaken before.roots.toList → finalize before = .ok finalized after →
      ∀ {id : ArrayId} {array : LiveArray} {contents : Contents ArrayId},
        after.heap.Reaches before.roots.toList id → after.heap.arrays[id]? = some array →
        array.contents? = some contents → ∃ slot, array = .loaded slot contents false ∧
          after.heap.Saved (Storage.read after.workspace.storage) slot contents := by
  obtain ⟨rfl, wf, backed⟩ := reached.sound
  constructor
  · intro id array contents here bound held clean
    cases array with
    | fresh => cases bound
    | named => cases held
    | loaded slot =>
      cases held
      cases clean
      exact ⟨slot, rfl, backed.clean here⟩
  · intro _ finalized after untaken done
    obtain ⟨_, persisted, commits, _⟩ := finalize_ok wf done
    exact commits.saved_reached (untaken.separable wf.heap (roots_inside wf) backed)

def parentReferred : Invocation Memory :=
  (Call.runAll [.load ⟨0⟩ .reference, .get 0 0, .create 1 .reference, .set 2 0 (.reference (some 0)), .addRoot 2]
    (start 0 .free parentAndChild)).2

theorem parentReferred_clean :
    parentReferred.heap.Saved (Storage.read parentReferred.workspace.storage) ⟨0⟩ (.references #[some 1]) ∧
    ∃ finalized after, finalize parentReferred = .ok finalized after ∧
      after.heap.Saved (Storage.read after.workspace.storage) ⟨2⟩ (.references #[some 0]) := by
  have reached : Reached parentAndChild parentReferred := ⟨0, .free, _, rfl⟩
  obtain ⟨clean, saved⟩ := clean_eq_stored reached
  have parent : parentReferred.heap.arrays[0]? = some (.loaded ⟨0⟩ (.references #[some 1]) false) := by
    decide +kernel
  obtain ⟨slot, bound, first⟩ := clean parent rfl rfl rfl
  cases bound
  have ran : Ends (finalize parentReferred)
      (fun _ after => after.heap.arrays[2]? = some (.loaded ⟨2⟩ (.references #[some 0]) false)) fun _ _ => False := by
    decide +kernel
  obtain ⟨finalized, after, done, child⟩ := ran.exists_ok fun _ _ => not_false
  have untaken : parentReferred.workspace.Untaken parentReferred.roots.toList := by
    constructor <;> decide +kernel
  obtain ⟨slot, now, second⟩ := saved untaken done (.root (by decide +kernel)) child rfl
  cases now
  exact ⟨first, finalized, after, done, second⟩

end Invocation

end MeteredArrays
