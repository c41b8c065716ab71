import Mathlib.Data.List.Permutation
import MeteredArrays.Proofs.Heap.DepthFirst
import MeteredArrays.Proofs.Workspace.Commit
import MeteredArrays.Storage.Memory

namespace MeteredArrays

namespace Heap

variable {heap : Heap} {id : ArrayId}

theorem isRead_of_isFresh (fresh : heap.isFresh id = true) : heap.isRead id = true := by
  obtain ⟨contents, dirty, here⟩ := isFresh_iff.mp fresh
  rw [isRead, here]
  rfl

theorem isRead_of_needsWriting (needs : heap.needsWriting id = true) : heap.isRead id = true := by
  obtain ⟨array, here, needs⟩ := (Option.any_eq_true _ _).mp needs
  rw [isRead, here]
  cases array with
  | named => cases needs
  | fresh | loaded => rfl

theorem filter_filter_isRead {list : List ArrayId} {holds : ArrayId → Bool}
    (read : ∀ id, holds id = true → heap.isRead id = true) :
    (list.filter heap.isRead).filter holds = list.filter holds := by
  rw [List.filter_filter]
  apply List.filter_congr
  intro id _
  cases held : holds id with
  | false => rfl
  | true => rw [read id held]; rfl

variable {roots : List ArrayId}

theorem pending_eq_survey (closed : heap.Closed) (inside : ∀ root ∈ roots, root < heap.size) :
    heap.pending roots = (heap.survey roots).pending := by
  rw [pending, toured, (walk_eq_survey closed inside).2, (survey_accounts heap roots).pending]
  exact filter_filter_isRead fun _ => isRead_of_needsWriting

theorem unbound_eq_survey (closed : heap.Closed) (inside : ∀ root ∈ roots, root < heap.size) :
    heap.unbound roots = (heap.survey roots).unbound := by
  rw [unbound, toured, (walk_eq_survey closed inside).2, (survey_accounts heap roots).unbound]
  exact filter_filter_isRead fun _ => isRead_of_isFresh

end Heap

namespace Workspace

open Heap

variable {σ : Type} [Storage σ] {workspace : Workspace σ} {roots : List ArrayId}

def grant (id : ArrayId) : Work σ Unit := do
  let slot ← allocate
  onHeap (modify (Heap.bind id slot))

end Workspace

end MeteredArrays
