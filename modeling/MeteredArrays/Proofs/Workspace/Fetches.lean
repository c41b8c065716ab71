import MeteredArrays.Proofs.Workspace.Loading
import MeteredArrays.Workspace.Commit

namespace MeteredArrays

def Event.fetched? : Event → Option Slot
  | fetched slot => some slot
  | _ => none

def fetches (journal : Journal) : List Slot :=
  journal.toList.filterMap Event.fetched?

theorem fetches_push {journal : Journal} {event : Event} (silent : event.fetched? = none) :
    fetches (journal.push event) = fetches journal := by
  simp [fetches, silent]

theorem fetches_append (journal : Journal) (events : List Event) :
    fetches (journal ++ events) = fetches journal ++ events.filterMap Event.fetched? := by
  simp only [fetches, Array.toList_appendList, List.filterMap_append]

namespace Heap

def unread? (heap : Heap) (id : ArrayId) : Option Slot :=
  match heap.arrays[id]? with
  | some (.named _ slot) => some slot
  | _ => none

variable {heap : Heap} {id : ArrayId} {slot : Slot}

theorem unread?_eq_some : heap.unread? id = some slot ↔
    ∃ array, heap.arrays[id]? = some array ∧ array.slot? = some slot ∧ array.isMaterialized = false := by
  unfold unread?
  cases heap.arrays[id]? with
  | none => simp
  | some array => cases array <;> simp [LiveArray.slot?, LiveArray.isMaterialized, LiveArray.contents?]

end Heap

namespace Workspace

open Heap

variable {σ α : Type} {workspace : Workspace σ}

def fetched (workspace : Workspace σ) : List Slot :=
  fetches workspace.journal

theorem leaves_tell {event : Event} (silent : event.fetched? = none) : Leaves fetched (tell event : Work σ Unit) :=
  fun _ => fetches_push silent

theorem leaves_query (question : Heap → Except Fault α) : Leaves fetched (query question : Work σ α) := by
  intro workspace
  simp only [query]
  cases question workspace.heap with
  | ok answer => exact rfl
  | error fault => exact rfl

theorem leaves_onHeap (change : EStateM Fault Heap α) : Leaves fetched (onHeap change : Work σ α) := by
  intro workspace
  apply onHeap_ends
  cases change workspace.heap with
  | ok answer heap => exact rfl
  | error fault heap => exact rfl

variable [Storage σ]

theorem leaves_allocate : Leaves fetched (allocate : Work σ Slot) :=
  fun _ => fetches_push rfl

theorem leaves_store (slot : Slot) (record : Record) : Leaves fetched (store slot record : Work σ Unit) := by
  intro workspace
  simp only [store]
  cases Storage.write slot record workspace.storage with
  | ok _ storage => exact fetches_push rfl
  | error fault storage => exact fetches_push rfl

theorem leaves_assignSlot (id : ArrayId) : Leaves fetched (assignSlot id : Work σ Unit) := by
  apply Leaves.bind (leaves_query _)
  intro array
  cases array with
  | fresh contents dirty => exact Leaves.bind leaves_allocate fun _ => leaves_onHeap _
  | named | loaded => exact Leaves.pure _

theorem leaves_save (id : ArrayId) : Leaves fetched (save id : Work σ Unit) := by
  apply Leaves.bind (leaves_query _)
  intro write
  apply Leaves.bind (leaves_tell rfl)
  intro _
  exact Leaves.bind (leaves_store _ _) fun _ => leaves_onHeap _

theorem leaves_persist (roots : List ArrayId) : Leaves fetched (persist roots : Work σ Persisted) := by
  have looked : Leaves fetched (MonadState.get : Work σ (Workspace σ)) := fun _ => rfl
  unfold persist
  apply Leaves.bind looked
  intro workspace
  apply Leaves.bind (Leaves.forM _ leaves_assignSlot)
  intro _
  have written : ∀ _ : PUnit, Leaves fetched (do
      ((workspace.heap.walk roots).order.filter workspace.heap.needsWriting).forM save
      let slots ← query fun heap => roots.mapM fun root => Link.slot <$> heap.link root
      return ⟨slots, ((workspace.heap.walk roots).order.filter workspace.heap.needsWriting).length⟩ :
        Work σ Persisted) := by
    intro _
    apply Leaves.bind (Leaves.forM _ leaves_save)
    intro _
    exact Leaves.bind (leaves_query _) fun _ => Leaves.pure _
  cases (workspace.heap.walk roots).fault? with
  | some fault => exact Leaves.bind (Leaves.throw _) written
  | none => exact written ⟨⟩

def Fetches (id : ArrayId) (before after : Workspace σ) : Prop :=
  after.fetched = before.fetched ++ (before.heap.unread? id).toList

/-- Bringing contents into memory reads no record but that of the array, not even those of the arrays that
    it refers to. -/
theorem materialize_fetches (wf : workspace.heap.WellFormed) (id : ArrayId) :
    Ends (materialize id workspace) (fun _ after => Fetches id workspace after ∧ after.heap.InMemory id)
      fun _ after => Fetches id workspace after := by
  have allows : workspace.heap.Allows fun _ => True := fun _ => trivial
  unfold Fetches unread?
  apply materialize_cases
  · intro absent
    rw [absent]
    exact (List.append_nil _).symm
  · intro kind slot here
    rw [here]
    apply (load_opens @wf.indexed allows here (discloses_true _ _ id)).imp
    · intro _ after opens
      obtain ⟨_, opened, contents, ext, _, _, heap, told⟩ := opens
      constructor
      · rw [fetched, told]
        exact fetches_append _ _
      · rw [heap]
        exact ⟨_, contents, arrays_update_self (ext.same here), rfl⟩
    · intro fault after failed
      obtain ⟨_, _, _, told⟩ := failed
      rw [fetched, told]
      exact fetches_append _ _
  · intro array contents here held
    refine ⟨?_, array, contents, here, held⟩
    rw [here]
    cases array with
    | named kind slot => cases held
    | fresh | loaded => exact (List.append_nil _).symm

end Workspace

end MeteredArrays
