import MeteredArrays.Proofs.Invocation.Run

namespace MeteredArrays.Invocation

open Heap

variable {σ : Type}

/-- What the arrays and the roots of an invocation promise to those who use them. -/
structure Intact (invocation : Invocation σ) : Prop where
  targets : ∀ {id target : ArrayId} {array : LiveArray} {contents : Contents ArrayId},
    invocation.heap.arrays[id]? = some array → array.contents? = some contents → target ∈ contents.targets →
    target < invocation.heap.size
  roots : ∀ root ∈ invocation.roots, root < invocation.heap.size
  kind : ∀ {id : ArrayId} {array : LiveArray} {contents : Contents ArrayId},
    invocation.heap.arrays[id]? = some array → array.contents? = some contents → contents.kind = array.kind
  short : ∀ {id : ArrayId} {array : LiveArray} {contents : Contents ArrayId},
    invocation.heap.arrays[id]? = some array → array.contents? = some contents → contents.length ≤ 2 ^ 31 - 1
  unsaved : ∀ {id : ArrayId} {array : LiveArray}, invocation.heap.arrays[id]? = some array →
    array.isBound = false → array.isMaterialized = true
  dirty : ∀ {id : ArrayId} {array : LiveArray}, invocation.heap.arrays[id]? = some array →
    array.isDirty = true → array.isMaterialized = true
  slots : ∀ {slot : Slot} {id : ArrayId}, invocation.heap.bound? slot = some id ↔
    ∃ array, invocation.heap.arrays[id]? = some array ∧ array.slot? = some slot
  distinct : ∀ {id id' : ArrayId} {array array' : LiveArray} {slot : Slot},
    invocation.heap.arrays[id]? = some array → array.slot? = some slot →
    invocation.heap.arrays[id']? = some array' → array'.slot? = some slot → id = id'

theorem WellFormed.intact {invocation : Invocation σ} (wf : invocation.WellFormed) : invocation.Intact where
  targets here held member := (wf.heap.within here held).inside _ member
  roots := wf.roots
  kind _ held := LiveArray.kind_of_contents? held
  short here held := (wf.heap.within here held).short
  unsaved _ := LiveArray.isMaterialized_of_isBound
  dirty _ := LiveArray.isMaterialized_of_isDirty
  slots := wf.heap.indexed
  distinct := wf.heap.slot_unique

variable [Storage σ]

/-- Calls keep an invocation intact, whether they succeed or fail, and whatever records they meet. The
    kind that an array was made or named with is its kind ever after, and it keeps its slot. -/
theorem runAll_intact (limit : UInt64) (schedule : Schedule) (storage : σ) (calls later : List Call) :
    let before := (Call.runAll calls (start limit schedule storage)).2
    let after := (Call.runAll later before).2
    before.Intact ∧ after.Intact ∧ ∀ (id : ArrayId) (array : LiveArray), before.heap.arrays[id]? = some array →
      ∃ array', after.heap.arrays[id]? = some array' ∧ array.Keeps array' := by
  intro before after
  have fresh := ready_start (fun _ => True) limit schedule storage
  have first : Advances (fun _ => True) _ before :=
    runAll_advances fresh (fun _ _ _ _ _ => trivial) calls fun _ _ _ => trivial
  have second : Advances (fun _ => True) before after :=
    runAll_advances (first.ready fresh) (fun _ _ _ _ _ => trivial) later fun _ _ _ => trivial
  have wf := first.wellFormed fresh.wellFormed
  exact ⟨wf.intact, (second.wellFormed wf).intact, fun _ _ here => second.workspace.changes.keeps here⟩

end MeteredArrays.Invocation
