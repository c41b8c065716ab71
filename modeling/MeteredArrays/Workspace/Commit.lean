import MeteredArrays.Heap.Walk
import MeteredArrays.Workspace.Basic

namespace MeteredArrays

structure Persisted where
  roots : List Slot
  written : Nat
  deriving DecidableEq

namespace Workspace

variable {σ : Type} [Storage σ]

def assignSlot (id : ArrayId) : Work σ Unit := do
  match ← query (·.find id) with
  | .fresh .. =>
    let slot ← allocate
    onHeap (modify (Heap.bind id slot))
  | _ => return

def save (id : ArrayId) : Work σ Unit := do
  let (slot, record) ← query (·.record id)
  tell (.persisting id slot record.length)
  store slot record
  update id LiveArray.clean

def persist (roots : List ArrayId) : Work σ Persisted := do
  let heap := (← get).heap
  let tour := heap.walk roots
  let pending := tour.order.filter heap.needsWriting
  -- Slots come first, so that records can refer to arrays in any order and around cycles.
  tour.order.forM assignSlot
  if let some fault := tour.fault? then throw fault
  pending.forM save
  let slots ← query fun heap => roots.mapM fun root => Link.slot <$> heap.link root
  return ⟨slots, pending.length⟩

end Workspace

end MeteredArrays
