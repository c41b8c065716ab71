import MeteredArrays.Heap.LiveArray
import MeteredArrays.Record

namespace MeteredArrays

structure Heap where
  arrays : Array LiveArray
  index : Std.ExtTreeMap Slot ArrayId
  deriving DecidableEq

namespace Heap

def empty : Heap := ⟨#[], ∅⟩

def size (heap : Heap) : Nat :=
  heap.arrays.size

def find (heap : Heap) (id : ArrayId) : Except Fault LiveArray :=
  match heap.arrays[id]? with
  | some array => .ok array
  | none => .error .danglingReference

def bound? (heap : Heap) (slot : Slot) : Option ArrayId :=
  heap.index[slot]?

def needsWriting (heap : Heap) (id : ArrayId) : Bool :=
  heap.arrays[id]?.any LiveArray.needsWriting

def insert (array : LiveArray) : Heap → ArrayId × Heap
  | ⟨arrays, index⟩ =>
    let id := arrays.size
    (id, ⟨arrays.push array, array.slot?.elim index (index.insert · id)⟩)

def update (id : ArrayId) (change : LiveArray → LiveArray) : Heap → Heap
  | ⟨arrays, index⟩ => ⟨arrays.modify id change, index⟩

def bind (id : ArrayId) (slot : Slot) : Heap → Heap
  | ⟨arrays, index⟩ => ⟨arrays.modify id (LiveArray.bind slot), index.insert slot id⟩

/-- The array that a record refers to, which is added unless its slot is known already. -/
def resolve (link : Link) : EStateM Fault Heap ArrayId := fun heap =>
  match heap.bound? link.slot with
  | none =>
    let (id, heap) := heap.insert (.named link.kind link.slot)
    .ok id heap
  | some id =>
    match heap.find id with
    | .error fault => .error fault heap
    | .ok array =>
      if array.kind = link.kind then .ok id heap
      else .error (.storageCorruption .kindMismatch) heap

def link (heap : Heap) (id : ArrayId) : Except Fault Link := do
  let array ← heap.find id
  match array.slot? with
  | some slot => return ⟨array.kind, slot⟩
  | none => throw .danglingReference

def record (heap : Heap) (id : ArrayId) : Except Fault (Slot × Record) := do
  let array ← heap.find id
  match array.slot?, array.contents? with
  | none, _ => throw .danglingReference
  | _, none => throw .notMaterialized
  | some slot, some contents => return (slot, ← Record.encode heap.link contents)

end Heap

end MeteredArrays
