import MeteredArrays.Workspace.Basic

namespace MeteredArrays.Workspace

variable {σ : Type} [Storage σ]

def load (id : ArrayId) (kind : Kind) (slot : Slot) : Work σ Unit := do
  let some record ← fetch slot | throw (.storageCorruption .notFound)
  match Record.decode kind record with
  | .error why => throw (.storageCorruption why)
  | .ok links =>
    let contents ← onHeap (links.traverse Heap.resolve)
    tell (.materialized id slot contents.length)
    update id (.load contents)

def materialize (id : ArrayId) : Work σ Unit := do
  match ← query (·.find id) with
  | .named kind slot => load id kind slot
  | _ => return

def contents (id : ArrayId) : Work σ (Contents ArrayId) := do
  match (← query (·.find id)).contents? with
  | some contents => return contents
  | none => throw .notMaterialized

def access (id : ArrayId) : Work σ (Contents ArrayId) := do
  materialize id
  contents id

end MeteredArrays.Workspace
