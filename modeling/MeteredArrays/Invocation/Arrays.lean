import MeteredArrays.Invocation.Basic
import MeteredArrays.Workspace.Loading

namespace MeteredArrays.Invocation

variable {σ : Type}

def require (ids : List ArrayId) : Action σ Unit :=
  ids.forM fun id => discard (work (Workspace.query (·.find id)))

def position (index : Int32) : Action σ Nat :=
  if index < 0 then throw .invalidIndex else return index.toNatClampNeg

/-- Makes an array of default elements. It is paid for before anything else happens, at length zero
if the length is negative; only then is a negative length refused. -/
def create (length : Int32) (kind : Kind) : Action σ ArrayId :=
  perform do
    pay (.creation kind length)
    if length < 0 then throw .negativeLength
    work do
      let id ← Workspace.insert (.fresh (.new kind length.toNatClampNeg) false)
      Workspace.tell (.created id kind length)
      return id

def load (slot : Slot) (kind : Kind) : Action σ ArrayId :=
  perform <| work do
    let id ← Workspace.onHeap (Heap.resolve ⟨kind, slot⟩)
    Workspace.tell (.named id slot kind)
    return id

def addRoot (id : ArrayId) : Action σ Unit :=
  perform do
    require [id]
    modify fun ⟨meter, workspace, roots, exit?⟩ => ⟨meter, workspace, roots.push id, exit?⟩

def replace (id : ArrayId) (contents : Contents ArrayId) : Action σ Unit :=
  perform do
    require contents.targets
    work do
      let current ← Workspace.contents id
      if current.kind ≠ contents.kind ∨ current.length ≠ contents.length then
        throw .invalidBackingStore
      Workspace.update id .touch
      Workspace.update id (.mapContents fun _ => contents)

variable [Storage σ]

def contents (id : ArrayId) : Action σ (Contents ArrayId) := do
  perform <| work <| discard (Workspace.access id)
  work (Workspace.contents id)

def length (id : ArrayId) : Action σ Nat :=
  perform <| work (Contents.length <$> Workspace.access id)

def get (id : ArrayId) (index : Int32) : Action σ (Value ArrayId) :=
  perform do
    let contents ← work (Workspace.access id)
    let index ← position index
    match contents.get? index with
    | some value => return value
    | none => throw .invalidIndex

/-- Stores `value` at `index`. The array counts as changed from here on, even if its index or the
kind of the value turns out to be wrong. -/
def set (id : ArrayId) (index : Int32) (value : Value ArrayId) : Action σ Unit :=
  perform do
    require value.target?.toList
    let index ← position index
    work do
      Workspace.materialize id
      Workspace.update id .touch
      match (← Workspace.contents id).refusal? index value with
      | some fault => throw fault
      | none => Workspace.update id (.mapContents (.put index value))

def clone (id : ArrayId) : Action σ ArrayId :=
  perform do
    let contents ← work (Workspace.access id)
    if Record.maxLength < contents.length then throw .arithmeticOverflow
    pay (.cloning (Int32.ofNat contents.length))
    work do
      let copy ← Workspace.insert (.fresh contents false)
      Workspace.tell (.cloned id copy)
      return copy

end MeteredArrays.Invocation
