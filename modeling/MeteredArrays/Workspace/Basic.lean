import MeteredArrays.Heap.Basic
import MeteredArrays.Storage.Basic

namespace MeteredArrays

structure Workspace (σ : Type) where
  heap : Heap
  storage : σ
  journal : Journal

abbrev Work (σ : Type) := EStateM Fault (Workspace σ)

namespace Workspace

variable {σ α : Type}

def start (storage : σ) : Workspace σ :=
  ⟨Heap.empty, storage, #[]⟩

def announce (workspace : Workspace σ) (events : List Event) : Workspace σ :=
  { workspace with journal := workspace.journal ++ events }

def tell (event : Event) : Work σ Unit :=
  modify fun ⟨heap, storage, journal⟩ => ⟨heap, storage, journal.push event⟩

def query (question : Heap → Except Fault α) : Work σ α := fun workspace =>
  match question workspace.heap with
  | .ok answer => .ok answer workspace
  | .error fault => .error fault workspace

def onHeap (change : EStateM Fault Heap α) : Work σ α := fun ⟨heap, storage, journal⟩ =>
  match change heap with
  | .ok answer heap => .ok answer ⟨heap, storage, journal⟩
  | .error fault heap => .error fault ⟨heap, storage, journal⟩

def insert (array : LiveArray) : Work σ ArrayId :=
  onHeap (modifyGet (Heap.insert array))

def update (id : ArrayId) (change : LiveArray → LiveArray) : Work σ Unit :=
  onHeap (modify (Heap.update id change))

variable [Storage σ]

def fetch (slot : Slot) : Work σ (Option Record) := do
  tell (.fetched slot)
  return Storage.read (← get).storage slot

def allocate : Work σ Slot := fun ⟨heap, storage, journal⟩ =>
  let (slot, storage) := Storage.allocate storage
  .ok slot ⟨heap, storage, journal.push (.allocated slot)⟩

def store (slot : Slot) (record : Record) : Work σ Unit := fun ⟨heap, storage, journal⟩ =>
  let journal := journal.push (.stored slot record)
  match Storage.write slot record storage with
  | .ok _ storage => .ok () ⟨heap, storage, journal⟩
  | .error fault storage => .error fault ⟨heap, storage, journal⟩

end Workspace

end MeteredArrays
