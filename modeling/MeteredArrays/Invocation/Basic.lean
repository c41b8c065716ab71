import MeteredArrays.Energy.Meter
import MeteredArrays.Workspace.Basic

namespace MeteredArrays

structure Invocation (σ : Type) where
  meter : Meter
  workspace : Workspace σ
  roots : Array ArrayId
  exit? : Option Fault

/-- A computation of an invocation. What it did before it failed remains done. -/
abbrev Action (σ : Type) := EStateM Fault (Invocation σ)

namespace Invocation

variable {σ α : Type}

def start (limit : UInt64) (schedule : Schedule) (storage : σ) : Invocation σ :=
  ⟨Meter.start limit schedule, Workspace.start storage, #[], none⟩

def heap (invocation : Invocation σ) : Heap :=
  invocation.workspace.heap

def remaining (invocation : Invocation σ) : UInt64 :=
  invocation.meter.ledger.remaining

def used (invocation : Invocation σ) : UInt64 :=
  invocation.meter.ledger.used

def journal (invocation : Invocation σ) : Journal :=
  invocation.workspace.journal

def report : Invocation σ → Journal × Invocation σ
  | ⟨meter, ⟨heap, storage, journal⟩, roots, exit?⟩ =>
    (journal, ⟨meter, ⟨heap, storage, #[]⟩, roots, exit?⟩)

def array (invocation : Invocation σ) (id : ArrayId) : Except Fault LiveArray :=
  invocation.heap.find id

def announce (event : Event) : Invocation σ → Invocation σ
  | ⟨meter, workspace, roots, exit?⟩ => ⟨meter, workspace.announce [event], roots, exit?⟩

def work (body : Work σ α) : Action σ α := fun ⟨meter, workspace, roots, exit?⟩ =>
  match body workspace with
  | .ok answer workspace => .ok answer ⟨meter, workspace, roots, exit?⟩
  | .error fault workspace => .error fault ⟨meter, workspace, roots, exit?⟩

def pay (operation : Metered) : Action σ Unit := fun ⟨meter, workspace, roots, exit?⟩ =>
  let workspace := workspace.announce (meter.notices operation)
  match meter.record operation with
  | .ok meter => .ok () ⟨meter, workspace, roots, exit?⟩
  | .error fault => .error fault ⟨meter, workspace, roots, exit?⟩

def halt (fault : Fault) (invocation : Invocation σ) : Invocation σ :=
  { invocation.announce (.halted fault invocation.remaining) with exit? := some fault }

/-- Runs an operation, unless the invocation has halted, and halts the invocation if it fails. -/
def perform (body : Action σ α) : Action σ α := fun invocation =>
  match invocation.exit? with
  | some fault => .error fault invocation
  | none =>
    match body invocation with
    | .ok answer invocation => .ok answer invocation
    | .error fault invocation => .error fault (invocation.halt fault)

def abort (invocation : Invocation σ) : Invocation σ :=
  match invocation.exit? with
  | some _ => invocation
  | none => { invocation.announce .aborted with exit? := some .aborted }

end Invocation

end MeteredArrays
