import MeteredArrays.Invocation.Basic
import MeteredArrays.Workspace.Commit

namespace MeteredArrays

structure Finalized where
  used : UInt64
  roots : List Slot
  written : Nat
  deriving DecidableEq

namespace Invocation

variable {σ : Type}

def finalize [Storage σ] : Action σ Finalized := do
  let roots := (← get).roots.toList
  let persisted ← perform (work (Workspace.persist roots))
  let used := (← get).used
  modify (announce (.finalized persisted.written used))
  return ⟨used, persisted.roots, persisted.written⟩

def rollback (invocation : Invocation σ) : UInt64 × Invocation σ :=
  (invocation.used, invocation.announce (.rolledBack invocation.heap.size invocation.used))

end Invocation

end MeteredArrays
