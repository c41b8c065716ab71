import MeteredArrays.Energy.Ledger
import MeteredArrays.Record

namespace MeteredArrays

inductive Event where
  | charged (cost : UInt64) (ledger : Ledger)
  | refused (cost : UInt64) (ledger : Ledger)
  | created (id : ArrayId) (kind : Kind) (length : Int32)
  | cloned (source id : ArrayId)
  | named (id : ArrayId) (slot : Slot) (kind : Kind)
  | fetched (slot : Slot)
  | materialized (id : ArrayId) (slot : Slot) (length : Nat)
  | allocated (slot : Slot)
  | persisting (id : ArrayId) (slot : Slot) (bytes : Nat)
  /-- Storage was told to write a record, whether it did or not. -/
  | stored (slot : Slot) (record : Record)
  | halted (fault : Fault) (remaining : UInt64)
  | aborted
  | finalized (written : Nat) (used : UInt64)
  | rolledBack (arrays : Nat) (used : UInt64)
  | committing (records : Nat)
  | discarding (records : Nat)
  deriving DecidableEq

abbrev Journal := Array Event

namespace Event

/-- Whether the event belongs to the audit trail, which tells of energy and of arrays only. -/
def isAudited : Event → Bool
  | charged .. | refused .. | created .. | cloned .. | materialized .. | persisting .. => true
  | _ => false

private def arrayText (id : ArrayId) : String :=
  "ArrayId(" ++ toString id ++ ")"

private def slotText (slot : Slot) : String :=
  "Slot(" ++ toString slot.number ++ ")"

def logLine? : Event → Option String
  | charged cost ledger =>
    some ("TRACE Charged " ++ toString cost ++ ", remaining " ++ toString ledger.remaining)
  | refused cost ledger =>
    some ("TRACE Refused charge " ++ toString cost ++ ", remaining " ++ toString ledger.remaining)
  | named id slot kind =>
    some ("DEBUG Handle " ++ arrayText id ++ " for " ++ slotText slot ++ " (" ++ kind.name ++ ")")
  | materialized id slot length =>
    some ("DEBUG Materialized " ++ arrayText id ++ " from " ++ slotText slot ++ ": " ++
      toString length ++ " elements")
  | persisting id slot bytes =>
    some ("DEBUG Persisting " ++ arrayText id ++ " to " ++ slotText slot ++ ": " ++
      toString bytes ++ " bytes")
  | halted fault remaining =>
    some ("DEBUG Invocation halted: " ++ fault.name ++ ", remaining energy " ++ toString remaining)
  | aborted => some "DEBUG Invocation aborted"
  | finalized written used =>
    some ("DEBUG Invocation finalized: " ++ toString written ++ " records written, " ++
      toString used ++ " energy used")
  | rolledBack arrays used =>
    some ("DEBUG Invocation rolled back: " ++ toString arrays ++ " arrays dropped, " ++
      toString used ++ " energy used")
  | committing records => some ("DEBUG Committing " ++ toString records ++ " buffered records")
  | discarding records => some ("DEBUG Discarding " ++ toString records ++ " buffered records")
  | created .. | cloned .. | fetched _ | allocated _ | stored .. => none

end Event

structure Traffic where
  reads : Nat
  allocations : Nat
  writes : Nat
  deriving DecidableEq

namespace Traffic

def none : Traffic := ⟨0, 0, 0⟩

def count (traffic : Traffic) : Event → Traffic
  | .fetched _ => { traffic with reads := traffic.reads + 1 }
  | .allocated _ => { traffic with allocations := traffic.allocations + 1 }
  | .stored .. => { traffic with writes := traffic.writes + 1 }
  | _ => traffic

end Traffic

end MeteredArrays
