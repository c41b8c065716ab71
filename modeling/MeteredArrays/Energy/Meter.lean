import MeteredArrays.Energy.Schedule
import MeteredArrays.Event

namespace MeteredArrays

structure Meter where
  schedule : Schedule
  ledger : Ledger
  deriving DecidableEq

namespace Meter

def start (limit : UInt64) (schedule : Schedule) : Meter :=
  ⟨schedule, Ledger.start limit⟩

def charge (meter : Meter) (amount : UInt64) : Except Fault Meter :=
  match meter.ledger.spend? amount with
  | some ledger => .ok { meter with ledger }
  | none => .error .outOfEnergy

def notice (meter : Meter) (amount : UInt64) : Event :=
  match meter.ledger.spend? amount with
  | some ledger => .charged amount ledger
  | none => .refused amount meter.ledger

def record (meter : Meter) (operation : Metered) : Except Fault Meter := do
  meter.charge (← operation.cost meter.schedule)

/-- What is announced when `operation` is charged for: nothing if its cost cannot be told. -/
def notices (meter : Meter) (operation : Metered) : List Event :=
  match operation.cost meter.schedule with
  | .ok amount => [meter.notice amount]
  | .error _ => []

end Meter

end MeteredArrays
