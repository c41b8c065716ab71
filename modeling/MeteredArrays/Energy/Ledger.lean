namespace MeteredArrays

/-- The invariant makes `remaining` an exact difference. -/
structure Ledger where
  limit : UInt64
  used : UInt64
  used_le : used ≤ limit
  deriving DecidableEq

namespace Ledger

def start (limit : UInt64) : Ledger where
  limit := limit
  used := 0
  used_le := UInt64.zero_le

def remaining (ledger : Ledger) : UInt64 :=
  ledger.limit - ledger.used

theorem toNat_remaining (ledger : Ledger) :
    ledger.remaining.toNat = ledger.limit.toNat - ledger.used.toNat :=
  UInt64.toNat_sub_of_le _ _ ledger.used_le

theorem toNat_used_add (ledger : Ledger) {amount : UInt64} (fits : amount ≤ ledger.remaining) :
    (ledger.used + amount).toNat = ledger.used.toNat + amount.toNat := by
  have room := UInt64.le_iff_toNat_le.mp fits
  have used := UInt64.le_iff_toNat_le.mp ledger.used_le
  have bound := ledger.limit.toNat_lt
  rw [toNat_remaining] at room
  rw [UInt64.toNat_add]
  omega

def spend? (ledger : Ledger) (amount : UInt64) : Option Ledger :=
  if fits : amount ≤ ledger.remaining then
    some {
      limit := ledger.limit
      used := ledger.used + amount
      used_le := by
        have room := UInt64.le_iff_toNat_le.mp fits
        have used := UInt64.le_iff_toNat_le.mp ledger.used_le
        rw [toNat_remaining] at room
        rw [UInt64.le_iff_toNat_le, toNat_used_add ledger fits]
        omega
    }
  else none

end Ledger

end MeteredArrays
