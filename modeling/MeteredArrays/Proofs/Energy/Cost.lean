import MeteredArrays.Energy.Meter

namespace MeteredArrays

theorem toNat_billableLength (length : Int32) : (billableLength length).toNat = length.toNatClampNeg := by
  have bound := length.toInt_lt
  have same : length.toNatClampNeg = length.toInt.toNat := rfl
  refine UInt64.toNat_ofNat_of_lt' (Nat.lt_of_le_of_lt ?_ (show 2147483648 < UInt64.size by decide))
  omega

def Metered.exact (schedule : Schedule) : Metered → Nat
  | creation kind length => length.toNatClampNeg * (schedule.perElement kind).toNat
  | cloning length => schedule.cloneBase.toNat + length.toNatClampNeg * schedule.cloneElement.toNat

theorem Metered.cost_eq (schedule : Schedule) (operation : Metered) :
    operation.cost schedule = amount (operation.exact schedule) := by
  cases operation <;> simp only [cost, initCost, cloneCost, exact, toNat_billableLength]

theorem Metered.exact_cloning (schedule : Schedule) {count : Nat} (short : count ≤ 0x7fffffff) :
    (cloning (Int32.ofNat count)).exact schedule =
      schedule.cloneBase.toNat + count * schedule.cloneElement.toNat := by
  rw [exact, Int32.toNatClampNeg_ofNat_of_lt (Nat.lt_succ_of_le short)]

namespace Ledger

variable {ledger after : Ledger} {amount : UInt64}

theorem eq_of_toNat (limit : after.limit = ledger.limit) (used : after.used.toNat = ledger.used.toNat) :
    after = ledger := by
  have same := UInt64.toNat_inj.mp used
  cases ledger
  cases after
  cases limit
  cases same
  rfl

theorem spend?_eq_some : ledger.spend? amount = some after ↔
    after.limit = ledger.limit ∧ after.used.toNat = ledger.used.toNat + amount.toNat := by
  unfold spend?
  by_cases fits : amount ≤ ledger.remaining
  · rw [dif_pos fits, Option.some_inj]
    constructor
    · intro spent
      rw [← spent]
      exact ⟨rfl, toNat_used_add ledger fits⟩
    · intro spent
      obtain ⟨limit, used⟩ := spent
      have same : (ledger.used + amount).toNat = after.used.toNat := by rw [used, toNat_used_add ledger fits]
      exact eq_of_toNat limit.symm same
  · rw [dif_neg fits]
    constructor
    · intro spent
      cases spent
    · intro spent
      obtain ⟨limit, used⟩ := spent
      have room := UInt64.le_iff_toNat_le.mp after.used_le
      rw [limit] at room
      rw [UInt64.le_iff_toNat_le, toNat_remaining] at fits
      omega

theorem spend?_eq_none : ledger.spend? amount = none ↔ ledger.remaining < amount := by
  unfold spend?
  split
  · rename_i fits
    simpa using fits
  · rename_i short
    simpa using short

end Ledger

namespace Meter

/-- How a charge ends, and what is announced. -/
inductive Charging (meter : Meter) (operation : Metered) : Except Fault Meter → List Event → Prop
  | accepted {cost : UInt64} {ledger : Ledger} (price : cost.toNat = operation.exact meter.schedule)
      (spent : meter.ledger.spend? cost = some ledger) :
      Charging meter operation (.ok { meter with ledger }) [.charged cost ledger]
  | refused {cost : UInt64} (price : cost.toNat = operation.exact meter.schedule)
      (short : meter.ledger.spend? cost = none) :
      Charging meter operation (.error .outOfEnergy) [.refused cost meter.ledger]
  | overflowing (large : UInt64.size ≤ operation.exact meter.schedule) :
      Charging meter operation (.error .arithmeticOverflow) []

theorem charging (meter : Meter) (operation : Metered) :
    Charging meter operation (meter.record operation) (meter.notices operation) := by
  simp only [record, notices, notice, Metered.cost_eq, amount]
  split
  · rename_i fits
    have price := UInt64.toNat_ofNat_of_lt' fits
    simp only [Bind.bind, Except.bind, charge]
    cases spent : meter.ledger.spend? (UInt64.ofNat (operation.exact meter.schedule)) with
    | some ledger => exact .accepted price spent
    | none => exact .refused price spent
  · rename_i large
    exact .overflowing (Nat.le_of_not_lt large)

theorem of_record_error {meter : Meter} {operation : Metered} {fault : Fault}
    (refused : meter.record operation = .error fault) :
    fault = .outOfEnergy ∨ (fault = .arithmeticOverflow ∧ UInt64.size ≤ operation.exact meter.schedule) := by
  have charging := meter.charging operation
  rw [refused] at charging
  generalize meter.notices operation = events at charging
  cases charging with
  | refused => exact Or.inl rfl
  | overflowing large => exact Or.inr ⟨rfl, large⟩

structure Spends (price : Nat) (before after : Meter) : Prop where
  schedule : after.schedule = before.schedule
  limit : after.ledger.limit = before.ledger.limit
  used : after.ledger.used.toNat = before.ledger.used.toNat + price

namespace Spends

variable {before after : Meter} {price : Nat}

theorem nothing (meter : Meter) : Spends 0 meter meter := ⟨rfl, rfl, rfl⟩

theorem trans {last : Meter} {price' : Nat} (one : Spends price before after)
    (two : Spends price' after last) : Spends (price + price') before last where
  schedule := two.schedule.trans one.schedule
  limit := two.limit.trans one.limit
  used := by rw [two.used, one.used, Nat.add_assoc]

theorem eq_of_nothing (spends : Spends 0 before after) : after = before := by
  have ledger := Ledger.eq_of_toNat spends.limit spends.used
  have schedule := spends.schedule
  cases before
  cases after
  cases ledger
  cases schedule
  rfl

theorem remaining_le (spends : Spends price before after) : after.ledger.remaining ≤ before.ledger.remaining := by
  rw [UInt64.le_iff_toNat_le, Ledger.toNat_remaining, Ledger.toNat_remaining, spends.limit, spends.used]
  omega

end Spends

end Meter

end MeteredArrays
