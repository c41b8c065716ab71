import Mathlib.Data.List.Induction
import MeteredArrays.Proofs.Energy.Cost

namespace MeteredArrays

def checked (exact : Nat) (word : UInt64) : Except Fault UInt64 :=
  if exact < UInt64.size then .ok word else .error .arithmeticOverflow

def checkedMul (left right : UInt64) : Except Fault UInt64 :=
  checked (left.toNat * right.toNat) (left * right)

def checkedAdd (left right : UInt64) : Except Fault UInt64 :=
  checked (left.toNat + right.toNat) (left + right)

theorem checkedMul_eq (left right : UInt64) : checkedMul left right = amount (left.toNat * right.toNat) := by
  unfold checkedMul checked amount
  rw [UInt64.ofNat_mul, UInt64.ofNat_toNat, UInt64.ofNat_toNat]

theorem checkedAdd_eq (left right : UInt64) : checkedAdd left right = amount (left.toNat + right.toNat) := by
  unfold checkedAdd checked amount
  rw [UInt64.ofNat_add, UInt64.ofNat_toNat, UInt64.ofNat_toNat]

theorem initCost_eq_checked (length : Int32) (fee : UInt64) :
    initCost length fee = checkedMul (billableLength length) fee :=
  (checkedMul_eq _ _).symm

/-- The product is a part of the cost, so that checking it first refuses no more than checking the cost. -/
theorem cloneCost_eq_checked (length : Int32) (base fee : UInt64) :
    cloneCost length base fee = (do checkedAdd (← checkedMul (billableLength length) fee) base) := by
  rw [cloneCost, checkedMul_eq]
  by_cases fits : (billableLength length).toNat * fee.toNat < UInt64.size
  · have product : amount ((billableLength length).toNat * fee.toNat) =
        .ok (UInt64.ofNat ((billableLength length).toNat * fee.toNat)) := if_pos fits
    rw [product]
    show _ = checkedAdd _ base
    rw [checkedAdd_eq, UInt64.toNat_ofNat_of_lt' fits, Nat.add_comm]
  · have product : amount ((billableLength length).toNat * fee.toNat) = .error .arithmeticOverflow := if_neg fits
    rw [product]
    exact if_neg (by omega)

inductive Charge where
  | given (cost : UInt64)
  | priced (operation : Metered)

namespace Charge

def exact (schedule : Schedule) : Charge → Nat
  | given cost => cost.toNat
  | priced operation => operation.exact schedule

def apply (meter : Meter) : Charge → Except Fault Meter
  | given cost => meter.charge cost
  | priced operation => meter.record operation

def notices (meter : Meter) : Charge → List Event
  | given cost => [meter.notice cost]
  | priced operation => meter.notices operation

end Charge

/-- Applies one charge after the other. A charge that is refused leaves the meter to the next one. -/
def Meter.settle (meter : Meter) (charges : List Charge) : Meter :=
  charges.foldl (fun meter charge => (charge.apply meter).toOption.getD meter) meter

/-- The sum of the costs that are accepted, each of them if the limit leaves room for it. -/
def settled (limit : Nat) (costs : List Nat) : Nat :=
  costs.foldl (fun used cost => if cost ≤ limit - used then used + cost else used) 0

theorem Meter.settle_append (meter : Meter) (charges : List Charge) (charge : Charge) :
    meter.settle (charges ++ [charge]) =
      (charge.apply (meter.settle charges)).toOption.getD (meter.settle charges) := by
  simp [settle]

theorem settled_append (limit : Nat) (costs : List Nat) (cost : Nat) :
    settled limit (costs ++ [cost]) =
      if cost ≤ limit - settled limit costs then settled limit costs + cost else settled limit costs := by
  rw [settled, List.foldl_append]
  rfl

structure Ledger.Tells (limit used : Nat) (ledger : Ledger) : Prop where
  within : used ≤ limit
  limit_eq : ledger.limit.toNat = limit
  used_eq : ledger.used.toNat = used
  remaining_eq : ledger.remaining.toNat = limit - used

namespace Ledger

variable {ledger after : Ledger}

theorem tells (ledger : Ledger) : ledger.Tells ledger.limit.toNat ledger.used.toNat :=
  ⟨UInt64.le_iff_toNat_le.mp ledger.used_le, rfl, rfl, ledger.toNat_remaining⟩

namespace Tells

variable {limit used : Nat} {cost : UInt64}

theorem spend (tells : ledger.Tells limit used) (spent : ledger.spend? cost = some after) :
    cost.toNat ≤ limit - used ∧ after.Tells limit (used + cost.toNat) := by
  obtain ⟨same, sum⟩ := spend?_eq_some.mp spent
  have exact := after.tells
  rw [same, sum, tells.limit_eq, tells.used_eq] at exact
  have within := exact.within
  exact ⟨by omega, exact⟩

theorem refuse (tells : ledger.Tells limit used) (refused : ledger.spend? cost = none) :
    limit - used < cost.toNat := by
  have short := UInt64.lt_iff_toNat_lt.mp (spend?_eq_none.mp refused)
  rw [tells.remaining_eq] at short
  exact short

end Tells

end Ledger

namespace Charge

inductive Settles (meter : Meter) (limit used cost : Nat) : Except Fault Meter → List Event → Prop
  | accepted {ledger : Ledger} (room : cost ≤ limit - used) (sum : ledger.Tells limit (used + cost)) :
      Settles meter limit used cost (.ok ⟨meter.schedule, ledger⟩) [.charged (UInt64.ofNat cost) ledger]
  | refused (short : limit - used < cost) (word : cost < UInt64.size) :
      Settles meter limit used cost (.error .outOfEnergy) [.refused (UInt64.ofNat cost) meter.ledger]
  | overflowing (short : limit - used < cost) (large : UInt64.size ≤ cost) :
      Settles meter limit used cost (.error .arithmeticOverflow) []

variable {meter : Meter} {limit used : Nat}

theorem settles_word (tells : meter.ledger.Tells limit used) (cost : UInt64) :
    Settles meter limit used cost.toNat (meter.charge cost) [meter.notice cost] := by
  unfold Meter.charge Meter.notice
  cases spent : meter.ledger.spend? cost with
  | some ledger =>
    obtain ⟨room, sum⟩ := tells.spend spent
    have settles : Settles meter limit used cost.toNat (.ok ⟨meter.schedule, ledger⟩)
      [.charged (UInt64.ofNat cost.toNat) ledger] := .accepted room sum
    rw [UInt64.ofNat_toNat] at settles
    exact settles
  | none =>
    have settles : Settles meter limit used cost.toNat (.error .outOfEnergy)
      [.refused (UInt64.ofNat cost.toNat) meter.ledger] := .refused (tells.refuse spent) cost.toNat_lt
    rw [UInt64.ofNat_toNat] at settles
    exact settles

theorem settles (tells : meter.ledger.Tells limit used) (charge : Charge) :
    Settles meter limit used (charge.exact meter.schedule) (charge.apply meter) (charge.notices meter) := by
  cases charge with
  | given cost => exact settles_word tells cost
  | priced operation =>
    simp only [exact, apply, notices, Meter.record, Meter.notices, Metered.cost_eq, amount]
    split
    · rename_i word
      have settles := settles_word tells (UInt64.ofNat (operation.exact meter.schedule))
      rw [UInt64.toNat_ofNat_of_lt' word] at settles
      exact settles
    · rename_i large
      have large : UInt64.size ≤ operation.exact meter.schedule := Nat.le_of_not_lt large
      -- What is left is a word, so that a cost beyond the words is beyond what is left.
      have bound : meter.ledger.remaining.toNat < UInt64.size := meter.ledger.remaining.toNat_lt
      rw [tells.remaining_eq] at bound
      exact .overflowing (Nat.lt_of_lt_of_le bound large) large

namespace Settles

variable {cost : Nat} {result : Except Fault Meter} {events : List Event}

theorem succeeds_iff (settles : Settles meter limit used cost result events) :
    (∃ after, result = .ok after) ↔ cost ≤ limit - used := by
  cases settles with
  | accepted room => exact ⟨fun _ => room, fun _ => ⟨_, rfl⟩⟩
  | refused short | overflowing short =>
    constructor
    · intro succeeds
      obtain ⟨_, same⟩ := succeeds
      cases same
    · intro room
      omega

theorem unchanged (settles : Settles meter limit used cost result events) (short : limit - used < cost) :
    result.toOption.getD meter = meter := by
  cases settles with
  | accepted room => omega
  | refused | overflowing => rfl

theorem overflows_iff (settles : Settles meter limit used cost result events) (bound : limit < UInt64.size) :
    result = .error .arithmeticOverflow ↔ UInt64.size ≤ cost := by
  cases settles with
  | accepted room =>
    constructor
    · intro same
      cases same
    · intro large
      omega
  | refused _ word =>
    constructor
    · intro same
      cases same
    · intro large
      omega
  | overflowing _ large => exact ⟨fun _ => large, fun _ => rfl⟩

end Settles

end Charge

namespace Meter

theorem settle_tells (limit : UInt64) (schedule : Schedule) (charges : List Charge) :
    ((start limit schedule).settle charges).schedule = schedule ∧
      ((start limit schedule).settle charges).ledger.Tells limit.toNat
        (settled limit.toNat (charges.map (Charge.exact schedule))) := by
  induction charges using List.reverseRecOn with
  | nil => exact ⟨rfl, (Ledger.start limit).tells⟩
  | append_singleton charges charge ih =>
    obtain ⟨fees, tells⟩ := ih
    have settles := Charge.settles tells charge
    rw [settle_append, List.map_append, List.map_singleton, settled_append]
    rw [fees] at settles
    generalize charge.apply ((start limit schedule).settle charges) = result at settles
    generalize charge.notices ((start limit schedule).settle charges) = events at settles
    cases settles with
    | accepted room sum =>
      rw [if_pos room]
      exact ⟨fees, sum⟩
    | refused short | overflowing short =>
      rw [if_neg (by omega)]
      exact ⟨fees, tells⟩

/-- Charging is exact in 64 bits. Whatever the fees are and whatever was charged or refused before, a charge is
    taken if its cost is not more than what is left, it is an overflow if its cost is no word, and no sum and no
    difference wraps around. -/
theorem settle_exact (limit : UInt64) (schedule : Schedule) (earlier : List Charge) (charge : Charge) :
    let meter := (start limit schedule).settle earlier
    let used := settled limit.toNat (earlier.map (Charge.exact schedule))
    let cost := charge.exact schedule
    meter.schedule = schedule ∧ meter.ledger.Tells limit.toNat used ∧
      Charge.Settles meter limit.toNat used cost (charge.apply meter) (charge.notices meter) ∧
      ((∃ after, charge.apply meter = .ok after) ↔ cost ≤ limit.toNat - used) ∧
      (limit.toNat - used < cost → meter.settle [charge] = meter) ∧
      (charge.apply meter = .error .arithmeticOverflow ↔ UInt64.size ≤ cost) := by
  obtain ⟨fees, tells⟩ := settle_tells limit schedule earlier
  have settles := Charge.settles tells charge
  rw [fees] at settles
  exact ⟨fees, tells, settles, settles.succeeds_iff, settles.unchanged, settles.overflows_iff limit.toNat_lt⟩

end Meter

end MeteredArrays
