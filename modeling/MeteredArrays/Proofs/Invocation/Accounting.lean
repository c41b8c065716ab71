import MeteredArrays.Proofs.Energy.Settlement
import MeteredArrays.Proofs.Invocation.Faults

namespace MeteredArrays

def Call.isMetered : Call → Bool
  | .create .. | .clone _ => true
  | _ => false

namespace Invocation

variable {σ : Type}

/-- Paying works exactly if the price is not more than what is left. Apart from the journal, it changes nothing
    but the meter. -/
theorem pay_settles (operation : Metered) (invocation : Invocation σ) :
    Ends (pay operation invocation)
      (fun _ after => operation.exact invocation.meter.schedule ≤ invocation.remaining.toNat ∧
        Meter.Spends (operation.exact invocation.meter.schedule) invocation.meter after.meter ∧
        after.heap = invocation.heap ∧ after.workspace.storage = invocation.workspace.storage ∧
        after.roots = invocation.roots)
      (fun _ after => invocation.remaining.toNat < operation.exact invocation.meter.schedule ∧
        after.meter = invocation.meter ∧ after.heap = invocation.heap ∧ after.roots = invocation.roots) := by
  obtain ⟨meter, workspace, roots, exit?⟩ := invocation
  have settles := Charge.settles meter.ledger.tells (.priced operation)
  simp only [Charge.exact, Charge.apply, Charge.notices] at settles
  simp only [pay, remaining, meter.ledger.toNat_remaining]
  generalize meter.record operation = result at settles ⊢
  generalize meter.notices operation = events at settles ⊢
  cases settles with
  | accepted room sum => exact ⟨room, ⟨rfl, UInt64.toNat_inj.mp sum.limit_eq, sum.used_eq⟩, rfl, rfl, rfl⟩
  | refused short | overflowing short => exact ⟨short, rfl, rfl, rfl⟩

theorem pay_spends (operation : Metered) (invocation : Invocation σ) :
    Ends (pay operation invocation)
      (fun _ after => Meter.Spends (operation.exact invocation.meter.schedule) invocation.meter after.meter)
      fun _ after => after.meter = invocation.meter :=
  (pay_settles operation invocation).imp (fun _ _ paid => paid.2.1) fun _ _ refused => refused.2.1

theorem exact_creation_negative (schedule : Schedule) (kind : Kind) {length : Int32} (negative : length < 0) :
    (Metered.creation kind length).exact schedule = 0 := by
  have below := Int32.lt_iff_toInt_lt.mp negative
  have none : length.toNatClampNeg = 0 := Int.toNat_of_nonpos (Int.le_of_lt below)
  rw [Metered.exact, none, Nat.zero_mul]

variable [Storage σ]

def Costs (before : Invocation σ) (call : Call) (price : Nat) : Prop :=
  if call.isMetered then before.price? call = some price else price = 0

def Bills (before : Invocation σ) (call : Call) {α : Type} (result : EStateM.Result Fault (Invocation σ) α) : Prop :=
  Ends result (fun _ after => ∃ price, Costs before call price ∧ Meter.Spends price before.meter after.meter)
    fun _ after => after.meter = before.meter

variable {invocation : Invocation σ}

theorem costs_nothing {call : Call} (free : call.isMetered = false) : Costs invocation call 0 := by
  rw [Costs, free]
  exact rfl

theorem Succeeds.bills {call : Call} {answer : Answer} {after : Invocation σ}
    (succeeds : Succeeds invocation call answer after) (wf : invocation.WellFormed) :
    ∃ price, Costs invocation call price ∧ Meter.Spends price invocation.meter after.meter := by
  cases succeeds with
  | create pays nonneg =>
    have spends := (pay_spends _ _).ok pays
    exact ⟨_, rfl, spends⟩
  | clone opens short pays =>
    have spends := (pay_spends _ _).ok pays
    exact ⟨_, (price_cloning wf opens).2, spends⟩
  | look opens shown =>
    have free : call.isMetered = false := by cases shown <;> rfl
    exact ⟨0, costs_nothing free, .nothing _⟩
  | load | set | replace | addRoot => exact ⟨0, costs_nothing rfl, .nothing _⟩

theorem Fails.unbilled {call : Call} {fault : Fault} {last : Invocation σ}
    (fails : Fails invocation call fault last) : last.meter = invocation.meter := by
  cases fails with
  | unpaidCreation refused => exact (pay_spends _ _).error refused
  | unpaidCopy opens short refused =>
    have unpaid := (pay_spends _ _).error refused
    exact unpaid
  | negativeLength pays negative =>
    have spends := (pay_spends _ _).ok pays
    rw [exact_creation_negative _ _ negative] at spends
    exact spends.eq_of_nothing
  | early | unread | look | refused => rfl

omit [Storage σ] in
theorem abort_meter (invocation : Invocation σ) : invocation.abort.meter = invocation.meter := by
  unfold abort
  cases invocation.exit? <;> rfl

theorem run_bills (wf : invocation.WellFormed) (call : Call) : Bills invocation call (call.run invocation) := by
  apply run_cases
  · intro _ _ _
    exact rfl
  · rintro rfl
    rw [abort_meter]
    exact ⟨0, costs_nothing rfl, .nothing _⟩
  · intro answer after _ succeeds
    exact succeeds.bills wf
  · intro fault last _ fails
    exact fails.unbilled

/-- What the calls that succeed cost together. -/
def bill : List Call → Invocation σ → Nat
  | [], _ => 0
  | call :: calls, invocation =>
    match call.run invocation with
    | .ok _ after => (invocation.price? call).getD 0 + bill calls after
    | .error _ after => bill calls after

theorem Costs.price? {call : Call} {price : Nat} (costs : Costs invocation call price) :
    (invocation.price? call).getD 0 = price := by
  unfold Costs at costs
  split at costs
  · rw [costs]
    rfl
  · rename_i free
    rw [costs]
    cases call <;> first | rfl | exact absurd rfl free

theorem runAll_bills (wf : invocation.WellFormed) (calls : List Call) :
    Meter.Spends (bill calls invocation) invocation.meter (Call.runAll calls invocation).2.meter := by
  induction calls generalizing invocation with
  | nil => exact .nothing _
  | cons call calls ih =>
    have advances := run_advances wf call
    have bills := run_bills wf call
    simp only [Call.runAll, bill]
    cases ran : call.run invocation with
    | ok answer after =>
      obtain ⟨price, costs, spends⟩ := bills.ok ran
      rw [costs.price?]
      exact spends.trans (ih ((advances.ok ran).wellFormed wf))
    | error fault after =>
      have same : after.meter = invocation.meter := bills.error ran
      rw [← same]
      exact ih ((advances.error ran).wellFormed wf)

structure Accounted (limit : UInt64) (schedule : Schedule) (bill : Nat) (invocation : Invocation σ) : Prop where
  schedule : invocation.meter.schedule = schedule
  budget : invocation.meter.ledger.limit = limit
  used : invocation.used.toNat = bill
  within : bill ≤ limit.toNat
  remaining : invocation.remaining.toNat = limit.toNat - bill

omit [Storage σ] in
theorem accounted_of_spends {limit : UInt64} {schedule : Schedule} {bill : Nat}
    (spends : Meter.Spends bill (Meter.start limit schedule) invocation.meter) :
    Accounted limit schedule bill invocation := by
  have used : invocation.used.toNat = bill := spends.used.trans (Nat.zero_add _)
  have within := UInt64.le_iff_toNat_le.mp invocation.meter.ledger.used_le
  have remaining := invocation.meter.ledger.toNat_remaining
  rw [spends.limit] at within remaining
  refine ⟨spends.schedule, spends.limit, used, ?_, ?_⟩
  · rw [← used]
    exact within
  · rw [← used]
    exact remaining

/-- The energy report is exact. At every point of every run, what is used is what the calls that succeeded cost
    together, which the budget covers. A call that succeeds adds its cost, one that fails adds nothing, and
    what remains never grows. Both ends of an invocation report what was used. -/
theorem energy_exact (limit : UInt64) (schedule : Schedule) (storage : σ) (calls : List Call) :
    let total := bill calls (start limit schedule storage)
    let invocation := (Call.runAll calls (start limit schedule storage)).2
    Accounted limit schedule total invocation ∧
    (∀ call : Call, Bills invocation call (call.run invocation)) ∧
    (∀ later, (Call.runAll later invocation).2.remaining ≤ invocation.remaining) ∧
    (Ends (finalize invocation)
      (fun finalized after => finalized.used.toNat = total ∧ after.meter = invocation.meter)
      fun _ after => after.meter = invocation.meter) ∧
    (rollback invocation).1.toNat = total ∧ (rollback invocation).2.meter = invocation.meter := by
  have ready := ready_start (fun _ => True) limit schedule storage
  have accounted := accounted_of_spends (runAll_bills ready.wellFormed calls)
  have reached : Reached storage (Call.runAll calls (start limit schedule storage)).2 :=
    ⟨limit, schedule, calls, rfl⟩
  have wf := reached.sound.wellFormed
  refine ⟨accounted, run_bills wf, fun later => ?_, ?_, accounted.used, rfl⟩
  · exact (runAll_bills wf later).remaining_le
  · apply (finalize_reports _).imp
    · intro finalized after reports
      obtain ⟨used, same⟩ := reports
      rw [used]
      exact ⟨accounted.used, same⟩
    · intro _ _ same
      exact same

def cloneAndCreate : List Call :=
  [.load ⟨1⟩ (.primitive .int), .clone 0, .create 2 (.primitive .int), .create (-1) (.primitive .long)]

theorem cloneAndCreate_accounted : bill cloneAndCreate (start 1000 .mainnet parentAndChild) = 116 ∧
    Accounted 1000 .mainnet 116 (Call.runAll cloneAndCreate (start 1000 .mainnet parentAndChild)).2 := by
  have total : bill cloneAndCreate (start 1000 .mainnet parentAndChild) = 116 := by decide +kernel
  have accounted := (energy_exact 1000 .mainnet parentAndChild cloneAndCreate).1
  rw [total] at accounted
  exact ⟨total, accounted⟩

end Invocation

end MeteredArrays
