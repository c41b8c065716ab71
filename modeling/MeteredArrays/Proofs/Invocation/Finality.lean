import MeteredArrays.Proofs.Invocation.Ending
import MeteredArrays.Storage.Memory

namespace MeteredArrays

namespace Call

def fault? : Call → Except Fault Answer → Option Fault
  | .abort, _ => some .aborted
  | _, .error fault => some fault
  | _, .ok _ => none

def firstFault? : List Call → List (Except Fault Answer) → Option Fault
  | call :: calls, answer :: answers => (call.fault? answer).or (firstFault? calls answers)
  | _, _ => none

def afterHalt (fault : Fault) : Call → Except Fault Answer
  | .abort => .ok .done
  | _ => .error fault

variable {call : Call}

theorem fault?_ok (other : call ≠ .abort) (answer : Answer) : call.fault? (.ok answer) = none := by
  cases call <;> first | rfl | exact absurd rfl other

theorem fault?_error (other : call ≠ .abort) (fault : Fault) : call.fault? (.error fault) = some fault := by
  cases call <;> first | rfl | exact absurd rfl other

theorem afterHalt_eq (other : call ≠ .abort) (fault : Fault) : call.afterHalt fault = .error fault := by
  cases call <;> first | rfl | exact absurd rfl other

end Call

namespace Invocation

variable {σ : Type} {invocation : Invocation σ} {fault : Fault}

theorem abort_running (running : invocation.exit? = none) : invocation.abort.exit? = some .aborted := by
  rw [abort, running]

theorem abort_halted (halted : invocation.exit? = some fault) : invocation.abort = invocation := by
  rw [abort, halted]

variable [Storage σ]

theorem run_settles (running : invocation.exit? = none) {call : Call} (other : call ≠ .abort) :
    Ends (call.run invocation) (fun _ after => after.exit? = none) fun fault after => after.exit? = some fault := by
  apply run_cases
  · intro fault halted _
    exact halted
  · intro aborts
    exact absurd aborts other
  · intro answer after _ succeeds
    exact succeeds.exit.trans running
  · intro fault last _ _
    exact rfl

theorem run_exit (running : invocation.exit? = none) (call : Call) :
    Ends (call.run invocation) (fun answer after => after.exit? = call.fault? (.ok answer))
      fun fault after => after.exit? = call.fault? (.error fault) := by
  by_cases aborts : call = .abort
  · subst aborts
    exact abort_running running
  · simp only [Call.fault?_ok aborts, Call.fault?_error aborts]
    exact run_settles running aborts

theorem finalize_settles (running : invocation.exit? = none) :
    Ends (finalize invocation) (fun _ after => after.exit? = none) fun fault after => after.exit? = some fault := by
  obtain ⟨meter, workspace, roots, exit?⟩ := invocation
  cases running
  rw [finalize_eq]
  cases Workspace.persist roots.toList workspace with
  | ok persisted after => exact rfl
  | error fault after => exact rfl

theorem runAll_halted (halted : invocation.exit? = some fault) (calls : List Call) :
    Call.runAll calls invocation = (calls.map (Call.afterHalt fault), invocation) := by
  induction calls with
  | nil => rfl
  | cons call calls ih =>
    by_cases aborts : call = .abort
    · subst aborts
      have ran : Call.abort.run invocation = .ok .done invocation.abort := rfl
      rw [abort_halted halted] at ran
      simp only [Call.runAll, ran, ih]
      rfl
    · have ran := run_of_halted halted aborts
      simp only [Call.runAll, ran, ih, List.map_cons, Call.afterHalt_eq aborts]

theorem runAll_exit (running : invocation.exit? = none) (calls : List Call) :
    (Call.runAll calls invocation).2.exit? = Call.firstFault? calls (Call.runAll calls invocation).1 := by
  induction calls generalizing invocation with
  | nil => exact running
  | cons call calls ih =>
    have kept := run_exit running call
    simp only [Call.runAll]
    -- Whatever the call answers, it has halted the invocation if and only if it has a fault.
    have later : ∀ {after : Invocation σ} {answer}, after.exit? = call.fault? answer →
        (Call.runAll calls after).2.exit? =
          Call.firstFault? (call :: calls) (answer :: (Call.runAll calls after).1) := by
      intro after answer exit
      rw [Call.firstFault?]
      cases first : call.fault? answer with
      | none =>
        rw [first] at exit
        exact ih exit
      | some fault =>
        rw [first] at exit
        rw [runAll_halted exit]
        exact exit
    cases ran : call.run invocation with
    | ok answer after => exact later (kept.ok ran)
    | error fault after => exact later (kept.error ran)

/-- In every run the first fault is the one that is kept. While there is none, an operation that fails keeps
    its fault and one that succeeds keeps none; from then on nothing changes any more. -/
theorem first_fault_final (limit : UInt64) (schedule : Schedule) (storage : σ) (calls : List Call) :
    let answers := (Call.runAll calls (start limit schedule storage)).1
    let invocation := (Call.runAll calls (start limit schedule storage)).2
    invocation.exit? = Call.firstFault? calls answers ∧
    (invocation.exit? = none →
      (∀ call ≠ Call.abort, Ends (call.run invocation) (fun _ after => after.exit? = none)
        fun fault after => after.exit? = some fault) ∧
      (Ends (finalize invocation) (fun _ after => after.exit? = none)
        fun fault after => after.exit? = some fault) ∧
      invocation.abort.exit? = some .aborted) ∧
    ∀ fault, invocation.exit? = some fault →
      (∀ later, Call.runAll later invocation = (later.map (Call.afterHalt fault), invocation)) ∧
      finalize invocation = .error fault invocation := by
  refine ⟨runAll_exit rfl calls, fun running => ⟨?_, ?_, ?_⟩, fun fault halted => ⟨?_, ?_⟩⟩
  · intro call other
    exact run_settles running other
  · exact finalize_settles running
  · exact abort_running running
  · exact runAll_halted halted
  · exact finalize_halted halted

def readPastEnd : Invocation Memory :=
  (Call.runAll [.create 2 (.primitive .int), .get 0 2] (start 1000 .mainnet Memory.empty)).2

theorem readPastEnd_final : readPastEnd.exit? = some .invalidIndex ∧
    (∀ later, Call.runAll later readPastEnd = (later.map (Call.afterHalt .invalidIndex), readPastEnd)) ∧
    finalize readPastEnd = .error .invalidIndex readPastEnd := by
  have halted : readPastEnd.exit? = some .invalidIndex := by decide +kernel
  exact ⟨halted, (first_fault_final 1000 .mainnet Memory.empty _).2.2 _ halted⟩

end Invocation

end MeteredArrays
