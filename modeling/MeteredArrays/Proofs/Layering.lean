import MeteredArrays.Proofs.History
import MeteredArrays.Proofs.Invocation.Lockstep
import MeteredArrays.Proofs.Storage.Freshness

namespace MeteredArrays

structure Session where
  limit : UInt64
  schedule : Schedule
  calls : List Call
  ending : Ending

inductive Conclusion where
  | finalized (outcome : Except Fault Finalized)
  | rolledBack (used : UInt64)
  | dropped

/-- All that is to be seen of an invocation from outside. -/
structure Report where
  answers : List (Except Fault Answer)
  conclusion : Conclusion
  journal : Journal

def Invocation.close {σ : Type} [Storage σ] (invocation : Invocation σ) : Ending → Conclusion × Invocation σ
  | .finalize =>
    match invocation.finalize with
    | .ok finalized after => (.finalized (.ok finalized), after)
    | .error fault after => (.finalized (.error fault), after)
  | .rollback =>
    let (used, after) := invocation.rollback
    (.rolledBack used, after)
  | .drop => (.dropped, invocation)

namespace Session

variable {σ : Type} [Storage σ]

def run (session : Session) (storage : σ) : Report × σ :=
  let (answers, invocation) := Call.runAll session.calls (.start session.limit session.schedule storage)
  let (conclusion, invocation) := invocation.close session.ending
  (⟨answers, conclusion, invocation.journal⟩, invocation.workspace.storage)

def runAll : List Session → σ → List Report × σ
  | [], storage => ([], storage)
  | session :: sessions, storage =>
    let (report, storage) := session.run storage
    let (reports, storage) := runAll sessions storage
    (report :: reports, storage)

end Session

namespace Phase

def session? : Phase → Option Session
  | invoke limit schedule calls ending => some ⟨limit, schedule, calls, ending⟩
  | _ => none

theorem run_invoke {β : Type} [Storage β] (layers : Layers β) (limit : UInt64) (schedule : Schedule)
    (calls : List Call) (ending : Ending) :
    ((invoke limit schedule calls ending).run layers).2 =
      ((⟨limit, schedule, calls, ending⟩ : Session).run layers).2 := by
  cases ending with
  | drop | rollback => rfl
  | finalize =>
    simp only [run, Invocation.conclude, Session.run, Invocation.close]
    cases (Call.runAll calls (.start limit schedule layers)).2.finalize <;> rfl

end Phase

def reports {β : Type} [Storage β] : List Phase → Layers β → List Report
  | [], _ => []
  | phase :: phases, layers =>
    (phase.session?.map fun session => (session.run layers).1).toList ++ reports phases (phase.run layers).2

/-- Layers that cannot be told apart from plain memory by reading them or by the next `count` slots
    that are handed out. -/
structure StandsFor (count : Nat) (layers : Layers Memory) (memory : Memory) : Prop where
  read : Storage.read layers = Storage.read memory
  next : layers.bottom.next = memory.next
  handouts : Storage.handouts count layers = Storage.handouts count memory
  supplies : Storage.Supplies count memory

namespace StandsFor

open Layers

variable {count more : Nat} {layers : Layers Memory} {memory : Memory}

theorem supplies_layers (stands : StandsFor count layers memory) : Storage.Supplies count layers := by
  constructor
  · rw [stands.handouts]
    exact stands.supplies.nodup
  · rw [stands.handouts, stands.read]
    exact stands.supplies.unrecorded

theorem mono (stands : StandsFor more layers memory) (le : count ≤ more) : StandsFor count layers memory := by
  refine ⟨stands.read, stands.next, ?_, stands.supplies.mono le⟩
  obtain ⟨rest, rfl⟩ := Nat.exists_eq_add_of_le le
  exact (Storage.handouts_add_inj stands.handouts).1

theorem push (stands : StandsFor count layers memory) : StandsFor count layers.push memory where
  read := (funext (read_push layers)).trans stands.read
  next := stands.next
  handouts := (handouts_layer count layers ∅).trans stands.handouts
  supplies := stands.supplies

theorem reserve (stands : StandsFor (count + more) layers memory) :
    StandsFor more (Storage.reserve count layers) (Storage.reserve count memory) := by
  obtain ⟨handed, later⟩ := Storage.handouts_add_inj stands.handouts
  refine ⟨?_, ?_, later, stands.supplies.reserve⟩
  · funext slot
    rw [Storage.read_reserve, Storage.read_reserve, stands.read]
  · rw [bottom_reserve, Memory.next_reserve, Memory.next_reserve, ← handouts_bottom, handed, stands.next]

theorem wrote (stands : StandsFor count layers memory) {writes : List (Slot × Record)} {layers' : Layers Memory}
    {memory' : Memory} (onLayers : Storage.Wrote writes layers layers')
    (onMemory : Storage.Wrote writes memory memory')
    (others : ∀ slot ∈ writes.map Prod.fst, slot ∉ Storage.handouts count memory) :
    StandsFor count layers' memory' := by
  have others' : ∀ slot ∈ writes.map Prod.fst, slot ∉ Storage.handouts count layers := by
    rw [stands.handouts]
    exact others
  refine ⟨?_, ?_, ?_, onMemory.supplies stands.supplies others⟩
  · rw [onLayers.read, onMemory.read, stands.read]
  · rw [(bottom_wrote onLayers).1, Memory.next_wrote onMemory, stands.next]
  · rw [onLayers.handouts stands.supplies_layers others', onMemory.handouts stands.supplies others, stands.handouts]

theorem apply {below after : Layers Memory} {writes : Records}
    (stands : StandsFor count (layer below writes) memory) (wrote : Storage.Wrote writes.toList below after) :
    StandsFor count after memory := by
  have supplies := stands.supplies_layers
  have same := wrote.handouts (supplies_below supplies) (unhanded supplies)
  refine ⟨(read_apply wrote).trans stands.read, (bottom_wrote wrote).1.trans stands.next, ?_, stands.supplies⟩
  rw [same, ← handouts_layer count below writes]
  exact stands.handouts

end StandsFor

namespace Invocation

variable {count : Nat} {layers : Layers Memory} {memory : Memory} {left : Invocation (Layers Memory)}
  {right : Invocation Memory}

theorem rollback_twin (twin : Twin left right) :
    left.rollback.1 = right.rollback.1 ∧ Twin left.rollback.2 right.rollback.2 := by
  have used : left.used = right.used := congrArg (·.ledger.used) twin.meter
  rw [rollback, rollback, used, heap, heap, twin.workspace.heap]
  exact ⟨rfl, twin.announce _⟩

theorem finalize_standsFor (twin : Twin left right) (sound : Sound layers left) (sound' : Sound memory right)
    (stands : StandsFor (left.demand + count) layers memory) :
    (left.close .finalize).1 = (right.close .finalize).1 ∧
      (left.close .finalize).2.journal = (right.close .finalize).2.journal ∧
      StandsFor count (left.close .finalize).2.workspace.storage (right.close .finalize).2.workspace.storage := by
  obtain ⟨rfl, wf, backed⟩ := sound
  obtain ⟨rfl, _, _⟩ := sound'
  have offered := (Storage.handouts_add_inj stands.handouts).1
  rcases twin.finalize wf offered (Storage.accepting_of_reliable _) (Storage.accepting_of_reliable _) with
    ⟨finalized, after, after', done, done', told, wrote, wrote'⟩ | ⟨fault, failed, failed'⟩
  · -- Both took the same slots and made the same writes, none of them to a slot still to be handed out.
    rw [close, close, done, done']
    refine ⟨rfl, told, stands.reserve.wrote wrote wrote' ?_⟩
    rw [← stands.reserve.handouts]
    exact Workspace.unhanded wf.heap (roots_inside wf) backed stands.supplies_layers
      (Workspace.records_writes wf.heap (roots_inside wf))
  · rw [close, close, failed, failed']
    exact ⟨rfl, twin.workspace.journal, stands.mono (Nat.le_add_left _ _)⟩

end Invocation

namespace Phase

variable {count : Nat} {layers : Layers Memory} {memory : Memory}

theorem invoke_standsFor {limit : UInt64} {schedule : Schedule} {calls : List Call} {ending : Ending}
    (stands : StandsFor ((invoke limit schedule calls ending).demand layers + count) layers memory) :
    ((⟨limit, schedule, calls, ending⟩ : Session).run layers).1 =
        ((⟨limit, schedule, calls, ending⟩ : Session).run memory).1 ∧
      StandsFor count ((⟨limit, schedule, calls, ending⟩ : Session).run layers).2
        ((⟨limit, schedule, calls, ending⟩ : Session).run memory).2 := by
  obtain ⟨answers, twin⟩ := Invocation.runAll_twin (Invocation.Twin.start stands.read limit schedule) calls
  have sound : Invocation.Sound layers (Call.runAll calls (.start limit schedule layers)).2 :=
    Invocation.Reached.sound ⟨limit, schedule, calls, rfl⟩
  have sound' : Invocation.Sound memory (Call.runAll calls (.start limit schedule memory)).2 :=
    Invocation.Reached.sound ⟨limit, schedule, calls, rfl⟩
  have kept : StandsFor count layers memory := stands.mono (Nat.le_add_left _ _)
  simp only [Session.run, answers]
  cases ending with
  | finalize =>
    obtain ⟨conclusion, told, after⟩ := Invocation.finalize_standsFor twin sound sound' stands
    rw [conclusion, told]
    exact ⟨rfl, after⟩
  | rollback =>
    obtain ⟨used, after⟩ := Invocation.rollback_twin twin
    simp only [Invocation.close, Invocation.journal]
    rw [used, after.workspace.journal]
    rw [show (Call.runAll calls (.start limit schedule layers)).2.rollback.2.workspace.storage = layers
      from sound.storage_eq]
    rw [show (Call.runAll calls (.start limit schedule memory)).2.rollback.2.workspace.storage = memory
      from sound'.storage_eq]
    exact ⟨rfl, kept⟩
  | drop =>
    simp only [Invocation.close, Invocation.journal]
    rw [twin.workspace.journal, sound.storage_eq, sound'.storage_eq]
    exact ⟨rfl, kept⟩

theorem run_standsFor {phase : Phase} (kept : phase ≠ .discard)
    (stands : StandsFor (phase.demand layers + count) layers memory) :
    (phase.session?.map fun session => (session.run layers).1).toList =
        (Session.runAll phase.session?.toList memory).1 ∧
      StandsFor count (phase.run layers).2 (Session.runAll phase.session?.toList memory).2 := by
  cases phase with
  | invoke limit schedule calls ending =>
    obtain ⟨same, after⟩ := invoke_standsFor stands
    rw [run_invoke]
    exact ⟨congrArg (fun report => [report]) same, after⟩
  | discard => exact absurd rfl kept
  | push => exact ⟨rfl, (stands.mono (Nat.le_add_left _ _)).push⟩
  | commit =>
    have stands := stands.mono (Nat.le_add_left count _)
    cases layers with
    | base memory => exact ⟨rfl, stands⟩
    | layer below writes =>
      obtain ⟨after, applied, wrote⟩ := Layers.apply_wrote (Storage.accepting_of_reliable below) writes
      simp only [run, Layers.commit?, applied]
      exact ⟨rfl, stands.apply wrote⟩

end Phase

theorem Session.runAll_append {σ : Type} [Storage σ] (sessions others : List Session) (storage : σ) :
    runAll (sessions ++ others) storage =
      ((runAll sessions storage).1 ++ (runAll others (runAll sessions storage).2).1,
        (runAll others (runAll sessions storage).2).2) := by
  induction sessions generalizing storage with
  | nil => rfl
  | cons session sessions ih =>
    simp only [List.cons_append, runAll, ih]

theorem runPhases_standsFor {phases : List Phase} (undiscarded : .discard ∉ phases) {layers : Layers Memory}
    {memory : Memory} (stands : StandsFor (demandAll phases layers) layers memory) :
    reports phases layers = (Session.runAll (phases.filterMap Phase.session?) memory).1 ∧
      StandsFor 0 (runPhases phases layers).2 (Session.runAll (phases.filterMap Phase.session?) memory).2 := by
  induction phases generalizing layers memory with
  | nil => exact ⟨rfl, stands⟩
  | cons phase phases ih =>
    rw [List.mem_cons, not_or] at undiscarded
    obtain ⟨reported, after⟩ := Phase.run_standsFor (Ne.symm undiscarded.1) stands
    obtain ⟨reported', after'⟩ := ih undiscarded.2 after
    have first : (phase :: phases).filterMap Phase.session? =
        phase.session?.toList ++ phases.filterMap Phase.session? := by
      rw [List.filterMap_cons]
      cases phase.session? <;> rfl
    rw [first, Session.runAll_append, reports, reported, reported']
    exact ⟨rfl, after'⟩

theorem runPhases_commits {depth : Nat} {layers : Layers Memory} (high : layers.depth = depth) {count : Nat}
    {memory : Memory} (stands : StandsFor count layers memory) :
    runPhases (List.replicate depth .commit) layers = ([], .base memory) := by
  induction depth generalizing layers with
  | zero =>
    cases layers with
    | base backend =>
      have same : backend = memory := Memory.eq_of_read stands.read stands.next
      rw [same]
      rfl
    | layer below writes => cases high
  | succ depth ih =>
    cases layers with
    | base backend => cases high
    | layer below writes =>
      obtain ⟨after, applied, wrote⟩ := Layers.apply_wrote (Storage.accepting_of_reliable below) writes
      have lower : after.depth = depth := (Layers.depth_wrote wrote).trans (Nat.succ.inj high)
      have committed : Phase.run (.layer below writes) .commit = ([], after) := by
        simp only [Phase.run, Layers.commit?, applied]
      simp only [List.replicate_succ, runPhases, committed, ih lower (stands.apply wrote), List.append_nil]

/-- Invocations that run on transactions, nested in any way and all of them committed in the end, report
    what they report without any transaction, and leave the same records and the same counter. There has to
    be a 64-bit slot for each record that is there at first and for each array that a commit takes one for. -/
theorem runPhases_direct {memory : Memory} {phases : List Phase} (undiscarded : .discard ∉ phases)
    (room : memory.records.size + demandAll phases (Layers.base memory) ≤ UInt64.size) :
    reports phases (Layers.base memory) = (Session.runAll (phases.filterMap Phase.session?) memory).1 ∧
      runPhases (List.replicate (runPhases phases (Layers.base memory)).2.depth .commit)
          (runPhases phases (Layers.base memory)).2 =
        ([], Layers.base (Session.runAll (phases.filterMap Phase.session?) memory).2) := by
  have stands : StandsFor (demandAll phases (Layers.base memory)) (Layers.base memory) memory :=
    ⟨rfl, rfl, Layers.handouts_base _ memory, Memory.supplies memory room⟩
  obtain ⟨reported, after⟩ := runPhases_standsFor undiscarded stands
  exact ⟨reported, runPhases_commits rfl after⟩

/-- A new array that is hung on the ring in a transaction, read in a transaction within it, and copied
    there. Neither transaction is committed yet. -/
def ringTransactions : List Phase :=
  [.push,
    .invoke 100 .free [.load ⟨0⟩ .reference, .get 0 0, .create 1 (.primitive .int),
      .set 1 1 (.reference (some 2)), .addRoot 0] .finalize,
    .push,
    .invoke 100 .free [.load ⟨2⟩ (.primitive .int), .contents 0, .clone 0, .addRoot 1] .finalize,
    .invoke 0 .mainnet [.load ⟨7⟩ .reference, .length 0, .addRoot 0] .finalize,
    .invoke 0 .mainnet [.load ⟨1⟩ .reference, .get 0 1] .rollback]

theorem ringTransactions_direct :
    reports ringTransactions (Layers.base ring) =
        (Session.runAll (ringTransactions.filterMap Phase.session?) ring).1 ∧
      runPhases (List.replicate (runPhases ringTransactions (Layers.base ring)).2.depth .commit)
          (runPhases ringTransactions (Layers.base ring)).2 =
        ([], Layers.base (Session.runAll (ringTransactions.filterMap Phase.session?) ring).2) :=
  runPhases_direct (by decide) (by decide +kernel)

end MeteredArrays
