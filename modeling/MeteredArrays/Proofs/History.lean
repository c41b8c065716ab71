import MeteredArrays.Proofs.Invocation.Ending
import MeteredArrays.Proofs.Storage.Layers
import MeteredArrays.Proofs.Storage.Memory
import MeteredArrays.Proofs.Workspace.Consistency

namespace MeteredArrays

inductive Ending where
  | finalize
  | rollback
  | drop
  deriving DecidableEq

def Invocation.conclude {σ : Type} [Storage σ] (invocation : Invocation σ) : Ending → Option Fault × σ
  | .finalize =>
    match invocation.finalize with
    | .ok _ after => (none, after.workspace.storage)
    | .error fault after => (some fault, after.workspace.storage)
  | .rollback => (none, invocation.rollback.2.workspace.storage)
  | .drop => (none, invocation.workspace.storage)

inductive Phase where
  | push
  | commit
  | discard
  | invoke (limit : UInt64) (schedule : Schedule) (calls : List Call) (ending : Ending)
  deriving DecidableEq

namespace Phase

def run {β : Type} [Storage β] (layers : Layers β) : Phase → List Fault × Layers β
  | push => ([], layers.push)
  | commit =>
    match layers.commit? with
    | some ⟨_, .ok _, below⟩ => ([], below)
    | some ⟨_, .error fault, below⟩ => ([fault], below)
    | none => ([], layers)
  | discard => ([], (layers.discard?.map Layers.Closing.below).getD layers)
  | invoke limit schedule calls ending =>
    let (answers, invocation) := Call.runAll calls (.start limit schedule layers)
    let (fault?, layers) := invocation.conclude ending
    (answers.filterMap (fun | .error fault => some fault | .ok _ => none) ++ fault?.toList, layers)

/-- An invocation loads arrays by slots that have a record of their kind only. -/
def Honest {β : Type} [Storage β] (layers : Layers β) : Phase → Prop
  | invoke _ _ calls _ => ∀ slot kind, .load slot kind ∈ calls → Recorded (Storage.read layers) ⟨kind, slot⟩
  | _ => True

def demand {β : Type} [Storage β] (layers : Layers β) : Phase → Nat
  | invoke limit schedule calls .finalize => (Call.runAll calls (.start limit schedule layers)).2.demand
  | _ => 0

end Phase

def runPhases {β : Type} [Storage β] : List Phase → Layers β → List Fault × Layers β
  | [], layers => ([], layers)
  | phase :: phases, layers =>
    let (faults, layers) := phase.run layers
    let (others, layers) := runPhases phases layers
    (faults ++ others, layers)

def HonestAll {β : Type} [Storage β] : List Phase → Layers β → Prop
  | [], _ => True
  | phase :: phases, layers => phase.Honest layers ∧ HonestAll phases (phase.run layers).2

def demandAll {β : Type} [Storage β] : List Phase → Layers β → Nat
  | [], _ => 0
  | phase :: phases, layers => phase.demand layers + demandAll phases (phase.run layers).2

structure Settled {σ : Type} [Storage σ] (count : Nat) (storage : σ) : Prop where
  consistent : Consistent (Storage.read storage)
  supplies : Storage.Supplies count storage

namespace Settled

variable {σ : Type} [Storage σ]

theorem mono {count total : Nat} {storage : σ} (settled : Settled total storage) (le : count ≤ total) :
    Settled count storage :=
  ⟨settled.consistent, settled.supplies.mono le⟩

theorem reserve [FaithfulStorage σ] {count more : Nat} {storage : σ}
    (settled : Settled (count + more) storage) : Settled more (Storage.reserve count storage) := by
  have read : Storage.read (Storage.reserve count storage) = Storage.read storage :=
    funext (Storage.read_reserve count storage)
  exact ⟨read ▸ settled.consistent, settled.supplies.reserve⟩

end Settled

namespace Phase

variable {β : Type} [Storage β] {layers : Layers β} {count : Nat}

theorem push_settled (settled : layers.EveryLevel (Settled count)) :
    layers.push.EveryLevel (Settled count) := by
  have top := (Layers.everyLevel_iff.mp settled).1
  have read : Storage.read layers.push = Storage.read layers := funext (Layers.read_push layers)
  refine ⟨⟨read ▸ top.consistent, ?_, fun slot member => ?_⟩, settled⟩
  · rw [Layers.handouts_layer]
    exact top.supplies.nodup
  · rw [Layers.handouts_layer] at member
    exact (congrFun read slot).trans (top.supplies.unrecorded slot member)

variable [SteadyStorage β]

theorem commit_settled {below after : Layers β} {writes : Records}
    (settled : (Layers.layer below writes).EveryLevel (Settled count))
    (wrote : Storage.Wrote writes.toList below after) : after.EveryLevel (Settled count) := by
  obtain ⟨top, lower⟩ := settled
  obtain ⟨here, beneath⟩ := Layers.everyLevel_iff.mp lower
  refine Layers.everyLevel_iff.mpr ⟨⟨?_, ?_⟩, beneath.wrote wrote⟩
  · rw [Layers.read_apply wrote]
    exact top.consistent
  · exact wrote.supplies here.supplies (Layers.unhanded top.supplies)

theorem finalize_settled {before after : Invocation (Layers β)} {finalized : Finalized}
    (sound : Invocation.Sound layers before) (allows : before.heap.Allows (Recorded (Storage.read layers)))
    (settled : layers.EveryLevel (Settled (before.demand + count)))
    (done : before.finalize = .ok finalized after) : after.workspace.storage.EveryLevel (Settled count) := by
  obtain ⟨rfl, wf, backed⟩ := sound
  obtain ⟨_, persisted, commits, _⟩ := Invocation.finalize_ok wf done
  have inside := Invocation.roots_inside wf
  have top := (Layers.everyLevel_iff.mp settled).1
  have ready : before.workspace.Committable before.roots.toList :=
    ⟨wf.heap, inside, backed, top.supplies.mono (Nat.le_add_right _ _)⟩
  obtain ⟨writes, all, wrote⟩ := commits.writes
  have reserved := settled.reserve before.demand fun _ level => level.reserve
  obtain ⟨here, beneath⟩ := Layers.everyLevel_iff.mp reserved
  refine Layers.everyLevel_iff.mpr ⟨⟨commits.consistent ready allows top.consistent, ?_⟩, beneath.wrote wrote⟩
  exact wrote.supplies here.supplies (Workspace.unhanded wf.heap inside backed top.supplies all)

theorem invoke_settled {limit : UInt64} {schedule : Schedule} {calls : List Call} (ending : Ending)
    (settled : layers.EveryLevel (Settled ((invoke limit schedule calls ending).demand layers + count)))
    (honest : (invoke limit schedule calls ending).Honest layers) :
    ((invoke limit schedule calls ending).run layers).2.EveryLevel (Settled count) ∧
      ∀ why, .storageCorruption why ∉ ((invoke limit schedule calls ending).run layers).1 := by
  have top := (Layers.everyLevel_iff.mp settled).1
  have trusted := top.consistent.trusted
  have ready : Invocation.Ready (Recorded (Storage.read layers)) (Invocation.start limit schedule layers) :=
    Invocation.ready_start _ limit schedule layers
  have advances := Invocation.runAll_advances ready trusted.closed calls honest
  obtain ⟨answers, exit⟩ := Invocation.runAll_uncorrupted ready trusted calls honest fun _ same => by cases same
  have sound := advances.sound
  have answered : ∀ why, .storageCorruption why ∉
      (Call.runAll calls (Invocation.start limit schedule layers)).1.filterMap
        (fun | .error fault => some fault | .ok _ => none) := by
    intro why member
    obtain ⟨answer, listed, same⟩ := List.mem_filterMap.mp member
    cases answer with
    | ok answer => cases same
    | error fault =>
      cases same
      exact answers why listed
  have kept := settled.imp fun _ level => level.mono (Nat.le_add_left count _)
  cases ending with
  | drop =>
    simp only [run, Invocation.conclude, Option.toList_none, List.append_nil, sound.storage_eq]
    exact ⟨kept, answered⟩
  | rollback =>
    simp only [run, Invocation.conclude, Option.toList_none, List.append_nil]
    rw [show (Call.runAll calls (.start limit schedule layers)).2.rollback.2.workspace.storage = layers
      from sound.storage_eq]
    exact ⟨kept, answered⟩
  | finalize =>
    simp only [demand] at settled
    rcases Invocation.finalize_cases sound.wellFormed with ⟨finalized, after, done⟩ | ⟨fault, halted, failed⟩
    · simp only [run, Invocation.conclude, done, Option.toList_none, List.append_nil]
      exact ⟨finalize_settled sound (advances.ready ready).allows settled done, answered⟩
    · simp only [run, Invocation.conclude, failed, Option.toList_some, sound.storage_eq]
      refine ⟨kept, fun why member => ?_⟩
      rcases List.mem_append.mp member with member | member
      · exact answered why member
      · rw [List.mem_singleton] at member
        exact exit why (halted.trans (congrArg some member.symm))

theorem run_settled {phase : Phase} (settled : layers.EveryLevel (Settled (phase.demand layers + count)))
    (honest : phase.Honest layers) :
    (phase.run layers).2.EveryLevel (Settled count) ∧ ∀ why, .storageCorruption why ∉ (phase.run layers).1 := by
  cases phase with
  | invoke limit schedule calls ending => exact invoke_settled ending settled honest
  | push =>
    have settled := settled.imp fun _ level => level.mono (Nat.le_add_left count _)
    exact ⟨push_settled settled, fun _ => List.not_mem_nil⟩
  | discard =>
    have settled := settled.imp fun _ level => level.mono (Nat.le_add_left count _)
    refine ⟨?_, fun _ => List.not_mem_nil⟩
    cases layers with
    | base backend => exact settled
    | layer below writes => exact settled.2
  | commit =>
    have settled := settled.imp fun _ level => level.mono (Nat.le_add_left count _)
    cases layers with
    | base backend => exact ⟨settled, fun _ => List.not_mem_nil⟩
    | layer below writes =>
      obtain ⟨after, applied, wrote⟩ := Layers.apply_wrote (Storage.accepting_of_reliable below) writes
      simp only [run, Layers.commit?, applied]
      exact ⟨commit_settled settled wrote, fun _ => List.not_mem_nil⟩

end Phase

theorem runPhases_settled {β : Type} [Storage β] [SteadyStorage β] (phases : List Phase) {layers : Layers β}
    (honest : HonestAll phases layers) (settled : layers.EveryLevel (Settled (demandAll phases layers))) :
    (runPhases phases layers).2.EveryLevel (fun level => Consistent (Storage.read level)) ∧
      ∀ why, .storageCorruption why ∉ (runPhases phases layers).1 := by
  induction phases generalizing layers with
  | nil => exact ⟨settled.imp fun _ level => level.consistent, fun _ => List.not_mem_nil⟩
  | cons phase phases ih =>
    obtain ⟨settled', sound⟩ := Phase.run_settled settled honest.1
    obtain ⟨consistent, rest⟩ := ih honest.2 settled'
    refine ⟨consistent, fun why member => ?_⟩
    rcases List.mem_append.mp member with member | member
    · exact sound why member
    · exact rest why member

/-- Consistent storage stays consistent, and no operation ever meets a corrupt record, through any history
    of nested transactions and invocations that load arrays by existing records of their kind. This holds at
    every level of the stack, so whichever transactions are discarded later. There has to be a 64-bit slot
    for each record that is there at first and for each array that a commit takes one for. -/
theorem runPhases_consistent {memory : Memory} (consistent : Consistent (Storage.read memory))
    {phases : List Phase} (honest : HonestAll phases (Layers.base memory))
    (room : memory.records.size + demandAll phases (Layers.base memory) ≤ UInt64.size) :
    (runPhases phases (Layers.base memory)).2.EveryLevel (fun level => Consistent (Storage.read level)) ∧
      ∀ why, .storageCorruption why ∉ (runPhases phases (Layers.base memory)).1 := by
  have supplies := Memory.supplies memory room
  refine runPhases_settled phases honest ⟨consistent, ?_, fun slot member => ?_⟩
  · rw [Layers.handouts_base]
    exact supplies.nodup
  · rw [Layers.handouts_base] at member
    exact supplies.unrecorded slot member

def ring : Memory :=
  (Memory.empty.insert ⟨0⟩ (Record.ofContents (.references #[some ⟨.reference, ⟨1⟩⟩]))).insert ⟨1⟩
    (Record.ofContents (.references #[some ⟨.reference, ⟨0⟩⟩, none]))

theorem ring_consistent : Consistent (Storage.read ring) := by
  have first : Recorded (Storage.read ring) ⟨.reference, ⟨0⟩⟩ := ⟨_, rfl, by decide +kernel⟩
  have second : Recorded (Storage.read ring) ⟨.reference, ⟨1⟩⟩ := ⟨_, rfl, by decide +kernel⟩
  intro slot record present
  have stored := (getElem?_insert_slot _ _ slot _).symm.trans present
  by_cases same : (⟨1⟩ : Slot) = slot
  · rw [if_pos same] at stored
    cases stored
    refine ⟨.reference, .references #[some ⟨.reference, ⟨0⟩⟩, none], by decide +kernel, by decide +kernel, ?_⟩
    intro link member
    cases List.mem_singleton.mp member
    exact first
  · rw [if_neg same] at stored
    have stored := (getElem?_insert_slot _ _ slot _).symm.trans stored
    by_cases same : (⟨0⟩ : Slot) = slot
    · rw [if_pos same] at stored
      cases stored
      refine ⟨.reference, .references #[some ⟨.reference, ⟨1⟩⟩], by decide +kernel, by decide +kernel, ?_⟩
      intro link member
      cases List.mem_singleton.mp member
      exact second
    · rw [if_neg same] at stored
      cases Std.ExtTreeMap.getElem?_empty.symm.trans stored

def ringPhases : List Phase :=
  [.push,
    .invoke 100 .free [.load ⟨0⟩ .reference, .get 0 0, .create 1 (.primitive .int),
      .set 1 1 (.reference (some 2)), .addRoot 0] .finalize,
    .commit,
    .invoke 0 .mainnet [.load ⟨1⟩ .reference, .get 0 1, .length 1] .rollback]

theorem ringPhases_consistent :
    (runPhases ringPhases (Layers.base ring)).2.EveryLevel (fun level => Consistent (Storage.read level)) ∧
      ∀ why, .storageCorruption why ∉ (runPhases ringPhases (Layers.base ring)).1 := by
  refine runPhases_consistent ring_consistent ⟨trivial, ?_, trivial, ?_, trivial⟩ (by decide +kernel)
  · intro slot kind member
    have same : slot = ⟨0⟩ ∧ kind = .reference := by simpa using member
    obtain ⟨rfl, rfl⟩ := same
    exact ⟨_, rfl, by decide +kernel⟩
  · intro slot kind member
    have same : slot = ⟨1⟩ ∧ kind = .reference := by simpa using member
    obtain ⟨rfl, rfl⟩ := same
    exact recorded_iff.mpr (by decide +kernel)

end MeteredArrays
