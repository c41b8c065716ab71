import MeteredArrays.Proofs.Invocation.ExactCommit
import MeteredArrays.Proofs.Invocation.Faults
import MeteredArrays.Proofs.Invocation.Lockstep
import MeteredArrays.Proofs.Storage.Rationing
import MeteredArrays.Proofs.Workspace.DepthFirst

namespace MeteredArrays

namespace Workspace

open Heap

variable {σ τ : Type} [Storage σ] [Storage τ] {left after : Workspace σ} {right complete : Workspace τ}
  {roots : List ArrayId} {count : Nat} {refusal fault : Fault}

/-- What a commit of `roots` leaves in storage if all but the first `count` of its writes are refused. The writes of
    the `complete` commit are `saves`. -/
structure Truncated (count : Nat) (roots : List ArrayId) (saves : List (ArrayId × Slot × Record))
    (before after : Workspace σ) (complete : Workspace τ) : Prop where
  written : ∀ write ∈ (saves.map Prod.snd).take count,
    Storage.read after.storage write.1 = some write.2 ∧ Storage.read complete.storage write.1 = some write.2
  others : ∀ slot, slot ∉ ((saves.map Prod.snd).take count).map Prod.fst →
    Storage.read after.storage slot = Storage.read before.storage slot
  counter : ∀ {ν : Type} (view : σ → ν), (∀ slot record, Leaves view (Storage.write slot record)) →
    view after.storage = view (Storage.reserve (before.heap.survey roots).unbound.length before.storage)

theorem Twin.separable (twin : Twin left right)
    (offered : Storage.handouts (left.heap.unbound roots).length left.storage =
      Storage.handouts (left.heap.unbound roots).length right.storage)
    (separable : left.Separable roots) : right.Separable roots where
  wellFormed := twin.heap ▸ separable.wellFormed
  inside := twin.heap ▸ separable.inside
  backed := by
    rw [← twin.heap, ← twin.read]
    exact separable.backed
  distinct := by
    rw [(twin.saves offered).2.1]
    exact separable.distinct

theorem truncated [FaithfulStorage σ] [FaithfulStorage τ] (separable : left.Separable roots)
    (rationing : Storage.Rationing refusal count left.storage)
    (refused : Storage.Refused count (left.writes roots)
      (Storage.reserve (left.heap.unbound roots).length left.storage) fault after.storage)
    {storage : τ} (wrote : Storage.Wrote (left.writes roots) storage complete.storage) :
    Truncated count roots (left.saves roots) left after complete := by
  have nodup : ((left.writes roots).map Prod.fst).Nodup :=
    separable.nodup_slots (records_writes separable.wellFormed separable.inside)
  have reads := (refused.ration (rationing.reserve _)).2.2
  rw [funext (Storage.read_reserve _ left.storage)] at reads
  have saves := saves_snd separable.wellFormed separable.inside
  constructor
  · intro write member
    rw [saves] at member
    rw [reads, wrote.read]
    constructor
    · exact overwrite_of_mem (nodup.sublist ((List.take_sublist _ _).map _)) member
    · exact overwrite_of_mem nodup (List.mem_of_mem_take member)
  · intro slot unwritten
    rw [saves] at unwritten
    rw [reads, overwrite_of_not_mem unwritten]
  · intro ν view unseen
    rw [refused.view_eq unseen, unbound_eq_survey separable.wellFormed.target_inside separable.inside]

theorem Twin.persist_rationed [FaithfulStorage σ] [FaithfulStorage τ] (twin : Twin left right)
    (separable : left.Separable roots)
    (offered : Storage.handouts (left.heap.unbound roots).length left.storage =
      Storage.handouts (left.heap.unbound roots).length right.storage)
    (rationing : Storage.Rationing refusal count left.storage) {persisted : Persisted}
    (done : Workspace.persist roots right = .ok persisted complete) :
    (persisted.written ≤ count → ∃ after, Workspace.persist roots left = .ok persisted after ∧ Twin after complete) ∧
    (count < persisted.written → ∃ after, Workspace.persist roots left = .error refusal after ∧
      Truncated count roots (left.saves roots) left after complete) := by
  have wf := separable.wellFormed
  have inside := separable.inside
  have wf' : right.heap.WellFormed := twin.heap ▸ wf
  obtain ⟨_, wrote', written', _⟩ := (persist_ends wf' (twin.heap ▸ inside)).ok done
  rw [← twin.heap, (twin.saves offered).2.2.1] at wrote'
  rw [← twin.heap, (records_writes wf inside).length_eq] at written'
  have ends := persist_ends wf inside
  cases result : Workspace.persist roots left with
  | ok persisted' after =>
    obtain ⟨_, wrote, _⟩ := ends.ok result
    obtain ⟨rest, rfl, _⟩ := wrote.rationing (rationing.reserve _)
    obtain ⟨rfl, heap, journal⟩ := twin.persisted wf inside offered result done
    constructor
    · intro _
      refine ⟨after, rfl, heap, journal, ?_⟩
      rw [wrote.read, wrote'.read, funext (Storage.read_reserve _ left.storage),
        funext (Storage.read_reserve _ right.storage), twin.read]
    · intro few
      omega
  | error fault after =>
    obtain ⟨accepted, refused, _⟩ := ends.error result
    obtain ⟨rfl, rfl, _⟩ := refused.ration (rationing.reserve _)
    have ends := refused.take.1
    constructor
    · intro enough
      omega
    · exact fun _ => ⟨after, rfl, truncated separable rationing refused wrote'⟩

end Workspace

namespace Invocation

open Heap

variable {σ τ : Type} [Storage σ] [Storage τ]

structure Unlimited (before : Invocation σ) (whole : Invocation τ) : Prop where
  twin : Twin before whole
  offered : Storage.handouts before.demand before.workspace.storage =
    Storage.handouts before.demand whole.workspace.storage
  accepting : Storage.Accepting whole.workspace.storage

theorem exists_unlimited (before : Invocation σ) : ∃ whole : Invocation (Layers σ), before.Unlimited whole := by
  obtain ⟨meter, ⟨heap, storage, journal⟩, roots, exit?⟩ := before
  refine ⟨⟨meter, ⟨heap, (Layers.base storage).push, journal⟩, roots, exit?⟩, ?_, ?_, ?_⟩
  · exact ⟨rfl, ⟨rfl, rfl, (funext (Layers.read_push (.base storage))).symm⟩, rfl, rfl⟩
  · exact (Layers.handouts_bottom _ (Layers.base storage).push).symm
  · exact Layers.accepting_layer (.base storage) ∅

/-- How an end over a ration of `count` writes compares with the complete one. -/
def CutShort (count : Nat) (refusal : Fault) (before : Invocation σ) (whole : Invocation τ) : Prop :=
  ∃ finalized complete saves, finalize whole = .ok finalized complete ∧ finalized.written = saves.length ∧
    saves.map Prod.fst = (before.heap.survey before.roots.toList).pending ∧
    Workspace.Saving before.roots.toList whole.workspace complete.workspace saves ∧
    (finalized.written ≤ count → ∃ after, finalize before = .ok finalized after ∧ Twin after complete) ∧
    (count < finalized.written → ∃ after, finalize before = .error refusal after ∧
      Workspace.Truncated count before.roots.toList saves before.workspace after.workspace complete.workspace)

theorem cutShort_unlimited [FaithfulStorage σ] [FaithfulStorage τ] {before : Invocation σ} {whole : Invocation τ}
    (unlimited : before.Unlimited whole) (separable : before.workspace.Separable before.roots.toList)
    (running : before.exit? = none) {refusal : Fault} {count : Nat}
    (rationing : Storage.Rationing refusal count before.workspace.storage) :
    CutShort count refusal before whole := by
  obtain ⟨twin, offered, accepting⟩ := unlimited
  obtain ⟨meter, workspace, roots, exit?⟩ := before
  obtain ⟨meter', workspace', roots', exit?'⟩ := whole
  obtain ⟨meters, twin, same, exits⟩ := twin
  cases meters
  cases same
  cases running
  cases exits
  have separable' : workspace'.Separable roots.toList := twin.separable offered separable
  obtain ⟨persisted, middle, done, commits, _, written, _⟩ :=
    (Workspace.persist_ends separable'.wellFormed separable'.inside).exists_ok
      fun _ _ ⟨_, refused, _⟩ => (accepting.reserve _).not_refused refused
  have saves : workspace'.saves roots.toList = workspace.saves roots.toList := (twin.saves offered).2.2.2
  have saving := commits.saving separable'
  obtain ⟨lasts, ends⟩ := twin.persist_rationed separable offered rationing done
  rw [CutShort, finalize_eq meter workspace', done]
  refine ⟨_, _, workspace.saves roots.toList, rfl, ?_, ?_, ?_, ?_, ?_⟩
  · rw [← saves, Workspace.length_saves separable'.wellFormed separable'.inside]
    exact written
  · rw [Workspace.saves_fst separable.wellFormed separable.inside]
    exact pending_eq_survey separable.wellFormed.target_inside separable.inside
  · rw [← saves]
    exact ⟨saving.once, saving.saved, saving.record, saving.apart⟩
  · intro enough
    obtain ⟨after, done, kept⟩ := lasts enough
    rw [finalize_eq, done]
    exact ⟨_, rfl, rfl, Workspace.announce_twin kept _, rfl, rfl⟩
  · intro few
    obtain ⟨after, failed, cut⟩ := ends few
    rw [finalize_eq, failed]
    exact ⟨_, rfl, cut.written, cut.others, cut.counter⟩

/-- Writes that are refused cut an end short and do nothing else: the storage has what the complete commit writes
    first, and beyond that only slots were handed out. An invocation that has halted writes nothing. -/
theorem finalize_rationed [FaithfulStorage σ] {storage : σ} {before : Invocation σ} (reached : Reached storage before)
    (untaken : before.workspace.Untaken before.roots.toList) {refusal : Fault} {count : Nat}
    (rationing : Storage.Rationing refusal count storage) :
    (before.exit? = none → (∃ whole : Invocation (Layers σ), before.Unlimited whole) ∧
      ∀ {τ : Type} [Storage τ] [FaithfulStorage τ] {whole : Invocation τ}, before.Unlimited whole →
        CutShort count refusal before whole) ∧
    ∀ fault, before.exit? = some fault → finalize before = .error fault before := by
  obtain ⟨rfl, wf, backed⟩ := reached.sound
  refine ⟨fun running => ⟨exists_unlimited before, ?_⟩, fun fault => finalize_halted⟩
  intro τ _ _ whole unlimited
  exact cutShort_unlimited unlimited (untaken.separable wf.heap (roots_inside wf) backed) running rationing

def cycleCalls : List Call :=
  [.create 1 .reference, .create 1 .reference, .set 0 0 (.reference (some 1)), .set 1 0 (.reference (some 0)),
    .addRoot 0]

def cycleWhole : Invocation Memory :=
  (Call.runAll cycleCalls (start 0 .free Memory.empty)).2

theorem cycleRationed_unlimited : cycleRationed.Unlimited cycleWhole where
  twin := by
    have read : Storage.read (⟨Memory.empty, some ⟨1, .outOfEnergy⟩⟩ : Rationed Memory) =
        Storage.read Memory.empty := rfl
    exact (runAll_twin (.start read 0 .free) cycleCalls).2
  offered := by decide +kernel
  accepting := Storage.accepting_of_reliable _

theorem cycleRationed_cutShort : CutShort 1 .outOfEnergy cycleRationed cycleWhole ∧
    ∃ after, finalize cycleRationed = .error .outOfEnergy after ∧ after.workspace.storage.backend.next = ⟨2⟩ := by
  have reached : Reached ⟨Memory.empty, some ⟨1, .outOfEnergy⟩⟩ cycleRationed := ⟨0, .free, _, rfl⟩
  have untaken : cycleRationed.workspace.Untaken cycleRationed.roots.toList := by
    constructor <;> decide +kernel
  have rationing : Storage.Rationing .outOfEnergy 1 (⟨Memory.empty, some ⟨1, .outOfEnergy⟩⟩ : Rationed Memory) :=
    Rationed.rationing _ 1 (Storage.accepting_of_reliable _)
  have cut := ((finalize_rationed reached untaken rationing).1 (by decide +kernel)).2 cycleRationed_unlimited
  refine ⟨cut, ?_⟩
  obtain ⟨finalized, complete, saves, _, written, order, _, _, ends⟩ := cut
  have wf := reached.sound.wellFormed
  have pending : (cycleRationed.heap.survey cycleRationed.roots.toList).pending = [0, 1] := by
    rw [← pending_eq_survey wf.heap.target_inside (roots_inside wf)]
    decide +kernel
  have unbound : (cycleRationed.heap.survey cycleRationed.roots.toList).unbound = [0, 1] := by
    rw [← unbound_eq_survey wf.heap.target_inside (roots_inside wf)]
    decide +kernel
  rw [pending] at order
  have two : saves.length = 2 := by
    rw [← List.length_map Prod.fst, order]
    rfl
  obtain ⟨after, failed, truncated⟩ := ends (by omega)
  have leaves : ∀ slot record, Leaves (fun storage : Rationed Memory => storage.backend.next)
      (Storage.write slot record) := by
    intro slot record ⟨memory, ration⟩
    cases ration with
    | none => rfl
    | some ration =>
      obtain ⟨left, refusal⟩ := ration
      cases left <;> rfl
  refine ⟨after, failed, (truncated.counter _ leaves).trans ?_⟩
  change (Storage.reserve (cycleRationed.heap.survey cycleRationed.roots.toList).unbound.length
    cycleRationed.workspace.storage).backend.next = ⟨2⟩
  rw [unbound]
  decide +kernel

end Invocation

end MeteredArrays
