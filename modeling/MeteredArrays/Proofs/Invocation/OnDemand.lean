import MeteredArrays.Proofs.Invocation.Finality
import MeteredArrays.Proofs.Workspace.Fetches
import MeteredArrays.Proofs.Workspace.Trail

namespace MeteredArrays

/-- The slot that has to be read for a call: that of the array it needs, if its contents are not in memory. -/
def Call.unread? (call : Call) (heap : Heap) : Option Slot :=
  call.subject?.bind heap.unread?

namespace Invocation

open Heap

variable {σ : Type} {invocation : Invocation σ}

def fetched (invocation : Invocation σ) : List Slot :=
  fetches invocation.journal

theorem fetched_announce {event : Event} (silent : event.fetched? = none) (invocation : Invocation σ) :
    (invocation.announce event).fetched = invocation.fetched := by
  have told : fetches (invocation.journal ++ [event]) = fetches invocation.journal := by
    rw [fetches_append]
    simp [silent]
  exact told

theorem fetched_halt (invocation : Invocation σ) (fault : Fault) :
    (halt fault invocation).fetched = invocation.fetched :=
  fetched_announce rfl invocation

theorem fetched_withArray {contents : Contents ArrayId} {event : ArrayId → Event}
    (silent : ∀ id, (event id).fetched? = none) (invocation : Invocation σ) :
    (invocation.withArray contents event).fetched = invocation.fetched :=
  fetched_announce (silent _) _

theorem fetched_notices (meter : Meter) (operation : Metered) (journal : Journal) :
    fetches (journal ++ meter.notices operation) = fetches journal := by
  rw [fetches_append, Meter.notices]
  cases operation.cost meter.schedule with
  | error fault => exact List.append_nil _
  | ok amount =>
    have silent : (meter.notice amount).fetched? = none := by
      unfold Meter.notice
      cases meter.ledger.spend? amount with
      | some ledger => rfl
      | none => rfl
    simp [silent]

theorem leaves_pay (operation : Metered) : Leaves fetched (pay operation : Action σ Unit) := by
  intro invocation
  simp only [pay]
  cases invocation.meter.record operation with
  | ok meter => exact fetched_notices invocation.meter operation invocation.journal
  | error fault => exact fetched_notices invocation.meter operation invocation.journal

theorem fetched_abort (invocation : Invocation σ) : invocation.abort.fetched = invocation.fetched := by
  unfold abort
  cases invocation.exit? with
  | some fault => rfl
  | none => exact fetched_announce rfl invocation

structure FetchedOnce (invocation : Invocation σ) : Prop where
  nodup : invocation.fetched.Nodup
  opened : invocation.exit? = none → ∀ slot ∈ invocation.fetched, ∃ id, invocation.heap.Opened id slot

namespace FetchedOnce

variable {call : Call} {slot : Slot}

theorem unread_new (once : FetchedOnce invocation) (wf : invocation.WellFormed) (running : invocation.exit? = none)
    (unread : call.unread? invocation.heap = some slot) : slot ∉ invocation.fetched := by
  intro member
  obtain ⟨id, array, here, bound, materialized⟩ := once.opened running slot member
  obtain ⟨other, _, closed⟩ := Option.bind_eq_some_iff.mp unread
  obtain ⟨array', there, bound', unmaterialized⟩ := unread?_eq_some.mp closed
  have same := wf.heap.slot_unique here bound there bound'
  subst same
  cases here.symm.trans there
  cases materialized.symm.trans unmaterialized

theorem nodup_append (once : FetchedOnce invocation) (wf : invocation.WellFormed)
    (running : invocation.exit? = none) (call : Call) :
    (invocation.fetched ++ (call.unread? invocation.heap).toList).Nodup := by
  cases unread : call.unread? invocation.heap with
  | none =>
    rw [Option.toList_none, List.append_nil]
    exact once.nodup
  | some slot =>
    apply once.nodup.append (List.nodup_singleton slot)
    exact List.disjoint_singleton.mpr (once.unread_new wf running unread)

end FetchedOnce

variable [Storage σ]

theorem leaves_finalize : Leaves fetched (finalize : Action σ Finalized) := by
  rintro ⟨meter, workspace, roots, exit?⟩
  cases exit? with
  | some fault => exact rfl
  | none =>
    have leaves := Workspace.leaves_persist roots.toList workspace
    rw [finalize_eq]
    cases persists : Workspace.persist roots.toList workspace with
    | ok persisted after =>
      have same := leaves.ok persists
      exact (fetched_announce rfl ⟨meter, after, roots, none⟩).trans same
    | error fault after =>
      have same := leaves.error persists
      exact (fetched_halt ⟨meter, after, roots, none⟩ fault).trans same

variable {call : Call} {answer : Answer} {fault : Fault} {after : Invocation σ}

theorem fetched_of_opens (call : Call) (wf : invocation.WellFormed) {id : ArrayId} {contents : Contents ArrayId}
    {opened : Workspace σ} (opens : invocation.workspace.Opens id contents opened)
    (subject : call.subject? = some id) :
    (invocation.withWorkspace opened).fetched = invocation.fetched ++ (call.unread? invocation.heap).toList := by
  rw [Call.unread?, subject]
  exact ((Workspace.materialize_fetches wf.heap id).ok opens.read).1

theorem Succeeds.fetches (succeeds : Succeeds invocation call answer after) (wf : invocation.WellFormed) :
    after.fetched = invocation.fetched ++ (call.unread? invocation.heap).toList := by
  cases succeeds with
  | create pays nonneg =>
    have unread := (leaves_pay _ _).ok pays
    refine (fetched_withArray ?_ _).trans (unread.trans (List.append_nil _).symm)
    exact fun _ => rfl
  | @load slot kind id heap resolves =>
    have silent : (Event.named id slot kind).fetched? = none := rfl
    exact (fetched_announce silent _).trans (List.append_nil _).symm
  | look opens shown => exact fetched_of_opens call wf opens shown.subject?
  | @set id index value contents opened checked opens fits =>
    have read := fetched_of_opens (.set id index value) wf opens rfl
    exact read
  | @clone id contents opened paid opens short pays =>
    have read := ((leaves_pay _ _).ok pays).trans (fetched_of_opens (.clone id) wf opens rfl)
    refine (fetched_withArray ?_ _).trans read
    exact fun _ => rfl
  | replace | addRoot => exact (List.append_nil _).symm

theorem Fails.fetches (fails : Fails invocation call fault after) (wf : invocation.WellFormed) :
    after.fetched = invocation.fetched ∨
      after.fetched = invocation.fetched ++ (call.unread? invocation.heap).toList := by
  cases fails with
  | early rejects => exact Or.inl rfl
  | @unread _ id _ _ subject checked failed =>
    rw [Call.unread?, subject]
    exact Or.inr ((Workspace.materialize_fetches wf.heap id).error failed)
  | look opens balks => exact Or.inr (fetched_of_opens call wf opens balks.subject?)
  | @refused id index value contents fault opened checked opens refused =>
    have read := fetched_of_opens (.set id index value) wf opens rfl
    exact Or.inr read
  | unpaidCreation refused => exact Or.inl ((leaves_pay _ _).error refused)
  | negativeLength pays negative => exact Or.inl ((leaves_pay _ _).ok pays)
  | @unpaidCopy id _ _ _ _ opens short refused =>
    exact Or.inr (((leaves_pay _ _).error refused).trans (fetched_of_opens (.clone id) wf opens rfl))

theorem run_fetches (wf : invocation.WellFormed) (call : Call) :
    Ends (call.run invocation)
      (fun _ after => after.fetched = invocation.fetched ++ (call.unread? invocation.heap).toList ∧
        ∀ id, call.subject? = some id → after.heap.InMemory id)
      fun _ after => after.fetched = invocation.fetched ∨
        after.fetched = invocation.fetched ++ (call.unread? invocation.heap).toList := by
  apply run_cases
  · intro _ _ _
    exact Or.inl rfl
  · rintro rfl
    exact ⟨(fetched_abort invocation).trans (List.append_nil _).symm, nofun⟩
  · intro answer after _ succeeds
    exact ⟨succeeds.fetches wf, fun _ subject => succeeds.inMemory subject⟩
  · intro fault last _ fails
    rw [fetched_halt]
    exact fails.fetches wf

theorem opened_of_advances {after : Invocation σ} (advances : Advances (fun _ => True) invocation after)
    {id : ArrayId} {slot : Slot} (opened : invocation.heap.Opened id slot) : after.heap.Opened id slot := by
  obtain ⟨array, here, bound, materialized⟩ := opened
  obtain ⟨array', there, kept⟩ := advances.workspace.changes.keeps here
  exact ⟨array', there, kept.slot.trans bound, kept.inMemory materialized⟩

theorem FetchedOnce.run (once : FetchedOnce invocation) (wf : invocation.WellFormed) (call : Call) :
    Ends (call.run invocation) (fun _ after => FetchedOnce after) fun _ after => FetchedOnce after := by
  cases exit : invocation.exit? with
  | some fault =>
    by_cases aborts : call = .abort
    · subst aborts
      have ran : Call.abort.run invocation = .ok .done invocation.abort := rfl
      rw [ran, abort_halted exit]
      exact once
    · rw [run_of_halted exit aborts]
      exact once
  | none =>
    have nodup := once.nodup_append wf exit call
    apply ((run_fetches wf call).and ((run_advances wf call).and (run_exit exit call))).imp
    · intro answer after ended
      obtain ⟨⟨read, inMemory⟩, advances, _⟩ := ended
      constructor
      · rw [read]
        exact nodup
      · intro _ slot member
        rw [read] at member
        rcases List.mem_append.mp member with old | new
        · obtain ⟨id, opened⟩ := once.opened exit slot old
          exact ⟨id, opened_of_advances advances opened⟩
        · obtain ⟨id, subject, unread⟩ := Option.bind_eq_some_iff.mp (Option.mem_toList.mp new)
          obtain ⟨array, here, bound, _⟩ := unread?_eq_some.mp unread
          obtain ⟨array', there, kept⟩ := advances.workspace.changes.keeps here
          obtain ⟨last, contents, found, held⟩ := inMemory id subject
          cases there.symm.trans found
          exact ⟨id, array', there, kept.slot.trans bound, by rw [LiveArray.isMaterialized, held]; rfl⟩
    · intro fault after ended
      obtain ⟨read, _, halted⟩ := ended
      constructor
      · rcases read with same | own
        · rw [same]
          exact once.nodup
        · rw [own]
          exact nodup
      · intro running
        have kept := halted.symm.trans running
        cases call <;> cases kept

/-- In every run, however it ends, storage is asked for a slot at most once. A call asks for the slot of the one
    array that it needs, if that array has a slot and its contents are not in memory; if it fails before it needs
    them, it asks for nothing. Neither way to end an invocation asks for anything. -/
theorem slots_fetched_once (limit : UInt64) (schedule : Schedule) (storage : σ) (calls : List Call) :
    let invocation := (Call.runAll calls (start limit schedule storage)).2
    invocation.fetched.Nodup ∧
    (∀ call : Call,
      (Ends (call.run invocation)
        (fun _ after => after.fetched = invocation.fetched ++ (call.unread? invocation.heap).toList)
        fun _ after => after.fetched = invocation.fetched ∨
          after.fetched = invocation.fetched ++ (call.unread? invocation.heap).toList) ∧
      ∀ slot, call.unread? invocation.heap = some slot ↔
        ∃ id array, call.subject? = some id ∧ invocation.heap.arrays[id]? = some array ∧
          array.slot? = some slot ∧ array.isMaterialized = false) ∧
    (Ends (finalize invocation) (fun _ after => after.fetched = invocation.fetched)
      fun _ after => after.fetched = invocation.fetched) ∧
    invocation.rollback.2.fetched = invocation.fetched := by
  have ready := ready_start (fun _ => True) limit schedule storage
  have once : FetchedOnce (Call.runAll calls (start limit schedule storage)).2 := by
    apply runAll_keeps (fun once wf call => once.run wf call) _ ready.wellFormed
    exact ⟨List.nodup_nil, fun _ slot member => absurd member List.not_mem_nil⟩
  have wf := (runAll_advances ready (fun _ _ _ _ _ => trivial) calls fun _ _ _ => trivial).wellFormed ready.wellFormed
  intro invocation
  refine ⟨once.nodup, fun call => ⟨?_, fun slot => ?_⟩, leaves_finalize invocation, fetched_announce rfl invocation⟩
  · exact (run_fetches wf call).imp (fun _ _ ended => ended.1) fun _ _ ended => ended
  · rw [Call.unread?, Option.bind_eq_some_iff]
    simp only [unread?_eq_some, exists_and_left]

end Invocation

end MeteredArrays
