import MeteredArrays.Proofs.Invocation.Ending
import MeteredArrays.Proofs.Invocation.Updates
import MeteredArrays.Proofs.Workspace.Trail

namespace MeteredArrays

variable {σ : Type} {schedule : Schedule} {start ledger : Ledger}

namespace Workspace

open Heap

structure Audited (schedule : Schedule) (start ledger : Ledger) (workspace : Workspace σ) : Prop where
  faithful : Faithful schedule start ledger workspace.heap (trail workspace.journal)
  unrefused : Unrefused (trail workspace.journal)

variable {workspace : Workspace σ} {id : ArrayId}

theorem Audited.unheard (audited : workspace.Audited schedule start ledger) {after : Workspace σ}
    (unheard : workspace.heap.Unheard after.heap) (silent : trail after.journal = trail workspace.journal) :
    after.Audited schedule start ledger := by
  constructor
  · rw [silent]
    exact audited.faithful.unheard unheard
  · rw [silent]
    exact audited.unrefused

theorem update_audited (audited : workspace.Audited schedule start ledger) {change : LiveArray → LiveArray}
    (keeps : ∀ array, workspace.heap.arrays[id]? = some array →
      (change array).slot? = array.slot? ∧ (change array).length? = array.length?) :
    ({ workspace with heap := workspace.heap.update id change } : Workspace σ).Audited schedule start ledger :=
  audited.unheard (.update keeps) rfl

theorem touch_audited (audited : workspace.Audited schedule start ledger) (id : ArrayId) :
    ({ workspace with heap := workspace.heap.update id .touch } : Workspace σ).Audited schedule start ledger := by
  apply update_audited audited
  intro array _
  rw [LiveArray.length?, LiveArray.length?, LiveArray.slot?_touch, LiveArray.contents?_touch]
  exact ⟨rfl, rfl⟩

theorem rewrite_audited (audited : workspace.Audited schedule start ledger) {current : Contents ArrayId}
    (inMemory : workspace.heap.held? id = some current) {change : Contents ArrayId → Contents ArrayId}
    (length : (change current).length = current.length) :
    ({ workspace with heap := (workspace.heap.update id .touch).update id (.mapContents change) } :
      Workspace σ).Audited schedule start ledger := by
  obtain ⟨array, here, held⟩ := held?_eq_some.mp inMemory
  apply update_audited (touch_audited audited id)
  intro touched there
  have there : (workspace.heap.update id .touch).arrays[id]? = some touched := there
  rw [arrays_update_self here] at there
  cases there
  rw [LiveArray.length?, LiveArray.length?, LiveArray.slot?_mapContents, LiveArray.contents?_mapContents,
    LiveArray.contents?_touch, held]
  exact ⟨rfl, congrArg some length⟩

variable [Storage σ]

theorem load_audited (audited : workspace.Audited schedule start ledger) (wf : workspace.heap.WellFormed)
    {kind : Kind} {slot : Slot} (here : workspace.heap.arrays[id]? = some (.named kind slot)) :
    Ends (load id kind slot workspace) (fun _ after => after.Audited schedule start ledger)
      fun _ after => after.Audited schedule start ledger := by
  have allows : workspace.heap.Allows fun _ => True := fun _ => trivial
  apply (load_opens @wf.indexed allows here (discloses_true _ _ id)).imp
  · rintro _ ⟨heap, storage, journal⟩ ⟨_, opened, contents, ext, _, _, rfl, rfl⟩
    have named := audited.faithful.unheard (.of_extends ext)
    have told : trail (workspace.journal ++ [Event.fetched slot, Event.materialized id slot contents.length]) =
        trail workspace.journal ++ [.materialized id slot contents.length] := trail_append _ _
    constructor
    · rw [told]
      exact named.loaded audited.unrefused (ext.same here)
    · rw [told]
      exact audited.unrefused.concat rfl
  · rintro fault ⟨heap, storage, journal⟩ ⟨_, ext, _, rfl⟩
    apply audited.unheard (.of_extends ext)
    rw [trail_append]
    exact List.append_nil _

theorem materialize_audited (audited : workspace.Audited schedule start ledger)
    (wf : workspace.heap.WellFormed) (id : ArrayId) :
    Ends (materialize id workspace) (fun _ after => after.Audited schedule start ledger)
      fun _ after => after.Audited schedule start ledger :=
  materialize_cases (fun _ => audited) (fun _ _ here => load_audited audited wf here) fun _ _ _ _ => audited

end Workspace

namespace Invocation

open Heap

structure Kept (schedule : Schedule) (start : Ledger) (invocation : Invocation σ) : Prop where
  fees : invocation.meter.schedule = schedule
  faithful : Faithful schedule start invocation.meter.ledger invocation.heap (trail invocation.journal)

structure Current (schedule : Schedule) (start : Ledger) (invocation : Invocation σ) : Prop extends
    Kept schedule start invocation where
  unrefused : Unrefused (trail invocation.journal)

/-- The trail is faithful, and only an invocation that has halted had a charge refused. -/
structure Audited (schedule : Schedule) (start : Ledger) (invocation : Invocation σ) : Prop extends
    Kept schedule start invocation where
  unrefused : invocation.exit? = none → Unrefused (trail invocation.journal)

variable {invocation : Invocation σ}

theorem Current.workspace (current : invocation.Current schedule start) :
    invocation.workspace.Audited schedule start invocation.meter.ledger :=
  ⟨current.faithful, current.unrefused⟩

theorem Current.of_workspace (current : invocation.Current schedule start) {workspace : Workspace σ}
    (audited : workspace.Audited schedule start invocation.meter.ledger) :
    Current schedule start { invocation with workspace } :=
  ⟨⟨current.fees, audited.faithful⟩, audited.unrefused⟩

theorem Current.withHeap (current : invocation.Current schedule start) {heap : Heap}
    (unheard : invocation.heap.Unheard heap) : (invocation.withHeap heap).Current schedule start :=
  current.of_workspace (current.workspace.unheard unheard rfl)

theorem Kept.announce (kept : invocation.Kept schedule start) {event : Event} (silent : event.isAudited = false) :
    (invocation.announce event).Kept schedule start ∧
      trail (invocation.announce event).journal = trail invocation.journal := by
  have told : trail (invocation.announce event).journal = trail invocation.journal := by
    refine (trail_append _ _).trans ?_
    rw [List.filter_cons_of_neg (by rw [silent]; exact Bool.false_ne_true)]
    exact List.append_nil _
  exact ⟨⟨kept.fees, told ▸ kept.faithful⟩, told⟩

theorem Kept.halt (kept : invocation.Kept schedule start) (fault : Fault) :
    (invocation.halt fault).Audited schedule start := by
  have silent : (Event.halted fault invocation.remaining).isAudited = false := rfl
  obtain ⟨⟨fees, faithful⟩, _⟩ := kept.announce silent
  exact ⟨⟨fees, faithful⟩, fun running => by cases running⟩

def JustCharged (invocation : Invocation σ) (price : Nat) : Prop :=
  ∃ cost ledger, (trail invocation.journal).getLast? = some (.charged cost ledger) ∧ cost.toNat = price

theorem pay_audited (current : invocation.Current schedule start) (operation : Metered) :
    Ends (pay operation invocation)
      (fun _ after => after.Current schedule start ∧ after.heap = invocation.heap ∧
        after.JustCharged (operation.exact schedule))
      fun _ after => after.Kept schedule start := by
  obtain ⟨meter, workspace, roots, exit?⟩ := invocation
  obtain ⟨⟨rfl, faithful⟩, unrefused⟩ := current
  have charging := meter.charging operation
  simp only [pay]
  generalize meter.record operation = result at charging
  generalize meter.notices operation = events at charging
  cases charging with
  | @accepted cost ledger price spent =>
    have told : trail (workspace.announce [.charged cost ledger]).journal =
        trail workspace.journal ++ [.charged cost ledger] := trail_append _ _
    refine ⟨⟨⟨rfl, ?_⟩, ?_⟩, rfl, cost, ledger, ?_, price⟩
    · exact told ▸ faithful.charged unrefused spent
    · exact told ▸ unrefused.concat rfl
    · exact told ▸ List.getLast?_concat
  | @refused cost price short =>
    have told : trail (workspace.announce [.refused cost meter.ledger]).journal =
        trail workspace.journal ++ [.refused cost meter.ledger] := trail_append _ _
    exact ⟨rfl, told ▸ faithful.refused unrefused short⟩
  | overflowing large => exact ⟨rfl, faithful⟩

theorem Current.withArray (current : invocation.Current schedule start) {contents : Contents ArrayId}
    {event : ArrayId → Event} (makes : (event invocation.heap.size).made? = some invocation.heap.size)
    (warranted : Warranted schedule start (invocation.heap.insert (.fresh contents false)).2
      (trail invocation.journal) (event invocation.heap.size)) :
    (invocation.withArray contents event).Current schedule start := by
  obtain ⟨heard, granted, _, _⟩ := Event.of_made makes
  have told : trail (invocation.withArray contents event).journal =
      trail invocation.journal ++ [event invocation.heap.size] := by
    refine (trail_append _ _).trans ?_
    rw [List.filter_cons_of_pos heard, List.filter_nil]
    rfl
  refine ⟨⟨current.fees, ?_⟩, ?_⟩
  · exact told ▸ current.faithful.inserted current.unrefused makes warranted
  · exact told ▸ current.unrefused.concat granted

theorem abort_audited (audited : invocation.Audited schedule start) :
    invocation.abort.Audited schedule start := by
  unfold abort
  cases invocation.exit? with
  | some fault => exact audited
  | none =>
    have silent : Event.aborted.isAudited = false := rfl
    obtain ⟨⟨fees, faithful⟩, _⟩ := audited.toKept.announce silent
    exact ⟨⟨fees, faithful⟩, fun running => by cases running⟩

variable [Storage σ] {call : Call} {answer : Answer} {fault : Fault} {after : Invocation σ}

theorem Current.withOpened (current : invocation.Current schedule start) (wf : invocation.WellFormed) {id : ArrayId}
    {contents : Contents ArrayId} {opened : Workspace σ} (opens : invocation.workspace.Opens id contents opened) :
    (invocation.withWorkspace opened).Current schedule start :=
  current.of_workspace ((Workspace.materialize_audited current.workspace wf.heap id).ok opens.read)

theorem Succeeds.audited (succeeds : Succeeds invocation call answer after)
    (current : invocation.Current schedule start) (wf : invocation.WellFormed) : after.Current schedule start := by
  cases succeeds with
  | create pays nonneg =>
    obtain ⟨current, _, cost, ledger, last, price⟩ := (pay_audited current _).ok pays
    exact current.withArray rfl ⟨cost, ledger, last, price⟩
  | @load slot kind id heap resolves =>
    have silent : (Event.named id slot kind).isAudited = false := rfl
    have ext := (extends_of_resolve (fun _ => none) @wf.heap.indexed resolves).1
    have named := current.withHeap (.of_extends ext)
    obtain ⟨kept, told⟩ := named.toKept.announce silent
    exact ⟨kept, told ▸ named.unrefused⟩
  | look opens shown => exact current.withOpened wf opens
  | set checked opens fits =>
    have opened := current.withOpened wf opens
    exact opened.of_workspace (Workspace.rewrite_audited opened.workspace opens.held (Contents.length_put _ _ _))
  | replace checked held kind length =>
    exact current.of_workspace (Workspace.rewrite_audited current.workspace held length.symm)
  | @clone id contents opened paid opens short pays =>
    obtain ⟨current, same, cost, ledger, last, price⟩ := (pay_audited (current.withOpened wf opens) _).ok pays
    obtain ⟨array, here, inMemory⟩ := held?_eq_some.mp opens.held
    have known : paid.heap.length? id = some contents.length := by
      rw [Heap.length?, same, show (invocation.withWorkspace opened).heap.arrays[id]? = some array from here,
        Option.bind_some, LiveArray.length?, inMemory]
      rfl
    rw [Metered.exact_cloning _ short] at price
    exact current.withArray rfl ⟨cost, ledger, contents.length, last, length?_insert known, price⟩
  | addRoot checked => exact ⟨⟨current.fees, current.faithful⟩, current.unrefused⟩

theorem Fails.audited (fails : Fails invocation call fault after) (current : invocation.Current schedule start)
    (wf : invocation.WellFormed) : after.Kept schedule start := by
  cases fails with
  | early rejects => exact current.toKept
  | unread subject checked failed =>
    have audited := (Workspace.materialize_audited current.workspace wf.heap _).error failed
    exact (current.of_workspace audited).toKept
  | look opens balks => exact (current.withOpened wf opens).toKept
  | refused checked opens refused =>
    have opened := current.withOpened wf opens
    exact (opened.of_workspace (Workspace.touch_audited opened.workspace _)).toKept
  | unpaidCreation refused => exact (pay_audited current _).error refused
  | negativeLength pays negative => exact ((pay_audited current _).ok pays).1.toKept
  | unpaidCopy opens short refused => exact (pay_audited (current.withOpened wf opens) _).error refused

theorem run_audited (audited : invocation.Audited schedule start) (wf : invocation.WellFormed) (call : Call) :
    Ends (call.run invocation) (fun _ after => after.Audited schedule start)
      fun _ after => after.Audited schedule start := by
  apply run_cases
  · intro _ _ _
    exact audited
  · intro _
    exact abort_audited audited
  · intro answer after running succeeds
    have current := succeeds.audited ⟨audited.toKept, audited.unrefused running⟩ wf
    exact ⟨current.toKept, fun _ => current.unrefused⟩
  · intro fault last running fails
    exact (fails.audited ⟨audited.toKept, audited.unrefused running⟩ wf).halt fault

omit [Storage σ] in
theorem audited_start (limit : UInt64) (schedule : Schedule) (storage : σ) :
    (Invocation.start limit schedule storage).Audited schedule (.start limit) :=
  ⟨⟨rfl, .empty _ _⟩, fun _ _ member => by cases member⟩

theorem trail_saved (journal : Journal) (grants : List (ArrayId × Slot)) (puts : List (ArrayId × Slot × Record))
    {last : Event} (silent : last.isAudited = false) :
    trail (journal ++ (Workspace.grantEvents grants ++ Workspace.saveEvents puts) ++ [last]) =
      trail journal ++ puts.map fun (id, slot, record) => .persisting id slot record.length := by
  have granted : (Workspace.grantEvents grants).filter Event.isAudited = [] := by
    rw [Workspace.grantEvents, List.filter_map]
    simp [Function.comp_def, Event.isAudited]
  have saved : (Workspace.saveEvents puts).filter Event.isAudited =
      puts.map fun (id, slot, record) => .persisting id slot record.length := by
    induction puts with
    | nil => rfl
    | cons put puts ih =>
      rw [Workspace.saveEvents, List.flatMap_cons, List.filter_append, List.map_cons]
      exact congrArg (Event.persisting put.1 put.2.1 put.2.2.length :: ·) ih
  rw [trail_append, trail_append, List.filter_append, granted, saved, List.nil_append,
    List.filter_cons_of_neg (by rw [silent]; exact Bool.false_ne_true), List.filter_nil, List.append_nil]

/-- What the end of an invocation told of: each put, just when it was attempted, and nothing else. -/
structure Persists (puts : List (ArrayId × Slot × Record)) (before after : Invocation σ) : Prop where
  meter : after.meter = before.meter
  told : trail after.journal = trail before.journal ++
    puts.map fun (id, slot, record) => .persisting id slot record.length
  own : ∀ put ∈ puts, after.heap.record put.1 = .ok put.2
  unrefused : Unrefused (trail after.journal)

theorem persists_of_saves {after : Invocation σ} {puts : List (ArrayId × Slot × Record)} {last : Event}
    (wf : invocation.WellFormed) (unrefused : Unrefused (trail invocation.journal))
    (meter : after.meter = invocation.meter) (silent : last.isAudited = false)
    (chosen : puts ⊆ invocation.workspace.saves invocation.roots.toList)
    (record : after.heap.record = (invocation.workspace.assigned invocation.roots.toList).record)
    (told : after.journal = invocation.journal ++
      (Workspace.grantEvents (invocation.workspace.grants invocation.roots.toList) ++ Workspace.saveEvents puts) ++
        [last]) : Persists puts invocation after where
  meter := meter
  told := by
    rw [told]
    exact trail_saved _ _ _ silent
  own := by
    rintro ⟨id, write⟩ member
    have paired := List.forall₂_iff_zip.mp (Workspace.records_writes wf.heap (roots_inside wf))
    rw [record]
    exact paired.2 (chosen member)
  unrefused := by
    rw [told, trail_saved _ _ _ silent]
    intro event member
    rcases List.mem_append.mp member with old | new
    · exact unrefused event old
    · obtain ⟨put, _, rfl⟩ := List.mem_map.mp new
      rfl

theorem finalize_persists (wf : invocation.WellFormed) (running : invocation.exit? = none)
    (unrefused : Unrefused (trail invocation.journal)) :
    Ends (finalize invocation)
      (fun _ after => ∃ puts, Persists puts invocation after ∧
        Storage.Wrote (puts.map Prod.snd)
          (Storage.reserve invocation.demand invocation.workspace.storage) after.workspace.storage)
      fun fault after => ∃ puts accepted, Persists puts invocation after ∧ puts.length = accepted + 1 ∧
        Storage.Refused accepted (puts.map Prod.snd)
          (Storage.reserve invocation.demand invocation.workspace.storage) fault after.workspace.storage := by
  have writes := Workspace.saves_snd wf.heap (roots_inside wf)
  apply ((finalize_outcome wf running).and (finalize_reports invocation)).imp
  · intro finalized after ended
    obtain ⟨⟨commits, wrote, _, told⟩, _, meter⟩ := ended
    refine ⟨_, persists_of_saves wf unrefused meter rfl (List.Subset.refl _) ?_ told, ?_⟩
    · rw [heap, commits.heap]
      exact record_cleanAll _ _
    · rw [writes]
      exact wrote
  · intro fault after failed
    obtain ⟨⟨accepted, refused, cleaned, told⟩, meter⟩ := failed
    obtain ⟨reached, refused⟩ := refused.take
    refine ⟨_, accepted, persists_of_saves wf unrefused meter rfl (List.take_subset _ _) ?_ told, ?_, ?_⟩
    · rw [cleaned]
      exact record_cleanAll _ _
    · rw [← writes, List.length_map] at reached
      rw [List.length_take]
      omega
    · rw [List.map_take, writes]
      exact refused

/-- The trail is a faithful audit log of every run. Each charge adds its cost to the ledger before it, and the last
    one leaves the ledger that the invocation has; nothing follows a charge that was refused. Each new array is
    told of right after the charge for it. The new arrays are those without a slot, in order, and those read are
    those in memory with a slot, each once. At the end exactly the puts attempted are told of, in order. -/
theorem audit_faithful (limit : UInt64) (schedule : Schedule) (storage : σ) (calls : List Call) :
    let invocation := (Call.runAll calls (Invocation.start limit schedule storage)).2
    invocation.Audited schedule (.start limit) ∧
    (Ends (finalize invocation)
      (fun _ after => ∃ puts, Persists puts invocation after ∧
        Storage.Wrote (puts.map Prod.snd)
          (Storage.reserve invocation.demand storage) after.workspace.storage)
      fun fault after => (after = invocation ∧ invocation.exit? = some fault) ∨
        ∃ puts accepted, Persists puts invocation after ∧ puts.length = accepted + 1 ∧
          Storage.Refused accepted (puts.map Prod.snd)
            (Storage.reserve invocation.demand storage) fault after.workspace.storage) ∧
    (rollback invocation).2.meter = invocation.meter ∧
    trail (rollback invocation).2.journal = trail invocation.journal := by
  have sound : Sound storage (Call.runAll calls (Invocation.start limit schedule storage)).2 :=
    Reached.sound ⟨limit, schedule, calls, rfl⟩
  have audited := runAll_keeps run_audited (audited_start limit schedule storage)
    (ready_start (fun _ => True) limit schedule storage).wellFormed calls
  refine ⟨audited, ?_, rfl, (trail_append _ _).trans (List.append_nil _)⟩
  cases exit : (Call.runAll calls (Invocation.start limit schedule storage)).2.exit? with
  | some fault =>
    rw [finalize_halted exit]
    exact Or.inl ⟨rfl, rfl⟩
  | none =>
    have persisted := finalize_persists sound.wellFormed exit (audited.unrefused exit)
    rw [sound.storage_eq] at persisted
    exact persisted.imp_fail fun _ _ failed => Or.inr failed

def cloneAndStarve : Invocation Memory :=
  (Call.runAll [.load ⟨1⟩ (.primitive .int), .clone 0, .create 2 (.primitive .int)]
    (Invocation.start 112 .mainnet parentAndChild)).2

theorem cloneAndStarve_audited :
    (trail cloneAndStarve.journal).map Event.isRefusal = [false, false, false, true] ∧
    cloneAndStarve.heap.unboundIds = [1] ∧ cloneAndStarve.heap.Opened 0 ⟨1⟩ ∧
    cloneAndStarve.used = 108 := by
  have audited := (audit_faithful 112 .mainnet parentAndChild
    [.load ⟨1⟩ (.primitive .int), .clone 0, .create 2 (.primitive .int)]).1
  have told : (trail cloneAndStarve.journal).filterMap Event.made? = [1] := by decide +kernel
  have read : (0, ⟨1⟩) ∈ (trail cloneAndStarve.journal).filterMap Event.opened? := by decide +kernel
  have spent : (balance (.start 112) (trail cloneAndStarve.journal)).used = 108 := by decide +kernel
  refine ⟨by decide +kernel, ?_, (audited.faithful.opened 0 ⟨1⟩).mp read, ?_⟩
  · exact audited.faithful.made.symm.trans told
  · exact (congrArg Ledger.used audited.faithful.settled).symm.trans spent

end Invocation

end MeteredArrays
