import MeteredArrays.Proofs.Invocation.Accounting
import MeteredArrays.Proofs.Invocation.Lockstep

namespace MeteredArrays

def Finalized.persisted (finalized : Finalized) : Persisted :=
  ⟨finalized.roots, finalized.written⟩

theorem Finalized.eq_of_persisted {left right : Finalized} (persisted : left.persisted = right.persisted)
    (used : left.used = right.used) : left = right := by
  obtain ⟨total, roots, written⟩ := left
  obtain ⟨total', roots', written'⟩ := right
  obtain ⟨rfl, rfl⟩ := Persisted.mk.inj persisted
  cases used
  rfl

variable {σ : Type} [Storage σ]

namespace Workspace

structure Peers (left right : Workspace σ) : Prop where
  heap : left.heap = right.heap
  storage : left.storage = right.storage

theorem aligned_peers : Aligned (Peers : Workspace σ → Workspace σ → Prop) where
  heap peers := peers.heap
  read peers := congrArg Storage.read peers.storage
  changed peers _ := ⟨rfl, peers.storage⟩
  told peers _ := ⟨peers.heap, peers.storage⟩

theorem allocate_inStep : InStep Peers (allocate : Work σ Slot) allocate := by
  rintro ⟨heap, storage, journal⟩ ⟨_, _, journal'⟩ ⟨rfl, rfl⟩
  exact ⟨rfl, rfl, rfl⟩

theorem store_inStep (slot : Slot) (record : Record) :
    InStep Peers (store slot record : Work σ Unit) (store slot record) := by
  rintro ⟨heap, storage, journal⟩ ⟨_, _, journal'⟩ ⟨rfl, rfl⟩
  simp only [store]
  cases Storage.write slot record storage with
  | ok _ after => exact ⟨rfl, rfl, rfl⟩
  | error fault after => exact ⟨rfl, rfl, rfl⟩

theorem assignSlot_inStep (id : ArrayId) : InStep Peers (assignSlot id : Work σ Unit) (assignSlot id) := by
  apply InStep.bind (query_inStep aligned_peers _)
  intro array
  cases array with
  | fresh contents dirty =>
    apply InStep.bind allocate_inStep
    intro slot
    exact onHeap_inStep aligned_peers _
  | named | loaded => exact InStep.pure _

theorem save_inStep (id : ArrayId) : InStep Peers (save id : Work σ Unit) (save id) := by
  apply InStep.bind (query_inStep aligned_peers _)
  intro write
  apply InStep.bind (tell_inStep aligned_peers _)
  intro _
  apply InStep.bind (store_inStep _ _)
  intro _
  exact onHeap_inStep aligned_peers _

theorem saved_inStep (roots pending : List ArrayId) :
    InStep Peers (do
      pending.forM save
      let slots ← query fun heap => roots.mapM fun root => Link.slot <$> heap.link root
      return ⟨slots, pending.length⟩ : Work σ Persisted) (do
      pending.forM save
      let slots ← query fun heap => roots.mapM fun root => Link.slot <$> heap.link root
      return ⟨slots, pending.length⟩) := by
  apply InStep.bind (InStep.forM _ save_inStep)
  intro _
  apply InStep.bind (query_inStep aligned_peers _)
  intro slots
  exact InStep.pure _

theorem persist_inStep (roots : List ArrayId) : InStep Peers (persist roots : Work σ Persisted) (persist roots) := by
  intro left right peers
  rw [persist_eq_walk, persist_eq_walk, ← peers.heap]
  refine InStep.bind (InStep.forM _ assignSlot_inStep) (fun _ => ?_) left right peers
  cases (left.heap.walk roots).fault? with
  | some fault => exact InStep.bind (InStep.throw _) fun _ => saved_inStep roots _
  | none => exact saved_inStep roots _

end Workspace

namespace Meter

structure Poorer (poor rich : Meter) : Prop where
  schedule : poor.schedule = rich.schedule
  limit : poor.ledger.limit ≤ rich.ledger.limit
  used : poor.ledger.used = rich.ledger.used

theorem Poorer.record {poor rich after : Meter} (poorer : Poorer poor rich) {operation : Metered}
    (accepted : poor.record operation = .ok after) :
    ∃ after', rich.record operation = .ok after' ∧ Poorer after after' := by
  have charging := poor.charging operation
  rw [accepted] at charging
  generalize poor.notices operation = events at charging
  cases charging with
  | @accepted cost ledger price spent =>
    have charging := rich.charging operation
    have covered := UInt64.le_iff_toNat_le.mp ledger.used_le
    have richer := UInt64.le_iff_toNat_le.mp poorer.limit
    obtain ⟨limit, used⟩ := Ledger.spend?_eq_some.mp spent
    rw [poorer.schedule] at price
    rw [limit, used, poorer.used] at covered
    rw [poorer.used] at used
    generalize rich.record operation = result at charging ⊢
    generalize rich.notices operation = events at charging
    cases charging with
    | @accepted cost' ledger' price' spent' =>
      obtain ⟨limit', used'⟩ := Ledger.spend?_eq_some.mp spent'
      refine ⟨_, rfl, poorer.schedule, ?_, ?_⟩
      · rw [limit, limit']
        exact poorer.limit
      · apply UInt64.toNat_inj.mp
        rw [used, used', price, price']
    | @refused cost' price' short =>
      have short := UInt64.lt_iff_toNat_lt.mp (Ledger.spend?_eq_none.mp short)
      rw [Ledger.toNat_remaining, price', ← price] at short
      omega
    | overflowing large =>
      have small : cost.toNat < UInt64.size := cost.toNat_lt
      omega

end Meter

namespace Invocation

variable {left right : Invocation σ}

omit [Storage σ] in
theorem Peers.workspace (peers : Peers left right) : Workspace.Peers left.workspace right.workspace :=
  ⟨peers.heap, peers.storage⟩

/-- Whether a running invocation cannot pay for the call, because too little remains or because the cost does not
    fit into 64 bits. -/
def starves (before : Invocation σ) (call : Call) : Bool :=
  before.exit?.isNone && (before.charge? call).any fun operation => !(before.meter.record operation).isOk

/-- Whether the invocation could pay for all the calls that it came to. -/
def funded : List Call → Invocation σ → Bool
  | [], _ => true
  | call :: calls, invocation => !invocation.starves call && funded calls (Call.runAll [call] invocation).2

theorem aligned_peers (meters : Meter → Meter → Prop) :
    Aligned Workspace.Peers fun left right : Invocation σ => Peers left right ∧ meters left.meter right.meter where
  below := Workspace.aligned_peers
  workspace rel := rel.1.workspace
  exit rel := rel.1.exit
  worked rel _ _ below := ⟨⟨below.heap, below.storage, rel.1.roots, rel.1.exit⟩, rel.2⟩
  rooted rel id := ⟨⟨rel.1.heap, rel.1.storage, congrArg (·.push id) rel.1.roots, rel.1.exit⟩, rel.2⟩
  halted rel _ := ⟨⟨rel.1.heap, rel.1.storage, rel.1.roots, rfl⟩, rel.2⟩
  aborted {left right} rel := by
    obtain ⟨⟨heap, storage, roots, exit⟩, level⟩ := rel
    simp only [abort, ← exit]
    cases halted : left.exit? with
    | some fault => exact ⟨⟨heap, storage, roots, exit⟩, level⟩
    | none => exact ⟨⟨heap, storage, roots, rfl⟩, level⟩

omit [Storage σ] in
theorem pay_peers (meters : Meter → Meter → Prop) {operation : Metered} {paid paid' : Meter}
    (peers : Peers left right) (accepted : left.meter.record operation = .ok paid)
    (accepted' : right.meter.record operation = .ok paid') (level : meters paid paid') :
    Agrees (fun left right => Peers left right ∧ meters left.meter right.meter)
      (pay operation left) (pay operation right) := by
  obtain ⟨meter, workspace, roots, exit?⟩ := left
  obtain ⟨meter', workspace', roots', exit?'⟩ := right
  simp only [pay, accepted, accepted']
  exact ⟨rfl, ⟨peers.heap, peers.storage, peers.roots, peers.exit⟩, level⟩

theorem starves_iff {call : Call} : left.starves call = true ↔
    left.exit? = none ∧ ∃ operation ∈ left.charge? call, ∃ fault, left.meter.record operation = .error fault := by
  simp only [starves, Bool.and_eq_true, Option.isNone_iff_eq_none, Option.any_eq_true, Bool.not_eq_true']
  refine and_congr_right fun _ => exists_congr fun operation => and_congr_right fun _ => ?_
  cases left.meter.record operation with
  | ok after => simp [Except.isOk, Except.toBool]
  | error fault => simp [Except.isOk, Except.toBool]

theorem record_of_not_starves {call : Call} {operation : Metered} (running : left.exit? = none)
    (charged : operation ∈ left.charge? call) (solvent : left.starves call = false) :
    ∃ after, left.meter.record operation = .ok after := by
  cases recorded : left.meter.record operation with
  | ok after => exact ⟨after, rfl⟩
  | error fault =>
    have starves := starves_iff.mpr ⟨running, operation, charged, fault, recorded⟩
    rw [solvent] at starves
    cases starves

theorem run_peers {call : Call} (peers : Peers left right) (solvent : left.starves call = false)
    (solvent' : right.starves call = false) : Agrees Peers (call.run left) (call.run right) := by
  have aligned := aligned_peers (σ := σ) fun _ _ => True
  have agrees := run_agrees aligned ⟨peers, trivial⟩ call ?_
  · exact agrees.imp fun _ _ rel => rel.1
  · intro running operation charged middle middle' rel meter meter'
    have charged' : operation ∈ right.charge? call := charge?_agrees aligned ⟨peers, trivial⟩ call ▸ charged
    obtain ⟨paid, accepted⟩ := record_of_not_starves running charged solvent
    obtain ⟨paid', accepted'⟩ := record_of_not_starves (peers.exit ▸ running) charged' solvent'
    rw [← meter] at accepted
    rw [← meter'] at accepted'
    exact pay_peers (fun _ _ => True) rel.1 accepted accepted' trivial

theorem run_poorer {call : Call} (peers : Peers left right) (poorer : Meter.Poorer left.meter right.meter)
    (solvent : left.starves call = false) :
    Agrees (fun left right => Peers left right ∧ Meter.Poorer left.meter right.meter)
      (call.run left) (call.run right) := by
  apply run_agrees (aligned_peers Meter.Poorer) ⟨peers, poorer⟩
  intro running operation charged middle middle' rel meter meter'
  obtain ⟨paid, accepted⟩ := record_of_not_starves running charged solvent
  rw [← meter] at accepted
  obtain ⟨paid', accepted', still⟩ := rel.2.record accepted
  exact pay_peers Meter.Poorer rel.1 accepted accepted' still

theorem starves_richer {call : Call} (peers : Peers left right) (poorer : Meter.Poorer left.meter right.meter)
    (solvent : left.starves call = false) : right.starves call = false := by
  have same : left.charge? call = right.charge? call :=
    charge?_agrees (aligned_peers fun _ _ => True) ⟨peers, trivial⟩ call
  cases running : right.exit? with
  | some fault => simp [starves, running]
  | none =>
    have running' := peers.exit.trans running
    cases charged : right.charge? call with
    | none => simp [starves, charged]
    | some operation =>
      obtain ⟨paid, accepted⟩ := record_of_not_starves running' (same.trans charged) solvent
      obtain ⟨paid', accepted', _⟩ := poorer.record accepted
      simp [starves, charged, accepted', Except.isOk, Except.toBool]

omit [Storage σ] in
theorem pay_refused {operation : Metered} {fault : Fault} (refused : left.meter.record operation = .error fault) :
    ∃ after, pay operation left = .error fault after ∧ fault.isOutOfEnergy = true := by
  refine ⟨_, by simp only [pay, refused]; rfl, ?_⟩
  rcases Meter.of_record_error refused with rfl | ⟨rfl, _⟩ <;> rfl

theorem run_starves {call : Call} (starves : left.starves call = true) :
    Ends (call.run left) (fun _ _ => False) fun fault _ => fault.isOutOfEnergy = true := by
  obtain ⟨running, operation, charged, fault, refused⟩ := starves_iff.mp starves
  cases call with
  | create length kind =>
    cases charged
    obtain ⟨after, unpaid, empty⟩ := pay_refused refused
    rw [(Fails.unpaidCreation unpaid).run running]
    exact empty
  | clone id =>
    have charged : left.charge? (.clone id) = some operation := charged
    rcases Workspace.opens_or_fails id left.workspace with ⟨contents, opened, opens⟩ | ⟨fault, after, failed⟩
    · by_cases long : Record.maxLength < contents.length
      · simp only [charge?, opens.access, if_pos long] at charged
        cases charged
      · have short := Nat.not_lt.mp long
        cases (charge_of_opens opens short).symm.trans charged
        have refused : (left.withWorkspace opened).meter.record _ = .error fault := refused
        obtain ⟨after, unpaid, empty⟩ := pay_refused refused
        rw [(Fails.unpaidCopy opens short unpaid).run running]
        exact empty
    · have unread : Workspace.access id left.workspace = .error fault after := estate_bind_of_error failed
      simp only [charge?, unread] at charged
      cases charged
  | load | length | get | set | contents | replace | addRoot | abort => cases charged

theorem funded_of_succeeds {calls : List Call}
    (succeeds : ∀ answer ∈ (Call.runAll calls left).1, answer.isOk = true) : funded calls left = true := by
  induction calls generalizing left with
  | nil => rfl
  | cons call calls ih =>
    rw [runAll_cons call calls left] at succeeds
    simp only [funded, Bool.and_eq_true, Bool.not_eq_true']
    constructor
    · cases starves : left.starves call with
      | false => rfl
      | true =>
        have fails := run_starves starves
        have here := fun answer member => succeeds answer (List.mem_append_left _ member)
        simp only [Call.runAll] at here
        cases ran : call.run left with
        | ok answer after =>
          exact (fails.ok ran).elim
        | error fault after =>
          simp only [ran] at here
          cases here _ (List.mem_singleton_self _)
    · apply ih
      intro answer member
      exact succeeds answer (List.mem_append_right _ member)

theorem runAll_peers (calls : List Call) (peers : Peers left right) (solvent : funded calls left = true)
    (solvent' : funded calls right = true) :
    (Call.runAll calls left).1 = (Call.runAll calls right).1 ∧
      Peers (Call.runAll calls left).2 (Call.runAll calls right).2 := by
  induction calls generalizing left right with
  | nil => exact ⟨rfl, peers⟩
  | cons call calls ih =>
    simp only [funded, Bool.and_eq_true, Bool.not_eq_true'] at solvent solvent'
    obtain ⟨first, kept⟩ := runAll_one_agrees (run_peers peers solvent.1 solvent'.1)
    obtain ⟨rest, last⟩ := ih kept solvent.2 solvent'.2
    rw [runAll_cons call calls left, runAll_cons call calls right, first, rest]
    exact ⟨rfl, last⟩

theorem runAll_poorer (calls : List Call) (peers : Peers left right)
    (poorer : Meter.Poorer left.meter right.meter) (solvent : funded calls left = true) :
    funded calls right = true ∧
      Meter.Poorer (Call.runAll calls left).2.meter (Call.runAll calls right).2.meter := by
  induction calls generalizing left right with
  | nil => exact ⟨rfl, poorer⟩
  | cons call calls ih =>
    simp only [funded, Bool.and_eq_true, Bool.not_eq_true'] at solvent ⊢
    obtain ⟨_, kept, still⟩ := runAll_one_agrees (run_poorer peers poorer solvent.1)
    obtain ⟨rest, last⟩ := ih kept still solvent.2
    rw [runAll_cons call calls left, runAll_cons call calls right]
    exact ⟨⟨starves_richer peers poorer solvent.1, rest⟩, last⟩

theorem finalize_peers (peers : Peers left right) :
    Agrees Peers ((Finalized.persisted <$> finalize : Action σ Persisted) left)
      ((Finalized.persisted <$> finalize : Action σ Persisted) right) := by
  obtain ⟨meter, workspace, roots, exit?⟩ := left
  obtain ⟨meter', workspace', roots', exit?'⟩ := right
  have persisted := Workspace.persist_inStep roots.toList _ _ peers.workspace
  obtain ⟨heap, storage, rfl, rfl⟩ := peers
  cases exit? with
  | some fault => exact ⟨rfl, ⟨heap, storage, rfl, rfl⟩⟩
  | none =>
    simp only [Functor.map, EStateM.map, finalize_eq]
    cases result : Workspace.persist roots.toList workspace with
    | ok finalized after =>
      obtain ⟨after', done', kept⟩ := persisted.ok result
      rw [done']
      exact ⟨rfl, kept.heap, kept.storage, rfl, rfl⟩
    | error fault after =>
      obtain ⟨after', failed', kept⟩ := persisted.error result
      rw [failed']
      exact ⟨rfl, kept.heap, kept.storage, rfl, rfl⟩

theorem finalize_peers_used (peers : Peers left right) (used : left.used = right.used) :
    Agrees Peers (finalize left) (finalize right) := by
  have agrees := finalize_peers peers
  cases ended : finalize left with
  | ok finalized after =>
    obtain ⟨after', ended', kept⟩ := agrees.ok (estate_map_eq_ok.mpr ⟨finalized, ended, rfl⟩)
    obtain ⟨finalized', done', persisted⟩ := estate_map_eq_ok.mp ended'
    have total := ((finalize_reports left).ok ended).1
    have total' := ((finalize_reports right).ok done').1
    rw [done']
    exact ⟨Finalized.eq_of_persisted persisted.symm (total.trans (used.trans total'.symm)), kept⟩
  | error fault after =>
    obtain ⟨after', ended', kept⟩ := agrees.error (estate_map_eq_error.mpr ended)
    rw [estate_map_eq_error.mp ended']
    exact ⟨rfl, kept⟩

omit [Storage σ] in
theorem peers_start (limit limit' : UInt64) (schedule schedule' : Schedule) (storage : σ) :
    Peers (start limit schedule storage) (start limit' schedule' storage) :=
  ⟨rfl, rfl, rfl, rfl⟩

/-- Energy does nothing but halt. Whatever the budgets and fees of two invocations, they go on alike as long as
    both can pay, and they end alike then. Under the same fees a larger budget pays for all that a smaller one
    paid for, and the same is used. A run in which every call succeeds paid for all of them. -/
theorem energy_only_halts (storage : σ) (limit limit' : UInt64) (schedule schedule' : Schedule)
    (calls : List Call) :
    let left := start limit schedule storage
    let right := start limit' schedule' storage
    (funded calls left = true → funded calls right = true →
      (Call.runAll calls left).1 = (Call.runAll calls right).1 ∧
      Peers (Call.runAll calls left).2 (Call.runAll calls right).2 ∧
      Agrees Peers ((Finalized.persisted <$> finalize : Action σ Persisted) (Call.runAll calls left).2)
        ((Finalized.persisted <$> finalize : Action σ Persisted) (Call.runAll calls right).2)) ∧
    (schedule = schedule' → limit ≤ limit' → funded calls left = true →
      funded calls right = true ∧
      (Call.runAll calls left).1 = (Call.runAll calls right).1 ∧
      (Call.runAll calls left).2.used = (Call.runAll calls right).2.used ∧
      Agrees Peers (finalize (Call.runAll calls left).2) (finalize (Call.runAll calls right).2)) ∧
    ((∀ answer ∈ (Call.runAll calls left).1, answer.isOk = true) → funded calls left = true) := by
  have peers := peers_start limit limit' schedule schedule' storage
  refine ⟨fun solvent solvent' => ?_, fun fees richer solvent => ?_, funded_of_succeeds⟩
  · obtain ⟨answers, still⟩ := runAll_peers calls peers solvent solvent'
    exact ⟨answers, still, finalize_peers still⟩
  · have poorer : Meter.Poorer (Meter.start limit schedule) (Meter.start limit' schedule') := ⟨fees, richer, rfl⟩
    obtain ⟨solvent', last⟩ := runAll_poorer calls peers poorer solvent
    obtain ⟨answers, still⟩ := runAll_peers calls peers solvent solvent'
    exact ⟨solvent', answers, last.used, finalize_peers_used still last.used⟩

def cloneAndKeep : List Call :=
  [.load ⟨1⟩ (.primitive .int), .clone 0, .create 2 (.primitive .int), .addRoot 1, .addRoot 2]

theorem cloneAndKeep_alike :
    funded cloneAndKeep (start 116 .mainnet parentAndChild) = true ∧
    funded cloneAndKeep (start 0 .free parentAndChild) = true ∧
    Peers (Call.runAll cloneAndKeep (start 116 .mainnet parentAndChild)).2
      (Call.runAll cloneAndKeep (start 0 .free parentAndChild)).2 ∧
    funded cloneAndKeep (start 117 .mainnet parentAndChild) = true := by
  have paid : funded cloneAndKeep (start 116 .mainnet parentAndChild) = true := by decide +kernel
  have free : funded cloneAndKeep (start 0 .free parentAndChild) = true := by decide +kernel
  have alike := (energy_only_halts parentAndChild 116 0 .mainnet .free cloneAndKeep).1 paid free
  have richer := (energy_only_halts parentAndChild 116 117 .mainnet .mainnet cloneAndKeep).2.1 rfl (by decide) paid
  exact ⟨paid, free, alike.2.1, richer.1⟩

end Invocation

end MeteredArrays
