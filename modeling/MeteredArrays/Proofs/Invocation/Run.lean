import MeteredArrays.Proofs.Invocation.Operations

namespace MeteredArrays

def Closed (read : Slot → Option Record) (allowed : Link → Prop) : Prop :=
  ∀ {link : Link} {record : Record} {contents : Contents Link}, allowed link → read link.slot = some record →
    Record.decode link.kind record = .ok contents → ∀ target ∈ contents.targets, allowed target

/-- Every link of `allowed` leads to a record of its kind, and on to links of `allowed`. -/
structure Trusted (read : Slot → Option Record) (allowed : Link → Prop) : Prop where
  present : ∀ {link : Link}, allowed link →
    ∃ record contents, read link.slot = some record ∧ Record.decode link.kind record = .ok contents
  closed : Closed read allowed

namespace Trusted

variable {read : Slot → Option Record} {allowed : Link → Prop}

theorem kind_unique (trusted : Trusted read allowed) {link link' : Link} (permitted : allowed link)
    (permitted' : allowed link') (same : link.slot = link'.slot) : link.kind = link'.kind := by
  obtain ⟨record, contents, stored, decoded⟩ := trusted.present permitted
  obtain ⟨record', contents', stored', decoded'⟩ := trusted.present permitted'
  rw [same, stored'] at stored
  cases stored
  have kind := (Record.of_decode decoded).1
  rw [(Record.of_decode decoded').1] at kind
  exact (Option.some.inj kind).symm

theorem no_clash (trusted : Trusted read allowed) (links : List Link) (permitted : ∀ link ∈ links, allowed link)
    (fault : Fault) : ¬ Heap.Clash allowed links fault := by
  rintro ⟨_, link, member, kind, other, clash⟩
  exact other (trusted.kind_unique clash (permitted link member) rfl)

theorem not_unreadable (trusted : Trusted read allowed) {heap : Heap} (allows : heap.Allows allowed)
    {id : ArrayId} {why : Corruption} : ¬ heap.Unreadable read allowed id (.storageCorruption why) := by
  intro unreadable
  cases unreadable with
  | @missing kind slot here absent =>
    obtain ⟨record, _, stored, _⟩ := trusted.present (allows (Heap.link_of_slot here rfl))
    rw [absent] at stored
    cases stored
  | @rejected kind slot record _ here stored refused =>
    obtain ⟨record', contents, stored', decoded⟩ := trusted.present (allows (Heap.link_of_slot here rfl))
    rw [stored] at stored'
    cases stored'
    rw [LiveArray.kind, refused] at decoded
    cases decoded
  | @clash kind slot record links _ here stored decoded clash =>
    have permitted := trusted.closed (allows (Heap.link_of_slot here rfl)) stored decoded
    exact trusted.no_clash _ permitted _ clash

end Trusted

namespace Invocation

open Heap

variable {σ : Type} [Storage σ] {allowed : Link → Prop} {invocation : Invocation σ}

theorem discloses_of_closed (closed : Closed (Storage.read invocation.workspace.storage) allowed)
    (allows : invocation.heap.Allows allowed) (id : ArrayId) :
    invocation.heap.Discloses (Storage.read invocation.workspace.storage) allowed id :=
  fun _ _ _ _ here stored decoded => closed (allows (link_of_slot here rfl)) stored decoded

structure Failed (allowed : Link → Prop) (before : Invocation σ) (fault : Fault) (after : Invocation σ) :
    Prop where
  advances : Advances allowed before after
  kept : after.exit? = some fault
  cause : before.exit? = some fault ∨ Explained allowed before fault

theorem abort_advances (invocation : Invocation σ) : Advances allowed invocation invocation.abort := by
  unfold abort
  cases invocation.exit? with
  | some fault => exact .refl _
  | none => exact ⟨⟨rfl, .refl⟩, fun _ member => Or.inl member⟩

omit [Storage σ] in
theorem abort_exit (invocation : Invocation σ) :
    invocation.abort.exit? = invocation.exit? ∨ invocation.abort.exit? = some .aborted := by
  unfold abort
  cases exit : invocation.exit? with
  | some fault => exact Or.inl exit
  | none => exact Or.inr rfl

theorem run_ends (ready : Ready allowed invocation)
    (closed : Closed (Storage.read invocation.workspace.storage) allowed) (call : Call)
    (permitted : ∀ slot kind, call = .load slot kind → allowed ⟨kind, slot⟩) :
    Ends (call.run invocation)
      (fun _ after => Advances allowed invocation after ∧
        (after.exit? = invocation.exit? ∨ after.exit? = some .aborted))
      (Failed allowed invocation) := by
  have discloses := discloses_of_closed closed ready.allows
  apply run_cases
  · intro fault halted _
    exact ⟨.refl _, halted, Or.inl halted⟩
  · intro _
    exact ⟨abort_advances invocation, abort_exit invocation⟩
  · intro answer after running succeeds
    exact ⟨succeeds.advances ready discloses permitted, Or.inl succeeds.exit⟩
  · intro fault last running fails
    obtain ⟨advances, explained⟩ := fails.advances ready discloses permitted
    exact ⟨advances.trans (advances_halt fault last), rfl, Or.inr explained⟩

theorem run_advances (wf : invocation.WellFormed) (call : Call) :
    Ends (call.run invocation) (fun _ after => Advances (fun _ => True) invocation after)
      fun _ after => Advances (fun _ => True) invocation after := by
  have ready : Ready (fun _ => True) invocation := ⟨wf, fun _ => trivial⟩
  apply (run_ends ready (fun _ _ _ _ _ => trivial) call fun _ _ _ => trivial).imp
  · intro _ _ done
    exact done.1
  · intro _ _ failed
    exact failed.advances

theorem Advances.ready {after : Invocation σ} (advances : Advances allowed invocation after)
    (ready : Ready allowed invocation) : Ready allowed after :=
  ⟨advances.wellFormed ready.wellFormed, advances.workspace.changes.allows ready.allows⟩

omit [Storage σ] in
theorem ready_start (allowed : Link → Prop) (limit : UInt64) (schedule : Schedule) (storage : σ) :
    Ready allowed (start limit schedule storage) := by
  refine ⟨⟨wellFormed_empty, fun _ member => ?_⟩, fun {id link} named => ?_⟩
  · exact absurd member (Array.not_mem_empty _)
  · obtain ⟨array, here, _⟩ := link_eq_ok.mp named
    exact absurd (lt_size here) (Nat.not_lt_zero id)

theorem runAll_advances (ready : Ready allowed invocation)
    (closed : Closed (Storage.read invocation.workspace.storage) allowed) (calls : List Call)
    (permitted : ∀ slot kind, .load slot kind ∈ calls → allowed ⟨kind, slot⟩) :
    Advances allowed invocation (Call.runAll calls invocation).2 := by
  induction calls generalizing invocation with
  | nil => exact .refl invocation
  | cons call calls ih =>
    have one := run_ends ready closed call fun slot kind same => permitted slot kind (by simp [same])
    have others : ∀ slot kind, .load slot kind ∈ calls → allowed ⟨kind, slot⟩ :=
      fun slot kind member => permitted slot kind (List.mem_cons_of_mem _ member)
    simp only [Call.runAll]
    cases result : call.run invocation with
    | ok answer after =>
      obtain ⟨advances, _⟩ := one.ok result
      exact advances.trans (ih (advances.ready ready) (advances.workspace.storage.symm ▸ closed) others)
    | error fault after =>
      obtain ⟨advances, _, _⟩ := one.error result
      exact advances.trans (ih (advances.ready ready) (advances.workspace.storage.symm ▸ closed) others)

theorem Failed.uncorrupted {fault : Fault} {after : Invocation σ}
    (failed : Failed allowed invocation fault after) (ready : Ready allowed invocation)
    (trusted : Trusted (Storage.read invocation.workspace.storage) allowed)
    (sound : ∀ why, invocation.exit? ≠ some (.storageCorruption why)) :
    ∀ why, fault ≠ .storageCorruption why := by
  intro why same
  subst same
  rcases failed.cause with before | explained
  · exact sound why before
  · rcases explained why rfl with ⟨id, unreadable⟩ | ⟨link, permitted, clash⟩
    · exact trusted.not_unreadable ready.allows unreadable
    · refine trusted.no_clash [link] (fun other member => ?_) _ clash
      rw [List.mem_singleton.mp member]
      exact permitted

theorem runAll_uncorrupted (ready : Ready allowed invocation)
    (trusted : Trusted (Storage.read invocation.workspace.storage) allowed) (calls : List Call)
    (permitted : ∀ slot kind, .load slot kind ∈ calls → allowed ⟨kind, slot⟩)
    (sound : ∀ why, invocation.exit? ≠ some (.storageCorruption why)) :
    (∀ why, .error (.storageCorruption why) ∉ (Call.runAll calls invocation).1) ∧
      ∀ why, (Call.runAll calls invocation).2.exit? ≠ some (.storageCorruption why) := by
  induction calls generalizing invocation with
  | nil => exact ⟨fun _ => List.not_mem_nil, sound⟩
  | cons call calls ih =>
    have one := run_ends ready trusted.closed call fun slot kind same => permitted slot kind (by simp [same])
    have others : ∀ slot kind, .load slot kind ∈ calls → allowed ⟨kind, slot⟩ :=
      fun slot kind member => permitted slot kind (List.mem_cons_of_mem _ member)
    simp only [Call.runAll]
    cases result : call.run invocation with
    | ok answer after =>
      obtain ⟨advances, exit⟩ := one.ok result
      obtain ⟨answers, last⟩ := ih (advances.ready ready) (advances.workspace.storage.symm ▸ trusted) others
        (fun why same => by
          rcases exit with exit | exit <;> rw [exit] at same
          · exact sound why same
          · cases same)
      refine ⟨fun why member => ?_, last⟩
      rcases List.mem_cons.mp member with same | member
      · cases same
      · exact answers why member
    | error fault after =>
      have innocent := Failed.uncorrupted (one.error result) ready trusted sound
      obtain ⟨advances, kept, _⟩ := one.error result
      obtain ⟨answers, last⟩ := ih (advances.ready ready) (advances.workspace.storage.symm ▸ trusted) others
        (fun why same => innocent why (Option.some.inj (kept.symm.trans same)))
      refine ⟨fun why member => ?_, last⟩
      rcases List.mem_cons.mp member with same | member
      · exact innocent why (Except.error.inj same).symm
      · exact answers why member

theorem runAll_cons (call : Call) (calls : List Call) (invocation : Invocation σ) :
    Call.runAll (call :: calls) invocation =
      ((Call.runAll [call] invocation).1 ++ (Call.runAll calls (Call.runAll [call] invocation).2).1,
        (Call.runAll calls (Call.runAll [call] invocation).2).2) := by
  simp only [Call.runAll]
  cases call.run invocation <;> rfl

theorem runAll_keeps {holds : Invocation σ → Prop}
    (step : ∀ {invocation}, holds invocation → invocation.WellFormed → ∀ call : Call,
      Ends (call.run invocation) (fun _ after => holds after) fun _ after => holds after)
    (here : holds invocation) (wf : invocation.WellFormed) (calls : List Call) :
    holds (Call.runAll calls invocation).2 := by
  induction calls generalizing invocation with
  | nil => exact here
  | cons call calls ih =>
    have one := (step here wf call).and (run_advances wf call)
    simp only [Call.runAll]
    cases ran : call.run invocation with
    | ok answer after =>
      obtain ⟨still, advances⟩ := one.ok ran
      exact ih still (advances.wellFormed wf)
    | error fault after =>
      obtain ⟨still, advances⟩ := one.error ran
      exact ih still (advances.wellFormed wf)

/-- The states in which a new invocation over `storage` can be before it ends. -/
def Reached (storage : σ) (invocation : Invocation σ) : Prop :=
  ∃ limit schedule calls, (Call.runAll calls (start limit schedule storage)).2 = invocation

/-- What holds in every state of an invocation before it ends. -/
structure Sound (storage : σ) (invocation : Invocation σ) : Prop where
  storage_eq : invocation.workspace.storage = storage
  wellFormed : invocation.WellFormed
  backed : invocation.heap.Backed (Storage.read storage)

theorem Advances.sound {storage : σ} {limit : UInt64} {schedule : Schedule}
    (advances : Advances allowed (start limit schedule storage) invocation) : Sound storage invocation where
  storage_eq := advances.workspace.storage
  wellFormed := advances.wellFormed (ready_start allowed limit schedule storage).wellFormed
  backed := advances.workspace.changes.backed (backed_empty _)

theorem Reached.sound {storage : σ} (reached : Reached storage invocation) : Sound storage invocation := by
  obtain ⟨limit, schedule, calls, rfl⟩ := reached
  exact (runAll_advances (ready_start (fun _ => True) limit schedule storage)
    (fun _ _ _ _ _ => trivial) calls fun _ _ _ => trivial).sound

end Invocation

end MeteredArrays
