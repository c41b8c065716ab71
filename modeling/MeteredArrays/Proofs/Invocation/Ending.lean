import MeteredArrays.Invocation.Ending
import MeteredArrays.Proofs.Invocation.Run
import MeteredArrays.Proofs.Workspace.Saved

namespace MeteredArrays.Invocation

open Heap

variable {σ : Type} [Storage σ] {before after : Invocation σ} {finalized : Finalized}

def demand (invocation : Invocation σ) : Nat :=
  (invocation.heap.unbound invocation.roots.toList).length

omit [Storage σ] in
theorem roots_inside (wf : before.WellFormed) : ∀ root ∈ before.roots.toList, root < before.heap.size :=
  fun root member => wf.roots root (Array.mem_toList_iff.mp member)

theorem finalize_eq (meter : Meter) (workspace : Workspace σ) (roots : Array ArrayId) :
    finalize (⟨meter, workspace, roots, none⟩ : Invocation σ) =
      match Workspace.persist roots.toList workspace with
      | .ok persisted workspace =>
        .ok ⟨meter.ledger.used, persisted.roots, persisted.written⟩
          ⟨meter, workspace.announce [.finalized persisted.written meter.ledger.used], roots, none⟩
      | .error fault workspace => .error fault (halt fault ⟨meter, workspace, roots, none⟩) := by
  have ended : perform (work (Workspace.persist roots.toList))
      (⟨meter, workspace, roots, none⟩ : Invocation σ) =
      match Workspace.persist roots.toList workspace with
      | .ok persisted workspace => .ok persisted ⟨meter, workspace, roots, none⟩
      | .error fault workspace => .error fault (halt fault ⟨meter, workspace, roots, none⟩) := by
    simp only [perform, work]
    cases Workspace.persist roots.toList workspace <;> rfl
  change EStateM.bind (perform (work (Workspace.persist roots.toList))) _ _ = _
  simp only [EStateM.bind, ended]
  cases Workspace.persist roots.toList workspace <;> rfl

theorem finalize_halted {fault : Fault} (halted : before.exit? = some fault) :
    finalize before = .error fault before := by
  obtain ⟨meter, workspace, roots, exit?⟩ := before
  cases halted
  rfl

theorem finalize_reports (invocation : Invocation σ) :
    Ends (finalize invocation)
      (fun finalized after => finalized.used = invocation.used ∧ after.meter = invocation.meter)
      fun _ after => after.meter = invocation.meter := by
  obtain ⟨meter, workspace, roots, exit?⟩ := invocation
  cases exit? with
  | some fault => exact rfl
  | none =>
    rw [finalize_eq]
    cases Workspace.persist roots.toList workspace with
    | ok persisted after => exact ⟨rfl, rfl⟩
    | error fault after => exact rfl

/-- Everything that the end of an invocation does that has not halted. It fails where the storage refuses a
    write, and then it has made the writes before. -/
theorem finalize_outcome (wf : before.WellFormed) (running : before.exit? = none) :
    Ends (finalize before)
      (fun finalized after =>
        Workspace.Commits before.roots.toList before.workspace after.workspace
          ⟨finalized.roots, finalized.written⟩ ∧
        Storage.Wrote (before.workspace.writes before.roots.toList)
          (Storage.reserve before.demand before.workspace.storage) after.workspace.storage ∧
        finalized.written = (before.heap.pending before.roots.toList).length ∧
        after.journal = before.journal ++ (Workspace.grantEvents (before.workspace.grants before.roots.toList) ++
          Workspace.saveEvents (before.workspace.saves before.roots.toList)) ++
          [Event.finalized finalized.written before.used])
      (fun fault after => ∃ accepted, Storage.Refused accepted (before.workspace.writes before.roots.toList)
        (Storage.reserve before.demand before.workspace.storage) fault after.workspace.storage ∧
        after.heap = cleanAll ((before.heap.pending before.roots.toList).take accepted)
          (before.workspace.assigned before.roots.toList) ∧
        after.journal = before.journal ++ (Workspace.grantEvents (before.workspace.grants before.roots.toList) ++
          Workspace.saveEvents ((before.workspace.saves before.roots.toList).take (accepted + 1))) ++
          [Event.halted fault before.remaining]) := by
  obtain ⟨meter, workspace, roots, exit?⟩ := before
  cases running
  have ends : Ends (Workspace.persist roots.toList workspace) _ _ := Workspace.persist_ends wf.heap (roots_inside wf)
  rw [finalize_eq]
  cases persists : Workspace.persist roots.toList workspace with
  | ok persisted middle =>
    obtain ⟨⟨heap, writes, slots⟩, wrote, written, told⟩ := ends.ok persists
    refine ⟨⟨heap, writes, slots⟩, wrote, written, ?_⟩
    exact congrArg (fun journal : Journal => journal ++ [Event.finalized persisted.written meter.ledger.used]) told
  | error fault middle =>
    obtain ⟨accepted, refused, heap, told⟩ := ends.error persists
    refine ⟨accepted, refused, heap, ?_⟩
    exact congrArg (fun journal : Journal => journal ++ [Event.halted fault meter.ledger.remaining]) told

theorem finalize_ends (wf : before.WellFormed) (running : before.exit? = none) :
    Ends (finalize before)
      (fun finalized after =>
        Workspace.Commits before.roots.toList before.workspace after.workspace
          ⟨finalized.roots, finalized.written⟩ ∧
        Storage.Wrote (before.workspace.writes before.roots.toList)
          (Storage.reserve before.demand before.workspace.storage) after.workspace.storage ∧
        finalized.written = (before.heap.pending before.roots.toList).length ∧
        after.journal = before.journal ++ (Workspace.grantEvents (before.workspace.grants before.roots.toList) ++
          Workspace.saveEvents (before.workspace.saves before.roots.toList)) ++
          [Event.finalized finalized.written before.used])
      (fun fault after => ∃ accepted, Storage.Refused accepted (before.workspace.writes before.roots.toList)
        (Storage.reserve before.demand before.workspace.storage) fault after.workspace.storage) := by
  apply (finalize_outcome wf running).imp_fail
  intro fault after failed
  obtain ⟨accepted, refused, _⟩ := failed
  exact ⟨accepted, refused⟩

theorem finalize_ok (wf : before.WellFormed) (done : finalize before = .ok finalized after) :
    before.exit? = none ∧ ∃ persisted,
      Workspace.Commits before.roots.toList before.workspace after.workspace persisted ∧
        finalized.roots = persisted.roots := by
  cases running : before.exit? with
  | some fault =>
    rw [finalize_halted running] at done
    cases done
  | none =>
    have ended := (finalize_ends wf running).ok done
    exact ⟨rfl, _, ended.1, rfl⟩

theorem finalize_succeeds (wf : before.WellFormed) (running : before.exit? = none)
    (accepting : Storage.Accepting before.workspace.storage) :
    ∃ finalized after, finalize before = .ok finalized after := by
  obtain ⟨finalized, after, done, _⟩ := (finalize_ends wf running).exists_ok
    fun _ _ ⟨_, refused⟩ => (accepting.reserve _).not_refused refused
  exact ⟨finalized, after, done⟩

theorem finalize_cases [ReliableStorage σ] (wf : before.WellFormed) :
    (∃ finalized after, finalize before = .ok finalized after) ∨
      ∃ fault, before.exit? = some fault ∧ finalize before = .error fault before := by
  cases running : before.exit? with
  | some fault => exact Or.inr ⟨fault, rfl, finalize_halted running⟩
  | none => exact Or.inl (finalize_succeeds wf running (Storage.accepting_of_reliable _))

end MeteredArrays.Invocation
