import MeteredArrays.Proofs.Invocation.Ending

namespace MeteredArrays

variable {σ τ α : Type} [Storage σ] [Storage τ]

namespace Workspace

/-- A relation that holds on when both sides change their equal heaps alike or tell the same event. -/
structure Aligned (related : Workspace σ → Workspace τ → Prop) : Prop where
  heap : ∀ {left right}, related left right → left.heap = right.heap
  read : ∀ {left right}, related left right → Storage.read left.storage = Storage.read right.storage
  changed : ∀ {left right}, related left right → ∀ heap, related { left with heap } { right with heap }
  told : ∀ {left right}, related left right → ∀ event, related
    { left with journal := left.journal.push event } { right with journal := right.journal.push event }

section Aligned

variable {related : Workspace σ → Workspace τ → Prop} (aligned : Aligned related)

include aligned

theorem query_inStep (question : Heap → Except Fault α) :
    InStep related (query question : Work σ α) (query question : Work τ α) := by
  intro left right rel
  simp only [query, ← aligned.heap rel]
  cases question left.heap with
  | ok answer => exact ⟨rfl, rel⟩
  | error fault => exact ⟨rfl, rel⟩

theorem onHeap_inStep (change : EStateM Fault Heap α) :
    InStep related (onHeap change : Work σ α) (onHeap change : Work τ α) := by
  intro left right rel
  have same := aligned.heap rel
  have changed := aligned.changed rel
  obtain ⟨heap, storage, journal⟩ := left
  obtain ⟨heap', storage', journal'⟩ := right
  cases same
  simp only [onHeap]
  cases change heap with
  | ok answer after => exact ⟨rfl, changed after⟩
  | error fault after => exact ⟨rfl, changed after⟩

theorem tell_inStep (event : Event) : InStep related (tell event : Work σ Unit) (tell event : Work τ Unit) :=
  fun _ _ rel => ⟨rfl, aligned.told rel event⟩

theorem fetch_inStep (slot : Slot) :
    InStep related (fetch slot : Work σ (Option Record)) (fetch slot : Work τ (Option Record)) := by
  apply InStep.bind (tell_inStep aligned _)
  intro _ left right rel
  exact ⟨congrFun (aligned.read rel) slot, rel⟩

theorem load_inStep (id : ArrayId) (kind : Kind) (slot : Slot) :
    InStep related (load id kind slot : Work σ Unit) (load id kind slot : Work τ Unit) := by
  apply InStep.bind (fetch_inStep aligned slot)
  intro record?
  cases record? with
  | none => exact InStep.throw _
  | some record =>
    simp only
    cases Record.decode kind record with
    | error why => exact InStep.throw _
    | ok links =>
      apply InStep.bind (onHeap_inStep aligned _)
      intro contents
      apply InStep.bind (tell_inStep aligned _)
      intro _
      exact onHeap_inStep aligned _

theorem materialize_inStep (id : ArrayId) :
    InStep related (materialize id : Work σ Unit) (materialize id : Work τ Unit) := by
  apply InStep.bind (query_inStep aligned _)
  intro array
  cases array with
  | named kind slot => exact load_inStep aligned id kind slot
  | fresh | loaded => exact InStep.pure _

theorem Opens.inStep {left opened : Workspace σ} {right : Workspace τ} {id : ArrayId} {contents : Contents ArrayId}
    (opens : left.Opens id contents opened) (rel : related left right) :
    ∃ opened', right.Opens id contents opened' ∧ related opened opened' := by
  obtain ⟨opened', read, kept⟩ := (materialize_inStep aligned id left right rel).ok opens.read
  exact ⟨opened', ⟨read, aligned.heap kept ▸ opens.held⟩, kept⟩

end Aligned

structure Twin (left : Workspace σ) (right : Workspace τ) : Prop where
  heap : left.heap = right.heap
  journal : left.journal = right.journal
  read : Storage.read left.storage = Storage.read right.storage

theorem aligned_twin : Aligned (Twin : Workspace σ → Workspace τ → Prop) where
  heap twin := twin.heap
  read twin := twin.read
  changed twin _ := ⟨rfl, twin.journal, twin.read⟩
  told twin event := ⟨twin.heap, congrArg (·.push event) twin.journal, twin.read⟩

theorem announce_twin {left : Workspace σ} {right : Workspace τ} (twin : Twin left right) (events : List Event) :
    Twin (left.announce events) (right.announce events) :=
  ⟨twin.heap, congrArg (fun journal : Journal => journal ++ events) twin.journal, twin.read⟩

theorem Twin.saves {left : Workspace σ} {right : Workspace τ} (twin : Twin left right) {roots : List ArrayId}
    (offered : Storage.handouts (left.heap.unbound roots).length left.storage =
      Storage.handouts (left.heap.unbound roots).length right.storage) :
    right.grants roots = left.grants roots ∧ right.assigned roots = left.assigned roots ∧
      right.writes roots = left.writes roots ∧ right.saves roots = left.saves roots := by
  have granted : right.grants roots = left.grants roots := by
    rw [grants, ← twin.heap, ← offered]
    rfl
  have assigned : right.assigned roots = left.assigned roots := by
    rw [Workspace.assigned, granted, ← twin.heap]
    rfl
  have writes : right.writes roots = left.writes roots := by
    rw [Workspace.writes, assigned, ← twin.heap]
    rfl
  refine ⟨granted, assigned, writes, ?_⟩
  rw [Workspace.saves, writes, ← twin.heap]
  rfl

theorem Twin.persisted {left after : Workspace σ} {right after' : Workspace τ} (twin : Twin left right)
    {roots : List ArrayId} (wf : left.heap.WellFormed) (inside : ∀ root ∈ roots, root < left.heap.size)
    (offered : Storage.handouts (left.heap.unbound roots).length left.storage =
      Storage.handouts (left.heap.unbound roots).length right.storage)
    {persisted persisted' : Persisted} (done : Workspace.persist roots left = .ok persisted after)
    (done' : Workspace.persist roots right = .ok persisted' after') :
    persisted = persisted' ∧ after.heap = after'.heap ∧ after.journal = after'.journal := by
  have wf' : right.heap.WellFormed := twin.heap ▸ wf
  obtain ⟨commits, _, written, told⟩ := (persist_ends wf inside).ok done
  obtain ⟨commits', _, written', told'⟩ := (persist_ends wf' (twin.heap ▸ inside)).ok done'
  obtain ⟨granted, assigned, _, saves⟩ := twin.saves offered
  have heap' := commits'.heap
  have named' := commits'.roots
  rw [assigned, ← twin.heap] at heap'
  rw [assigned] at named'
  rw [← twin.heap] at written'
  rw [granted, saves, ← twin.journal] at told'
  refine ⟨?_, commits.heap.trans heap'.symm, told.trans told'.symm⟩
  obtain ⟨slots, count⟩ := persisted
  obtain ⟨slots', count'⟩ := persisted'
  cases Except.ok.inj (commits.roots.symm.trans named')
  cases written.trans written'.symm
  rfl

theorem Twin.persist {left : Workspace σ} {right : Workspace τ} (twin : Twin left right) {roots : List ArrayId}
    (wf : left.heap.WellFormed) (inside : ∀ root ∈ roots, root < left.heap.size)
    (offered : Storage.handouts (left.heap.unbound roots).length left.storage =
      Storage.handouts (left.heap.unbound roots).length right.storage)
    (accepting : Storage.Accepting left.storage) (accepting' : Storage.Accepting right.storage) :
    ∃ persisted after after', Workspace.persist roots left = .ok persisted after ∧
      Workspace.persist roots right = .ok persisted after' ∧ after.journal = after'.journal ∧
      Storage.Wrote (left.writes roots)
        (Storage.reserve (left.heap.unbound roots).length left.storage) after.storage ∧
      Storage.Wrote (left.writes roots)
        (Storage.reserve (left.heap.unbound roots).length right.storage) after'.storage := by
  obtain ⟨persisted, after, done, _, wrote, _⟩ := (persist_ends wf inside).exists_ok
    fun _ _ ⟨_, refused, _⟩ => (accepting.reserve _).not_refused refused
  have wf' : right.heap.WellFormed := twin.heap ▸ wf
  have inside' : ∀ root ∈ roots, root < right.heap.size := twin.heap ▸ inside
  obtain ⟨persisted', after', done', _, wrote', _⟩ :=
    (persist_ends wf' inside').exists_ok fun _ _ ⟨_, refused, _⟩ => (accepting'.reserve _).not_refused refused
  obtain ⟨rfl, _, journal⟩ := twin.persisted wf inside offered done done'
  rw [← twin.heap, (twin.saves offered).2.2.1] at wrote'
  exact ⟨_, after, after', done, done', journal, wrote, wrote'⟩

end Workspace

namespace Invocation

structure Aligned (beneath : Workspace σ → Workspace τ → Prop) (related : Invocation σ → Invocation τ → Prop) :
    Prop where
  below : Workspace.Aligned beneath
  workspace : ∀ {left right}, related left right → beneath left.workspace right.workspace
  exit : ∀ {left right}, related left right → left.exit? = right.exit?
  worked : ∀ {left right}, related left right → ∀ {after after'}, beneath after after' →
    related { left with workspace := after } { right with workspace := after' }
  rooted : ∀ {left right}, related left right → ∀ id, related
    { left with roots := left.roots.push id } { right with roots := right.roots.push id }
  halted : ∀ {left right}, related left right → ∀ fault, related (left.halt fault) (right.halt fault)
  aborted : ∀ {left right}, related left right → related left.abort right.abort

def charge? (before : Invocation σ) : Call → Option Metered
  | .create length kind => some (.creation kind length)
  | .clone id =>
    match Workspace.access id before.workspace with
    | .ok contents _ =>
      if Record.maxLength < contents.length then none else some (.cloning (Int32.ofNat contents.length))
    | .error _ _ => none
  | _ => none

def PaysAlike (related : Invocation σ → Invocation τ → Prop) (left : Invocation σ) (right : Invocation τ)
    (call : Call) : Prop :=
  left.exit? = none → ∀ operation ∈ left.charge? call, ∀ {middle middle'}, related middle middle' →
    middle.meter = left.meter → middle'.meter = right.meter →
    Agrees related (pay operation middle) (pay operation middle')

theorem charge_of_opens {before : Invocation σ} {id : ArrayId} {contents : Contents ArrayId} {opened : Workspace σ}
    (opens : before.workspace.Opens id contents opened) (short : contents.length ≤ Record.maxLength) :
    before.charge? (.clone id) = some (.cloning (Int32.ofNat contents.length)) := by
  simp only [charge?, opens.access, if_neg (Nat.not_lt.mpr short)]

theorem runAll_one_agrees {related : Invocation σ → Invocation τ → Prop} {left : Invocation σ}
    {right : Invocation τ} {call : Call} (agrees : Agrees related (call.run left) (call.run right)) :
    (Call.runAll [call] left).1 = (Call.runAll [call] right).1 ∧
      related (Call.runAll [call] left).2 (Call.runAll [call] right).2 := by
  simp only [Call.runAll]
  cases ran : call.run left with
  | ok answer after =>
    obtain ⟨after', ran', kept⟩ := agrees.ok ran
    rw [ran']
    exact ⟨rfl, kept⟩
  | error fault after =>
    obtain ⟨after', ran', kept⟩ := agrees.error ran
    rw [ran']
    exact ⟨rfl, kept⟩

section Aligned

variable {beneath : Workspace σ → Workspace τ → Prop} {related : Invocation σ → Invocation τ → Prop}
  (aligned : Aligned beneath related) {left : Invocation σ} {right : Invocation τ}

include aligned

theorem Aligned.withHeap (rel : related left right) (heap : Heap) :
    related (left.withHeap heap) (right.withHeap heap) :=
  aligned.worked rel (aligned.below.changed (aligned.workspace rel) heap)

theorem Aligned.announced (rel : related left right) (event : Event) :
    related (left.announce event) (right.announce event) :=
  aligned.worked rel (aligned.below.told (aligned.workspace rel) event)

theorem Aligned.heap (rel : related left right) : left.heap = right.heap :=
  aligned.below.heap (aligned.workspace rel)

theorem Aligned.withArray (rel : related left right) (contents : Contents ArrayId) (event : ArrayId → Event) :
    related (left.withArray contents event) (right.withArray contents event) := by
  rw [Invocation.withArray, Invocation.withArray, ← aligned.heap rel]
  exact aligned.announced (aligned.withHeap rel _) _

theorem Aligned.withTouched (rel : related left right) (id : ArrayId) :
    related (left.withTouched id) (right.withTouched id) := by
  rw [Invocation.withTouched, Invocation.withTouched, ← aligned.heap rel]
  exact aligned.withHeap rel _

theorem Aligned.withRewritten (rel : related left right) (id : ArrayId)
    (change : Contents ArrayId → Contents ArrayId) :
    related (left.withRewritten id change) (right.withRewritten id change) := by
  rw [Invocation.withRewritten, Invocation.withRewritten, ← aligned.heap rel]
  exact aligned.withHeap rel _

theorem Aligned.opens (rel : related left right) {id : ArrayId} {contents : Contents ArrayId} {opened : Workspace σ}
    (opens : left.workspace.Opens id contents opened) : ∃ opened', right.workspace.Opens id contents opened' ∧
      related (left.withWorkspace opened) (right.withWorkspace opened') := by
  obtain ⟨opened', opens', kept⟩ := opens.inStep aligned.below (aligned.workspace rel)
  exact ⟨opened', opens', aligned.worked rel kept⟩

theorem charge?_agrees (rel : related left right) (call : Call) : left.charge? call = right.charge? call := by
  cases call with
  | clone id =>
    rcases Workspace.opens_or_fails id left.workspace with ⟨contents, opened, opens⟩ | ⟨fault, after, failed⟩
    · obtain ⟨opened', opens', _⟩ := aligned.opens rel opens
      simp only [charge?, opens.access, opens'.access]
    · have reads := Workspace.materialize_inStep aligned.below id _ _ (aligned.workspace rel)
      obtain ⟨after', failed', _⟩ := reads.error failed
      have unread : Workspace.access id left.workspace = .error fault after := estate_bind_of_error failed
      have unread' : Workspace.access id right.workspace = .error fault after' := estate_bind_of_error failed'
      simp only [charge?, unread, unread']
  | create | load | length | get | set | contents | replace | addRoot | abort => rfl

variable {call : Call} {answer : Answer} {fault : Fault} {after last : Invocation σ}

theorem Succeeds.inStep (succeeds : Succeeds left call answer after) (rel : related left right)
    (running : left.exit? = none) (pays : PaysAlike related left right call) :
    ∃ after', Succeeds right call answer after' ∧ related after after' := by
  have same := aligned.heap rel
  cases succeeds with
  | create paying nonneg =>
    obtain ⟨paid', paying', kept⟩ := (pays running _ rfl rel rfl rfl).ok paying
    rw [aligned.heap kept]
    exact ⟨_, .create paying' nonneg, aligned.withArray kept _ _⟩
  | load resolves => exact ⟨_, .load (same ▸ resolves), aligned.announced (aligned.withHeap rel _) _⟩
  | look opens shown =>
    obtain ⟨opened', opens', kept⟩ := aligned.opens rel opens
    exact ⟨_, .look opens' shown, kept⟩
  | set checked opens fits =>
    obtain ⟨opened', opens', kept⟩ := aligned.opens rel opens
    exact ⟨_, .set (same ▸ checked) opens' fits, aligned.withRewritten kept _ _⟩
  | replace checked held kind length =>
    exact ⟨_, .replace (same ▸ checked) (same ▸ held) kind length, aligned.withRewritten rel _ _⟩
  | clone opens short paying =>
    obtain ⟨opened', opens', kept⟩ := aligned.opens rel opens
    obtain ⟨paid', paying', kept⟩ := (pays running _ (charge_of_opens opens short) kept rfl rfl).ok paying
    rw [aligned.heap kept]
    exact ⟨_, .clone opens' short paying', aligned.withArray kept _ _⟩
  | addRoot checked => exact ⟨_, .addRoot (same ▸ checked), aligned.rooted rel _⟩

theorem Rejects.inStep (rejects : Rejects left call fault) (rel : related left right) : Rejects right call fault := by
  have same := aligned.heap rel
  cases rejects with
  | absent required absent => exact .absent required (same ▸ absent)
  | negativeIndex inside negative => exact .negativeIndex (same ▸ inside) negative
  | clash clashes => exact .clash (same ▸ clashes)
  | unmaterialized checked here => exact .unmaterialized (same ▸ checked) (same ▸ here)
  | differs checked held differs => exact .differs (same ▸ checked) (same ▸ held) differs

theorem Fails.inStep (fails : Fails left call fault last) (rel : related left right) (running : left.exit? = none)
    (pays : PaysAlike related left right call) : ∃ last', Fails right call fault last' ∧ related last last' := by
  have same := aligned.heap rel
  cases fails with
  | early rejects => exact ⟨right, .early (rejects.inStep aligned rel), rel⟩
  | @unread _ id _ _ subject checked failed =>
    have reads := Workspace.materialize_inStep aligned.below id _ _ (aligned.workspace rel)
    obtain ⟨after', failed', kept⟩ := reads.error failed
    exact ⟨_, .unread subject (same ▸ checked) failed', aligned.worked rel kept⟩
  | look opens balks =>
    obtain ⟨opened', opens', kept⟩ := aligned.opens rel opens
    exact ⟨_, .look opens' balks, kept⟩
  | refused checked opens refused =>
    obtain ⟨opened', opens', kept⟩ := aligned.opens rel opens
    exact ⟨_, .refused (same ▸ checked) opens' refused, aligned.withTouched kept _⟩
  | unpaidCreation refused =>
    obtain ⟨last', refused', kept⟩ := (pays running _ rfl rel rfl rfl).error refused
    exact ⟨last', .unpaidCreation refused', kept⟩
  | negativeLength paying negative =>
    obtain ⟨paid', paying', kept⟩ := (pays running _ rfl rel rfl rfl).ok paying
    exact ⟨paid', .negativeLength paying' negative, kept⟩
  | unpaidCopy opens short refused =>
    obtain ⟨opened', opens', kept⟩ := aligned.opens rel opens
    obtain ⟨last', refused', kept⟩ := (pays running _ (charge_of_opens opens short) kept rfl rfl).error refused
    exact ⟨last', .unpaidCopy opens' short refused', kept⟩

theorem run_agrees (rel : related left right) (call : Call) (pays : PaysAlike related left right call) :
    Agrees related (call.run left) (call.run right) := by
  by_cases aborts : call = .abort
  · subst aborts
    exact ⟨rfl, aligned.aborted rel⟩
  cases exit : left.exit? with
  | some fault =>
    rw [run_of_halted exit aborts, run_of_halted ((aligned.exit rel).symm.trans exit) aborts]
    exact ⟨rfl, rel⟩
  | none =>
    have exit' := (aligned.exit rel).symm.trans exit
    rcases hasOutcome left aborts with ⟨answer, after, succeeds⟩ | ⟨fault, last, fails⟩
    · obtain ⟨after', succeeds', kept⟩ := succeeds.inStep aligned rel exit pays
      rw [succeeds.run exit, succeeds'.run exit']
      exact ⟨rfl, kept⟩
    · obtain ⟨last', fails', kept⟩ := fails.inStep aligned rel exit pays
      rw [fails.run exit, fails'.run exit']
      exact ⟨rfl, aligned.halted kept fault⟩

end Aligned

/-- The same invocation over storages that cannot be told apart by reading them. -/
structure Twin (left : Invocation σ) (right : Invocation τ) : Prop where
  meter : left.meter = right.meter
  workspace : left.workspace.Twin right.workspace
  roots : left.roots = right.roots
  exit : left.exit? = right.exit?

theorem Twin.start {storage : σ} {storage' : τ} (read : Storage.read storage = Storage.read storage')
    (limit : UInt64) (schedule : Schedule) :
    Twin (start limit schedule storage) (start limit schedule storage') :=
  ⟨rfl, ⟨rfl, rfl, read⟩, rfl, rfl⟩

theorem Twin.announce {left : Invocation σ} {right : Invocation τ} (twin : Twin left right) (event : Event) :
    Twin (left.announce event) (right.announce event) :=
  ⟨twin.meter, Workspace.announce_twin twin.workspace [event], twin.roots, twin.exit⟩

theorem Twin.halt {left : Invocation σ} {right : Invocation τ} (twin : Twin left right) (fault : Fault) :
    Twin (left.halt fault) (right.halt fault) := by
  have same : left.remaining = right.remaining := congrArg (·.ledger.remaining) twin.meter
  rw [Invocation.halt, Invocation.halt, same]
  have told := twin.announce (.halted fault right.remaining)
  exact ⟨told.meter, told.workspace, told.roots, rfl⟩

theorem Twin.abort {left : Invocation σ} {right : Invocation τ} (twin : Twin left right) :
    Twin left.abort right.abort := by
  have told := twin.announce .aborted
  simp only [Invocation.abort, ← twin.exit]
  cases left.exit? with
  | some fault => exact twin
  | none => exact ⟨told.meter, told.workspace, told.roots, rfl⟩

theorem aligned_twin : Aligned Workspace.Twin (Twin : Invocation σ → Invocation τ → Prop) where
  below := Workspace.aligned_twin
  workspace twin := twin.workspace
  exit twin := twin.exit
  worked twin _ _ below := ⟨twin.meter, below, twin.roots, twin.exit⟩
  rooted twin id := ⟨twin.meter, twin.workspace, congrArg (·.push id) twin.roots, twin.exit⟩
  halted twin := twin.halt
  aborted twin := twin.abort

theorem pay_inStep (operation : Metered) :
    InStep Twin (pay operation : Action σ Unit) (pay operation : Action τ Unit) := by
  intro ⟨meter, workspace, roots, exit?⟩ ⟨meter', workspace', roots', exit?'⟩ ⟨meters, twin, same, exits⟩
  cases meters
  have told := Workspace.announce_twin twin (meter.notices operation)
  simp only [pay]
  cases meter.record operation with
  | ok meter => exact ⟨rfl, rfl, told, same, exits⟩
  | error fault => exact ⟨rfl, rfl, told, same, exits⟩

theorem run_inStep (call : Call) :
    InStep Twin (call.run : Action σ Answer) (call.run : Action τ Answer) :=
  fun _ _ twin => run_agrees aligned_twin twin call fun _ operation _ _ _ kept _ _ => pay_inStep operation _ _ kept

theorem runAll_twin {left : Invocation σ} {right : Invocation τ} (twin : Twin left right) (calls : List Call) :
    (Call.runAll calls left).1 = (Call.runAll calls right).1 ∧
      Twin (Call.runAll calls left).2 (Call.runAll calls right).2 := by
  induction calls generalizing left right with
  | nil => exact ⟨rfl, twin⟩
  | cons call calls ih =>
    obtain ⟨first, kept⟩ := runAll_one_agrees (run_inStep call left right twin)
    obtain ⟨rest, last⟩ := ih kept
    rw [runAll_cons call calls left, runAll_cons call calls right, first, rest]
    exact ⟨rfl, last⟩

theorem Twin.finalize {left : Invocation σ} {right : Invocation τ} (twin : Twin left right)
    (wf : left.WellFormed)
    (offered : Storage.handouts left.demand left.workspace.storage =
      Storage.handouts left.demand right.workspace.storage)
    (accepting : Storage.Accepting left.workspace.storage)
    (accepting' : Storage.Accepting right.workspace.storage) :
    (∃ finalized after after', left.finalize = .ok finalized after ∧ right.finalize = .ok finalized after' ∧
      after.journal = after'.journal ∧
      Storage.Wrote (left.workspace.writes left.roots.toList)
        (Storage.reserve left.demand left.workspace.storage) after.workspace.storage ∧
      Storage.Wrote (left.workspace.writes left.roots.toList)
        (Storage.reserve left.demand right.workspace.storage) after'.workspace.storage) ∨
      ∃ fault, left.finalize = .error fault left ∧ right.finalize = .error fault right := by
  cases halted : left.exit? with
  | some fault => exact Or.inr ⟨fault, finalize_halted halted, finalize_halted (twin.exit.symm.trans halted)⟩
  | none =>
    left
    have inside := roots_inside wf
    obtain ⟨meter, workspace, roots, exit?⟩ := left
    obtain ⟨meter', workspace', roots', exit?'⟩ := right
    obtain ⟨meters, twin, same, exits⟩ := twin
    cases meters
    cases same
    cases halted
    cases exits
    obtain ⟨persisted, after, after', done, done', told, wrote, wrote'⟩ :=
      twin.persist wf.heap inside offered accepting accepting'
    rw [finalize_eq, finalize_eq, done, done']
    refine ⟨_, _, _, rfl, rfl, ?_, wrote, wrote'⟩
    exact congrArg (fun journal : Journal => journal ++ [Event.finalized persisted.written meter.ledger.used]) told

end Invocation

end MeteredArrays
