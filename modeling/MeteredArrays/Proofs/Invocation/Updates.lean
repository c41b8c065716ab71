import MeteredArrays.Proofs.Invocation.Ending
import MeteredArrays.Proofs.Storage.Memory

namespace MeteredArrays.Invocation

open Heap

variable {σ : Type} [Storage σ] {before after : Invocation σ} {finalized : Finalized}

theorem get_ok {invocation last : Invocation σ} {id : ArrayId} {index : Int32} {value : Value ArrayId}
    {contents : Contents ArrayId} (held : invocation.heap.held? id = some contents)
    (done : get id index invocation = .ok value last) : contents.get? index.toNatClampNeg = some value := by
  have ran : (Call.get id index).run invocation = .ok (.value value) last := estate_map_eq_ok.mpr ⟨value, done, rfl⟩
  obtain ⟨_, succeeds⟩ := succeeds_of_run Call.noConfusion ran
  cases succeeds with
  | look opens shown =>
    cases shown with
    | get nonneg found =>
      have here : invocation.workspace.Opens id contents invocation.workspace := Workspace.opens_of_held? held
      cases opens.access.symm.trans here.access
      exact found

/-- The arrays that `get` leads to from the roots through arrays whose contents are in memory. -/
inductive GetReaches (invocation : Invocation σ) : ArrayId → Prop
  | root {id : ArrayId} (member : id ∈ invocation.roots) : GetReaches invocation id
  | get {id target : ArrayId} {index : Int32} {last : Invocation σ} (reached : GetReaches invocation id)
      (inMemory : invocation.heap.InMemory id)
      (found : get id index invocation = .ok (.reference (some target)) last) : GetReaches invocation target

theorem GetReaches.reaches {invocation : Invocation σ} {id : ArrayId} (reached : GetReaches invocation id) :
    invocation.heap.Reaches invocation.roots.toList id := by
  induction reached with
  | root member => exact .root (Array.mem_toList_iff.mpr member)
  | get reached inMemory found ih =>
    obtain ⟨contents, held⟩ := inMemory_iff.mp inMemory
    obtain ⟨array, here, inMemory⟩ := held?_eq_some.mp held
    have target := Contents.mem_targets_of_get? (get_ok held found)
    exact .target ih (mem_targets.mpr ⟨array, contents, here, inMemory, target⟩)

theorem finalize_saves_reached [FaithfulStorage σ] {storage : σ} (reached : Reached storage before)
    (supplies : Storage.Supplies before.demand storage) (done : finalize before = .ok finalized after)
    {id : ArrayId} {array : LiveArray} {contents : Contents ArrayId} (reaches : GetReaches before id)
    (here : before.heap.arrays[id]? = some array) (held : array.contents? = some contents) :
    ∃ slot, after.heap.arrays[id]? = some (.loaded slot contents false) ∧
      after.heap.Saved (Storage.read after.workspace.storage) slot contents := by
  obtain ⟨rfl, wf, backed⟩ := reached.sound
  obtain ⟨_, persisted, commits, _⟩ := finalize_ok wf done
  have ready : before.workspace.Committable before.roots.toList := ⟨wf.heap, roots_inside wf, backed, supplies⟩
  exact commits.saved ready.separable reaches.reaches here held

def rewritten? : Call → Option ArrayId
  | .set id _ _ | .replace id _ => some id
  | _ => none

def Rewritten (calls : List Call) (answers : List (Except Fault Answer)) (id : ArrayId) : Prop :=
  ∃ call answer, (call, .ok answer) ∈ calls.zip answers ∧ rewritten? call = some id

theorem inMemory_of_rewritten {invocation : Invocation σ} {call : Call} {id : ArrayId}
    (rewrites : rewritten? call = some id) {answer : Answer} {last : Invocation σ}
    (ran : call.run invocation = .ok answer last) : last.heap.InMemory id := by
  have other : call ≠ .abort := by
    rintro rfl
    cases rewrites
  obtain ⟨_, succeeds⟩ := succeeds_of_run other ran
  cases call with
  | create | load | length | get | contents | clone | addRoot | abort => cases rewrites
  | set => exact succeeds.inMemory rewrites
  | replace =>
    cases rewrites
    cases succeeds with
    | look opens shown => cases shown
    | replace checked held kind length => exact inMemory_iff.mpr ⟨_, held?_rewritten held _⟩

theorem runAll_rewritten {invocation : Invocation σ} (wf : invocation.WellFormed) (calls : List Call)
    {id : ArrayId} (rewritten : Rewritten calls (Call.runAll calls invocation).1 id) :
    (Call.runAll calls invocation).2.heap.InMemory id := by
  induction calls generalizing invocation with
  | nil =>
    obtain ⟨_, _, member, _⟩ := rewritten
    cases member
  | cons call calls ih =>
    obtain ⟨rewriting, answer, member, rewrites⟩ := rewritten
    have advances := run_advances wf call
    simp only [Call.runAll] at member ⊢
    cases ran : call.run invocation with
    | ok answer' last =>
      have wf' := (advances.ok ran).wellFormed wf
      rw [ran, List.zip_cons_cons] at member
      rcases List.mem_cons.mp member with same | member
      · cases same
        have others := runAll_advances ⟨wf', fun _ => trivial⟩ (fun _ _ _ _ _ => trivial) calls
          fun _ _ _ => trivial
        exact others.workspace.changes.inMemory (inMemory_of_rewritten rewrites ran)
      · exact ih wf' ⟨rewriting, answer, member, rewrites⟩
    | error fault last =>
      rw [ran, List.zip_cons_cons] at member
      rcases List.mem_cons.mp member with same | member
      · cases same
      · exact ih ((advances.error ran).wellFormed wf) ⟨rewriting, answer, member, rewrites⟩

/-- No update is lost that `get` leads to through contents in memory: whichever calls rewrote an array,
    and in whichever order the arrays around it were read, the record at its slot reads back as the
    contents that it had before the commit. -/
theorem finalize_saves_rewritten [FaithfulStorage σ] {limit : UInt64} {schedule : Schedule} {storage : σ}
    {calls : List Call} {answers : List (Except Fault Answer)}
    (ran : Call.runAll calls (start limit schedule storage) = (answers, before))
    (supplies : Storage.Supplies before.demand storage) (done : finalize before = .ok finalized after)
    {id : ArrayId} (rewritten : Rewritten calls answers id) (reaches : GetReaches before id) :
    ∃ array contents slot, before.heap.arrays[id]? = some array ∧ array.contents? = some contents ∧
      after.heap.arrays[id]? = some (.loaded slot contents false) ∧
      after.heap.Saved (Storage.read after.workspace.storage) slot contents := by
  have fresh := (ready_start (fun _ => True) limit schedule storage).wellFormed
  have same : answers = (Call.runAll calls (start limit schedule storage)).1 := by rw [ran]
  obtain ⟨array, contents, here, held⟩ := runAll_rewritten fresh calls (same ▸ rewritten)
  rw [ran] at here
  have reached : Reached storage before := ⟨limit, schedule, calls, by rw [ran]⟩
  obtain ⟨slot, now, saved⟩ := finalize_saves_reached reached supplies done reaches here held
  exact ⟨array, contents, slot, here, held, now, saved⟩

def parentAndChild : Memory :=
  (Memory.empty.insert ⟨0⟩ (Record.ofContents (.references #[some ⟨.primitive .int, ⟨1⟩⟩]))).insert ⟨1⟩
    (Record.ofContents (.scalars .int #[5]))

def childChanged : List (Except Fault Answer) × Invocation Memory :=
  Call.runAll [.load ⟨0⟩ .reference, .get 0 0, .set 1 0 (.scalar .int 7), .addRoot 0]
    (start 0 .free parentAndChild)

theorem finalize_saves_childChanged : ∃ finalized after, finalize childChanged.2 = .ok finalized after ∧
    ∃ array contents slot, childChanged.2.heap.arrays[1]? = some array ∧ array.contents? = some contents ∧
      after.heap.arrays[1]? = some (.loaded slot contents false) ∧
      after.heap.Saved (Storage.read after.workspace.storage) slot contents := by
  have ran : Ends (finalize childChanged.2) (fun _ _ => True) fun _ _ => False := by decide +kernel
  obtain ⟨finalized, after, done, _⟩ := ran.exists_ok fun _ _ => not_false
  have supplies : Storage.Supplies childChanged.2.demand parentAndChild :=
    Memory.supplies parentAndChild (by decide +kernel)
  have parent : childChanged.2.heap.arrays[0]? = some (.loaded ⟨0⟩ (.references #[some 1]) false) := by
    decide +kernel
  have looked : Ends (get 0 0 childChanged.2) (fun value _ => value = .reference (some 1)) fun _ _ => False := by
    decide +kernel
  obtain ⟨_, last, found, rfl⟩ := looked.exists_ok fun _ _ => not_false
  have rewritten : Rewritten [.load ⟨0⟩ .reference, .get 0 0, .set 1 0 (.scalar .int 7), .addRoot 0]
      childChanged.1 1 := ⟨.set 1 0 (.scalar .int 7), .done, by decide +kernel, rfl⟩
  exact ⟨finalized, after, done, finalize_saves_rewritten rfl supplies done rewritten
    (.get (.root (by decide +kernel)) ⟨_, _, parent, rfl⟩ found)⟩

/-- The child is named by its slot and changed while the contents of its parent are not in memory. -/
def childChangedAlone : List (Except Fault Answer) × Invocation Memory :=
  Call.runAll [.load ⟨0⟩ .reference, .load ⟨1⟩ (.primitive .int), .set 1 0 (.scalar .int 7), .addRoot 0]
    (start 0 .free parentAndChild)

/-- A walk does not go on from an array that is not in memory. So the child keeps its old record,
    although its parent is a root and `get` leads from there to the child. -/
theorem childChangedAlone_lost :
    childChangedAlone.1 = [.ok (.array 0), .ok (.array 1), .ok .done, .ok .done] ∧
      childChangedAlone.2.roots = #[0] ∧
      (Call.runAll [.get 0 0] childChangedAlone.2).1 = [.ok (.value (.reference (some 1)))] ∧
      childChangedAlone.2.heap.arrays[1]? = some (.loaded ⟨1⟩ (.scalars .int #[7]) true) ∧
      (EStateM.run' (finalize *> MonadState.get) childChangedAlone.2).map (fun after =>
          (Storage.read after.workspace.storage ⟨1⟩).map (Record.decode (.primitive .int))) =
        some (some (.ok (.scalars .int #[5]))) := by
  decide +kernel

end MeteredArrays.Invocation
