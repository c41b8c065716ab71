import MeteredArrays.Proofs.Invocation.Transparency
import MeteredArrays.Proofs.Workspace.Checked
import MeteredArrays.Proofs.Workspace.Trail

namespace MeteredArrays

/-- What is settled about an array stays so: its kind, its slot once it has one, and the number of its elements
    once they are in memory. -/
structure LiveArray.Ages (before after : LiveArray) : Prop where
  kind : after.kind = before.kind
  slot : ∀ slot, before.slot? = some slot → after.slot? = some slot
  length : ∀ count, before.length? = some count → after.length? = some count

theorem LiveArray.Ages.trans {first second third : LiveArray} (one : first.Ages second) (two : second.Ages third) :
    first.Ages third where
  kind := two.kind.trans one.kind
  slot slot bound := two.slot slot (one.slot slot bound)
  length count long := two.length count (one.length count long)

theorem LiveArray.Ages.of_same {before after : LiveArray} (kind : after.kind = before.kind)
    (slot : after.slot? = before.slot?) (contents : after.contents? = before.contents?) : before.Ages after where
  kind := kind
  slot _ bound := slot.trans bound
  length _ long := (congrArg (Option.map Contents.length) contents).trans long

namespace Heap

variable {heap before after : Heap} {grants : List (ArrayId × Slot)} {id : ArrayId} {count : Nat}

/-- All arrays are still there. Those of `grants` had no slot and got one each, and the others have the slots that
    they had. -/
structure Ages (grants : List (ArrayId × Slot)) (before after : Heap) : Prop where
  once : (grants.map Prod.fst).Nodup
  ages : ∀ {id : ArrayId} {array : LiveArray}, before.arrays[id]? = some array →
    ∃ array', after.arrays[id]? = some array' ∧ array.Ages array' ∧
      (array'.slot? = array.slot? ∨ ∃ slot, (id, slot) ∈ grants ∧ array.slot? = none ∧ array'.slot? = some slot)

theorem Ages.refl (heap : Heap) : Ages [] heap heap where
  once := .nil
  ages here := ⟨_, here, .of_same rfl rfl rfl, Or.inl rfl⟩

theorem Ages.slot (ages : Ages [] before after) {array : LiveArray} (here : before.arrays[id]? = some array) :
    ∃ array', after.arrays[id]? = some array' ∧ array.Ages array' ∧ array'.slot? = array.slot? := by
  obtain ⟨array', there, aged, same | ⟨slot, granted, _⟩⟩ := ages.ages here
  · exact ⟨array', there, aged, same⟩
  · cases granted

theorem Ages.trans {third : Heap} (one : Ages [] before after) (two : Ages grants after third) :
    Ages grants before third where
  once := two.once
  ages here := by
    obtain ⟨middle, there, aged, same⟩ := one.slot here
    obtain ⟨last, found, aged', slot⟩ := two.ages there
    rw [same] at slot
    exact ⟨last, found, aged.trans aged', slot⟩

theorem length?_eq_some : heap.length? id = some count ↔
    ∃ array contents, heap.arrays[id]? = some array ∧ array.contents? = some contents ∧ contents.length = count := by
  simp only [length?, Option.bind_eq_some_iff, LiveArray.length?, Option.map_eq_some_iff, exists_and_left]

theorem arrays_cleanAll_of_some {array : LiveArray} (here : heap.arrays[id]? = some array) (ids : List ArrayId) :
    ∃ array', (cleanAll ids heap).arrays[id]? = some array' ∧ array.Ages array' ∧ array'.slot? = array.slot? := by
  rw [arrays_cleanAll, here]
  split
  · have kind : array.clean.kind = array.kind := by cases array <;> rfl
    exact ⟨array.clean, rfl, .of_same kind array.slot?_clean array.contents?_clean, array.slot?_clean⟩
  · exact ⟨array, rfl, .of_same rfl rfl rfl, rfl⟩

end Heap

namespace Workspace

open Heap

variable {σ : Type} [Storage σ] {workspace : Workspace σ} {roots : List ArrayId}

theorem assigned_ages (wf : workspace.heap.WellFormed) (inside : ∀ root ∈ roots, root < workspace.heap.size)
    (ids : List ArrayId) :
    workspace.heap.Ages (workspace.grants roots) (cleanAll ids (workspace.assigned roots)) where
  once := by
    rw [grants_fst]
    exact nodup_unbound wf inside
  ages {id array} here := by
    rcases assigned_cases wf inside id with ⟨same, _⟩ | ⟨slot, contents, dirty, granted, fresh, now⟩
    · obtain ⟨array', there, aged, slot⟩ := arrays_cleanAll_of_some (same.trans here) ids
      exact ⟨array', there, aged, Or.inl slot⟩
    · cases fresh.symm.trans here
      obtain ⟨array', there, aged, bound⟩ := arrays_cleanAll_of_some now ids
      have assigned : (LiveArray.fresh contents dirty).Ages (.loaded slot contents dirty) :=
        ⟨rfl, fun _ bound => (nomatch bound), fun _ long => long⟩
      exact ⟨array', there, assigned.trans aged, Or.inr ⟨slot, granted, rfl, bound⟩⟩

end Workspace

namespace Invocation

open Heap

variable {σ : Type} [Storage σ] {before after invocation : Invocation σ}

theorem Tells.length {call : Call} {answer : Answer} (tells : Tells before after call answer) {id : ArrayId}
    (known : id < before.heap.size) {contents : Contents Name} (told : before.content? id = some contents) :
    ∃ contents', after.content? id = some contents' ∧ contents'.length = contents.length := by
  by_cases other : rewritten? call = some id
  · cases call with
    | set target index value =>
      cases other
      cases answer with
      | done =>
        obtain ⟨⟨current, new, held, _, _, _, now, puts⟩, _⟩ := tells
        cases held.symm.trans told
        exact ⟨new, now, puts.length⟩
      | array | length | value | contents => cases tells
    | replace target new =>
      cases other
      cases answer with
      | done =>
        obtain ⟨⟨current, held, _, length, now⟩, _⟩ := tells
        cases held.symm.trans told
        exact ⟨_, now, (Contents.length_map _ new).trans length⟩
      | array | length | value | contents => cases tells
    | create | load | length | get | contents | clone | addRoot | abort => cases other
  · exact ⟨contents, (tells.content? known other).trans told, rfl⟩

theorem length?_of_content? {id : ArrayId} {contents : Contents Name} (told : invocation.content? id = some contents)
    (inMemory : invocation.heap.InMemory id) : invocation.heap.length? id = some contents.length := by
  obtain ⟨array, held, here, inMemory⟩ := inMemory
  cases (content?_of_contents? here inMemory).symm.trans told
  exact length?_eq_some.mpr ⟨array, held, here, inMemory, (Contents.length_map _ held).symm⟩

theorem run_length? (wf : invocation.WellFormed) (call : Call) {id : ArrayId} {count : Nat}
    (long : invocation.heap.length? id = some count) :
    Ends (call.run invocation) (fun _ after => after.heap.length? id = some count)
      fun _ after => after.heap.length? id = some count := by
  obtain ⟨array, contents, here, held, rfl⟩ := length?_eq_some.mp long
  have told : invocation.content? id = some (contents.map invocation.heap.name) := content?_of_contents? here held
  have inMemory : invocation.heap.InMemory id := ⟨array, contents, here, held⟩
  rw [← Contents.length_map invocation.heap.name contents]
  apply ((run_advances wf call).and (run_tells wf call)).imp
  · intro answer after ended
    obtain ⟨contents', told', length⟩ := ended.2.length (lt_size here) told
    rw [← length]
    exact length?_of_content? told' (ended.1.workspace.changes.inMemory inMemory)
  · intro fault after ended
    have told' : after.content? id = _ := (ended.2.content? (lt_size here) (Set.notMem_empty id)).trans told
    exact length?_of_content? told' (ended.1.workspace.changes.inMemory inMemory)

theorem ages_of_advances (advances : Advances (fun _ => True) invocation after)
    (lengths : ∀ {id count}, invocation.heap.length? id = some count → after.heap.length? id = some count) :
    invocation.heap.Ages [] after.heap where
  once := .nil
  ages {id array} here := by
    obtain ⟨array', there, kept⟩ := advances.workspace.changes.keeps here
    refine ⟨array', there, ⟨kept.kind, fun slot bound => kept.slot.trans bound, fun count long => ?_⟩,
      Or.inl kept.slot⟩
    obtain ⟨last, found, length⟩ := Option.bind_eq_some_iff.mp
      (lengths (Option.bind_eq_some_iff.mpr ⟨array, here, long⟩))
    cases there.symm.trans found
    exact length

theorem run_ages (wf : invocation.WellFormed) (call : Call) :
    Ends (call.run invocation) (fun _ after => invocation.heap.Ages [] after.heap)
      fun _ after => invocation.heap.Ages [] after.heap := by
  have advances := run_advances wf call
  have lengths := fun {id count} (long : invocation.heap.length? id = some count) => run_length? wf call long
  cases ran : call.run invocation with
  | ok answer after | error fault after =>
    rw [ran] at advances lengths
    exact ages_of_advances advances lengths

theorem runAll_ages (wf : invocation.WellFormed) (calls : List Call) :
    invocation.heap.Ages [] (Call.runAll calls invocation).2.heap := by
  have step : ∀ {middle : Invocation σ}, invocation.heap.Ages [] middle.heap → middle.WellFormed → ∀ call : Call,
      Ends (call.run middle) (fun _ after => invocation.heap.Ages [] after.heap)
        fun _ after => invocation.heap.Ages [] after.heap := by
    intro middle aged wf call
    exact (run_ages wf call).imp (fun _ _ later => aged.trans later) fun _ _ later => aged.trans later
  exact runAll_keeps step (.refl _) wf calls

theorem finalize_ages (wf : invocation.WellFormed) :
    Ends (finalize invocation) (fun _ after => ∃ grants, invocation.heap.Ages grants after.heap)
      fun _ after => ∃ grants, invocation.heap.Ages grants after.heap := by
  cases running : invocation.exit? with
  | some fault =>
    rw [finalize_halted running]
    exact ⟨[], .refl _⟩
  | none =>
    have ages := Workspace.assigned_ages wf.heap (roots_inside wf)
    apply (finalize_outcome wf running).imp
    · intro finalized after ended
      obtain ⟨commits, _⟩ := ended
      rw [heap, heap, commits.heap]
      exact ⟨_, ages _⟩
    · intro fault after ended
      obtain ⟨accepted, _, cleaned, _⟩ := ended
      rw [cleaned]
      exact ⟨_, ages _⟩

/-- In every run an array keeps its kind, the slot that it has and the length of the contents that it has in
    memory. It has no slot before the end of the invocation that it did not have when it was made, and then it
    gets one at most. Contents are installed only where there are none, and slots are given only to arrays
    that have none. -/
theorem lifecycles_one_way (limit : UInt64) (schedule : Schedule) (storage : σ) (calls later : List Call) :
    let before := (Call.runAll calls (start limit schedule storage)).2
    let after := (Call.runAll later before).2
    before.heap.Ages [] after.heap ∧
    (Ends (finalize after) (fun _ last => ∃ grants, after.heap.Ages grants last.heap)
      fun _ last => ∃ grants, after.heap.Ages grants last.heap) ∧
    (∀ id, Workspace.materializeChecked id after.workspace =
      Workspace.checked (Workspace.materialize id) after.workspace) ∧
    ∀ roots, Workspace.persistChecked roots after.workspace =
      Workspace.checked (Workspace.persist roots) after.workspace := by
  intro before after
  have wf : ∀ {invocation : Invocation σ} (calls : List Call), invocation.WellFormed →
      (Call.runAll calls invocation).2.WellFormed := by
    intro invocation calls wf
    have ready : Ready (fun _ => True) invocation := ⟨wf, fun _ => trivial⟩
    exact (runAll_advances ready (fun _ _ _ _ _ => trivial) calls fun _ _ _ => trivial).wellFormed wf
  have first : before.WellFormed := wf calls (ready_start (fun _ => True) limit schedule storage).wellFormed
  have second : after.WellFormed := wf later first
  refine ⟨runAll_ages first later, finalize_ages second, fun id => ?_, fun roots => ?_⟩
  · exact Workspace.materializeChecked_eq second.heap id
  · rw [Workspace.persistChecked_eq]

end Invocation

end MeteredArrays
