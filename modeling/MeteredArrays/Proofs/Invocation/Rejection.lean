import MeteredArrays.Proofs.Invocation.Updates
import MeteredArrays.Proofs.Workspace.Isolation

namespace MeteredArrays

/-- An array as it was, except that its contents may have been read and that it may have been `marked`. -/
structure LiveArray.Spared (marked : Prop) (before after : LiveArray) : Prop where
  kind : after.kind = before.kind
  slot : after.slot? = before.slot?
  contents : ∀ contents, before.contents? = some contents → after.contents? = some contents
  dirty : after.isDirty = true ↔ before.isDirty = true ∨ marked

theorem LiveArray.Spared.refl {marked : Prop} (unmarked : ¬ marked) (array : LiveArray) :
    array.Spared marked array :=
  ⟨rfl, rfl, fun _ held => held, (or_iff_left unmarked).symm⟩

theorem LiveArray.spared_load (kind : Kind) (slot : Slot) {contents : Contents ArrayId}
    (same : contents.kind = kind) : (named kind slot).Spared False (loaded slot contents false) where
  kind := same
  slot := rfl
  contents _ held := nomatch held
  dirty := iff_of_false Bool.false_ne_true (not_or.mpr ⟨Bool.false_ne_true, not_false⟩)

theorem LiveArray.Spared.touch {marked : Prop} {before after : LiveArray} (spared : before.Spared False after)
    (inMemory : after.isMaterialized = true) (mark : marked) : before.Spared marked after.touch where
  kind := by
    rw [← spared.kind]
    cases after <;> rfl
  slot := (slot?_touch after).trans spared.slot
  contents contents held := (contents?_touch after).trans (spared.contents contents held)
  dirty := ⟨fun _ => Or.inr mark, fun _ => (isDirty_touch after).trans inMemory⟩

namespace Heap

def Spares (marked : ArrayId → Prop) (heap after : Heap) : Prop :=
  ∀ (id : ArrayId) (array : LiveArray), heap.arrays[id]? = some array →
    ∃ array', after.arrays[id]? = some array' ∧ array.Spared (marked id) array'

variable {marked : ArrayId → Prop} {heap after : Heap}

theorem Spares.of_same (unmarked : ∀ id, ¬ marked id)
    (same : ∀ {id : ArrayId} {array : LiveArray}, heap.arrays[id]? = some array → after.arrays[id]? = some array) :
    heap.Spares marked after :=
  fun id array here => ⟨array, same here, .refl (unmarked id) array⟩

theorem Spares.congr {marked' : ArrayId → Prop} (spares : heap.Spares marked after)
    (same : ∀ id, marked id ↔ marked' id) : heap.Spares marked' after := by
  have equal : marked = marked' := funext fun id => propext (same id)
  exact equal ▸ spares

theorem Spares.touch (spares : heap.Spares (fun _ => False) after) {id : ArrayId} (inMemory : after.InMemory id) :
    heap.Spares (· = id) (after.update id .touch) := by
  intro other array here
  obtain ⟨array', there, spared⟩ := spares other array here
  obtain ⟨held, contents, there', inMemory⟩ := inMemory
  by_cases same : other = id
  · subst same
    rw [there] at there'
    cases there'
    have materialized : array'.isMaterialized = true := by
      rw [LiveArray.isMaterialized, inMemory]
      rfl
    exact ⟨_, arrays_update_self there, spared.touch materialized rfl⟩
  · refine ⟨array', ?_, spared.kind, spared.slot, spared.contents, ?_⟩
    · rw [arrays_update, if_neg (Ne.symm same), there]
    · exact spared.dirty.trans (or_congr_right (iff_of_false not_false same))

theorem Unreadable.not_refusal {read : Slot → Option Record} {allowed : Link → Prop} {id : ArrayId}
    {fault : Fault} (unreadable : heap.Unreadable read allowed id fault) :
    fault ≠ .typeMismatch ∧ fault ≠ .invalidIndex := by
  cases unreadable with
  | dangling | missing | rejected => exact ⟨Fault.noConfusion, Fault.noConfusion⟩
  | clash here stored decoded clash =>
    obtain ⟨rfl, _⟩ := clash
    exact ⟨Fault.noConfusion, Fault.noConfusion⟩

end Heap

namespace Workspace

open Heap

variable {σ : Type} [Storage σ] {workspace : Workspace σ}

theorem materialize_spares (indexed : workspace.heap.Indexed) (id : ArrayId) :
    Ends (materialize id workspace)
      (fun _ after => workspace.heap.Spares (fun _ => False) after.heap ∧ after.heap.InMemory id)
      (fun fault after => workspace.heap.Spares (fun _ => False) after.heap ∧
        fault ≠ .typeMismatch ∧ fault ≠ .invalidIndex) := by
  have unchanged : workspace.heap.Spares (fun _ => False) workspace.heap :=
    .of_same (fun _ => not_false) fun here => here
  apply materialize_cases
  · intro absent
    exact ⟨unchanged, Fault.noConfusion, Fault.noConfusion⟩
  · intro kind slot here
    refine (load_isolated indexed here).imp ?_ ?_
    · rintro _ after ⟨_, _, others, record, links, contents, _, _, same, _, now⟩
      refine ⟨fun other array was => ?_, _, contents, now, rfl⟩
      by_cases at' : other = id
      · subst at'
        rw [here] at was
        cases was
        exact ⟨_, now, LiveArray.spared_load kind slot same⟩
      · exact ⟨array, others at' was, .refl not_false array⟩
    · rintro fault after ⟨unopened, unreadable⟩
      exact ⟨.of_same (fun _ => not_false) unopened.same, unreadable.not_refusal⟩
  · intro array contents here held
    exact ⟨unchanged, array, contents, here, held⟩

end Workspace

namespace Invocation

open Heap

/-- Whether a call that fails with `fault` has marked the array `id` by then: a value is refused only after
    the array it was to be put into counts as changed. -/
def Marks (call : Call) (fault : Fault) (id : ArrayId) : Prop :=
  ∃ index value, call = .set id index value ∧ (fault = .typeMismatch ∨ fault = .invalidIndex ∧ ¬ index < 0)

variable {σ : Type} [Storage σ] {invocation : Invocation σ}

theorem marks_set_iff {id other : ArrayId} {index : Int32} {value : Value ArrayId} {fault : Fault}
    {contents : Contents ArrayId} {place : Nat} (positive : ¬ index < 0)
    (refused : contents.refusal? place value = some fault) :
    Marks (.set id index value) fault other ↔ other = id := by
  constructor
  · rintro ⟨_, _, same, _⟩
    cases same
    rfl
  · rintro rfl
    refine ⟨index, value, rfl, ?_⟩
    rcases Contents.fault_of_refusal? refused with outside | mismatch
    · exact Or.inr ⟨outside, positive⟩
    · exact Or.inl mismatch

omit [Storage σ] in
theorem Rejects.not_marks {call : Call} {fault : Fault} (rejects : Rejects invocation call fault) (id : ArrayId) :
    ¬ Marks call fault id := by
  rintro ⟨index, value, rfl, mismatch | ⟨outside, nonneg⟩⟩
  · cases rejects <;> cases mismatch
  · cases rejects with
    | absent => cases outside
    | negativeIndex inside negative => exact nonneg negative

theorem Fails.spares {call : Call} {fault : Fault} {last : Invocation σ} (fails : Fails invocation call fault last)
    (indexed : invocation.heap.Indexed) {target : ArrayId} (rewrites : rewritten? call = some target) :
    invocation.heap.Spares (Marks call fault) last.heap := by
  cases fails with
  | early rejects => exact .of_same rejects.not_marks fun here => here
  | unread subject checked failed =>
    obtain ⟨spares, kind, inside⟩ := (Workspace.materialize_spares indexed _).error failed
    refine Spares.congr spares fun id => iff_of_false not_false ?_
    rintro ⟨_, _, _, mismatch | ⟨outside, _⟩⟩
    · exact kind mismatch
    · exact inside outside
  | refused checked opens refused =>
    -- The value is looked at last, when the array counts as changed already.
    obtain ⟨spares, inMemory⟩ := (Workspace.materialize_spares indexed _).ok opens.read
    refine Spares.congr (spares.touch inMemory) fun _ => ?_
    exact (marks_set_iff (checked.nonneg _ _ _ rfl) refused).symm
  | look opens balks => cases balks <;> cases rewrites
  | unpaidCreation | negativeLength | unpaidCopy => cases rewrites

/-- A store that fails leaves kinds, slots and contents in memory alone. It leaves all marks alone as well if
    contents were to be replaced, or if what was wrong with a value was found before its array was marked. -/
theorem rejected_spares {storage : σ} {before after : Invocation σ} (reached : Reached storage before) {call : Call}
    {target : ArrayId} (rewrites : rewritten? call = some target) {fault : Fault}
    (failed : call.run before = .error fault after) :
    before.heap.Spares (fun id => before.exit? = none ∧ Marks call fault id) after.heap := by
  have indexed : before.heap.Indexed := @reached.sound.wellFormed.heap.indexed
  have rejected : Ends (call.run before) (fun _ _ => True) fun fault after =>
      before.heap.Spares (fun id => before.exit? = none ∧ Marks call fault id) after.heap := by
    apply run_cases
    · intro fault halted _
      refine .of_same (fun id marks => ?_) fun here => here
      cases halted.symm.trans marks.1
    · intro _
      trivial
    · intro _ _ _ _
      trivial
    · intro fault last running fails
      exact Spares.congr (fails.spares indexed rewrites) fun id => (and_iff_right running).symm
  exact rejected.error failed

def parentRead : Invocation Memory :=
  (Call.runAll [.load ⟨0⟩ .reference, .get 0 0] (start 0 .free parentAndChild)).2

/-- There is nothing at index 1. The parent will be written back all the same. -/
theorem rejected_parentRead :
    parentRead.heap.arrays[0]? = some (.loaded ⟨0⟩ (.references #[some 1]) false) ∧
    ∃ after, (Call.set 0 1 (.reference none)).run parentRead = .error .invalidIndex after ∧
      ∃ array, after.heap.arrays[0]? = some array ∧ array.slot? = some ⟨0⟩ ∧
        array.contents? = some (.references #[some 1]) ∧ array.isDirty = true := by
  have running : parentRead.exit? = none := by decide +kernel
  have parent : parentRead.heap.arrays[0]? = some (.loaded ⟨0⟩ (.references #[some 1]) false) := by
    decide +kernel
  have ran : Ends ((Call.set 0 1 (.reference none)).run parentRead) (fun _ _ => False)
      fun fault _ => fault = .invalidIndex := by decide +kernel
  obtain ⟨_, after, failed, rfl⟩ := ran.exists_error fun _ _ => not_false
  have marks : Marks (.set 0 1 (.reference none)) .invalidIndex 0 := ⟨1, _, rfl, by decide⟩
  obtain ⟨array, now, spared⟩ := rejected_spares ⟨0, .free, _, rfl⟩ rfl failed 0 _ parent
  exact ⟨parent, after, failed, array, now, spared.slot, spared.contents _ rfl,
    spared.dirty.mpr (Or.inr ⟨running, marks⟩)⟩

end Invocation

end MeteredArrays
