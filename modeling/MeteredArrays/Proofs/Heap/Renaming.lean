import Mathlib.Data.Set.Function
import MeteredArrays.Proofs.Heap.Assigning
import MeteredArrays.Proofs.Heap.Walk

namespace MeteredArrays

def LiveArray.map (rename : ArrayId → ArrayId) : LiveArray → LiveArray
  | fresh contents dirty => fresh (contents.map rename) dirty
  | named kind slot => named kind slot
  | loaded slot contents dirty => loaded slot (contents.map rename) dirty

namespace LiveArray

variable (rename : ArrayId → ArrayId) (array : LiveArray)

@[simp]
theorem kind_map : (array.map rename).kind = array.kind := by
  cases array <;> simp [map, kind]

@[simp]
theorem slot?_map : (array.map rename).slot? = array.slot? := by
  cases array <;> rfl

@[simp]
theorem contents?_map : (array.map rename).contents? = array.contents?.map (Contents.map rename) := by
  cases array <;> rfl

@[simp]
theorem needsWriting_map : (array.map rename).needsWriting = array.needsWriting := by
  cases array <;> rfl

@[simp]
theorem isMaterialized_map : (array.map rename).isMaterialized = array.isMaterialized := by
  cases array <;> rfl

theorem bind_map (slot : Slot) : (array.map rename).bind slot = (array.bind slot).map rename := by
  cases array <;> rfl

theorem clean_map : (array.map rename).clean = array.clean.map rename := by
  cases array <;> rfl

end LiveArray

namespace Heap

/-- Two heaps that agree, up to the names of arrays, on the arrays in `among` and on nothing else. -/
structure Alike (rename : ArrayId → ArrayId) (among : Set ArrayId) (heap heap' : Heap) : Prop where
  injective : Set.InjOn rename among
  closed : ∀ id ∈ among, ∀ target ∈ heap.targets id, target ∈ among
  arrays : ∀ id ∈ among, heap'.arrays[rename id]? = heap.arrays[id]?.map (LiveArray.map rename)

namespace Alike

variable {rename : ArrayId → ArrayId} {among : Set ArrayId} {heap heap' : Heap} {id : ArrayId}

theorem inside_iff (alike : Alike rename among heap heap') (member : id ∈ among) :
    rename id < heap'.arrays.size ↔ id < heap.arrays.size := by
  rw [← not_le, ← not_le, ← Array.getElem?_eq_none_iff, ← Array.getElem?_eq_none_iff, alike.arrays id member,
    Option.map_eq_none_iff]

theorem targets (alike : Alike rename among heap heap') (member : id ∈ among) :
    heap'.targets (rename id) = (heap.targets id).map rename := by
  rw [Heap.targets, alike.arrays id member, Heap.targets]
  cases heap.arrays[id]? with
  | none => rfl
  | some array => cases held : array.contents? <;> simp [held, Contents.targets_map]

theorem find (alike : Alike rename among heap heap') (member : id ∈ among) :
    heap'.find (rename id) = LiveArray.map rename <$> heap.find id := by
  rw [Heap.find, alike.arrays id member, Heap.find]
  cases heap.arrays[id]? <;> rfl

theorem needsWriting (alike : Alike rename among heap heap') (member : id ∈ among) :
    heap'.needsWriting (rename id) = heap.needsWriting id := by
  rw [Heap.needsWriting, alike.arrays id member, Heap.needsWriting]
  cases heap.arrays[id]? <;> simp

theorem link (alike : Alike rename among heap heap') (member : id ∈ among) :
    heap'.link (rename id) = heap.link id := by
  rw [Heap.link, alike.find member, Heap.link]
  cases heap.find id with
  | error => rfl
  | ok array =>
    simp only [Functor.map, Except.map, Bind.bind, Except.bind, LiveArray.slot?_map, LiveArray.kind_map]

theorem record (alike : Alike rename among heap heap') (member : id ∈ among) :
    heap'.record (rename id) = heap.record id := by
  rw [Heap.record, alike.find member, Heap.record]
  cases here : heap.arrays[id]? with
  | none =>
    rw [find_of_none here]
    rfl
  | some array =>
    have encoded : ∀ contents, array.contents? = some contents →
        Record.encode heap'.link (contents.map rename) = Record.encode heap.link contents := by
      intro contents held
      refine congrArg _ (Contents.traverse_map fun target listed => alike.link ?_)
      exact alike.closed id member target (mem_targets.mpr ⟨array, contents, here, held, listed⟩)
    rw [find_eq_ok.mpr here]
    cases array with
    | fresh | named => rfl
    | loaded slot contents dirty =>
      simp only [Functor.map, Except.map, Bind.bind, Except.bind, LiveArray.map, LiveArray.slot?,
        LiveArray.contents?, encoded contents rfl]

theorem change (alike : Alike rename among heap heap') (member : id ∈ among) {next next' : Heap}
    {update : LiveArray → LiveArray}
    (contents : ∀ array, (update array).contents? = array.contents?)
    (commutes : ∀ array, update (array.map rename) = (update array).map rename)
    (changed : ∀ other, next.arrays[other]? =
      if id = other then heap.arrays[other]?.map update else heap.arrays[other]?)
    (changed' : ∀ other, next'.arrays[other]? =
      if rename id = other then heap'.arrays[other]?.map update else heap'.arrays[other]?) :
    Alike rename among next next' where
  injective := alike.injective
  closed other inside target member := by
    refine alike.closed other inside target ?_
    have same : next.targets other = heap.targets other := by
      rw [Heap.targets, changed, Heap.targets]
      split
      · cases heap.arrays[other]? <;> simp [contents]
      · rfl
    rwa [← same]
  arrays other inside := by
    rw [changed, changed', alike.arrays other inside]
    by_cases same : id = other
    · subst other
      rw [if_pos rfl, if_pos rfl]
      cases heap.arrays[id]? <;> simp [commutes]
    · rw [if_neg same, if_neg fun renamed => same (alike.injective member inside renamed)]

end Alike

def Tour.map (rename : ArrayId → ArrayId) (tour : Tour) : Tour :=
  { tour with order := tour.order.map rename }

def SameMarks (rename : ArrayId → ArrayId) (among : Set ArrayId) {heap heap' : Heap} (marks : Marks heap)
    (marks' : Marks heap') : Prop :=
  ∀ id ∈ among, Marks.has marks' (rename id) = Marks.has marks id

variable {rename : ArrayId → ArrayId} {among : Set ArrayId} {heap heap' : Heap} {marks : Marks heap}
  {marks' : Marks heap'} {id : ArrayId}

theorem has_of_inside (marks : Marks heap) (inside : id < heap.arrays.size) : Marks.has marks id = marks[id] := by
  simp [Marks.has, inside]

theorem walkOn_enter {array : LiveArray} (here : heap.arrays[id]? = some array)
    (unmet : Marks.has marks id = false) (held : array.isMaterialized = true) (entered : List ArrayId)
    (steps : Nat) (agenda : List ArrayId) :
    walkOn heap marks entered steps (id :: agenda) =
      walkOn heap (marks.set id true (lt_size here)) (id :: entered) (steps + 1)
        ((heap.targets id).filter (fun target => !Marks.has (marks.set id true (lt_size here)) target) ++ agenda) := by
  obtain ⟨inside, rfl⟩ := Array.getElem?_eq_some_iff.mp here
  rw [has_of_inside marks inside] at unmet
  rw [walkOn, dif_pos inside, dif_pos unmet, if_pos held]

theorem walkOn_pass {array : LiveArray} (here : heap.arrays[id]? = some array)
    (unmet : Marks.has marks id = false) (unheld : array.isMaterialized = false) (entered : List ArrayId)
    (steps : Nat) (agenda : List ArrayId) :
    walkOn heap marks entered steps (id :: agenda) =
      walkOn heap (marks.set id true (lt_size here)) entered (steps + 1) agenda := by
  obtain ⟨inside, rfl⟩ := Array.getElem?_eq_some_iff.mp here
  rw [has_of_inside marks inside] at unmet
  rw [walkOn, dif_pos inside, dif_pos unmet, if_neg (by rw [unheld]; exact Bool.false_ne_true)]

theorem walkOn_drop (met : Marks.has marks id = true) (inside : id < heap.arrays.size) (entered : List ArrayId)
    (steps : Nat) (agenda : List ArrayId) :
    walkOn heap marks entered steps (id :: agenda) = walkOn heap marks entered (steps + 1) agenda := by
  rw [has_of_inside marks inside] at met
  rw [walkOn, dif_pos inside, dif_neg (by rw [met]; exact Bool.noConfusion)]

theorem walkOn_dangling (outside : ¬ id < heap.arrays.size) (entered : List ArrayId) (steps : Nat)
    (agenda : List ArrayId) :
    walkOn heap marks entered steps (id :: agenda) = ⟨entered.reverse, steps + 1, some .danglingReference⟩ := by
  rw [walkOn, dif_neg outside]

theorem SameMarks.set (same : SameMarks rename among marks marks') (alike : Alike rename among heap heap')
    (member : id ∈ among) (inside : id < heap.arrays.size) (inside' : rename id < heap'.arrays.size) :
    SameMarks rename among (marks.set id true) (marks'.set (rename id) true) := by
  intro other known
  by_cases met : other = id
  · subst other
    rw [Marks.has_set_self marks inside, Marks.has_set_self marks' inside']
  · have met' : rename other ≠ rename id := fun renamed => met (alike.injective known member renamed)
    rw [Marks.has_set_of_ne marks inside met, Marks.has_set_of_ne marks' inside' met', same other known]

theorem SameMarks.unmet (same : SameMarks rename among marks marks') (alike : Alike rename among heap heap')
    (member : id ∈ among) :
    (heap'.targets (rename id)).filter (fun target => !Marks.has marks' target) =
      ((heap.targets id).filter fun target => !Marks.has marks target).map rename := by
  rw [alike.targets member, List.filter_map]
  refine congrArg _ (List.filter_congr fun target listed => ?_)
  exact congrArg _ (same target (alike.closed id member target listed))

theorem walkOn_map (alike : Alike rename among heap heap') (marks : Marks heap) (marks' : Marks heap')
    (entered : List ArrayId) (steps : Nat) (agenda : List ArrayId) (same : SameMarks rename among marks marks')
    (known : ∀ id ∈ agenda, id ∈ among) :
    walkOn heap' marks' (entered.map rename) steps (agenda.map rename) =
      (walkOn heap marks entered steps agenda).map rename := by
  -- The marks agree at every step, so both walks put the same references on their agendas.
  fun_induction walkOn heap marks entered steps agenda generalizing marks' with
  | case1 marks entered steps => rw [List.map_nil, walkOn, Tour.map, List.map_reverse]
  | case2 marks entered steps id agenda inside fresh marks₁ inMemory children ih =>
    have member := known id List.mem_cons_self
    have here := alike.arrays id member
    rw [Array.getElem?_eq_getElem inside, Option.map_some] at here
    have unmet := (same id member).trans ((has_of_inside marks inside).trans fresh)
    have same' : SameMarks rename among marks₁ _ := same.set alike member inside (lt_size here)
    rw [List.map_cons, walkOn_enter here unmet (by simpa using inMemory), same'.unmet alike member,
      ← List.map_cons, ← List.map_append]
    refine ih _ same' fun other listed => ?_
    rcases List.mem_append.mp listed with child | later
    · exact alike.closed id member other (List.mem_of_mem_filter child)
    · exact known other (List.mem_cons_of_mem _ later)
  | case3 marks entered steps id agenda inside fresh marks₁ absent ih =>
    have member := known id List.mem_cons_self
    have here := alike.arrays id member
    rw [Array.getElem?_eq_getElem inside, Option.map_some] at here
    have unmet := (same id member).trans ((has_of_inside marks inside).trans fresh)
    rw [List.map_cons, walkOn_pass here unmet (by simpa using absent)]
    exact ih _ (same.set alike member inside (lt_size here)) fun other later =>
      known other (List.mem_cons_of_mem _ later)
  | case4 marks entered steps id agenda inside met ih =>
    have member := known id List.mem_cons_self
    have met' := (same id member).trans ((has_of_inside marks inside).trans (Bool.eq_true_of_not_eq_false met))
    rw [List.map_cons, walkOn_drop met' ((alike.inside_iff member).mpr inside)]
    exact ih _ same fun other later => known other (List.mem_cons_of_mem _ later)
  | case5 marks entered steps id agenda outside =>
    have member := known id List.mem_cons_self
    rw [List.map_cons, walkOn_dangling (mt (alike.inside_iff member).mp outside), Tour.map, List.map_reverse]

theorem has_none (heap : Heap) (id : ArrayId) : Marks.has (Marks.none : Marks heap) id = false := by
  unfold Marks.has Marks.none
  rw [Vector.getElem?_replicate]
  split <;> rfl

theorem walk_map (alike : Alike rename among heap heap') {roots : List ArrayId}
    (known : ∀ root ∈ roots, root ∈ among) : heap'.walk (roots.map rename) = (heap.walk roots).map rename :=
  walkOn_map alike _ _ [] 0 roots (fun id _ => (has_none heap' (rename id)).trans (has_none heap id).symm) known

theorem walkOn_order (closed : ∀ id ∈ among, ∀ target ∈ heap.targets id, target ∈ among) (marks : Marks heap)
    (entered : List ArrayId) (steps : Nat) (agenda : List ArrayId) (before : ∀ id ∈ entered, id ∈ among)
    (known : ∀ id ∈ agenda, id ∈ among) :
    ∀ id ∈ (walkOn heap marks entered steps agenda).order, id ∈ among := by
  fun_induction walkOn heap marks entered steps agenda with
  | case1 marks entered steps => exact fun id listed => before id (List.mem_reverse.mp listed)
  | case2 marks entered steps id agenda inside fresh marks₁ inMemory children ih =>
    have member := known id List.mem_cons_self
    refine ih (fun other listed => ?_) fun other listed => ?_
    · rcases List.mem_cons.mp listed with rfl | earlier
      · exact member
      · exact before other earlier
    · rcases List.mem_append.mp listed with child | later
      · exact closed id member other (List.mem_of_mem_filter child)
      · exact known other (List.mem_cons_of_mem _ later)
  | case3 marks entered steps id agenda inside fresh marks₁ absent ih =>
    exact ih before fun other later => known other (List.mem_cons_of_mem _ later)
  | case4 marks entered steps id agenda inside met ih =>
    exact ih before fun other later => known other (List.mem_cons_of_mem _ later)
  | case5 marks entered steps id agenda outside => exact fun id listed => before id (List.mem_reverse.mp listed)

end Heap

end MeteredArrays
