import MeteredArrays.Proofs.Heap.Renaming

namespace MeteredArrays.Heap

variable {heap : Heap} {marks : Marks heap} {visited : List ArrayId} {id : ArrayId}

/-- A walk as a bare loop: it keeps the ids visited in a list, and nothing but the limit on the ids that it takes makes
    it end. `none` if it reaches the limit with ids left on its agenda. -/
def walkWithin (heap : Heap) :
    (limit : Nat) → (visited entered : List ArrayId) → (steps : Nat) → (agenda : List ArrayId) → Option Tour
  | _, _, entered, steps, [] => some ⟨entered.reverse, steps, none⟩
  | 0, _, _, _, _ :: _ => none
  | limit + 1, visited, entered, steps, id :: agenda =>
    if id ∈ visited then walkWithin heap limit visited entered (steps + 1) agenda
    else
      match heap.find id with
      | .error fault => some ⟨entered.reverse, steps + 1, some fault⟩
      | .ok array =>
        match array.contents? with
        | none => walkWithin heap limit (id :: visited) entered (steps + 1) agenda
        | some contents =>
          walkWithin heap limit (id :: visited) (id :: entered) (steps + 1)
            (contents.targets.filter (· ∉ id :: visited) ++ agenda)

theorem le_steps_walkOn (marks : Marks heap) (entered : List ArrayId) (steps : Nat) (agenda : List ArrayId) :
    steps ≤ (walkOn heap marks entered steps agenda).steps := by
  fun_induction walkOn with
  | case1 => exact Nat.le_refl _
  | case2 marks entered steps id agenda here fresh marks' inMemory children ih => exact Nat.le_of_succ_le ih
  | case3 marks entered steps id agenda here fresh marks' absent ih => exact Nat.le_of_succ_le ih
  | case4 marks entered steps id agenda here met ih => exact Nat.le_of_succ_le ih
  | case5 => exact Nat.le_succ _

theorem lt_steps_walkOn (marks : Marks heap) (entered : List ArrayId) (steps : Nat) (id : ArrayId)
    (agenda : List ArrayId) : steps < (walkOn heap marks entered steps (id :: agenda)).steps := by
  rw [walkOn]
  split
  · split
    · dsimp only
      split <;> exact le_steps_walkOn _ _ _ _
    · exact le_steps_walkOn _ _ _ _
  · exact Nat.lt_succ_self _

theorem walkOn_steps_bound (marks : Marks heap) (entered : List ArrayId) (steps : Nat) (agenda : List ArrayId) :
    (walkOn heap marks entered steps agenda).steps + (entered.flatMap heap.targets).length ≤
      steps + agenda.length + ((walkOn heap marks entered steps agenda).order.flatMap heap.targets).length := by
  have reversed : ∀ ids : List ArrayId,
      (ids.reverse.flatMap heap.targets).length = (ids.flatMap heap.targets).length :=
    fun ids => (ids.reverse_perm.flatMap_right heap.targets).length_eq
  -- Entering an array puts no more on the agenda than the references that it adds on the other side.
  fun_induction walkOn with
  | case1 marks entered steps =>
    rw [reversed]
    exact Nat.le_refl _
  | case2 marks entered steps id agenda here fresh marks' inMemory children ih =>
    have fewer : children.length ≤ (heap.targets id).length := List.length_filter_le _ _
    rw [List.flatMap_cons, List.length_append, List.length_append] at ih
    rw [List.length_cons]
    omega
  | case3 marks entered steps id agenda here fresh marks' absent ih
  | case4 marks entered steps id agenda here met ih =>
    rw [List.length_cons]
    omega
  | case5 marks entered steps id agenda outside =>
    rw [reversed, List.length_cons]
    dsimp only
    omega

def Marks.Lists (marks : Marks heap) (visited : List ArrayId) : Prop :=
  ∀ id, Marks.has marks id = decide (id ∈ visited)

theorem Marks.Lists.set (lists : marks.Lists visited) (inside : id < heap.arrays.size) :
    @Marks.Lists heap (marks.set id true) (id :: visited) := by
  intro other
  rw [Bool.eq_iff_iff, has_set marks inside, lists other, decide_eq_true_iff, decide_eq_true_iff, List.mem_cons]

theorem Marks.Lists.unmet (lists : marks.Lists visited) (targets : List ArrayId) :
    targets.filter (fun target => !Marks.has marks target) = targets.filter (· ∉ visited) := by
  apply List.filter_congr
  intro target _
  rw [lists target, decide_not]

theorem targets_of_contents? {array : LiveArray} {contents : Contents ArrayId}
    (here : heap.arrays[id]? = some array) (held : array.contents? = some contents) :
    heap.targets id = contents.targets := by
  rw [targets, here, Option.bind_some, held]
  rfl

theorem walkWithin_eq (limit : Nat) (visited : List ArrayId) (marks : Marks heap) (entered : List ArrayId)
    (steps : Nat) (agenda : List ArrayId) (lists : marks.Lists visited) :
    heap.walkWithin limit visited entered steps agenda =
      if (walkOn heap marks entered steps agenda).steps ≤ limit + steps then
        some (walkOn heap marks entered steps agenda)
      else none := by
  -- Each round takes one off the limit and adds one to the steps.
  fun_induction walkWithin generalizing marks with
  | case1 limit visited entered steps =>
    rw [walkOn]
    exact (if_pos (Nat.le_add_left _ _)).symm
  | case2 visited entered steps id agenda =>
    have more := lt_steps_walkOn marks entered steps id agenda
    rw [Nat.zero_add, if_neg (Nat.not_le.mpr more)]
  | case3 limit visited entered steps id agenda old ih =>
    have met : Marks.has marks id = true := (lists id).trans (decide_eq_true old)
    rw [walkOn_drop met (lt_size_of_has met), Nat.succ_add_eq_add_succ]
    exact ih marks lists
  | case4 limit visited entered steps id agenda new fault missing =>
    have outside : ¬ id < heap.size := by
      intro inside
      obtain ⟨array, here⟩ := exists_of_lt inside
      cases (find_eq_ok.mpr here).symm.trans missing
    rw [find_of_none (Array.getElem?_eq_none (Nat.le_of_not_lt outside))] at missing
    cases missing
    rw [walkOn_dangling outside, Nat.succ_add_eq_add_succ]
    exact (if_pos (Nat.le_add_left _ _)).symm
  | case5 limit visited entered steps id agenda new array found held ih =>
    have here := find_eq_ok.mp found
    have unmet : Marks.has marks id = false := (lists id).trans (decide_eq_false new)
    have unread : array.isMaterialized = false := by rw [LiveArray.isMaterialized, held]; rfl
    rw [walkOn_pass here unmet unread, Nat.succ_add_eq_add_succ]
    exact ih _ (lists.set (lt_size here))
  | case6 limit visited entered steps id agenda new array found contents held ih =>
    have here := find_eq_ok.mp found
    have unmet : Marks.has marks id = false := (lists id).trans (decide_eq_false new)
    have read : array.isMaterialized = true := by rw [LiveArray.isMaterialized, held]; rfl
    have lists' : @Marks.Lists heap (marks.set id true (lt_size here)) (id :: visited) := lists.set (lt_size here)
    rw [walkOn_enter here unmet read, Nat.succ_add_eq_add_succ, lists'.unmet, targets_of_contents? here held]
    exact ih _ lists'

/-- A walk ends on every heap and for all roots, whatever cycles, repetitions and ids that are not on the heap there
    are. It takes `steps` ids off its agenda, neither more nor less: the bare loop gets to its end, and to the same one,
    exactly if it may take that many. No array is entered twice, and the ids taken are at most as many as the roots and
    the references of the arrays entered. -/
theorem walk_bounded (heap : Heap) (roots : List ArrayId) :
    (∀ limit, heap.walkWithin limit [] [] 0 roots =
      if (heap.walk roots).steps ≤ limit then some (heap.walk roots) else none) ∧
    (heap.walk roots).order.Nodup ∧
    (heap.walk roots).steps ≤ roots.length + ((heap.walk roots).order.flatMap heap.targets).length := by
  refine ⟨fun limit => ?_, walk_nodup heap roots, ?_⟩
  · have unmarked : (Marks.none : Marks heap).Lists [] := fun id => has_none heap id
    exact walkWithin_eq limit [] Marks.none [] 0 roots unmarked
  · have bound := walkOn_steps_bound (Marks.none : Marks heap) [] 0 roots
    rw [List.flatMap_nil, List.length_nil, Nat.add_zero, Nat.zero_add] at bound
    exact bound

/-- An id can be on the agenda any number of times, so the bound is met. -/
example : (walk ⟨#[.fresh (.references #[some 1, some 1, none]) false, .fresh (.scalars .int #[5]) false], ∅⟩
    [0, 0]).steps = 2 + 2 := by
  decide +kernel

end MeteredArrays.Heap
