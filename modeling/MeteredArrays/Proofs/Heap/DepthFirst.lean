import Mathlib.Data.Finset.Card
import Mathlib.Data.List.Dedup
import MeteredArrays.Proofs.Heap.Assigning
import MeteredArrays.Proofs.Heap.Renaming
import MeteredArrays.Proofs.Heap.Walk

namespace MeteredArrays.Heap

structure Survey where
  visited : List ArrayId
  unbound : List ArrayId
  pending : List ArrayId

namespace Survey

def none : Survey := ⟨[], [], []⟩

def pass (survey : Survey) (id : ArrayId) : Survey :=
  { survey with visited := survey.visited ++ [id] }

def enter (survey : Survey) (id : ArrayId) (array : LiveArray) : Survey where
  visited := survey.visited ++ [id]
  unbound := if array.isBound then survey.unbound else survey.unbound ++ [id]
  pending := if !array.isBound || array.isDirty then survey.pending ++ [id] else survey.pending

abbrev Later (survey : Survey) : Type :=
  { after : Survey // survey.visited ⊆ after.visited }

def Later.of {survey middle : Survey} (more : survey.visited ⊆ middle.visited) (later : middle.Later) : survey.Later :=
  ⟨later.val, List.Subset.trans more later.property⟩

@[simp]
theorem Later.val_of {survey middle : Survey} (more : survey.visited ⊆ middle.visited) (later : middle.Later) :
    (later.of more).val = later.val := rfl

theorem visited_subset_pass (survey : Survey) (id : ArrayId) : survey.visited ⊆ (survey.pass id).visited :=
  List.subset_append_left _ _

theorem visited_subset_enter (survey : Survey) (id : ArrayId) (array : LiveArray) :
    survey.visited ⊆ (survey.enter id array).visited :=
  List.subset_append_left _ _

end Survey

def unvisited (heap : Heap) (visited : List ArrayId) : Nat :=
  (Finset.range heap.size \ visited.toFinset).card

variable {heap : Heap} {visited : List ArrayId} {id : ArrayId}

theorem unvisited_le {later : List ArrayId} (subset : visited ⊆ later) :
    heap.unvisited later ≤ heap.unvisited visited := by
  apply Finset.card_le_card
  intro id member
  simp only [Finset.mem_sdiff, List.mem_toFinset] at member ⊢
  exact ⟨member.1, fun old => member.2 (subset old)⟩

theorem unvisited_lt {later : List ArrayId} (inside : id < heap.size) (new : id ∉ visited)
    (subset : visited ++ [id] ⊆ later) : heap.unvisited later < heap.unvisited visited := by
  apply Nat.lt_of_le_of_lt (unvisited_le subset)
  apply Finset.card_lt_card
  constructor
  · intro other member
    simp only [Finset.mem_sdiff, List.mem_toFinset, List.mem_append] at member ⊢
    exact ⟨member.1, fun old => member.2 (Or.inl old)⟩
  · intro equal
    have here : id ∈ Finset.range heap.size \ visited.toFinset := by
      simp only [Finset.mem_sdiff, Finset.mem_range, List.mem_toFinset]
      exact ⟨inside, new⟩
    have gone := equal here
    simp at gone

/-- Visits arrays one after the other, each with everything that it refers to before the next. An array that was
    visited before is not visited again. -/
def visitAll (heap : Heap) (survey : Survey) : (ids : List ArrayId) → survey.Later
  | [] => ⟨survey, List.Subset.refl _⟩
  | id :: ids =>
    if id ∈ survey.visited then visitAll heap survey ids
    else if inside : id < heap.arrays.size then
      match heap.arrays[id].contents? with
      | .none => (visitAll heap (survey.pass id) ids).of (survey.visited_subset_pass id)
      | some contents =>
        match visitAll heap (survey.enter id heap.arrays[id]) contents.targets with
        | ⟨children, more⟩ =>
          (visitAll heap children ids).of
            (List.Subset.trans (survey.visited_subset_enter id heap.arrays[id]) more)
    else visitAll heap survey ids
termination_by ids => (heap.unvisited survey.visited, ids.length)
decreasing_by
  · exact Prod.Lex.right _ (Nat.lt_succ_self _)
  · exact Prod.Lex.left _ _ (unvisited_lt inside ‹_› (List.Subset.refl _))
  · exact Prod.Lex.left _ _ (unvisited_lt inside ‹_› (List.Subset.refl _))
  · exact Prod.Lex.left _ _ (unvisited_lt inside ‹_› more)
  · exact Prod.Lex.right _ (Nat.lt_succ_self _)

def isRead (heap : Heap) (id : ArrayId) : Bool :=
  heap.arrays[id]?.any LiveArray.isMaterialized

def meetsOn (heap : Heap) (marks : Marks heap) : (agenda : List ArrayId) → List ArrayId
  | [] => []
  | id :: agenda =>
    if inside : id < heap.arrays.size then
      if fresh : marks[id] = false then
        let met := marks.set id true
        if heap.isRead id then
          id :: meetsOn heap met ((heap.targets id).filter (fun target => !Marks.has met target) ++ agenda)
        else id :: meetsOn heap met agenda
      else meetsOn heap marks agenda
    else []
termination_by agenda => Marks.unfollowed marks + agenda.length
decreasing_by
  · have fewer := Marks.unfollowed_set marks inside fresh
    simp only [List.length_append, List.length_cons]
    refine Nat.lt_of_le_of_lt
      (Nat.add_le_add_left (Nat.add_le_add_right (List.length_filter_le _ _) _) _) ?_
    omega
  · have fewer := Marks.unfollowed_set marks inside fresh
    simp only [List.length_cons]
    omega
  · simp only [List.length_cons]
    omega

variable {marks : Marks heap}

theorem isRead_of_inside (inside : id < heap.arrays.size) : heap.isRead id = heap.arrays[id].isMaterialized := by
  rw [isRead, Array.getElem?_eq_getElem inside, Option.any_some]

theorem meetsOn_enter (inside : id < heap.arrays.size) (unmet : Marks.has marks id = false)
    (read : heap.isRead id = true) (agenda : List ArrayId) :
    meetsOn heap marks (id :: agenda) = id :: meetsOn heap (marks.set id true)
      ((heap.targets id).filter (fun target => !Marks.has (marks.set id true) target) ++ agenda) := by
  rw [has_of_inside marks inside] at unmet
  rw [meetsOn, dif_pos inside, dif_pos unmet]
  exact if_pos read

theorem meetsOn_pass (inside : id < heap.arrays.size) (unmet : Marks.has marks id = false)
    (unread : heap.isRead id = false) (agenda : List ArrayId) :
    meetsOn heap marks (id :: agenda) = id :: meetsOn heap (marks.set id true) agenda := by
  rw [has_of_inside marks inside] at unmet
  rw [meetsOn, dif_pos inside, dif_pos unmet]
  exact if_neg (by rw [unread]; exact Bool.false_ne_true)

theorem meetsOn_drop (inside : id < heap.arrays.size) (met : Marks.has marks id = true) (agenda : List ArrayId) :
    meetsOn heap marks (id :: agenda) = meetsOn heap marks agenda := by
  rw [has_of_inside marks inside] at met
  rw [meetsOn, dif_pos inside, dif_neg (by rw [met]; exact Bool.noConfusion)]

def Closed (heap : Heap) : Prop :=
  ∀ {id target : ArrayId}, target ∈ heap.targets id → target < heap.size

theorem walkOn_meets (closed : heap.Closed) (marks : Marks heap) (entered : List ArrayId) (steps : Nat)
    (agenda : List ArrayId) (inside : ∀ id ∈ agenda, id < heap.size) :
    (walkOn heap marks entered steps agenda).fault? = none ∧
      (walkOn heap marks entered steps agenda).order =
        entered.reverse ++ (meetsOn heap marks agenda).filter heap.isRead := by
  fun_induction walkOn with
  | case1 marks entered steps =>
    rw [meetsOn, List.filter_nil, List.append_nil]
    exact ⟨rfl, rfl⟩
  | case2 marks entered steps id agenda here fresh met inMemory children ih =>
    have read : heap.isRead id = true := (isRead_of_inside here).trans inMemory
    rw [meetsOn_enter here ((has_of_inside marks here).trans fresh) read, List.filter_cons_of_pos read]
    have rest := ih fun other listed => by
      rcases List.mem_append.mp listed with child | later
      · exact closed (List.mem_of_mem_filter child)
      · exact inside other (List.mem_cons_of_mem _ later)
    rw [List.reverse_cons, List.append_assoc] at rest
    exact rest
  | case3 marks entered steps id agenda here fresh met absent ih =>
    have unread : heap.isRead id = false := (isRead_of_inside here).trans (Bool.eq_false_of_not_eq_true absent)
    rw [meetsOn_pass here ((has_of_inside marks here).trans fresh) unread,
      List.filter_cons_of_neg (by rw [unread]; exact Bool.false_ne_true)]
    exact ih fun other later => inside other (List.mem_cons_of_mem _ later)
  | case4 marks entered steps id agenda here known ih =>
    rw [meetsOn_drop here ((has_of_inside marks here).trans (Bool.eq_true_of_not_eq_false known))]
    exact ih fun other later => inside other (List.mem_cons_of_mem _ later)
  | case5 marks entered steps id agenda outside =>
    exact absurd (inside id List.mem_cons_self) outside

def Marks.Agree (marks : Marks heap) (survey : Survey) : Prop :=
  ∀ id, Marks.has marks id = true ↔ id ∈ survey.visited

theorem Marks.Agree.unmet {survey : Survey} (agree : marks.Agree survey) (new : id ∉ survey.visited) :
    Marks.has marks id = false :=
  Bool.eq_false_of_not_eq_true fun met => new ((agree id).mp met)

theorem Marks.Agree.set {survey after : Survey} (agree : marks.Agree survey) (inside : id < heap.arrays.size)
    (visited : after.visited = survey.visited ++ [id]) : @Marks.Agree heap (marks.set id true) after := by
  intro other
  rw [has_set marks inside, agree other, visited, List.mem_append, List.mem_singleton, or_comm]

/-- Taking ids off an agenda comes to the same as visiting them recursively. Those that are not put on the agenda
    because they are marked by then have been visited. -/
theorem meetsOn_visitAll (closed : heap.Closed) (survey : Survey) (ids : List ArrayId)
    (inside : ∀ id ∈ ids, id < heap.size) (agree : marks.Agree survey) (keep : ArrayId → Bool)
    (dropped : ∀ id, keep id = false → id ∈ survey.visited) (rest : List ArrayId) :
    ∃ marks' : Marks heap, marks'.Agree (visitAll heap survey ids).val ∧
      survey.visited ++ meetsOn heap marks (ids.filter keep ++ rest) =
        (visitAll heap survey ids).val.visited ++ meetsOn heap marks' rest := by
  fun_induction visitAll generalizing marks keep rest with
  | case1 survey => exact ⟨marks, agree, rfl⟩
  | case2 survey id ids known ih =>
    have others := ih (fun other later => inside other (List.mem_cons_of_mem _ later)) agree keep dropped rest
    cases kept : keep id with
    | false =>
      rw [List.filter_cons_of_neg (by rw [kept]; exact Bool.false_ne_true)]
      exact others
    | true =>
      rw [List.filter_cons_of_pos kept, List.cons_append,
        meetsOn_drop (inside id List.mem_cons_self) ((agree id).mpr known)]
      exact others
  | case3 survey id ids new here absent ih =>
    have kept : keep id = true := Bool.eq_true_of_not_eq_false fun gone => new (dropped id gone)
    have unread : heap.isRead id = false := by
      rw [isRead_of_inside here, LiveArray.isMaterialized, absent]
      rfl
    have others := ih (fun other later => inside other (List.mem_cons_of_mem _ later)) (agree.set here rfl) keep
      (fun other gone => List.mem_append_left _ (dropped other gone)) rest
    rw [List.filter_cons_of_pos kept, List.cons_append, meetsOn_pass here (agree.unmet new) unread]
    obtain ⟨marks', agree', same⟩ := others
    refine ⟨marks', agree', ?_⟩
    rw [Survey.Later.val_of, ← same]
    simp [Survey.pass]
  | case4 survey id ids new here contents held children more visited ih ih' =>
    have kept : keep id = true := Bool.eq_true_of_not_eq_false fun gone => new (dropped id gone)
    have read : heap.isRead id = true := by
      rw [isRead_of_inside here, LiveArray.isMaterialized, held]
      rfl
    have targets : heap.targets id = contents.targets := by
      rw [Heap.targets, Array.getElem?_eq_getElem here, Option.bind_some, held]
      rfl
    rw [List.filter_cons_of_pos kept, List.cons_append, meetsOn_enter here (agree.unmet new) read, targets]
    rw [visited] at ih
    have agree₁ : @Marks.Agree heap (marks.set id true) (survey.enter id heap.arrays[id]) :=
      agree.set here rfl
    -- References that are marked already are not put on the agenda, and are not visited either.
    obtain ⟨marks₂, agree₂, entered⟩ := ih (fun target member => closed (targets ▸ member)) agree₁
      (fun target => !Marks.has (marks.set id true) target)
      (fun target gone => (agree₁ target).mp (by simpa using gone)) (ids.filter keep ++ rest)
    obtain ⟨marks₃, agree₃, last⟩ := ih' (fun other later => inside other (List.mem_cons_of_mem _ later)) agree₂ keep
      (fun other gone => more (List.mem_append_left _ (dropped other gone))) rest
    refine ⟨marks₃, agree₃, ?_⟩
    rw [Survey.Later.val_of, ← last, ← entered]
    simp [Survey.enter]
  | case5 survey id ids new outside ih => exact absurd (inside id List.mem_cons_self) outside

def survey (heap : Heap) (roots : List ArrayId) : Survey :=
  (visitAll heap .none roots).val

def meets (heap : Heap) (roots : List ArrayId) : List ArrayId :=
  meetsOn heap Marks.none roots

theorem meets_eq_survey (closed : heap.Closed) {roots : List ArrayId} (inside : ∀ root ∈ roots, root < heap.size) :
    heap.meets roots = (heap.survey roots).visited := by
  have unmarked : (Marks.none : Marks heap).Agree .none := by
    intro id
    simp only [Marks.has, Marks.none, Survey.none, Vector.getElem?_replicate, List.not_mem_nil, iff_false]
    split <;> exact Bool.false_ne_true
  obtain ⟨marks, _, same⟩ := meetsOn_visitAll closed .none roots inside unmarked (fun _ => true)
    (fun _ dropped => absurd dropped.symm Bool.false_ne_true) []
  rw [List.filter_true, List.append_nil, meetsOn, List.append_nil] at same
  exact same

structure Survey.Accounts (heap : Heap) (survey : Survey) : Prop where
  nodup : survey.visited.Nodup
  inside : ∀ id ∈ survey.visited, id < heap.size
  unbound : survey.unbound = survey.visited.filter heap.isFresh
  pending : survey.pending = survey.visited.filter heap.needsWriting

namespace Survey.Accounts

variable {survey : Survey}

theorem none (heap : Heap) : Accounts heap .none where
  nodup := .nil
  inside _ member := absurd member List.not_mem_nil
  unbound := rfl
  pending := rfl

theorem nodup_append (accounts : survey.Accounts heap) (new : id ∉ survey.visited) :
    (survey.visited ++ [id]).Nodup :=
  accounts.nodup.append (List.nodup_singleton id) (List.disjoint_singleton.mpr new)

theorem inside_append (accounts : survey.Accounts heap) (inside : id < heap.size) :
    ∀ other ∈ survey.visited ++ [id], other < heap.size := by
  intro other member
  rcases List.mem_append.mp member with old | new
  · exact accounts.inside other old
  · rw [List.mem_singleton.mp new]
    exact inside

theorem pass (accounts : survey.Accounts heap) (new : id ∉ survey.visited) {array : LiveArray}
    (here : heap.arrays[id]? = some array) (unread : array.contents? = .none) : (survey.pass id).Accounts heap := by
  obtain ⟨kind, slot, rfl⟩ := LiveArray.eq_named_of_contents? unread
  refine ⟨accounts.nodup_append new, accounts.inside_append (lt_size here), ?_, ?_⟩
  · rw [Survey.pass, filter_concat, isFresh, here, accounts.unbound]
    rfl
  · rw [Survey.pass, filter_concat, needsWriting, here, accounts.pending]
    rfl

theorem enter (accounts : survey.Accounts heap) (new : id ∉ survey.visited) {array : LiveArray}
    (here : heap.arrays[id]? = some array) : (survey.enter id array).Accounts heap := by
  refine ⟨accounts.nodup_append new, accounts.inside_append (lt_size here), ?_, ?_⟩
  · rw [Survey.enter, filter_concat, isFresh, here, Option.any_some, accounts.unbound]
    cases array.isBound <;> rfl
  · have writes : array.needsWriting = (!array.isBound || array.isDirty) := by cases array <;> rfl
    rw [Survey.enter, filter_concat, needsWriting, here, Option.any_some, writes, accounts.pending]

end Survey.Accounts

theorem visitAll_accounts {survey : Survey} (accounts : survey.Accounts heap) (ids : List ArrayId) :
    (visitAll heap survey ids).val.Accounts heap := by
  fun_induction visitAll with
  | case1 survey => exact accounts
  | case2 survey id ids known ih => exact ih accounts
  | case3 survey id ids new here unread ih =>
    exact ih (accounts.pass new (Array.getElem?_eq_getElem here) unread)
  | case4 survey id ids new here contents held children more visited ih ih' =>
    rw [visited] at ih
    exact ih' (ih (accounts.enter new (Array.getElem?_eq_getElem here)))
  | case5 survey id ids new outside ih => exact ih accounts

theorem survey_accounts (heap : Heap) (roots : List ArrayId) : (heap.survey roots).Accounts heap :=
  visitAll_accounts (.none heap) roots

/-- The walk enters the arrays that the recursive walk visits and finds with contents in memory, in its order. -/
theorem walk_eq_survey (closed : heap.Closed) {roots : List ArrayId} (inside : ∀ root ∈ roots, root < heap.size) :
    (heap.walk roots).fault? = none ∧ (heap.walk roots).order = (heap.survey roots).visited.filter heap.isRead := by
  have walked := walkOn_meets closed Marks.none [] 0 roots inside
  rw [List.reverse_nil, List.nil_append] at walked
  exact ⟨walked.1, walked.2.trans (congrArg _ (meets_eq_survey closed inside))⟩

end MeteredArrays.Heap
