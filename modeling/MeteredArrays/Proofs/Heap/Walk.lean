import Mathlib.Data.List.Nodup
import MeteredArrays.Proofs.Heap.WellFormed

namespace MeteredArrays.Heap

/-- The arrays that contents in memory lead to from `roots`. -/
inductive Reaches (heap : Heap) (roots : List ArrayId) : ArrayId → Prop
  | root {id : ArrayId} (member : id ∈ roots) : Reaches heap roots id
  | target {id target : ArrayId} (reached : Reaches heap roots id) (member : target ∈ heap.targets id) :
      Reaches heap roots target

variable {heap : Heap} {roots : List ArrayId}

theorem Reaches.inside (wf : heap.WellFormed) (inside : ∀ root ∈ roots, root < heap.size) {id : ArrayId}
    (reaches : heap.Reaches roots id) : id < heap.size := by
  cases reaches with
  | root member => exact inside id member
  | target _ member => exact wf.target_inside member

theorem Reaches.mem {ids : List ArrayId} (start : ∀ root ∈ roots, root ∈ ids)
    (closed : ∀ id ∈ ids, ∀ target ∈ heap.targets id, target ∈ ids) {id : ArrayId}
    (reaches : heap.Reaches roots id) : id ∈ ids := by
  induction reaches with
  | root member => exact start _ member
  | target _ member ih => exact closed _ ih _ member

theorem reaches_congr {heap' : Heap} (targets : heap'.targets = heap.targets) {id : ArrayId} :
    heap'.Reaches roots id ↔ heap.Reaches roots id := by
  constructor <;> intro reaches <;> induction reaches with
  | root member => exact .root member
  | target _ member ih => exact .target ih (by simpa only [targets] using member)

theorem has_set (marks : Marks heap) {id : ArrayId} (inside : id < heap.arrays.size) (other : ArrayId) :
    Marks.has (marks.set id true) other = true ↔ other = id ∨ Marks.has marks other = true := by
  by_cases same : other = id
  · subst other
    simp [Marks.has_set_self marks inside]
  · simp [Marks.has_set_of_ne marks inside same, same]

/-- What holds of a walk at each step: nothing is entered twice or without a way to it, and what was
    not followed up so far is on the agenda. -/
structure Walking (heap : Heap) (roots : List ArrayId) (marks : Marks heap) (entered agenda : List ArrayId) :
    Prop where
  nodup : entered.Nodup
  marked : ∀ id ∈ entered, Marks.has marks id = true ∧ heap.InMemory id
  taken : ∀ id, Marks.has marks id = true → heap.InMemory id → id ∈ entered
  reached : ∀ id, id ∈ entered ∨ id ∈ agenda → heap.Reaches roots id
  followed : ∀ id, id ∈ roots ∨ (∃ source ∈ entered, id ∈ heap.targets source) →
    Marks.has marks id = true ∨ id ∈ agenda

namespace Walking

variable {marks : Marks heap} {entered agenda : List ArrayId} {id : ArrayId}

theorem start (roots : List ArrayId) : Walking heap roots Marks.none [] roots where
  nodup := List.nodup_nil
  marked _ member := absurd member List.not_mem_nil
  taken id marked := by
    unfold Marks.has Marks.none at marked
    rw [Vector.getElem?_replicate] at marked
    split at marked <;> cases marked
  reached id := by
    rintro (member | member)
    · cases member
    · exact .root member
  followed id := by
    rintro (member | ⟨_, member, _⟩)
    · exact Or.inr member
    · cases member

theorem drop (walking : Walking heap roots marks entered (id :: agenda))
    (marked : Marks.has marks id = true) : Walking heap roots marks entered agenda where
  nodup := walking.nodup
  marked := walking.marked
  taken := walking.taken
  reached other member := walking.reached other (member.imp_right (List.mem_cons_of_mem id))
  followed other known := by
    rcases walking.followed other known with met | waiting
    · exact Or.inl met
    · rcases List.mem_cons.mp waiting with rfl | waiting
      · exact Or.inl marked
      · exact Or.inr waiting

theorem pass (walking : Walking heap roots marks entered (id :: agenda)) (inside : id < heap.arrays.size)
    (absent : ¬ heap.InMemory id) : Walking heap roots (marks.set id true) entered agenda where
  nodup := walking.nodup
  marked other member := by
    obtain ⟨marked, inMemory⟩ := walking.marked other member
    exact ⟨(has_set marks inside other).mpr (Or.inr marked), inMemory⟩
  taken other marked inMemory := by
    rcases (has_set marks inside other).mp marked with rfl | marked
    · exact absurd inMemory absent
    · exact walking.taken other marked inMemory
  reached other member := walking.reached other (member.imp_right (List.mem_cons_of_mem id))
  followed other known := by
    rw [has_set marks inside]
    rcases walking.followed other known with met | waiting
    · exact Or.inl (Or.inr met)
    · rcases List.mem_cons.mp waiting with rfl | waiting
      · exact Or.inl (Or.inl rfl)
      · exact Or.inr waiting

theorem enter (walking : Walking heap roots marks entered (id :: agenda)) (inside : id < heap.arrays.size)
    (fresh : Marks.has marks id = false) (inMemory : heap.InMemory id) :
    Walking heap roots (marks.set id true) (id :: entered)
      ((heap.targets id).filter (fun target => !Marks.has (marks.set id true) target) ++ agenda) where
  nodup := by
    refine List.nodup_cons.mpr ⟨fun member => ?_, walking.nodup⟩
    rw [(walking.marked id member).1] at fresh
    cases fresh
  marked other member := by
    rw [has_set marks inside]
    rcases List.mem_cons.mp member with rfl | member
    · exact ⟨Or.inl rfl, inMemory⟩
    · obtain ⟨marked, inMemory⟩ := walking.marked other member
      exact ⟨Or.inr marked, inMemory⟩
  taken other marked inMemory := by
    rcases (has_set marks inside other).mp marked with rfl | marked
    · exact List.mem_cons_self
    · exact List.mem_cons_of_mem _ (walking.taken other marked inMemory)
  reached other member := by
    have here := walking.reached id (Or.inr List.mem_cons_self)
    rcases member with member | member
    · rcases List.mem_cons.mp member with rfl | member
      · exact here
      · exact walking.reached other (Or.inl member)
    · rcases List.mem_append.mp member with child | waiting
      · exact .target here (List.mem_of_mem_filter child)
      · exact walking.reached other (Or.inr (List.mem_cons_of_mem _ waiting))
  followed other known := by
    rw [has_set marks inside, List.mem_append, List.mem_filter]
    by_cases met : other = id ∨ Marks.has marks other = true
    · exact Or.inl met
    · right
      have unmet : (!Marks.has (marks.set id true) other) = true := by
        rw [← has_set marks inside] at met
        simpa using met
      have old : (∃ source ∈ entered, other ∈ heap.targets source) ∨ other ∈ roots → other ∈ agenda := by
        intro known
        rcases walking.followed other known.symm with marked | waiting
        · exact absurd (Or.inr marked) met
        · rcases List.mem_cons.mp waiting with same | waiting
          · exact absurd (Or.inl same) met
          · exact waiting
      rcases known with member | ⟨source, member, child⟩
      · exact Or.inr (old (Or.inr member))
      · rcases List.mem_cons.mp member with rfl | member
        · exact Or.inl ⟨child, unmet⟩
        · exact Or.inr (old (Or.inl ⟨source, member, child⟩))

theorem met (walking : Walking heap roots marks entered []) (reaches : heap.Reaches roots id) :
    Marks.has marks id = true := by
  induction reaches with
  | root member => exact (walking.followed _ (Or.inl member)).resolve_right List.not_mem_nil
  | @target source target _ child ih =>
    obtain ⟨array, contents, here, held, _⟩ := mem_targets.mp child
    have source := walking.taken source ih ⟨array, contents, here, held⟩
    exact (walking.followed _ (Or.inr ⟨_, source, child⟩)).resolve_right List.not_mem_nil

theorem mem_iff (walking : Walking heap roots marks entered []) (id : ArrayId) :
    id ∈ entered ↔ heap.Reaches roots id ∧ heap.InMemory id := by
  constructor
  · intro member
    exact ⟨walking.reached id (Or.inl member), (walking.marked id member).2⟩
  · rintro ⟨reaches, inMemory⟩
    exact walking.taken id (walking.met reaches) inMemory

end Walking

structure Tour.Complete (tour : Tour) (heap : Heap) (roots : List ArrayId) : Prop where
  fault : tour.fault? = none
  nodup : tour.order.Nodup
  mem_iff : ∀ id, id ∈ tour.order ↔ heap.Reaches roots id ∧ heap.InMemory id

theorem walkOn_walking (marks : Marks heap) (entered : List ArrayId) (steps : Nat) (agenda : List ArrayId)
    (walking : Walking heap roots marks entered agenda) :
    ∃ marks' agenda', Walking heap roots marks' (walkOn heap marks entered steps agenda).order.reverse agenda' ∧
      ((walkOn heap marks entered steps agenda).fault? = none ∧ agenda' = [] ∨
        (walkOn heap marks entered steps agenda).fault? = some .danglingReference ∧
          ∃ id ∈ agenda', heap.size ≤ id) := by
  fun_induction walkOn with
  | case1 marks entered steps =>
    rw [List.reverse_reverse]
    exact ⟨marks, [], walking, Or.inl ⟨rfl, rfl⟩⟩
  | case2 marks entered steps id agenda here fresh marks' inMemory children ih =>
    have fresh : Marks.has marks id = false := by simp [Marks.has, here, fresh]
    obtain ⟨contents, held⟩ := Option.isSome_iff_exists.mp inMemory
    exact ih (walking.enter here fresh ⟨_, contents, Array.getElem?_eq_getElem here, held⟩)
  | case3 marks entered steps id agenda here fresh marks' absent ih =>
    refine ih (walking.pass here ?_)
    rintro ⟨array, contents, there, held⟩
    rw [Array.getElem?_eq_getElem here] at there
    cases there
    exact absent (by rw [LiveArray.isMaterialized, held]; rfl)
  | case4 marks entered steps id agenda here met ih =>
    exact ih (walking.drop (by simp [Marks.has, here, met]))
  | case5 marks entered steps id agenda outside =>
    rw [List.reverse_reverse]
    exact ⟨marks, id :: agenda, walking, Or.inr ⟨rfl, id, List.mem_cons_self, Nat.le_of_not_lt outside⟩⟩

theorem walk_walking (heap : Heap) (roots : List ArrayId) :
    ∃ marks agenda, Walking heap roots marks (heap.walk roots).order.reverse agenda ∧
      ((heap.walk roots).fault? = none ∧ agenda = [] ∨
        (heap.walk roots).fault? = some .danglingReference ∧ ∃ id ∈ agenda, heap.size ≤ id) :=
  walkOn_walking _ _ _ _ (.start roots)

theorem walk_nodup (heap : Heap) (roots : List ArrayId) : (heap.walk roots).order.Nodup := by
  obtain ⟨marks, agenda, walking, _⟩ := walk_walking heap roots
  exact List.nodup_reverse.mp walking.nodup

theorem lt_size_of_has {marks : Marks heap} {id : ArrayId} (met : Marks.has marks id = true) : id < heap.size := by
  by_contra outside
  have outside : heap.arrays.size ≤ id := Nat.le_of_not_lt outside
  simp [Marks.has, outside] at met

theorem walk_fault?_eq_none_iff :
    (heap.walk roots).fault? = none ↔ ∀ {id : ArrayId}, heap.Reaches roots id → id < heap.size := by
  obtain ⟨marks, agenda, walking, ⟨unharmed, rfl⟩ | ⟨harmed, id, waiting, outside⟩⟩ := walk_walking heap roots
  · exact iff_of_true unharmed fun reaches => lt_size_of_has (walking.met reaches)
  · refine iff_of_false (by rw [harmed]; exact Option.some_ne_none _) fun inside => ?_
    exact Nat.not_lt.mpr outside (inside (walking.reached id (Or.inr waiting)))

theorem walk_complete_of_fault? (unharmed : (heap.walk roots).fault? = none) :
    (heap.walk roots).Complete heap roots := by
  obtain ⟨marks, agenda, walking, ⟨_, rfl⟩ | ⟨harmed, _⟩⟩ := walk_walking heap roots
  · refine ⟨unharmed, walk_nodup heap roots, fun id => ?_⟩
    rw [← List.mem_reverse]
    exact walking.mem_iff id
  · cases unharmed.symm.trans harmed

theorem walk_complete (wf : heap.WellFormed) (inside : ∀ root ∈ roots, root < heap.size) :
    (heap.walk roots).Complete heap roots :=
  walk_complete_of_fault? (walk_fault?_eq_none_iff.mpr (Reaches.inside wf inside))

end MeteredArrays.Heap
