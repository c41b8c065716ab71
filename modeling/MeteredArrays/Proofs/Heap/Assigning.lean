import MeteredArrays.Proofs.Heap.WellFormed

namespace MeteredArrays.Heap

variable {heap : Heap} {pairs : List (ArrayId × Slot)} {id : ArrayId} {slot : Slot}

theorem arrays_bind (heap : Heap) (id other : ArrayId) (slot : Slot) :
    (heap.bind id slot).arrays[other]? =
      if id = other then heap.arrays[other]?.map (.bind slot) else heap.arrays[other]? :=
  Array.getElem?_modify

theorem index_bind (heap : Heap) (id : ArrayId) (slot other : Slot) :
    (heap.bind id slot).index[other]? = if slot = other then some id else heap.index[other]? :=
  getElem?_insert_slot heap.index slot other id

theorem size_bind (heap : Heap) (id : ArrayId) (slot : Slot) : (heap.bind id slot).size = heap.size :=
  Array.size_modify

theorem WellFormed.bind (wf : heap.WellFormed) {contents : Contents ArrayId} {dirty : Bool}
    (here : heap.arrays[id]? = some (.fresh contents dirty)) (unknown : heap.bound? slot = none) :
    (heap.bind id slot).WellFormed := by
  have now : (heap.bind id slot).arrays[id]? = some (.loaded slot contents dirty) := by
    rw [arrays_bind, if_pos rfl, here]
    rfl
  constructor
  · intro other array held there inMemory
    rw [size_bind]
    by_cases same : id = other
    · subst other
      rw [now] at there
      cases there
      cases inMemory
      exact wf.within here rfl
    · rw [arrays_bind, if_neg same] at there
      exact wf.within there inMemory
  · intro slot' other
    rw [index_bind]
    by_cases same : slot = slot'
    · subst slot'
      rw [if_pos rfl]
      constructor
      · intro taken
        cases taken
        exact ⟨_, now, rfl⟩
      · rintro ⟨array, there, bound⟩
        by_cases self : id = other
        · rw [self]
        · rw [arrays_bind, if_neg self] at there
          have known := wf.index_of_slot there bound
          rw [show heap.index[slot]? = none from unknown] at known
          cases known
    · rw [if_neg same, wf.indexed]
      by_cases self : id = other
      · subst other
        rw [here, now]
        constructor
        · rintro ⟨array, there, bound⟩
          cases there
          cases bound
        · rintro ⟨array, there, bound⟩
          cases there
          exact absurd (Option.some.inj bound) same
      · rw [arrays_bind, if_neg self]

def bindAll : (pairs : List (ArrayId × Slot)) → Heap → Heap
  | [], heap => heap
  | (id, slot) :: pairs, heap => bindAll pairs (heap.bind id slot)

theorem size_bindAll (pairs : List (ArrayId × Slot)) (heap : Heap) : (bindAll pairs heap).size = heap.size := by
  induction pairs generalizing heap with
  | nil => rfl
  | cons pair pairs ih => exact (ih _).trans (size_bind heap pair.1 pair.2)

theorem arrays_bindAll_of_not_mem (absent : id ∉ pairs.map Prod.fst) :
    (bindAll pairs heap).arrays[id]? = heap.arrays[id]? := by
  induction pairs generalizing heap with
  | nil => rfl
  | cons pair pairs ih =>
    rw [List.map_cons, List.mem_cons, not_or] at absent
    rw [bindAll, ih absent.2, arrays_bind, if_neg (Ne.symm absent.1)]

theorem arrays_bindAll_of_mem (nodup : (pairs.map Prod.fst).Nodup) (member : (id, slot) ∈ pairs) :
    (bindAll pairs heap).arrays[id]? = heap.arrays[id]?.map (.bind slot) := by
  induction pairs generalizing heap with
  | nil => cases member
  | cons pair pairs ih =>
    rw [List.map_cons, List.nodup_cons] at nodup
    rcases List.mem_cons.mp member with rfl | member
    · rw [bindAll, arrays_bindAll_of_not_mem nodup.1, arrays_bind, if_pos rfl]
    · have other : pair.1 ≠ id := fun same => nodup.1 (List.mem_map.mpr ⟨(id, slot), member, same.symm⟩)
      rw [bindAll, ih nodup.2 member, arrays_bind, if_neg other]

theorem bindAll_cases (nodup : (pairs.map Prod.fst).Nodup) (id : ArrayId) :
    (id ∉ pairs.map Prod.fst ∧ (bindAll pairs heap).arrays[id]? = heap.arrays[id]?) ∨
      ∃ slot, (id, slot) ∈ pairs ∧ (bindAll pairs heap).arrays[id]? = heap.arrays[id]?.map (.bind slot) := by
  by_cases listed : id ∈ pairs.map Prod.fst
  · obtain ⟨⟨_, slot⟩, member, rfl⟩ := List.mem_map.mp listed
    exact Or.inr ⟨slot, member, arrays_bindAll_of_mem nodup member⟩
  · exact Or.inl ⟨listed, arrays_bindAll_of_not_mem listed⟩

theorem contents?_bindAll (pairs : List (ArrayId × Slot)) (heap : Heap) (id : ArrayId) :
    (bindAll pairs heap).arrays[id]?.bind LiveArray.contents? = heap.arrays[id]?.bind LiveArray.contents? := by
  induction pairs generalizing heap with
  | nil => rfl
  | cons pair pairs ih =>
    rw [bindAll, ih, arrays_bind]
    split
    · cases heap.arrays[id]? <;> simp
    · rfl

def isFresh (heap : Heap) (id : ArrayId) : Bool :=
  heap.arrays[id]?.any fun array => !array.isBound

theorem isFresh_iff : heap.isFresh id = true ↔
    ∃ contents dirty, heap.arrays[id]? = some (.fresh contents dirty) := by
  unfold isFresh
  cases heap.arrays[id]? with
  | none => simp
  | some array => cases array <;> simp [LiveArray.isBound, LiveArray.slot?]

theorem filter_isFresh_bind {ids : List ArrayId} (absent : id ∉ ids) (slot : Slot) :
    ids.filter (heap.bind id slot).isFresh = ids.filter heap.isFresh := by
  apply List.filter_congr
  intro other member
  have differs : id ≠ other := fun same => absent (same ▸ member)
  rw [isFresh, arrays_bind, if_neg differs]
  rfl

theorem isFresh_iff_isBound : heap.isFresh id = true ↔
    ∃ array, heap.arrays[id]? = some array ∧ array.isBound = false := by
  simp [isFresh, Option.any_eq_true]

theorem needsWriting_iff : heap.needsWriting id = true ↔
    ∃ array, heap.arrays[id]? = some array ∧ (array.isBound = false ∨ array.isDirty = true) := by
  have each : ∀ array : LiveArray, array.needsWriting = true ↔ array.isBound = false ∨ array.isDirty = true := by
    intro array
    cases array <;> simp [LiveArray.needsWriting, LiveArray.isBound, LiveArray.slot?, LiveArray.isDirty]
  simp [needsWriting, Option.any_eq_true, each]

theorem WellFormed.bindAll (wf : heap.WellFormed) (fresh : ∀ id ∈ pairs.map Prod.fst, heap.isFresh id = true)
    (ids : (pairs.map Prod.fst).Nodup) (slots : (pairs.map Prod.snd).Nodup)
    (unknown : ∀ slot ∈ pairs.map Prod.snd, heap.bound? slot = none) : (bindAll pairs heap).WellFormed := by
  induction pairs generalizing heap with
  | nil => exact wf
  | cons pair pairs ih =>
    rw [List.map_cons, List.nodup_cons] at ids slots
    obtain ⟨contents, dirty, here⟩ := isFresh_iff.mp (fresh pair.1 List.mem_cons_self)
    refine ih (wf.bind here (unknown pair.2 List.mem_cons_self)) (fun id member => ?_) ids.2 slots.2
      fun slot member => ?_
    · have other : pair.1 ≠ id := fun same => ids.1 (same ▸ member)
      rw [isFresh, arrays_bind, if_neg other]
      exact fresh id (List.mem_cons_of_mem _ member)
    · have other : pair.2 ≠ slot := fun same => slots.1 (same ▸ member)
      refine (index_bind _ _ _ _).trans ((if_neg other).trans ?_)
      exact unknown slot (List.mem_cons_of_mem _ member)

def cleanAll : (ids : List ArrayId) → Heap → Heap
  | [], heap => heap
  | id :: ids, heap => cleanAll ids (heap.update id .clean)

theorem size_cleanAll (ids : List ArrayId) (heap : Heap) : (cleanAll ids heap).size = heap.size := by
  induction ids generalizing heap with
  | nil => rfl
  | cons id ids ih => exact (ih _).trans (size_update heap id _)

theorem arrays_cleanAll (ids : List ArrayId) (heap : Heap) (id : ArrayId) :
    (cleanAll ids heap).arrays[id]? = if id ∈ ids then heap.arrays[id]?.map .clean else heap.arrays[id]? := by
  induction ids generalizing heap with
  | nil => rfl
  | cons other ids ih =>
    have again : LiveArray.clean ∘ LiveArray.clean = LiveArray.clean := by
      funext array
      cases array <;> rfl
    rw [cleanAll, ih, arrays_update]
    by_cases same : other = id
    · subst other
      simp [again]
    · have iff : id ∈ other :: ids ↔ id ∈ ids := by simp [Ne.symm same]
      simp only [if_neg same, iff]

theorem contents?_cleanAll (ids : List ArrayId) (heap : Heap) (id : ArrayId) :
    (cleanAll ids heap).arrays[id]?.bind LiveArray.contents? = heap.arrays[id]?.bind LiveArray.contents? := by
  rw [arrays_cleanAll]
  split
  · cases heap.arrays[id]? <;> simp
  · rfl

theorem cleanAll_loaded {contents : Contents ArrayId} {dirty : Bool}
    (here : heap.arrays[id]? = some (.loaded slot contents dirty)) (ids : List ArrayId) :
    (cleanAll ids heap).arrays[id]? = some (.loaded slot contents (if id ∈ ids then false else dirty)) := by
  rw [arrays_cleanAll, here]
  split <;> rfl

theorem find_update_clean (heap : Heap) (id other : ArrayId) :
    (heap.update id .clean).find other =
      if id = other then LiveArray.clean <$> heap.find other else heap.find other := by
  unfold find
  rw [arrays_update]
  by_cases same : id = other
  · rw [if_pos same, if_pos same]
    cases heap.arrays[other]? <;> rfl
  · rw [if_neg same, if_neg same]

theorem link_update_clean (heap : Heap) (id : ArrayId) : (heap.update id .clean).link = heap.link := by
  funext other
  unfold link
  rw [find_update_clean]
  split
  · cases heap.find other with
    | error => rfl
    | ok array => cases array <;> rfl
  · rfl

theorem record_update_clean (heap : Heap) (id : ArrayId) : (heap.update id .clean).record = heap.record := by
  funext other
  unfold record
  rw [link_update_clean, find_update_clean]
  split
  · cases heap.find other with
    | error => rfl
    | ok array => cases array <;> rfl
  · rfl

theorem link_cleanAll (ids : List ArrayId) (heap : Heap) : (cleanAll ids heap).link = heap.link := by
  induction ids generalizing heap with
  | nil => rfl
  | cons id ids ih => exact (ih _).trans (link_update_clean heap id)

theorem record_cleanAll (ids : List ArrayId) (heap : Heap) : (cleanAll ids heap).record = heap.record := by
  induction ids generalizing heap with
  | nil => rfl
  | cons id ids ih => exact (ih _).trans (record_update_clean heap id)

theorem WellFormed.cleanAll (wf : heap.WellFormed) (ids : List ArrayId) : (cleanAll ids heap).WellFormed := by
  induction ids generalizing heap with
  | nil => exact wf
  | cons id ids ih =>
    refine ih (wf.update (fun array _ => array.slot?_clean) fun array contents here held => ?_)
    rw [LiveArray.contents?_clean] at held
    exact wf.within here held

end MeteredArrays.Heap
