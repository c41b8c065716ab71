import MeteredArrays.Heap.Walk
import MeteredArrays.Proofs.Contents

namespace MeteredArrays

theorem getElem?_insert_slot {α : Type} (map : Std.ExtTreeMap Slot α) (slot other : Slot) (value : α) :
    (map.insert slot value)[other]? = if slot = other then some value else map[other]? := by
  rw [Std.ExtTreeMap.getElem?_insert]
  by_cases same : slot = other
  · rw [if_pos same, if_pos (Std.compare_eq_iff_eq.mpr same)]
  · rw [if_neg same, if_neg (fun h => same (Std.compare_eq_iff_eq.mp h))]

namespace Heap

theorem find_eq_ok {heap : Heap} {id : ArrayId} {array : LiveArray} :
    heap.find id = .ok array ↔ heap.arrays[id]? = some array := by
  unfold find
  cases heap.arrays[id]? <;> simp

theorem find_of_none {heap : Heap} {id : ArrayId} (absent : heap.arrays[id]? = none) :
    heap.find id = .error .danglingReference := by
  unfold find
  rw [absent]

theorem lt_size {heap : Heap} {id : ArrayId} {array : LiveArray} (here : heap.arrays[id]? = some array) :
    id < heap.size :=
  (Array.getElem?_eq_some_iff.mp here).1

theorem exists_of_lt {heap : Heap} {id : ArrayId} (inside : id < heap.size) :
    ∃ array, heap.arrays[id]? = some array :=
  ⟨_, Array.getElem?_eq_getElem inside⟩

theorem link_eq_ok {heap : Heap} {id : ArrayId} {link : Link} :
    heap.link id = .ok link ↔
      ∃ array, heap.arrays[id]? = some array ∧ array.kind = link.kind ∧ array.slot? = some link.slot := by
  simp only [Heap.link, except_bind_eq_ok, find_eq_ok]
  constructor
  · rintro ⟨array, here, h⟩
    cases slot : array.slot? with
    | none =>
      rw [slot] at h
      cases h
    | some s =>
      rw [slot] at h
      cases h
      exact ⟨array, here, rfl, slot⟩
  · rintro ⟨array, here, kind, slot⟩
    refine ⟨array, here, ?_⟩
    rw [slot, kind]
    rfl

theorem link_of_slot {heap : Heap} {id : ArrayId} {array : LiveArray} {slot : Slot}
    (here : heap.arrays[id]? = some array) (bound : array.slot? = some slot) :
    heap.link id = .ok ⟨array.kind, slot⟩ :=
  link_eq_ok.mpr ⟨array, here, rfl, bound⟩

theorem record_eq_ok {heap : Heap} {id : ArrayId} {slot : Slot} {record : Record} :
    heap.record id = .ok (slot, record) ↔ ∃ contents dirty links,
      heap.arrays[id]? = some (.loaded slot contents dirty) ∧ contents.traverse heap.link = .ok links ∧
        Record.ofContents links = record := by
  simp only [Heap.record, except_bind_eq_ok, find_eq_ok]
  constructor
  · rintro ⟨array, here, h⟩
    cases array with
    | fresh contents dirty | named kind slot' =>
      simp only [LiveArray.slot?, LiveArray.contents?] at h
      nomatch h
    | loaded slot' contents dirty =>
      simp only [LiveArray.slot?, LiveArray.contents?, except_bind_eq_ok, Record.encode, map_eq_pure_bind] at h
      obtain ⟨_, ⟨links, resolved, encoded⟩, h⟩ := h
      obtain ⟨rfl, rfl⟩ := Prod.mk.inj (Except.ok.inj h)
      exact ⟨contents, dirty, links, here, resolved, Except.ok.inj encoded⟩
  · rintro ⟨contents, dirty, links, here, resolved, rfl⟩
    refine ⟨_, here, ?_⟩
    simp only [LiveArray.slot?, LiveArray.contents?, except_bind_eq_ok, Record.encode, map_eq_pure_bind]
    exact ⟨_, ⟨links, resolved, rfl⟩, rfl⟩

def InMemory (heap : Heap) (id : ArrayId) : Prop :=
  ∃ array contents, heap.arrays[id]? = some array ∧ array.contents? = some contents

def held? (heap : Heap) (id : ArrayId) : Option (Contents ArrayId) :=
  heap.arrays[id]?.bind LiveArray.contents?

theorem held?_eq_some {heap : Heap} {id : ArrayId} {contents : Contents ArrayId} :
    heap.held? id = some contents ↔ ∃ array, heap.arrays[id]? = some array ∧ array.contents? = some contents :=
  Option.bind_eq_some_iff

theorem inMemory_iff {heap : Heap} {id : ArrayId} : heap.InMemory id ↔ ∃ contents, heap.held? id = some contents := by
  simp only [InMemory, held?_eq_some]
  exact exists_comm

theorem mem_targets {heap : Heap} {id target : ArrayId} :
    target ∈ heap.targets id ↔ ∃ array contents, heap.arrays[id]? = some array ∧
      array.contents? = some contents ∧ target ∈ contents.targets := by
  unfold targets
  cases heap.arrays[id]? with
  | none => simp
  | some array => cases contents : array.contents? <;> simp [contents]

theorem arrays_insert (heap : Heap) (array : LiveArray) (id : ArrayId) :
    (heap.insert array).2.arrays[id]? = if id = heap.size then some array else heap.arrays[id]? :=
  Array.getElem?_push

theorem size_insert (heap : Heap) (array : LiveArray) : (heap.insert array).2.size = heap.size + 1 :=
  Array.size_push array

theorem arrays_insert_of_some {heap : Heap} {id : ArrayId} {array : LiveArray}
    (here : heap.arrays[id]? = some array) (new : LiveArray) :
    (heap.insert new).2.arrays[id]? = some array := by
  rw [arrays_insert, if_neg (Nat.ne_of_lt (lt_size here)), here]

theorem index_insert (heap : Heap) (array : LiveArray) (slot : Slot) :
    (heap.insert array).2.index[slot]? =
      if array.slot? = some slot then some heap.size else heap.index[slot]? := by
  change (array.slot?.elim heap.index (heap.index.insert · heap.size))[slot]? = _
  cases array.slot? with
  | none => simp
  | some other => simp [getElem?_insert_slot]

theorem arrays_update (heap : Heap) (id other : ArrayId) (change : LiveArray → LiveArray) :
    (heap.update id change).arrays[other]? =
      if id = other then heap.arrays[other]?.map change else heap.arrays[other]? :=
  Array.getElem?_modify

theorem arrays_update_self {heap : Heap} {id : ArrayId} {array : LiveArray} {change : LiveArray → LiveArray}
    (here : heap.arrays[id]? = some array) :
    (heap.update id change).arrays[id]? = some (change array) := by
  rw [arrays_update, if_pos rfl, here]
  rfl

theorem size_update (heap : Heap) (id : ArrayId) (change : LiveArray → LiveArray) :
    (heap.update id change).size = heap.size :=
  Array.size_modify

theorem index_update (heap : Heap) (id : ArrayId) (change : LiveArray → LiveArray) :
    (heap.update id change).index = heap.index := rfl

theorem update_congr {heap : Heap} {id : ArrayId} {change change' : LiveArray → LiveArray}
    (same : ∀ array, heap.arrays[id]? = some array → change array = change' array) :
    heap.update id change = heap.update id change' := by
  have arrays : (heap.update id change).arrays = (heap.update id change').arrays := by
    apply Array.ext_getElem?
    intro other
    rw [arrays_update, arrays_update]
    by_cases at' : id = other
    · subst other
      cases here : heap.arrays[id]? with
      | none => rfl
      | some array => simp [same array here]
    · rw [if_neg at', if_neg at']
  exact congrArg (Heap.mk · heap.index) arrays

end Heap

end MeteredArrays
