import MeteredArrays.Proofs.Heap.LiveArray
import MeteredArrays.Proofs.Heap.Lookup

namespace MeteredArrays

/-- Contents that a record can hold and that refer only to the first `size` arrays. -/
structure Contents.Within (contents : Contents ArrayId) (size : Nat) : Prop where
  short : contents.length ≤ Record.maxLength
  inside : ∀ target ∈ contents.targets, target < size

theorem Contents.Within.mono {contents : Contents ArrayId} {size size' : Nat} (within : contents.Within size)
    (le : size ≤ size') : contents.Within size' :=
  ⟨within.short, fun target member => Nat.lt_of_lt_of_le (within.inside target member) le⟩

namespace Heap

def Indexed (heap : Heap) : Prop :=
  ∀ {slot : Slot} {id : ArrayId}, heap.index[slot]? = some id ↔
    ∃ array, heap.arrays[id]? = some array ∧ array.slot? = some slot

/-- References stay on the heap, and the index is the inverse of the slots. -/
structure WellFormed (heap : Heap) : Prop where
  within : ∀ {id : ArrayId} {array : LiveArray} {contents : Contents ArrayId},
    heap.arrays[id]? = some array → array.contents? = some contents → contents.Within heap.size
  indexed : ∀ {slot : Slot} {id : ArrayId}, heap.index[slot]? = some id ↔
    ∃ array, heap.arrays[id]? = some array ∧ array.slot? = some slot

theorem wellFormed_empty : WellFormed empty := by
  constructor
  · intro id array contents here
    simp [empty] at here
  · intro slot id
    simp [empty]

namespace Indexed

variable {heap : Heap}

theorem index_of_slot (indexed : heap.Indexed) {id : ArrayId} {array : LiveArray} {slot : Slot}
    (here : heap.arrays[id]? = some array) (bound : array.slot? = some slot) : heap.index[slot]? = some id :=
  indexed.mpr ⟨array, here, bound⟩

theorem slot_unique (indexed : heap.Indexed) {id id' : ArrayId} {array array' : LiveArray} {slot : Slot}
    (here : heap.arrays[id]? = some array) (bound : array.slot? = some slot)
    (there : heap.arrays[id']? = some array') (bound' : array'.slot? = some slot) : id = id' :=
  Option.some.inj ((indexed.index_of_slot here bound).symm.trans (indexed.index_of_slot there bound'))

theorem insert (indexed : heap.Indexed) {array : LiveArray}
    (unknown : ∀ slot, array.slot? = some slot → heap.bound? slot = none) : (heap.insert array).2.Indexed := by
  intro slot id
  rw [index_insert, arrays_insert]
  by_cases new : array.slot? = some slot
  · rw [if_pos new]
    have absent : heap.index[slot]? = none := unknown slot new
    constructor
    · intro same
      cases same
      exact ⟨array, by rw [if_pos rfl], new⟩
    · rintro ⟨other, there, bound⟩
      split at there
      · rename_i last
        rw [last]
      · rw [indexed.index_of_slot there bound] at absent
        cases absent
  · rw [if_neg new, indexed]
    constructor
    · rintro ⟨other, there, bound⟩
      exact ⟨other, by rw [if_neg (Nat.ne_of_lt (lt_size there)), there], bound⟩
    · rintro ⟨other, there, bound⟩
      split at there
      · cases there
        exact absurd bound new
      · exact ⟨other, there, bound⟩

theorem update (indexed : heap.Indexed) {id : ArrayId} {change : LiveArray → LiveArray}
    (slot : ∀ array, heap.arrays[id]? = some array → (change array).slot? = array.slot?) :
    (heap.update id change).Indexed := by
  intro s other
  rw [index_update, indexed, arrays_update]
  by_cases same : id = other
  · subst other
    rw [if_pos rfl]
    constructor
    · rintro ⟨array, here, bound⟩
      exact ⟨change array, by rw [here]; rfl, by rw [slot array here, bound]⟩
    · rintro ⟨array, here, bound⟩
      obtain ⟨before, was, rfl⟩ := Option.map_eq_some_iff.mp here
      exact ⟨before, was, by rw [← slot before was, bound]⟩
  · rw [if_neg same]

end Indexed

namespace WellFormed

variable {heap : Heap}

theorem index_of_slot (wf : heap.WellFormed) {id : ArrayId} {array : LiveArray} {slot : Slot}
    (here : heap.arrays[id]? = some array) (bound : array.slot? = some slot) : heap.index[slot]? = some id :=
  Indexed.index_of_slot @wf.indexed here bound

theorem slot_unique (wf : heap.WellFormed) {id id' : ArrayId} {array array' : LiveArray} {slot : Slot}
    (here : heap.arrays[id]? = some array) (bound : array.slot? = some slot)
    (there : heap.arrays[id']? = some array') (bound' : array'.slot? = some slot) : id = id' :=
  Indexed.slot_unique @wf.indexed here bound there bound'

theorem target_inside (wf : heap.WellFormed) {id target : ArrayId} (member : target ∈ heap.targets id) :
    target < heap.size := by
  obtain ⟨array, contents, here, held, member⟩ := mem_targets.mp member
  exact (wf.within here held).inside target member

theorem insert (wf : heap.WellFormed) {array : LiveArray}
    (unknown : ∀ slot, array.slot? = some slot → heap.bound? slot = none)
    (within : ∀ contents, array.contents? = some contents → contents.Within heap.size) :
    (heap.insert array).2.WellFormed := by
  constructor
  · intro id other contents here held
    rw [size_insert]
    refine Contents.Within.mono ?_ (Nat.le_succ _)
    rw [arrays_insert] at here
    split at here
    · cases here
      exact within contents held
    · exact wf.within here held
  · exact Indexed.insert @wf.indexed unknown

theorem insert_fresh (wf : heap.WellFormed) {contents : Contents ArrayId} {dirty : Bool}
    (within : contents.Within heap.size) : (heap.insert (.fresh contents dirty)).2.WellFormed := by
  apply wf.insert
  · intro slot bound
    cases bound
  · intro other held
    cases held
    exact within

theorem update (wf : heap.WellFormed) {id : ArrayId} {change : LiveArray → LiveArray}
    (slot : ∀ array, heap.arrays[id]? = some array → (change array).slot? = array.slot?)
    (within : ∀ array contents, heap.arrays[id]? = some array → (change array).contents? = some contents →
      contents.Within heap.size) : (heap.update id change).WellFormed := by
  constructor
  · intro other array contents here held
    rw [size_update]
    rw [arrays_update] at here
    split at here
    · rename_i same
      subst other
      obtain ⟨before, was, rfl⟩ := Option.map_eq_some_iff.mp here
      exact within before contents was held
    · exact wf.within here held
  · exact Indexed.update @wf.indexed slot

theorem within_held? (wf : heap.WellFormed) {id : ArrayId} {contents : Contents ArrayId}
    (held : heap.held? id = some contents) : contents.Within heap.size := by
  obtain ⟨array, here, inMemory⟩ := held?_eq_some.mp held
  exact wf.within here inMemory

end WellFormed

end Heap

end MeteredArrays
