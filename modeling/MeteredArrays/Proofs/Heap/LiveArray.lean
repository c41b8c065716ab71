import MeteredArrays.Heap.LiveArray

namespace MeteredArrays.LiveArray

@[simp]
theorem slot?_touch (array : LiveArray) : array.touch.slot? = array.slot? := by
  cases array <;> rfl

@[simp]
theorem contents?_touch (array : LiveArray) : array.touch.contents? = array.contents? := by
  cases array <;> rfl

@[simp]
theorem contents?_bind (slot : Slot) (array : LiveArray) : (array.bind slot).contents? = array.contents? := by
  cases array <;> rfl

@[simp]
theorem slot?_clean (array : LiveArray) : array.clean.slot? = array.slot? := by
  cases array <;> rfl

@[simp]
theorem contents?_clean (array : LiveArray) : array.clean.contents? = array.contents? := by
  cases array <;> rfl

@[simp]
theorem slot?_mapContents (change : Contents ArrayId → Contents ArrayId) (array : LiveArray) :
    (array.mapContents change).slot? = array.slot? := by
  cases array <;> rfl

@[simp]
theorem contents?_mapContents (change : Contents ArrayId → Contents ArrayId) (array : LiveArray) :
    (array.mapContents change).contents? = array.contents?.map change := by
  cases array <;> rfl

@[simp]
theorem isDirty_touch (array : LiveArray) : array.touch.isDirty = array.isMaterialized := by
  cases array <;> rfl

theorem kind_of_contents? {array : LiveArray} {contents : Contents ArrayId}
    (held : array.contents? = some contents) : contents.kind = array.kind := by
  cases array with
  | named => cases held
  | fresh | loaded =>
    cases held
    rfl

theorem isMaterialized_of_isBound {array : LiveArray} (unsaved : array.isBound = false) :
    array.isMaterialized = true := by
  cases array with
  | fresh => rfl
  | named | loaded => cases unsaved

theorem isMaterialized_of_isDirty {array : LiveArray} (dirty : array.isDirty = true) :
    array.isMaterialized = true := by
  cases array with
  | named => cases dirty
  | fresh | loaded => rfl

theorem eq_named_of_contents? {array : LiveArray} (unread : array.contents? = none) :
    ∃ kind slot, array = .named kind slot := by
  cases array with
  | named kind slot => exact ⟨kind, slot, rfl⟩
  | fresh | loaded => cases unread

end MeteredArrays.LiveArray
