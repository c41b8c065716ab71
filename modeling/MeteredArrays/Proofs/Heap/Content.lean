import Mathlib.Data.Set.Insert
import MeteredArrays.Proofs.Workspace.Loading

namespace MeteredArrays

/-- An array as anyone can tell it apart: by kind and slot, or by identity as long as it has no slot. -/
inductive Name where
  | stored (link : Link)
  | unsaved (id : ArrayId)
  deriving DecidableEq

def LiveArray.name (id : ArrayId) (array : LiveArray) : Name :=
  match array.slot? with
  | some slot => .stored ⟨array.kind, slot⟩
  | none => .unsaved id

def Link.content? (read : Slot → Option Record) (link : Link) : Option (Contents Name) := do
  let record ← read link.slot
  let links ← (Record.decode link.kind record).toOption
  return links.map .stored

namespace Heap

def name (heap : Heap) (id : ArrayId) : Name :=
  heap.arrays[id]?.elim (.unsaved id) (LiveArray.name id)

/-- The contents of an array, whether they are in memory or are still to be read. -/
def content? (heap : Heap) (read : Slot → Option Record) (id : ArrayId) : Option (Contents Name) :=
  match heap.arrays[id]? with
  | some (.fresh contents _) | some (.loaded _ contents _) => some (contents.map heap.name)
  | some (.named kind slot) => Link.content? read ⟨kind, slot⟩
  | none => none

variable {read : Slot → Option Record} {heap before after : Heap} {id : ArrayId} {array : LiveArray}
  {contents : Contents ArrayId}

theorem name_of_arrays (here : heap.arrays[id]? = some array) : heap.name id = array.name id := by
  rw [name, here]
  rfl

theorem Indexed.name_inj (indexed : heap.Indexed) {other : ArrayId} (inside : id < heap.size)
    (inside' : other < heap.size) (same : heap.name id = heap.name other) : id = other := by
  obtain ⟨array, here⟩ := exists_of_lt inside
  obtain ⟨array', there⟩ := exists_of_lt inside'
  rw [name_of_arrays here, name_of_arrays there, LiveArray.name, LiveArray.name] at same
  cases slot : array.slot? with
  | none =>
    cases slot' : array'.slot? with
    | none =>
      rw [slot, slot'] at same
      exact Name.unsaved.inj same
    | some place =>
      rw [slot, slot'] at same
      cases same
  | some place =>
    cases slot' : array'.slot? with
    | none =>
      rw [slot, slot'] at same
      cases same
    | some place' =>
      rw [slot, slot'] at same
      have equal : place = place' := congrArg Link.slot (Name.stored.inj same)
      exact indexed.slot_unique here slot there (slot'.trans (congrArg some equal.symm))

theorem name_of_link {link : Link} (named : heap.link id = .ok link) : heap.name id = .stored link := by
  obtain ⟨array, here, kind, slot⟩ := link_eq_ok.mp named
  rw [name_of_arrays here, LiveArray.name, slot, kind]

theorem content?_of_contents? (here : heap.arrays[id]? = some array) (held : array.contents? = some contents) :
    heap.content? read id = some (contents.map heap.name) := by
  unfold content?
  rw [here]
  cases array with
  | named => cases held
  | fresh | loaded =>
    cases held
    rfl

theorem content?_of_named {kind : Kind} {slot : Slot} (here : heap.arrays[id]? = some (.named kind slot)) :
    heap.content? read id = Link.content? read ⟨kind, slot⟩ := by
  unfold content?
  rw [here]

theorem Saved.content? {slot : Slot} (saved : heap.Saved read slot contents) :
    Link.content? read ⟨contents.kind, slot⟩ = some (contents.map heap.name) := by
  obtain ⟨record, links, stored, decoded, resolved⟩ := saved
  have same : contents.map heap.name = links.map .stored :=
    (Contents.traverse_eq_ok.mp resolved).map_eq fun _ _ => name_of_link
  simp [Link.content?, stored, decoded, same, Except.toOption]

theorem name_of_keeps {array' : LiveArray} (here : before.arrays[id]? = some array)
    (there : after.arrays[id]? = some array') (kept : array.Keeps array') : after.name id = before.name id := by
  rw [name_of_arrays here, name_of_arrays there, LiveArray.name, LiveArray.name, kept.slot, kept.kind]

theorem Changes.name {allowed : Link → Prop} (changes : Changes read allowed before after)
    (inside : id < before.size) : after.name id = before.name id := by
  obtain ⟨array, here⟩ := exists_of_lt inside
  obtain ⟨array', there, kept⟩ := changes.keeps here
  exact name_of_keeps here there kept

theorem map_name (names : ∀ id < before.size, after.name id = before.name id)
    (inside : ∀ target ∈ contents.targets, target < before.size) :
    contents.map after.name = contents.map before.name :=
  Contents.map_congr fun target member => names target (inside target member)

/-- Apart from the arrays in `except`, all contents are as before, and arrays that were added have the
    contents of their records. -/
structure Undisturbed (read : Slot → Option Record) (except : Set ArrayId) (before after : Heap) : Prop where
  size_le : before.size ≤ after.size
  name : ∀ id < before.size, after.name id = before.name id
  content : ∀ id < before.size, id ∉ except → after.content? read id = before.content? read id
  added : ∀ id, before.size ≤ id → id < after.size → id ∉ except →
    ∃ link, after.name id = .stored link ∧ after.content? read id = Link.content? read link

namespace Undisturbed

variable {except except' : Set ArrayId}

theorem refl (heap : Heap) : Undisturbed read except heap heap where
  size_le := Nat.le_refl _
  name _ _ := rfl
  content _ _ _ := rfl
  added _ outside inside := absurd inside (Nat.not_lt.mpr outside)

theorem trans {first second third : Heap} (one : Undisturbed read except first second)
    (two : Undisturbed read except second third) : Undisturbed read except first third where
  size_le := one.size_le.trans two.size_le
  name id inside := (two.name id (inside.trans_le one.size_le)).trans (one.name id inside)
  content id inside apart := (two.content id (inside.trans_le one.size_le) apart).trans (one.content id inside apart)
  added id outside inside apart := by
    by_cases old : id < second.size
    · obtain ⟨link, named, content⟩ := one.added id outside old apart
      exact ⟨link, (two.name id old).trans named, (two.content id old apart).trans content⟩
    · exact two.added id (Nat.le_of_not_lt old) inside apart

theorem mono (undisturbed : Undisturbed read except before after) (wider : except ⊆ except') :
    Undisturbed read except' before after where
  size_le := undisturbed.size_le
  name := undisturbed.name
  content id inside apart := undisturbed.content id inside fun member => apart (wider member)
  added id outside inside apart := undisturbed.added id outside inside fun member => apart (wider member)

end Undisturbed

theorem content?_of_keeps (wf : before.WellFormed) (names : ∀ id < before.size, after.name id = before.name id)
    {array' : LiveArray} (here : before.arrays[id]? = some array) (there : after.arrays[id]? = some array')
    (kept : array.Keeps array') (held : array'.contents? = array.contents?) :
    after.content? read id = before.content? read id := by
  cases was : array.contents? with
  | some contents =>
    rw [content?_of_contents? here was, content?_of_contents? there (held.trans was)]
    exact congrArg some (map_name names (wf.within here was).inside)
  | none =>
    obtain ⟨kind, slot, rfl⟩ := LiveArray.eq_named_of_contents? was
    obtain ⟨kind', slot', rfl⟩ := LiveArray.eq_named_of_contents? (held.trans was)
    obtain ⟨sameKind, sameSlot, _⟩ := kept
    cases sameKind
    cases sameSlot
    rw [content?_of_named here, content?_of_named there]

theorem Extends.undisturbed {allowed : Link → Prop} {except : Set ArrayId} (wf : before.WellFormed)
    (ext : Extends read allowed before after) : Undisturbed read except before after := by
  have names : ∀ id < before.size, after.name id = before.name id := fun _ inside => ext.changes.name inside
  refine ⟨ext.changes.size_le, names, fun id inside _ => ?_, fun id outside inside _ => ?_⟩
  · obtain ⟨array, here⟩ := exists_of_lt inside
    exact content?_of_keeps wf names here (ext.same here) (.refl array) rfl
  · obtain ⟨array, here⟩ := exists_of_lt inside
    obtain ⟨kind, slot, rfl⟩ := LiveArray.eq_named_of_contents? (ext.added outside here)
    exact ⟨⟨kind, slot⟩, name_of_link (link_of_slot here rfl), content?_of_named here⟩

theorem undisturbed_insert (wf : heap.WellFormed) (array : LiveArray) :
    Undisturbed read {heap.size} heap (heap.insert array).2 := by
  have names : ∀ id < heap.size, (heap.insert array).2.name id = heap.name id := by
    intro id inside
    obtain ⟨old, here⟩ := exists_of_lt inside
    exact name_of_keeps here (arrays_insert_of_some here array) (.refl old)
  refine ⟨?_, names, fun id inside _ => ?_, fun id outside inside apart => ?_⟩
  · rw [size_insert]
    exact Nat.le_succ _
  · obtain ⟨old, here⟩ := exists_of_lt inside
    exact content?_of_keeps wf names here (arrays_insert_of_some here array) (.refl old) rfl
  · rw [size_insert] at inside
    exact absurd (Nat.le_antisymm (Nat.le_of_lt_succ inside) outside) apart

theorem name_update {change : LiveArray → LiveArray}
    (keeps : ∀ array, heap.arrays[id]? = some array → array.Keeps (change array)) :
    ∀ other < heap.size, (heap.update id change).name other = heap.name other := by
  intro other inside
  obtain ⟨array, here⟩ := exists_of_lt inside
  obtain ⟨after, there, kept⟩ := Change.keeps_update keeps here
  exact name_of_keeps here there kept

theorem undisturbed_update (wf : heap.WellFormed) {change : LiveArray → LiveArray}
    (keeps : ∀ array, heap.arrays[id]? = some array → array.Keeps (change array)) :
    Undisturbed read {id} heap (heap.update id change) := by
  refine ⟨by rw [size_update], name_update keeps, fun other inside apart => ?_, fun other outside inside _ => ?_⟩
  · obtain ⟨array, here⟩ := exists_of_lt inside
    have there : (heap.update id change).arrays[other]? = some array := by
      rw [arrays_update, if_neg (Ne.symm apart), here]
    exact content?_of_keeps wf (name_update keeps) here there (.refl array) rfl
  · rw [size_update] at inside
    omega

theorem Undisturbed.settle {except : Set ArrayId} (undisturbed : Undisturbed read {id} before after)
    (inside : id < before.size) (same : after.content? read id = before.content? read id) :
    Undisturbed read except before after where
  size_le := undisturbed.size_le
  name := undisturbed.name
  content other known _ := by
    by_cases here : other = id
    · rw [here, same]
    · exact undisturbed.content other known here
  added other outside known _ := by
    refine undisturbed.added other outside known fun here => ?_
    subst here
    exact Nat.not_lt.mpr outside inside

theorem undisturbed_touch {except : Set ArrayId} (wf : heap.WellFormed)
    (here : heap.arrays[id]? = some array) : Undisturbed read except heap (heap.update id .touch) := by
  have keeps : ∀ array : LiveArray, array.Keeps array.touch := fun array => by
    cases array <;> exact ⟨rfl, rfl, fun held => held⟩
  refine (undisturbed_update wf fun array _ => keeps array).settle (lt_size here) ?_
  exact content?_of_keeps wf (name_update fun array _ => keeps array) here (arrays_update_self here)
    (keeps array) array.contents?_touch

theorem undisturbed_load {except : Set ArrayId} (wf : heap.WellFormed) {slot : Slot}
    (here : heap.arrays[id]? = some (.named contents.kind slot)) (saved : heap.Saved read slot contents) :
    Undisturbed read except heap (heap.update id (.load contents)) := by
  have keeps : ∀ array, heap.arrays[id]? = some array → array.Keeps (array.load contents) := by
    intro array was
    rw [here] at was
    cases was
    exact ⟨rfl, rfl, fun _ => rfl⟩
  refine (undisturbed_update wf keeps).settle (lt_size here) ?_
  rw [content?_of_contents? (arrays_update_self here) rfl, content?_of_named here, saved.content?]
  exact congrArg some (map_name (name_update keeps) saved.within.inside)

end Heap

end MeteredArrays
