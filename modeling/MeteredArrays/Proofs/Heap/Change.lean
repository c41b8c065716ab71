import Mathlib.Logic.Relation
import MeteredArrays.Proofs.Heap.WellFormed
import MeteredArrays.Proofs.Record

namespace MeteredArrays

structure LiveArray.Keeps (before after : LiveArray) : Prop where
  kind : after.kind = before.kind
  slot : after.slot? = before.slot?
  inMemory : before.isMaterialized = true → after.isMaterialized = true

theorem LiveArray.Keeps.refl (array : LiveArray) : array.Keeps array := ⟨rfl, rfl, id⟩

theorem LiveArray.Keeps.trans {first second third : LiveArray} (one : first.Keeps second)
    (two : second.Keeps third) : first.Keeps third :=
  ⟨two.kind.trans one.kind, two.slot.trans one.slot, fun h => two.inMemory (one.inMemory h)⟩

namespace Heap

/-- The record at `slot` reads back as `contents`. -/
def Saved (heap : Heap) (read : Slot → Option Record) (slot : Slot) (contents : Contents ArrayId) : Prop :=
  ∃ record links, read slot = some record ∧ Record.decode contents.kind record = .ok links ∧
    contents.traverse heap.link = .ok links

theorem Saved.mono {heap : Heap} (heap' : Heap) {read : Slot → Option Record} {slot : Slot}
    {contents : Contents ArrayId} (saved : heap.Saved read slot contents)
    (links : ∀ id link, heap.link id = .ok link → heap'.link id = .ok link) :
    heap'.Saved read slot contents := by
  obtain ⟨record, found, stored, decoded, resolved⟩ := saved
  refine ⟨record, found, stored, decoded, ?_⟩
  rw [Contents.traverse_eq_ok] at resolved ⊢
  exact resolved.imp fun id _ link => links id link

theorem Saved.within {heap : Heap} {read : Slot → Option Record} {slot : Slot} {contents : Contents ArrayId}
    (saved : heap.Saved read slot contents) : contents.Within heap.size := by
  obtain ⟨record, found, _, decoded, resolved⟩ := saved
  rw [Contents.traverse_eq_ok] at resolved
  constructor
  · rw [← resolved.length_eq]
    exact (Record.of_decode decoded).2.2
  · intro target member
    obtain ⟨link, _, named⟩ := forall₂_exists_of_mem resolved.targets member
    obtain ⟨array, here, _⟩ := link_eq_ok.mp named
    exact lt_size here

/-- One thing that an operation can do to the arrays while records are as `read` tells and only
    `allowed` links are met. -/
inductive Change (read : Slot → Option Record) (allowed : Link → Prop) (heap : Heap) : Heap → Prop
  | fresh (contents : Contents ArrayId) (within : contents.Within heap.size) :
      Change read allowed heap (heap.insert (.fresh contents false)).2
  | named (link : Link) (permitted : allowed link) (unknown : heap.bound? link.slot = none) :
      Change read allowed heap (heap.insert (.named link.kind link.slot)).2
  | loaded (id : ArrayId) (slot : Slot) (contents : Contents ArrayId)
      (here : heap.arrays[id]? = some (.named contents.kind slot)) (saved : heap.Saved read slot contents) :
      Change read allowed heap (heap.update id (.load contents))
  | touched (id : ArrayId) : Change read allowed heap (heap.update id .touch)
  | replaced (id : ArrayId) (array : LiveArray) (current contents : Contents ArrayId)
      (here : heap.arrays[id]? = some array) (dirty : array.isDirty = true)
      (held : array.contents? = some current) (kind : contents.kind = current.kind)
      (within : contents.Within heap.size) :
      Change read allowed heap (heap.update id (.mapContents fun _ => contents))

abbrev Changes (read : Slot → Option Record) (allowed : Link → Prop) : Heap → Heap → Prop :=
  Relation.ReflTransGen (Change read allowed)

namespace Change

variable {read : Slot → Option Record} {allowed : Link → Prop} {heap heap' : Heap}

theorem size_le (change : Change read allowed heap heap') : heap.size ≤ heap'.size := by
  cases change with
  | fresh | named => rw [size_insert]; exact Nat.le_succ _
  | loaded | touched | replaced => rw [size_update]

theorem keeps_update {id : ArrayId} {change : LiveArray → LiveArray}
    (keeps : ∀ array, heap.arrays[id]? = some array → array.Keeps (change array))
    {other : ArrayId} {array : LiveArray} (here : heap.arrays[other]? = some array) :
    ∃ after, (heap.update id change).arrays[other]? = some after ∧ array.Keeps after := by
  rw [arrays_update]
  split
  · rename_i same
    subst other
    exact ⟨change array, by rw [here]; rfl, keeps array here⟩
  · exact ⟨array, here, .refl array⟩

theorem keeps (change : Change read allowed heap heap') {id : ArrayId} {array : LiveArray}
    (here : heap.arrays[id]? = some array) :
    ∃ after, heap'.arrays[id]? = some after ∧ array.Keeps after := by
  cases change with
  | fresh | named => exact ⟨array, arrays_insert_of_some here _, .refl array⟩
  | loaded other slot contents named saved =>
    refine keeps_update (fun before was => ?_) here
    rw [named] at was
    cases was
    exact ⟨rfl, rfl, fun _ => rfl⟩
  | touched other =>
    refine keeps_update (fun before was => ?_) here
    cases before <;> exact ⟨rfl, rfl, fun h => by first | rfl | cases h⟩
  | replaced other old current contents there dirty held kind =>
    refine keeps_update (fun before was => ?_) here
    rw [there] at was
    cases was
    cases old with
    | named => cases dirty
    | fresh | loaded =>
      cases held
      exact ⟨kind, rfl, fun h => h⟩

theorem link (change : Change read allowed heap heap') {id : ArrayId} {link : Link}
    (named : heap.link id = .ok link) : heap'.link id = .ok link := by
  obtain ⟨array, here, kind, slot⟩ := link_eq_ok.mp named
  obtain ⟨after, there, kept⟩ := change.keeps here
  exact link_eq_ok.mpr ⟨after, there, kept.kind.trans kind, kept.slot.trans slot⟩

theorem indexed (change : Change read allowed heap heap') (indexed : heap.Indexed) : heap'.Indexed := by
  cases change with
  | fresh contents within => exact indexed.insert fun _ bound => by cases bound
  | named link permitted unknown => exact indexed.insert fun _ bound => by cases bound; exact unknown
  | loaded id slot contents here saved =>
    refine indexed.update fun array was => ?_
    rw [here] at was
    cases was
    rfl
  | touched id => exact indexed.update fun array _ => array.slot?_touch
  | replaced id array current contents => exact indexed.update fun array _ => LiveArray.slot?_mapContents _ array

theorem wellFormed (change : Change read allowed heap heap') (wf : heap.WellFormed) : heap'.WellFormed := by
  cases change with
  | fresh contents within =>
    exact wf.insert_fresh within
  | named link permitted unknown =>
    exact wf.insert (fun _ bound => by cases bound; exact unknown) fun _ held => by cases held
  | loaded id slot contents here saved =>
    refine wf.update (fun array was => ?_) fun array held was now => ?_
    · rw [here] at was
      cases was
      rfl
    · rw [here] at was
      cases was
      cases now
      exact saved.within
  | touched id =>
    refine wf.update (fun array _ => array.slot?_touch) fun array held was now => ?_
    rw [LiveArray.contents?_touch] at now
    exact wf.within was now
  | replaced id array current contents here dirty held kind within =>
    refine wf.update (fun array _ => LiveArray.slot?_mapContents _ array) fun before after was now => ?_
    rw [here] at was
    cases was
    rw [LiveArray.contents?_mapContents, held] at now
    cases now
    exact within

end Change

def Allows (heap : Heap) (allowed : Link → Prop) : Prop :=
  ∀ {id : ArrayId} {link : Link}, heap.link id = .ok link → allowed link

theorem Change.allows {read : Slot → Option Record} {allowed : Link → Prop} {heap heap' : Heap}
    (change : Change read allowed heap heap') (allows : heap.Allows allowed) : heap'.Allows allowed := by
  intro id link named
  obtain ⟨array, here, kind, slot⟩ := link_eq_ok.mp named
  by_cases old : id < heap.size
  · obtain ⟨before, was⟩ := exists_of_lt old
    obtain ⟨after, there, kept⟩ := change.keeps was
    rw [here] at there
    cases there
    exact allows (link_eq_ok.mpr ⟨before, was, kept.kind.symm.trans kind, kept.slot.symm.trans slot⟩)
  · have bound := lt_size here
    cases change with
    | fresh contents =>
      rw [arrays_insert] at here
      split at here
      · cases here
        cases slot
      · exact absurd (lt_size here) old
    | named new permitted =>
      rw [arrays_insert] at here
      split at here
      · cases here
        cases link
        cases kind
        cases slot
        exact permitted
      · exact absurd (lt_size here) old
    | loaded | touched | replaced => exact absurd (by rwa [size_update] at bound) old

/-- What storage holds of the arrays that were read from it: a record, and the contents of those
    that are not dirty. -/
structure Backed (heap : Heap) (read : Slot → Option Record) : Prop where
  recorded : ∀ {id : ArrayId} {slot : Slot} {contents : Contents ArrayId} {dirty : Bool},
    heap.arrays[id]? = some (.loaded slot contents dirty) → (read slot).isSome = true
  clean : ∀ {id : ArrayId} {slot : Slot} {contents : Contents ArrayId},
    heap.arrays[id]? = some (.loaded slot contents false) → heap.Saved read slot contents

theorem backed_empty (read : Slot → Option Record) : empty.Backed read := by
  constructor <;> intro id <;> simp [empty]

theorem Change.of_loaded {read : Slot → Option Record} {allowed : Link → Prop} {heap heap' : Heap}
    (change : Change read allowed heap heap') {id : ArrayId} {slot : Slot} {contents : Contents ArrayId}
    {dirty : Bool} (now : heap'.arrays[id]? = some (.loaded slot contents dirty)) :
    heap.arrays[id]? = some (.loaded slot contents dirty) ∨
      (dirty = true ∧ ∃ old changed, heap.arrays[id]? = some (.loaded slot old changed)) ∨
      heap.Saved read slot contents := by
  cases change with
  | fresh new | named new =>
    rw [arrays_insert] at now
    split at now
    · cases now
    · exact Or.inl now
  | loaded other slot' new here saved =>
    rw [arrays_update] at now
    split at now
    · rename_i same
      subst other
      rw [here] at now
      cases now
      exact Or.inr (Or.inr saved)
    · exact Or.inl now
  | touched other =>
    rw [arrays_update] at now
    split at now
    · obtain ⟨before, was, touched⟩ := Option.map_eq_some_iff.mp now
      cases before <;> cases touched
      exact Or.inr (Or.inl ⟨rfl, _, _, was⟩)
    · exact Or.inl now
  | replaced other array current new there changed held =>
    rw [arrays_update] at now
    split at now
    · rename_i same
      subst other
      obtain ⟨before, was, replaced⟩ := Option.map_eq_some_iff.mp now
      rw [there] at was
      cases was
      cases array <;> cases replaced
      exact Or.inr (Or.inl ⟨changed, _, _, there⟩)
    · exact Or.inl now

theorem Change.backed {read : Slot → Option Record} {allowed : Link → Prop} {heap heap' : Heap}
    (change : Change read allowed heap heap') (backed : heap.Backed read) : heap'.Backed read := by
  constructor
  · intro id slot contents dirty now
    rcases change.of_loaded now with was | ⟨_, _, _, was⟩ | ⟨record, _, stored, _⟩
    · exact backed.recorded was
    · exact backed.recorded was
    · rw [stored]
      rfl
  · intro id slot contents now
    have stable := fun (saved : heap.Saved read slot contents) => saved.mono heap' fun _ _ => change.link
    rcases change.of_loaded now with was | ⟨dirty, _⟩ | saved
    · exact stable (backed.clean was)
    · cases dirty
    · exact stable saved

namespace Changes

variable {read : Slot → Option Record} {allowed : Link → Prop} {heap heap' : Heap}

theorem preserve (holds : Heap → Prop) (changes : Changes read allowed heap heap')
    (step : ∀ {before after : Heap}, Change read allowed before after → holds before → holds after)
    (start : holds heap) : holds heap' := by
  induction changes with
  | refl => exact start
  | tail _ change ih => exact step change ih

theorem size_le (changes : Changes read allowed heap heap') : heap.size ≤ heap'.size :=
  changes.preserve (fun after => heap.size ≤ after.size) (fun change le => Nat.le_trans le change.size_le)
    (Nat.le_refl _)

theorem keeps (changes : Changes read allowed heap heap') {id : ArrayId} {array : LiveArray}
    (here : heap.arrays[id]? = some array) :
    ∃ after, heap'.arrays[id]? = some after ∧ array.Keeps after := by
  refine changes.preserve (fun heap => ∃ after, heap.arrays[id]? = some after ∧ array.Keeps after) ?_
    ⟨array, here, .refl array⟩
  rintro _ _ change ⟨middle, there, one⟩
  obtain ⟨after, last, two⟩ := change.keeps there
  exact ⟨after, last, one.trans two⟩

theorem inMemory (changes : Changes read allowed heap heap') {id : ArrayId} (held : heap.InMemory id) :
    heap'.InMemory id := by
  obtain ⟨array, contents, here, held⟩ := held
  obtain ⟨after, there, kept⟩ := changes.keeps here
  have materialized := kept.inMemory (by rw [LiveArray.isMaterialized, held]; rfl)
  obtain ⟨contents', held'⟩ := Option.isSome_iff_exists.mp materialized
  exact ⟨after, contents', there, held'⟩

theorem link (changes : Changes read allowed heap heap') {id : ArrayId} {link : Link}
    (named : heap.link id = .ok link) : heap'.link id = .ok link :=
  changes.preserve (fun heap => heap.link id = .ok link) (fun change named => change.link named) named

theorem indexed (changes : Changes read allowed heap heap') (indexed : heap.Indexed) : heap'.Indexed :=
  changes.preserve Indexed Change.indexed indexed

theorem wellFormed (changes : Changes read allowed heap heap') (wf : heap.WellFormed) : heap'.WellFormed :=
  changes.preserve WellFormed Change.wellFormed wf

theorem allows (changes : Changes read allowed heap heap') (allows : heap.Allows allowed) :
    heap'.Allows allowed :=
  changes.preserve (Allows · allowed) (fun change allows => change.allows allows) allows

theorem backed (changes : Changes read allowed heap heap') (backed : heap.Backed read) :
    heap'.Backed read :=
  changes.preserve (Backed · read) Change.backed backed

end Changes

end Heap

end MeteredArrays
