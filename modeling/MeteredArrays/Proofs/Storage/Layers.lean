import MeteredArrays.Proofs.Heap.Lookup
import MeteredArrays.Proofs.Storage.Laws

namespace MeteredArrays.Layers

variable {β : Type} [Storage β]

theorem read_layer (below : Layers β) (writes : Records) (slot : Slot) :
    (layer below writes).read slot = writes[slot]?.or (below.read slot) := by
  rw [read]
  cases writes[slot]? <;> rfl

theorem read_push (layers : Layers β) (slot : Slot) : Storage.read layers.push slot = Storage.read layers slot := by
  apply (read_layer layers ∅ slot).trans
  rw [Std.ExtTreeMap.getElem?_empty]
  rfl

instance [FaithfulStorage β] : FaithfulStorage (Layers β) where
  read_allocate layers slot := by
    induction layers with
    | base backend => exact FaithfulStorage.read_allocate backend slot
    | layer below writes ih =>
      refine (read_layer _ writes slot).trans (Eq.trans ?_ (read_layer below writes slot).symm)
      exact congrArg _ ih
  read_write {layers after slot record} written other := by
    cases layers with
    | base backend =>
      simp only [Storage.write, write] at written
      split at written
      · rename_i backend' accepted
        cases written
        exact FaithfulStorage.read_write accepted other
      · cases written
    | layer below writes =>
      cases written
      refine (read_layer below _ other).trans ?_
      rw [getElem?_insert_slot]
      by_cases same : slot = other
      · rw [if_pos same, if_pos same]
        rfl
      · rw [if_neg same, if_neg same]
        exact (read_layer below writes other).symm

instance [ReliableStorage β] : ReliableStorage (Layers β) where
  accepts slot record layers := by
    cases layers with
    | base backend =>
      obtain ⟨after, accepted⟩ := ReliableStorage.accepts slot record backend
      refine ⟨base after, ?_⟩
      simp only [Storage.write, write]
      rw [accepted]
    | layer below writes => exact ⟨_, rfl⟩

theorem accepting_layer (below : Layers β) (writes : Records) : Storage.Accepting (layer below writes) := by
  intro used uses slot record
  have buffered : ∃ below writes, used = layer below writes := by
    induction uses with
    | refl => exact ⟨below, writes, rfl⟩
    | tail _ use ih =>
      obtain ⟨below, writes, rfl⟩ := ih
      cases use with
      | allocate => exact ⟨_, _, rfl⟩
      | write written =>
        cases written
        exact ⟨_, _, rfl⟩
  obtain ⟨below, writes, rfl⟩ := buffered
  exact ⟨_, rfl⟩

theorem handouts_base (count : Nat) (backend : β) :
    Storage.handouts count (base backend) = Storage.handouts count backend := by
  induction count generalizing backend with
  | zero => rfl
  | succ count ih => exact congrArg (List.cons _) (ih _)

theorem handouts_layer (count : Nat) (below : Layers β) (writes : Records) :
    Storage.handouts count (layer below writes) = Storage.handouts count below := by
  induction count generalizing below with
  | zero => rfl
  | succ count ih => exact congrArg (List.cons _) (ih _)

theorem handouts_bottom (count : Nat) (layers : Layers β) :
    Storage.handouts count layers = Storage.handouts count layers.bottom := by
  induction layers with
  | base backend => exact handouts_base count backend
  | layer below writes ih => rw [handouts_layer, ih, bottom]

theorem supplies_below {count : Nat} {below : Layers β} {writes : Records}
    (supplies : Storage.Supplies count (layer below writes)) : Storage.Supplies count below := by
  have same := handouts_layer count below writes
  refine ⟨same ▸ supplies.nodup, fun slot member => ?_⟩
  rw [← same] at member
  have absent := (read_layer below writes slot).symm.trans (supplies.unrecorded slot member)
  exact (Option.or_eq_none_iff.mp absent).2

theorem unhanded {count : Nat} {below : Layers β} {writes : Records}
    (supplies : Storage.Supplies count (layer below writes)) :
    ∀ slot ∈ writes.toList.map Prod.fst, slot ∉ Storage.handouts count below := by
  intro slot member handed
  obtain ⟨⟨_, record⟩, listed, rfl⟩ := List.mem_map.mp member
  rw [Std.ExtTreeMap.mem_toList_iff_getElem?_eq_some] at listed
  rw [← handouts_layer count below writes] at handed
  have absent := (read_layer below writes _).symm.trans (supplies.unrecorded _ handed)
  rw [listed] at absent
  cases absent

theorem reserve_base (count : Nat) (backend : β) :
    Storage.reserve count (base backend) = base (Storage.reserve count backend) := by
  induction count generalizing backend with
  | zero => rfl
  | succ count ih => exact ih _

theorem reserve_layer (count : Nat) (below : Layers β) (writes : Records) :
    Storage.reserve count (layer below writes) = layer (Storage.reserve count below) writes := by
  induction count generalizing below with
  | zero => rfl
  | succ count ih => exact ih _

theorem reserve_eq_mapBottom (count : Nat) (layers : Layers β) :
    Storage.reserve count layers = layers.mapBottom (Storage.reserve count) := by
  induction layers with
  | base backend => exact reserve_base count backend
  | layer below writes ih => rw [reserve_layer, ih, mapBottom]

theorem bottom_reserve (count : Nat) (layers : Layers β) :
    (Storage.reserve count layers).bottom = Storage.reserve count layers.bottom := by
  induction layers with
  | base backend => rw [reserve_base, bottom, bottom]
  | layer below writes ih => rw [reserve_layer, bottom, ih, bottom]

omit [Storage β] in
theorem mapBottom_congr {change change' : β → β} {layers : Layers β}
    (same : change layers.bottom = change' layers.bottom) : layers.mapBottom change = layers.mapBottom change' := by
  induction layers with
  | base backend => exact congrArg base same
  | layer below writes ih => exact congrArg (layer · writes) (ih same)

instance [SteadyStorage β] : SteadyStorage (Layers β) where
  handouts_write {count layers after slot record} supplies other written := by
    cases layers with
    | base backend =>
      simp only [Storage.write, write] at written
      split at written
      · rename_i backend' accepted
        cases written
        rw [handouts_base] at other ⊢
        rw [handouts_base]
        refine SteadyStorage.handouts_write ⟨?_, fun next member => ?_⟩ other accepted
        · have nodup := supplies.nodup
          rwa [handouts_base] at nodup
        · rw [← handouts_base] at member
          exact supplies.unrecorded next member
      · cases written
    | layer below writes =>
      cases written
      rw [handouts_layer, handouts_layer]

def EveryLevel (holds : Layers β → Prop) : Layers β → Prop
  | base backend => holds (base backend)
  | layer below writes => holds (layer below writes) ∧ EveryLevel holds below

def Beneath (holds : Layers β → Prop) : Layers β → Prop
  | base _ => True
  | layer below _ => EveryLevel holds below

omit [Storage β] in
theorem everyLevel_iff {holds : Layers β → Prop} {layers : Layers β} :
    EveryLevel holds layers ↔ holds layers ∧ Beneath holds layers := by
  cases layers with
  | base backend => exact ⟨fun h => ⟨h, trivial⟩, fun h => h.1⟩
  | layer below writes => exact Iff.rfl

omit [Storage β] in
theorem EveryLevel.imp {holds holds' : Layers β → Prop} {layers : Layers β} (every : EveryLevel holds layers)
    (weaker : ∀ level, holds level → holds' level) : EveryLevel holds' layers := by
  induction layers with
  | base backend => exact weaker _ every
  | layer below writes ih => exact ⟨weaker _ every.1, ih every.2⟩

theorem EveryLevel.reserve {holds holds' : Layers β → Prop} {layers : Layers β} (count : Nat)
    (every : EveryLevel holds layers)
    (reserved : ∀ level, holds level → holds' (Storage.reserve count level)) :
    EveryLevel holds' (Storage.reserve count layers) := by
  induction layers with
  | base backend =>
    have here := reserved _ every
    rw [reserve_base] at here ⊢
    exact here
  | layer below writes ih =>
    have here := reserved _ every.1
    rw [reserve_layer] at here ⊢
    exact ⟨here, ih every.2⟩

theorem Beneath.wrote {holds : Layers β → Prop} {writes : List (Slot × Record)} {before after : Layers β}
    (wrote : Storage.Wrote writes before after) (beneath : Beneath holds before) : Beneath holds after := by
  induction wrote with
  | nil => exact beneath
  | @cons _ _ before _ _ written _ ih =>
    refine ih ?_
    cases before with
    | base backend =>
      simp only [Storage.write, write] at written
      split at written <;> cases written
      trivial
    | layer below buffered =>
      cases written
      exact beneath

theorem apply_ends (writes : Records) (below : Layers β) :
    Ends (apply writes below) (fun _ after => Storage.Wrote writes.toList below after)
      (fun fault after => ∃ accepted, Storage.Refused accepted writes.toList below fault after) := by
  unfold apply
  generalize writes.toList = list
  induction list generalizing below with
  | nil => exact .nil below
  | cons pair list ih =>
    rw [forM_cons_apply]
    cases written : Storage.write pair.1 pair.2 below with
    | error fault after =>
      simp only [EStateM.bind, show write pair.1 pair.2 below = .error fault after from written]
      exact ⟨0, .here written⟩
    | ok _ middle =>
      simp only [EStateM.bind, show write pair.1 pair.2 below = .ok () middle from written]
      apply (ih middle).imp
      · intro _ after wrote
        exact .cons written wrote
      · intro fault after ⟨accepted, refused⟩
        exact ⟨accepted + 1, .later written refused⟩

theorem apply_wrote {below : Layers β} (accepting : Storage.Accepting below) (writes : Records) :
    ∃ after, apply writes below = .ok () after ∧ Storage.Wrote writes.toList below after := by
  obtain ⟨_, after, applied, wrote⟩ := (apply_ends writes below).exists_ok
    fun _ _ ⟨_, refused⟩ => accepting.not_refused refused
  exact ⟨after, applied, wrote⟩

/-- What is read below a layer once its buffer is applied is what was read through the layer. -/
theorem read_apply [FaithfulStorage β] {writes : Records} {below after : Layers β}
    (wrote : Storage.Wrote writes.toList below after) :
    Storage.read after = Storage.read (layer below writes) := by
  funext slot
  rw [wrote.read]
  refine Eq.trans ?_ (read_layer below writes slot).symm
  cases found : writes[slot]? with
  | none =>
    refine overwrite_of_not_mem fun member => ?_
    obtain ⟨⟨_, record⟩, listed, rfl⟩ := List.mem_map.mp member
    rw [Std.ExtTreeMap.mem_toList_iff_getElem?_eq_some, found] at listed
    cases listed
  | some record =>
    refine overwrite_of_mem ?_ (Std.ExtTreeMap.mem_toList_iff_getElem?_eq_some.mpr found)
    rw [Std.ExtTreeMap.map_fst_toList_eq_keys]
    exact Std.ExtTreeMap.nodup_keys

end MeteredArrays.Layers
