import MeteredArrays.Proofs.Energy.Cost
import MeteredArrays.Proofs.Workspace.Loading

namespace MeteredArrays

namespace Event

def isRefusal : Event → Bool
  | refused .. => true
  | _ => false

def made? : Event → Option ArrayId
  | created id .. | cloned _ id => some id
  | _ => none

def opened? : Event → Option (ArrayId × Slot)
  | materialized id slot _ => some (id, slot)
  | _ => none

def settle (ledger : Ledger) : Event → Ledger
  | charged _ after => after
  | _ => ledger

theorem of_made {event : Event} {id : ArrayId} (makes : event.made? = some id) :
    event.isAudited = true ∧ event.isRefusal = false ∧ event.opened? = none ∧
      ∀ ledger, event.settle ledger = ledger := by
  cases event <;> first | exact ⟨rfl, rfl, rfl, fun _ => rfl⟩ | cases makes

end Event

def trail (journal : Journal) : List Event :=
  journal.toList.filter Event.isAudited

theorem trail_append (journal : Journal) (events : List Event) :
    trail (journal ++ events) = trail journal ++ events.filter Event.isAudited := by
  simp only [trail, Array.toList_appendList, List.filter_append]

def Unrefused (events : List Event) : Prop :=
  ∀ event ∈ events, event.isRefusal = false

theorem Unrefused.concat {events : List Event} (unrefused : Unrefused events) {event : Event}
    (granted : event.isRefusal = false) : Unrefused (events ++ [event]) := by
  intro other member
  rcases List.mem_append.mp member with member | single
  · exact unrefused other member
  · rw [List.mem_singleton.mp single]
    exact granted

/-- The ledger once all events of the trail have happened. -/
def balance (start : Ledger) (trail : List Event) : Ledger :=
  trail.foldl Event.settle start

theorem LiveArray.isMaterialized_eq (array : LiveArray) : array.isMaterialized = array.length?.isSome := by
  rw [isMaterialized, length?, Option.isSome_map]

namespace Heap

def length? (heap : Heap) (id : ArrayId) : Option Nat :=
  heap.arrays[id]?.bind LiveArray.length?

def isUnbound (heap : Heap) (id : ArrayId) : Bool :=
  heap.arrays[id]?.any (!·.isBound)

def unboundIds (heap : Heap) : List ArrayId :=
  (List.range heap.size).filter heap.isUnbound

def Opened (heap : Heap) (id : ArrayId) (slot : Slot) : Prop :=
  ∃ array, heap.arrays[id]? = some array ∧ array.slot? = some slot ∧ array.isMaterialized = true

/-- A change that is not part of the trail: arrays keep their slots and lengths, and new ones are only named. -/
structure Unheard (heap after : Heap) : Prop where
  same : ∀ {id : ArrayId} {array : LiveArray}, heap.arrays[id]? = some array →
    ∃ array', after.arrays[id]? = some array' ∧ array'.slot? = array.slot? ∧ array'.length? = array.length?
  added : ∀ {id : ArrayId} {array : LiveArray}, heap.size ≤ id → after.arrays[id]? = some array →
    array.contents? = none

namespace Unheard

variable {heap middle after : Heap}

theorem size_le (unheard : Unheard heap after) : heap.size ≤ after.size := by
  by_contra smaller
  obtain ⟨array, here⟩ := exists_of_lt (Nat.not_le.mp smaller)
  obtain ⟨array', there, _⟩ := unheard.same here
  exact Nat.lt_irrefl _ (lt_size there)

theorem of_extends {read : Slot → Option Record} {allowed : Link → Prop}
    (ext : Extends read allowed heap after) : Unheard heap after where
  same here := ⟨_, ext.same here, rfl, rfl⟩
  added := ext.added

theorem update {id : ArrayId} {change : LiveArray → LiveArray}
    (keeps : ∀ array, heap.arrays[id]? = some array →
      (change array).slot? = array.slot? ∧ (change array).length? = array.length?) :
    Unheard heap (heap.update id change) where
  same {other array} here := by
    by_cases at' : id = other
    · subst other
      exact ⟨_, arrays_update_self here, keeps array here⟩
    · refine ⟨array, ?_, rfl, rfl⟩
      rw [arrays_update, if_neg at', here]
  added outside here := by
    have inside := lt_size here
    rw [size_update] at inside
    exact absurd inside (Nat.not_lt.mpr outside)

theorem length? (unheard : Unheard heap after) {id : ArrayId} {count : Nat}
    (known : heap.length? id = some count) : after.length? id = some count := by
  obtain ⟨array, here, long⟩ := Option.bind_eq_some_iff.mp known
  obtain ⟨array', there, _, same⟩ := unheard.same here
  exact Option.bind_eq_some_iff.mpr ⟨array', there, same.trans long⟩

theorem unboundIds (unheard : Unheard heap after) : after.unboundIds = heap.unboundIds := by
  obtain ⟨more, size⟩ := Nat.exists_eq_add_of_le unheard.size_le
  have old : ∀ id ∈ List.range heap.size, after.isUnbound id = heap.isUnbound id := by
    intro id member
    obtain ⟨array, here⟩ := exists_of_lt (List.mem_range.mp member)
    obtain ⟨array', there, slot, _⟩ := unheard.same here
    rw [isUnbound, isUnbound, here, there, Option.any_some, Option.any_some, LiveArray.isBound,
      LiveArray.isBound, slot]
  have new : ((List.range more).map (heap.size + ·)).filter after.isUnbound = [] := by
    apply List.filter_eq_nil_iff.mpr
    intro id member found
    obtain ⟨step, _, rfl⟩ := List.mem_map.mp member
    obtain ⟨array, here, unbound⟩ := (Option.any_eq_true _ _).mp found
    obtain ⟨kind, slot, rfl⟩ := LiveArray.eq_named_of_contents? (unheard.added (Nat.le_add_right _ _) here)
    cases unbound
  rw [Heap.unboundIds, Heap.unboundIds, size, List.range_add, List.filter_append, new, List.append_nil,
    List.filter_congr old]

theorem opened (unheard : Unheard heap after) (id : ArrayId) (slot : Slot) :
    after.Opened id slot ↔ heap.Opened id slot := by
  constructor
  · rintro ⟨array', there, slot', inMemory⟩
    by_cases old : id < heap.size
    · obtain ⟨array, here⟩ := exists_of_lt old
      obtain ⟨_, there', bound, long⟩ := unheard.same here
      rw [there] at there'
      cases there'
      rw [LiveArray.isMaterialized_eq, long, ← LiveArray.isMaterialized_eq] at inMemory
      exact ⟨array, here, bound.symm.trans slot', inMemory⟩
    · have unread := unheard.added (Nat.not_lt.mp old) there
      rw [LiveArray.isMaterialized, unread] at inMemory
      cases inMemory
  · rintro ⟨array, here, slot', inMemory⟩
    obtain ⟨array', there, bound, long⟩ := unheard.same here
    rw [LiveArray.isMaterialized_eq, ← long, ← LiveArray.isMaterialized_eq] at inMemory
    exact ⟨array', there, bound.trans slot', inMemory⟩

end Unheard

variable {heap : Heap} {id : ArrayId}

theorem unboundIds_insert (contents : Contents ArrayId) (dirty : Bool) :
    (heap.insert (.fresh contents dirty)).2.unboundIds = heap.unboundIds ++ [heap.size] := by
  have old : ∀ id ∈ List.range heap.size,
      (heap.insert (.fresh contents dirty)).2.isUnbound id = heap.isUnbound id := by
    intro id member
    rw [isUnbound, isUnbound, arrays_insert, if_neg (Nat.ne_of_lt (List.mem_range.mp member))]
  have new : (heap.insert (.fresh contents dirty)).2.isUnbound heap.size = true := by
    rw [isUnbound, arrays_insert, if_pos rfl]
    rfl
  rw [unboundIds, unboundIds, size_insert, List.range_succ, List.filter_append, List.filter_congr old,
    List.filter_cons_of_pos new, List.filter_nil]

theorem opened_insert (contents : Contents ArrayId) (dirty : Bool) (slot : Slot) :
    (heap.insert (.fresh contents dirty)).2.Opened id slot ↔ heap.Opened id slot := by
  simp only [Opened, arrays_insert]
  by_cases new : id = heap.size
  · subst new
    rw [if_pos rfl]
    constructor
    · intro opened
      obtain ⟨array, here, bound, _⟩ := opened
      cases here
      cases bound
    · intro opened
      obtain ⟨array, here, _⟩ := opened
      exact absurd (lt_size here) (Nat.lt_irrefl _)
  · rw [if_neg new]

theorem length?_insert {array : LiveArray} {count : Nat} (known : heap.length? id = some count) :
    (heap.insert array).2.length? id = some count := by
  obtain ⟨old, here, long⟩ := Option.bind_eq_some_iff.mp known
  exact Option.bind_eq_some_iff.mpr ⟨old, arrays_insert_of_some here _, long⟩

section Loading

variable {kind : Kind} {slot : Slot} (contents : Contents ArrayId)
  (here : heap.arrays[id]? = some (.named kind slot))

include here

theorem unboundIds_load : (heap.update id (.load contents)).unboundIds = heap.unboundIds := by
  rw [unboundIds, unboundIds, size_update]
  apply List.filter_congr
  intro other _
  rw [isUnbound, isUnbound, arrays_update]
  by_cases at' : id = other
  · subst other
    rw [if_pos rfl, here]
    rfl
  · rw [if_neg at']

theorem not_opened_of_named (slot' : Slot) : ¬ heap.Opened id slot' := by
  rintro ⟨array, there, _, inMemory⟩
  rw [here] at there
  cases there
  cases inMemory

theorem opened_load (other : ArrayId) (slot' : Slot) :
    (heap.update id (.load contents)).Opened other slot' ↔
      heap.Opened other slot' ∨ (id, slot) = (other, slot') := by
  rw [Opened, arrays_update]
  by_cases at' : id = other
  · subst other
    rw [if_pos rfl, here]
    constructor
    · intro opened
      obtain ⟨array, loaded, bound, _⟩ := opened
      cases loaded
      cases bound
      exact Or.inr rfl
    · rintro (opened | same)
      · exact absurd opened (not_opened_of_named here slot')
      · cases same
        exact ⟨_, rfl, rfl, rfl⟩
  · rw [if_neg at']
    constructor
    · exact Or.inl
    · rintro (opened | same)
      · exact opened
      · exact absurd (Prod.mk.inj same).1 at'

theorem length?_load {other : ArrayId} {count : Nat} (known : heap.length? other = some count) :
    (heap.update id (.load contents)).length? other = some count := by
  obtain ⟨array, there, long⟩ := Option.bind_eq_some_iff.mp known
  by_cases at' : id = other
  · subst other
    rw [here] at there
    cases there
    cases long
  · refine Option.bind_eq_some_iff.mpr ⟨array, ?_, long⟩
    rw [arrays_update, if_neg at', there]

end Loading

end Heap

variable {schedule : Schedule} {start ledger : Ledger} {heap : Heap} {events : List Event}

/-- Why an event could be told after those `before` it. -/
def Warranted (schedule : Schedule) (start : Ledger) (heap : Heap) (before : List Event) : Event → Prop
  | .charged cost ledger =>
    ledger.limit = (balance start before).limit ∧
      ledger.used.toNat = (balance start before).used.toNat + cost.toNat
  | .refused cost ledger => ledger = balance start before ∧ ledger.remaining < cost
  | .created _ kind length => ∃ cost ledger, before.getLast? = some (.charged cost ledger) ∧
      cost.toNat = (Metered.creation kind length).exact schedule
  | .cloned source _ => ∃ cost ledger count, before.getLast? = some (.charged cost ledger) ∧
      heap.length? source = some count ∧
      cost.toNat = schedule.cloneBase.toNat + count * schedule.cloneElement.toNat
  | .materialized .. => True
  | _ => False

theorem Warranted.mono {heap' : Heap} {event : Event} (warranted : Warranted schedule start heap events event)
    (lengths : ∀ id count, heap.length? id = some count → heap'.length? id = some count) :
    Warranted schedule start heap' events event := by
  cases event with
  | cloned source id =>
    obtain ⟨cost, ledger, count, charged, long, price⟩ := warranted
    exact ⟨cost, ledger, count, charged, lengths source count long, price⟩
  | _ => exact warranted

/-- The events tell how the ledger and the heap came about. -/
structure Faithful (schedule : Schedule) (start ledger : Ledger) (heap : Heap) (events : List Event) : Prop where
  warranted : ∀ {before event after}, events = before ++ event :: after →
    Warranted schedule start heap before event
  last : ∀ {before event after}, events = before ++ event :: after → event.isRefusal = true → after = []
  settled : balance start events = ledger
  made : events.filterMap Event.made? = heap.unboundIds
  distinct : ((events.filterMap Event.opened?).map Prod.fst).Nodup
  opened : ∀ id slot, (id, slot) ∈ events.filterMap Event.opened? ↔ heap.Opened id slot

theorem split_concat {last event : Event} {before after : List Event}
    (split : events ++ [last] = before ++ event :: after) :
    (before = events ∧ event = last ∧ after = []) ∨
      ∃ rest, after = rest ++ [last] ∧ events = before ++ event :: rest := by
  rcases after.eq_nil_or_concat with none | ⟨rest, final, more⟩
  · subst none
    obtain ⟨same, single⟩ := List.append_inj' split rfl
    cases single
    exact Or.inl ⟨same.symm, rfl, rfl⟩
  · subst more
    have split : events ++ [last] = (before ++ event :: rest) ++ [final] := by simpa using split
    obtain ⟨same, single⟩ := List.append_inj' split rfl
    cases single
    exact Or.inr ⟨rest, by simp, same⟩

namespace Faithful

theorem empty (schedule : Schedule) (start : Ledger) : Faithful schedule start start Heap.empty [] where
  warranted split := by simp at split
  last split := by simp at split
  settled := rfl
  made := rfl
  distinct := List.nodup_nil
  opened id slot := by
    constructor
    · intro member
      cases member
    · rintro ⟨array, here, _⟩
      exact absurd (Heap.lt_size here) (Nat.not_lt_zero id)

theorem unheard {after : Heap} (faithful : Faithful schedule start ledger heap events)
    (unheard : heap.Unheard after) : Faithful schedule start ledger after events where
  warranted split := (faithful.warranted split).mono fun _ _ known => unheard.length? known
  last := faithful.last
  settled := faithful.settled
  made := faithful.made.trans unheard.unboundIds.symm
  distinct := faithful.distinct
  opened id slot := (faithful.opened id slot).trans (unheard.opened id slot).symm

theorem tell {event : Event} {ledger' : Ledger} {heap' : Heap}
    (faithful : Faithful schedule start ledger heap events)
    (unrefused : Unrefused events)
    (lengths : ∀ id count, heap.length? id = some count → heap'.length? id = some count)
    (warranted : Warranted schedule start heap' events event) (settles : event.settle ledger = ledger')
    (made : heap'.unboundIds = heap.unboundIds ++ event.made?.toList)
    (distinct : ∀ id slot slot', event.opened? = some (id, slot) → ¬ heap.Opened id slot')
    (opened : ∀ id slot, heap'.Opened id slot ↔ heap.Opened id slot ∨ event.opened? = some (id, slot)) :
    Faithful schedule start ledger' heap' (events ++ [event]) where
  warranted := by
    intro before other after split
    rcases split_concat split with ⟨rfl, rfl, _⟩ | ⟨rest, _, split⟩
    · exact warranted
    · exact (faithful.warranted split).mono lengths
  last := by
    intro before other after split refusal
    rcases split_concat split with ⟨_, _, none⟩ | ⟨rest, _, split⟩
    · exact none
    · have member : other ∈ events := by
        rw [split]
        exact List.mem_append_right _ List.mem_cons_self
      rw [unrefused other member] at refusal
      cases refusal
  settled := by
    rw [balance, List.foldl_append, List.foldl_cons, List.foldl_nil, ← settles]
    exact congrArg event.settle faithful.settled
  made := by
    rw [filterMap_concat, faithful.made, made]
  distinct := by
    rw [filterMap_concat]
    cases opens : event.opened? with
    | none =>
      rw [Option.toList_none, List.append_nil]
      exact faithful.distinct
    | some pair =>
      obtain ⟨id, slot⟩ := pair
      rw [Option.toList_some, List.map_append, List.map_singleton]
      refine List.nodup_append.mpr ⟨faithful.distinct, by simp, ?_⟩
      intro _ member _ single same
      rw [List.mem_singleton.mp single] at same
      subst same
      obtain ⟨⟨_, slot'⟩, before, rfl⟩ := List.mem_map.mp member
      exact distinct _ slot slot' opens ((faithful.opened _ slot').mp before)
  opened id slot := by
    rw [filterMap_concat, List.mem_append, Option.mem_toList, faithful.opened, opened]

variable {id : ArrayId} (faithful : Faithful schedule start ledger heap events)
  (unrefused : Unrefused events)

include faithful unrefused

theorem note {event : Event} {ledger' : Ledger} {heap' : Heap} (opens : event.opened? = none)
    (lengths : ∀ id count, heap.length? id = some count → heap'.length? id = some count)
    (warranted : Warranted schedule start heap' events event) (settles : event.settle ledger = ledger')
    (made : heap'.unboundIds = heap.unboundIds ++ event.made?.toList)
    (opened : ∀ id slot, heap'.Opened id slot ↔ heap.Opened id slot) :
    Faithful schedule start ledger' heap' (events ++ [event]) := by
  apply faithful.tell unrefused lengths warranted settles made
  · intro _ _ _ other
    rw [opens] at other
    cases other
  · intro id slot
    rw [opened, opens]
    simp

theorem charged {cost : UInt64} {after : Ledger} (spent : ledger.spend? cost = some after) :
    Faithful schedule start after heap (events ++ [.charged cost after]) := by
  have warranted : Warranted schedule start heap events (.charged cost after) := by
    rw [Warranted, faithful.settled]
    exact Ledger.spend?_eq_some.mp spent
  exact faithful.note unrefused rfl (fun _ _ known => known) warranted rfl (List.append_nil _).symm
    fun _ _ => Iff.rfl

theorem refused {cost : UInt64} (short : ledger.spend? cost = none) :
    Faithful schedule start ledger heap (events ++ [.refused cost ledger]) := by
  have warranted : Warranted schedule start heap events (.refused cost ledger) :=
    ⟨faithful.settled.symm, Ledger.spend?_eq_none.mp short⟩
  exact faithful.note unrefused rfl (fun _ _ known => known) warranted rfl (List.append_nil _).symm
    fun _ _ => Iff.rfl

theorem inserted {event : Event} {contents : Contents ArrayId} (makes : event.made? = some heap.size)
    (warranted : Warranted schedule start (heap.insert (.fresh contents false)).2 events event) :
    Faithful schedule start ledger (heap.insert (.fresh contents false)).2 (events ++ [event]) := by
  obtain ⟨_, _, opens, settles⟩ := Event.of_made makes
  have made : (heap.insert (.fresh contents false)).2.unboundIds = heap.unboundIds ++ event.made?.toList := by
    rw [makes]
    exact Heap.unboundIds_insert contents false
  exact faithful.note unrefused opens (fun _ _ known => Heap.length?_insert known) warranted (settles ledger) made
    fun _ slot => Heap.opened_insert contents false slot

theorem loaded {kind : Kind} {slot : Slot} {contents : Contents ArrayId} {count : Nat}
    (here : heap.arrays[id]? = some (.named kind slot)) :
    Faithful schedule start ledger (heap.update id (.load contents))
      (events ++ [.materialized id slot count]) := by
  have warranted : Warranted schedule start (heap.update id (.load contents)) events
    (.materialized id slot count) := trivial
  apply faithful.tell unrefused (fun _ _ known => Heap.length?_load contents here known) warranted rfl
  · rw [Heap.unboundIds_load contents here]
    exact (List.append_nil _).symm
  · intro _ _ slot' opens
    cases opens
    exact Heap.not_opened_of_named here slot'
  · intro other slot'
    rw [Heap.opened_load contents here]
    exact or_congr_right ⟨congrArg some, Option.some.inj⟩

end Faithful

end MeteredArrays
