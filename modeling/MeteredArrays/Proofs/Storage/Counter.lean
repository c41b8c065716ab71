import MeteredArrays.Proofs.Storage.Freshness

namespace MeteredArrays.Memory

theorem number_iterate_after (span : Nat) (slot : Slot) :
    (after^[span] slot).number.toNat = (slot.number.toNat + span) % UInt64.size := by
  have here : (upcoming (span + 1) slot)[span]? = some (after^[span] slot) := by
    rw [upcoming_add, List.getElem?_append_right (Nat.le_of_eq (length_upcoming _ _)), length_upcoming, Nat.sub_self]
    rfl
  exact getElem?_upcoming here

theorem number_first {span : Nat} (fits : span < UInt64.size) : (after^[span] ⟨0⟩).number.toNat = span := by
  rw [number_iterate_after]
  exact (congrArg (· % UInt64.size) (Nat.zero_add span)).trans (Nat.mod_eq_of_lt fits)

theorem number_lt_of_mem {span : Nat} (fits : span < UInt64.size) {slot : Slot} (member : slot ∈ upcoming span ⟨0⟩) :
    slot.number.toNat < span := by
  obtain ⟨place, here⟩ := List.getElem?_of_mem member
  have inside := (List.getElem?_eq_some_iff.mp here).1
  have number : slot.number.toNat = (0 + place) % UInt64.size := getElem?_upcoming here
  rw [length_upcoming] at inside
  rw [Nat.zero_add, Nat.mod_eq_of_lt (Nat.lt_trans inside fits)] at number
  rw [number]
  exact inside

section Room

variable {start : Slot} {span : Nat} {handed : List Slot} {records : Records}

theorem le_of_used_within (all : span ≤ UInt64.size)
    (used : ∀ slot ∈ upcoming span start, slot ∈ handed ∨ slot ∈ records) : span ≤ handed.length + records.size := by
  have nodup := nodup_upcoming all start
  have whole := List.length_eq_length_filter_add (l := upcoming span start) fun slot => decide (slot ∈ records)
  have recorded : ((upcoming span start).filter fun slot => decide (slot ∈ records)).length ≤ records.size :=
    length_le_size (nodup.filter _) (by simp)
  have others : ((upcoming span start).filter fun slot => !decide (slot ∈ records)).length ≤ handed.length := by
    refine ((nodup.filter _).subperm fun slot member => ?_).length_le
    have absent : slot ∉ records := by simpa using List.of_mem_filter member
    exact (used slot (List.mem_of_mem_filter member)).resolve_right absent
  rw [length_upcoming] at whole
  omega

theorem le_of_used (room : handed.length + records.size < UInt64.size)
    (used : ∀ slot ∈ upcoming span start, slot ∈ handed ∨ slot ∈ records) : span ≤ handed.length + records.size := by
  by_cases all : span ≤ UInt64.size
  · exact le_of_used_within all used
  · -- Then even a whole turn of the counter would be used.
    have turn : UInt64.size ≤ handed.length + records.size := le_of_used_within (Nat.le_refl _) fun slot member =>
      used slot (upcoming_subset (Nat.le_of_not_le all) start member)
    omega

theorem exists_spare (room : handed.length + records.size < UInt64.size) :
    ∃ spare, spare ∉ records ∧ spare ∉ handed := by
  by_contra none
  have used : ∀ slot ∈ upcoming UInt64.size (⟨0⟩ : Slot), slot ∈ handed ∨ slot ∈ records := by
    intro slot _
    by_contra unused
    obtain ⟨unhanded, unrecorded⟩ := not_or.mp unused
    exact none ⟨slot, unrecorded, unhanded⟩
  exact Nat.not_lt.mpr (le_of_used room used) room

end Room

/-- The search for a slot without a record goes on one slot at a time, and each number on the way fits into
    64 bits. -/
inductive Search (records : Records) : Slot → Slot → Prop
  | found {slot : Slot} (free : slot ∉ records) : Search records slot slot
  | next {slot last : Slot} (taken : slot ∈ records) (fits : slot.number.toNat + 1 < UInt64.size)
      (rest : Search records (after slot) last) : Search records slot last

theorem search_of_skip {records : Records} {skip : Nat} {slot : Slot}
    (skipped : ∀ other ∈ upcoming skip slot, other ∈ records) (free : after^[skip] slot ∉ records)
    (fits : slot.number.toNat + skip < UInt64.size) : Search records slot (after^[skip] slot) := by
  induction skip generalizing slot with
  | zero => exact .found free
  | succ skip ih =>
    have number : (after slot).number.toNat = slot.number.toNat + 1 := by
      have one := number_iterate_after 1 slot
      rwa [Nat.mod_eq_of_lt (by omega)] at one
    refine .next (skipped slot List.mem_cons_self) (by omega) (ih ?_ free (by omega))
    exact fun other member => skipped other (List.mem_cons_of_mem _ member)

structure Allocates (memory : Memory) (slot : Slot) (later : Memory) : Prop where
  search : Search memory.records memory.next slot
  fits : slot.number.toNat + 1 < UInt64.size
  unrecorded : Storage.read memory slot = none
  counter : later.next.number.toNat = slot.number.toNat + 1
  records : later.records = memory.records

theorem Passed.allocates {span : Nat} {handed : List Slot} {memory : Memory} (passed : Passed ⟨0⟩ span handed memory)
    (room : handed.length + memory.records.size + 1 < UInt64.size) :
    Allocates memory (Storage.allocate memory).1 (Storage.allocate memory).2 ∧
      ∀ slot ∈ handed, slot.number < (Storage.allocate memory).1.number := by
  have room' : handed.length + memory.records.size < UInt64.size := Nat.lt_of_succ_lt room
  obtain ⟨skip, slot, skipped, used⟩ := passed.reach
  have reach := le_of_used room' used
  have place : (Storage.allocate memory).1.number.toNat = span + skip := by
    rw [slot]
    exact number_first (by omega)
  have next : memory.next.number.toNat = span := by
    rw [passed.next]
    exact number_first (by omega)
  obtain ⟨spare, unrecorded, _⟩ := exists_spare room'
  have free := allocate_unrecorded unrecorded
  have found : (Storage.allocate memory).1 = after^[skip] memory.next := by
    rw [slot, passed.next, Nat.add_comm, Function.iterate_add_apply]
  constructor
  · refine ⟨?_, by omega, Std.ExtTreeMap.getElem?_eq_none free, ?_, rfl⟩
    · rw [found] at free ⊢
      exact search_of_skip skipped free (by omega)
    · have one : (after (Storage.allocate memory).1).number.toNat = _ := number_iterate_after 1 _
      rw [Nat.mod_eq_of_lt (by omega)] at one
      exact one
  · intro earlier member
    apply UInt64.lt_iff_toNat_lt.mpr
    have before := number_lt_of_mem (by omega) (passed.within earlier member)
    omega

inductive Use where
  | insert (slot : Slot) (record : Record)
  | write (slot : Slot) (record : Record)
  | read (slot : Slot)
  | allocate
  deriving DecidableEq

def use (memory : Memory) : Use → Memory
  | .insert slot record => memory.insert slot record
  | .write slot record =>
    match Storage.write slot record memory with
    | .ok _ later | .error _ later => later
  | .read _ => memory
  | .allocate => (Storage.allocate memory).2

def grant (memory : Memory) : Use → List Slot
  | .allocate => [(Storage.allocate memory).1]
  | _ => []

def useAll (memory : Memory) (uses : List Use) : Memory :=
  uses.foldl use memory

def granted (memory : Memory) : List Use → List Slot
  | [] => []
  | next :: uses => memory.grant next ++ (memory.use next).granted uses

theorem useAll_append (memory : Memory) (uses more : List Use) :
    memory.useAll (uses ++ more) = (memory.useAll uses).useAll more :=
  List.foldl_append

theorem granted_append (memory : Memory) (uses more : List Use) :
    memory.granted (uses ++ more) = memory.granted uses ++ (memory.useAll uses).granted more := by
  induction uses generalizing memory with
  | nil => rfl
  | cons first uses ih =>
    rw [List.cons_append, granted, ih, granted, List.append_assoc]
    rfl

theorem length_granted (memory : Memory) (uses : List Use) : (memory.granted uses).length = uses.count .allocate := by
  induction uses generalizing memory with
  | nil => rfl
  | cons first uses ih =>
    rw [granted, List.length_append, ih, List.count_cons, Nat.add_comm]
    cases first <;> rfl

theorem mem_records_use (memory : Memory) (next : Use) {slot : Slot} (recorded : slot ∈ memory.records) :
    slot ∈ (memory.use next).records := by
  cases next with
  | insert | write => exact mem_insert.mpr (Or.inr recorded)
  | read | allocate => exact recorded

theorem size_le_use (memory : Memory) (next : Use) : memory.records.size ≤ (memory.use next).records.size := by
  cases next with
  | insert slot record | write slot record => exact size_le_insert memory slot record
  | read | allocate => exact Nat.le_refl _

theorem size_le_useAll (memory : Memory) (uses : List Use) :
    memory.records.size ≤ (memory.useAll uses).records.size := by
  induction uses generalizing memory with
  | nil => exact Nat.le_refl _
  | cons first uses ih => exact Nat.le_trans (size_le_use memory first) (ih _)

/-- The slots handed out so far ascend, and the counter has come to where it is over used slots only. -/
structure Counted (handed : List Slot) (memory : Memory) : Prop where
  passed : ∃ span, Passed ⟨0⟩ span handed memory
  ascending : handed.Pairwise fun slot later => slot.number < later.number

theorem Counted.use {handed : List Slot} {memory : Memory} (counted : Counted handed memory) (next : Use)
    (room : (handed ++ memory.grant next).length + memory.records.size < UInt64.size) :
    Counted (handed ++ memory.grant next) (memory.use next) := by
  obtain ⟨span, passed⟩ := counted.passed
  by_cases allocates : next = .allocate
  · subst allocates
    rw [List.length_append] at room
    have room' : handed.length + memory.records.size + 1 < UInt64.size := by
      rw [Nat.add_right_comm]
      exact room
    obtain ⟨spare, unrecorded, unhanded⟩ := exists_spare (Nat.lt_of_succ_lt room')
    constructor
    · exact (passed.allocate unrecorded unhanded).2
    · apply List.pairwise_append.mpr
      refine ⟨counted.ascending, List.pairwise_singleton _ _, ?_⟩
      intro earlier member last here
      rw [List.mem_singleton.mp here]
      exact (passed.allocates room').2 earlier member
  · have none : memory.grant next = [] := by
      cases next with
      | allocate => exact absurd rfl allocates
      | _ => rfl
    have counter : (memory.use next).next = memory.next := by
      cases next with
      | allocate => exact absurd rfl allocates
      | _ => rfl
    rw [none, List.append_nil]
    exact ⟨⟨span, passed.grow counter fun _ => mem_records_use memory next⟩, counted.ascending⟩

theorem counted_useAll {uses : List Use}
    (room : (empty.granted uses).length + (empty.useAll uses).records.size < UInt64.size) :
    Counted (empty.granted uses) (empty.useAll uses) := by
  -- By the last use: there was room for the uses before it, as slots and records only get more.
  induction uses using List.reverseRecOn with
  | nil =>
    refine ⟨⟨0, rfl, ?_, ?_⟩, List.Pairwise.nil⟩ <;> exact fun _ => False.elim ∘ List.not_mem_nil
  | append_singleton uses next ih =>
    have grown := size_le_use (empty.useAll uses) next
    rw [useAll_append, granted_append] at room ⊢
    rw [granted, granted, List.append_nil] at room ⊢
    have step : (empty.useAll uses).useAll [next] = (empty.useAll uses).use next := rfl
    rw [step] at room ⊢
    have room' := room
    rw [List.length_append] at room'
    exact (ih (by omega)).use next (by omega)

/-- As long as there are more 64-bit numbers than slots handed out and slots with records, each slot handed out
    is greater than all before, and none of them has a record. -/
theorem granted_ascending {uses : List Use}
    (room : uses.count .allocate + (empty.useAll uses).records.size < UInt64.size) :
    (empty.granted uses).Pairwise (fun slot later => slot.number < later.number) ∧
    ∀ before after, uses = before ++ .allocate :: after →
      Allocates (empty.useAll before) (Storage.allocate (empty.useAll before)).1
        (Storage.allocate (empty.useAll before)).2 := by
  rw [← length_granted empty] at room
  refine ⟨(counted_useAll room).ascending, ?_⟩
  intro before after split
  subst split
  have grown := size_le_useAll (empty.useAll before) (.allocate :: after)
  rw [granted_append, List.length_append, useAll_append] at room
  have one : ((empty.useAll before).granted (.allocate :: after)).length = _ + 1 := List.length_cons ..
  have counted : Counted (empty.granted before) (empty.useAll before) := counted_useAll (by omega)
  obtain ⟨span, passed⟩ := counted.passed
  exact (passed.allocates (by omega)).1

def seeding : List Use :=
  [.insert ⟨1⟩ [0xc0], .allocate, .write ⟨0⟩ [0xc0], .read ⟨0⟩, .allocate, .insert ⟨3⟩ [0xc0], .allocate]

theorem seeding_granted :
    empty.granted seeding = [⟨0⟩, ⟨2⟩, ⟨4⟩] ∧
    Storage.read (empty.useAll (seeding.take 6)) ⟨4⟩ = none ∧
    Search (empty.useAll (seeding.take 6)).records ⟨3⟩ ⟨4⟩ := by
  have handed : empty.granted seeding = [⟨0⟩, ⟨2⟩, ⟨4⟩] := by decide +kernel
  have last : (Storage.allocate (empty.useAll (seeding.take 6))).1 = ⟨4⟩ := by decide +kernel
  have counter : (empty.useAll (seeding.take 6)).next = ⟨3⟩ := by decide +kernel
  have allocates := (@granted_ascending seeding (by decide +kernel)).2 (seeding.take 6) [] rfl
  rw [last] at allocates
  exact ⟨handed, allocates.unrecorded, counter ▸ allocates.search⟩

end MeteredArrays.Memory
