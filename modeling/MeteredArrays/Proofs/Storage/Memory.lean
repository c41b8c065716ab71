import Mathlib.Data.List.Perm.Subperm
import MeteredArrays.Proofs.Heap.Lookup
import MeteredArrays.Proofs.Storage.Laws
import MeteredArrays.Storage.Memory

namespace MeteredArrays.Memory

instance : ReliableStorage Memory where
  read_allocate _ _ := rfl
  read_write {storage after slot record} written other := by
    cases written
    exact getElem?_insert_slot storage.records slot other record
  accepts slot record storage := ⟨storage.insert slot record, rfl⟩

theorem records_reserve (count : Nat) (memory : Memory) : (Storage.reserve count memory).records = memory.records := by
  induction count generalizing memory with
  | zero => rfl
  | succ count ih => exact ih _

theorem next_reserve (count : Nat) (memory : Memory) :
    (Storage.reserve count memory).next =
      ((Storage.handouts count memory).getLast?.map after).getD memory.next := by
  induction count generalizing memory with
  | zero => rfl
  | succ count ih =>
    rw [Storage.reserve, ih, Storage.handouts]
    cases handed : Storage.handouts count (Storage.allocate memory).2 with
    | nil => rfl
    | cons slot slots => rw [List.getLast?_cons_cons]; rfl

theorem next_wrote {writes : List (Slot × Record)} {before after : Memory}
    (wrote : Storage.Wrote writes before after) : after.next = before.next := by
  have unseen : ∀ slot record, Leaves Memory.next (Storage.write slot record) := fun _ _ _ => rfl
  exact wrote.view_eq unseen

theorem eq_of_read {memory other : Memory} (read : Storage.read memory = Storage.read other)
    (next : memory.next = other.next) : memory = other := by
  have records : memory.records = other.records := Std.ExtTreeMap.ext_getElem? fun slot => congrFun read slot
  cases memory
  cases other
  cases records
  cases next
  rfl

def upcoming : (span : Nat) → (slot : Slot) → List Slot
  | 0, _ => []
  | span + 1, slot => slot :: upcoming span (after slot)

theorem length_upcoming (span : Nat) (slot : Slot) : (upcoming span slot).length = span := by
  induction span generalizing slot with
  | zero => rfl
  | succ span ih => exact congrArg Nat.succ (ih _)

theorem getElem?_upcoming {span place : Nat} {slot other : Slot}
    (here : (upcoming span slot)[place]? = some other) :
    other.number.toNat = (slot.number.toNat + place) % UInt64.size := by
  induction span generalizing slot place with
  | zero => cases here
  | succ span ih =>
    cases place with
    | zero =>
      cases here
      exact (Nat.mod_eq_of_lt (UInt64.toNat_lt_size _)).symm
    | succ place =>
      have size : UInt64.size = 18446744073709551616 := rfl
      have one : (1 : UInt64).toNat = 1 := rfl
      rw [ih here, size]
      simp only [after, UInt64.toNat_add, one]
      omega

theorem nodup_upcoming {span : Nat} (all : span ≤ UInt64.size) (slot : Slot) : (upcoming span slot).Nodup := by
  rw [List.nodup_iff_getElem?_ne_getElem?]
  intro place place' before inside same
  have there := List.getElem?_eq_getElem inside
  have first := getElem?_upcoming (same.trans there)
  have second := getElem?_upcoming there
  have size : UInt64.size = 18446744073709551616 := rfl
  rw [length_upcoming] at inside
  rw [size] at first second all
  omega

theorem length_le_size {records : Records} {slots : List Slot} (nodup : slots.Nodup)
    (recorded : ∀ slot ∈ slots, slot ∈ records) : slots.length ≤ records.size := by
  rw [← Std.ExtTreeMap.length_keys]
  refine (nodup.subperm fun slot member => ?_).length_le
  exact Std.ExtTreeMap.mem_keys.mpr (recorded slot member)

def free (records : Records) (slots : List Slot) : List Slot :=
  slots.filter fun slot => slot ∉ records

theorem le_length_free {records : Records} {count : Nat} (slot : Slot)
    (room : records.size + count ≤ UInt64.size) :
    count ≤ (free records (upcoming UInt64.size slot)).length := by
  have whole := List.length_eq_length_filter_add (l := upcoming UInt64.size slot)
    fun slot => decide (slot ∉ records)
  have taken : ((upcoming UInt64.size slot).filter fun slot => !decide (slot ∉ records)).length ≤
      records.size :=
    length_le_size ((nodup_upcoming (Nat.le_refl _) slot).filter _) (by simp)
  rw [length_upcoming] at whole
  unfold free
  omega

theorem upcoming_behind {span : Nat} {slot next : Slot} {skipped rest : List Slot}
    (split : upcoming span slot = skipped ++ next :: rest) : rest = upcoming rest.length (after next) := by
  induction skipped generalizing span slot with
  | nil =>
    cases span with
    | zero => cases split
    | succ span =>
      cases split
      rw [length_upcoming]
  | cons other skipped ih =>
    cases span with
    | zero => cases split
    | succ span => exact ih (List.cons.inj split).2

theorem firstFree_eq {records : Records} {tries span : Nat} {slot next : Slot} {skipped rest : List Slot}
    (split : upcoming span slot = skipped ++ next :: rest) (taken : ∀ other ∈ skipped, other ∈ records)
    (unrecorded : next ∉ records) (enough : skipped.length ≤ tries) : firstFree records tries slot = next := by
  induction skipped generalizing span slot tries with
  | nil =>
    cases span with
    | zero => cases split
    | succ span =>
      cases split
      cases tries with
      | zero => rfl
      | succ tries => exact if_neg unrecorded
  | cons other skipped ih =>
    cases span with
    | zero => cases split
    | succ span =>
      obtain ⟨rfl, further⟩ := List.cons.inj split
      cases tries with
      | zero => cases enough
      | succ tries =>
        refine (if_pos (taken slot List.mem_cons_self)).trans ?_
        exact ih further (fun other member => taken other (List.mem_cons_of_mem _ member))
          (Nat.le_of_succ_le_succ enough)

theorem handouts_eq_take (memory : Memory) {count span : Nat} (all : span ≤ UInt64.size)
    (enough : count ≤ (free memory.records (upcoming span memory.next)).length) :
    Storage.handouts count memory = (free memory.records (upcoming span memory.next)).take count := by
  induction count generalizing memory span with
  | zero => rfl
  | succ count ih =>
    cases found : free memory.records (upcoming span memory.next) with
    | nil =>
      rw [found] at enough
      cases enough
    | cons next others =>
      obtain ⟨skipped, rest, split, taken, unrecorded, found'⟩ := List.filter_eq_cons_iff.mp found
      have taken : ∀ other ∈ skipped, other ∈ memory.records := by simpa using taken
      have unrecorded : next ∉ memory.records := by simpa using unrecorded
      have behind := upcoming_behind split
      have nodup := nodup_upcoming all memory.next
      have short := length_le_size (nodup.sublist (split ▸ List.sublist_append_left skipped _)) taken
      -- The slots passed over have records, so there are no more of them than the search tries.
      have first : (Storage.allocate memory).1 = next :=
        firstFree_eq split taken unrecorded (Nat.le_succ_of_le short)
      have second : (Storage.allocate memory).2 = { memory with next := after next } :=
        congrArg (fun slot => { memory with next := after slot }) first
      have total := congrArg List.length split
      rw [length_upcoming, List.length_append, List.length_cons] at total
      have fewer : rest.length ≤ UInt64.size := by omega
      have later := ih { memory with next := after next } fewer
        (by
          rw [← behind, free, found']
          rw [found] at enough
          exact Nat.le_of_succ_le_succ enough)
      rw [Storage.handouts, first, second, later, ← behind, free, found']
      rfl

/-- Memory supplies as many slots as there are 64-bit numbers beyond those with records. -/
theorem supplies (memory : Memory) {count : Nat} (room : memory.records.size + count ≤ UInt64.size) :
    Storage.Supplies count memory := by
  have enough := le_length_free memory.next room
  have handed := handouts_eq_take memory (Nat.le_refl _) enough
  constructor
  · rw [handed]
    exact ((nodup_upcoming (Nat.le_refl _) _).filter _).sublist (List.take_sublist _ _)
  · intro slot member
    rw [handed] at member
    have unrecorded := List.of_mem_filter (List.mem_of_mem_take member)
    exact Std.ExtTreeMap.getElem?_eq_none (by simpa using unrecorded)

theorem firstFree_split {records : Records} {tries : Nat} {slot next : Slot}
    (found : firstFree records tries slot = next) (unrecorded : next ∉ records) :
    ∃ skipped rest, upcoming (tries + 1) slot = skipped ++ next :: rest ∧ skipped.length ≤ tries ∧
      ∀ other ∈ skipped, other ∈ records := by
  induction tries generalizing slot with
  | zero =>
    cases found
    exact ⟨[], [], rfl, Nat.le_refl _, fun _ member => by cases member⟩
  | succ tries ih =>
    by_cases taken : slot ∈ records
    · rw [firstFree, if_pos taken] at found
      obtain ⟨skipped, rest, split, short, all⟩ := ih found
      refine ⟨slot :: skipped, rest, congrArg _ split, Nat.succ_le_succ short, fun other member => ?_⟩
      rcases List.mem_cons.mp member with rfl | member
      · exact taken
      · exact all other member
    · rw [firstFree, if_neg taken] at found
      cases found
      exact ⟨[], _, rfl, Nat.zero_le _, fun _ member => by cases member⟩

theorem size_le_insert (memory : Memory) (slot : Slot) (record : Record) :
    memory.records.size ≤ (memory.insert slot record).records.size :=
  Std.ExtTreeMap.size_le_size_insert

theorem mem_insert {memory : Memory} {slot other : Slot} {record : Record} :
    other ∈ (memory.insert slot record).records ↔ other = slot ∨ other ∈ memory.records := by
  rw [insert, Std.ExtTreeMap.mem_insert, Std.compare_eq_iff_eq, eq_comm]

theorem handouts_insert (memory : Memory) {count : Nat} {slot : Slot} (record : Record)
    (unrecorded : ∀ next ∈ Storage.handouts count memory, next ∉ memory.records)
    (other : slot ∉ Storage.handouts count memory) :
    Storage.handouts count (memory.insert slot record) = Storage.handouts count memory := by
  induction count generalizing memory with
  | zero => rfl
  | succ count ih =>
    rw [Storage.handouts, List.mem_cons, not_or] at other
    have free := unrecorded _ List.mem_cons_self
    obtain ⟨skipped, rest, split, short, taken⟩ := firstFree_split rfl free
    have first : (Storage.allocate (memory.insert slot record)).1 = (Storage.allocate memory).1 := by
      refine firstFree_eq split (fun next member => mem_insert.mpr (Or.inr (taken next member))) ?_ ?_
      · rw [mem_insert, not_or]
        exact ⟨Ne.symm other.1, free⟩
      · have size := size_le_insert memory slot record
        omega
    have second : (Storage.allocate (memory.insert slot record)).2 =
        (Storage.allocate memory).2.insert slot record :=
      congrArg (fun next => { memory.insert slot record with next := after next }) first
    rw [Storage.handouts, first, second, Storage.handouts]
    exact congrArg _ (ih _ (fun next member => unrecorded next (List.mem_cons_of_mem _ member)) other.2)

instance : SteadyStorage Memory where
  handouts_write {count storage after slot record} supplies other written := by
    cases written
    refine handouts_insert storage record (fun next member present => ?_) other
    have absent : storage.records[next]? = none := supplies.unrecorded next member
    rw [← Std.ExtTreeMap.isSome_getElem?_iff_mem, absent] at present
    cases present

end MeteredArrays.Memory
