import Mathlib.Logic.Function.Iterate
import MeteredArrays.Proofs.Storage.Transactions

namespace MeteredArrays

namespace Memory

theorem upcoming_add (span more : Nat) (slot : Slot) :
    upcoming (span + more) slot = upcoming span slot ++ upcoming more (after^[span] slot) := by
  induction span generalizing slot with
  | zero => rw [Nat.zero_add]; rfl
  | succ span ih =>
    rw [Nat.add_right_comm]
    exact congrArg _ (ih _)

theorem mem_upcoming (slot other : Slot) : other ∈ upcoming UInt64.size slot := by
  have size : UInt64.size = 18446744073709551616 := rfl
  have bound := slot.number.toNat_lt
  have bound' := other.number.toNat_lt
  let place := (other.number.toNat + UInt64.size - slot.number.toNat) % UInt64.size
  have inside : place < (upcoming UInt64.size slot).length := by
    rw [length_upcoming]
    exact Nat.mod_lt _ (by rw [size]; omega)
  obtain ⟨found, here⟩ : ∃ found, (upcoming UInt64.size slot)[place]? = some found :=
    ⟨_, List.getElem?_eq_getElem inside⟩
  have number := getElem?_upcoming here
  have same : found = other := by
    cases found
    cases other
    apply congrArg Slot.mk
    apply UInt64.toNat_inj.mp
    simp only [place, size] at number bound bound' ⊢
    omega
  rw [← same]
  exact List.mem_of_getElem? here

theorem firstFree_skips (records : Records) (tries : Nat) (slot : Slot) :
    ∃ skip, firstFree records tries slot = after^[skip] slot ∧ ∀ other ∈ upcoming skip slot, other ∈ records := by
  induction tries generalizing slot with
  | zero => exact ⟨0, rfl, fun _ member => by cases member⟩
  | succ tries ih =>
    by_cases taken : slot ∈ records
    · obtain ⟨skip, found, all⟩ := ih (after slot)
      rw [firstFree, if_pos taken]
      refine ⟨skip + 1, found, ?_⟩
      intro other member
      rcases List.mem_cons.mp member with rfl | member
      · exact taken
      · exact all other member
    · rw [firstFree, if_neg taken]
      exact ⟨0, rfl, fun _ member => by cases member⟩

theorem allocate_unrecorded {memory : Memory} {spare : Slot} (unrecorded : spare ∉ memory.records) :
    (Storage.allocate memory).1 ∉ memory.records := by
  have found : spare ∈ free memory.records (upcoming UInt64.size memory.next) := by
    apply List.mem_filter.mpr
    exact ⟨mem_upcoming _ _, by simpa using unrecorded⟩
  have handed := handouts_eq_take memory (Nat.le_refl _) (List.length_pos_of_mem found)
  have member : (Storage.allocate memory).1 ∈ Storage.handouts 1 memory := List.mem_singleton_self _
  rw [handed] at member
  have free := List.of_mem_filter (List.mem_of_mem_take member)
  simpa using free

/-- The counter has passed `span` slots from `start` on: those handed out, and others that have records. -/
structure Passed (start : Slot) (span : Nat) (handed : List Slot) (memory : Memory) : Prop where
  next : memory.next = after^[span] start
  within : ∀ slot ∈ handed, slot ∈ upcoming span start
  used : ∀ slot ∈ upcoming span start, slot ∈ handed ∨ slot ∈ memory.records

theorem Passed.grow {start : Slot} {span : Nat} {handed : List Slot} {memory grown : Memory}
    (passed : Passed start span handed memory) (next : grown.next = memory.next)
    (records : ∀ slot ∈ memory.records, slot ∈ grown.records) : Passed start span handed grown where
  next := next.trans passed.next
  within := passed.within
  used slot member := (passed.used slot member).imp_right (records slot)

theorem Passed.reach {start : Slot} {span : Nat} {handed : List Slot} {memory : Memory}
    (passed : Passed start span handed memory) :
    ∃ skip, (Storage.allocate memory).1 = after^[span + skip] start ∧
      (∀ other ∈ upcoming skip memory.next, other ∈ memory.records) ∧
      ∀ other ∈ upcoming (span + skip) start, other ∈ handed ∨ other ∈ memory.records := by
  obtain ⟨skip, found, skipped⟩ := firstFree_skips memory.records (memory.records.size + 1) memory.next
  refine ⟨skip, ?_, skipped, ?_⟩
  · rw [Nat.add_comm, Function.iterate_add_apply, ← passed.next]
    exact found
  · intro other member
    rw [upcoming_add, ← passed.next] at member
    rcases List.mem_append.mp member with member | member
    · exact passed.used other member
    · exact Or.inr (skipped other member)

theorem upcoming_subset {span reach : Nat} (le : span ≤ reach) (slot : Slot) :
    upcoming span slot ⊆ upcoming reach slot := by
  obtain ⟨more, rfl⟩ := Nat.exists_eq_add_of_le le
  rw [upcoming_add]
  exact List.subset_append_left _ _

theorem lt_size_of_spare {reach : Nat} {start spare : Slot} (spared : spare ∉ upcoming reach start) :
    reach < UInt64.size := by
  by_contra full
  exact spared (upcoming_subset (Nat.not_lt.mp full) start (mem_upcoming start spare))

theorem Passed.allocate {start : Slot} {span : Nat} {handed : List Slot} {memory : Memory}
    (passed : Passed start span handed memory) {spare : Slot} (unrecorded : spare ∉ memory.records)
    (unhanded : spare ∉ handed) :
    (Storage.allocate memory).1 ∉ handed ∧
      ∃ span', Passed start span' (handed ++ [(Storage.allocate memory).1]) (Storage.allocate memory).2 := by
  obtain ⟨skip, slot, _, before⟩ := passed.reach
  have further := Nat.le_add_right span skip
  generalize span + skip = reach at slot before further
  -- Had the counter come round, it would have passed the spare slot, which is not used.
  have room : reach < UInt64.size := by
    apply lt_size_of_spare
    intro member
    exact (before spare member).elim unhanded unrecorded
  have whole : upcoming (reach + 1) start = upcoming reach start ++ [(Storage.allocate memory).1] := by
    rw [upcoming_add, slot]
    rfl
  have within : ∀ other ∈ handed, other ∈ upcoming reach start :=
    fun other member => upcoming_subset further start (passed.within other member)
  constructor
  · intro member
    have nodup := nodup_upcoming room start
    rw [whole, List.nodup_append] at nodup
    exact nodup.2.2 _ (within _ member) _ (List.mem_singleton_self _) rfl
  · refine ⟨reach + 1, ?_, ?_, ?_⟩
    · rw [Function.iterate_succ_apply', ← slot]
      rfl
    · intro other member
      rw [whole]
      exact List.append_subset.mpr
        ⟨fun other member => List.mem_append_left _ (within other member), List.subset_append_right _ _⟩ member
    · intro other member
      rw [whole] at member
      rcases List.mem_append.mp member with member | member
      · exact (before other member).imp_left (List.mem_append_left _)
      · exact Or.inl (List.mem_append_right _ member)

end Memory

namespace Layers

section Grants

variable {β : Type} [Storage β]

def grant (layers : Layers β) : Step → List Slot
  | .allocate => [(Storage.allocate layers).1]
  | _ => []

def granted (layers : Layers β) : List Step → List Slot
  | [] => []
  | next :: steps => layers.grant next ++ (layers.step next).granted steps

theorem granted_append (layers : Layers β) (steps : List Step) (next : Step) :
    layers.granted (steps ++ [next]) = layers.granted steps ++ (layers.run steps).grant next := by
  induction steps generalizing layers with
  | nil => exact List.append_nil _
  | cons first steps ih =>
    rw [List.cons_append, granted, ih, granted, List.append_assoc]
    rfl

theorem granted_take_subset (layers : Layers β) (steps : List Step) (place : Nat) :
    layers.granted (steps.take place) ⊆ layers.granted steps := by
  induction place generalizing layers steps with
  | zero => exact List.nil_subset _
  | succ place ih =>
    cases steps with
    | nil => exact fun _ member => member
    | cons next steps =>
      rw [List.take_succ_cons, granted, granted]
      intro slot member
      rcases List.mem_append.mp member with member | member
      · exact List.mem_append_left _ member
      · exact List.mem_append_right _ (ih _ _ member)

/-- Records are written only to slots that were handed out before or have a record already. -/
def Reserving (layers : Layers β) (steps : List Step) : Prop :=
  ∀ place slot record, steps[place]? = some (.write slot record) →
    slot ∈ layers.granted (steps.take place) ∨ (Storage.read (layers.run (steps.take place)) slot).isSome

theorem allocate_bottom (layers : Layers β) :
    (Storage.allocate layers).1 = (Storage.allocate layers.bottom).1 ∧
      (Storage.allocate layers).2.bottom = (Storage.allocate layers.bottom).2 := by
  induction layers with
  | base backend => exact ⟨rfl, rfl⟩
  | layer below writes ih => exact ih

end Grants

theorem bottom_wrote {writes : List (Slot × Record)} {before after : Layers Memory}
    (wrote : Storage.Wrote writes before after) :
    after.bottom.next = before.bottom.next ∧ ∀ slot ∈ before.bottom.records, slot ∈ after.bottom.records := by
  induction wrote with
  | nil => exact ⟨rfl, fun _ member => member⟩
  | @cons _ _ before _ _ written _ ih =>
    cases before with
    | base memory =>
      cases written
      refine ⟨ih.1, fun slot member => ih.2 slot ?_⟩
      exact Memory.mem_insert.mpr (Or.inr member)
    | layer below buffered =>
      cases written
      exact ih

theorem bottom_step (layers : Layers Memory) {next : Step} (other : next ≠ .allocate) :
    (layers.step next).bottom.next = layers.bottom.next ∧
      ∀ slot ∈ layers.bottom.records, slot ∈ (layers.step next).bottom.records := by
  cases next with
  | allocate => exact absurd rfl other
  | push => exact ⟨rfl, fun _ member => member⟩
  | write slot record =>
    obtain ⟨after, written⟩ := ReliableStorage.accepts slot record layers
    have wrote : Storage.Wrote [(slot, record)] layers after := .cons written (.nil after)
    simp only [step, written]
    exact bottom_wrote wrote
  | commit =>
    cases layers with
    | base memory => exact ⟨rfl, fun _ member => member⟩
    | layer below writes =>
      obtain ⟨after, closed, wrote⟩ := step_commit below writes
      have grown := bottom_wrote wrote
      rw [closed]
      exact grown
  | discard => cases layers <;> exact ⟨rfl, fun _ member => member⟩

theorem records_step (layers : Layers Memory) (next : Step) :
    ∀ slot ∈ layers.bottom.records, slot ∈ (layers.step next).bottom.records := by
  by_cases allocates : next = .allocate
  · subst allocates
    intro slot member
    rw [step, (allocate_bottom layers).2]
    exact member
  · exact (bottom_step layers allocates).2

theorem records_run (layers : Layers Memory) (steps : List Step) :
    ∀ slot ∈ layers.bottom.records, slot ∈ (layers.run steps).bottom.records := by
  induction steps generalizing layers with
  | nil => exact fun _ member => member
  | cons next steps ih => exact fun slot member => ih (layers.step next) slot (records_step layers next slot member)

theorem passed_run {memory : Memory} {steps : List Step} {spare : Slot}
    (unrecorded : spare ∉ (run (base memory) steps).bottom.records)
    (ungranted : spare ∉ (base memory).granted steps) :
    ∃ span, Memory.Passed memory.next span ((base memory).granted steps) (run (base memory) steps).bottom := by
  induction steps using List.reverseRecOn with
  | nil => exact ⟨0, rfl, fun _ => False.elim ∘ List.not_mem_nil, fun _ => False.elim ∘ List.not_mem_nil⟩
  | append_singleton steps next ih =>
    rw [run_append] at unrecorded ⊢
    rw [granted_append] at ungranted ⊢
    have unrecorded' : spare ∉ (run (base memory) steps).bottom.records :=
      fun member => unrecorded (records_step _ next spare member)
    have ungranted' : spare ∉ (base memory).granted steps :=
      fun member => ungranted (List.mem_append_left _ member)
    obtain ⟨span, passed⟩ := ih unrecorded' ungranted'
    by_cases allocates : next = .allocate
    · subst allocates
      have same := allocate_bottom (run (base memory) steps)
      rw [step, same.2, grant, same.1]
      exact (passed.allocate unrecorded' ungranted').2
    · obtain ⟨counter, records⟩ := bottom_step (run (base memory) steps) allocates
      have none : (run (base memory) steps).grant next = [] := by
        cases next with
        | allocate => exact absurd rfl allocates
        | _ => rfl
      rw [none, List.append_nil]
      exact ⟨span, passed.grow counter records⟩

theorem read_of_reserving {backend : Memory} {steps : List Step} (reserving : (base backend).Reserving steps)
    {slot : Slot} (absent : Storage.read backend slot = none) (ungranted : slot ∉ (base backend).granted steps) :
    Storage.read (run (base backend) steps) slot = none := by
  have unwritten : ∀ (place : Nat) (record : Record), steps[place]? ≠ some (.write slot record) := by
    intro place
    induction place using Nat.strong_induction_on with
    | _ place ih =>
      intro record written
      rcases reserving place slot record written with handed | recorded
      · exact ungranted (granted_take_subset _ _ _ handed)
      · obtain ⟨record', present⟩ := Option.isSome_iff_exists.mp recorded
        rcases read_run_iff.mp present with ⟨earlier, kept, _⟩ | ⟨_, original⟩
        · have inside := (List.getElem?_eq_some_iff.mp kept.1).1
          rw [List.length_take] at inside
          have here := kept.1
          rw [List.getElem?_take_of_lt (by omega)] at here
          exact ih earlier (by omega) record' here
        · rw [absent] at original
          cases original
  exact read_run_eq_none_iff.mpr ⟨fun place record kept => unwritten place record kept.1, absent⟩

/-- While any slot is unused, the slot handed out is a new one and has no record at the bottom. So it has
    a record in a layer exactly if one was written there and not dropped since, and it has none if
    records were written only to slots in use. -/
theorem allocate_fresh_iff {memory : Memory} {steps : List Step} {spare : Slot}
    (unrecorded : spare ∉ (run (base memory) steps).bottom.records)
    (ungranted : spare ∉ (base memory).granted steps) :
    (Storage.allocate (run (base memory) steps)).1 ∉ (run (base memory) steps).bottom.records ∧
    (Storage.allocate (run (base memory) steps)).1 ∉ (base memory).granted steps ∧
    (Storage.read (run (base memory) steps) (Storage.allocate (run (base memory) steps)).1 = none ↔
      ∀ place record,
        steps[place]? = some (.write (Storage.allocate (run (base memory) steps)).1 record) →
          Dropped steps place) ∧
    ((base memory).Reserving steps →
      Storage.read (run (base memory) steps) (Storage.allocate (run (base memory) steps)).1 = none) := by
  obtain ⟨span, passed⟩ := passed_run unrecorded ungranted
  have fresh := (passed.allocate unrecorded ungranted).1
  have free := Memory.allocate_unrecorded unrecorded
  rw [← (allocate_bottom (run (base memory) steps)).1] at fresh free
  generalize (Storage.allocate (run (base memory) steps)).1 = slot at fresh free ⊢
  have absent : Storage.read memory slot = none :=
    Std.ExtTreeMap.getElem?_eq_none fun member => free (records_run (base memory) steps slot member)
  refine ⟨free, fresh, ?_, fun reserving => read_of_reserving reserving absent fresh⟩
  rw [read_run_eq_none_iff, and_iff_left absent]
  constructor
  · intro none place record written
    by_contra stays
    exact none place record ⟨written, stays⟩
  · intro dropped place record kept
    exact kept.2 (dropped place record kept.1)

def intrusion : List Step :=
  [.push, .write ⟨0⟩ [1]]

theorem intrusion_taken :
    (Storage.allocate (run (base Memory.empty) intrusion)).1 = ⟨0⟩ ∧
      Storage.read (run (base Memory.empty) intrusion) ⟨0⟩ ≠ none := by
  have handed : (Storage.allocate (run (base Memory.empty) intrusion)).1 = ⟨0⟩ := by decide +kernel
  have fresh := @allocate_fresh_iff Memory.empty intrusion ⟨1⟩ (by decide +kernel) (by decide +kernel)
  rw [handed] at fresh
  refine ⟨handed, fun none => ?_⟩
  obtain ⟨_, last, _, _, discarded, _⟩ := fresh.2.2.1.mp none 1 [1] rfl
  exact absurd (List.mem_of_getElem? discarded) (by decide)

end Layers

end MeteredArrays
