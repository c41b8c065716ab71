import Mathlib.Data.List.Nodup
import Mathlib.Logic.Relation
import MeteredArrays.Proofs.Effects
import MeteredArrays.Storage.Layers

namespace MeteredArrays

/-- Storage that returns what was written to it and changes no record unasked. -/
class FaithfulStorage (σ : Type) [Storage σ] : Prop where
  read_allocate : ∀ (storage : σ) (slot : Slot),
    Storage.read (Storage.allocate storage).2 slot = Storage.read storage slot
  read_write : ∀ {storage after : σ} {slot : Slot} {record : Record},
    Storage.write slot record storage = .ok () after →
      ∀ other, Storage.read after other = if slot = other then some record else Storage.read storage other

class ReliableStorage (σ : Type) [Storage σ] : Prop extends FaithfulStorage σ where
  accepts : ∀ (slot : Slot) (record : Record) (storage : σ),
    ∃ after, Storage.write slot record storage = .ok () after

def overwrite : (writes : List (Slot × Record)) → (Slot → Option Record) → Slot → Option Record
  | [], read => read
  | (slot, record) :: writes, read =>
    overwrite writes fun other => if slot = other then some record else read other

theorem overwrite_of_not_mem {writes : List (Slot × Record)} {read : Slot → Option Record} {slot : Slot}
    (absent : slot ∉ writes.map Prod.fst) : overwrite writes read slot = read slot := by
  induction writes generalizing read with
  | nil => rfl
  | cons write writes ih =>
    rw [List.map_cons, List.mem_cons, not_or] at absent
    rw [overwrite, ih absent.2, if_neg (Ne.symm absent.1)]

theorem overwrite_of_mem {writes : List (Slot × Record)} {read : Slot → Option Record} {slot : Slot}
    {record : Record} (nodup : (writes.map Prod.fst).Nodup) (member : (slot, record) ∈ writes) :
    overwrite writes read slot = some record := by
  induction writes generalizing read with
  | nil => cases member
  | cons write writes ih =>
    rw [List.map_cons, List.nodup_cons] at nodup
    rcases List.mem_cons.mp member with rfl | member
    · rw [overwrite, overwrite_of_not_mem nodup.1, if_pos rfl]
    · exact ih nodup.2 member

namespace Storage

variable {σ : Type} [Storage σ]

def handouts : (count : Nat) → σ → List Slot
  | 0, _ => []
  | count + 1, storage => (allocate storage).1 :: handouts count (allocate storage).2

def reserve : (count : Nat) → σ → σ
  | 0, storage => storage
  | count + 1, storage => reserve count (allocate storage).2

theorem length_handouts (count : Nat) (storage : σ) : (handouts count storage).length = count := by
  induction count generalizing storage with
  | zero => rfl
  | succ count ih => exact congrArg Nat.succ (ih _)

theorem handouts_add (count more : Nat) (storage : σ) :
    handouts (count + more) storage = handouts count storage ++ handouts more (reserve count storage) := by
  induction count generalizing storage with
  | zero => rw [Nat.zero_add]; rfl
  | succ count ih =>
    rw [Nat.add_right_comm]
    exact congrArg _ (ih _)

theorem handouts_add_inj {τ : Type} [Storage τ] {count more : Nat} {storage : σ} {storage' : τ}
    (same : handouts (count + more) storage = handouts (count + more) storage') :
    handouts count storage = handouts count storage' ∧
      handouts more (reserve count storage) = handouts more (reserve count storage') := by
  rw [handouts_add, handouts_add] at same
  exact List.append_inj same ((length_handouts _ _).trans (length_handouts _ _).symm)

theorem reserve_add (count more : Nat) (storage : σ) :
    reserve (count + more) storage = reserve more (reserve count storage) := by
  induction count generalizing storage with
  | zero => rw [Nat.zero_add]; rfl
  | succ count ih =>
    rw [Nat.add_right_comm]
    exact ih _

/-- The next `count` slots that are handed out are different ones, and none of them has a record. -/
structure Supplies (count : Nat) (storage : σ) : Prop where
  nodup : (handouts count storage).Nodup
  unrecorded : ∀ slot ∈ handouts count storage, read storage slot = none

theorem handouts_mono {count total : Nat} (le : count ≤ total) (storage : σ) :
    handouts count storage <+: handouts total storage := by
  obtain ⟨more, rfl⟩ := Nat.exists_eq_add_of_le le
  rw [handouts_add]
  exact List.prefix_append _ _

theorem Supplies.mono {count total : Nat} {storage : σ} (supplies : Supplies total storage)
    (le : count ≤ total) : Supplies count storage where
  nodup := supplies.nodup.sublist (handouts_mono le storage).sublist
  unrecorded slot member := supplies.unrecorded slot ((handouts_mono le storage).subset member)

inductive Wrote : (writes : List (Slot × Record)) → (before after : σ) → Prop
  | nil (storage : σ) : Wrote [] storage storage
  | cons {write : Slot × Record} {writes : List (Slot × Record)} {before middle after : σ}
      (written : Storage.write write.1 write.2 before = .ok () middle) (rest : Wrote writes middle after) :
      Wrote (write :: writes) before after

/-- A storage that accepted the first ones of `writes`, as many as `accepted` says, and refused the next. -/
inductive Refused : (accepted : Nat) → (writes : List (Slot × Record)) → (before : σ) → Fault → (after : σ) →
    Prop
  | here {write : Slot × Record} {writes : List (Slot × Record)} {before after : σ} {fault : Fault}
      (refused : Storage.write write.1 write.2 before = .error fault after) :
      Refused 0 (write :: writes) before fault after
  | later {accepted : Nat} {write : Slot × Record} {writes : List (Slot × Record)} {before middle after : σ}
      {fault : Fault} (written : Storage.write write.1 write.2 before = .ok () middle)
      (rest : Refused accepted writes middle fault after) :
      Refused (accepted + 1) (write :: writes) before fault after

theorem Refused.take {accepted : Nat} {writes : List (Slot × Record)} {before after : σ} {fault : Fault}
    (refused : Refused accepted writes before fault after) :
    accepted < writes.length ∧ Refused accepted (writes.take (accepted + 1)) before fault after := by
  induction refused with
  | here refused => exact ⟨Nat.succ_pos _, .here refused⟩
  | later written _ ih => exact ⟨Nat.succ_lt_succ ih.1, .later written ih.2⟩

theorem Refused.wrote {accepted : Nat} {writes : List (Slot × Record)} {before after : σ} {fault : Fault}
    (refused : Refused accepted writes before fault after) :
    ∃ middle slot record, Wrote (writes.take accepted) before middle ∧
      Storage.write slot record middle = .error fault after := by
  induction refused with
  | here refused => exact ⟨_, _, _, .nil _, refused⟩
  | later written _ ih =>
    obtain ⟨middle, slot, record, wrote, refused⟩ := ih
    exact ⟨middle, slot, record, .cons written wrote, refused⟩

section View

-- What no write shows in, such as a counter of slots.
variable {ν : Type} {view : σ → ν} (unseen : ∀ slot record, Leaves view (Storage.write slot record))
  {writes : List (Slot × Record)} {before after : σ}

include unseen

theorem Wrote.view_eq (wrote : Wrote writes before after) : view after = view before := by
  induction wrote with
  | nil => rfl
  | @cons write _ before _ _ written _ ih =>
    have same := unseen write.1 write.2 before
    rw [written] at same
    exact ih.trans same

theorem Refused.view_eq {accepted : Nat} {fault : Fault} (refused : Refused accepted writes before fault after) :
    view after = view before := by
  obtain ⟨middle, slot, record, wrote, last⟩ := refused.wrote
  have same := unseen slot record middle
  rw [last] at same
  exact same.trans (wrote.view_eq unseen)

end View

inductive Uses : (before after : σ) → Prop
  | allocate (storage : σ) : Uses storage (Storage.allocate storage).2
  | write {slot : Slot} {record : Record} {before after : σ}
      (written : Storage.write slot record before = .ok () after) : Uses before after

/-- Storage that accepts every write, whatever it is used for before. -/
def Accepting (storage : σ) : Prop :=
  ∀ used, Relation.ReflTransGen Uses storage used → ∀ slot record, ∃ after,
    Storage.write slot record used = .ok () after

theorem Accepting.uses {before after : σ} (accepting : Accepting before) (uses : Uses before after) :
    Accepting after :=
  fun used later => accepting used (.head uses later)

theorem Accepting.reserve {storage : σ} (accepting : Accepting storage) (count : Nat) :
    Accepting (reserve count storage) := by
  induction count generalizing storage with
  | zero => exact accepting
  | succ count ih => exact ih (accepting.uses (.allocate storage))

theorem Accepting.not_refused {accepted : Nat} {writes : List (Slot × Record)} {before after : σ} {fault : Fault}
    (accepting : Accepting before) : ¬ Refused accepted writes before fault after := by
  intro refused
  induction refused with
  | @here write _ before _ _ refused =>
    obtain ⟨after, written⟩ := accepting before .refl write.1 write.2
    rw [refused] at written
    cases written
  | later written _ ih => exact ih (accepting.uses (.write written))

theorem accepting_of_reliable [ReliableStorage σ] (storage : σ) : Accepting storage :=
  fun used _ slot record => ReliableStorage.accepts slot record used

variable [FaithfulStorage σ]

theorem Wrote.read {writes : List (Slot × Record)} {before after : σ} (wrote : Wrote writes before after) :
    Storage.read after = overwrite writes (Storage.read before) := by
  induction wrote with
  | nil => rfl
  | cons written _ ih =>
    rw [ih, overwrite]
    exact congrArg _ (funext (FaithfulStorage.read_write written))

theorem read_reserve (count : Nat) (storage : σ) (slot : Slot) :
    read (reserve count storage) slot = read storage slot := by
  induction count generalizing storage with
  | zero => rfl
  | succ count ih => exact (ih _).trans (FaithfulStorage.read_allocate storage slot)

theorem Supplies.reserve {count more : Nat} {storage : σ} (supplies : Supplies (count + more) storage) :
    Supplies more (reserve count storage) := by
  have all := handouts_add count more storage
  constructor
  · have nodup := supplies.nodup
    rw [all] at nodup
    exact (List.nodup_append.mp nodup).2.1
  · intro slot member
    rw [read_reserve]
    apply supplies.unrecorded
    rw [all]
    exact List.mem_append_right _ member

end Storage

/-- Reliable storage whose offers stay the same while other slots are written. -/
class SteadyStorage (σ : Type) [Storage σ] : Prop extends ReliableStorage σ where
  handouts_write : ∀ {count : Nat} {storage after : σ} {slot : Slot} {record : Record},
    Storage.Supplies count storage → slot ∉ Storage.handouts count storage →
      Storage.write slot record storage = .ok () after →
        Storage.handouts count after = Storage.handouts count storage

namespace Storage

variable {σ : Type} [Storage σ] [SteadyStorage σ]

theorem Supplies.write {count : Nat} {storage after : σ} {slot : Slot} {record : Record}
    (supplies : Supplies count storage) (other : slot ∉ handouts count storage)
    (written : write slot record storage = .ok () after) : Supplies count after := by
  have same := SteadyStorage.handouts_write supplies other written
  refine ⟨same ▸ supplies.nodup, fun slot' member => ?_⟩
  rw [same] at member
  have differs : slot ≠ slot' := fun same => other (same ▸ member)
  rw [FaithfulStorage.read_write written, if_neg differs]
  exact supplies.unrecorded slot' member

theorem Wrote.handouts {count : Nat} {writes : List (Slot × Record)} {before after : σ}
    (wrote : Wrote writes before after) (supplies : Supplies count before)
    (others : ∀ slot ∈ writes.map Prod.fst, slot ∉ Storage.handouts count before) :
    Storage.handouts count after = Storage.handouts count before := by
  induction wrote with
  | nil => rfl
  | cons written rest ih =>
    have other := others _ List.mem_cons_self
    have same := SteadyStorage.handouts_write supplies other written
    refine (ih (supplies.write other written) fun slot member => ?_).trans same
    rw [same]
    exact others slot (List.mem_cons_of_mem _ member)

theorem Wrote.supplies {count : Nat} {writes : List (Slot × Record)} {before after : σ}
    (wrote : Wrote writes before after) (supplies : Supplies count before)
    (others : ∀ slot ∈ writes.map Prod.fst, slot ∉ Storage.handouts count before) : Supplies count after := by
  have same := wrote.handouts supplies others
  refine ⟨same ▸ supplies.nodup, fun slot member => ?_⟩
  rw [same] at member
  rw [wrote.read, overwrite_of_not_mem fun written => others slot written member]
  exact supplies.unrecorded slot member

end Storage

end MeteredArrays
