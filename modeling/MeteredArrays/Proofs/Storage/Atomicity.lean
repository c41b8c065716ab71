import MeteredArrays.Proofs.Storage.Layers
import MeteredArrays.Proofs.Storage.Memory
import MeteredArrays.Storage.Rationed

namespace MeteredArrays

/-- Faithful storage of which a write that is refused changes no record. -/
class AtomicStorage (σ : Type) [Storage σ] : Prop extends FaithfulStorage σ where
  read_refused : ∀ {storage after : σ} {slot : Slot} {record : Record} {fault : Fault},
    Storage.write slot record storage = .error fault after →
      ∀ other, Storage.read after other = Storage.read storage other

theorem overwrite_eq_iff {writes : List (Slot × Record)} {read : Slot → Option Record}
    (nodup : (writes.map Prod.fst).Nodup) :
    (∀ slot, overwrite writes read slot = read slot) ↔ ∀ write ∈ writes, read write.1 = some write.2 := by
  constructor
  · intro same write member
    rw [← same write.1]
    exact overwrite_of_mem nodup member
  · intro repeated slot
    by_cases written : slot ∈ writes.map Prod.fst
    · obtain ⟨write, member, rfl⟩ := List.mem_map.mp written
      rw [overwrite_of_mem nodup member, repeated write member]
    · exact overwrite_of_not_mem written

theorem Storage.Refused.read {σ : Type} [Storage σ] [AtomicStorage σ] {accepted : Nat}
    {writes : List (Slot × Record)} {before after : σ} {fault : Fault}
    (refused : Refused accepted writes before fault after) :
    Storage.read after = overwrite (writes.take accepted) (Storage.read before) := by
  obtain ⟨middle, slot, record, wrote, refused⟩ := refused.wrote
  rw [← wrote.read]
  exact funext (AtomicStorage.read_refused refused)

instance : AtomicStorage Memory where
  read_refused refused := by cases refused

namespace Rationed

variable {β : Type} [Storage β]

theorem passed_of_write {before after : Rationed β} {slot : Slot} {record : Record}
    (written : Storage.write slot record before = .ok () after) :
    Storage.write slot record before.backend = .ok () after.backend := by
  obtain ⟨backend, ration⟩ := before
  simp only [Storage.write, write] at written
  cases passed : Storage.write slot record backend with
  | ok _ backend' =>
    simp only [passed] at written
    split at written <;> cases written <;> rfl
  | error fault backend' =>
    simp only [passed] at written
    split at written <;> cases written

theorem refused_cases {before after : Rationed β} {slot : Slot} {record : Record} {fault : Fault}
    (refused : Storage.write slot record before = .error fault after) :
    after = before ∨ Storage.write slot record before.backend = .error fault after.backend := by
  obtain ⟨backend, ration⟩ := before
  simp only [Storage.write, write] at refused
  cases passed : Storage.write slot record backend with
  | ok _ backend' =>
    simp only [passed] at refused
    split at refused <;> cases refused
    exact Or.inl rfl
  | error fault' backend' =>
    simp only [passed] at refused
    split at refused <;> cases refused
    · exact Or.inr rfl
    · exact Or.inl rfl
    · exact Or.inr rfl

instance [AtomicStorage β] : AtomicStorage (Rationed β) where
  read_allocate storage slot := FaithfulStorage.read_allocate storage.backend slot
  read_write written other := FaithfulStorage.read_write (passed_of_write written) other
  read_refused refused other := by
    rcases refused_cases refused with rfl | refused
    · rfl
    · exact AtomicStorage.read_refused refused other

end Rationed

namespace Layers

variable {β : Type} [Storage β]

instance [AtomicStorage β] : AtomicStorage (Layers β) where
  read_refused {layers after slot record fault} refused other := by
    cases layers with
    | base backend =>
      simp only [Storage.write, write] at refused
      split at refused
      · cases refused
      · rename_i fault' backend' refused'
        cases refused
        exact AtomicStorage.read_refused refused' other
    | layer below writes => cases refused

theorem commit?_cases (below : Layers β) (writes : Records) :
    ∃ closing, (layer below writes).commit? = some closing ∧
      ((closing.outcome = .ok () ∧ Storage.Wrote writes.toList below closing.below) ∨
        ∃ fault accepted, closing.outcome = .error fault ∧
          Storage.Refused accepted writes.toList below fault closing.below) := by
  have ends := apply_ends writes below
  simp only [commit?]
  cases result : apply writes below with
  | ok _ after => exact ⟨_, rfl, Or.inl ⟨rfl, ends.ok result⟩⟩
  | error fault after =>
    obtain ⟨accepted, refused⟩ := ends.error result
    exact ⟨_, rfl, Or.inr ⟨fault, accepted, rfl, refused⟩⟩

theorem nodup_slots (writes : Records) : (writes.toList.map Prod.fst).Nodup := by
  rw [Std.ExtTreeMap.map_fst_toList_eq_keys]
  exact Std.ExtTreeMap.nodup_keys

/-- A commit that ends well applies the whole buffer and changes nothing else. It fails only where the
    bottom refuses a write, and what was written before remains there: the storage reads as it did before
    the commit exactly if every such write repeated the record that its slot had. -/
theorem commit?_outcome [AtomicStorage β] (below : Layers β) (writes : Records) :
    ∃ closing, (layer below writes).commit? = some closing ∧
      (closing.outcome = .ok () →
        ∀ slot, Storage.read closing.below slot = writes[slot]?.or (Storage.read below slot)) ∧
      ∀ fault, closing.outcome = .error fault →
        (∃ backend, below = base backend) ∧
        ∃ accepted, Storage.Refused accepted writes.toList below fault closing.below ∧
          ((∀ slot, Storage.read closing.below slot = Storage.read below slot) ↔
            ∀ write ∈ writes.toList.take accepted, Storage.read below write.1 = some write.2) := by
  obtain ⟨closing, closed, ended⟩ := commit?_cases below writes
  refine ⟨closing, closed, ?_, ?_⟩
  · intro fine slot
    rcases ended with ⟨_, wrote⟩ | ⟨fault, _, failed, _⟩
    · rw [read_apply wrote]
      exact read_layer below writes slot
    · rw [fine] at failed
      cases failed
  · intro fault failed
    rcases ended with ⟨fine, _⟩ | ⟨fault', accepted, failed', refused⟩
    · rw [fine] at failed
      cases failed
    · rw [failed] at failed'
      cases failed'
      constructor
      · cases below with
        | base backend => exact ⟨backend, rfl⟩
        | layer lower buffered => exact absurd refused (accepting_layer lower buffered).not_refused
      · refine ⟨accepted, refused, ?_⟩
        rw [refused.read]
        apply overwrite_eq_iff
        exact (nodup_slots writes).sublist ((List.take_sublist _ _).map _)

def oneWrite : Layers (Rationed Memory) :=
  base ⟨Memory.empty, some ⟨1, .outOfEnergy⟩⟩

def twoRecords : Records :=
  ((∅ : Records).insert ⟨0⟩ [1]).insert ⟨1⟩ [2]

theorem oneWrite_commit?_halfway :
    ∃ closing, (layer oneWrite twoRecords).commit? = some closing ∧ closing.outcome = .error .outOfEnergy ∧
      ¬ ∀ slot, Storage.read closing.below slot = Storage.read oneWrite slot := by
  obtain ⟨closing, closed, _, failing⟩ := commit?_outcome oneWrite twoRecords
  have failed : (layer oneWrite twoRecords).commit?.map Closing.outcome = some (.error .outOfEnergy) := by
    decide +kernel
  rw [closed] at failed
  have failed := Option.some.inj failed
  obtain ⟨_, accepted, refused, unchanged_iff⟩ := failing _ failed
  refine ⟨closing, closed, failed, fun unchanged => ?_⟩
  have listed : twoRecords.toList = [(⟨0⟩, [1]), (⟨1⟩, [2])] := by decide +kernel
  rw [listed] at refused unchanged_iff
  cases refused with
  | here refused => cases refused
  | later =>
    have repeated := unchanged_iff.mp unchanged (⟨0⟩, [1]) List.mem_cons_self
    have absent : Storage.read oneWrite ⟨0⟩ = none := by decide +kernel
    rw [absent] at repeated
    cases repeated

end Layers

end MeteredArrays
