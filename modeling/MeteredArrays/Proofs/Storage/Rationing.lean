import MeteredArrays.Proofs.Storage.Atomicity

namespace MeteredArrays

namespace Storage

variable {σ : Type} [Storage σ] {refusal : Fault} {before after : σ} {writes : List (Slot × Record)}

/-- Storage that accepts `count` more writes, whatever slots are handed out in between, and then refuses a write
    with `refusal`, which changes no record. -/
def Rationing (refusal : Fault) : (count : Nat) → σ → Prop
  | 0, storage => ∀ taken slot record, ∃ after,
    write slot record (reserve taken storage) = .error refusal after ∧ read after = read (reserve taken storage)
  | count + 1, storage => ∀ taken slot record, ∃ after,
    write slot record (reserve taken storage) = .ok () after ∧ Rationing refusal count after

theorem Rationing.reserve {count : Nat} {storage : σ} (rationing : Rationing refusal count storage) (taken : Nat) :
    Rationing refusal count (reserve taken storage) := by
  cases count <;>
  · intro more slot record
    rw [← reserve_add]
    exact rationing (taken + more) slot record

theorem Rationing.of_write {count : Nat} {slot : Slot} {record : Record}
    (rationing : Rationing refusal count before) (written : write slot record before = .ok () after) :
    ∃ left, count = left + 1 ∧ Rationing refusal left after := by
  cases count with
  | zero =>
    obtain ⟨_, refused, _⟩ := rationing 0 slot record
    rw [Storage.reserve, written] at refused
    cases refused
  | succ left =>
    obtain ⟨_, accepted, rest⟩ := rationing 0 slot record
    rw [Storage.reserve, written] at accepted
    cases accepted
    exact ⟨left, rfl, rest⟩

theorem Rationing.of_refused {count : Nat} {slot : Slot} {record : Record} {fault : Fault}
    (rationing : Rationing refusal count before) (refused : write slot record before = .error fault after) :
    count = 0 ∧ fault = refusal ∧ read after = read before := by
  cases count with
  | zero =>
    obtain ⟨_, refused', same⟩ := rationing 0 slot record
    rw [Storage.reserve, refused] at refused'
    cases refused'
    exact ⟨rfl, rfl, same⟩
  | succ left =>
    obtain ⟨_, accepted, _⟩ := rationing 0 slot record
    rw [Storage.reserve, refused] at accepted
    cases accepted

theorem Wrote.rationing {count : Nat} (wrote : Wrote writes before after)
    (rationing : Rationing refusal count before) :
    ∃ left, count = writes.length + left ∧ Rationing refusal left after := by
  induction wrote generalizing count with
  | nil => exact ⟨count, (Nat.zero_add count).symm, rationing⟩
  | cons written _ ih =>
    obtain ⟨rest, rfl, behind⟩ := rationing.of_write written
    obtain ⟨left, rfl, last⟩ := ih behind
    exact ⟨left, Nat.add_right_comm _ left 1, last⟩

theorem Refused.ration [FaithfulStorage σ] {count accepted : Nat} {fault : Fault}
    (refused : Refused accepted writes before fault after) (rationing : Rationing refusal count before) :
    accepted = count ∧ fault = refusal ∧
      Storage.read after = overwrite (writes.take accepted) (Storage.read before) := by
  obtain ⟨middle, slot, record, wrote, last⟩ := refused.wrote
  obtain ⟨left, total, rest⟩ := wrote.rationing rationing
  obtain ⟨rfl, fault, same⟩ := rest.of_refused last
  rw [List.length_take_of_le (Nat.le_of_lt refused.take.1)] at total
  exact ⟨total.symm, fault, same.trans wrote.read⟩

end Storage

namespace Rationed

variable {β : Type} [Storage β]

theorem reserve_eq (taken : Nat) (backend : β) (ration : Option Ration) :
    Storage.reserve taken (⟨backend, ration⟩ : Rationed β) = ⟨Storage.reserve taken backend, ration⟩ := by
  induction taken generalizing backend with
  | zero => rfl
  | succ taken ih => exact ih _

theorem rationing (refusal : Fault) (count : Nat) {backend : β} (accepting : Storage.Accepting backend) :
    Storage.Rationing refusal count (⟨backend, some ⟨count, refusal⟩⟩ : Rationed β) := by
  induction count generalizing backend with
  | zero =>
    intro taken slot record
    rw [reserve_eq]
    exact ⟨_, rfl, rfl⟩
  | succ count ih =>
    intro taken slot record
    have accepting := accepting.reserve taken
    obtain ⟨after, written⟩ := accepting _ .refl slot record
    refine ⟨⟨after, some ⟨count, refusal⟩⟩, ?_, ih (accepting.uses (.write written))⟩
    rw [reserve_eq]
    simp only [Storage.write, write] at written ⊢
    rw [written]

end Rationed

end MeteredArrays
