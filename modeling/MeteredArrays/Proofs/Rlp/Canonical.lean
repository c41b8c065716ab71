import MeteredArrays.Proofs.Rlp

namespace MeteredArrays.Rlp

def Item.written : Item → List UInt8
  | byte value => [value]
  | string payload => withHeader 0x80 payload
  | list payload => ofItems payload

def Item.Fits : Item → Prop
  | byte value => value < 0x80
  | string payload | list payload => payload.length < UInt64.size

theorem length?_eq_some {digits length : Nat} {bytes rest : List UInt8} (short : digits ≤ 8)
    (read : length? digits bytes = some (length, rest)) :
    bytes = shortestBigEndian length ++ rest ∧ (shortestBigEndian length).length = digits ∧
      55 < length ∧ length < UInt64.size := by
  obtain ⟨⟨front, behind⟩, cut, read⟩ := Option.bind_eq_some_iff.mp read
  obtain ⟨whole, count⟩ := split?_eq_some cut
  simp only at read
  split at read
  · cases read
  · rename_i accepted
    obtain ⟨lead, long⟩ := not_or.mp accepted
    cases read
    have same := shortest_ofBigEndian (count.trans_le short) lead
    have bound := (ofBigEndian_lt front).trans_le (Nat.pow_le_pow_right (by decide) (count.trans_le short))
    exact ⟨by rw [same, whole], by rw [same, count], Nat.lt_of_not_le long, bound⟩

theorem withHeader_short {base : Nat} {payload : List UInt8} (short : payload.length ≤ 55) :
    withHeader base payload = UInt8.ofNat (base + payload.length) :: payload :=
  if_pos short

theorem withHeader_long {base : Nat} {payload : List UInt8} (long : 55 < payload.length) :
    withHeader base payload =
      UInt8.ofNat (base + 55 + (shortestBigEndian payload.length).length) ::
        (shortestBigEndian payload.length ++ payload) :=
  if_neg (Nat.not_le.mpr long)

theorem ofNat_code {first : UInt8} {base : Nat} (reaches : base ≤ first.toNat) :
    UInt8.ofNat (base + (first.toNat - base)) = first := by
  rw [Nat.add_sub_cancel' reaches]
  exact UInt8.ofNat_toNat

theorem withHeader_of_split? {base : Nat} {first : UInt8} {bytes payload rest : List UInt8}
    (reaches : base ≤ first.toNat) (below : first.toNat < base + 56)
    (cut : split? (first.toNat - base) bytes = some (payload, rest)) :
    first :: bytes = withHeader base payload ++ rest ∧ payload.length < UInt64.size := by
  have size : UInt64.size = 18446744073709551616 := rfl
  obtain ⟨whole, count⟩ := split?_eq_some cut
  refine ⟨?_, by omega⟩
  rw [withHeader_short (by omega), count, ofNat_code reaches, whole, List.cons_append]

theorem withHeader_of_length? {base length : Nat} {first : UInt8} {bytes middle payload rest : List UInt8}
    (reaches : base + 55 ≤ first.toNat) (below : first.toNat < base + 64)
    (head : length? (first.toNat - (base + 55)) bytes = some (length, middle))
    (cut : split? length middle = some (payload, rest)) :
    first :: bytes = withHeader base payload ++ rest ∧ payload.length < UInt64.size := by
  obtain ⟨whole, digits, long, bound⟩ := length?_eq_some (by omega) head
  obtain ⟨tail, count⟩ := split?_eq_some cut
  refine ⟨?_, by omega⟩
  rw [withHeader_long (by omega), count, digits, ofNat_code reaches, whole, tail, List.cons_append,
    List.append_assoc]

/-- Headers are read in their written form only. -/
theorem written_of_parse? {bytes rest : List UInt8} {item : Item} (parsed : parse? bytes = some (item, rest)) :
    bytes = item.written ++ rest ∧ item.Fits := by
  cases bytes with
  | nil => cases parsed
  | cons first bytes =>
    have bound := first.toNat_lt
    simp only [parse?] at parsed
    split at parsed
    · rename_i small
      cases parsed
      exact ⟨rfl, small⟩
    split at parsed
    · obtain ⟨⟨payload, behind⟩, cut, parsed⟩ := Option.bind_eq_some_iff.mp parsed
      cases parsed
      exact withHeader_of_split? (by omega) (by omega) cut
    split at parsed
    · obtain ⟨⟨length, middle⟩, head, parsed⟩ := Option.bind_eq_some_iff.mp parsed
      obtain ⟨⟨payload, behind⟩, cut, parsed⟩ := Option.bind_eq_some_iff.mp parsed
      cases parsed
      exact withHeader_of_length? (by omega) (by omega) head cut
    split at parsed
    · obtain ⟨⟨payload, behind⟩, cut, parsed⟩ := Option.bind_eq_some_iff.mp parsed
      cases parsed
      exact withHeader_of_split? (by omega) (by omega) cut
    · obtain ⟨⟨length, middle⟩, head, parsed⟩ := Option.bind_eq_some_iff.mp parsed
      obtain ⟨⟨payload, behind⟩, cut, parsed⟩ := Option.bind_eq_some_iff.mp parsed
      cases parsed
      exact withHeader_of_length? (by omega) (by omega) head cut

/-- The item is as a writer makes it: a byte below 0x80 has no header, and lists are made of such items
    up to their ends. -/
inductive Item.Canonical : Item → Prop
  | byte {value : UInt8} (small : value < 0x80) : Canonical (.byte value)
  | string {payload : List UInt8} (needed : ∀ value, payload = [value] → ¬ value < 0x80) :
      Canonical (.string payload)
  | list {payload : List UInt8} (whole : (items payload).flatMap written = payload)
      (each : ∀ item ∈ items payload, item.Canonical) : Canonical (.list payload)

def Canonical (bytes : List UInt8) : Prop :=
  ∃ item, parse? bytes = some (item, []) ∧ item.Canonical

namespace Item

theorem written_ofBytes (bytes : List UInt8) : (ofBytes bytes).written = Rlp.ofBytes bytes := by
  match bytes with
  | [] => rfl
  | [value] =>
    by_cases small : value < 0x80 <;> simp [ofBytes, Rlp.ofBytes, small, written]
  | _ :: _ :: _ => rfl

theorem canonical_ofBytes (bytes : List UInt8) : (ofBytes bytes).Canonical := by
  match bytes with
  | [] => exact .string (by simp)
  | [value] =>
    by_cases small : value < 0x80
    · rw [ofBytes, if_pos small]
      exact .byte small
    · rw [ofBytes, if_neg small]
      refine .string fun other same => ?_
      cases same
      exact small
  | _ :: _ :: _ => exact .string (by simp)

theorem Canonical.list_of_items {payload : List UInt8} {found : List Item} (read : items payload = found)
    (whole : found.flatMap written = payload) (each : ∀ item ∈ found, item.Canonical) :
    Item.Canonical (.list payload) :=
  .list (by rw [read, whole]) (by rwa [read])

theorem bytes?_of_nat? {item : Item} {width n : Nat} (read : item.nat? width = some n) :
    ∃ digits, item.bytes? = some digits ∧ digits.length ≤ max 1 width ∧ digits.head? ≠ some 0 ∧
      ofBigEndian digits = n := by
  have single : ∀ value : UInt8, ofBigEndian [value] = value.toNat := fun value => by simp [ofBigEndian]
  cases item with
  | byte value =>
    simp only [nat?] at read
    split at read
    · cases read
    · rename_i nonzero
      cases read
      exact ⟨[value], rfl, by simp, by simpa using nonzero, single value⟩
  | list => cases read
  | string payload =>
    rcases payload with _ | ⟨first, _ | ⟨second, rest⟩⟩
    · cases read
      exact ⟨[], rfl, Nat.zero_le _, by simp, rfl⟩
    · simp only [nat?] at read
      split at read
      · cases read
      · rename_i large
        cases read
        refine ⟨[first], rfl, by simp, ?_, single first⟩
        intro zero
        cases zero
        exact large (by decide)
    · simp only [nat?] at read
      split at read
      · cases read
      · rename_i accepted
        obtain ⟨fits, lead⟩ := not_or.mp accepted
        cases read
        exact ⟨_, rfl, (Nat.le_of_not_lt fits).trans (Nat.le_max_right 1 width), lead, rfl⟩

namespace Canonical

variable {item : Item} {bytes : List UInt8}

theorem eq_ofBytes (canonical : item.Canonical) (read : item.bytes? = some bytes) : item = ofBytes bytes := by
  cases canonical with
  | @byte value small =>
    cases read
    rw [ofBytes, if_pos small]
  | @string payload needed =>
    cases read
    rcases bytes with _ | ⟨first, _ | ⟨second, rest⟩⟩
    · rfl
    · rw [ofBytes, if_neg (needed first rfl)]
    · rfl
  | list => cases read

theorem eq_ofBytes_of_nat? (canonical : item.Canonical) {width n : Nat} (narrow : width ≤ 8)
    (read : item.nat? width = some n) : item = ofBytes (shortestBigEndian n) ∧ n < UInt64.size := by
  obtain ⟨digits, held, short, lead, rfl⟩ := bytes?_of_nat? read
  have short : digits.length ≤ 8 := short.trans (Nat.max_le.mpr ⟨by decide, narrow⟩)
  rw [shortest_ofBigEndian short lead]
  refine ⟨canonical.eq_ofBytes held, (ofBigEndian_lt digits).trans_le ?_⟩
  exact Nat.pow_le_pow_right (by decide) short

end Canonical

end Item

end MeteredArrays.Rlp
