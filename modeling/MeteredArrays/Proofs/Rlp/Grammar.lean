import MeteredArrays.Proofs.Rlp.Canonical

namespace MeteredArrays.Rlp

theorem Item.parse?_written {item : Item} (fits : item.Fits) (rest : List UInt8) :
    parse? (item.written ++ rest) = some (item, rest) := by
  cases item with
  | byte value =>
    have code : value.toNat < 0x80 := fits
    simp [written, parse?, code]
  | string payload => exact parse?_string payload rest fits
  | list payload => exact parse?_list payload rest fits

/-- An item is read where its written form stands, and nowhere else. -/
theorem parse?_eq_some_iff {bytes rest : List UInt8} {item : Item} :
    parse? bytes = some (item, rest) ↔ item.Fits ∧ bytes = item.written ++ rest := by
  constructor
  · intro parsed
    obtain ⟨whole, fits⟩ := written_of_parse? parsed
    exact ⟨fits, whole⟩
  · intro spelled
    obtain ⟨fits, whole⟩ := spelled
    rw [whole]
    exact Item.parse?_written fits rest

theorem parse?_append {bytes rest : List UInt8} {item : Item} (parsed : parse? bytes = some (item, rest))
    (more : List UInt8) : parse? (bytes ++ more) = some (item, rest ++ more) := by
  obtain ⟨fits, whole⟩ := parse?_eq_some_iff.mp parsed
  rw [whole, List.append_assoc]
  exact Item.parse?_written fits (rest ++ more)

theorem parse?_of_cut {front more : List UInt8} {item : Item} (whole : parse? (front ++ more) = some (item, []))
    (cut : more ≠ []) : parse? front = none := by
  match parsed : parse? front with
  | none => rfl
  | some (shorter, rest) =>
    have longer := parse?_append parsed more
    rw [whole] at longer
    cases rest with
    | nil =>
      cases more with
      | nil => exact absurd rfl cut
      | cons => cases longer
    | cons => cases longer

inductive BrokenLength (digits : Nat) (behind : List UInt8) : Prop
  | cut (missing : behind.length < digits) : BrokenLength digits behind
  | padded (zero : behind.head? = some 0) : BrokenLength digits behind
  | small (needless : ofBigEndian (behind.take digits) ≤ 55) : BrokenLength digits behind
  | beyond (missing : behind.length < digits + ofBigEndian (behind.take digits)) : BrokenLength digits behind

/-- Bytes that are empty or whose first header is in error. Headers of byte strings count from 0x80, those of
    lists from 0xc0. -/
inductive Tail : List UInt8 → Prop
  | nil : Tail []
  | short {base : Nat} {first : UInt8} {behind : List UInt8} (header : base = 0x80 ∨ base = 0xc0)
      (reaches : base ≤ first.toNat) (within : first.toNat ≤ base + 55)
      (missing : behind.length < first.toNat - base) : Tail (first :: behind)
  | long {base : Nat} {first : UInt8} {behind : List UInt8} (header : base = 0x80 ∨ base = 0xc0)
      (reaches : base + 55 < first.toNat) (within : first.toNat ≤ base + 63)
      (broken : BrokenLength (first.toNat - (base + 55)) behind) : Tail (first :: behind)

theorem split?_eq_none {n : Nat} {bytes : List UInt8} : split? n bytes = none ↔ bytes.length < n := by
  simp [split?]

theorem split?_of_le {n : Nat} {bytes : List UInt8} (enough : n ≤ bytes.length) :
    split? n bytes = some (bytes.take n, bytes.drop n) := by
  simp [split?, enough]

theorem length?_of_le {digits : Nat} {bytes : List UInt8} (enough : digits ≤ bytes.length) :
    length? digits bytes =
      if (bytes.take digits).head? = some 0 ∨ ofBigEndian (bytes.take digits) ≤ 55 then none
      else some (ofBigEndian (bytes.take digits), bytes.drop digits) := by
  simp [length?, split?_of_le enough]

section

variable {make : List UInt8 → Item}

theorem made_eq_none {cut : Option (List UInt8 × List UInt8)} :
    (cut.bind fun (payload, rest) => some (make payload, rest)) = none ↔ cut = none := by
  cases cut <;> simp

theorem long_eq_none {digits : Nat} {behind : List UInt8} (positive : 0 < digits) :
    (do
      let (length, rest) ← length? digits behind
      let (payload, rest) ← split? length rest
      some (make payload, rest)) = none ↔ BrokenLength digits behind := by
  by_cases enough : digits ≤ behind.length
  · have head : (behind.take digits).head? = behind.head? := by
      rw [List.head?_take, if_neg (Nat.ne_of_gt positive)]
    rw [length?_of_le enough, head]
    split
    · rename_i refused
      constructor
      · intro _
        rcases refused with zero | needless
        · exact .padded zero
        · exact .small needless
      · intro _
        rfl
    · rename_i accepted
      obtain ⟨lead, needed⟩ := not_or.mp accepted
      show (split? _ _).bind _ = none ↔ _
      rw [made_eq_none, split?_eq_none, List.length_drop]
      constructor
      · intro missing
        exact .beyond (by omega)
      · intro broken
        cases broken with
        | cut missing => omega
        | padded zero => exact absurd zero lead
        | small needless => exact absurd needless needed
        | beyond missing => omega
  · have missing := Nat.lt_of_not_le enough
    constructor
    · intro _
      exact .cut missing
    · intro _
      simp [length?, split?_eq_none.mpr missing]

end

section

variable {base : Nat} {first : UInt8} {behind : List UInt8} (header : base = 0x80 ∨ base = 0xc0)

include header

theorem parse?_short_eq_none (reaches : base ≤ first.toNat) (within : first.toNat ≤ base + 55) :
    parse? (first :: behind) = none ↔ behind.length < first.toNat - base := by
  rcases header with rfl | rfl
  · rw [parse?, if_neg (by omega), if_pos (by omega), ← split?_eq_none]
    exact made_eq_none
  · rw [parse?, if_neg (by omega), if_neg (by omega), if_neg (by omega), if_pos (by omega), ← split?_eq_none]
    exact made_eq_none

theorem parse?_long_eq_none (reaches : base + 55 < first.toNat) (within : first.toNat ≤ base + 63) :
    parse? (first :: behind) = none ↔ BrokenLength (first.toNat - (base + 55)) behind := by
  rcases header with rfl | rfl
  · rw [parse?, if_neg (by omega), if_neg (by omega), if_pos (by omega)]
    exact long_eq_none (by omega)
  · rw [parse?, if_neg (by omega), if_neg (by omega), if_neg (by omega), if_neg (by omega)]
    exact long_eq_none (by omega)

end

theorem tail_iff {bytes : List UInt8} : Tail bytes ↔ parse? bytes = none := by
  constructor
  · intro tail
    cases tail with
    | nil => rfl
    | short header reaches within missing => exact (parse?_short_eq_none header reaches within).mpr missing
    | long header reaches within broken => exact (parse?_long_eq_none header reaches within).mpr broken
  · intro stopped
    cases bytes with
    | nil => exact .nil
    | cons first behind =>
      have bound := first.toNat_lt
      -- The first bytes from 0x80 on are the headers of the two bases, in the short and in the long form.
      have form : first.toNat < 0x80 ∨ ∃ base, (base = 0x80 ∨ base = 0xc0) ∧
          (base ≤ first.toNat ∧ first.toNat ≤ base + 55 ∨ base + 55 < first.toNat ∧ first.toNat ≤ base + 63) := by
        by_cases bytes : first.toNat < 0xc0
        · by_cases single : first.toNat < 0x80
          · exact .inl single
          · exact .inr ⟨0x80, .inl rfl, by omega⟩
        · exact .inr ⟨0xc0, .inr rfl, by omega⟩
      rcases form with single | ⟨base, header, ⟨reaches, within⟩ | ⟨reaches, within⟩⟩
      · simp [parse?, single] at stopped
      · exact .short header reaches within ((parse?_short_eq_none header reaches within).mp stopped)
      · exact .long header reaches within ((parse?_long_eq_none header reaches within).mp stopped)

theorem items_induction {motive : List UInt8 → Prop} (stop : ∀ bytes, Tail bytes → motive bytes)
    (step : ∀ bytes item rest, parse? bytes = some (item, rest) → motive rest → motive bytes)
    (bytes : List UInt8) : motive bytes := by
  induction size : bytes.length using Nat.strong_induction_on generalizing bytes with
  | _ size ih =>
    match parsed : parse? bytes with
    | none => exact stop bytes (tail_iff.mpr parsed)
    | some (item, rest) =>
      have less := length_lt_of_parse? parsed
      exact step bytes item rest parsed (ih rest.length (by omega) rest rfl)

theorem items_of_tail {bytes : List UInt8} (tail : Tail bytes) : items bytes = [] := by
  have stopped := tail_iff.mp tail
  rw [items, itemsAfter]
  split
  · rfl
  · rename_i parsed
    rw [stopped] at parsed
    cases parsed

theorem items_eq_iff {bytes : List UInt8} {found : List Item} :
    items bytes = found ↔
      (∀ item ∈ found, item.Fits) ∧ ∃ tail, Tail tail ∧ bytes = found.flatMap Item.written ++ tail := by
  constructor
  · intro read
    subst found
    induction bytes using items_induction with
    | stop bytes tail =>
      rw [items_of_tail tail]
      exact ⟨by simp, bytes, tail, rfl⟩
    | step bytes item rest parsed ih =>
      obtain ⟨fits, whole⟩ := parse?_eq_some_iff.mp parsed
      obtain ⟨others, tail, ends, same⟩ := ih
      rw [items_cons parsed]
      refine ⟨?_, tail, ends, ?_⟩
      · intro other member
        rcases List.mem_cons.mp member with rfl | member
        · exact fits
        · exact others other member
      · rw [List.flatMap_cons, List.append_assoc, ← same, whole]
  · intro spelled
    obtain ⟨fits, tail, ends, whole⟩ := spelled
    rw [whole]
    clear whole
    induction found with
    | nil => exact items_of_tail ends
    | cons item found ih =>
      have here := Item.parse?_written (fits item List.mem_cons_self) (found.flatMap Item.written ++ tail)
      rw [List.flatMap_cons, List.append_assoc, items_cons here,
        ih fun other member => fits other (List.mem_cons_of_mem _ member)]

namespace Item

theorem canonical_of_nat? {item : Item} {width n : Nat} (fits : item.Fits) (read : item.nat? width = some n) :
    item.Canonical := by
  cases item with
  | byte value => exact .byte fits
  | list => cases read
  | string payload =>
    apply Canonical.string
    intro value single small
    subst payload
    simp [nat?, small] at read

theorem nat?_eq_some_iff {item : Item} {width n : Nat} (fits : item.Fits) (positive : 0 < width)
    (narrow : width ≤ 8) :
    item.nat? width = some n ↔ n < 256 ^ width ∧ item = ofBytes (shortestBigEndian n) := by
  have size : 256 ^ width ≤ UInt64.size := Nat.pow_le_pow_right (by decide) narrow
  constructor
  · intro read
    obtain ⟨digits, _, short, _, same⟩ := bytes?_of_nat? read
    have bound := ofBigEndian_lt digits
    have reach : digits.length ≤ width := by omega
    have power : 256 ^ digits.length ≤ 256 ^ width := Nat.pow_le_pow_right (by decide) reach
    exact ⟨by omega, ((canonical_of_nat? fits read).eq_ofBytes_of_nat? narrow read).1⟩
  · intro spelled
    obtain ⟨bound, rfl⟩ := spelled
    exact nat?_ofBytes_shortest n width (by omega) (length_shortest_le_of_lt narrow bound)

end Item

end MeteredArrays.Rlp
