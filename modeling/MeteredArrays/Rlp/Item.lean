import MeteredArrays.BigEndian

namespace MeteredArrays.Rlp

/-- One item, as its header presents it. The items inside a list are still to be read. -/
inductive Item where
  /-- A byte below 0x80, which stands for itself. -/
  | byte (value : UInt8)
  | string (payload : List UInt8)
  | list (payload : List UInt8)
  deriving DecidableEq

def split? (n : Nat) (bytes : List UInt8) : Option (List UInt8 × List UInt8) :=
  let front := bytes.take n
  if front.length = n then some (front, bytes.drop n) else none

def length? (digits : Nat) (bytes : List UInt8) : Option (Nat × List UInt8) := do
  let (front, rest) ← split? digits bytes
  let length := ofBigEndian front
  if front.head? = some 0 ∨ length ≤ 55 then none else some (length, rest)

def parse? : List UInt8 → Option (Item × List UInt8)
  | [] => none
  | first :: rest => do
    let code := first.toNat
    if code < 0x80 then
      some (.byte first, rest)
    else if code < 0xb8 then
      let (payload, rest) ← split? (code - 0x80) rest
      some (.string payload, rest)
    else if code < 0xc0 then
      let (length, rest) ← length? (code - 0xb7) rest
      let (payload, rest) ← split? length rest
      some (.string payload, rest)
    else if code < 0xf8 then
      let (payload, rest) ← split? (code - 0xc0) rest
      some (.list payload, rest)
    else
      let (length, rest) ← length? (code - 0xf7) rest
      let (payload, rest) ← split? length rest
      some (.list payload, rest)

theorem split?_eq_some {n : Nat} {bytes front rest : List UInt8}
    (h : split? n bytes = some (front, rest)) : bytes = front ++ rest ∧ front.length = n := by
  simp only [split?] at h
  split at h
  · rename_i full
    simp only [Option.some.injEq, Prod.mk.injEq] at h
    obtain ⟨rfl, rfl⟩ := h
    exact ⟨(List.take_append_drop n bytes).symm, full⟩
  · cases h

theorem length_le_of_split? {n : Nat} {bytes front rest : List UInt8}
    (h : split? n bytes = some (front, rest)) : rest.length ≤ bytes.length := by
  rw [(split?_eq_some h).1, List.length_append]
  exact Nat.le_add_left _ _

theorem length_le_of_length? {digits length : Nat} {bytes rest : List UInt8}
    (h : length? digits bytes = some (length, rest)) : rest.length ≤ bytes.length := by
  obtain ⟨⟨front, tail⟩, cut, h⟩ := Option.bind_eq_some_iff.mp h
  simp only at h
  split at h
  · cases h
  · cases h
    exact length_le_of_split? cut

theorem length_lt_of_parse? {bytes rest : List UInt8} {item : Item}
    (h : parse? bytes = some (item, rest)) : rest.length < bytes.length := by
  cases bytes with
  | nil => cases h
  | cons first tail =>
    simp only [parse?] at h
    apply Nat.lt_succ_of_le
    split at h
    · cases h
      exact Nat.le_refl _
    split at h
    · obtain ⟨⟨payload, behind⟩, cut, h⟩ := Option.bind_eq_some_iff.mp h
      cases h
      exact length_le_of_split? cut
    split at h
    · obtain ⟨⟨length, middle⟩, head, h⟩ := Option.bind_eq_some_iff.mp h
      obtain ⟨⟨payload, behind⟩, cut, h⟩ := Option.bind_eq_some_iff.mp h
      cases h
      exact Nat.le_trans (length_le_of_split? cut) (length_le_of_length? head)
    split at h
    · obtain ⟨⟨payload, behind⟩, cut, h⟩ := Option.bind_eq_some_iff.mp h
      cases h
      exact length_le_of_split? cut
    · obtain ⟨⟨length, middle⟩, head, h⟩ := Option.bind_eq_some_iff.mp h
      obtain ⟨⟨payload, behind⟩, cut, h⟩ := Option.bind_eq_some_iff.mp h
      cases h
      exact Nat.le_trans (length_le_of_split? cut) (length_le_of_length? head)

def itemsAfter (found : Array Item) (bytes : List UInt8) : Array Item :=
  match _ : parse? bytes with
  | none => found
  | some (item, rest) => itemsAfter (found.push item) rest
termination_by bytes.length
decreasing_by exact length_lt_of_parse? ‹parse? bytes = _›

/-- The items of `bytes` up to the first broken header. -/
def items (bytes : List UInt8) : List Item :=
  (itemsAfter #[] bytes).toList

namespace Item

def bytes? : Item → Option (List UInt8)
  | byte value => some [value]
  | string payload => some payload
  | list _ => none

def items? : Item → Option (List Item)
  | list payload => some (items payload)
  | _ => none

/-- The number that a byte string of at most `width` bytes stands for. Only the shortest form of a
number is read: no leading zeros, and no header where none is needed. -/
def nat? (width : Nat) : Item → Option Nat
  | byte value => if value = 0 then none else some value.toNat
  | string [] => some 0
  | string [value] => if value < 0x80 then none else some value.toNat
  | string payload =>
    if width < payload.length ∨ payload.head? = some 0 then none else some (ofBigEndian payload)
  | list _ => none

end Item

end MeteredArrays.Rlp
