import MeteredArrays.Proofs.Effects
import MeteredArrays.Proofs.Rlp
import MeteredArrays.Record

namespace MeteredArrays

theorem Primitive.bits_lt (p : Primitive) (elem : p.Elem) : p.bits elem < 256 ^ p.width := by
  cases p with
  | boolean => cases elem <;> decide
  | byte => exact (Int8.toUInt8 elem).toNat_lt
  | char => exact UInt16.toNat_lt elem
  | short => exact (Int16.toUInt16 elem).toNat_lt
  | int => exact (Int32.toUInt32 elem).toNat_lt
  | long => exact (Int64.toUInt64 elem).toNat_lt
  | float => exact UInt32.toNat_lt elem
  | double => exact UInt64.toNat_lt elem

theorem Primitive.ofBits?_bits (p : Primitive) (elem : p.Elem) : p.ofBits? (p.bits elem) = some elem := by
  cases p with
  | boolean => cases elem <;> rfl
  | byte | char | short | int | long | float | double => simp [Primitive.ofBits?, Primitive.bits]

theorem Primitive.width_le (p : Primitive) : p.width ≤ 8 := by
  cases p <;> decide

theorem Kind.ofTag?_tag (kind : Kind) : Kind.ofTag? kind.tag = some kind := by
  cases kind with
  | primitive p => cases p <;> rfl
  | reference => rfl

theorem Kind.length_shortest_tag (kind : Kind) : (shortestBigEndian kind.tag).length ≤ 1 := by
  cases kind with
  | primitive p => cases p <;> decide
  | reference => decide

theorem Kind.tag_lt (kind : Kind) : kind.tag < UInt64.size := by
  cases kind with
  | primitive p => cases p <;> decide
  | reference => decide

namespace Record

open Rlp

theorem kind?_tag (kind : Kind) : kind? (Item.ofBytes (shortestBigEndian kind.tag)) = some kind := by
  rw [kind?, nat?_ofBytes_shortest _ _ kind.tag_lt kind.length_shortest_tag]
  exact kind.ofTag?_tag

theorem slot?_number (slot : Slot) :
    slot? (Item.ofBytes (shortestBigEndian slot.number.toNat)) = some slot := by
  rw [slot?, nat?_ofBytes_shortest _ _ slot.number.toNat_lt (length_shortest_le _)]
  simp

def entryBody : Option Link → List UInt8
  | none => []
  | some link => Rlp.ofNat link.kind.tag ++ Rlp.ofNat link.slot.number.toNat

theorem entry_eq (target : Option Link) : entry target = ofItems (entryBody target) := by
  cases target <;> rfl

theorem length_entryBody_le (target : Option Link) : (entryBody target).length ≤ 34 := by
  cases target with
  | none => exact Nat.zero_le _
  | some link =>
    have tag := length_ofNat_le link.kind.tag
    have slot := length_ofNat_le link.slot.number.toNat
    simp only [entryBody, List.length_append]
    omega

theorem parse?_entry (target : Option Link) (rest : List UInt8) :
    parse? (entry target ++ rest) = some (.list (entryBody target), rest) := by
  rw [entry_eq]
  exact parse?_list _ _ (Nat.lt_of_le_of_lt (length_entryBody_le target) (by decide))

theorem items_entryBody (link : Link) :
    items (entryBody (some link)) = [Item.ofBytes (shortestBigEndian link.kind.tag),
      Item.ofBytes (shortestBigEndian link.slot.number.toNat)] := by
  have slotItem := items_cons (parse?_ofNat link.slot.number.toNat [])
  rw [List.append_nil, items_nil] at slotItem
  rw [entryBody, items_cons (parse?_ofNat link.kind.tag _), slotItem]

theorem reference?_entryBody (target : Option Link) :
    reference? (.list (entryBody target)) = some target := by
  cases target with
  | none => simp [reference?, Item.items?, entryBody, items_nil]
  | some link => simp [reference?, Item.items?, items_entryBody, kind?_tag, slot?_number]

theorem length_entries_le (targets : List (Option Link)) :
    (targets.flatMap entry).length ≤ 43 * targets.length := by
  induction targets with
  | nil => exact Nat.le_refl _
  | cons target targets ih =>
    have body := length_entryBody_le target
    have header := length_withHeader_le 0xc0 (entryBody target)
    rw [List.flatMap_cons, List.length_append, List.length_cons, entry_eq, ofItems]
    omega

theorem items_entries (targets : List (Option Link)) :
    items (targets.flatMap entry) = targets.map fun target => Item.list (entryBody target) :=
  items_flatMap entry _ targets fun target _ => parse?_entry target

theorem mapM_reference?_entries (targets : List (Option Link)) :
    (items (targets.flatMap entry)).mapM reference? = some targets := by
  rw [items_entries]
  induction targets with
  | nil => rfl
  | cons target targets ih => rw [List.map_cons, List.mapM_cons, ih, reference?_entryBody]; rfl

theorem length_scalarBytes (p : Primitive) (elems : List p.Elem) :
    (scalarBytes p elems).length = elems.length * p.width := by
  induction elems with
  | nil => simp [scalarBytes]
  | cons elem elems ih =>
    rw [scalarBytes, List.flatMap_cons, List.length_append, ← scalarBytes, ih, length_bigEndian,
      List.length_cons, Nat.succ_mul, Nat.add_comm]

theorem scalarsAfter?_scalarBytes (p : Primitive) (found : Array p.Elem) (elems : List p.Elem) :
    scalarsAfter? p found elems.length (scalarBytes p elems) = some (found ++ elems) := by
  induction elems generalizing found with
  | nil => simp [scalarsAfter?]
  | cons elem elems ih =>
    have front : (scalarBytes p (elem :: elems)).take p.width = bigEndian p.width (p.bits elem) := by
      simp [scalarBytes]
    have back : (scalarBytes p (elem :: elems)).drop p.width = scalarBytes p elems := by
      simp [scalarBytes]
    rw [List.length_cons, scalarsAfter?, front, back,
      ofBigEndian_bigEndian _ _ (p.bits_lt elem), p.ofBits?_bits]
    simp [ih]

def payloadItem : Contents Link → Item
  | .scalars p elems => Item.ofBytes (scalarBytes p elems.toList)
  | .references targets => .list (targets.toList.flatMap entry)

theorem parse?_payload (contents : Contents Link) (short : contents.length ≤ maxLength) (rest : List UInt8) :
    parse? (payload contents ++ rest) = some (payloadItem contents, rest) := by
  have size : UInt64.size = 18446744073709551616 := rfl
  cases contents with
  | scalars p elems =>
    refine parse?_ofBytes _ rest ?_
    have most := Nat.mul_le_mul short p.width_le
    simp only [Contents.length, maxLength] at most
    rw [length_scalarBytes, show elems.toList.length = elems.size from Array.length_toList]
    omega
  | references targets =>
    refine parse?_list _ rest ?_
    have most := length_entries_le targets.toList
    simp only [Contents.length, maxLength] at short
    rw [show targets.toList.length = targets.size from Array.length_toList] at most
    omega

theorem contents?_payloadItem (contents : Contents Link) :
    contents? contents.length (payloadItem contents) contents.kind = .ok contents := by
  cases contents with
  | scalars p elems =>
    have elements := scalarsAfter?_scalarBytes p #[] elems.toList
    simp only [Array.length_toList] at elements
    simp [payloadItem, contents?, Contents.kind, Contents.length, Item.bytes?_ofBytes, orReject,
      length_scalarBytes, elements, Bind.bind, Except.bind, Pure.pure, Except.pure]
  | references targets =>
    have count : (items (targets.toList.flatMap entry)).length = targets.size := by simp [items_entries]
    simp [payloadItem, contents?, Contents.kind, Contents.length, Item.items?, count, orReject,
      mapM_reference?_entries, Bind.bind, Except.bind, Pure.pure, Except.pure]

theorem length_payload_le (contents : Contents Link) :
    (payload contents).length ≤ 43 * contents.length + 9 := by
  cases contents with
  | scalars p elems =>
    have bytes := length_ofBytes_le (scalarBytes p elems.toList)
    have width := Nat.mul_le_mul_left elems.size p.width_le
    rw [length_scalarBytes, show elems.toList.length = elems.size from Array.length_toList] at bytes
    simp only [payload, Contents.length]
    omega
  | references targets =>
    have header := length_withHeader_le 0xc0 (targets.toList.flatMap entry)
    have entries := length_entries_le targets.toList
    rw [show targets.toList.length = targets.size from Array.length_toList] at entries
    simp only [payload, Contents.length, ofItems]
    omega

def body (contents : Contents Link) : List UInt8 :=
  Rlp.ofNat contents.kind.tag ++ Rlp.ofNat contents.length ++ payload contents

theorem parse?_ofContents (contents : Contents Link) (short : contents.length ≤ maxLength)
    (rest : List UInt8) : parse? (ofContents contents ++ rest) = some (.list (body contents), rest) := by
  refine parse?_list _ rest ?_
  have tag := length_ofNat_le contents.kind.tag
  have length := length_ofNat_le contents.length
  have elements := length_payload_le contents
  have size : UInt64.size = 18446744073709551616 := rfl
  simp only [maxLength] at short
  simp only [List.length_append]
  omega

theorem items_body (contents : Contents Link) (short : contents.length ≤ maxLength) :
    items (body contents) = [Item.ofBytes (shortestBigEndian contents.kind.tag),
      Item.ofBytes (shortestBigEndian contents.length), payloadItem contents] := by
  have parsed := parse?_payload contents short []
  rw [List.append_nil] at parsed
  rw [body, List.append_assoc, items_cons (parse?_ofNat _ _), items_cons (parse?_ofNat _ _), items_cons parsed,
    items_nil]

theorem fields?_ofContents (contents : Contents Link) (short : contents.length ≤ maxLength) :
    fields? (ofContents contents) =
      some (Item.ofBytes (shortestBigEndian contents.kind.tag),
        Item.ofBytes (shortestBigEndian contents.length), payloadItem contents) := by
  have whole := parse?_ofContents contents short []
  rw [List.append_nil] at whole
  simp only [fields?, whole, items_body contents short]

theorem decode_ofContents (contents : Contents Link) (short : contents.length ≤ maxLength) :
    decode contents.kind (ofContents contents) = .ok contents := by
  have inside : contents.length < UInt64.size := Nat.lt_of_le_of_lt short (by decide)
  have length := nat?_ofBytes_shortest contents.length 8 inside (length_shortest_le _)
  simp [decode, fields?_ofContents contents short, orReject, kind?_tag, length, Nat.not_lt.mpr short,
    contents?_payloadItem, Bind.bind, Except.bind]

def tagKind? (record : Record) : Option Kind := do
  let (tag, _, _) ← fields? record
  kind? tag

theorem tagKind?_ofContents (contents : Contents Link) (short : contents.length ≤ maxLength) :
    tagKind? (ofContents contents) = some contents.kind := by
  simp [tagKind?, fields?_ofContents contents short, kind?_tag]

theorem orReject_eq_ok {α : Type} {why : Corruption} {read : Option α} {answer : α} :
    orReject why read = .ok answer ↔ read = some answer := by
  cases read <;> simp [orReject]

theorem size_of_scalarsAfter? {p : Primitive} {found elems : Array p.Elem} {count : Nat} {bytes : List UInt8}
    (h : scalarsAfter? p found count bytes = some elems) : elems.size = found.size + count := by
  induction count generalizing found bytes with
  | zero =>
    cases h
    rfl
  | succ count ih =>
    simp only [scalarsAfter?] at h
    split at h
    · cases h
    · rw [ih h, Array.size_push]
      omega

theorem shape_of_contents? {length : Nat} {payload : Item} {kind : Kind} {contents : Contents Link}
    (h : contents? length payload kind = .ok contents) : contents.kind = kind ∧ contents.length = length := by
  cases kind with
  | primitive p =>
    obtain ⟨bytes, _, h⟩ := except_bind_eq_ok.mp h
    split at h
    · cases h
    · obtain ⟨elems, read, h⟩ := except_bind_eq_ok.mp h
      cases h
      have size := size_of_scalarsAfter? (orReject_eq_ok.mp read)
      exact ⟨rfl, by simpa [Contents.length] using size⟩
  | reference =>
    obtain ⟨entries, _, h⟩ := except_bind_eq_ok.mp h
    split at h
    · cases h
    · rename_i count
      obtain ⟨targets, read, h⟩ := except_bind_eq_ok.mp h
      cases h
      refine ⟨rfl, ?_⟩
      have size := (option_mapM_eq_some.mp (orReject_eq_ok.mp read)).length_eq
      simp only [Contents.length, List.size_toArray]
      omega

/-- A record is accepted if it has three items that tell its kind, its length and its contents. -/
theorem decode_eq_ok {kind : Kind} {record : Record} {contents : Contents Link} :
    decode kind record = .ok contents ↔
      ∃ tag length payload, fields? record = some (tag, length, payload) ∧ kind? tag = some kind ∧
        length.nat? 8 = some contents.length ∧ contents.length ≤ maxLength ∧
        contents? contents.length payload kind = .ok contents := by
  constructor
  · intro h
    obtain ⟨⟨tag, length, payload⟩, fields, h⟩ := except_bind_eq_ok.mp h
    obtain ⟨found, tagged, h⟩ := except_bind_eq_ok.mp h
    rw [orReject_eq_ok] at fields tagged
    split at h
    · cases h
    · rename_i same
      have same : found = kind := Decidable.not_not.mp same
      subst found
      obtain ⟨n, read, h⟩ := except_bind_eq_ok.mp h
      rw [orReject_eq_ok] at read
      split at h
      · cases h
      · rename_i short
        obtain ⟨_, count⟩ := shape_of_contents? h
        subst count
        exact ⟨tag, length, payload, fields, tagged, read, Nat.le_of_not_lt short, h⟩
  · rintro ⟨tag, length, payload, fields, tagged, read, short, h⟩
    simp [decode, fields, tagged, read, orReject, Nat.not_lt.mpr short, h, Bind.bind, Except.bind]

theorem of_decode {kind : Kind} {record : Record} {contents : Contents Link}
    (h : decode kind record = .ok contents) :
    tagKind? record = some kind ∧ contents.kind = kind ∧ contents.length ≤ maxLength := by
  obtain ⟨tag, length, payload, fields, tagged, _, short, read⟩ := decode_eq_ok.mp h
  refine ⟨?_, (shape_of_contents? read).1, short⟩
  simp [tagKind?, fields, tagged]

end Record

end MeteredArrays
