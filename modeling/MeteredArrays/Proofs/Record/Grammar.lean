import MeteredArrays.Proofs.Record.Canonical
import MeteredArrays.Proofs.Rlp.Grammar

namespace MeteredArrays

theorem Primitive.exists_elem {p : Primitive} {n : Nat} (flag : p = .boolean → n ≤ 1) :
    ∃ elem, p.ofBits? n = some elem := by
  cases p with
  | boolean =>
    match n, flag rfl with
    | 0, _ => exact ⟨false, rfl⟩
    | 1, _ => exact ⟨true, rfl⟩
  | byte | char | short | int | long | float | double => exact ⟨_, rfl⟩

namespace Record

open Rlp

/-- The items that stand for a target. What follows the last item of a list is passed over. -/
inductive Entry : Option Link → Item → Prop
  | null {tail : List UInt8} (ends : Tail tail) : Entry none (.list tail)
  | link (link : Link) {tail : List UInt8} (ends : Tail tail) :
      Entry (some link) (.list (Rlp.ofNat link.kind.tag ++ Rlp.ofNat link.slot.number.toNat ++ tail))

inductive Payload (length : Nat) : Kind → Item → Prop
  | scalars {p : Primitive} {item : Item} {bytes : List UInt8} (held : item.bytes? = some bytes)
      (size : bytes.length = length * p.width)
      (flags : p = .boolean → ∀ byte ∈ bytes, byte = 0 ∨ byte = 1) : Payload length (.primitive p) item
  | references {entries : List Item} {tail : List UInt8} (count : entries.length = length)
      (each : ∀ entry ∈ entries, entry.Fits ∧ ∃ target, Entry target entry) (ends : Tail tail) :
      Payload length .reference (.list (entries.flatMap Item.written ++ tail))

inductive Holds : Contents Link → Item → Prop
  | scalars {p : Primitive} {elems : Array p.Elem} {item : Item}
      (held : item.bytes? = some (scalarBytes p elems.toList)) : Holds (.scalars p elems) item
  | references {targets : Array (Option Link)} {entries : List Item} {tail : List UInt8}
      (fits : ∀ entry ∈ entries, entry.Fits) (each : List.Forall₂ Entry targets.toList entries)
      (ends : Tail tail) : Holds (.references targets) (.list (entries.flatMap Item.written ++ tail))

/-- A record is one list. The tag of its kind, its length and its payload come first, and then a tail. -/
inductive Framed (kind : Kind) (length : Nat) (payload : Item) : Record → Prop
  | intro {body tail : List UInt8} (short : length ≤ maxLength) (inner : payload.Fits) (ends : Tail tail)
      (spelled : body = Rlp.ofNat kind.tag ++ Rlp.ofNat length ++ payload.written ++ tail)
      (outer : (Item.list body).Fits) : Framed kind length payload (Item.list body).written

theorem kind?_eq_some_iff {item : Item} {kind : Kind} (fits : item.Fits) :
    kind? item = some kind ↔ item = Item.ofBytes (shortestBigEndian kind.tag) := by
  constructor
  · intro read
    obtain ⟨tag, number, found⟩ := Option.bind_eq_some_iff.mp read
    rw [Kind.tag_of_ofTag? found]
    exact ((Item.nat?_eq_some_iff fits (by decide) (by decide)).mp number).2
  · intro spelled
    rw [spelled]
    exact kind?_tag kind

theorem slot?_eq_some_iff {item : Item} {slot : Slot} (fits : item.Fits) :
    slot? item = some slot ↔ item = Item.ofBytes (shortestBigEndian slot.number.toNat) := by
  constructor
  · intro read
    obtain ⟨n, number, same⟩ := Option.map_eq_some_iff.mp read
    subst slot
    obtain ⟨bound, spelled⟩ := (Item.nat?_eq_some_iff fits (by decide) (by decide)).mp number
    have same : (UInt64.ofNat n).toNat = n := UInt64.toNat_ofNat_of_lt' bound
    rw [same]
    exact spelled
  · intro spelled
    rw [spelled]
    exact slot?_number slot

theorem fits_number (n : Nat) : (Item.ofBytes (shortestBigEndian n)).Fits := by
  have parsed := parse?_ofNat n []
  exact (parse?_eq_some_iff.mp parsed).1

theorem written_number (n : Nat) : (Item.ofBytes (shortestBigEndian n)).written = Rlp.ofNat n :=
  Item.written_ofBytes _

theorem reference?_eq_some_iff {item : Item} {target : Option Link} :
    reference? item = some target ↔ Entry target item := by
  constructor
  · intro read
    cases item with
    | byte | string => cases read
    | list body =>
      simp only [reference?, Item.items?] at read
      split at read
      · rename_i found
        obtain ⟨_, tail, ends, whole⟩ := items_eq_iff.mp (Option.some.inj found)
        cases read
        rw [whole]
        exact .null ends
      · rename_i tag slot found
        obtain ⟨fits, tail, ends, whole⟩ := items_eq_iff.mp (Option.some.inj found)
        obtain ⟨kind, tagged, read⟩ := Option.bind_eq_some_iff.mp read
        obtain ⟨number, placed, read⟩ := Option.bind_eq_some_iff.mp read
        cases read
        have first := (kind?_eq_some_iff (fits tag (by simp))).mp tagged
        have second := (slot?_eq_some_iff (fits slot (by simp))).mp placed
        have spelled := Entry.link ⟨kind, number⟩ ends
        rw [whole, first, second]
        simpa [written_number] using spelled
      · cases read
  · intro entry
    cases entry with
    | null ends => simp [reference?, Item.items?, items_of_tail ends]
    | @link link tail ends =>
      have found : items (Rlp.ofNat link.kind.tag ++ Rlp.ofNat link.slot.number.toNat ++ tail) =
          [Item.ofBytes (shortestBigEndian link.kind.tag),
            Item.ofBytes (shortestBigEndian link.slot.number.toNat)] := by
        apply items_eq_iff.mpr
        exact ⟨by simp [fits_number], tail, ends, by simp [written_number]⟩
      simp only [reference?, Item.items?, found, kind?_tag, slot?_number]
      rfl

theorem contents?_eq_ok_iff {length : Nat} {payload : Item} {kind : Kind} {contents : Contents Link} :
    contents? length payload kind = .ok contents ↔
      contents.kind = kind ∧ contents.length = length ∧ Holds contents payload := by
  constructor
  · intro read
    obtain ⟨kindEq, lengthEq⟩ := shape_of_contents? read
    refine ⟨kindEq, lengthEq, ?_⟩
    cases kind with
    | primitive p =>
      obtain ⟨bytes, held, read⟩ := except_bind_eq_ok.mp read
      split at read
      · cases read
      · rename_i fits
        obtain ⟨elems, taken, read⟩ := except_bind_eq_ok.mp read
        cases read
        rw [orReject_eq_ok] at held taken
        have spelled := scalarBytes_of_scalarsAfter? (Decidable.not_not.mp fits) taken
        apply Holds.scalars
        rw [spelled]
        exact held
    | reference =>
      obtain ⟨entries, held, read⟩ := except_bind_eq_ok.mp read
      split at read
      · cases read
      · obtain ⟨targets, taken, read⟩ := except_bind_eq_ok.mp read
        cases read
        rw [orReject_eq_ok] at held taken
        cases payload with
        | byte | string => cases held
        | list body =>
          obtain ⟨fits, tail, ends, whole⟩ := items_eq_iff.mp (Option.some.inj held)
          rw [whole]
          apply Holds.references fits _ ends
          have each := (option_mapM_eq_some.mp taken).flip
          exact each.imp fun target entry answered => reference?_eq_some_iff.mp answered
  · intro spelled
    obtain ⟨rfl, rfl, holds⟩ := spelled
    cases holds with
    | @scalars p elems _ held =>
      have size := length_scalarBytes p elems.toList
      have elements := scalarsAfter?_scalarBytes p #[] elems.toList
      simp only [Array.length_toList] at size elements
      simp [contents?, Contents.kind, Contents.length, held, orReject, size, elements, Bind.bind, Except.bind,
        Pure.pure, Except.pure]
    | @references targets entries tail fits each ends =>
      have found := items_eq_iff.mpr ⟨fits, tail, ends, rfl⟩
      have count := each.length_eq
      have answered : entries.mapM reference? = some targets.toList := by
        apply option_mapM_eq_some.mpr
        exact each.flip.imp fun entry target spelled => reference?_eq_some_iff.mpr spelled
      rw [Array.length_toList] at count
      simp [contents?, Contents.kind, Contents.length, Item.items?, found, orReject, ← count, answered,
        Bind.bind, Except.bind, Pure.pure, Except.pure]

theorem exists_elems {p : Primitive} {length : Nat} {bytes : List UInt8} (size : bytes.length = length * p.width)
    (flags : p = .boolean → ∀ byte ∈ bytes, byte = 0 ∨ byte = 1) :
    ∃ elems : List p.Elem, elems.length = length ∧ scalarBytes p elems = bytes := by
  induction length generalizing bytes with
  | zero =>
    rw [Nat.zero_mul] at size
    exact ⟨[], rfl, (List.length_eq_zero_iff.mp size).symm⟩
  | succ length ih =>
    rw [Nat.succ_mul] at size
    have front : (bytes.take p.width).length = p.width := by
      rw [List.length_take]
      omega
    have back : (bytes.drop p.width).length = length * p.width := by
      rw [List.length_drop]
      omega
    obtain ⟨elems, count, spelled⟩ := ih back fun same byte member => flags same byte (List.mem_of_mem_drop member)
    have flag : p = .boolean → ofBigEndian (bytes.take p.width) ≤ 1 := by
      intro same
      subst p
      match bytes, size with
      | byte :: _, _ =>
        rcases flags rfl byte List.mem_cons_self with rfl | rfl <;> simp [Primitive.width, ofBigEndian]
    obtain ⟨elem, read⟩ := Primitive.exists_elem flag
    have bound := ofBigEndian_lt (bytes.take p.width)
    have digits := bigEndian_ofBigEndian 0 (bytes.take p.width)
    rw [front] at bound digits
    rw [Nat.zero_add] at digits
    refine ⟨elem :: elems, by rw [List.length_cons, count], ?_⟩
    rw [scalarBytes, List.flatMap_cons, ← scalarBytes, spelled, Primitive.bits_of_ofBits? bound read, digits]
    simp

theorem payload_iff {length : Nat} {kind : Kind} {item : Item} :
    Payload length kind item ↔
      ∃ contents : Contents Link, contents.kind = kind ∧ contents.length = length ∧ Holds contents item := by
  constructor
  · intro form
    cases form with
    | scalars held size flags =>
      obtain ⟨elems, count, spelled⟩ := exists_elems size flags
      subst spelled
      exact ⟨.scalars _ elems.toArray, rfl, count, .scalars held⟩
    | references count each ends =>
      obtain ⟨targets, all⟩ := exists_forall₂ fun entry member => (each entry member).2
      refine ⟨.references targets.toArray, rfl, all.length_eq.symm.trans count, ?_⟩
      exact .references (fun entry member => (each entry member).1) all.flip ends
  · intro held
    obtain ⟨contents, rfl, rfl, holds⟩ := held
    cases holds with
    | @scalars p elems _ held =>
      apply Payload.scalars held (length_scalarBytes p elems.toList)
      intro same byte member
      subst p
      obtain ⟨elem, _, member⟩ := List.mem_flatMap.mp member
      cases elem with
      | false => exact .inl (by simpa [bigEndian, Primitive.width, Primitive.bits] using member)
      | true => exact .inr (by simpa [bigEndian, Primitive.width, Primitive.bits] using member)
    | references fits each ends =>
      apply Payload.references each.length_eq.symm _ ends
      intro entry member
      obtain ⟨target, _, spelled⟩ := forall₂_exists_of_mem each.flip member
      exact ⟨fits entry member, target, spelled⟩

theorem framed_iff {kind : Kind} {length : Nat} {payload : Item} {record : Record} :
    Framed kind length payload record ↔
      ∃ tag count, fields? record = some (tag, count, payload) ∧ kind? tag = some kind ∧
        count.nat? 8 = some length ∧ length ≤ maxLength := by
  constructor
  · intro framed
    obtain ⟨short, inner, ends, spelled, outer⟩ := framed
    rename_i body tail
    have bound : length < UInt64.size := Nat.lt_of_le_of_lt short (by decide)
    have parsed := Item.parse?_written outer []
    rw [List.append_nil] at parsed
    have three : items body = [Item.ofBytes (shortestBigEndian kind.tag),
        Item.ofBytes (shortestBigEndian length), payload] := by
      apply items_eq_iff.mpr
      exact ⟨by simp [fits_number, inner], tail, ends, by simp [written_number, spelled]⟩
    refine ⟨_, _, fields?_eq_some_iff.mpr ⟨body, parsed, three⟩, kind?_tag kind, ?_, short⟩
    exact nat?_ofBytes_shortest length 8 bound (length_shortest_le length)
  · intro read
    obtain ⟨tag, count, fields, tagged, counted, short⟩ := read
    obtain ⟨body, parsed, three⟩ := fields?_eq_some_iff.mp fields
    obtain ⟨outer, whole⟩ := parse?_eq_some_iff.mp parsed
    obtain ⟨fits, tail, ends, spelled⟩ := items_eq_iff.mp three
    have first := (kind?_eq_some_iff (fits tag (by simp))).mp tagged
    have second := ((Item.nat?_eq_some_iff (fits count (by simp)) (by decide) (by decide)).mp counted).2
    subst first second
    rw [whole, List.append_nil]
    apply Framed.intro short (fits payload (by simp)) ends _ outer
    simpa [written_number] using spelled

theorem decode_eq_ok_iff {kind : Kind} {record : Record} {contents : Contents Link} :
    decode kind record = .ok contents ↔
      contents.kind = kind ∧ ∃ payload, Framed kind contents.length payload record ∧ Holds contents payload := by
  rw [decode_eq_ok]
  constructor
  · intro read
    obtain ⟨tag, count, payload, fields, tagged, counted, short, read⟩ := read
    obtain ⟨kindEq, _, holds⟩ := contents?_eq_ok_iff.mp read
    exact ⟨kindEq, payload, framed_iff.mpr ⟨tag, count, fields, tagged, counted, short⟩, holds⟩
  · intro spelled
    obtain ⟨kindEq, payload, framed, holds⟩ := spelled
    obtain ⟨tag, count, fields, tagged, counted, short⟩ := framed_iff.mp framed
    have read := contents?_eq_ok_iff.mpr ⟨kindEq, rfl, holds⟩
    exact ⟨tag, count, payload, fields, tagged, counted, short, read⟩

/-- Exactly the records of the grammar are accepted, and they are read as the elements of their payload. -/
theorem decode_iff_grammar (kind : Kind) (record : Record) :
    ((∃ contents, decode kind record = .ok contents) ↔
      ∃ length payload, Framed kind length payload record ∧ Payload length kind payload) ∧
    ∀ contents, decode kind record = .ok contents ↔
      contents.kind = kind ∧ ∃ payload, Framed kind contents.length payload record ∧ Holds contents payload := by
  refine ⟨?_, fun contents => decode_eq_ok_iff⟩
  constructor
  · intro accepted
    obtain ⟨contents, read⟩ := accepted
    obtain ⟨kindEq, payload, framed, holds⟩ := decode_eq_ok_iff.mp read
    exact ⟨contents.length, payload, framed, payload_iff.mpr ⟨contents, kindEq, rfl, holds⟩⟩
  · intro spelled
    obtain ⟨length, payload, framed, form⟩ := spelled
    obtain ⟨contents, kindEq, count, holds⟩ := payload_iff.mp form
    subst count
    exact ⟨contents, decode_eq_ok_iff.mpr ⟨kindEq, payload, framed, holds⟩⟩

end Record

end MeteredArrays
