import MeteredArrays.Proofs.Contents
import MeteredArrays.Proofs.Record
import MeteredArrays.Proofs.Rlp.Canonical

namespace MeteredArrays

theorem Primitive.bits_of_ofBits? {p : Primitive} {n : Nat} {elem : p.Elem} (bound : n < 256 ^ p.width)
    (read : p.ofBits? n = some elem) : p.bits elem = n := by
  cases p with
  | boolean =>
    match n with
    | 0 | 1 => cases read; rfl
    | n + 2 => cases read
  | byte | char | short | int | long | float | double =>
    cases read
    simpa [bits, width] using bound

theorem Kind.tag_of_ofTag? {tag : Nat} {kind : Kind} (found : Kind.ofTag? tag = some kind) : kind.tag = tag := by
  simpa using List.find?_some found

namespace Record

open Rlp

theorem scalarBytes_of_scalarsAfter? {p : Primitive} {count : Nat} {bytes : List UInt8}
    {found elems : Array p.Elem} (fits : bytes.length = count * p.width)
    (read : scalarsAfter? p found count bytes = some elems) :
    scalarBytes p elems.toList = scalarBytes p found.toList ++ bytes := by
  induction count generalizing bytes found with
  | zero =>
    cases read
    rw [Nat.zero_mul] at fits
    rw [List.length_eq_zero_iff.mp fits, List.append_nil]
  | succ count ih =>
    have front : (bytes.take p.width).length = p.width := by
      rw [List.length_take, fits, Nat.succ_mul]
      omega
    have back : (bytes.drop p.width).length = count * p.width := by
      rw [List.length_drop, fits, Nat.succ_mul]
      omega
    simp only [scalarsAfter?] at read
    split at read
    · cases read
    · rename_i elem taken
      have bound := ofBigEndian_lt (bytes.take p.width)
      rw [front] at bound
      have digits := bigEndian_ofBigEndian 0 (bytes.take p.width)
      rw [front, Nat.zero_add] at digits
      rw [ih back read, Array.toList_push, scalarBytes, List.flatMap_append, List.append_assoc, ← scalarBytes,
        List.flatMap_singleton, Primitive.bits_of_ofBits? bound taken, digits]
      simp

theorem eq_tag_of_kind? {item : Item} {kind : Kind} (canonical : item.Canonical)
    (read : kind? item = some kind) : item.written = Rlp.ofNat kind.tag := by
  obtain ⟨tag, number, found⟩ := Option.bind_eq_some_iff.mp read
  obtain ⟨rfl, _⟩ := canonical.eq_ofBytes_of_nat? (by decide) number
  rw [Item.written_ofBytes, Kind.tag_of_ofTag? found, Rlp.ofNat]

theorem eq_number_of_slot? {item : Item} {slot : Slot} (canonical : item.Canonical)
    (read : slot? item = some slot) : item.written = Rlp.ofNat slot.number.toNat := by
  obtain ⟨n, number, rfl⟩ := Option.map_eq_some_iff.mp read
  obtain ⟨rfl, bound⟩ := canonical.eq_ofBytes_of_nat? (by decide) number
  rw [Item.written_ofBytes, UInt64.toNat_ofNat', Nat.mod_eq_of_lt bound, Rlp.ofNat]

theorem eq_entry_of_reference? {item : Item} {target : Option Link} (canonical : item.Canonical)
    (read : reference? item = some target) : item.written = entry target := by
  cases canonical with
  | byte | string => cases read
  | @list body whole each =>
    rw [Item.written, entry_eq]
    congr 1
    simp only [reference?, Item.items?] at read
    split at read
    · rename_i found
      rw [Option.some.inj found] at whole
      cases read
      exact whole.symm
    · rename_i tag slot found
      rw [Option.some.inj found] at whole each
      obtain ⟨kind, tagged, read⟩ := Option.bind_eq_some_iff.mp read
      obtain ⟨number, placed, read⟩ := Option.bind_eq_some_iff.mp read
      cases read
      rw [← whole, List.flatMap_cons, List.flatMap_singleton, eq_tag_of_kind? (each tag (by simp)) tagged,
        eq_number_of_slot? (each slot (by simp)) placed]
      rfl
    · cases read

theorem eq_entries_of_mapM {list : List Item} {targets : List (Option Link)}
    (canonical : ∀ item ∈ list, item.Canonical) (read : list.mapM reference? = some targets) :
    list.flatMap Item.written = targets.flatMap entry := by
  induction list generalizing targets with
  | nil =>
    cases read
    rfl
  | cons item list ih =>
    rw [List.mapM_cons] at read
    obtain ⟨target, here, read⟩ := Option.bind_eq_some_iff.mp read
    obtain ⟨others, there, read⟩ := Option.bind_eq_some_iff.mp read
    cases read
    rw [List.flatMap_cons, List.flatMap_cons, eq_entry_of_reference? (canonical item List.mem_cons_self) here,
      ih (fun other member => canonical other (List.mem_cons_of_mem _ member)) there]

theorem eq_payload_of_contents? {length : Nat} {payload : Item} {kind : Kind} {contents : Contents Link}
    (canonical : payload.Canonical) (read : contents? length payload kind = .ok contents) :
    payload.written = Record.payload contents := by
  cases kind with
  | primitive p =>
    obtain ⟨bytes, held, read⟩ := except_bind_eq_ok.mp read
    split at read
    · cases read
    · rename_i fits
      obtain ⟨elems, taken, read⟩ := except_bind_eq_ok.mp read
      cases read
      rw [orReject_eq_ok] at held taken
      rw [canonical.eq_ofBytes held, Item.written_ofBytes, Record.payload,
        scalarBytes_of_scalarsAfter? (Decidable.not_not.mp fits) taken]
      rfl
  | reference =>
    obtain ⟨entries, held, read⟩ := except_bind_eq_ok.mp read
    split at read
    · cases read
    · obtain ⟨targets, taken, read⟩ := except_bind_eq_ok.mp read
      cases read
      rw [orReject_eq_ok] at held taken
      cases canonical with
      | byte | string => cases held
      | list whole each =>
        cases held
        rw [Item.written, ← whole, eq_entries_of_mapM each taken, Record.payload]

theorem canonical_entryBody (target : Option Link) : Item.Canonical (.list (entryBody target)) := by
  cases target with
  | none => exact .list_of_items items_nil rfl (by simp)
  | some link =>
    refine .list_of_items (items_entryBody link) ?_ fun item member => ?_
    · simp [Item.written_ofBytes, entryBody, Rlp.ofNat]
    · simp only [List.mem_cons, List.not_mem_nil, or_false] at member
      rcases member with rfl | rfl <;> exact Item.canonical_ofBytes _

theorem canonical_payloadItem (contents : Contents Link) : (payloadItem contents).Canonical := by
  cases contents with
  | scalars p elems => exact Item.canonical_ofBytes _
  | references targets =>
    refine .list_of_items (items_entries targets.toList) ?_ fun item member => ?_
    · rw [List.flatMap_map]
      exact congrArg targets.toList.flatMap (funext fun target => (entry_eq target).symm)
    · obtain ⟨target, _, rfl⟩ := List.mem_map.mp member
      exact canonical_entryBody target

theorem canonical_ofContents (contents : Contents Link) (short : contents.length ≤ maxLength) :
    Rlp.Canonical (ofContents contents) := by
  have whole := parse?_ofContents contents short []
  rw [List.append_nil] at whole
  refine ⟨_, whole, .list_of_items (items_body contents short) ?_ fun item member => ?_⟩
  · have payloadBytes := (written_of_parse? (parse?_payload contents short [])).1
    rw [List.append_nil, List.append_nil] at payloadBytes
    simp [Item.written_ofBytes, body, Rlp.ofNat, ← payloadBytes]
  · simp only [List.mem_cons, List.not_mem_nil, or_false] at member
    rcases member with rfl | rfl | rfl
    · exact Item.canonical_ofBytes _
    · exact Item.canonical_ofBytes _
    · exact canonical_payloadItem contents

theorem fields?_eq_some_iff {record : Record} {tag length payload : Item} :
    fields? record = some (tag, length, payload) ↔
      ∃ body, parse? record = some (.list body, []) ∧ items body = [tag, length, payload] := by
  constructor
  · intro fields
    unfold fields? at fields
    split at fields
    · rename_i body parsed
      split at fields
      · rename_i found
        cases fields
        exact ⟨body, parsed, found⟩
      · cases fields
    · cases fields
  · intro framed
    obtain ⟨body, parsed, found⟩ := framed
    simp only [fields?, parsed, found]

theorem ofContents_of_canonical {kind : Kind} {record : Record} {contents : Contents Link}
    (decoded : decode kind record = .ok contents) (canonical : Rlp.Canonical record) :
    ofContents contents = record := by
  obtain ⟨tag, length, payload, fields, tagged, counted, _, read⟩ := decode_eq_ok.mp decoded
  obtain ⟨body, parsed, three⟩ := fields?_eq_some_iff.mp fields
  obtain ⟨item, parsed', canonical⟩ := canonical
  rw [parsed] at parsed'
  cases parsed'
  cases canonical with
  | list whole each =>
    rw [three] at whole each
    obtain ⟨kindEq, _⟩ := shape_of_contents? read
    obtain ⟨rfl, _⟩ := (each length (by simp)).eq_ofBytes_of_nat? (by decide) counted
    have bytes := (written_of_parse? parsed).1
    rw [List.append_nil, Item.written, ← whole] at bytes
    simp only [List.flatMap_cons, List.flatMap_nil, List.append_nil] at bytes
    rw [eq_tag_of_kind? (each tag (by simp)) tagged, eq_payload_of_contents? (each payload (by simp)) read,
      Item.written_ofBytes] at bytes
    rw [bytes, ofContents, kindEq, List.append_assoc]
    rfl

theorem encode_eq_ok {ρ ε : Type} {resolve : ρ → Except ε Link} {store : Contents ρ} {contents : Contents Link}
    (named : store.traverse resolve = .ok contents) : encode resolve store = .ok (ofContents contents) := by
  rw [encode, named]
  rfl

/-- Writing what was read gives the same bytes exactly if the record was canonical. Reading passes over what
    follows the last item of the record, of its entries or of one entry if no item starts there, and over a
    header that a payload of one byte does not need. -/
theorem encode_decoded_iff {ρ ε : Type} {resolve : ρ → Except ε Link} {store : Contents ρ} {kind : Kind}
    {record : Record} {contents : Contents Link} (decoded : decode kind record = .ok contents)
    (named : store.traverse resolve = .ok contents) :
    encode resolve store = .ok record ↔ Rlp.Canonical record := by
  rw [encode_eq_ok named, Except.ok.injEq]
  constructor
  · rintro rfl
    exact canonical_ofContents contents (of_decode decoded).2.2
  · exact ofContents_of_canonical decoded

/-- One entry that should have a tag and a slot, and in which no item starts. -/
def brokenEntry : Record := [0xc7, 0x09, 0x01, 0xc4, 0xc3, 0xb8, 0x05, 0x07]

def noLinks : ArrayId → Except Fault Link := fun _ => .error .danglingReference

theorem brokenEntry_accepted : decode .reference brokenEntry = .ok (.references #[none]) ∧
    encode noLinks (.references #[none]) ≠ .ok brokenEntry ∧ ¬ Rlp.Canonical brokenEntry := by
  have decoded : decode .reference brokenEntry = .ok (.references #[none]) := by decide +kernel
  have named : (Contents.references #[none]).traverse noLinks = .ok (.references #[none]) := by decide +kernel
  have differs : encode noLinks (.references #[none]) ≠ .ok brokenEntry := by decide +kernel
  exact ⟨decoded, differs, fun canonical => differs ((encode_decoded_iff decoded named).mpr canonical)⟩

end Record

end MeteredArrays
