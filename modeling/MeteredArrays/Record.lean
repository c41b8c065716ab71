import MeteredArrays.Contents
import MeteredArrays.Rlp.Item
import MeteredArrays.Rlp.Writer
import MeteredArrays.Slot

namespace MeteredArrays

abbrev Record := List UInt8

namespace Record

def entry : Option Link → List UInt8
  | none => Rlp.ofItems []
  | some link => Rlp.ofItems (Rlp.ofNat link.kind.tag ++ Rlp.ofNat link.slot.number.toNat)

def scalarBytes (p : Primitive) (elems : List p.Elem) : List UInt8 :=
  elems.flatMap fun elem => bigEndian p.width (p.bits elem)

def payload : Contents Link → List UInt8
  | .scalars p elems => Rlp.ofBytes (scalarBytes p elems.toList)
  | .references targets => Rlp.ofItems (targets.toList.flatMap entry)

/-- The list of a tag, a length and a payload. An entry of the payload is the empty list for null, else the list
of the tag and the slot of its target. -/
def ofContents (contents : Contents Link) : Record :=
  Rlp.ofItems (Rlp.ofNat contents.kind.tag ++ Rlp.ofNat contents.length ++ payload contents)

/-- The record of contents in memory. The kind and slot of each target are looked up in element
order. -/
def encode {m : Type → Type} [Monad m] {ρ : Type} (resolve : ρ → m Link)
    (contents : Contents ρ) : m Record :=
  ofContents <$> contents.traverse resolve

def maxLength : Nat := 0x7fffffff

def orReject {α : Type} (why : Corruption) : Option α → Except Corruption α
  | some a => .ok a
  | none => .error why

def scalarsAfter? (p : Primitive) (found : Array p.Elem) :
    (count : Nat) → (bytes : List UInt8) → Option (Array p.Elem)
  | 0, _ => some found
  | count + 1, bytes =>
    match p.ofBits? (ofBigEndian (bytes.take p.width)) with
    | none => none
    | some elem => scalarsAfter? p (found.push elem) count (bytes.drop p.width)

def kind? (item : Rlp.Item) : Option Kind :=
  item.nat? 1 >>= Kind.ofTag?

def slot? (item : Rlp.Item) : Option Slot :=
  (item.nat? 8).map fun n => ⟨UInt64.ofNat n⟩

def reference? (item : Rlp.Item) : Option (Option Link) :=
  match item.items? with
  | some [] => some none
  | some [tag, slot] => return some ⟨← kind? tag, ← slot? slot⟩
  | _ => none

def contents? (length : Nat) (payload : Rlp.Item) : Kind → Except Corruption (Contents Link)
  | .primitive p => do
    let bytes ← orReject .malformed payload.bytes?
    if bytes.length ≠ length * p.width then throw .lengthMismatch
    let elems ← orReject .malformed (scalarsAfter? p #[] length bytes)
    return .scalars p elems
  | .reference => do
    let entries ← orReject .malformed payload.items?
    if entries.length ≠ length then throw .lengthMismatch
    let targets ← orReject .malformed (entries.mapM reference?)
    return .references targets.toArray

def fields? (record : Record) : Option (Rlp.Item × Rlp.Item × Rlp.Item) :=
  match Rlp.parse? record with
  | some (.list body, []) =>
    match Rlp.items body with
    | [tag, length, payload] => some (tag, length, payload)
    | _ => none
  | _ => none

def decode (kind : Kind) (record : Record) : Except Corruption (Contents Link) := do
  let (tag, length, payload) ← orReject .malformed (fields? record)
  if (← orReject .malformed (kind? tag)) ≠ kind then throw .kindMismatch
  let length ← orReject .malformed (length.nat? 8)
  if maxLength < length then throw .lengthMismatch
  contents? length payload kind

end Record

end MeteredArrays
