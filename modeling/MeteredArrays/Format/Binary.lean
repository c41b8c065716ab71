import MeteredArrays.BigEndian
import MeteredArrays.Fault
import MeteredArrays.Slot

namespace MeteredArrays

namespace Kind

def toScale (kind : Kind) : List UInt8 :=
  [UInt8.ofNat (all.idxOf kind)]

def ofScale? : List UInt8 → Option (Kind × List UInt8)
  | [] => none
  | index :: rest => all[index.toNat]?.map (·, rest)

end Kind

namespace Corruption

def toScale (corruption : Corruption) : List UInt8 :=
  [UInt8.ofNat (all.idxOf corruption)]

def ofScale? : List UInt8 → Option (Corruption × List UInt8)
  | [] => none
  | index :: rest => all[index.toNat]?.map (·, rest)

end Corruption

namespace Fault

def index : Fault → UInt8
  | outOfEnergy => 0
  | invalidIndex => 1
  | arithmeticOverflow => 2
  | storageCorruption _ => 3
  | negativeLength => 4
  | notMaterialized => 5
  | invalidBackingStore => 6
  | typeMismatch => 7
  | danglingReference => 8
  | aborted => 9

def toScale : Fault → List UInt8
  | storageCorruption why => 3 :: why.toScale
  | fault => [fault.index]

def ofScale? : List UInt8 → Option (Fault × List UInt8)
  | [] => none
  | 3 :: rest => (Corruption.ofScale? rest).map fun (why, rest) => (storageCorruption why, rest)
  | index :: rest => (plain.find? (·.index = index)).map (·, rest)

end Fault

namespace Slot

def toScale (slot : Slot) : List UInt8 :=
  (bigEndian 8 slot.number.toNat).reverse

def ofScale? (bytes : List UInt8) : Option (Slot × List UInt8) :=
  let front := bytes.take 8
  if front.length = 8 then
    some (⟨UInt64.ofNat (ofBigEndian front.reverse)⟩, bytes.drop 8)
  else none

end Slot

end MeteredArrays
