namespace MeteredArrays

inductive Corruption where
  | notFound
  | malformed
  | kindMismatch
  | lengthMismatch
  deriving DecidableEq

namespace Corruption

def all : List Corruption := [notFound, malformed, kindMismatch, lengthMismatch]

def name : Corruption → String
  | notFound => "NotFound"
  | malformed => "Malformed"
  | kindMismatch => "KindMismatch"
  | lengthMismatch => "LengthMismatch"

end Corruption

/-- Why an invocation halts. Every fault is fatal to the invocation that meets it. -/
inductive Fault where
  | outOfEnergy
  | invalidIndex
  | arithmeticOverflow
  | storageCorruption (why : Corruption)
  | negativeLength
  | notMaterialized
  | invalidBackingStore
  | typeMismatch
  | danglingReference
  | aborted
  deriving DecidableEq

namespace Fault

def name : Fault → String
  | outOfEnergy => "OutOfEnergy"
  | invalidIndex => "InvalidIndex"
  | arithmeticOverflow => "ArithmeticOverflow"
  | storageCorruption why => "StorageCorruption(" ++ why.name ++ ")"
  | negativeLength => "NegativeLength"
  | notMaterialized => "NotMaterialized"
  | invalidBackingStore => "InvalidBackingStore"
  | typeMismatch => "TypeMismatch"
  | danglingReference => "DanglingReference"
  | aborted => "Aborted"

def message : Fault → String
  | outOfEnergy => "out of energy"
  | invalidIndex => "array index out of bounds"
  | arithmeticOverflow => "energy cost overflow"
  | storageCorruption why => "storage corruption: " ++ why.name
  | fault => fault.name

/-- Whether resources ran out: a cost beyond 64 bits counts as running out. -/
def isOutOfEnergy : Fault → Bool
  | outOfEnergy | arithmeticOverflow => true
  | _ => false

def plain : List Fault :=
  [outOfEnergy, invalidIndex, arithmeticOverflow, negativeLength, notMaterialized,
    invalidBackingStore, typeMismatch, danglingReference, aborted]

def all : List Fault :=
  plain ++ Corruption.all.map storageCorruption

def ofName? (name : String) : Option Fault :=
  all.find? (·.name = name)

end Fault

end MeteredArrays
