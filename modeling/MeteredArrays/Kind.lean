namespace MeteredArrays

inductive Primitive where
  | boolean
  | byte
  | char
  | short
  | int
  | long
  | float
  | double
  deriving DecidableEq

namespace Primitive

def all : List Primitive := [boolean, byte, char, short, int, long, float, double]

def name : Primitive → String
  | boolean => "Boolean"
  | byte => "Byte"
  | char => "Char"
  | short => "Short"
  | int => "Int"
  | long => "Long"
  | float => "Float"
  | double => "Double"

def width : Primitive → Nat
  | boolean | byte => 1
  | char | short => 2
  | int | float => 4
  | long | double => 8

/-- The type of one element. Floating point elements are kept as their bit patterns. -/
@[reducible] def Elem : Primitive → Type
  | boolean => Bool
  | byte => Int8
  | char => UInt16
  | short => Int16
  | int => Int32
  | long => Int64
  | float => UInt32
  | double => UInt64

instance : (p : Primitive) → DecidableEq p.Elem
  | boolean => inferInstanceAs (DecidableEq Bool)
  | byte => inferInstanceAs (DecidableEq Int8)
  | char => inferInstanceAs (DecidableEq UInt16)
  | short => inferInstanceAs (DecidableEq Int16)
  | int => inferInstanceAs (DecidableEq Int32)
  | long => inferInstanceAs (DecidableEq Int64)
  | float => inferInstanceAs (DecidableEq UInt32)
  | double => inferInstanceAs (DecidableEq UInt64)

def bits : (p : Primitive) → p.Elem → Nat
  | boolean, b => b.toNat
  | byte, w => w.toUInt8.toNat
  | char, w => w.toNat
  | short, w => w.toUInt16.toNat
  | int, w => w.toUInt32.toNat
  | long, w => w.toUInt64.toNat
  | float, w => w.toNat
  | double, w => w.toNat

/-- The element with a given bit pattern. A Boolean has only the patterns 0 and 1. -/
def ofBits? : (p : Primitive) → Nat → Option p.Elem
  | boolean, 0 => some false
  | boolean, 1 => some true
  | boolean, _ => none
  | byte, n => some (UInt8.ofNat n).toInt8
  | char, n => some (UInt16.ofNat n)
  | short, n => some (UInt16.ofNat n).toInt16
  | int, n => some (UInt32.ofNat n).toInt32
  | long, n => some (UInt64.ofNat n).toInt64
  | float, n => some (UInt32.ofNat n)
  | double, n => some (UInt64.ofNat n)

def zero : (p : Primitive) → p.Elem
  | boolean => false
  | byte => 0
  | char => 0
  | short => 0
  | int => 0
  | long => 0
  | float => 0
  | double => 0

end Primitive

inductive Kind where
  | primitive (p : Primitive)
  | reference
  deriving DecidableEq

namespace Kind

def all : List Kind := Primitive.all.map primitive ++ [reference]

def name : Kind → String
  | primitive p => p.name
  | reference => "Reference"

/-- Number that stands for the kind in records. Part of the storage format. -/
def tag : Kind → Nat
  | primitive .boolean => 1
  | primitive .byte => 2
  | primitive .char => 3
  | primitive .short => 4
  | primitive .int => 5
  | primitive .long => 6
  | primitive .float => 7
  | primitive .double => 8
  | reference => 9

def ofTag? (tag : Nat) : Option Kind :=
  all.find? (·.tag = tag)

def ofName? (name : String) : Option Kind :=
  all.find? (·.name = name)

def width? : Kind → Option Nat
  | primitive p => some p.width
  | reference => none

def isPrimitive : Kind → Bool
  | primitive _ => true
  | reference => false

end Kind

end MeteredArrays
