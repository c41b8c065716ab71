import MeteredArrays.Fault
import MeteredArrays.Kind

namespace MeteredArrays

structure Schedule where
  boolean : UInt64
  byte : UInt64
  char : UInt64
  short : UInt64
  int : UInt64
  long : UInt64
  float : UInt64
  double : UInt64
  reference : UInt64
  cloneBase : UInt64
  cloneElement : UInt64
  deriving DecidableEq

namespace Schedule

def mainnet : Schedule where
  boolean := 1
  byte := 1
  char := 2
  short := 2
  int := 4
  long := 8
  float := 4
  double := 8
  reference := 8
  cloneBase := 100
  cloneElement := 8

def free : Schedule := ⟨0, 0, 0, 0, 0, 0, 0, 0, 0, 0, 0⟩

def perElement (schedule : Schedule) : Kind → UInt64
  | .primitive .boolean => schedule.boolean
  | .primitive .byte => schedule.byte
  | .primitive .char => schedule.char
  | .primitive .short => schedule.short
  | .primitive .int => schedule.int
  | .primitive .long => schedule.long
  | .primitive .float => schedule.float
  | .primitive .double => schedule.double
  | .reference => schedule.reference

def feeNames : List String :=
  ["boolean_element_fee", "byte_element_fee", "char_element_fee", "short_element_fee",
    "int_element_fee", "long_element_fee", "float_element_fee", "double_element_fee",
    "reference_element_fee", "clone_base_fee", "reference_type_fee"]

def fees (schedule : Schedule) : List UInt64 :=
  [schedule.boolean, schedule.byte, schedule.char, schedule.short, schedule.int, schedule.long,
    schedule.float, schedule.double, schedule.reference, schedule.cloneBase, schedule.cloneElement]

def ofFees? : List UInt64 → Option Schedule
  | [boolean, byte, char, short, int, long, float, double, reference, cloneBase, cloneElement] =>
    some ⟨boolean, byte, char, short, int, long, float, double, reference, cloneBase, cloneElement⟩
  | _ => none

end Schedule

/-- Number of elements that are paid for. A negative length counts as zero. -/
def billableLength (length : Int32) : UInt64 :=
  UInt64.ofNat length.toNatClampNeg

def amount (cost : Nat) : Except Fault UInt64 :=
  if cost < UInt64.size then .ok (UInt64.ofNat cost) else .error .arithmeticOverflow

def initCost (length : Int32) (fee : UInt64) : Except Fault UInt64 :=
  amount ((billableLength length).toNat * fee.toNat)

def cloneCost (length : Int32) (base fee : UInt64) : Except Fault UInt64 :=
  amount (base.toNat + (billableLength length).toNat * fee.toNat)

inductive Metered where
  | creation (kind : Kind) (length : Int32)
  | cloning (length : Int32)
  deriving DecidableEq

def Metered.cost (schedule : Schedule) : Metered → Except Fault UInt64
  | creation kind length => initCost length (schedule.perElement kind)
  | cloning length => cloneCost length schedule.cloneBase schedule.cloneElement

end MeteredArrays
