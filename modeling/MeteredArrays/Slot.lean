import Std.Data.ExtTreeMap
import MeteredArrays.Kind

namespace MeteredArrays

abbrev ArrayId := Nat

structure Slot where
  number : UInt64
  deriving DecidableEq

namespace Slot

instance : Ord Slot where
  compare := compareOn number

instance : Std.TransOrd Slot :=
  inferInstanceAs (Std.TransCmp (compareOn number))

instance : Std.LawfulEqOrd Slot where
  eq_of_compare {a b} h := by
    cases a
    cases b
    exact congrArg _ (Std.LawfulEqOrd.eq_of_compare h)

end Slot

structure Link where
  kind : Kind
  slot : Slot
  deriving DecidableEq

end MeteredArrays
