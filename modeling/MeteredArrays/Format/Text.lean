import MeteredArrays.Energy.Schedule
import MeteredArrays.Format.Json.Shape
import MeteredArrays.Slot

namespace MeteredArrays

open Json (Token)

namespace Kind

def toJson (kind : Kind) : String :=
  Json.quote kind.name

def ofTokens? : List Token → Option Kind :=
  Json.case? (all.map fun kind => (kind.name, kind))

def ofJson? (text : String) : Option Kind :=
  Json.tokens? text >>= ofTokens?

end Kind

namespace Corruption

def toJson (corruption : Corruption) : String :=
  Json.quote corruption.name

def ofTokens? : List Token → Option Corruption :=
  Json.case? (all.map fun corruption => (corruption.name, corruption))

def ofJson? (text : String) : Option Corruption :=
  Json.tokens? text >>= ofTokens?

end Corruption

namespace Fault

def toJson : Fault → String
  | storageCorruption why => "\x7b\"StorageCorruption\":" ++ why.toJson ++ "\x7d"
  | fault => Json.quote fault.name

def ofTokens? (tokens : List Token) : Option Fault :=
  match Json.argument? "StorageCorruption" tokens with
  | some argument => storageCorruption <$> Corruption.ofTokens? argument
  | none => Json.case? (plain.map fun fault => (fault.name, fault)) tokens

def ofJson? (text : String) : Option Fault :=
  Json.tokens? text >>= ofTokens?

end Fault

namespace Slot

def toJson (slot : Slot) : String :=
  toString slot.number

def ofTokens? (tokens : List Token) : Option Slot :=
  Slot.mk <$> Json.word? tokens

def ofJson? (text : String) : Option Slot :=
  Json.tokens? text >>= ofTokens?

end Slot

namespace Schedule

def toJson (schedule : Schedule) : String :=
  let members := List.zipWith (fun name fee => Json.quote name ++ ":" ++ toString fee)
    feeNames schedule.fees
  "\x7b" ++ ",".intercalate members ++ "\x7d"

/-- The fee called `name`: exactly one member has this name. Other members do not matter. -/
def fee? (members : List (String × List Token)) (name : String) : Option UInt64 :=
  match members.filter (·.1 = name) with
  | [(_, value)] => Json.word? value
  | _ => none

def ofTokens? (tokens : List Token) : Option Schedule :=
  match Json.elements? tokens with
  | some elements => elements.mapM Json.word? >>= ofFees?
  | none => do
    let members ← Json.members? tokens
    feeNames.mapM (fee? members) >>= ofFees?

def ofJson? (text : String) : Option Schedule :=
  Json.tokens? text >>= ofTokens?

end Schedule

end MeteredArrays
