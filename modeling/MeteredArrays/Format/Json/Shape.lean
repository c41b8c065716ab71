import MeteredArrays.Format.Json.Token

namespace MeteredArrays.Json

def Token.isScalar : Token → Bool
  | null | boolean _ | number _ | string _ => true
  | opening _ | closing _ | comma | colon => false

/-- Whether `tokens` complete a value inside the brackets `up`, the innermost one first. A value is
either due next or has just ended. -/
def completes (due : Bool) (up : List Bracket) (tokens : List Token) : Bool :=
  match due, up, tokens with
  | false, [], rest => rest.isEmpty
  | true, up, .opening bracket :: .closing bracket' :: rest =>
    if bracket = bracket' then completes false up rest else false
  | true, up, .opening .array :: rest => completes true (.array :: up) rest
  | true, up, .opening .object :: .string _ :: .colon :: rest => completes true (.object :: up) rest
  | true, up, token :: rest => if token.isScalar then completes false up rest else false
  | true, _, [] => false
  | false, .array :: up, .comma :: rest => completes true (.array :: up) rest
  | false, .object :: up, .comma :: .string _ :: .colon :: rest =>
    completes true (.object :: up) rest
  | false, bracket :: up, .closing bracket' :: rest =>
    if bracket = bracket' then completes false up rest else false
  | false, _ :: _, _ => false

def isValue (tokens : List Token) : Bool :=
  completes true [] tokens

def split (found : List (List Token)) (current : List Token) (depth : Nat) :
    List Token → List (List Token)
  | [] => (current.reverse :: found).reverse
  | token :: rest =>
    match token, depth with
    | .comma, 0 => split (current.reverse :: found) [] 0 rest
    | .opening _, depth => split found (token :: current) (depth + 1) rest
    | .closing _, depth => split found (token :: current) (depth - 1) rest
    | _, depth => split found (token :: current) depth rest

def elements? : List Token → Option (List (List Token))
  | [.opening .array, .closing .array] => some []
  | .opening .array :: rest =>
    if isValue (.opening .array :: rest) then some (split [] [] 0 rest.dropLast) else none
  | _ => none

def member? : List Token → Option (String × List Token)
  | .string (some name) :: .colon :: value => some (name, value)
  | _ => none

def members? : List Token → Option (List (String × List Token))
  | [.opening .object, .closing .object] => some []
  | .opening .object :: rest =>
    if isValue (.opening .object :: rest) then (split [] [] 0 rest.dropLast).mapM member? else none
  | _ => none

def word? : List Token → Option UInt64
  | [.number (some n)] => if n < UInt64.size then some (UInt64.ofNat n) else none
  | _ => none

def case? {α : Type} (cases : List (String × α)) (tokens : List Token) : Option α :=
  match tokens with
  | [.string (some name)] => cases.lookup name
  | [.opening .object, .string (some name), .colon, .null, .closing .object] => cases.lookup name
  | _ => none

def argument? (name : String) : List Token → Option (List Token)
  | .opening .object :: .string (some name') :: .colon :: rest =>
    if name' = name ∧ rest.getLast? = some (.closing .object) then some rest.dropLast else none
  | _ => none

def quote (text : String) : String :=
  "\"" ++ text ++ "\""

end MeteredArrays.Json
