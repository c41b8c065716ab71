namespace MeteredArrays.Json

inductive Bracket where
  | array
  | object
  deriving DecidableEq

inductive Token where
  | opening (bracket : Bracket)
  | closing (bracket : Bracket)
  | comma
  | colon
  | null
  | boolean (value : Bool)
  | number (natural? : Option Nat)
  /-- A string, with its text unless an escape in it names half a surrogate pair. -/
  | string (text? : Option String)
  deriving DecidableEq

def isBlank (c : Char) : Bool :=
  c = ' ' || c = '\t' || c = '\n' || c = '\r'

def hexDigit? (c : Char) : Option Nat :=
  if '0' ≤ c ∧ c ≤ '9' then some (c.toNat - '0'.toNat)
  else if 'a' ≤ c ∧ c ≤ 'f' then some (c.toNat - 'a'.toNat + 10)
  else if 'A' ≤ c ∧ c ≤ 'F' then some (c.toNat - 'A'.toNat + 10)
  else none

def unit? (a b c d : Char) : Option Nat := do
  let digits ← [a, b, c, d].mapM hexDigit?
  return digits.foldl (16 * · + ·) 0

def escape? (c : Char) : Option Nat :=
  match c with
  | '"' => some 0x22
  | '\\' => some 0x5c
  | '/' => some 0x2f
  | 'b' => some 0x08
  | 'f' => some 0x0c
  | 'n' => some 0x0a
  | 'r' => some 0x0d
  | 't' => some 0x09
  | _ => none

def units? (found : List Nat) : List Char → Option (List Nat × List Char)
  | [] => none
  | '"' :: rest => some (found.reverse, rest)
  | '\\' :: 'u' :: a :: b :: c :: d :: rest =>
    match unit? a b c d with
    | some unit => units? (unit :: found) rest
    | none => none
  | '\\' :: c :: rest =>
    match escape? c with
    | some unit => units? (unit :: found) rest
    | none => none
  | c :: rest => if c.toNat < 0x20 then none else units? (c.toNat :: found) rest

/-- The text of a string. A surrogate must be the first or the second half of a pair. -/
def text? (found : List Char) : List Nat → Option String
  | [] => some (String.ofList found.reverse)
  | [unit] => if 0xd800 ≤ unit ∧ unit < 0xe000 then none else text? (Char.ofNat unit :: found) []
  | unit :: next :: rest =>
    if 0xd800 ≤ unit ∧ unit < 0xdc00 then
      if 0xdc00 ≤ next ∧ next < 0xe000 then
        text? (Char.ofNat (0x10000 + (unit - 0xd800) * 0x400 + (next - 0xdc00)) :: found) rest
      else none
    else if 0xdc00 ≤ unit ∧ unit < 0xe000 then none
    else text? (Char.ofNat unit :: found) (next :: rest)

theorem length_lt_of_units? {found units : List Nat} {chars rest : List Char}
    (h : units? found chars = some (units, rest)) : rest.length < chars.length := by
  fun_induction units? found chars with
  | case1 | case4 | case6 | case7 => cases h
  | case2 =>
    cases h
    exact Nat.lt_succ_self _
  | case3 | case5 | case8 =>
    have shorter := ‹_ → _› h
    simp only [List.length_cons]
    omega

def digits (chars : List Char) : List Char × List Char :=
  (chars.takeWhile Char.isDigit, chars.dropWhile Char.isDigit)

def fraction? : List Char → Option (Bool × List Char)
  | '.' :: chars =>
    let (front, rest) := digits chars
    if front.isEmpty then none else some (true, rest)
  | chars => some (false, chars)

def withoutSign : List Char → List Char
  | '+' :: chars | '-' :: chars => chars
  | chars => chars

def exponent? : List Char → Option (Bool × List Char)
  | 'e' :: chars | 'E' :: chars =>
    let (front, rest) := digits (withoutSign chars)
    if front.isEmpty then none else some (true, rest)
  | chars => some (false, chars)

def whole? (chars : List Char) : Option (Nat × List Char) :=
  match digits chars with
  | ([], _) => none
  | ('0' :: _ :: _, _) => none
  | (front, rest) => some (front.foldl (fun n c => 10 * n + (c.toNat - '0'.toNat)) 0, rest)

def unsigned? (chars : List Char) : Option (Option Nat × List Char) := do
  let (whole, rest) ← whole? chars
  let (fraction, rest) ← fraction? rest
  let (exponent, rest) ← exponent? rest
  return (if fraction || exponent then none else some whole, rest)

theorem length_digits (chars : List Char) :
    (digits chars).1.length + (digits chars).2.length = chars.length := by
  rw [← List.length_append]
  exact congrArg _ List.takeWhile_append_dropWhile

theorem length_lt_of_whole? {chars rest : List Char} {n : Nat} (h : whole? chars = some (n, rest)) :
    rest.length < chars.length := by
  have total := length_digits chars
  simp only [whole?] at h
  split at h
  · cases h
  · cases h
  · rename_i nonempty _ eq
    simp only [Option.some.injEq, Prod.mk.injEq] at h
    obtain ⟨-, rfl⟩ := h
    simp only [eq] at total
    have := List.length_pos_iff.mpr nonempty
    omega

theorem length_le_of_fraction? {chars rest : List Char} {b : Bool}
    (h : fraction? chars = some (b, rest)) : rest.length ≤ chars.length := by
  simp only [fraction?] at h
  split at h
  · rename_i tail
    have total := length_digits tail
    split at h
    · cases h
    · cases h
      simp only [List.length_cons]
      omega
  · cases h
    exact Nat.le_refl _

theorem length_withoutSign_le (chars : List Char) : (withoutSign chars).length ≤ chars.length := by
  unfold withoutSign
  split <;> simp

theorem length_le_of_exponent? {chars rest : List Char} {b : Bool}
    (h : exponent? chars = some (b, rest)) : rest.length ≤ chars.length := by
  simp only [exponent?] at h
  split at h
  case h_3 =>
    cases h
    exact Nat.le_refl _
  all_goals
    rename_i tail
    have total := length_digits (withoutSign tail)
    have sign := length_withoutSign_le tail
    split at h
    · cases h
    · cases h
      simp only [List.length_cons]
      omega

theorem length_lt_of_unsigned? {chars rest : List Char} {n? : Option Nat}
    (h : unsigned? chars = some (n?, rest)) : rest.length < chars.length := by
  obtain ⟨⟨_, first⟩, whole, h⟩ := Option.bind_eq_some_iff.mp h
  obtain ⟨⟨_, second⟩, fraction, h⟩ := Option.bind_eq_some_iff.mp h
  obtain ⟨⟨_, third⟩, exponent, h⟩ := Option.bind_eq_some_iff.mp h
  cases h
  exact Nat.lt_of_le_of_lt (length_le_of_exponent? exponent)
    (Nat.lt_of_le_of_lt (length_le_of_fraction? fraction) (length_lt_of_whole? whole))

def token? : List Char → Option (Token × List Char)
  | '[' :: rest => some (.opening .array, rest)
  | ']' :: rest => some (.closing .array, rest)
  | '\x7b' :: rest => some (.opening .object, rest)
  | '\x7d' :: rest => some (.closing .object, rest)
  | ',' :: rest => some (.comma, rest)
  | ':' :: rest => some (.colon, rest)
  | 'n' :: 'u' :: 'l' :: 'l' :: rest => some (.null, rest)
  | 't' :: 'r' :: 'u' :: 'e' :: rest => some (.boolean true, rest)
  | 'f' :: 'a' :: 'l' :: 's' :: 'e' :: rest => some (.boolean false, rest)
  | '"' :: rest => (units? [] rest).map fun (units, rest) => (.string (text? [] units), rest)
  | '-' :: rest => (unsigned? rest).map fun (_, rest) => (.number none, rest)
  | chars => (unsigned? chars).map fun (n?, rest) => (.number n?, rest)

theorem length_lt_of_token? {chars rest : List Char} {token : Token}
    (h : token? chars = some (token, rest)) : rest.length < chars.length := by
  unfold token? at h
  split at h
  case h_10 =>
    obtain ⟨_, read, eq⟩ := Option.map_eq_some_iff.mp h
    cases eq
    exact Nat.lt_succ_of_lt (length_lt_of_units? read)
  case h_11 =>
    obtain ⟨_, read, eq⟩ := Option.map_eq_some_iff.mp h
    cases eq
    exact Nat.lt_succ_of_lt (length_lt_of_unsigned? read)
  case h_12 =>
    obtain ⟨_, read, eq⟩ := Option.map_eq_some_iff.mp h
    cases eq
    exact length_lt_of_unsigned? read
  all_goals
    cases h
    simp only [List.length_cons]
    omega

def tokensAfter? (found : Array Token) (chars : List Char) : Option (Array Token) :=
  match chars with
  | [] => some found
  | c :: rest =>
    if isBlank c then tokensAfter? found rest
    else
      match _ : token? (c :: rest) with
      | none => none
      | some (token, rest) => tokensAfter? (found.push token) rest
termination_by chars.length
decreasing_by
  · exact Nat.lt_succ_self _
  · exact length_lt_of_token? ‹token? (c :: _) = _›

/-- The tokens of a text. All of them are read before any is used: no JSON text has two values side by side. -/
def tokens? (text : String) : Option (List Token) :=
  (tokensAfter? #[] text.toList).map Array.toList

end MeteredArrays.Json
