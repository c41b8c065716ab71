namespace MeteredArrays

def bigEndian : (width : Nat) → (n : Nat) → List UInt8
  | 0, _ => []
  | width + 1, n => bigEndian width (n / 256) ++ [UInt8.ofNat n]

def ofBigEndian (digits : List UInt8) : Nat :=
  digits.foldl (fun n digit => 256 * n + digit.toNat) 0

/-- The digits of a 64-bit number without leading zeros; zero has none. -/
def shortestBigEndian (n : Nat) : List UInt8 :=
  (bigEndian 8 n).dropWhile (· = 0)

end MeteredArrays
