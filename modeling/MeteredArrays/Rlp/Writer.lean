import MeteredArrays.BigEndian

namespace MeteredArrays.Rlp

/-- `payload` behind the header of its length. Headers of byte strings count from 0x80, those of
lists from 0xc0. -/
def withHeader (base : Nat) (payload : List UInt8) : List UInt8 :=
  if payload.length ≤ 55 then
    UInt8.ofNat (base + payload.length) :: payload
  else
    let digits := shortestBigEndian payload.length
    UInt8.ofNat (base + 55 + digits.length) :: (digits ++ payload)

def ofBytes : List UInt8 → List UInt8
  | [byte] => if byte < 0x80 then [byte] else withHeader 0x80 [byte]
  | bytes => withHeader 0x80 bytes

def ofNat (n : Nat) : List UInt8 :=
  ofBytes (shortestBigEndian n)

def ofItems (items : List UInt8) : List UInt8 :=
  withHeader 0xc0 items

end MeteredArrays.Rlp
