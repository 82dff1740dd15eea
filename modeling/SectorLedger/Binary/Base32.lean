/-!
# Text of thirty-two letters

Bytes written five bits to a letter, the highest bits first, in small letters and without filling.
-/

namespace SectorLedger

namespace Base32

/-- The value of a letter. -/
def letter? (c : Char) : Option Nat :=
  if 'a' ≤ c ∧ c ≤ 'z' then some (c.toNat - 'a'.toNat)
  else if '2' ≤ c ∧ c ≤ '7' then some (c.toNat - '2'.toNat + 26)
  else none

/-- Reads letters into bytes. `bits` pending bits with the value `pending` have not filled a byte; those
left at the end are dropped. -/
def decodeFrom (pending bits : Nat) : List Char → Option (List UInt8)
  | [] => some []
  | c :: rest => do
    let v ← letter? c
    let all := pending * 32 + v
    if bits + 5 < 8 then
      decodeFrom all (bits + 5) rest
    else
      let left := bits + 5 - 8
      return (all >>> left).toUInt8 :: (← decodeFrom (all % 1 <<< left) left rest)

/-- The bytes that some letters stand for. -/
def decode (letters : List Char) : Option (List UInt8) := decodeFrom 0 0 letters

end Base32

end SectorLedger
