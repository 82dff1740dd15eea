/-!
# Hexadecimal text

Bytes written as two digits each, the high half first.
-/

namespace SectorLedger

namespace Hex

/-- The text of some bytes. -/
def encode (bytes : List UInt8) : String :=
  String.ofList (bytes.flatMap fun b => [Nat.digitChar (b.toNat / 16), Nat.digitChar (b.toNat % 16)])

/-- The value of a digit. -/
def digit? (c : Char) : Option Nat :=
  if '0' ≤ c ∧ c ≤ '9' then some (c.toNat - '0'.toNat)
  else if 'a' ≤ c ∧ c ≤ 'f' then some (c.toNat - 'a'.toNat + 10)
  else if 'A' ≤ c ∧ c ≤ 'F' then some (c.toNat - 'A'.toNat + 10)
  else none

/-- The bytes that some digits stand for. -/
def decodeDigits : List Char → Option (List UInt8)
  | [] => some []
  | [_] => none
  | high :: low :: rest => do
    let h ← digit? high
    let l ← digit? low
    return (h * 16 + l).toUInt8 :: (← decodeDigits rest)

/-- The bytes that a text stands for. -/
def decode (text : String) : Option (List UInt8) := decodeDigits text.toList

end Hex

end SectorLedger
