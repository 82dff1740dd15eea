import SectorLedger.Failure

/-!
# Binary values

The part of the Concise Binary Object Representation that records are written in: whole numbers of 64
bits, byte strings, arrays and the empty value. Every head takes its shortest form. Whole numbers without
a bound are byte strings: a sign byte and the magnitude, or nothing for zero. They and sets of numbers take
a limited number of bytes each, and a record with a larger one is not written at all.

* `Cbor.encode`: the bytes of a value, or why it is too large.
* `Cbor.write`: the same with a refusal.
-/

namespace SectorLedger

/-- Why a value cannot be written. -/
inductive Oversize where
  /-- A whole number without a bound takes too many bytes. -/
  | number
  /-- A set of numbers takes too many bytes, as many as told. -/
  | set (size : Nat)
  deriving DecidableEq, Repr, Inhabited

namespace Oversize

/-- The words for it. -/
def message : Oversize → String
  | number => "BigInt too large"
  | set size => s!"encoded bitfield was too large {size}"

end Oversize

/-- A value to be written. -/
inductive Cbor where
  /-- A whole number of 64 bits. -/
  | integer (n : Int)
  /-- A byte string. -/
  | bytes (content : List UInt8)
  /-- An array. -/
  | array (items : List Cbor)
  /-- The empty value. -/
  | null
  /-- A value that is too large. -/
  | oversize (why : Oversize)
  deriving Inhabited

namespace Cbor

/-- The low bytes of a number, the highest first. -/
def bigEndian : Nat → Nat → List UInt8
  | 0, _ => []
  | width + 1, n => bigEndian width (n / 256) ++ [n.toUInt8]

/-- The head of a value: its kind, and its size or value in the shortest form. -/
def head (kind n : Nat) : List UInt8 :=
  if n < 24 then [(kind * 32 + n).toUInt8]
  else if n < 0x100 then (kind * 32 + 24).toUInt8 :: bigEndian 1 n
  else if n < 0x10000 then (kind * 32 + 25).toUInt8 :: bigEndian 2 n
  else if n < 0x100000000 then (kind * 32 + 26).toUInt8 :: bigEndian 4 n
  else (kind * 32 + 27).toUInt8 :: bigEndian 8 n

mutual

/-- The bytes of a value. The first part that is too large decides why there are none. -/
def encode : Cbor → Except Oversize (List UInt8)
  | integer n => .ok (if 0 ≤ n then head 0 n.toNat else head 1 (-1 - n).toNat)
  | bytes content => .ok (head 2 content.length ++ content)
  | array items => do return head 4 items.length ++ (← encodeAll items)
  | null => .ok [0xf6]
  | oversize why => .error why

/-- The bytes of several values. -/
def encodeAll : List Cbor → Except Oversize (List UInt8)
  | [] => .ok []
  | item :: rest => do return (← encode item) ++ (← encodeAll rest)

end

/-- The bytes of a number without leading zeros, the highest first. -/
def magnitude (n : Nat) : List UInt8 :=
  if n = 0 then [] else magnitude (n / 256) ++ [n.toUInt8]
termination_by n
decreasing_by omega

/-- The most bytes that a whole number without a bound may take. -/
def numberSizeMax : Nat := 128

/-- A whole number without a bound. -/
def bigInteger (n : Int) : Cbor :=
  let content := if n = 0 then [] else (if n < 0 then 1 else 0) :: magnitude n.natAbs
  if content.length ≤ numberSizeMax then bytes content else oversize .number

/-- The bytes of a value, which the refusal calls `what`. -/
def write (what : String) (v : Cbor) : Outcome (List UInt8) :=
  match encode v with
  | .ok content => .ok content
  | .error why =>
    refused .serialization
      s!"failed to serialize {what}: Serialization error for Cbor protocol: Msg(\x22{why.message}\x22)"

end Cbor

end SectorLedger
