import SectorLedger.Binary.Varint
import SectorLedger.NumberSet

/-!
# Sets of numbers as bytes

A set is written as the lengths of the runs of absent and present numbers, which alternate. The writing is
made of bits, which fill each byte from its lowest bit on: two zeros for the version, whether zero is in
the set, and the runs. A short run takes fewer bits.

* `RunLength.encode`: the bytes of a set.
-/

namespace SectorLedger

namespace RunLength

/-- The low bits of a number, the lowest first. -/
def lowBits (width n : Nat) : List Bool := (List.range width).map n.testBit

/-- The bits of the length of a run: one for a run of one, six for a run below sixteen, and otherwise two
with a variable-length number. -/
def runBits (length : Nat) : List Bool :=
  if length = 1 then [true]
  else if length < 16 then [false, true] ++ lowBits 4 length
  else [false, false] ++ (Varint.encode length).flatMap fun b => lowBits 8 b.toNat

/-- The distances between neighbouring change points, the first one from `start`. -/
def gaps (start : Nat) : List Nat → List Nat
  | [] => []
  | b :: rest => (b - start) :: gaps b rest

/-- The lengths of the runs of a set, absent and present numbers in turn. A set that holds zero starts with
a run of present ones. -/
def lengths (s : NumberSet) : List Nat :=
  match s.bounds with
  | 0 :: rest => gaps 0 rest
  | bounds => gaps 0 bounds

/-- The number that some bits stand for, the lowest first. -/
def ofBits (bits : List Bool) : Nat := bits.foldr (fun b n => b.toNat + 2 * n) 0

/-- Fills bytes with bits. The last byte may be filled up with zeros. -/
def pack : List Bool → List UInt8
  | [] => []
  | b :: bits => (ofBits (b :: bits.take 7)).toUInt8 :: pack (bits.drop 7)
termination_by bits => bits.length
decreasing_by simp only [List.length_drop, List.length_cons]; omega

/-- The bytes of a set. Zeros at the end are left out. -/
def encode (s : NumberSet) : List UInt8 :=
  if s.isEmpty then []
  else
    let bits := [false, false, s.contains 0] ++ (lengths s).flatMap runBits
    ((pack bits).reverse.dropWhile (· == 0)).reverse

end RunLength

end SectorLedger
