/-!
# Variable-length numbers

A number as bytes of seven bits each, the lowest first; every byte but the last has its high bit set.
Numbers of 64 bits take at most ten bytes. They are the keys of maps.

* `Varint.encode`, `Varint.decode`: the two directions.
* `Varint.decode_encode`: a number of at most 63 bits reads back, whatever follows it.
-/

namespace SectorLedger

namespace Varint

/-- The bytes of a number. -/
def encode (n : Nat) : List UInt8 :=
  if n < 128 then [n.toUInt8] else (n % 128 + 128).toUInt8 :: encode (n / 128)
termination_by n
decreasing_by omega

/-- Why bytes are not a number. -/
inductive Malformed where
  /-- The bytes end inside the number. -/
  | unfinished
  /-- The tenth byte is not the last. -/
  | tooLong
  /-- The last of several bytes is zero. -/
  | notMinimal
  deriving DecidableEq, Repr

namespace Malformed

/-- The words for it. -/
def message : Malformed → String
  | unfinished => "not enough input bytes"
  | tooLong => "input bytes exceed maximum"
  | notMinimal => "encoding is not minimal"

end Malformed

/-- The number at the start of some bytes, of which `position` have been read. -/
def decodeAt (position : Nat) : List UInt8 → Except Malformed Nat
  | [] => .error .unfinished
  | b :: rest =>
    if b < 128 then
      if b = 0 ∧ 0 < position then .error .notMinimal else .ok b.toNat
    else if position = 9 then .error .tooLong
    else
      match decodeAt (position + 1) rest with
      | .ok n => .ok (b.toNat - 128 + 128 * n)
      | .error e => .error e

/-- The number at the start of some bytes. Bits above the sixty-fourth are dropped, and so is what
follows. -/
def decode (bytes : List UInt8) : Except Malformed Nat := (decodeAt 0 bytes).map (· % 0x10000000000000000)

theorem decodeAt_encode (n position : Nat) (rest : List UInt8) (h : n < Nat.pow 128 (9 - position))
    (hp : position = 0 ∨ 0 < n) : decodeAt position (encode n ++ rest) = .ok n := by
  fun_induction encode n generalizing position with
  | case1 n hn =>
    have hb : n.toUInt8.toNat = n := by simp; omega
    have hlt : n.toUInt8 < 128 := by rw [UInt8.lt_iff_toNat_lt, hb]; exact hn
    have hz : n.toUInt8 = 0 → n = 0 := fun h => by rw [← hb, h]; rfl
    simp only [List.cons_append, List.nil_append, decodeAt, hlt, if_true, hb]
    rw [if_neg]
    rintro ⟨h0, h1⟩
    have := hz h0
    omega
  | case2 n hn ih =>
    have hb : (n % 128 + 128).toUInt8.toNat = n % 128 + 128 := by simp; omega
    have hlt : ¬ (n % 128 + 128).toUInt8 < 128 := by rw [UInt8.lt_iff_toNat_lt, hb]; simp
    have h9 : position < 9 := Nat.lt_of_not_le fun hge => by
      rw [show 9 - position = 0 by omega] at h
      have : n < 1 := h
      omega
    have hdiv : n / 128 < Nat.pow 128 (9 - (position + 1)) := by
      rw [show 9 - position = (9 - (position + 1)) + 1 by omega] at h
      have : n < Nat.pow 128 (9 - (position + 1)) * 128 := h
      exact Nat.div_lt_of_lt_mul (by omega)
    simp only [List.cons_append, decodeAt, hlt, if_false, show position ≠ 9 by omega,
      ih (position + 1) hdiv (.inr (by omega)), hb]
    congr 1
    omega

/-- A number of at most 63 bits reads back, whatever follows it. -/
theorem decode_encode (n : Nat) (rest : List UInt8) (h : n < 0x8000000000000000) :
    decode (encode n ++ rest) = .ok n := by
  rw [decode, decodeAt_encode n 0 rest h (.inl rfl)]
  simp only [Except.map]
  congr 1
  omega

end Varint

end SectorLedger
