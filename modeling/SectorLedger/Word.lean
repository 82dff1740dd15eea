import SectorLedger.Failure

/-!
# Epochs and counts

An *epoch* is a 64-bit signed number of chain rounds, a *count* a 64-bit unsigned number (sector
numbers and indices are counts too). Both are written here as unbounded integers, and every operation
that leaves the 64-bit range is a fault, so a value that comes out of one is always in range. The
operators are the mathematical ones inside the range: division truncates, and the remainder takes
the sign of the dividend. The bounds are written to the base 16: `0x8000000000000000` is `2 ^ 63`, and
`0x10000000000000000` is `2 ^ 64`.

* `Epoch.add`, `Epoch.sub`, `Epoch.mul`, `Epoch.div`, `Epoch.rem`, `Epoch.mod`: checked arithmetic.
* `Count.add`, `Count.sub`, `Count.mul`, `Count.div`, `Count.rem`: the same for counts.
* `Epoch.toCount`, `Count.toEpoch`: reinterpretation of the 64 bits, which never stops.
* `Epoch.asCount`, `Count.asEpoch`: the same number, or a failure if it has no such form.
-/

namespace SectorLedger

namespace Epoch

/-- The 64-bit signed range. -/
def InRange (n : Int) : Prop := -0x8000000000000000 ≤ n ∧ n < 0x8000000000000000

instance (n : Int) : Decidable (InRange n) := inferInstanceAs (Decidable (_ ∧ _))

/-- The least epoch. -/
def least : Int := -0x8000000000000000

/-- Accepts a result that is in range. -/
def checked (n : Int) : Outcome Int := if InRange n then .ok n else .error .fault

/-- Sum. -/
def add (a b : Int) : Outcome Int := checked (a + b)

/-- Difference. -/
def sub (a b : Int) : Outcome Int := checked (a - b)

/-- Product. -/
def mul (a b : Int) : Outcome Int := checked (a * b)

/-- Quotient, rounded towards zero. -/
def div (a b : Int) : Outcome Int := if b = 0 then .error .fault else checked (a.tdiv b)

/-- Remainder with the sign of the dividend. It is a fault where the quotient is one. -/
def rem (a b : Int) : Outcome Int :=
  if b = 0 ∨ (a = least ∧ b = -1) then .error .fault else .ok (a.tmod b)

/-- Remainder between zero and the size of the divisor. It is a fault where the quotient is one. -/
def mod (a b : Int) : Outcome Int :=
  if b = 0 ∨ (a = least ∧ b = -1) then .error .fault else .ok (a.emod b)

/-- Reads the 64 bits as a count. -/
def toCount (n : Int) : Nat := (n % 0x10000000000000000).toNat

/-- The same number as a count. A negative epoch has none. -/
def asCount (n : Int) : Outcome Nat := if 0 ≤ n then .ok n.toNat else failed "<int conversion>"

theorem checked_eq_ok_iff {n m : Int} : checked n = .ok m ↔ InRange n ∧ m = n := by
  unfold checked; split <;> simp_all [eq_comm]

end Epoch

namespace Count

/-- The first number above the 64-bit unsigned range. -/
def bound : Nat := 0x10000000000000000

/-- Accepts a result that is in range. -/
def checked (n : Nat) : Outcome Nat := if n < bound then .ok n else .error .fault

/-- Sum. -/
def add (a b : Nat) : Outcome Nat := checked (a + b)

/-- Difference; a negative one is a fault. -/
def sub (a b : Nat) : Outcome Nat := if b ≤ a then .ok (a - b) else .error .fault

/-- Product. -/
def mul (a b : Nat) : Outcome Nat := checked (a * b)

/-- Quotient. -/
def div (a b : Nat) : Outcome Nat := if b = 0 then .error .fault else .ok (a / b)

/-- Remainder. -/
def rem (a b : Nat) : Outcome Nat := if b = 0 then .error .fault else .ok (a % b)

/-- Reads the 64 bits as an epoch. -/
def toEpoch (n : Nat) : Int := if n < 0x8000000000000000 then n else (n : Int) - 0x10000000000000000

/-- The same number as an epoch. A count above the range of epochs has none. -/
def asEpoch (n : Nat) : Outcome Int := if n < 0x8000000000000000 then .ok n else failed "<int conversion>"

theorem checked_eq_ok_iff {n m : Nat} : checked n = .ok m ↔ n < bound ∧ m = n := by
  unfold checked; split <;> grind

theorem sub_eq_ok_iff {a b c : Nat} : sub a b = .ok c ↔ b ≤ a ∧ c = a - b := by
  unfold sub; split <;> grind

end Count

end SectorLedger
