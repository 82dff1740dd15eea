/-!
# Amounts

An amount of money is an unbounded whole number of the smallest unit. It is shown in units of
`10 ^ 18` of those, with as many decimals as are needed and at least one.
-/

namespace SectorLedger

namespace Amount

/-- How many of the smallest units make one unit. -/
def unit : Nat := 1000000000000000000

/-- The decimals of a fraction of a unit: eighteen digits, without the zeros at the end. -/
def decimals (fraction : Nat) : String :=
  if fraction = 0 then "0"
  else
    let digits := Nat.toDigits 10 fraction
    let padded := List.replicate (18 - digits.length) '0' ++ digits
    String.ofList (padded.reverse.dropWhile (· == '0')).reverse

/-- The text of an amount. -/
def shown (a : Int) : String :=
  let text := toString (a.natAbs / unit) ++ "." ++ decimals (a.natAbs % unit)
  if a < 0 then "-" ++ text else text

/-- The text of an amount inside the display of a record. -/
def tagged (a : Int) : String := s!"TokenAmount({shown a})"

end Amount

end SectorLedger
