import SectorLedger.Toml.Value

/-!
# Plain values of a configuration

Values that are written without quotes: truth values, numbers, dates and times. Each is a run of letters,
digits and a few signs, which is read as a whole.

* `Toml.scalar?`: the value that such a run stands for.
-/

namespace SectorLedger.Toml

/-- The value of a digit, of which letters are the higher ones. -/
def digitValue (c : Char) : Nat :=
  if c.isDigit then c.toNat - '0'.toNat else c.toLower.toNat - 'a'.toNat + 10

/-- Whether the character is a digit to the base. -/
def isDigitTo (base : Nat) (c : Char) : Bool := c.isAlphanum && digitValue c < base

/-- Digits, of which neighbours may be separated by an underscore. Answers the digits alone. -/
def digits? (base : Nat) : List Char → Option (List Char)
  | [] => none
  | [c] => if isDigitTo base c then some [c] else none
  | c :: '_' :: rest => if isDigitTo base c then (digits? base rest).map (c :: ·) else none
  | c :: rest => if isDigitTo base c then (digits? base rest).map (c :: ·) else none

/-- The number that some digits stand for. -/
def numberTo (base : Nat) (digits : List Char) : Nat := digits.foldl (fun n c => n * base + digitValue c) 0

/-- Decimal digits without a zero in front. -/
def decimal? (cs : List Char) : Option (List Char) :=
  match digits? 10 cs with
  | some ('0' :: _ :: _) => none
  | found => found

/-- Takes the sign off a number. The flag tells whether it was a minus. -/
def unsign : List Char → Bool × List Char
  | '+' :: rest => (false, rest)
  | '-' :: rest => (true, rest)
  | cs => (false, cs)

/-- A whole number: decimal with an optional sign, or to the base 16, 8 or 2 with a mark in front. -/
def integer? : List Char → Option Int
  | '0' :: 'x' :: rest => (digits? 16 rest).map (numberTo 16 ·)
  | '0' :: 'o' :: rest => (digits? 8 rest).map (numberTo 8 ·)
  | '0' :: 'b' :: rest => (digits? 2 rest).map (numberTo 2 ·)
  | cs =>
    let (negative, rest) := unsign cs
    (decimal? rest).map fun ds => if negative then -(numberTo 10 ds : Int) else numberTo 10 ds

/-- The exponent of a number, after its letter. -/
def exponent? (cs : List Char) : Option Int :=
  let (negative, rest) := unsign cs
  (digits? 10 rest).map fun ds => if negative then -(numberTo 10 ds : Int) else numberTo 10 ds

/-- Whether a number is too large for a binary one with 53 digits and exponents below 1024: it would be
rounded to `2 ^ 1024`. The number has some digits and is scaled by a power of ten. -/
def isTooLarge (digits : List Char) (scale : Int) : Bool :=
  let significant := digits.dropWhile (· = '0')
  let places := significant.length + scale
  if significant.isEmpty || places < 300 then false
  else if places > 310 then true
  else numberTo 10 significant * Nat.pow 10 scale.toNat ≥ (1 <<< 1024 - 1 <<< 970) * Nat.pow 10 (-scale).toNat

/-- Splits a text at the first character with the property. -/
def splitAtFirst (p : Char → Bool) (cs : List Char) : List Char × Option (List Char) :=
  match cs.dropWhile (!p ·) with
  | [] => (cs, none)
  | _ :: rest => (cs.takeWhile (!p ·), some rest)

/-- Whether the text is a number that is not whole: with a fraction, an exponent or both, and not too large,
or one of the two special ones. -/
def isFloat (cs : List Char) : Bool :=
  let body := (unsign cs).2
  if body = "inf".toList || body = "nan".toList then true
  else
    let (mantissa, exponent) := splitAtFirst (fun c => c = 'e' || c = 'E') body
    let (whole, fraction) := splitAtFirst (· = '.') mantissa
    (exponent.isSome || fraction.isSome) &&
      match decimal? whole, digits? 10 (fraction.getD ['0']), exponent? (exponent.getD ['0']) with
      | some whole, some fraction, some exponent => !isTooLarge (whole ++ fraction) (exponent - fraction.length)
      | _, _, _ => false

/-- The number of the first `count` digits, and what follows them. -/
def fixed? : Nat → List Char → Option (Nat × List Char)
  | 0, cs => some (0, cs)
  | count + 1, cs => do
    let (n, rest) ← fixed? count cs
    match rest with
    | c :: rest => if c.isDigit then some (n * 10 + digitValue c, rest) else none
    | [] => none

/-- Takes a character off the front. -/
def after? (c : Char) : List Char → Option (List Char)
  | d :: rest => if d = c then some rest else none
  | [] => none

/-- How many days a month has. -/
def daysIn (year month : Nat) : Nat :=
  if month = 2 then
    if year % 4 = 0 ∧ (year % 100 ≠ 0 ∨ year % 400 = 0) then 29 else 28
  else if month = 4 ∨ month = 6 ∨ month = 9 ∨ month = 11 then 30
  else 31

/-- A date at the front of a text. Answers what follows it. -/
def date? (cs : List Char) : Option (List Char) := do
  let (year, cs) ← fixed? 4 cs
  let (month, cs) ← fixed? 2 (← after? '-' cs)
  let (day, cs) ← fixed? 2 (← after? '-' cs)
  if 1 ≤ month ∧ month ≤ 12 ∧ 1 ≤ day ∧ day ≤ daysIn year month then some cs else none

/-- The seconds of a time, with an optional fraction. Answers what follows them. -/
def seconds? (cs : List Char) : Option (List Char) := do
  let (second, cs) ← fixed? 2 cs
  if second > 60 then none
  else
    match cs with
    | '.' :: rest =>
      if (rest.takeWhile Char.isDigit).isEmpty then none else some (rest.dropWhile Char.isDigit)
    | _ => some cs

/-- A time at the front of a text; its seconds may be left out. Answers what follows it. -/
def time? (cs : List Char) : Option (List Char) := do
  let (hour, cs) ← fixed? 2 cs
  let (minute, cs) ← fixed? 2 (← after? ':' cs)
  if hour > 23 ∨ minute > 59 then none
  else
    match cs with
    | ':' :: rest => seconds? rest
    | _ => some cs

/-- Whether the text is the distance from the common time zone. -/
def isZone : List Char → Bool
  | ['Z'] => true
  | ['z'] => true
  | sign :: rest =>
    (sign = '+' || sign = '-') &&
      match fixed? 2 rest with
      | some (hour, ':' :: rest) =>
        match fixed? 2 rest with
        | some (minute, []) => hour ≤ 23 && minute ≤ 59
        | _ => false
      | _ => false
  | [] => false

/-- Whether the text is a date, a time, or a date with a time after a mark or a blank, and then perhaps with
a zone. -/
def isMoment (cs : List Char) : Bool :=
  match date? cs with
  | some [] => true
  | some (mark :: rest) =>
    (mark = 'T' || mark = 't' || mark = ' ') &&
      match time? rest with
      | some [] => true
      | some zone => isZone zone
      | none => false
  | none => time? cs = some []

/-- Whether a whole number fits into 128 bits, with or without a sign. -/
def IntegerInRange (n : Int) : Prop :=
  -0x80000000000000000000000000000000 ≤ n ∧ n < 0x100000000000000000000000000000000

instance (n : Int) : Decidable (IntegerInRange n) := inferInstanceAs (Decidable (_ ∧ _))

/-- The value that a run of characters stands for. -/
def scalar? (cs : List Char) : Option Value :=
  if cs = "true".toList then some (.boolean true)
  else if cs = "false".toList then some (.boolean false)
  else if isMoment cs then some (.moment cs)
  else
    match integer? cs with
    | some n => if IntegerInRange n then some (.integer n) else none
    | none => if isFloat cs then some (.float cs) else none

end SectorLedger.Toml
