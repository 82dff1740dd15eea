import SectorLedger.Toml.Scalar

/-!
# The text of a configuration

Blanks, comments, ends of lines and quoted texts. Each reader takes what it reads off the front of the text
and answers what follows.

* `Toml.endOfLine?`, `skipSpace`: what may stand between statements and inside brackets.
* `Toml.lineText?`, `text?`: quoted texts, on one line or on several.
-/

namespace SectorLedger.Toml

/-- The mark around a text with escapes. -/
def doubleQuote : Char := '\x22'

/-- The mark around a text that is taken as it is. -/
def singleQuote : Char := '\x27'

/-- Takes the end of a line off the front. -/
def newline? : List Char → Option (List Char)
  | '\n' :: rest => some rest
  | '\r' :: '\n' :: rest => some rest
  | _ => none

/-- Takes blanks off the front. -/
def blanks (cs : List Char) : List Char := cs.dropWhile fun c => c = ' ' || c = '\t'

/-- Whether a character may stand in a line as it is. -/
def isContent (c : Char) : Bool := c = '\t' || (' ' ≤ c && c ≠ '\x7f')

/-- Takes the rest of a line off the front, which may hold a comment and nothing else. -/
def endOfLine? (cs : List Char) : Option (List Char) :=
  let ends : List Char → Option (List Char)
    | [] => some []
    | cs => newline? cs
  match blanks cs with
  | '#' :: rest => ends (rest.dropWhile isContent)
  | cs => ends cs

/-- Takes blanks, comments and ends of lines off the front, at most `count` of them. -/
def skipUpTo : Nat → List Char → List Char
  | 0, cs => cs
  | count + 1, cs =>
    match blanks cs with
    | '#' :: rest => skipUpTo count (rest.dropWhile isContent)
    | cs =>
      match newline? cs with
      | some rest => skipUpTo count rest
      | none => cs

/-- Takes blanks, comments and ends of lines off the front. -/
def skipSpace (cs : List Char) : List Char := skipUpTo cs.length cs

/-- The character whose number is written in the first `count` digits to the base 16. -/
def coded? (count : Nat) (cs : List Char) : Option (Char × List Char) :=
  let digits := cs.take count
  let n := numberTo 16 digits
  if digits.length = count ∧ digits.all (isDigitTo 16) ∧ n.isValidChar then some (Char.ofNat n, cs.drop count)
  else none

/-- The character that an escape stands for, after its mark. -/
def escape? : List Char → Option (Char × List Char)
  | 'b' :: rest => some ('\x08', rest)
  | 't' :: rest => some ('\t', rest)
  | 'n' :: rest => some ('\n', rest)
  | 'f' :: rest => some ('\x0c', rest)
  | 'r' :: rest => some ('\r', rest)
  | 'e' :: rest => some ('\x1b', rest)
  | '\x22' :: rest => some ('\x22', rest)
  | '\x5c' :: rest => some ('\x5c', rest)
  | 'x' :: rest => coded? 2 rest
  | 'u' :: rest => coded? 4 rest
  | 'U' :: rest => coded? 8 rest
  | _ => none

/-- Takes blanks and ends of lines off the front, at most `count` of them. -/
def skipLines : Nat → List Char → List Char
  | 0, cs => cs
  | count + 1, cs =>
    match newline? (blanks cs) with
    | some rest => skipLines count rest
    | none => blanks cs

/-- Takes the end of a line off the front, after the mark that joins it with the next line, and the blanks
in front of what follows. -/
def joinLines? (cs : List Char) : Option (List Char) :=
  (newline? (blanks cs)).map fun rest => skipLines rest.length rest

/-- Puts characters in front of a text that has been read. -/
def preceded (cs : List Char) (read : Option (List Char × List Char)) : Option (List Char × List Char) :=
  read.map fun r => (cs ++ r.1, r.2)

/-- The rest of a text between quotes, which has at most `count` parts. Between triple quotes it may go on
over several lines, and up to two quotes may stand together. -/
def quoted? (quote : Char) (triple : Bool) : Nat → List Char → Option (List Char × List Char)
  | 0, _ => none
  | _, [] => none
  | count + 1, c :: rest =>
    if c = quote then
      if triple then
        let quotes := 1 + (rest.takeWhile (· = quote)).length
        let rest := rest.dropWhile (· = quote)
        if quotes < 3 then preceded (List.replicate quotes quote) (quoted? quote triple count rest)
        else if quotes ≤ 5 then some (List.replicate (quotes - 3) quote, rest)
        else none
      else some ([], rest)
    else if c = '\x5c' ∧ quote = doubleQuote then
      match if triple then joinLines? rest else none with
      | some rest => quoted? quote triple count rest
      | none => do
        let (c, rest) ← escape? rest
        preceded [c] (quoted? quote triple count rest)
    else if isContent c then preceded [c] (quoted? quote triple count rest)
    else if triple then do
      let rest ← newline? (c :: rest)
      preceded ['\n'] (quoted? quote triple count rest)
    else none

/-- A text on one line, after its first quote. -/
def lineText? (quote : Char) (cs : List Char) : Option (String × List Char) :=
  (quoted? quote false cs.length cs).map fun r => (String.ofList r.1, r.2)

/-- A text, after its first quote. Three quotes open a text that may go on over several lines, and the end
of the first line does not count. -/
def text? (quote : Char) (cs : List Char) : Option (String × List Char) :=
  match cs with
  | a :: b :: rest =>
    if a = quote ∧ b = quote then
      let rest := (newline? rest).getD rest
      (quoted? quote true rest.length rest).map fun r => (String.ofList r.1, r.2)
    else lineText? quote cs
  | _ => lineText? quote cs

end SectorLedger.Toml
