import SectorLedger.Toml.Text

/-!
# Configuration documents

A document is a sequence of lines: keys with their values, and headings of tables. A key before the first
heading belongs to the document itself.

* `Toml.read?`: the entries of a document, if it is a valid one.
-/

namespace SectorLedger.Toml

/-- Whether a character may stand in a key without quotes. -/
def isBare (c : Char) : Bool := c.isAlphanum || c = '_' || c = '-'

/-- One part of a key. -/
def keyPart? : List Char → Option (String × List Char)
  | '\x22' :: rest => lineText? doubleQuote rest
  | '\x27' :: rest => lineText? singleQuote rest
  | cs =>
    let word := cs.takeWhile isBare
    if word.isEmpty then none else some (String.ofList word, cs.dropWhile isBare)

/-- The parts of a key, at most `count` of them, and the last one apart. -/
def keyUpTo : Nat → List Char → Option ((List String × String) × List Char)
  | 0, _ => none
  | count + 1, cs => do
    let (part, cs) ← keyPart? (blanks cs)
    match blanks cs with
    | '.' :: rest =>
      let ((path, last), rest) ← keyUpTo count rest
      return ((part :: path, last), rest)
    | rest => return (([], part), rest)

/-- How many parts a key may have. -/
def keyLimit : Nat := 80

/-- A key, whose parts are separated by dots. -/
def key? (cs : List Char) : Option ((List String × String) × List Char) := keyUpTo keyLimit cs

/-- Whether a character may stand in a plain value. -/
def isPlain (c : Char) : Bool := c.isAlphanum || c = '_' || c = '-' || c = '+' || c = '.' || c = ':'

/-- A plain value. A date may be followed by a blank and a time. -/
def plain? (cs : List Char) : Option (Value × List Char) := do
  let word := cs.takeWhile isPlain
  let rest := cs.dropWhile isPlain
  match rest with
  | ' ' :: digit :: more =>
    if date? word = some [] ∧ digit.isDigit then
      let time := (digit :: more).takeWhile isPlain
      return (← scalar? (word ++ ' ' :: time), (digit :: more).dropWhile isPlain)
    else return (← scalar? word, rest)
  | _ => return (← scalar? word, rest)

/-- How deeply brackets and braces may be nested. -/
def nestingLimit : Nat := 80

mutual

/-- A value with at most `count` parts, in which brackets and braces may be nested to the given depth. -/
def valueUpTo : Nat → Nat → List Char → Option (Value × List Char)
  | 0, _, _ => none
  | count + 1, depth, cs =>
    match cs with
    | '\x22' :: rest => do
      let (text, rest) ← text? doubleQuote rest
      return (.string text, rest)
    | '\x27' :: rest => do
      let (text, rest) ← text? singleQuote rest
      return (.string text, rest)
    | '[' :: rest => do
      let (items, rest) ← if depth = 0 then none else itemsUpTo count (depth - 1) rest
      return (.array items, rest)
    | '\x7b' :: rest => do
      let (entries, rest) ← if depth = 0 then none else fieldsUpTo count (depth - 1) [] rest
      return (.table .inPlace entries, rest)
    | _ => plain? cs

/-- The rest of a list, which may end with a comma. -/
def itemsUpTo : Nat → Nat → List Char → Option (List Value × List Char)
  | 0, _, _ => none
  | count + 1, depth, cs =>
    match skipSpace cs with
    | ']' :: rest => some ([], rest)
    | cs => do
      let (item, cs) ← valueUpTo count depth cs
      match skipSpace cs with
      | ',' :: rest =>
        let (items, rest) ← itemsUpTo count depth rest
        return (item :: items, rest)
      | ']' :: rest => return ([item], rest)
      | _ => none

/-- The rest of a table in braces, which may end with a comma, after the entries that have been read. A key and
its value may stand on different lines. -/
def fieldsUpTo : Nat → Nat → Entries → List Char → Option (Entries × List Char)
  | 0, _, _, _ => none
  | count + 1, depth, entries, cs =>
    match skipSpace cs with
    | '\x7d' :: rest => some (entries, rest)
    | cs => do
      let ((path, last), cs) ← key? cs
      let (v, cs) ← valueUpTo count depth (skipSpace (← after? '=' (skipSpace cs)))
      let entries ← entries.assign [] path last v
      match skipSpace cs with
      | ',' :: rest => fieldsUpTo count depth entries rest
      | '\x7d' :: rest => return (entries, rest)
      | _ => none

end

/-- A value. -/
def value? (cs : List Char) : Option (Value × List Char) := valueUpTo (cs.length + 1) nestingLimit cs

/-- How far a document has been read. -/
structure Progress where
  /-- The entries so far. -/
  entries : Entries := []
  /-- The heading that keys belong to. -/
  heading : List String := []

/-- The heading of a list of tables, after its two brackets. -/
def listHeading? (p : Progress) (cs : List Char) : Option (Progress × List Char) := do
  let ((path, last), cs) ← key? cs
  let rest ← endOfLine? (← after? ']' (← after? ']' cs))
  return ({ entries := ← p.entries.appendTable path last, heading := path ++ [last] }, rest)

/-- The heading of a table, after its bracket. -/
def heading? (p : Progress) (cs : List Char) : Option (Progress × List Char) := do
  let ((path, last), cs) ← key? cs
  let rest ← endOfLine? (← after? ']' cs)
  return ({ entries := ← p.entries.openTable path last, heading := path ++ [last] }, rest)

/-- A key with its value. -/
def definition? (p : Progress) (cs : List Char) : Option (Progress × List Char) := do
  let ((path, last), cs) ← key? cs
  let (v, cs) ← value? (blanks (← after? '=' cs))
  let rest ← endOfLine? cs
  return ({ p with entries := ← p.entries.assign p.heading path last v }, rest)

/-- One line, and the lines over which its value goes on. -/
def statement? (p : Progress) (cs : List Char) : Option (Progress × List Char) :=
  match endOfLine? cs, blanks cs with
  | some rest, _ => some (p, rest)
  | none, '[' :: '[' :: rest => listHeading? p rest
  | none, '[' :: rest => heading? p rest
  | none, cs => definition? p cs

/-- The lines of a document, at most `count` of them. -/
def linesUpTo : Nat → Progress → List Char → Option Entries
  | _, p, [] => some p.entries
  | 0, _, _ => none
  | count + 1, p, cs => do
    let (p, rest) ← statement? p cs
    linesUpTo count p rest

/-- The entries of a document, if it is a valid one. A mark of the byte order in front does not count. -/
def read? (text : String) : Option Entries :=
  let cs := match text.toList with
    | '\ufeff' :: rest => rest
    | cs => cs
  linesUpTo cs.length {} cs

end SectorLedger.Toml
