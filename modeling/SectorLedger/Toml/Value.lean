/-!
# Values of a configuration

A configuration is a table of named values. Tables come into being in several ways, which decide what may
still be added to them: once a table has been given in full, or under a heading of its own, nothing else may
define it again.

* `Toml.Entries.assign`, `openTable`, `appendTable`: the three statements of a document. Each has no result if
  the rules forbid it.
-/

namespace SectorLedger.Toml

/-- How a table came into being. -/
inductive Origin where
  /-- It was named on the way to a table with a heading. -/
  | implied
  /-- It has a heading. -/
  | heading
  /-- It was named on the way to a dotted key. -/
  | dotted
  /-- It was given in full, in braces. -/
  | inPlace
  deriving DecidableEq, Repr

/-- A value. -/
inductive Value where
  /-- A whole number. -/
  | integer (n : Int)
  /-- Another number, by its text. -/
  | float (text : List Char)
  /-- A truth value. -/
  | boolean (b : Bool)
  /-- A text. -/
  | string (text : String)
  /-- A date, a time, or both, by its text. -/
  | moment (text : List Char)
  /-- A list of values in brackets. -/
  | array (items : List Value)
  /-- A table. -/
  | table (origin : Origin) (entries : List (String × Value))
  /-- A list of tables, each with its own heading. -/
  | tables (elements : List (List (String × Value)))
  deriving Inhabited

/-- Named values, in the order in which they were defined. -/
abbrev Entries : Type := List (String × Value)

namespace Entries

/-- The value of a name. -/
def find (es : Entries) (key : String) : Option Value := es.lookup key

/-- Gives a name that is defined another value. -/
def replace (es : Entries) (key : String) (v : Value) : Entries :=
  es.map fun e => if e.1 = key then (key, v) else e

/-- Adds a name that is new. -/
def extend (es : Entries) (key : String) (v : Value) : Option Entries :=
  if (find es key).isSome then none else some (es ++ [(key, v)])

/-- Changes the table that is reached by a path, and brings the tables on the way into being. A path leads to
the last table of a list, and never into a table given in full. A dotted key does not lead into a table that
has a heading, nor does it end at a list of tables; a table on its way counts from then on as named by it. -/
def modifyAt (dotted : Bool) (f : Entries → Option Entries) : List String → Entries → Option Entries
  | [], es => f es
  | key :: path, es =>
    match find es key with
    | none => do
      let inner ← modifyAt dotted f path []
      return es ++ [(key, .table (if dotted then .dotted else .implied) inner)]
    | some (.table origin inner) =>
      if origin = .inPlace ∨ (dotted ∧ origin = .heading) then none
      else do return replace es key (.table (if dotted then .dotted else origin) (← modifyAt dotted f path inner))
    | some (.tables elements) =>
      if dotted ∧ path = [] then none
      else do
        let last ← elements.getLast?
        return replace es key (.tables (elements.dropLast ++ [← modifyAt dotted f path last]))
    | some _ => none

/-- Defines a key, whose last part must be new, in the table that the heading names. -/
def assign (heading : List String) (path : List String) (key : String) (v : Value) (es : Entries) : Option Entries :=
  modifyAt false (modifyAt true (extend · key v) path) heading es

/-- Gives a table its heading. -/
def openTable (path : List String) (key : String) : Entries → Option Entries :=
  modifyAt false (fun es =>
    match find es key with
    | none => some (es ++ [(key, .table .heading [])])
    | some (.table .implied inner) => some (replace es key (.table .heading inner))
    | some _ => none) path

/-- Adds a table to a list of tables. -/
def appendTable (path : List String) (key : String) : Entries → Option Entries :=
  modifyAt false (fun es =>
    match find es key with
    | none => some (es ++ [(key, .tables [[]])])
    | some (.tables elements) => some (replace es key (.tables (elements ++ [[]])))
    | some _ => none) path

end Entries

end SectorLedger.Toml
