import SectorLedger.Grid
import SectorLedger.NumberSet
import SectorLedger.SparseArray

/-!
# Queues of numbers

Sets of numbers filed under the epoch at which they fall due. An epoch is rounded up to the queue's grid
before it becomes a key. Keys are counts; they are compared as epochs.

* `NumberQueue.add`, `NumberQueue.addMany`: one set at one epoch, or many numbers at many epochs.
* `NumberQueue.popUntil`: takes out everything that is due.
* `NumberQueue.cut`: removes numbers and closes the gaps that they leave.
-/

namespace SectorLedger

/-- Sets of numbers by the epoch at which they fall due. -/
abbrev NumberQueue : Type := SparseArray NumberSet

namespace NumberQueue

/-- The key for an epoch: the next point of the grid, which must not be negative. -/
def keyFor (grid : Grid) (rawEpoch : Int) : Outcome Nat := do
  let epoch ← grid.up rawEpoch
  if epoch < 0 then failed s!"bitfield queue cannot hold epoch {epoch}" else return epoch.toNat

/-- Unites the numbers with those at a key. -/
def mergeAt (q : NumberQueue) (key : Nat) (values : NumberSet) : Outcome NumberQueue := do
  let existing ← noting s!"failed to read queue entry at {key}" (SparseArray.read q key)
  let merged := match existing with
    | some old => old ∪ values
    | none => values
  noting s!"failed to write queue entry at {key}" (SparseArray.write q key merged)

/-- Files a set of numbers under an epoch. An empty set leaves the queue as it is. -/
def add (grid : Grid) (q : NumberQueue) (rawEpoch : Int) (values : NumberSet) : Outcome NumberQueue := do
  if values.isEmpty then
    return q
  mergeAt q (← keyFor grid rawEpoch) values

/-- Files a list of numbers under an epoch. -/
def addValues (grid : Grid) (q : NumberQueue) (epoch : Int) (values : List Nat) : Outcome NumberQueue := do
  add grid q epoch (← NumberSet.ofValues values)

/-- Collects the numbers by key. -/
def groupByKey (grid : Grid) (pairs : List (Int × Nat)) : Outcome (SparseArray (List Nat)) :=
  foldOutcome (fun groups pair => do
    let key ← keyFor grid pair.1
    return groups.insert key ((groups.get? key).getD [] ++ [pair.2])) ∅ pairs

/-- Unites a group of numbers with those at its key. -/
def mergeGroup (q : NumberQueue) (group : Nat × List Nat) : Outcome NumberQueue := do
  mergeAt q group.1 (← NumberSet.ofValues group.2)

/-- Files each number under its epoch. Each key is written once, the lowest first. -/
def addMany (grid : Grid) (q : NumberQueue) (pairs : List (Int × Nat)) : Outcome NumberQueue := do
  let groups ← groupByKey grid pairs
  foldOutcome mergeGroup q groups.entries

/-- Removes numbers from every set and moves the later ones down to close the gaps. Sets left empty are
dropped. -/
def cut (q : NumberQueue) (toCut : NumberSet) : NumberQueue :=
  q.entries.foldl (fun r e =>
    let rest := e.2.cut toCut
    if rest.isEmpty then r.erase e.1 else r.insert e.1 rest) q

/-- The entries that are due: those before the first whose epoch is later than `upTo`. -/
def due (q : NumberQueue) (upTo : Int) : List (Nat × NumberSet) :=
  q.entries.takeWhile fun e => Count.toEpoch e.1 ≤ upTo

/-- Takes out every entry that is due and unites their numbers. The flag tells whether there was one. -/
def popUntil (q : NumberQueue) (upTo : Int) : NumberQueue × NumberSet × Bool :=
  let popped := due q upTo
  (q.eraseAll (popped.map (·.1)), popped.foldl (fun s e => s ∪ e.2) ∅, !popped.isEmpty)

/-- Visits each entry in ascending order of key. -/
def visit {σ : Type} (f : σ → Int → NumberSet → Outcome σ) (s : σ) (q : NumberQueue) : Outcome σ :=
  noting "failed to iterate bitfield queue" <| within .array <|
    foldOutcome (fun s e => f s (Count.toEpoch e.1) e.2) s q.entries

end NumberQueue

end SectorLedger
