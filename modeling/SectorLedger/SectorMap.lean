import SectorLedger.NumberSet
import SectorLedger.Policy
import SectorLedger.SparseArray

/-!
# Addressed sectors

Requests name sectors by deadline and partition. The sets of numbers given for one partition are united.

* `PartitionSectors.count`, `DeadlineSectors.count`: how many partitions and sectors a request names.
* `DeadlineSectors.check`: whether it names too many.
-/

namespace SectorLedger

/-- Sets of sector numbers by partition. -/
abbrev PartitionSectors : Type := SparseArray NumberSet

/-- Sets of sector numbers by deadline and partition. -/
abbrev DeadlineSectors : Type := SparseArray PartitionSectors

/-- The sum of some counts, of the things named. -/
def totalOf (what : String) (counts : List Nat) : Outcome Nat :=
  foldOutcome (fun total n =>
    if total + n < Count.bound then .ok (total + n) else failed s!"integer overflow when counting {what}") 0 counts

namespace PartitionSectors

/-- Unites numbers with those of a partition. -/
def add (m : PartitionSectors) (partitionIndex : Nat) (numbers : NumberSet) : PartitionSectors :=
  m.insert partitionIndex (((m.get? partitionIndex).map (· ∪ numbers)).getD numbers)

/-- The map of the given entries. -/
def ofList (entries : List (Nat × NumberSet)) : PartitionSectors :=
  entries.foldl (fun m e => add m e.1 e.2) ∅

/-- How many partitions and how many sectors there are. -/
def count (m : PartitionSectors) : Outcome (Nat × Nat) := do
  let sectors ← totalOf "sectors" (m.values.map NumberSet.count)
  return (SparseArray.count m, sectors)

end PartitionSectors

namespace DeadlineSectors

/-- Unites numbers with those of a partition of a deadline. -/
def add (policy : Policy) (m : DeadlineSectors) (deadline partitionIndex : Nat) (numbers : NumberSet) :
    Outcome DeadlineSectors :=
  if deadline ≥ policy.deadlines then failed s!"invalid deadline {deadline}"
  else .ok (m.insert deadline (PartitionSectors.add ((m.get? deadline).getD ∅) partitionIndex numbers))

/-- Unites a list of numbers with those of a partition of a deadline. -/
def addValues (policy : Policy) (m : DeadlineSectors) (deadline partitionIndex : Nat) (numbers : List Nat) :
    Outcome DeadlineSectors := do
  add policy m deadline partitionIndex (← NumberSet.ofValues numbers)

/-- The map of the given entries. -/
def ofList (policy : Policy) (entries : List (Nat × List (Nat × NumberSet))) : Outcome DeadlineSectors :=
  foldOutcome (fun m e => foldOutcome (fun m p => add policy m e.1 p.1 p.2) m e.2) ∅ entries

/-- How many partitions and how many sectors there are in all deadlines. -/
def count (m : DeadlineSectors) : Outcome (Nat × Nat) := do
  let each ← m.entries.mapM fun e => layering s!"when counting deadline {e.1}" (PartitionSectors.count e.2)
  let partitions ← totalOf "partitions" (each.map (·.1))
  let sectors ← totalOf "sectors" (each.map (·.2))
  return (partitions, sectors)

/-- Refuses a map of too many partitions or too many sectors. -/
def check (m : DeadlineSectors) (maxPartitions maxSectors : Nat) : Outcome Unit := do
  let (partitions, sectors) ← layering "failed to count sectors" (count m)
  if partitions > maxPartitions then
    failed s!"too many partitions {partitions}, max {maxPartitions}"
  if sectors > maxSectors then
    failed s!"too many sectors {sectors}, max {maxSectors}"

end DeadlineSectors

end SectorLedger
