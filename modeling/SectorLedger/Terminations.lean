import SectorLedger.NumberSet

/-!
# Processed terminations

What comes out of the early-termination queues: sectors by the epoch at which they ended, with how many
partitions and sectors were gone through.
-/

namespace SectorLedger

/-- Unites numbers with those filed under an epoch, in a list that ascends by epoch. -/
def mergeByEpoch (epoch : Int) (numbers : NumberSet) : List (Int × NumberSet) → List (Int × NumberSet)
  | [] => [(epoch, numbers)]
  | (e, old) :: rest =>
    if epoch < e then (epoch, numbers) :: (e, old) :: rest
    else if epoch = e then (e, old ∪ numbers) :: rest
    else (e, old) :: mergeByEpoch epoch numbers rest

/-- Sectors taken from early-termination queues. -/
structure Terminations where
  /-- The sectors by the epoch at which they ended, in ascending order of epoch. -/
  sectors : List (Int × NumberSet) := []
  /-- How many partitions were gone through. -/
  partitions : Nat := 0
  /-- How many sectors were taken. -/
  processed : Nat := 0
  deriving DecidableEq, Repr, Inhabited

namespace Terminations

/-- Adds the counts and unites the sectors of each epoch. -/
def add (s t : Terminations) : Outcome Terminations := do
  let partitions ← Count.add s.partitions t.partitions
  let processed ← Count.add s.processed t.processed
  return { partitions, processed, sectors := t.sectors.foldl (fun acc e => mergeByEpoch e.1 e.2 acc) s.sectors }

/-- Whether both counts are below their limits. -/
def belowLimit (s : Terminations) (maxPartitions maxSectors : Nat) : Bool :=
  s.partitions < maxPartitions && s.processed < maxSectors

/-- Whether no sector was taken. -/
def isEmpty (s : Terminations) : Bool := s.processed == 0

end Terminations

end SectorLedger
