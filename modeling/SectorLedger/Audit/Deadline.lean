import SectorLedger.Audit.Partition
import SectorLedger.Deadline

/-!
# Audits of deadlines

The partitions of a deadline should be numbered from zero without gaps and share no sector, the totals
should be the sums over them, and the queue of expiring partitions should list each of them at every epoch
at which sectors of it expire.

* `Audit.deadlineState`: the audit.
-/

namespace SectorLedger

/-- What a deadline holds, in all. -/
structure DeadlineSummary where
  /-- All sectors. -/
  all : NumberSet := ∅
  /-- The sectors that have not ended. -/
  live : NumberSet := ∅
  /-- The faulty sectors. -/
  faulty : NumberSet := ∅
  /-- The recovering sectors. -/
  recovering : NumberSet := ∅
  /-- The unproven sectors. -/
  unproven : NumberSet := ∅
  /-- The sectors that ended. -/
  terminated : NumberSet := ∅
  /-- The power of the live sectors. -/
  livePower : Power := 0
  /-- The power that counts. -/
  activePower : Power := 0
  /-- The faulty power. -/
  faultyPower : Power := 0
  deriving DecidableEq, Repr

namespace DeadlineSummary

/-- Adds what a partition holds. -/
def add (d : DeadlineSummary) (p : PartitionSummary) : DeadlineSummary where
  all := d.all ∪ p.all
  live := d.live ∪ p.live
  faulty := d.faulty ∪ p.faulty
  recovering := d.recovering ∪ p.recovering
  unproven := d.unproven ∪ p.unproven
  terminated := d.terminated ∪ p.terminated
  livePower := d.livePower + p.livePower
  activePower := d.activePower + p.activePower
  faultyPower := d.faultyPower + p.faultyPower

end DeadlineSummary

namespace Audit

/-- What the audit of partitions has seen so far. -/
structure Seen where
  /-- How many partitions there were. -/
  count : Nat := 0
  /-- What they hold. -/
  summary : DeadlineSummary := {}
  /-- The partitions with sectors that expire, by epoch. -/
  expiring : List (Int × List Nat) := []
  /-- The partitions with early terminations to settle. -/
  early : NumberSet := ∅

variable (grid : Grid) (size : SectorSize) (table : SectorTable)

/-- Checks one partition of a deadline. -/
def deadlinePartition (seen : Seen) (entry : Nat × Partition) : Audit Seen := do
  let (i, p) := entry
  expect (i == seen.count) s!"Non-sequential partitions, expected index {seen.count}, found {i}"
  let part ← under s!"partition {i}: " do
    let part ← partitionState grid size table p
    expect (!seen.summary.all.containsAny part.all) s!"duplicate sector in partition {i}"
    return part
  return {
    count := seen.count + 1
    summary := seen.summary.add part
    expiring := part.epochs.foldl (fun groups epoch => fileByEpoch epoch i groups) seen.expiring
    early := if part.earlyCount > 0 then seen.early ∪ NumberSet.singleton i else seen.early }

/-- Expects partitions to be listed at an epoch at which sectors of them expire. -/
def listedAt (q : NumberQueue) (epoch : Int) (indices : List Nat) : Audit Unit :=
  attempt "error fetching expiration bitfield" () (SparseArray.read q (Epoch.toCount epoch)) fun
    | none => note s!"expected to find partition expiration entry at epoch {epoch}"
    | some listed => indices.forM fun i =>
      expect (i ∈ listed) s!"expected partition {i} to be present in deadline expiration queue at epoch {epoch}"

/-- Checks the totals of a deadline. -/
def deadlineTotals (d : Deadline) (found : DeadlineSummary) : Audit Unit := do
  expect (d.live == found.live.count) s!"deadline live sectors {d.live} != partitions count {found.live.count}"
  expect (d.total == found.all.count) s!"deadline total sectors {d.total} != partitions count {found.all.count}"
  expect (d.faultyPower == found.faultyPower)
    s!"deadline faulty power {d.faultyPower.shown} != partitions total {found.faultyPower.shown}"

/-- Checks a deadline whose sectors are recorded in the table. -/
def deadlineState (d : Deadline) : Audit DeadlineSummary :=
  attempt "error loading partitions" {} d.loadPartitions fun ps => do
    let seen ← ps.entries.foldlM (deadlinePartition grid size table) {}
    d.posted.elements.forM fun i =>
      expect (i ≤ seen.count) s!"invalid PoSt submission for partition {i} of {seen.count}"
    deadlineTotals d seen.summary
    attempt "error loading expiration queue" () (d.expirations.load .array) fun q =>
      seen.expiring.forM fun e => listedAt q e.1 e.2
    expectEqual seen.early d.early "deadline early terminations doesn't match expected partitions"
    return seen.summary

end Audit

end SectorLedger
