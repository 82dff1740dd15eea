import SectorLedger.Audit.Expirations
import SectorLedger.Partition

/-!
# Audits of partitions

The groups of a partition's sectors should be contained in each other or exclude each other as their
meaning says, the power recorded for each group should be the sum over its sectors, and the expiration
queue should list exactly the live sectors.

* `Audit.partitionState`: the audit.
-/

namespace SectorLedger

/-- What a partition holds, in all. -/
structure PartitionSummary where
  /-- All sectors. -/
  all : NumberSet
  /-- The sectors that have not ended. -/
  live : NumberSet
  /-- The faulty sectors. -/
  faulty : NumberSet
  /-- The recovering sectors. -/
  recovering : NumberSet
  /-- The unproven sectors. -/
  unproven : NumberSet
  /-- The sectors that ended. -/
  terminated : NumberSet
  /-- The power of the live sectors, by their records. -/
  livePower : Power
  /-- The power that counts, by their records. -/
  activePower : Power
  /-- The recorded faulty power. -/
  faultyPower : Power
  /-- The recorded recovering power. -/
  recoveringPower : Power
  /-- The epochs at which sectors expire. -/
  epochs : List Int
  /-- How many early terminations there are to settle. -/
  earlyCount : Nat
  deriving DecidableEq, Repr

namespace Audit

/-- Expects the groups of a partition's sectors to be contained in each other, or exclude each other, as
their meaning says. -/
def partitionGroups (p : Partition) : Audit Unit := do
  let live := p.liveSectors
  let active := p.activeSectors
  expectContainsAll live active "live does not contain active"
  expectContainsAll live p.faults "live does not contain faults"
  expectContainsAll live p.unproven "live does not contain unproven"
  expectDisjoint active p.faults "active includes faults"
  expectDisjoint active p.unproven "active includes unproven"
  expectContainsAll p.faults p.recoveries "faults do not contain recoveries"
  expectDisjoint live p.terminated "live includes terminations"
  expectDisjoint p.faults p.unproven "unproven includes faults"
  expectContainsAll p.sectors p.terminated "sectors do not contain terminations"

/-- Expects the power recorded for a group to be the sum over its sectors. Answers the records and the
sum, unless a record is missing. -/
def groupPower (size : SectorSize) (table : SectorTable) (group : String) (members : NumberSet) (recorded : Power) :
    Audit (Option (List Sector × Power)) := do
  let (sectors, missing) := selectKnown table members
  if missing.isEmpty then
    let power ← Power.ofSectors size sectors
    expect (recorded == power) s!"{group} power was {recorded.shown}, expected {power.shown}"
    return some (sectors, power)
  else
    note s!"{group} sectors missing from all sectors: {NumberSet.shownList missing}"
    return none

/-- Checks the expiration queue, if all live sectors are known. Answers the epochs at which sectors
expire. -/
def partitionExpirations (grid : Grid) (size : SectorSize) (p : Partition) (live : Option (List Sector)) :
    Audit (List Int) :=
  attempt "error loading expiration queue" [] (p.expirations.load .array) fun q =>
    match live with
    | none => return []
    | some sectors => do
      let listed ← expirations grid (SectorTable.ofList sectors) size q p.faults
      expectEqual p.liveSectors (listed.onTime ∪ listed.early) "live does not equal all expirations"
      return listed.epochs

/-- Checks a partition whose sectors are recorded in the table. -/
def partitionState (grid : Grid) (size : SectorSize) (table : SectorTable) (p : Partition) :
    Audit PartitionSummary := do
  partitionGroups p
  let live ← groupPower size table "live" p.liveSectors p.livePower
  let unproven ← groupPower size table "unproven" p.unproven p.unprovenPower
  let faulty ← groupPower size table "faulty" p.faults p.faultyPower
  let _ ← groupPower size table "recovering" p.recoveries p.recoveringPower
  let powerOf (found : Option (List Sector × Power)) : Power := (found.map (·.2)).getD 0
  let active := powerOf live - powerOf faulty - powerOf unproven
  expect (p.activePower == active) s!"active power was {p.activePower.shown}, expected {active.shown}"
  let epochs ← partitionExpirations grid size p (live.map (·.1))
  let earlyCount ← attempt "error loading early termination queue" 0 (p.early.load .array) fun q =>
    earlyTerminations q p.terminated
  return {
    all := p.sectors, live := p.liveSectors, faulty := p.faults, recovering := p.recoveries
    unproven := p.unproven, terminated := p.terminated
    livePower := powerOf live, activePower := active
    faultyPower := p.faultyPower, recoveringPower := p.recoveringPower
    epochs, earlyCount }

end Audit

end SectorLedger
