import SectorLedger.Expiration.Queue
import SectorLedger.SectorTable
import SectorLedger.Stored
import SectorLedger.Terminations

/-!
# Partitions

The sectors that are proven together. Besides the set of all its sectors, a partition keeps which of
them are unproven, faulty, recovering or terminated, the power of each of these groups, when its sectors
expire, and which sectors ended early and still have to be settled.

* `Partition.liveSectors`, `activeSectors`, `activePower`: what follows from the sets and the totals.
* `Partition.addSectors`, `declareFaults`, `declareRecovered`, `recoverFaults`, `activateUnproven`,
  `recordSkippedFaults`, `recordMissedProof`: the life of a sector.
* `Partition.rescheduleExpirations`, `replaceSectors`, `terminateSectors`, `popExpired`,
  `popEarlyTerminations`: its end.
* `Partition.validate`: what every operation checks before it ends.
-/

namespace SectorLedger

/-- Sectors that are proven together. -/
structure Partition where
  /-- All sectors, whatever became of them. -/
  sectors : NumberSet := ∅
  /-- Sectors that have not been proven yet. -/
  unproven : NumberSet := ∅
  /-- Sectors that are faulty. -/
  faults : NumberSet := ∅
  /-- Faulty sectors that are declared to recover. -/
  recoveries : NumberSet := ∅
  /-- Sectors that ended. -/
  terminated : NumberSet := ∅
  /-- When the live sectors expire. -/
  expirations : Stored ExpirationQueue := .held ∅
  /-- Sectors that ended early and are not settled yet, by the epoch at which they ended. -/
  early : Stored NumberQueue := .held ∅
  /-- The power of the sectors that have not ended. -/
  livePower : Power := 0
  /-- The power of the unproven sectors. -/
  unprovenPower : Power := 0
  /-- The power of the faulty sectors. -/
  faultyPower : Power := 0
  /-- The power of the recovering sectors. -/
  recoveringPower : Power := 0
  deriving DecidableEq, Repr

/-- What new faults do to the power. -/
structure FaultDelta where
  /-- The change of active power. -/
  delta : Power := 0
  /-- The power that became faulty. -/
  newlyFaulty : Power := 0
  deriving DecidableEq, Repr

/-- What a missed proof does to the power. -/
structure MissedProof where
  /-- The change of active power. -/
  delta : Power
  /-- The power to pay a penalty for: new faults and failed recoveries. -/
  penalized : Power
  /-- The power that became faulty. -/
  newlyFaulty : Power
  deriving DecidableEq, Repr

/-- What the sectors skipped by a proof do to the power. -/
structure SkippedFaults where
  /-- The change of active power. -/
  delta : Power := 0
  /-- The power that became faulty. -/
  newlyFaulty : Power := 0
  /-- The power whose recovery was taken back. -/
  retracted : Power := 0
  /-- Whether a skipped sector was not faulty before. -/
  anyNew : Bool := false
  deriving DecidableEq, Repr

namespace Partition

instance : Inhabited Partition := ⟨{}⟩

/-- The sectors that have not ended. -/
def liveSectors (p : Partition) : NumberSet := p.sectors \ p.terminated

/-- The sectors that count: live, not faulty, and proven. -/
def activeSectors (p : Partition) : NumberSet := (p.liveSectors \ p.faults) \ p.unproven

/-- The power of the sectors that count. -/
def activePower (p : Partition) : Power := p.livePower - p.faultyPower - p.unprovenPower

/-- Refuses totals that are negative or larger than the total they are part of. -/
def validatePower (p : Partition) : Outcome Unit := do
  let negative (w : Power) : Prop := w.raw < 0 ∨ w.qa < 0
  if negative p.livePower then
    refused .illegalState "Partition left with negative live power: <dump>"
  if negative p.unprovenPower then
    refused .illegalState "Partition left with negative unproven power: <dump>"
  if negative p.faultyPower then
    refused .illegalState "Partition left with negative faulty power: <dump>"
  if negative p.recoveringPower then
    refused .illegalState "Partition left with negative recovering power: <dump>"
  if p.unprovenPower.raw > p.livePower.raw then
    refused .illegalState "Partition left with invalid unproven power: <dump>"
  if p.faultyPower.raw > p.livePower.raw then
    refused .illegalState "Partition left with invalid faulty power: <dump>"
  if p.recoveringPower.raw > p.livePower.raw ∨ p.recoveringPower.raw > p.faultyPower.raw then
    refused .illegalState "Partition left with invalid recovering power: <dump>"

/-- Refuses sectors in groups that exclude each other, or in a group and not in the partition. -/
def validateSets (p : Partition) : Outcome Unit := do
  let pending := p.unproven ∪ p.faults
  if p.terminated.containsAny pending then
    refused .illegalState "Partition left with terminated sectors in multiple states: <dump>"
  if !p.sectors.containsAll (pending ∪ p.terminated) then
    refused .illegalState "Partition left with invalid sector state: <dump>"
  if !p.faults.containsAll p.recoveries then
    refused .illegalState "Partition left with invalid recovery state: <dump>"

/-- Refuses a partition whose totals or groups contradict each other. -/
def validate (p : Partition) : Outcome Unit := do
  p.validatePower
  p.validateSets

/-- The partition, if it is valid. -/
def validated (p : Partition) : Outcome Partition := do
  p.validate
  return p

variable (grid : Grid) (size : SectorSize) (table : SectorTable)

/-- The expiration queue, for an operation that calls it by the given words. -/
def loadExpirations (p : Partition) (words : String) : Outcome ExpirationQueue :=
  noting s!"failed to load {words}" (p.expirations.load .array)

/-- Adds new sectors, which expire at their own expirations. Unless they are proven already they wait for
their first proof. Answers the power that becomes active. -/
def addSectors (p : Partition) (proven : Bool) (sectors : List Sector) : Outcome (Partition × Power) := do
  let queue ← p.loadExpirations "sector expirations"
  let (queue, lot) ← noting "failed to record new sector expirations" (queue.addActive grid size sectors)
  if p.sectors.containsAny lot.numbers then
    refused .illegalArgument "not all added sectors are new"
  let p ← validated { p with
    expirations := .held queue
    sectors := p.sectors ∪ lot.numbers
    livePower := p.livePower + lot.power
    unprovenPower := if proven then p.unprovenPower else p.unprovenPower + lot.power
    unproven := if proven then p.unproven else p.unproven ∪ lot.numbers }
  return (p, if proven then lot.power else 0)

/-- Makes sectors faulty, which were neither faulty nor recovering. Unproven ones never counted, so their
power is not lost. -/
def addFaults (p : Partition) (numbers : NumberSet) (sectors : List Sector) (faultExpiration : Int) :
    Outcome (Partition × FaultDelta) := do
  let queue ← p.loadExpirations "partition queue"
  let (queue, newlyFaulty) ← noting "failed to add faults to partition queue"
    (queue.rescheduleAsFaults grid size faultExpiration sectors)
  let unproven := numbers ∩ p.unproven
  let unprovenInfos ← noting "failed to select unproven sectors" (selectSectors sectors unproven)
  let lost ← if unprovenInfos.isEmpty then pure 0 else Power.ofSectors size unprovenInfos
  let p ← validated { p with
    expirations := .held queue
    faults := p.faults ∪ numbers
    faultyPower := p.faultyPower + newlyFaulty
    unproven := p.unproven \ unproven
    unprovenPower := p.unprovenPower - lost }
  return (p, { delta := -newlyFaulty + lost, newlyFaulty })

/-- Takes back the recovery of sectors of the given power. -/
def removeRecoveries (p : Partition) (numbers : NumberSet) (power : Power) : Partition :=
  if numbers.isEmpty then p
  else { p with recoveries := p.recoveries \ numbers, recoveringPower := p.recoveringPower - power }

/-- Refuses a declaration about sectors that are not in the partition. -/
def requireDeclarable (p : Partition) (numbers : NumberSet) : Outcome Unit :=
  require (p.sectors.containsAll numbers)
    (refused .illegalArgument "failed fault declaration: not all sectors are assigned to the partition")

/-- Declares sectors faulty. Those that are faulty already or ended are ignored, and a declared recovery is
taken back. Answers the new faults. -/
def declareFaults (p : Partition) (numbers : NumberSet) (faultExpiration : Int) :
    Outcome (Partition × NumberSet × FaultDelta) := do
  p.requireDeclarable numbers
  let retracted := p.recoveries ∩ numbers
  let newFaults := ((numbers \ retracted) \ p.terminated) \ p.faults
  let newSectors ← noting "failed to load fault sectors" (table.loadAll newFaults)
  let (p, effect) ←
    if newSectors.isEmpty then pure (p, {})
    else noting "failed to add faults" (addFaults grid size p newFaults newSectors faultExpiration)
  let retractedSectors ← noting "failed to load recovery sectors" (table.loadAll retracted)
  let p ←
    if retractedSectors.isEmpty then pure p
    else p.removeRecoveries retracted <$> Power.ofSectors size retractedSectors
  return (← p.validated, newFaults, effect)

/-- Makes the recovering sectors active again. Answers their power. -/
def recoverFaults (p : Partition) : Outcome (Partition × Power) := do
  let recovered ← noting "failed to load recovered sectors" (table.loadAll p.recoveries)
  let queue ← p.loadExpirations "partition queue"
  let (queue, power) ← noting "failed to reschedule faults in partition queue"
    (queue.rescheduleRecovered grid size recovered)
  let p ← validated { p with
    expirations := .held queue
    faults := p.faults \ p.recoveries
    recoveries := ∅
    faultyPower := p.faultyPower - power
    recoveringPower := p.recoveringPower - power }
  return (p, power)

/-- Makes the unproven sectors active. Answers their power. -/
def activateUnproven (p : Partition) : Partition × Power :=
  ({ p with unproven := ∅, unprovenPower := 0 }, p.unprovenPower)

/-- Declares that faulty sectors will recover. Sectors that are not faulty, or recovering already, are
ignored. -/
def declareRecovered (p : Partition) (numbers : NumberSet) : Outcome Partition := do
  p.requireDeclarable numbers
  let recoveries := (numbers ∩ p.faults) \ p.recoveries
  let sectors ← noting "failed to load recovery sectors" (table.loadAll recoveries)
  let power ← Power.ofSectors size sectors
  validated { p with
    recoveries := p.recoveries ∪ recoveries
    recoveringPower := p.recoveringPower + power }

/-- Moves the expiration of sectors. Those that are absent, faulty or ended are ignored. Answers the
sectors that moved. -/
def rescheduleExpirations (p : Partition) (newExpiration : Int) (numbers : NumberSet) :
    Outcome (Partition × List Sector) := do
  let active := ((numbers ∩ p.sectors) \ p.terminated) \ p.faults
  let sectors ← table.loadAll active
  let queue ← p.loadExpirations "sector expirations"
  let queue ← queue.reschedule grid size newExpiration sectors
  let p ← validated { p with expirations := .held queue }
  return (p, sectors)

/-- Replaces active sectors by others. Answers the change of power and of pledge. -/
def replaceSectors (p : Partition) (old new : List Sector) : Outcome (Partition × Power × Int) := do
  let queue ← p.loadExpirations "sector expirations"
  let (queue, change) ← noting "failed to replace sector expirations" (queue.replace grid size old new)
  let active := p.activeSectors
  if !active.containsAll change.old then
    let listed (s : NumberSet) : String := NumberSet.shownList s.elements
    failed s!"refusing to replace inactive sectors in {listed change.old} (active: {listed active})"
  let p ← validated { p with
    expirations := .held queue
    sectors := (p.sectors \ change.old) ∪ change.new
    livePower := p.livePower + change.power }
  return (p, change.power, change.pledge)

/-- Records sectors that ended early, to be settled later. -/
def recordEarlyTermination (p : Partition) (epoch : Int) (numbers : NumberSet) : Outcome Partition := do
  let queue ← noting "failed to load early termination queue" (p.early.load .array)
  let queue ← noting "failed to add to early termination queue" (NumberQueue.add .finest queue epoch numbers)
  return { p with early := .held queue }

/-- Ends live sectors early. Answers what left the expiration queue, less the power that never counted. -/
def terminateSectors (maxSectors : Nat) (p : Partition) (epoch : Int) (numbers : NumberSet) :
    Outcome (Partition × ExpirationSet) := do
  if !p.liveSectors.containsAll numbers then
    refused .illegalArgument "can only terminate live sectors"
  let sectors ← table.loadAll numbers
  let queue ← p.loadExpirations "sector expirations"
  let (queue, removed, recovering) ← noting "failed to remove sector expirations"
    (queue.removeSectors grid size maxSectors sectors p.faults p.recoveries)
  let gone := removed.onTime ∪ removed.early
  let p ← noting "failed to record early sector termination" (p.recordEarlyTermination epoch gone)
  let unproven := gone ∩ p.unproven
  let unprovenInfos ← selectSectors sectors unproven
  let unprovenPower ← Power.ofSectors size unprovenInfos
  let p ← validated { p with
    expirations := .held queue
    faults := p.faults \ gone
    recoveries := p.recoveries \ gone
    terminated := p.terminated ∪ gone
    unproven := p.unproven \ unproven
    livePower := p.livePower - removed.active - removed.faulty
    faultyPower := p.faultyPower - removed.faulty
    recoveringPower := p.recoveringPower - recovering
    unprovenPower := p.unprovenPower - unprovenPower }
  return (p, { removed with active := removed.active - unprovenPower })

/-- Ends every sector that is due. There must be no unproven and no recovering sectors. Answers what left
the expiration queue. -/
def popExpired (p : Partition) (upTo : Int) : Outcome (Partition × ExpirationSet) := do
  if !p.unproven.isEmpty then
    refused .illegalState "cannot pop expired sectors from a partition with unproven sectors"
  let queue ← p.loadExpirations "expiration queue"
  let (queue, popped) := queue.popUntil upTo
  let expired := popped.onTime ∪ popped.early
  if !p.recoveries.isEmpty then
    refused .illegalState "unexpected recoveries while processing expirations"
  if !p.recoveringPower.isZero then
    refused .illegalState "unexpected recovering power while processing expirations"
  if p.terminated.containsAny expired then
    refused .illegalState "expiring sectors already terminated"
  let p := { p with
    expirations := .held queue
    terminated := p.terminated ∪ expired
    faults := p.faults \ expired
    livePower := p.livePower - (popped.active + popped.faulty)
    faultyPower := p.faultyPower - popped.faulty }
  let p ← noting "failed to record early terminations" (p.recordEarlyTermination upTo popped.early)
  return (← p.validated, popped)

/-- Makes all sectors faulty and takes back all recoveries. -/
def recordMissedProof (p : Partition) (faultExpiration : Int) : Outcome (Partition × MissedProof) := do
  let queue ← p.loadExpirations "partition queue"
  let queue ← noting "failed to reschedule all as faults" (queue.rescheduleAllAsFaults grid faultExpiration)
  let newlyFaulty := p.livePower - p.faultyPower
  let report : MissedProof := {
    delta := -(newlyFaulty - p.unprovenPower)
    penalized := p.recoveringPower + newlyFaulty
    newlyFaulty }
  let p ← validated { p with
    expirations := .held queue
    faults := p.liveSectors
    recoveries := ∅
    unproven := ∅
    faultyPower := p.livePower
    recoveringPower := 0
    unprovenPower := 0 }
  return (p, report)

/-- What has been taken from a queue of early terminations. -/
structure Settling where
  /-- What is left of the queue. -/
  queue : NumberQueue
  /-- What was taken. -/
  taken : Terminations

/-- Takes sectors from the entries in order until the given number has been taken. The last entry may be
taken in part. -/
def settle (maxSectors : Nat) : List (Nat × NumberSet) → Settling → Outcome Settling
  | [], s => .ok s
  | (key, numbers) :: rest, s => do
    let epoch ← Count.asEpoch key
    let limit ← Count.sub maxSectors s.taken.processed
    if limit < numbers.count then
      let now := numbers.takeFirst limit
      return {
        queue := s.queue.insert key (numbers \ now)
        taken := { s.taken with
          sectors := mergeByEpoch epoch now s.taken.sectors, processed := s.taken.processed + limit } }
    else
      let s : Settling := {
        queue := s.queue.erase key
        taken := { s.taken with
          sectors := mergeByEpoch epoch numbers s.taken.sectors
          processed := s.taken.processed + numbers.count } }
      if s.taken.processed < maxSectors then settle maxSectors rest s else return s

/-- Takes at most the given number of sectors that ended early, the earliest first. Answers them, and
whether some are left. -/
def popEarlyTerminations (p : Partition) (maxSectors : Nat) : Outcome (Partition × Terminations × Bool) := do
  let queue ← p.early.load .array
  let s ← noting "failed to walk early terminations queue" <| within .array <|
    settle maxSectors queue.entries { queue, taken := { partitions := 1 } }
  let p ← validated { p with early := .held s.queue }
  return (p, s.taken, !s.queue.isEmpty)

/-- Records the sectors that a proof skipped. Those that are faulty already or ended are ignored, and a
declared recovery is taken back. -/
def recordSkippedFaults (p : Partition) (faultExpiration : Int) (skipped : NumberSet) :
    Outcome (Partition × SkippedFaults) := do
  if skipped.isEmpty then
    return (p, {})
  if !p.sectors.containsAll skipped then
    refused .illegalArgument "skipped faults contains sectors outside partition"
  let retracted := p.recoveries ∩ skipped
  let retractedSectors ← noting "failed to load sectors" (table.loadAll retracted)
  let retractedPower ← Power.ofSectors size retractedSectors
  let newFaults := (skipped \ p.terminated) \ p.faults
  let newSectors ← noting "failed to load sectors" (table.loadAll newFaults)
  let (p, effect) ← refusing .illegalState "failed to add skipped faults"
    (addFaults grid size p newFaults newSectors faultExpiration)
  let p ← (p.removeRecoveries retracted retractedPower).validated
  return (p, {
    delta := effect.delta, newlyFaulty := effect.newlyFaulty
    retracted := retractedPower, anyNew := !newSectors.isEmpty })

end Partition

end SectorLedger
