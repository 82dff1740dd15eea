import SectorLedger.Partition
import SectorLedger.SectorMap

/-!
# Deadlines

The partitions that are proven in one window. Besides them a deadline keeps totals over them, which of
them have been proven since its window last closed, which have terminations to settle, and a queue that
tells at which epochs a partition may have sectors that expire. A partition stays listed at an epoch until
that epoch is popped, also when nothing of it expires there any more.

* `Deadline.addSectors`: fills the last partition and opens new ones.
* `Deadline.recordProven`, `Deadline.processEnd`: a proof arrives, or the window closes.
* `Deadline.popExpired`, `terminateSectors`, `popEarlyTerminations`, `removePartitions`: sectors end, are
  settled, and leave.
-/

namespace SectorLedger

/-- The partitions that are proven in one window. -/
structure Deadline where
  /-- The partitions by position. -/
  partitions : Stored (SparseArray Partition) := .held ∅
  /-- The partitions that may have expiring sectors, by epoch. -/
  expirations : Stored NumberQueue := .held ∅
  /-- The partitions proven since the window last closed. -/
  posted : NumberSet := ∅
  /-- The partitions with early terminations to settle. -/
  early : NumberSet := ∅
  /-- How many sectors have not ended. -/
  live : Nat := 0
  /-- How many sectors there are, ended or not. -/
  total : Nat := 0
  /-- The faulty power of the partitions. -/
  faultyPower : Power := 0
  deriving DecidableEq, Repr

/-- A proof for one partition, and the sectors that it skips. -/
structure PartitionProof where
  /-- The partition's position. -/
  index : Nat
  /-- The sectors left out of the proof. -/
  skipped : NumberSet
  deriving DecidableEq, Repr

/-- What recording proofs did. -/
structure ProofResult where
  /-- The change of active power. -/
  delta : Power := 0
  /-- The power that became faulty. -/
  newlyFaulty : Power := 0
  /-- The power whose recovery was taken back. -/
  retracted : Power := 0
  /-- The power that recovered. -/
  recovered : Power := 0
  /-- All sectors of the proven partitions. -/
  sectors : NumberSet := ∅
  /-- Those of them that the proof leaves out: faulty or ended. -/
  ignored : NumberSet := ∅
  deriving DecidableEq, Repr

namespace ProofResult

/-- The power to pay a penalty for. -/
def penalty (r : ProofResult) : Power := r.newlyFaulty + r.retracted

end ProofResult

/-- What the closing of a window did to the power. -/
structure WindowEnd where
  /-- The change of active power. -/
  delta : Power := 0
  /-- The power to pay a penalty for. -/
  penalized : Power := 0
  deriving DecidableEq, Repr

/-- What left a deadline with its removed partitions. -/
structure RemovedPartitions where
  /-- Their live sectors. -/
  live : NumberSet := ∅
  /-- Their ended sectors. -/
  dead : NumberSet := ∅
  /-- Their live power. -/
  power : Power := 0
  deriving DecidableEq, Repr

/-- The partition at a position, if there is one. -/
def findPartition (ps : SparseArray Partition) (i : Nat) : Outcome (Option Partition) :=
  noting s!"failed to load partition {i}" (ps.read i)

/-- The partition at a position, which must exist. -/
def getPartition (ps : SparseArray Partition) (i : Nat) (code : ExitCode) (words : String) : Outcome Partition := do
  match ← findPartition ps i with
  | some p => return p
  | none => refused code s!"{words} {i}"

/-- Stores a partition at a position. -/
def putPartition (ps : SparseArray Partition) (i : Nat) (p : Partition) : Outcome (SparseArray Partition) :=
  noting s!"failed to store partition {i}" (ps.write i p)

namespace Deadline

instance : Inhabited Deadline := ⟨{}⟩

/-- Whether there are no sectors, no proofs and nothing to settle. -/
def isBlank (d : Deadline) : Bool :=
  d.live == 0 && d.total == 0 && d.faultyPower.isZero && d.posted.isEmpty && d.early.isEmpty

/-- The partitions. -/
def loadPartitions (d : Deadline) : Outcome (SparseArray Partition) :=
  refusing .illegalState "failed to load partitions" (d.partitions.load .array)

/-- The partition at a position. -/
def loadPartition (d : Deadline) (i : Nat) : Outcome Partition := do
  getPartition (← d.loadPartitions) i .notFound "no partition"

/-- The queue of expiring partitions. -/
def loadExpirations (d : Deadline) : Outcome NumberQueue :=
  noting "failed to load deadline expiration queue" (d.expirations.load .array)

/-- Refuses a deadline whose totals contradict each other. -/
def validate (d : Deadline) : Outcome Unit := do
  if d.live > d.total then
    failed "deadline left with more live sectors than total: <dump>"
  if d.faultyPower.raw < 0 ∨ d.faultyPower.qa < 0 then
    failed "deadline left with negative faulty power: <dump>"

variable (grid : Grid) (size : SectorSize) (table : SectorTable)

/-- Lists partitions as expiring at an epoch. -/
def addExpirationPartitions (d : Deadline) (epoch : Int) (indices : List Nat) : Outcome Deadline := do
  if indices.isEmpty then
    return d
  let queue ← d.loadExpirations
  let queue ← noting "failed to mutate expiration queue" (NumberQueue.addValues grid queue epoch indices)
  return { d with expirations := .held queue }

/-- Takes out the partitions listed up to an epoch. The flag tells whether there was such an entry. -/
def popExpiredPartitions (d : Deadline) (upTo : Int) : Outcome (Deadline × NumberSet × Bool) := do
  let queue ← d.loadExpirations
  let (queue, popped, modified) := NumberQueue.popUntil queue upTo
  return (if modified then { d with expirations := .held queue } else d, popped, modified)

/-- What the ending of due sectors has done so far. -/
structure Expiring where
  /-- The partitions. -/
  partitions : SparseArray Partition
  /-- The partitions with early terminations to settle. -/
  early : NumberSet
  /-- What expired. -/
  expired : ExpirationSet := ∅

/-- Ends the due sectors of one partition. -/
def expirePartition (upTo : Int) (e : Expiring) (i : Nat) : Outcome Expiring := do
  let p ← getPartition e.partitions i .illegalState "missing expected partition"
  let (p, popped) ← noting s!"failed to pop expired sectors from partition {i}" (p.popExpired upTo)
  let early := if popped.early.isEmpty then e.early else e.early ∪ NumberSet.singleton i
  let expired ← e.expired.add popped
  return { partitions := ← putPartition e.partitions i p, early, expired }

/-- Ends every sector that is due, in the partitions listed up to the epoch. Answers what expired. -/
def popExpired (d : Deadline) (upTo : Int) : Outcome (Deadline × ExpirationSet) := do
  let (d, listed, modified) ← d.popExpiredPartitions upTo
  if !modified then
    return (d, ∅)
  let partitions ← d.loadPartitions
  let e ← listed.foldMembers (expirePartition upTo) { partitions, early := d.early }
  let live ← Count.sub d.live (← e.expired.count)
  return ({ d with
    partitions := .held e.partitions, early := e.early, live
    faultyPower := d.faultyPower - e.expired.faulty }, e.expired)

/-- How far the filling of partitions has come. -/
structure Filling where
  /-- The partitions. -/
  partitions : SparseArray Partition
  /-- The sectors without a place. -/
  remaining : List Sector
  /-- The power that became active. -/
  activated : Power := 0
  /-- The partitions of the placed sectors, with the sectors' own expirations. -/
  listed : List (Int × Nat) := []

/-- Places as many sectors as fit into the partition at a position, which is opened if need be. -/
def fillPartition (partitionSize : Nat) (proven : Bool) (f : Filling) (i : Nat) : Outcome Filling := do
  if f.remaining.isEmpty then
    return f
  let p := (← findPartition f.partitions i).getD {}
  let free := partitionSize - p.sectors.count
  if free = 0 then
    return f
  let batch := f.remaining.take free
  let (p, power) ← p.addSectors grid size proven batch
  return {
    partitions := ← putPartition f.partitions i p
    remaining := f.remaining.drop free
    activated := f.activated + power
    listed := f.listed ++ batch.map fun s => (s.expiration, i) }

/-- The positions that may be filled, the last partition's first: each takes a sector or holds a full
partition. -/
def positionsToFill (partitions : SparseArray Partition) (sectors : List Sector) : List Nat :=
  List.range' (partitions.count - 1) (sectors.length + partitions.count)

/-- Appends sectors. Answers the power that becomes active. -/
def addSectors (d : Deadline) (partitionSize : Nat) (proven : Bool) (sectors : List Sector) :
    Outcome (Deadline × Power) := do
  if sectors.isEmpty then
    return (d, 0)
  if partitionSize = 0 then
    refused .illegalArgument "partition size must be positive"
  let partitions ← d.loadPartitions
  let f ← foldOutcome (fillPartition grid size partitionSize proven) { partitions, remaining := sectors }
    (positionsToFill partitions sectors)
  let live ← Count.add d.live sectors.length
  let total ← Count.add d.total sectors.length
  let queue ← d.loadExpirations
  let queue ← noting "failed to add expirations for new sectors" (NumberQueue.addMany grid queue f.listed)
  return ({ d with partitions := .held f.partitions, expirations := .held queue, live, total }, f.activated)

/-- What has been taken from the partitions' early terminations. -/
structure Settling where
  /-- The partitions. -/
  partitions : SparseArray Partition
  /-- The partitions that have nothing left. -/
  drained : NumberSet := ∅
  /-- What was taken. -/
  taken : Terminations := {}

/-- Takes early terminations from one partition, and tells whether to go on: not once a limit is reached. A
partition that does not exist has nothing left. -/
def settlePartition (maxPartitions maxSectors : Nat) (s : Settling) (i : Nat) : Outcome (Settling × Bool) := do
  match ← findPartition s.partitions i with
  | none => return ({ s with drained := s.drained ∪ NumberSet.singleton i }, true)
  | some p =>
    let left ← Count.sub maxSectors s.taken.processed
    let (p, popped, more) ← noting s!"failed to pop terminations from partition {i}" (p.popEarlyTerminations left)
    let taken ← s.taken.add popped
    let drained := if more then s.drained else s.drained ∪ NumberSet.singleton i
    let partitions ← putPartition s.partitions i p
    return ({ partitions, drained, taken }, taken.belowLimit maxPartitions maxSectors)

/-- Takes early terminations from the partitions that have some, up to the limits. Answers them, and whether
some are left. -/
def popEarlyTerminations (d : Deadline) (maxPartitions maxSectors : Nat) :
    Outcome (Deadline × Terminations × Bool) := do
  let partitions ← d.loadPartitions
  let s ← d.early.foldWhile (settlePartition maxPartitions maxSectors) { partitions }
  let early := d.early \ s.drained
  return ({ d with partitions := .held s.partitions, early }, s.taken, !early.isEmpty)

/-- What the terminations have done so far. -/
structure Terminating where
  /-- The partitions. -/
  partitions : SparseArray Partition
  /-- The partitions with early terminations to settle. -/
  early : NumberSet
  /-- How many sectors have not ended. -/
  live : Nat
  /-- The faulty power of the partitions. -/
  faultyPower : Power
  /-- The active power that was lost. -/
  lost : Power := 0

/-- Ends sectors of one partition early. -/
def terminateIn (maxSectors : Nat) (epoch : Int) (t : Terminating) (entry : Nat × NumberSet) :
    Outcome Terminating := do
  let (i, numbers) := entry
  let p ← getPartition t.partitions i .notFound "failed to find partition"
  let (p, removed) ← noting s!"failed to terminate sectors in partition {i}"
    (p.terminateSectors grid size table maxSectors epoch numbers)
  let partitions ← putPartition t.partitions i p
  return {
    partitions
    early := if removed.isEmpty then t.early else t.early ∪ NumberSet.singleton i
    live := ← if removed.isEmpty then pure t.live else do Count.sub t.live (← removed.count)
    faultyPower := t.faultyPower - removed.faulty
    lost := t.lost + removed.active }

/-- Ends sectors early. Answers the active power that was lost. -/
def terminateSectors (maxSectors : Nat) (d : Deadline) (epoch : Int) (map : PartitionSectors) :
    Outcome (Deadline × Power) := do
  let partitions ← d.loadPartitions
  let t ← foldOutcome (terminateIn grid size table maxSectors epoch)
    { partitions, early := d.early, live := d.live, faultyPower := d.faultyPower } map.entries
  return ({ d with
    partitions := .held t.partitions, early := t.early, live := t.live, faultyPower := t.faultyPower }, t.lost)

/-- What the removal of partitions has done so far. -/
structure Compacting where
  /-- The partitions that stay, at their new positions. -/
  kept : SparseArray Partition := ∅
  /-- What leaves. -/
  removed : RemovedPartitions := {}

/-- Keeps or removes one partition. -/
def compactPartition (old : SparseArray Partition) (toRemove : NumberSet) (c : Compacting) (i : Nat) :
    Outcome Compacting := do
  let p ← getPartition old i .illegalState "missing partition"
  if i ∉ toRemove then
    return { c with kept := ← putPartition c.kept c.kept.count p }
  if !p.faults.isEmpty then
    refused .illegalArgument s!"cannot remove partition {i}: has faults"
  if !p.unproven.isEmpty then
    refused .illegalArgument s!"cannot remove partition {i}: has unproven sectors"
  return { c with removed := {
    live := c.removed.live ∪ p.liveSectors
    dead := c.removed.dead ∪ p.terminated
    power := c.removed.power + p.livePower } }

/-- Removes partitions and moves the others down to close the gaps. Partitions with faulty or unproven
sectors stay, and so does everything while there are early terminations to settle. -/
def removePartitions (d : Deadline) (toRemove : NumberSet) : Outcome (Deadline × RemovedPartitions) := do
  if toRemove.isEmpty then
    return (d, {})
  let old ← d.loadPartitions
  match (toRemove \ NumberSet.run 0 old.count).first? with
  | some i => refused .illegalArgument s!"partition index {i} out of range [0, {old.count})"
  | none => pure ()
  if !d.early.isEmpty then
    failed "cannot remove partitions from deadline with early terminations"
  let c ← foldOutcome (compactPartition old toRemove) {} (List.range old.count)
  let live ← Count.sub d.live c.removed.live.count
  let total ← Count.sub d.total (← Count.add c.removed.live.count c.removed.dead.count)
  let queue ← d.loadExpirations
  return ({ d with
    partitions := .held c.kept, live, total
    expirations := .held (NumberQueue.cut queue toRemove) }, c.removed)

/-- What declared or detected faults have done so far. -/
structure Faulting where
  /-- The partitions. -/
  partitions : SparseArray Partition
  /-- The faulty power of the partitions. -/
  faultyPower : Power
  /-- The change of active power. -/
  delta : Power := 0
  /-- The power to pay a penalty for. -/
  penalized : Power := 0
  /-- The partitions with new faults. -/
  faulted : List Nat := []

/-- Declares sectors of one partition faulty. -/
def declareFaultsIn (faultExpiration : Int) (f : Faulting) (entry : Nat × NumberSet) : Outcome Faulting := do
  let (i, numbers) := entry
  let p ← getPartition f.partitions i .notFound "no such partition"
  let (p, newFaults, effect) ← noting s!"failed to declare faults in partition {i}"
    (p.declareFaults grid size table numbers faultExpiration)
  return { f with
    partitions := ← putPartition f.partitions i p
    faulted := if newFaults.isEmpty then f.faulted else f.faulted ++ [i]
    faultyPower := f.faultyPower + effect.newlyFaulty
    delta := f.delta + effect.delta }

/-- Declares sectors faulty. Answers the change of active power. -/
def declareFaults (d : Deadline) (faultExpiration : Int) (map : PartitionSectors) : Outcome (Deadline × Power) := do
  let partitions ← d.loadPartitions
  let f ← foldOutcome (declareFaultsIn grid size table faultExpiration)
    { partitions, faultyPower := d.faultyPower } map.entries
  let d := { d with partitions := .held f.partitions, faultyPower := f.faultyPower }
  let d ← noting "failed to update expirations for partitions with faults"
    (d.addExpirationPartitions grid faultExpiration f.faulted)
  return (d, f.delta)

/-- Declares that faulty sectors will recover. -/
def declareRecovered (d : Deadline) (map : PartitionSectors) : Outcome Deadline := do
  let partitions ← d.loadPartitions
  let partitions ← foldOutcome (fun ps (entry : Nat × NumberSet) => do
    let (i, numbers) := entry
    let p ← getPartition ps i .notFound "no such partition"
    let p ← noting s!"failed to add recoveries to partition {i}" (p.declareRecovered size table numbers)
    putPartition ps i p) partitions map.entries
  return { d with partitions := .held partitions }

/-- Makes the sectors of one partition faulty unless it was proven, or is wholly faulty with nothing to
recover. -/
def missProof (posted : NumberSet) (faultExpiration : Int) (f : Faulting) (i : Nat) : Outcome Faulting := do
  if i ∈ posted then
    return f
  let p ← getPartition f.partitions i .illegalState "no partition"
  if p.recoveringPower.isZero ∧ p.faultyPower = p.livePower then
    return f
  let (p, missed) ← noting s!"failed to record missed PoSt for partition {i}"
    (p.recordMissedProof grid faultExpiration)
  return {
    partitions := ← putPartition f.partitions i p
    faulted := if missed.newlyFaulty.isZero then f.faulted else f.faulted ++ [i]
    faultyPower := f.faultyPower + missed.newlyFaulty
    delta := f.delta + missed.delta
    penalized := f.penalized + missed.penalized }

/-- Closes the window: partitions without a proof become faulty, and the record of proofs is cleared. -/
def processEnd (d : Deadline) (faultExpiration : Int) : Outcome (Deadline × WindowEnd) := do
  let partitions ← d.loadPartitions
  let f ← foldOutcome (missProof grid d.posted faultExpiration)
    { partitions, faultyPower := d.faultyPower } (List.range partitions.count)
  let d := { d with partitions := .held f.partitions, faultyPower := f.faultyPower }
  let d ← noting "failed to update deadline expiration queue"
    (d.addExpirationPartitions grid faultExpiration f.faulted)
  return ({ d with posted := ∅ }, { delta := f.delta, penalized := f.penalized })

/-- What recording proofs has done so far. -/
structure Proving where
  /-- The partitions. -/
  partitions : SparseArray Partition
  /-- The partitions that are proven. -/
  posted : NumberSet
  /-- The result. -/
  result : ProofResult := {}
  /-- The partitions with new faults. -/
  faulted : List Nat := []

/-- Records the proof of one partition, unless it is proven already. Skipped sectors become faulty first, so
that the recovery sees the final faults. -/
def provePartition (faultExpiration : Int) (v : Proving) (proof : PartitionProof) : Outcome Proving := do
  let i := proof.index
  if i ∈ v.posted then
    return v
  let p ← getPartition v.partitions i .notFound "no such partition"
  let (p, skipped) ← noting s!"failed to add skipped faults to partition {i}"
    (p.recordSkippedFaults grid size table faultExpiration proof.skipped)
  let (p, recovered) ← noting s!"failed to recover faulty sectors for partition {i}"
    (p.recoverFaults grid size table)
  let (p, activated) := p.activateUnproven
  let r := v.result
  return {
    partitions := ← putPartition v.partitions i p
    posted := v.posted ∪ NumberSet.singleton i
    faulted := if skipped.anyNew then v.faulted ++ [i] else v.faulted
    result := {
      delta := r.delta + skipped.delta + activated + recovered
      newlyFaulty := r.newlyFaulty + skipped.newlyFaulty
      retracted := r.retracted + skipped.retracted
      recovered := r.recovered + recovered
      sectors := r.sectors ∪ p.sectors
      ignored := (r.ignored ∪ p.faults) ∪ p.terminated } }

/-- Records proofs for partitions. Those that are proven already are left alone. -/
def recordProven (d : Deadline) (faultExpiration : Int) (proofs : List PartitionProof) :
    Outcome (Deadline × ProofResult) := do
  let partitions ← d.loadPartitions
  let v ← foldOutcome (provePartition grid size table faultExpiration) { partitions, posted := d.posted } proofs
  let d ← noting "failed to update expirations for partitions with faults"
    (d.addExpirationPartitions grid faultExpiration v.faulted)
  return ({ d with
    partitions := .held v.partitions
    posted := v.posted
    faultyPower := d.faultyPower - v.result.recovered + v.result.newlyFaulty }, v.result)

/-- What rescheduling has done so far. -/
structure Rescheduling where
  /-- The partitions. -/
  partitions : SparseArray Partition
  /-- The partitions with sectors that moved. -/
  affected : List Nat := []
  /-- The sectors that moved. -/
  moved : List Sector := []

/-- Moves the expiration of sectors of one partition. A partition that does not exist is ignored. -/
def rescheduleIn (epoch : Int) (r : Rescheduling) (entry : Nat × NumberSet) : Outcome Rescheduling := do
  let (i, numbers) := entry
  match ← findPartition r.partitions i with
  | none => return r
  | some p =>
    let (p, moved) ← noting s!"failed to reschedule expirations in partition {i}"
      (p.rescheduleExpirations grid size table epoch numbers)
    if moved.isEmpty then
      return r
    return {
      partitions := ← putPartition r.partitions i p
      affected := r.affected ++ [i]
      moved := r.moved ++ moved }

/-- Moves the expiration of sectors. Answers the sectors that moved. -/
def rescheduleExpirations (d : Deadline) (epoch : Int) (map : PartitionSectors) : Outcome (Deadline × List Sector) := do
  let partitions ← d.loadPartitions
  let r ← foldOutcome (rescheduleIn grid size table epoch) { partitions } map.entries
  if r.affected.isEmpty then
    return (d, r.moved)
  let d := { d with partitions := .held r.partitions }
  let d ← noting "failed to reschedule partition expirations" (d.addExpirationPartitions grid epoch r.affected)
  return (d, r.moved)

end Deadline

end SectorLedger
