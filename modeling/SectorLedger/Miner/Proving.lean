import SectorLedger.Assignment
import SectorLedger.Miner.Funds

/-!
# The miner's deadlines

What concerns all deadlines of a miner at once, and the closing of a deadline's window.

* `MinerState.assignSectors`: new sectors are spread over the deadlines that may still change.
* `MinerState.rescheduleExpirations`: sectors are made to expire at the next end of their window.
* `MinerState.popEarlyTerminations`: early terminations are settled, deadline by deadline.
* `MinerState.advanceDeadline`: the current window closes.
-/

namespace SectorLedger.MinerState

/-- What rescheduling has done so far. -/
structure Rescheduling where
  /-- The deadlines. -/
  deadlines : Deadlines
  /-- The sectors that moved. -/
  moved : List Sector := []

/-- Makes sectors of one deadline expire at the end of its next window. -/
def rescheduleDeadline (policy : Policy) (size : SectorSize) (table : SectorTable) (periodStart now : Int)
    (r : Rescheduling) (entry : Nat × PartitionSectors) : Outcome Rescheduling := do
  let (i, map) := entry
  let w ← (← Window.make policy.toTiming periodStart i now).nextNotElapsed
  let epoch ← w.last
  let d ← Deadlines.load policy r.deadlines i
  let (d, moved) ← d.rescheduleExpirations ⟨policy.period, epoch⟩ size table epoch map
  return { deadlines := ← Deadlines.put policy r.deadlines i d, moved := r.moved ++ moved }

/-- Makes sectors expire at the end of their deadline's next window. Those that are missing, faulty or ended
are ignored. Answers the sectors that moved. -/
def rescheduleExpirations (policy : Policy) (size : SectorSize) (m : MinerState) (now : Int) (map : DeadlineSectors) :
    Outcome (MinerState × List Sector) := do
  let deadlines ← m.loadDeadlines
  let table ← m.loadSectors
  let r ← foldOutcome (rescheduleDeadline policy size table m.periodStart now) { deadlines } map.entries
  return ({ m with deadlines := .held r.deadlines }, r.moved)

/-- The deadlines that may still change, each at its index. -/
def mutableDeadlines (policy : Policy) (periodStart now : Int) (ds : Deadlines) : Outcome (List (Option Deadline)) :=
  Deadlines.visit policy (fun found i d => do
    let isMutable ← deadlineIsMutable policy.toTiming periodStart i now
    return found ++ [if isMutable then some d else none]) [] ds

/-- Appends the sectors assigned to one deadline. -/
def fillDeadline (policy : Policy) (size : SectorSize) (m : MinerState) (partitionSize : Nat)
    (open_ : List (Option Deadline)) (state : Deadlines × Power) (assigned : List Sector × Nat) :
    Outcome (Deadlines × Power) := do
  let (deadlines, activated) := state
  let (sectors, i) := assigned
  if sectors.isEmpty then
    return state
  let grid ← m.deadlineGrid policy i
  match open_[i]?.join with
  | none => failed s!"sectors assigned to immutable deadline {i}"
  | some d =>
    let (d, power) ← d.addSectors grid size partitionSize false sectors
    return (← Deadlines.put policy deadlines i d, activated + power)

/-- Assigns new sectors to the deadlines that may still change. They wait for their first proof, so the power
that becomes active is zero. -/
def assignSectors (policy : Policy) (size : SectorSize) (m : MinerState) (now : Int) (sectors : List Sector)
    (partitionSize : Nat) : Outcome (MinerState × Power) := do
  let deadlines ← m.loadDeadlines
  let sorted := sectors.mergeSort fun a b => a.number ≤ b.number
  let open_ ← mutableDeadlines policy m.periodStart now deadlines
  let assigned ← noting "failed to assign sectors to deadlines" <|
    assignDeadlines policy ⟨partitionSize, policy.partitionsPerDeadline⟩ open_ sorted
  let (deadlines, power) ← foldOutcome (fillDeadline policy size m partitionSize open_) (deadlines, 0) assigned.zipIdx
  return ({ m with deadlines := .held deadlines }, power)

/-- What the settling of early terminations has done so far. -/
structure Settling where
  /-- The deadlines. -/
  deadlines : Deadlines
  /-- The deadlines that have nothing left. -/
  drained : NumberSet := ∅
  /-- What was taken. -/
  taken : Terminations := {}

/-- Settles early terminations of one deadline, and tells whether to go on: not once a limit is reached. -/
def settleDeadline (policy : Policy) (maxPartitions maxSectors : Nat) (s : Settling) (i : Nat) :
    Outcome (Settling × Bool) := do
  let d ← Deadlines.load policy s.deadlines i
  let partitionsLeft ← Count.sub maxPartitions s.taken.partitions
  let sectorsLeft ← Count.sub maxSectors s.taken.processed
  let (d, popped, more) ← noting s!"failed to pop early terminations for deadline {i}"
    (d.popEarlyTerminations partitionsLeft sectorsLeft)
  let taken ← s.taken.add popped
  let deadlines ← Deadlines.put policy s.deadlines i d
  let drained := if more then s.drained else s.drained ∪ NumberSet.singleton i
  return ({ deadlines, drained, taken }, taken.belowLimit maxPartitions maxSectors)

/-- Settles early terminations of all deadlines, up to the limits. Answers them, and whether some are
left. -/
def popEarlyTerminations (policy : Policy) (m : MinerState) (maxPartitions maxSectors : Nat) :
    Outcome (MinerState × Terminations × Bool) := do
  if m.earlyTerminations.isEmpty then
    return (m, {}, false)
  let deadlines ← m.loadDeadlines
  let s ← m.earlyTerminations.foldWhile (settleDeadline policy maxPartitions maxSectors) { deadlines }
  let early := m.earlyTerminations \ s.drained
  return ({ m with deadlines := .held s.deadlines, earlyTerminations := early }, s.taken, !early.isEmpty)

/-- Refuses a sector that is not in the partition, faulty, or ended. -/
def checkSectorHealth (policy : Policy) (m : MinerState) (i partitionIndex n : Nat) : Outcome Unit := do
  let d ← Deadlines.load policy (← m.loadDeadlines) i
  let p ← d.loadPartition partitionIndex
  if n ∉ p.sectors then
    refused .notFound s!"sector {n} not a member of partition {partitionIndex}, deadline {i}"
  if n ∈ p.faults then
    refused .forbidden s!"sector {n} of partition {partitionIndex}, deadline {i} is faulty"
  if n ∈ p.terminated then
    refused .notFound s!"sector {n} of partition {partitionIndex}, deadline {i} is terminated"

/-- What the closing of a window changes. -/
structure Advance where
  /-- The change of pledge and locked funds. -/
  pledgeDelta : Int := 0
  /-- The change of active power. -/
  powerDelta : Power := 0
  /-- The power that was faulty before. -/
  previouslyFaulty : Power := 0
  /-- The power of new faults and failed recoveries. -/
  detectedFaulty : Power := 0
  /-- The power that is faulty once they are counted, before sectors expire. -/
  totalFaulty : Power := 0
  deriving DecidableEq, Repr

/-- Moves on to the next deadline, and to the next proving period after the last one. -/
def nextDeadline (policy : Policy) (m : MinerState) (w : Window) : Outcome MinerState := do
  let next ← Count.rem (← Count.add w.index 1) policy.deadlines
  let start ← if next = 0 then Epoch.add w.periodStart policy.period else pure m.periodStart
  return { m with currentDeadline := next, periodStart := start }

/-- Closes the window of a deadline that has live sectors: missed proofs become faults, due sectors end,
and their pledge is released. -/
def closeDeadline (policy : Policy) (m : MinerState) (w : Window) (deadlines : Deadlines) (d : Deadline)
    (vested : Int) : Outcome (MinerState × Advance) := do
  let last ← w.last
  let grid : Grid := ⟨policy.period, last⟩
  let faultExpiration ← Epoch.add last policy.faultMaxAge
  let previouslyFaulty := d.faultyPower
  let (d, ended) ← noting s!"failed to process end of deadline {w.index}" (d.processEnd grid faultExpiration)
  let totalFaulty := d.faultyPower
  let (d, expired) ← noting "failed to load expired sectors" (d.popExpired last)
  let m ← m.addInitialPledge (-expired.pledge)
  let deadlines ← Deadlines.put policy deadlines w.index d
  return ({ m with
    deadlines := .held deadlines
    earlyTerminations :=
      if expired.early.isEmpty then m.earlyTerminations
      else m.earlyTerminations ∪ NumberSet.singleton w.index },
    { pledgeDelta := -vested - expired.pledge
      powerDelta := ended.delta - expired.active
      previouslyFaulty
      detectedFaulty := ended.penalized
      totalFaulty })

/-- Closes the current window: unlocks what has vested, moves on to the next deadline, and closes the
deadline if it has live sectors. Before the first proving period starts only vesting happens. -/
def advanceDeadline (policy : Policy) (m : MinerState) (now : Int) : Outcome (MinerState × Advance) := do
  let (m, vested) ← noting "failed to vest funds" (m.unlockVested now)
  let w ← m.deadlineInfo policy now
  if !w.periodStarted then
    return (m, { pledgeDelta := -vested })
  let m ← nextDeadline policy m w
  let deadlines ← m.loadDeadlines
  let d ← Deadlines.load policy deadlines w.index
  if d.live = 0 then
    return (m, { pledgeDelta := -vested, previouslyFaulty := d.faultyPower, totalFaulty := d.faultyPower })
  closeDeadline policy m w deadlines d vested

end SectorLedger.MinerState
