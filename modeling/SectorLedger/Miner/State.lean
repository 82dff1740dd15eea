import SectorLedger.Deadline
import SectorLedger.Miner.Info
import SectorLedger.Vesting
import SectorLedger.Window

/-!
# The miner's record

Everything the ledger knows about a miner: its money, its promised and proven sectors, and its deadlines,
with the position in the proving period. The miner's balance should cover its deposits, locked funds and
pledge.

* `MinerState.fresh`: the record of a new miner.
* `Deadlines.load`, `Deadlines.put`: one deadline of all.
-/

namespace SectorLedger

/-- A miner's deadlines by index. -/
abbrev Deadlines : Type := List (Stored Deadline)

namespace Deadlines

/-- One empty deadline for each window of a proving period. -/
def fresh (policy : Policy) : Deadlines := List.replicate policy.deadlines (.held {})

/-- The deadline at an index. -/
def load (policy : Policy) (ds : Deadlines) (i : Nat) : Outcome Deadline :=
  if i ≥ policy.deadlines then refused .illegalArgument s!"invalid deadline {i}"
  else
    match ds[i]? with
    | none => .error .fault
    | some d => refusing .illegalState s!"failed to lookup deadline {i}" (d.fetch "deadline")

/-- Stores a valid deadline at an index. -/
def put (policy : Policy) (ds : Deadlines) (i : Nat) (d : Deadline) : Outcome Deadlines :=
  if i ≥ policy.deadlines then failed s!"invalid deadline {i}"
  else do
    d.validate
    if i < ds.length then return ds.set i (.held d) else .error .fault

/-- Visits the deadlines in order. -/
def visit {σ : Type} (policy : Policy) (f : σ → Nat → Deadline → Outcome σ) (s : σ) (ds : Deadlines) : Outcome σ :=
  foldOutcome (fun s i => do f s i (← load policy ds i)) s (List.range ds.length)

/-- The first partition at whose position the sector is found. -/
def partitionOf (ps : SparseArray Partition) (n : Nat) : Option Nat :=
  (ps.entries.find? fun e => decide (n ∈ e.2.sectors)).map (·.1)

/-- Looks for a sector in the deadlines of the given indices. -/
def findIn (policy : Policy) (ds : Deadlines) (n : Nat) : List Nat → Outcome (Nat × Nat)
  | [] => refused .notFound s!"sector {n} not due at any deadline"
  | i :: rest => do
    let d ← load policy ds i
    let ps ← d.partitions.load .array
    match partitionOf ps n with
    | some p => return (i, p)
    | none => findIn policy ds n rest

/-- The deadline and the partition of a sector. -/
def findSector (policy : Policy) (ds : Deadlines) (n : Nat) : Outcome (Nat × Nat) :=
  findIn policy ds n (List.range ds.length)

end Deadlines

/-- Everything the ledger knows about a miner. -/
structure MinerState where
  /-- What rarely changes. -/
  info : Stored MinerInfo
  /-- The money held back for promised sectors. -/
  precommitDeposits : Int := 0
  /-- The sum of the vesting table. -/
  lockedFunds : Int := 0
  /-- What becomes free when. -/
  vesting : Stored VestingTable := .held []
  /-- Fees that the miner owes. -/
  feeDebt : Int := 0
  /-- The pledge of the active sectors. -/
  initialPledge : Int := 0
  /-- The promised sectors by number. -/
  precommits : Stored (SparseArray Precommit) := .held ∅
  /-- The promised sectors by the epoch at which the promise expires. -/
  precommitExpiry : Stored NumberQueue := .held ∅
  /-- The sector numbers that have been used. -/
  allocated : Stored NumberSet := .held ∅
  /-- The proven sectors by number. -/
  sectors : Stored SectorTable := .held ∅
  /-- The first epoch of the current proving period. -/
  periodStart : Int
  /-- The deadline to close next. -/
  currentDeadline : Nat
  /-- The deadlines. -/
  deadlines : Stored Deadlines
  /-- The deadlines with early terminations to settle. -/
  earlyTerminations : NumberSet := ∅
  deriving DecidableEq, Repr

namespace MinerState

/-- The record of a new miner. -/
def fresh (policy : Policy) (info : Stored MinerInfo) (periodStart : Int) (deadline : Nat) : MinerState :=
  { info, periodStart, currentDeadline := deadline, deadlines := .held (Deadlines.fresh policy) }

/-- What rarely changes about the miner. -/
def loadInfo (m : MinerState) : Outcome MinerInfo := m.info.fetch "miner info"

/-- The window of the deadline to close next. -/
def deadlineInfo (policy : Policy) (m : MinerState) (now : Int) : Outcome Window :=
  Window.make policy.toTiming m.periodStart m.currentDeadline now

/-- The grid of the last epochs of a deadline's windows. -/
def deadlineGrid (policy : Policy) (m : MinerState) (i : Nat) : Outcome Grid := do
  (← Window.make policy.toTiming m.periodStart i 0).grid

/-- The grid of the ends of all windows. -/
def everyDeadlineGrid (policy : Policy) (m : MinerState) : Grid := ⟨policy.window, m.periodStart⟩

/-- The deadlines. -/
def loadDeadlines (m : MinerState) : Outcome Deadlines :=
  refusing .illegalState "failed to load deadlines" (m.deadlines.fetch "deadlines")

/-- Loses what the store has of one deadline. -/
def loseDeadline (m : MinerState) (i : Nat) : Outcome MinerState := do
  let ds ← m.loadDeadlines
  if i < ds.length then return { m with deadlines := .held (ds.set i .missing) } else .error .fault

/-- The table of proven sectors. -/
def loadSectors (m : MinerState) : Outcome SectorTable :=
  noting "failed to load sectors" (m.sectors.load .array)

end MinerState

end SectorLedger
