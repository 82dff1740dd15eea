import SectorLedger.Miner.State

/-!
# Promised and proven sectors

A sector number is used once: it is allocated when the sector is promised, and stays allocated. A promise
holds money back until the sector is proven or the promise expires.

* `MinerState.allocate`, `maskNumbers`: uses numbers up.
* `MinerState.putPrecommit`, `deletePrecommits`, `expirePrecommits`: promises come, are kept, or expire.
* `MinerState.putSectors`, `deleteSectors`, `findSector`: the proven sectors.
-/

namespace SectorLedger.MinerState

/-- The numbers that have been used. -/
def loadAllocated (m : MinerState) : Outcome NumberSet :=
  refusing .illegalState "failed to load allocated sectors bitfield" (m.allocated.fetch "allocated sectors bitfield")

/-- Uses a sector number, which must be new. -/
def allocate (m : MinerState) (n : Nat) : Outcome MinerState := do
  if n > greatestSectorNumber then
    refused .illegalArgument s!"sector number out of range: {n}"
  let allocated ← m.loadAllocated
  if n ∈ allocated then
    refused .illegalArgument s!"sector number {n} has already been allocated"
  return { m with allocated := .held (allocated ∪ NumberSet.singleton n) }

/-- Uses all numbers of a set, whether or not they are new. -/
def maskNumbers (m : MinerState) (numbers : NumberSet) : Outcome MinerState := do
  let some last := numbers.last?
    | refused .illegalArgument "invalid mask bitfield"
  if last > greatestSectorNumber then
    refused .illegalArgument s!"masked sector number {last} exceeded max sector number"
  let allocated ← m.loadAllocated
  return { m with allocated := .held (allocated ∪ numbers) }

/-- The promised sectors. -/
def loadPrecommits (m : MinerState) : Outcome (SparseArray Precommit) :=
  noting "failed to load precommitted sectors" (m.precommits.load .map)

/-- Records a promise for a number that has none. -/
def putPrecommit (m : MinerState) (p : Precommit) : Outcome MinerState := do
  let precommits ← m.loadPrecommits
  if (precommits.get? p.number).isSome then
    refused .illegalArgument s!"sector {p.number} already pre-committed"
  return { m with precommits := .held (precommits.insert p.number p) }

/-- The promise for a number. -/
def findPrecommit (m : MinerState) (n : Nat) : Outcome (Option Precommit) :=
  return (← m.loadPrecommits).get? n

/-- The promises for the numbers that have one, in the given order. -/
def findPrecommits (m : MinerState) (ns : List Nat) : Outcome (List Precommit) :=
  return ns.filterMap (← m.loadPrecommits).get?

/-- Removes the promises for the numbers, which must have one. -/
def deletePrecommits (m : MinerState) (ns : List Nat) : Outcome MinerState := do
  let precommits ← foldOutcome (fun ps n =>
    if (ps.get? n).isSome then .ok (ps.erase n)
    else refused .notFound s!"no precommitment for sector {n} to delete") (← m.loadPrecommits) ns
  return { m with precommits := .held precommits }

/-- Lists a promise as expiring at the first window end at or after an epoch. -/
def addPrecommitExpiry (policy : Policy) (m : MinerState) (epoch : Int) (n : Nat) : Outcome MinerState := do
  let queue ← noting "failed to load pre-commit expiry queue" (m.precommitExpiry.load .array)
  let queue ← noting "failed to add pre-commit sector expiry to queue" <|
    NumberQueue.addValues (m.everyDeadlineGrid policy) queue epoch [n]
  return { m with precommitExpiry := .held queue }

/-- The money to burn for a listed promise, added to that of others; a number without a promise was proven
or removed. -/
def expirePrecommit (m : MinerState) (acc : Int × List Nat) (n : Nat) : Outcome (Int × List Nat) := do
  match ← m.findPrecommit n with
  | some p => return (acc.1 + p.deposit, acc.2 ++ [n])
  | none => return acc

/-- Removes the promises that have expired. Answers the money to burn. -/
def expirePrecommits (m : MinerState) (now : Int) : Outcome (MinerState × Int) := do
  let queue ← noting "failed to load sector expiry queue" (m.precommitExpiry.load .array)
  let (queue, numbers, modified) := NumberQueue.popUntil queue now
  let m := if modified then { m with precommitExpiry := .held queue } else m
  let (burn, expired) ← numbers.foldMembers (expirePrecommit m) (0, [])
  let m ← if expired.isEmpty then pure m else m.deletePrecommits expired
  let deposits := m.precommitDeposits - burn
  if deposits < 0 then
    failed s!"pre-commit expiry caused negative deposits: {Amount.shown deposits}"
  return ({ m with precommitDeposits := deposits }, burn)

/-- Whether a sector is proven. -/
def hasSector (m : MinerState) (n : Nat) : Outcome Bool := do
  return (← SectorTable.find (← m.loadSectors) n).isSome

/-- Records proven sectors. -/
def putSectors (m : MinerState) (sectors : List Sector) : Outcome MinerState := do
  return { m with sectors := .held (← SectorTable.store (← m.loadSectors) sectors) }

/-- The record of a proven sector. -/
def getSector (m : MinerState) (n : Nat) : Outcome (Option Sector) := do
  SectorTable.find (← m.loadSectors) n

/-- Removes one proven sector. -/
def deleteSector (t : SectorTable) (n : Nat) : Outcome SectorTable := do
  let (t, existed) ← noting s!"failed to delete sector {n}" (SparseArray.remove t n)
  if existed then return t else refused .illegalState s!"sector {n} doesn't exist, failed to delete"

/-- Removes proven sectors, all of which must exist. -/
def deleteSectors (m : MinerState) (numbers : NumberSet) : Outcome MinerState := do
  return { m with sectors := .held (← numbers.foldMembers deleteSector (← m.loadSectors)) }

/-- Visits the proven sectors by ascending number. -/
def visitSectors {σ : Type} (f : σ → Sector → Outcome σ) (s : σ) (m : MinerState) : Outcome σ := do
  let t ← m.loadSectors
  noting "failed to iterate sectors" (within .array (foldOutcome f s t.values))

/-- The records of proven sectors. -/
def loadSectorInfos (m : MinerState) (numbers : NumberSet) : Outcome (List Sector) := do
  SectorTable.loadAll (← m.loadSectors) numbers

/-- The deadline and the partition of a sector. -/
def findSector (policy : Policy) (m : MinerState) (n : Nat) : Outcome (Nat × Nat) := do
  Deadlines.findSector policy (← m.loadDeadlines) n

end SectorLedger.MinerState
