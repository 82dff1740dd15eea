import SectorLedger.Audit.Deadline
import SectorLedger.Miner.Funds
import SectorLedger.Miner.Sectors

/-!
# Audits of miners

The whole record of a miner: its information, its money, its promised and proven sectors, and its deadlines.

* `Audit.minerInfo`: addresses are ID addresses, and sizes fit the seal proof.
* `Audit.balances`: totals are not negative and covered, and the vesting table adds up and is on the grid.
* `Audit.precommits`: promised sectors are allocated and will expire, and their deposits add up.
* `Audit.minerState`: all of these, and every deadline.
-/

namespace SectorLedger

/-- The life of the sector that stores a deal. -/
structure DealSummary where
  /-- When the sector was activated. -/
  start : Int
  /-- When it expires. -/
  expiration : Int
  deriving DecidableEq, Repr

/-- What a miner holds, in all. -/
structure MinerSummary where
  /-- The power of the live sectors. -/
  livePower : Power := 0
  /-- The power that counts. -/
  activePower : Power := 0
  /-- The faulty power. -/
  faultyPower : Power := 0
  /-- The deals stored. -/
  deals : SparseArray DealSummary := ∅
  /-- How sectors are sealed. -/
  proof : SealProof := ⟨0⟩
  deriving DecidableEq, Repr

namespace Audit

/-- Expects an address to be an ID address. -/
def expectId (what : String) (a : Address) : Audit Unit :=
  expect a.isId s!"{what} address {a.text} is not an ID address"

/-- Checks a worker that is to take over. -/
def pendingWorker (info : MinerInfo) (change : WorkerChange) : Audit Unit := do
  expectId "pending worker" change.newWorker
  expect (change.newWorker != info.worker)
    s!"pending worker key {change.newWorker.text} is same as existing worker {info.worker.text}"

/-- Checks an owner that is proposed. -/
def pendingOwner (info : MinerInfo) (owner : Address) : Audit Unit := do
  expectId "pending owner" owner
  expect (owner != info.owner)
    s!"pending owner address {owner.text} is same as existing owner {info.owner.text}"

/-- Expects the sizes to fit the seal proof. -/
def proofSizes (info : MinerInfo) : Audit Unit := do
  match info.proof.sectorSize? with
  | some size =>
    expect (size == info.sectorSize)
      s!"sector size {info.sectorSize.shown} is wrong for seal proof type {info.proof.shown}: {size.shown}"
  | none => note s!"miner has unrecognized seal proof type {info.proof.shown}: {info.proof.unsupported}"
  match info.proof.partitionSectors? with
  | some sectors =>
    expect (sectors == info.partitionSectors)
      (s!"miner partition sectors {info.partitionSectors} does not match partition sectors {sectors} " ++
        s!"for seal proof type {info.proof.shown}")
  | none => note s!"no seal proof policy exists for proof type {info.proof.shown}: {info.proof.unsupported}"

/-- Checks what rarely changes about a miner. -/
def minerInfo (info : MinerInfo) : Audit Unit := do
  expectId "owner" info.owner
  expectId "worker" info.worker
  info.control.forM (expectId "control")
  info.pendingWorker.forM (pendingWorker info)
  info.pendingOwner.forM (pendingOwner info)
  proofSizes info

/-- Checks an entry of the vesting table. -/
def vestingEntry (grid : Grid) (e : Instalment) : Audit Unit := do
  expect (0 < e.amount) s!"non-positive amount in miner vesting table entry {e.shown}"
  let target ← grid.up e.epoch
  expect (e.epoch == target) s!"vesting table entry has non-quantized epoch {e.epoch} (should be {target})"

/-- Checks that the totals are not negative, and covered by the balance. -/
def totals (m : MinerState) (balance : Int) : Audit Unit := do
  let notNegative (what : String) (amount : Int) : Audit Unit :=
    expect (0 ≤ amount) s!"miner {what} is less than zero: {Amount.shown amount}"
  notNegative "actor balance" balance
  notNegative "locked funds" m.lockedFunds
  notNegative "precommit deposit" m.precommitDeposits
  notNegative "initial pledge" m.initialPledge
  notNegative "fee debt" m.feeDebt
  expect (0 ≤ balance - m.lockedFunds - m.precommitDeposits - m.initialPledge)
    (s!"miner balance {Amount.shown balance} is less than sum of locked funds ({Amount.shown m.lockedFunds}), " ++
      s!"precommit deposit ({Amount.shown m.precommitDeposits}) " ++
      s!"and initial pledge ({Amount.shown m.initialPledge})")

/-- Checks the vesting table, and that it adds up to the locked funds. -/
def vestingTable (policy : Policy) (m : MinerState) : Audit Unit := do
  let sum ← attempt "error loading vesting funds" 0 m.loadVesting fun t => do
    t.forM (vestingEntry (m.everyDeadlineGrid policy))
    return VestingTable.total t
  expect (m.lockedFunds == sum)
    s!"locked funds {Amount.shown m.lockedFunds} is not sum of vesting table entries {Amount.shown sum}"

/-- Checks the miner's money. -/
def balances (policy : Policy) (m : MinerState) (balance : Int) : Audit Unit := do
  totals m balance
  vestingTable policy m

/-- Expects the epochs of a queue to lie on the grid. Answers all sectors listed. -/
def precommitExpiry (grid : Grid) (q : NumberQueue) : Audit NumberSet := do
  q.indices.forM fun key => do
    let epoch := Count.toEpoch key
    let target ← grid.up epoch
    expect (target == epoch) s!"precommit expiration {epoch} is not quantized"
  return NumberSet.unionAll q.values

/-- Checks the promised sectors. -/
def precommits (policy : Policy) (m : MinerState) (allocated : NumberSet) : Audit Unit := do
  let expiring ← attempt "error loading pre-commit expiry queue" ∅ (m.precommitExpiry.load .array)
    (precommitExpiry (m.everyDeadlineGrid policy))
  let sum ← attempt "error loading precommitted sectors" (0 : Int) (m.precommits.load .map) fun found => do
    found.entries.forM fun (n, p) => do
      expect (n ∈ allocated) s!"pre-committed sector number has not been allocated {n}"
      expect (n ∈ expiring) s!"no expiry epoch for pre-commit at {p.epoch}"
    return found.values.foldr (fun p sum => p.deposit + sum) 0
  expect (m.precommitDeposits == sum)
    (s!"sum of precommit deposits {Amount.shown sum} does not equal " ++
      s!"recorded precommit deposit {Amount.shown m.precommitDeposits}")

/-- Expects the proven sectors to be allocated. Answers their records. -/
def provenSectors (m : MinerState) (allocated : Option NumberSet) : Audit SectorTable :=
  attempt "error loading sectors" ∅ (m.sectors.load .array) fun table => do
    table.indices.forM fun n =>
      expect (allocated.all fun s => decide (n ∈ s)) s!"on chain sector's sector number has not been allocated {n}"
    return table

/-- The deals stored in some sectors. A deal found twice counts for the last sector. -/
def dealsOf (table : SectorTable) : SparseArray DealSummary :=
  SparseArray.ofEntries <| table.values.flatMap fun s => s.deals.map fun deal => (deal, ⟨s.activation, s.expiration⟩)

/-- Checks the deadlines of the given indices, up to the first that cannot be loaded. -/
def deadlinesAt (policy : Policy) (m : MinerState) (size : SectorSize) (table : SectorTable) (ds : Deadlines) :
    List Nat → MinerSummary → Audit MinerSummary
  | [], found => return found
  | i :: rest, found =>
    attempt "error iterating deadlines" found (Deadlines.load policy ds i) fun d => do
      let grid ← m.deadlineGrid policy i
      let part ← under s!"deadline {i}: " (deadlineState grid size table d)
      deadlinesAt policy m size table ds rest { found with
        livePower := found.livePower + part.livePower
        activePower := found.activePower + part.activePower
        faultyPower := found.faultyPower + part.faultyPower }

/-- Checks the whole record of a miner that has the given balance. Without the miner's information nothing
else is checked. -/
def minerState (policy : Policy) (m : MinerState) (balance : Int) : Audit MinerSummary :=
  attempt "error loading miner info" {} m.loadInfo fun info => do
    minerInfo info
    balances policy m balance
    let allocated ← attempt "error loading allocated sector bitfield" none (m.allocated.fetch "allocated sectors")
      fun s => return some s
    precommits policy m (allocated.getD ∅)
    let table ← provenSectors m allocated
    expect (m.currentDeadline < policy.deadlines)
      s!"current deadline index is greater than deadlines per period({policy.deadlines}): {m.currentDeadline}"
    let found : MinerSummary := { proof := info.proof, deals := dealsOf table }
    attempt "error loading deadlines" found m.loadDeadlines fun ds =>
      deadlinesAt policy m info.sectorSize table ds (List.range ds.length) found

end Audit

end SectorLedger
