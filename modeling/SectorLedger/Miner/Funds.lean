import SectorLedger.Miner.State

/-!
# The miner's money

Deposits, pledge, locked funds and debt. None of the totals may become negative.

* `MinerState.lockFunds`, `unlockVested`, `unlockUnvested`: what enters and leaves the vesting table.
* `MinerState.repayPartialDebt`, `repayDebts`: debt is paid from what has not vested, then from the balance.
* `MinerState.checkBalance`: the balance covers everything that is promised.
-/

namespace SectorLedger.MinerState

/-- The vesting table. -/
def loadVesting (m : MinerState) : Outcome VestingTable := m.vesting.fetch "vesting funds"

/-- Changes the money held back for promised sectors. -/
def addPrecommitDeposit (m : MinerState) (amount : Int) : Outcome MinerState := do
  let total := m.precommitDeposits + amount
  if total < 0 then
    failed <| s!"negative pre-commit deposit {Amount.shown total} after adding {Amount.shown amount} " ++
      s!"to prior {Amount.shown m.precommitDeposits}"
  return { m with precommitDeposits := total }

/-- Changes the pledge. -/
def addInitialPledge (m : MinerState) (amount : Int) : Outcome MinerState := do
  let total := m.initialPledge + amount
  if total < 0 then
    failed <| s!"negative initial pledge requirement {Amount.shown total} after adding {Amount.shown amount} " ++
      s!"to prior {Amount.shown m.initialPledge}"
  return { m with initialPledge := total }

/-- Takes an unlocked amount from the locked funds. -/
def releaseLocked (m : MinerState) (unlocked : Int) : Outcome MinerState := do
  let locked := m.lockedFunds - unlocked
  if locked < 0 then
    failed s!"negative locked funds {Amount.shown locked} after unlocking {Amount.shown unlocked}"
  return { m with lockedFunds := locked }

/-- Unlocks what has vested, then locks a sum that vests by a schedule. Answers what had vested. -/
def lockFunds (m : MinerState) (now : Int) (sum : Int) (spec : VestingSpec) : Outcome (MinerState × Int) := do
  if sum < 0 then
    failed s!"negative vesting sum {Amount.shown sum}"
  let (table, unlocked) := (← m.loadVesting).unlockVested now
  let m ← m.releaseLocked unlocked
  let table ← table.lock now sum m.periodStart spec
  return ({ m with lockedFunds := m.lockedFunds + sum, vesting := .held table }, unlocked)

/-- Adds a penalty to the debt. -/
def applyPenalty (m : MinerState) (penalty : Int) : Outcome MinerState := do
  if penalty < 0 then
    failed s!"applying negative penalty {Amount.shown penalty} not allowed"
  return { m with feeDebt := m.feeDebt + penalty }

/-- What of the balance is not locked, before debt is paid. -/
def unlockedBalance (m : MinerState) (balance : Int) : Outcome Int := do
  let unlocked := balance - m.lockedFunds - m.precommitDeposits - m.initialPledge
  if unlocked < 0 then
    failed s!"negative unlocked balance {Amount.shown unlocked}"
  return unlocked

/-- What of the balance is not locked, after debt is paid. It is negative if the debt is larger. -/
def availableBalance (m : MinerState) (balance : Int) : Outcome Int := do
  return (← m.unlockedBalance balance) - m.feeDebt

/-- Unlocks up to an amount of what has not vested. Answers how much. -/
def unlockUnvested (m : MinerState) (now : Int) (target : Int) : Outcome (MinerState × Int) := do
  if target = 0 ∨ m.lockedFunds = 0 then
    return (m, 0)
  let (table, unlocked) ← (← m.loadVesting).unlockUnvested now target
  let m ← m.releaseLocked unlocked
  return ({ m with vesting := .held table }, unlocked)

/-- Unlocks what has vested. Answers how much. -/
def unlockVested (m : MinerState) (now : Int) : Outcome (MinerState × Int) := do
  if m.lockedFunds = 0 then
    return (m, 0)
  let (table, unlocked) := (← m.loadVesting).unlockVested now
  let locked := m.lockedFunds - unlocked
  if locked < 0 then
    failed s!"vesting cause locked funds to become negative: {Amount.shown locked}"
  return ({ m with lockedFunds := locked, vesting := .held table }, unlocked)

/-- How much has vested and not been unlocked. -/
def vestedFunds (m : MinerState) (now : Int) : Outcome Int := do
  return (← m.loadVesting).vestedBefore now

/-- Pays as much of the debt as possible, from what has not vested and then from the unlocked balance.
Answers both parts. -/
def repayPartialDebt (m : MinerState) (now : Int) (balance : Int) : Outcome (MinerState × Int × Int) := do
  let unlocked ← m.unlockedBalance balance
  let (m, fromVesting) ← m.unlockUnvested now m.feeDebt
  if fromVesting > m.feeDebt then
    failed "should never unlock more than the debt we need to repay"
  let debt := m.feeDebt - fromVesting
  let fromBalance := min unlocked debt
  return ({ m with feeDebt := debt - fromBalance }, fromVesting, fromBalance)

/-- Pays the whole debt from the unlocked balance. Answers the debt. -/
def repayDebts (m : MinerState) (balance : Int) : Outcome (MinerState × Int) := do
  let unlocked ← m.unlockedBalance balance
  if unlocked < m.feeDebt then
    refused .insufficientFunds <|
      s!"unlocked balance can not repay fee debt ({Amount.shown unlocked} < {Amount.shown m.feeDebt})"
  return ({ m with feeDebt := 0 }, m.feeDebt)

/-- Whether the miner owes nothing. -/
def isDebtFree (m : MinerState) : Bool := m.feeDebt ≤ 0

/-- Refuses negative totals, and a balance that does not cover what is promised. -/
def checkBalance (m : MinerState) (balance : Int) : Outcome Unit := do
  let broken (text : String) : Outcome Unit := refused .balanceInvariantsBroken text
  if m.precommitDeposits < 0 then
    broken s!"pre-commit deposit is negative: {Amount.shown m.precommitDeposits}"
  if m.lockedFunds < 0 then
    broken s!"locked funds is negative: {Amount.shown m.lockedFunds}"
  if m.initialPledge < 0 then
    broken s!"initial pledge is negative: {Amount.shown m.initialPledge}"
  if m.feeDebt < 0 then
    broken s!"fee debt is negative: {Amount.shown m.feeDebt}"
  let needed := m.precommitDeposits + m.lockedFunds + m.initialPledge
  if balance < needed then
    broken s!"balance {Amount.shown balance} below required {Amount.shown needed}"

end SectorLedger.MinerState
