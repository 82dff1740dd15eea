import SectorLedger.Word

/-!
# Network parameters

The numbers that differ between networks. The five that fix the clock of proving are a record of their
own, `Timing`, because a proving window carries them along.

* `Policy.mainnet`, `Policy.devnet`: the two built-in choices.
* `Policy.validate`: the windows of a proving period must tile it.
-/

namespace SectorLedger

/-- Epochs in an hour: a round takes thirty seconds. -/
def epochsInHour : Int := 3600 / 30

/-- Epochs in a day. -/
def epochsInDay : Int := 86400 / 30

/-- The clock of proving. -/
structure Timing where
  /-- How many windows a proving period has. -/
  deadlines : Nat
  /-- How long a proving period is. -/
  period : Int
  /-- How long a window stays open. -/
  window : Int
  /-- How long before its opening a window's randomness is drawn. -/
  lookback : Int
  /-- How long before its opening faults must be declared. -/
  faultCutoff : Int
  deriving DecidableEq, Repr, Inhabited

/-- The parameters of a network. -/
structure Policy extends Timing where
  /-- The most sectors one aggregated proof may cover. -/
  maxAggregatedSectors : Nat
  /-- The fewest sectors one aggregated proof may cover. -/
  minAggregatedSectors : Nat
  /-- The most sectors promised together. -/
  precommitBatchMax : Nat
  /-- How long an expired promise stays before it is cleaned up. -/
  precommitCleanUpDelay : Int
  /-- How long a sector may stay faulty. -/
  faultMaxAge : Int
  /-- The most sectors of a miner. -/
  sectorsMax : Nat
  /-- The most partitions of a deadline. -/
  partitionsPerDeadline : Nat
  /-- The most partitions addressed at once. -/
  addressedPartitionsMax : Nat
  /-- The most declarations made at once. -/
  declarationsMax : Nat
  /-- The most sectors addressed at once. -/
  addressedSectorsMax : Nat
  /-- After how long the chain is final. -/
  chainFinality : Int
  /-- How long after a promise the interactive challenge is drawn. -/
  precommitChallengeDelay : Int
  /-- The least time until a sector may expire. -/
  minSectorExpiration : Int
  /-- The longest time by which an expiration may be moved. -/
  maxExpirationExtension : Int
  deriving DecidableEq, Repr, Inhabited

namespace Policy

/-- The parameters of the main network. -/
def mainnet : Policy where
  deadlines := 48
  period := epochsInDay
  window := 60
  lookback := 20
  faultCutoff := 20 + 50
  maxAggregatedSectors := 819
  minAggregatedSectors := 4
  precommitBatchMax := 256
  precommitCleanUpDelay := 8 * epochsInHour
  faultMaxAge := epochsInDay * 14
  sectorsMax := 32 * 1024 * 1024
  partitionsPerDeadline := 3000
  addressedPartitionsMax := 3000
  declarationsMax := 3000
  addressedSectorsMax := 10000
  chainFinality := 900
  precommitChallengeDelay := 150
  minSectorExpiration := 180 * epochsInDay
  maxExpirationExtension := 540 * epochsInDay

/-- A network with short proving periods: forty-eight windows of ten epochs. -/
def devnet : Policy :=
  { mainnet with
    period := 480
    window := 10
    lookback := 5
    faultCutoff := 7
    faultMaxAge := 480 * 14
    precommitChallengeDelay := 10 }

instance : Inhabited Policy := ⟨mainnet⟩

/-- Checks that the windows tile the proving period. The deadline count is read as an epoch. -/
def validate (p : Policy) : Outcome Unit := do
  if p.window ≤ 0 ∨ p.deadlines = 0 then
    failed "challenge window and deadline count must be positive"
  if (← Epoch.rem p.period p.window) ≠ 0 then
    failed s!"incompatible proving period {p.period} and challenge window {p.window}"
  if (← Epoch.mul (Count.toEpoch p.deadlines) p.window) ≠ p.period then
    failed s!"incompatible proving period {p.period} and deadline count {p.deadlines}"

end Policy

end SectorLedger
