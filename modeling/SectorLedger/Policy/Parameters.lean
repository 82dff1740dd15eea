import SectorLedger.Policy
import SectorLedger.Toml.Document

/-!
# Parameters by name

Each network parameter has a name, under which a configuration may set it. What a configuration does not
set keeps the main network's value.

* `Policy.parameters`: all parameters, with how to look at one and how to change it.
* `Policy.ofToml`: the parameters that a configuration document describes.
-/

namespace SectorLedger.Policy

/-- A network parameter. -/
structure Parameter where
  /-- Its name. -/
  name : String
  /-- Its value. -/
  get : Policy → Int
  /-- The policy with another value, if it is in the parameter's range. -/
  set : Policy → Int → Option Policy

/-- A parameter that is a count. -/
def count (name : String) (get : Policy → Nat) (put : Policy → Nat → Policy) : Parameter where
  name
  get p := get p
  set p n := if 0 ≤ n ∧ n < Count.bound then some (put p n.toNat) else none

/-- A parameter that is a number of epochs. -/
def epochs (name : String) (get : Policy → Int) (put : Policy → Int → Policy) : Parameter where
  name
  get
  set p n := if Epoch.InRange n then some (put p n) else none

/-- All parameters. -/
def parameters : List Parameter := [
  count "max_aggregated_sectors" (·.maxAggregatedSectors) fun p n => { p with maxAggregatedSectors := n },
  count "min_aggregated_sectors" (·.minAggregatedSectors) fun p n => { p with minAggregatedSectors := n },
  count "pre_commit_sector_batch_max_size" (·.precommitBatchMax) fun p n => { p with precommitBatchMax := n },
  epochs "expired_pre_commit_clean_up_delay" (·.precommitCleanUpDelay) fun p n => { p with precommitCleanUpDelay := n },
  epochs "wpost_proving_period" (·.period) fun p n => { p with period := n },
  epochs "wpost_challenge_window" (·.window) fun p n => { p with window := n },
  count "wpost_period_deadlines" (·.deadlines) fun p n => { p with deadlines := n },
  epochs "wpost_challenge_lookback" (·.lookback) fun p n => { p with lookback := n },
  epochs "fault_declaration_cutoff" (·.faultCutoff) fun p n => { p with faultCutoff := n },
  epochs "fault_max_age" (·.faultMaxAge) fun p n => { p with faultMaxAge := n },
  count "sectors_max" (·.sectorsMax) fun p n => { p with sectorsMax := n },
  count "max_partitions_per_deadline" (·.partitionsPerDeadline) fun p n => { p with partitionsPerDeadline := n },
  count "addressed_partitions_max" (·.addressedPartitionsMax) fun p n => { p with addressedPartitionsMax := n },
  count "declarations_max" (·.declarationsMax) fun p n => { p with declarationsMax := n },
  count "addressed_sectors_max" (·.addressedSectorsMax) fun p n => { p with addressedSectorsMax := n },
  epochs "chain_finality" (·.chainFinality) fun p n => { p with chainFinality := n },
  epochs "pre_commit_challenge_delay" (·.precommitChallengeDelay) fun p n => { p with precommitChallengeDelay := n },
  epochs "min_sector_expiration" (·.minSectorExpiration) fun p n => { p with minSectorExpiration := n },
  epochs "max_sector_expiration_extension" (·.maxExpirationExtension) fun p n => { p with maxExpirationExtension := n }]

/-- Sets a parameter by its name. An unknown name changes nothing. -/
def assign (p : Policy) (name : String) (v : Toml.Value) : Option Policy :=
  match parameters.find? (·.name = name), v with
  | some parameter, .integer n => parameter.set p n
  | some _, _ => none
  | none, _ => some p

/-- The parameters that a configuration document describes, which must be valid. -/
def ofToml (text : String) : Outcome Policy := do
  let some entries := Toml.read? text
    | failed "failed to parse policy"
  let some policy := entries.foldlM (fun p e => assign p e.1 e.2) mainnet
    | failed "failed to parse policy"
  policy.validate
  return policy

end SectorLedger.Policy
