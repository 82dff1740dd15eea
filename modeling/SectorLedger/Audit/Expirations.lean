import SectorLedger.Audit.Findings
import SectorLedger.Expiration.Queue
import SectorLedger.SectorTable

/-!
# Audits of queues

An expiration queue should list each live sector once, at an epoch of its grid, with totals that are the
sums over its sectors. A sector that expires early should be faulty, and due before its own expiration. A
sector on time should be at its own expiration or in the first entry.

A queue of early terminations should list each sector once, and only sectors that ended.

* `Audit.expirations`, `Audit.earlyTerminations`: the two audits.
-/

namespace SectorLedger

/-- The most sectors that an entry of an expiration queue should have. -/
def entrySectorsMax : Nat := 10000

/-- What an expiration queue lists, in all. -/
structure ExpirationSummary where
  /-- The sectors on time. -/
  onTime : NumberSet := ∅
  /-- The sectors that expire early. -/
  early : NumberSet := ∅
  /-- The recorded active power. -/
  active : Power := 0
  /-- The recorded faulty power. -/
  faulty : Power := 0
  /-- The recorded pledge. -/
  pledge : Int := 0
  /-- The epochs of the entries. -/
  epochs : List Int := []
  deriving DecidableEq, Repr

/-- The records of the members of a set, and the members without one. -/
def selectKnown (table : SectorTable) (numbers : NumberSet) : List Sector × List Nat :=
  let ns := numbers.elements
  (ns.filterMap table.get?, ns.filter fun n => (table.get? n).isNone)

namespace Audit

/-- Expects a sector to be new in a queue. -/
def expectNew (queue : String) (seen : NumberSet) (n : Nat) : Audit NumberSet := do
  expect (n ∉ seen) s!"sector {n} in {queue} twice"
  return seen ∪ NumberSet.singleton n

variable (grid : Grid) (live : SectorTable)

/-- Checks a sector that is on time at an epoch, and adds its pledge. -/
def onTimeSector (epoch first : Int) (state : NumberSet × Int) (n : Nat) : Audit (NumberSet × Int) := do
  let seen ← expectNew "expiration queue" state.1 n
  match live.get? n with
  | some s =>
    let target ← grid.up s.expiration
    expect (epoch == target || epoch == first)
      s!"invalid expiration {epoch} for sector {n}, expected {first} or {target}"
    return (seen, state.2 + s.pledge)
  | none =>
    note s!"on-time expiration sector {n} isn't live"
    return (seen, state.2)

/-- Checks a sector that expires early at an epoch. -/
def earlySector (faults : NumberSet) (epoch : Int) (seen : NumberSet) (n : Nat) : Audit NumberSet := do
  let seen ← expectNew "expiration queue" seen n
  expect (n ∈ faults) s!"sector {n} expiring early but not faulty"
  match live.get? n with
  | some s =>
    let target ← grid.up s.expiration
    expect (epoch < target) s!"invalid early expiration {epoch} for sector {n}, expected < {target}"
  | none => note s!"on-time expiration sector {n} isn't live"
  return seen

/-- The records of a part of an entry, all of which should be live. -/
def entrySectors (what : String) (members : NumberSet) : Audit (List Sector) := do
  let (sectors, missing) := selectKnown live members
  expect missing.isEmpty s!"{what} sectors missing from live: {NumberSet.shownList missing}"
  return sectors

/-- Checks one entry. -/
def expirationEntry (size : SectorSize) (faults : NumberSet) (epoch first : Int) (entry : ExpirationSet)
    (seen : NumberSet) : Audit NumberSet := do
  let target ← grid.up epoch
  expect (target == epoch) s!"expiration queue key {epoch} is not quantized, expected {target}"
  let count ← entry.count
  expect (count ≤ entrySectorsMax) s!"expiration set has {count} sectors, more than the limit {entrySectorsMax}"
  let (seen, pledge) ← entry.onTime.elements.foldlM (onTimeSector grid live epoch first) (seen, 0)
  let seen ← entry.early.elements.foldlM (earlySector grid live faults epoch) seen
  let members := entry.onTime ∪ entry.early
  let activeSectors ← entrySectors live "active" (members \ faults)
  let faultySectors ← entrySectors live "faulty" (members ∩ faults)
  let active ← Power.ofSectors size activeSectors
  expect (entry.active == active) s!"active power recorded {entry.active.shown} doesn't match computed {active.shown}"
  let faulty ← Power.ofSectors size faultySectors
  expect (entry.faulty == faulty) s!"faulty power recorded {entry.faulty.shown} doesn't match computed {faulty.shown}"
  expect (entry.pledge == pledge)
    s!"on time pledge recorded {Amount.shown entry.pledge} doesn't match computed {Amount.shown pledge}"
  return seen

/-- Checks the entries that are left, when those before them list the seen sectors and the first one is at
the given epoch. -/
def expirationEntries (size : SectorSize) (faults : NumberSet) (first : Int) :
    List (Nat × ExpirationSet) → NumberSet → Audit Unit
  | [], _ => pure ()
  | (key, entry) :: rest, seen => do
    let epoch := Count.toEpoch key
    let seen ← under s!"expiration epoch {epoch}: " (expirationEntry grid live size faults epoch first entry seen)
    expirationEntries size faults first rest seen

/-- What a queue lists, in all. -/
def summarize (q : ExpirationQueue) : ExpirationSummary where
  onTime := NumberSet.unionAll (q.values.map (·.onTime))
  early := NumberSet.unionAll (q.values.map (·.early))
  active := (q.values.map (·.active)).foldl (· + ·) 0
  faulty := (q.values.map (·.faulty)).foldl (· + ·) 0
  pledge := (q.values.map (·.pledge)).foldl (· + ·) 0
  epochs := q.indices.map Count.toEpoch

/-- Checks an expiration queue of the given live sectors, some of which are faulty. -/
def expirations (size : SectorSize) (q : ExpirationQueue) (faults : NumberSet) : Audit ExpirationSummary := do
  match q.entries with
  | [] => return summarize q
  | (key, entry) :: rest =>
    expirationEntries grid live size faults (Count.toEpoch key) ((key, entry) :: rest) ∅
    return summarize q

/-- Checks the entries of a queue of early terminations that are left. Answers all sectors listed. -/
def earlyEntries : List (Nat × NumberSet) → NumberSet → Audit NumberSet
  | [], seen => return seen
  | (key, numbers) :: rest, seen => do
    let seen ← under s!"early termination epoch {Count.toEpoch key}: " <|
      numbers.elements.foldlM (expectNew "early termination queue") seen
    earlyEntries rest seen

/-- Checks a queue of early terminations. Answers how many sectors it lists. -/
def earlyTerminations (q : NumberQueue) (terminated : NumberSet) : Audit Nat := do
  let seen ← earlyEntries q.entries ∅
  expectContainsAll terminated seen "terminated sectors missing early termination entry"
  return seen.count

end Audit

end SectorLedger
