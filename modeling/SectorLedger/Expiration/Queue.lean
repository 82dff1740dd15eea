import SectorLedger.Expiration.Set
import SectorLedger.NumberQueue

/-!
# Expiration queues

Expiration sets by the epoch at which their sectors expire. An epoch is rounded up to the queue's grid
before it becomes a key, so the entries of the queue of one deadline lie on the last epochs of its
windows.

A sector enters on time at its own expiration (`addActive`). When it becomes faulty it moves to an early
place unless it is due before that anyway (`rescheduleAsFaults`, or `rescheduleAllAsFaults` for the whole
queue); when it recovers it goes back (`rescheduleRecovered`). It leaves when it is terminated
(`removeSectors`) or when its time comes (`popUntil`).

* `ExpirationQueue.locate`: where the given on-time sectors really are, which need not be where their own
  expirations say.
-/

namespace SectorLedger

/-- Expiration sets by the epoch at which their sectors expire. -/
abbrev ExpirationQueue : Type := SparseArray ExpirationSet

/-- Sectors with their total power and pledge. -/
structure Lot where
  /-- The sectors. -/
  numbers : NumberSet := ∅
  /-- Their power. -/
  power : Power := 0
  /-- Their pledge. -/
  pledge : Int := 0
  deriving DecidableEq, Repr

/-- Two lots together. -/
def Lot.join (l l' : Lot) : Lot := ⟨l.numbers ∪ l'.numbers, l.power + l'.power, l.pledge + l'.pledge⟩

/-- Sectors that expire on time at one epoch, with their totals. -/
structure Cohort where
  /-- The epoch. -/
  epoch : Int
  /-- The numbers of the sectors. -/
  numbers : List Nat
  /-- Their power. -/
  power : Power
  /-- Their pledge. -/
  pledge : Int
  deriving DecidableEq, Repr

namespace Cohort

/-- The cohort of some sectors at an epoch. -/
def ofSectors (size : SectorSize) (epoch : Int) (sectors : List Sector) : Outcome Cohort :=
  foldOutcome (fun c s => do
    let power ← Power.ofSector size s
    return { c with numbers := c.numbers ++ [s.number], power := c.power + power, pledge := c.pledge + s.pledge })
    ⟨epoch, [], 0, 0⟩ sectors

/-- The set of the cohort's numbers. -/
def numberSet (c : Cohort) : Outcome NumberSet := NumberSet.ofValues c.numbers

end Cohort

/-- Puts an element into a list of groups that ascend by epoch, at the end of its group. -/
def fileByEpoch {α : Type} (epoch : Int) (a : α) : List (Int × List α) → List (Int × List α)
  | [] => [(epoch, [a])]
  | (e, as) :: rest =>
    if epoch < e then (epoch, [a]) :: (e, as) :: rest
    else if epoch = e then (e, as ++ [a]) :: rest
    else (e, as) :: fileByEpoch epoch a rest

/-- The sector of the given number that stands last in the list. -/
def lastWithNumber (sectors : List Sector) (n : Nat) : Option Sector :=
  sectors.reverse.find? (·.number = n)

namespace ExpirationQueue

/-- The sectors by their own expirations, rounded up. Within a group they keep their order. -/
def groupByExpiration (grid : Grid) (sectors : List Sector) : Outcome (List (Int × List Sector)) :=
  foldOutcome (fun groups s => do return fileByEpoch (← grid.up s.expiration) s groups) [] sectors

/-- The entry at an epoch, or an empty one. -/
def entryAt (q : ExpirationQueue) (epoch : Int) : Outcome ExpirationSet := do
  let key ← Epoch.asCount epoch
  let entry ← noting s!"failed to lookup queue epoch {epoch}" (q.read key)
  return entry.getD ∅

/-- Stores an entry. -/
def putEntry (q : ExpirationQueue) (epoch : Int) (entry : ExpirationSet) : Outcome ExpirationQueue := do
  let key ← Epoch.asCount epoch
  noting s!"failed to set queue epoch {epoch}" (q.write key entry)

/-- Stores an entry, or drops the epoch if the entry is empty. -/
def putOrDrop (q : ExpirationQueue) (epoch : Int) (entry : ExpirationSet) : Outcome ExpirationQueue := do
  let key ← Epoch.asCount epoch
  if entry.isEmpty then
    return (← noting s!"failed to delete queue epoch {epoch}" (q.remove key)).1
  else
    noting s!"failed to set queue epoch {epoch}" (q.write key entry)

/-- Adds sectors and totals at an epoch, which is rounded up. -/
def addAt (grid : Grid) (q : ExpirationQueue) (rawEpoch : Int) (added : ExpirationSet) :
    Outcome ExpirationQueue := do
  let epoch ← grid.up rawEpoch
  let old ← q.entryAt epoch
  let new ← noting s!"failed to add expiration values for epoch {epoch}" (old.add added)
  q.putEntry epoch new

/-- Removes sectors and totals at an epoch, which is rounded up. -/
def removeAt (grid : Grid) (q : ExpirationQueue) (rawEpoch : Int) (removed : ExpirationSet) :
    Outcome ExpirationQueue := do
  let epoch ← grid.up rawEpoch
  let key ← Epoch.asCount epoch
  match ← noting s!"failed to lookup queue epoch {epoch}" (q.read key) with
  | none => refused .illegalState s!"missing expected expiration set at epoch {epoch}"
  | some old =>
    let rest ← noting s!"failed to remove expiration values for queue epoch {epoch}" (old.remove removed)
    q.putOrDrop epoch rest

/-- Adds a cohort at its epoch, and counts it with what was added before. -/
def enter (grid : Grid) (r : ExpirationQueue × Lot) (c : Cohort) : Outcome (ExpirationQueue × Lot) := do
  let numbers ← c.numberSet
  let q ← noting "failed to record new sector expirations" <|
    addAt grid r.1 c.epoch { onTime := numbers, active := c.power, pledge := c.pledge }
  return (q, r.2.join { numbers, power := c.power, pledge := c.pledge })

/-- Adds active sectors at their own expirations, and tells what was added. -/
def addActive (grid : Grid) (size : SectorSize) (q : ExpirationQueue) (sectors : List Sector) :
    Outcome (ExpirationQueue × Lot) := do
  let groups ← groupByExpiration grid sectors
  let cohorts ← groups.mapM fun g => Cohort.ofSectors size g.1 g.2
  foldOutcome (enter grid) (q, {}) cohorts

/-- The requested sectors that are on time in an entry, in ascending order. -/
def cohortIn (size : SectorSize) (sectors : List Sector) (wanted : NumberSet) (entry : ExpirationSet) (epoch : Int) :
    Outcome Cohort :=
  Cohort.ofSectors size epoch ((entry.onTime ∩ wanted).elements.filterMap (lastWithNumber sectors))

/-- Refuses to go on past an entry in which a wanted sector expires early. -/
def requireNoneEarly (wanted : NumberSet) (entry : ExpirationSet) : Outcome Unit :=
  match (entry.early ∩ wanted).first? with
  | some n =>
    layering "failed to group expiring sectors" <|
      failed s!"Invalid attempt to group sector {n} with an early expiration"
  | none => .ok ()

/-- Looks for the wanted sectors at the given epochs. Answers the cohorts found, each with the entry it
is in, and the numbers not found. -/
def locateAt (size : SectorSize) (q : ExpirationQueue) (sectors : List Sector) (wanted : NumberSet)
    (epochs : List Int) : Outcome (List (Cohort × ExpirationSet) × NumberSet) :=
  foldOutcome (fun (found, wanted) epoch => do
    let entry ← q.entryAt epoch
    let cohort ← cohortIn size sectors wanted entry epoch
    if cohort.numbers.isEmpty then return (found, wanted)
    else return (found ++ [(cohort, entry)], wanted \ entry.onTime))
    ([], wanted) epochs

/-- Looks for the wanted sectors in the entries that are not at the given epochs, in order, and stops when
all are found. -/
def locateElsewhere (size : SectorSize) (sectors : List Sector) (known : List Int) :
    List (Nat × ExpirationSet) → NumberSet → Outcome (List (Cohort × ExpirationSet) × NumberSet)
  | [], wanted => .ok ([], wanted)
  | (key, entry) :: rest, wanted => do
    let epoch := Count.toEpoch key
    if known.contains epoch then
      locateElsewhere size sectors known rest wanted
    else
      requireNoneEarly wanted entry
      let cohort ← cohortIn size sectors wanted entry epoch
      let wanted := wanted \ entry.onTime
      let (found, wanted) ←
        if wanted.isEmpty then pure ([], wanted) else locateElsewhere size sectors known rest wanted
      return (if cohort.numbers.isEmpty then found else (cohort, entry) :: found, wanted)

/-- Finds the entries in which the given sectors are on time: first where their own expirations say, then
anywhere. The cohorts ascend by epoch. Fails if a sector is not found. -/
def locate (grid : Grid) (size : SectorSize) (q : ExpirationQueue) (sectors : List Sector) :
    Outcome (List (Cohort × ExpirationSet)) := do
  let epochs := (← groupByExpiration grid sectors).map (·.1)
  let (found, wanted) ← locateAt size q sectors (NumberSet.ofList (sectors.map (·.number))) epochs
  let (more, wanted) ←
    if wanted.isEmpty then pure ([], wanted)
    else within .array (locateElsewhere size sectors epochs q.entries wanted)
  if !wanted.isEmpty then
    failed "some sectors not found in expiration queue"
  return (found ++ more).mergeSort fun a b => a.1.epoch ≤ b.1.epoch

/-- Removes active sectors from wherever they are on time, and tells what was removed. -/
def removeActive (grid : Grid) (size : SectorSize) (q : ExpirationQueue) (sectors : List Sector) :
    Outcome (ExpirationQueue × Lot) := do
  let cohorts ← locate grid size q sectors
  let (q, numbers, power, pledge) ← foldOutcome (fun (q, numbers, power, pledge) (c, _) => do
    let set ← c.numberSet
    let q ← removeAt grid q c.epoch { onTime := set, active := c.power, pledge := c.pledge }
    return (q, numbers ++ c.numbers, power + c.power, pledge + c.pledge))
    (q, ([], (0, 0))) cohorts
  return (q, { numbers := ← NumberSet.ofValues numbers, power, pledge })

/-- Moves active sectors to another expiration, with their power and pledge. -/
def reschedule (grid : Grid) (size : SectorSize) (q : ExpirationQueue) (newExpiration : Int)
    (sectors : List Sector) : Outcome ExpirationQueue := do
  if sectors.isEmpty then
    return q
  let (q, lot) ← noting "failed to remove sector expirations" (removeActive grid size q sectors)
  noting "failed to record new sector expirations" <|
    addAt grid q newExpiration { onTime := lot.numbers, active := lot.power, pledge := lot.pledge }

/-- Makes active sectors faulty. One that is due by the fault's expiration stays on time, with its pledge,
and its power turns faulty; any other moves to an early place at the fault's expiration, and its pledge
leaves the queue. Answers the sectors' power. -/
def rescheduleAsFaults (grid : Grid) (size : SectorSize) (q : ExpirationQueue) (newExpiration : Int)
    (sectors : List Sector) : Outcome (ExpirationQueue × Power) := do
  let cohorts ← locate grid size q sectors
  let (q, moved, movedPower, stayingPower) ← foldOutcome (fun (q, moved, movedPower, stayingPower) (c, entry) => do
    let limit ← grid.up newExpiration
    if c.epoch ≤ limit then
      let entry := { entry with active := entry.active - c.power, faulty := entry.faulty + c.power }
      let q ← putOrDrop q c.epoch entry
      entry.validate
      return (q, moved, movedPower, stayingPower + c.power)
    else
      let set ← c.numberSet
      let entry := { entry with
        onTime := entry.onTime \ set, pledge := entry.pledge - c.pledge, active := entry.active - c.power }
      let q ← putOrDrop q c.epoch entry
      entry.validate
      return (q, moved ++ c.numbers, movedPower + c.power, stayingPower))
    (q, (([] : List Nat), ((0 : Power), (0 : Power)))) cohorts
  if moved.isEmpty then
    return (q, movedPower + stayingPower)
  let early ← NumberSet.ofValues moved
  let q ← addAt grid q newExpiration { early, faulty := movedPower }
  return (q, movedPower + stayingPower)

/-- What has been taken from the entries that come after the fault's expiration. -/
structure Collapsed where
  /-- The queue, in which the entries up to the fault's expiration are wholly faulty. -/
  queue : ExpirationQueue
  /-- The keys of the later entries. -/
  keys : List Nat := []
  /-- Their sectors. -/
  sectors : NumberSet := ∅
  /-- Their power. -/
  power : Power := 0

/-- Makes one entry wholly faulty, or takes it for the fault's expiration. -/
def collapseEntry (limit : Int) (c : Collapsed) (key : Nat) (entry : ExpirationSet) : Outcome Collapsed := do
  let epoch ← Count.asEpoch key
  if epoch ≤ limit then
    let entry := { entry with active := 0, faulty := entry.faulty + entry.active }
    entry.validate
    return { c with queue := c.queue.insert key entry }
  else
    if !entry.early.isEmpty then
      failed "attempted to re-schedule early expirations to an even earlier epoch"
    entry.validate
    return { c with
      keys := c.keys ++ [key]
      sectors := c.sectors ∪ entry.onTime
      power := c.power + entry.active + entry.faulty }

/-- Makes all sectors faulty: entries up to the fault's expiration turn wholly faulty where they are, and
all later ones are collapsed into it, early and without pledge. -/
def rescheduleAllAsFaults (grid : Grid) (q : ExpirationQueue) (faultExpiration : Int) : Outcome ExpirationQueue := do
  let limit ← grid.up faultExpiration
  let c ← within .array <|
    foldOutcome (fun c e => collapseEntry limit c e.1 e.2) { queue := q } q.entries
  if c.keys.isEmpty then
    return c.queue
  let q ← addAt grid c.queue faultExpiration { early := c.sectors, faulty := c.power }
  return q.eraseAll c.keys

/-- Walks the entries in order with a function that may change each one, until it says to stop. An entry
that is left empty is dropped. -/
def walk {σ : Type} (f : σ → ExpirationSet → Outcome (σ × ExpirationSet × Bool)) :
    List (Nat × ExpirationSet) → σ → ExpirationQueue → Outcome (σ × ExpirationQueue)
  | [], s, q => .ok (s, q)
  | (key, entry) :: rest, s, q => do
    let _ ← Count.asEpoch key
    let (s, entry, more) ← f s entry
    let q := if entry.isEmpty then q.erase key else q.insert key entry
    if more then walk f rest s q else return (s, q)

/-- The words for sectors that a walk did not find. -/
def notFound {α : Type} (remaining : NumberSet) : Outcome α :=
  failed s!"sectors not found in expiration queue: {remaining.shown}"

/-- What a walk for recovering sectors has found so far. -/
structure Recovering where
  /-- Numbers still to be found. -/
  remaining : NumberSet
  /-- Sectors taken from early places. -/
  moved : List Sector := []
  /-- The power of all sectors found. -/
  power : Power := 0

/-- What recovering sectors do to the entry they are in. -/
structure RecoveringHere where
  /-- Sectors to take from their early places. -/
  early : NumberSet := ∅
  /-- Power that becomes active. -/
  active : Power := 0
  /-- Power that is no longer faulty. -/
  faulty : Power := 0

/-- Looks for one recovering sector in an entry. -/
def recoverSector (size : SectorSize) (entry : ExpirationSet) (r : Recovering × RecoveringHere) (s : Sector) :
    Outcome (Recovering × RecoveringHere) := do
  let (all, here) := r
  let power ← Power.ofSector size s
  let found := { all with power := all.power + power, remaining := all.remaining \ NumberSet.singleton s.number }
  if s.number ∈ entry.onTime then
    return (found, { here with active := here.active + power, faulty := here.faulty - power })
  else if s.number ∈ entry.early then
    return ({ found with moved := all.moved ++ [s] },
      { here with early := here.early ∪ NumberSet.singleton s.number, faulty := here.faulty - power })
  else
    return (all, here)

/-- Looks for the recovering sectors in an entry: on-time ones become active where they are, early ones are
taken out. -/
def recoverEntry (size : SectorSize) (sectors : List Sector) (all : Recovering) (entry : ExpirationSet) :
    Outcome (Recovering × ExpirationSet × Bool) := do
  let (all, here) ← foldOutcome (recoverSector size entry) (all, {}) sectors
  let entry := { entry with
    early := entry.early \ here.early
    active := entry.active + here.active
    faulty := entry.faulty + here.faulty }
  entry.validate
  return (all, entry, !all.remaining.isEmpty)

/-- Makes faulty sectors active again. Those at early places go back to their own expirations, with their
pledge. Answers the recovered power, and fails if a sector is not found. -/
def rescheduleRecovered (grid : Grid) (size : SectorSize) (q : ExpirationQueue) (sectors : List Sector) :
    Outcome (ExpirationQueue × Power) := do
  let start : Recovering := { remaining := NumberSet.ofList (sectors.map (·.number)) }
  let (all, q) ← within .array (walk (recoverEntry size sectors) q.entries start q)
  if !all.remaining.isEmpty then
    notFound all.remaining
  let (q, _) ← addActive grid size q all.moved
  return (q, all.power)

/-- What replacing sectors by others did to the queue. -/
structure Exchange where
  /-- The sectors that left. -/
  old : NumberSet
  /-- The sectors that came. -/
  new : NumberSet
  /-- The change of power. -/
  power : Power
  /-- The change of pledge. -/
  pledge : Int
  deriving DecidableEq, Repr

/-- Replaces active sectors by others. -/
def replace (grid : Grid) (size : SectorSize) (q : ExpirationQueue) (old new : List Sector) :
    Outcome (ExpirationQueue × Exchange) := do
  let (q, out) ← noting "failed to remove replaced sectors" (removeActive grid size q old)
  let (q, incoming) ← noting "failed to add replacement sectors" (addActive grid size q new)
  return (q, {
    old := out.numbers, new := incoming.numbers
    power := incoming.power - out.power, pledge := incoming.pledge - out.pledge })

/-- What a walk for faulty sectors has removed so far. -/
structure Removing where
  /-- Numbers still to be found. -/
  remaining : NumberSet
  /-- What was removed. -/
  removed : ExpirationSet
  /-- The power of the removed sectors that were recovering. -/
  recovering : Power := 0

/-- Looks for one faulty sector in an entry, and adds it to what is to leave the entry. -/
def removeFaulty (size : SectorSize) (recovering : NumberSet) (entry : ExpirationSet)
    (r : Removing × ExpirationSet) (s : Sector) : Outcome (Removing × ExpirationSet) := do
  let (all, leaving) := r
  let onTime := decide (s.number ∈ entry.onTime)
  if !onTime && !decide (s.number ∈ entry.early) then
    return (all, leaving)
  let power ← Power.ofSector size s
  let one := NumberSet.singleton s.number
  let leaving := { leaving with
    onTime := if onTime then leaving.onTime ∪ one else leaving.onTime
    early := if onTime then leaving.early else leaving.early ∪ one
    pledge := if onTime then leaving.pledge + s.pledge else leaving.pledge
    faulty := leaving.faulty + power }
  return ({ all with
    remaining := all.remaining \ one
    recovering := if s.number ∈ recovering then all.recovering + power else all.recovering }, leaving)

/-- Removes the faulty sectors that are in an entry. -/
def removeFromEntry (size : SectorSize) (recovering : NumberSet) (faulty : List Sector) (all : Removing)
    (entry : ExpirationSet) : Outcome (Removing × ExpirationSet × Bool) := do
  let (all, leaving) ← foldOutcome (removeFaulty size recovering entry) (all, ∅) faulty
  let entry := { entry with
    onTime := entry.onTime \ leaving.onTime
    early := entry.early \ leaving.early
    pledge := entry.pledge - leaving.pledge
    faulty := entry.faulty - leaving.faulty }
  entry.validate
  return ({ all with removed := all.removed.merge leaving }, entry, !all.remaining.isEmpty)

/-- Refuses a set of sectors that is too large to go through. -/
def requireFew (max : Nat) (what : String) (s : NumberSet) : Outcome Unit :=
  require (s.count ≤ max) (failed s!"failed to expand {what}: too many sectors {s.count}, max {max}")

/-- Removes sectors, active or faulty, from wherever they are. Answers what was removed, and the power of
those that were recovering. Fails if a sector is not found. -/
def removeSectors (grid : Grid) (size : SectorSize) (maxSectors : Nat) (q : ExpirationQueue) (sectors : List Sector)
    (faults recovering : NumberSet) : Outcome (ExpirationQueue × ExpirationSet × Power) := do
  requireFew maxSectors "faults" faults
  requireFew maxSectors "recoveries" recovering
  let (faulty, active) := sectors.partition fun s => decide (s.number ∈ faults)
  let (q, lot) ← noting "failed to remove on-time recoveries" (removeActive grid size q active)
  let start : Removing := {
    remaining := NumberSet.ofList (faulty.map (·.number))
    removed := { onTime := lot.numbers, active := lot.power, pledge := lot.pledge } }
  let (all, q) ← within .array (walk (removeFromEntry size recovering faulty) q.entries start q)
  if !all.remaining.isEmpty then
    notFound all.remaining
  return (q, all.removed, all.recovering)

/-- The entries that are due: those before the first whose epoch is later than `upTo`. -/
def due (q : ExpirationQueue) (upTo : Int) : List (Nat × ExpirationSet) :=
  q.entries.takeWhile fun e => Count.toEpoch e.1 ≤ upTo

/-- Takes out every entry that is due and merges them. -/
def popUntil (q : ExpirationQueue) (upTo : Int) : ExpirationQueue × ExpirationSet :=
  let popped := due q upTo
  (q.eraseAll (popped.map (·.1)), popped.foldl (fun s e => s.merge e.2) ∅)

/-- Visits each entry in ascending order of key. -/
def visit {σ : Type} (f : σ → Int → ExpirationSet → Outcome σ) (s : σ) (q : ExpirationQueue) : Outcome σ :=
  noting "failed to iterate expiration queue" <| within .array <|
    foldOutcome (fun s e => f s (Count.toEpoch e.1) e.2) s q.entries

end ExpirationQueue

end SectorLedger
