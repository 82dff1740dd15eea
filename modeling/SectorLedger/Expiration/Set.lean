import SectorLedger.NumberSet
import SectorLedger.Power

/-!
# Expiration sets

The sectors that expire at one epoch: on time at the end of their life, or early because they were
faulty for too long. With them goes what the ledger will lose: the pledge of the on-time sectors and the
power of all of them, split into active and faulty. Early sectors are faulty; a sector that became faulty
shortly before its end stays on time.

* `ExpirationSet.add`, `ExpirationSet.remove`: both refuse to leave a negative total.
* `ExpirationSet.validate`: no total is negative.
-/

namespace SectorLedger

/-- The sectors that expire at one epoch, with their totals. -/
structure ExpirationSet where
  /-- Sectors at the end of their life. -/
  onTime : NumberSet := ∅
  /-- Sectors ended early. -/
  early : NumberSet := ∅
  /-- The pledge of the on-time sectors. -/
  pledge : Int := 0
  /-- The power that is active. -/
  active : Power := 0
  /-- The power that is faulty. -/
  faulty : Power := 0
  deriving DecidableEq, Repr

namespace ExpirationSet

/-- No sectors and no totals. -/
def empty : ExpirationSet := {}

instance : EmptyCollection ExpirationSet := ⟨empty⟩

instance : Inhabited ExpirationSet := ⟨empty⟩

/-- Whether there are no sectors. The totals are then expected to be zero. -/
def isEmpty (s : ExpirationSet) : Bool := s.onTime.isEmpty && s.early.isEmpty

/-- How many sectors there are. -/
def count (s : ExpirationSet) : Outcome Nat := Count.add s.onTime.count s.early.count

/-- The first total that is negative, by name. -/
def negativeTotal? (s : ExpirationSet) : Option String :=
  if s.pledge < 0 then some "pledge"
  else if s.active.raw < 0 then some "raw active power"
  else if s.active.qa < 0 then some "qa active power"
  else if s.faulty.raw < 0 then some "raw faulty power"
  else if s.faulty.qa < 0 then some "qa faulty power"
  else none

/-- Refuses a negative total. -/
def validate (s : ExpirationSet) : Outcome Unit :=
  match s.negativeTotal? with
  | some what => refused .illegalState s!"expiration set left with negative {what}: <dump>"
  | none => .ok ()

/-- Unites the sectors and adds the totals. -/
def merge (s t : ExpirationSet) : ExpirationSet where
  onTime := s.onTime ∪ t.onTime
  early := s.early ∪ t.early
  pledge := s.pledge + t.pledge
  active := s.active + t.active
  faulty := s.faulty + t.faulty

/-- Adds sectors and totals. -/
def add (s t : ExpirationSet) : Outcome ExpirationSet := do
  let sum := s.merge t
  sum.validate
  return sum

/-- Removes sectors, which must all be there, and totals, which must not exceed what is there. -/
def remove (s t : ExpirationSet) : Outcome ExpirationSet := do
  let listed (ns : NumberSet) : String := NumberSet.shownList ns.elements
  if !s.onTime.containsAll t.onTime then
    refused .illegalState
      s!"removing on-time sectors {listed t.onTime} not contained in {listed s.onTime}"
  if !s.early.containsAll t.early then
    refused .illegalState s!"removing early sectors {listed t.early} not contained in {listed s.early}"
  let rest : ExpirationSet := {
    onTime := s.onTime \ t.onTime
    early := s.early \ t.early
    pledge := s.pledge - t.pledge
    active := s.active - t.active
    faulty := s.faulty - t.faulty }
  if rest.pledge < 0 then
    refused .illegalState "expiration set pledge underflow: <dump>"
  if rest.active.qa < 0 ∨ rest.faulty.qa < 0 then
    refused .illegalState "expiration set power underflow: <dump>"
  rest.validate
  return rest

end ExpirationSet

end SectorLedger
