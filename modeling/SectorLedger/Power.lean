import SectorLedger.Policy
import SectorLedger.Sector

/-!
# Power

The storage power of a sector: its raw bytes, and the same bytes weighted by what they store. Plain
space and space under ordinary deals count once, space under verified deals tenfold, averaged over the
sector's space and time.

* `quality`: the average, on a scale where plain space is `1024 * 1024`.
* `Power.ofSector`, `Power.ofSectors`: the power of one sector, and the sum over a list.
-/

namespace SectorLedger

/-- Raw bytes and weighted bytes. -/
structure Power where
  /-- Raw bytes. -/
  raw : Int
  /-- Weighted bytes. -/
  qa : Int
  deriving DecidableEq, Repr, Inhabited

namespace Power

/-- No power. -/
def zero : Power := ⟨0, 0⟩

instance : Zero Power := ⟨zero⟩

instance : Add Power := ⟨fun a b => ⟨a.raw + b.raw, a.qa + b.qa⟩⟩

instance : Sub Power := ⟨fun a b => ⟨a.raw - b.raw, a.qa - b.qa⟩⟩

instance : Neg Power := ⟨fun a => ⟨-a.raw, -a.qa⟩⟩

/-- Whether there is neither raw nor weighted power. -/
def isZero (p : Power) : Bool := p.raw == 0 && p.qa == 0

/-- How the power is shown inside a message. -/
def shown (p : Power) : String := "PowerPair \x7b raw: " ++ toString p.raw ++ ", qa: " ++ toString p.qa ++ " \x7d"

end Power

/-- The weight of plain space. -/
def plainMultiplier : Int := 10

/-- The weight of space under ordinary deals. -/
def dealMultiplier : Int := 10

/-- The weight of space under verified deals. -/
def verifiedMultiplier : Int := 100

/-- The quality of plain space. -/
def qualityScale : Int := 1024 * 1024

/-- Quotient rounded down; a division by zero is a fault. -/
def floorDiv (a b : Int) : Outcome Int := if b = 0 then .error .fault else .ok (a.fdiv b)

/-- The average weight over a sector's space and time, relative to plain space. -/
def quality (size : SectorSize) (duration : Int) (dealWeight verifiedWeight : Int) : Outcome Int := do
  let spaceTime := (size.bytes : Int) * duration
  let plain := (spaceTime - (dealWeight + verifiedWeight)) * plainMultiplier
  let weighted := plain + dealWeight * dealMultiplier + verifiedWeight * verifiedMultiplier
  floorDiv (← floorDiv (weighted * qualityScale) spaceTime) plainMultiplier

/-- The weighted bytes of a sector of the given size, duration and deals. -/
def weightedBytes (size : SectorSize) (duration : Int) (dealWeight verifiedWeight : Int) : Outcome Int := do
  let q ← quality size duration dealWeight verifiedWeight
  return ((size.bytes : Int) * q).fdiv qualityScale

namespace Power

/-- The weighted bytes of a sector over its lifetime. -/
def weightedOf (size : SectorSize) (s : Sector) : Outcome Int := do
  let duration ← Epoch.sub s.expiration s.activation
  weightedBytes size duration s.dealWeight s.verifiedWeight

/-- The power of a sector. -/
def ofSector (size : SectorSize) (s : Sector) : Outcome Power := do
  return ⟨size.bytes, ← weightedOf size s⟩

/-- The power of a list of sectors. -/
def ofSectors (size : SectorSize) (ss : List Sector) : Outcome Power := do
  let qa ← ss.foldlM (fun sum s => return sum + (← weightedOf size s)) 0
  return ⟨size.bytes * ss.length, qa⟩

end Power

/-- The most deals that a sector can hold. -/
def sectorDealsMax (size : SectorSize) : Nat := max 256 (size.bytes / (128 * 1024 * 1024))

/-- The most partitions loaded at once when all their sectors are loaded too. -/
def loadPartitionsMax (policy : Policy) (partitionSectors : Nat) : Outcome Nat := do
  return min (← Count.div policy.addressedSectorsMax partitionSectors) policy.addressedPartitionsMax

end SectorLedger
