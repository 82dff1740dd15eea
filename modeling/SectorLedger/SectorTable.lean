import SectorLedger.NumberSet
import SectorLedger.Sector
import SectorLedger.SparseArray

/-!
# Tables of sectors

What is recorded about each proven sector, by its number.

* `SectorTable.loadAll`: the records of a set of sectors, all of which must exist.
* `SectorTable.loadMasked`: the records for a proof, where a stand-in takes the place of faulty sectors.
* `selectSectors`: the sectors of a list whose numbers are asked for.
-/

namespace SectorLedger

/-- Sector records by number. -/
abbrev SectorTable : Type := SparseArray Sector

/-- The greatest number that a sector may have. -/
def greatestSectorNumber : Nat := 0x7fffffffffffffff

namespace SectorTable

/-- The table of some sectors. Of two with one number the later one stays. -/
def ofList (sectors : List Sector) : SectorTable := SparseArray.ofEntries (sectors.map fun s => (s.number, s))

/-- The records of all sectors of a set, in ascending order. -/
def loadAll (t : SectorTable) (numbers : NumberSet) : Outcome (List Sector) :=
  numbers.mapMembers fun n => do
    match ← refusing .illegalState s!"failed to load sector {n}" (SparseArray.read t n) with
    | some s => return s
    | none => refused .notFound s!"sector not found: {n}"

/-- The record of a sector, if there is one. -/
def find (t : SectorTable) (n : Nat) : Outcome (Option Sector) :=
  noting s!"failed to get sector {n}" (SparseArray.read t n)

/-- The record of a sector, which must exist. -/
def get (t : SectorTable) (n : Nat) : Outcome Sector := do
  match ← find t n with
  | some s => return s
  | none => refused .notFound s!"sector {n} not found"

/-- Records sectors under their numbers. -/
def store (t : SectorTable) (sectors : List Sector) : Outcome SectorTable :=
  foldOutcome (fun t s =>
    if s.number > greatestSectorNumber then failed s!"sector number {s.number} out of range"
    else noting s!"failed to store sector {s.number}" (SparseArray.write t s.number s)) t sectors

/-- The most records that one sequence has room for: each takes 360 bytes, of less than 2^63 in all. -/
def sequenceMax : Nat := 0x7fffffffffffffff / 360

/-- The records of a sequence of sectors, with the stand-in's record for each faulty one. Room is made for the
whole sequence first. -/
def loadMasked (t : SectorTable) (sectors faults : NumberSet) (standIn : Nat) : Outcome (List Sector) := do
  let other ← get t standIn
  if sectors.count > sequenceMax then
    .error .fault
  sectors.mapMembers fun n => if n ∈ faults then return other else get t n

/-- The records for a proof of the given sectors. The first that is not faulty stands in for those that
are; if all are faulty there is nothing to prove. -/
def loadForProof (t : SectorTable) (proven faults : NumberSet) : Outcome (List Sector) :=
  match (proven \ faults).first? with
  | some standIn => loadMasked t proven faults standIn
  | none => return []

end SectorTable

/-- The sectors of a list whose numbers are in the set, in the list's order, each number once. Fails if a
number is missing. -/
def selectSectors (sectors : List Sector) (wanted : NumberSet) : Outcome (List Sector) := do
  let (found, missing) := sectors.foldl (fun (found, missing) s =>
    if s.number ∈ missing then (found ++ [s], missing \ NumberSet.singleton s.number) else (found, missing))
    (([] : List Sector), wanted)
  if !missing.isEmpty then
    failed s!"failed to find {missing.count} expected sectors"
  return found

end SectorLedger
