import SectorLedger.Deadline
import SectorLedger.Policy

/-!
# Assigning sectors to deadlines

New sectors are spread over the deadlines that are open to them, one at a time: each goes to the deadline
that comes first in an order of preference, which depends only on the deadline's counts.

* `Candidate.preference`: the order. First a deadline below its limit, then the fewest partitions after
  compaction, then the fewest before, then one with a partition to fill (the fullest), then the fewest live
  sectors, then the lowest index.
* `assignDeadlines`: the assignment, which keeps the candidates in a heap.
* `assignGreedily`: the same by looking through all candidates for each sector.
-/

namespace SectorLedger

/-- A deadline that is open to new sectors, with its counts so far. -/
structure Candidate where
  /-- The deadline's index. -/
  index : Nat
  /-- How many of its sectors have not ended. -/
  live : Nat
  /-- How many sectors it has. -/
  total : Nat
  deriving DecidableEq, Repr, Inhabited

/-- The limits of an assignment. -/
structure AssignmentLimits where
  /-- How many sectors a partition holds. -/
  partitionSize : Nat
  /-- How many partitions a deadline may have. -/
  maxPartitions : Nat
  deriving DecidableEq, Repr

/-- Quotient rounded up. -/
def ceilDiv (a b : Nat) : Nat := a / b + if a % b > 0 then 1 else 0

namespace Candidate

/-- Whether the deadline has as many sectors as it may. -/
def isFull (limits : AssignmentLimits) (c : Candidate) : Outcome Bool := do
  return c.total ≥ (← Count.mul limits.partitionSize limits.maxPartitions)

/-- How many partitions the deadline has with one more sector. -/
def partitionsAfter (limits : AssignmentLimits) (c : Candidate) : Outcome Nat := do
  return ceilDiv (← Count.add c.total 1) limits.partitionSize

/-- How many partitions the deadline has with one more sector, once it is compacted. -/
def compactPartitionsAfter (limits : AssignmentLimits) (c : Candidate) : Outcome Nat := do
  return ceilDiv (← Count.add c.live 1) limits.partitionSize

/-- Whether the last partition has no room. -/
def lastIsFull (limits : AssignmentLimits) (c : Candidate) : Bool := c.total % limits.partitionSize = 0

/-- Which of two deadlines gets the next sector: the lesser one. -/
def preference (limits : AssignmentLimits) (a b : Candidate) : Outcome Ordering := do
  let aFull ← a.isFull limits
  let bFull ← b.isFull limits
  if aFull != bFull then
    return compare aFull.toNat bFull.toNat
  let compact := compare (← a.compactPartitionsAfter limits) (← b.compactPartitionsAfter limits)
  if compact != .eq then
    return compact
  let partitions := compare (← a.partitionsAfter limits) (← b.partitionsAfter limits)
  let aLast := a.lastIsFull limits
  let bLast := b.lastIsFull limits
  let fullest := if !aLast && !bLast then compare b.total a.total else .eq
  return partitions.then <| (compare aLast.toNat bLast.toNat).then <| fullest.then <|
    (compare a.live b.live).then (compare a.index b.index)

/-- Whether the first deadline comes strictly before the second. -/
def before (limits : AssignmentLimits) (a b : Candidate) : Outcome Bool := do
  return (← preference limits a b) == .lt

/-- The deadline with one more sector. -/
def grow (c : Candidate) : Outcome Candidate := do
  return { c with live := ← Count.add c.live 1, total := ← Count.add c.total 1 }

end Candidate

/-- The deadlines that are open to new sectors. -/
def candidates (deadlines : List (Option Deadline)) : List Candidate :=
  deadlines.zipIdx.filterMap fun (d, i) => d.map fun d => ⟨i, d.live, d.total⟩

/-- A heap of candidates: none comes before its parent, so the first one is to get the next sector. -/
abbrev CandidateHeap : Type := Array Candidate

namespace CandidateHeap

/-- Moves a candidate down to where it belongs below its position. -/
def siftDown (limits : AssignmentLimits) (h : CandidateHeap) (i : Nat) : Outcome CandidateHeap :=
  if hr : 2 * i + 2 < h.size then do
    let left := h[2 * i + 1]
    let right := h[2 * i + 2]
    let leftFirst ← left.before limits right
    let child := if leftFirst then 2 * i + 1 else 2 * i + 2
    let swap ← (if leftFirst then left else right).before limits h[i]
    if swap then siftDown limits (h.swapIfInBounds i child) child else return h
  else if hl : 2 * i + 1 < h.size then do
    let swap ← h[2 * i + 1].before limits h[i]
    return if swap then h.swapIfInBounds i (2 * i + 1) else h
  else
    return h
termination_by h.size - i
decreasing_by
  simp only [Array.size_swapIfInBounds]
  split <;> omega

/-- The heap of some candidates: those with children are sifted down, the last first. -/
def ofList (limits : AssignmentLimits) (cs : List Candidate) : Outcome CandidateHeap :=
  foldOutcome (siftDown limits) cs.toArray (List.range (cs.length / 2)).reverse

end CandidateHeap

/-- Adds an element to the list at an index. An index out of bounds is a fault. -/
def pushAt {α : Type} (a : α) : Nat → List (List α) → Outcome (List (List α))
  | _, [] => .error .fault
  | 0, as :: rest => .ok ((as ++ [a]) :: rest)
  | i + 1, as :: rest => do return as :: (← pushAt a i rest)

/-- The words for an assignment to deadlines that are all full. -/
def allFull {α : Type} (limits : AssignmentLimits) : Outcome α :=
  failed s!"max partitions limit {limits.maxPartitions} reached for all deadlines"

/-- The words for an assignment without open deadlines. -/
def noneOpen {α : Type} : Outcome α := failed "no deadlines available for assignment"

/-- Gives a sector to the first candidate of the heap. -/
def assignNext (limits : AssignmentLimits) (state : CandidateHeap × List (List Sector)) (s : Sector) :
    Outcome (CandidateHeap × List (List Sector)) := do
  let (heap, changes) := state
  match heap[0]? with
  | none => noneOpen
  | some c =>
    if ← c.isFull limits then
      let _ ← CandidateHeap.siftDown limits heap 0
      allFull limits
    let changes ← pushAt s c.index changes
    let heap ← CandidateHeap.siftDown limits (heap.setIfInBounds 0 (← c.grow)) 0
    return (heap, changes)

/-- Assigns sectors to deadlines. Each deadline gets its sectors in the order in which they are given; a
deadline that is not open gets none. -/
def assignDeadlines (policy : Policy) (limits : AssignmentLimits) (deadlines : List (Option Deadline))
    (sectors : List Sector) : Outcome (List (List Sector)) := do
  if limits.partitionSize = 0 then
    failed "partition size must be positive"
  let heap ← CandidateHeap.ofList limits (candidates deadlines)
  let (_, changes) ← foldOutcome (assignNext limits) (heap, List.replicate policy.deadlines []) sectors
  return changes

/-- The first of the candidates in the order of preference. -/
def firstCandidate (limits : AssignmentLimits) : List Candidate → Outcome (Option Candidate)
  | [] => .ok none
  | c :: cs => do
    match ← firstCandidate limits cs with
    | none => return some c
    | some best => return some (if ← best.before limits c then best else c)

/-- Gives a sector to the first of the candidates. -/
def assignNextGreedily (limits : AssignmentLimits) (state : List Candidate × List (List Sector)) (s : Sector) :
    Outcome (List Candidate × List (List Sector)) := do
  let (open_, changes) := state
  match ← firstCandidate limits open_ with
  | none => noneOpen
  | some c =>
    if ← c.isFull limits then
      allFull limits
    let changes ← pushAt s c.index changes
    let grown ← c.grow
    return (open_.map fun d => if d.index = c.index then grown else d, changes)

/-- Assigns sectors to deadlines by looking through all candidates for each sector. -/
def assignGreedily (policy : Policy) (limits : AssignmentLimits) (deadlines : List (Option Deadline))
    (sectors : List Sector) : Outcome (List (List Sector)) := do
  let (_, changes) ← foldOutcome (assignNextGreedily limits)
    (candidates deadlines, List.replicate policy.deadlines []) sectors
  return changes

end SectorLedger
