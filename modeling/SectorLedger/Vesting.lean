import SectorLedger.Amount
import SectorLedger.Grid
import SectorLedger.Policy

/-!
# Vesting

Rewards are locked and become free over time. The vesting table lists what becomes free when, with one
entry for an epoch, in ascending order.

* `VestingTable.unlockVested`: takes out the entries before an epoch, found by halving
  (`vestedCount_eq_length_takeWhile`).
* `VestingTable.lock`: adds the entries of a linear schedule.
* `VestingTable.unlockUnvested`: takes out up to an amount of what has not become free yet, the earliest
  entries first.
-/

namespace SectorLedger

/-- A linear vesting schedule. -/
structure VestingSpec where
  /-- The delay before anything vests. -/
  initialDelay : Int
  /-- How long it takes until everything has vested, after the delay. -/
  vestPeriod : Int
  /-- The time between two releases. -/
  stepDuration : Int
  /-- The distance between the epochs at which something may vest. -/
  quantization : Int
  deriving DecidableEq, Repr, Inhabited

/-- The schedule for the rewards of producing blocks. -/
def rewardVesting : VestingSpec where
  initialDelay := 0
  vestPeriod := 180 * epochsInDay
  stepDuration := epochsInDay
  quantization := 12 * epochsInHour

/-- An amount that becomes free at an epoch. -/
structure Instalment where
  /-- When it becomes free. -/
  epoch : Int
  /-- How much it is. -/
  amount : Int
  deriving DecidableEq, Repr, Inhabited

namespace Instalment

/-- How an instalment is shown inside a message. -/
def shown (i : Instalment) : String :=
  "VestingFund \x7b epoch: " ++ toString i.epoch ++ ", amount: " ++ Amount.tagged i.amount ++ " \x7d"

end Instalment

/-- What becomes free when, in ascending order of epoch. -/
abbrev VestingTable : Type := List Instalment

namespace VestingTable

/-- The sum of all amounts. -/
def total : VestingTable → Int
  | [] => 0
  | e :: rest => e.amount + total rest

/-- The sum of what has vested before an epoch. -/
def vestedBefore (t : VestingTable) (now : Int) : Int := total (t.takeWhile (·.epoch < now))

/-- How many entries have vested before an epoch. The entry in the middle decides which half is searched
on, so the count is exact only for a table in ascending order. -/
def vestedCount (now : Int) (t : VestingTable) : Nat :=
  let half := t.length / 2
  if half = 0 then t.countP (·.epoch < now)
  else if (t.drop half).head?.any (·.epoch < now) then half + vestedCount now (t.drop half)
  else vestedCount now (t.take (t.length - half))
termination_by t.length

/-- Entries after one that has not vested do not lengthen the vested front. -/
theorem takeWhile_append_of_head? (p : Instalment → Bool) (front back : VestingTable)
    (h : back.head?.any p = false) : (front ++ back).takeWhile p = front.takeWhile p := by
  have hb : back.takeWhile p = [] := by cases back <;> simp_all
  rw [List.takeWhile_append, hb]
  split
  · next hl => rw [List.append_nil]; exact ((List.takeWhile_prefix p).eq_of_length hl).symm
  · rfl

/-- In an ascending table the halving search counts the entries in front of the first one that has not
vested. -/
theorem vestedCount_eq_length_takeWhile (now : Int) (t : VestingTable)
    (h : t.Pairwise (·.epoch ≤ ·.epoch)) :
    t.vestedCount now = (t.takeWhile (·.epoch < now)).length := by
  fun_induction vestedCount now t with
  | case1 t half hz =>
    have hle : t.length ≤ 1 := by omega
    match t, hle with
    | [], _ => rfl
    | [e], _ => by_cases he : e.epoch < now <;> simp [he]
  | case2 t half hz hm ih =>
    obtain ⟨mid, hmid, hp⟩ := (Option.any_eq_true ..).1 hm
    have hs : t.take half ++ t.drop half = t := List.take_append_drop half t
    rw [← hs, List.pairwise_append] at h
    have hf : ∀ e ∈ t.take half, (decide (e.epoch < now)) = true := fun e he => by
      have := h.2.2 e he mid (List.mem_of_mem_head? hmid)
      simp only [decide_eq_true_eq] at hp ⊢
      omega
    have hl : (t.take half).length = half := by simp only [half, List.length_take]; omega
    calc half + vestedCount now (t.drop half)
      _ = (t.take half).length + ((t.drop half).takeWhile (·.epoch < now)).length := by rw [ih h.2.1, hl]
      _ = (t.takeWhile (·.epoch < now)).length := by
        rw [← List.length_append, ← List.takeWhile_append_of_pos hf, hs]
  | case3 t half hz hm ih =>
    have hm : (t.drop half).head?.any (·.epoch < now) = false := by simpa using hm
    have hs : t.take half ++ t.drop half = t := List.take_append_drop half t
    have hw : t.takeWhile (·.epoch < now) = (t.take half).takeWhile (·.epoch < now) := by
      conv => lhs; rw [← hs]
      exact takeWhile_append_of_head? _ _ _ hm
    have hk : half + (t.length - half - half) = t.length - half := by simp only [half]; omega
    rw [ih (h.sublist (List.take_sublist ..)), hw, ← hk, List.take_add, takeWhile_append_of_head?]
    cases hn : t.length - half - half with
    | zero => simp
    | succ n => simpa [List.head?_take] using hm

/-- Takes out what has vested before an epoch. Answers the sum. -/
def unlockVested (t : VestingTable) (now : Int) : VestingTable × Int :=
  let n := t.vestedCount now
  (t.drop n, total (t.take n))

/-- How much of a sum has vested when the given time has passed: its share of the vesting period, rounded
down, and all of it in the end. -/
def vestedShare (spec : VestingSpec) (sum : Int) (elapsed : Int) : Outcome Int :=
  if elapsed < spec.vestPeriod then
    if spec.vestPeriod = 0 then .error .fault else .ok ((sum * elapsed).fdiv spec.vestPeriod)
  else .ok sum

/-- The releases after an epoch, when some of the sum has vested already. Each step is rounded up to the
grid. A step of no length that does not finish the schedule is a fault. -/
def releases (spec : VestingSpec) (grid : Grid) (begins : Int) (sum : Int) (epoch : Int) (vested : Int) :
    Outcome (List Instalment) :=
  if vested ≥ sum then .ok []
  else
    match _h : Epoch.add epoch spec.stepDuration with
    | .error e => .error e
    | .ok next => do
      let release ← grid.up next
      let share ← vestedShare spec sum (← Epoch.sub release begins)
      if _hs : spec.stepDuration = 0 then
        if share ≥ sum then return [⟨release, share - vested⟩] else .error .fault
      else
        return ⟨release, share - vested⟩ :: (← releases spec grid begins sum next share)
termination_by if 0 < spec.stepDuration then (0x8000000000000000 - epoch).toNat else (epoch + 0x8000000000000000).toNat
decreasing_by
  obtain ⟨⟨hlo, hhi⟩, rfl⟩ := Epoch.checked_eq_ok_iff.1 _h
  by_cases hp : 0 < spec.stepDuration <;> simp only [hp, if_true, if_false] <;> omega

/-- Joins neighbouring instalments of one epoch. -/
def coalesce : List Instalment → List Instalment
  | [] => []
  | a :: rest =>
    match coalesce rest with
    | [] => [a]
    | b :: more => if a.epoch = b.epoch then ⟨a.epoch, a.amount + b.amount⟩ :: more else a :: b :: more

/-- Merges two tables in order of epoch, and adds the amounts of one epoch. -/
def merge : List Instalment → List Instalment → List Instalment
  | [], bs => bs
  | as, [] => as
  | a :: as, b :: bs =>
    if a.epoch < b.epoch then a :: merge as (b :: bs)
    else if b.epoch < a.epoch then b :: merge (a :: as) bs
    else ⟨a.epoch, a.amount + b.amount⟩ :: merge as bs
termination_by as bs => as.length + bs.length

/-- Schedules a sum to vest linearly. The releases lie on the grid of the schedule's quantization, counted
from the start of the proving period. -/
def lock (t : VestingTable) (now : Int) (sum : Int) (periodStart : Int) (spec : VestingSpec) :
    Outcome VestingTable := do
  let begins ← Epoch.add now spec.initialDelay
  let new ← releases spec ⟨spec.quantization, periodStart⟩ begins sum begins 0
  return merge t (coalesce new)

/-- How far the unlocking of unvested amounts has come. -/
structure Unlocking where
  /-- The entries gone through, with what is left of them. -/
  entries : List Instalment := []
  /-- The sum unlocked. -/
  unlocked : Int := 0
  /-- Where the entries to remove start: after the last vested one. -/
  start : Nat := 0
  /-- The last entry of which nothing is left. -/
  lastEmptied : Option Nat := none

/-- Unlocks what is still wanted of one entry. Entries that have vested already stay as they are. -/
def unlockEntry (now : Int) (target : Int) (u : Unlocking) (e : Instalment) : Unlocking :=
  let i := u.entries.length
  if u.unlocked ≥ target then { u with entries := u.entries ++ [e] }
  else if e.epoch < now then { u with entries := u.entries ++ [e], start := i + 1 }
  else
    let taken := min (target - u.unlocked) e.amount
    let rest := e.amount - taken
    { u with
      unlocked := u.unlocked + taken
      lastEmptied := if rest = 0 then some i else u.lastEmptied
      entries := u.entries ++ [if rest = 0 then e else { e with amount := rest }] }

/-- Unlocks up to an amount of what has not vested yet, the earliest entries first. Answers how much. -/
def unlockUnvested (t : VestingTable) (now : Int) (target : Int) : Outcome (VestingTable × Int) :=
  let u := t.foldl (unlockEntry now target) {}
  match u.lastEmptied with
  | none => .ok (u.entries, u.unlocked)
  | some last =>
    if last + 1 < u.start then .error .fault
    else .ok (u.entries.take u.start ++ u.entries.drop (last + 1), u.unlocked)

end VestingTable

end SectorLedger
