import SectorLedger.Grid
import SectorLedger.Policy

/-!
# Proving windows

A proving period is divided into windows, one for each deadline. A window is seen from a current epoch;
the questions about it are answered by comparing epochs.

* `Window.make`: the window of a deadline in a period.
* `Window.nextNotElapsed`: its next occurrence that has not closed.
* `Window.containing`, `Window.atEpoch`: which deadline is current.
* `deadlineIsMutable`: a deadline may change while it is neither open nor next to open.
-/

namespace SectorLedger

/-- The window of one deadline, seen from a current epoch. -/
structure Window where
  /-- The epoch from which it is seen. -/
  now : Int
  /-- The first epoch of the proving period. -/
  periodStart : Int
  /-- The deadline's index. -/
  index : Nat
  /-- The first epoch at which a proof is accepted. -/
  opens : Int
  /-- The first epoch at which a proof is no longer accepted. -/
  closes : Int
  /-- The epoch whose randomness is challenged. -/
  challenge : Int
  /-- The first epoch at which a fault declaration is refused. -/
  faultsClose : Int
  /-- The clock of proving. -/
  timing : Timing
  deriving DecidableEq, Repr, Inhabited

namespace Window

/-- The window of a deadline in the period that starts at `periodStart`. An index past the last deadline
gives an empty window at the end of the period. -/
def make (timing : Timing) (periodStart : Int) (index : Nat) (now : Int) : Outcome Window := do
  if index < timing.deadlines then
    let opens ← Epoch.add periodStart (← Epoch.mul (Count.toEpoch index) timing.window)
    return {
      now, periodStart, index, opens, timing
      closes := ← Epoch.add opens timing.window
      challenge := ← Epoch.sub opens timing.lookback
      faultsClose := ← Epoch.sub opens timing.faultCutoff }
  else
    let after ← Epoch.add periodStart timing.period
    return { now, periodStart, index, timing, opens := after, closes := after, challenge := after, faultsClose := 0 }

/-- Whether the period has begun. -/
def periodStarted (w : Window) : Bool := w.periodStart ≤ w.now

/-- The first epoch of the next period. -/
def nextPeriodStart (w : Window) : Outcome Int := Epoch.add w.periodStart w.timing.period

/-- Whether the period is over. -/
def periodElapsed (w : Window) : Outcome Bool := return (← w.nextPeriodStart) ≤ w.now

/-- The last epoch of the period. -/
def periodEnd (w : Window) : Outcome Int := do Epoch.sub (← w.nextPeriodStart) 1

/-- Whether a proof is accepted now. -/
def isOpen (w : Window) : Bool := w.opens ≤ w.now && w.now < w.closes

/-- Whether the window has closed. -/
def hasElapsed (w : Window) : Bool := w.closes ≤ w.now

/-- The last epoch at which a proof is accepted. -/
def last (w : Window) : Outcome Int := Epoch.sub w.closes 1

/-- The epoch at which the following window opens. -/
def nextOpen (w : Window) : Int := w.closes

/-- Whether it is too late to declare faults. -/
def faultsClosed (w : Window) : Bool := w.faultsClose ≤ w.now

/-- The next occurrence of the deadline's window that has not closed. -/
def nextNotElapsed (w : Window) : Outcome Window := do
  if !w.hasElapsed then
    return w
  let gap ← Epoch.sub w.now w.closes
  let periods ← Epoch.add 1 (← Epoch.div gap w.timing.period)
  let start ← Epoch.add w.periodStart (← Epoch.mul w.timing.period periods)
  make w.timing start w.index w.now

/-- The grid of the last epochs of the deadline's windows. -/
def grid (w : Window) : Outcome Grid := return ⟨w.timing.period, ← w.last⟩

/-- The deadline that is current at an epoch, for a period that starts at `periodStart`. Whole periods
are left out, and an epoch before the start belongs to the first deadline. -/
def containing (timing : Timing) (periodStart now : Int) : Outcome Window := do
  let elapsed ← Epoch.sub now periodStart
  let progress ← if elapsed ≥ timing.period then Epoch.rem elapsed timing.period else pure elapsed
  let index ← if progress < 0 then pure 0 else Epoch.toCount <$> Epoch.div progress timing.window
  make timing periodStart index now

/-- The current deadline and its period, for periods that start at the points congruent to `seed`. -/
def atEpoch (timing : Timing) (seed now : Int) : Outcome Window := do
  let start ← (Grid.mk timing.period seed).down now
  let progress ← Epoch.div (← Epoch.sub now start) timing.window
  let index ← Count.rem (Epoch.toCount progress) timing.deadlines
  make timing start index now

end Window

/-- Whether a deadline may still be changed: its next window is more than one window away. -/
def deadlineIsMutable (timing : Timing) (periodStart : Int) (index : Nat) (now : Int) : Outcome Bool := do
  let w ← (← Window.make timing periodStart index now).nextNotElapsed
  return now < (← Epoch.sub w.opens timing.window)

/-- Whether a deadline may be compacted: it is neither being challenged nor next. -/
def deadlineAvailableForCompaction (timing : Timing) (periodStart : Int) (index : Nat) (now : Int) :
    Outcome Bool := deadlineIsMutable timing periodStart index now

/-- The start of the period that contains an epoch, for periods that begin `offset` epochs after the
multiples of their length. -/
def provingPeriodStart (timing : Timing) (now offset : Int) : Outcome Int := do
  let modulus ← Epoch.mod now timing.period
  let progress ←
    if modulus ≥ offset then Epoch.sub modulus offset
    else Epoch.sub timing.period (← Epoch.sub offset modulus)
  Epoch.sub now progress

/-- The index of the deadline that is open at an epoch, in the period that starts at `periodStart`. -/
def deadlineIndexAt (timing : Timing) (now periodStart : Int) : Outcome Nat := do
  return Epoch.toCount (← Epoch.div (← Epoch.sub now periodStart) timing.window)

end SectorLedger
