import SectorLedger.Proofs.Grid
import SectorLedger.Window
import Mathlib.Data.Int.ModEq

/-!
# Windows tile the time

A proving period is tiled by its windows, and the time by proving periods. So an epoch lies in exactly one window, whose
period starts as many epochs ago as the distance from any earlier start leaves over. The schedule is computed in several
ways, which differ in how they treat epochs before the start and whole periods in between.

* `Window.plan`, `make_total`: a window in unbounded numbers, and when it can be computed.
* `Window.current`: the window in which an epoch lies, from the remainder of its distance to a start.
* `atEpoch_eq`, `provingPeriodStart_eq`, `deadlineIndexAt_eq`, `containing_eq`, `nextNotElapsed_eq`: the calculations.
* `schedules_agree`: they describe the same window.
-/

namespace SectorLedger

namespace Window

variable {timing : Timing} {start seed now : Int} {i : Nat} {w : Window}

/-! ### Computing a window -/

/-- What a window looks like that has been computed: one window long, or empty if the index is past the last deadline. -/
theorem make_spec (h : make timing start i now = .ok w) :
    w.periodStart = start ∧ w.index = i ∧ w.now = now ∧ w.timing = timing ∧
      (i < timing.deadlines ∧ w.opens = start + Count.toEpoch i * timing.window ∧ w.closes = w.opens + timing.window ∨
        timing.deadlines ≤ i ∧ w.opens = start + timing.period ∧ w.closes = w.opens) := by
  unfold make at h
  split at h
  · next hi =>
    simp only [bind_eq_ok, Epoch.mul_eq_ok, Epoch.add_eq_ok, pure_eq_ok] at h
    obtain ⟨_, ⟨-, rfl⟩, _, ⟨-, rfl⟩, _, ⟨-, rfl⟩, _, -, _, -, rfl⟩ := h
    exact ⟨rfl, rfl, rfl, rfl, .inl ⟨hi, rfl, rfl⟩⟩
  · next hi =>
    simp only [bind_eq_ok, Epoch.add_eq_ok, pure_eq_ok] at h
    obtain ⟨_, ⟨-, rfl⟩, rfl⟩ := h
    exact ⟨rfl, rfl, rfl, rfl, .inr ⟨not_lt.1 hi, rfl, rfl⟩⟩

/-- Only a fault keeps a window from being computed. -/
theorem wordless_make (timing : Timing) (start : Int) (i : Nat) (now : Int) :
    Wordless (make timing start i now) := by
  refine .ite ?_ (.bind (.epoch _) fun _ => .ok _)
  exact .bind (.epoch _) fun _ => .bind (.epoch _) fun _ => .bind (.epoch _) fun _ => .bind (.epoch _) fun _ =>
    .bind (.epoch _) fun _ => .ok _

/-- The window of a deadline, computed with unbounded numbers. -/
def plan (timing : Timing) (start : Int) (i : Nat) (now : Int) : Window where
  now
  periodStart := start
  index := i
  opens := start + i * timing.window
  closes := start + i * timing.window + timing.window
  challenge := start + i * timing.window - timing.lookback
  faultsClose := start + i * timing.window - timing.faultCutoff
  timing

/-- The window of a deadline can be computed, if the numbers in it are in range. -/
theorem make_total {timing : Timing} {start : Int} {i : Nat} (hi : i < timing.deadlines) (hw : 0 < timing.window)
    (hperiod : timing.period = timing.deadlines * timing.window) (hrange : Epoch.InRange timing.period)
    (hstart : Epoch.InRange start) (hnext : Epoch.InRange (start + timing.period))
    (hchallenge : Epoch.InRange (start + i * timing.window - timing.lookback))
    (hfaults : Epoch.InRange (start + i * timing.window - timing.faultCutoff)) (now : Int) :
    make timing start i now = .ok (plan timing start i now) := by
  -- The window lies in the period.
  have hle : (i + 1 : Int) * timing.window ≤ timing.deadlines * timing.window :=
    Int.mul_le_mul_of_nonneg_right (by omega) hw.le
  have hsplit : (i + 1 : Int) * timing.window = i * timing.window + timing.window := by ring
  have hnonneg : 0 ≤ (i : Int) * timing.window := Int.mul_nonneg (Int.natCast_nonneg i) hw.le
  have hword : (i : Int) ≤ i * timing.window := le_mul_of_one_le_right (Int.natCast_nonneg i) hw
  have hcast : Count.toEpoch i = i := Count.toEpoch_of_lt (by unfold Epoch.InRange at hrange; omega)
  have hbetween : ∀ x : Int, start ≤ x → x ≤ start + timing.period → Epoch.InRange x := fun x => hstart.between hnext
  have hoffset : Epoch.InRange (i * timing.window) := by
    unfold Epoch.InRange at hrange ⊢
    omega
  simp only [make, if_pos hi, bind_eq_ok, Epoch.mul_eq_ok, Epoch.add_eq_ok, Epoch.sub_eq_ok, pure_eq_ok, hcast]
  exact ⟨_, ⟨hoffset, rfl⟩, _, ⟨hbetween _ (by omega) (by omega), rfl⟩, _,
    ⟨hbetween _ (by omega) (by omega), rfl⟩, _, ⟨hchallenge, rfl⟩, _, ⟨hfaults, rfl⟩, rfl⟩

/-- A window that has not closed is its own next occurrence. -/
theorem nextNotElapsed_of_lt (h : w.now < w.closes) : w.nextNotElapsed = .ok w := by
  have helapsed : w.hasElapsed = false := decide_eq_false (not_le.2 h)
  rw [nextNotElapsed, helapsed]
  rfl

/-- A window that has closed is moved on by the whole periods since then, and one more. -/
theorem nextNotElapsed_of_le (hpos : 0 < w.timing.period) (h : w.closes ≤ w.now) {periods : Int}
    (hperiods : (w.now - w.closes) / w.timing.period = periods - 1) (hgap : Epoch.InRange (w.now - w.closes))
    (hwhole : Epoch.InRange (w.timing.period * periods))
    (hstart : Epoch.InRange (w.periodStart + w.timing.period * periods)) :
    w.nextNotElapsed = make w.timing (w.periodStart + w.timing.period * periods) w.index w.now := by
  have helapsed : w.hasElapsed = true := decide_eq_true h
  have hcount : Epoch.InRange periods := by
    have := hwhole.tdiv hpos
    rwa [Int.mul_tdiv_cancel_left _ hpos.ne'] at this
  have hdiv : Epoch.div (w.now - w.closes) w.timing.period = .ok (periods - 1) := by
    refine (Grid.div_eq_ok hpos).2 ⟨hgap.tdiv hpos, ?_⟩
    rw [Int.tdiv_eq_ediv_of_nonneg (Int.sub_nonneg.2 h), hperiods]
  have hnext : Epoch.add 1 (periods - 1) = .ok periods := by
    rw [Epoch.add_eq_ok, add_sub_cancel]
    exact ⟨hcount, rfl⟩
  rw [nextNotElapsed, helapsed, Epoch.sub_eq_ok.2 ⟨hgap, rfl⟩, ok_bind]
  show (do
    let gap ← Epoch.div (w.now - w.closes) w.timing.period
    let periods ← Epoch.add 1 gap
    let whole ← Epoch.mul w.timing.period periods
    let start ← Epoch.add w.periodStart whole
    make w.timing start w.index w.now) = _
  rw [hdiv, ok_bind, hnext, ok_bind, Epoch.mul_eq_ok.2 ⟨hwhole, rfl⟩, ok_bind, Epoch.add_eq_ok.2 ⟨hstart, rfl⟩, ok_bind]

/-! ### The window in which an epoch lies -/

/-- How far the period in which an epoch lies has come, when periods start at the points congruent to `seed`. -/
def progress (timing : Timing) (seed now : Int) : Int := (now - seed) % timing.period

/-- The window in which an epoch lies. -/
def current (timing : Timing) (seed now : Int) : Window :=
  plan timing (now - progress timing seed now) (progress timing seed now / timing.window).toNat now

/-- The windows of a period follow each other without a gap and fill it. -/
structure Tiled (timing : Timing) : Prop where
  /-- Windows are not empty. -/
  window_pos : 0 < timing.window
  /-- There are some. -/
  deadlines_pos : 0 < timing.deadlines
  /-- They tile the proving period. -/
  period_eq : timing.period = timing.deadlines * timing.window

namespace Tiled

variable (h : Tiled timing)
include h

theorem period_pos : 0 < timing.period := by
  rw [h.period_eq]
  exact Int.mul_pos (Int.natCast_pos.2 h.deadlines_pos) h.window_pos

theorem progress_nonneg (seed now : Int) : 0 ≤ progress timing seed now := Int.emod_nonneg _ h.period_pos.ne'

theorem progress_lt (seed now : Int) : progress timing seed now < timing.period := Int.emod_lt_of_pos _ h.period_pos

/-- The index is the quotient, which needs no rounding to a count. -/
theorem index_eq (seed now : Int) :
    ((current timing seed now).index : Int) = progress timing seed now / timing.window :=
  Int.toNat_of_nonneg (Int.ediv_nonneg (h.progress_nonneg seed now) h.window_pos.le)

theorem index_lt (seed now : Int) : (current timing seed now).index < timing.deadlines := by
  have hlt : progress timing seed now / timing.window < timing.deadlines :=
    Int.ediv_lt_of_lt_mul h.window_pos (h.period_eq ▸ h.progress_lt seed now)
  rw [← h.index_eq] at hlt
  exact Int.ofNat_lt.1 hlt

/-- The window ends in its period. -/
theorem succ_index_mul_le (seed now : Int) :
    ((current timing seed now).index + 1 : Int) * timing.window ≤ timing.period := by
  have hlt := h.index_lt seed now
  rw [h.period_eq]
  exact Int.mul_le_mul_of_nonneg_right (by omega) h.window_pos.le

/-- The window is open. -/
theorem opens_le_and_lt_closes (seed now : Int) :
    (current timing seed now).opens ≤ now ∧ now < (current timing seed now).closes := by
  have hsplit := Int.mul_ediv_add_emod (progress timing seed now) timing.window
  have hrest := Int.emod_nonneg (progress timing seed now) h.window_pos.ne'
  have hlt := Int.emod_lt_of_pos (progress timing seed now) h.window_pos
  rw [← h.index_eq, mul_comm] at hsplit
  show now - progress timing seed now + (current timing seed now).index * timing.window ≤ now ∧
    now < now - progress timing seed now + (current timing seed now).index * timing.window + timing.window
  constructor <;> linarith

end Tiled

/-- The time since the seed is whole periods and the progress in the last of them. -/
theorem mul_div_add_progress (timing : Timing) (seed now : Int) :
    timing.period * ((now - seed) / timing.period) + progress timing seed now = now - seed :=
  Int.mul_ediv_add_emod (now - seed) timing.period

/-- Periods start at the points congruent to the seed. -/
theorem dvd_periodStart (timing : Timing) (seed now : Int) :
    timing.period ∣ (current timing seed now).periodStart - seed := by
  refine ⟨(now - seed) / timing.period, ?_⟩
  have hsplit := mul_div_add_progress timing seed now
  show now - progress timing seed now - seed = _
  linarith

/-- Any other start does as well as the seed. -/
theorem current_congr {seed' : Int} (h : timing.period ∣ seed' - seed) (now : Int) :
    current timing seed' now = current timing seed now := by
  have hsame : progress timing seed' now = progress timing seed now := by
    refine Int.emod_eq_emod_iff_emod_sub_eq_zero.2 (Int.emod_eq_zero_of_dvd ?_)
    rw [show now - seed' - (now - seed) = -(seed' - seed) by ring]
    exact Int.dvd_neg.2 h
  rw [current, hsame]
  rfl

/-! ### The calculations -/

/-- The numbers that the schedule of an epoch is made of are in the machine's range. -/
structure Room (timing : Timing) (now : Int) : Prop where
  /-- Two periods before. -/
  before : Epoch.InRange (now - 2 * timing.period)
  /-- Two periods after. -/
  after : Epoch.InRange (now + 2 * timing.period)
  /-- The challenge of a window one period before. -/
  challenge_before : Epoch.InRange (now - timing.period - timing.lookback)
  /-- The challenge of a window that opens now. -/
  challenge : Epoch.InRange (now - timing.lookback)
  /-- The end of declarations for a window one period before. -/
  faults_before : Epoch.InRange (now - timing.period - timing.faultCutoff)
  /-- The end of declarations for a window that opens now. -/
  faults : Epoch.InRange (now - timing.faultCutoff)

/-- The numbers that come in when the schedule is counted from a start in the past. -/
structure RoomSince (timing : Timing) (seed now : Int) : Prop where
  /-- The start. -/
  start : Epoch.InRange seed
  /-- The time since then. -/
  elapsed : Epoch.InRange (now - seed)
  /-- The challenge of a window that opened then. -/
  challenge : Epoch.InRange (seed - timing.lookback)
  /-- The end of declarations for it. -/
  faults : Epoch.InRange (seed - timing.faultCutoff)

/-- Everything less than two periods away is in range. -/
theorem Room.near (hroom : Room timing now) {x : Int} (h₁ : now - 2 * timing.period ≤ x)
    (h₂ : x ≤ now + 2 * timing.period) : Epoch.InRange x := hroom.before.between hroom.after h₁ h₂

namespace Tiled

variable (h : Tiled timing) (hroom : Room timing now)
include h hroom

theorem period_inRange : Epoch.InRange timing.period := by
  have hpos := h.period_pos
  obtain ⟨hlow, -⟩ := hroom.before
  obtain ⟨-, hhigh⟩ := hroom.after
  unfold Epoch.InRange
  omega

/-- A time within a period is in range. -/
theorem within_inRange {x : Int} (h₁ : 0 ≤ x) (h₂ : x ≤ timing.period) : Epoch.InRange x := by
  have hperiod := h.period_inRange hroom
  unfold Epoch.InRange at hperiod ⊢
  omega

theorem index_inRange (start : Int) : Epoch.InRange (current timing start now).index := by
  have hlt := h.index_lt start now
  have hle : (timing.deadlines : Int) ≤ timing.deadlines * timing.window :=
    le_mul_of_one_le_right (Int.natCast_nonneg _) h.window_pos
  have hperiod := (h.period_inRange hroom).2
  rw [h.period_eq] at hperiod
  unfold Epoch.InRange
  omega

/-- The quotient of the progress by the length of a window. -/
theorem div_progress (start : Int) : Epoch.div (progress timing start now) timing.window =
    .ok ((current timing start now).index : Int) := by
  have hquot : (progress timing start now).tdiv timing.window = (current timing start now).index := by
    rw [Int.tdiv_eq_ediv_of_nonneg (h.progress_nonneg start now), h.index_eq]
  rw [Grid.div_eq_ok h.window_pos, hquot]
  exact ⟨h.index_inRange hroom start, rfl⟩

theorem toCount_index (start : Int) : Epoch.toCount ((current timing start now).index : Int) =
    (current timing start now).index := by
  have hrange := h.index_inRange hroom start
  unfold Epoch.InRange at hrange
  rw [Epoch.toCount, Int.emod_eq_of_lt (by omega) (by omega)]
  exact Int.toNat_natCast _

/-- The window in which an epoch lies can be computed from its period and its index. -/
theorem make_current : make timing (current timing seed now).periodStart (current timing seed now).index now =
    .ok (current timing seed now) := by
  have hpos := h.period_pos
  have hlow := h.progress_nonneg seed now
  have hhigh := h.progress_lt seed now
  obtain ⟨hopens, hcloses⟩ := h.opens_le_and_lt_closes seed now
  -- It opens in the period before the epoch.
  have hlate : now - timing.period ≤ (current timing seed now).opens := by
    have hnonneg := Int.mul_nonneg (Int.natCast_nonneg (current timing seed now).index) h.window_pos.le
    show now - timing.period ≤ now - progress timing seed now + (current timing seed now).index * timing.window
    linarith
  exact make_total (h.index_lt seed now) h.window_pos h.period_eq (h.period_inRange hroom)
    (hroom.near (x := now - progress timing seed now) (by linarith) (by linarith))
    (hroom.near (x := now - progress timing seed now + timing.period) (by linarith) (by linarith))
    (hroom.challenge_before.between hroom.challenge (Int.sub_le_sub_right hlate _) (Int.sub_le_sub_right hopens _))
    (hroom.faults_before.between hroom.faults (Int.sub_le_sub_right hlate _) (Int.sub_le_sub_right hopens _)) now

/-- Rounding down to the starts of periods. -/
theorem down_eq : Grid.down ⟨timing.period, seed⟩ now = .ok (current timing seed now).periodStart :=
  Grid.down_of_room h.period_pos hroom.before hroom.after

theorem sub_periodStart (seed : Int) :
    Epoch.sub now (current timing seed now).periodStart = .ok (progress timing seed now) := by
  have hstart : (current timing seed now).periodStart = now - progress timing seed now := rfl
  rw [hstart, Epoch.sub_eq_ok, sub_sub_cancel]
  exact ⟨h.within_inRange hroom (h.progress_nonneg seed now) (h.progress_lt seed now).le, rfl⟩

/-- The schedule from the seed, by rounding. -/
theorem atEpoch_eq : atEpoch timing seed now = .ok (current timing seed now) := by
  have hrem : Count.rem (current timing seed now).index timing.deadlines = .ok (current timing seed now).index := by
    rw [Count.rem, if_neg h.deadlines_pos.ne', Nat.mod_eq_of_lt (h.index_lt seed now)]
  simp only [atEpoch, h.down_eq hroom, h.sub_periodStart hroom, h.div_progress hroom, h.toCount_index hroom, hrem, ok_bind,
    h.make_current hroom]

/-- The start of the period, from the remainders of the epoch and the seed. -/
theorem provingPeriodStart_eq (seed : Int) : provingPeriodStart timing now (seed % timing.period) =
    .ok (current timing seed now).periodStart := by
  have hpos := h.period_pos
  have hlow := Int.emod_nonneg now hpos.ne'
  have hhigh := Int.emod_lt_of_pos now hpos
  have hlow' := Int.emod_nonneg seed hpos.ne'
  have hhigh' := Int.emod_lt_of_pos seed hpos
  have hmod : Epoch.mod now timing.period = .ok (now % timing.period) := by
    have hne : ¬(timing.period = 0 ∨ now = Epoch.least ∧ timing.period = -1) := by omega
    exact if_neg hne
  have hprogress : progress timing seed now = (now % timing.period - seed % timing.period) % timing.period :=
    Int.sub_emod _ _ _
  have hstart : Epoch.sub now (progress timing seed now) = .ok (current timing seed now).periodStart :=
    Epoch.sub_eq_ok.2 ⟨hroom.near (by linarith [h.progress_lt seed now]) (by linarith [h.progress_nonneg seed now]), rfl⟩
  rw [provingPeriodStart, hmod, ok_bind]
  split
  · next hge =>
    rw [Int.emod_eq_of_lt (by linarith) (by linarith)] at hprogress
    rw [hprogress] at hstart
    rw [Epoch.sub_eq_ok.2 ⟨h.within_inRange hroom (by linarith) (by linarith), rfl⟩, ok_bind]
    exact hstart
  · next hlt =>
    -- The period has started before the multiple of its length.
    rw [← Int.add_emod_right, Int.emod_eq_of_lt (by linarith) (by linarith)] at hprogress
    rw [show now % timing.period - seed % timing.period + timing.period =
      timing.period - (seed % timing.period - now % timing.period) by ring] at hprogress
    rw [hprogress] at hstart
    rw [Epoch.sub_eq_ok.2 ⟨h.within_inRange hroom (by linarith) (by linarith), rfl⟩, ok_bind,
      Epoch.sub_eq_ok.2 ⟨h.within_inRange hroom (by linarith) (by linarith), rfl⟩, ok_bind]
    exact hstart

/-- The index, from the start of the period. -/
theorem deadlineIndexAt_eq (seed : Int) : deadlineIndexAt timing now (current timing seed now).periodStart =
    .ok (current timing seed now).index := by
  simp only [deadlineIndexAt, h.sub_periodStart hroom, h.div_progress hroom, h.toCount_index hroom, ok_bind]
  rfl

/-- The window of an epoch, counted from a start in the past: whole periods in between do not matter. -/
theorem containing_eq (hle : start ≤ now) (helapsed : Epoch.InRange (now - start)) :
    containing timing start now = make timing start (current timing start now).index now := by
  have hnonneg : 0 ≤ now - start := Int.sub_nonneg.2 hle
  have hlater : (if progress timing start now < 0 then do
        let index ← pure 0
        make timing start index now
      else do
        let index ← Epoch.toCount <$> Epoch.div (progress timing start now) timing.window
        make timing start index now) = make timing start (current timing start now).index now := by
    rw [if_neg (not_lt.2 (h.progress_nonneg start now)), h.div_progress hroom]
    show make timing start (Epoch.toCount ((current timing start now).index : Int)) now = _
    rw [h.toCount_index hroom]
  rw [containing, Epoch.sub_eq_ok.2 ⟨helapsed, rfl⟩, ok_bind]
  dsimp only
  split
  · rw [(Grid.rem_eq_ok h.period_pos).2 (Int.tmod_eq_emod_of_nonneg hnonneg), ok_bind]
    exact hlater
  · next hlt =>
    have hprogress : now - start = progress timing start now := (Int.emod_eq_of_lt hnonneg (not_le.1 hlt)).symm
    rw [hprogress]
    exact hlater

/-- The window with the same index in the period that started then can be computed too. -/
theorem make_since (hle : seed ≤ now) (hsince : RoomSince timing seed now) :
    make timing seed (current timing seed now).index now =
      .ok (plan timing seed (current timing seed now).index now) := by
  have hpos := h.period_pos
  have hnonneg := Int.mul_nonneg (Int.natCast_nonneg (current timing seed now).index) h.window_pos.le
  have hopens : seed + (current timing seed now).index * timing.window ≤ now := by
    have hperiods : 0 ≤ timing.period * ((now - seed) / timing.period) :=
      Int.mul_nonneg hpos.le (Int.ediv_nonneg (Int.sub_nonneg.2 hle) hpos.le)
    have hsplit := mul_div_add_progress timing seed now
    have hopen : now - progress timing seed now + (current timing seed now).index * timing.window ≤ now :=
      (h.opens_le_and_lt_closes seed now).1
    linarith
  exact make_total (h.index_lt seed now) h.window_pos h.period_eq (h.period_inRange hroom) hsince.start
    (hsince.start.between hroom.after (by linarith) (by linarith))
    (hsince.challenge.between hroom.challenge (by linarith) (by linarith))
    (hsince.faults.between hroom.faults (by linarith) (by linarith)) now

/-- The window counted from a start in the past, moved on by whole periods until it has not closed. -/
theorem nextNotElapsed_eq (hle : seed ≤ now) (hsince : RoomSince timing seed now) :
    (plan timing seed (current timing seed now).index now).nextNotElapsed = .ok (current timing seed now) := by
  have hpos := h.period_pos
  have hlow := h.progress_nonneg seed now
  have hhigh := h.progress_lt seed now
  have hinside := h.succ_index_mul_le seed now
  have hsplit := mul_div_add_progress timing seed now
  have hperiods : 0 ≤ (now - seed) / timing.period := Int.ediv_nonneg (Int.sub_nonneg.2 hle) hpos.le
  have hzero : Epoch.InRange 0 := h.within_inRange hroom le_rfl hpos.le
  have hend : (plan timing seed (current timing seed now).index now).closes =
      seed + ((current timing seed now).index + 1 : Int) * timing.window := by
    show seed + (current timing seed now).index * timing.window + timing.window = _
    ring
  have hcloses : now < now - progress timing seed now + ((current timing seed now).index + 1 : Int) * timing.window := by
    refine (h.opens_le_and_lt_closes seed now).2.trans_eq ?_
    show now - progress timing seed now + (current timing seed now).index * timing.window + timing.window = _
    ring
  rcases hperiods.eq_or_lt with hfirst | hlater
  · -- The epoch lies in the first period.
    rw [← hfirst, mul_zero, zero_add] at hsplit
    have hsame : plan timing seed (current timing seed now).index now = current timing seed now := by
      show _ = plan timing (now - progress timing seed now) (current timing seed now).index now
      rw [hsplit, sub_sub_cancel]
    have hnot : now < (plan timing seed (current timing seed now).index now).closes := by
      rw [hsame]
      exact (h.opens_le_and_lt_closes seed now).2
    rw [nextNotElapsed_of_lt hnot, hsame]
  · have hperiod : timing.period ≤ timing.period * ((now - seed) / timing.period) :=
      le_mul_of_one_le_right hpos.le hlater
    have hstart : (current timing seed now).periodStart = seed + timing.period * ((now - seed) / timing.period) := by
      show now - progress timing seed now = _
      linarith
    have hclosed : (plan timing seed (current timing seed now).index now).closes ≤ now := by
      rw [hend]
      linarith
    -- All periods but one fit between the end of the first window and the epoch.
    have hquot : (now - (plan timing seed (current timing seed now).index now).closes) / timing.period =
        (now - seed) / timing.period - 1 := by
      rw [hend]
      exact (Int.ediv_eq_iff_of_pos hpos).2 ⟨by linarith, by linarith⟩
    have hgap : Epoch.InRange (now - (plan timing seed (current timing seed now).index now).closes) :=
      hzero.between hsince.elapsed (Int.sub_nonneg.2 hclosed) (by rw [hend]; linarith)
    have hwhole : Epoch.InRange (timing.period * ((now - seed) / timing.period)) :=
      hzero.between hsince.elapsed (by linarith) (by linarith)
    have hnear : Epoch.InRange (seed + timing.period * ((now - seed) / timing.period)) :=
      hroom.near (by linarith) (by linarith)
    have hmoved := nextNotElapsed_of_le hpos hclosed hquot hgap hwhole hnear
    refine hmoved.trans ?_
    show make timing (seed + timing.period * ((now - seed) / timing.period)) (current timing seed now).index now = _
    rw [← hstart, h.make_current hroom]

end Tiled

/-- **The schedules agree.** Rounding down, taking remainders, skipping whole periods and moving on by whole periods all
lead to the one window in which the epoch lies: it is open, has the index of a deadline, and belongs to the period that
starts at a point congruent to the seed. -/
theorem schedules_agree (hw : 0 < timing.window) (hd : 0 < timing.deadlines)
    (hperiod : timing.period = timing.deadlines * timing.window) (hroom : Room timing now) : ∃ w,
    atEpoch timing seed now = .ok w ∧ w = plan timing w.periodStart w.index now ∧ w.isOpen = true ∧
      w.index < timing.deadlines ∧ w.periodStart ≡ seed [ZMOD timing.period] ∧ w.periodStart ≤ now ∧
      now < w.periodStart + timing.period ∧ provingPeriodStart timing now (seed % timing.period) = .ok w.periodStart ∧
      deadlineIndexAt timing now w.periodStart = .ok w.index ∧ containing timing w.periodStart now = .ok w ∧
      (seed ≤ now → RoomSince timing seed now → (containing timing seed now >>= nextNotElapsed) = .ok w) := by
  have h : Tiled timing := ⟨hw, hd, hperiod⟩
  have hlow := h.progress_nonneg seed now
  have hhigh := h.progress_lt seed now
  have hstart : (current timing seed now).periodStart = now - progress timing seed now := rfl
  obtain ⟨hopens, hcloses⟩ := h.opens_le_and_lt_closes seed now
  refine ⟨current timing seed now, h.atEpoch_eq hroom, rfl, ?isOpen, h.index_lt seed now, ?congruent, ?started,
    ?notOver, h.provingPeriodStart_eq hroom seed, h.deadlineIndexAt_eq hroom seed, ?again, fun hle hsince => ?since⟩
  case isOpen => exact Bool.and_eq_true_iff.2 ⟨decide_eq_true hopens, decide_eq_true hcloses⟩
  case congruent => exact (Int.modEq_iff_dvd.2 (dvd_periodStart timing seed now)).symm
  case started =>
    rw [hstart]
    linarith
  case notOver =>
    rw [hstart]
    linarith
  case again =>
    have hsame := current_congr (dvd_periodStart timing seed now) now
    have helapsed : Epoch.InRange (now - (current timing seed now).periodStart) := by
      rw [hstart, sub_sub_cancel]
      exact h.within_inRange hroom hlow hhigh.le
    rw [h.containing_eq hroom (by rw [hstart]; linarith) helapsed, hsame, h.make_current hroom]
  case since =>
    rw [h.containing_eq hroom hle hsince.elapsed, h.make_since hroom hle hsince, ok_bind,
      h.nextNotElapsed_eq hroom hle hsince]

/-- Before the epoch zero, and two periods after the seed, the fourth window of a short period is open. -/
theorem agree_below_zero :
    atEpoch Policy.devnet.toTiming (-1000) (-7) = .ok (plan Policy.devnet.toTiming (-40) 3 (-7)) ∧
    provingPeriodStart Policy.devnet.toTiming (-7) (-1000 % 480) = .ok (-40) ∧
    deadlineIndexAt Policy.devnet.toTiming (-7) (-40) = .ok 3 ∧
    containing Policy.devnet.toTiming (-40) (-7) = .ok (plan Policy.devnet.toTiming (-40) 3 (-7)) ∧
    (containing Policy.devnet.toTiming (-1000) (-7) >>= nextNotElapsed) =
      .ok (plan Policy.devnet.toTiming (-40) 3 (-7)) := by
  have hroom : Room Policy.devnet.toTiming (-7) :=
    ⟨by decide, by decide, by decide, by decide, by decide, by decide⟩
  have hsince : RoomSince Policy.devnet.toTiming (-1000) (-7) := ⟨by decide, by decide, by decide, by decide⟩
  obtain ⟨w, hseed, -, -, -, -, -, -, hstart, hindex, hagain, hmoved⟩ :=
    @schedules_agree Policy.devnet.toTiming (-1000) (-7) (by decide) (by decide) (by decide) hroom
  obtain rfl : plan Policy.devnet.toTiming (-40) 3 (-7) = w :=
    Except.ok.inj ((by decide +kernel : Except.ok _ = atEpoch Policy.devnet.toTiming (-1000) (-7)).trans hseed)
  exact ⟨hseed, hstart, hindex, hagain, hmoved (by decide) hsince⟩

end Window

end SectorLedger
