import SectorLedger.Proofs.Miner.Assigning
import SectorLedger.Proofs.Window

/-!
# Deadlines that may not change

A deadline may change unless its window is open or the next one to open. Whether this is so is read off one occurrence
of the window: the first one that has not closed, found by a division. All other occurrences are over, or at least a
window away.

* `Tiled.make_eq_ok`, `Tiled.deadlineIsMutable_eq_ok`: when the calculation has a result, and which one.
* `Tiled.lt_coming_closes`, `Tiled.closes_le_of_lt`: the occurrence that is looked at is the first that has not closed.
* `Tiled.before_coming_iff`: no other one matters.
* `MinerState.assignSectors_getElem?`: the assignment of new sectors changes no other deadlines.
* `mutable_iff_apart`: so a deadline whose window is open or near keeps what it has.
-/

namespace SectorLedger

namespace Window

variable {timing : Timing} {start now : Int} {i : Nat} {w : Window}

/-! ### The occurrence that is looked at -/

/-- The numbers in the window of a deadline are in the machine's range. -/
structure Fits (timing : Timing) (start : Int) (i : Nat) : Prop where
  /-- The opening. -/
  opens : Epoch.InRange (start + i * timing.window)
  /-- The close. -/
  closes : Epoch.InRange (start + i * timing.window + timing.window)
  /-- The challenge. -/
  challenge : Epoch.InRange (start + i * timing.window - timing.lookback)
  /-- The end of declarations. -/
  faultsClose : Epoch.InRange (start + i * timing.window - timing.faultCutoff)

/-- How many periods pass until the window of a deadline has not closed. -/
def periodsOver (timing : Timing) (start : Int) (i : Nat) (now : Int) : Int :=
  if now < start + i * timing.window + timing.window then 0
  else (now - (start + i * timing.window + timing.window)) / timing.period + 1

/-- Its first occurrence that has not closed, with unbounded numbers. -/
def coming (timing : Timing) (start : Int) (i : Nat) (now : Int) : Window :=
  plan timing (start + timing.period * periodsOver timing start i now) i now

/-- The numbers on the way to that occurrence are in the machine's range. -/
structure Foreseen (timing : Timing) (start : Int) (i : Nat) (now : Int) : Prop where
  /-- The window in the first period. -/
  first : Fits timing start i
  /-- The time since it closed. -/
  gap : (plan timing start i now).closes ≤ now → Epoch.InRange (now - (plan timing start i now).closes)
  /-- The periods that have passed. -/
  whole : Epoch.InRange (timing.period * periodsOver timing start i now)
  /-- The start of the period after them. -/
  begins : (plan timing start i now).closes ≤ now →
    Epoch.InRange (start + timing.period * periodsOver timing start i now)
  /-- The window in that period. -/
  next : Fits timing (start + timing.period * periodsOver timing start i now) i
  /-- The length of a window before it opens. -/
  margin : Epoch.InRange ((coming timing start i now).opens - timing.window)

namespace Tiled

variable (h : Tiled timing)

section Computing

variable (hrange : Epoch.InRange timing.period) (hi : i < timing.deadlines)

include h hrange hi

/-- A window is computed if and only if its numbers are in range. -/
theorem make_eq_ok : make timing start i now = .ok w ↔ Fits timing start i ∧ w = plan timing start i now := by
  have hnonneg : 0 ≤ (i : Int) * timing.window := Int.mul_nonneg (Int.natCast_nonneg i) h.window_pos.le
  have hle : (i : Int) * timing.window ≤ timing.period := by
    rw [h.period_eq]
    exact Int.mul_le_mul_of_nonneg_right (by omega) h.window_pos.le
  have hword : (i : Int) ≤ i * timing.window := le_mul_of_one_le_right (Int.natCast_nonneg i) h.window_pos
  unfold Epoch.InRange at hrange
  have hcast : Count.toEpoch i = i := Count.toEpoch_of_lt (by omega)
  have hoffset : Epoch.InRange (i * timing.window) := by
    unfold Epoch.InRange
    omega
  simp only [make, if_pos hi, bind_eq_ok, Epoch.mul_eq_ok, Epoch.add_eq_ok, Epoch.sub_eq_ok, pure_eq_ok, hcast]
  constructor
  · rintro ⟨_, ⟨-, rfl⟩, _, ⟨hopens, rfl⟩, _, ⟨hcloses, rfl⟩, _, ⟨hchallenge, rfl⟩, _, ⟨hfaults, rfl⟩, rfl⟩
    exact ⟨⟨hopens, hcloses, hchallenge, hfaults⟩, rfl⟩
  · rintro ⟨hfits, rfl⟩
    exact ⟨_, ⟨hoffset, rfl⟩, _, ⟨hfits.opens, rfl⟩, _, ⟨hfits.closes, rfl⟩, _, ⟨hfits.challenge, rfl⟩, _,
      ⟨hfits.faultsClose, rfl⟩, rfl⟩

/-- A window that has closed is moved on to its first occurrence that has not, if the numbers are in range. -/
theorem nextNotElapsed_eq_ok (hclosed : (plan timing start i now).closes ≤ now) :
    (plan timing start i now).nextNotElapsed = .ok w ↔
      Epoch.InRange (now - (plan timing start i now).closes) ∧
      Epoch.InRange (timing.period * periodsOver timing start i now) ∧
      Epoch.InRange (start + timing.period * periodsOver timing start i now) ∧
      Fits timing (start + timing.period * periodsOver timing start i now) i ∧ w = coming timing start i now := by
  have hpos := h.period_pos
  have hover : periodsOver timing start i now =
      (now - (plan timing start i now).closes) / timing.period + 1 := if_neg (not_lt.2 hclosed)
  constructor
  · intro hnext
    have helapsed : (plan timing start i now).hasElapsed = true := decide_eq_true hclosed
    rw [nextNotElapsed, helapsed] at hnext
    simp only [Bool.not_true, Bool.false_eq_true, if_false, bind_eq_ok, Epoch.sub_eq_ok, Epoch.add_eq_ok,
      Epoch.mul_eq_ok] at hnext
    obtain ⟨_, ⟨hgap, rfl⟩, periods, hdiv, _, ⟨-, rfl⟩, _, ⟨hwhole, rfl⟩, _, ⟨hstart, rfl⟩, hmake⟩ := hnext
    obtain ⟨-, hquot⟩ := (Grid.div_eq_ok hpos).1 hdiv
    have hcount : 1 + periods = periodsOver timing start i now := by
      rw [hover, add_comm, hquot]
      exact congrArg (· + 1) (Int.tdiv_eq_ediv_of_nonneg (Int.sub_nonneg.2 hclosed))
    rw [hcount] at hwhole hstart hmake
    exact ⟨hgap, hwhole, hstart, (h.make_eq_ok hrange hi).1 hmake⟩
  · rintro ⟨hgap, hwhole, hstart, hnext⟩
    rw [nextNotElapsed_of_le hpos hclosed (eq_sub_of_add_eq hover.symm) hgap hwhole hstart]
    exact (h.make_eq_ok hrange hi).2 hnext

/-- Whether a deadline may change is computed if and only if the numbers on the way are in range, and then depends on
the first occurrence of its window that has not closed. -/
theorem deadlineIsMutable_eq_ok {b : Bool} : deadlineIsMutable timing start i now = .ok b ↔
    Foreseen timing start i now ∧ b = decide (now < (coming timing start i now).opens - timing.window) := by
  simp only [deadlineIsMutable, bind_eq_ok, pure_eq_ok, Epoch.sub_eq_ok, h.make_eq_ok hrange hi]
  rcases lt_or_ge now (plan timing start i now).closes with hopen | hclosed
  · have hover : periodsOver timing start i now = 0 := if_pos hopen
    have hcoming : coming timing start i now = plan timing start i now := by
      rw [coming, hover, mul_zero, add_zero]
    have hnext : (plan timing start i now).nextNotElapsed = .ok (plan timing start i now) := nextNotElapsed_of_lt hopen
    constructor
    · rintro ⟨_, ⟨hfirst, rfl⟩, w, hw, _, ⟨hmargin, rfl⟩, rfl⟩
      obtain rfl := Except.ok.inj (hnext.symm.trans hw)
      refine ⟨⟨hfirst, fun hle => absurd hopen (not_lt.2 hle), ?_, fun hle => absurd hopen (not_lt.2 hle), ?_, ?_⟩, ?_⟩
      · rw [hover, mul_zero]
        decide
      · rwa [hover, mul_zero, add_zero]
      · rwa [hcoming]
      · rw [hcoming]
    · rintro ⟨hforeseen, rfl⟩
      exact ⟨_, ⟨hforeseen.first, rfl⟩, _, hnext, _, ⟨hcoming ▸ hforeseen.margin, rfl⟩, by rw [hcoming]⟩
  · constructor
    · rintro ⟨_, ⟨hfirst, rfl⟩, w, hw, _, ⟨hmargin, rfl⟩, rfl⟩
      obtain ⟨hgap, hwhole, hstart, hfits, rfl⟩ := (h.nextNotElapsed_eq_ok hrange hi hclosed).1 hw
      exact ⟨⟨hfirst, fun _ => hgap, hwhole, fun _ => hstart, hfits, hmargin⟩, rfl⟩
    · rintro ⟨hforeseen, rfl⟩
      exact ⟨_, ⟨hforeseen.first, rfl⟩, _, (h.nextNotElapsed_eq_ok hrange hi hclosed).2 ⟨hforeseen.gap hclosed,
        hforeseen.whole, hforeseen.begins hclosed, hforeseen.next, rfl⟩, _, ⟨hforeseen.margin, rfl⟩, rfl⟩

end Computing

/-! ### All occurrences -/

include h

theorem periodsOver_nonneg : 0 ≤ periodsOver timing start i now := by
  unfold periodsOver
  split
  · rfl
  · next hclosed =>
    have := Int.ediv_nonneg (Int.sub_nonneg.2 (not_lt.1 hclosed)) h.period_pos.le
    omega

/-- The occurrence that is looked at has not closed. -/
theorem lt_coming_closes : now < (coming timing start i now).closes := by
  show now < start + timing.period * periodsOver timing start i now + i * timing.window + timing.window
  unfold periodsOver
  split
  · next hopen => rwa [mul_zero, add_zero]
  · have hsplit := Int.mul_ediv_add_emod (now - (start + i * timing.window + timing.window)) timing.period
    have hrest := Int.emod_lt_of_pos (now - (start + i * timing.window + timing.window)) h.period_pos
    rw [mul_add, mul_one]
    linarith

/-- All earlier ones have. -/
theorem closes_le_of_lt {k : Nat} (hk : (k : Int) < periodsOver timing start i now) :
    start + k * timing.period + i * timing.window + timing.window ≤ now := by
  unfold periodsOver at hk
  split at hk
  · omega
  · have hle : (k : Int) * timing.period ≤
        (now - (start + i * timing.window + timing.window)) / timing.period * timing.period :=
      Int.mul_le_mul_of_nonneg_right (by omega) h.period_pos.le
    have hdown := Int.ediv_mul_le (now - (start + i * timing.window + timing.window)) h.period_pos.ne'
    linarith

/-- The length of a window remains until the first occurrence that has not closed, if and only if no occurrence is open
or opens within that length. -/
theorem before_coming_iff : now < (coming timing start i now).opens - timing.window ↔
    ∀ k : Nat, ¬(start + k * timing.period + (i - 1) * timing.window ≤ now ∧
      now < start + k * timing.period + (i + 1) * timing.window) := by
  have hopens : (coming timing start i now).opens =
      start + timing.period * periodsOver timing start i now + i * timing.window := rfl
  have hcloses : now < start + timing.period * periodsOver timing start i now + i * timing.window + timing.window :=
    h.lt_coming_closes
  rw [hopens]
  constructor
  · rintro hbefore k ⟨hnear, hopen⟩
    rcases lt_or_ge (k : Int) (periodsOver timing start i now) with hlt | hge
    · have hover := h.closes_le_of_lt hlt
      linarith
    · have hle := Int.mul_le_mul_of_nonneg_right hge h.period_pos.le
      linarith
  · intro hapart
    by_contra hnear
    have hnonneg : 0 ≤ periodsOver timing start i now := h.periodsOver_nonneg
    obtain ⟨k, hk⟩ := Int.eq_ofNat_of_zero_le hnonneg
    rw [hk] at hnear hcloses
    exact hapart k ⟨by linarith, by linarith⟩

end Tiled

end Window

/-! ### The assignment of new sectors -/

namespace MinerState

open Deadlines

variable {policy : Policy} {size : SectorSize} {m m' : MinerState} {now : Int} {ss : List Sector} {k : Nat} {w : Power}

/-- A deadline that may not change gets no sectors. -/
theorem assignSectors_getElem? (h : m.assignSectors policy size now ss k = .ok (m', w)) :
    m.deadlines = .held m.allDeadlines ∧ m'.deadlines = .held m'.allDeadlines ∧
      ∀ i, deadlineIsMutable policy.toTiming m.periodStart i now ≠ .ok true →
        m'.allDeadlines[i]? = m.allDeadlines[i]? := by
  obtain ⟨ds, open_, sorted, ts, ds', hds, -, hopen, -, -, -, hfold, rfl⟩ := assignSectors_spec h
  have hheld : m.allDeadlines = ds := by rw [allDeadlines, hds]
  rw [hheld]
  refine ⟨hds, rfl, fun i hi => ?_⟩
  show ds'[i]? = ds[i]?
  refine foldOutcome_invariant (I := fun _ state => state.1[i]? = ds[i]?) hfold rfl ?_
  rintro - ⟨share, j⟩ - ⟨ds₁, w₁⟩ ⟨ds₂, w₂⟩ - hI hstep
  rcases fillDeadline_spec hstep with ⟨-, rfl, -⟩ | ⟨-, d, d', -, hd, -, -, rfl, -⟩
  · exact hI
  · have hne : j ≠ i := by
      rintro rfl
      exact hi (mutable_of_open hopen hd).2
    exact (List.getElem?_set_ne hne).trans hI

end MinerState

open Window in
/-- **A deadline may change just when its window is neither open nor the next to open.** The calculation looks at one
occurrence of the window only, and has a result just when the numbers on the way are in range. Its answer is that of all
occurrences, also across the ends of proving periods. So the assignment of new sectors leaves each deadline alone whose
window is open, or opens within the length of a window. -/
theorem mutable_iff_apart {timing : Timing} (hw : 0 < timing.window)
    (hperiod : timing.period = timing.deadlines * timing.window) (hrange : Epoch.InRange timing.period) :
    (∀ (start now : Int) (i : Nat), i < timing.deadlines →
      ((∃ b, deadlineIsMutable timing start i now = .ok b) ↔ Foreseen timing start i now) ∧
      ∀ b, deadlineIsMutable timing start i now = .ok b → (b = true ↔
        ∀ k : Nat, ¬(start + k * timing.period + (i - 1) * timing.window ≤ now ∧
          now < start + k * timing.period + (i + 1) * timing.window))) ∧
    ∀ (policy : Policy) (size : SectorSize) (m m' : MinerState) (now : Int) (ss : List Sector) (partitionSize : Nat)
      (w : Power), policy.toTiming = timing → m.assignSectors policy size now ss partitionSize = .ok (m', w) →
      ∃ ds ds', m.deadlines = .held ds ∧ m'.deadlines = .held ds' ∧
        ∀ (i k : Nat) (opens : Int), i < timing.deadlines →
          opens = m.periodStart + k * timing.period + i * timing.window →
          opens ≤ now ∧ now < opens + timing.window ∨ now < opens ∧ opens ≤ now + timing.window → ds'[i]? = ds[i]? := by
  have hexact : ∀ (start now : Int) (i : Nat), i < timing.deadlines →
      ∀ b, deadlineIsMutable timing start i now = .ok b → (b = true ↔
        ∀ k : Nat, ¬(start + k * timing.period + (i - 1) * timing.window ≤ now ∧
          now < start + k * timing.period + (i + 1) * timing.window)) := by
    intro start now i hi b hb
    have htiled : Tiled timing := ⟨hw, by omega, hperiod⟩
    obtain ⟨-, rfl⟩ := (htiled.deadlineIsMutable_eq_ok hrange hi).1 hb
    rw [decide_eq_true_iff]
    exact htiled.before_coming_iff
  refine ⟨fun start now i hi => ⟨?_, hexact start now i hi⟩, ?_⟩
  · have htiled : Tiled timing := ⟨hw, by omega, hperiod⟩
    constructor
    · rintro ⟨b, hb⟩
      exact ((htiled.deadlineIsMutable_eq_ok hrange hi).1 hb).1
    · exact fun hforeseen => ⟨_, (htiled.deadlineIsMutable_eq_ok hrange hi).2 ⟨hforeseen, rfl⟩⟩
  · rintro policy size m m' now ss partitionSize w rfl h
    obtain ⟨hheld, hheld', hsame⟩ := MinerState.assignSectors_getElem? h
    refine ⟨_, _, hheld, hheld', fun i k opens hi hopens hnear => hsame i fun hmutable => ?_⟩
    refine (hexact m.periodStart now i hi true hmutable).1 rfl k ⟨?_, ?_⟩
    · rcases hnear with ⟨hopen, -⟩ | ⟨-, hsoon⟩ <;> linarith
    · rcases hnear with ⟨-, hopen⟩ | ⟨hsoon, -⟩ <;> linarith

open Window MinerState in
/-- In the last window of a proving period, the last deadline and the first one of the next period keep what they have.
The new sectors go to the others. -/
theorem mutable_iff_apart_wrapping :
    0 < fourWindows.window ∧ fourWindows.period = fourWindows.deadlines * fourWindows.window ∧
    Foreseen fourWindows.toTiming 0 0 35 ∧ deadlineIsMutable fourWindows.toTiming 0 0 35 = .ok false ∧
    ¬(∀ k : Nat, ¬(0 + k * fourWindows.period + ((0 : Nat) - 1) * fourWindows.window ≤ 35 ∧
      35 < 0 + k * fourWindows.period + ((0 : Nat) + 1) * fourWindows.window)) ∧
    ∃ m' w ds', (fresh fourWindows .missing 0 0).assignSectors fourWindows .kib2 35 newcomers 2 = .ok (m', w) ∧
      m'.deadlines = .held ds' ∧ ds'[0]? = some (.held {}) ∧ ds'[1]? ≠ some (.held {}) ∧ ds'[2]? ≠ some (.held {}) ∧
      ds'[3]? = some (.held {}) := by
  obtain ⟨hmutable, hassign⟩ := @mutable_iff_apart fourWindows.toTiming (by decide) (by decide) (by decide)
  obtain ⟨hresult, hexact⟩ := hmutable 0 35 0 (by decide)
  have hfirst : deadlineIsMutable fourWindows.toTiming 0 0 35 = .ok false := by decide +kernel
  have hrun : (do
      let a ← (fresh fourWindows .missing 0 0).assignSectors fourWindows .kib2 35 newcomers 2
      let ds ← a.1.loadDeadlines
      return [1, 2].map fun i => decide (ds[i]? = some (Stored.held ({} : Deadline)))) = .ok [false, false] := by
    have hsorted : newcomers.mergeSort (fun a b => decide (a.number ≤ b.number)) = newcomers :=
      List.mergeSort_of_pairwise (by decide)
    simp only [assignSectors, hsorted]
    decide +kernel
  simp only [bind_eq_ok, pure_eq_ok, loadDeadlines_eq_ok, List.map_cons, List.map_nil, List.cons.injEq,
    decide_eq_false_iff_not, and_true] at hrun
  obtain ⟨⟨m', w⟩, hok, ds', hds', hsecond, hthird⟩ := hrun
  obtain ⟨ds, ds₁, hheld, hheld', hsame⟩ := hassign fourWindows .kib2 _ m' 35 newcomers 2 w rfl hok
  obtain rfl := Stored.held.inj (hds'.symm.trans hheld')
  obtain rfl := Stored.held.inj hheld
  refine ⟨by decide, by decide, hresult.1 ⟨false, hfirst⟩, hfirst, fun hapart => ?_, m', w, ds', hok, hds', ?_, hsecond,
    hthird, ?_⟩
  · exact Bool.false_ne_true ((hexact false hfirst).2 hapart)
  · exact hsame 0 1 40 (by decide) (by decide) (by decide)
  · exact hsame 3 0 30 (by decide) (by decide) (by decide)

end SectorLedger
