import SectorLedger.Grid
import SectorLedger.Proofs.Outcome
import Mathlib.Data.Int.ModEq
import Mathlib.Order.Bounds.Defs
import Mathlib.Tactic.Linarith
import Mathlib.Tactic.Ring

/-!
# Rounding to a grid

Rounding up gives the least point of the grid at or after an epoch, rounding down the greatest at or before it,
whenever the machine's words can hold what is computed on the way.

* `Grid.IsUp`, `Grid.IsDown`: the specifications; `isUp_of_up`, `isDown_of_down` say that the computations meet them.
* `Grid.IsUp.mono`, `Grid.IsUp.self`: rounding is monotone, and keeps the points.
* `Grid.up_of_up`: it keeps its own results, whatever the unit.
* `Grid.next`, `Grid.previous`: the results, in unbounded numbers.
* `Grid.up_of_isUp`, `Grid.up_of_room`, `Grid.down_of_room`: rounding succeeds away from the ends of the range.
* `Grid.Same.roundsLike`: grids with the same points round alike.
* `Grid.rounding_exact`: all of this for units and epochs of at most `2 ^ 61`, where nothing overflows.
-/

namespace SectorLedger

namespace Epoch.InRange

/-- What lies between two epochs is an epoch. -/
theorem between {a b x : Int} (ha : InRange a) (hb : InRange b) (h₁ : a ≤ x) (h₂ : x ≤ b) : InRange x :=
  ⟨ha.1.trans h₁, h₂.trans_lt hb.2⟩

/-- A quotient is no further from zero than what is divided. -/
theorem tdiv {d u : Int} (hd : InRange d) (hu : 0 < u) : InRange (d.tdiv u) := by
  have hsize := Int.natAbs_tdiv_le_natAbs d u
  rcases le_total 0 d with hpos | hneg
  · have := Int.tdiv_nonneg hpos hu.le
    unfold InRange at hd ⊢
    omega
  · have := Int.tdiv_nonneg (Int.neg_nonneg.2 hneg) hu.le
    rw [Int.neg_tdiv] at this
    unfold InRange at hd ⊢
    omega

end Epoch.InRange

namespace Epoch

variable {a b c : Int}

theorem rem_eq_ok : rem a b = .ok c ↔ ¬(b = 0 ∨ (a = least ∧ b = -1)) ∧ a.tmod b = c := by
  unfold rem
  split <;> simp_all

theorem div_eq_ok : div a b = .ok c ↔ b ≠ 0 ∧ InRange (a.tdiv b) ∧ c = a.tdiv b := by
  unfold div
  split <;> simp_all

end Epoch

namespace Grid

variable {g : Grid} {e r : Int}

/-- The least point of the grid at or after an epoch. -/
structure IsUp (g : Grid) (e r : Int) : Prop where
  /-- It is a point. -/
  onGrid : g.OnGrid r
  /-- It is not before the epoch. -/
  le : e ≤ r
  /-- The point before it is. -/
  lt : r < e + g.unit

/-- Points that are less than a unit apart are the same. -/
theorem OnGrid.eq_of_near {a b : Int} (ha : g.OnGrid a) (hb : g.OnGrid b) (h₁ : a < b + g.unit)
    (h₂ : b < a + g.unit) : a = b := by
  have hd : g.unit ∣ a - b := by
    have := Int.dvd_sub ha hb
    rwa [show a - g.offset - (b - g.offset) = a - b by ring] at this
  obtain ⟨k, hk⟩ := hd
  have hu : 0 < g.unit := by linarith
  have : k = 0 := by nlinarith
  subst this
  linarith

namespace IsUp

theorem unique (h : g.IsUp e r) {r' : Int} (h' : g.IsUp e r') : r = r' :=
  h.onGrid.eq_of_near h'.onGrid (by linarith [h.lt, h'.le]) (by linarith [h.le, h'.lt])

/-- A point not before the epoch is not before the least such point. -/
theorem le_of_onGrid (h : g.IsUp e r) {p : Int} (hp : g.OnGrid p) (hle : e ≤ p) : r ≤ p := by
  by_contra hlt
  have := h.onGrid.eq_of_near hp (by linarith [h.lt]) (by linarith [h.lt, h.le])
  linarith

theorem mono (h : g.IsUp e r) {e' r' : Int} (h' : g.IsUp e' r') (hle : e ≤ e') : r ≤ r' :=
  h.le_of_onGrid h'.onGrid (hle.trans h'.le)

theorem self (hu : 0 < g.unit) (hr : g.OnGrid r) : g.IsUp r r := ⟨hr, le_rfl, by linarith⟩

end IsUp

/-- The computation of the next point, in unbounded numbers. -/
theorem isUp_of_remainder (hu : 0 < g.unit) {o d : Int} (ho : g.unit ∣ o - g.offset) (hd : d = e - o) :
    g.IsUp e (g.unit * (if d.tmod g.unit = 0 ∨ d < 0 then d.tdiv g.unit else d.tdiv g.unit + 1) + o) := by
  have hsplit : g.unit * d.tdiv g.unit + d.tmod g.unit = d := Int.mul_tdiv_add_tmod d g.unit
  have hlt : d.tmod g.unit < g.unit := Int.tmod_lt_of_pos d hu
  have hgt : -g.unit < d.tmod g.unit := by
    have := Int.lt_tmod_of_pos d hu
    linarith
  have point : ∀ q : Int, g.OnGrid (g.unit * q + o) := fun q => by
    have := Int.dvd_add (Int.dvd_mul_right g.unit q) ho
    rwa [show g.unit * q + (o - g.offset) = g.unit * q + o - g.offset by ring] at this
  refine ⟨point _, ?_, ?_⟩ <;> split
  · next h =>
    rcases h with h | h
    · linarith
    · have := Int.tmod_nonneg g.unit (show 0 ≤ -d by linarith)
      rw [Int.neg_tmod] at this
      linarith
  · linarith [Int.mul_add g.unit (d.tdiv g.unit) 1]
  · linarith
  · next h =>
    have hd0 : 0 ≤ d := by
      by_contra hneg
      exact h (.inr (not_le.1 hneg))
    have : 0 < d.tmod g.unit := lt_of_le_of_ne (Int.tmod_nonneg g.unit hd0) fun h0 => h (.inl h0.symm)
    linarith [Int.mul_add g.unit (d.tdiv g.unit) 1]

theorem rem_eq_ok {a b c : Int} (hb : 0 < b) : Epoch.rem a b = .ok c ↔ a.tmod b = c := by
  have h : ¬(b = 0 ∨ (a = Epoch.least ∧ b = -1)) := by omega
  rw [Epoch.rem_eq_ok, and_iff_right h]

theorem div_eq_ok {a b c : Int} (hb : 0 < b) :
    Epoch.div a b = .ok c ↔ Epoch.InRange (a.tdiv b) ∧ c = a.tdiv b := by
  rw [Epoch.div_eq_ok, and_iff_right hb.ne']

theorem up_eq_ok (hu : 0 < g.unit) : g.up e = .ok r ↔
    let o := g.offset.tmod g.unit
    let d := e - o
    let q := if d.tmod g.unit = 0 ∨ d < 0 then d.tdiv g.unit else d.tdiv g.unit + 1
    Epoch.InRange d ∧ Epoch.InRange (d.tdiv g.unit) ∧ Epoch.InRange q ∧ Epoch.InRange (g.unit * q) ∧
      Epoch.InRange (g.unit * q + o) ∧ r = g.unit * q + o := by
  simp only [up, bind_eq_ok, rem_eq_ok hu, div_eq_ok hu, Epoch.sub_eq_ok]
  constructor
  · rintro ⟨_, rfl, _, ⟨hd, rfl⟩, _, rfl, _, ⟨hq, rfl⟩, h⟩
    split at h
    · next hc =>
      simp only [bind_eq_ok, Epoch.mul_eq_ok, Epoch.add_eq_ok] at h
      obtain ⟨_, ⟨hm, rfl⟩, hr, rfl⟩ := h
      simp only [hc, if_true]
      exact ⟨hd, hq, hq, hm, hr, trivial⟩
    · next hc =>
      simp only [bind_eq_ok, Epoch.mul_eq_ok, Epoch.add_eq_ok] at h
      obtain ⟨_, ⟨hq', rfl⟩, _, ⟨hm, rfl⟩, hr, rfl⟩ := h
      simp only [hc, if_false]
      exact ⟨hd, hq, hq', hm, hr, trivial⟩
  · rintro ⟨hd, hq, hq', hm, hr, rfl⟩
    refine ⟨_, rfl, _, ⟨hd, rfl⟩, _, rfl, _, ⟨hq, rfl⟩, ?_⟩
    split
    · next hc =>
      simp only [hc, if_true] at hm hr ⊢
      exact bind_eq_ok.2 ⟨_, Epoch.mul_eq_ok.2 ⟨hm, rfl⟩, Epoch.add_eq_ok.2 ⟨hr, rfl⟩⟩
    · next hc =>
      simp only [hc, if_false] at hq' hm hr ⊢
      exact bind_eq_ok.2 ⟨_, Epoch.add_eq_ok.2 ⟨hq', rfl⟩,
        bind_eq_ok.2 ⟨_, Epoch.mul_eq_ok.2 ⟨hm, rfl⟩, Epoch.add_eq_ok.2 ⟨hr, rfl⟩⟩⟩

/-- What the code takes for the offset is congruent to it. -/
theorem dvd_tmod_sub (a b : Int) : b ∣ a.tmod b - a :=
  ⟨-a.tdiv b, by linarith [Int.mul_tdiv_add_tmod a b, Int.mul_neg b (a.tdiv b)]⟩

/-- It is less than a unit away from zero. -/
theorem abs_tmod_lt (a : Int) {u : Int} (hu : 0 < u) : -u < a.tmod u ∧ a.tmod u < u := by
  have := Int.lt_tmod_of_pos a hu
  exact ⟨by linarith, Int.tmod_lt_of_pos a hu⟩

/-- **Rounding up meets its specification.** -/
theorem isUp_of_up (hu : 0 < g.unit) (h : g.up e = .ok r) : g.IsUp e r := by
  obtain ⟨-, -, -, -, -, rfl⟩ := (up_eq_ok hu).1 h
  exact isUp_of_remainder hu (dvd_tmod_sub g.offset g.unit) rfl

theorem inRange_of_up (hu : 0 < g.unit) (h : g.up e = .ok r) : Epoch.InRange r := by
  obtain ⟨-, -, -, -, hr, rfl⟩ := (up_eq_ok hu).1 h
  exact hr

/-- The form of a result, whatever the unit: a multiple of it, and what the code takes for the offset. -/
theorem multiple_of_up (h : g.up e = .ok r) : ∃ m : Int, g.unit ≠ 0 ∧ Epoch.InRange m ∧ Epoch.InRange (g.unit * m) ∧
    Epoch.InRange r ∧ r = g.unit * m + g.offset.tmod g.unit ∧
    Epoch.rem g.offset g.unit = .ok (g.offset.tmod g.unit) := by
  simp only [up, bind_eq_ok, Epoch.div_eq_ok] at h
  obtain ⟨o, ho, d, -, _, -, m, ⟨hu, hm, rfl⟩, h⟩ := h
  obtain rfl := (Epoch.rem_eq_ok.1 ho).2
  split at h
  · simp only [bind_eq_ok, Epoch.mul_eq_ok, Epoch.add_eq_ok] at h
    obtain ⟨_, ⟨hmul, rfl⟩, hr, rfl⟩ := h
    exact ⟨_, hu, hm, hmul, hr, rfl, ho⟩
  · simp only [bind_eq_ok, Epoch.mul_eq_ok, Epoch.add_eq_ok] at h
    obtain ⟨_, ⟨hnext, rfl⟩, _, ⟨hmul, rfl⟩, hr, rfl⟩ := h
    exact ⟨_, hu, hnext, hmul, hr, rfl, ho⟩

/-- A point that rounding up has found, and that is not negative, is a key. -/
theorem key_lt_of_up {k : Nat} (h : g.up e = .ok (k : Int)) : k < 0x8000000000000000 := by
  obtain ⟨-, -, -, -, hr, -⟩ := multiple_of_up h
  unfold Epoch.InRange at hr
  omega

/-- What rounding up has found stays as it is. -/
theorem up_of_up (h : g.up e = .ok r) : g.up r = .ok r := by
  obtain ⟨m, hu, hm, hmul, hr, rfl, ho⟩ := multiple_of_up h
  have hrem : Epoch.rem (g.unit * m) g.unit = .ok 0 := by
    refine Epoch.rem_eq_ok.2 ⟨?_, Int.mul_tmod_right g.unit m⟩
    rintro (hzero | ⟨hleast, hneg⟩)
    · exact hu hzero
    · rw [hneg] at hleast
      unfold Epoch.least at hleast
      unfold Epoch.InRange at hm
      omega
  have hdiv : Epoch.div (g.unit * m) g.unit = .ok m := by
    rw [Epoch.div_eq_ok, Int.mul_tdiv_cancel_left m hu]
    exact ⟨hu, hm, rfl⟩
  simp only [up, bind_eq_ok]
  refine ⟨_, ho, g.unit * m, Epoch.sub_eq_ok.2 ⟨by simpa using hmul, by ring⟩, 0, hrem, m, hdiv, ?_⟩
  rw [if_pos (.inl rfl)]
  exact bind_eq_ok.2 ⟨_, Epoch.mul_eq_ok.2 ⟨hmul, rfl⟩, Epoch.add_eq_ok.2 ⟨hr, rfl⟩⟩

/-- Rounding up succeeds, if the distances of the epoch and of the result from the offset are in range. -/
theorem up_of_isUp (hu : 0 < g.unit) (h : g.IsUp e r) (hd : Epoch.InRange (e - g.offset.tmod g.unit))
    (hm : Epoch.InRange (r - g.offset.tmod g.unit)) (hr : Epoch.InRange r) : g.up e = .ok r := by
  have hspec := h.unique (isUp_of_remainder hu (dvd_tmod_sub g.offset g.unit) rfl)
  rw [up_eq_ok hu]
  dsimp only
  set q := if (e - g.offset.tmod g.unit).tmod g.unit = 0 ∨ e - g.offset.tmod g.unit < 0 then
    (e - g.offset.tmod g.unit).tdiv g.unit else (e - g.offset.tmod g.unit).tdiv g.unit + 1
  have hproduct : g.unit * q = r - g.offset.tmod g.unit := by linarith
  have hq : Epoch.InRange ((g.unit * q).tdiv g.unit) := hproduct ▸ hm.tdiv hu
  rw [Int.mul_tdiv_cancel_left q hu.ne'] at hq
  exact ⟨hd, hd.tdiv hu, hq, hproduct ▸ hm, hspec ▸ hr, hspec⟩

/-- The next point, in unbounded numbers. -/
def next (g : Grid) (e : Int) : Int := e + (g.offset - e) % g.unit

theorem isUp_next (hu : 0 < g.unit) (e : Int) : g.IsUp e (g.next e) := by
  have hpos := Int.emod_nonneg (g.offset - e) hu.ne'
  have hlt := Int.emod_lt_of_pos (g.offset - e) hu
  refine ⟨⟨-((g.offset - e) / g.unit), ?_⟩, le_add_of_nonneg_right hpos, Int.add_lt_add_left hlt e⟩
  have hsplit := Int.mul_ediv_add_emod (g.offset - e) g.unit
  rw [next, mul_neg]
  linarith

/-- Rounding up does not overflow at or after the offset if its result is in range. -/
theorem up_total (hu : 0 < g.unit) (ho : 0 ≤ g.offset) (he : g.offset ≤ e) (h : g.IsUp e r)
    (hr : Epoch.InRange r) : g.up e = .ok r := by
  have ho₀ : 0 ≤ g.offset.tmod g.unit := Int.tmod_nonneg g.unit ho
  have ho₁ : g.offset.tmod g.unit ≤ g.offset := by
    have := mul_nonneg hu.le (Int.tdiv_nonneg ho hu.le)
    linarith [Int.mul_tdiv_add_tmod g.offset g.unit]
  have hle := h.le
  -- all that is computed on the way lies between zero and the result
  have between : ∀ x : Int, 0 ≤ x → x ≤ r → Epoch.InRange x := fun x h₀ h₁ => by
    unfold Epoch.InRange at hr ⊢
    omega
  exact up_of_isUp hu h (between _ (by linarith) (by linarith)) (between _ (by linarith) (by linarith)) hr

/-- Rounding up does not overflow as far as two units from the ends of the range. -/
theorem up_of_room (hu : 0 < g.unit) (hlow : Epoch.InRange (e - 2 * g.unit)) (hhigh : Epoch.InRange (e + 2 * g.unit)) :
    g.up e = .ok (g.next e) := by
  have hr := isUp_next hu e
  obtain ⟨ho₁, ho₂⟩ := abs_tmod_lt g.offset hu
  have hle := hr.le
  have hlt := hr.lt
  have inside : ∀ x : Int, e - 2 * g.unit ≤ x → x ≤ e + 2 * g.unit → Epoch.InRange x := fun x => hlow.between hhigh
  exact up_of_isUp hu hr (inside _ (by linarith) (by linarith)) (inside _ (by linarith) (by linarith))
    (inside _ (by linarith) (by linarith))

/-- A point of the grid stays as it is, if its distance from the offset is in range. -/
theorem up_self (hu : 0 < g.unit) (hon : g.OnGrid e) (he : Epoch.InRange e)
    (hd : Epoch.InRange (e - g.offset.tmod g.unit)) : g.up e = .ok e :=
  up_of_isUp hu (.self hu hon) hd hd he

/-! ### Rounding down -/

/-- The greatest point of the grid at or before an epoch. -/
structure IsDown (g : Grid) (e r : Int) : Prop where
  /-- It is a point. -/
  onGrid : g.OnGrid r
  /-- It is not after the epoch. -/
  le : r ≤ e
  /-- The point after it is. -/
  lt : e < r + g.unit

namespace IsDown

theorem unique (h : g.IsDown e r) {r' : Int} (h' : g.IsDown e r') : r = r' :=
  h.onGrid.eq_of_near h'.onGrid (by linarith [h.le, h'.lt]) (by linarith [h.lt, h'.le])

/-- A point not after the epoch is not after the greatest such point. -/
theorem le_of_onGrid (h : g.IsDown e r) {p : Int} (hp : g.OnGrid p) (hle : p ≤ e) : p ≤ r := by
  by_contra hlt
  have := hp.eq_of_near h.onGrid (by linarith [h.lt]) (by linarith [h.lt, h.le])
  linarith

theorem mono (h : g.IsDown e r) {e' r' : Int} (h' : g.IsDown e' r') (hle : e ≤ e') : r ≤ r' :=
  h'.le_of_onGrid h.onGrid (h.le.trans hle)

theorem self (hu : 0 < g.unit) (hr : g.OnGrid r) : g.IsDown r r := ⟨hr, le_rfl, by linarith⟩

end IsDown

/-- A point is rounded to itself in both directions. -/
theorem IsUp.isDown_of_eq (h : g.IsUp e r) (hu : 0 < g.unit) (heq : e = r) : g.IsDown e r := by
  subst heq
  exact .self hu h.onGrid

/-- Where an epoch is no point, the last point before it comes a unit before the next one. -/
theorem IsUp.isDown_of_ne (h : g.IsUp e r) (hne : e ≠ r) : g.IsDown e (r - g.unit) := by
  refine ⟨?_, by linarith [h.lt], ?_⟩
  · have := Int.dvd_sub h.onGrid (Int.dvd_refl g.unit)
    rwa [show r - g.offset - g.unit = r - g.unit - g.offset by ring] at this
  · linarith [lt_of_le_of_ne h.le hne]

/-- **Rounding down meets its specification.** -/
theorem isDown_of_down (hu : 0 < g.unit) (h : g.down e = .ok r) : g.IsDown e r := by
  simp only [down, bind_eq_ok] at h
  obtain ⟨next, hup, h⟩ := h
  have hnext := isUp_of_up hu hup
  split at h
  · next heq =>
    obtain rfl := pure_eq_ok.1 h
    exact hnext.isDown_of_eq hu heq
  · next hne =>
    obtain ⟨-, rfl⟩ := Epoch.sub_eq_ok.1 h
    exact hnext.isDown_of_ne hne

/-- The last point, in unbounded numbers. -/
def previous (g : Grid) (e : Int) : Int := e - (e - g.offset) % g.unit

theorem isDown_previous (hu : 0 < g.unit) (e : Int) : g.IsDown e (g.previous e) := by
  have hpos := Int.emod_nonneg (e - g.offset) hu.ne'
  have hlt := Int.emod_lt_of_pos (e - g.offset) hu
  refine ⟨⟨(e - g.offset) / g.unit, ?_⟩, Int.sub_le_self e hpos, ?_⟩
  · have hsplit := Int.mul_ediv_add_emod (e - g.offset) g.unit
    rw [previous]
    linarith
  · rw [previous]
    linarith

/-- Rounding down does not overflow as far as two units from the ends of the range. -/
theorem down_of_room (hu : 0 < g.unit) (hlow : Epoch.InRange (e - 2 * g.unit))
    (hhigh : Epoch.InRange (e + 2 * g.unit)) : g.down e = .ok (g.previous e) := by
  have hnext := isUp_next hu e
  have hprevious := isDown_previous hu e
  rw [down, up_of_room hu hlow hhigh, ok_bind]
  split
  · next heq =>
    rw [hprevious.unique (hnext.isDown_of_eq hu heq)]
    rfl
  · next hne =>
    have hbefore := hprevious.unique (hnext.isDown_of_ne hne)
    rw [Epoch.sub_eq_ok, ← hbefore]
    exact ⟨hlow.between hhigh (by linarith [hprevious.lt]) (by linarith [hprevious.le]), rfl⟩

/-- Rounding to the one grid lands on points of the other. -/
def LandsOn (g base : Grid) : Prop := ∀ e r, g.up e = .ok r → base.OnGrid r

theorem landsOn_self (hu : 0 < g.unit) : g.LandsOn g := fun _ _ h => (isUp_of_up hu h).onGrid

/-- Every epoch is a point of the finest grid. -/
theorem landsOn_finest : g.LandsOn finest := fun _ _ _ => Int.one_dvd _

/-! ### Grids with the same points -/

/-- The two grids have the same points. -/
structure Same (g g' : Grid) : Prop where
  /-- Their units are the same. -/
  unit_eq : g'.unit = g.unit
  /-- Their offsets differ by a multiple of it. -/
  dvd_sub : g.unit ∣ g'.offset - g.offset

namespace Same

variable {g' : Grid}

theorem refl (g : Grid) : Same g g := ⟨rfl, by rw [sub_self]; exact Int.dvd_zero _⟩

theorem symm (h : Same g g') : Same g' g := by
  refine ⟨h.unit_eq.symm, ?_⟩
  rw [h.unit_eq, ← neg_sub]
  exact Int.dvd_neg.2 h.dvd_sub

theorem onGrid (h : Same g g') (he : g.OnGrid e) : g'.OnGrid e := by
  have := Int.dvd_sub he h.dvd_sub
  rw [OnGrid, h.unit_eq]
  rwa [show e - g.offset - (g'.offset - g.offset) = e - g'.offset by ring] at this

theorem isUp (h : Same g g') (hr : g.IsUp e r) : g'.IsUp e r :=
  ⟨h.onGrid hr.onGrid, hr.le, by rw [h.unit_eq]; exact hr.lt⟩

theorem isDown (h : Same g g') (hr : g.IsDown e r) : g'.IsDown e r :=
  ⟨h.onGrid hr.onGrid, hr.le, by rw [h.unit_eq]; exact hr.lt⟩

theorem next_eq (h : Same g g') (hu : 0 < g.unit) (e : Int) : g'.next e = g.next e :=
  (isUp_next (h.unit_eq ▸ hu) e).unique (h.isUp (isUp_next hu e))

theorem previous_eq (h : Same g g') (hu : 0 < g.unit) (e : Int) : g'.previous e = g.previous e :=
  (isDown_previous (h.unit_eq ▸ hu) e).unique (h.isDown (isDown_previous hu e))

end Same

/-- The two grids round alike. The numbers on the way may differ, so there may be epochs at which only one of the two
roundings overflows; none of them is further than two units from the ends of the range. -/
structure RoundsLike (g g' : Grid) : Prop where
  /-- What both answer is the same. -/
  agree : ∀ e r r', g.up e = .ok r → g'.up e = .ok r' → r = r'
  /-- Both answer where there is room. -/
  answer : ∀ e, Epoch.InRange (e - 2 * g.unit) → Epoch.InRange (e + 2 * g.unit) →
    ∃ r, g.up e = .ok r ∧ g'.up e = .ok r

theorem Same.roundsLike {g' : Grid} (h : Same g g') (hu : 0 < g.unit) : RoundsLike g g' := by
  have hu' : 0 < g'.unit := h.unit_eq ▸ hu
  refine ⟨fun e r r' hr hr' => (h.isUp (isUp_of_up hu hr)).unique (isUp_of_up hu' hr'), fun e hlow hhigh => ?_⟩
  refine ⟨g.next e, up_of_room hu hlow hhigh, ?_⟩
  rw [← h.unit_eq] at hlow hhigh
  rw [up_of_room hu' hlow hhigh, h.next_eq hu]

/-! ### Where nothing overflows -/

theorem onGrid_iff_modEq {p : Int} : g.OnGrid p ↔ p ≡ g.offset [ZMOD g.unit] :=
  Int.modEq_iff_dvd.symm.trans Int.modEq_comm

/-- A unit and an epoch of at most `2 ^ 61` leave room for two units on both sides of all epochs within a unit. -/
theorem inRange_of_small (hunit : g.unit ≤ 0x2000000000000000) (he : |e| ≤ 0x2000000000000000) {p : Int}
    (hlow : e - g.unit < p) (hhigh : p < e + g.unit) :
    Epoch.InRange (p - 2 * g.unit) ∧ Epoch.InRange (p + 2 * g.unit) := by
  obtain ⟨he₁, he₂⟩ := abs_le.1 he
  unfold Epoch.InRange
  omega

/-- **Rounding gives the least point at or after an epoch, and the greatest at or before it.** It keeps the points and
the order of epochs, and only the points matter: grids of one unit whose offsets are congruent round alike. -/
theorem rounding_exact (hu : 0 < g.unit) (hunit : g.unit ≤ 0x2000000000000000) (he : |e| ≤ 0x2000000000000000) :
    g.up e = .ok (g.next e) ∧ g.down e = .ok (g.previous e) ∧
      IsLeast {p | e ≤ p ∧ p ≡ g.offset [ZMOD g.unit]} (g.next e) ∧
      IsGreatest {p | p ≤ e ∧ p ≡ g.offset [ZMOD g.unit]} (g.previous e) ∧
      g.up (g.next e) = .ok (g.next e) ∧ g.down (g.previous e) = .ok (g.previous e) ∧
      (∀ e' r', e ≤ e' → g.up e' = .ok r' → g.next e ≤ r') ∧
      (∀ e' r', e ≤ e' → g.down e' = .ok r' → g.previous e ≤ r') ∧
      (∀ p, p ≡ g.offset [ZMOD g.unit] → (g.next e ≤ p ↔ e ≤ p)) ∧
      (g.next e = g.previous e ∨ g.next e = g.previous e + g.unit) ∧
      ∀ g' : Grid, g'.unit = g.unit → g'.offset ≡ g.offset [ZMOD g.unit] → g'.up e = g.up e ∧ g'.down e = g.down e := by
  have hnext := isUp_next hu e
  have hprevious := isDown_previous hu e
  obtain ⟨hlow, hhigh⟩ := inRange_of_small hunit he (sub_lt_self e hu) (lt_add_of_pos_right e hu)
  have hup := up_of_room hu hlow hhigh
  have hdown := down_of_room hu hlow hhigh
  refine ⟨hup, hdown, ⟨⟨hnext.le, onGrid_iff_modEq.1 hnext.onGrid⟩, fun p hp => ?least⟩,
    ⟨⟨hprevious.le, onGrid_iff_modEq.1 hprevious.onGrid⟩, fun p hp => ?greatest⟩, up_of_up hup, ?keeps,
    fun e' r' hle h => ?up, fun e' r' hle h => ?down,
    fun p hp => ⟨hnext.le.trans, hnext.le_of_onGrid (onGrid_iff_modEq.2 hp)⟩, ?near, fun g' hunit' hoffset => ?same⟩
  case least => exact hnext.le_of_onGrid (onGrid_iff_modEq.2 hp.2) hp.1
  case greatest => exact hprevious.le_of_onGrid (onGrid_iff_modEq.2 hp.2) hp.1
  case keeps =>
    obtain ⟨hlow', hhigh'⟩ := inRange_of_small hunit he (p := g.previous e) (by linarith [hprevious.lt])
      (by linarith [hprevious.le])
    rw [down_of_room hu hlow' hhigh', (isDown_previous hu _).unique (.self hu hprevious.onGrid)]
  case up => exact hnext.mono (isUp_of_up hu h) hle
  case down => exact hprevious.mono (isDown_of_down hu h) hle
  case near =>
    by_cases heq : e = g.next e
    · exact .inl ((hnext.isDown_of_eq hu heq).unique hprevious)
    · exact .inr (sub_eq_iff_eq_add.1 ((hnext.isDown_of_ne heq).unique hprevious))
  case same =>
    have hsame : Same g g' := ⟨hunit', Int.modEq_iff_dvd.1 hoffset.symm⟩
    have hu' : 0 < g'.unit := hunit' ▸ hu
    rw [← hunit'] at hlow hhigh
    rw [hup, hdown, ← hsame.next_eq hu, ← hsame.previous_eq hu]
    exact ⟨up_of_room hu' hlow hhigh, down_of_room hu' hlow hhigh⟩

/-- The coarsest grid, with an offset that is below zero, at the earliest epoch. -/
theorem rounding_exact_coarsest :
    Grid.up ⟨0x2000000000000000, -1⟩ (-0x2000000000000000) = .ok (-1) ∧
      Grid.down ⟨0x2000000000000000, -1⟩ (-0x2000000000000000) = .ok (-0x2000000000000001) := by
  obtain ⟨hup, hdown, -⟩ := rounding_exact (g := ⟨0x2000000000000000, -1⟩) (e := -0x2000000000000000) (by decide)
    (by decide) (by decide)
  exact ⟨hup, hdown⟩

end Grid

end SectorLedger
