import SectorLedger.Proofs.Miner.Conservation
import SectorLedger.Proofs.Window

/-!
# The miner's clock

The position in the proving period is the start of the period and the deadline to close next. Each window that closes
moves it on by one deadline, and after the last deadline the period starts anew. The grids of the miner's queues are
counted from the start of the period. As it moves by whole periods, they keep their points.

* `advanceDeadline_frame`: what the closing of a window changes.
* `Closings`: windows that close one after another. `Closings.advance`: no operation that succeeds is left out.
* `Turned.step`, `Closings.turned`: the position after one of them, and after all of them.
* `windows_tile_time`: the windows follow each other without a gap, and the grids round as before.
-/

namespace SectorLedger

namespace Window

variable {timing : Timing} {start now : Int} {i : Nat} {w : Window}

/-- A window is followed by another, which belongs to the next period if its index is zero. -/
structure Follows (timing : Timing) (w w' : Window) : Prop where
  /-- It opens when the first one closes. -/
  opens_eq : w'.opens = w.closes
  /-- Its deadline is the next one, after the last the first. -/
  index_eq : w'.index = (w.index + 1) % timing.deadlines
  /-- The period is the same, unless the index has wrapped. -/
  periodStart_eq : w'.periodStart = if w'.index = 0 then w.periodStart + timing.period else w.periodStart

/-- The last epoch of a window, counted from the start of its period. -/
def lastIn (timing : Timing) (i : Nat) : Int :=
  (if i < timing.deadlines then Count.toEpoch i * timing.window + timing.window else timing.period) - 1

theorem grid_of_make {g : Grid} (h : make timing start i now = .ok w) (hg : w.grid = .ok g) :
    g = ⟨timing.period, start + lastIn timing i⟩ := by
  simp only [grid, last, bind_eq_ok, Epoch.sub_eq_ok, pure_eq_ok] at hg
  obtain ⟨_, ⟨-, rfl⟩, rfl⟩ := hg
  obtain ⟨-, -, -, htiming, ⟨hi, hopens, hcloses⟩ | ⟨hpast, hopens, hcloses⟩⟩ := make_spec h
  · rw [htiming, hcloses, hopens, lastIn, if_pos hi, ← add_sub_assoc, add_assoc]
  · rw [htiming, hcloses, hopens, lastIn, if_neg (not_lt.2 hpast), ← add_sub_assoc]

end Window

namespace MinerState

variable {policy : Policy} {m m' m'' : MinerState} {now : Int} {a : Advance} {w w' : Window} {ws : List Window} {k : Nat}

/-! ### One window -/

/-- The position after a window has closed: the same as before, if the period has not started. -/
structure Moved (policy : Policy) (now : Int) (m : MinerState) (next : Nat) (start : Int) : Prop where
  /-- Before the first period nothing moves. -/
  waiting : now < m.periodStart → next = m.currentDeadline ∧ start = m.periodStart
  /-- The next deadline, after the last the first. -/
  next_eq : m.periodStart ≤ now → next = (m.currentDeadline + 1) % policy.deadlines
  /-- The period ends with its last deadline. -/
  start_eq : m.periodStart ≤ now → start = if next = 0 then m.periodStart + policy.period else m.periodStart

/-- A window that closes changes funds, pledge, deadlines and the position, and nothing else. The funds change as what
has vested is unlocked. -/
theorem advanceDeadline_frame (h : m.advanceDeadline policy now = .ok (m', a)) :
    ∃ locked vesting vested pledge deadlines early next start,
      m.unlockVested now = .ok ({ m with lockedFunds := locked, vesting }, vested) ∧
      m' = { m with
        lockedFunds := locked, vesting, initialPledge := pledge, deadlines, earlyTerminations := early
        currentDeadline := next, periodStart := start } ∧ Moved policy now m next start := by
  obtain ⟨m₁, vested, w, hvest, hw, h⟩ := advanceDeadline_spec h
  obtain ⟨locked, vesting, rfl⟩ : ∃ locked vesting, m₁ = { m with lockedFunds := locked, vesting } := by
    rcases unlockVested_spec hvest with ⟨-, rfl, -⟩ | ⟨_, -, -, -, rfl⟩ <;> exact ⟨_, _, rfl⟩
  obtain ⟨hperiod, hindex, hseen, -⟩ := Window.make_spec hw
  have hstarted : w.periodStarted = decide (m.periodStart ≤ now) := by rw [Window.periodStarted, hperiod, hseen]
  rcases h with ⟨hwaiting, rfl, -⟩ | ⟨m₂, ds, d, hbegun, hnext, -, -, h⟩
  · have hlt : now < m.periodStart := not_le.1 (of_decide_eq_false (hstarted ▸ hwaiting))
    exact ⟨_, _, vested, _, _, _, _, _, hvest, rfl, fun _ => ⟨rfl, rfl⟩, fun hle => absurd hle (not_le.2 hlt),
      fun hle => absurd hle (not_le.2 hlt)⟩
  · have hle : m.periodStart ≤ now := of_decide_eq_true (hstarted ▸ hbegun)
    obtain ⟨next, start, rfl, hmove, hstart⟩ := nextDeadline_spec hnext
    rw [hindex] at hmove
    rw [hperiod] at hstart
    have hmoved : Moved policy now m next start :=
      ⟨fun hlt => absurd hle (not_le.2 hlt), fun _ => hmove, fun _ => hstart⟩
    rcases h with ⟨-, rfl, -⟩ | ⟨-, hclose⟩
    · exact ⟨_, _, vested, _, _, _, next, start, hvest, rfl, hmoved⟩
    · obtain ⟨_, _, _, _, _, _, _, -, -, -, -, -, -, ⟨early, rfl⟩, -⟩ := closeDeadline_spec hclose
      exact ⟨_, _, vested, _, _, early, next, start, hvest, rfl, hmoved⟩

/-- A window that closes can be computed. -/
theorem deadlineInfo_of_advanceDeadline (h : m.advanceDeadline policy now = .ok (m', a)) :
    ∃ w, m.deadlineInfo policy now = .ok w := by
  obtain ⟨m₁, vested, w, hvest, hw, -⟩ := advanceDeadline_spec h
  rcases unlockVested_spec hvest with ⟨-, rfl, -⟩ | ⟨_, -, -, -, rfl⟩ <;> exact ⟨w, hw⟩

/-! ### One window after another -/

/-- Windows that close one after another, each at an epoch after its period has started. -/
inductive Closings (policy : Policy) (m : MinerState) : List Window → MinerState → Prop
  /-- None. -/
  | nil : Closings policy m [] m
  /-- The current window closes after the others. -/
  | snoc {ws : List Window} {m' m'' : MinerState} {now : Int} {w : Window} {a : Advance} (h : Closings policy m ws m')
      (hstarted : m'.periodStart ≤ now) (hw : m'.deadlineInfo policy now = .ok w)
      (hclose : m'.advanceDeadline policy now = .ok (m'', a)) : Closings policy m (ws ++ [w]) m''

/-- The position after a number of windows has closed. -/
structure Turned (policy : Policy) (m : MinerState) (k : Nat) (m' : MinerState) : Prop where
  /-- As many deadlines on, modulo their number. -/
  current_eq : m'.currentDeadline = (m.currentDeadline + k) % policy.deadlines
  /-- One period on for each time that the index has wrapped. -/
  start_eq : m'.periodStart = m.periodStart + ((m.currentDeadline + k) / policy.deadlines : Nat) * policy.period

/-- The window that closes after a number of others. -/
structure Turn (policy : Policy) (m : MinerState) (k : Nat) (w : Window) : Prop where
  /-- Its deadline. -/
  index_eq : w.index = (m.currentDeadline + k) % policy.deadlines
  /-- The start of its period. -/
  start_eq : w.periodStart = m.periodStart + ((m.currentDeadline + k) / policy.deadlines : Nat) * policy.period
  /-- It opens after all windows before it. -/
  opens_eq : w.opens = m.periodStart + (m.currentDeadline + k : Nat) * policy.window
  /-- It is not longer than they are. -/
  closes_eq : w.closes = w.opens + policy.window

/-- Whole periods and the deadlines after them. -/
theorem start_succ (start period : Int) (n d : Nat) :
    (if (n + 1) % d = 0 then start + (n / d : Nat) * period + period else start + (n / d : Nat) * period) =
      start + ((n + 1) / d : Nat) * period := by
  rw [Nat.succ_div]
  simp only [Nat.dvd_iff_mod_eq_zero]
  split
  · push_cast
    ring
  · rw [Nat.add_zero]

/-- One window more. -/
theorem Turned.step (h : Turned policy m k m') (hstarted : m'.periodStart ≤ now)
    (hclose : m'.advanceDeadline policy now = .ok (m'', a)) : Turned policy m (k + 1) m'' := by
  obtain ⟨_, _, _, _, _, _, next, start, -, rfl, hmoved⟩ := advanceDeadline_frame hclose
  have hnext : next = (m.currentDeadline + (k + 1)) % policy.deadlines := by
    rw [hmoved.next_eq hstarted, h.current_eq, Nat.mod_add_mod, add_assoc]
  refine ⟨hnext, ?_⟩
  show start = _
  rw [hmoved.start_eq hstarted, hnext, h.start_eq, ← add_assoc, start_succ]

/-- The window that closes then. -/
theorem Turned.turn (h : Turned policy m k m') (hwindow : 0 < policy.window) (hdeadlines : 0 < policy.deadlines)
    (hperiod : policy.period = policy.deadlines * policy.window) (hrange : Epoch.InRange policy.period)
    (hw : m'.deadlineInfo policy now = .ok w) : Turn policy m k w := by
  have hlt : m'.currentDeadline < policy.deadlines := h.current_eq ▸ Nat.mod_lt _ hdeadlines
  obtain ⟨hstart, hindex, -, -, ⟨-, hopens, hcloses⟩ | ⟨hpast, -⟩⟩ := Window.make_spec hw
  case inr => exact absurd hlt (not_lt.2 hpast)
  have hword : Count.toEpoch m'.currentDeadline = m'.currentDeadline := by
    have hle : (policy.deadlines : Int) ≤ policy.deadlines * policy.window :=
      le_mul_of_one_le_right (Int.natCast_nonneg _) hwindow
    unfold Epoch.InRange at hrange
    exact Count.toEpoch_of_lt (by omega)
  refine ⟨hindex.trans h.current_eq, hstart.trans h.start_eq, ?_, hcloses⟩
  calc w.opens
    _ = m.periodStart + ((m.currentDeadline + k) / policy.deadlines : Nat) * (policy.deadlines * policy.window) +
        ((m.currentDeadline + k) % policy.deadlines : Nat) * policy.window := by
      rw [hopens, hword, h.start_eq, h.current_eq, hperiod]
    _ = m.periodStart + (policy.deadlines * ((m.currentDeadline + k) / policy.deadlines) +
        (m.currentDeadline + k) % policy.deadlines : Nat) * policy.window := by
      push_cast
      ring
    _ = m.periodStart + (m.currentDeadline + k : Nat) * policy.window := by rw [Nat.div_add_mod]

/-- Successive windows follow each other. -/
theorem Turn.follows (h : Turn policy m k w) (h' : Turn policy m (k + 1) w') : w.Follows policy.toTiming w' := by
  refine ⟨?_, ?_, ?_⟩
  · rw [h'.opens_eq, h.closes_eq, h.opens_eq]
    push_cast
    ring
  · rw [h'.index_eq, h.index_eq, Nat.mod_add_mod, add_assoc]
  · rw [h'.start_eq, h'.index_eq, h.start_eq, ← add_assoc, start_succ]

namespace Closings

/-- Every operation that succeeds after its period has started closes the next window. -/
theorem advance (h : Closings policy m ws m') (hstarted : m'.periodStart ≤ now)
    (hclose : m'.advanceDeadline policy now = .ok (m'', a)) : ∃ w, Closings policy m (ws ++ [w]) m'' := by
  obtain ⟨w, hw⟩ := deadlineInfo_of_advanceDeadline hclose
  exact ⟨w, .snoc h hstarted hw hclose⟩

/-- Where the clock is in the end. -/
theorem turned (h : Closings policy m ws m') (hcurrent : m.currentDeadline < policy.deadlines) :
    Turned policy m ws.length m' := by
  induction h with
  | nil => exact ⟨(Nat.mod_eq_of_lt hcurrent).symm, by simp [Nat.div_eq_of_lt hcurrent]⟩
  | snoc _ hstarted _ hclose ih =>
    rw [List.length_append, List.length_singleton]
    exact ih.step hstarted hclose

/-- Each window has its turn. -/
theorem turn (h : Closings policy m ws m') (hwindow : 0 < policy.window)
    (hperiod : policy.period = policy.deadlines * policy.window) (hrange : Epoch.InRange policy.period)
    (hcurrent : m.currentDeadline < policy.deadlines) : ∀ k w, ws[k]? = some w → Turn policy m k w := by
  induction h with
  | nil =>
    intro k w hk
    cases hk
  | @snoc ws m' m'' now w a h _ hw _ ih =>
    intro k w' hk
    rcases lt_trichotomy k ws.length with hlt | rfl | hgt
    · rw [List.getElem?_append_left hlt] at hk
      exact ih k w' hk
    · obtain rfl : w = w' := by simpa using hk
      exact (h.turned hcurrent).turn hwindow (Nat.zero_lt_of_lt hcurrent) hperiod hrange hw
    · rw [List.getElem?_eq_none (by rw [List.length_append, List.length_singleton]; exact hgt)] at hk
      cases hk

end Closings

/-! ### Grids -/

/-- Windows of a valid policy are not empty, and divide its proving period. -/
theorem window_of_validate (h : policy.validate = .ok ()) : 0 < policy.window ∧ policy.window ∣ policy.period := by
  simp only [Policy.validate, failed_bind, ite_failed_eq_ok, bind_eq_ok, not_or, not_le] at h
  obtain ⟨⟨hpos, -⟩, rest, hrem, hzero, -⟩ := h
  rw [Grid.rem_eq_ok hpos] at hrem
  exact ⟨hpos, Int.dvd_of_tmod_eq_zero (hrem.trans (not_ne_iff.1 hzero))⟩

/-- The grid of all windows keeps its points when one of them closes. -/
theorem same_of_advanceDeadline (hdvd : policy.window ∣ policy.period) (h : m.advanceDeadline policy now = .ok (m', a)) :
    (m.everyDeadlineGrid policy).Same (m'.everyDeadlineGrid policy) := by
  obtain ⟨_, _, _, _, _, _, next, start, -, rfl, hmoved⟩ := advanceDeadline_frame h
  refine ⟨rfl, ?_⟩
  show policy.window ∣ start - m.periodStart
  rcases lt_or_ge now m.periodStart with hlt | hle
  · rw [(hmoved.waiting hlt).2, sub_self]
    exact Int.dvd_zero _
  · rw [hmoved.start_eq hle]
    split
    · rwa [add_sub_cancel_left]
    · rw [sub_self]
      exact Int.dvd_zero _

/-- It keeps them whenever the start of the period moves by whole periods. -/
theorem Turned.same_everyDeadlineGrid (h : Turned policy m k m') (hdvd : policy.window ∣ policy.period) :
    (m.everyDeadlineGrid policy).Same (m'.everyDeadlineGrid policy) := by
  refine ⟨rfl, ?_⟩
  show policy.window ∣ m'.periodStart - m.periodStart
  rw [h.start_eq, add_sub_cancel_left]
  exact Int.dvd_mul_of_dvd_right hdvd

/-- So does the grid of the windows of one deadline. -/
theorem Turned.same_deadlineGrid (h : Turned policy m k m') {i : Nat} {g g' : Grid}
    (hg : m.deadlineGrid policy i = .ok g) (hg' : m'.deadlineGrid policy i = .ok g') :
    g.Same g' ∧ g.unit = policy.period := by
  obtain ⟨w, hw, hg⟩ := bind_eq_ok.1 hg
  obtain ⟨w', hw', hg'⟩ := bind_eq_ok.1 hg'
  rw [Window.grid_of_make hw hg, Window.grid_of_make hw' hg']
  refine ⟨⟨rfl, ?_⟩, rfl⟩
  show policy.period ∣ m'.periodStart + _ - (m.periodStart + _)
  rw [add_sub_add_right_eq_sub, h.start_eq, add_sub_cancel_left]
  exact Int.dvd_mul_left _ _

/-- **Windows tile the time, and the grids stay.** Whatever windows close one after another, each opens when the one
before it closes, their deadlines follow each other cyclically, and the start of the period moves by one period each
time that the index wraps, and not otherwise. The grids of the miner's queues, those of single deadlines and that of all
windows, round as they did before. -/
theorem windows_tile_time (hwindow : 0 < policy.window) (hperiod : policy.period = policy.deadlines * policy.window)
    (hrange : Epoch.InRange policy.period) (hcurrent : m.currentDeadline < policy.deadlines)
    (h : Closings policy m ws m') :
    ws.IsChain (Window.Follows policy.toTiming) ∧
    (∀ k w, ws[k]? = some w → w.index = (m.currentDeadline + k) % policy.deadlines ∧
      w.periodStart = m.periodStart + ((m.currentDeadline + k) / policy.deadlines : Nat) * policy.period) ∧
    m'.currentDeadline = (m.currentDeadline + ws.length) % policy.deadlines ∧
    m'.periodStart = m.periodStart + ((m.currentDeadline + ws.length) / policy.deadlines : Nat) * policy.period ∧
    (∀ i g g', m.deadlineGrid policy i = .ok g → m'.deadlineGrid policy i = .ok g' → g.RoundsLike g') ∧
    (m.everyDeadlineGrid policy).RoundsLike (m'.everyDeadlineGrid policy) := by
  have hturn := h.turn hwindow hperiod hrange hcurrent
  have hturned := h.turned hcurrent
  have hpos : 0 < policy.period := by
    rw [hperiod]
    exact Int.mul_pos (Int.natCast_pos.2 (Nat.zero_lt_of_lt hcurrent)) hwindow
  refine ⟨?chain, fun k w hk => ⟨(hturn k w hk).index_eq, (hturn k w hk).start_eq⟩, hturned.current_eq,
    hturned.start_eq, fun i g g' hg hg' => ?deadline, ?every⟩
  case chain =>
    refine List.isChain_iff_getElem.2 fun k hk => ?_
    exact (hturn k _ (List.getElem?_eq_getElem _)).follows (hturn (k + 1) _ (List.getElem?_eq_getElem hk))
  case deadline =>
    obtain ⟨hsame, hunit⟩ := hturned.same_deadlineGrid hg hg'
    exact hsame.roundsLike (hunit ▸ hpos)
  case every => exact (hturned.same_everyDeadlineGrid (hperiod ▸ Int.dvd_mul_left _ _)).roundsLike hwindow

/-- Parameters with two windows in a period. -/
def twoWindows : Policy := { Policy.devnet with deadlines := 2, period := 10, window := 5 }

/-- A new miner whose first period has started before the epoch zero, at its second deadline. -/
def lateMiner : MinerState := .fresh twoWindows .missing (-7) 1

/-- Three windows close, and with the first and the third a period ends. -/
theorem tile_of_lateMiner : ∃ m' w₀ w₁ w₂,
    Closings twoWindows lateMiner [w₀, w₁, w₂] m' ∧
    [w₀, w₁, w₂].map (fun w => (w.index, w.periodStart, w.opens, w.closes)) =
      [(1, -7, -2, 3), (0, 3, 3, 8), (1, 3, 8, 13)] ∧
    [w₀, w₁, w₂].IsChain (Window.Follows twoWindows.toTiming) ∧ m'.currentDeadline = 0 ∧ m'.periodStart = 13 ∧
    (lateMiner.everyDeadlineGrid twoWindows).RoundsLike (m'.everyDeadlineGrid twoWindows) := by
  have hrun : (do
      let w₀ ← lateMiner.deadlineInfo twoWindows 2
      let (m₁, _) ← lateMiner.advanceDeadline twoWindows 2
      let w₁ ← m₁.deadlineInfo twoWindows 7
      let (m₂, _) ← m₁.advanceDeadline twoWindows 7
      let w₂ ← m₂.deadlineInfo twoWindows 12
      let (m₃, _) ← m₂.advanceDeadline twoWindows 12
      return ([w₀, w₁, w₂].map fun w => (w.index, w.periodStart, w.opens, w.closes), [m₁, m₂].map (·.periodStart),
        m₃.currentDeadline) : Outcome (List (Nat × Int × Int × Int) × List Int × Nat)) =
      .ok ([(1, -7, -2, 3), (0, 3, 3, 8), (1, 3, 8, 13)], [3, 3], 0) := by decide +kernel
  simp only [bind_eq_ok, pure_eq_ok, Prod.mk.injEq] at hrun
  obtain ⟨w₀, hw₀, ⟨m₁, _⟩, h₁, w₁, hw₁, ⟨m₂, _⟩, h₂, w₂, hw₂, ⟨m₃, _⟩, h₃, hwindows, hstarts, hcurrent⟩ := hrun
  simp only [List.map_cons, List.map_nil, List.cons.injEq, and_true] at hstarts
  have hclosings : Closings twoWindows lateMiner [w₀, w₁, w₂] m₃ :=
    .snoc (.snoc (.snoc .nil (by decide : (-7 : Int) ≤ 2) hw₀ h₁) (by rw [hstarts.1]; decide) hw₁ h₂)
      (by rw [hstarts.2]; decide) hw₂ h₃
  obtain ⟨hchain, -, -, hstart, -, hgrid⟩ :=
    windows_tile_time (by decide : 0 < twoWindows.window) (by decide) (by decide) (by decide) hclosings
  have hperiods : lateMiner.periodStart + ((lateMiner.currentDeadline + 3) / twoWindows.deadlines : Nat) *
      twoWindows.period = 13 := by decide
  exact ⟨m₃, w₀, w₁, w₂, hclosings, hwindows, hchain, hcurrent, hstart.trans hperiods, hgrid⟩

end MinerState

end SectorLedger
