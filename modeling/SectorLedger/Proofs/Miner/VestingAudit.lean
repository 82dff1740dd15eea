import SectorLedger.Proofs.Auditing
import SectorLedger.Proofs.Miner.Clock
import SectorLedger.Proofs.Miner.Vesting
import SectorLedger.Proofs.Vesting.Ample

/-!
# The audit of the vesting table

An audit expects the entries of the vesting table to lie on the grid of all windows, to have positive amounts, and to
add up to the locked funds. Two of these hold after any run of movements, though the grid is counted from a period start
that moves. The amounts are a different matter: the shares of a schedule are rounded down, and where the time between
two releases earns nothing, an entry without an amount is recorded, and the audit writes it down.

* `OnWindows`: the entries lie on the grid. `OnWindows.of_leftOf`: some of them are left.
* `OnWindows.apply`: one movement.
* `vesting_audit_finds_emptyEntries`: any run of them, and what the audit finds.
-/

namespace SectorLedger

namespace MinerState

open VestingTable

variable {policy : Policy} {m m' : MinerState} {t t' : VestingTable} {now amount change : Int} {o : Movement}
  {os : List Movement}

/-! ### Single movements -/

theorem unlockUnvested_spec {target : Int} (h : m.unlockUnvested now target = .ok (m', amount)) :
    m' = m ∨ ∃ t t' locked, m.vesting = .held t ∧ t.unlockUnvested now target = .ok (t', amount) ∧
      m' = { m with lockedFunds := locked, vesting := .held t' } := by
  unfold unlockUnvested at h
  split at h
  · obtain ⟨rfl, -⟩ := Prod.mk.inj (pure_eq_ok.1 h)
    exact .inl rfl
  · simp only [loadVesting, releaseLocked, failed_bind, bind_eq_ok, Stored.fetch_eq_ok, ite_failed_eq_ok, pure_eq_ok,
      Prod.mk.injEq] at h
    obtain ⟨t, ht, ⟨t', _⟩, hunlock, _, ⟨-, rfl⟩, rfl, rfl⟩ := h
    exact .inr ⟨t, t', _, ht, hunlock, rfl⟩

/-- A movement leads where its operation does. -/
theorem exists_of_map_eq_ok {α : Type} {x : Outcome (MinerState × α)} {f : MinerState × α → Int}
    (h : (fun r => (r.1, f r)) <$> x = .ok (m', change)) : ∃ a, x = .ok (m', a) := by
  obtain ⟨⟨_, a⟩, hx, heq⟩ := map_eq_ok.1 h
  obtain ⟨rfl, -⟩ := Prod.mk.inj heq
  exact ⟨a, hx⟩

namespace Movement

/-- The steps of a schedule have a length, and its grid consists of ends of windows. -/
def Aligned (policy : Policy) : Movement → Prop
  | lock _ _ spec => 0 < spec.stepDuration ∧ 0 < spec.quantization ∧ policy.window ∣ spec.quantization
  | _ => True

/-- A sum that is locked is large enough for its schedule to release something each time. -/
def Ample : Movement → Prop
  | lock _ sum spec => sum = 0 ∨ VestingTable.Ample spec spec.quantization sum
  | _ => True

theorem Aligned.regular (h : o.Aligned policy) : o.Regular := by
  cases o with
  | lock now sum spec => exact ⟨h.1, h.2.1⟩
  | _ => exact trivial

end Movement

/-- The entries of the vesting table lie on the grid of all windows. -/
structure OnWindows (policy : Policy) (m : MinerState) (t : VestingTable) : Prop where
  /-- It is the miner's table. -/
  held : m.vesting = .held t
  /-- The entries are points of the grid. -/
  onGrid : ∀ e ∈ t, (m.everyDeadlineGrid policy).OnGrid e.epoch
  /-- Their epochs are in range. -/
  inRange : ∀ e ∈ t, Epoch.InRange e.epoch

namespace OnWindows

variable (h : OnWindows policy m t)

include h

/-- What is left of the table stays on the grid, if the grid keeps its points. -/
theorem of_leftOf (hgrid : (m.everyDeadlineGrid policy).Same (m'.everyDeadlineGrid policy))
    (held : m'.vesting = .held t') (hleft : LeftOf t t') :
    OnWindows policy m' t' ∧ ((∀ e ∈ t, 0 < e.amount) → ∀ e ∈ t', 0 < e.amount) := by
  refine ⟨⟨held, fun e he => ?_, fun e he => ?_⟩, fun hpos e he => ?_⟩ <;> obtain ⟨e', he', hepoch, hkept⟩ := hleft e he
  · exact hepoch ▸ hgrid.onGrid (h.onGrid e' he')
  · exact hepoch ▸ h.inRange e' he'
  · exact hkept (hpos e' he')

theorem of_unlockVested (hsound : t.Sound) (hm : m.unlockVested now = .ok (m', amount)) :
    ∃ t', m'.vesting = .held t' ∧ LeftOf t t' ∧ m'.periodStart = m.periodStart := by
  rcases unlockVested_spec hm with ⟨-, rfl, -⟩ | ⟨_, ht, -, -, rfl⟩
  · exact ⟨t, h.held, leftOf_self t, rfl⟩
  · obtain rfl := Stored.held.inj (h.held.symm.trans ht)
    rw [hsound.ordered.unlockVested_eq]
    exact ⟨_, rfl, leftOf_unvested now t, rfl⟩

theorem of_unlockUnvested (hsound : t.Sound) {target : Int} (hm : m.unlockUnvested now target = .ok (m', amount)) :
    ∃ t', m'.vesting = .held t' ∧ LeftOf t t' ∧ m'.periodStart = m.periodStart := by
  rcases unlockUnvested_spec hm with rfl | ⟨_, t', _, ht, hunlock, rfl⟩
  · exact ⟨t, h.held, leftOf_self t, rfl⟩
  · obtain rfl := Stored.held.inj (h.held.symm.trans ht)
    rw [hsound.ordered.unlockUnvested_eq] at hunlock
    obtain ⟨rfl, -⟩ := Prod.mk.inj (Except.ok.inj hunlock)
    exact ⟨_, rfl, leftOf_vested_append_draw now target t, rfl⟩

/-- A sum is locked on the grid. -/
theorem lock (hsound : t.Sound) (hlocked : t.total = m.lockedFunds) {sum : Int} {spec : VestingSpec}
    (ho : (Movement.lock now sum spec).Aligned policy) (hm : m.lockFunds now sum spec = .ok (m', amount)) :
    ∃ t', OnWindows policy m' t' ∧
      ((Movement.lock now sum spec).Ample → (∀ e ∈ t, 0 < e.amount) → ∀ e ∈ t', 0 < e.amount) := by
  obtain ⟨hstep, hquantization, hdvd⟩ := ho
  have hsum : 0 ≤ sum := by
    by_contra hneg
    rw [lockFunds, if_pos (not_le.1 hneg)] at hm
    exact absurd hm failed_ne_ok
  rw [BackedBy.lockFunds ⟨h.held, hsound, hlocked⟩ now hsum, bind_eq_ok] at hm
  obtain ⟨t', hlock, hm⟩ := hm
  obtain ⟨rfl, -⟩ := Prod.mk.inj (pure_eq_ok.1 hm)
  have hunvested : ∀ e ∈ t.unvested now, e ∈ t := fun e he => (List.dropWhile_sublist _).subset he
  have hplace : ∀ e ∈ t', (m.everyDeadlineGrid policy).OnGrid e.epoch ∧ Epoch.InRange e.epoch := by
    intro e he
    rcases epoch_of_mem_lock hstep hquantization hlock he with ⟨e', he', hepoch⟩ | ⟨hon, hrange⟩
    · exact hepoch ▸ ⟨h.onGrid e' (hunvested e' he'), h.inRange e' (hunvested e' he')⟩
    · exact ⟨Int.dvd_trans hdvd hon, hrange⟩
  exact ⟨t', ⟨rfl, fun e he => (hplace e he).1, fun e he => (hplace e he).2⟩, fun hample hpos =>
    pos_lock hstep hquantization hsum hample hlock fun e he => hpos e (hunvested e he)⟩

/-- One movement. -/
theorem apply (hdvd : policy.window ∣ policy.period) (hsound : t.Sound) (hlocked : t.total = m.lockedFunds)
    (ho : o.Aligned policy) (hm : o.apply policy m = .ok (m', change)) :
    ∃ t', OnWindows policy m' t' ∧ (o.Ample → (∀ e ∈ t, 0 < e.amount) → ∀ e ∈ t', 0 < e.amount) := by
  have hleft : ∀ {m' : MinerState} {t' : VestingTable}, m'.vesting = .held t' → LeftOf t t' →
      (m.everyDeadlineGrid policy).Same (m'.everyDeadlineGrid policy) →
      ∃ t', OnWindows policy m' t' ∧ (o.Ample → (∀ e ∈ t, 0 < e.amount) → ∀ e ∈ t', 0 < e.amount) := by
    intro m' t' held hleft hgrid
    obtain ⟨hon, hpos⟩ := h.of_leftOf hgrid held hleft
    exact ⟨t', hon, fun _ => hpos⟩
  have hstay : ∀ {m' : MinerState}, m'.periodStart = m.periodStart →
      (m.everyDeadlineGrid policy).Same (m'.everyDeadlineGrid policy) := by
    intro m' hstart
    rw [everyDeadlineGrid, everyDeadlineGrid, hstart]
    exact .refl _
  cases o with
  | lock now sum spec =>
    obtain ⟨_, hdone⟩ := exists_of_map_eq_ok hm
    exact h.lock hsound hlocked ho hdone
  | unlockVested now =>
    obtain ⟨_, hdone⟩ := exists_of_map_eq_ok hm
    obtain ⟨t', held, hsame, hstart⟩ := h.of_unlockVested hsound hdone
    exact hleft held hsame (hstay hstart)
  | unlockUnvested now target =>
    obtain ⟨_, hdone⟩ := exists_of_map_eq_ok hm
    obtain ⟨t', held, hsame, hstart⟩ := h.of_unlockUnvested hsound hdone
    exact hleft held hsame (hstay hstart)
  | penalize penalty =>
    obtain ⟨_, hdone, heq⟩ := map_eq_ok.1 hm
    obtain ⟨rfl, -⟩ := Prod.mk.inj heq
    simp only [applyPenalty, failed_bind, ite_failed_eq_ok, pure_eq_ok] at hdone
    obtain ⟨-, rfl⟩ := hdone
    exact hleft h.held (leftOf_self t) (hstay rfl)
  | repay now balance =>
    obtain ⟨_, hdone⟩ := exists_of_map_eq_ok hm
    simp only [repayPartialDebt, failed_bind, bind_eq_ok, ite_failed_eq_ok, pure_eq_ok, Prod.mk.injEq] at hdone
    obtain ⟨_, -, ⟨m₁, _⟩, hunlock, -, rfl, -⟩ := hdone
    obtain ⟨t', held, hsame, hstart⟩ := h.of_unlockUnvested hsound hunlock
    exact hleft held hsame (hstay hstart)
  | advance now =>
    obtain ⟨_, hdone⟩ := exists_of_map_eq_ok hm
    have hgrid := same_of_advanceDeadline hdvd hdone
    obtain ⟨_, _, _, _, _, _, _, _, hvest, rfl, -⟩ := advanceDeadline_frame hdone
    obtain ⟨t', held, hsame, -⟩ := h.of_unlockVested hsound hvest
    exact hleft held hsame hgrid

end OnWindows

/-! ### Runs -/

variable {info : Stored MinerInfo} {periodStart : Int} {deadline : Nat}

/-- The table is the one that backs the funds. -/
theorem OnWindows.backed (h : OnWindows policy m t) (hm : Funded policy m) : t.Sound ∧ t.total = m.lockedFunds := by
  obtain ⟨t', held, hsound, htotal⟩ := hm.kept.backed
  obtain rfl := Stored.held.inj (h.held.symm.trans held)
  exact ⟨hsound, htotal⟩

/-- A new miner has nothing in its vesting table. -/
theorem onWindows_fresh : OnWindows policy (fresh policy info periodStart deadline) [] :=
  ⟨rfl, fun _ he => absurd he List.not_mem_nil, fun _ he => absurd he List.not_mem_nil⟩

/-- After any run the vesting table lies on the grid. If all sums were ample, it has no entry without an amount. -/
theorem onWindows_of_run (hpolicy : policy.validate = .ok ()) (hos : ∀ o ∈ os, o.Aligned policy)
    (hrun : foldOutcome (fun m o => (·.1) <$> Movement.apply policy m o) (fresh policy info periodStart deadline) os =
      .ok m) :
    Funded policy m ∧ ∃ t, OnWindows policy m t ∧ ((∀ o ∈ os, o.Ample) → ∀ e ∈ t, 0 < e.amount) := by
  obtain ⟨-, hdvd⟩ := window_of_validate hpolicy
  refine foldOutcome_invariant (I := fun done m => Funded policy m ∧ ∃ t, OnWindows policy m t ∧
    ((∀ o ∈ done, o.Ample) → ∀ e ∈ t, 0 < e.amount)) hrun ?start ?step
  case start => exact ⟨.start _ _ _, [], onWindows_fresh, fun _ e he => absurd he List.not_mem_nil⟩
  case step =>
    rintro done o rest m m' hs ⟨hfunded, t, hon, hpos⟩ hstep
    obtain ⟨⟨_, change⟩, happly, rfl⟩ := map_eq_ok.1 hstep
    have ho : o.Aligned policy := hos o (hs ▸ List.mem_append_right _ List.mem_cons_self)
    obtain ⟨hsound, htotal⟩ := hon.backed hfunded
    obtain ⟨t', hon', hpos'⟩ := hon.apply hdvd hsound htotal ho happly
    refine ⟨hfunded.step ho.regular happly, t', hon', fun hample => ?_⟩
    rw [List.forall_mem_append] at hample
    exact hpos' (hample.2 o List.mem_cons_self) (hpos hample.1)

/-- **The audit finds the entries without an amount, and nothing else.** After any run of movements the entries of the
vesting table lie on the grid of all windows, have no negative amounts, and add up to the locked funds. Besides what is
wrong with the totals, the audit of the money finds exactly the entries without an amount, unless an entry is so close
to the end of the range that the audit is stopped. If every sum was large enough for its schedule there are none. -/
theorem vesting_audit_finds_emptyEntries (hpolicy : policy.validate = .ok ()) (hos : ∀ o ∈ os, o.Aligned policy)
    (hrun : foldOutcome (fun m o => (·.1) <$> Movement.apply policy m o) (fresh policy info periodStart deadline) os =
      .ok m) :
    ∃ t : VestingTable, m.vesting = .held t ∧ t.total = m.lockedFunds ∧
      (∀ e ∈ t, 0 ≤ e.amount ∧ (m.everyDeadlineGrid policy).OnGrid e.epoch) ∧
      (∀ balance, ∃ found, (Audit.totals m balance).run = .ok (found, ()) ∧ (Audit.balances policy m balance).run =
        if ∀ e ∈ t, Audit.Checkable (m.everyDeadlineGrid policy) e then
          .ok (found ++ (t.filter fun e => e.amount = 0).map Audit.emptyEntry, ())
        else .error .fault) ∧
      ((∀ o ∈ os, o.Ample) → ∀ e ∈ t, 0 < e.amount) := by
  obtain ⟨hwindow, -⟩ := window_of_validate hpolicy
  obtain ⟨hfunded, t, hon, hpos⟩ := onWindows_of_run hpolicy hos hrun
  obtain ⟨hsound, htotal⟩ := hon.backed hfunded
  refine ⟨t, hon.held, htotal, fun e he => ⟨hsound.nonneg e he, hon.onGrid e he⟩, fun balance => ?_, hpos⟩
  obtain ⟨found, hfound⟩ := Audit.exists_run_totals m balance
  have hempty : (t.filter fun e => e.amount = 0) = t.filter fun e => ¬0 < e.amount := by
    refine List.filter_congr fun e he => decide_eq_decide.2 ?_
    rw [not_lt]
    exact ⟨le_of_eq, fun hle => le_antisymm hle (hsound.nonneg e he)⟩
  rw [hempty]
  exact ⟨found, hfound, Audit.run_balances hwindow hon.held hon.onGrid hon.inRange htotal hfound⟩

/-- One unit is locked for two steps. -/
def meagreMovements : List Movement := [.lock 0 1 ⟨0, 20, 10, 10⟩]

/-- Parameters with one window in a period, of ten epochs. -/
def oneWindow : Policy := { Policy.devnet with deadlines := 1, period := 10, window := 10 }

/-- The first step earns nothing, which the audit writes down, though nothing else is wrong. -/
theorem emptyEntries_of_meagreMovements : ∃ m,
    foldOutcome (fun m o => (·.1) <$> Movement.apply oneWindow m o) (fresh oneWindow .missing 0 0) meagreMovements =
      .ok m ∧
    m.vesting = .held [⟨10, 0⟩, ⟨20, 1⟩] ∧ m.lockedFunds = 1 ∧
    (Audit.balances oneWindow m 1).run = .ok ([Audit.emptyEntry ⟨10, 0⟩], ()) := by
  have hrun : (fun m : MinerState => (m.vesting, m.periodStart, (Audit.totals m 1).run)) <$>
      foldOutcome (fun m o => (·.1) <$> Movement.apply oneWindow m o) (fresh oneWindow .missing 0 0) meagreMovements =
      .ok (.held [⟨10, 0⟩, ⟨20, 1⟩], 0, .ok ([], ())) := by decide +kernel
  obtain ⟨m, hfold, heq⟩ := map_eq_ok.1 hrun
  simp only [Prod.mk.injEq] at heq
  obtain ⟨hvesting, hstart, htotals⟩ := heq
  have haligned : ∀ o ∈ meagreMovements, o.Aligned oneWindow := by
    intro o ho
    obtain rfl := List.mem_singleton.1 ho
    exact ⟨by decide, by decide, by decide⟩
  obtain ⟨t, held, hlocked, -, haudit, -⟩ :=
    vesting_audit_finds_emptyEntries (by decide : oneWindow.validate = .ok ()) haligned hfold
  obtain rfl := Stored.held.inj (hvesting.symm.trans held)
  obtain ⟨found, hfound, hbalances⟩ := haudit 1
  obtain rfl : [] = found := (Prod.mk.inj (Except.ok.inj (htotals.symm.trans hfound))).1
  refine ⟨m, hfold, hvesting, hlocked.symm, hbalances.trans ?_⟩
  rw [everyDeadlineGrid, hstart]
  decide +kernel

end MinerState

end SectorLedger
