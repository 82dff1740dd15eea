import SectorLedger.Proofs.Miner.Closing
import SectorLedger.Proofs.Miner.Posting
import SectorLedger.Proofs.Miner.Repaying
import SectorLedger.Proofs.Vesting.Schedule

/-!
# The locked funds of a miner

The locked funds are kept as a total beside the vesting table, and the total alone decides whether the table is looked
at. Sums are locked by different schedules, what has vested is cut off in front, and penalties are taken out of the
middle; the total follows the table all the time.

* `BackedBy`: the table is sound and adds up to the locked funds.
* `BackedBy.unlockVested`, `BackedBy.unlockUnvested`: amounts are always there to be unlocked.
* `Movement`: the operations on the funds. `Kept.apply`: one of them.
* `vesting_table_backs_locked_funds`: any run of them.
-/

namespace SectorLedger

namespace MinerState

open VestingTable

variable {policy : Policy} {m m' : MinerState} {t : VestingTable} {now amount : Int}

/-! ### The table backs the funds -/

/-- The vesting table is sound, and adds up to the locked funds. -/
structure BackedBy (m : MinerState) (t : VestingTable) : Prop where
  /-- It is the miner's. -/
  held : m.vesting = .held t
  /-- Its epochs ascend, and no amount is negative. -/
  sound : t.Sound
  /-- It adds up. -/
  total_eq : t.total = m.lockedFunds

/-- Some vesting table backs the locked funds. -/
def Backed (m : MinerState) : Prop := ∃ t, m.BackedBy t

/-- An amount is unlocked, and nothing else changes. -/
structure Unlocks (m m' : MinerState) (amount : Int) : Prop where
  /-- The locked funds and the table change. -/
  only : m' = { m with lockedFunds := m.lockedFunds - amount, vesting := m'.vesting }
  /-- The table still backs the funds. -/
  backed : m'.Backed

/-- Nothing is unlocked. -/
theorem Backed.unlocks_zero (h : m.Backed) : Unlocks m m 0 := ⟨by rw [sub_zero], h⟩

theorem BackedBy.summedBy (h : m.BackedBy t) : m.SummedBy t := ⟨h.held, h.sound.ordered, h.total_eq⟩

theorem BackedBy.loadVesting (h : m.BackedBy t) : m.loadVesting = .ok t := Stored.fetch_eq_ok.2 h.held

/-- An amount comes off the table. -/
theorem BackedBy.unlocks (h : m.BackedBy t) {t' : VestingTable} (ht' : t'.Sound) (hsum : total t' + amount = total t) :
    Unlocks m { m with lockedFunds := m.lockedFunds - amount, vesting := .held t' } amount :=
  ⟨rfl, t', rfl, ht', by rw [← h.total_eq, ← hsum, add_sub_cancel_right]⟩

/-- **What has vested can always be unlocked**, and is as much as a reader is told. -/
theorem BackedBy.unlockVested (h : m.BackedBy t) (now : Int) : ∃ m',
    m.unlockVested now = .ok (m', t.vestedBefore now) ∧ m.vestedFunds now = .ok (t.vestedBefore now) ∧
      Unlocks m m' (t.vestedBefore now) := by
  have htold : m.vestedFunds now = .ok (t.vestedBefore now) := by
    rw [vestedFunds, h.loadVesting]
    rfl
  by_cases hzero : m.lockedFunds = 0
  · rw [htold, (h.summedBy.total_eq_zero hzero now).1]
    exact ⟨m, by rw [MinerState.unlockVested, if_pos hzero]; rfl, rfl, Backed.unlocks_zero ⟨t, h⟩⟩
  · have hsplit := total_vested_add_unvested now t
    rw [add_comm] at hsplit
    refine ⟨_, ?_, htold, h.unlocks (h.sound.unvested now) hsplit⟩
    rw [MinerState.unlockVested, if_neg hzero, h.loadVesting, ok_bind, h.sound.ordered.unlockVested_eq]
    dsimp only
    rw [if_neg (h.summedBy.not_neg (h.sound.unvested now).nonneg hsplit)]
    rfl

/-- What is taken out of the table comes off the locked funds. -/
theorem BackedBy.unlocks_takenOut (h : m.BackedBy t) {t' : VestingTable} (ht : TakenOut now amount t t') :
    Unlocks m { m with lockedFunds := m.lockedFunds - amount, vesting := .held t' } amount :=
  h.unlocks (ht.arranged h.sound) ht.total_eq

/-- **What has not vested can always be unlocked**, as far as it goes. -/
theorem BackedBy.unlockUnvested (h : m.BackedBy t) (now target : Int) : ∃ m',
    m.unlockUnvested now target = .ok (m', (draw target (t.unvested now)).2) ∧
      Unlocks m m' (draw target (t.unvested now)).2 := by
  obtain ⟨t', hunlock, htaken⟩ := h.summedBy.unlockUnvested now target
  exact ⟨_, hunlock, h.unlocks_takenOut htaken⟩

/-- A sum that is not negative is locked after what has vested is unlocked. Only the schedule may stop this. -/
theorem BackedBy.lockFunds (h : m.BackedBy t) (now : Int) {sum : Int} (hsum : 0 ≤ sum) (spec : VestingSpec) :
    m.lockFunds now sum spec = (do
      let t' ← (t.unvested now).lock now sum m.periodStart spec
      return ({ m with lockedFunds := m.lockedFunds - t.vestedBefore now + sum, vesting := .held t' },
        t.vestedBefore now)) := by
  have hsplit := total_vested_add_unvested now t
  rw [add_comm] at hsplit
  rw [MinerState.lockFunds, if_neg (not_lt.2 hsum), h.loadVesting, ok_bind, h.sound.ordered.unlockVested_eq]
  dsimp only
  rw [h.summedBy.releaseLocked (h.sound.unvested now).nonneg hsplit]
  rfl

/-! ### Movements -/

/-- An operation on the funds. -/
inductive Movement where
  /-- A sum is locked by a schedule. -/
  | lock (now sum : Int) (spec : VestingSpec)
  /-- What has vested is unlocked. -/
  | unlockVested (now : Int)
  /-- Up to an amount of what has not vested is unlocked. -/
  | unlockUnvested (now target : Int)
  /-- A penalty is added to the debt. -/
  | penalize (penalty : Int)
  /-- Debt is paid, from what has not vested first. -/
  | repay (now balance : Int)
  /-- The window of a deadline closes. -/
  | advance (now : Int)

namespace Movement

/-- Applies a movement. Answers with the change of the locked funds that it accounts for: what it locks, less what it
answers to have unlocked, or reports as the change of the pledge. -/
def apply (policy : Policy) (m : MinerState) : Movement → Outcome (MinerState × Int)
  | lock now sum spec => (fun r => (r.1, sum - r.2)) <$> m.lockFunds now sum spec
  | unlockVested now => (fun r => (r.1, -r.2)) <$> m.unlockVested now
  | unlockUnvested now target => (fun r => (r.1, -r.2)) <$> m.unlockUnvested now target
  | penalize penalty => (fun m' => (m', 0)) <$> m.applyPenalty penalty
  | repay now balance => (fun r => (r.1, -r.2.1)) <$> m.repayPartialDebt now balance
  | advance now => (fun r => (r.1, r.2.pledgeDelta)) <$> m.advanceDeadline policy now

/-- The steps of a schedule have a length, and so does its grid. -/
def Regular : Movement → Prop
  | lock _ _ spec => 0 < spec.stepDuration ∧ 0 < spec.quantization
  | _ => True

/-- All that may stop a movement. In none of these cases would the locked funds become negative: arithmetic fails, as
when an epoch overflows, a negative sum or penalty is given, the balance does not cover what is promised, or there is no
such deadline. -/
def Obstacle (policy : Policy) (m : MinerState) (stop : Stop) : Movement → Prop
  | lock _ sum _ => stop = .fault ∨
    sum < 0 ∧ stop = .failure (.plain s!"negative vesting sum {Amount.shown sum}")
  | unlockVested _ => False
  | unlockUnvested _ _ => False
  | penalize penalty => penalty < 0 ∧
    stop = .failure (.plain s!"applying negative penalty {Amount.shown penalty} not allowed")
  | repay _ balance => balance - m.lockedFunds - m.precommitDeposits - m.initialPledge < 0 ∧
    stop = .failure (.plain ("negative unlocked balance " ++
      Amount.shown (balance - m.lockedFunds - m.precommitDeposits - m.initialPledge)))
  | advance _ => stop = .fault ∨ policy.deadlines ≤ m.currentDeadline ∧
    stop = .failure (.refused ⟨.illegalArgument, s!"invalid deadline {m.currentDeadline}"⟩)

end Movement

/-- Only a fault keeps a miner from moving on. -/
theorem wordless_nextDeadline (policy : Policy) (m : MinerState) (w : Window) :
    Wordless (nextDeadline policy m w) := by
  refine .bind (.count _) fun after => .bind (.ite .fault (.ok _)) fun next => ?_
  split
  · exact .bind (.epoch _) fun _ => .ok _
  · exact .ok _

/-- What a run of movements keeps. -/
structure Kept (policy : Policy) (m : MinerState) : Prop where
  /-- The vesting table backs the locked funds. -/
  backed : m.Backed
  /-- The debt is not negative. -/
  debt_nonneg : 0 ≤ m.feeDebt
  /-- The deadlines are as new. -/
  deadlines_eq : m.deadlines = .held (Deadlines.fresh policy)

theorem kept_fresh (info : Stored MinerInfo) (periodStart : Int) (deadline : Nat) :
    Kept policy (fresh policy info periodStart deadline) :=
  ⟨⟨[], rfl, sound_nil, rfl⟩, le_rfl, rfl⟩

theorem Kept.of_unlocks (h : Kept policy m) (hm : Unlocks m m' amount) :
    Kept policy m' ∧ m'.lockedFunds = m.lockedFunds + -amount := by
  obtain ⟨honly, hbacked⟩ := hm
  refine ⟨⟨hbacked, ?_, ?_⟩, ?_⟩ <;> rw [honly]
  · exact h.debt_nonneg
  · exact h.deadlines_eq
  · exact sub_eq_add_neg _ _

/-- A movement that succeeds changes the locked funds by what it accounts for, and keeps the rest. Another one has met
an obstacle. -/
def Accounted (policy : Policy) (m : MinerState) (o : Movement) : Prop :=
  (∃ m' change, o.apply policy m = .ok (m', change) ∧ Kept policy m' ∧ m'.lockedFunds = m.lockedFunds + change) ∨
    ∃ stop, o.apply policy m = .error stop ∧ o.Obstacle policy m stop

namespace Kept

variable (h : Kept policy m)

include h

theorem lock (now sum : Int) {spec : VestingSpec} (hstep : 0 < spec.stepDuration) (hgrid : 0 < spec.quantization) :
    Accounted policy m (.lock now sum spec) := by
  rcases lt_or_ge sum 0 with hneg | hsum
  · refine .inr ⟨_, ?_, .inr ⟨hneg, rfl⟩⟩
    rw [Movement.apply, lockFunds, if_pos hneg]
    rfl
  · obtain ⟨t, ht⟩ := h.backed
    have heq := ht.lockFunds now hsum spec
    cases hlock : (t.unvested now).lock now sum m.periodStart spec with
    | error stop =>
      refine .inr ⟨stop, ?_, .inl (wordless_lock hstep _ _ _ _ stop hlock)⟩
      rw [Movement.apply, heq, hlock]
      rfl
    | ok t' =>
      obtain ⟨hsound, htotal⟩ := lock_spec (ht.sound.unvested now) hsum hstep hgrid hlock
      refine .inl ⟨{ m with lockedFunds := m.lockedFunds - t.vestedBefore now + sum, vesting := .held t' },
        sum - t.vestedBefore now, by rw [Movement.apply, heq, hlock]; rfl,
        ⟨⟨t', rfl, hsound, ?_⟩, h.debt_nonneg, h.deadlines_eq⟩, ?_⟩
      · have hsplit := total_vested_add_unvested now t
        have hall := ht.total_eq
        dsimp only
        omega
      · dsimp only
        ring

theorem unlockVested (now : Int) : Accounted policy m (.unlockVested now) := by
  obtain ⟨t, ht⟩ := h.backed
  obtain ⟨m', hunlock, -, hunlocks⟩ := ht.unlockVested now
  exact .inl ⟨m', _, by rw [Movement.apply, hunlock]; rfl, h.of_unlocks hunlocks⟩

theorem unlockUnvested (now target : Int) : Accounted policy m (.unlockUnvested now target) := by
  obtain ⟨t, ht⟩ := h.backed
  obtain ⟨m', hunlock, hunlocks⟩ := ht.unlockUnvested now target
  exact .inl ⟨m', _, by rw [Movement.apply, hunlock]; rfl, h.of_unlocks hunlocks⟩

theorem penalize (penalty : Int) : Accounted policy m (.penalize penalty) := by
  rcases lt_or_ge penalty 0 with hneg | hpenalty
  · refine .inr ⟨_, ?_, hneg, rfl⟩
    rw [Movement.apply, applyPenalty, if_pos hneg]
    rfl
  · refine .inl ⟨{ m with feeDebt := m.feeDebt + penalty }, 0, ?_, ?_, (add_zero _).symm⟩
    · rw [Movement.apply, applyPenalty, if_neg (not_lt.2 hpenalty)]
      rfl
    · obtain ⟨t, hheld, hsound, htotal⟩ := h.backed
      exact ⟨⟨t, hheld, hsound, htotal⟩, add_nonneg h.debt_nonneg hpenalty, h.deadlines_eq⟩

theorem repay (now balance : Int) : Accounted policy m (.repay now balance) := by
  rcases lt_or_ge (balance - m.lockedFunds - m.precommitDeposits - m.initialPledge) 0 with hneg | hcovered
  · refine .inr ⟨_, ?_, hneg, rfl⟩
    rw [Movement.apply, repayPartialDebt, unlockedBalance, if_pos hneg]
    rfl
  · obtain ⟨t, ht⟩ := h.backed
    obtain ⟨t', v, hrepay, -, htaken⟩ :=
      ht.summedBy.repayPartialDebt h.debt_nonneg (unlockedBalance_eq_ok.2 ⟨rfl, hcovered⟩) now
    obtain ⟨⟨⟨t'', hheld, hsound, htotal⟩, -, hdeadlines⟩, hlocked⟩ := h.of_unlocks (ht.unlocks_takenOut htaken)
    exact .inl ⟨_, -v, map_eq_ok.2 ⟨_, hrepay, rfl⟩,
      ⟨⟨t'', hheld, hsound, htotal⟩, sub_nonneg.2 (min_le_right _ _), hdeadlines⟩, hlocked⟩

theorem advance (now : Int) : Accounted policy m (.advance now) := by
  obtain ⟨t, ht⟩ := h.backed
  obtain ⟨m₁, hvest, -, hunlocks⟩ := ht.unlockVested now
  have h₁ := h.of_unlocks hunlocks
  have hcurrent : m₁.currentDeadline = m.currentDeadline := by rw [hunlocks.only]
  cases hw : m₁.deadlineInfo policy now with
  | error stop =>
    refine .inr ⟨stop, ?_, .inl (Window.wordless_make _ _ _ _ stop hw)⟩
    simp only [Movement.apply, advanceDeadline, hvest, hw, noting, onFailure, ok_bind]
    rfl
  | ok w =>
    cases hstarted : w.periodStarted with
    | false =>
      refine .inl ⟨m₁, _, ?_, h₁⟩
      simp only [Movement.apply, advanceDeadline, hvest, hw, hstarted, noting, onFailure, ok_bind]
      rfl
    | true =>
      obtain ⟨-, hindex, -⟩ := Window.make_spec hw
      rw [hcurrent] at hindex
      cases hnext : nextDeadline policy m₁ w with
      | error stop =>
        refine .inr ⟨stop, ?_, .inl (wordless_nextDeadline _ _ _ stop hnext)⟩
        simp only [Movement.apply, advanceDeadline, hvest, hw, hstarted, hnext, noting, onFailure, ok_bind]
        rfl
      | ok m₂ =>
        obtain ⟨next, start, rfl, -⟩ := nextDeadline_spec hnext
        obtain ⟨⟨⟨t', hheld, hsound, htotal⟩, hdebt, hdeadlines⟩, hlocked⟩ := h₁
        rcases lt_or_ge m.currentDeadline policy.deadlines with hlt | hge
        · -- The deadline has no sectors.
          have hload : Deadlines.load policy (Deadlines.fresh policy) w.index = .ok {} :=
            Deadlines.load_eq_ok.2 (hindex ▸ ⟨hlt, List.getElem?_replicate_of_lt hlt⟩)
          refine .inl ⟨{ m₁ with currentDeadline := next, periodStart := start }, _, ?_,
            ⟨⟨t', hheld, hsound, htotal⟩, hdebt, hdeadlines⟩, hlocked⟩
          rw [Movement.apply, advanceDeadline_eq hvest hw hstarted hnext hdeadlines hload, if_pos rfl]
          rfl
        · refine .inr ⟨_, ?_, .inr ⟨hge, rfl⟩⟩
          have hload : Deadlines.load policy (Deadlines.fresh policy) w.index =
              refused .illegalArgument s!"invalid deadline {m.currentDeadline}" := by
            rw [Deadlines.load, hindex, if_pos hge]
          simp only [Movement.apply, advanceDeadline, hvest, hw, hstarted, hnext, loadDeadlines, hdeadlines, Stored.fetch,
            refusing, noting, onFailure, ok_bind, hload]
          rfl

/-- One movement. -/
theorem apply (o : Movement) (ho : o.Regular) : Accounted policy m o := by
  cases o with
  | lock now sum spec => exact h.lock now sum ho.1 ho.2
  | unlockVested now => exact h.unlockVested now
  | unlockUnvested now target => exact h.unlockUnvested now target
  | penalize penalty => exact h.penalize penalty
  | repay now balance => exact h.repay now balance
  | advance now => exact h.advance now

end Kept

/-! ### Runs -/

/-- A miner that comes about from a new one by successful movements. -/
inductive Funded (policy : Policy) : MinerState → Prop where
  /-- A new miner. -/
  | start (info : Stored MinerInfo) (periodStart : Int) (deadline : Nat) :
    Funded policy (fresh policy info periodStart deadline)
  /-- One more movement. -/
  | step {m m' : MinerState} {o : Movement} {change : Int} (run : Funded policy m) (ho : o.Regular)
    (h : o.apply policy m = .ok (m', change)) : Funded policy m'

/-- A run keeps what each of its movements keeps. -/
theorem Funded.kept (h : Funded policy m) : Kept policy m := by
  induction h with
  | start info periodStart deadline => exact kept_fresh info periodStart deadline
  | @step m m' o change _ ho h ih =>
    rcases ih.apply o ho with ⟨m₁, _, hok, hkept, -⟩ | ⟨stop, hstop, -⟩
    · obtain rfl : m₁ = m' := (Prod.mk.inj (Except.ok.inj (hok.symm.trans h))).1
      exact hkept
    · exact absurd (hstop.symm.trans h) nofun

/-- Movements in order. -/
theorem Funded.run {os : List Movement} (h : Funded policy m) (hos : ∀ o ∈ os, o.Regular)
    (hrun : foldOutcome (fun m o => (·.1) <$> Movement.apply policy m o) m os = .ok m') : Funded policy m' := by
  refine foldOutcome_invariant (I := fun _ m => Funded policy m) hrun h ?_
  intro done o rest m m' hs hm hstep
  obtain ⟨⟨_, change⟩, happly, rfl⟩ := map_eq_ok.1 hstep
  exact hm.step (hos o (hs ▸ List.mem_append_right _ List.mem_cons_self)) happly

/-- **The vesting table backs the locked funds.** After any run of movements the table is in strictly ascending order,
has no negative amount, and adds up to the locked funds; what a reader is told to have vested is what would be
unlocked. One more movement changes the locked funds by exactly what it accounts for, or it fails, but never because
the locked funds would become negative. -/
theorem vesting_table_backs_locked_funds (h : Funded policy m) :
    (∃ t : VestingTable, m.vesting = .held t ∧ t.Pairwise (·.epoch < ·.epoch) ∧ (∀ e ∈ t, 0 ≤ e.amount) ∧
      m.lockedFunds = t.total) ∧
    (∀ now, ∃ m' vested, m.unlockVested now = .ok (m', vested) ∧ m.vestedFunds now = .ok vested) ∧
    ∀ o : Movement, o.Regular →
      (∀ m' change, o.apply policy m = .ok (m', change) → m'.lockedFunds = m.lockedFunds + change) ∧
      ∀ stop, o.apply policy m = .error stop → o.Obstacle policy m stop := by
  have hkept := h.kept
  obtain ⟨t, ht⟩ := hkept.backed
  refine ⟨⟨t, ht.held, ht.sound.ascending, ht.sound.nonneg, ht.total_eq.symm⟩, fun now => ?_, fun o ho => ?_⟩
  · obtain ⟨m', hunlock, htold, -⟩ := ht.unlockVested now
    exact ⟨m', _, hunlock, htold⟩
  · rcases hkept.apply o ho with ⟨m₁, change₁, hok, -, hlocked⟩ | ⟨stop₁, hstop, hobstacle⟩
    · refine ⟨fun m' change heq => ?_, fun stop heq => absurd (hok.symm.trans heq) nofun⟩
      obtain ⟨rfl, rfl⟩ := Prod.mk.inj (Except.ok.inj (hok.symm.trans heq))
      exact hlocked
    · refine ⟨fun m' change heq => absurd (hstop.symm.trans heq) nofun, fun stop heq => ?_⟩
      obtain rfl := Except.error.inj (hstop.symm.trans heq)
      exact hobstacle

/-- Two sums are locked by different schedules, a penalty is paid from what has not vested, and a window closes. -/
def sampleMovements : List Movement :=
  [.lock 0 100 ⟨0, 10, 2, 1⟩, .lock 3 50 ⟨1, 0, 3, 4⟩, .penalize 30, .repay 5 1000, .unlockUnvested 5 5, .advance 10]

/-- Only what vests last is left: a part of the first sum, and the second one. -/
theorem backed_of_sampleMovements : ∃ m,
    foldOutcome (fun m o => (·.1) <$> Movement.apply samplePolicy m o) (fresh samplePolicy .missing 10 0)
      sampleMovements = .ok m ∧
    Funded samplePolicy m ∧ m.vesting = .held [⟨10, 70⟩] ∧ m.lockedFunds = 70 ∧ m.vestedFunds 11 = .ok 70 ∧
    (∃ m', m.unlockVested 11 = .ok (m', 70)) ∧
    ∀ o : Movement, o.Regular →
      (∀ m' change, o.apply samplePolicy m = .ok (m', change) → m'.lockedFunds = m.lockedFunds + change) ∧
      ∀ stop, o.apply samplePolicy m = .error stop → o.Obstacle samplePolicy m stop := by
  have hrun : (fun m : MinerState => (m.vesting, m.vestedFunds 11)) <$>
      foldOutcome (fun m o => (·.1) <$> Movement.apply samplePolicy m o) (fresh samplePolicy .missing 10 0)
        sampleMovements = .ok (.held [⟨10, 70⟩], .ok 70) := by decide +kernel
  obtain ⟨m, hfold, heq⟩ := map_eq_ok.1 hrun
  obtain ⟨hvesting, hvested⟩ := Prod.mk.inj heq
  have hregular : ∀ o ∈ sampleMovements, o.Regular := by
    intro o ho
    simp only [sampleMovements, List.mem_cons, List.not_mem_nil, or_false] at ho
    rcases ho with rfl | rfl | rfl | rfl | rfl | rfl
    · exact ⟨by decide, by decide⟩
    · exact ⟨by decide, by decide⟩
    all_goals exact trivial
  have hm : Funded samplePolicy m := (Funded.start .missing 10 0).run hregular hfold
  obtain ⟨⟨t, ht, -, -, hlocked⟩, hunlock, hmovements⟩ := vesting_table_backs_locked_funds hm
  obtain rfl := Stored.held.inj (hvesting.symm.trans ht)
  obtain ⟨m', vested, hunlocked, htold⟩ := hunlock 11
  obtain rfl := Except.ok.inj (htold.symm.trans hvested)
  exact ⟨m, hfold, hm, hvesting, hlocked, hvested, ⟨m', hunlocked⟩, hmovements⟩

end MinerState

end SectorLedger
