import SectorLedger.Miner.Funds
import SectorLedger.Proofs.Outcome
import SectorLedger.Proofs.Vesting.Drawing

/-!
# Debt is paid

Debt is paid from what has not vested yet, and then from the balance that is not locked. How much that is, is computed
before anything is taken out of the vesting table. What leaves the table with the payment leaves the locked funds and
the balance alike, so the balance that is not locked is not counted twice.

* `SummedBy`: the table is in order and adds up to the locked funds. `SummedBy.unlockUnvested`: amounts are there to be
  unlocked.
* `TakenOut`: what unlocking has done to a table.
* `SummedBy.repayPartialDebt`: a payment, if what is promised is covered.
* `repayPartialDebt_pays_all_it_can`: what is paid, and what is left where debt remains.
-/

namespace SectorLedger

namespace VestingTable

variable {t t' : VestingTable} {e : Instalment} {now amount target : Int}

/-- A table without negative amounts that sums to zero has nothing in it. -/
theorem eq_zero_of_total_eq_zero (hnonneg : ∀ e ∈ t, 0 ≤ e.amount) (h : total t = 0) (he : e ∈ t) : e.amount = 0 := by
  induction t with
  | nil => exact absurd he List.not_mem_nil
  | cons first rest ih =>
    have hrest := fun e he => hnonneg e (List.mem_cons_of_mem _ he)
    have hfirst : 0 ≤ first.amount := hnonneg first List.mem_cons_self
    have htotal : 0 ≤ total rest := total_nonneg hrest
    rw [total] at h
    rcases List.mem_cons.1 he with rfl | hin
    · omega
    · exact ih hrest (by omega) hin

/-- An amount is taken out of what has not vested yet. -/
structure TakenOut (now amount : Int) (t t' : VestingTable) : Prop where
  /-- Epochs may go, and none comes. -/
  epochs : (t'.map (·.epoch)).Sublist (t.map (·.epoch))
  /-- No amount is negative. -/
  nonneg : ∀ e ∈ t', 0 ≤ e.amount
  /-- What has vested stays. -/
  vested_eq : t'.filter (·.epoch < now) = t.filter (·.epoch < now)
  /-- The amount is what the table has lost. -/
  total_eq : total t' + amount = total t

/-- Nothing is taken out. -/
theorem TakenOut.zero (h : ∀ e ∈ t, 0 ≤ e.amount) (now : Int) : TakenOut now 0 t t :=
  ⟨.refl _, h, rfl, add_zero _⟩

/-- What is drawn is taken out. -/
theorem Ordered.takenOut_draw (h : t.Ordered) (now target : Int) :
    TakenOut now (VestingTable.draw target (t.unvested now)).2 t
      (t.vested now ++ (VestingTable.draw target (t.unvested now)).1) := by
  refine ⟨epochs_vested_append_draw t now target, nonneg_of_mem_vested_append_draw h.nonneg, ?_,
    total_vested_append_draw t now target⟩
  rw [h.filter_lt, filter_lt_vested_append fun e he => ?_]
  obtain ⟨_, hin, hepoch, -⟩ := of_mem_draw he
  exact hepoch ▸ h.le_of_mem_unvested hin

namespace TakenOut

variable (h : TakenOut now amount t t')

include h

/-- A table in order stays in order. -/
theorem arranged {r : Int → Int → Prop} (ht : t.Arranged r) : t'.Arranged r := ht.of_epochs h.epochs h.nonneg

/-- All that has not vested is less by the amount. -/
theorem total_unvested (ht : t.Ordered) : total (t'.unvested now) + amount = total (t.unvested now) := by
  have hvested : t'.vestedBefore now = t.vestedBefore now := by
    have heq := h.vested_eq
    rw [ht.filter_lt, Ordered.filter_lt (h.arranged ht)] at heq
    exact congrArg total heq
  have hbefore := total_vested_add_unvested now t
  have hafter := total_vested_add_unvested now t'
  have htotal := h.total_eq
  omega

end TakenOut

end VestingTable

namespace MinerState

open VestingTable

variable {m m' : MinerState} {t : VestingTable} {now balance : Int}

/-! ### Unlocking -/

/-- The vesting table is in ascending order, and adds up to the locked funds. -/
structure SummedBy (m : MinerState) (t : VestingTable) : Prop where
  /-- It is the miner's. -/
  held : m.vesting = .held t
  /-- Its epochs ascend, and no amount is negative. -/
  ordered : t.Ordered
  /-- It adds up. -/
  total_eq : t.total = m.lockedFunds

namespace SummedBy

variable (h : m.SummedBy t)

include h

/-- An amount that comes off the table does not bring the total below zero. -/
theorem not_neg {t' : VestingTable} {amount : Int} (ht' : ∀ e ∈ t', 0 ≤ e.amount) (hsum : total t' + amount = total t) :
    ¬m.lockedFunds - amount < 0 := by
  rw [← h.total_eq, ← hsum, add_sub_cancel_right]
  exact not_lt.2 (total_nonneg ht')

theorem releaseLocked {t' : VestingTable} {amount : Int} (ht' : ∀ e ∈ t', 0 ≤ e.amount)
    (hsum : total t' + amount = total t) :
    m.releaseLocked amount = .ok { m with lockedFunds := m.lockedFunds - amount } := by
  rw [MinerState.releaseLocked, if_neg (h.not_neg ht' hsum)]
  rfl

/-- If nothing is locked, nothing in the table is worth anything. -/
theorem total_eq_zero (hzero : m.lockedFunds = 0) (now : Int) : t.vestedBefore now = 0 ∧ total (t.unvested now) = 0 := by
  have hsplit := total_vested_add_unvested now t
  have hvested : 0 ≤ t.vestedBefore now := total_nonneg (h.ordered.vested now).nonneg
  have hunvested : 0 ≤ total (t.unvested now) := total_nonneg (h.ordered.unvested now).nonneg
  have htotal := h.total_eq
  omega

/-- **What has not vested can always be unlocked**, as far as it goes. The table is not looked at if nothing is wanted or
nothing is locked. -/
theorem unlockUnvested (now target : Int) : ∃ t',
    m.unlockUnvested now target =
      .ok ({ m with lockedFunds := m.lockedFunds - (draw target (t.unvested now)).2, vesting := .held t' },
        (draw target (t.unvested now)).2) ∧
      TakenOut now (draw target (t.unvested now)).2 t t' := by
  by_cases hnone : target = 0 ∨ m.lockedFunds = 0
  · have hzero : (draw target (t.unvested now)).2 = 0 := by
      rcases le_or_gt target 0 with hle | hgt
      · rw [draw_of_nonpos hle]
      · rw [draw_eq_min hgt.le (h.ordered.unvested now).nonneg,
          (h.total_eq_zero (hnone.resolve_left hgt.ne') now).2, min_eq_right hgt.le]
    have hsame : { m with vesting := .held t } = m := by rw [← h.held]
    rw [hzero, MinerState.unlockUnvested, if_pos hnone, sub_zero]
    exact ⟨t, by rw [hsame]; rfl, .zero h.ordered.nonneg now⟩
  · have htaken := h.ordered.takenOut_draw now target
    refine ⟨_, ?_, htaken⟩
    rw [MinerState.unlockUnvested, if_neg hnone, loadVesting, Stored.fetch_eq_ok.2 h.held, ok_bind,
      h.ordered.unlockUnvested_eq, ok_bind]
    dsimp only
    rw [h.releaseLocked htaken.nonneg htaken.total_eq]
    rfl

end SummedBy

/-! ### Paying -/

theorem unlockedBalance_eq_ok {b : Int} : m.unlockedBalance balance = .ok b ↔
    b = balance - m.lockedFunds - m.precommitDeposits - m.initialPledge ∧ 0 ≤ b := by
  simp only [unlockedBalance, failed_bind, ite_failed_eq_ok, pure_eq_ok, not_lt]
  constructor
  · rintro ⟨h, rfl⟩
    exact ⟨rfl, h⟩
  · rintro ⟨rfl, h⟩
    exact ⟨h, rfl⟩

/-- **Debt is paid where what is promised is covered.** What has not vested comes first. -/
theorem SummedBy.repayPartialDebt (h : m.SummedBy t) (hdebt : 0 ≤ m.feeDebt) {free : Int}
    (hfree : m.unlockedBalance balance = .ok free) (now : Int) : ∃ t' fromVesting,
    m.repayPartialDebt now balance =
      .ok ({ m with
          feeDebt := m.feeDebt - fromVesting - min free (m.feeDebt - fromVesting)
          lockedFunds := m.lockedFunds - fromVesting
          vesting := .held t' }, fromVesting, min free (m.feeDebt - fromVesting)) ∧
      fromVesting = min m.feeDebt (total (t.unvested now)) ∧
      TakenOut now fromVesting t t' := by
  obtain ⟨t', hunlock, htaken⟩ := h.unlockUnvested now m.feeDebt
  have hdrawn := draw_eq_min hdebt (h.ordered.unvested now).nonneg
  refine ⟨t', _, ?_, hdrawn, htaken⟩
  -- No more is unlocked than is owed.
  have hle : ¬(draw m.feeDebt (t.unvested now)).2 > m.feeDebt := by
    rw [hdrawn]
    exact not_lt.2 (min_le_left _ _)
  rw [MinerState.repayPartialDebt, hfree, ok_bind, hunlock, ok_bind]
  dsimp only
  rw [if_neg hle]
  rfl

theorem checkBalance_eq_ok : m.checkBalance balance = .ok () ↔
    0 ≤ m.precommitDeposits ∧ 0 ≤ m.lockedFunds ∧ 0 ≤ m.initialPledge ∧ 0 ≤ m.feeDebt ∧
      m.precommitDeposits + m.lockedFunds + m.initialPledge ≤ balance := by
  simp only [checkBalance, refused_bind, ite_refused_eq_ok, not_lt, pure_eq_ok]
  tauto

/-- A payment from the vesting table and from the balance, at an epoch and with a balance. -/
structure Repaid (now balance : Int) (m : MinerState) (t : VestingTable) (m' : MinerState) (fromVesting fromBalance : Int) :
    Prop where
  /-- Neither part is negative. -/
  fromVesting_nonneg : 0 ≤ fromVesting
  /-- Neither part is negative. -/
  fromBalance_nonneg : 0 ≤ fromBalance
  /-- The debt becomes less by both parts, the locked funds by what leaves the table, and nothing else changes. -/
  only : m' = { m with
    feeDebt := m.feeDebt - (fromVesting + fromBalance)
    lockedFunds := m.lockedFunds - fromVesting
    vesting := m'.vesting }
  /-- No more is paid than is owed. -/
  debt_nonneg : 0 ≤ m'.feeDebt
  /-- As much comes from what has not vested as is owed, if there is as much. -/
  fromVesting_eq : fromVesting = min m.feeDebt (totalAt (now ≤ ·) t)
  /-- The table still adds up to the locked funds, and is in order; what has vested stays. -/
  table : ∃ t', m'.SummedBy t' ∧ t'.filter (·.epoch < now) = t.filter (·.epoch < now) ∧
    (0 < m'.feeDebt → ∀ e ∈ t', now ≤ e.epoch → e.amount = 0)
  /-- What is promised is still covered when both parts have left the balance. -/
  covered : m'.checkBalance (balance - fromVesting - fromBalance) = .ok ()
  /-- If debt remains, all of the balance is locked. -/
  exhausted : 0 < m'.feeDebt → m'.unlockedBalance (balance - fromVesting - fromBalance) = .ok 0

/-- **Debt is paid as far as possible, and what is promised stays covered.** If the table is in order and adds up to the
locked funds, and the balance covers what is promised, then a payment succeeds. -/
theorem repayPartialDebt_pays_all_it_can (hheld : m.vesting = .held t) (hascending : t.Pairwise (·.epoch ≤ ·.epoch))
    (hnonneg : ∀ e ∈ t, 0 ≤ e.amount) (htotal : m.lockedFunds = t.total) (hcovered : m.checkBalance balance = .ok ())
    (now : Int) :
    ∃ m' fromVesting fromBalance, m.repayPartialDebt now balance = .ok (m', fromVesting, fromBalance) ∧
      Repaid now balance m t m' fromVesting fromBalance := by
  have h : m.SummedBy t := ⟨hheld, ⟨hascending, hnonneg⟩, htotal.symm⟩
  obtain ⟨hdeposits, -, hpledge, hdebt, hbalance⟩ := checkBalance_eq_ok.1 hcovered
  have hfree : m.unlockedBalance balance =
      .ok (balance - m.lockedFunds - m.precommitDeposits - m.initialPledge) := unlockedBalance_eq_ok.2 ⟨rfl, by omega⟩
  obtain ⟨t', v, hrepay, hv, htaken⟩ := h.repayPartialDebt hdebt hfree now
  have hunvested : 0 ≤ total (t.unvested now) := total_nonneg (h.ordered.unvested now).nonneg
  have hordered : t'.Ordered := htaken.arranged h.ordered
  have hunvested' := htaken.total_unvested h.ordered
  have hlocked : 0 ≤ total t' := total_nonneg htaken.nonneg
  have hlost := htaken.total_eq
  refine ⟨_, v, _, hrepay, by omega, by omega, ?_, ?_, ?_, ⟨t', ⟨rfl, hordered, ?_⟩, htaken.vested_eq, ?_⟩,
    checkBalance_eq_ok.2 ?_, fun hdebt' => unlockedBalance_eq_ok.2 ?_⟩
  · rw [sub_add_eq_sub_sub]
  · exact sub_nonneg.2 (min_le_right _ _)
  · rw [hv, totalAt_eq_total_filter, h.ordered.filter_le]
  · dsimp only
    omega
  · -- Where debt remains, as much has been drawn as there was.
    intro hdebt' e he hnow
    have hin : e ∈ t'.unvested now := by
      rw [← hordered.filter_le]
      exact List.mem_filter.2 ⟨he, decide_eq_true hnow⟩
    dsimp only at hdebt'
    exact eq_zero_of_total_eq_zero (hordered.unvested now).nonneg (by omega) hin
  · dsimp only
    omega
  · dsimp only at hdebt' ⊢
    omega

/-- A miner with a deposit, a pledge, debt, and two amounts that vest at one epoch. -/
def indebted : MinerState :=
  { MinerState.fresh .devnet .missing 0 0 with
    precommitDeposits := 5
    lockedFunds := 33
    vesting := .held [⟨3, 10⟩, ⟨7, 4⟩, ⟨7, 6⟩, ⟨9, 13⟩]
    feeDebt := 30
    initialPledge := 7 }

/-- What has not vested and what is free do not suffice. -/
theorem repaid_indebted : ∃ m', indebted.repayPartialDebt 5 50 = .ok (m', 23, 5) ∧
    Repaid 5 50 indebted [⟨3, 10⟩, ⟨7, 4⟩, ⟨7, 6⟩, ⟨9, 13⟩] m' 23 5 ∧ m'.feeDebt = 2 ∧ m'.lockedFunds = 10 := by
  obtain ⟨m', v, u, hrepay, hrepaid⟩ := repayPartialDebt_pays_all_it_can (m := indebted) rfl (by decide) (by decide)
    (by decide) (show indebted.checkBalance 50 = .ok () by decide) 5
  have hresult : (fun r => (r.1.feeDebt, r.1.lockedFunds, r.2)) <$> indebted.repayPartialDebt 5 50 =
      .ok (2, 10, 23, 5) := by decide
  rw [hrepay] at hresult
  obtain ⟨hdebt, hlocked, rfl, rfl⟩ : m'.feeDebt = 2 ∧ m'.lockedFunds = 10 ∧ v = 23 ∧ u = 5 := by
    simpa only [Prod.mk.injEq] using Except.ok.inj hresult
  exact ⟨m', hrepay, hrepaid, hdebt, hlocked⟩

end MinerState

end SectorLedger
