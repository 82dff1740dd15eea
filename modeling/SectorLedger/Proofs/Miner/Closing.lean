import SectorLedger.Proofs.Deadline.Closing
import SectorLedger.Proofs.Deadline.Run
import SectorLedger.Proofs.Miner.Conservation
import SectorLedger.Proofs.Window

/-!
# Nothing stops a window from closing

When a window closes, funds vest, the miner moves on to the next deadline, missed proofs become faults, what is due
ends, and its pledge is released. If the records are in order, none of this is refused.

* `unlockVested_total`: what has vested can be unlocked.
* `advanceDeadline_total`: the window closes. Afterwards nothing is overdue but in the partitions that were stranded.
-/

namespace SectorLedger

/-! ### Vesting -/

namespace VestingTable

/-- What is taken from the front is not more than the whole. -/
theorem total_take_le {t : VestingTable} (h : ∀ e ∈ t, 0 ≤ e.amount) (n : Nat) : total (t.take n) ≤ total t := by
  induction t generalizing n with
  | nil => simp
  | cons e t ih =>
    have he := h e List.mem_cons_self
    have ht := fun e he => h e (List.mem_cons_of_mem _ he)
    cases n with
    | zero =>
      have := ih ht 0
      rw [List.take_zero] at this
      rw [List.take_zero]
      simp only [total] at this ⊢
      omega
    | succ n =>
      have := ih ht n
      rw [List.take_succ_cons]
      simp only [total]
      omega

end VestingTable

namespace MinerState

variable {policy : Policy} {size : SectorSize} {table : SectorTable} {m m' : MinerState} {now limit : Int}
  {d : Deadline}

/-- What has vested can be unlocked. -/
theorem unlockVested_total (now : Int) {t : VestingTable} (ht : m.vesting = .held t) (hsum : t.total = m.lockedFunds)
    (hn : ∀ e ∈ t, 0 ≤ e.amount) : ∃ locked vesting vested,
      m.unlockVested now = .ok ({ m with lockedFunds := locked, vesting }, vested) := by
  by_cases hzero : m.lockedFunds = 0
  · exact ⟨m.lockedFunds, m.vesting, 0, by rw [unlockVested, if_pos hzero]; rfl⟩
  · have hle : t.total ≥ (t.unlockVested now).2 := VestingTable.total_take_le hn _
    refine ⟨m.lockedFunds - (t.unlockVested now).2, .held (t.unlockVested now).1, (t.unlockVested now).2, ?_⟩
    simp only [unlockVested, if_neg hzero, failed_bind, loadVesting, bind_eq_ok, Stored.fetch_eq_ok, ite_failed_eq_ok,
      pure_eq_ok, Prod.mk.injEq]
    exact ⟨t, ht, by omega, rfl, rfl⟩

/-! ### The window closes -/

/-- The last epoch of the window to close next. -/
def lastEpoch (policy : Policy) (m : MinerState) : Int :=
  m.periodStart + m.currentDeadline * policy.window + policy.window - 1

/-- The epochs that are computed are in the machine's range. -/
structure EpochsFit (policy : Policy) (limit : Int) (m : MinerState) : Prop where
  /-- The length of a proving period. -/
  period : Epoch.InRange policy.period
  /-- The start of the current period. -/
  periodStart : Epoch.InRange m.periodStart
  /-- The start of the next one. -/
  nextStart : Epoch.InRange (m.periodStart + policy.period)
  /-- The challenge of the window. -/
  challenge : Epoch.InRange (m.periodStart + m.currentDeadline * policy.window - policy.lookback)
  /-- The end of declarations. -/
  faultsClose : Epoch.InRange (m.periodStart + m.currentDeadline * policy.window - policy.faultCutoff)
  /-- The limit for faulty sectors. -/
  limit : Epoch.InRange limit

/-- What has to hold before the window of the current deadline closes. -/
structure Ready (policy : Policy) (size : SectorSize) (table : SectorTable) (limit : Int) (d : Deadline)
    (m : MinerState) : Prop where
  /-- Windows are not empty. -/
  window_pos : 0 < policy.window
  /-- They tile the proving period. -/
  period_eq : policy.period = policy.deadlines * policy.window
  /-- Sectors may be faulty for some time, or for none. -/
  faultMaxAge_nonneg : 0 ≤ policy.faultMaxAge
  /-- The deadlines are there. -/
  held : m.deadlines = .held m.allDeadlines
  /-- There is one for each window. -/
  length_eq : m.allDeadlines.length = policy.deadlines
  /-- The current deadline is one of them. -/
  current_lt : m.currentDeadline < policy.deadlines
  /-- It is there. -/
  current : m.allDeadlines[m.currentDeadline]? = some (.held d)
  /-- It can be closed. -/
  closable : d.Closable ⟨policy.period, m.lastEpoch policy⟩ size table limit
  /-- The limit is where sectors that become faulty now are to end. -/
  limit_up : Grid.IsUp ⟨policy.period, m.lastEpoch policy⟩ (m.lastEpoch policy + policy.faultMaxAge) limit
  /-- The window does not close before the first epoch. -/
  last_nonneg : 0 ≤ m.lastEpoch policy
  /-- The locked funds are the sum of the vesting table, which has no negative amount. -/
  vesting : ∃ t : VestingTable, m.vesting = .held t ∧ t.total = m.lockedFunds ∧ ∀ e ∈ t, 0 ≤ e.amount
  /-- The pledge covers what is to be released. -/
  pledge_le : d.duePledge table (m.lastEpoch policy) ≤ m.initialPledge
  /-- No epoch overflows. -/
  fit : m.EpochsFit policy limit

namespace Ready

variable (h : m.Ready policy size table limit d)
include h

theorem period_pos : 0 < policy.period := by
  have hpos : 0 < (policy.deadlines : Int) := by
    have := h.current_lt
    omega
  rw [h.period_eq]
  exact Int.mul_pos hpos h.window_pos

/-- The limit is after the window, unless sectors may be faulty for no time. -/
theorem last_le : m.lastEpoch policy + policy.faultMaxAge ≤ limit := h.limit_up.le

theorem deadlineInfo_eq : m.deadlineInfo policy now =
    .ok (Window.plan policy.toTiming m.periodStart m.currentDeadline now) :=
  Window.make_total h.current_lt h.window_pos h.period_eq h.fit.period h.fit.periodStart h.fit.nextStart h.fit.challenge
    h.fit.faultsClose now

theorem up_limit : Grid.up ⟨policy.period, m.lastEpoch policy⟩ (m.lastEpoch policy + policy.faultMaxAge) = .ok limit :=
  Grid.up_total h.period_pos h.last_nonneg (le_add_of_nonneg_right h.faultMaxAge_nonneg) h.limit_up h.fit.limit

/-- The miner moves on. -/
theorem nextDeadline_total (now : Int) (m₁ : MinerState) : ∃ next start,
    nextDeadline policy m₁ (Window.plan policy.toTiming m.periodStart m.currentDeadline now) =
      .ok { m₁ with currentDeadline := next, periodStart := start } := by
  have hword : m.currentDeadline + 1 < Count.bound := by
    have hle : (policy.deadlines : Int) ≤ policy.deadlines * policy.window :=
      le_mul_of_one_le_right (Int.natCast_nonneg _) h.window_pos
    have hlt := h.current_lt
    have hrange := h.fit.period.2
    rw [h.period_eq] at hrange
    unfold Count.bound
    omega
  have hne : policy.deadlines ≠ 0 := by
    have := h.current_lt
    omega
  have hrem : Count.rem (m.currentDeadline + 1) policy.deadlines = .ok ((m.currentDeadline + 1) % policy.deadlines) :=
    if_neg hne
  refine ⟨(m.currentDeadline + 1) % policy.deadlines,
    if (m.currentDeadline + 1) % policy.deadlines = 0 then m.periodStart + policy.period else m₁.periodStart, ?_⟩
  simp only [nextDeadline, bind_eq_ok, Count.add_eq_ok]
  refine ⟨_, ⟨hword, rfl⟩, _, hrem, ?_⟩
  split
  · exact bind_eq_ok.2 ⟨_, Epoch.add_eq_ok.2 ⟨h.fit.nextStart, rfl⟩, rfl⟩
  · rfl

/-- The deadline of the window can be closed. -/
theorem closeDeadline_total (now : Int) (m₂ : MinerState) (hpledge : m₂.initialPledge = m.initialPledge)
    (vested : Int) :
    ∃ m' a d', closeDeadline policy m₂ (Window.plan policy.toTiming m.periodStart m.currentDeadline now)
        m.allDeadlines d vested = .ok (m', a) ∧
      m'.deadlines = .held (m.allDeadlines.set m.currentDeadline (.held d')) ∧
      Deadline.Settled ⟨policy.period, m.lastEpoch policy⟩ size table (m.lastEpoch policy) limit d d' := by
  have hlast := h.last_nonneg
  have hle := h.last_le
  have hage := h.faultMaxAge_nonneg
  have hbetween : ∀ x : Int, 0 ≤ x → x ≤ limit → Epoch.InRange x := fun x h₁ h₂ => by
    have hrange := h.fit.limit
    unfold Epoch.InRange at hrange ⊢
    omega
  have hrange : Epoch.InRange (m.lastEpoch policy) := hbetween _ hlast (by omega)
  obtain ⟨d₁, ended, d₂, expired, hend, hpop, hvalid, hreleased, hsettled⟩ :=
    h.closable.close h.period_pos h.up_limit (by omega) hlast hrange
  have hcovered : 0 ≤ m₂.initialPledge + -expired.pledge := by
    have := h.pledge_le
    omega
  have hlastEpoch : (Window.plan policy.toTiming m.periodStart m.currentDeadline now).last = .ok (m.lastEpoch policy) :=
    Epoch.sub_eq_ok.2 ⟨hrange, rfl⟩
  have hfault : Epoch.add (m.lastEpoch policy) policy.faultMaxAge = .ok (m.lastEpoch policy + policy.faultMaxAge) :=
    Epoch.add_eq_ok.2 ⟨hbetween _ (by omega) hle, rfl⟩
  have hrelease : m₂.addInitialPledge (-expired.pledge) =
      .ok { m₂ with initialPledge := m₂.initialPledge + -expired.pledge } := by
    rw [addInitialPledge, if_neg (Int.not_lt.2 hcovered)]
    rfl
  have hput : Deadlines.put policy m.allDeadlines m.currentDeadline d₂ =
      .ok (m.allDeadlines.set m.currentDeadline (.held d₂)) :=
    Deadlines.put_eq_ok.2 ⟨h.current_lt, hvalid, h.length_eq ▸ h.current_lt, rfl⟩
  refine ⟨_, _, d₂, bind_eq_ok.2 ⟨_, hlastEpoch, bind_eq_ok.2 ⟨_, hfault, bind_eq_ok.2 ⟨_, noting_eq_ok.2 hend,
    bind_eq_ok.2 ⟨_, noting_eq_ok.2 hpop, bind_eq_ok.2 ⟨_, hrelease, bind_eq_ok.2 ⟨_, hput, rfl⟩⟩⟩⟩⟩⟩, ?_, hsettled⟩
  rfl

end Ready

/-- The closing of a window, when all that comes before has succeeded. -/
theorem advanceDeadline_eq {m₁ m₂ : MinerState} {w : Window} {ds : Deadlines} {vested : Int}
    (hvest : m.unlockVested now = .ok (m₁, vested)) (hw : m₁.deadlineInfo policy now = .ok w)
    (hstarted : w.periodStarted = true) (hnext : nextDeadline policy m₁ w = .ok m₂) (hds : m₂.deadlines = .held ds)
    (hload : Deadlines.load policy ds w.index = .ok d) : m.advanceDeadline policy now =
      if d.live = 0 then
        .ok (m₂, { pledgeDelta := -vested, previouslyFaulty := d.faultyPower, totalFaulty := d.faultyPower })
      else closeDeadline policy m₂ w ds d vested := by
  have hdeadlines : m₂.loadDeadlines = .ok ds := loadDeadlines_eq_ok.2 hds
  simp only [advanceDeadline, hvest, hw, hstarted, hnext, hdeadlines, hload, noting, onFailure, bind, Except.bind, pure,
    Except.pure, Bool.not_true, Bool.false_eq_true, if_false]

/-- **A window can be closed.** Afterwards nothing is left to prove or to recover in its deadline, and what was not
proven is faulty. Nothing is overdue but in the partitions that were stranded, and there are none if sectors may be
faulty for some time. -/
theorem advanceDeadline_total (h : m.Ready policy size table limit d) (hnow : m.periodStart ≤ now) : ∃ m' a d',
    m.advanceDeadline policy now = .ok (m', a) ∧
      m'.allDeadlines = m.allDeadlines.set m.currentDeadline (.held d') ∧
      Deadline.Settled ⟨policy.period, m.lastEpoch policy⟩ size table (m.lastEpoch policy) limit d d' ∧
      (0 < policy.faultMaxAge → ∀ i, ¬d'.Overdue (m.lastEpoch policy) i) := by
  obtain ⟨t, ht, hsum, hamounts⟩ := h.vesting
  obtain ⟨locked, vesting, vested, hvest⟩ := unlockVested_total now ht hsum hamounts
  have hw : ({ m with lockedFunds := locked, vesting } : MinerState).deadlineInfo policy now =
      .ok (Window.plan policy.toTiming m.periodStart m.currentDeadline now) := h.deadlineInfo_eq
  have hstarted : (Window.plan policy.toTiming m.periodStart m.currentDeadline now).periodStarted = true :=
    decide_eq_true hnow
  obtain ⟨next, start, hnext⟩ := h.nextDeadline_total now { m with lockedFunds := locked, vesting }
  have hload : Deadlines.load policy m.allDeadlines m.currentDeadline = .ok d :=
    Deadlines.load_eq_ok.2 ⟨h.current_lt, h.current⟩
  have hlate : ∀ {d'}, Deadline.Settled ⟨policy.period, m.lastEpoch policy⟩ size table (m.lastEpoch policy) limit d d' →
      0 < policy.faultMaxAge → ∀ i, ¬d'.Overdue (m.lastEpoch policy) i := fun hs hage i hi => by
    have := ((hs.overdue_iff i).1 hi).1
    have := h.last_le
    omega
  rw [advanceDeadline_eq hvest hw hstarted hnext h.held hload]
  split
  · next hlive =>
    have hs := h.closable.sound.toCoherent.settled hlive (m.lastEpoch policy) limit
    refine ⟨_, _, d, rfl, ?_, hs, hlate hs⟩
    obtain ⟨hlt, hget⟩ := List.getElem?_eq_some_iff.1 h.current
    rw [← hget, List.set_getElem_self hlt]
    rfl
  · obtain ⟨m', a, d', hclose, hdeadlines, hs⟩ := h.closeDeadline_total now
      { m with lockedFunds := locked, vesting, currentDeadline := next, periodStart := start } rfl vested
    refine ⟨m', a, d', hclose, ?_, hs, hlate hs⟩
    rw [allDeadlines, hdeadlines]

/-- Two sectors in two partitions. The second becomes faulty, but not for so long that it would end early, and is to
recover. -/
def strandedOperations : List Deadline.Operation :=
  [.addSectors 1 true Partition.sample, .declareFaults 30 (PartitionSectors.ofList [(1, .ofList [2])]),
    .declareRecovered (PartitionSectors.ofList [(1, .ofList [2])])]

/-- Parameters by which no sector may be faulty for any time. -/
def strictPolicy : Policy := { samplePolicy with faultMaxAge := 0 }

/-- A miner with such a deadline has the rest in order. -/
theorem ready_sampleMiner (hd : d.Closable ⟨5, 14⟩ size table 14) (hdue : d.duePledge table 14 ≤ 3) :
    (sampleMiner d).Ready strictPolicy size table 14 d where
  window_pos := by decide
  period_eq := by decide
  faultMaxAge_nonneg := by decide
  held := rfl
  length_eq := rfl
  current_lt := (by decide : 0 < 1)
  current := rfl
  closable := hd
  limit_up :=
    ⟨(by decide : (5 : Int) ∣ 14 - 14), (by decide : (14 : Int) + 0 ≤ 14), (by decide : (14 : Int) < 14 + 0 + 5)⟩
  last_nonneg := (by decide : (0 : Int) ≤ 14)
  vesting := ⟨_, rfl, rfl, by decide⟩
  pledge_le := hdue.trans (by decide : (3 : Int) ≤ 7)
  fit := ⟨(by decide : Epoch.InRange 5), (by decide : Epoch.InRange 10), (by decide : Epoch.InRange (10 + 5)),
    (by decide : Epoch.InRange (10 + 0 * 5 - 5)), (by decide : Epoch.InRange (10 + 0 * 5 - 7)),
    (by decide : Epoch.InRange 14)⟩

/-- In the end the second sector is overdue. -/
theorem overdue_of_strandedOperations : ∃ d w m' a d',
    Deadline.Run ⟨5, 14⟩ .kib2 (.ofList Partition.sample)
      (Deadline.Operation.Admissible ⟨5, 14⟩ .kib2 (.ofList Partition.sample)) strandedOperations d w ∧
    (sampleMiner d).Ready strictPolicy .kib2 (.ofList Partition.sample) 14 d ∧
    (sampleMiner d).advanceDeadline strictPolicy 14 = .ok (m', a) ∧ m'.allDeadlines = [.held d'] ∧
    Deadline.Settled ⟨5, 14⟩ .kib2 (.ofList Partition.sample) 14 14 d d' ∧ d'.Overdue 14 1 := by
  have hrun : ((Deadline.follow ⟨5, 14⟩ .kib2 (.ofList Partition.sample)
      (Deadline.Operation.Admissible ⟨5, 14⟩ .kib2 (.ofList Partition.sample)) strandedOperations ({}, 0)).map fun s =>
        decide (s.1.Nonneg .kib2 (.ofList Partition.sample) ∧ s.1.Fits ∧ s.1.posted = ∅ ∧
          (∀ e ∈ s.1.parts.entries, ∀ c ∈ e.2.queue.entries, c.2.early = ∅) ∧
          s.1.duePledge (.ofList Partition.sample) 14 = 3 ∧ (∀ c ∈ s.1.queue.entries, c.1 ≤ 14 → 1 ∉ c.2) ∧
          ∃ e ∈ s.1.parts.entries, e.1 = 1 ∧ e.2.recoveries ≠ ∅ ∧ (∀ n ∈ e.2.liveSectors.elements, n ∈ e.2.faults) ∧
            2 ∈ (e.2.queue.entry 24).onTime)) = some true := by decide +kernel
  obtain ⟨⟨d, w⟩, hfollow, hcheck⟩ := Option.map_eq_some_iff.1 hrun
  obtain ⟨hnonneg, hfits, hposted, hearly, hdue, hlisted, ⟨i, p⟩, hp, rfl, hlost, hall, hon⟩ := of_decide_eq_true hcheck
  have hd := Deadline.Run.of_follow .start hfollow
  have hsound := (Deadline.invariant_of_run (by decide) (SectorTable.keyed_ofList Partition.sample) hd (by decide) 30
    (by decide)).sound
  have hclosable : d.Closable ⟨5, 14⟩ .kib2 (.ofList Partition.sample) 14 := by
    refine ⟨hsound, hnonneg, hfits, fun i hi => ?_, fun i p hp k n hn => ?_⟩
    · rw [hposted] at hi
      exact absurd hi (NumberSet.not_mem_empty i)
    · have hmem := ExpirationQueue.get?_of_mem (ExpirationSet.mem_members.2 (.inr hn))
      have hnone : (p.queue.entry k).early = ∅ :=
        hearly (i, p) (SparseArray.mem_entries.2 hp) (k, p.queue.entry k) (SparseArray.mem_entries.2 hmem)
      exact absurd (hnone ▸ hn) (NumberSet.not_mem_empty n)
  have hstranded : d.Stranded 14 14 1 :=
    ⟨le_rfl, hposted ▸ NumberSet.not_mem_empty 1,
      fun k hk hi => hlisted (k, _) (SparseArray.mem_entries.2 (NumberQueue.get?_of_mem hi)) (Int.ofNat_le.1 hk) hi, p,
      SparseArray.mem_entries.1 hp, hlost, fun n hn => hall n (NumberSet.mem_elements.2 hn), 24, 2, by decide, hon⟩
  obtain ⟨m', a, d', hadvance, hdeadlines, hsettled, -⟩ :=
    advanceDeadline_total (ready_sampleMiner hclosable hdue.le) (by decide : (10 : Int) ≤ 14)
  exact ⟨d, w, m', a, d', hd, ready_sampleMiner hclosable hdue.le, hadvance, hdeadlines, hsettled,
    (hsettled.overdue_iff 1).2 hstranded⟩

end MinerState

end SectorLedger
