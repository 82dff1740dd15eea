import SectorLedger.Miner.Funds
import SectorLedger.Miner.Proving
import SectorLedger.Proofs.Deadline.Conservation

/-!
# Power and pledge of a miner

The power that counts is the sum over all deadlines, and what is locked away is the sum of the locked funds and the
pledge. When a window closes, one deadline changes, funds vest, and pledge is released; the report says by how much.

* `advanceDeadline_spec`: what the closing of a window consists of.
* `power_and_pledge_conserved`: the reports of deadlines and of closing windows add up.
-/

namespace SectorLedger

namespace Deadlines

variable {policy : Policy} {ds ds' : Deadlines} {i : Nat} {d : Deadline}

theorem load_eq_ok : load policy ds i = .ok d ↔ i < policy.deadlines ∧ ds[i]? = some (.held d) := by
  unfold load
  simp only [ite_refused_eq_ok, Nat.not_le, ge_iff_le]
  refine and_congr_right fun _ => ?_
  cases ds[i]? with
  | none => simp
  | some x => simp

theorem put_eq_ok : put policy ds i d = .ok ds' ↔
    i < policy.deadlines ∧ d.validate = .ok () ∧ i < ds.length ∧ ds.set i (.held d) = ds' := by
  unfold put
  simp only [ite_failed_eq_ok, Nat.not_le, ge_iff_le, bind_eq_ok]
  refine and_congr_right fun _ => ?_
  constructor
  · rintro ⟨_, hvalid, h⟩
    split at h
    · next hi => exact ⟨hvalid, hi, pure_eq_ok.1 h⟩
    · cases h
  · rintro ⟨hvalid, hi, h⟩
    exact ⟨(), hvalid, by rw [if_pos hi]; exact pure_eq_ok.2 h⟩

/-- The sum of a function over the deadlines that are there. -/
def total {M : Type} [AddCommGroup M] (f : Deadline → M) (ds : Deadlines) : M :=
  (ds.map fun
    | .held d => f d
    | .missing => 0).sum

/-- The power that counts, over the deadlines that are there. -/
def activePower (ds : Deadlines) : Power := ds.total Deadline.activePower

/-- A deadline that changes brings the change of its share. -/
theorem total_set {M : Type} [AddCommGroup M] (f : Deadline → M) {d' : Deadline} (h : ds[i]? = some (.held d)) :
    total f (ds.set i (.held d')) = total f ds + (f d' - f d) := by
  induction ds generalizing i with
  | nil => simp at h
  | cons x ds ih =>
    cases i with
    | zero =>
      obtain rfl : x = .held d := by simpa using h
      simp only [List.set_cons_zero, total, List.map_cons, List.sum_cons]
      abel
    | succ i =>
      have hset := ih (i := i) (by simpa using h)
      simp only [total] at hset
      simp only [List.set_cons_succ, total, List.map_cons, List.sum_cons, hset]
      abel

/-- A deadline that changes brings the change of its power. -/
theorem activePower_set {d' : Deadline} (h : ds[i]? = some (.held d)) :
    activePower (ds.set i (.held d')) = activePower ds + (d'.activePower - d.activePower) :=
  total_set Deadline.activePower h

end Deadlines

namespace MinerState

variable {policy : Policy} {m m' : MinerState} {now : Int}

/-- The deadlines. Without contents there are none. -/
def allDeadlines (m : MinerState) : Deadlines :=
  match m.deadlines with
  | .held ds => ds
  | .missing => []

/-- The power that counts, over all deadlines. -/
def activePower (m : MinerState) : Power := m.allDeadlines.activePower

/-- What is locked away. -/
def committed (m : MinerState) : Int := m.lockedFunds + m.initialPledge

@[simp] theorem loadDeadlines_eq_ok {ds : Deadlines} : m.loadDeadlines = .ok ds ↔ m.deadlines = .held ds := by
  rw [loadDeadlines, refusing_eq_ok, Stored.fetch_eq_ok]

theorem unlockVested_spec {vested : Int} (h : m.unlockVested now = .ok (m', vested)) :
    (m.lockedFunds = 0 ∧ m' = m ∧ vested = 0) ∨ ∃ t : VestingTable, m.vesting = .held t ∧
      vested = (t.unlockVested now).2 ∧ 0 ≤ m.lockedFunds - vested ∧
      m' = { m with lockedFunds := m.lockedFunds - vested, vesting := .held (t.unlockVested now).1 } := by
  simp only [unlockVested, failed_bind] at h
  split at h
  · next hzero =>
    obtain ⟨rfl, rfl⟩ := Prod.mk.inj (pure_eq_ok.1 h)
    exact .inl ⟨hzero, rfl, rfl⟩
  · simp only [loadVesting, bind_eq_ok, Stored.fetch_eq_ok, ite_failed_eq_ok, pure_eq_ok, Prod.mk.injEq] at h
    obtain ⟨t, ht, hle, rfl, rfl⟩ := h
    exact .inr ⟨t, ht, rfl, Int.not_lt.1 hle, rfl⟩

theorem addInitialPledge_spec {amount : Int} (h : m.addInitialPledge amount = .ok m') :
    0 ≤ m.initialPledge + amount ∧ m' = { m with initialPledge := m.initialPledge + amount } := by
  simp only [addInitialPledge, failed_bind, ite_failed_eq_ok, pure_eq_ok] at h
  exact ⟨Int.not_lt.1 h.1, h.2.symm⟩

/-- The miner moves on by one deadline, and after the last one to the next period. -/
theorem nextDeadline_spec {w : Window} (h : nextDeadline policy m w = .ok m') : ∃ next start,
    m' = { m with currentDeadline := next, periodStart := start } ∧ next = (w.index + 1) % policy.deadlines ∧
      start = if next = 0 then w.periodStart + policy.period else m.periodStart := by
  simp only [nextDeadline, bind_eq_ok, Count.add_eq_ok, Count.rem] at h
  obtain ⟨_, ⟨-, rfl⟩, next, hrem, h⟩ := h
  split at hrem
  · cases hrem
  · obtain rfl := Except.ok.inj hrem
    split at h
    · next hzero =>
      simp only [bind_eq_ok, Epoch.add_eq_ok, pure_eq_ok] at h
      obtain ⟨_, ⟨-, rfl⟩, rfl⟩ := h
      exact ⟨_, _, rfl, rfl, (if_pos hzero).symm⟩
    · next hne =>
      simp only [bind_eq_ok, pure_eq_ok] at h
      obtain ⟨_, rfl, rfl⟩ := h
      exact ⟨_, _, rfl, rfl, (if_neg hne).symm⟩

theorem closeDeadline_spec {w : Window} {ds : Deadlines} {d : Deadline} {vested : Int} {a : Advance}
    (h : closeDeadline policy m w ds d vested = .ok (m', a)) :
    ∃ last faultExpiration d₁ ended d₂, ∃ expired : ExpirationSet, ∃ ds', w.last = .ok last ∧
      Epoch.add last policy.faultMaxAge = .ok faultExpiration ∧
      d.processEnd ⟨policy.period, last⟩ faultExpiration = .ok (d₁, ended) ∧ d₁.popExpired last = .ok (d₂, expired) ∧
      0 ≤ m.initialPledge - expired.pledge ∧ Deadlines.put policy ds w.index d₂ = .ok ds' ∧
      (∃ early, m' = { m with
        deadlines := .held ds', initialPledge := m.initialPledge - expired.pledge, earlyTerminations := early }) ∧
      a.powerDelta = ended.delta - expired.active ∧ a.pledgeDelta = -vested - expired.pledge := by
  simp only [closeDeadline, bind_eq_ok, noting_eq_ok, pure_eq_ok, Prod.mk.injEq] at h
  obtain ⟨last, hlast, faultExpiration, hfault, ⟨d₁, ended⟩, hend, ⟨d₂, expired⟩, hpop, m₁, hpledge, ds', hput, rfl,
    rfl⟩ := h
  obtain ⟨hle, rfl⟩ := addInitialPledge_spec hpledge
  rw [← sub_eq_add_neg] at hle ⊢
  exact ⟨last, faultExpiration, d₁, ended, d₂, expired, ds', hlast, hfault, hend, hpop, hle, hput, ⟨_, rfl⟩, rfl, rfl⟩

/-- Vesting, the move to the next deadline, and the closing of this one. -/
theorem advanceDeadline_spec {a : Advance} (h : m.advanceDeadline policy now = .ok (m', a)) :
    ∃ m₁ vested w, m.unlockVested now = .ok (m₁, vested) ∧ m₁.deadlineInfo policy now = .ok w ∧
      ((w.periodStarted = false ∧ m' = m₁ ∧ a.powerDelta = 0 ∧ a.pledgeDelta = -vested) ∨
        ∃ m₂ ds d, w.periodStarted = true ∧ nextDeadline policy m₁ w = .ok m₂ ∧ m₂.deadlines = .held ds ∧
          Deadlines.load policy ds w.index = .ok d ∧
          ((d.live = 0 ∧ m' = m₂ ∧ a.powerDelta = 0 ∧ a.pledgeDelta = -vested) ∨
            d.live ≠ 0 ∧ closeDeadline policy m₂ w ds d vested = .ok (m', a))) := by
  simp only [advanceDeadline, bind_eq_ok, noting_eq_ok] at h
  obtain ⟨⟨m₁, vested⟩, hvest, w, hw, h⟩ := h
  refine ⟨m₁, vested, w, hvest, hw, ?_⟩
  split at h
  · next hwaiting =>
    obtain ⟨rfl, rfl⟩ := Prod.mk.inj (pure_eq_ok.1 h)
    exact .inl ⟨by simpa using hwaiting, rfl, rfl, rfl⟩
  · next hstarted =>
    simp only [bind_eq_ok, loadDeadlines_eq_ok] at h
    obtain ⟨m₂, hnext, ds, hds, d, hd, h⟩ := h
    refine .inr ⟨m₂, ds, d, by simpa using hstarted, hnext, hds, hd, ?_⟩
    split at h
    · next hlive =>
      obtain ⟨rfl, rfl⟩ := Prod.mk.inj (pure_eq_ok.1 h)
      exact .inl ⟨hlive, rfl, rfl, rfl⟩
    · next hlive => exact .inr ⟨hlive, h⟩

theorem committed_of_unlockVested {vested : Int} (h : m.unlockVested now = .ok (m', vested)) :
    m'.committed = m.committed - vested ∧ m'.deadlines = m.deadlines := by
  rcases unlockVested_spec h with ⟨-, rfl, rfl⟩ | ⟨t, -, rfl, -, rfl⟩
  · exact ⟨(sub_zero _).symm, rfl⟩
  · refine ⟨?_, rfl⟩
    simp only [committed]
    ring

/-- A closing window reports the changes of active power and of what is locked away. -/
theorem conserved_of_advanceDeadline {a : Advance} (h : m.advanceDeadline policy now = .ok (m', a)) :
    m'.activePower = m.activePower + a.powerDelta ∧ m'.committed = m.committed + a.pledgeDelta := by
  obtain ⟨m₁, vested, w, hvest, -, h⟩ := advanceDeadline_spec h
  obtain ⟨hcommitted, hdeadlines⟩ := committed_of_unlockVested hvest
  have hactive : m₁.activePower = m.activePower := by rw [activePower, allDeadlines, hdeadlines]; rfl
  rcases h with ⟨-, rfl, hpower, hpledge⟩ | ⟨m₂, ds, d, -, hnext, hds, hload, h⟩
  · rw [hpower, hpledge, hactive, hcommitted, add_zero, sub_eq_add_neg]
    exact ⟨rfl, rfl⟩
  obtain ⟨next, start, rfl, -⟩ := nextDeadline_spec hnext
  rcases h with ⟨-, rfl, hpower, hpledge⟩ | ⟨-, hclose⟩
  · rw [hpower, hpledge, add_zero, ← hactive, ← sub_eq_add_neg, ← hcommitted]
    exact ⟨rfl, rfl⟩
  obtain ⟨last, faultExpiration, d₁, ended, d₂, expired, ds', -, -, hend, hpop, -, hput, ⟨early, rfl⟩, hpower,
    hpledge⟩ := closeDeadline_spec hclose
  obtain ⟨-, -, -, rfl⟩ := Deadlines.put_eq_ok.1 hput
  constructor
  · have hds₁ : m₁.deadlines = .held ds := hds
    rw [hpower, ← hactive, activePower, allDeadlines, activePower, allDeadlines, hds₁]
    simp only
    rw [Deadlines.activePower_set (Deadlines.load_eq_ok.1 hload).2, Deadline.activePower_of_popExpired hpop,
      Deadline.activePower_of_processEnd hend]
    abel
  · rw [hpledge, committed]
    simp only [committed] at hcommitted ⊢
    linarith

variable {grid : Grid} {size : SectorSize} {table : SectorTable}

/-- **Power and pledge are conserved.** Every operation on a deadline with sound partitions reports the change of its
active power, so after a run from a new deadline the active power is the sum of the reports. A closing window reports
the changes of the active power over all deadlines and of what is locked away. -/
theorem power_and_pledge_conserved (hu : 0 < grid.unit) (hk : table.Keyed) :
    (∀ (d d' : Deadline) (o : Deadline.Operation) (w : Power), d.PartsSound grid size table →
      o.apply grid size table d = .ok (d', w) → d'.activePower = d.activePower + w) ∧
    (∀ (os : List Deadline.Operation) (d : Deadline) (w : Power),
      Deadline.Run grid size table (fun _ o => o.Recorded table) os d w → d.activePower = w) ∧
    ∀ (policy : Policy) (m m' : MinerState) (now : Int) (a : Advance), m.advanceDeadline policy now = .ok (m', a) →
      m'.activePower = m.activePower + a.powerDelta ∧
      m'.lockedFunds + m'.initialPledge = m.lockedFunds + m.initialPledge + a.pledgeDelta :=
  ⟨fun _ _ _ _ hd h => Deadline.activePower_apply hd h, fun _ _ _ h => Deadline.activePower_of_run hu hk h,
    fun _ _ _ _ _ h => conserved_of_advanceDeadline h⟩

/-- Two sectors in two partitions become active, and the first one faulty. -/
def sampleRun : List Deadline.Operation :=
  [.addSectors 1 true Partition.sample, .declareFaults 20 (PartitionSectors.ofList [(0, .ofList [1])])]

/-- A miner with one deadline and some funds. -/
def sampleMiner (d : Deadline) : MinerState where
  info := .missing
  lockedFunds := 8
  vesting := .held [⟨2, 5⟩, ⟨20, 3⟩]
  initialPledge := 7
  periodStart := 10
  currentDeadline := 0
  deadlines := .held [.held d]

/-- Parameters with one window in a period. -/
def samplePolicy : Policy := { Policy.devnet with deadlines := 1, period := 5, window := 5 }

/-- After the run one sector is active. When the window closes without a proof its power is lost, the other sector
ends and its pledge is released, and what has vested is unlocked. -/
theorem conserved_of_sampleRun : ∃ d w m' a,
    Deadline.Run ⟨5, 4⟩ .kib2 (.ofList Partition.sample) (fun _ o => o.Recorded (.ofList Partition.sample)) sampleRun
      d w ∧
    d.activePower = w ∧ w = ⟨2048, 2048⟩ ∧
    (sampleMiner d).advanceDeadline samplePolicy 14 = .ok (m', a) ∧ a.powerDelta = ⟨-2048, -2048⟩ ∧ a.pledgeDelta = -8 ∧
    m'.activePower = (sampleMiner d).activePower + a.powerDelta ∧
    m'.lockedFunds + m'.initialPledge =
      (sampleMiner d).lockedFunds + (sampleMiner d).initialPledge + a.pledgeDelta := by
  have hrun : ((Deadline.follow ⟨5, 4⟩ .kib2 (.ofList Partition.sample)
      (fun _ o => o.Recorded (.ofList Partition.sample)) sampleRun ({}, 0)).map fun s =>
        (s.2, ((sampleMiner s.1).advanceDeadline samplePolicy 14).map fun r => (r.2.powerDelta, r.2.pledgeDelta))) =
      some (⟨2048, 2048⟩, .ok (⟨-2048, -2048⟩, -8)) := by decide +kernel
  obtain ⟨⟨d, w⟩, hfollow, heq⟩ := Option.map_eq_some_iff.1 hrun
  obtain ⟨hw, hclose⟩ := Prod.mk.inj heq
  obtain ⟨⟨m', a⟩, hadvance, hreport⟩ := map_eq_ok.1 hclose
  obtain ⟨hpower, hpledge⟩ := Prod.mk.inj hreport
  obtain ⟨-, hconserved, hadvanced⟩ :=
    @power_and_pledge_conserved ⟨5, 4⟩ .kib2 _ (by decide) (SectorTable.keyed_ofList Partition.sample)
  have hd := Deadline.Run.of_follow .start hfollow
  obtain ⟨hactive, hcommitted⟩ := hadvanced _ _ _ _ _ hadvance
  exact ⟨d, w, m', a, hd, hconserved _ d w hd, hw, hadvance, hpower, hpledge, hactive, hcommitted⟩

end MinerState

end SectorLedger
