import SectorLedger.Proofs.Deadline.Settling
import SectorLedger.Proofs.Miner.Conservation

/-!
# Settling the early terminations of a miner

A miner flags the deadlines that have early terminations, and settles them within limits. Whoever calls this again and
again gets to see each sector exactly once.

* `MinerState.workload`: what there is to settle.
* `settleDeadline_total`: one deadline.
* `popEarlyTerminations_worked`: one call.
* `earlyTerminations_exactlyOnce`: any number of calls.
-/

namespace SectorLedger

namespace Deadlines

variable {ds : Deadlines} {i : Nat} {d : Deadline}

/-- The deadline at a position, if its contents are there. -/
def view (ds : Deadlines) (i : Nat) : Option Deadline :=
  match ds[i]? with
  | some (.held d) => some d
  | _ => none

theorem view_eq_some : ds.view i = some d ↔ ds[i]? = some (.held d) := by
  unfold view
  split <;> simp_all

theorem view_set (hi : i < ds.length) (d : Deadline) : view (ds.set i (.held d)) = Function.update ds.view i (some d) :=
  funext fun j => by
    by_cases hj : j = i
    · subst hj
      simp [view, hi]
    · simp [view, hj, List.getElem?_set_ne (Ne.symm hj)]

end Deadlines

namespace MinerState

open Deadlines

variable {policy : Policy} {m m' : MinerState} {maxPartitions maxSectors : Nat}

/-- The sector ended early at the epoch, in one of the deadlines, and is not settled yet. -/
def Pending (m : MinerState) (epoch : Int) (n : Nat) : Prop := PendingIn Deadline.workload m.allDeadlines.view epoch n

/-- No deadline has anything to settle. -/
def Drained (m : MinerState) : Prop := DrainedIn Deadline.workload m.allDeadlines.view

/-- A miner with deadlines in order, which flags those that have early terminations. -/
structure Settleable (policy : Policy) (m : MinerState) : Prop where
  /-- The deadlines are there. -/
  held : m.deadlines = .held m.allDeadlines
  /-- There are not too many. -/
  bounded : ∀ i d, m.allDeadlines.view i = some d → i < policy.deadlines
  /-- The flags are right, and no sector is queued under the same epoch in two deadlines. -/
  inOrder : InOrder Deadline.workload m.earlyTerminations m.allDeadlines.view

/-- Two miners that differ at most in the early terminations of the partitions and in the flags for them. -/
def OnlyEarly (m m' : MinerState) : Prop :=
  m' = { m with deadlines := m'.deadlines, earlyTerminations := m'.earlyTerminations } ∧
    m'.allDeadlines.length = m.allDeadlines.length ∧ SameIn Deadline.workload m.allDeadlines.view m'.allDeadlines.view

theorem OnlyEarly.trans {m'' : MinerState} (h : OnlyEarly m m') (h' : OnlyEarly m' m'') : OnlyEarly m m'' :=
  ⟨by rw [h'.1, h.1], h'.2.1.trans h.2.1, h.2.2.trans h'.2.2⟩

/-- What there is to settle. -/
def workload (policy : Policy) : Workload MinerState where
  Pending := Pending
  Drained := Drained
  backlog m := total Deadline.workload.backlog m.allDeadlines
  partitionAt m := partitionIn Deadline.workload m.allDeadlines.view
  Ready := Settleable policy
  Same := OnlyEarly
  same_refl _ := ⟨rfl, rfl, .refl _ _⟩
  same_trans := OnlyEarly.trans
  not_pending := not_pendingIn
  backlog_nonneg m := List.sum_nonneg fun x hx => by
    obtain ⟨d, -, rfl⟩ := List.mem_map.1 hx
    cases d with
    | held d => exact Deadline.workload.backlog_nonneg d
    | missing => exact le_rfl

/-- What the settling goes through. -/
def Settling.sweep (s : Settling) : Sweep Deadline where
  view := s.deadlines.view
  backlog := total Deadline.workload.backlog s.deadlines
  drained := s.drained
  taken := s.taken

variable {s s' : Settling} {i : Nat} {d : Deadline}

/-- A flagged deadline is offered what is left of the limits. -/
theorem settleDeadline_total (hd : s.deadlines.view i = some d) (hi : i < policy.deadlines) (hready : d.Settleable)
    (hbounds : maxPartitions < Count.bound ∧ maxSectors < Count.bound)
    (hpartitions : s.taken.partitions < maxPartitions) (hsectors : s.taken.processed < maxSectors) : ∃ d' u more,
      Worked Deadline.workload (maxPartitions - s.taken.partitions) (maxSectors - s.taken.processed) d d' u more ∧
      ∀ t, s.taken.add u = .ok t → ∃ s', settleDeadline policy maxPartitions maxSectors s i =
        .ok (s', t.belowLimit maxPartitions maxSectors) ∧ s'.sweep = s.sweep.put Deadline.workload i d d' more t := by
  obtain ⟨d', u, more, hpop, hw⟩ := Deadline.popEarlyTerminations_worked hready
    ⟨Nat.sub_pos_of_lt hpartitions, (Nat.sub_le _ _).trans_lt hbounds.1⟩
    ⟨Nat.sub_pos_of_lt hsectors, (Nat.sub_le _ _).trans_lt hbounds.2⟩
  have hget := view_eq_some.1 hd
  obtain ⟨hlength, -⟩ := List.getElem?_eq_some_iff.1 hget
  refine ⟨d', u, more, hw, fun t ht => ⟨{
    deadlines := s.deadlines.set i (.held d'), taken := t
    drained := if more then s.drained else s.drained ∪ NumberSet.singleton i }, ?_, ?_⟩⟩
  · simp only [settleDeadline, bind_eq_ok, noting_eq_ok, load_eq_ok, put_eq_ok, Count.sub_eq_ok, pure_eq_ok]
    exact ⟨d, ⟨hi, hget⟩, _, ⟨hpartitions.le, rfl⟩, _, ⟨hsectors.le, rfl⟩, _, hpop, t, ht, _,
      ⟨hi, hw.ready.valid, hlength, rfl⟩, rfl⟩
  · simp only [Settling.sweep, Sweep.put, Sweep.mk.injEq, and_true]
    exact ⟨view_set hlength d', total_set _ hget⟩

/-- The settling adds and drops no deadline. -/
theorem length_of_settleDeadline {go : Bool} (h : settleDeadline policy maxPartitions maxSectors s i = .ok (s', go)) :
    s'.deadlines.length = s.deadlines.length := by
  simp only [settleDeadline, bind_eq_ok, put_eq_ok, pure_eq_ok, Prod.mk.injEq] at h
  obtain ⟨_, -, _, -, _, -, _, -, _, -, _, ⟨-, -, -, rfl⟩, rfl, -⟩ := h
  exact List.length_set

/-- **One call takes some of what is pending, within the limits.** -/
theorem popEarlyTerminations_worked (hm : m.Settleable policy)
    (hpartitions : 0 < maxPartitions ∧ maxPartitions < Count.bound)
    (hsectors : 0 < maxSectors ∧ maxSectors < Count.bound) :
    ∃ m' t more, m.popEarlyTerminations policy maxPartitions maxSectors = .ok (m', t, more) ∧
      Worked (workload policy) maxPartitions maxSectors m m' t more := by
  by_cases hempty : m.earlyTerminations = ∅
  · refine ⟨m, {}, false, ?_, .drained hm (hm.inOrder.eq_empty_iff.1 hempty)⟩
    rw [popEarlyTerminations, if_pos (NumberSet.isEmpty_iff.2 hempty)]
    rfl
  have hbound : ∀ i ∈ m.earlyTerminations, i < policy.deadlines := fun i hi =>
    let ⟨d, hd, _⟩ := (hm.inOrder.flagged i).1 hi
    hm.bounded i d hd
  obtain ⟨s, hs, hswept⟩ := Sweep.visit_total Settling.sweep (x := { deadlines := m.allDeadlines }) hm.inOrder rfl rfl
    hpartitions hsectors fun _ i hi _ hd hready =>
      settleDeadline_total hd (hbound i hi) hready ⟨hpartitions.2, hsectors.2⟩
  obtain ⟨_, _, -, hlength⟩ := NumberSet.visitWhile_invariant
    (I := fun _ (s : Settling) => s.deadlines.length = m.allDeadlines.length)
    (NumberSet.foldWhile_eq _ _ _ ▸ hs) rfl fun _ _ _ _ _ _ _ hI hstep => (length_of_settleDeadline hstep).trans hI
  refine ⟨{ m with deadlines := .held s.deadlines, earlyTerminations := m.earlyTerminations \ s.drained }, s.taken,
    !(m.earlyTerminations \ s.drained).isEmpty, ?_, {
      taken := hswept.taken
      partitions_le := hswept.partitions_le
      changed := hswept.changed
      processed_le := hswept.processed_le
      more_iff := hswept.more_iff
      progress := hswept.progress
      ready := ⟨rfl, fun i d hd => ?_, hswept.inOrder⟩
      same := ⟨rfl, hlength, hswept.same⟩ }⟩
  · simp only [popEarlyTerminations, NumberSet.isEmpty_iff, hempty, if_false, bind_eq_ok, loadDeadlines_eq_ok,
      pure_eq_ok]
    exact ⟨_, hm.held, s, hs, rfl⟩
  · obtain ⟨d, hd⟩ := (hswept.same.exists_iff i).2 ⟨d, hd⟩
    exact hm.bounded i d hd

/-- **Early terminations are settled exactly once.** The call succeeds again and again, with any limits. Each time it
does what `Worked` says, and all the calls together do what `ExactlyOnce` says: no pair of an epoch and a sector is
lost or comes twice, and after some calls nothing is left. What `Settleable` asks of the miner, of its deadlines and of
their partitions besides correct flags and valid partitions is that there are no more deadlines than the policy has, and
that early terminations are filed under epochs: their keys are below 2^63. -/
theorem earlyTerminations_exactlyOnce (hm : m.Settleable policy) (limits : Nat → Nat × Nat)
    (hlimits : ∀ i, (0 < (limits i).1 ∧ (limits i).1 < Count.bound) ∧ 0 < (limits i).2 ∧ (limits i).2 < Count.bound) :
    ∃ (states : Nat → MinerState) (lists : Nat → Terminations) (more : Nat → Bool), states 0 = m ∧
      (∀ i, (states i).popEarlyTerminations policy (limits i).1 (limits i).2 =
          .ok (states (i + 1), lists i, more i) ∧
        Worked (workload policy) (limits i).1 (limits i).2 (states i) (states (i + 1)) (lists i) (more i)) ∧
      ExactlyOnce (workload policy) states lists :=
  exists_calls (fun i _ hm => popEarlyTerminations_worked hm (hlimits i).1 (hlimits i).2) hm

/-- A partition whose sectors have all ended early. -/
def endedPartition (sectors : NumberSet) (early : List (Nat × NumberSet)) : Partition where
  sectors
  terminated := sectors
  early := .held (.ofEntries early)

/-- A deadline with two such partitions. -/
def endedDeadline : Deadline where
  partitions := .held (.ofEntries [(0, endedPartition (.run 1 2) [(5, .run 1 2)]),
    (1, endedPartition (.run 3 3) [(5, .run 3 2), (7, .run 5 1)])])
  early := .run 0 2
  total := 5

/-- A miner with this deadline. -/
def endedMiner : MinerState := { sampleMiner endedDeadline with earlyTerminations := .run 0 1 }

theorem settleable_endedPartition {sectors : NumberSet} {early : List (Nat × NumberSet)}
    (hbounded : ∀ c ∈ (endedPartition sectors early).earlyQueue.entries, c.1 < 0x8000000000000000) :
    (endedPartition sectors early).Settleable where
  held := rfl
  bounded k v hv := hbounded (k, v) (SparseArray.mem_entries.2 hv)
  valid := by simp [Partition.validate, endedPartition, Partition.validatePower, Partition.validateSets]

theorem get?_endedDeadline {i : Nat} {p : Partition} (h : endedDeadline.parts.get? i = some p) :
    (i = 0 ∧ p = endedPartition (.run 1 2) [(5, .run 1 2)]) ∨
      (i = 1 ∧ p = endedPartition (.run 3 3) [(5, .run 3 2), (7, .run 5 1)]) := by
  have hmem : (i, p) ∈ [(0, _), (1, _)] := SparseArray.get?_eq_some_iff.1 h
  simpa only [List.mem_cons, List.not_mem_nil, or_false, Prod.mk.injEq] using hmem

/-- The first two sectors have ended in the one partition, the others in the other. -/
theorem pendingAt_endedDeadline {i : Nat} {e : Int} {n : Nat}
    (h : PendingAt Partition.workload endedDeadline.parts.get? i e n) : i = if n < 3 then 0 else 1 := by
  obtain ⟨p, hp, hpending⟩ := h
  obtain ⟨c, hc, -, hn⟩ := NumberQueue.files_iff_mem_entries.1 hpending
  rcases get?_endedDeadline hp with ⟨rfl, rfl⟩ | ⟨rfl, rfl⟩
  · have hc : c ∈ [(5, NumberSet.run 1 2)] := hc
    obtain rfl := List.mem_singleton.1 hc
    rw [if_pos (NumberSet.mem_run.1 hn).2]
  · have hc : c ∈ [(5, NumberSet.run 3 2), (7, NumberSet.run 5 1)] := hc
    rw [if_neg]
    rcases List.mem_pair.1 hc with rfl | rfl
    · exact Nat.not_lt.2 (NumberSet.mem_run.1 hn).1
    · have := (NumberSet.mem_run.1 hn).1
      omega

theorem settleable_endedDeadline : endedDeadline.Settleable where
  held := rfl
  bounded i p hp := by
    rcases get?_endedDeadline hp with ⟨rfl, -⟩ | ⟨rfl, -⟩ <;> decide
  inOrder := {
    ready := fun i p hp => by
      rcases get?_endedDeadline hp with ⟨-, rfl⟩ | ⟨-, rfl⟩ <;> exact settleable_endedPartition (by decide)
    flagged := fun i => by
      constructor
      · intro hi
        have hlt : i < 0 + 2 := (NumberSet.mem_run.1 hi).2
        rcases (by omega : i = 0 ∨ i = 1) with rfl | rfl <;> exact ⟨_, rfl, fun hempty => Bool.false_ne_true hempty⟩
      · rintro ⟨p, hp, -⟩
        rcases get?_endedDeadline hp with ⟨rfl, -⟩ | ⟨rfl, -⟩ <;> decide
    once := fun i j e n hi hj => (pendingAt_endedDeadline hi).trans (pendingAt_endedDeadline hj).symm }
  valid := rfl

theorem view_endedMiner {i : Nat} {d : Deadline} (h : endedMiner.allDeadlines.view i = some d) :
    i = 0 ∧ d = endedDeadline := by
  have hget : [Stored.held endedDeadline][i]? = some (.held d) := view_eq_some.1 h
  obtain ⟨hi, hd⟩ := List.getElem?_eq_some_iff.1 hget
  obtain rfl : i = 0 := by simpa using hi
  exact ⟨rfl, (Stored.held.inj hd).symm⟩

theorem settleable_endedMiner : endedMiner.Settleable samplePolicy where
  held := rfl
  bounded i d hd := by
    obtain ⟨rfl, -⟩ := view_endedMiner hd
    decide
  inOrder := {
    ready := fun i d hd => (view_endedMiner hd).2 ▸ settleable_endedDeadline
    flagged := fun i => by
      constructor
      · intro hi
        have hlt : i < 0 + 1 := (NumberSet.mem_run.1 hi).2
        obtain rfl : i = 0 := by omega
        exact ⟨endedDeadline, rfl, fun hempty => Bool.false_ne_true (hempty 0 _ rfl)⟩
      · rintro ⟨d, hd, -⟩
        obtain ⟨rfl, -⟩ := view_endedMiner hd
        decide
    once := fun i j e n ⟨d, hd, _⟩ ⟨d', hd', _⟩ => (view_endedMiner hd).1.trans (view_endedMiner hd').1.symm }

/-- Five sectors have ended early, in two partitions. The first call takes one partition's two and one of the other's,
and the second call takes the rest. -/
theorem exactlyOnce_of_endedMiner : endedMiner.Settleable samplePolicy ∧
    ∃ (states : Nat → MinerState) (lists : Nat → Terminations) (more : Nat → Bool), states 0 = endedMiner ∧
      (∀ i, (states i).popEarlyTerminations samplePolicy 2 3 = .ok (states (i + 1), lists i, more i) ∧
        Worked (workload samplePolicy) 2 3 (states i) (states (i + 1)) (lists i) (more i)) ∧
      ExactlyOnce (workload samplePolicy) states lists ∧
      lists 0 = ⟨[(5, .run 1 3)], 2, 3⟩ ∧ more 0 = true ∧
      lists 1 = ⟨[(5, .run 4 1), (7, .run 5 1)], 1, 2⟩ ∧ more 1 = false := by
  have hrun : (do
      let r ← endedMiner.popEarlyTerminations samplePolicy 2 3
      let r' ← r.1.popEarlyTerminations samplePolicy 2 3
      return (r.2, r'.2) : Outcome ((Terminations × Bool) × (Terminations × Bool))) =
      .ok ((⟨[(5, .run 1 3)], 2, 3⟩, true), (⟨[(5, .run 4 1), (7, .run 5 1)], 1, 2⟩, false)) := by decide +kernel
  simp only [bind_eq_ok, pure_eq_ok, Prod.mk.injEq] at hrun
  obtain ⟨r₁, hr₁, r₂, hr₂, hfirst, hsecond⟩ := hrun
  obtain ⟨states, lists, more, hstart, hcalls, honce⟩ :=
    earlyTerminations_exactlyOnce settleable_endedMiner (fun _ => (2, 3)) fun _ => by decide
  have h₁ := (hcalls 0).1
  rw [hstart, hr₁] at h₁
  have h₂ := (hcalls 1).1
  obtain rfl := Except.ok.inj h₁
  rw [hr₂] at h₂
  obtain rfl := Except.ok.inj h₂
  obtain ⟨hlist₀, hmore₀⟩ := Prod.mk.inj hfirst
  obtain ⟨hlist₁, hmore₁⟩ := Prod.mk.inj hsecond
  exact ⟨settleable_endedMiner, states, lists, more, hstart, hcalls, honce, hlist₀, hmore₀, hlist₁, hmore₁⟩

end MinerState

end SectorLedger
