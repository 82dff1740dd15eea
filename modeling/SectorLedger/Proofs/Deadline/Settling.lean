import SectorLedger.Proofs.Deadline.Operation
import SectorLedger.Proofs.Partition.Settling

/-!
# Settling the early terminations of a deadline

A deadline flags the partitions that have early terminations. It goes through them until a limit is reached, and takes
from each what is left of the limits.

* `Deadline.workload`: what there is to settle in a deadline.
* `settlePartition_total`: one partition.
* `popEarlyTerminations_worked`: taking some of what is pending.
-/

namespace SectorLedger.Deadline

variable {d d' : Deadline}

/-- The sector ended early at the epoch, in one of the partitions, and is not settled yet. -/
def Pending (d : Deadline) (epoch : Int) (n : Nat) : Prop := PendingIn Partition.workload d.parts.get? epoch n

/-- No partition has anything to settle. -/
def Drained (d : Deadline) : Prop := DrainedIn Partition.workload d.parts.get?

/-- A valid deadline with partitions in order, which flags those that have early terminations. -/
structure Settleable (d : Deadline) : Prop where
  /-- The partitions are there. -/
  held : d.partitions = .held d.parts
  /-- Their positions are within bounds. -/
  bounded : ∀ i p, d.parts.get? i = some p → i ≤ SparseArray.greatestIndex
  /-- The flags are right, and no sector is queued under the same epoch in two partitions. -/
  inOrder : InOrder Partition.workload d.early d.parts.get?
  /-- The deadline passes its check. -/
  valid : d.validate = .ok ()

/-- Two deadlines that differ at most in the early terminations of the partitions and in the flags for them. -/
def OnlyEarly (d d' : Deadline) : Prop :=
  d' = { d with partitions := d'.partitions, early := d'.early } ∧
    SameIn Partition.workload d.parts.get? d'.parts.get?

theorem OnlyEarly.trans {d'' : Deadline} (h : OnlyEarly d d') (h' : OnlyEarly d' d'') : OnlyEarly d d'' :=
  ⟨by rw [h'.1, h.1], h.2.trans h'.2⟩

/-- What there is to settle in a deadline. -/
def workload : Workload Deadline where
  Pending := Pending
  Drained := Drained
  backlog d := SparseArray.total Partition.workload.backlog d.parts
  partitionAt d := partitionIn Partition.workload d.parts.get?
  Ready := Settleable
  Same := OnlyEarly
  same_refl _ := ⟨rfl, .refl _ _⟩
  same_trans := OnlyEarly.trans
  not_pending := not_pendingIn
  backlog_nonneg _ := SparseArray.total_induction (P := (0 ≤ ·)) (fun _ _ => Int.add_nonneg) le_rfl
    fun _ p _ => Partition.workload.backlog_nonneg p

/-- What the settling goes through. -/
def Settling.sweep (s : Settling) : Sweep Partition where
  view := s.partitions.get?
  backlog := SparseArray.total Partition.workload.backlog s.partitions
  drained := s.drained
  taken := s.taken

variable {s : Settling} {i : Nat} {p : Partition} {maxPartitions maxSectors : Nat}

/-- A flagged partition is offered what is left of the limits. -/
theorem settlePartition_total (hp : s.partitions.get? i = some p) (hi : i ≤ SparseArray.greatestIndex)
    (hready : p.Settleable) (hpartitions : s.taken.partitions < maxPartitions)
    (hsectors : s.taken.processed < maxSectors) : ∃ p' u more,
      Worked Partition.workload (maxPartitions - s.taken.partitions) (maxSectors - s.taken.processed) p p' u more ∧
      ∀ t, s.taken.add u = .ok t → ∃ s', settlePartition maxPartitions maxSectors s i =
        .ok (s', t.belowLimit maxPartitions maxSectors) ∧ s'.sweep = s.sweep.put Partition.workload i p p' more t := by
  obtain ⟨p', u, more, hpop, hw⟩ := Partition.popEarlyTerminations_worked hready (Nat.sub_pos_of_lt hsectors)
  refine ⟨p', u, more, { hw with partitions_le := hw.partitions_le.trans (by omega) }, fun t ht => ⟨{
    partitions := s.partitions.insert i p', taken := t
    drained := if more then s.drained else s.drained ∪ NumberSet.singleton i }, ?_, ?_⟩⟩
  · simp only [settlePartition, bind_eq_ok]
    refine ⟨some p, findPartition_eq_ok.2 ⟨hi, hp⟩, ?_⟩
    simp only [bind_eq_ok, noting_eq_ok, putPartition_eq_ok, Count.sub_eq_ok, pure_eq_ok]
    exact ⟨_, ⟨hsectors.le, rfl⟩, _, hpop, t, ht, _, ⟨hi, rfl⟩, rfl⟩
  · simp only [Settling.sweep, Sweep.put, Sweep.mk.injEq, and_true]
    refine ⟨funext fun j => ?_, SparseArray.total_insert_of_get? _ hp⟩
    rw [SparseArray.get?_insert, Function.update_apply]

/-- **Sectors that ended early are taken from the queues of a deadline.** -/
theorem popEarlyTerminations_worked (hd : d.Settleable) (hpartitions : 0 < maxPartitions ∧ maxPartitions < Count.bound)
    (hsectors : 0 < maxSectors ∧ maxSectors < Count.bound) :
    ∃ d' t more, d.popEarlyTerminations maxPartitions maxSectors = .ok (d', t, more) ∧
      Worked workload maxPartitions maxSectors d d' t more := by
  have hbound : ∀ i ∈ d.early, i ≤ SparseArray.greatestIndex := fun i hi =>
    let ⟨p, hp, _⟩ := (hd.inOrder.flagged i).1 hi
    hd.bounded i p hp
  obtain ⟨s, hs, hswept⟩ := Sweep.visit_total Settling.sweep (x := { partitions := d.parts }) hd.inOrder rfl rfl
    hpartitions hsectors fun _ i hi _ hp hready => settlePartition_total hp (hbound i hi) hready
  refine ⟨{ d with partitions := .held s.partitions, early := d.early \ s.drained }, s.taken,
    !(d.early \ s.drained).isEmpty, ?_, {
      taken := hswept.taken
      partitions_le := hswept.partitions_le
      changed := hswept.changed
      processed_le := hswept.processed_le
      more_iff := hswept.more_iff
      progress := hswept.progress
      ready := ⟨rfl, fun i p hp => ?_, hswept.inOrder, hd.valid⟩
      same := ⟨rfl, hswept.same⟩ }⟩
  · simp only [popEarlyTerminations, bind_eq_ok, loadPartitions_eq_ok, pure_eq_ok]
    exact ⟨_, hd.held, s, hs, rfl⟩
  · obtain ⟨p, hp⟩ := (hswept.same.exists_iff i).2 ⟨p, hp⟩
    exact hd.bounded i p hp

end SectorLedger.Deadline
