import SectorLedger.Proofs.Deadline.Sound

/-!
# Partitions that leave a deadline

When partitions are removed, the others move down to close the gaps, and so do their numbers in the queue. Both
move by the rank among the removed positions, so a partition is found in the queue under its new position.

* `RenumberedTo`: where the kept partitions stand so far. `RenumberedTo.step`: one more partition.
* `CompactedTo`: how far the compaction has come, with the sums. `CompactedTo.step`: one more partition.
* `Invariant.removePartitions`: the whole.
-/

namespace SectorLedger.Deadline

open SparseArray

variable {grid : Grid} {size : SectorSize} {table : SectorTable} {floor : Int} {d d' : Deadline}
  {old : SparseArray Partition} {toRemove : NumberSet} {m : Nat} {c c' : Compacting}

/-- Where the kept partitions stand, after some partitions. -/
structure RenumberedTo (old : SparseArray Partition) (toRemove : NumberSet) (m : Nat) (c : Compacting) : Prop where
  /-- The kept partitions stand at the first positions. -/
  packed : c.kept.Packed
  /-- There are as many as were not removed. -/
  count_eq : c.kept.count + toRemove.rank m = m
  /-- A partition that is kept moves down by its rank. -/
  moved : ∀ i j p, i < m → i ∉ toRemove → old.get? i = some p → j + toRemove.rank i = i → c.kept.get? j = some p
  /-- There are no others. -/
  origin : ∀ j p, c.kept.get? j = some p → ∃ i < m, i ∉ toRemove ∧ old.get? i = some p ∧ j + toRemove.rank i = i

/-- How far the compaction has come, after some partitions. -/
structure CompactedTo (old : SparseArray Partition) (toRemove : NumberSet) (m : Nat) (c : Compacting) : Prop
    extends RenumberedTo old toRemove m c where
  /-- The sectors that have left were in the partitions gone through. -/
  gone : ∀ n, n ∈ c.removed.live ∨ n ∈ c.removed.dead → ∃ i < m, ∃ p, old.get? i = some p ∧ n ∈ p.sectors
  /-- Live sectors are kept or have left. -/
  live_eq : SparseArray.total (fun p => (p.liveSectors.count : Int)) c.kept + c.removed.live.count =
    totalAt (fun p => (p.liveSectors.count : Int)) old (List.range m)
  /-- So are the others. -/
  total_eq : SparseArray.total (fun p => (p.sectors.count : Int)) c.kept +
    (c.removed.live.count + c.removed.dead.count : Nat) =
      totalAt (fun p => (p.sectors.count : Int)) old (List.range m)
  /-- Only partitions without faulty sectors have left. -/
  faultyPower_eq : SparseArray.total Partition.faultyPower c.kept =
    totalAt Partition.faultyPower old (List.range m)

/-! ### Positions -/

theorem renumberedTo_zero : RenumberedTo old toRemove 0 {} where
  packed := packed_empty
  count_eq := by rw [NumberSet.rank_zero]; rfl
  moved i j p hi := absurd hi (Nat.not_lt_zero i)
  origin j p hp := by cases hp

/-- The next partition is kept. -/
theorem RenumberedTo.keep (h : RenumberedTo old toRemove m c) {p : Partition} (hp : old.get? m = some p)
    (hm : m ∉ toRemove) : RenumberedTo old toRemove (m + 1) (c.keep p) := by
  have hget : ∀ j, (c.keep p).kept.get? j = if j = c.kept.count then some p else c.kept.get? j :=
    fun j => get?_insert c.kept c.kept.count j p
  have hcount := h.count_eq
  refine ⟨h.packed.insert le_rfl p, ?_, fun i j p₁ hi hr hp₁ hj => ?_, fun j p₁ hp₁ => ?_⟩
  · rw [c.kept_keep, h.packed.count_insert le_rfl, NumberSet.rank_succ, if_neg hm]
    omega
  · rw [hget]
    rcases Nat.lt_succ_iff_lt_or_eq.1 hi with hi | rfl
    · have hin := h.moved i j p₁ hi hr hp₁ hj
      have hlt : j < c.kept.count := (h.packed j).1 ⟨p₁, hin⟩
      rw [if_neg (Nat.ne_of_lt hlt)]
      exact hin
    · rw [if_pos (by omega), ← hp₁, hp]
  · rw [hget] at hp₁
    split at hp₁
    · next hj =>
      refine ⟨m, Nat.lt_succ_self m, hm, hp.trans hp₁, ?_⟩
      rw [hj]
      exact hcount
    · obtain ⟨i, hi, horigin⟩ := h.origin j p₁ hp₁
      exact ⟨i, Nat.lt_succ_of_lt hi, horigin⟩

/-- The next partition leaves. -/
theorem RenumberedTo.remove (h : RenumberedTo old toRemove m c) (hm : m ∈ toRemove) (p : Partition) :
    RenumberedTo old toRemove (m + 1) (c.remove p) := by
  refine ⟨h.packed, ?_, fun i j p₁ hi hr hp₁ hj => ?_, fun j p₁ hp₁ => ?_⟩
  · rw [NumberSet.rank_succ, if_pos hm, ← Nat.add_assoc]
    exact congrArg (· + 1) h.count_eq
  · have hne : i ≠ m := fun he => hr (he ▸ hm)
    exact h.moved i j p₁ (by omega) hr hp₁ hj
  · obtain ⟨i, hi, horigin⟩ := h.origin j p₁ hp₁
    exact ⟨i, Nat.lt_succ_of_lt hi, horigin⟩

/-- One more partition is kept or leaves. -/
theorem RenumberedTo.step (h : RenumberedTo old toRemove m c) (hstep : compactPartition old toRemove c m = .ok c') :
    RenumberedTo old toRemove (m + 1) c' := by
  obtain ⟨p, hp, ⟨hm, rfl⟩ | ⟨hm, -, -, rfl⟩⟩ := compactPartition_spec hstep
  · exact h.keep hp hm
  · exact h.remove hm _

/-! ### Sectors -/

theorem compactedTo_zero : CompactedTo old toRemove 0 {} where
  toRenumberedTo := renumberedTo_zero
  gone n hn := by
    rcases hn with hn | hn
    · exact absurd hn (NumberSet.not_mem_empty n)
    · exact absurd hn (NumberSet.not_mem_empty n)
  live_eq := rfl
  total_eq := rfl
  faultyPower_eq := rfl

/-- The next partition is kept. -/
theorem CompactedTo.keep (h : CompactedTo old toRemove m c) {p : Partition} (hp : old.get? m = some p)
    (hm : m ∉ toRemove) : CompactedTo old toRemove (m + 1) (c.keep p) := by
  refine ⟨h.toRenumberedTo.keep hp hm, fun n hn => ?_, ?_, ?_, ?_⟩
  · obtain ⟨i, hi, hgone⟩ := h.gone n hn
    exact ⟨i, Nat.lt_succ_of_lt hi, hgone⟩
  · rw [List.range_succ, totalAt_append _ hp, ← h.live_eq, c.kept_keep, h.packed.total_insert_count, c.removed_keep]
    abel
  · rw [List.range_succ, totalAt_append _ hp, ← h.total_eq, c.kept_keep, h.packed.total_insert_count, c.removed_keep]
    abel
  · rw [List.range_succ, totalAt_append _ hp, ← h.faultyPower_eq, c.kept_keep, h.packed.total_insert_count]

/-- The next partition leaves. It has no faulty sectors, and no sectors of those that left before. -/
theorem CompactedTo.remove (h : CompactedTo old toRemove m c) {p : Partition} (hp : old.get? m = some p)
    (hs : p.Sound grid size table) (hm : m ∈ toRemove) (hfaults : p.faults = ∅)
    (hapart : ∀ i p', i < m → old.get? i = some p' → ∀ n ∈ p'.sectors, n ∉ p.sectors) :
    CompactedTo old toRemove (m + 1) (c.remove p) := by
  have hnew : ∀ n, n ∈ c.removed.live ∨ n ∈ c.removed.dead → n ∉ p.sectors := by
    intro n hn
    obtain ⟨i, hi, p', hp', hn'⟩ := h.gone n hn
    exact hapart i p' hi hp' n hn'
  obtain ⟨hlive, htotal⟩ := Compacting.count_remove hs.terminated_sectors hnew
  have hpower : p.faultyPower = 0 := by rw [hs.faultyPower_eq, hfaults, NumberSet.total_empty]
  refine ⟨h.toRenumberedTo.remove hm _, fun n hn => ?_, ?_, ?_, ?_⟩
  · rcases Compacting.of_mem_remove hs.terminated_sectors hn with hn | hn
    · obtain ⟨i, hi, hgone⟩ := h.gone n hn
      exact ⟨i, Nat.lt_succ_of_lt hi, hgone⟩
    · exact ⟨m, Nat.lt_succ_self m, p, hp, hn⟩
  · rw [List.range_succ, totalAt_append _ hp, ← h.live_eq, hlive]
    push_cast
    exact (Int.add_assoc ..).symm
  · rw [List.range_succ, totalAt_append _ hp, ← h.total_eq, htotal]
    push_cast
    exact (Int.add_assoc ..).symm
  · rw [List.range_succ, totalAt_append _ hp, ← h.faultyPower_eq, hpower, add_zero, c.kept_remove]

/-- One more partition is kept or leaves. -/
theorem CompactedTo.step (hc : d.Coherent grid size table) (h : CompactedTo d.parts toRemove m c)
    (hstep : compactPartition d.parts toRemove c m = .ok c') : CompactedTo d.parts toRemove (m + 1) c' := by
  obtain ⟨p, hp, ⟨hm, rfl⟩ | ⟨hm, hfaults, -, rfl⟩⟩ := compactPartition_spec hstep
  · exact h.keep hp hm
  · refine h.remove hp (hc.sound m p hp) hm hfaults fun i p' hi hp' n hn hn' => ?_
    have := hc.apart i m p' p n hp' hp hn hn'
    omega

/-- Partitions are removed. -/
theorem Invariant.removePartitions (h : d.Invariant grid size table floor) {r : RemovedPartitions}
    (hop : d.removePartitions toRemove = .ok (d', r)) : d'.Invariant grid size table floor := by
  rcases removePartitions_spec hop with ⟨-, rfl, -⟩ | ⟨old, q, c, hold, hq, hrange, hearly, hfold, -, hlive, htotal, rfl⟩
  · exact h
  obtain rfl := parts_eq hold
  obtain rfl := queue_eq hq
  have hc := h.consistent
  have hrun : CompactedTo d.parts toRemove d.parts.count c := by
    exact foldOutcome_range_invariant hfold compactedTo_zero fun m c c' hI hstep => hI.step hc.toCoherent hstep
  have hentry : ∀ k j, j ∈ NumberQueue.entry (NumberQueue.cut d.queue toRemove) k ↔
      ∃ i, i ∈ d.queue.entry k ∧ i ∉ toRemove ∧ j + toRemove.rank i = i := NumberQueue.mem_entry_cut d.queue toRemove
  refine ⟨?_, rfl, h.bounded.cut toRemove⟩
  refine ⟨⟨rfl, hrun.packed, fun j p hp => ?_, fun j j' p p' n hp hp' hn hn' => ?_, ?_, ?_, ?_, fun j p hp => ?_,
    fun j => ?_⟩, fun j p hp => ?_, fun j k hj => ?_⟩
  · obtain ⟨i, -, -, hp, -⟩ := hrun.origin j p hp
    exact hc.sound i p hp
  · obtain ⟨i, -, -, hp, hj⟩ := hrun.origin j p hp
    obtain ⟨i', -, -, hp', hj'⟩ := hrun.origin j' p' hp'
    obtain rfl := hc.apart i i' p p' n hp hp' hn hn'
    omega
  · have hsum := hrun.live_eq
    rw [← hc.packed.total_eq_totalAt, ← hc.live_eq] at hsum
    dsimp only [parts]
    omega
  · have hsum := hrun.total_eq
    rw [← hc.packed.total_eq_totalAt, ← hc.total_eq] at hsum
    dsimp only [parts]
    omega
  · exact (hc.faultyPower_eq.trans (hc.packed.total_eq_totalAt _)).trans hrun.faultyPower_eq.symm
  · obtain ⟨i, -, -, hp, -⟩ := hrun.origin j p hp
    exact hc.early_held i p hp
  · refine ⟨fun hj => absurd (hearly ▸ hj) (NumberSet.not_mem_empty j), ?_⟩
    rintro ⟨p, q, hp, hq, hsome⟩
    obtain ⟨i, -, -, hp, -⟩ := hrun.origin j p hp
    have hi := (hc.early_iff i).2 ⟨p, q, hp, hq, hsome⟩
    exact absurd (hearly ▸ hi) (NumberSet.not_mem_empty i)
  · obtain ⟨i, -, hr, hp, hj⟩ := hrun.origin j p hp
    exact (hc.placed i p hp).mono le_rfl fun k hk => (hentry k j).2 ⟨i, hk, hr, hj⟩
  · obtain ⟨i, hi, hr, hj⟩ := (hentry k j).1 hj
    obtain ⟨p, hp⟩ := hc.known i k hi
    exact ⟨p, hrun.moved i j p ((hc.packed i).1 ⟨p, hp⟩) hr hp hj⟩

end SectorLedger.Deadline
