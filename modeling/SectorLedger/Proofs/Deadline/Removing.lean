import SectorLedger.Proofs.Deadline.Due
import SectorLedger.Proofs.Deadline.Run

/-!
# What the removal of partitions does

The partitions that stay are stored again from position zero on, and their numbers are cut out of the queue's sets. The
two renumberings are written apart and agree: a partition comes to stand at the number of kept positions below its own,
and the queue knows it by that number.

* `Deadline.Removable`: what the removal asks for. `removePartitions_total`: no more than that.
* `newPosition`: where a kept partition comes to stand.
* `LeavingTo`: what has left so far. `LeavingTo.step`: one more partition.
* `Compacted`: the whole. `removePartitions_compacts`: the removal succeeds where it may, and compacts.
-/

namespace SectorLedger.Deadline

open SparseArray NumberSet

variable {grid : Grid} {size : SectorSize} {table : SectorTable} {d d' : Deadline} {old : SparseArray Partition}
  {toRemove : NumberSet} {m n i : Nat} {c c' : Compacting} {r : RemovedPartitions} {p : Partition}

/-- The partitions can be removed: they exist, nothing is to be settled, and none of them has faulty or unproven
sectors. -/
structure Removable (toRemove : NumberSet) (d : Deadline) : Prop where
  /-- The positions are those of partitions. -/
  in_range : ∀ i ∈ toRemove, i < d.parts.count
  /-- No early terminations are to be settled, in whichever partition. -/
  settled : d.early = ∅
  /-- No sector is faulty or unproven. -/
  clean : ∀ i ∈ toRemove, ∀ p, d.parts.get? i = some p → p.faults = ∅ ∧ p.unproven = ∅

/-- How many kept positions are below. A kept partition comes to stand there. -/
def newPosition (toRemove : NumberSet) (i : Nat) : Nat := (List.range i).countP (· ∉ toRemove)

theorem newPosition_succ (toRemove : NumberSet) (i : Nat) :
    newPosition toRemove (i + 1) = newPosition toRemove i + if i ∉ toRemove then 1 else 0 := by
  simp [newPosition, List.range_succ, List.countP_append, List.countP_singleton]

/-- Positions are kept or removed, so a kept partition moves down by its rank. -/
theorem newPosition_add_rank (toRemove : NumberSet) (i : Nat) : newPosition toRemove i + toRemove.rank i = i := by
  induction i with
  | zero => rw [rank_zero]; rfl
  | succ i ih =>
    rw [newPosition_succ, rank_succ]
    by_cases hi : i ∈ toRemove
    · rw [if_neg (not_not.2 hi), if_pos hi]
      omega
    · rw [if_pos hi, if_neg hi]
      omega

/-- Where a partition comes to stand, told by the rank. -/
theorem eq_newPosition_iff {j : Nat} : j + toRemove.rank i = i ↔ newPosition toRemove i = j := by
  have := newPosition_add_rank toRemove i
  omega

/-! ### What leaves -/

/-- A sector that some partition among the first ones takes with it. -/
def Departing (select : Partition → NumberSet) (old : SparseArray Partition) (toRemove : NumberSet) (m n : Nat) :
    Prop :=
  ∃ i < m, i ∈ toRemove ∧ ∃ p, old.get? i = some p ∧ n ∈ select p

variable {select : Partition → NumberSet}

theorem departing_succ_of_not_mem (h : m ∉ toRemove) :
    Departing select old toRemove (m + 1) n ↔ Departing select old toRemove m n := by
  constructor
  · rintro ⟨i, hi, hr, hp⟩
    have hne : i ≠ m := fun he => h (he ▸ hr)
    exact ⟨i, by omega, hr, hp⟩
  · rintro ⟨i, hi, hr, hp⟩
    exact ⟨i, by omega, hr, hp⟩

theorem departing_succ_of_mem (h : m ∈ toRemove) (hp : old.get? m = some p) :
    Departing select old toRemove (m + 1) n ↔ Departing select old toRemove m n ∨ n ∈ select p := by
  constructor
  · rintro ⟨i, hi, hr, p', hp', hn⟩
    rcases Nat.lt_succ_iff_lt_or_eq.1 hi with hi | rfl
    · exact .inl ⟨i, hi, hr, p', hp', hn⟩
    · exact .inr (Option.some.inj (hp'.symm.trans hp) ▸ hn)
  · rintro (⟨i, hi, hr, hp⟩ | hn)
    · exact ⟨i, by omega, hr, hp⟩
    · exact ⟨m, Nat.lt_succ_self m, h, p, hp, hn⟩

/-- The live power of the partition at a position. -/
def livePowerAt (old : SparseArray Partition) (i : Nat) : Power := ((old.get? i).map Partition.livePower).getD 0

/-- What has left, after some partitions. -/
structure LeavingTo (old : SparseArray Partition) (toRemove : NumberSet) (m : Nat) (c : Compacting) : Prop where
  /-- None of the removed partitions has faulty or unproven sectors. -/
  clean : ∀ i < m, i ∈ toRemove → ∀ p, old.get? i = some p → p.faults = ∅ ∧ p.unproven = ∅
  /-- Their live sectors have left. -/
  live_iff : ∀ n, n ∈ c.removed.live ↔ Departing Partition.liveSectors old toRemove m n
  /-- So have those that had ended. -/
  dead_iff : ∀ n, n ∈ c.removed.dead ↔ Departing Partition.terminated old toRemove m n
  /-- So has their live power. -/
  power_eq : c.removed.power = (run 0 m ∩ toRemove).total (livePowerAt old)

theorem leavingTo_zero : LeavingTo old toRemove 0 {} where
  clean i hi := absurd hi (Nat.not_lt_zero i)
  live_iff n := by
    refine ⟨fun hn => absurd hn (not_mem_empty n), ?_⟩
    rintro ⟨i, hi, -⟩
    exact absurd hi (Nat.not_lt_zero i)
  dead_iff n := by
    refine ⟨fun hn => absurd hn (not_mem_empty n), ?_⟩
    rintro ⟨i, hi, -⟩
    exact absurd hi (Nat.not_lt_zero i)
  power_eq := by rw [show run 0 0 = ∅ from rfl, empty_inter, NumberSet.total_empty]

/-- One more partition is kept or leaves. -/
theorem LeavingTo.step (h : LeavingTo old toRemove m c) (hstep : compactPartition old toRemove c m = .ok c') :
    LeavingTo old toRemove (m + 1) c' := by
  have hnew : m ∉ run 0 m := by
    rw [mem_run]
    omega
  have hpower := total_inter_insert (livePowerAt old) hnew (t := toRemove)
  rw [← run_zero_succ, ← h.power_eq] at hpower
  obtain ⟨p, hp, ⟨hm, rfl⟩ | ⟨hm, hfaults, hunproven, rfl⟩⟩ := compactPartition_spec hstep
  · refine ⟨fun i hi hr => ?_, fun n => ?_, fun n => ?_, ?_⟩
    · have hne : i ≠ m := fun he => hm (he ▸ hr)
      exact h.clean i (by omega) hr
    · rw [departing_succ_of_not_mem hm]
      exact h.live_iff n
    · rw [departing_succ_of_not_mem hm]
      exact h.dead_iff n
    · rw [hpower, if_neg hm, add_zero, c.removed_keep]
  · refine ⟨fun i hi hr p' hp' => ?_, fun n => ?_, fun n => ?_, ?_⟩
    · rcases Nat.lt_succ_iff_lt_or_eq.1 hi with hi | rfl
      · exact h.clean i hi hr p' hp'
      · obtain rfl := Option.some.inj (hp.symm.trans hp')
        exact ⟨hfaults, hunproven⟩
    · rw [departing_succ_of_mem hm hp, Compacting.mem_live_remove, h.live_iff]
    · rw [departing_succ_of_mem hm hp, Compacting.mem_dead_remove, h.dead_iff]
    · rw [hpower, if_pos hm, livePowerAt, hp]
      rfl

/-! ### When the removal succeeds -/

theorem removePartitions_empty (d : Deadline) : d.removePartitions ∅ = .ok (d, {}) := rfl

/-- A partition is kept, or leaves, if it may. -/
theorem compactPartition_total (hc : d.Coherent grid size table) (hfits : d.Fits) (hr : d.Removable toRemove)
    (hI : CompactedTo d.parts toRemove m c) (hm : m < d.parts.count) :
    ∃ c', compactPartition d.parts toRemove c m = .ok c' := by
  obtain ⟨p, hp⟩ := (hc.packed m).2 hm
  have hcount := hI.count_eq
  have hindex : c.kept.count ≤ greatestIndex := le_greatestIndex hfits (by omega)
  simp only [compactPartition, bind_eq_ok, getPartition_eq_ok, refused_bind]
  by_cases hin : m ∈ toRemove
  · obtain ⟨hfaults, hunproven⟩ := hr.clean m hin p hp
    refine ⟨c.remove p, p, ⟨le_greatestIndex hfits hm, hp⟩, ?_⟩
    simp only [Compacting.remove, hin, hfaults, hunproven, not_true_eq_false, if_false, NumberSet.isEmpty_iff.2 rfl,
      Bool.not_true, Bool.false_eq_true, pure_eq_ok]
  · refine ⟨c.keep p, p, ⟨le_greatestIndex hfits hm, hp⟩, ?_⟩
    simp only [hin, not_false_eq_true, if_true, bind_eq_ok, putPartition_eq_ok, pure_eq_ok]
    exact ⟨_, ⟨hindex, rfl⟩, rfl⟩

/-- The walk through the partitions keeps both records of it. -/
theorem Coherent.compacted (hc : d.Coherent grid size table)
    (hfold : foldOutcome (compactPartition d.parts toRemove) {} (List.range d.parts.count) = .ok c) :
    CompactedTo d.parts toRemove d.parts.count c ∧ LeavingTo d.parts toRemove d.parts.count c := by
  refine foldOutcome_range_invariant (I := fun m c => CompactedTo d.parts toRemove m c ∧ LeavingTo d.parts toRemove m c)
    hfold ⟨compactedTo_zero, leavingTo_zero⟩ ?_
  intro m c c' hI hstep
  exact ⟨hI.1.step hc hstep, hI.2.step hstep⟩

/-- The removed sectors were counted among the deadline's. -/
theorem CompactedTo.counted (hc : d.Coherent grid size table) (h : CompactedTo d.parts toRemove d.parts.count c) :
    c.removed.live.count ≤ d.live ∧ c.removed.live.count + c.removed.dead.count ≤ d.total := by
  have hlive := h.live_eq
  have htotal := h.total_eq
  rw [← hc.packed.total_eq_totalAt, ← hc.live_eq] at hlive
  rw [← hc.packed.total_eq_totalAt, ← hc.total_eq] at htotal
  have hlive₀ : 0 ≤ SparseArray.total (fun p : Partition => (p.liveSectors.count : Int)) c.kept :=
    total_induction (fun _ _ => Int.add_nonneg) le_rfl fun _ _ _ => Int.natCast_nonneg _
  have htotal₀ : 0 ≤ SparseArray.total (fun p : Partition => (p.sectors.count : Int)) c.kept :=
    total_induction (fun _ _ => Int.add_nonneg) le_rfl fun _ _ _ => Int.natCast_nonneg _
  omega

/-- Partitions that can be removed are removed. -/
theorem removePartitions_total (hs : d.Sound grid size table) (hfits : d.Fits) (hr : d.Removable toRemove) :
    ∃ d' r, d.removePartitions toRemove = .ok (d', r) := by
  by_cases hne : toRemove = ∅
  · exact ⟨d, {}, hne ▸ removePartitions_empty d⟩
  · obtain ⟨c, hfold, hc⟩ := foldOutcome_range_total (g := compactPartition d.parts toRemove) compactedTo_zero
      fun m hm c hI => by
        obtain ⟨c', hstep⟩ := compactPartition_total hs.toCoherent hfits hr hI hm
        exact ⟨c', hstep, hI.step hs.toCoherent hstep⟩
    obtain ⟨hlive, htotal⟩ := hc.counted hs.toCoherent
    have hin : (toRemove \ run 0 d.parts.count).first? = none := by
      rw [first?_eq_none_iff, eq_empty_iff]
      intro i hi
      rw [mem_sdiff, mem_run] at hi
      have := hr.in_range i hi.1
      omega
    have hbound : c.removed.live.count + c.removed.dead.count < Count.bound := lt_of_le_of_lt htotal hfits.2
    refine ⟨{ d with
        partitions := .held c.kept
        live := d.live - c.removed.live.count
        total := d.total - (c.removed.live.count + c.removed.dead.count)
        expirations := .held (NumberQueue.cut d.queue toRemove) }, c.removed, ?_⟩
    simp only [removePartitions, NumberSet.isEmpty_iff, hne, if_false, bind_eq_ok, loadPartitions_eq_ok, failed_bind]
    refine ⟨_, hs.partitions_held, ?_⟩
    simp only [hin, bind_eq_ok, ite_failed_eq_ok, loadExpirations_eq_ok, pure_eq_ok, Count.sub_eq_ok, Count.add_eq_ok,
      Bool.not_eq_true', Bool.not_eq_false, NumberSet.isEmpty_iff]
    exact ⟨hr.settled, c, hfold, _, ⟨hlive, rfl⟩, _, ⟨hbound, rfl⟩, _, ⟨htotal, rfl⟩, _, hs.expirations_held, rfl⟩

/-! ### What it leaves -/

/-- The deadline without the removed partitions, and what left with them. -/
structure Compacted (toRemove : NumberSet) (d d' : Deadline) (r : RemovedPartitions) : Prop where
  /-- A kept partition stands at the number of kept positions below its own. -/
  moved : ∀ i p, i ∉ toRemove → d.parts.get? i = some p → d'.parts.get? (newPosition toRemove i) = some p
  /-- The partitions stand at the first positions. -/
  packed : d'.parts.Packed
  /-- There are as many as were not removed. -/
  count_add : d'.parts.count + toRemove.count = d.parts.count
  /-- The queue lists a partition under its new position, at the same epochs. -/
  listed_iff : ∀ k j, j ∈ d'.queue.entry k ↔ ∃ i, i ∈ d.queue.entry k ∧ i ∉ toRemove ∧ newPosition toRemove i = j
  /-- No entry of the queue is left without partitions. -/
  nonempty : ∀ k js, SparseArray.get? d'.queue k = some js → ∃ j, j ∈ js
  /-- The live sectors that left were each in one of the removed partitions. -/
  live_iff : ∀ n, n ∈ r.live ↔ ∃! i, i ∈ toRemove ∧ ∃ p, d.parts.get? i = some p ∧ n ∈ p.liveSectors
  /-- So were the ended ones. -/
  dead_iff : ∀ n, n ∈ r.dead ↔ ∃! i, i ∈ toRemove ∧ ∃ p, d.parts.get? i = some p ∧ n ∈ p.terminated
  /-- No sector left both live and ended. -/
  apart : ∀ n ∈ r.live, n ∉ r.dead
  /-- The live power that left. -/
  power_eq : r.power = toRemove.total (livePowerAt d.parts)
  /-- The live sectors are counted. -/
  live_add : d'.live + r.live.count = d.live
  /-- So are all sectors. -/
  total_add : d'.total + (r.live.count + r.dead.count) = d.total

/-- A sector that departs does so with one partition, as no two share a sector. -/
theorem Coherent.departing_iff (hc : d.Coherent grid size table) (hin : ∀ i ∈ toRemove, i < d.parts.count)
    (hselect : ∀ i p, d.parts.get? i = some p → ∀ n ∈ select p, n ∈ p.sectors) :
    Departing select d.parts toRemove d.parts.count n ↔
      ∃! i, i ∈ toRemove ∧ ∃ p, d.parts.get? i = some p ∧ n ∈ select p := by
  constructor
  · rintro ⟨i, -, hi, p, hp, hn⟩
    refine ⟨i, ⟨hi, p, hp, hn⟩, ?_⟩
    rintro j ⟨-, p', hp', hn'⟩
    exact hc.apart j i p' p n hp' hp (hselect j p' hp' n hn') (hselect i p hp n hn)
  · rintro ⟨i, ⟨hi, hp⟩, -⟩
    exact ⟨i, hin i hi, hi, hp⟩

/-- What a successful removal found and left. -/
theorem Sound.removePartitions (hs : d.Sound grid size table) (hne : toRemove ≠ ∅)
    (hop : d.removePartitions toRemove = .ok (d', r)) : d.Removable toRemove ∧ Compacted toRemove d d' r := by
  rcases removePartitions_spec hop with ⟨hnil, -, -⟩ |
    ⟨old, q, c, hold, hq, hin, hearly, hfold, rfl, hlive, htotal, rfl⟩
  · exact absurd hnil hne
  obtain rfl := parts_eq hold
  obtain rfl := queue_eq hq
  obtain ⟨hrun, hleft⟩ := hs.compacted hfold
  have hrank : toRemove.rank d.parts.count = toRemove.count := rank_of_forall_lt hin
  refine ⟨⟨hin, hearly, fun i hi => hleft.clean i (hin i hi) hi⟩, ?_⟩
  refine ⟨fun i p hi hp => ?_, hrun.packed, ?_, fun k j => ?_, fun k js hjs => ?_, fun n => ?_, fun n => ?_,
    fun n hn hn' => ?_, ?_, ?_, ?_⟩
  · exact hrun.moved i _ p ((hs.packed i).1 ⟨p, hp⟩) hi hp (newPosition_add_rank toRemove i)
  · exact hrank ▸ hrun.count_eq
  · refine (NumberQueue.mem_entry_cut d.queue toRemove k j).trans (exists_congr fun i => ?_)
    rw [eq_newPosition_iff]
  · exact NumberQueue.nonempty_of_get?_cut hjs
  · rw [hleft.live_iff]
    exact hs.departing_iff hin fun i p hp n hn => (Partition.mem_liveSectors.1 hn).1
  · rw [hleft.dead_iff]
    exact hs.departing_iff hin fun i p hp n hn => (hs.sound i p hp).terminated_sectors n hn
  · obtain ⟨i, -, -, p, hp, hin⟩ := (hleft.live_iff n).1 hn
    obtain ⟨j, -, -, p', hp', hin'⟩ := (hleft.dead_iff n).1 hn'
    obtain ⟨hsector, hlive⟩ := Partition.mem_liveSectors.1 hin
    obtain rfl := hs.apart i j p p' n hp hp' hsector ((hs.sound j p' hp').terminated_sectors n hin')
    obtain rfl := Option.some.inj (hp.symm.trans hp')
    exact hlive hin'
  · rw [hleft.power_eq, run_zero_inter hin]
  · exact Nat.sub_add_cancel hlive
  · exact Nat.sub_add_cancel htotal

/-- **Partitions are removed if and only if they can be**, and what is left is the deadline without them. -/
theorem removePartitions_compacts (hs : d.Sound grid size table) (hfits : d.Fits) (hne : toRemove ≠ ∅) :
    ((∃ d' r, d.removePartitions toRemove = .ok (d', r)) ↔ d.Removable toRemove) ∧
      ∀ d' r, d.removePartitions toRemove = .ok (d', r) → Compacted toRemove d d' r := by
  refine ⟨⟨?_, fun hr => removePartitions_total hs hfits hr⟩, fun d' r hop => (hs.removePartitions hne hop).2⟩
  rintro ⟨d', r, hop⟩
  exact (hs.removePartitions hne hop).1

/-- Two sectors in two partitions, of which the first has ended. The second partition moves down. -/
theorem removePartitions_compacts_sample : ∃ d w, ∃ d' r,
    Run ⟨5, 4⟩ .kib2 (.ofList Partition.sample) (Operation.Admissible ⟨5, 4⟩ .kib2 (.ofList Partition.sample))
      [.addSectors 1 true Partition.sample, .popExpired 14] d w ∧
    d.Sound ⟨5, 4⟩ .kib2 (.ofList Partition.sample) ∧ d.Fits ∧ NumberSet.ofList [0] ≠ ∅ ∧
    d.removePartitions (.ofList [0]) = .ok (d', r) ∧ r.dead = .ofList [1] ∧ newPosition (.ofList [0]) 1 = 0 ∧
    d.Removable (.ofList [0]) ∧ Compacted (.ofList [0]) d d' r := by
  have hrun : ((follow ⟨5, 4⟩ .kib2 (.ofList Partition.sample)
      (Operation.Admissible ⟨5, 4⟩ .kib2 (.ofList Partition.sample))
      [.addSectors 1 true Partition.sample, .popExpired 14] ({}, 0)).map fun s =>
        (decide s.1.Fits, (s.1.removePartitions (.ofList [0])).map (·.2.dead))) =
      some (true, .ok (.ofList [1])) := by decide +kernel
  obtain ⟨⟨d, w⟩, hfollow, heq⟩ := Option.map_eq_some_iff.1 hrun
  obtain ⟨hfits, hremoved⟩ := Prod.mk.inj heq
  obtain ⟨⟨d', r⟩, hop, hdead⟩ := map_eq_ok.1 hremoved
  have hd := Run.of_follow .start hfollow
  have hsound := (invariant_of_run (by decide) (SectorTable.keyed_ofList Partition.sample) hd (by decide) 0 (by simp
    [Operation.faultExpiration?])).sound
  have hne : NumberSet.ofList [0] ≠ ∅ := by decide +kernel
  obtain ⟨hremovable, hcompacted⟩ := removePartitions_compacts hsound (of_decide_eq_true hfits) hne
  exact ⟨d, w, d', r, hd, hsound, of_decide_eq_true hfits, hne, hop, hdead, by decide +kernel, hremovable.1 ⟨d', r, hop⟩,
    hcompacted d' r hop⟩

end SectorLedger.Deadline
