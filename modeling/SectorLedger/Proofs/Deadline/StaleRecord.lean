import SectorLedger.Proofs.Deadline.Conservation
import SectorLedger.Proofs.Deadline.Layout
import SectorLedger.Proofs.Deadline.Posting
import SectorLedger.Proofs.Deadline.Removing
import Mathlib.Data.Finset.Max

/-!
# The record of proofs when partitions move

When partitions are removed, the others and the queue are renumbered. The record of the partitions that were proven is
not: it keeps the old positions. So it stays attached to its partitions only if they all come before those that are
removed. Otherwise a partition that was proven is charged when the window ends, one that was not is excused, or the
record names a partition that does not exist.

* `RecordFollows`: the record stays attached. `recordFollows_iff`: when it does.
* `Excused`: what the record grants to a partition, beside `Outstanding`.
* `RecordKnown.apply`: an operation keeps that the record names only partitions that exist, unless it removes
  partitions that come before recorded ones.
* `posted_not_renumbered`: the runs, and a removal after any of them.
-/

namespace SectorLedger.Deadline

open SparseArray NumberSet

variable {grid : Grid} {size : SectorSize} {table : SectorTable} {d d' : Deadline} {toRemove : NumberSet} {i j : Nat}
  {r : RemovedPartitions} {w : Power} {p : Partition}

/-! ### Positions -/

/-- A position below all removed ones stays. -/
theorem newPosition_of_forall_le (h : ∀ j ∈ toRemove, i ≤ j) : newPosition toRemove i = i := by
  have hrank : toRemove.rank (0 + i) = toRemove.rank 0 := rank_add fun k _ hk hin => by
    have := h k hin
    omega
  have hsum := newPosition_add_rank toRemove i
  rw [Nat.zero_add, rank_zero] at hrank
  omega

/-- One above a removed position does not. -/
theorem newPosition_lt (hj : j ∈ toRemove) (h : j < i) : newPosition toRemove i < i := by
  have hrank : toRemove.rank (j + 1) ≤ toRemove.rank i := toRemove.rank_mono h
  have hsum := newPosition_add_rank toRemove i
  rw [rank_succ, if_pos hj] at hrank
  omega

/-- Kept partitions stay in order. -/
theorem newPosition_lt_newPosition (hi : i ∉ toRemove) (h : i < j) : newPosition toRemove i < newPosition toRemove j := by
  have hmono : Monotone (newPosition toRemove) := monotone_nat_of_le_succ fun k => by
    rw [newPosition_succ]
    exact Nat.le_add_right _ _
  have hle := hmono (Nat.succ_le_of_lt h)
  rw [Nat.succ_eq_add_one, newPosition_succ, if_pos hi] at hle
  omega

/-- The positions after a removal: those of the kept partitions. -/
structure Renumbered (toRemove : NumberSet) (d d' : Deadline) : Prop where
  /-- There were no gaps. -/
  packed : d.parts.Packed
  /-- There are none. -/
  packed' : d'.parts.Packed
  /-- The removed partitions were there. -/
  in_range : ∀ j ∈ toRemove, j < d.parts.count
  /-- There are as many partitions as positions were kept. -/
  count_eq : d'.parts.count = newPosition toRemove d.parts.count
  /-- A kept partition is found under its new position. -/
  moved : ∀ i p, i ∉ toRemove → d.parts.get? i = some p → d'.parts.get? (newPosition toRemove i) = some p
  /-- Each position is that of a kept partition. -/
  onto : ∀ k < d'.parts.count, ∃ i < d.parts.count, i ∉ toRemove ∧ newPosition toRemove i = k
  /-- The record is as before. -/
  posted_eq : d'.posted = d.posted

/-- A removal renumbers the partitions and nothing else. -/
theorem renumbered_of_removePartitions (hne : toRemove ≠ ∅) (hop : d.removePartitions toRemove = .ok (d', r)) :
    Renumbered toRemove d d' := by
  rcases removePartitions_spec hop with ⟨hnil, -, -⟩ | ⟨old, q, c, hold, -, hin, -, hfold, -, -, -, rfl⟩
  · exact absurd hnil hne
  obtain rfl := parts_eq hold
  have hpacked := packed_of_compact hfold
  have hrun : RenumberedTo d.parts toRemove d.parts.count c :=
    foldOutcome_range_invariant hfold renumberedTo_zero fun m c c' hI hstep => hI.step hstep
  refine ⟨hpacked, hrun.packed, hin, ?_, fun i p hi hp => ?_, fun k hk => ?_, rfl⟩
  · exact (eq_newPosition_iff.1 hrun.count_eq).symm
  · exact hrun.moved i _ p ((hpacked i).1 ⟨p, hp⟩) hi hp (newPosition_add_rank toRemove i)
  · obtain ⟨p, hp⟩ := (hrun.packed k).2 hk
    obtain ⟨i, hi, hr, -, hk⟩ := hrun.origin k p hp
    exact ⟨i, hi, hr, eq_newPosition_iff.1 hk⟩

/-! ### The record after a removal -/

/-- The record names the partitions that it named before the removal, under their new positions, and no others. -/
structure RecordFollows (toRemove : NumberSet) (d d' : Deadline) : Prop where
  /-- A kept partition is recorded if it was. -/
  kept_iff : ∀ i < d.parts.count, i ∉ toRemove → (newPosition toRemove i ∈ d'.posted ↔ i ∈ d.posted)
  /-- Only partitions that exist are recorded. -/
  known : ∀ i ∈ d'.posted, i < d'.parts.count

/-- The recorded partitions come before the removed ones. -/
def SparesRecord (toRemove : NumberSet) (d : Deadline) : Prop := ∀ i ∈ d.posted, ∀ j ∈ toRemove, i < j

/-- If the recorded partitions come first, they do not move. -/
theorem Renumbered.follows (h : Renumbered toRemove d d') (hne : toRemove ≠ ∅) (hspare : SparesRecord toRemove d) :
    RecordFollows toRemove d d' := by
  have hstay : ∀ i ∈ d.posted, newPosition toRemove i = i := fun i hi =>
    newPosition_of_forall_le fun j hj => (hspare i hi j hj).le
  have hkept : ∀ i ∈ d.posted, i ∉ toRemove := fun i hi hr => Nat.lt_irrefl i (hspare i hi i hr)
  refine ⟨fun i hi hr => ?_, fun i hi => ?_⟩
  · rw [h.posted_eq]
    constructor
    · intro hin
      -- The partition that stands there did not move, and no two come to stand at one position.
      have hle : newPosition toRemove i ≤ i := by
        have := newPosition_add_rank toRemove i
        omega
      rcases hle.eq_or_lt with heq | hlt
      · exact heq ▸ hin
      · have := newPosition_lt_newPosition (hkept _ hin) hlt
        rw [hstay _ hin] at this
        exact absurd this (Nat.lt_irrefl _)
    · intro hin
      rw [hstay i hin]
      exact hin
  · rw [h.posted_eq] at hi
    obtain ⟨j, hj⟩ := isEmpty_eq_false_iff.1 (Bool.eq_false_iff.2 fun he => hne (NumberSet.isEmpty_iff.1 he))
    have hlt : i < d.parts.count := (hspare i hi j hj).trans (h.in_range j hj)
    rw [h.count_eq, ← hstay i hi]
    exact newPosition_lt_newPosition (hkept i hi) hlt

/-- If a partition is recorded that does not come first, the record names ever later partitions. -/
theorem Renumbered.spares (h : Renumbered toRemove d d') (hfollows : RecordFollows toRemove d d') :
    SparesRecord toRemove d := by
  intro i hi j hj
  by_contra hle
  obtain ⟨last, hlast, hmax⟩ := Finset.exists_max_image d.posted.toFinset id ⟨i, mem_toFinset.2 hi⟩
  have hjl : j ≤ last := (Nat.not_lt.1 hle).trans (hmax i (mem_toFinset.2 hi))
  have hposted : last ∈ d'.posted := h.posted_eq ▸ mem_toFinset.1 hlast
  obtain ⟨next, hnext, hkept, heq⟩ := h.onto last (hfollows.known last hposted)
  have hrecorded : next ∈ d.posted := (hfollows.kept_iff next hnext hkept).1 (heq ▸ hposted)
  have hle' : next ≤ last := hmax next (mem_toFinset.2 hrecorded)
  have hmoved : newPosition toRemove next < next := by
    refine newPosition_lt hj (Nat.lt_of_le_of_ne ?_ fun he => hkept (he ▸ hj))
    have := newPosition_add_rank toRemove next
    omega
  omega

/-- **The record stays attached to its partitions if and only if they all come before those that are removed.** -/
theorem recordFollows_iff (hne : toRemove ≠ ∅) (hop : d.removePartitions toRemove = .ok (d', r)) :
    RecordFollows toRemove d d' ↔ SparesRecord toRemove d :=
  have h := renumbered_of_removePartitions hne hop
  ⟨h.spares, h.follows hne⟩

/-! ### What the record grants -/

/-- The partition is treated as one that was proven: a proof of it is ignored, and without one nothing happens to it
when the window ends. -/
structure Excused (d : Deadline) (i : Nat) : Prop where
  /-- A proof does not change it. -/
  ignored : ∀ {grid size table epoch proofs d' r}, d.recordProven grid size table epoch proofs = .ok (d', r) →
    d'.parts.get? i = d.parts.get? i
  /-- The end of the window does not either. -/
  spared : ∀ {grid epoch d' r}, d.processEnd grid epoch = .ok (d', r) → d'.parts.get? i = d.parts.get? i

theorem excused_of_mem (h : i ∈ d.posted) : d.Excused i where
  ignored hop := (proven_of_recordProven hop).2.1 i h
  spared hop := (lost_of_processEnd hop).2.1 i h

/-! ### Along a run -/

/-- There are no gaps between the partitions, and the record names only partitions that exist. -/
structure RecordKnown (d : Deadline) : Prop where
  /-- The partitions stand at the first positions. -/
  packed : d.parts.Packed
  /-- Only partitions that exist are recorded. -/
  known : ∀ i ∈ d.posted, i < d.parts.count

/-- How far the filling has come: no gap has come, and unless no sectors remain each position tried is used. -/
structure PackedTo (count tried : Nat) (f : Filling) : Prop where
  /-- There are no gaps. -/
  packed : f.partitions.Packed
  /-- No partition has gone. -/
  count_le : count ≤ f.partitions.count
  /-- Every position tried is used. -/
  tried_le : f.remaining = [] ∨ count - 1 + tried ≤ f.partitions.count

theorem PackedTo.step {count tried partitionSize : Nat} {proven : Bool} {f f' : Filling} (hsize : 0 < partitionSize)
    (h : PackedTo count tried f)
    (hstep : fillPartition grid size partitionSize proven f (count - 1 + tried) = .ok f') :
    PackedTo count (tried + 1) f' := by
  rcases fillPartition_spec hstep with ⟨rfl, hnil | hfull⟩ | ⟨p', w, hsome, hfree, hadd, rfl⟩
  · exact ⟨h.packed, h.count_le, .inl hnil⟩
  · -- A full partition is there.
    have hthere : count - 1 + tried < f'.partitions.count := by
      refine (h.packed _).1 (Option.ne_none_iff_exists'.1 fun hnone => ?_)
      rw [hnone, Option.getD_none, NumberSet.count_empty] at hfull
      omega
    exact ⟨h.packed, h.count_le, .inr hthere⟩
  · have hi := h.tried_le.resolve_left hsome
    have hle := h.count_le
    have hcount := h.packed.count_insert hi p'
    refine ⟨h.packed.insert hi p', ?_, .inr ?_⟩
    · simp only
      omega
    · simp only
      omega

/-- New sectors leave no gap. -/
theorem packed_of_addSectors (h : d.parts.Packed) {partitionSize : Nat} {proven : Bool} {ss : List Sector}
    (hop : d.addSectors grid size partitionSize proven ss = .ok (d', w)) :
    d'.parts.Packed ∧ d.parts.count ≤ d'.parts.count := by
  rcases addSectors_spec hop with ⟨-, rfl, -⟩ | ⟨ps, q, q', f, hsize, hps, -, hfold, -, -, rfl⟩
  · exact ⟨h, le_rfl⟩
  obtain rfl := parts_eq hps
  have hfill := foldOutcome_invariant (I := fun done f => PackedTo d.parts.count done.length f) hfold
    ⟨h, le_rfl, .inr (Nat.sub_le _ 1)⟩ fun done i rest f f' hs hI hstep => by
      rw [List.length_append, List.length_singleton]
      rw [eq_of_range'_eq_append hs] at hstep
      exact hI.step hsize hstep
  exact ⟨hfill.packed, hfill.count_le⟩

/-- Without a removal no partition goes and no gap comes. -/
theorem grown_of_apply (h : d.parts.Packed) {o : Operation} (hremove : ∀ toRemove, o ≠ .removePartitions toRemove)
    (hop : o.apply grid size table d = .ok (d', w)) : d'.parts.Packed ∧ d.parts.count ≤ d'.parts.count := by
  by_cases hadd : ∃ partitionSize proven ss, o = .addSectors partitionSize proven ss
  · obtain ⟨partitionSize, proven, ss, rfl⟩ := hadd
    exact packed_of_addSectors h hop
  · have hkeeps := KeepsLayout.apply hop (fun k proven ss he => hadd ⟨k, proven, ss, he⟩) hremove
    have hlength := congrArg List.length hkeeps.parts.layout_eq
    rw [length_layout, length_layout] at hlength
    exact ⟨hkeeps.parts.packed h, hlength.ge⟩

/-- The partitions that an operation proves exist. -/
theorem exists_of_mem_proven {o : Operation} (hop : o.apply grid size table d = .ok (d', w)) (hi : i ∈ o.proven)
    (hno : i ∉ d.posted) : ∃ p, d'.parts.get? i = some p := by
  cases o with
  | recordProven epoch proofs =>
    obtain ⟨⟨_, r⟩, hdone, heq⟩ := map_eq_ok.1 hop
    obtain ⟨rfl, -⟩ := Prod.mk.inj heq
    obtain ⟨p, hp, -⟩ := (proven_of_recordProven hdone).2.2 i (mem_ofList.1 hi) hno
    exact ⟨p, hp⟩
  | _ => exact absurd hi (not_mem_empty i)

/-- A removal spares the record; the other operations always do. -/
def Operation.Spares (d : Deadline) : Operation → Prop
  | removePartitions toRemove => SparesRecord toRemove d
  | _ => True

/-- An operation that spares the record leaves nothing in it that does not exist. -/
theorem RecordKnown.apply (h : d.RecordKnown) {o : Operation} (ho : o.Spares d)
    (hop : o.apply grid size table d = .ok (d', w)) : d'.RecordKnown := by
  by_cases hremove : ∃ toRemove, o = .removePartitions toRemove
  · obtain ⟨toRemove, rfl⟩ := hremove
    obtain ⟨⟨_, r⟩, hdone, heq⟩ := map_eq_ok.1 hop
    obtain ⟨rfl, -⟩ := Prod.mk.inj heq
    by_cases hne : toRemove = ∅
    · rw [hne, removePartitions_empty] at hdone
      obtain ⟨rfl, -⟩ := Prod.mk.inj (Except.ok.inj hdone)
      exact h
    · have hmoved := renumbered_of_removePartitions hne hdone
      exact ⟨hmoved.packed', (hmoved.follows hne ho).known⟩
  · obtain ⟨hpacked, hle⟩ := grown_of_apply h.packed (fun toRemove he => hremove ⟨toRemove, he⟩) hop
    have hstay : ∀ i ∈ d.posted, i < d'.parts.count := fun i hi => (h.known i hi).trans_le hle
    refine ⟨hpacked, fun i hi => ?_⟩
    rcases posted_of_apply hop with ⟨_, -, hnil⟩ | hunion
    · exact absurd (hnil ▸ hi) (not_mem_empty i)
    · by_cases hposted : i ∈ d.posted
      · exact hstay i hposted
      · have hproven := (mem_union.1 (hunion ▸ hi)).resolve_left hposted
        exact (hpacked i).1 (exists_of_mem_proven hop hproven hposted)

/-- Neither does a run of such operations. -/
theorem recordKnown_of_run {os : List Operation} (h : Run grid size table (fun d o => o.Spares d) os d w) :
    d.RecordKnown := by
  induction h with
  | start => exact ⟨packed_empty, fun i hi => absurd hi (not_mem_empty i)⟩
  | step run ho hop ih => exact ih.apply ho hop

/-- **A removal does not renumber the record.** After a run whose removals spare it, the record names only partitions
that exist. After any successful removal, it is attached to its partitions if and only if that removal spares it, and
a kept partition is excused if its new position was in the record, and is not otherwise. -/
theorem posted_not_renumbered (grid : Grid) (size : SectorSize) (table : SectorTable) :
    (∀ os d w, Run grid size table (fun d o => o.Spares d) os d w → ∀ i ∈ d.posted, i < d.parts.count) ∧
      ∀ d d' toRemove r, toRemove ≠ ∅ → d.removePartitions toRemove = .ok (d', r) →
        d'.posted = d.posted ∧ (RecordFollows toRemove d d' ↔ SparesRecord toRemove d) ∧
          ∀ i p, i ∉ toRemove → d.parts.get? i = some p →
            d'.parts.get? (newPosition toRemove i) = some p ∧
              (newPosition toRemove i ∈ d.posted → d'.Excused (newPosition toRemove i)) ∧
              (newPosition toRemove i ∉ d.posted → d'.Outstanding (newPosition toRemove i)) := by
  refine ⟨fun os d w hrun => (recordKnown_of_run hrun).known, fun d d' toRemove r hne hop => ?_⟩
  have hmoved := renumbered_of_removePartitions hne hop
  refine ⟨hmoved.posted_eq, recordFollows_iff hne hop, fun i p hi hp => ⟨hmoved.moved i p hi hp, ?_, ?_⟩⟩
  · intro hin
    exact excused_of_mem (hmoved.posted_eq ▸ hin)
  · intro hno
    exact outstanding_of_not_mem (hmoved.posted_eq ▸ hno)

/-- Three sectors, in three partitions when each takes one. -/
def sampleOfThree : List Sector := Partition.sample ++ [{ number := 3, expiration := 30, pledge := 5 }]

/-- The last of three partitions is proven, and the others are removed. The record then names a partition that does not
exist, and the proven partition becomes faulty when the window ends. -/
theorem posted_not_renumbered_sample : ∃ d w, ∃ d' r, ∃ d'' e p,
    Run ⟨5, 4⟩ .kib2 (.ofList sampleOfThree) (Operation.Admissible ⟨5, 4⟩ .kib2 (.ofList sampleOfThree))
      [.addSectors 1 true sampleOfThree, .recordProven 20 [⟨2, ∅⟩]] d w ∧ NumberSet.ofList [0, 1] ≠ ∅ ∧
    d.removePartitions (.ofList [0, 1]) = .ok (d', r) ∧ d'.posted = .ofList [2] ∧ d'.parts.count = 1 ∧
    ¬RecordFollows (.ofList [0, 1]) d d' ∧ d'.Outstanding 0 ∧ d.parts.get? 2 = d'.parts.get? 0 ∧
    d'.processEnd ⟨5, 4⟩ 24 = .ok (d'', e) ∧ d''.parts.get? 0 = some p ∧ p.faults = .ofList [3] := by
  have hrun : ((follow ⟨5, 4⟩ .kib2 (.ofList sampleOfThree)
      (Operation.Admissible ⟨5, 4⟩ .kib2 (.ofList sampleOfThree))
      [.addSectors 1 true sampleOfThree, .recordProven 20 [⟨2, ∅⟩]] ({}, 0)).map fun s =>
        (s.1.posted, (s.1.parts.get? 2).isSome, (do
          let r ← s.1.removePartitions (.ofList [0, 1])
          let e ← r.1.processEnd ⟨5, 4⟩ 24
          return (r.1.parts.count, (e.1.parts.get? 0).map (·.faults)) : Outcome (Nat × Option NumberSet)))) =
      some (.ofList [2], true, .ok (1, some (.ofList [3]))) := by decide +kernel
  have hne : NumberSet.ofList [0, 1] ≠ ∅ := by decide +kernel
  have hnew : newPosition (.ofList [0, 1]) 2 = 0 := by decide +kernel
  obtain ⟨⟨d, w⟩, hfollow, heq⟩ := Option.map_eq_some_iff.1 hrun
  simp only [Prod.mk.injEq, bind_eq_ok, pure_eq_ok] at heq
  obtain ⟨hrecord, hthere, ⟨d', r⟩, hop, ⟨d'', e⟩, hend, hcount, hfaults⟩ := heq
  obtain ⟨p₀, hp₀⟩ := Option.isSome_iff_exists.1 hthere
  obtain ⟨p, hp, hfaulty⟩ := Option.map_eq_some_iff.1 hfaults
  obtain ⟨hposted, hfollows, hkept⟩ := (posted_not_renumbered ⟨5, 4⟩ .kib2 (.ofList sampleOfThree)).2 d d' _ r hne hop
  obtain ⟨hmoved, -, houtstanding⟩ := hkept 2 p₀ (by decide +kernel) hp₀
  rw [hnew] at hmoved houtstanding
  refine ⟨d, w, d', r, d'', e, p, Run.of_follow .start hfollow, hne, hop, hposted.trans hrecord, hcount, ?_,
    houtstanding ?_, hp₀.trans hmoved.symm, hend, hp, hfaulty⟩
  · intro hattached
    have hlt := hfollows.1 hattached 2 (hrecord ▸ by decide +kernel) 0 (by decide +kernel)
    exact absurd hlt (by decide)
  · rw [hrecord]
    decide +kernel

end SectorLedger.Deadline
