import SectorLedger.Proofs.Deadline.PartsSound
import SectorLedger.Proofs.Partition.Conservation

/-!
# The active power of a deadline

What an operation on a deadline reports is the change of the power that counts, summed over the partitions. A
walk through partitions adds up what they report one by one. Only the removal of partitions reports something
else, their live power, and needs to know that it is exact.

* `activePower_of_addSectors`, `activePower_of_declareFaults` and their like: one operation each.
* `activePower_apply`: every operation.
* `activePower_of_run`: a run.
-/

namespace SectorLedger.Deadline

open SparseArray

variable {grid : Grid} {size : SectorSize} {table : SectorTable} {d d' : Deadline} {epoch : Int}
  {map : PartitionSectors} {w : Power}

theorem activePower_eq {ps : SparseArray Partition} (h : d.partitions = .held ps) :
    d.activePower = activePowerIn ps := by
  rw [activePower, parts_eq h]

/-! ### One operation each -/

/-- A partition that may not be there yet counts as an empty one. -/
theorem activePowerIn_insert_getD (ps : SparseArray Partition) (i : Nat) (p : Partition) :
    activePowerIn (ps.insert i p) = activePowerIn ps + (p.activePower - ((ps.get? i).getD {}).activePower) :=
  total_insert_getD Partition.activePower rfl ps i p

theorem activePower_of_addSectors {partitionSize : Nat} {proven : Bool} {ss : List Sector}
    (h : d.addSectors grid size partitionSize proven ss = .ok (d', w)) : d'.activePower = d.activePower + w := by
  rcases addSectors_spec h with ⟨-, rfl, rfl⟩ | ⟨ps, q, q', f, -, hps, -, hfold, -, rfl, rfl⟩
  · exact (add_zero d'.activePower).symm
  rw [activePower_eq hps]
  refine foldOutcome_invariant (I := fun _ (f : Filling) =>
    activePowerIn f.partitions = activePowerIn ps + f.activated) hfold (add_zero _).symm ?_
  intro done i rest f f' _ hI hstep
  rcases fillPartition_spec hstep with ⟨rfl, -⟩ | ⟨p', v, -, -, hadd, rfl⟩
  · exact hI
  · rw [activePowerIn_insert_getD, hI, (Partition.powers_of_addSectors hadd).1]
    dsimp only
    abel

theorem activePower_of_declareFaults (h : d.declareFaults grid size table epoch map = .ok (d', w)) :
    d'.activePower = d.activePower + w := by
  obtain ⟨ps, f, hps, hfold, rfl, hlist⟩ := declareFaults_spec h
  rw [activePower, parts_of_addExpirationPartitions hlist, activePower_eq hps]
  refine foldOutcome_invariant (I := fun _ (f : Faulting) =>
    activePowerIn f.partitions = activePowerIn ps + f.delta) hfold (add_zero _).symm ?_
  intro done entry rest f f' _ hI hstep
  obtain ⟨p, p', newFaults, fd, hp, hdeclare, rfl⟩ := declareFaultsIn_spec hstep
  rw [activePowerIn_insert hp, hI, (Partition.powers_of_declareFaults hdeclare).1]
  dsimp only
  abel

theorem activePower_of_declareRecovered (h : d.declareRecovered size table map = .ok d') :
    d'.activePower = d.activePower := by
  obtain ⟨ps, ps', hps, hfold, rfl⟩ := declareRecovered_spec h
  rw [activePower_eq hps]
  refine foldOutcome_invariant (I := fun _ ps' => activePowerIn ps' = activePowerIn ps) hfold rfl ?_
  intro done entry rest ps₁ ps₂ _ hI hstep
  obtain ⟨p, p', hp, hdeclare, rfl⟩ := recoverIn_spec hstep
  rw [activePowerIn_insert hp, hI, (Partition.powers_of_declareRecovered hdeclare).1, sub_self, add_zero]

theorem activePower_of_recordProven {proofs : List PartitionProof} {r : ProofResult}
    (h : d.recordProven grid size table epoch proofs = .ok (d', r)) : d'.activePower = d.activePower + r.delta := by
  obtain ⟨ps, v, d₁, hps, hfold, -, rfl, rfl⟩ := recordProven_eq_ok.1 h
  rw [activePower_eq hps]
  refine foldOutcome_invariant (I := fun _ (v : Proving) =>
    activePowerIn v.partitions = activePowerIn ps + v.result.delta) hfold (add_zero _).symm ?_
  intro done proof rest v v' _ hI hstep
  rcases provePartition_spec hstep with ⟨-, rfl⟩ | ⟨p, p₁, skipped, p₂, recovered, -, hp, hskip, hrecover, hparts, -, -,
    hdelta, -⟩
  · exact hI
  · rw [hparts, hdelta, activePowerIn_insert hp, hI, (Partition.powers_of_activateUnproven _).1,
      (Partition.powers_of_recoverFaults hrecover).1, (Partition.powers_of_recordSkippedFaults hskip).1]
    abel

theorem activePower_of_processEnd {r : WindowEnd} (h : d.processEnd grid epoch = .ok (d', r)) :
    d'.activePower = d.activePower + r.delta := by
  obtain ⟨ps, f, d₁, hps, hfold, hlist, rfl, rfl⟩ := processEnd_spec h
  have hparts := parts_of_addExpirationPartitions hlist
  rw [activePower_eq hps, activePower, show ({ d₁ with posted := ∅ } : Deadline).parts = d₁.parts from rfl, hparts]
  refine foldOutcome_invariant (I := fun _ (f : Faulting) =>
    activePowerIn f.partitions = activePowerIn ps + f.delta) hfold (add_zero _).symm ?_
  intro done i rest f f' _ hI hstep
  rcases missProof_spec hstep with ⟨-, rfl⟩ | ⟨p, hp, -, ⟨-, -, rfl⟩ | ⟨p', missed, hmiss, rfl⟩⟩
  · exact hI
  · exact hI
  · rw [activePowerIn_insert hp, hI, (Partition.powers_of_recordMissedProof hmiss).1]
    dsimp only
    abel

theorem activePower_of_popExpired {upTo : Int} {e : ExpirationSet} (h : d.popExpired upTo = .ok (d', e)) :
    d'.activePower = d.activePower - e.active := by
  obtain ⟨q, q', listed, modified, -, -, ⟨-, rfl, rfl⟩ | ⟨ps, x, count, -, hps, hfold, -, -, rfl, rfl⟩⟩ :=
    popExpired_spec h
  · exact (sub_zero d'.activePower).symm
  rw [activePower_eq hps]
  refine foldOutcome_invariant (I := fun _ (x : Expiring) =>
    activePowerIn x.partitions = activePowerIn ps - x.expired.active) hfold (sub_zero _).symm ?_
  intro done i rest x x' _ hI hstep
  obtain ⟨p, p', popped, hp, hpop, hadd, hparts, -⟩ := expirePartition_spec hstep
  obtain ⟨-, hmerge⟩ := ExpirationSet.add_eq_ok.1 hadd
  rw [hparts, activePowerIn_insert hp, hI, (Partition.powers_of_popExpired hpop).1, ← hmerge]
  simp only [ExpirationSet.merge]
  abel

theorem activePower_of_terminateSectors {maxSectors : Nat}
    (h : d.terminateSectors grid size table maxSectors epoch map = .ok (d', w)) :
    d'.activePower = d.activePower - w := by
  obtain ⟨ps, t, hps, hfold, rfl, rfl⟩ := terminateSectors_spec h
  rw [activePower_eq hps]
  refine foldOutcome_invariant (I := fun _ (t : Terminating) =>
    activePowerIn t.partitions = activePowerIn ps - t.lost) hfold (sub_zero _).symm ?_
  intro done entry rest t t' _ hI hstep
  obtain ⟨p, p', removed, hp, hterm, -, hparts, -, hlost⟩ := terminateIn_spec hstep
  rw [hparts, hlost, activePowerIn_insert hp, hI, (Partition.powers_of_terminateSectors hterm).1]
  abel

theorem activePower_of_popEarlyTerminations {maxPartitions maxSectors : Nat} {taken : Terminations} {more : Bool}
    (h : d.popEarlyTerminations maxPartitions maxSectors = .ok (d', taken, more)) :
    d'.activePower = d.activePower := by
  obtain ⟨ps, s, hps, hfold, rfl⟩ := popEarlyTerminations_spec h
  rw [activePower_eq hps]
  have hstep : ∀ (done : List Nat) i rest s s' go, d.early.elements = done ++ i :: rest →
      activePowerIn s.partitions = activePowerIn ps → settlePartition maxPartitions maxSectors s i = .ok (s', go) →
      activePowerIn s'.partitions = activePowerIn ps := by
    intro done i rest s s' go _ hI hstep
    rcases settlePartition_spec hstep with ⟨-, rfl⟩ | ⟨p, left, p', popped, more, hp, hpop, hparts, -⟩
    · exact hI
    · rw [hparts, activePowerIn_insert hp, hI, (Partition.powers_of_popEarlyTerminations hpop).1, sub_self, add_zero]
  obtain ⟨_, _, -, hend⟩ := NumberSet.visitWhile_invariant (I := fun _ (s : Settling) =>
    activePowerIn s.partitions = activePowerIn ps) hfold rfl hstep
  exact hend

theorem activePower_of_rescheduleExpirations {moved : List Sector}
    (h : d.rescheduleExpirations grid size table epoch map = .ok (d', moved)) : d'.activePower = d.activePower := by
  obtain ⟨ps, r, hps, hfold, -, ⟨-, rfl⟩ | hlist⟩ := rescheduleExpirations_spec h
  · rfl
  rw [activePower, parts_of_addExpirationPartitions hlist, activePower_eq hps]
  refine foldOutcome_invariant (I := fun _ (r : Rescheduling) =>
    activePowerIn r.partitions = activePowerIn ps) hfold rfl ?_
  intro done entry rest r r' _ hI hstep
  rcases rescheduleIn_spec hstep with rfl | ⟨p, p', moved, hp, hresch, -, rfl⟩
  · exact hI
  · rw [activePowerIn_insert hp, hI, (Partition.powers_of_rescheduleExpirations hresch).1, sub_self, add_zero]

/-! ### Removal -/

/-- A removal goes through all partitions, so there is no gap between them. -/
theorem packed_of_compact {old : SparseArray Partition} {toRemove : NumberSet} {c : Compacting}
    (h : foldOutcome (compactPartition old toRemove) {} (List.range old.count) = .ok c) : old.Packed := by
  have hsome : ∀ i ∈ List.range old.count, ∃ p, old.get? i = some p := foldOutcome_forall h fun i c c' hstep => by
    obtain ⟨p, hp, -⟩ := compactPartition_spec hstep
    exact ⟨p, hp⟩
  exact packed_of_forall_lt fun i hi => hsome i (List.mem_range.2 hi)

/-- The kept partitions and the removed ones have the power of all. -/
theorem activePower_of_removePartitions (hd : d.PartsSound grid size table) {toRemove : NumberSet}
    {r : RemovedPartitions} (h : d.removePartitions toRemove = .ok (d', r)) :
    d'.activePower = d.activePower - r.power := by
  rcases removePartitions_spec h with ⟨-, rfl, rfl⟩ | ⟨old, q, c, hold, -, -, -, hfold, rfl, -, -, rfl⟩
  · exact (sub_zero d'.activePower).symm
  have hsum : c.kept.Packed ∧
      activePowerIn c.kept + c.removed.power = totalAt Partition.activePower old (List.range old.count) := by
    refine foldOutcome_invariant (I := fun done (c : Compacting) => c.kept.Packed ∧
      activePowerIn c.kept + c.removed.power = totalAt Partition.activePower old done) hfold
      ⟨packed_empty, add_zero _⟩ ?_
    rintro done i rest c c' _ ⟨hpacked, hsum⟩ hstep
    obtain ⟨p, hp, hcase⟩ := compactPartition_spec hstep
    rw [totalAt_append _ hp, ← hsum]
    rcases hcase with ⟨-, rfl⟩ | ⟨-, hfaults, hunproven, rfl⟩
    · refine ⟨hpacked.insert le_rfl p, ?_⟩
      simp only [activePowerIn, c.kept_keep, c.removed_keep, hpacked.total_insert_count]
      abel
    · refine ⟨hpacked, ?_⟩
      rw [(hd.held hold i p hp).activePower_eq_livePower hfaults hunproven, c.kept_remove, c.power_remove]
      abel
  rw [activePower_eq hold, activePowerIn, (packed_of_compact hfold).total_eq_totalAt, ← hsum.2]
  simp only [activePower, parts]
  abel

/-- An operation reports the change of active power. -/
theorem activePower_apply (hd : d.PartsSound grid size table) {o : Operation}
    (h : o.apply grid size table d = .ok (d', w)) : d'.activePower = d.activePower + w := by
  cases o with
  | addSectors partitionSize proven ss => exact activePower_of_addSectors h
  | declareFaults epoch map => exact activePower_of_declareFaults h
  | declareRecovered map =>
    obtain ⟨_, hop, heq⟩ := map_eq_ok.1 h
    obtain ⟨rfl, rfl⟩ := Prod.mk.inj heq
    rw [activePower_of_declareRecovered hop, add_zero]
  | recordProven epoch proofs =>
    obtain ⟨⟨_, r⟩, hop, heq⟩ := map_eq_ok.1 h
    obtain ⟨rfl, rfl⟩ := Prod.mk.inj heq
    exact activePower_of_recordProven hop
  | processEnd epoch =>
    obtain ⟨⟨_, r⟩, hop, heq⟩ := map_eq_ok.1 h
    obtain ⟨rfl, rfl⟩ := Prod.mk.inj heq
    exact activePower_of_processEnd hop
  | popExpired upTo =>
    obtain ⟨⟨_, e⟩, hop, heq⟩ := map_eq_ok.1 h
    obtain ⟨rfl, rfl⟩ := Prod.mk.inj heq
    rw [activePower_of_popExpired hop, sub_eq_add_neg]
  | terminateSectors maxSectors epoch map =>
    obtain ⟨⟨_, lost⟩, hop, heq⟩ := map_eq_ok.1 h
    obtain ⟨rfl, rfl⟩ := Prod.mk.inj heq
    rw [activePower_of_terminateSectors hop, sub_eq_add_neg]
  | popEarlyTerminations maxPartitions maxSectors =>
    obtain ⟨⟨_, taken, more⟩, hop, heq⟩ := map_eq_ok.1 h
    obtain ⟨rfl, rfl⟩ := Prod.mk.inj heq
    rw [activePower_of_popEarlyTerminations hop, add_zero]
  | removePartitions toRemove =>
    obtain ⟨⟨_, r⟩, hop, heq⟩ := map_eq_ok.1 h
    obtain ⟨rfl, rfl⟩ := Prod.mk.inj heq
    rw [activePower_of_removePartitions hd hop, sub_eq_add_neg]
  | rescheduleExpirations epoch map =>
    obtain ⟨⟨_, moved⟩, hop, heq⟩ := map_eq_ok.1 h
    obtain ⟨rfl, rfl⟩ := Prod.mk.inj heq
    rw [activePower_of_rescheduleExpirations hop, add_zero]

/-- The active power after a run is the sum of what its operations reported. -/
theorem activePower_of_run (hu : 0 < grid.unit) (hk : table.Keyed) {os : List Operation}
    (h : Run grid size table (fun _ o => o.Recorded table) os d w) : d.activePower = w := by
  induction h with
  | start => rfl
  | step run ho hstep ih => rw [activePower_apply (partsSound_of_run hu hk run) hstep, ih]

end SectorLedger.Deadline
