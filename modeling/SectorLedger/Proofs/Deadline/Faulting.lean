import SectorLedger.Proofs.Deadline.Sound
import SectorLedger.Proofs.Partition.Conservation

/-!
# Faults, recovery and moves in a deadline

These operations change some partitions one after the other and list those with sectors that moved at the one
epoch to which they moved. While an operation goes on these partitions wait to be listed.

* `Invariant.declareFaults`, `Invariant.recordProven`, `Invariant.processEnd`: sectors become faulty.
* `Invariant.declareRecovered`, `Invariant.rescheduleExpirations`: they recover, or move.
-/

namespace SectorLedger.Deadline

open SparseArray

variable {grid : Grid} {size : SectorSize} {table : SectorTable} {floor epoch : Int} {d d' : Deadline}
  {q : NumberQueue} {waiting waiting' : List Nat} {i : Nat} {p p' : Partition} {ns : NumberSet}
  {map : PartitionSectors}

/-- At the start of an operation no partition waits. -/
theorem Invariant.start (h : d.Invariant grid size table floor) (epoch : Int) {ps : SparseArray Partition}
    (hps : d.partitions = .held ps) :
    Consistent grid size table floor (Awaiting grid d.queue epoch []) { d with partitions := .held ps } := by
  have heq : { d with partitions := .held ps } = d := by rw [← hps]
  rw [heq]
  refine h.consistent.congr fun i k => ?_
  simp [Awaiting]

/-- Where the others are listed does not change while one partition begins to wait. -/
theorem awaiting_iff (hw : waiting' = waiting ∨ waiting' = waiting ++ [i]) {j k : Nat} (hne : j ≠ i) :
    Awaiting grid q epoch waiting' j k ↔ Awaiting grid q epoch waiting j k := by
  rcases hw with rfl | rfl
  · exact Iff.rfl
  · exact awaiting_append_iff hne

theorem awaiting_mono (hw : waiting' = waiting ∨ waiting' = waiting ++ [i]) {j k : Nat}
    (h : Awaiting grid q epoch waiting j k) : Awaiting grid q epoch waiting' j k := by
  rcases hw with rfl | rfl
  · exact h
  · rcases h with h | ⟨hj, hup⟩
    · exact .inl h
    · exact .inr ⟨List.mem_append_left _ hj, hup⟩

/-- A partition with new faults waits to be listed at their expiration. -/
theorem placed_of_faultedBy (hu : 0 < grid.unit) (hp : p.Placed grid table epoch (Awaiting grid q epoch waiting i))
    (hf : p.FaultedBy grid epoch ns p') (hw : waiting' = waiting ∨ waiting' = waiting ++ [i])
    (hwaits : (∃ n ∈ ns, n ∉ p.faults) → waiting' = waiting ++ [i]) :
    p'.Placed grid table epoch (Awaiting grid q epoch waiting' i) :=
  hf.placed hu hp (fun _ => awaiting_mono hw) fun hnew k hup =>
    .inr ⟨by rw [hwaits hnew]; exact List.mem_append_right _ List.mem_cons_self, hup⟩

/-- Sectors are declared faulty. -/
theorem Invariant.declareFaults (hu : 0 < grid.unit) (hk : table.Keyed) (h : d.Invariant grid size table epoch)
    {w : Power} (hop : d.declareFaults grid size table epoch map = .ok (d', w)) :
    d'.Invariant grid size table epoch := by
  obtain ⟨ps, f, hps, hfold, -, hlist⟩ := declareFaults_spec hop
  have hc := foldOutcome_invariant (I := fun _ (f : Faulting) =>
    Consistent grid size table epoch (Awaiting grid d.queue epoch f.faulted)
      { d with partitions := .held f.partitions, faultyPower := f.faultyPower }) hfold (h.start epoch hps) ?_
  · exact hc.catchUp h.held h.bounded hlist
  intro done entry rest f f' _ hI hstep
  obtain ⟨p, p', newFaults, fd, hp, hdeclare, rfl⟩ := declareFaultsIn_spec hstep
  obtain ⟨hs, hfaulted, -⟩ := (hI.sound _ p hp).declareFaults hu hk hdeclare
  have hw : (if newFaults.isEmpty then f.faulted else f.faulted ++ [entry.1]) = f.faulted ∨
      (if newFaults.isEmpty then f.faulted else f.faulted ++ [entry.1]) = f.faulted ++ [entry.1] := by
    split <;> simp
  refine hI.put (hI.toCoherent.change hp hs hfaulted.keeps rfl rfl rfl ?_ rfl) rfl
    (placed_of_faultedBy hu (hI.placed _ p hp) hfaulted hw ?_) fun j k => awaiting_iff hw
  · rw [(Partition.powers_of_declareFaults hdeclare).2, add_sub_cancel_left]
  · rintro ⟨n, hn, -⟩
    rw [if_neg]
    exact fun hnil => NumberSet.eq_empty_iff.1 (NumberSet.isEmpty_iff.1 hnil) n hn

/-- The window closes. -/
theorem Invariant.processEnd (hu : 0 < grid.unit) (h : d.Invariant grid size table epoch) {r : WindowEnd}
    (hop : d.processEnd grid epoch = .ok (d', r)) : d'.Invariant grid size table epoch := by
  obtain ⟨ps, f, d₁, hps, hfold, hlist, rfl, -⟩ := processEnd_spec hop
  have hc := foldOutcome_invariant (I := fun _ (f : Faulting) =>
    Consistent grid size table epoch (Awaiting grid d.queue epoch f.faulted)
      { d with partitions := .held f.partitions, faultyPower := f.faultyPower }) hfold (h.start epoch hps) ?_
  · have hend := hc.catchUp h.held h.bounded hlist
    exact ⟨{ hend.consistent with }, hend.held, hend.bounded⟩
  intro done i rest f f' _ hI hstep
  rcases missProof_spec hstep with ⟨-, rfl⟩ | ⟨p, hp, -, ⟨-, -, rfl⟩ | ⟨p', missed, hmiss, rfl⟩⟩
  · exact hI
  · exact hI
  obtain ⟨hs, hfaulted, -⟩ := (hI.sound i p hp).recordMissedProof hu hmiss
  have hpower := (Partition.powers_of_recordMissedProof hmiss).2
  have hw : (if missed.newlyFaulty.isZero then f.faulted else f.faulted ++ [i]) = f.faulted ∨
      (if missed.newlyFaulty.isZero then f.faulted else f.faulted ++ [i]) = f.faulted ++ [i] := by
    split <;> simp
  refine hI.put (hI.toCoherent.change hp hs hfaulted.keeps rfl rfl rfl ?_ rfl) rfl
    (placed_of_faultedBy hu (hI.placed i p hp) hfaulted hw ?_) fun j k => awaiting_iff hw
  · rw [hpower, add_sub_cancel_left]
  · -- If no power became faulty, all sectors were faulty before.
    rintro ⟨n, hn, hnew⟩
    rw [if_neg]
    refine fun hzero => hnew ((hI.sound i p hp).mem_faults_of_power ?_ hn)
    rw [← Partition.newlyFaulty_of_recordMissedProof hmiss, Power.isZero_iff.1 hzero]

/-- Faulty sectors are declared to recover. -/
theorem Invariant.declareRecovered (hk : table.Keyed) (h : d.Invariant grid size table floor)
    (hop : d.declareRecovered size table map = .ok d') : d'.Invariant grid size table floor := by
  obtain ⟨ps, ps', hps, hfold, rfl⟩ := declareRecovered_spec hop
  have hc := foldOutcome_invariant (I := fun _ ps =>
    Consistent grid size table floor (fun i k => i ∈ d.queue.entry k) { d with partitions := .held ps }) hfold
    (by rw [← hps]; exact h.consistent) ?_
  · exact ⟨hc, h.held, h.bounded⟩
  intro done entry rest ps₁ ps₂ _ hI hstep
  obtain ⟨p, p', hp, hdeclare, rfl⟩ := recoverIn_spec hstep
  obtain ⟨hs, hkeeps, hfaults, hqueue⟩ := (hI.sound _ p hp).declareRecovered hk hdeclare
  refine hI.put (hI.toCoherent.change hp hs hkeeps rfl rfl rfl ?_ rfl) rfl ?_ fun j k _ => Iff.rfl
  · rw [(Partition.powers_of_declareRecovered hdeclare).2, sub_self, add_zero]
  · exact (hI.placed _ p hp).of_subset (fun n hn => hkeeps.liveSectors_eq ▸ hn) (fun n hn => hfaults ▸ hn)
      fun k n hn => by rwa [← hqueue]

/-- Proofs arrive: the skipped sectors become faulty, and the others recover or become active. -/
theorem Invariant.recordProven (hu : 0 < grid.unit) (hk : table.Keyed) (h : d.Invariant grid size table epoch)
    {proofs : List PartitionProof} {r : ProofResult}
    (hop : d.recordProven grid size table epoch proofs = .ok (d', r)) : d'.Invariant grid size table epoch := by
  obtain ⟨ps, v, d₁, hps, hfold, hlist, -, rfl⟩ := recordProven_eq_ok.1 hop
  have hc := foldOutcome_invariant (I := fun _ (v : Proving) =>
    Consistent grid size table epoch (Awaiting grid d.queue epoch v.faulted)
      { d with
        partitions := .held v.partitions
        faultyPower := d.faultyPower - v.result.recovered + v.result.newlyFaulty }) hfold ?_ ?_
  · obtain ⟨heq, hb, hentry⟩ := queue_of_addExpirationPartitions h.held h.bounded hlist
    rw [heq]
    refine ⟨?_, rfl, hb⟩
    have hlisted := hc.congr hentry
    exact { hlisted with }
  · have hstart := h.start epoch hps
    have hpower : d.faultyPower - 0 + 0 = d.faultyPower := by rw [sub_zero, add_zero]
    exact { hstart with faultyPower_eq := hpower.trans hstart.faultyPower_eq }
  intro done proof rest v v' _ hI hstep
  rcases provePartition_spec hstep with ⟨-, rfl⟩ |
    ⟨p, p₁, skipped, p₂, recovered, -, hp, hskip, hrecover, hparts, hwait, -, -, hnewly, hrecovered, -⟩
  · exact hI
  obtain ⟨hs₁, newFaults, hfaulted, hany⟩ := (hI.sound _ p hp).recordSkippedFaults hu hk hskip
  obtain ⟨hs₂, hkeeps, hfaults, -, hplace⟩ := hs₁.recoverFaults hu hk hrecover
  have hw : v'.faulted = v.faulted ∨ v'.faulted = v.faulted ++ [proof.index] := by
    rw [hwait]
    split <;> simp
  have hwaits : (∃ n ∈ newFaults, n ∉ p.faults) → v'.faulted = v.faulted ++ [proof.index] := by
    rintro ⟨n, hn, -⟩
    rw [hwait, if_pos]
    exact hany fun hnil => NumberSet.eq_empty_iff.1 hnil n hn
  have hp₁ := placed_of_faultedBy hu (hI.placed _ p hp) hfaulted hw hwaits
  have hp₂ := hp₁.recoverFaults hs₁ hkeeps hfaults hplace
  have hp₃ : p₂.activateUnproven.1.Placed grid table epoch (Awaiting grid d.queue epoch v'.faulted proof.index) :=
    hp₂.of_subset (fun n hn => hn) (fun n hn => hn) fun k n hn => hn
  rw [hparts]
  refine hI.put (hI.toCoherent.change hp hs₂.activateUnproven (hfaulted.keeps.trans (hkeeps.trans ⟨rfl, rfl, rfl⟩))
    rfl rfl rfl ?_ rfl) rfl hp₃ fun j k => awaiting_iff hw
  · rw [hnewly, hrecovered, (Partition.powers_of_activateUnproven p₂).2, (Partition.powers_of_recoverFaults hrecover).2,
      (Partition.powers_of_recordSkippedFaults hskip).2]
    dsimp only
    abel

/-- The expiration of sectors moves, to an epoch not after their own expirations. -/
theorem Invariant.rescheduleExpirations (hu : 0 < grid.unit) (hk : table.Keyed) (h : d.Invariant grid size table floor)
    {moved : List Sector} (hop : d.rescheduleExpirations grid size table epoch map = .ok (d', moved))
    (hearlier : ∀ s ∈ moved, epoch ≤ s.expiration) : d'.Invariant grid size table floor := by
  obtain ⟨ps, r, hps, hfold, rfl, hend⟩ := rescheduleExpirations_spec hop
  have hc := foldOutcome_invariant (I := fun _ (r : Rescheduling) => (∀ s ∈ r.moved, epoch ≤ s.expiration) →
    Consistent grid size table floor (Awaiting grid d.queue epoch r.affected)
      { d with partitions := .held r.partitions }) hfold (fun _ => h.start epoch hps) ?_
  · rcases hend with ⟨-, rfl⟩ | hlist
    · exact h
    · exact (hc hearlier).catchUp h.held h.bounded hlist
  intro done entry rest r r' _ hI hstep hall
  rcases rescheduleIn_spec hstep with rfl | ⟨p, p', moved, hp, hresch, hsome, rfl⟩
  · exact hI hall
  rw [List.forall_mem_append] at hall
  replace hI := hI hall.1
  obtain ⟨hs, hkeeps, hfaults, ns, hl, hns, hplace⟩ := (hI.sound _ p hp).rescheduleExpirations hu hk hresch
  have hw : r.affected ++ [entry.1] = r.affected ∨ r.affected ++ [entry.1] = r.affected ++ [entry.1] := .inr rfl
  refine hI.put (hI.toCoherent.change hp hs hkeeps rfl rfl rfl ?_ rfl) rfl ?_ fun j k => awaiting_iff hw
  · rw [(Partition.powers_of_rescheduleExpirations hresch).2, sub_self, add_zero]
  · exact (hI.placed _ p hp).rescheduleExpirations hu (fun _ => awaiting_mono hw) hkeeps hfaults hl hall.2
      (fun n hn => (hns n hn).2.2)
      (fun _ k hup => .inr ⟨List.mem_append_right _ List.mem_cons_self, hup⟩)
      fun k n hn => ((hplace k n).1 hn).imp_left And.left

end SectorLedger.Deadline
