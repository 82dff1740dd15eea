import SectorLedger.Proofs.Deadline.Step
import SectorLedger.Proofs.Partition.Sound

/-!
# The record of proven partitions

A deadline records the partitions that were proven. A proof for a recorded partition is ignored, and a recorded
partition is left alone when the window ends; the end clears the record. The lemmas say what each operation does to the
record, and what a partition has to expect that is not in it.

* `posted_of_apply`, `Course.posted_eq`: the record after one operation, and after several.
* `proven_of_recordProven`, `lost_of_processEnd`: partitions outside the record are proven, or become faulty.
* `Outstanding`: both, as what a partition has to expect.
-/

namespace SectorLedger.Deadline

open NumberSet SparseArray

variable {grid : Grid} {size : SectorSize} {table : SectorTable} {d d' : Deadline} {epoch : Int} {w : Power}
  {proofs : List PartitionProof} {o : Operation} {os : List Operation}

/-! ### What a proof does -/

/-- Either the partition is recorded, or nothing is left in it to prove or to recover and all its sectors are
reported. -/
theorem proven_of_provePartition {proof : PartitionProof} {v v' : Proving}
    (h : provePartition grid size table epoch v proof = .ok v') : (proof.index ∈ v.posted ∧ v' = v) ∨
      (proof.index ∉ v.posted ∧ ∃ p : Partition, p.unproven = ∅ ∧ p.recoveries = ∅ ∧
        v'.partitions = v.partitions.insert proof.index p ∧ v'.posted = v.posted ∪ singleton proof.index ∧
        v'.result.sectors = v.result.sectors ∪ p.sectors) := by
  rcases provePartition_spec h with hposted | ⟨p, p₁, skipped, p₂, recovered, hposted, -, -, hrecover, hparts, -, hpost,
    -, -, -, hsectors, -⟩
  · exact .inl hposted
  · have hrecoveries : p₂.activateUnproven.1.recoveries = ∅ := (Partition.faults_of_recoverFaults hrecover).2.1
    exact .inr ⟨hposted, p₂.activateUnproven.1, rfl, hrecoveries, hparts, hpost, hsectors⟩

/-- How far proofs have been recorded. -/
structure Recording (d : Deadline) (done : List PartitionProof) (v : Proving) : Prop where
  /-- The partitions that were proven are in the record. -/
  posted_eq : v.posted = d.posted ∪ .ofList (done.map (·.index))
  /-- Those that were in the record are as before. -/
  ignored : ∀ i ∈ d.posted, v.partitions.get? i = d.parts.get? i
  /-- The others have nothing left to prove or to recover, and all their sectors are reported. -/
  proven : ∀ i ∈ done.map (·.index), i ∉ d.posted → ∃ p, v.partitions.get? i = some p ∧ p.unproven = ∅ ∧
    p.recoveries = ∅ ∧ ∀ n ∈ p.sectors, n ∈ v.result.sectors

theorem Recording.step {done : List PartitionProof} {proof : PartitionProof} {v v' : Proving}
    (hI : Recording d done v) (h : provePartition grid size table epoch v proof = .ok v') :
    Recording d (done ++ [proof]) v' := by
  have hposted : ∀ i, i ∈ v.posted ↔ i ∈ d.posted ∨ i ∈ done.map (·.index) := fun i => by
    rw [hI.posted_eq, mem_union, mem_ofList]
  rcases proven_of_provePartition h with ⟨hrec, rfl⟩ | ⟨hrec, p, hunproven, hrecoveries, hps, hpost, hsectors⟩
  · refine ⟨NumberSet.ext fun i => ?_, hI.ignored, fun i hi hno => hI.proven i ?_ hno⟩
    · simp only [hposted, mem_union, mem_ofList, List.map_append, List.mem_append, List.map_cons, List.map_nil,
        List.mem_singleton]
      have := (hposted proof.index).1 hrec
      grind
    · simp only [List.map_append, List.mem_append, List.map_cons, List.map_nil, List.mem_singleton] at hi
      have := (hposted proof.index).1 hrec
      grind
  · refine ⟨NumberSet.ext fun i => ?_, fun i hi => ?_, fun i hi hno => ?_⟩
    · simp only [hpost, hposted, mem_union, mem_singleton, mem_ofList, List.map_append, List.mem_append, List.map_cons,
        List.map_nil, List.mem_singleton, or_assoc]
    · have hne : i ≠ proof.index := fun he => hrec ((hposted _).2 (.inl (he ▸ hi)))
      rw [hps, get?_insert, if_neg hne, hI.ignored i hi]
    · by_cases he : i = proof.index
      · refine ⟨p, by rw [hps, get?_insert, if_pos he], hunproven, hrecoveries, fun n hn => ?_⟩
        rw [hsectors]
        exact mem_union.2 (.inr hn)
      · have hdone : i ∈ done.map (·.index) := by
          simp only [List.map_append, List.mem_append, List.map_cons, List.map_nil, List.mem_singleton] at hi
          exact hi.resolve_right he
        obtain ⟨p', hp', hu, hr, hs⟩ := hI.proven i hdone hno
        refine ⟨p', by rw [hps, get?_insert, if_neg he, hp'], hu, hr, fun n hn => ?_⟩
        rw [hsectors]
        exact mem_union.2 (.inl (hs n hn))

theorem recording_of_fold {ps : SparseArray Partition} (hps : d.partitions = .held ps) {v : Proving}
    (h : foldOutcome (provePartition grid size table epoch) { partitions := ps, posted := d.posted } proofs = .ok v) :
    Recording d proofs v :=
  foldOutcome_invariant (I := Recording d) h ⟨NumberSet.ext fun i => by simp, fun i _ => by rw [parts_eq hps], by simp⟩
    fun _ _ _ _ _ _ hI hstep => hI.step hstep

/-- What an operation files at the end does not change the record or the partitions. -/
theorem posted_of_addExpirationPartitions {indices : List Nat}
    (h : d.addExpirationPartitions grid epoch indices = .ok d') :
    d'.posted = d.posted ∧ d'.partitions = d.partitions := by
  rcases addExpirationPartitions_eq_ok.1 h with ⟨-, rfl⟩ | ⟨q, q', -, -, rfl⟩ <;> exact ⟨rfl, rfl⟩

/-- **Proofs for partitions outside the record are recorded and not ignored.** -/
theorem proven_of_recordProven {r : ProofResult} (h : d.recordProven grid size table epoch proofs = .ok (d', r)) :
    d'.posted = d.posted ∪ .ofList (proofs.map (·.index)) ∧ (∀ i ∈ d.posted, d'.parts.get? i = d.parts.get? i) ∧
      ∀ i ∈ proofs.map (·.index), i ∉ d.posted → ∃ p, d'.parts.get? i = some p ∧ p.unproven = ∅ ∧ p.recoveries = ∅ ∧
        ∀ n ∈ p.sectors, n ∈ r.sectors := by
  obtain ⟨ps, v, d₁, hps, hfold, -, rfl, rfl⟩ := recordProven_eq_ok.1 h
  have hI := recording_of_fold hps hfold
  exact ⟨hI.posted_eq, hI.ignored, hI.proven⟩

/-! ### What the end of the window does -/

/-- How far missed proofs have been counted. -/
structure Missing (d : Deadline) (m : Nat) (f : Faulting) : Prop where
  /-- Those in the record are as before. -/
  kept : ∀ i ∈ d.posted, f.partitions.get? i = d.parts.get? i
  /-- The others are wholly faulty and do not recover. -/
  lost : ∀ i < m, i ∉ d.posted → ∃ p, f.partitions.get? i = some p ∧ p.faultyPower = p.livePower ∧
    p.recoveringPower = 0

theorem Missing.step {m : Nat} {f f' : Faulting} (hI : Missing d m f)
    (h : missProof grid d.posted epoch f m = .ok f') : Missing d (m + 1) f' := by
  rcases missProof_spec h with ⟨hposted, rfl⟩ | ⟨p, hp, hposted, ⟨hrecovering, hfaulty, rfl⟩ | ⟨p', missed, hmiss, rfl⟩⟩
  · refine ⟨hI.kept, fun i hi hno => hI.lost i ?_ hno⟩
    have hne : i ≠ m := fun he => hno (he ▸ hposted)
    omega
  · refine ⟨hI.kept, fun i hi hno => ?_⟩
    rcases Nat.lt_succ_iff_lt_or_eq.1 hi with hi | rfl
    · exact hI.lost i hi hno
    · exact ⟨p, hp, hfaulty, hrecovering⟩
  · obtain ⟨_, q', -, -, rfl, -⟩ := Partition.recordMissedProof_eq_ok.1 hmiss
    refine ⟨fun i hi => ?_, fun i hi hno => ?_⟩
    · rw [get?_insert, if_neg fun he : i = m => hposted (he ▸ hi), hI.kept i hi]
    · rw [get?_insert]
      split
      · exact ⟨_, rfl, rfl, rfl⟩
      · exact hI.lost i (by omega) hno

/-- **Partitions outside the record become faulty when the window ends**, and no recovery of theirs is left. Those in
the record are left alone. -/
theorem lost_of_processEnd {r : WindowEnd} (h : d.processEnd grid epoch = .ok (d', r)) :
    d'.posted = ∅ ∧ (∀ i ∈ d.posted, d'.parts.get? i = d.parts.get? i) ∧
      ∀ i < d.parts.count, i ∉ d.posted → ∃ p, d'.parts.get? i = some p ∧ p.faultyPower = p.livePower ∧
        p.recoveringPower = 0 := by
  obtain ⟨ps, f, d₁, hps, hfold, hlist, rfl, -⟩ := processEnd_spec h
  have hI := foldOutcome_range_invariant (I := Missing d) hfold ⟨fun i _ => by rw [parts_eq hps], by simp⟩
    fun _ _ _ hI hstep => hI.step hstep
  have hparts : ({ d₁ with posted := ∅ } : Deadline).parts = f.partitions :=
    parts_eq (posted_of_addExpirationPartitions hlist).2
  rw [hparts, parts_eq hps]
  exact ⟨rfl, parts_eq hps ▸ hI.kept, hI.lost⟩

/-- The partition is treated as one that was not proven: a proof of it counts, and without one it becomes faulty. -/
structure Outstanding (d : Deadline) (i : Nat) : Prop where
  /-- After a proof nothing is left to prove or to recover, and all sectors are reported. -/
  counts : ∀ {grid size table epoch proofs d' r}, d.recordProven grid size table epoch proofs = .ok (d', r) →
    i ∈ proofs.map (·.index) → ∃ p, d'.parts.get? i = some p ∧ p.unproven = ∅ ∧ p.recoveries = ∅ ∧
      ∀ n ∈ p.sectors, n ∈ r.sectors
  /-- After the window the partition is wholly faulty and does not recover. -/
  lost : ∀ {grid epoch d' r}, d.processEnd grid epoch = .ok (d', r) → i < d.parts.count →
    ∃ p, d'.parts.get? i = some p ∧ p.faultyPower = p.livePower ∧ p.recoveringPower = 0

theorem outstanding_of_not_mem {i : Nat} (h : i ∉ d.posted) : d.Outstanding i where
  counts hop hi := (proven_of_recordProven hop).2.2 i hi h
  lost hop hi := (lost_of_processEnd hop).2.2 i hi h

/-! ### The record -/

/-- The partitions that an operation proves. -/
def Operation.proven : Operation → NumberSet
  | recordProven _ proofs => .ofList (proofs.map (·.index))
  | _ => ∅

/-- **The record after an operation.** Proofs are added to it, the end of the window clears it, and the other
operations leave it alone. -/
theorem posted_of_apply (h : o.apply grid size table d = .ok (d', w)) :
    (∃ e, o = .processEnd e ∧ d'.posted = ∅) ∨ d'.posted = d.posted ∪ o.proven := by
  have hsame : d.posted ∪ ∅ = d.posted := union_empty d.posted
  cases o with
  | addSectors partitionSize proven ss =>
    rcases addSectors_spec h with ⟨-, rfl, -⟩ | ⟨_, _, _, _, -, -, -, -, -, -, rfl⟩ <;> exact .inr hsame.symm
  | declareFaults epoch map =>
    obtain ⟨_, _, -, -, -, hlist⟩ := declareFaults_spec h
    exact .inr ((posted_of_addExpirationPartitions hlist).1.trans hsame.symm)
  | declareRecovered map =>
    obtain ⟨_, hdone, heq⟩ := map_eq_ok.1 h
    obtain ⟨rfl, -⟩ := Prod.mk.inj heq
    obtain ⟨_, _, -, -, rfl⟩ := declareRecovered_spec hdone
    exact .inr hsame.symm
  | recordProven epoch proofs =>
    obtain ⟨⟨_, r⟩, hdone, heq⟩ := map_eq_ok.1 h
    obtain ⟨rfl, -⟩ := Prod.mk.inj heq
    exact .inr (proven_of_recordProven hdone).1
  | processEnd epoch =>
    obtain ⟨⟨_, r⟩, hdone, heq⟩ := map_eq_ok.1 h
    obtain ⟨rfl, -⟩ := Prod.mk.inj heq
    exact .inl ⟨epoch, rfl, (lost_of_processEnd hdone).1⟩
  | popExpired upTo =>
    obtain ⟨⟨_, e⟩, hdone, heq⟩ := map_eq_ok.1 h
    obtain ⟨rfl, -⟩ := Prod.mk.inj heq
    obtain ⟨_, _, _, _, -, -, ⟨-, rfl, -⟩ | ⟨_, _, _, -, -, -, -, -, -, rfl⟩⟩ := popExpired_spec hdone <;>
      exact .inr hsame.symm
  | terminateSectors maxSectors epoch map =>
    obtain ⟨⟨_, lost⟩, hdone, heq⟩ := map_eq_ok.1 h
    obtain ⟨rfl, -⟩ := Prod.mk.inj heq
    obtain ⟨_, _, -, -, -, rfl⟩ := terminateSectors_spec hdone
    exact .inr hsame.symm
  | popEarlyTerminations maxPartitions maxSectors =>
    obtain ⟨⟨_, taken, more⟩, hdone, heq⟩ := map_eq_ok.1 h
    obtain ⟨rfl, -⟩ := Prod.mk.inj heq
    obtain ⟨_, _, -, -, rfl⟩ := popEarlyTerminations_spec hdone
    exact .inr hsame.symm
  | removePartitions toRemove =>
    obtain ⟨⟨_, r⟩, hdone, heq⟩ := map_eq_ok.1 h
    obtain ⟨rfl, -⟩ := Prod.mk.inj heq
    rcases removePartitions_spec hdone with ⟨-, rfl, -⟩ | ⟨_, _, _, -, -, -, -, -, -, -, -, rfl⟩ <;> exact .inr hsame.symm
  | rescheduleExpirations epoch map =>
    obtain ⟨⟨_, moved⟩, hdone, heq⟩ := map_eq_ok.1 h
    obtain ⟨rfl, -⟩ := Prod.mk.inj heq
    obtain ⟨_, _, -, -, -, ⟨-, rfl⟩ | hlist⟩ := rescheduleExpirations_spec hdone
    · exact .inr hsame.symm
    · exact .inr ((posted_of_addExpirationPartitions hlist).1.trans hsame.symm)

/-- What is done to a deadline in the course of time, with the grid and the sector table of the day. -/
inductive Course : Deadline → List Operation → Deadline → Prop where
  /-- Nothing. -/
  | nil (d : Deadline) : Course d [] d
  /-- An operation, and then others. -/
  | cons {grid : Grid} {size : SectorSize} {table : SectorTable} {d d₁ d' : Deadline} {w : Power} {o : Operation}
    {os : List Operation} (h : o.apply grid size table d = .ok (d₁, w)) (rest : Course d₁ os d') :
    Course d (o :: os) d'

/-- A partition is in the record only if it was before or has been proven in the meantime. -/
theorem Course.of_mem_posted (h : Course d os d') {i : Nat} (hi : i ∈ d'.posted) :
    i ∈ d.posted ∨ ∃ o ∈ os, i ∈ o.proven := by
  induction h with
  | nil => exact .inl hi
  | @cons _ _ _ _ _ _ _ o _ h rest ih =>
    rcases ih hi with hi | ⟨o', ho', hi⟩
    · rcases posted_of_apply h with ⟨_, -, hempty⟩ | hunion
      · exact absurd (hempty ▸ hi) (not_mem_empty i)
      · exact (mem_union.1 (hunion ▸ hi)).imp id fun hi => ⟨o, List.mem_cons_self, hi⟩
    · exact .inr ⟨o', List.mem_cons_of_mem _ ho', hi⟩

end SectorLedger.Deadline
