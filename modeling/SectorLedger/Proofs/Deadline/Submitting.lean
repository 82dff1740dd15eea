import SectorLedger.Proofs.Deadline.Layout
import SectorLedger.Proofs.Deadline.Posting
import SectorLedger.Proofs.Deadline.Run

/-!
# Proofs in one message or in several

A message brings the proofs of some partitions. A step looks only at the partitions and at the record, never at what
has been reported so far, so the proofs of one message can be sent in two, and a proof that is sent again does
nothing. What is reported to be checked are the active sectors of the partitions that were recorded.

* `ProofResult.merge`, `Proving.andThen`: what a second message adds.
* `recordProven_append`: one message, or two.
* `recordProven_repeated`: a proof is sent again.
* `mem_checked_iff`, `not_checked_of_skipped`: which sectors are to be checked.
* `recordProven_splits`: all of it.
-/

namespace SectorLedger

/-- What two messages did, taken together. -/
def ProofResult.merge (r r' : ProofResult) : ProofResult where
  delta := r.delta + r'.delta
  newlyFaulty := r.newlyFaulty + r'.newlyFaulty
  retracted := r.retracted + r'.retracted
  recovered := r.recovered + r'.recovered
  sectors := r.sectors ∪ r'.sectors
  ignored := r.ignored ∪ r'.ignored

namespace Deadline

open NumberSet

variable {grid : Grid} {size : SectorSize} {table : SectorTable} {d d' : Deadline} {epoch : Int}
  {proofs : List PartitionProof} {r : ProofResult}

/-! ### Two messages -/

namespace Proving

/-- A second message starts from the partitions and the record that the first one left, with an empty report. -/
def restart (v : Proving) : Proving where
  partitions := v.partitions
  posted := v.posted

/-- Where a second message ends that was counted on top of a first one. -/
def andThen (v v' : Proving) : Proving where
  partitions := v'.partitions
  posted := v'.posted
  result := v.result.merge v'.result
  faulted := v.faulted ++ v'.faulted

theorem andThen_restart (v : Proving) : v.andThen v.restart = v := by
  simp only [andThen, restart, ProofResult.merge, add_zero, union_empty, List.append_nil]

end Proving

/-- A step does not look at what has been reported. -/
theorem provePartition_andThen (v v' : Proving) (proof : PartitionProof) :
    provePartition grid size table epoch (v.andThen v') proof =
      v.andThen <$> provePartition grid size table epoch v' proof := by
  by_cases hposted : proof.index ∈ v'.posted
  · simp only [provePartition, Proving.andThen, hposted, if_true]
    rfl
  · simp only [provePartition, Proving.andThen, hposted, if_false, map_bind]
    refine bind_congr fun p => bind_congr fun skipped => bind_congr fun recovered => bind_congr fun ps => ?_
    rw [map_pure]
    refine congrArg pure ?_
    simp only [Proving.andThen, ProofResult.merge, add_assoc, union_assoc, Proving.mk.injEq, true_and]
    split
    · exact List.append_assoc ..
    · rfl

/-- Neither do several. -/
theorem foldOutcome_provePartition_restart (v : Proving) (proofs : List PartitionProof) :
    foldOutcome (provePartition grid size table epoch) v proofs =
      v.andThen <$> foldOutcome (provePartition grid size table epoch) v.restart proofs := by
  have hstep : ∀ proof v', provePartition grid size table epoch (v.andThen v') proof =
      v.andThen <$> provePartition grid size table epoch v' proof :=
    fun proof v' => provePartition_andThen v v' proof
  have hshift := foldOutcome_map_eq v.andThen hstep v.restart proofs
  rwa [v.andThen_restart] at hshift

/-- Two lists of partitions are listed one after the other, or at once. -/
theorem addExpirationPartitions_append {is js : List Nat} :
    d.addExpirationPartitions grid epoch (is ++ js) = .ok d' ↔
      ∃ d₁, d.addExpirationPartitions grid epoch is = .ok d₁ ∧ d₁.addExpirationPartitions grid epoch js = .ok d' := by
  simp only [addExpirationPartitions_eq_ok]
  constructor
  · rintro (⟨hnil, rfl⟩ | ⟨q, q', hq, hadd, rfl⟩)
    · obtain ⟨rfl, rfl⟩ := List.append_eq_nil_iff.1 hnil
      exact ⟨d', .inl ⟨rfl, rfl⟩, .inl ⟨rfl, rfl⟩⟩
    · obtain ⟨q₁, his, hjs⟩ := NumberQueue.addValues_append.1 hadd
      exact ⟨_, .inr ⟨q, q₁, hq, his, rfl⟩, .inr ⟨q₁, q', rfl, hjs, rfl⟩⟩
  · rintro ⟨d₁, ⟨rfl, rfl⟩ | ⟨q, q₁, hq, his, rfl⟩, h⟩
    · exact h
    · rcases h with ⟨rfl, rfl⟩ | ⟨q₂, q', hq₂, hjs, rfl⟩
      · rw [List.append_nil]
        exact .inr ⟨q, q₁, hq, his, rfl⟩
      · obtain rfl := Stored.held.inj hq₂
        exact .inr ⟨q, q', hq, NumberQueue.addValues_append.2 ⟨q₁, his, hjs⟩, rfl⟩

/-- What a message records and what it lists do not touch each other. -/
theorem addExpirationPartitions_recorded {indices : List Nat} (v : Proving) :
    (d.recorded v).addExpirationPartitions grid epoch indices = .ok d' ↔
      ∃ d₁, d.addExpirationPartitions grid epoch indices = .ok d₁ ∧ d' = d₁.recorded v := by
  simp only [addExpirationPartitions_eq_ok]
  constructor
  · rintro (⟨hnil, rfl⟩ | ⟨q, q', hq, hadd, rfl⟩)
    · exact ⟨d, .inl ⟨hnil, rfl⟩, rfl⟩
    · exact ⟨_, .inr ⟨q, q', hq, hadd, rfl⟩, rfl⟩
  · rintro ⟨d₁, ⟨hnil, rfl⟩ | ⟨q, q', hq, hadd, rfl⟩, rfl⟩
    · exact .inl ⟨hnil, rfl⟩
    · exact .inr ⟨q, q', hq, hadd, rfl⟩

theorem recorded_recorded (d : Deadline) (v v' : Proving) : (d.recorded v).recorded v' = d.recorded (v.andThen v') := by
  simp only [recorded, Proving.andThen, ProofResult.merge, Deadline.mk.injEq, true_and]
  abel

/-- **The proofs of one message can be sent in two.** The first message succeeds and the second one after it exactly
if the whole does, they end with the same deadline, and their reports together are the report. -/
theorem recordProven_append {ps qs : List PartitionProof} :
    d.recordProven grid size table epoch (ps ++ qs) = .ok (d', r) ↔ ∃ d₁ r₁ r₂,
      d.recordProven grid size table epoch ps = .ok (d₁, r₁) ∧
      d₁.recordProven grid size table epoch qs = .ok (d', r₂) ∧ r = r₁.merge r₂ := by
  constructor
  · intro h
    obtain ⟨a, v, d₂, ha, hfold, hlist, rfl, rfl⟩ := recordProven_eq_ok.1 h
    rw [foldOutcome_append, bind_eq_ok] at hfold
    obtain ⟨v₁, hps, hqs⟩ := hfold
    rw [foldOutcome_provePartition_restart, map_eq_ok] at hqs
    obtain ⟨v₂, hqs, rfl⟩ := hqs
    obtain ⟨d₁, hlist₁, hlist₂⟩ := addExpirationPartitions_append.1 hlist
    refine ⟨d₁.recorded v₁, v₁.result, v₂.result, recordProven_eq_ok.2 ⟨a, v₁, d₁, ha, hps, hlist₁, rfl, rfl⟩, ?_, rfl⟩
    exact recordProven_eq_ok.2 ⟨v₁.partitions, v₂, d₂.recorded v₁, rfl, hqs,
      (addExpirationPartitions_recorded v₁).2 ⟨d₂, hlist₂, rfl⟩, rfl, (recorded_recorded d₂ v₁ v₂).symm⟩
  · rintro ⟨_, _, _, hfirst, hsecond, rfl⟩
    obtain ⟨a, v₁, d₁, ha, hps, hlist₁, rfl, rfl⟩ := recordProven_eq_ok.1 hfirst
    obtain ⟨b, v₂, _, hb, hqs, hlist, rfl, rfl⟩ := recordProven_eq_ok.1 hsecond
    obtain rfl : v₁.partitions = b := Stored.held.inj hb
    obtain ⟨d₂, hlist₂, rfl⟩ := (addExpirationPartitions_recorded v₁).1 hlist
    refine recordProven_eq_ok.2 ⟨a, v₁.andThen v₂, d₂, ha, ?_, addExpirationPartitions_append.2 ⟨d₁, hlist₁, hlist₂⟩,
      rfl, recorded_recorded d₂ v₁ v₂⟩
    rw [foldOutcome_append, bind_eq_ok]
    refine ⟨v₁, hps, ?_⟩
    rw [foldOutcome_provePartition_restart, map_eq_ok]
    exact ⟨v₂, hqs, rfl⟩

/-! ### A proof that is sent again -/

/-- **A proof for a partition that is recorded already does nothing**, whatever it skips: with it the message ends, or
fails, as it does without it. -/
theorem recordProven_repeated {ps qs : List PartitionProof} {proof : PartitionProof}
    (h : proof.index ∈ d.posted ∨ proof.index ∈ ps.map (·.index)) :
    d.recordProven grid size table epoch (ps ++ proof :: qs) = d.recordProven grid size table epoch (ps ++ qs) := by
  have hfold : ∀ a, d.partitions = .held a →
      foldOutcome (provePartition grid size table epoch) { partitions := a, posted := d.posted } (ps ++ proof :: qs) =
        foldOutcome (provePartition grid size table epoch) { partitions := a, posted := d.posted } (ps ++ qs) := by
    intro a ha
    rw [foldOutcome_append, foldOutcome_append]
    cases hps : foldOutcome (provePartition grid size table epoch) { partitions := a, posted := d.posted } ps with
    | error e => rfl
    | ok v =>
      have hposted : proof.index ∈ v.posted := by
        rw [(recording_of_fold ha hps).posted_eq, mem_union, mem_ofList]
        exact h
      have hstep : provePartition grid size table epoch v proof = .ok v := by
        simp only [provePartition, hposted, if_true]
        rfl
      rw [ok_bind, ok_bind, foldOutcome_cons, hstep, ok_bind]
  simp only [recordProven]
  cases hload : d.loadPartitions with
  | error e => rfl
  | ok a => rw [ok_bind, ok_bind, hfold a (loadPartitions_eq_ok.1 hload)]

/-! ### What is to be checked -/

/-- A report about the partitions recorded since `posted`: the union of what is reported of each. -/
def Reported (posted : NumberSet) (part : Partition → NumberSet) (v : Proving) (ns : NumberSet) : Prop :=
  ∀ n, n ∈ ns ↔ ∃ i p, (i ∈ v.posted ∧ i ∉ posted) ∧ v.partitions.get? i = some p ∧ n ∈ part p

/-- One more partition is recorded and reported. -/
theorem Reported.put {posted ns : NumberSet} {part : Partition → NumberSet} {v v' : Proving} {i : Nat} {p : Partition}
    (h : Reported posted part v ns) (hi : i ∉ v.posted) (hno : i ∉ posted)
    (hparts : v'.partitions = v.partitions.insert i p) (hpost : v'.posted = v.posted ∪ singleton i) :
    Reported posted part v' (ns ∪ part p) := by
  intro n
  rw [mem_union, h n, hparts, hpost]
  simp only [mem_union, mem_singleton, SparseArray.get?_insert]
  constructor
  · rintro (⟨j, p', ⟨hj, hjno⟩, hp', hn⟩ | hn)
    · have hne : j ≠ i := fun he => hi (he ▸ hj)
      exact ⟨j, p', ⟨.inl hj, hjno⟩, by rw [if_neg hne, hp'], hn⟩
    · exact ⟨i, p, ⟨.inr rfl, hno⟩, if_pos rfl, hn⟩
  · rintro ⟨j, p', ⟨hj, hjno⟩, hp', hn⟩
    split at hp'
    · exact .inr (Option.some.inj hp' ▸ hn)
    · next hne => exact .inl ⟨j, p', ⟨hj.resolve_right hne, hjno⟩, hp', hn⟩

/-- How far a message has reported. -/
structure Reporting (posted : NumberSet) (v : Proving) : Prop where
  /-- The record keeps what it had. -/
  kept : ∀ i ∈ posted, i ∈ v.posted
  /-- All sectors of the recorded partitions. -/
  sectors : Reported posted (·.sectors) v v.result.sectors
  /-- Those that are faulty or have ended. -/
  ignored : Reported posted (fun p => p.faults ∪ p.terminated) v v.result.ignored

theorem Reporting.step {posted : NumberSet} {proof : PartitionProof} {v v' : Proving} (hI : Reporting posted v)
    (h : provePartition grid size table epoch v proof = .ok v') : Reporting posted v' := by
  rcases provePartition_spec h with ⟨-, rfl⟩ | ⟨p, p₁, skipped, p₂, recovered, hnew, -, -, -, hparts, -, hpost, -, -, -,
    hsectors, hignored⟩
  · exact hI
  · have hno : proof.index ∉ posted := fun hi => hnew (hI.kept _ hi)
    refine ⟨fun i hi => ?_, ?_, ?_⟩
    · rw [hpost]
      exact mem_union.2 (.inl (hI.kept i hi))
    · have hput := hI.sectors.put hnew hno hparts hpost
      rwa [hsectors]
    · have hput := hI.ignored.put hnew hno hparts hpost
      rwa [hignored, union_assoc]

theorem reporting_of_recordProven (h : d.recordProven grid size table epoch proofs = .ok (d', r)) :
    ∃ v : Proving, Reporting d.posted v ∧ r = v.result ∧ d'.parts = v.partitions ∧ d'.posted = v.posted := by
  obtain ⟨ps, v, d₁, hps, hfold, hlist, rfl, rfl⟩ := recordProven_eq_ok.1 h
  have hnone : ∀ part, Reported d.posted part { partitions := ps, posted := d.posted } ∅ := by
    intro part n
    refine iff_of_false (not_mem_empty n) ?_
    rintro ⟨i, -, ⟨hi, hno⟩, -⟩
    exact hno hi
  have hI := foldOutcome_invariant (I := fun _ v => Reporting d.posted v) hfold ⟨fun i hi => hi, hnone _, hnone _⟩
    fun _ _ _ _ _ _ hI hstep => hI.step hstep
  exact ⟨v, hI, rfl, rfl, rfl⟩

/-- **What is to be checked are the active sectors of the partitions that were recorded.** -/
theorem mem_checked_iff (hu : 0 < grid.unit) (hk : table.Keyed) (hd : d.Sound grid size table)
    (h : d.recordProven grid size table epoch proofs = .ok (d', r)) (n : Nat) :
    n ∈ r.sectors \ r.ignored ↔
      ∃ i p, (i ∈ d'.posted ∧ i ∉ d.posted) ∧ d'.parts.get? i = some p ∧ n ∈ p.activeSectors := by
  have hsound : ∀ i p, d'.parts.get? i = some p → p.Sound grid size table := PartsSound.recordProven hu hk hd.sound h
  have hlayout := (KeepsLayout.recordProven h).parts
  have hapart : ∀ i j p p', d'.parts.get? i = some p → d'.parts.get? j = some p' → n ∈ p.sectors → n ∈ p'.sectors →
      i = j := by
    intro i j p p' hp hp' hn hn'
    obtain ⟨p₀, hp₀, hsame⟩ := hlayout.sectors_eq hd.packed hp
    obtain ⟨p₀', hp₀', hsame'⟩ := hlayout.sectors_eq hd.packed hp'
    exact hd.apart i j p₀ p₀' n hp₀ hp₀' (hsame ▸ hn) (hsame' ▸ hn')
  have hproven : ∀ i p, i ∈ d'.posted ∧ i ∉ d.posted → d'.parts.get? i = some p → p.unproven = ∅ := by
    rintro i p ⟨hi, hno⟩ hp
    obtain ⟨hposted, -, hproven⟩ := proven_of_recordProven h
    have hin := (mem_union.1 (hposted ▸ hi)).resolve_left hno
    obtain ⟨p', hp', hunproven, -⟩ := hproven i (mem_ofList.1 hin) hno
    rwa [Option.some.inj (hp.symm.trans hp')]
  obtain ⟨v, hI, rfl, hparts, hposted⟩ := reporting_of_recordProven h
  have hsectors := hI.sectors n
  have hignored := hI.ignored n
  rw [← hparts, ← hposted] at hsectors hignored
  rw [mem_sdiff, hsectors, hignored]
  constructor
  · rintro ⟨⟨i, p, hi, hp, hn⟩, hno⟩
    have hgood : n ∉ p.faults ∪ p.terminated := fun hbad => hno ⟨i, p, hi, hp, hbad⟩
    rw [mem_union, not_or] at hgood
    refine ⟨i, p, hi, hp, Partition.mem_activeSectors.2 ⟨Partition.mem_liveSectors.2 ⟨hn, hgood.2⟩, hgood.1, ?_⟩⟩
    rw [hproven i p hi hp]
    exact not_mem_empty n
  · rintro ⟨i, p, hi, hp, hactive⟩
    obtain ⟨hlive, hf, -⟩ := Partition.mem_activeSectors.1 hactive
    obtain ⟨hn, ht⟩ := Partition.mem_liveSectors.1 hlive
    refine ⟨⟨i, p, hi, hp, hn⟩, ?_⟩
    rintro ⟨j, p', -, hp', hbad⟩
    have hn' : n ∈ p'.sectors := by
      rcases mem_union.1 hbad with hbad | hbad
      · exact (Partition.mem_liveSectors.1 ((hsound j p' hp').faults_live n hbad)).1
      · exact (hsound j p' hp').terminated_sectors n hbad
    obtain rfl := hapart i j p p' hp hp' hn hn'
    obtain rfl := Option.some.inj (hp.symm.trans hp')
    exact (mem_union.1 hbad).elim hf ht

/-- The proof is the one that records its partition: it is not in the record, and no proof before it is for it. -/
def FirstProof (d : Deadline) (proofs : List PartitionProof) (proof : PartitionProof) : Prop :=
  ∃ before later, proofs = before ++ proof :: later ∧ proof.index ∉ d.posted ∧ proof.index ∉ before.map (·.index)

/-- What the proof that records a partition skips is not to be checked. -/
theorem not_checked_of_skipped (h : d.recordProven grid size table epoch proofs = .ok (d', r)) {proof : PartitionProof}
    (hfirst : FirstProof d proofs proof) {n : Nat} (hn : n ∈ proof.skipped) : n ∉ r.sectors \ r.ignored := by
  obtain ⟨before, later, rfl, hno, hfresh⟩ := hfirst
  obtain ⟨ps, v, d₁, hps, hfold, -, rfl, -⟩ := recordProven_eq_ok.1 h
  rw [foldOutcome_append, bind_eq_ok] at hfold
  obtain ⟨v₁, hbefore, hfold⟩ := hfold
  rw [foldOutcome_cons, bind_eq_ok] at hfold
  obtain ⟨v₂, hstep, hlater⟩ := hfold
  have hnew : proof.index ∉ v₁.posted := by
    rw [(recording_of_fold hps hbefore).posted_eq, mem_union, mem_ofList, not_or]
    exact ⟨hno, hfresh⟩
  have hignored : n ∈ v₂.result.ignored := by
    rcases provePartition_spec hstep with ⟨hposted, -⟩ | ⟨p, p₁, skipped, p₂, recovered, -, -, hskip, hrecover, -, -, -, -,
      -, -, -, hignored⟩
    · exact absurd hposted hnew
    · obtain ⟨hgone, hstays⟩ := Partition.faulty_of_recordSkippedFaults hskip n hn
      obtain ⟨hfaults, -, hterminated⟩ := Partition.faults_of_recoverFaults hrecover
      rw [hignored, hfaults, hterminated]
      simp only [mem_union, mem_sdiff]
      tauto
  have hkept := foldOutcome_invariant (I := fun _ (v : Proving) => n ∈ v.result.ignored) hlater hignored ?_
  · exact fun hchecked => (mem_sdiff.1 hchecked).2 hkept
  · rintro done proof rest v v' - hv hstep
    rcases provePartition_spec hstep with ⟨-, rfl⟩ | ⟨p, p₁, skipped, p₂, recovered, -, -, -, -, -, -, -, -, -, -, -,
      hignored⟩
    · exact hv
    · rw [hignored]
      exact mem_union.2 (.inl (mem_union.2 (.inl hv)))

/-- **Proofs can be split into messages and repeated freely.** One message succeeds exactly if its two parts do, one
after the other; they end with the same deadline, and their reports together are its report. A proof for a partition
that is recorded already, before or by the same message, changes nothing about the message. What is to be checked
after any message are the active sectors of the partitions that it has recorded, and none that their proofs skip. -/
theorem recordProven_splits (hu : 0 < grid.unit) (hk : table.Keyed) (hd : d.Sound grid size table) (epoch : Int) :
    (∀ ps qs d' r, d.recordProven grid size table epoch (ps ++ qs) = .ok (d', r) ↔ ∃ d₁ r₁ r₂,
      d.recordProven grid size table epoch ps = .ok (d₁, r₁) ∧
      d₁.recordProven grid size table epoch qs = .ok (d', r₂) ∧ r = r₁.merge r₂) ∧
    (∀ ps qs (proof : PartitionProof), proof.index ∈ d.posted ∨ proof.index ∈ ps.map (·.index) →
      d.recordProven grid size table epoch (ps ++ proof :: qs) = d.recordProven grid size table epoch (ps ++ qs)) ∧
    ∀ proofs d' r, d.recordProven grid size table epoch proofs = .ok (d', r) →
      (∀ i ∈ d.posted, d'.parts.get? i = d.parts.get? i) ∧
      (∀ n, n ∈ r.sectors \ r.ignored ↔
        ∃ i p, (i ∈ d'.posted ∧ i ∉ d.posted) ∧ d'.parts.get? i = some p ∧ n ∈ p.activeSectors) ∧
      ∀ proof, FirstProof d proofs proof → ∀ n ∈ proof.skipped, n ∉ r.sectors \ r.ignored := by
  refine ⟨fun ps qs d' r => recordProven_append, fun ps qs proof => recordProven_repeated, fun proofs d' r h => ?_⟩
  exact ⟨(proven_of_recordProven h).2.1, mem_checked_iff hu hk hd h,
    fun proof hfirst n hn => not_checked_of_skipped h hfirst hn⟩

/-- Two sectors in two partitions. The first one is faulty and declared to recover. -/
def beforeProofs : List Operation :=
  [.addSectors 1 true Partition.sample, .declareFaults 3 (PartitionSectors.ofList [(0, .ofList [1])]),
    .declareRecovered (PartitionSectors.ofList [(0, .ofList [1])])]

/-- The second partition is proven without its sector, and then the first one. The second partition is sent again, now
with its sector, and to no effect: only the first sector is to be checked. -/
theorem recordProven_splits_sample : ∃ d w d' r d₁ r₁ r₂,
    Run ⟨5, 4⟩ .kib2 (.ofList Partition.sample) (Operation.Admissible ⟨5, 4⟩ .kib2 (.ofList Partition.sample))
      beforeProofs d w ∧ d.Sound ⟨5, 4⟩ .kib2 (.ofList Partition.sample) ∧
    d.recordProven ⟨5, 4⟩ .kib2 (.ofList Partition.sample) 8 [⟨1, .ofList [2]⟩, ⟨0, ∅⟩, ⟨1, ∅⟩] = .ok (d', r) ∧
    d.recordProven ⟨5, 4⟩ .kib2 (.ofList Partition.sample) 8 [⟨1, .ofList [2]⟩] = .ok (d₁, r₁) ∧
    d₁.recordProven ⟨5, 4⟩ .kib2 (.ofList Partition.sample) 8 [⟨0, ∅⟩, ⟨1, ∅⟩] = .ok (d', r₂) ∧ r = r₁.merge r₂ ∧
    d.recordProven ⟨5, 4⟩ .kib2 (.ofList Partition.sample) 8 [⟨1, .ofList [2]⟩, ⟨0, ∅⟩] = .ok (d', r) ∧
    r.newlyFaulty = ⟨2048, 2048⟩ ∧ r.recovered = ⟨2048, 2048⟩ ∧ r.sectors = .ofList [1, 2] ∧
    2 ∉ r.sectors \ r.ignored ∧ ∃ i p, (i ∈ d'.posted ∧ i ∉ d.posted) ∧ d'.parts.get? i = some p ∧
      1 ∈ p.activeSectors := by
  have hu : (0 : Int) < (⟨5, 4⟩ : Grid).unit := by decide
  have hk := SectorTable.keyed_ofList Partition.sample
  have hrun : ((follow ⟨5, 4⟩ .kib2 (.ofList Partition.sample)
      (Operation.Admissible ⟨5, 4⟩ .kib2 (.ofList Partition.sample)) beforeProofs ({}, 0)).map fun s =>
        (s.1.posted, (s.1.recordProven ⟨5, 4⟩ .kib2 (.ofList Partition.sample) 8
          [⟨1, .ofList [2]⟩, ⟨0, ∅⟩, ⟨1, ∅⟩]).map fun e =>
            (e.2.newlyFaulty, e.2.recovered, e.2.sectors, e.2.ignored))) =
      some (∅, .ok (⟨2048, 2048⟩, ⟨2048, 2048⟩, .ofList [1, 2], .ofList [2])) := by decide +kernel
  obtain ⟨⟨d, w⟩, hfollow, heq⟩ := Option.map_eq_some_iff.1 hrun
  obtain ⟨hposted, hop⟩ := Prod.mk.inj heq
  obtain ⟨⟨d', r⟩, hop, heq⟩ := map_eq_ok.1 hop
  simp only [Prod.mk.injEq] at heq
  obtain ⟨hnewly, hrecovered, hsectors, hignored⟩ := heq
  have hd := Run.of_follow .start hfollow
  have hsound := (invariant_of_run hu hk hd (by decide) 3 (by decide)).sound
  obtain ⟨hsplit, hrepeat, hreport⟩ := recordProven_splits hu hk hsound 8
  obtain ⟨d₁, r₁, r₂, hfirst, hsecond, hmerge⟩ := (hsplit [⟨1, .ofList [2]⟩] [⟨0, ∅⟩, ⟨1, ∅⟩] d' r).1 hop
  have hshort := (hrepeat [⟨1, .ofList [2]⟩, ⟨0, ∅⟩] [] ⟨1, ∅⟩ (.inr (by decide))).symm.trans hop
  obtain ⟨-, hchecked, hskipped⟩ := hreport _ d' r hop
  refine ⟨d, w, d', r, d₁, r₁, r₂, hd, hsound, hop, hfirst, hsecond, hmerge, hshort, hnewly, hrecovered, hsectors,
    hskipped ⟨1, .ofList [2]⟩ ⟨[], [⟨0, ∅⟩, ⟨1, ∅⟩], rfl, ?_, by simp⟩ 2 (by decide +kernel), (hchecked 1).1 ?_⟩
  · rw [hposted]
    exact not_mem_empty 1
  · rw [hsectors, hignored]
    decide +kernel

end Deadline

end SectorLedger
