import SectorLedger.Proofs.Deadline.Operation

/-!
# What an operation on a deadline consists of

An operation walks through partitions, changes one after the other, and files at the end what it has to list. The
lemmas take a successful operation apart: one lemma for its step on a partition, and one for the whole.

* `fillPartition_spec`, `declareFaultsIn_spec` and their like: the steps.
* `addSectors_spec`, `declareFaults_spec` and their like: the operations.
* `Compacting.keep`, `Compacting.remove`: the two ways of a partition when others are removed.
-/

namespace SectorLedger.Deadline

open SparseArray

variable {grid : Grid} {size : SectorSize} {table : SectorTable} {d d' : Deadline} {epoch : Int}
  {map : PartitionSectors} {entry : Nat × NumberSet} {i : Nat}

/-! ### The list of expirations -/

/-- If there is nothing to list, the queue need not be there. -/
theorem addExpirationPartitions_eq_ok {indices : List Nat} :
    d.addExpirationPartitions grid epoch indices = .ok d' ↔ (indices = [] ∧ d' = d) ∨ ∃ q q', d.expirations = .held q ∧
      NumberQueue.addValues grid q epoch indices = .ok q' ∧ d' = { d with expirations := .held q' } := by
  unfold addExpirationPartitions
  split
  · next hnil =>
    obtain rfl := List.isEmpty_iff.1 hnil
    constructor
    · intro h
      exact .inl ⟨rfl, (pure_eq_ok.1 h).symm⟩
    · rintro (⟨-, rfl⟩ | ⟨q, q', hq, hadd, rfl⟩)
      · rfl
      · obtain rfl := Except.ok.inj hadd
        rw [← hq]
        rfl
  · next hsome =>
    simp only [bind_eq_ok, loadExpirations_eq_ok, noting_eq_ok, pure_eq_ok]
    constructor
    · rintro ⟨q, hq, q', hadd, rfl⟩
      exact .inr ⟨q, q', hq, hadd, rfl⟩
    · rintro (⟨hnil, -⟩ | ⟨q, q', hq, hadd, rfl⟩)
      · exact absurd (List.isEmpty_iff.2 hnil) hsome
      · exact ⟨q, hq, q', hadd, rfl⟩

theorem popExpiredPartitions_spec {upTo : Int} {listed : NumberSet} {modified : Bool}
    (h : d.popExpiredPartitions upTo = .ok (d', listed, modified)) :
    ∃ q q', d.expirations = .held q ∧ NumberQueue.popUntil q upTo = (q', listed, modified) ∧
      d' = if modified then { d with expirations := .held q' } else d := by
  simp only [popExpiredPartitions, bind_eq_ok, loadExpirations_eq_ok, pure_eq_ok, Prod.mk.injEq] at h
  obtain ⟨q, hq, rfl, rfl, rfl⟩ := h
  exact ⟨q, _, hq, rfl, rfl⟩

/-! ### New sectors -/

section AddSectors

variable {partitionSize : Nat} {proven : Bool}

/-- The partition at a position, or a new one. -/
def Filling.target (f : Filling) (i : Nat) : Partition := (f.partitions.get? i).getD {}

/-- How many sectors the partition at a position takes. -/
def Filling.free (f : Filling) (k i : Nat) : Nat := k - (f.target i).sectors.count

/-- The next batch goes to the partition at a position. -/
def Filling.place (f : Filling) (i free : Nat) (p' : Partition) (w : Power) : Filling where
  partitions := f.partitions.insert i p'
  remaining := f.remaining.drop free
  activated := f.activated + w
  listed := f.listed ++ (f.remaining.take free).map fun s => (s.expiration, i)

/-- Either nothing fits, or a batch is added to the partition, which may be a new one. -/
theorem fillPartition_eq_ok {f f' : Filling} : fillPartition grid size partitionSize proven f i = .ok f' ↔
    (f.remaining = [] ∧ f' = f) ∨ (f.remaining ≠ [] ∧ i ≤ greatestIndex ∧ ((f.free partitionSize i = 0 ∧ f' = f) ∨
      (0 < f.free partitionSize i ∧ ∃ p' w,
        (f.target i).addSectors grid size proven (f.remaining.take (f.free partitionSize i)) = .ok (p', w) ∧
        f' = f.place i (f.free partitionSize i) p' w))) := by
  unfold fillPartition
  split
  · next hnil =>
    simp only [List.isEmpty_iff.1 hnil, pure_eq_ok, ne_eq, not_true_eq_false, false_and, or_false, true_and]
    exact eq_comm
  · next hsome =>
    have hsome : f.remaining ≠ [] := fun hnil => hsome (List.isEmpty_iff.2 hnil)
    simp only [bind_eq_ok, findPartition_eq_ok, hsome, false_and, false_or, ne_eq, not_false_eq_true, true_and,
      Filling.free, Filling.target]
    constructor
    · rintro ⟨_, ⟨hi, rfl⟩, h⟩
      split at h
      · next hfull => exact ⟨hi, .inl ⟨hfull, (pure_eq_ok.1 h).symm⟩⟩
      · next hfree =>
        simp only [bind_eq_ok, putPartition_eq_ok, pure_eq_ok] at h
        obtain ⟨⟨p', w⟩, hadd, _, ⟨-, rfl⟩, rfl⟩ := h
        exact ⟨hi, .inr ⟨Nat.pos_of_ne_zero hfree, p', w, hadd, rfl⟩⟩
    · rintro ⟨hi, ⟨hfull, rfl⟩ | ⟨hfree, p', w, hadd, rfl⟩⟩
      · exact ⟨_, ⟨hi, rfl⟩, by rw [if_pos hfull]; rfl⟩
      · refine ⟨_, ⟨hi, rfl⟩, ?_⟩
        rw [if_neg hfree.ne']
        simp only [bind_eq_ok, putPartition_eq_ok, pure_eq_ok]
        exact ⟨(p', w), hadd, _, ⟨hi, rfl⟩, rfl⟩

theorem fillPartition_spec {f f' : Filling} (h : fillPartition grid size partitionSize proven f i = .ok f') :
    let p := (f.partitions.get? i).getD {}
    let free := partitionSize - p.sectors.count
    (f' = f ∧ (f.remaining = [] ∨ free = 0)) ∨
      ∃ p' w, f.remaining ≠ [] ∧ 0 < free ∧ p.addSectors grid size proven (f.remaining.take free) = .ok (p', w) ∧
        f' = {
          partitions := f.partitions.insert i p'
          remaining := f.remaining.drop free
          activated := f.activated + w
          listed := f.listed ++ (f.remaining.take free).map fun s => (s.expiration, i) } := by
  rcases fillPartition_eq_ok.1 h with ⟨hnil, rfl⟩ | ⟨hsome, -, ⟨hfull, rfl⟩ | ⟨hfree, p', w, hadd, rfl⟩⟩
  · exact .inl ⟨rfl, .inl hnil⟩
  · exact .inl ⟨rfl, .inr hfull⟩
  · exact .inr ⟨p', w, hsome, hfree, hadd, rfl⟩

/-- Sectors are added if they find places, the counts stay in range, and the queue can list them. -/
theorem addSectors_eq_ok {ss : List Sector} {w : Power} :
    d.addSectors grid size partitionSize proven ss = .ok (d', w) ↔
      (ss = [] ∧ d' = d ∧ w = 0) ∨ (ss ≠ [] ∧ 0 < partitionSize ∧ d.live + ss.length < Count.bound ∧
        d.total + ss.length < Count.bound ∧ ∃ ps q q', ∃ f : Filling, d.partitions = .held ps ∧ d.expirations = .held q ∧
          foldOutcome (fillPartition grid size partitionSize proven) { partitions := ps, remaining := ss }
            (positionsToFill ps ss) = .ok f ∧
          NumberQueue.addMany grid q f.listed = .ok q' ∧ w = f.activated ∧
          d' = { d with
            partitions := .held f.partitions, expirations := .held q', live := d.live + ss.length
            total := d.total + ss.length }) := by
  simp only [addSectors, refused_bind]
  split
  · next hnil =>
    obtain rfl := List.isEmpty_iff.1 hnil
    simp only [pure_eq_ok, Prod.mk.injEq, ne_eq, not_true_eq_false, false_and, or_false, true_and]
    exact and_congr eq_comm eq_comm
  · next hsome =>
    have hsome : ss ≠ [] := fun hnil => hsome (List.isEmpty_iff.2 hnil)
    simp only [ite_refused_eq_ok, bind_eq_ok, loadPartitions_eq_ok, loadExpirations_eq_ok, noting_eq_ok, pure_eq_ok,
      Prod.mk.injEq, Count.add_eq_ok, hsome, false_and, false_or, ne_eq, not_false_eq_true, true_and]
    constructor
    · rintro ⟨hsize, ps, hps, f, hfold, _, ⟨hlive, rfl⟩, _, ⟨htotal, rfl⟩, q, hq, q', hlist, rfl, rfl⟩
      exact ⟨Nat.pos_of_ne_zero hsize, hlive, htotal, ps, q, q', f, hps, hq, hfold, hlist, rfl, rfl⟩
    · rintro ⟨hsize, hlive, htotal, ps, q, q', f, hps, hq, hfold, hlist, rfl, rfl⟩
      exact ⟨hsize.ne', ps, hps, f, hfold, _, ⟨hlive, rfl⟩, _, ⟨htotal, rfl⟩, q, hq, q', hlist, rfl, rfl⟩

theorem addSectors_spec {ss : List Sector} {w : Power}
    (h : d.addSectors grid size partitionSize proven ss = .ok (d', w)) :
    (ss = [] ∧ d' = d ∧ w = 0) ∨ ∃ ps q q', ∃ f : Filling, 0 < partitionSize ∧ d.partitions = .held ps ∧
      d.expirations = .held q ∧ foldOutcome (fillPartition grid size partitionSize proven)
        { partitions := ps, remaining := ss } (positionsToFill ps ss) = .ok f ∧
      NumberQueue.addMany grid q f.listed = .ok q' ∧ w = f.activated ∧
      d' = { d with
        partitions := .held f.partitions, expirations := .held q', live := d.live + ss.length
        total := d.total + ss.length } :=
  (addSectors_eq_ok.1 h).imp_right fun ⟨_, hsize, _, _, ps, q, q', f, h⟩ => ⟨ps, q, q', f, hsize, h⟩

end AddSectors

/-! ### Faults and recovery -/

theorem declareFaultsIn_spec {f f' : Faulting} (h : declareFaultsIn grid size table epoch f entry = .ok f') :
    ∃ p p' newFaults fd, f.partitions.get? entry.1 = some p ∧
      p.declareFaults grid size table entry.2 epoch = .ok (p', newFaults, fd) ∧
      f' = { f with
        partitions := f.partitions.insert entry.1 p'
        faulted := if newFaults.isEmpty then f.faulted else f.faulted ++ [entry.1]
        faultyPower := f.faultyPower + fd.newlyFaulty
        delta := f.delta + fd.delta } := by
  simp only [declareFaultsIn, bind_eq_ok, getPartition_eq_ok, noting_eq_ok, putPartition_eq_ok, pure_eq_ok] at h
  obtain ⟨p, ⟨-, hp⟩, ⟨p', newFaults, fd⟩, hdeclare, _, ⟨-, rfl⟩, rfl⟩ := h
  exact ⟨p, p', newFaults, fd, hp, hdeclare, rfl⟩

theorem declareFaults_spec {w : Power} (h : d.declareFaults grid size table epoch map = .ok (d', w)) :
    ∃ ps, ∃ f : Faulting, d.partitions = .held ps ∧
      foldOutcome (declareFaultsIn grid size table epoch) { partitions := ps, faultyPower := d.faultyPower }
        map.entries = .ok f ∧ w = f.delta ∧
      addExpirationPartitions grid { d with partitions := .held f.partitions, faultyPower := f.faultyPower } epoch
        f.faulted = .ok d' := by
  simp only [declareFaults, bind_eq_ok, loadPartitions_eq_ok, noting_eq_ok, pure_eq_ok, Prod.mk.injEq] at h
  obtain ⟨ps, hps, f, hfold, _, hlist, rfl, rfl⟩ := h
  exact ⟨ps, f, hps, hfold, rfl, hlist⟩

/-- Declares sectors of one partition to recover. -/
def recoverIn (size : SectorSize) (table : SectorTable) (ps : SparseArray Partition) (entry : Nat × NumberSet) :
    Outcome (SparseArray Partition) := do
  let p ← getPartition ps entry.1 .notFound "no such partition"
  let p ← noting s!"failed to add recoveries to partition {entry.1}" (p.declareRecovered size table entry.2)
  putPartition ps entry.1 p

theorem recoverIn_spec {ps ps' : SparseArray Partition} (h : recoverIn size table ps entry = .ok ps') :
    ∃ p p', ps.get? entry.1 = some p ∧ p.declareRecovered size table entry.2 = .ok p' ∧
      ps' = ps.insert entry.1 p' := by
  simp only [recoverIn, bind_eq_ok, getPartition_eq_ok, noting_eq_ok, putPartition_eq_ok] at h
  obtain ⟨p, ⟨-, hp⟩, p', hdeclare, -, rfl⟩ := h
  exact ⟨p, p', hp, hdeclare, rfl⟩

theorem declareRecovered_spec (h : d.declareRecovered size table map = .ok d') :
    ∃ ps ps', d.partitions = .held ps ∧ foldOutcome (recoverIn size table) ps map.entries = .ok ps' ∧
      d' = { d with partitions := .held ps' } := by
  simp only [declareRecovered, bind_eq_ok, loadPartitions_eq_ok, pure_eq_ok] at h
  obtain ⟨ps, hps, ps', hfold, rfl⟩ := h
  exact ⟨ps, ps', hps, hfold, rfl⟩

/-- Either the partition was proven or has nothing to lose, or it misses its proof. -/
theorem missProof_spec {posted : NumberSet} {f f' : Faulting} (h : missProof grid posted epoch f i = .ok f') :
    (i ∈ posted ∧ f' = f) ∨ ∃ p, f.partitions.get? i = some p ∧ i ∉ posted ∧
      ((p.recoveringPower = 0 ∧ p.faultyPower = p.livePower ∧ f' = f) ∨
        ∃ p' missed, p.recordMissedProof grid epoch = .ok (p', missed) ∧ f' = {
          partitions := f.partitions.insert i p'
          faulted := if missed.newlyFaulty.isZero then f.faulted else f.faulted ++ [i]
          faultyPower := f.faultyPower + missed.newlyFaulty
          delta := f.delta + missed.delta
          penalized := f.penalized + missed.penalized }) := by
  unfold missProof at h
  split at h
  · next hposted => exact .inl ⟨hposted, (pure_eq_ok.1 h).symm⟩
  · next hposted =>
    simp only [bind_eq_ok, getPartition_eq_ok] at h
    obtain ⟨p, ⟨-, hp⟩, h⟩ := h
    refine .inr ⟨p, hp, hposted, ?_⟩
    split at h
    · next hlost => exact .inl ⟨Power.isZero_iff.1 hlost.1, hlost.2, (pure_eq_ok.1 h).symm⟩
    · simp only [bind_eq_ok, noting_eq_ok, putPartition_eq_ok, pure_eq_ok] at h
      obtain ⟨⟨p', missed⟩, hmiss, _, ⟨-, rfl⟩, rfl⟩ := h
      exact .inr ⟨p', missed, hmiss, rfl⟩

theorem processEnd_spec {r : WindowEnd} (h : d.processEnd grid epoch = .ok (d', r)) :
    ∃ ps, ∃ f : Faulting, ∃ d₁, d.partitions = .held ps ∧
      foldOutcome (missProof grid d.posted epoch) { partitions := ps, faultyPower := d.faultyPower }
        (List.range ps.count) = .ok f ∧
      addExpirationPartitions grid { d with partitions := .held f.partitions, faultyPower := f.faultyPower } epoch
        f.faulted = .ok d₁ ∧
      d' = { d₁ with posted := ∅ } ∧ r = { delta := f.delta, penalized := f.penalized } := by
  simp only [processEnd, bind_eq_ok, loadPartitions_eq_ok, noting_eq_ok, pure_eq_ok, Prod.mk.injEq] at h
  obtain ⟨ps, hps, f, hfold, d₁, hlist, rfl, rfl⟩ := h
  exact ⟨ps, f, d₁, hps, hfold, hlist, rfl, rfl⟩

/-- Either the partition was proven already, or its sectors are skipped, recovered and activated in turn. -/
theorem provePartition_spec {proof : PartitionProof} {v v' : Proving}
    (h : provePartition grid size table epoch v proof = .ok v') :
    (proof.index ∈ v.posted ∧ v' = v) ∨ ∃ p p₁ skipped p₂ recovered, proof.index ∉ v.posted ∧
      v.partitions.get? proof.index = some p ∧
      p.recordSkippedFaults grid size table epoch proof.skipped = .ok (p₁, skipped) ∧
      p₁.recoverFaults grid size table = .ok (p₂, recovered) ∧
      v'.partitions = v.partitions.insert proof.index p₂.activateUnproven.1 ∧
      v'.faulted = (if skipped.anyNew then v.faulted ++ [proof.index] else v.faulted) ∧
      v'.posted = v.posted ∪ NumberSet.singleton proof.index ∧
      v'.result.delta = v.result.delta + skipped.delta + p₂.activateUnproven.2 + recovered ∧
      v'.result.newlyFaulty = v.result.newlyFaulty + skipped.newlyFaulty ∧
      v'.result.recovered = v.result.recovered + recovered ∧
      v'.result.sectors = v.result.sectors ∪ p₂.sectors ∧
      v'.result.ignored = (v.result.ignored ∪ p₂.faults) ∪ p₂.terminated := by
  simp only [provePartition] at h
  split at h
  · next hposted => exact .inl ⟨hposted, (pure_eq_ok.1 h).symm⟩
  · next hposted =>
    simp only [bind_eq_ok, getPartition_eq_ok, noting_eq_ok, putPartition_eq_ok, pure_eq_ok] at h
    obtain ⟨p, ⟨-, hp⟩, ⟨p₁, skipped⟩, hskip, ⟨p₂, recovered⟩, hrecover, _, ⟨-, rfl⟩, rfl⟩ := h
    exact .inr ⟨p, p₁, skipped, p₂, recovered, hposted, hp, hskip, hrecover, rfl, rfl, rfl, rfl, rfl, rfl, rfl, rfl⟩

/-- The deadline when proofs have been recorded. What it has to list is filed apart from this. -/
def recorded (d : Deadline) (v : Proving) : Deadline :=
  { d with
    partitions := .held v.partitions
    posted := v.posted
    faultyPower := d.faultyPower - v.result.recovered + v.result.newlyFaulty }

theorem recordProven_eq_ok {proofs : List PartitionProof} {r : ProofResult} :
    d.recordProven grid size table epoch proofs = .ok (d', r) ↔ ∃ ps, ∃ v : Proving, ∃ d₁, d.partitions = .held ps ∧
      foldOutcome (provePartition grid size table epoch) { partitions := ps, posted := d.posted } proofs = .ok v ∧
      d.addExpirationPartitions grid epoch v.faulted = .ok d₁ ∧ r = v.result ∧ d' = d₁.recorded v := by
  simp only [recordProven, bind_eq_ok, loadPartitions_eq_ok, noting_eq_ok, pure_eq_ok, Prod.mk.injEq]
  constructor
  · rintro ⟨ps, hps, v, hfold, d₁, hlist, rfl, rfl⟩
    exact ⟨ps, v, d₁, hps, hfold, hlist, rfl, rfl⟩
  · rintro ⟨ps, v, d₁, hps, hfold, hlist, rfl, rfl⟩
    exact ⟨ps, hps, v, hfold, d₁, hlist, rfl, rfl⟩

/-! ### Ends -/

theorem expirePartition_spec {upTo : Int} {x x' : Expiring} (h : expirePartition upTo x i = .ok x') :
    ∃ p p' popped, x.partitions.get? i = some p ∧ p.popExpired upTo = .ok (p', popped) ∧
      x.expired.add popped = .ok x'.expired ∧ x'.partitions = x.partitions.insert i p' ∧
      x'.early = if popped.early.isEmpty then x.early else x.early ∪ NumberSet.singleton i := by
  simp only [expirePartition, bind_eq_ok, getPartition_eq_ok, noting_eq_ok, putPartition_eq_ok, pure_eq_ok] at h
  obtain ⟨p, ⟨-, hp⟩, ⟨p', popped⟩, hpop, expired, hadd, _, ⟨-, rfl⟩, rfl⟩ := h
  exact ⟨p, p', popped, hp, hpop, hadd, rfl, rfl⟩

theorem popExpired_spec {upTo : Int} {e : ExpirationSet} (h : d.popExpired upTo = .ok (d', e)) :
    ∃ q q' listed modified, d.expirations = .held q ∧ NumberQueue.popUntil q upTo = (q', listed, modified) ∧
      ((modified = false ∧ d' = d ∧ e = ∅) ∨ ∃ ps, ∃ x : Expiring, ∃ count, modified = true ∧ d.partitions = .held ps ∧
        foldOutcome (expirePartition upTo) { partitions := ps, early := d.early } listed.elements = .ok x ∧
        x.expired.count = .ok count ∧ count ≤ d.live ∧ e = x.expired ∧
        d' = { d with
          partitions := .held x.partitions
          expirations := .held q'
          early := x.early
          live := d.live - count
          faultyPower := d.faultyPower - x.expired.faulty }) := by
  simp only [popExpired, bind_eq_ok] at h
  obtain ⟨⟨d₁, listed, modified⟩, hlisted, h⟩ := h
  obtain ⟨q, q', hq, hpop, rfl⟩ := popExpiredPartitions_spec hlisted
  refine ⟨q, q', listed, modified, hq, hpop, ?_⟩
  cases modified with
  | false =>
    obtain ⟨rfl, rfl⟩ := Prod.mk.inj (pure_eq_ok.1 h)
    exact .inl ⟨rfl, rfl, rfl⟩
  | true =>
    simp only [Bool.not_true, Bool.false_eq_true, if_false, if_true, bind_eq_ok, loadPartitions_eq_ok, pure_eq_ok,
      Prod.mk.injEq, NumberSet.foldMembers_eq, Count.sub_eq_ok] at h
    obtain ⟨ps, hps, x, hfold, count, hcount, _, ⟨hle, rfl⟩, rfl, rfl⟩ := h
    exact .inr ⟨ps, x, count, rfl, hps, hfold, hcount, hle, rfl, rfl⟩

theorem terminateIn_spec {maxSectors : Nat} {t t' : Terminating}
    (h : terminateIn grid size table maxSectors epoch t entry = .ok t') :
    ∃ p p' removed, t.partitions.get? entry.1 = some p ∧
      p.terminateSectors grid size table maxSectors epoch entry.2 = .ok (p', removed) ∧
      ((removed.isEmpty = true ∧ t'.live = t.live ∧ t'.early = t.early) ∨
        ∃ count, removed.isEmpty = false ∧ removed.count = .ok count ∧ count ≤ t.live ∧ t'.live = t.live - count ∧
          t'.early = t.early ∪ NumberSet.singleton entry.1) ∧
      t'.partitions = t.partitions.insert entry.1 p' ∧ t'.faultyPower = t.faultyPower - removed.faulty ∧
      t'.lost = t.lost + removed.active := by
  simp only [terminateIn, bind_eq_ok, getPartition_eq_ok, noting_eq_ok, putPartition_eq_ok] at h
  obtain ⟨p, ⟨-, hp⟩, ⟨p', removed⟩, hterm, _, ⟨-, rfl⟩, h⟩ := h
  refine ⟨p, p', removed, hp, hterm, ?_⟩
  simp only at h
  by_cases hnil : removed.isEmpty = true
  · simp only [hnil, if_true, bind_eq_ok, pure_eq_ok] at h
    obtain ⟨_, rfl, rfl⟩ := h
    exact ⟨.inl ⟨hnil, rfl, rfl⟩, rfl, rfl, rfl⟩
  · simp only [hnil, Bool.false_eq_true, if_false, bind_eq_ok, pure_eq_ok, Count.sub_eq_ok] at h
    obtain ⟨count, hcount, _, ⟨hle, rfl⟩, rfl⟩ := h
    exact ⟨.inr ⟨count, by simpa using hnil, hcount, hle, rfl, rfl⟩, rfl, rfl, rfl⟩

theorem terminateSectors_spec {maxSectors : Nat} {w : Power}
    (h : d.terminateSectors grid size table maxSectors epoch map = .ok (d', w)) :
    ∃ ps, ∃ t : Terminating, d.partitions = .held ps ∧
      foldOutcome (terminateIn grid size table maxSectors epoch)
        { partitions := ps, early := d.early, live := d.live, faultyPower := d.faultyPower } map.entries = .ok t ∧
      w = t.lost ∧
      d' = { d with
        partitions := .held t.partitions, early := t.early, live := t.live, faultyPower := t.faultyPower } := by
  simp only [terminateSectors, bind_eq_ok, loadPartitions_eq_ok, pure_eq_ok, Prod.mk.injEq] at h
  obtain ⟨ps, hps, t, hfold, rfl, rfl⟩ := h
  exact ⟨ps, t, hps, hfold, rfl, rfl⟩

/-- Either the partition is missing, or terminations are taken from it. -/
theorem settlePartition_spec {maxPartitions maxSectors : Nat} {s s' : Settling} {go : Bool}
    (h : settlePartition maxPartitions maxSectors s i = .ok (s', go)) :
    (s.partitions.get? i = none ∧ s' = { s with drained := s.drained ∪ NumberSet.singleton i }) ∨
      ∃ p left p' popped more, s.partitions.get? i = some p ∧ p.popEarlyTerminations left = .ok (p', popped, more) ∧
        s'.partitions = s.partitions.insert i p' ∧
        s'.drained = if more then s.drained else s.drained ∪ NumberSet.singleton i := by
  simp only [settlePartition, bind_eq_ok, findPartition_eq_ok] at h
  obtain ⟨o, ⟨-, hp⟩, h⟩ := h
  cases o with
  | none =>
    obtain ⟨rfl, -⟩ := Prod.mk.inj (pure_eq_ok.1 h)
    exact .inl ⟨hp, rfl⟩
  | some p =>
    simp only [bind_eq_ok, noting_eq_ok, putPartition_eq_ok, pure_eq_ok, Prod.mk.injEq] at h
    obtain ⟨left, -, ⟨p', popped, more⟩, hpop, taken, -, _, ⟨-, rfl⟩, rfl, -⟩ := h
    exact .inr ⟨p, left, p', popped, more, hp, hpop, rfl, rfl⟩

theorem popEarlyTerminations_spec {maxPartitions maxSectors : Nat} {taken : Terminations} {more : Bool}
    (h : d.popEarlyTerminations maxPartitions maxSectors = .ok (d', taken, more)) :
    ∃ ps, ∃ s : Settling, d.partitions = .held ps ∧
      NumberSet.visitWhile (settlePartition maxPartitions maxSectors) d.early.elements { partitions := ps } = .ok s ∧
      d' = { d with partitions := .held s.partitions, early := d.early \ s.drained } := by
  simp only [popEarlyTerminations, bind_eq_ok, loadPartitions_eq_ok, pure_eq_ok, Prod.mk.injEq,
    NumberSet.foldWhile_eq] at h
  obtain ⟨ps, hps, s, hfold, rfl, rfl, rfl⟩ := h
  exact ⟨ps, s, hps, hfold, rfl⟩

/-! ### Removal -/

namespace Compacting

variable {c : Compacting} {p : Partition}

/-- A partition comes after those that stayed before. -/
def keep (c : Compacting) (p : Partition) : Compacting := { c with kept := c.kept.insert c.kept.count p }

/-- A partition leaves, and its sectors with it. -/
def remove (c : Compacting) (p : Partition) : Compacting :=
  { c with removed := {
      live := c.removed.live ∪ p.liveSectors
      dead := c.removed.dead ∪ p.terminated
      power := c.removed.power + p.livePower } }

@[simp] theorem kept_keep (c : Compacting) (p : Partition) : (c.keep p).kept = c.kept.insert c.kept.count p := rfl

@[simp] theorem removed_keep (c : Compacting) (p : Partition) : (c.keep p).removed = c.removed := rfl

@[simp] theorem kept_remove (c : Compacting) (p : Partition) : (c.remove p).kept = c.kept := rfl

@[simp] theorem power_remove (c : Compacting) (p : Partition) :
    (c.remove p).removed.power = c.removed.power + p.livePower := rfl

theorem mem_live_remove {n : Nat} : n ∈ (c.remove p).removed.live ↔ n ∈ c.removed.live ∨ n ∈ p.liveSectors :=
  NumberSet.mem_union

theorem mem_dead_remove {n : Nat} : n ∈ (c.remove p).removed.dead ↔ n ∈ c.removed.dead ∨ n ∈ p.terminated :=
  NumberSet.mem_union

/-- A sector that has left then had left before, or was in the partition. -/
theorem of_mem_remove (hp : ∀ n ∈ p.terminated, n ∈ p.sectors) {n : Nat}
    (hn : n ∈ (c.remove p).removed.live ∨ n ∈ (c.remove p).removed.dead) :
    (n ∈ c.removed.live ∨ n ∈ c.removed.dead) ∨ n ∈ p.sectors := by
  simp only [mem_live_remove, mem_dead_remove] at hn
  rcases hn with (hn | hn) | (hn | hn)
  · exact .inl (.inl hn)
  · exact .inr (NumberSet.mem_sdiff.1 hn).1
  · exact .inl (.inr hn)
  · exact .inr (hp n hn)

/-- If none of its sectors had left before, each of them is counted, once. -/
theorem count_remove (hp : ∀ n ∈ p.terminated, n ∈ p.sectors)
    (hnew : ∀ n, n ∈ c.removed.live ∨ n ∈ c.removed.dead → n ∉ p.sectors) :
    (c.remove p).removed.live.count = c.removed.live.count + p.liveSectors.count ∧
      (c.remove p).removed.live.count + (c.remove p).removed.dead.count =
        c.removed.live.count + c.removed.dead.count + p.sectors.count := by
  have hlive := NumberSet.count_union (s := c.removed.live) (t := p.liveSectors) fun n hn hn' =>
    hnew n (.inl hn) (NumberSet.mem_sdiff.1 hn').1
  have hdead := NumberSet.count_union (s := c.removed.dead) (t := p.terminated) fun n hn hn' =>
    hnew n (.inr hn) (hp n hn')
  have hsplit : p.liveSectors.count = p.sectors.count - p.terminated.count := NumberSet.count_sdiff hp
  have hle : p.terminated.count ≤ p.sectors.count := NumberSet.count_le_of_subset hp
  refine ⟨hlive, ?_⟩
  simp only [remove, hlive, hdead]
  omega

end Compacting

/-- Either the partition stays, or it leaves. -/
theorem compactPartition_spec {old : SparseArray Partition} {toRemove : NumberSet} {c c' : Compacting}
    (h : compactPartition old toRemove c i = .ok c') : ∃ p, old.get? i = some p ∧
      ((i ∉ toRemove ∧ c' = c.keep p) ∨
        (i ∈ toRemove ∧ p.faults = ∅ ∧ p.unproven = ∅ ∧ c' = c.remove p)) := by
  simp only [compactPartition, bind_eq_ok, getPartition_eq_ok, refused_bind] at h
  obtain ⟨p, ⟨-, hp⟩, h⟩ := h
  refine ⟨p, hp, ?_⟩
  by_cases hr : i ∈ toRemove
  · simp only [hr, not_true_eq_false, if_false, ite_refused_eq_ok, pure_eq_ok, Bool.not_eq_true', Bool.not_eq_false,
      NumberSet.isEmpty_iff] at h
    exact .inr ⟨hr, h.1, h.2.1, h.2.2.symm⟩
  · simp only [hr, not_false_eq_true, if_true, bind_eq_ok, putPartition_eq_ok, pure_eq_ok] at h
    obtain ⟨_, ⟨-, rfl⟩, rfl⟩ := h
    exact .inl ⟨hr, rfl⟩

theorem removePartitions_spec {toRemove : NumberSet} {r : RemovedPartitions}
    (h : d.removePartitions toRemove = .ok (d', r)) :
    (toRemove = ∅ ∧ d' = d ∧ r = {}) ∨ ∃ old q, ∃ c : Compacting, d.partitions = .held old ∧ d.expirations = .held q ∧
      (∀ i ∈ toRemove, i < old.count) ∧ d.early = ∅ ∧
      foldOutcome (compactPartition old toRemove) {} (List.range old.count) = .ok c ∧ r = c.removed ∧
      c.removed.live.count ≤ d.live ∧ c.removed.live.count + c.removed.dead.count ≤ d.total ∧
      d' = { d with
        partitions := .held c.kept
        live := d.live - c.removed.live.count
        total := d.total - (c.removed.live.count + c.removed.dead.count)
        expirations := .held (NumberQueue.cut q toRemove) } := by
  simp only [removePartitions, failed_bind, refused_bind] at h
  split at h
  · next hnil =>
    obtain ⟨rfl, rfl⟩ := Prod.mk.inj (pure_eq_ok.1 h)
    exact .inl ⟨NumberSet.isEmpty_iff.1 hnil, rfl, rfl⟩
  · simp only [bind_eq_ok, loadPartitions_eq_ok] at h
    obtain ⟨old, hold, h⟩ := h
    split at h
    · simp at h
    · next hin =>
      simp only [bind_eq_ok, ite_failed_eq_ok, loadExpirations_eq_ok, pure_eq_ok, Prod.mk.injEq, Count.sub_eq_ok,
        Count.add_eq_ok, Bool.not_eq_true', Bool.not_eq_false, NumberSet.isEmpty_iff] at h
      obtain ⟨hearly, c, hfold, _, ⟨hlive, rfl⟩, _, ⟨-, rfl⟩, _, ⟨htotal, rfl⟩, q, hq, rfl, rfl⟩ := h
      refine .inr ⟨old, q, c, hold, hq, fun i hi => ?_, hearly, hfold, rfl, hlive, htotal, rfl⟩
      have hempty := NumberSet.eq_empty_iff.1 (NumberSet.first?_eq_none_iff.1 hin) i
      rw [NumberSet.mem_sdiff, NumberSet.mem_run] at hempty
      by_contra hlt
      exact hempty ⟨hi, fun hrun => hlt (by omega)⟩

/-! ### Moves -/

/-- The partition is missing, or its answer tells whether sectors of it move. -/
theorem rescheduleIn_eq_ok {r r' : Rescheduling} : rescheduleIn grid size table epoch r entry = .ok r' ↔
    entry.1 ≤ greatestIndex ∧ (r.partitions.get? entry.1 = none ∧ r' = r ∨
      ∃ p p' moved, r.partitions.get? entry.1 = some p ∧
        p.rescheduleExpirations grid size table epoch entry.2 = .ok (p', moved) ∧ (moved = [] ∧ r' = r ∨ moved ≠ [] ∧
          r' = {
            partitions := r.partitions.insert entry.1 p'
            affected := r.affected ++ [entry.1]
            moved := r.moved ++ moved })) := by
  simp only [rescheduleIn, bind_eq_ok, findPartition_eq_ok]
  constructor
  · rintro ⟨o, ⟨hi, hp⟩, h⟩
    refine ⟨hi, ?_⟩
    cases o with
    | none => exact .inl ⟨hp, (pure_eq_ok.1 h).symm⟩
    | some p =>
      simp only [bind_eq_ok, noting_eq_ok] at h
      obtain ⟨⟨p', moved⟩, hresch, h⟩ := h
      refine .inr ⟨p, p', moved, hp, hresch, ?_⟩
      split at h
      · next hnil => exact .inl ⟨List.isEmpty_iff.1 hnil, (pure_eq_ok.1 h).symm⟩
      · next hsome =>
        simp only [bind_eq_ok, putPartition_eq_ok, pure_eq_ok] at h
        obtain ⟨_, ⟨-, rfl⟩, rfl⟩ := h
        exact .inr ⟨fun hnil => hsome (List.isEmpty_iff.2 hnil), rfl⟩
  · rintro ⟨hi, ⟨hp, rfl⟩ | ⟨p, p', moved, hp, hresch, hend⟩⟩
    · exact ⟨none, ⟨hi, hp⟩, rfl⟩
    refine ⟨some p, ⟨hi, hp⟩, ?_⟩
    simp only [bind_eq_ok, noting_eq_ok]
    refine ⟨_, hresch, ?_⟩
    rcases hend with ⟨rfl, rfl⟩ | ⟨hsome, rfl⟩
    · rfl
    · rw [if_neg fun hnil => hsome (List.isEmpty_iff.1 hnil)]
      simp only [bind_eq_ok, putPartition_eq_ok, pure_eq_ok]
      exact ⟨_, ⟨hi, rfl⟩, rfl⟩

/-- Either nothing moves, or sectors of the partition do. -/
theorem rescheduleIn_spec {r r' : Rescheduling} (h : rescheduleIn grid size table epoch r entry = .ok r') :
    r' = r ∨ ∃ p p' moved, r.partitions.get? entry.1 = some p ∧
      p.rescheduleExpirations grid size table epoch entry.2 = .ok (p', moved) ∧ moved ≠ [] ∧
      r' = {
        partitions := r.partitions.insert entry.1 p'
        affected := r.affected ++ [entry.1]
        moved := r.moved ++ moved } := by
  obtain ⟨-, ⟨-, rfl⟩ | ⟨p, p', moved, hp, hresch, ⟨-, rfl⟩ | ⟨hsome, rfl⟩⟩⟩ := rescheduleIn_eq_ok.1 h
  · exact .inl rfl
  · exact .inl rfl
  · exact .inr ⟨p, p', moved, hp, hresch, hsome, rfl⟩

theorem rescheduleExpirations_spec {moved : List Sector}
    (h : d.rescheduleExpirations grid size table epoch map = .ok (d', moved)) :
    ∃ ps, ∃ r : Rescheduling, d.partitions = .held ps ∧
      foldOutcome (rescheduleIn grid size table epoch) { partitions := ps } map.entries = .ok r ∧ moved = r.moved ∧
      ((r.affected = [] ∧ d' = d) ∨
        addExpirationPartitions grid { d with partitions := .held r.partitions } epoch r.affected = .ok d') := by
  simp only [rescheduleExpirations, bind_eq_ok, loadPartitions_eq_ok] at h
  obtain ⟨ps, hps, r, hfold, h⟩ := h
  split at h
  · next hnil =>
    obtain ⟨rfl, rfl⟩ := Prod.mk.inj (pure_eq_ok.1 h)
    exact ⟨ps, r, hps, hfold, rfl, .inl ⟨List.isEmpty_iff.1 hnil, rfl⟩⟩
  · simp only [bind_eq_ok, noting_eq_ok, pure_eq_ok, Prod.mk.injEq] at h
    obtain ⟨_, hlist, rfl, rfl⟩ := h
    exact ⟨ps, r, hps, hfold, rfl, .inr hlist⟩

end SectorLedger.Deadline
