import SectorLedger.Proofs.Deadline.Due

/-!
# Nothing stops a deadline from closing

When the window closes, partitions that were not proven become faulty, and what is due ends. Neither is refused, if
the deadline is sound and the proven partitions have nothing left to prove or to recover.

One thing can be overdue afterwards. A partition that is wholly faulty and fails to recover is not listed again, since
no sector of it is newly faulty. If its sectors were on time after the limit, they move to it all the same. The
partition is `Stranded` if the limit has come already.

* `processEnd_total`: the partitions that were not proven.
* `Closable.close`: both, and what is left.
-/

namespace SectorLedger.Deadline

open SparseArray

variable {grid : Grid} {size : SectorSize} {table : SectorTable} {d d' : Deadline} {epoch limit upTo : Int}
  {i m : Nat} {p p' : Partition}

/-- What has to hold before the window closes. -/
structure Closable (grid : Grid) (size : SectorSize) (table : SectorTable) (limit : Int) (d : Deadline) : Prop where
  /-- The deadline is sound. -/
  sound : d.Sound grid size table
  /-- Powers and pledges are not negative. -/
  nonneg : d.Nonneg size table
  /-- Positions and counts are words. -/
  fits : d.Fits
  /-- In the proven partitions nothing is left to prove or to recover. -/
  idle : ∀ i ∈ d.posted, ∀ p, d.parts.get? i = some p → p.unproven = ∅ ∧ p.recoveries = ∅
  /-- No early place lies after the limit. -/
  early_le : ∀ i p, d.parts.get? i = some p → ∀ (k : Nat) n, n ∈ (p.queue.entry k).early → (k : Int) ≤ limit

/-- A partition that is wholly faulty, fails to recover, and has sectors on time after the limit, while the limit is
not after `upTo` and the partition is not listed by then. -/
def Stranded (upTo limit : Int) (d : Deadline) (i : Nat) : Prop :=
  limit ≤ upTo ∧ i ∉ d.posted ∧ (∀ k : Nat, (k : Int) ≤ upTo → i ∉ d.queue.entry k) ∧
    ∃ p, d.parts.get? i = some p ∧ p.recoveries ≠ ∅ ∧ (∀ n ∈ p.liveSectors, n ∈ p.faults) ∧
      ∃ (k : Nat) (n : Nat), limit < k ∧ n ∈ (p.queue.entry k).onTime

/-! ### Partitions that were not proven -/

/-- What becomes of a partition when missed proofs are counted, if `faulted` are the partitions to list. -/
inductive Closes (grid : Grid) (epoch : Int) (posted : NumberSet) (faulted : List Nat) (i : Nat) (p : Partition) :
    Partition → Prop where
  /-- It was proven, or it has nothing to lose. -/
  | kept (unproven : p.unproven = ∅) (recoveries : p.recoveries = ∅)
      (faulty : i ∉ posted → ∀ n ∈ p.liveSectors, n ∈ p.faults) : Closes grid epoch posted faulted i p p
  /-- All its sectors are faulty now. It is to be listed unless they were before. -/
  | missed {p' : Partition} (hi : i ∉ posted) (hf : p.FaultedBy grid epoch p.liveSectors p')
      (unproven : p'.unproven = ∅)
      (recoveries : p'.recoveries = ∅) (faults : p'.faults = p.liveSectors)
      (listed : i ∈ faulted ↔ ¬∀ n ∈ p.liveSectors, n ∈ p.faults)
      (lost : (∀ n ∈ p.liveSectors, n ∈ p.faults) → p.recoveries ≠ ∅) : Closes grid epoch posted faulted i p p'

namespace Closes

variable {posted : NumberSet} {faulted faulted' : List Nat}

theorem congr (h : Closes grid epoch posted faulted i p p') (hl : i ∈ faulted' ↔ i ∈ faulted) :
    Closes grid epoch posted faulted' i p p' := by
  cases h with
  | kept hunproven hrecoveries hfaulty => exact kept hunproven hrecoveries hfaulty
  | missed hi hf hunproven hrecoveries hfaults hlisted hlost =>
    exact missed hi hf hunproven hrecoveries hfaults (hl.trans hlisted) hlost

theorem keeps (h : Closes grid epoch posted faulted i p p') : p.Keeps p' := by
  cases h with
  | kept => exact Partition.Keeps.refl p
  | missed _ hf => exact hf.keeps

/-- Nothing is left to prove or to recover, and what was not proven is faulty. -/
theorem settled (h : Closes grid epoch posted faulted i p p') :
    p'.unproven = ∅ ∧ p'.recoveries = ∅ ∧ (i ∉ posted → ∀ n ∈ p'.liveSectors, n ∈ p'.faults) := by
  cases h with
  | kept hunproven hrecoveries hfaulty => exact ⟨hunproven, hrecoveries, hfaulty⟩
  | missed _ hf hunproven hrecoveries hfaults =>
    exact ⟨hunproven, hrecoveries, fun _ n hn => by rwa [hfaults, ← hf.keeps.liveSectors_eq]⟩

/-- Who is on time now was on time there. -/
theorem onTime (h : Closes grid epoch posted faulted i p p') {k n : Nat} (hn : n ∈ (p'.queue.entry k).onTime) :
    n ∈ (p.queue.entry k).onTime := by
  cases h with
  | kept => exact hn
  | missed _ hf =>
    obtain ⟨_, -, hmoved, -⟩ := hf.moved
    exact ((hmoved.onTime k n).1 hn).1

/-- Less pledge is due than before. -/
theorem duePledge_le (h : Closes grid epoch posted faulted i p p') (hp : p.Sound grid size table)
    (hp' : p'.Sound grid size table) (hn : p.Nonneg size table) :
    (p'.dueOnTime upTo).total table.pledgeAt ≤ (p.dueOnTime upTo).total table.pledgeAt := by
  refine NumberSet.total_mono_set (fun n hm => ?_) fun n hm => ?_
  · obtain ⟨k, -, hk⟩ := hp.mem_dueOnTime.1 hm
    exact (hn n ((hp.live_iff n).2 ⟨k, ExpirationSet.mem_members.2 (.inl hk)⟩)).2
  · obtain ⟨k, hle, hk⟩ := hp'.mem_dueOnTime.1 hm
    exact hp.mem_dueOnTime.2 ⟨k, hle, h.onTime hk⟩

end Closes

/-- How far the missed proofs have been counted. -/
structure ClosingTo (grid : Grid) (size : SectorSize) (table : SectorTable) (epoch upTo : Int) (d : Deadline) (m : Nat)
    (f : Faulting) : Prop where
  /-- New faults count. -/
  coherent : Coherent grid size table { d with partitions := .held f.partitions, faultyPower := f.faultyPower }
  /-- The partitions gone through have closed. -/
  closed : ∀ i < m, ∀ p', f.partitions.get? i = some p' →
    ∃ p, d.parts.get? i = some p ∧ Closes grid epoch d.posted f.faulted i p p'
  /-- The others are as before. -/
  others : ∀ i, m ≤ i → f.partitions.get? i = d.parts.get? i
  /-- Only partitions gone through are to be listed. -/
  faulted_lt : ∀ i ∈ f.faulted, i < m
  /-- No more pledge is due than before. -/
  duePledge_le : duePledgeIn table upTo f.partitions ≤ d.duePledge table upTo
  /-- No partition comes or goes. -/
  count_eq : f.partitions.count = d.parts.count

theorem ClosingTo.start (hd : d.Coherent grid size table) {ps : SparseArray Partition} (hps : d.partitions = .held ps) :
    ClosingTo grid size table epoch upTo d 0 { partitions := ps, faultyPower := d.faultyPower } where
  coherent := by rwa [← hps]
  closed i hi := absurd hi (Nat.not_lt_zero i)
  others i _ := by rw [parts_eq hps]
  faulted_lt i hi := absurd hi List.not_mem_nil
  duePledge_le := by rw [duePledge, parts_eq hps]
  count_eq := by rw [parts_eq hps]

/-- A partition that is proven, or has nothing to lose, stays as it is. -/
theorem ClosingTo.keep {f : Faulting} (h : ClosingTo grid size table epoch upTo d m f) (hp : d.parts.get? m = some p)
    (hunproven : p.unproven = ∅) (hrecoveries : p.recoveries = ∅)
    (hfaulty : m ∉ d.posted → ∀ n ∈ p.liveSectors, n ∈ p.faults) : ClosingTo grid size table epoch upTo d (m + 1) f :=
  { h with
    closed := fun i hi p' hp' => by
      rcases Nat.lt_succ_iff_lt_or_eq.1 hi with hlt | rfl
      · exact h.closed i hlt p' hp'
      · rw [h.others i le_rfl, hp] at hp'
        obtain rfl := Option.some.inj hp'
        exact ⟨p, hp, .kept hunproven hrecoveries hfaulty⟩
    others := fun i hi => h.others i (Nat.le_of_succ_le hi)
    faulted_lt := fun i hi => Nat.lt_succ_of_lt (h.faulted_lt i hi) }

/-- A partition misses its proof. -/
theorem ClosingTo.miss (hu : 0 < grid.unit) (hn : d.Nonneg size table) {f : Faulting}
    (h : ClosingTo grid size table epoch upTo d m f) (hp : d.parts.get? m = some p) (hi : m ∉ d.posted)
    (hlost : ¬(p.recoveringPower = 0 ∧ p.faultyPower = p.livePower)) {missed : MissedProof}
    (hmiss : p.recordMissedProof grid epoch = .ok (p', missed)) :
    ClosingTo grid size table epoch upTo d (m + 1) {
      partitions := f.partitions.insert m p'
      faulted := if missed.newlyFaulty.isZero then f.faulted else f.faulted ++ [m]
      faultyPower := f.faultyPower + missed.newlyFaulty
      delta := f.delta + missed.delta
      penalized := f.penalized + missed.penalized } := by
  have hget : f.partitions.get? m = some p := (h.others m le_rfl).trans hp
  have hs := h.coherent.sound m p hget
  obtain ⟨hs', hf, hunproven, hrecoveries, hfaults⟩ := hs.recordMissedProof hu hmiss
  have hnewly := Partition.newlyFaulty_of_recordMissedProof hmiss
  have hpower := (Partition.powers_of_recordMissedProof hmiss).2
  have hzero : missed.newlyFaulty.isZero = true ↔ ∀ n ∈ p.liveSectors, n ∈ p.faults := by
    rw [Power.isZero_iff, hnewly]
    exact ⟨fun hzero n => hs.mem_faults_of_power hzero, fun hall => sub_eq_zero.2 (hs.livePower_eq_faultyPower hall)⟩
  have hlisted : ∀ i, i ∈ (if missed.newlyFaulty.isZero then f.faulted else f.faulted ++ [m]) ↔
      i ∈ f.faulted ∨ (i = m ∧ ¬∀ n ∈ p.liveSectors, n ∈ p.faults) := by
    intro i
    split
    · next hall => exact (or_iff_left fun hm => hm.2 (hzero.1 hall)).symm
    · next hnew =>
      rw [List.mem_append, List.mem_singleton]
      exact or_congr_right (and_iff_left fun hall => hnew (hzero.2 hall)).symm
  have hcloses : Closes grid epoch d.posted (if missed.newlyFaulty.isZero then f.faulted else f.faulted ++ [m])
      m p p' := by
    refine .missed hi hf hunproven hrecoveries hfaults ?_ fun hall hnone => hlost ⟨?_, ?_⟩
    · have hnot : m ∉ f.faulted := fun hm => Nat.lt_irrefl m (h.faulted_lt m hm)
      rw [hlisted]
      exact ⟨fun hm => (hm.resolve_left hnot).2, fun hnew => .inr ⟨rfl, hnew⟩⟩
    · rw [hs.recoveringPower_eq, hnone, NumberSet.total_empty]
    · exact (hs.livePower_eq_faultyPower hall).symm
  refine ⟨h.coherent.change hget hs' hf.keeps rfl rfl rfl ?_ rfl, fun i hi p₁ hp₁ => ?_, fun i hi => ?_,
    fun i hi => ?_, ?_, ?_⟩
  · rw [hpower, add_sub_cancel_left]
  · obtain ⟨rfl, rfl⟩ | ⟨hne, hp₁⟩ := get?_insert_eq_some.1 hp₁
    · exact ⟨p, hp, hcloses⟩
    · obtain ⟨p₀, hp₀, hc⟩ := h.closed i (by omega) p₁ hp₁
      exact ⟨p₀, hp₀, hc.congr (by rw [hlisted]; simp [hne])⟩
  · rw [get?_insert, if_neg (by omega)]
    exact h.others i (by omega)
  · rcases (hlisted i).1 hi with hi | ⟨rfl, -⟩
    · exact Nat.lt_succ_of_lt (h.faulted_lt i hi)
    · exact Nat.lt_succ_self i
  · have hle : (p'.dueOnTime upTo).total table.pledgeAt ≤ (p.dueOnTime upTo).total table.pledgeAt :=
      hcloses.duePledge_le hs hs' (hn m p hp)
    have hsum := h.duePledge_le
    rw [duePledgeIn, total_insert_of_get? _ hget]
    rw [duePledgeIn] at hsum
    omega
  · rw [count_insert, hget]
    exact h.count_eq

/-- One more partition is closed. -/
theorem ClosingTo.step (hu : 0 < grid.unit) (hd : d.Closable grid size table limit) (hup : grid.up epoch = .ok limit)
    (h₀ : 0 ≤ limit) {f : Faulting} (hm : m < d.parts.count) (h : ClosingTo grid size table epoch upTo d m f) :
    ∃ f', missProof grid d.posted epoch f m = .ok f' ∧ ClosingTo grid size table epoch upTo d (m + 1) f' := by
  obtain ⟨p, hp⟩ := (hd.sound.packed m).2 hm
  have hs := hd.sound.sound m p hp
  by_cases hposted : m ∈ d.posted
  · obtain ⟨hunproven, hrecoveries⟩ := hd.idle m hposted p hp
    exact ⟨f, if_pos hposted, h.keep hp hunproven hrecoveries fun hi => absurd hposted hi⟩
  have hget : f.partitions.get? m = some p := (h.others m le_rfl).trans hp
  have hindex := le_greatestIndex hd.fits hm
  have hload : getPartition f.partitions m .illegalState "no partition" = .ok p := getPartition_eq_ok.2 ⟨hindex, hget⟩
  by_cases hlost : p.recoveringPower = 0 ∧ p.faultyPower = p.livePower
  · have hall : ∀ n ∈ p.liveSectors, n ∈ p.faults := fun n =>
      hs.mem_faults_of_power (sub_eq_zero.2 hlost.2.symm)
    have hunproven : p.unproven = ∅ := NumberSet.eq_empty_iff.2 fun n hn =>
      hs.unproven_faults n hn (hall n (hs.unproven_live n hn))
    have hrecoveries : p.recoveries = ∅ :=
      hs.eq_empty_of_total (fun n hn => hs.faults_live n (hs.recoveries_faults n hn))
        (hs.recoveringPower_eq.symm.trans hlost.1)
    refine ⟨f, ?_, h.keep hp hunproven hrecoveries fun _ => hall⟩
    simp only [missProof, if_neg hposted, hload, Power.isZero_iff, bind, Except.bind, if_pos hlost, pure, Except.pure]
  · obtain ⟨p', missed, hmiss⟩ := hs.recordMissedProof_total hu (hd.nonneg m p hp) hup h₀ (hd.early_le m p hp)
    refine ⟨_, ?_, h.miss hu hd.nonneg hp hposted hlost hmiss⟩
    simp only [missProof, if_neg hposted, bind_eq_ok, hload, Except.ok.injEq, exists_eq_left', Power.isZero_iff,
      if_neg hlost, noting_eq_ok, hmiss, putPartition_eq_ok, hindex, true_and, pure_eq_ok]

/-- The deadline when the missed proofs have been counted. -/
structure Closed (grid : Grid) (size : SectorSize) (table : SectorTable) (epoch upTo : Int) (faulted : List Nat)
    (d d' : Deadline) : Prop where
  /-- The totals agree with the partitions. -/
  coherent : d'.Coherent grid size table
  /-- The queue is there. -/
  held : d'.expirations = .held d'.queue
  /-- Its keys are epochs. -/
  bounded : d'.queue.Bounded
  /-- Partitions with new faults are listed too. -/
  listed : ∀ i k, i ∈ d'.queue.entry k ↔ Awaiting grid d.queue epoch faulted i k
  /-- They exist. -/
  faulted_lt : ∀ i ∈ faulted, i < d.parts.count
  /-- The partitions have closed. -/
  closed : ∀ i p', d'.parts.get? i = some p' →
    ∃ p, d.parts.get? i = some p ∧ Closes grid epoch d.posted faulted i p p'
  /-- No more pledge is due than before. -/
  duePledge_le : d'.duePledge table upTo ≤ d.duePledge table upTo
  /-- No partition comes or goes. -/
  count_eq : d'.parts.count = d.parts.count
  /-- No sector does. -/
  total_eq : d'.total = d.total

theorem addExpirationPartitions_total {q : NumberQueue} (hq : d.expirations = .held q) {k : Nat}
    (hup : grid.up epoch = .ok (k : Int)) (hk : k ≤ greatestIndex) {indices : List Nat}
    (hi : ∀ i ∈ indices, i < NumberSet.forbiddenMember) :
    ∃ d', d.addExpirationPartitions grid epoch indices = .ok d' := by
  unfold addExpirationPartitions
  split
  · exact ⟨d, rfl⟩
  · obtain ⟨q', hadd⟩ := NumberQueue.addValues_total (q := q) hup hk hi
    simp only [bind_eq_ok, loadExpirations_eq_ok, noting_eq_ok, hq, Stored.held.injEq, exists_eq_left', hadd,
      Except.ok.injEq]
    exact ⟨_, rfl⟩

/-- Nothing stops the missed proofs from being counted. -/
theorem processEnd_total (hu : 0 < grid.unit) (hd : d.Closable grid size table limit)
    (hup : grid.up epoch = .ok limit) (h₀ : 0 ≤ limit) (upTo : Int) :
    ∃ d' r faulted, d.processEnd grid epoch = .ok (d', r) ∧ Closed grid size table epoch upTo faulted d d' := by
  have hps := hd.sound.partitions_held
  obtain ⟨f, hfold, hto⟩ := foldOutcome_range_total (I := ClosingTo grid size table epoch upTo d)
    (ClosingTo.start hd.sound.toCoherent hps) fun m hm f h => h.step hu hd hup h₀ hm
  obtain ⟨k, rfl⟩ := Int.eq_ofNat_of_zero_le h₀
  obtain ⟨d₁, hlist⟩ := addExpirationPartitions_total
    (d := { d with partitions := .held f.partitions, faultyPower := f.faultyPower }) hd.sound.expirations_held hup
    (ExpirationQueue.key_le_of_up hup)
    fun i hi => (hto.faulted_lt i hi).trans_le hd.fits.1
  obtain ⟨heq, hbounded, hentry⟩ := queue_of_addExpirationPartitions
    (d := { d with partitions := .held f.partitions, faultyPower := f.faultyPower }) hd.sound.expirations_held
    hd.sound.bounded hlist
  have hparts : d₁.parts = f.partitions := by rw [heq]; rfl
  refine ⟨{ d₁ with posted := ∅ }, { delta := f.delta, penalized := f.penalized }, f.faulted, ?_, ?_⟩
  · simp only [processEnd, bind_eq_ok, loadPartitions_eq_ok, noting_eq_ok, pure_eq_ok]
    exact ⟨d.parts, hps, f, hfold, d₁, hlist, rfl⟩
  · refine ⟨?_, ?_, hbounded, hentry, hto.faulted_lt, fun i p' hp' => ?_, ?_, ?_, ?_⟩
    · rw [heq]
      exact { hto.coherent with }
    · rw [heq]
      rfl
    · have hp : f.partitions.get? i = some p' := hparts ▸ hp'
      exact hto.closed i (hto.count_eq ▸ (hto.coherent.packed i).1 ⟨p', hp⟩) p' hp
    · exact (congrArg (duePledgeIn table upTo) hparts).trans_le hto.duePledge_le
    · exact (congrArg SparseArray.count hparts).trans hto.count_eq
    · rw [heq]

/-! ### What is left -/

/-- A sector of a partition has a place up to an epoch. -/
def Overdue (upTo : Int) (d : Deadline) (i : Nat) : Prop :=
  ∃ p, d.parts.get? i = some p ∧ ∃ (k : Nat) (n : Nat), (k : Int) ≤ upTo ∧ n ∈ (p.queue.entry k).members

/-- The deadline when its window has closed. -/
structure Settled (grid : Grid) (size : SectorSize) (table : SectorTable) (upTo limit : Int) (d d' : Deadline) : Prop
    where
  /-- The totals agree with the partitions. -/
  coherent : d'.Coherent grid size table
  /-- Nothing is left to prove or to recover. -/
  idle : d'.Idle
  /-- What was not proven is faulty. -/
  faulty : ∀ i p, i ∉ d.posted → d'.parts.get? i = some p → ∀ n ∈ p.liveSectors, n ∈ p.faults
  /-- No partition is listed up to the epoch, if there was a live sector. -/
  forgotten : d.live ≠ 0 → ∀ k : Nat, (k : Int) ≤ upTo → d'.queue.entry k = ∅
  /-- Only in stranded partitions something is overdue. -/
  overdue_iff : ∀ i, d'.Overdue upTo i ↔ d.Stranded upTo limit i

/-- A partition that has closed has a place up to the epoch, but is not listed by then, just if it was stranded. -/
theorem Closes.overdue_iff {faulted : List Nat} (hd : d.Closable grid size table limit)
    (hup : grid.up epoch = .ok limit) (h₀ : 0 ≤ limit) (hp : d.parts.get? i = some p)
    (h : Closes grid epoch d.posted faulted i p p')
    (hlisted : ∀ k : Nat, (k : Int) ≤ upTo → ¬Awaiting grid d.queue epoch faulted i k) :
    (∃ (k : Nat) (n : Nat), (k : Int) ≤ upTo ∧ n ∈ (p'.queue.entry k).members) ↔ d.Stranded upTo limit i := by
  have hnone : ∀ k n : Nat, (k : Int) ≤ upTo → n ∉ (p.queue.entry k).members := fun k n hle hn => by
    exact hlisted k hle (.inl (hd.sound.listed i p k _ hp (ExpirationQueue.get?_of_mem hn)))
  cases h with
  | kept _ hrecoveries =>
    constructor
    · rintro ⟨k, n, hle, hn⟩
      exact absurd hn (hnone k n hle)
    · rintro ⟨-, -, -, p₀, hp₀, hlost, -⟩
      obtain rfl := Option.some.inj (hp.symm.trans hp₀)
      exact absurd hrecoveries hlost
  | missed hi hf _ _ _ hnew hlost =>
    obtain ⟨limit', hlimit, hmoved, hearly⟩ := hf.moved
    have heq : ∀ n ∈ p.liveSectors, limit' = limit := fun n hn => by
      have := hlimit fun hnil => NumberSet.not_mem_empty n (hnil ▸ hn)
      exact Except.ok.inj (this.symm.trans hup)
    constructor
    · rintro ⟨k, n, hle, hn⟩
      obtain ⟨rfl, hlive, j, hj, hnj⟩ := (hmoved.place hn).resolve_left (hnone k n hle)
      obtain rfl := heq n hlive
      have hall : ∀ n ∈ p.liveSectors, n ∈ p.faults := by
        by_contra hsome
        exact hlisted k hle (.inr ⟨hnew.2 hsome, hup⟩)
      -- It was not early before, as no early place is after the limit.
      have hon : n ∈ (p.queue.entry j).onTime := (ExpirationSet.mem_members.1 hnj).resolve_right fun hne =>
        Int.not_le.2 hj (hearly n hlive j hne)
      exact ⟨hle, hi, fun l hl hin => hlisted l hl (.inl hin), p, hp, hlost hall, hall, j, n, hj, hon⟩
    · rintro ⟨hle, -, -, p₀, hp₀, -, -, j, n, hj, hon⟩
      obtain rfl := Option.some.inj (hp.symm.trans hp₀)
      have hlive : n ∈ p.liveSectors :=
        ((hd.sound.sound i p hp).live_iff n).2 ⟨j, ExpirationSet.mem_members.2 (.inl hon)⟩
      obtain rfl := heq n hlive
      obtain ⟨k, rfl⟩ := Int.eq_ofNat_of_zero_le h₀
      exact ⟨k, n, hle, ExpirationSet.mem_members.2 (.inr ((hmoved.early k n).2 (.inr ⟨rfl, hlive, j, hj, hon⟩)))⟩

/-- A stranded partition is not listed when the missed proofs have been counted. -/
theorem Closes.not_awaiting {faulted : List Nat} (hp : d.parts.get? i = some p)
    (h : Closes grid epoch d.posted faulted i p p') (hs : d.Stranded upTo limit i) {k : Nat} (hk : (k : Int) ≤ upTo) :
    ¬Awaiting grid d.queue epoch faulted i k := by
  obtain ⟨-, -, hlisted, p₀, hp₀, hlost, hall, -⟩ := hs
  obtain rfl := Option.some.inj (hp.symm.trans hp₀)
  rintro (hi | ⟨hi, -⟩)
  · exact hlisted k hk hi
  · cases h with
    | kept _ hrecoveries => exact hlost hrecoveries
    | missed _ _ _ _ _ hnew => exact hnew.1 hi hall

/-- Where something is overdue in the end. -/
theorem Emptied.overdue_iff {d₁ d₂ : Deadline} {faulted : List Nat} {expired : ExpirationSet}
    (hd : d.Closable grid size table limit) (hup : grid.up epoch = .ok limit) (h₀ : 0 ≤ limit)
    (hclosed : Closed grid size table epoch upTo faulted d d₁) (hempty : Emptied grid size table upTo d₁ d₂ expired)
    (i : Nat) : d₂.Overdue upTo i ↔ d.Stranded upTo limit i := by
  cases hget : d₁.parts.get? i with
  | none =>
    constructor
    · rintro ⟨p, hp, -⟩
      obtain ⟨p₁, ns, hp₁, -⟩ := hempty.ended i p hp
      rw [hget] at hp₁
      cases hp₁
    · rintro ⟨-, -, -, p, hp, -⟩
      obtain ⟨p₁, hp₁⟩ := (hclosed.coherent.packed i).2 (hclosed.count_eq ▸ (hd.sound.packed i).1 ⟨p, hp⟩)
      rw [hget] at hp₁
      cases hp₁
  | some p₁ =>
    obtain ⟨p, hp, hc⟩ := hclosed.closed i p₁ hget
    by_cases hlisted : ∀ k : Nat, (k : Int) ≤ upTo → i ∉ d₁.queue.entry k
    · have hsame := (hempty.others i hlisted).trans hget
      rw [← hc.overdue_iff hd hup h₀ hp fun k hk hin => hlisted k hk ((hclosed.listed i k).2 hin)]
      refine ⟨?_, fun h => ⟨p₁, hsame, h⟩⟩
      rintro ⟨p₂, hp₂, h⟩
      obtain rfl := Option.some.inj (hsame.symm.trans hp₂)
      exact h
    · push Not at hlisted
      obtain ⟨k, hk, hin⟩ := hlisted
      constructor
      · rintro ⟨p₂, hp₂, j, n, hj, hn⟩
        exact absurd (hempty.settled i k hk hin p₂ hp₂ j n hn) (Int.not_lt.2 hj)
      · intro hs
        exact absurd ((hclosed.listed i k).1 hin) (hc.not_awaiting hp hs hk)

/-- **A deadline can be closed.** What is left is settled, and no more pledge is released than was due. -/
theorem Closable.close (hu : 0 < grid.unit) (hd : d.Closable grid size table limit) (hup : grid.up epoch = .ok limit)
    (h₀ : 0 ≤ limit) (hle : 0 ≤ upTo) (hr : Epoch.InRange upTo) : ∃ d₁ ended d₂ expired,
    d.processEnd grid epoch = .ok (d₁, ended) ∧ d₁.popExpired upTo = .ok (d₂, expired) ∧ d₂.validate = .ok () ∧
      expired.pledge ≤ d.duePledge table upTo ∧ Settled grid size table upTo limit d d₂ := by
  obtain ⟨d₁, ended, faulted, hend, hclosed⟩ := processEnd_total hu hd hup h₀ upTo
  have hnonneg : d₁.Nonneg size table := fun i p' hp' => by
    obtain ⟨p, hp, hc⟩ := hclosed.closed i p' hp'
    exact (hd.nonneg i p hp).mono fun n hn => hc.keeps.liveSectors_eq ▸ hn
  have hfits : d₁.Fits := ⟨hclosed.count_eq ▸ hd.fits.1, hclosed.total_eq ▸ hd.fits.2⟩
  have hknown : ∀ k i, i ∈ d₁.queue.entry k → i < d₁.parts.count := fun k i hi => by
    rw [hclosed.count_eq]
    rcases (hclosed.listed i k).1 hi with hi | ⟨hi, -⟩
    · exact hd.sound.known k i hi
    · exact hclosed.faulted_lt i hi
  have hidle : d₁.Idle := fun i p' hp' => by
    obtain ⟨p, -, hc⟩ := hclosed.closed i p' hp'
    exact ⟨hc.settled.1, hc.settled.2.1⟩
  obtain ⟨d₂, expired, hpop, hempty⟩ :=
    popExpired_total hclosed.coherent hclosed.held hclosed.bounded hknown hnonneg hfits hidle hle hr
  refine ⟨d₁, ended, d₂, expired, hend, hpop, hempty.coherent.validate hempty.nonneg,
    hempty.pledge_le.trans hclosed.duePledge_le, hempty.coherent, fun i p hp => ?_, fun i p hi hp n hn => ?_,
    fun _ => hempty.forgotten, fun i => ?_⟩
  · obtain ⟨-, -, -, -, hidle⟩ := hempty.ended i p hp
    exact hidle
  · obtain ⟨p₁, ns, hp₁, hended, -⟩ := hempty.ended i p hp
    obtain ⟨_, -, hc⟩ := hclosed.closed i p₁ hp₁
    obtain ⟨hn, hnew⟩ := NumberSet.mem_sdiff.1 (hended.liveSectors_eq ▸ hn)
    rw [hended.faults_eq]
    exact NumberSet.mem_sdiff.2 ⟨hc.settled.2.2 hi n hn, hnew⟩
  · exact Emptied.overdue_iff hd hup h₀ hclosed hempty i

/-- A deadline without live sectors is settled as it is. -/
theorem Coherent.settled (hd : d.Coherent grid size table) (hlive : d.live = 0) (upTo limit : Int) :
    Settled grid size table upTo limit d d := by
  have hnone : ∀ i p, d.parts.get? i = some p → ∀ n, n ∉ p.liveSectors := fun i p hp => by
    have hle := le_total (f := fun p : Partition => (p.liveSectors.count : Int)) (fun _ => Int.natCast_nonneg _) hp
    rw [← hd.live_eq, hlive] at hle
    exact NumberSet.eq_empty_iff.1 (NumberSet.count_eq_zero_iff.1 (by omega))
  have hplace : ∀ i p, d.parts.get? i = some p → ∀ (k : Nat) n, n ∉ (p.queue.entry k).members := fun i p hp k n hn =>
    hnone i p hp n (((hd.sound i p hp).live_iff n).2 ⟨k, hn⟩)
  refine ⟨hd, fun i p hp => ⟨?_, ?_⟩, fun i p _ hp n hn => absurd hn (hnone i p hp n), fun h => absurd hlive h,
    fun i => ⟨?_, ?_⟩⟩
  · exact NumberSet.eq_empty_iff.2 fun n hn => hnone i p hp n ((hd.sound i p hp).unproven_live n hn)
  · exact NumberSet.eq_empty_iff.2 fun n hn =>
      hnone i p hp n ((hd.sound i p hp).faults_live n ((hd.sound i p hp).recoveries_faults n hn))
  · rintro ⟨p, hp, k, n, -, hn⟩
    exact absurd hn (hplace i p hp k n)
  · rintro ⟨-, -, -, p, hp, -, -, k, n, -, hn⟩
    exact absurd (ExpirationSet.mem_members.2 (.inl hn)) (hplace i p hp k n)

end SectorLedger.Deadline
