import SectorLedger.Audit.Deadline
import SectorLedger.Proofs.Audit.Partition
import SectorLedger.Proofs.Deadline.Operation

/-!
# Deadlines in which an audit finds nothing

The audit of a deadline walks through the partitions once, and compares what it has collected with the totals, the queue
and the sets of the deadline. Its test of the record of proofs lets the first index past the last partition pass.

* `Deadline.Accurate`: what is true of a deadline.
* `Audit.Surveyed`: what the walk has collected. `Surveyed.step`: one partition more.
* `Deadline.accurate_of_clean_deadlineState`: an audit without findings, and how far its test of the record of proofs
  goes.
-/

namespace SectorLedger

open NumberSet

variable {grid : Grid} {size : SectorSize} {table : SectorTable}

/-- A deadline whose partitions are accurate and agree with its totals, its sets and its queue. -/
structure Deadline.Accurate (grid : Grid) (size : SectorSize) (table : SectorTable) (d : Deadline) : Prop where
  /-- The partitions are there. -/
  held : d.partitions = .held d.parts
  /-- They are numbered from zero without gaps. -/
  indices_eq : d.parts.indices = List.range d.parts.count
  /-- Each partition is accurate. -/
  accurate : ∀ i p, d.parts.get? i = some p → p.Accurate grid size table
  /-- No sector is in two partitions. -/
  apart : ∀ i j p p' n, d.parts.get? i = some p → d.parts.get? j = some p' → n ∈ p.sectors → n ∈ p'.sectors → i = j
  /-- The number of live sectors. -/
  live_eq : (d.live : Int) = SparseArray.total (fun p => (p.liveSectors.count : Int)) d.parts
  /-- The number of all sectors. -/
  total_eq : (d.total : Int) = SparseArray.total (fun p => (p.sectors.count : Int)) d.parts
  /-- The power of the faulty sectors. -/
  faultyPower_eq : d.faultyPower = SparseArray.total (fun p => p.faults.total (table.powerAt size)) d.parts
  /-- The partitions that have terminations to settle. -/
  early_iff : ∀ i, i ∈ d.early ↔ ∃ p, d.parts.get? i = some p ∧ p.Unsettled
  /-- A partition is listed at each epoch of its own queue. -/
  listed : ∃ listing, d.expirations = .held listing ∧ ∀ i p q k e, d.parts.get? i = some p → p.expirations = .held q →
    q.get? k = some e → k ≤ SparseArray.greatestIndex → ∃ ns, listing.get? k = some ns ∧ i ∈ ns

namespace Audit

/-! ### Groups by epoch -/

/-- The number is filed under the epoch. -/
def Filed (groups : List (Int × List Nat)) (epoch : Int) (i : Nat) : Prop := ∃ g ∈ groups, g.1 = epoch ∧ i ∈ g.2

theorem filed_fileByEpoch {groups : List (Int × List Nat)} {epoch epoch' : Int} {i j : Nat} :
    Filed (fileByEpoch epoch i groups) epoch' j ↔ epoch' = epoch ∧ j = i ∨ Filed groups epoch' j := by
  unfold Filed
  fun_induction fileByEpoch epoch i groups with
  | case1 => simp [eq_comm]
  | case2 e as rest hlt => simp [eq_comm]
  | case3 as rest hlt =>
    simp only [List.exists_mem_cons_iff, List.mem_append, List.mem_singleton]
    grind
  | case4 e as rest hlt hne ih =>
    simp only [List.exists_mem_cons_iff, ih]
    tauto

theorem filed_foldl {epochs : List Int} {groups : List (Int × List Nat)} {epoch : Int} {i j : Nat} :
    Filed (epochs.foldl (fun groups epoch => fileByEpoch epoch i groups) groups) epoch j ↔
      (epoch ∈ epochs ∧ j = i) ∨ Filed groups epoch j := by
  induction epochs generalizing groups with
  | nil => simp
  | cons e epochs ih =>
    rw [List.foldl_cons, ih, filed_fileByEpoch, List.mem_cons]
    tauto

/-! ### The partitions -/

/-- What the walk through the partitions has collected. -/
structure Surveyed (grid : Grid) (size : SectorSize) (table : SectorTable) (done : List (Nat × Partition))
    (seen : Seen) : Prop where
  /-- The partitions are numbered from zero. -/
  indices_eq : done.map (·.1) = List.range done.length
  /-- They are counted. -/
  count_eq : seen.count = done.length
  /-- Each is accurate. -/
  accurate : ∀ e ∈ done, e.2.Accurate grid size table
  /-- They share no sector. -/
  apart : done.Pairwise fun e e' => ∀ n ∈ e.2.sectors, n ∉ e'.2.sectors
  /-- Their sectors are united. -/
  mem_all : ∀ n, n ∈ seen.summary.all ↔ ∃ e ∈ done, n ∈ e.2.sectors
  /-- So are the live ones. -/
  mem_live : ∀ n, n ∈ seen.summary.live ↔ ∃ e ∈ done, n ∈ e.2.liveSectors
  /-- The number of all sectors. -/
  count_all : (seen.summary.all.count : Int) = (done.map fun e => (e.2.sectors.count : Int)).sum
  /-- The number of live sectors. -/
  count_live : (seen.summary.live.count : Int) = (done.map fun e => (e.2.liveSectors.count : Int)).sum
  /-- The faulty power is added up. -/
  faultyPower_eq : seen.summary.faultyPower = (done.map fun e => e.2.faultyPower).sum
  /-- The partitions with terminations to settle. -/
  early_iff : ∀ i, i ∈ seen.early ↔ ∃ p, (i, p) ∈ done ∧ p.Unsettled
  /-- Each partition is filed under the epochs of its queue. -/
  filed : ∀ e ∈ done, ∀ q, e.2.expirations = .held q → ∀ k ∈ q.indices, Filed seen.expiring (Count.toEpoch k) e.1

theorem surveyed_nil : Surveyed grid size table [] {} where
  indices_eq := rfl
  count_eq := rfl
  accurate e he := absurd he List.not_mem_nil
  apart := .nil
  mem_all n := by simp
  mem_live n := by simp
  count_all := rfl
  count_live := rfl
  faultyPower_eq := rfl
  early_iff i := by simp
  filed e he := absurd he List.not_mem_nil

/-- What is checked about one partition, and what is collected. -/
theorem of_clean_deadlinePartition {seen seen' : Seen} {i : Nat} {p : Partition}
    (h : Clean (deadlinePartition grid size table seen (i, p)) seen') :
    i = seen.count ∧ ∃ part, Clean (partitionState grid size table p) part ∧
      (∀ n ∈ part.all, n ∉ seen.summary.all) ∧ seen' = {
        count := seen.count + 1
        summary := seen.summary.add part
        expiring := part.epochs.foldl (fun groups epoch => fileByEpoch epoch i groups) seen.expiring
        early := if part.earlyCount > 0 then seen.early ∪ NumberSet.singleton i else seen.early } := by
  simp only [deadlinePartition, clean_bind, clean_expect, clean_under, beq_iff_eq, clean_pure] at h
  obtain ⟨_, hi, part, ⟨_, hpart, _, hnew, rfl⟩, rfl⟩ := h
  rw [Bool.not_eq_true', ← Bool.not_eq_true, containsAny_iff] at hnew
  exact ⟨hi, _, hpart, fun n hn hn' => hnew ⟨n, hn, hn'⟩, rfl⟩

/-- One partition more. -/
theorem Surveyed.step {done : List (Nat × Partition)} {seen seen' : Seen} {e : Nat × Partition}
    (h : Surveyed grid size table done seen) (hclean : Clean (deadlinePartition grid size table seen e) seen') :
    Surveyed grid size table (done ++ [e]) seen' := by
  obtain ⟨i, p⟩ := e
  obtain ⟨hi, part, hpart, hnew, rfl⟩ := of_clean_deadlinePartition hclean
  obtain ⟨haccurate, hall, hlive, hfaulty, ⟨q, hq, hepochs⟩, hunsettled⟩ := Partition.accurate_of_clean hpart
  rw [hall] at hnew
  have hfresh : ∀ e ∈ done, ∀ n ∈ e.2.sectors, n ∉ p.sectors := fun e he n hn hn' =>
    hnew n hn' ((h.mem_all n).2 ⟨e, he, hn⟩)
  refine ⟨?_, ?_, ?_, ?_, fun n => ?_, fun n => ?_, ?_, ?_, ?_, fun j => ?_, ?_⟩
  · rw [List.map_append, h.indices_eq, List.length_append, List.length_singleton, List.range_succ, List.map_singleton,
      hi, h.count_eq]
  · rw [h.count_eq, List.length_append, List.length_singleton]
  · exact List.forall_mem_append.2 ⟨h.accurate, List.forall_mem_singleton.2 haccurate⟩
  · refine List.pairwise_append.2 ⟨h.apart, List.pairwise_singleton _ _, fun e he e' he' => ?_⟩
    obtain rfl := List.mem_singleton.1 he'
    exact hfresh e he
  · show n ∈ seen.summary.all ∪ part.all ↔ _
    rw [mem_union, h.mem_all, hall]
    simp [or_and_right, exists_or]
  · show n ∈ seen.summary.live ∪ part.live ↔ _
    rw [mem_union, h.mem_live, hlive]
    simp [or_and_right, exists_or]
  · show ((seen.summary.all ∪ part.all).count : Int) = _
    rw [hall, count_union fun n hn hn' => hnew n hn' hn, Nat.cast_add, h.count_all, List.map_append, List.sum_append,
      List.map_singleton, List.sum_singleton]
  · show ((seen.summary.live ∪ part.live).count : Int) = _
    rw [hlive, count_union fun n hn hn' => ?_, Nat.cast_add, h.count_live, List.map_append, List.sum_append,
      List.map_singleton, List.sum_singleton]
    obtain ⟨e, he, hn⟩ := (h.mem_live n).1 hn
    exact hfresh e he n (mem_sdiff.1 hn).1 (mem_sdiff.1 hn').1
  · show seen.summary.faultyPower + part.faultyPower = _
    rw [hfaulty, h.faultyPower_eq, List.map_append, List.sum_append, List.map_singleton, List.sum_singleton]
  · show j ∈ (if part.earlyCount > 0 then seen.early ∪ NumberSet.singleton i else seen.early) ↔ _
    by_cases hsome : 0 < part.earlyCount
    · rw [if_pos hsome, mem_union, h.early_iff, mem_singleton]
      have := hunsettled.1 hsome
      simp only [List.mem_append, List.mem_singleton, Prod.mk.injEq]
      grind
    · rw [if_neg hsome, h.early_iff]
      have := mt hunsettled.2 hsome
      simp only [List.mem_append, List.mem_singleton, Prod.mk.injEq]
      grind
  · refine List.forall_mem_append.2 ⟨fun e he q' hq' k hk => ?_, List.forall_mem_singleton.2 fun q' hq' k hk => ?_⟩
    · exact filed_foldl.2 (.inr (h.filed e he q' hq' k hk))
    · obtain rfl := Stored.held.inj (hq.symm.trans hq')
      exact filed_foldl.2 (.inl ⟨hepochs ▸ List.mem_map_of_mem hk, rfl⟩)

/-- What is checked about the queue at one epoch. -/
theorem of_clean_listedAt {listing : NumberQueue} {epoch : Int} {indices : List Nat} {u : Unit}
    (h : Clean (listedAt listing epoch indices) u) :
    ∃ ns, listing.get? (Epoch.toCount epoch) = some ns ∧ ∀ i ∈ indices, i ∈ ns := by
  simp only [listedAt, clean_attempt, SparseArray.read_eq_ok] at h
  obtain ⟨o, ⟨-, ho⟩, h⟩ := h
  cases o with
  | none => exact absurd h not_clean_note
  | some ns => exact ⟨ns, ho, fun i hi => by simpa using clean_forM.1 h i hi⟩

end Audit

/-- A key that an array has is read back from its epoch. -/
theorem Epoch.toCount_toEpoch {k : Nat} (h : k ≤ SparseArray.greatestIndex) : Epoch.toCount (Count.toEpoch k) = k := by
  unfold SparseArray.greatestIndex at h
  unfold Epoch.toCount Count.toEpoch
  split <;> omega

namespace Deadline

variable {d : Deadline} {found : DeadlineSummary}

/-- What is checked about a deadline. -/
theorem clean_deadlineState_iff : Audit.Clean (Audit.deadlineState grid size table d) found ↔
    ∃ ps seen listing, d.partitions = .held ps ∧
      Audit.Clean (ps.entries.foldlM (Audit.deadlinePartition grid size table) {}) seen ∧
      (∀ i ∈ d.posted, i ≤ seen.count) ∧
      d.live = seen.summary.live.count ∧ d.total = seen.summary.all.count ∧ d.faultyPower = seen.summary.faultyPower ∧
      d.expirations = .held listing ∧ (∀ g ∈ seen.expiring, Audit.Clean (Audit.listedAt listing g.1 g.2) ()) ∧
      seen.early = d.early ∧ seen.summary = found := by
  simp only [Audit.deadlineState, Audit.deadlineTotals, Audit.clean_attempt, loadPartitions_eq_ok, Audit.clean_bind,
    Audit.clean_forM, Audit.clean_expect, mem_elements, decide_eq_true_eq, beq_iff_eq, Stored.load_eq_ok,
    Audit.clean_expectEqual, Audit.clean_pure]
  constructor
  · rintro ⟨ps, hps, seen, hseen, _, hposted, _, ⟨_, hlive, _, htotal, hfaulty⟩, _, ⟨listing, hlisting, hlisted⟩, _,
      hearly, hfound⟩
    exact ⟨ps, seen, listing, hps, hseen, hposted, hlive, htotal, hfaulty, hlisting, hlisted, hearly, hfound⟩
  · rintro ⟨ps, seen, listing, hps, hseen, hposted, hlive, htotal, hfaulty, hlisting, hlisted, hearly, hfound⟩
    exact ⟨ps, hps, seen, hseen, (), hposted, (), ⟨(), hlive, (), htotal, hfaulty⟩, (), ⟨listing, hlisting, hlisted⟩,
      (), hearly, hfound⟩

/-- A sum over the entries of an array is the total over its values. -/
theorem sum_entries {M : Type} [AddCommGroup M] (f : Partition → M) (ps : SparseArray Partition) :
    (ps.entries.map fun e => f e.2).sum = SparseArray.total f ps := by
  rw [SparseArray.total, SparseArray.values, List.map_map]
  rfl

/-- **A deadline without findings** is accurate, and its record of proofs names no index beyond the first past the last
partition. That one index is not found: every record up to it passes. -/
theorem accurate_of_clean_deadlineState (h : (Audit.deadlineState grid size table d).run = .ok ([], found)) :
    d.Accurate grid size table ∧
    (table.Keyed → ∀ i p q k e, d.parts.get? i = some p → p.expirations = .held q → q.get? k = some e →
      e.Exact size table p.faults) ∧
    (∀ i ∈ d.posted, i ≤ d.parts.count) ∧
    ∀ posted : NumberSet, (∀ i ∈ posted, i ≤ d.parts.count) →
      (Audit.deadlineState grid size table { d with posted }).run = .ok ([], found) := by
  obtain ⟨ps, seen, listing, hps, hseen, hposted, hlive, htotal, hfaulty, hlisting, hlisted, hearly, rfl⟩ :=
    clean_deadlineState_iff.1 h
  obtain rfl := parts_eq hps
  have hall : Audit.Surveyed grid size table d.parts.entries seen :=
    Audit.clean_foldlM (I := Audit.Surveyed grid size table) hseen Audit.surveyed_nil
      fun done e rest c c' _ hI hstep => hI.step hstep
  have hmem : ∀ {i p}, d.parts.get? i = some p → (i, p) ∈ d.parts.entries := fun hp => SparseArray.mem_entries.2 hp
  have haccurate : ∀ i p, d.parts.get? i = some p → p.Accurate grid size table := fun i p hp =>
    hall.accurate _ (hmem hp)
  have hcount : seen.count = d.parts.count := hall.count_eq
  rw [hcount] at hposted
  refine ⟨⟨hps, hall.indices_eq, haccurate, fun i j p p' n hp hp' => ?apart, ?live, ?total, ?faulty, fun i => ?early,
    listing, hlisting, fun i p q k e hp hq he hk => ?listed⟩, fun hkeyed i p q k e hp hq he => ?exact, hposted,
    fun posted hle => ?slip⟩
  case apart => exact SparseArray.eq_of_shared Partition.sectors hall.apart hp hp'
  case live => rw [hlive, hall.count_live, sum_entries fun p => (p.liveSectors.count : Int)]
  case total => rw [htotal, hall.count_all, sum_entries fun p => (p.sectors.count : Int)]
  case faulty =>
    rw [hfaulty, hall.faultyPower_eq, ← sum_entries]
    exact congrArg List.sum (List.map_congr_left fun e he => (hall.accurate e he).faultyPower_eq)
  case early =>
    rw [← hearly, hall.early_iff]
    exact exists_congr fun p => and_congr_left fun _ => SparseArray.mem_entries
  case listed =>
    obtain ⟨g, hg, hepoch, hi⟩ := hall.filed (i, p) (hmem hp) q hq k (SparseArray.mem_indices.2 ⟨e, he⟩)
    obtain ⟨ns, hns, hin⟩ := Audit.of_clean_listedAt (hlisted g hg)
    rw [hepoch, Epoch.toCount_toEpoch hk] at hns
    exact ⟨ns, hns, hin i hi⟩
  case exact => exact (haccurate i p hp).exact_of_keyed hkeyed hq he
  case slip =>
    refine clean_deadlineState_iff.2 ⟨d.parts, seen, listing, hps, hseen, fun i hi => ?_, hlive, htotal, hfaulty,
      hlisting, hlisted, hearly, rfl⟩
    rw [hcount]
    exact hle i hi

/-- Three sectors in two partitions, of which the first is full. -/
def threeSectors : List Sector :=
  [{ number := 5, expiration := 60 }, { number := 7, expiration := 60, pledge := 3 }, { number := 8, expiration := 95 }]

/-- A new deadline has got them. -/
def twoPartitions : Outcome (Deadline × Power) := Deadline.addSectors ⟨40, 29⟩ .kib2 {} 2 true threeSectors

/-- The audit finds nothing in a deadline with two partitions, not even if its record says that a third one was
proven. -/
theorem accurate_of_twoPartitions : ∃ d w found, twoPartitions = .ok (d, w) ∧
    (Audit.deadlineState ⟨40, 29⟩ .kib2 (.ofList threeSectors) d).run = .ok ([], found) ∧
    d.Accurate ⟨40, 29⟩ .kib2 (.ofList threeSectors) ∧ d.parts.count = 2 ∧
    (Audit.deadlineState ⟨40, 29⟩ .kib2 (.ofList threeSectors) { d with posted := NumberSet.singleton 2 }).run =
      .ok ([], found) := by
  have hrun : (do
      let r ← twoPartitions
      let a ← (Audit.deadlineState ⟨40, 29⟩ .kib2 (.ofList threeSectors) r.1).run
      return (a.1, r.1.parts.count)) = .ok ([], 2) := by decide +kernel
  simp only [bind_eq_ok, pure_eq_ok, Prod.mk.injEq] at hrun
  obtain ⟨⟨d, w⟩, hadd, ⟨findings, found⟩, hclean, rfl, hcount⟩ := hrun
  obtain ⟨haccurate, -, -, hslip⟩ := accurate_of_clean_deadlineState hclean
  refine ⟨d, w, found, hadd, hclean, haccurate, hcount, hslip _ fun i hi => ?_⟩
  rw [mem_singleton.1 hi, hcount]

end Deadline

end SectorLedger
