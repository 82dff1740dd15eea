import SectorLedger.Proofs.Assignment.Greedy
import Mathlib.Algebra.BigOperators.Group.Finset.Basic
import Mathlib.Algebra.Order.BigOperators.Group.List
import Mathlib.Algebra.Order.Group.Nat
import Mathlib.Data.List.GetD
import Mathlib.Data.List.MinMax
import Mathlib.Order.Nat

/-!
# The fullest deadline

Compaction leaves a deadline with as few partitions as its live sectors need. No way to give out the same number of
sectors leaves the deadline with the most of these with fewer than the assignment does, although what each deadline
may get is told by all of its sectors, and not by the live ones.

* `peak`: the most partitions that a deadline needs. `Distribution`: a way to give out sectors within the room there is.
* `Greedy.distribution`: greedily chosen targets are one.
* `le_count_of_lt`: what another way would have to do to need fewer.
* `Greedy.le_peak`: greedily chosen targets. `assignDeadlines_le_peak`: the whole assignment.
-/

namespace SectorLedger

open Candidate

variable {limits : AssignmentLimits} {cs : List Candidate} {c d : Candidate} {ts : List Nat} {k : Nat → Nat} {n : Nat}

/-- The partitions that a deadline's live sectors need, with some sectors more. -/
def Candidate.compactPartitions (limits : AssignmentLimits) (more : Nat) (c : Candidate) : Nat :=
  ceilDiv (c.live + more) limits.partitionSize

/-- The most partitions that any deadline needs for its live sectors, once the deadlines with the given indices have
got so many sectors. -/
def peak (limits : AssignmentLimits) (cs : List Candidate) (k : Nat → Nat) : Nat :=
  (cs.map fun c => c.compactPartitions limits (k c.index)).foldr max 0

theorem le_peak (hc : c ∈ cs) : c.compactPartitions limits (k c.index) ≤ peak limits cs k :=
  List.le_max_of_le (List.mem_map.2 ⟨c, hc, rfl⟩) (Nat.le_refl _)

theorem peak_le {m : Nat} (h : ∀ c ∈ cs, c.compactPartitions limits (k c.index) ≤ m) : peak limits cs k ≤ m := by
  refine List.max_le_of_forall_le _ m fun r hr => ?_
  obtain ⟨c, hc, rfl⟩ := List.mem_map.1 hr
  exact h c hc

/-- A way to give so many sectors to deadlines: all are given out, and no deadline gets more than it has room for. -/
structure Distribution (limits : AssignmentLimits) (cs : List Candidate) (n : Nat) (k : Nat → Nat) : Prop where
  /-- Each deadline has room for what it gets. -/
  within : ∀ c ∈ cs, k c.index ≤ c.room limits
  /-- All sectors are given out. -/
  sum_eq : (cs.map fun c => k c.index).sum = n

/-- The first of two candidates with room needs no more partitions for its next sector than the other. -/
theorem Candidate.Before.compact_le (hs : limits.Sensible) (hc : c.Countable) (hd : d.Countable)
    (h : Before limits c d) (hroom : d.total < limits.capacity) :
    ceilDiv (c.live + 1) limits.partitionSize ≤ ceilDiv (d.live + 1) limits.partitionSize := by
  rw [before_iff hs hc hd] at h
  by_contra hlt
  have hgt : compare (ceilDiv (c.live + 1) limits.partitionSize) (ceilDiv (d.live + 1) limits.partitionSize) = .gt :=
    Nat.compare_eq_gt.2 (Nat.lt_of_not_le hlt)
  rw [key, key, List.compare_cons_cons, List.compare_cons_cons, hgt, decide_eq_false (Nat.not_le_of_lt hroom)] at h
  by_cases hfull : limits.capacity ≤ c.total
  · rw [decide_eq_true hfull, show compare true.toNat false.toNat = .gt from rfl] at h
    simp at h
  · rw [decide_eq_false hfull, show compare false.toNat false.toNat = .eq from rfl] at h
    simp at h

/-- Greedily chosen targets stay within the room. -/
theorem Greedy.count_le_room (hnodup : (cs.map (·.index)).Nodup) (h : Greedy limits cs ts) (hd : d ∈ cs) :
    ts.count d.index ≤ d.room limits := by
  induction h with
  | nil => exact Nat.zero_le _
  | @snoc ts c _ hc hroom _ ih =>
    by_cases heq : d.index = c.index
    · obtain rfl := List.inj_on_of_nodup_map hnodup hd hc heq
      simp only [after, grown] at hroom
      rw [List.count_append, List.count_singleton_self]
      unfold room
      omega
    · rwa [List.count_append, List.count_singleton, beq_eq_false_iff_ne.2 (Ne.symm heq)]

/-- Greedily chosen targets are candidates. -/
theorem Greedy.mem_indices (h : Greedy limits cs ts) : ∀ t ∈ ts, t ∈ cs.map (·.index) := by
  induction h with
  | nil => exact fun t ht => absurd ht List.not_mem_nil
  | snoc _ hc _ _ ih => exact List.forall_mem_append.2 ⟨ih, List.forall_mem_singleton.2 (List.mem_map_of_mem hc)⟩

/-- Greedily chosen targets give out a sector each, within the room. -/
theorem Greedy.distribution (hnodup : (cs.map (·.index)).Nodup) (h : Greedy limits cs ts) :
    Distribution limits cs ts.length ts.count where
  within c hc := h.count_le_room hnodup hc
  sum_eq := by
    calc (cs.map fun c => ts.count c.index).sum
      _ = ((cs.map (·.index)).map ts.count).sum := by
        rw [List.map_map]
        rfl
      _ = ∑ i ∈ (cs.map (·.index)).toFinset, ts.count i := (List.sum_toFinset _ hnodup).symm
      _ = ∑ i ∈ (cs.map (·.index)).toFinset, Multiset.count i ts := by simp only [Multiset.coe_count]
      _ = Multiset.card (ts : Multiset Nat) :=
        Multiset.sum_count_eq_card fun t ht => List.mem_toFinset.2 (h.mem_indices t ht)
      _ = ts.length := Multiset.coe_card ts

theorem Greedy.countable (hnodup : (cs.map (·.index)).Nodup) (hfits : ∀ c ∈ cs, c.Fits limits n)
    (h : Greedy limits cs ts) (hlen : ts.length ≤ n) (hd : d ∈ cs) : (d.after ts).Countable := by
  have hroom := h.count_le_room hnodup hd
  have hcount : ts.count d.index ≤ ts.length := List.count_le_length
  obtain ⟨hlive, htotal⟩ := hfits d hd
  constructor <;> simp only [after, grown] <;> omega

/-- If a way to give out sectors needs fewer partitions than the next sector of the first candidate `c` would, then it
gives no deadline more than it has got: one without room can get no more, and any other needs as many partitions as `c`
for its next sector. -/
theorem le_count_of_lt (hs : limits.Sensible) (hc : (c.after ts).Countable) (hd : (d.after ts).Countable)
    (first : d ≠ c → Before limits (c.after ts) (d.after ts))
    (hk : k d.index ≤ d.room limits)
    (hlt : d.compactPartitions limits (k d.index) < ceilDiv ((c.after ts).live + 1) limits.partitionSize) :
    k d.index ≤ ts.count d.index := by
  by_cases hfull : limits.capacity ≤ (d.after ts).total
  · simp only [after, grown] at hfull
    unfold room at hk
    omega
  · have hle : ceilDiv ((c.after ts).live + 1) limits.partitionSize ≤
        ceilDiv ((d.after ts).live + 1) limits.partitionSize := by
      by_cases heq : d = c
      · rw [heq]
      · exact (first heq).compact_le hs hc hd (Nat.lt_of_not_le hfull)
    by_contra hmore
    have hfewer : (d.after ts).live + 1 ≤ d.live + k d.index := by
      simp only [after, grown]
      omega
    exact Nat.lt_irrefl _ (Nat.lt_of_lt_of_le hlt (Nat.le_trans hle (ceilDiv_mono hs.partitionSize_pos hfewer)))

/-- **Greedily chosen targets need as few partitions as can be.** By induction on the targets: were the last one to need
more partitions than another way does, that way would give out fewer sectors. -/
theorem Greedy.le_peak (hs : limits.Sensible) (hnodup : (cs.map (·.index)).Nodup) (hfits : ∀ c ∈ cs, c.Fits limits n)
    (h : Greedy limits cs ts) (hlen : ts.length ≤ n) (hk : ∀ c ∈ cs, k c.index ≤ c.room limits)
    (hsum : ts.length ≤ (cs.map fun c => k c.index).sum) : peak limits cs ts.count ≤ peak limits cs k := by
  induction h with
  | nil =>
    refine peak_le fun c hc => Nat.le_trans (ceilDiv_mono hs.partitionSize_pos ?_) (SectorLedger.le_peak hc)
    exact Nat.add_le_add_left (Nat.zero_le _) _
  | @snoc ts c hgreedy hc _ first ih =>
    rw [List.length_append, List.length_singleton] at hlen hsum
    have hbefore := ih (Nat.le_of_succ_le hlen) (Nat.le_of_succ_le hsum)
    have hcountable : ∀ d ∈ cs, (d.after ts).Countable := fun d hd =>
      hgreedy.countable hnodup hfits (Nat.le_of_succ_le hlen) hd
    refine peak_le fun d hd => ?_
    by_cases heq : d.index = c.index
    · obtain rfl := List.inj_on_of_nodup_map hnodup hd hc heq
      by_contra hlt
      have hlt : peak limits cs k < ceilDiv ((d.after ts).live + 1) limits.partitionSize := by
        rw [compactPartitions, List.count_append, List.count_singleton_self] at hlt
        exact Nat.lt_of_not_le hlt
      have hnone : ∀ e ∈ cs, k e.index ≤ ts.count e.index := fun e he =>
        le_count_of_lt hs (hcountable d hd) (hcountable e he) (first e he) (hk e he)
          (Nat.lt_of_le_of_lt (SectorLedger.le_peak he) hlt)
      have htoofew := calc (cs.map fun e => k e.index).sum
        _ ≤ (cs.map fun e => ts.count e.index).sum := List.sum_le_sum hnone
        _ = ts.length := (hgreedy.distribution hnodup).sum_eq
      omega
    · rw [List.count_append, List.count_singleton, beq_eq_false_iff_ne.2 (Ne.symm heq)]
      exact Nat.le_trans (SectorLedger.le_peak (k := ts.count) hd) hbefore

variable {policy : Policy} {deadlines : List (Option Deadline)} {ss : List Sector} {assigned : List (List Sector)}

/-- **An assignment needs as few partitions as can be.** It gives all sectors to the open deadlines, each of them no more
than it has room for, and no other way to do so leaves the deadline that needs the most partitions with fewer. -/
theorem assignDeadlines_le_peak (hs : limits.Sensible) (hfits : ∀ c ∈ candidates deadlines, c.Fits limits ss.length)
    (h : assignDeadlines policy limits deadlines ss = .ok assigned) :
    Distribution limits (candidates deadlines) ss.length (fun i => (assigned.getD i []).length) ∧
      ∀ k, Distribution limits (candidates deadlines) ss.length k →
        peak limits (candidates deadlines) (fun i => (assigned.getD i []).length) ≤
          peak limits (candidates deadlines) k := by
  obtain ⟨ts, hgreedy, hlength, hn, rfl⟩ := greedy_of_ok hs hfits h
  have hcount : (fun i => ((deal policy.deadlines ss ts).getD i []).length) = ts.count := funext fun i => by
    by_cases hi : i < policy.deadlines
    · rw [List.getD_eq_getElem?_getD, getElem?_deal hi, Option.getD_some, length_dealtTo hlength]
    · rw [List.getD_eq_default _ _ (by rw [length_deal]; omega),
        List.count_eq_zero_of_not_mem fun hmem => hi (hn i hmem)]
      rfl
  rw [hcount, ← hlength]
  refine ⟨hgreedy.distribution (nodup_candidates deadlines), fun k hk => ?_⟩
  exact hgreedy.le_peak hs (nodup_candidates deadlines) hfits (Nat.le_of_eq hlength) hk.within (Nat.le_of_eq hk.sum_eq.symm)

/-- The third deadline, which has as many partitions as the first one, would need one more. -/
theorem le_peak_sampleOpen :
    let policy := { Policy.devnet with deadlines := 4 }
    let ss : List Sector := [{ number := 7 }]
    let k : Nat → Nat := fun i => if i = 2 then 1 else 0
    sampleLimits.Sensible ∧ (∀ c ∈ candidates sampleOpen, c.Fits sampleLimits ss.length) ∧
    Distribution sampleLimits (candidates sampleOpen) ss.length k ∧
    ∃ assigned, assignDeadlines policy sampleLimits sampleOpen ss = .ok assigned ∧
      Distribution sampleLimits (candidates sampleOpen) ss.length (fun i => (assigned.getD i []).length) ∧
      peak sampleLimits (candidates sampleOpen) k = 2 ∧
      peak sampleLimits (candidates sampleOpen) (fun i => (assigned.getD i []).length) ≤
        peak sampleLimits (candidates sampleOpen) k := by
  intro policy ss k
  have hs : sampleLimits.Sensible := ⟨by decide, by decide⟩
  have hfits : ∀ c ∈ candidates sampleOpen, c.Fits sampleLimits ss.length := by decide
  have hk : Distribution sampleLimits (candidates sampleOpen) ss.length k := ⟨by decide, by decide⟩
  have hok : assignDeadlines policy sampleLimits sampleOpen ss = .ok [[{ number := 7 }], [], [], []] := by
    decide +kernel
  obtain ⟨hgiven, hleast⟩ := assignDeadlines_le_peak hs hfits hok
  exact ⟨hs, hfits, hk, _, hok, hgiven, by decide, hleast k hk⟩

end SectorLedger
