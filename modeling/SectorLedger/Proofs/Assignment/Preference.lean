import SectorLedger.Assignment
import SectorLedger.Proofs.Outcome
import Mathlib.Order.RelClasses

/-!
# The order of preference

Which of two deadlines gets the next sector is decided by seven comparisons, one of them made only where both
deadlines have a partition to fill. Each comparison is one of numbers, so the order is the lexicographic order of
lists of numbers, and a strict total one.

* `Candidate.key`: the numbers.
* `preference_eq`: the order of preference is the order of the keys.
* `key_injective`: no two candidates have one key, so a tie is impossible.
* `isStrictTotalOrder_before`: what follows.
-/

namespace SectorLedger

/-- How many sectors a deadline may have. -/
def AssignmentLimits.capacity (limits : AssignmentLimits) : Nat := limits.partitionSize * limits.maxPartitions

/-- The limits allow sectors, and the capacity of a deadline is a count. -/
structure AssignmentLimits.Sensible (limits : AssignmentLimits) : Prop where
  /-- A partition holds sectors. -/
  partitionSize_pos : 0 < limits.partitionSize
  /-- The capacity is in range. -/
  capacity_lt : limits.capacity < Count.bound

theorem ceilDiv_le_iff {a b k : Nat} (hb : 0 < b) : ceilDiv a b ≤ k ↔ a ≤ k * b := by
  have hsplit : a / b * b + a % b = a := Nat.div_add_mod' a b
  have hlt : a % b < b := Nat.mod_lt a hb
  unfold ceilDiv
  by_cases hrem : 0 < a % b
  · rw [if_pos hrem]
    constructor
    · intro hle
      calc a ≤ a / b * b + b := by omega
        _ = (a / b + 1) * b := (Nat.succ_mul _ _).symm
        _ ≤ k * b := Nat.mul_le_mul_right b hle
    · intro hle
      have : a / b * b < k * b := by omega
      exact Nat.lt_of_mul_lt_mul_right this
  · rw [if_neg hrem, Nat.add_zero]
    constructor
    · intro hle
      have := Nat.mul_le_mul_right b hle
      omega
    · intro hle
      exact Nat.div_le_of_le_mul (Nat.mul_comm k b ▸ hle)

theorem ceilDiv_mono {a a' b : Nat} (hb : 0 < b) (h : a ≤ a') : ceilDiv a b ≤ ceilDiv a' b :=
  (ceilDiv_le_iff hb).2 (Nat.le_trans h ((ceilDiv_le_iff hb).1 (Nat.le_refl _)))

/-- One more than a multiple needs one more. -/
theorem ceilDiv_mul_add_one {b k : Nat} (hb : 0 < b) : ceilDiv (k * b + 1) b = k + 1 := by
  refine Nat.le_antisymm ((ceilDiv_le_iff hb).2 ?_) ?_
  · rw [Nat.succ_mul]
    omega
  · by_contra hlt
    have := (ceilDiv_le_iff hb).1 (show ceilDiv (k * b + 1) b ≤ k by omega)
    omega

namespace Candidate

variable {limits : AssignmentLimits} {a b c : Candidate}

/-- One more sector than the deadline has can be counted: the comparisons look one sector ahead. -/
structure Countable (c : Candidate) : Prop where
  /-- Live sectors. -/
  live : c.live + 1 < Count.bound
  /-- All sectors. -/
  total : c.total + 1 < Count.bound

/-- What decides between two deadlines, in order of weight. The fullest partition comes first, so what counts there
is what is missing to the bound of counts. -/
def key (limits : AssignmentLimits) (c : Candidate) : List Nat := [
  (decide (limits.capacity ≤ c.total)).toNat,
  ceilDiv (c.live + 1) limits.partitionSize,
  ceilDiv (c.total + 1) limits.partitionSize,
  (c.lastIsFull limits).toNat,
  if c.lastIsFull limits then 0 else Count.bound - c.total,
  c.live,
  c.index]

theorem isFull_eq (h : limits.Sensible) (c : Candidate) :
    c.isFull limits = .ok (decide (limits.capacity ≤ c.total)) := by
  have hmul : Count.mul limits.partitionSize limits.maxPartitions = .ok limits.capacity :=
    Count.checked_eq_ok_iff.2 ⟨h.capacity_lt, rfl⟩
  rw [isFull, hmul]
  rfl

theorem compactPartitionsAfter_eq (h : c.Countable) :
    c.compactPartitionsAfter limits = .ok (ceilDiv (c.live + 1) limits.partitionSize) := by
  rw [compactPartitionsAfter, Count.add_eq_ok.2 ⟨h.live, rfl⟩]
  rfl

theorem partitionsAfter_eq (h : c.Countable) :
    c.partitionsAfter limits = .ok (ceilDiv (c.total + 1) limits.partitionSize) := by
  rw [partitionsAfter, Count.add_eq_ok.2 ⟨h.total, rfl⟩]
  rfl

/-- What is missing to a bound is compared the other way round. -/
theorem compare_sub {m n k : Nat} (hm : m < k) (hn : n < k) : compare (k - m) (k - n) = compare n m := by
  rcases Nat.lt_trichotomy m n with h | h | h
  · rw [Nat.compare_eq_gt.2 h, Nat.compare_eq_gt.2 (by omega)]
  · rw [h]
    exact Std.compare_self.trans Std.compare_self.symm
  · rw [Nat.compare_eq_lt.2 h, Nat.compare_eq_lt.2 (by omega)]

/-- The conditional comparison is one of numbers where the comparison before it leaves a tie. -/
theorem compare_fullest (limits : AssignmentLimits) (ha : a.total < Count.bound) (hb : b.total < Count.bound) :
    let fullest := if !a.lastIsFull limits && !b.lastIsFull limits then compare b.total a.total else .eq
    ((compare (a.lastIsFull limits).toNat (b.lastIsFull limits).toNat).then fullest) =
      (compare (a.lastIsFull limits).toNat (b.lastIsFull limits).toNat).then
        (compare (if a.lastIsFull limits then 0 else Count.bound - a.total)
          (if b.lastIsFull limits then 0 else Count.bound - b.total)) := by
  cases a.lastIsFull limits with
  | true => cases b.lastIsFull limits <;> rfl
  | false =>
    cases b.lastIsFull limits with
    | true => rfl
    | false =>
      simp only [Bool.not_false, Bool.and_self, if_true, Bool.false_eq_true, if_false, compare_sub ha hb]

/-- **The order of preference is the order of the keys.** -/
theorem preference_eq (h : limits.Sensible) (ha : a.Countable) (hb : b.Countable) :
    preference limits a b = .ok (compare (a.key limits) (b.key limits)) := by
  have hlast := compare_fullest limits (Nat.lt_of_succ_lt ha.total) (Nat.lt_of_succ_lt hb.total)
  have hkeys := calc compare (a.key limits) (b.key limits)
    _ = (compare (decide (limits.capacity ≤ a.total)).toNat (decide (limits.capacity ≤ b.total)).toNat).then
        ((compare (ceilDiv (a.live + 1) limits.partitionSize) (ceilDiv (b.live + 1) limits.partitionSize)).then
          ((compare (ceilDiv (a.total + 1) limits.partitionSize) (ceilDiv (b.total + 1) limits.partitionSize)).then
            (((compare (a.lastIsFull limits).toNat (b.lastIsFull limits).toNat).then
              (compare (if a.lastIsFull limits then 0 else Count.bound - a.total)
                (if b.lastIsFull limits then 0 else Count.bound - b.total))).then
              ((compare a.live b.live).then (compare a.index b.index))))) := by
      simp only [key, List.compare_cons_cons, List.compare_nil_nil, Ordering.then_eq, Ordering.then_assoc]
  rw [hkeys, ← hlast, Ordering.then_assoc]
  simp only [preference, isFull_eq h, compactPartitionsAfter_eq ha, compactPartitionsAfter_eq hb,
    partitionsAfter_eq ha, partitionsAfter_eq hb, ok_bind, pure, Except.pure]
  generalize decide (limits.capacity ≤ a.total) = fullA, decide (limits.capacity ≤ b.total) = fullB
  generalize compare (ceilDiv (a.live + 1) limits.partitionSize) (ceilDiv (b.live + 1) limits.partitionSize) = compact
  -- The comparison of the first two numbers ends early where they differ; so does the second one.
  cases fullA <;> cases fullB <;> cases compact <;> rfl

/-- **No two candidates have one key.** Where both have partitions to fill, the comparison of the fullest tells
their totals apart; where neither has, the number of partitions does. -/
theorem key_injective (h : limits.Sensible) (ha : a.Countable) (hb : b.Countable)
    (hkey : a.key limits = b.key limits) : a = b := by
  simp only [key, List.cons.injEq, and_true] at hkey
  obtain ⟨-, -, hpartitions, hlast, hfullest, hlive, hindex⟩ := hkey
  have htotal : a.total = b.total := by
    have hsize := h.partitionSize_pos
    cases hla : a.lastIsFull limits with
    | false =>
      have hlb : b.lastIsFull limits = false := by
        cases hlb : b.lastIsFull limits with
        | false => rfl
        | true => simp [hla, hlb] at hlast
      simp only [hla, hlb, Bool.false_eq_true, if_false] at hfullest
      have := ha.total
      have := hb.total
      omega
    | true =>
      have hlb : b.lastIsFull limits = true := by
        cases hlb : b.lastIsFull limits with
        | false => simp [hla, hlb] at hlast
        | true => rfl
      obtain ⟨m, hm⟩ := Nat.dvd_of_mod_eq_zero (of_decide_eq_true hla)
      obtain ⟨n, hn⟩ := Nat.dvd_of_mod_eq_zero (of_decide_eq_true hlb)
      rw [hm, hn, Nat.mul_comm, ceilDiv_mul_add_one hsize, Nat.mul_comm, ceilDiv_mul_add_one hsize] at hpartitions
      rw [hm, hn, Nat.succ.inj hpartitions]
  cases a
  cases b
  simp_all

/-- The order looks at both candidates alike, and ties only a candidate with itself. -/
theorem preference_swap (h : limits.Sensible) (ha : a.Countable) (hb : b.Countable) :
    ∃ o, preference limits a b = .ok o ∧ preference limits b a = .ok o.swap ∧ (o = .eq ↔ a = b) := by
  have hswap : compare (b.key limits) (a.key limits) = (compare (a.key limits) (b.key limits)).swap :=
    Std.OrientedCmp.eq_swap
  refine ⟨_, preference_eq h ha hb, ?_, ?_⟩
  · rw [preference_eq h hb ha, hswap]
  · rw [Std.compare_eq_iff_eq]
    exact ⟨key_injective h ha hb, fun heq => heq ▸ rfl⟩

/-- The first candidate comes strictly before the second. -/
def Before (limits : AssignmentLimits) (a b : Candidate) : Prop := preference limits a b = .ok .lt

theorem before_iff (h : limits.Sensible) (ha : a.Countable) (hb : b.Countable) :
    Before limits a b ↔ compare (a.key limits) (b.key limits) = .lt := by
  rw [Before, preference_eq h ha hb, Except.ok.injEq]

theorem before_total (h : limits.Sensible) (ha : a.Countable) (hb : b.Countable) :
    ∃ first, a.before limits b = .ok first ∧ (first = true ↔ Before limits a b) := by
  refine ⟨compare (a.key limits) (b.key limits) == .lt, ?_, ?_⟩
  · rw [before, preference_eq h ha hb]
    rfl
  · rw [before_iff h ha hb, beq_iff_eq]

theorem not_before_self (h : limits.Sensible) (ha : a.Countable) : ¬Before limits a a := by
  rw [before_iff h ha ha, Std.compare_self]
  exact fun heq => nomatch heq

theorem Before.trans (h : limits.Sensible) (ha : a.Countable) (hb : b.Countable) (hc : c.Countable)
    (hab : Before limits a b) (hbc : Before limits b c) : Before limits a c := by
  rw [before_iff h ha hb] at hab
  rw [before_iff h hb hc] at hbc
  rw [before_iff h ha hc]
  exact Std.TransCmp.lt_trans hab hbc

/-- Of two different candidates one comes before the other. -/
theorem before_or_before (h : limits.Sensible) (ha : a.Countable) (hb : b.Countable) (hne : a ≠ b) :
    Before limits a b ∨ Before limits b a := by
  rw [before_iff h ha hb, before_iff h hb ha]
  cases hcmp : compare (a.key limits) (b.key limits) with
  | lt => exact .inl rfl
  | eq => exact absurd (key_injective h ha hb (Std.compare_eq_iff_eq.1 hcmp)) hne
  | gt => exact .inr (Std.OrientedCmp.gt_iff_lt.1 hcmp)

/-- A candidate that none comes before is not reached from behind either. -/
theorem not_before_trans (h : limits.Sensible) (ha : a.Countable) (hb : b.Countable) (hc : c.Countable)
    (hab : ¬Before limits b a) (hbc : ¬Before limits c b) : ¬Before limits c a := by
  intro hca
  by_cases heq : a = b
  · exact hbc (heq ▸ hca)
  · exact hbc (hca.trans h hc ha hb ((before_or_before h ha hb heq).resolve_right hab))

/-- **The order of preference is a strict total order** on the candidates that can be counted. -/
theorem isStrictTotalOrder_before (h : limits.Sensible) :
    IsStrictTotalOrder { c : Candidate // c.Countable } fun a b => Before limits a.1 b.1 where
  trichotomous a b hab hba := by
    by_contra hne
    exact (before_or_before h a.2 b.2 fun heq => hne (Subtype.ext heq)).elim hab hba
  irrefl a := not_before_self h a.2
  trans a b c hab hbc := hab.trans h a.2 b.2 c.2 hbc

end Candidate

end SectorLedger
