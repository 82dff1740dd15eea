import SectorLedger.Proofs.NumberSet
import Mathlib.Order.Monotone.Basic

/-!
# Cutting numbers out of a set

When positions are removed, the later ones move down. A position moves by its rank, which is how many of the
removed positions are below it.

* `NumberSet.rank_succ`: the rank, position by position; `NumberSet.rank_eq_count`: what it counts.
* `NumberSet.mem_cut`: what stays, and where.
* `NumberSet.mem_takeFirst`, `count_takeFirst`: the least few members.
-/

namespace SectorLedger.NumberSet

theorem mem_ofRuns {rs : List (Nat × Nat)} {n : Nat} : n ∈ ofRuns rs ↔ ∃ r ∈ rs, r.1 ≤ n ∧ n < r.1 + r.2 := by
  induction rs with
  | nil => simp [ofRuns]
  | cons r rs ih =>
    have : ofRuns (r :: rs) = run r.1 r.2 ∪ ofRuns rs := rfl
    rw [this, mem_union, mem_run, ih, List.exists_mem_cons_iff]

theorem mem_iff_exists_run {s : NumberSet} {n : Nat} : n ∈ s ↔ ∃ r ∈ s.runs, r.1 ≤ n ∧ n < r.1 + r.2 := by
  simp only [← mem_elements, elements, List.mem_flatMap, List.mem_range'_1]

@[simp] theorem rank_zero (s : NumberSet) : s.rank 0 = 0 := by
  unfold rank
  induction s.runs with
  | nil => rfl
  | cons r rs ih =>
    rw [List.foldr_cons, ih]
    omega

/-- The rank within a list of change points. -/
theorem rank_pairUp {bounds : List Nat} (h : bounds.Pairwise (· < ·)) (hp : bounds.length % 2 = 0) (n : Nat) :
    (pairUp bounds).foldr (fun r below => min r.2 (n + 1 - r.1) + below) 0 =
      (pairUp bounds).foldr (fun r below => min r.2 (n - r.1) + below) 0 +
        if insideBounds bounds n = true then 1 else 0 := by
  fun_induction pairUp bounds with
  | case1 a b rest ih =>
    have hb : ∀ x ∈ rest, b < x := (List.pairwise_cons.1 h.of_cons).1
    have hab : a < b := (List.pairwise_cons.1 h).1 b (by simp)
    rw [List.foldr_cons, List.foldr_cons, ih h.of_cons.of_cons (by simp at hp; omega), insideBounds_pair h]
    by_cases hn : n < b
    · have : insideBounds rest n = false := insideBounds_of_lt fun x hx => Nat.lt_trans hn (hb x hx)
      by_cases ha : a ≤ n <;> simp [this, hn, ha] <;> omega
    · simp only [hn, if_false]
      omega
  | case2 bounds hne =>
    cases bounds with
    | nil => simp [insideBounds_nil]
    | cons a bounds =>
      cases bounds with
      | nil => simp at hp
      | cons b rest => exact absurd rfl (hne a b rest)

theorem rank_succ (s : NumberSet) (n : Nat) : s.rank (n + 1) = s.rank n + if n ∈ s then 1 else 0 :=
  rank_pairUp s.ascending s.paired n

theorem rank_le (s : NumberSet) (n : Nat) : s.rank n ≤ n := by
  induction n with
  | zero => simp
  | succ n ih =>
    rw [rank_succ]
    split <;> omega

theorem run_zero_succ (n : Nat) : run 0 (n + 1) = run 0 n ∪ singleton n := ext fun m => by
  simp only [mem_union, mem_run, mem_singleton]
  omega

/-- The rank counts the members below. -/
theorem rank_eq_count (s : NumberSet) (n : Nat) : s.rank n = (run 0 n ∩ s).count := by
  induction n with
  | zero => rw [rank_zero, show run 0 0 = ∅ from rfl, empty_inter, count_empty]
  | succ n ih =>
    have hlast : (run 0 n ∩ s) ∪ (singleton n ∩ s) = run 0 (n + 1) ∩ s := ext fun m => by
      rw [run_zero_succ]
      simp only [mem_union, mem_inter]
      tauto
    rw [rank_succ, ih, ← hlast, count_union fun m hm hm' => ?_]
    · split
      · next hn => rw [singleton_inter_of_mem hn, count_singleton]
      · next hn => rw [singleton_inter_of_not_mem hn, count_empty]
    · simp only [mem_inter, mem_run, mem_singleton] at hm hm'
      omega

theorem run_zero_inter {s : NumberSet} {n : Nat} (h : ∀ i ∈ s, i < n) : run 0 n ∩ s = s := ext fun i => by
  simp only [mem_inter, mem_run]
  exact and_iff_right_of_imp fun hi => ⟨Nat.zero_le i, by have := h i hi; omega⟩

/-- Above all members the rank is their number. -/
theorem rank_of_forall_lt {s : NumberSet} {n : Nat} (h : ∀ i ∈ s, i < n) : s.rank n = s.count := by
  rw [rank_eq_count, run_zero_inter h]

theorem rank_mono (s : NumberSet) : Monotone s.rank :=
  monotone_nat_of_le_succ fun n => by
    rw [rank_succ]
    exact Nat.le_add_right _ _

/-- Between two members the rank does not change. -/
theorem rank_add {s : NumberSet} {n k : Nat} (h : ∀ i, n ≤ i → i < n + k → i ∉ s) : s.rank (n + k) = s.rank n := by
  induction k with
  | zero => rfl
  | succ k ih =>
    rw [← Nat.add_assoc, rank_succ, if_neg (h (n + k) (by omega) (by omega)), Nat.add_zero]
    exact ih fun i hi hk => h i hi (by omega)

/-- What is not cut stays, and moves down by its rank. -/
theorem mem_cut {s t : NumberSet} {m : Nat} : m ∈ s.cut t ↔ ∃ n, n ∈ s ∧ n ∉ t ∧ m + t.rank n = n := by
  have hrun : ∀ r ∈ (s \ t).runs, ∀ k < r.2, r.1 + k ∈ s \ t ∧ t.rank (r.1 + k) = t.rank r.1 := by
    intro r hr k hk
    have hin : ∀ i, r.1 ≤ i → i < r.1 + r.2 → i ∈ s \ t := fun i hi hlt => mem_iff_exists_run.2 ⟨r, hr, hi, hlt⟩
    exact ⟨hin _ (by omega) (by omega),
      rank_add fun i hi hlt => (mem_sdiff.1 (hin i hi (by omega))).2⟩
  rw [cut, mem_ofRuns]
  constructor
  · rintro ⟨_, hmap, hle, hlt⟩
    obtain ⟨r, hr, rfl⟩ := List.mem_map.1 hmap
    simp only at hle hlt
    obtain ⟨k, rfl⟩ := Nat.exists_eq_add_of_le hle
    obtain ⟨hmem, hrank⟩ := hrun r hr k (by omega)
    refine ⟨r.1 + k, (mem_sdiff.1 hmem).1, (mem_sdiff.1 hmem).2, ?_⟩
    have := t.rank_le r.1
    omega
  · rintro ⟨n, hs, ht, hm⟩
    obtain ⟨r, hr, hle, hlt⟩ := mem_iff_exists_run.1 (mem_sdiff.2 ⟨hs, ht⟩)
    obtain ⟨k, rfl⟩ := Nat.exists_eq_add_of_le hle
    obtain ⟨-, hrank⟩ := hrun r hr k (by omega)
    have := t.rank_le r.1
    exact ⟨_, List.mem_map_of_mem hr, by simp only; omega, by simp only; omega⟩

/-! ### The least few members -/

theorem flatMap_takeBounds (k : Nat) (bounds : List Nat) :
    (takeBounds k bounds).flatMap (fun r => List.range' r.1 r.2) =
      ((pairUp bounds).flatMap fun r => List.range' r.1 r.2).take k := by
  fun_induction takeBounds k bounds with
  | case1 => simp
  | case2 k a b rest hk hle =>
    have hlen : k ≤ (List.range' a (b - a)).length := by rwa [List.length_range']
    rw [pairUp, List.flatMap_singleton, List.flatMap_cons, List.take_append_of_le_length hlen,
      List.take_range'_of_length_ge hle]
  | case3 k a b rest hk hle ih =>
    have hlen : (List.range' a (b - a)).length ≤ k := by
      rw [List.length_range']
      omega
    rw [pairUp, List.flatMap_cons, List.flatMap_cons, ih, List.take_append, List.take_of_length_le hlen,
      List.length_range']
  | case4 bounds k hne =>
    rw [pairUp.eq_2 bounds fun a b rest h => hne a b rest h]
    simp

theorem mem_takeFirst {s : NumberSet} {k n : Nat} : n ∈ s.takeFirst k ↔ n ∈ s.elements.take k := by
  rw [elements, runs, ← flatMap_takeBounds, takeFirst, mem_ofRuns]
  simp only [List.mem_flatMap, List.mem_range'_1]

/-- The least few members are members. -/
theorem mem_of_mem_takeFirst {s : NumberSet} {k n : Nat} (h : n ∈ s.takeFirst k) : n ∈ s :=
  mem_elements.1 (List.mem_of_mem_take (mem_takeFirst.1 h))

/-- They are as many as were asked for, if there are so many. -/
theorem count_takeFirst (s : NumberSet) (k : Nat) : (s.takeFirst k).count = min k s.count := by
  have hlist : s.takeFirst k = .ofList (s.elements.take k) := ext fun n => by rw [mem_takeFirst, mem_ofList]
  rw [hlist, count_ofList (s.nodup_elements.sublist (List.take_sublist k _)), List.length_take, length_elements]

end SectorLedger.NumberSet
