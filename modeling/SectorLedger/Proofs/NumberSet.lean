import SectorLedger.NumberSet
import SectorLedger.Proofs.Outcome
import Mathlib.Algebra.BigOperators.Group.Finset.Basic
import Mathlib.Data.List.Forall2
import Mathlib.Tactic.Common

/-!
# Sets of numbers as finite sets

The list of change points is one way to keep a finite set of numbers. Everything that is proved about
the ledger speaks of membership, of the list of members, and of sums over the members.

* `NumberSet.ext`: the change points are determined by the members.
* `NumberSet.mem_elements`, `sorted_elements`, `length_elements`: the list of members.
* `NumberSet.total`: the sum of a function over the members, in any commutative group.
* `NumberSet.foldWhile_eq`, `foldMembers_eq`, `mapMembers_eq_ok`: visiting runs is visiting members.
-/

namespace SectorLedger

/-! ### Change points -/

/-- Of two change points next to each other the first opens a run and the second closes it. -/
theorem insideBounds_pair {a b : Nat} {rest : List Nat} (h : (a :: b :: rest).Pairwise (· < ·)) (n : Nat) :
    insideBounds (a :: b :: rest) n = if n < b then decide (a ≤ n) else insideBounds rest n := by
  have hab : a < b := (List.pairwise_cons.1 h).1 b (by simp)
  rw [insideBounds_cons, insideBounds_cons]
  split
  · next hn =>
    rw [insideBounds_of_lt (lt_of_lt_tail h.of_cons hn)]
    simp [Nat.not_le.2 hn]
  · next hn =>
    have hbn : b ≤ n := Nat.not_lt.1 hn
    simp [hbn, Nat.le_trans (Nat.le_of_lt hab) hbn]

/-- Ascending change points are determined by what is inside. -/
theorem eq_of_insideBounds_eq {xs ys : List Nat} (hx : xs.Pairwise (· < ·)) (hy : ys.Pairwise (· < ·))
    (h : ∀ n, insideBounds xs n = insideBounds ys n) : xs = ys := by
  -- a first change point is inside, and what lies before it is not
  have first : ∀ {z zs}, (z :: zs).Pairwise (· < ·) → insideBounds (z :: zs) z = true := fun hz => by
    rw [insideBounds_cons, insideBounds_of_lt (List.pairwise_cons.1 hz).1]
    simp
  induction xs generalizing ys with
  | nil =>
    cases ys with
    | nil => rfl
    | cons y ys => exact absurd (h y) (by rw [first hy]; simp [insideBounds_nil])
  | cons x xs ih =>
    cases ys with
    | nil => exact absurd (h x) (by rw [first hx]; simp [insideBounds_nil])
    | cons y ys =>
      have hxy : ¬x < y := fun hlt => by
        have := h x
        rw [first hx, insideBounds_of_lt (lt_of_lt_head hy hlt)] at this
        exact Bool.noConfusion this
      have hyx : ¬y < x := fun hlt => by
        have := h y
        rw [first hy, insideBounds_of_lt (lt_of_lt_head hx hlt)] at this
        exact Bool.noConfusion this
      obtain rfl : x = y := by omega
      rw [ih hx.of_cons hy.of_cons fun n => ?_]
      have := h n
      rw [insideBounds_cons, insideBounds_cons] at this
      simpa using this

namespace NumberSet

/-! ### Members -/

/-- Sets with the same members are the same. -/
@[ext] theorem ext {s t : NumberSet} (h : ∀ n, n ∈ s ↔ n ∈ t) : s = t := by
  have hb : s.bounds = t.bounds := eq_of_insideBounds_eq s.ascending t.ascending fun n => by
    rw [Bool.eq_iff_iff]
    exact h n
  cases s
  cases t
  simpa using hb

@[simp, grind =] theorem mem_union {s t : NumberSet} {n : Nat} : n ∈ s ∪ t ↔ n ∈ s ∨ n ∈ t := by
  simp [mem_def]

@[simp, grind =] theorem mem_inter {s t : NumberSet} {n : Nat} : n ∈ s ∩ t ↔ n ∈ s ∧ n ∈ t := by
  simp [mem_def]

@[simp, grind =] theorem mem_sdiff {s t : NumberSet} {n : Nat} : n ∈ s \ t ↔ n ∈ s ∧ n ∉ t := by
  simp [mem_def]

@[simp, grind .] theorem not_mem_empty (n : Nat) : n ∉ (∅ : NumberSet) := by simp [mem_def]

@[simp, grind =] theorem mem_run {start length n : Nat} : n ∈ run start length ↔ start ≤ n ∧ n < start + length := by
  unfold run
  split
  · next h => simp only [h, Nat.add_zero]; exact ⟨fun hn => absurd hn (not_mem_empty n), fun hn => by omega⟩
  · next h =>
    rw [mem_def, contains, insideBounds_pair (by simp; omega)]
    by_cases hn : n < start + length <;> simp [hn, insideBounds_nil]

@[simp, grind =] theorem mem_singleton {m n : Nat} : n ∈ singleton m ↔ n = m := by
  simp only [singleton, mem_run]
  omega

theorem eq_empty_iff {s : NumberSet} : s = ∅ ↔ ∀ n, n ∉ s :=
  ⟨fun h n => h ▸ not_mem_empty n, fun h => ext fun n => by simp [h n]⟩

@[simp] theorem isEmpty_iff {s : NumberSet} : s.isEmpty = true ↔ s = ∅ := by
  rw [isEmpty, List.isEmpty_iff]
  exact ⟨fun h => by cases s; cases h; rfl, fun h => by rw [h]; rfl⟩

theorem isEmpty_eq_false_iff {s : NumberSet} : s.isEmpty = false ↔ ∃ n, n ∈ s := by
  rw [← Bool.not_eq_true, isEmpty_iff, eq_empty_iff]
  push Not
  rfl

@[simp] theorem containsAll_iff {s t : NumberSet} : s.containsAll t = true ↔ ∀ n ∈ t, n ∈ s := by
  rw [containsAll, isEmpty_iff, eq_empty_iff]
  exact forall_congr' fun n => by simp

@[simp] theorem containsAny_iff {s t : NumberSet} : s.containsAny t = true ↔ ∃ n ∈ t, n ∈ s := by
  rw [containsAny, Bool.not_eq_true', isEmpty_eq_false_iff]
  exact exists_congr fun n => by simp [and_comm]

@[simp] theorem ofList_nil : ofList [] = ∅ := rfl

@[simp, grind =] theorem mem_ofList {ns : List Nat} {n : Nat} : n ∈ ofList ns ↔ n ∈ ns := by
  induction ns with
  | nil => simp [ofList]
  | cons m ns ih =>
    have : ofList (m :: ns) = singleton m ∪ ofList ns := rfl
    rw [this, mem_union, mem_singleton, ih, List.mem_cons]

@[simp] theorem union_empty (s : NumberSet) : s ∪ ∅ = s := ext fun n => by simp

@[simp] theorem empty_union (s : NumberSet) : ∅ ∪ s = s := ext fun n => by simp

theorem union_assoc (s t u : NumberSet) : (s ∪ t) ∪ u = s ∪ (t ∪ u) := ext fun n => by simp [or_assoc]

theorem union_comm (s t : NumberSet) : s ∪ t = t ∪ s := ext fun n => by simp [or_comm]

theorem sdiff_sdiff (s t u : NumberSet) : (s \ t) \ u = s \ (t ∪ u) := ext fun n => by simp [and_assoc]

@[simp] theorem empty_inter (s : NumberSet) : ∅ ∩ s = ∅ := ext fun n => by simp

@[simp] theorem empty_sdiff (s : NumberSet) : ∅ \ s = ∅ := ext fun n => by simp

@[simp] theorem sdiff_empty (s : NumberSet) : s \ ∅ = s := ext fun n => by simp

@[simp] theorem sdiff_self (s : NumberSet) : s \ s = ∅ := ext fun n => by simp

theorem singleton_inter_of_mem {s : NumberSet} {n : Nat} (h : n ∈ s) : singleton n ∩ s = singleton n := ext fun m => by
  rw [mem_inter, mem_singleton]
  exact and_iff_left_of_imp fun hm => hm ▸ h

theorem singleton_inter_of_not_mem {s : NumberSet} {n : Nat} (h : n ∉ s) : singleton n ∩ s = ∅ := ext fun m => by
  simp only [mem_inter, mem_singleton, not_mem_empty, iff_false, not_and]
  exact fun hm => hm ▸ h

theorem ofValues_eq_ok {ns : List Nat} {s : NumberSet} :
    ofValues ns = .ok s ↔ (∀ n ∈ ns, n < forbiddenMember) ∧ s = ofList ns := by
  simp only [ofValues, List.all_eq_true, decide_eq_true_eq]
  split
  · next h => simp only [Except.ok.injEq, eq_comm (a := s)]; exact ⟨fun hs => ⟨h, hs⟩, And.right⟩
  · next h => simp [h]

/-! ### The list of members -/

/-- Every run of an ascending list of change points lies after what lies before the list. -/
theorem lt_of_mem_pairUp {bounds : List Nat} {m n : Nat} (h : ∀ x ∈ bounds, m < x)
    (hn : n ∈ (pairUp bounds).flatMap fun r => List.range' r.1 r.2) : m < n := by
  fun_induction pairUp bounds with
  | case1 a b rest ih =>
    rw [List.flatMap_cons, List.mem_append, List.mem_range'_1] at hn
    rcases hn with hn | hn
    · have := h a (by simp)
      omega
    · exact ih (fun x hx => h x (by simp [hx])) hn
  | case2 => simp at hn

theorem mem_pairUp {bounds : List Nat} (h : bounds.Pairwise (· < ·)) (hp : bounds.length % 2 = 0) (n : Nat) :
    n ∈ ((pairUp bounds).flatMap fun r => List.range' r.1 r.2) ↔ insideBounds bounds n = true := by
  fun_induction pairUp bounds with
  | case1 a b rest ih =>
    have hb : ∀ x ∈ rest, b < x := (List.pairwise_cons.1 h.of_cons).1
    have hab : a < b := (List.pairwise_cons.1 h).1 b (by simp)
    rw [List.flatMap_cons, List.mem_append, List.mem_range'_1, insideBounds_pair h,
      ih h.of_cons.of_cons (by simp at hp; omega)]
    split
    · next hn =>
      have : insideBounds rest n = false := insideBounds_of_lt fun x hx => Nat.lt_trans hn (hb x hx)
      simp only [this, Bool.false_eq_true, or_false, decide_eq_true_eq]
      omega
    · next hn =>
      constructor
      · rintro (hn' | hn')
        · omega
        · exact hn'
      · exact .inr
  | case2 bounds hne =>
    match bounds, hp, hne with
    | [], _, _ => simp [insideBounds_nil]
    | a :: b :: rest, _, hne => exact absurd rfl (hne a b rest)

theorem mem_elements {s : NumberSet} {n : Nat} : n ∈ s.elements ↔ n ∈ s :=
  mem_pairUp s.ascending s.paired n

theorem sorted_pairUp {bounds : List Nat} (h : bounds.Pairwise (· < ·)) :
    ((pairUp bounds).flatMap fun r => List.range' r.1 r.2).Pairwise (· < ·) := by
  fun_induction pairUp bounds with
  | case1 a b rest ih =>
    have hab : a < b := (List.pairwise_cons.1 h).1 b (by simp)
    have hb : ∀ x ∈ rest, b < x := (List.pairwise_cons.1 h.of_cons).1
    rw [List.flatMap_cons, List.pairwise_append]
    refine ⟨List.pairwise_lt_range', ih h.of_cons.of_cons, fun m hm n hn => ?_⟩
    rw [List.mem_range'_1] at hm
    have := lt_of_mem_pairUp hb hn
    omega
  | case2 => exact List.Pairwise.nil

theorem sorted_elements (s : NumberSet) : s.elements.Pairwise (· < ·) := sorted_pairUp s.ascending

theorem nodup_elements (s : NumberSet) : s.elements.Nodup :=
  s.sorted_elements.imp fun h => Nat.ne_of_lt h

/-- An element comes once. -/
theorem not_mem_of_elements_eq {s : NumberSet} {done rest : List Nat} {n : Nat}
    (h : s.elements = done ++ n :: rest) : n ∉ done := fun hn => by
  have hnodup := s.nodup_elements
  rw [h, List.nodup_append] at hnodup
  exact hnodup.2.2 n hn n List.mem_cons_self rfl

theorem length_elements (s : NumberSet) : s.elements.length = s.count := by
  unfold elements count
  induction s.runs with
  | nil => rfl
  | cons r rs ih => rw [List.flatMap_cons, List.length_append, List.length_range', ih]; rfl

theorem first?_eq_none_iff {s : NumberSet} : s.first? = none ↔ s = ∅ := by
  rw [first?, List.head?_eq_none_iff, ← isEmpty_iff, isEmpty, List.isEmpty_iff]

/-- The members as a finite set. -/
def toFinset (s : NumberSet) : Finset Nat := ⟨s.elements, s.nodup_elements⟩

@[simp] theorem mem_toFinset {s : NumberSet} {n : Nat} : n ∈ s.toFinset ↔ n ∈ s := mem_elements

@[simp] theorem card_toFinset (s : NumberSet) : s.toFinset.card = s.count := s.length_elements

theorem count_union_add_count_inter (s t : NumberSet) : (s ∪ t).count + (s ∩ t).count = s.count + t.count := by
  have hu : (s ∪ t).toFinset = s.toFinset ∪ t.toFinset := Finset.ext fun n => by simp
  have hi : (s ∩ t).toFinset = s.toFinset ∩ t.toFinset := Finset.ext fun n => by simp
  rw [← card_toFinset, ← card_toFinset, ← card_toFinset, ← card_toFinset, hu, hi,
    Finset.card_union_add_card_inter]

@[simp] theorem count_empty : (∅ : NumberSet).count = 0 := rfl

@[simp] theorem count_singleton (n : Nat) : (singleton n).count = 1 := by
  simp [singleton, run, count, runs, pairUp]

theorem count_union {s t : NumberSet} (h : ∀ n ∈ s, n ∉ t) : (s ∪ t).count = s.count + t.count := by
  have hi : s ∩ t = ∅ := eq_empty_iff.2 fun n hn => h n (mem_inter.1 hn).1 (mem_inter.1 hn).2
  rw [← count_union_add_count_inter, hi, count_empty, Nat.add_zero]

theorem count_sdiff {s t : NumberSet} (h : ∀ n ∈ t, n ∈ s) : (s \ t).count = s.count - t.count := by
  have hs : s = (s \ t) ∪ t := ext fun n => by
    have := h n
    simp only [mem_union, mem_sdiff]
    tauto
  conv => rhs; rw [hs]
  rw [count_union fun n hn => (mem_sdiff.1 hn).2, Nat.add_sub_cancel]

theorem count_le_of_subset {s t : NumberSet} (h : ∀ n ∈ t, n ∈ s) : t.count ≤ s.count := by
  rw [← card_toFinset, ← card_toFinset]
  exact Finset.card_le_card fun n hn => mem_toFinset.2 (h n (mem_toFinset.1 hn))

theorem count_eq_zero_iff {s : NumberSet} : s.count = 0 ↔ s = ∅ := by
  rw [← card_toFinset, Finset.card_eq_zero, eq_empty_iff, Finset.eq_empty_iff_forall_notMem]
  simp

/-- A part of a union that has as many members as both sides together is all of it, and the sides are apart. -/
theorem apart_of_count {s t u : NumberSet} (hu : ∀ n ∈ u, n ∈ s ∪ t) (hcount : s.count + t.count ≤ u.count) :
    (∀ n ∈ s, n ∉ t) ∧ ∀ n ∈ s ∪ t, n ∈ u := by
  have hle := count_le_of_subset hu
  have hboth := count_union_add_count_inter s t
  have hrest := count_sdiff hu
  constructor
  · intro n hs ht
    have hnone : s ∩ t = ∅ := count_eq_zero_iff.1 (by omega)
    exact eq_empty_iff.1 hnone n (mem_inter.2 ⟨hs, ht⟩)
  · intro n hn
    have hnone : (s ∪ t) \ u = ∅ := count_eq_zero_iff.1 (by omega)
    by_contra hnu
    exact eq_empty_iff.1 hnone n (mem_sdiff.2 ⟨hn, hnu⟩)

theorem count_ofList {ns : List Nat} (h : ns.Nodup) : (ofList ns).count = ns.length := by
  have : (ofList ns).toFinset = ns.toFinset := Finset.ext fun n => by simp
  rw [← card_toFinset, this, List.toFinset_card_of_nodup h]

/-! ### Sums over the members -/

section Total

variable {M : Type} [AddCommGroup M] {f g : Nat → M} {s t : NumberSet}

/-- The sum of a function over the members. -/
def total (f : Nat → M) (s : NumberSet) : M := ∑ n ∈ s.toFinset, f n

theorem total_congr_set (f : Nat → M) (h : ∀ n, n ∈ s ↔ n ∈ t) : total f s = total f t := by
  rw [ext h]

@[simp] theorem total_empty (f : Nat → M) : total f ∅ = 0 := rfl

@[simp] theorem total_singleton (f : Nat → M) (n : Nat) : total f (singleton n) = f n := by
  have : (singleton n).toFinset = {n} := Finset.ext fun m => by simp
  rw [total, this, Finset.sum_singleton]

theorem total_union (f : Nat → M) (h : ∀ n ∈ s, n ∉ t) : total f (s ∪ t) = total f s + total f t := by
  have hu : (s ∪ t).toFinset = s.toFinset ∪ t.toFinset := Finset.ext fun n => by simp
  have hd : Disjoint s.toFinset t.toFinset :=
    Finset.disjoint_left.2 fun n hs ht => h n (mem_toFinset.1 hs) (mem_toFinset.1 ht)
  rw [total, hu, Finset.sum_union hd]
  rfl

theorem total_sdiff (f : Nat → M) (h : ∀ n ∈ t, n ∈ s) : total f (s \ t) = total f s - total f t := by
  have hs : s = (s \ t) ∪ t := ext fun n => by
    have := h n
    simp only [mem_union, mem_sdiff]
    tauto
  conv => rhs; rw [hs]
  rw [total_union f fun n hn => (mem_sdiff.1 hn).2, add_sub_cancel_right]

/-- A set falls into the members of another set and the rest. -/
theorem total_inter_add_total_sdiff (f : Nat → M) (s t : NumberSet) :
    total f (s ∩ t) + total f (s \ t) = total f s := by
  rw [← total_union f fun n hn hn' => (mem_sdiff.1 hn').2 (mem_inter.1 hn).2]
  refine total_congr_set f fun n => ?_
  simp only [mem_union, mem_inter, mem_sdiff]
  tauto

/-- A further number counts where it is a member. -/
theorem total_inter_insert (f : Nat → M) {n : Nat} (h : n ∉ s) :
    total f ((s ∪ singleton n) ∩ t) = total f (s ∩ t) + if n ∈ t then f n else 0 := by
  split
  · next hn =>
    have hs : (s ∪ singleton n) ∩ t = (s ∩ t) ∪ singleton n := by
      ext m
      simp only [mem_union, mem_inter, mem_singleton]
      grind
    rw [hs, total_union f fun m hm hm' => h (by rw [← mem_singleton.1 hm']; exact (mem_inter.1 hm).1), total_singleton]
  · next hn =>
    rw [add_zero]
    refine total_congr_set f fun m => ?_
    simp only [mem_union, mem_inter, mem_singleton]
    grind

/-- Numbers that leave a set for one place take their share with them. -/
theorem total_moved (f : Nat → M) {u : NumberSet} {here : Prop} [Decidable here]
    (h : ∀ n, n ∈ t ↔ n ∈ s ∧ n ∉ u ∨ n ∈ u ∧ here) :
    total f t = total f s - total f (u ∩ s) + if here then total f u else 0 := by
  have hleft : total f (s \ u) = total f s - total f (u ∩ s) := by
    rw [← total_sdiff f fun n hn => (mem_inter.1 hn).2]
    refine total_congr_set f fun n => ?_
    simp only [mem_sdiff, mem_inter]
    tauto
  rw [← hleft]
  split
  · next hhere =>
    rw [← total_union f fun n hn => (mem_sdiff.1 hn).2]
    refine total_congr_set f fun n => ?_
    simp only [h, mem_union, mem_sdiff, hhere, and_true]
  · next hhere =>
    rw [add_zero]
    refine total_congr_set f fun n => ?_
    simp only [h, mem_sdiff, hhere, and_false, or_false]

theorem total_congr (h : ∀ n ∈ s, f n = g n) : total f s = total g s :=
  Finset.sum_congr rfl fun n hn => h n (mem_toFinset.1 hn)

/-- A duplicate-free list adds up to the total over its set. -/
theorem sum_map_eq_total (f : Nat → M) {ns : List Nat} (hnd : ns.Nodup) :
    (ns.map f).sum = total f (ofList ns) := by
  have : (ofList ns).toFinset = ns.toFinset := Finset.ext fun n => by simp
  rw [total, this, List.sum_toFinset f hnd]

end Total

/-! ### Visiting members -/

section Visit

variable {β : Type}

/-- Visits the numbers of a list in order, as long as each visit says to go on. -/
def visitWhile (f : β → Nat → Outcome (β × Bool)) : List Nat → β → Outcome β
  | [], b => .ok b
  | n :: ns, b => do
    let (b, more) ← f b n
    if more then visitWhile f ns b else return b

/-- Visiting a run and then more, if the run was gone through, is visiting its numbers and then more. -/
theorem foldRun_bind (f : β → Nat → Outcome (β × Bool)) (ns : List Nat) (start length : Nat) (b : β) :
    (foldRun f start length b >>= fun (r : β × Bool) => if r.2 then visitWhile f ns r.1 else pure r.1) =
      visitWhile f (List.range' start length ++ ns) b := by
  induction length generalizing start b with
  | zero => rfl
  | succ length ih =>
    rw [foldRun, List.range'_succ, List.cons_append, visitWhile]
    simp only [bind_assoc]
    refine congrArg _ (funext fun r => ?_)
    obtain ⟨b', more⟩ := r
    cases more with
    | false => rfl
    | true => exact ih (start + 1) b'

theorem foldRuns_eq (f : β → Nat → Outcome (β × Bool)) (rs : List (Nat × Nat)) (b : β) :
    foldRuns f rs b = visitWhile f (rs.flatMap fun r => List.range' r.1 r.2) b := by
  induction rs generalizing b with
  | nil => rfl
  | cons r rs ih =>
    rw [foldRuns, List.flatMap_cons, ← foldRun_bind]
    refine congrArg _ (funext fun r => ?_)
    obtain ⟨b', more⟩ := r
    cases more with
    | false => rfl
    | true => exact ih b'

/-- Visiting run by run is visiting member by member. -/
theorem foldWhile_eq (f : β → Nat → Outcome (β × Bool)) (b : β) (s : NumberSet) :
    s.foldWhile f b = visitWhile f s.elements b := foldRuns_eq f s.runs b

/-- A visit of all members is a walk through the list of members. -/
theorem foldMembers_eq (f : β → Nat → Outcome β) (b : β) (s : NumberSet) :
    s.foldMembers f b = foldOutcome f b s.elements := by
  rw [foldMembers, foldWhile_eq]
  induction s.elements generalizing b with
  | nil => rfl
  | cons n ns ih =>
    rw [visitWhile, foldOutcome_cons, bind_assoc]
    exact congrArg _ (funext fun b' => ih b')

/-- A visit that ends has kept the invariant up to where it stopped. -/
theorem visitWhile_invariant {f : β → Nat → Outcome (β × Bool)} {ns : List Nat} {b b' : β} {I : List Nat → β → Prop}
    (h : visitWhile f ns b = .ok b') (start : I [] b)
    (step : ∀ done n rest b b' more, ns = done ++ n :: rest → I done b → f b n = .ok (b', more) →
      I (done ++ [n]) b') : ∃ done rest, ns = done ++ rest ∧ I done b' := by
  have run : ∀ rest done b, ns = done ++ rest → I done b → visitWhile f rest b = .ok b' →
      ∃ done rest, ns = done ++ rest ∧ I done b' := by
    intro rest
    induction rest with
    | nil =>
      intro done b hs hI hb
      obtain rfl : b = b' := by simpa [visitWhile] using hb
      exact ⟨done, [], hs, hI⟩
    | cons n rest ih =>
      intro done b hs hI hb
      simp only [visitWhile, bind_eq_ok] at hb
      obtain ⟨⟨b₁, more⟩, h₁, h₂⟩ := hb
      have hI₁ := step done n rest b b₁ more hs hI h₁
      cases more with
      | true => exact ih (done ++ [n]) b₁ (by simp [hs]) hI₁ h₂
      | false =>
        obtain rfl : b₁ = b' := by simpa using h₂
        exact ⟨done ++ [n], rest, by simp [hs], hI₁⟩
  exact run ns [] b rfl start h

/-- A visit ends if each step succeeds as long as the invariant holds and the visit goes on. It gets past the first
number, if there is one. -/
theorem visitWhile_total {f : β → Nat → Outcome (β × Bool)} (ns : List Nat) {b : β} (I : List Nat → β → Prop)
    (going : β → Prop) (start : I [] b) (hgoing : going b)
    (step : ∀ done n rest b, ns = done ++ n :: rest → I done b → going b →
      ∃ b' more, f b n = .ok (b', more) ∧ I (done ++ [n]) b' ∧ (more = true → going b')) :
    ∃ done rest b', ns = done ++ rest ∧ (ns ≠ [] → done ≠ []) ∧ visitWhile f ns b = .ok b' ∧ I done b' := by
  have run : ∀ rest done b, ns = done ++ rest → I done b → going b → ∃ done' rest' b', ns = done' ++ rest' ∧
      (done ≠ [] ∨ rest ≠ [] → done' ≠ []) ∧ visitWhile f rest b = .ok b' ∧ I done' b' := by
    intro rest
    induction rest with
    | nil => exact fun done b hs hI _ => ⟨done, [], b, hs, fun h => h.resolve_right (· rfl), rfl, hI⟩
    | cons n rest ih =>
      intro done b hs hI hgo
      obtain ⟨b₁, more, h₁, hI₁, hgo₁⟩ := step done n rest b hs hI hgo
      cases more with
      | true =>
        obtain ⟨done', rest', b', hs', hne, h₂, hI'⟩ := ih (done ++ [n]) b₁ (by simp [hs]) hI₁ (hgo₁ rfl)
        exact ⟨done', rest', b', hs', fun _ => hne (.inl (by simp)), bind_eq_ok.2 ⟨_, h₁, h₂⟩, hI'⟩
      | false => exact ⟨done ++ [n], rest, b₁, by simp [hs], fun _ => by simp, bind_eq_ok.2 ⟨_, h₁, rfl⟩, hI₁⟩
  obtain ⟨done, rest, b', hs, hne, h, hI⟩ := run ns [] b rfl start hgoing
  exact ⟨done, rest, b', hs, fun h => hne (.inr h), h, hI⟩

theorem mapRun_eq_ok {f : Nat → Outcome β} {start length : Nat} {bs : List β} :
    mapRun f start length = .ok bs ↔ List.Forall₂ (fun n b => f n = .ok b) (List.range' start length) bs := by
  induction length generalizing start bs with
  | zero => simp [mapRun, eq_comm]
  | succ length ih =>
    simp only [mapRun, List.range'_succ, bind_eq_ok, pure_eq_ok, List.forall₂_cons_left_iff, ih]
    grind

theorem forall₂_append_left {α : Type} {R : α → β → Prop} {as as' : List α} {bs : List β}
    (h : List.Forall₂ R (as ++ as') bs) :
    ∃ cs ds, List.Forall₂ R as cs ∧ List.Forall₂ R as' ds ∧ bs = cs ++ ds := by
  induction as generalizing bs with
  | nil => exact ⟨[], bs, .nil, h, rfl⟩
  | cons a as ih =>
    obtain ⟨b, bs, hab, hbs, rfl⟩ := List.forall₂_cons_left_iff.1 h
    obtain ⟨cs, ds, hcs, hds, rfl⟩ := ih hbs
    exact ⟨b :: cs, ds, .cons hab hcs, hds, rfl⟩

/-- The results for the members are the results for the list of members. -/
theorem mapMembers_eq_ok {f : Nat → Outcome β} {s : NumberSet} {bs : List β} :
    mapMembers f s = .ok bs ↔ List.Forall₂ (fun n b => f n = .ok b) s.elements bs := by
  simp only [mapMembers, bind_eq_ok, pure_eq_ok, elements]
  induction s.runs generalizing bs with
  | nil =>
    simp only [List.mapM_nil, pure_eq_ok, List.flatMap_nil, List.forall₂_nil_left_iff]
    constructor
    · rintro ⟨_, h, h'⟩
      rw [← h', ← h]
      rfl
    · intro h
      exact ⟨[], rfl, h.symm⟩
  | cons r rs ih =>
    simp only [List.mapM_cons, bind_eq_ok, pure_eq_ok, List.flatMap_cons, mapRun_eq_ok]
    constructor
    · rintro ⟨_, ⟨cs, hcs, css, hcss, rfl⟩, rfl⟩
      rw [List.flatten_cons]
      exact List.rel_append hcs (ih.1 ⟨css, hcss, rfl⟩)
    · intro h
      obtain ⟨cs, ds, hcs, hds, rfl⟩ := forall₂_append_left h
      obtain ⟨css, hcss, rfl⟩ := ih.2 hds
      exact ⟨cs :: css, ⟨cs, hcs, css, hcss, rfl⟩, rfl⟩

end Visit

end NumberSet

end SectorLedger
