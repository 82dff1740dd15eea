import SectorLedger.SparseArray
import SectorLedger.Proofs.Outcome
import Mathlib.Algebra.BigOperators.Group.List.Basic
import Mathlib.Algebra.Order.BigOperators.Group.List
import Mathlib.Algebra.Order.Group.Int
import Mathlib.Tactic.Abel
import Mathlib.Tactic.Common

/-!
# Sparse arrays through their view

What an array holds is what `get?` says, and everything else follows from that: the entries, equality,
whether it is empty, and sums over the values.

* `SparseArray.mem_entries`, `SparseArray.ext`: the entries, and equality.
* `SparseArray.read_eq_ok`, `write_eq_ok`, `remove_eq_ok`: when an access succeeds.
* `SparseArray.total`: the sum of a function over the values; `total_insert` says how it moves.
* `SparseArray.mem_due`: the entries up to an epoch.
* `SparseArray.departed`: the values that have left; `perm_departed` says that none is lost.
* `SparseArray.filterMap`: what becomes of the values.
-/

namespace SectorLedger

variable {α β : Type}

theorem lookupEntry_eq_some_iff {i : Nat} {v : α} {es : List (Nat × α)} (h : es.Pairwise (·.1 < ·.1)) :
    lookupEntry i es = some v ↔ (i, v) ∈ es := by
  induction es with
  | nil => simp [lookupEntry]
  | cons e rest ih =>
    obtain ⟨j, w⟩ := e
    have hlt := (List.pairwise_cons.1 h).1
    rw [lookupEntry]
    split
    · next hij =>
      subst hij
      constructor
      · rintro ⟨⟩
        exact List.mem_cons_self
      · intro hm
        rcases List.mem_cons.1 hm with hm | hm
        · rw [(Prod.mk.inj hm).2]
        · exact absurd (hlt _ hm) (Nat.lt_irrefl _)
    · next hij =>
      rw [ih h.of_cons, List.mem_cons]
      exact ⟨.inr, fun hm => hm.resolve_left fun he => hij (Prod.mk.inj he).1⟩

/-- There is nothing before the first entry. -/
theorem lookupEntry_of_lt_head {i j : Nat} {w : α} {rest : List (Nat × α)}
    (h : ((j, w) :: rest).Pairwise (·.1 < ·.1)) (hij : i < j) : lookupEntry i ((j, w) :: rest) = none := by
  refine Option.eq_none_iff_forall_ne_some.2 fun u hu => ?_
  rw [lookupEntry_eq_some_iff h] at hu
  rcases List.mem_cons.1 hu with hu | hu
  · exact Nat.ne_of_lt hij (Prod.mk.inj hu).1
  · exact Nat.lt_asymm hij ((List.pairwise_cons.1 h).1 _ hu)

namespace SparseArray

variable {a b : SparseArray α} {i k : Nat} {v : α}

theorem get?_eq_some_iff : a.get? i = some v ↔ (i, v) ∈ a.entries := lookupEntry_eq_some_iff a.ascending

theorem mem_entries {e : Nat × α} : e ∈ a.entries ↔ a.get? e.1 = some e.2 := get?_eq_some_iff.symm

theorem mem_keys : i ∈ a.entries.map (·.1) ↔ ∃ v, a.get? i = some v := by
  simp only [List.mem_map, Prod.exists, get?_eq_some_iff, exists_and_right, exists_eq_right]

/-- An index of the list of entries does not occur before. -/
theorem fresh_of_entries {done rest : List (Nat × α)} (hs : a.entries = done ++ (i, v) :: rest) :
    i ∉ done.map (·.1) := by
  intro hi
  obtain ⟨d, hd, rfl⟩ := List.mem_map.1 hi
  have hsorted := a.ascending
  rw [hs, List.pairwise_append] at hsorted
  exact Nat.lt_irrefl _ (hsorted.2.2 d hd (d.1, v) List.mem_cons_self)

theorem get?_of_entries {done rest : List (Nat × α)} (hs : a.entries = done ++ (i, v) :: rest) : a.get? i = some v :=
  mem_entries.1 (hs ▸ List.mem_append_right _ List.mem_cons_self)

theorem nodup_entries (a : SparseArray α) : a.entries.Nodup := a.ascending.imp fun he heq => by
  rw [heq] at he
  exact Nat.lt_irrefl _ he

/-- Arrays that hold the same at every index are the same. -/
theorem ext (h : ∀ i, a.get? i = b.get? i) : a = b := by
  have hm : ∀ e, e ∈ a.entries ↔ e ∈ b.entries := fun e => by rw [mem_entries, mem_entries, h]
  have hp : a.entries.Perm b.entries := (List.perm_ext_iff_of_nodup a.nodup_entries b.nodup_entries).2 hm
  have he : a.entries = b.entries := hp.eq_of_pairwise
    (fun _ _ _ _ h₁ h₂ => absurd h₁ (Nat.lt_asymm h₂)) a.ascending b.ascending
  cases a
  cases b
  simpa using he

theorem isEmpty_iff : a.isEmpty = true ↔ ∀ i, a.get? i = none := by
  rw [isEmpty, List.isEmpty_iff]
  constructor
  · intro h i
    rw [get?, h]
    rfl
  · intro h
    refine List.eq_nil_iff_forall_not_mem.2 fun e he => ?_
    rw [mem_entries, h] at he
    cases he

@[simp] theorem insert_insert (a : SparseArray α) (i : Nat) (v w : α) : (a.insert i v).insert i w = a.insert i w :=
  ext fun k => by
    simp only [get?_insert]
    split <;> rfl

theorem get?_eraseAll (a : SparseArray α) (is : List Nat) (k : Nat) :
    (a.eraseAll is).get? k = if k ∈ is then none else a.get? k := by
  induction is generalizing a with
  | nil => rfl
  | cons i is ih =>
    have : a.eraseAll (i :: is) = (a.erase i).eraseAll is := rfl
    simp only [this, ih, get?_erase, List.mem_cons]
    by_cases hk : k ∈ is <;> by_cases hi : k = i <;> simp [hk, hi]

/-- What is there was put there or was there before. -/
theorem get?_insert_eq_some {k : Nat} {w : α} :
    (a.insert k w).get? i = some v ↔ i = k ∧ v = w ∨ i ≠ k ∧ a.get? i = some v := by
  rw [get?_insert]
  split
  · next hi => simp [hi, eq_comm]
  · next hi => simp [hi]

/-- What is left was there before and was not removed. -/
theorem get?_eraseAll_eq_some {is : List Nat} : (a.eraseAll is).get? i = some v ↔ i ∉ is ∧ a.get? i = some v := by
  rw [get?_eraseAll]
  split
  · next hi => exact iff_of_false (by simp) fun h => h.1 hi
  · next hi => exact (and_iff_right hi).symm

theorem get?_erase_eq_some {k : Nat} : (a.erase k).get? i = some v ↔ i ≠ k ∧ a.get? i = some v := by
  rw [get?_erase]
  split
  · next hi => exact iff_of_false (by simp) fun h => h.1 hi
  · next hi => exact (and_iff_right hi).symm

/-- The first entries that satisfy a condition which no later entry regains. -/
theorem mem_takeWhile {p : Nat → Bool} (hp : ∀ c ∈ a.entries, ∀ d ∈ a.entries, c.1 < d.1 → p d.1 = true → p c.1 = true)
    {e : Nat × α} : e ∈ a.entries.takeWhile (fun e => p e.1) ↔ e ∈ a.entries ∧ p e.1 = true := by
  have run : ∀ es : List (Nat × α), es.Pairwise (·.1 < ·.1) →
      (∀ c ∈ es, ∀ d ∈ es, c.1 < d.1 → p d.1 = true → p c.1 = true) →
      (e ∈ es.takeWhile (fun e => p e.1) ↔ e ∈ es ∧ p e.1 = true) := by
    intro es hsorted hp
    induction es with
    | nil => simp
    | cons c es ih =>
      have hlt := (List.pairwise_cons.1 hsorted).1
      rw [List.takeWhile_cons]
      split
      · next hc =>
        rw [List.mem_cons, List.mem_cons, ih hsorted.of_cons fun c hc d hd => hp c (by simp [hc]) d (by simp [hd])]
        grind
      · next hc =>
        simp only [List.not_mem_nil, false_iff, not_and]
        intro he hpe
        rcases List.mem_cons.1 he with rfl | he
        · exact hc hpe
        · exact hc (hp c List.mem_cons_self e (List.mem_cons_of_mem c he) (hlt e he) hpe)
  exact run a.entries a.ascending hp

/-- The entries that are due are those up to the epoch, if all keys are epochs. -/
theorem mem_due (hk : ∀ i v, a.get? i = some v → i < 0x8000000000000000) {upTo : Int} {e : Nat × α} :
    e ∈ a.entries.takeWhile (fun e => Count.toEpoch e.1 ≤ upTo) ↔ a.get? e.1 = some e.2 ∧ (e.1 : Int) ≤ upTo := by
  have hepoch : ∀ c ∈ a.entries, Count.toEpoch c.1 = c.1 := fun c hc =>
    Count.toEpoch_of_lt (hk c.1 c.2 (mem_entries.1 hc))
  rw [mem_takeWhile (p := fun i => decide (Count.toEpoch i ≤ upTo)) fun c hc d hd hcd hle => ?_, mem_entries]
  · refine and_congr_right fun he => ?_
    rw [decide_eq_true_eq, hepoch e (mem_entries.2 he)]
  · rw [decide_eq_true_eq, hepoch d hd] at hle
    rw [decide_eq_true_eq, hepoch c hc]
    omega

/-- When the entries that are due are taken out, the others are left. -/
theorem get?_eraseAll_due (hk : ∀ i v, a.get? i = some v → i < 0x8000000000000000) (upTo : Int) (k : Nat) :
    (a.eraseAll ((a.entries.takeWhile fun e => Count.toEpoch e.1 ≤ upTo).map (·.1))).get? k =
      if (k : Int) ≤ upTo then none else a.get? k := by
  have hmem : k ∈ (a.entries.takeWhile fun e => Count.toEpoch e.1 ≤ upTo).map (·.1) ↔
      (∃ v, a.get? k = some v) ∧ (k : Int) ≤ upTo := by
    simp only [List.mem_map, mem_due hk, Prod.exists, exists_and_right, exists_eq_right]
  rw [get?_eraseAll]
  by_cases hdue : k ∈ (a.entries.takeWhile fun e => Count.toEpoch e.1 ≤ upTo).map (·.1)
  · rw [if_pos hdue, if_pos (hmem.1 hdue).2]
  · rw [if_neg hdue]
    split
    · next hle => exact Option.eq_none_iff_forall_ne_some.2 fun v hv => hdue (hmem.2 ⟨⟨v, hv⟩, hle⟩)
    · rfl

/-! ### Accesses that succeed -/

@[simp] theorem checkIndex_eq_ok {u : Unit} : checkIndex i = .ok u ↔ i ≤ greatestIndex := by
  unfold checkIndex
  split <;> simp_all

/-- Epochs are indices. -/
theorem le_greatestIndex_of_lt (h : i < 0x8000000000000000) : i ≤ greatestIndex := by
  unfold greatestIndex
  omega

@[simp] theorem read_eq_ok {o : Option α} : a.read i = .ok o ↔ i ≤ greatestIndex ∧ a.get? i = o := by
  simp [read]

@[simp] theorem write_eq_ok : a.write i v = .ok b ↔ i ≤ greatestIndex ∧ a.insert i v = b := by
  simp [write]

@[simp] theorem remove_eq_ok {r : SparseArray α × Bool} :
    a.remove i = .ok r ↔ i ≤ greatestIndex ∧ (a.erase i, (a.get? i).isSome) = r := by
  simp [remove]

/-! ### Counts and sums -/

section Total

variable {M : Type} [AddCommGroup M]

/-- The sum of a function over the values. -/
def total (f : α → M) (a : SparseArray α) : M := (a.values.map f).sum

@[simp] theorem total_empty (f : α → M) : total f ∅ = 0 := rfl

theorem sum_insertEntry (f : α → M) {es : List (Nat × α)} (h : es.Pairwise (·.1 < ·.1)) :
    ((insertEntry i v es).map fun e => f e.2).sum =
      (es.map fun e => f e.2).sum - ((lookupEntry i es).map f).getD 0 + f v := by
  fun_induction insertEntry i v es with
  | case1 => simp [lookupEntry]
  | case2 j w rest hlt =>
    rw [lookupEntry_of_lt_head h hlt]
    simp only [List.map_cons, List.sum_cons, Option.map_none, Option.getD_none]
    abel
  | case3 w rest hlt =>
    simp only [lookupEntry, if_true, List.map_cons, List.sum_cons, Option.map_some, Option.getD_some]
    abel
  | case4 j w rest hlt hne ih =>
    simp only [lookupEntry, hne, if_false, List.map_cons, List.sum_cons, ih h.of_cons]
    abel

/-- Storing a value adds its share and takes away that of the value it replaces. -/
theorem total_insert (f : α → M) (a : SparseArray α) (i : Nat) (v : α) :
    total f (a.insert i v) = total f a - ((a.get? i).map f).getD 0 + f v := by
  simp only [total, values, List.map_map]
  exact sum_insertEntry f a.ascending

/-- A value that is missing counts as one that has no share. -/
theorem total_insert_getD (f : α → M) {w₀ : α} (h₀ : f w₀ = 0) (a : SparseArray α) (i : Nat) (v : α) :
    total f (a.insert i v) = total f a + (f v - f ((a.get? i).getD w₀)) := by
  rw [total_insert]
  cases a.get? i with
  | none =>
    simp only [Option.map_none, Option.getD_none, h₀]
    abel
  | some w =>
    simp only [Option.map_some, Option.getD_some]
    abel

theorem total_insert_of_get? (f : α → M) {w : α} (h : a.get? i = some v) :
    total f (a.insert i w) = total f a + (f w - f v) := by
  rw [total_insert, h, Option.map_some, Option.getD_some]
  abel

/-- A value that is dropped takes its share away. -/
theorem total_erase (f : α → M) (h : a.get? i = some v) : total f (a.erase i) = total f a - f v := by
  have hself : (a.erase i).insert i v = a := ext fun j => by
    rw [get?_insert, get?_erase]
    split
    · next hj => rw [hj, h]
    · rfl
  have htotal := total_insert f (a.erase i) i v
  rw [hself, get?_erase, if_pos rfl, Option.map_none, Option.getD_none, sub_zero] at htotal
  rw [htotal, add_sub_cancel_right]

/-- What holds of every share, and of sums, holds of the sum. -/
theorem total_induction {f : α → M} {P : M → Prop} (hadd : ∀ x y, P x → P y → P (x + y)) (hzero : P 0)
    (h : ∀ i v, a.get? i = some v → P (f v)) : P (total f a) := by
  refine List.sum_induction P hadd hzero fun x hx => ?_
  obtain ⟨v, hv, rfl⟩ := List.mem_map.1 hx
  obtain ⟨e, he, rfl⟩ := List.mem_map.1 hv
  exact h e.1 e.2 (mem_entries.1 he)

end Total

/-- A value has at most the share of all, if no share is negative. -/
theorem le_total {f : α → Int} (hf : ∀ v, 0 ≤ f v) (h : a.get? i = some v) : f v ≤ total f a := by
  refine List.single_le_sum (fun x hx => ?_) _ (List.mem_map_of_mem ?_)
  · obtain ⟨w, -, rfl⟩ := List.mem_map.1 hx
    exact hf w
  · exact List.mem_map.2 ⟨(i, v), get?_eq_some_iff.1 h, rfl⟩

/-- Larger shares make a larger sum. -/
theorem total_mono {f g : α → Int} (h : ∀ i v, a.get? i = some v → f v ≤ g v) : total f a ≤ total g a := by
  refine List.sum_le_sum fun v hv => ?_
  obtain ⟨e, he, rfl⟩ := List.mem_map.1 hv
  exact h e.1 e.2 (mem_entries.1 he)

theorem length_insertEntry {es : List (Nat × α)} (h : es.Pairwise (·.1 < ·.1)) :
    (insertEntry i v es).length = if (lookupEntry i es).isSome then es.length else es.length + 1 := by
  fun_induction insertEntry i v es with
  | case1 => simp [lookupEntry]
  | case2 j w rest hlt =>
    simp [lookupEntry_of_lt_head h hlt]
  | case3 w rest hlt => simp [lookupEntry]
  | case4 j w rest hlt hne ih =>
    simp only [lookupEntry, hne, if_false, List.length_cons, ih h.of_cons]
    split <;> rfl

theorem count_insert (a : SparseArray α) (i : Nat) (v : α) :
    (a.insert i v).count = if (a.get? i).isSome then a.count else a.count + 1 := length_insertEntry a.ascending

/-- A value that is replaced by one of the same kind leaves the kinds as they are. -/
theorem map_values_insert (f : α → β) {w : α} (h : a.get? i = some w) (hf : f v = f w) :
    (a.insert i v).values.map f = a.values.map f := by
  suffices run : ∀ es : List (Nat × α), es.Pairwise (·.1 < ·.1) → lookupEntry i es = some w →
      ((insertEntry i v es).map fun e => f e.2) = es.map fun e => f e.2 by
    simpa [values, insert, Function.comp_def] using run a.entries a.ascending h
  intro es hsorted hget
  induction es with
  | nil => cases hget
  | cons e es ih =>
    obtain ⟨j, u⟩ := e
    have hle : ¬i < j := fun hlt => by
      rw [lookupEntry_of_lt_head hsorted hlt] at hget
      cases hget
    rw [insertEntry, if_neg hle]
    by_cases hij : i = j
    · rw [lookupEntry, if_pos hij] at hget
      rw [if_pos hij, List.map_cons, List.map_cons, hf, Option.some.inj hget]
    · rw [lookupEntry, if_neg hij] at hget
      rw [if_neg hij, List.map_cons, List.map_cons, ih hsorted.of_cons hget]

@[simp] theorem length_values (a : SparseArray α) : a.values.length = a.count := List.length_map _

/-! ### What has left an array -/

/-- A value at an unused index joins the others. -/
theorem perm_values_insert (h : a.get? i = none) (v : α) : (a.insert i v).values.Perm (v :: a.values) := by
  suffices run : ∀ es : List (Nat × α), lookupEntry i es = none → (insertEntry i v es).Perm ((i, v) :: es) from
    (run a.entries h).map Prod.snd
  intro es hnone
  induction es with
  | nil => exact .refl _
  | cons e es ih =>
    obtain ⟨j, w⟩ := e
    rw [lookupEntry] at hnone
    split at hnone
    · cases hnone
    · next hne =>
      rw [insertEntry, if_neg hne]
      split
      · exact .refl _
      · exact ((ih hnone).cons _).trans (.swap _ _ _)

/-- The values at the indices that a later array does not use. -/
def departed (a b : SparseArray α) : List α := (a.entries.filter fun e => (b.get? e.1).isNone).map (·.2)

theorem mem_departed : v ∈ departed a b ↔ ∃ i, a.get? i = some v ∧ b.get? i = none := by
  simp only [departed, List.mem_map, List.mem_filter, mem_entries, Option.isNone_iff_eq_none, Prod.exists]
  constructor
  · rintro ⟨i, w, h, rfl⟩
    exact ⟨i, h⟩
  · rintro ⟨i, h⟩
    exact ⟨i, v, h, rfl⟩

/-- What has left by removals are the values at the removed indices. -/
theorem mem_departed_eraseAll {is : List Nat} : v ∈ departed a (a.eraseAll is) ↔ ∃ i ∈ is, a.get? i = some v := by
  rw [mem_departed]
  refine exists_congr fun i => ?_
  rw [get?_eraseAll, and_comm]
  refine and_congr_left fun hv => ?_
  rw [ite_eq_left_iff, hv]
  exact ⟨fun h => by_contra fun hi => Option.some_ne_none v (h hi), fun hi hn => absurd hi hn⟩

/-- If values only leave, they are those of before, without those that have left. -/
theorem perm_departed (h : ∀ i v, b.get? i = some v → a.get? i = some v) :
    a.values.Perm (b.values ++ departed a b) := by
  have hkept : (a.entries.filter fun e => !(b.get? e.1).isNone).Perm b.entries := by
    refine (List.perm_ext_iff_of_nodup (a.nodup_entries.filter _) b.nodup_entries).2 fun e => ?_
    rw [List.mem_filter, mem_entries, mem_entries]
    constructor
    · rintro ⟨ha, hsome⟩
      cases hb : b.get? e.1 with
      | none => simp [hb] at hsome
      | some w => exact (h _ _ hb).symm.trans ha
    · intro hb
      exact ⟨h _ _ hb, by rw [hb]; rfl⟩
  have hsplit : a.entries.Perm (b.entries ++ a.entries.filter fun e => (b.get? e.1).isNone) :=
    ((List.filter_append_perm (fun e => (b.get? e.1).isNone) a.entries).symm.trans List.perm_append_comm).trans
      (hkept.append_right _)
  have hvalues := hsplit.map (·.2)
  rwa [List.map_append] at hvalues

/-- They take their share of the sum along. -/
theorem sum_departed {M : Type} [AddCommGroup M] (f : α → M) (h : ∀ i v, b.get? i = some v → a.get? i = some v) :
    ((departed a b).map f).sum = total f a - total f b := by
  have hsum := ((perm_departed h).map f).sum_eq
  rw [List.map_append, List.sum_append] at hsum
  rw [total, hsum, total, add_sub_cancel_left]

/-- What becomes of the values, some of which may be left out. -/
def filterMap (f : Nat → α → Option β) (a : SparseArray α) : SparseArray β where
  entries := a.entries.filterMap fun e => (f e.1 e.2).map (e.1, ·)
  ascending := by
    refine List.pairwise_filterMap.2 (a.ascending.imp fun {e e'} hlt x hx y hy => ?_)
    obtain ⟨v, -, rfl⟩ := Option.map_eq_some_iff.1 hx
    obtain ⟨w, -, rfl⟩ := Option.map_eq_some_iff.1 hy
    exact hlt

@[simp] theorem get?_filterMap (f : Nat → α → Option β) (a : SparseArray α) (i : Nat) :
    (a.filterMap f).get? i = (a.get? i).bind (f i) := by
  refine Option.ext fun w => ?_
  rw [get?_eq_some_iff, filterMap, List.mem_filterMap, Option.bind_eq_some_iff]
  constructor
  · rintro ⟨⟨j, v⟩, hv, hw⟩
    obtain ⟨w', hw', heq⟩ := Option.map_eq_some_iff.1 hw
    obtain ⟨rfl, rfl⟩ := Prod.mk.inj heq
    exact ⟨v, mem_entries.1 hv, hw'⟩
  · rintro ⟨v, hv, hw⟩
    exact ⟨(i, v), mem_entries.2 hv, by rw [hw]; rfl⟩

/-! ### Arrays without gaps -/

/-- The occupied indices are the first ones. -/
def Packed (a : SparseArray α) : Prop := ∀ i, (∃ v, a.get? i = some v) ↔ i < a.count

@[simp] theorem count_empty : (∅ : SparseArray α).count = 0 := rfl

theorem packed_empty : Packed (∅ : SparseArray α) := fun i => by simp

theorem mem_indices : i ∈ a.indices ↔ ∃ v, a.get? i = some v := mem_keys

/-- If the first indices are occupied, no others are. -/
theorem indices_eq_range (h : ∀ i < a.count, ∃ v, a.get? i = some v) : a.indices = List.range a.count := by
  have hsorted : a.indices.Pairwise (· < ·) := List.pairwise_map.2 a.ascending
  have hnodup : a.indices.Nodup := hsorted.imp fun hlt => Nat.ne_of_lt hlt
  have hsub : List.range a.count ⊆ a.indices := fun i hi => mem_indices.2 (h i (List.mem_range.1 hi))
  have hlen : a.indices.length ≤ (List.range a.count).length := by rw [List.length_range]; simp [indices, count]
  have hperm : (List.range a.count).Perm a.indices :=
    (List.subperm_of_subset List.nodup_range hsub).perm_of_length_le hlen
  exact hperm.symm.eq_of_pairwise (fun _ _ _ _ h₁ h₂ => absurd h₁ (Nat.lt_asymm h₂)) hsorted List.pairwise_lt_range

theorem packed_of_forall_lt (h : ∀ i < a.count, ∃ v, a.get? i = some v) : a.Packed := fun i => by
  rw [← mem_indices, indices_eq_range h, List.mem_range]

variable {M : Type} [AddCommGroup M]

/-- The sum over the values at some indices. -/
def totalAt (f : α → M) (a : SparseArray α) (is : List Nat) : M := (is.map fun i => ((a.get? i).map f).getD 0).sum

theorem totalAt_cons (f : α → M) (a : SparseArray α) (i : Nat) (is : List Nat) :
    totalAt f a (i :: is) = ((a.get? i).map f).getD 0 + totalAt f a is := rfl

/-- When several values are dropped, each takes its share away. -/
theorem total_eraseAll (f : α → M) (a : SparseArray α) {is : List Nat} (hnd : is.Nodup) :
    total f (a.eraseAll is) = total f a - totalAt f a is := by
  induction is generalizing a with
  | nil => exact (sub_zero _).symm
  | cons i is ih =>
    obtain ⟨hi, hnd⟩ := List.nodup_cons.1 hnd
    have hothers : totalAt f (a.erase i) is = totalAt f a is := by
      refine congrArg List.sum (List.map_congr_left fun j hj => ?_)
      rw [get?_erase, if_neg fun (he : j = i) => hi (he ▸ hj)]
    have hone : total f (a.erase i) = total f a - ((a.get? i).map f).getD 0 := by
      cases h : a.get? i with
      | some v => exact total_erase f h
      | none =>
        have hself : a.erase i = a := ext fun j => by
          rw [get?_erase]
          split
          · next hj => rw [hj, h]
          · rfl
        rw [hself, Option.map_none, Option.getD_none, sub_zero]
    calc total f (a.eraseAll (i :: is))
      _ = total f (a.erase i) - totalAt f (a.erase i) is := ih (a.erase i) hnd
      _ = total f a - totalAt f a (i :: is) := by rw [hothers, hone, totalAt_cons, sub_sub]

theorem totalAt_append (f : α → M) (h : a.get? i = some v) (is : List Nat) :
    totalAt f a (is ++ [i]) = totalAt f a is + f v := by
  simp [totalAt, h]

namespace Packed

/-- One more value comes at a used index or right after them. -/
theorem insert (h : a.Packed) (hi : i ≤ a.count) (v : α) : (a.insert i v).Packed := by
  have hsome : (a.get? i).isSome = true ↔ i < a.count := by rw [Option.isSome_iff_exists, h]
  intro j
  rw [get?_insert, count_insert]
  by_cases hlt : i < a.count
  · rw [if_pos (hsome.2 hlt)]
    split
    · next he => simp [he, hlt]
    · exact h j
  · rw [if_neg fun hs => hlt (hsome.1 hs)]
    split
    · next he => simp only [Option.some.injEq, exists_eq', true_iff]; omega
    · next hne => rw [h]; omega

theorem count_insert (h : a.Packed) (hi : i ≤ a.count) (v : α) : (a.insert i v).count = max a.count (i + 1) := by
  have hsome : (a.get? i).isSome = true ↔ i < a.count := by rw [Option.isSome_iff_exists, h]
  rw [SparseArray.count_insert]
  by_cases hlt : i < a.count
  · rw [if_pos (hsome.2 hlt)]
    omega
  · rw [if_neg fun hs => hlt (hsome.1 hs)]
    omega

theorem get?_count (h : a.Packed) : a.get? a.count = none :=
  Option.eq_none_iff_forall_ne_some.2 fun v hv => Nat.lt_irrefl _ ((h a.count).1 ⟨v, hv⟩)

/-- A sum over the values runs through the indices. -/
theorem total_eq_totalAt (h : a.Packed) (f : α → M) : total f a = totalAt f a (List.range a.count) := by
  rw [← indices_eq_range fun i hi => (h i).2 hi, total, totalAt, values, indices, List.map_map, List.map_map]
  refine congrArg List.sum (List.map_congr_left fun e he => ?_)
  simp [mem_entries.1 he]

/-- The values in order are the values by index. -/
theorem getElem?_values (h : a.Packed) (i : Nat) : a.values[i]? = a.get? i := by
  by_cases hi : i < a.count
  · have hlen : i < a.entries.length := hi
    have hindex : (a.entries[i]).1 = i := by
      have hrange := indices_eq_range fun j hj => (h j).2 hj
      have hget := congrArg (·[i]?) hrange
      simp only [indices, List.getElem?_map, List.getElem?_eq_getElem hlen, Option.map_some,
        List.getElem?_range hi, Option.some.injEq] at hget
      exact hget
    have hin := mem_entries.1 (List.getElem_mem hlen)
    rw [hindex] at hin
    rw [hin, values, List.getElem?_map, List.getElem?_eq_getElem hlen, Option.map_some]
  · rw [List.getElem?_eq_none (by rw [length_values]; omega)]
    exact (Option.eq_none_iff_forall_ne_some.2 fun v hv => hi ((h i).1 ⟨v, hv⟩)).symm

/-- A value comes at the last place, or after it. -/
theorem values_insert_last (h : a.Packed) (hi : i ≤ a.count) (hlast : a.count ≤ i + 1) (v : α) :
    (a.insert i v).values = a.values.take i ++ [v] := by
  refine List.ext_getElem? fun j => ?_
  rw [(h.insert hi v).getElem?_values, get?_insert, List.getElem?_append, List.length_take, length_values,
    Nat.min_eq_left hi]
  by_cases hlt : j < i
  · rw [if_neg (Nat.ne_of_lt hlt), if_pos hlt, List.getElem?_take_of_lt hlt, h.getElem?_values]
  · rw [if_neg hlt]
    split
    · next heq => rw [heq, Nat.sub_self, List.getElem?_cons_zero]
    · next hne =>
      rw [List.getElem?_eq_none (by simp only [List.length_singleton]; omega)]
      exact Option.eq_none_iff_forall_ne_some.2 fun v hv => by
        have := (h j).1 ⟨v, hv⟩
        omega

theorem total_insert_count (h : a.Packed) (f : α → M) (v : α) :
    total f (a.insert a.count v) = total f a + f v := by
  rw [total_insert, h.get?_count, Option.map_none, Option.getD_none, sub_zero]

end Packed

end SparseArray

end SectorLedger
