import SectorLedger.Terminations
import SectorLedger.Proofs.NumberSet

/-!
# Terminations that are taken out to be settled

What is taken out is listed by the epoch at which the sectors ended. A list is exact if its epochs ascend and its count
is the number of sectors in it. Lists are added up, and stay exact as long as they have no pair of an epoch and a
sector in common.

* `Terminations.Lists`, `Terminations.Exact`: what a list says, and when it is exact.
* `Taken`: what was pending is either listed or left, and not both.
* `Taken.file`, `Taken.add`: more is taken.
* `Taken.lift`: what is taken from one of several parts is taken from the whole.
-/

namespace SectorLedger

open NumberSet

variable {epoch e : Int} {ns : NumberSet} {n : Nat} {es acc : List (Int × NumberSet)}

/-- The number stands under the epoch. -/
def ListedIn (es : List (Int × NumberSet)) (epoch : Int) (n : Nat) : Prop := ∃ ns, (epoch, ns) ∈ es ∧ n ∈ ns

@[simp] theorem listedIn_nil : ¬ListedIn [] e n := fun ⟨_, h, _⟩ => List.not_mem_nil h

@[simp] theorem listedIn_cons {c : Int × NumberSet} :
    ListedIn (c :: es) e n ↔ (e = c.1 ∧ n ∈ c.2) ∨ ListedIn es e n := by
  obtain ⟨epoch, ns⟩ := c
  simp only [ListedIn, List.mem_cons, Prod.mk.injEq, or_and_right, exists_or, and_assoc, exists_and_left,
    exists_eq_left]

/-! ### Lists by epoch -/

theorem mem_mergeByEpoch {c : Int × NumberSet} (h : c ∈ mergeByEpoch epoch ns es) :
    c.1 = epoch ∨ ∃ d ∈ es, d.1 = c.1 := by
  fun_induction mergeByEpoch epoch ns es with
  | case1 => simp_all
  | case2 => grind
  | case3 => grind
  | case4 e old rest hlt hne ih =>
    rcases List.mem_cons.1 h with rfl | h
    · exact .inr ⟨_, List.mem_cons_self, rfl⟩
    · exact (ih h).imp_right fun ⟨d, hd, he⟩ => ⟨d, List.mem_cons_of_mem _ hd, he⟩

theorem pairwise_mergeByEpoch (h : es.Pairwise (·.1 < ·.1)) : (mergeByEpoch epoch ns es).Pairwise (·.1 < ·.1) := by
  fun_induction mergeByEpoch epoch ns es with
  | case1 => exact List.pairwise_singleton _ _
  | case2 e old rest hlt =>
    refine List.pairwise_cons.2 ⟨fun c hc => ?_, h⟩
    rcases List.mem_cons.1 hc with rfl | hc
    · exact hlt
    · exact hlt.trans ((List.pairwise_cons.1 h).1 c hc)
  | case3 old rest hlt => exact List.pairwise_cons.2 (List.pairwise_cons.1 h)
  | case4 e old rest hlt hne ih =>
    obtain ⟨hhead, hrest⟩ := List.pairwise_cons.1 h
    refine List.pairwise_cons.2 ⟨fun c hc => ?_, ih hrest⟩
    rcases mem_mergeByEpoch hc with hc | ⟨d, hd, he⟩
    · simp only at hc ⊢
      omega
    · exact he ▸ hhead d hd

theorem listedIn_mergeByEpoch : ListedIn (mergeByEpoch epoch ns es) e n ↔ ListedIn es e n ∨ (e = epoch ∧ n ∈ ns) := by
  fun_induction mergeByEpoch epoch ns es with
  | case1 => simp
  | case2 e' old rest hlt =>
    rw [listedIn_cons]
    exact or_comm
  | case3 old rest hlt =>
    simp only [listedIn_cons, mem_union]
    tauto
  | case4 e' old rest hlt hne ih =>
    simp only [listedIn_cons, ih, or_assoc]

/-- How many numbers stand in a list. -/
def listedCount : List (Int × NumberSet) → Nat
  | [] => 0
  | c :: es => c.2.count + listedCount es

theorem listedCount_mergeByEpoch (h : ∀ n ∈ ns, ¬ListedIn es epoch n) :
    listedCount (mergeByEpoch epoch ns es) = listedCount es + ns.count := by
  fun_induction mergeByEpoch epoch ns es with
  | case1 => simp [listedCount]
  | case2 e old rest hlt =>
    simp only [listedCount]
    omega
  | case3 old rest hlt =>
    have hdis : ∀ n ∈ old, n ∉ ns := fun n hn hn' => h n hn' (listedIn_cons.2 (.inl ⟨rfl, hn⟩))
    simp only [listedCount, count_union hdis]
    omega
  | case4 e old rest hlt hne ih =>
    have hcount := ih fun n hn hl => h n hn (listedIn_cons.2 (.inr hl))
    simp only [listedCount] at hcount ⊢
    omega

/-- A list is merged into another that has nothing in common with it. -/
theorem foldl_mergeByEpoch (hes : es.Pairwise (·.1 < ·.1)) (hacc : acc.Pairwise (·.1 < ·.1))
    (h : ∀ e n, ListedIn es e n → ¬ListedIn acc e n) {sum : List (Int × NumberSet)}
    (hsum : es.foldl (fun acc c => mergeByEpoch c.1 c.2 acc) acc = sum) :
    sum.Pairwise (·.1 < ·.1) ∧ (∀ e n, ListedIn sum e n ↔ ListedIn acc e n ∨ ListedIn es e n) ∧
      listedCount sum = listedCount acc + listedCount es := by
  induction es generalizing acc with
  | nil =>
    obtain rfl : acc = sum := hsum
    exact ⟨hacc, fun e n => (or_iff_left listedIn_nil).symm, rfl⟩
  | cons c es ih =>
    obtain ⟨hhead, hrest⟩ := List.pairwise_cons.1 hes
    have hapart : ∀ e n, ListedIn es e n → ¬ListedIn (mergeByEpoch c.1 c.2 acc) e n := by
      intro e n hl hl'
      rcases listedIn_mergeByEpoch.1 hl' with hl' | ⟨rfl, -⟩
      · exact h e n (listedIn_cons.2 (.inr hl)) hl'
      · obtain ⟨ns, hns, -⟩ := hl
        exact lt_irrefl _ (hhead (c.1, ns) hns)
    obtain ⟨hascending, hlisted, hcount⟩ := ih hrest (pairwise_mergeByEpoch hacc) hapart hsum
    refine ⟨hascending, fun e n => ?_, ?_⟩
    · rw [hlisted, listedIn_mergeByEpoch, listedIn_cons, or_assoc]
    · rw [hcount, listedCount_mergeByEpoch fun n hn => h c.1 n (listedIn_cons.2 (.inl ⟨rfl, hn⟩))]
      simp only [listedCount]
      omega

/-! ### What was taken -/

namespace Terminations

/-- The sector is listed as one that ended at the epoch. -/
def Lists (t : Terminations) (epoch : Int) (n : Nat) : Prop := ListedIn t.sectors epoch n

/-- The epochs ascend, and the count is the number of sectors. -/
structure Exact (t : Terminations) : Prop where
  /-- No epoch stands twice, and they ascend. -/
  ascending : t.sectors.Pairwise (·.1 < ·.1)
  /-- The number of sectors. -/
  processed_eq : t.processed = listedCount t.sectors

end Terminations

variable {pending left rest : Int → Nat → Prop} {t u : Terminations}

/-- What was pending is listed or left, and nothing is both. -/
structure Taken (pending left : Int → Nat → Prop) (t : Terminations) : Prop where
  /-- Everything that was pending, and nothing else, is listed or left. -/
  split : ∀ e n, pending e n ↔ t.Lists e n ∨ left e n
  /-- What is listed is not left. -/
  apart : ∀ e n, t.Lists e n → ¬left e n
  /-- The list is exact. -/
  exact : t.Exact

namespace Taken

/-- Nothing is taken. -/
theorem none (pending : Int → Nat → Prop) {t : Terminations} (hs : t.sectors = []) (hp : t.processed = 0) :
    Taken pending pending t where
  split e n := by
    rw [Terminations.Lists, hs]
    exact (or_iff_right listedIn_nil).symm
  apart e n h := by
    rw [Terminations.Lists, hs] at h
    exact absurd h listedIn_nil
  exact := ⟨hs ▸ .nil, by rw [hp, hs]; rfl⟩

theorem of_left (h : Taken pending left t) {e : Int} {n : Nat} (hn : left e n) : pending e n :=
  (h.split e n).2 (.inr hn)

/-- Numbers under an epoch are taken from what was left. -/
theorem file (h : Taken pending left t) (hleft : ∀ e n, left e n ↔ (e = epoch ∧ n ∈ ns) ∨ rest e n)
    (hrest : ∀ n ∈ ns, ¬rest epoch n) :
    Taken pending rest
      { t with sectors := mergeByEpoch epoch ns t.sectors, processed := t.processed + ns.count } where
  split e n := by
    rw [h.split, hleft, Terminations.Lists, Terminations.Lists, listedIn_mergeByEpoch, or_assoc]
  apart e n hl hr := by
    rcases listedIn_mergeByEpoch.1 hl with hl | ⟨rfl, hn⟩
    · exact h.apart e n hl ((hleft e n).2 (.inr hr))
    · exact hrest n hn hr
  exact := ⟨pairwise_mergeByEpoch h.exact.ascending, by
    rw [h.exact.processed_eq, listedCount_mergeByEpoch fun n hn hl =>
      h.apart epoch n hl ((hleft epoch n).2 (.inl ⟨rfl, hn⟩))]⟩

/-- First one list is taken and then another. -/
theorem add (h : Taken pending left t) (h' : Taken left rest u)
    (hpartitions : t.partitions + u.partitions < Count.bound) (hprocessed : t.processed + u.processed < Count.bound) :
    ∃ s, t.add u = .ok s ∧ s.partitions = t.partitions + u.partitions ∧ s.processed = t.processed + u.processed ∧
      Taken pending rest s := by
  have hapart : ∀ e n, ListedIn u.sectors e n → ¬ListedIn t.sectors e n := fun e n hu ht =>
    h.apart e n ht ((h'.split e n).2 (.inl hu))
  obtain ⟨hascending, hlisted, hcount⟩ := foldl_mergeByEpoch h'.exact.ascending h.exact.ascending hapart rfl
  refine ⟨_, by
    simp only [Terminations.add, bind_eq_ok, Count.add_eq_ok, pure_eq_ok]
    exact ⟨_, ⟨hpartitions, rfl⟩, _, ⟨hprocessed, rfl⟩, rfl⟩, rfl, rfl, fun e n => ?_, fun e n hl => ?_, hascending, ?_⟩
  · rw [h.split, h'.split, Terminations.Lists, Terminations.Lists, Terminations.Lists, hlisted, or_assoc]
  · rcases (hlisted e n).1 hl with hl | hl
    · exact fun hr => h.apart e n hl (h'.of_left hr)
    · exact h'.apart e n hl
  · rw [hcount, h.exact.processed_eq, h'.exact.processed_eq]

/-- What is taken from one part is taken from the whole, if no pair is pending in two parts. -/
theorem lift {ι : Type} {parts parts' : ι → Int → Nat → Prop} {i : ι} (h : Taken (parts i) (parts' i) t)
    (hother : ∀ j ≠ i, parts' j = parts j) (honce : ∀ j e n, parts j e n → parts i e n → j = i) :
    Taken (fun e n => ∃ j, parts j e n) (fun e n => ∃ j, parts' j e n) t where
  split e n := by
    constructor
    · rintro ⟨j, hj⟩
      by_cases hji : j = i
      · subst hji
        exact ((h.split e n).1 hj).imp_right fun hl => ⟨j, hl⟩
      · exact .inr ⟨j, by rwa [hother j hji]⟩
    · rintro (hl | ⟨j, hj⟩)
      · exact ⟨i, (h.split e n).2 (.inl hl)⟩
      · by_cases hji : j = i
        · exact ⟨i, h.of_left (hji ▸ hj)⟩
        · exact ⟨j, by rwa [hother j hji] at hj⟩
  apart e n hl := by
    rintro ⟨j, hj⟩
    by_cases hji : j = i
    · exact h.apart e n hl (hji ▸ hj)
    · rw [hother j hji] at hj
      exact hji (honce j e n hj ((h.split e n).2 (.inl hl)))
  exact := h.exact

end Taken

end SectorLedger
