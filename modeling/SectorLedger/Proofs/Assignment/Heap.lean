import SectorLedger.Proofs.Assignment.Preference

/-!
# The heap of candidates

The candidates stand in an array, each under the one at `parent` of its position, and none comes before the one
above it. So the first one comes before all others. Sifting down a candidate repairs the order below it.

* `perm_of_siftDown`: sifting only moves candidates.
* `Ordered`: the order, from a position on. `siftDown_total`: sifting succeeds and repairs it.
* `ofList_total`: the heap of some candidates. `Ordered.first`: its first candidate.
-/

namespace SectorLedger.CandidateHeap

open Candidate

variable {limits : AssignmentLimits} {h h' : CandidateHeap} {i j k : Nat} {a b : Candidate}

/-- The position above a position. There is none above the first. -/
def parent (j : Nat) : Nat := (j - 1) / 2

theorem parent_lt (h : 0 < j) : parent j < j := by
  unfold parent
  omega

theorem parent_left (i : Nat) : parent (2 * i + 1) = i := by
  unfold parent
  omega

theorem parent_right (i : Nat) : parent (2 * i + 2) = i := by
  unfold parent
  omega

theorem eq_left_or_right (h : 0 < j) : j = 2 * parent j + 1 ∨ j = 2 * parent j + 2 := by
  unfold parent
  omega

/-! ### Candidates move -/

theorem perm_swapIfInBounds (h : CandidateHeap) (i j : Nat) : (h.swapIfInBounds i j).Perm h := by
  rw [Array.swapIfInBounds_def]
  split
  · split
    · exact Array.swap_perm _ _
    · exact Array.Perm.refl h
  · exact Array.Perm.refl h

theorem getElem?_swapIfInBounds (hi : i < h.size) (hj : j < h.size) (k : Nat) :
    (h.swapIfInBounds i j)[k]? = if k = j then h[i]? else if k = i then h[j]? else h[k]? := by
  rw [Array.swapIfInBounds_def, dif_pos hi, dif_pos hj, Array.getElem?_swap]
  simp only [eq_comm (b := k), Array.getElem?_eq_getElem hi, Array.getElem?_eq_getElem hj]

/-- Sifting only moves candidates. -/
theorem perm_of_siftDown (hs : siftDown limits h i = .ok h') : h'.Perm h := by
  induction h, i using siftDown.induct with
  | case1 h i hr ih =>
    rw [siftDown, dif_pos hr] at hs
    simp only [bind_eq_ok] at hs
    obtain ⟨leftFirst, -, swap, -, hs⟩ := hs
    cases swap with
    | false => exact pure_eq_ok.1 hs ▸ Array.Perm.refl h
    | true => exact (ih leftFirst hs).trans (perm_swapIfInBounds h i _)
  | case2 h i hr hl =>
    rw [siftDown, dif_neg hr, dif_pos hl] at hs
    simp only [bind_eq_ok, pure_eq_ok] at hs
    obtain ⟨swap, -, rfl⟩ := hs
    cases swap with
    | false => exact Array.Perm.refl h
    | true => exact perm_swapIfInBounds h i _
  | case3 h i hr hl =>
    rw [siftDown, dif_neg hr, dif_neg hl, pure_eq_ok] at hs
    exact hs ▸ Array.Perm.refl h

/-! ### Their order -/

/-- The candidates below the positions from `k` on do not come before the ones above them. -/
def Ordered (limits : AssignmentLimits) (k : Nat) (h : CandidateHeap) : Prop :=
  ∀ j a b, 0 < j → k ≤ parent j → h[j]? = some a → h[parent j]? = some b → ¬Before limits a b

/-- The same but perhaps for those right below `i`, which do not come before the one above `i`. -/
structure OrderedBut (limits : AssignmentLimits) (k i : Nat) (h : CandidateHeap) : Prop where
  /-- Elsewhere the order holds. -/
  except : ∀ j a b, 0 < j → k ≤ parent j → parent j ≠ i → h[j]? = some a → h[parent j]? = some b → ¬Before limits a b
  /-- Those right below may move up. -/
  grand : ∀ j a b, 0 < i → k ≤ parent i → 0 < j → parent j = i → h[j]? = some a → h[parent i]? = some b →
    ¬Before limits a b

/-- All candidates of the heap can be counted. -/
def Countable (h : CandidateHeap) : Prop := ∀ c ∈ h, c.Countable

theorem Countable.of_perm (hc : Countable h) (hp : h'.Perm h) : Countable h' := fun c hmem => hc c (hp.mem_iff.1 hmem)

theorem Countable.get (hc : Countable h) (hj : h[j]? = some a) : a.Countable := hc a (Array.mem_of_getElem? hj)

/-- None of the candidates right below a position comes before the given one. -/
def LeastBelow (limits : AssignmentLimits) (h : CandidateHeap) (i : Nat) (c : Candidate) : Prop :=
  ∀ j a, 0 < j → parent j = i → h[j]? = some a → ¬Before limits a c

theorem LeastBelow.of_children {c : Candidate} (hl : ∀ a, h[2 * i + 1]? = some a → ¬Before limits a c)
    (hr : ∀ a, h[2 * i + 2]? = some a → ¬Before limits a c) : LeastBelow limits h i c := by
  intro j a hj hp ha
  rcases eq_left_or_right hj with heq | heq <;> rw [heq, hp] at ha
  · exact hl a ha
  · exact hr a ha

/-- What one step of sifting does: it ends, as nothing right below comes before the candidate, or the first of
those below moves up and sifting goes on in its place. -/
inductive SiftStep (limits : AssignmentLimits) (h : CandidateHeap) (i : Nat) (hi : i < h.size) : Prop where
  /-- The candidate has arrived. -/
  | rest (hs : siftDown limits h i = .ok h) (least : LeastBelow limits h i h[i])
  /-- The candidate at `j` moves up. -/
  | move (j : Nat) (hj : j < h.size) (pos : 0 < j) (below : parent j = i)
    (hs : siftDown limits h i = siftDown limits (h.swapIfInBounds i j) j) (rises : Before limits h[j] h[i])
    (least : LeastBelow limits h i h[j])

theorem siftDown_leaf (hl : ¬2 * i + 1 < h.size) : siftDown limits h i = .ok h := by
  rw [siftDown, dif_neg (by omega), dif_neg hl]
  rfl

/-- The first of the candidates right below a position is compared with the one at the position. -/
theorem SiftStep.of_child (hs : limits.Sensible) (hc : Countable h) (hi : i < h.size) (hj : j < h.size) (pos : 0 < j)
    (below : parent j = i) (least : LeastBelow limits h i h[j])
    (hsift : siftDown limits h i = h[j].before limits h[i] >>= fun swap =>
      if swap then siftDown limits (h.swapIfInBounds i j) j else .ok h) : SiftStep limits h i hi := by
  have hcj : h[j].Countable := hc _ (Array.getElem_mem hj)
  have hci : h[i].Countable := hc _ (Array.getElem_mem hi)
  obtain ⟨swap, hswap, hiff⟩ := before_total hs hcj hci
  rw [hswap, ok_bind] at hsift
  cases swap with
  | false =>
    refine .rest hsift fun j' a hj' hp ha => ?_
    have hnot : ¬Before limits h[j] h[i] := fun hbefore => Bool.false_ne_true (hiff.2 hbefore)
    exact not_before_trans hs hci hcj (hc.get ha) hnot (least j' a hj' hp ha)
  | true => exact .move j hj pos below hsift (hiff.1 rfl) least

theorem siftStep (hs : limits.Sensible) (hc : Countable h) (hi : i < h.size) : SiftStep limits h i hi := by
  by_cases hl : 2 * i + 1 < h.size
  · have hleft : h[2 * i + 1].Countable := hc _ (Array.getElem_mem hl)
    have hgetl : ∀ a, h[2 * i + 1]? = some a → h[2 * i + 1] = a := fun a ha => (Array.getElem?_eq_some_iff.1 ha).2
    have hself : ∀ a, h[2 * i + 1]? = some a → ¬Before limits a h[2 * i + 1] := fun a ha =>
      hgetl a ha ▸ not_before_self hs hleft
    by_cases hr : 2 * i + 2 < h.size
    · have hright : h[2 * i + 2].Countable := hc _ (Array.getElem_mem hr)
      have hgetr : ∀ a, h[2 * i + 2]? = some a → h[2 * i + 2] = a := fun a ha => (Array.getElem?_eq_some_iff.1 ha).2
      obtain ⟨leftFirst, hfirst, hiff⟩ := before_total hs hleft hright
      have hsift : siftDown limits h i = h[2 * i + 1].before limits h[2 * i + 2] >>= fun leftFirst =>
          (if leftFirst then h[2 * i + 1] else h[2 * i + 2]).before limits h[i] >>= fun swap =>
            if swap then siftDown limits (h.swapIfInBounds i (if leftFirst then 2 * i + 1 else 2 * i + 2))
              (if leftFirst then 2 * i + 1 else 2 * i + 2) else .ok h := by
        rw [siftDown, dif_pos hr]
        rfl
      rw [hfirst, ok_bind] at hsift
      cases leftFirst with
      | false =>
        have hnot : ¬Before limits h[2 * i + 1] h[2 * i + 2] := fun hbefore => Bool.false_ne_true (hiff.2 hbefore)
        exact .of_child hs hc hi hr (by omega) (parent_right i) (.of_children (fun a ha => hgetl a ha ▸ hnot)
          fun a ha => hgetr a ha ▸ not_before_self hs hright) hsift
      | true =>
        have hnot : ¬Before limits h[2 * i + 2] h[2 * i + 1] := fun hbefore =>
          not_before_self hs hleft ((hiff.1 rfl).trans hs hleft hright hleft hbefore)
        exact .of_child hs hc hi hl (by omega) (parent_left i) (.of_children hself fun a ha => hgetr a ha ▸ hnot) hsift
    · refine .of_child hs hc hi hl (by omega) (parent_left i) (.of_children hself fun a ha => ?_) ?_
      · exact absurd (Array.getElem?_eq_some_iff.1 ha).1 hr
      · -- The last candidate has none below, so sifting ends there.
        rw [siftDown, dif_neg hr, dif_pos hl, siftDown_leaf (h := h.swapIfInBounds i (2 * i + 1))]
        · refine congrArg _ (funext fun swap => ?_)
          cases swap <;> rfl
        · rw [Array.size_swapIfInBounds]
          omega
  · refine .rest (siftDown_leaf hl) (.of_children (fun a ha => ?_) fun a ha => ?_)
    · exact absurd (Array.getElem?_eq_some_iff.1 ha).1 hl
    · have := (Array.getElem?_eq_some_iff.1 ha).1
      omega

/-- When a candidate moves up, only those right below its old position may be out of order. -/
theorem OrderedBut.move (hs : limits.Sensible) (hc : Countable h) (hi : i < h.size) (ho : OrderedBut limits k i h)
    (hj : j < h.size) (pos : 0 < j) (below : parent j = i) (rises : Before limits h[j] h[i])
    (least : LeastBelow limits h i h[j]) : OrderedBut limits k j (h.swapIfInBounds i j) := by
  have hij : i < j := below ▸ parent_lt pos
  have hget := getElem?_swapIfInBounds hi hj
  have hat : (h.swapIfInBounds i j)[i]? = some h[j] := by
    rw [hget, if_neg (Nat.ne_of_lt hij), if_pos rfl, Array.getElem?_eq_getElem hj]
  refine ⟨fun m a b hm hk hne ha hb => ?_, fun m a b _ hk hm hp ha hb => ?_⟩
  · by_cases hp : parent m = i
    · obtain rfl : h[j] = b := Option.some.inj (hat.symm.trans (hp ▸ hb))
      by_cases hmj : m = j
      · rw [hget, if_pos hmj, Array.getElem?_eq_getElem hi] at ha
        obtain rfl := Option.some.inj ha
        have hcj : h[j].Countable := hc _ (Array.getElem_mem hj)
        have hci : h[i].Countable := hc _ (Array.getElem_mem hi)
        exact fun hbefore => not_before_self hs hci (hbefore.trans hs hci hcj hci rises)
      · have hmi : m ≠ i := fun heq => Nat.ne_of_lt (parent_lt hm) (hp.trans heq.symm)
        rw [hget, if_neg hmj, if_neg hmi] at ha
        exact least m a hm hp ha
    · have hmj : m ≠ j := fun heq => hp (heq ▸ below)
      rw [hget, if_neg hne, if_neg hp] at hb
      rw [hget, if_neg hmj] at ha
      by_cases hmi : m = i
      · rw [if_pos hmi] at ha
        exact ho.grand j a b (hmi ▸ hm) (hmi ▸ hk) pos below ha (hmi ▸ hb)
      · rw [if_neg hmi] at ha
        exact ho.except m a b hm hk hp ha hb
  · have hjm : j < m := hp ▸ parent_lt hm
    rw [hget, if_neg (Nat.ne_of_gt hjm), if_neg (by omega)] at ha
    obtain rfl : h[j] = b := Option.some.inj (hat.symm.trans (below ▸ hb))
    refine ho.except m a h[j] hm (by omega) (by omega) ha ?_
    rw [hp, Array.getElem?_eq_getElem hj]

/-- **Sifting succeeds and repairs the order** below a position. -/
theorem siftDown_total (hs : limits.Sensible) (hc : Countable h) (hi : i < h.size) (ho : OrderedBut limits k i h) :
    ∃ h', siftDown limits h i = .ok h' ∧ Ordered limits k h' := by
  induction hn : h.size - i using Nat.strongRecOn generalizing h i with
  | ind n ih =>
    cases siftStep hs hc hi with
    | rest hsift least =>
      refine ⟨h, hsift, fun j a b hj hk ha hb => ?_⟩
      by_cases hp : parent j = i
      · have heq : h[i] = b := (Array.getElem?_eq_some_iff.1 (hp ▸ hb)).2
        exact heq ▸ least j a hj hp ha
      · exact ho.except j a b hj hk hp ha hb
    | move j hj pos below hsift rises least =>
      have hlt : i < j := below ▸ parent_lt pos
      have hsize : (h.swapIfInBounds i j).size = h.size := Array.size_swapIfInBounds
      rw [hsift]
      exact ih (h.size - j) (by omega) (hc.of_perm (perm_swapIfInBounds h i j)) (hsize ▸ hj)
        (ho.move hs hc hi hj pos below rises least) (by rw [hsize])

theorem Ordered.mono (ho : Ordered limits j h) (hk : j ≤ k) : Ordered limits k h := fun m a b hm hle =>
  ho m a b hm (Nat.le_trans hk hle)

/-- What is in order below a position is in order but for the position. -/
theorem Ordered.but (ho : Ordered limits (k + 1) h) : OrderedBut limits k k h where
  except j a b hj hk hne := ho j a b hj (by omega)
  grand j a b hk hle := absurd hle (Nat.not_le_of_lt (parent_lt hk))

/-- Those with others below are sifted down, the last first. -/
theorem siftAll_total {m : Nat} (hs : limits.Sensible) (hc : Countable h) (hm : m ≤ h.size) (ho : Ordered limits m h) :
    ∃ h', foldOutcome (siftDown limits) h (List.range m).reverse = .ok h' ∧ Ordered limits 0 h' := by
  induction m generalizing h with
  | zero => exact ⟨h, rfl, ho⟩
  | succ m ih =>
    obtain ⟨h₁, hsift, ho₁⟩ := siftDown_total hs hc (Nat.lt_of_succ_le hm) ho.but
    have hp := perm_of_siftDown hsift
    obtain ⟨h₂, hrest, ho₂⟩ := ih (hc.of_perm hp) (by rw [hp.size_eq]; omega) ho₁
    refine ⟨h₂, ?_, ho₂⟩
    rw [List.range_succ, List.reverse_append, List.reverse_singleton, List.singleton_append, foldOutcome_cons, hsift]
    exact hrest

/-- Building the heap only moves candidates. -/
theorem perm_of_ofList {cs : List Candidate} (hh : ofList limits cs = .ok h) : h.Perm cs.toArray :=
  foldOutcome_invariant (I := fun _ h => h.Perm cs.toArray) hh (Array.Perm.refl _)
    fun _ _ _ _ _ _ hp hsift => (perm_of_siftDown hsift).trans hp

/-- **Candidates form a heap.** -/
theorem ofList_total (hs : limits.Sensible) {cs : List Candidate} (hc : ∀ c ∈ cs, c.Countable) :
    ∃ h, ofList limits cs = .ok h ∧ Ordered limits 0 h := by
  refine siftAll_total hs (fun c hmem => hc c (List.mem_toArray.1 hmem)) ?_ fun j a b hj hk ha _ => ?_
  · rw [List.size_toArray]
    exact Nat.div_le_self _ _
  · -- A position whose parent is in the second half is beyond the end.
    have hlt : j < cs.toArray.size := (Array.getElem?_eq_some_iff.1 ha).1
    rw [List.size_toArray] at hlt
    unfold parent at hk
    omega

/-- None comes before the first candidate of the heap. -/
theorem Ordered.first (hs : limits.Sensible) (hc : Countable h) (ho : Ordered limits 0 h) {c : Candidate}
    (hfirst : h[0]? = some c) : ∀ a ∈ h, ¬Before limits a c := by
  have hall : ∀ (j : Nat) (a : Candidate), h[j]? = some a → ¬Before limits a c := by
    intro j
    induction j using Nat.strongRecOn with
    | ind j ih =>
      intro a ha
      rcases Nat.eq_zero_or_pos j with rfl | hj
      · obtain rfl := Option.some.inj (hfirst.symm.trans ha)
        exact not_before_self hs (hc.get ha)
      · have hlt : parent j < h.size := Nat.lt_trans (parent_lt hj) (Array.getElem?_eq_some_iff.1 ha).1
        have hp := Array.getElem?_eq_getElem hlt
        exact not_before_trans hs (hc.get hfirst) (hc.get hp) (hc.get ha) (ih _ (parent_lt hj) _ hp)
          (ho j a _ hj (Nat.zero_le _) ha hp)
  intro a ha
  obtain ⟨j, hj, rfl⟩ := Array.mem_iff_getElem.1 ha
  exact hall j _ (Array.getElem?_eq_getElem hj)

end SectorLedger.CandidateHeap
