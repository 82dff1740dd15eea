import SectorLedger.Proofs.Assignment.Heap
import Mathlib.Data.List.Induction
import Mathlib.Data.List.Nodup

/-!
# Who gets which sector

An assignment is told by the list of its targets: the index of the deadline that each sector goes to. The counts of
a candidate on the way, and the lists of sectors in the end, follow from the targets.

* `dealtTo`, `deal`: the sectors of one deadline, and of all.
* `Candidate.after`: a candidate's counts once some sectors have been given out.
* `assignNext_spec`, `Dealing.step`: one sector. `dealing_of_run`: all of them.
* `assignDeadlines_spec`: what a successful assignment gives out, and to whom.
-/

namespace SectorLedger

variable {α : Type} {i j n : Nat} {ss : List α} {s : α} {ts : List Nat}

/-! ### Sectors and their targets -/

/-- The elements whose target is the given index, in order. -/
def dealtTo (ss : List α) (ts : List Nat) (i : Nat) : List α := ((ss.zip ts).filter fun e => e.2 = i).map (·.1)

/-- The elements of each of the first indices. -/
def deal (n : Nat) (ss : List α) (ts : List Nat) : List (List α) := (List.range n).map (dealtTo ss ts)

theorem dealtTo_append (h : ts.length = ss.length) (s : α) (i j : Nat) :
    dealtTo (ss ++ [s]) (ts ++ [i]) j = dealtTo ss ts j ++ if i = j then [s] else [] := by
  rw [dealtTo, List.zip_append h.symm, List.filter_append, List.map_append, ← dealtTo]
  by_cases hij : i = j <;> simp [hij]

theorem length_dealtTo (h : ts.length = ss.length) (i : Nat) : (dealtTo ss ts i).length = ts.count i := by
  have hsnd : (ss.zip ts).map Prod.snd = ts := List.map_snd_zip (Nat.le_of_eq h)
  rw [dealtTo, List.length_map, ← List.countP_eq_length_filter]
  conv => rhs; rw [← hsnd]
  rw [List.count, List.countP_map]
  exact List.countP_congr fun e _ => by simp

/-- What a deadline gets keeps the order. -/
theorem sublist_dealtTo (h : ts.length = ss.length) (i : Nat) : (dealtTo ss ts i).Sublist ss := by
  have hfst : (ss.zip ts).map Prod.fst = ss := List.map_fst_zip (Nat.le_of_eq h.symm)
  have hsub := (List.filter_sublist (p := fun e : α × Nat => decide (e.2 = i)) (l := ss.zip ts)).map Prod.fst
  rwa [hfst] at hsub

@[simp] theorem length_deal : (deal n ss ts).length = n := by
  rw [deal, List.length_map, List.length_range]

theorem getElem?_deal (hi : i < n) : (deal n ss ts)[i]? = some (dealtTo ss ts i) := by
  rw [deal, List.getElem?_map, List.getElem?_range hi, Option.map_some]

theorem getElem?_deal_eq_some {as : List α} : (deal n ss ts)[i]? = some as ↔ i < n ∧ as = dealtTo ss ts i := by
  constructor
  · intro h
    have hi : i < n := by
      have := (List.getElem?_eq_some_iff.1 h).1
      rwa [length_deal] at this
    exact ⟨hi, Option.some.inj (h.symm.trans (getElem?_deal hi))⟩
  · rintro ⟨hi, rfl⟩
    exact getElem?_deal hi

theorem mem_dealtTo : s ∈ dealtTo ss ts i ↔ (s, i) ∈ ss.zip ts := by
  simp only [dealtTo, List.mem_map, List.mem_filter, decide_eq_true_eq, Prod.exists]
  constructor
  · rintro ⟨_, _, ⟨hmem, rfl⟩, rfl⟩
    exact hmem
  · exact fun hmem => ⟨s, i, ⟨hmem, rfl⟩, rfl⟩

/-- Each element goes to a target. -/
theorem exists_dealtTo (h : ts.length = ss.length) (hs : s ∈ ss) : ∃ i ∈ ts, s ∈ dealtTo ss ts i := by
  obtain ⟨a, ha, rfl⟩ := List.getElem_of_mem hs
  refine ⟨ts[a], List.getElem_mem _, mem_dealtTo.2 (List.mem_iff_getElem.2 ⟨a, ?_, List.getElem_zip⟩)⟩
  rw [List.length_zip]
  omega

/-- Elements that are different go to one target each. -/
theorem dealtTo_unique (hnodup : ss.Nodup) (h : ts.length = ss.length) (hi : s ∈ dealtTo ss ts i)
    (hj : s ∈ dealtTo ss ts j) : i = j := by
  have hfst : ((ss.zip ts).map Prod.fst).Nodup := by rwa [List.map_fst_zip (Nat.le_of_eq h.symm)]
  exact (Prod.mk.inj (List.inj_on_of_nodup_map hfst (mem_dealtTo.1 hi) (mem_dealtTo.1 hj) rfl)).2

/-- Who gets an element is a target. -/
theorem mem_of_dealtTo (h : ts.length = ss.length) (hne : dealtTo ss ts i ≠ []) : i ∈ ts := by
  have hpos := List.length_pos_iff.2 hne
  rw [length_dealtTo h] at hpos
  exact List.count_pos_iff.1 hpos

theorem deal_nil : deal n ([] : List α) [] = List.replicate n [] :=
  List.eq_replicate_iff.2 ⟨length_deal, fun _ hmem => by
    obtain ⟨i, -, rfl⟩ := List.mem_map.1 hmem
    rfl⟩

theorem pushAt_eq (a : α) (i : Nat) (l : List (List α)) :
    pushAt a i l = if i < l.length then .ok (l.modify i (· ++ [a])) else .error .fault := by
  induction i, l using pushAt.induct with
  | case1 i => cases i <;> rfl
  | case2 as rest => rfl
  | case3 i as rest ih =>
    rw [pushAt, ih, List.length_cons]
    by_cases hi : i < rest.length
    · rw [if_pos hi, if_pos (Nat.succ_lt_succ hi)]
      rfl
    · rw [if_neg hi, if_neg fun hlt => hi (Nat.lt_of_succ_lt_succ hlt)]
      rfl

/-- A sector more is given out. -/
theorem pushAt_deal (h : ts.length = ss.length) (hi : i < n) :
    pushAt s i (deal n ss ts) = .ok (deal n (ss ++ [s]) (ts ++ [i])) := by
  rw [pushAt_eq, length_deal, if_pos hi]
  refine congrArg _ (List.ext_getElem? fun j => ?_)
  rw [List.getElem?_modify]
  by_cases hj : j < n
  · rw [getElem?_deal hj, getElem?_deal hj, dealtTo_append h]
    by_cases hij : i = j <;> simp [hij]
  · have hbeyond : ∀ (ss : List α) (ts : List Nat), (deal n ss ts)[j]? = none := fun ss ts =>
      List.getElem?_eq_none (by rw [length_deal]; omega)
    rw [hbeyond, hbeyond]
    rfl

theorem flatten_modify (a : α) (l : List (List α)) (hi : i < l.length) :
    (l.modify i (· ++ [a])).flatten.Perm (l.flatten ++ [a]) := by
  induction l generalizing i with
  | nil => exact absurd hi (Nat.not_lt_zero i)
  | cons as l ih =>
    cases i with
    | zero =>
      rw [List.modify_zero_cons, List.flatten_cons, List.flatten_cons, List.append_assoc, List.append_assoc]
      exact List.perm_append_comm.append_left as
    | succ i =>
      rw [List.modify_succ_cons, List.flatten_cons, List.flatten_cons, List.append_assoc]
      exact (ih (Nat.lt_of_succ_lt_succ hi)).append_left as

/-- Every element is given out once. -/
theorem flatten_deal (h : ts.length = ss.length) (hn : ∀ i ∈ ts, i < n) : (deal n ss ts).flatten.Perm ss := by
  induction ss using List.reverseRecOn generalizing ts with
  | nil =>
    obtain rfl := List.eq_nil_of_length_eq_zero h
    rw [deal_nil, List.flatten_replicate_nil]
  | append_singleton ss s ih =>
    obtain ⟨ts, i, rfl⟩ : ∃ ts' i, ts = ts' ++ [i] := by
      refine ⟨ts.dropLast, ts.getLast fun hnil => ?_, (List.dropLast_append_getLast _).symm⟩
      simp [hnil] at h
    have hlength : ts.length = ss.length := by
      simpa using h
    have hi : i < n := hn i (List.mem_append_right ts (List.mem_singleton_self i))
    have hpush := pushAt_deal (s := s) hlength hi
    rw [pushAt_eq, length_deal, if_pos hi] at hpush
    rw [← Except.ok.inj hpush]
    refine (flatten_modify s _ (by rwa [length_deal])).trans ?_
    exact (ih hlength fun j hj => hn j (List.mem_append_left _ hj)).append_right [s]

theorem lt_of_pushAt_deal {l : List (List α)} (h : pushAt s i (deal n ss ts) = .ok l) : i < n := by
  rw [pushAt_eq, length_deal] at h
  by_contra hi
  rw [if_neg hi] at h
  cases h

/-! ### Candidates -/

namespace Candidate

/-- The candidate with some more sectors. -/
def grown (c : Candidate) (k : Nat) : Candidate := { c with live := c.live + k, total := c.total + k }

/-- The candidate once sectors have gone to the given targets. -/
def after (ts : List Nat) (c : Candidate) : Candidate := c.grown (ts.count c.index)

@[simp] theorem index_after (ts : List Nat) (c : Candidate) : (c.after ts).index = c.index := rfl

@[simp] theorem after_nil (c : Candidate) : c.after [] = c := rfl

theorem after_append_self (ts : List Nat) (c : Candidate) : c.after (ts ++ [c.index]) = (c.after ts).grown 1 := by
  rw [after, after, List.count_append, List.count_singleton_self]
  rfl

theorem after_append_of_ne (ts : List Nat) (c : Candidate) (h : c.index ≠ i) : c.after (ts ++ [i]) = c.after ts := by
  rw [after, after, List.count_append, List.count_singleton, beq_eq_false_iff_ne.2 (Ne.symm h)]
  rfl

theorem grow_eq_ok {c c' : Candidate} : c.grow = .ok c' → c' = c.grown 1 := by
  simp only [grow, bind_eq_ok, Count.add_eq_ok, pure_eq_ok]
  rintro ⟨_, ⟨-, rfl⟩, _, ⟨-, rfl⟩, rfl⟩
  rfl

theorem isFull_eq_ok {limits : AssignmentLimits} {c : Candidate} {full : Bool} (h : c.isFull limits = .ok full) :
    limits.capacity < Count.bound ∧ (full = true ↔ limits.capacity ≤ c.total) := by
  simp only [isFull, bind_eq_ok, pure_eq_ok, Count.mul] at h
  obtain ⟨_, hmul, rfl⟩ := h
  obtain ⟨hlt, rfl⟩ := Count.checked_eq_ok_iff.1 hmul
  exact ⟨hlt, decide_eq_true_iff⟩

end Candidate

theorem mem_candidates {deadlines : List (Option Deadline)} {c : Candidate} :
    c ∈ candidates deadlines ↔ ∃ d, deadlines[c.index]? = some (some d) ∧ c.live = d.live ∧ c.total = d.total := by
  simp only [candidates, List.mem_filterMap, Prod.exists, List.mem_zipIdx_iff_getElem?, Option.map_eq_some_iff]
  constructor
  · rintro ⟨_, i, hget, d, rfl, rfl⟩
    exact ⟨d, hget, rfl, rfl⟩
  · rintro ⟨d, hget, hlive, htotal⟩
    refine ⟨some d, c.index, hget, d, rfl, ?_⟩
    rw [← hlive, ← htotal]

/-- No two candidates stand for one deadline. -/
theorem nodup_candidates (deadlines : List (Option Deadline)) : ((candidates deadlines).map (·.index)).Nodup := by
  have hsub : ∀ (ds : List (Option Deadline)) k, (((ds.zipIdx k).filterMap fun e =>
      e.1.map fun d => Candidate.mk e.2 d.live d.total).map (·.index)).Sublist (List.range' k ds.length) := by
    intro ds
    induction ds with
    | nil => exact fun k => List.nil_sublist _
    | cons d ds ih =>
      intro k
      rw [List.zipIdx_cons, List.length_cons, List.range'_succ]
      cases d with
      | none => exact (ih (k + 1)).cons k
      | some d => exact (ih (k + 1)).cons_cons k
  exact (hsub deadlines 0).nodup List.nodup_range'

/-! ### One sector -/

section Run

variable {limits : AssignmentLimits} {heap heap' : CandidateHeap} {changes changes' : List (List Sector)} {s : Sector}
  {cs : List Candidate} {ss : List Sector}

theorem assignNext_spec (h : assignNext limits (heap, changes) s = .ok (heap', changes')) :
    ∃ c, heap[0]? = some c ∧ limits.capacity < Count.bound ∧ c.total < limits.capacity ∧
      pushAt s c.index changes = .ok changes' ∧
      CandidateHeap.siftDown limits (heap.setIfInBounds 0 (c.grown 1)) 0 = .ok heap' := by
  simp only [assignNext] at h
  cases hfirst : heap[0]? with
  | none => simp [hfirst, noneOpen] at h
  | some c =>
    simp only [hfirst, bind_eq_ok] at h
    obtain ⟨full, hfull, h⟩ := h
    obtain ⟨hlt, hiff⟩ := Candidate.isFull_eq_ok hfull
    cases full with
    | true => simp [allFull] at h
    | false =>
      simp only [Bool.false_eq_true, if_false, bind_eq_ok, pure_eq_ok, Prod.mk.injEq] at h
      obtain ⟨_, hpush, _, hgrow, heap₁, hsift, rfl, rfl⟩ := h
      obtain rfl := Candidate.grow_eq_ok hgrow
      refine ⟨c, rfl, hlt, ?_, hpush, hsift⟩
      by_contra hle
      exact Bool.false_ne_true (hiff.2 (Nat.le_of_not_lt hle))

/-- The first candidate of the heap is one of those there were, and it alone changes when it gets a sector. -/
theorem perm_setIfInBounds (hnodup : (cs.map (·.index)).Nodup) (hp : heap.toList.Perm (cs.map (Candidate.after ts)))
    {c' : Candidate} (hfirst : heap[0]? = some c') :
    ∃ c ∈ cs, c' = c.after ts ∧
      (heap.setIfInBounds 0 (c'.grown 1)).toList.Perm (cs.map (Candidate.after (ts ++ [c.index]))) := by
  obtain ⟨rest, hrest⟩ : ∃ rest, heap.toList = c' :: rest := by
    rw [← Array.getElem?_toList] at hfirst
    cases hl : heap.toList with
    | nil => rw [hl] at hfirst; cases hfirst
    | cons d rest => rw [hl] at hfirst; exact ⟨rest, by rw [Option.some.inj hfirst]⟩
  obtain ⟨c, hc, rfl⟩ := List.mem_map.1 (hp.subset (hrest ▸ List.mem_cons_self))
  have hcs : cs.Perm (c :: cs.erase c) := List.perm_cons_erase hc
  have hothers : ∀ d ∈ cs.erase c, d.after ts = d.after (ts ++ [c.index]) := by
    have hnotin := (List.nodup_cons.1 ((hcs.map (·.index)).nodup_iff.1 hnodup)).1
    exact fun d hd => (Candidate.after_append_of_ne ts d fun heq =>
      hnotin (List.mem_map.2 ⟨d, hd, heq⟩)).symm
  have hrest' : rest.Perm ((cs.erase c).map (Candidate.after ts)) :=
    List.Perm.cons_inv ((hrest ▸ hp).trans (hcs.map _))
  refine ⟨c, hc, rfl, ?_⟩
  rw [Array.toList_setIfInBounds, hrest, List.set_cons_zero, ← Candidate.after_append_self]
  calc (c.after (ts ++ [c.index]) :: rest).Perm (c.after (ts ++ [c.index]) :: (cs.erase c).map (Candidate.after ts)) :=
        hrest'.cons _
    _ = (c :: cs.erase c).map (Candidate.after (ts ++ [c.index])) := by
      rw [List.map_cons, List.map_congr_left hothers]
    _ |>.Perm (cs.map (Candidate.after (ts ++ [c.index]))) := (hcs.map _).symm

/-- How far an assignment has come: the targets so far tell what has been given out and what the heap holds. -/
structure Dealing (limits : AssignmentLimits) (n : Nat) (cs : List Candidate) (ss : List Sector) (ts : List Nat)
    (state : CandidateHeap × List (List Sector)) : Prop where
  /-- Each sector has a target. -/
  length_eq : ts.length = ss.length
  /-- The sectors given out. -/
  changes_eq : state.2 = deal n ss ts
  /-- The candidates with their counts. -/
  perm : state.1.toList.Perm (cs.map (Candidate.after ts))
  /-- The targets are candidates, and lists are kept for them. -/
  opened : ∀ i ∈ ts, i < n ∧ ∃ c ∈ cs, c.index = i
  /-- Who gets a sector stays within the capacity. -/
  within : ∀ c ∈ cs, c.index ∈ ts → (c.after ts).total ≤ limits.capacity

theorem Dealing.step (hnodup : (cs.map (·.index)).Nodup) (hd : Dealing limits n cs ss ts (heap, changes))
    (h : assignNext limits (heap, changes) s = .ok (heap', changes')) :
    ∃ i, Dealing limits n cs (ss ++ [s]) (ts ++ [i]) (heap', changes') := by
  obtain ⟨c', hfirst, -, hroom, hpush, hsift⟩ := assignNext_spec h
  obtain ⟨c, hc, rfl, hperm⟩ := perm_setIfInBounds hnodup hd.perm hfirst
  obtain rfl : changes = deal n ss ts := hd.changes_eq
  rw [Candidate.index_after] at hpush
  have hi := lt_of_pushAt_deal hpush
  refine ⟨c.index, ?_, ?_, ?_, fun i hmem => ?_, fun d hdmem hmem => ?_⟩
  · rw [List.length_append, List.length_append, hd.length_eq, List.length_singleton, List.length_singleton]
  · exact Except.ok.inj (hpush.symm.trans (pushAt_deal hd.length_eq hi))
  · exact (CandidateHeap.perm_of_siftDown hsift).toList.trans hperm
  · rcases List.mem_append.1 hmem with hmem | hmem
    · exact hd.opened i hmem
    · obtain rfl := List.mem_singleton.1 hmem
      exact ⟨hi, c, hc, rfl⟩
  · by_cases heq : d.index = c.index
    · obtain rfl := List.inj_on_of_nodup_map hnodup hdmem hc heq
      rw [Candidate.after_append_self]
      exact hroom
    · rw [Candidate.after_append_of_ne ts d heq]
      refine hd.within d hdmem ((List.mem_append.1 hmem).resolve_right fun hlast => ?_)
      exact heq (List.mem_singleton.1 hlast)

/-- A run of the assignment is told by its targets. -/
theorem dealing_of_run (hnodup : (cs.map (·.index)).Nodup) (hp : heap.toList.Perm cs)
    {state : CandidateHeap × List (List Sector)}
    (h : foldOutcome (assignNext limits) (heap, List.replicate n []) ss = .ok state) :
    ∃ ts, Dealing limits n cs ss ts state := by
  refine foldOutcome_invariant (I := fun done state => ∃ ts, Dealing limits n cs done ts state) h ⟨[], ?_⟩ ?_
  · refine ⟨rfl, ?_, ?_, fun _ hmem => absurd hmem List.not_mem_nil, fun _ _ hmem => absurd hmem List.not_mem_nil⟩
    · exact deal_nil.symm
    · rw [List.map_congr_left fun c _ => Candidate.after_nil c, List.map_id']
      exact hp
  · rintro done s rest ⟨heap, changes⟩ ⟨heap', changes'⟩ _ ⟨ts, hd⟩ hstep
    obtain ⟨i, hd'⟩ := hd.step hnodup hstep
    exact ⟨ts ++ [i], hd'⟩

end Run

/-- **What a successful assignment gives out:** each sector goes to one deadline, the lists keep the order, only open
deadlines get sectors, and none gets more than it has room for. -/
theorem assignDeadlines_spec {policy : Policy} {limits : AssignmentLimits} {deadlines : List (Option Deadline)}
    {ss : List Sector} {assigned : List (List Sector)} (h : assignDeadlines policy limits deadlines ss = .ok assigned) :
    ∃ ts, ts.length = ss.length ∧ assigned = deal policy.deadlines ss ts ∧
      (∀ i ∈ ts, i < policy.deadlines ∧ ∃ c ∈ candidates deadlines, c.index = i) ∧
      ∀ c ∈ candidates deadlines, c.index ∈ ts → c.total + ts.count c.index ≤ limits.capacity := by
  simp only [assignDeadlines, failed_bind, ite_failed_eq_ok, bind_eq_ok, pure_eq_ok] at h
  obtain ⟨-, heap, hheap, ⟨heap', _⟩, hrun, rfl⟩ := h
  have hp := (CandidateHeap.perm_of_ofList hheap).toList
  obtain ⟨ts, hd⟩ := dealing_of_run (nodup_candidates deadlines) hp hrun
  exact ⟨ts, hd.length_eq, hd.changes_eq, hd.opened, hd.within⟩

end SectorLedger
