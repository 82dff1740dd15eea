import SectorLedger.Proofs.Assignment.Dealing
import Mathlib.Algebra.GroupWithZero.Nat

/-!
# The assignment is greedy

Each sector goes to the deadline that comes before all others, as their counts are then. That needs no heap: looking
through all candidates for each sector gives the same assignment, and the same failures.

* `Greedy`: targets chosen in this way. Among them there is always one with room, as long as any has.
* `step_total`: what both ways of choosing do with one sector. `run_total`: with all of them.
* `assignDeadlines_refines_greedy`: the whole.
-/

namespace SectorLedger

open Candidate

namespace Candidate

variable {limits : AssignmentLimits} {c d : Candidate} {n : Nat}

/-- How many sectors more a deadline may have. -/
def room (limits : AssignmentLimits) (c : Candidate) : Nat := limits.capacity - c.total

/-- The deadline's counts stay in range when it gets as many of `n` sectors as it has room for. The order of
preference looks one sector ahead. -/
structure Fits (limits : AssignmentLimits) (n : Nat) (c : Candidate) : Prop where
  /-- Live sectors. -/
  live : c.live + min n (c.room limits) + 1 < Count.bound
  /-- All sectors. -/
  total : c.total + min n (c.room limits) + 1 < Count.bound

instance (limits : AssignmentLimits) (n : Nat) : DecidablePred (Fits limits n) := fun c =>
  decidable_of_iff
    (c.live + min n (c.room limits) + 1 < Count.bound ∧ c.total + min n (c.room limits) + 1 < Count.bound)
    ⟨fun h => ⟨h.1, h.2⟩, fun h => ⟨h.live, h.total⟩⟩

theorem Fits.countable (h : c.Fits limits n) : c.Countable where
  live := by
    have := h.live
    omega
  total := by
    have := h.total
    omega

theorem Fits.mono {m : Nat} (h : c.Fits limits n) (hm : m ≤ n) : c.Fits limits m where
  live := by
    have := h.live
    omega
  total := by
    have := h.total
    omega

/-- One sector fewer is left to give out. -/
theorem Fits.grown (h : c.Fits limits (n + 1)) (hroom : c.total < limits.capacity) : (c.grown 1).Fits limits n := by
  obtain ⟨hlive, htotal⟩ := h
  unfold room at hlive htotal
  constructor <;> simp only [room, Candidate.grown] <;> omega

/-- A candidate with room comes before one without. -/
theorem before_of_room (hs : limits.Sensible) (hc : c.Countable) (hd : d.Countable) (hroom : c.total < limits.capacity)
    (hfull : limits.capacity ≤ d.total) : Before limits c d := by
  rw [before_iff hs hc hd, key, key, List.compare_cons_cons, decide_eq_false (Nat.not_le_of_lt hroom),
    decide_eq_true hfull]
  rfl

end Candidate

variable {limits : AssignmentLimits} {n : Nat} {cs : List Candidate} {ss : List Sector} {s : Sector} {ts : List Nat}

/-- Targets each of which is the first of all candidates at its turn, and has room. -/
inductive Greedy (limits : AssignmentLimits) (cs : List Candidate) : List Nat → Prop where
  /-- No sector. -/
  | nil : Greedy limits cs []
  /-- One more sector. -/
  | snoc {ts : List Nat} {c : Candidate} (h : Greedy limits cs ts) (hc : c ∈ cs)
    (room : (c.after ts).total < limits.capacity)
    (first : ∀ d ∈ cs, d ≠ c → Before limits (c.after ts) (d.after ts)) : Greedy limits cs (ts ++ [c.index])

/-- The room of all candidates, once sectors have gone to the given targets. -/
def roomAfter (limits : AssignmentLimits) (cs : List Candidate) (ts : List Nat) : Nat :=
  (cs.map fun c => (c.after ts).room limits).sum

theorem roomAfter_append (hnodup : (cs.map (·.index)).Nodup) {c : Candidate} (hc : c ∈ cs)
    (hroom : (c.after ts).total < limits.capacity) :
    roomAfter limits cs (ts ++ [c.index]) + 1 = roomAfter limits cs ts := by
  have hcs : cs.Perm (c :: cs.erase c) := List.perm_cons_erase hc
  have hnotin := (List.nodup_cons.1 ((hcs.map (·.index)).nodup_iff.1 hnodup)).1
  have hothers : ∀ d ∈ cs.erase c, (d.after (ts ++ [c.index])).room limits = (d.after ts).room limits := fun d hd => by
    rw [after_append_of_ne ts d fun heq => hnotin (List.mem_map.2 ⟨d, hd, heq⟩)]
  have hself : ((c.after (ts ++ [c.index])).room limits) + 1 = (c.after ts).room limits := by
    rw [after_append_self]
    simp only [room, Candidate.grown]
    omega
  rw [roomAfter, roomAfter, (hcs.map _).sum_nat, (hcs.map _).sum_nat, List.map_cons, List.map_cons, List.sum_cons,
    List.sum_cons, List.map_congr_left hothers]
  omega

/-- The failure of an assignment to deadlines without room. -/
def exhausted {α : Type} (limits : AssignmentLimits) (cs : List Candidate) : Outcome α :=
  if cs = [] then noneOpen else allFull limits

theorem exhausted_ne_ok {α : Type} {a : α} : exhausted limits cs ≠ .ok a := by
  unfold exhausted
  split
  · exact failed_ne_ok
  · exact failed_ne_ok

/-- A failure ends what would follow. -/
theorem exhausted_bind {α β : Type} {f : α → Outcome β} :
    (exhausted limits cs >>= f) = exhausted limits cs := by
  unfold exhausted
  split <;> rfl

/-! ### The first candidate -/

/-- Looking through all candidates finds one that none comes before. -/
theorem firstCandidate_total (hs : limits.Sensible) (hc : ∀ c ∈ cs, c.Countable) :
    (cs = [] ∧ firstCandidate limits cs = .ok none) ∨
      ∃ c ∈ cs, firstCandidate limits cs = .ok (some c) ∧ ∀ d ∈ cs, ¬Before limits d c := by
  induction cs with
  | nil => exact .inl ⟨rfl, rfl⟩
  | cons c cs ih =>
    have hself : c.Countable := hc c List.mem_cons_self
    refine .inr ?_
    rcases ih fun d hd => hc d (List.mem_cons_of_mem c hd) with ⟨rfl, hnone⟩ | ⟨best, hbest, hfirst, hleast⟩
    · refine ⟨c, List.mem_cons_self, by rw [firstCandidate, hnone]; rfl, fun d hd => ?_⟩
      rw [List.mem_singleton.1 hd]
      exact not_before_self hs hself
    · have hcb : best.Countable := hc best (List.mem_cons_of_mem c hbest)
      obtain ⟨earlier, hearlier, hiff⟩ := before_total hs hcb hself
      rw [firstCandidate, hfirst, ok_bind]
      simp only [hearlier, ok_bind]
      cases earlier with
      | true =>
        refine ⟨best, List.mem_cons_of_mem c hbest, rfl, fun d hd => ?_⟩
        rcases List.mem_cons.1 hd with rfl | hd
        · exact fun hbefore => not_before_self hs hcb ((hiff.1 rfl).trans hs hcb hself hcb hbefore)
        · exact hleast d hd
      | false =>
        have hnot : ¬Before limits best c := fun hbefore => Bool.false_ne_true (hiff.2 hbefore)
        refine ⟨c, List.mem_cons_self, rfl, fun d hd => ?_⟩
        rcases List.mem_cons.1 hd with rfl | hd
        · exact not_before_self hs hself
        · exact not_before_trans hs hself hcb (hc d (List.mem_cons_of_mem c hd)) hnot (hleast d hd)

/-- The heap has the same first candidate as the list of all. -/
theorem firstCandidate_eq (hs : limits.Sensible) (hc : ∀ c ∈ cs, c.Countable) {heap : CandidateHeap}
    (hp : heap.toList.Perm cs) (ho : CandidateHeap.Ordered limits 0 heap) :
    firstCandidate limits cs = .ok heap[0]? ∧ ∀ c, heap[0]? = some c → ∀ d ∈ cs, d ≠ c → Before limits c d := by
  have hmem : ∀ c, c ∈ heap ↔ c ∈ cs := fun c => Array.mem_toList_iff.symm.trans hp.mem_iff
  have hch : CandidateHeap.Countable heap := fun c hin => hc c ((hmem c).1 hin)
  have hleast : ∀ c, heap[0]? = some c → ∀ d ∈ cs, d ≠ c → Before limits c d := fun c hfirst d hd hne => by
    have hnot := ho.first hs hch hfirst d ((hmem d).2 hd)
    exact (before_or_before hs (hc d hd) (hch.get hfirst) hne).resolve_left hnot
  refine ⟨?_, hleast⟩
  rcases firstCandidate_total hs hc with ⟨rfl, hnone⟩ | ⟨best, hbest, hfirst, hnot⟩
  · rw [hnone, ← Array.getElem?_toList, hp.eq_nil]
    rfl
  · cases htop : heap[0]? with
    | none =>
      have hnil : heap.toList = [] := by
        rw [← Array.getElem?_toList] at htop
        exact List.eq_nil_of_length_eq_zero (Nat.le_zero.1 (List.getElem?_eq_none_iff.1 htop))
      rw [hnil] at hp
      exact absurd (hp.symm.eq_nil ▸ hbest) List.not_mem_nil
    | some c =>
      rw [hfirst]
      by_contra hne
      have hne : best ≠ c := fun heq => hne (by rw [heq])
      exact hnot c ((hmem c).1 (Array.mem_of_getElem? htop)) (hleast c htop best hbest hne)

/-! ### One sector -/

/-- Both ways of choosing stand at the same point: the targets so far tell what the heap and the list hold. -/
structure Together (limits : AssignmentLimits) (n : Nat) (cs : List Candidate) (ss : List Sector) (ts : List Nat)
    (left : Nat) (state : CandidateHeap × List (List Sector)) (state' : List Candidate × List (List Sector)) :
    Prop where
  /-- Each sector has a target. -/
  length_eq : ts.length = ss.length
  /-- The targets are chosen greedily. -/
  greedy : Greedy limits cs ts
  /-- The heap holds the candidates with their counts. -/
  perm : state.1.toList.Perm (cs.map (Candidate.after ts))
  /-- It is in order. -/
  ordered : CandidateHeap.Ordered limits 0 state.1
  /-- The list holds them too. -/
  open_eq : state'.1 = cs.map (Candidate.after ts)
  /-- The sectors given out. -/
  changes_eq : state.2 = deal n ss ts
  /-- They are the same. -/
  same : state'.2 = deal n ss ts
  /-- As many sectors as are left can still be counted. -/
  fits : ∀ c ∈ cs, (c.after ts).Fits limits left

/-- Only the first candidate of the heap may be out of order once it has changed. -/
theorem orderedBut_setIfInBounds {heap : CandidateHeap} (ho : CandidateHeap.Ordered limits 0 heap) (c : Candidate) :
    CandidateHeap.OrderedBut limits 0 0 (heap.setIfInBounds 0 c) where
  except j a b hj _ hne ha hb := by
    rw [Array.getElem?_setIfInBounds_ne (Nat.ne_of_lt hj)] at ha
    rw [Array.getElem?_setIfInBounds_ne (Ne.symm hne)] at hb
    exact ho j a b hj (Nat.zero_le _) ha hb
  grand j a b hpos := absurd hpos (Nat.lt_irrefl 0)

theorem grow_total {c : Candidate} (h : c.Countable) : c.grow = .ok (c.grown 1) := by
  rw [grow, Count.add_eq_ok.2 ⟨h.live, rfl⟩, ok_bind, Count.add_eq_ok.2 ⟨h.total, rfl⟩]
  rfl

section Step

variable {left : Nat} {heap : CandidateHeap} {changes changes' : List (List Sector)} {opened : List Candidate}
  {c : Candidate}

theorem Together.countable (h : Together limits n cs ss ts left (heap, changes) (opened, changes')) :
    ∀ c ∈ cs.map (Candidate.after ts), c.Countable := fun c hmem => by
  obtain ⟨c, hin, rfl⟩ := List.mem_map.1 hmem
  exact (h.fits c hin).countable

/-- Only the deadline that gets a sector changes. -/
theorem map_after_append (hnodup : (cs.map (·.index)).Nodup) (hc : c ∈ cs) (ts : List Nat) :
    ((cs.map (Candidate.after ts)).map fun d => if d.index = (c.after ts).index then (c.after ts).grown 1 else d) =
      cs.map (Candidate.after (ts ++ [c.index])) := by
  rw [List.map_map]
  refine List.map_congr_left fun d hd => ?_
  by_cases heq : d.index = c.index
  · obtain rfl := List.inj_on_of_nodup_map hnodup hd hc heq
    rw [after_append_self]
    exact if_pos rfl
  · rw [after_append_of_ne ts d heq]
    exact if_neg heq

/-- The first candidate has room, so it gets the sector. -/
theorem Together.give (hs : limits.Sensible) (hnodup : (cs.map (·.index)).Nodup)
    (h : Together limits n cs ss ts (left + 1) (heap, changes) (opened, changes')) (hc : c ∈ cs) (hi : c.index < n)
    (htop : heap[0]? = some (c.after ts)) (hroom : (c.after ts).total < limits.capacity)
    (hperm : (heap.setIfInBounds 0 ((c.after ts).grown 1)).toList.Perm (cs.map (Candidate.after (ts ++ [c.index]))))
    (s : Sector) :
    ∃ st st', assignNext limits (heap, changes) s = .ok st ∧ assignNextGreedily limits (opened, changes') s = .ok st' ∧
      Together limits n cs (ss ++ [s]) (ts ++ [c.index]) left st st' := by
  have hcountable := h.countable
  obtain ⟨hlength, hgreedy, hp, ho, rfl, rfl, rfl, hfits⟩ := h
  obtain ⟨hfirst, hleast⟩ := firstCandidate_eq hs hcountable hp ho
  rw [htop] at hfirst
  have hfits' : ∀ d ∈ cs, (d.after (ts ++ [c.index])).Fits limits left := fun d hd => by
    by_cases heq : d.index = c.index
    · obtain rfl := List.inj_on_of_nodup_map hnodup hd hc heq
      rw [after_append_self]
      exact (hfits d hd).grown hroom
    · rw [after_append_of_ne ts d heq]
      exact (hfits d hd).mono (Nat.le_succ left)
  have hch' : CandidateHeap.Countable (heap.setIfInBounds 0 ((c.after ts).grown 1)) := fun d hd => by
    obtain ⟨d, hin, rfl⟩ := List.mem_map.1 (hperm.mem_iff.1 (Array.mem_toList_iff.2 hd))
    exact (hfits' d hin).countable
  have hsize : 0 < (heap.setIfInBounds 0 ((c.after ts).grown 1)).size := by
    rw [Array.size_setIfInBounds]
    exact (Array.getElem?_eq_some_iff.1 htop).1
  obtain ⟨heap', hsift, ho'⟩ := CandidateHeap.siftDown_total hs hch' hsize (orderedBut_setIfInBounds ho _)
  have hfull : (c.after ts).isFull limits = .ok false := by
    rw [isFull_eq hs, decide_eq_false (Nat.not_le_of_lt hroom)]
  have hpush : pushAt s (c.after ts).index (deal n ss ts) = .ok (deal n (ss ++ [s]) (ts ++ [c.index])) :=
    pushAt_deal hlength hi
  have hgrow := grow_total (hfits c hc).countable
  refine ⟨(heap', _), (_, _), ?_, ?_, ⟨?_, hgreedy.snoc hc hroom fun d hd hne => ?_, ?_, ho',
    map_after_append hnodup hc ts, rfl, rfl, hfits'⟩⟩
  · simp only [assignNext, htop, hfull, ok_bind, Bool.false_eq_true, if_false, hpush, hgrow, hsift]
    rfl
  · simp only [assignNextGreedily, hfirst, hfull, ok_bind, Bool.false_eq_true, if_false, hpush, hgrow]
    rfl
  · rw [List.length_append, List.length_append, hlength, List.length_singleton, List.length_singleton]
  · refine hleast _ htop _ (List.mem_map_of_mem hd) fun heq => hne ?_
    have hindex : (d.after ts).index = (c.after ts).index := congrArg Candidate.index heq
    exact List.inj_on_of_nodup_map hnodup hd hc hindex
  · exact (CandidateHeap.perm_of_siftDown hsift).toList.trans hperm

/-- The first candidate has no room, so none has, and the assignment fails. -/
theorem Together.refuse (hs : limits.Sensible)
    (h : Together limits n cs ss ts (left + 1) (heap, changes) (opened, changes')) (hc : c ∈ cs)
    (htop : heap[0]? = some (c.after ts)) (hfull : limits.capacity ≤ (c.after ts).total) (s : Sector) :
    roomAfter limits cs ts = 0 ∧ assignNext limits (heap, changes) s = allFull limits ∧
      assignNextGreedily limits (opened, changes') s = allFull limits := by
  have hcountable := h.countable
  obtain ⟨hlength, hgreedy, hp, ho, rfl, rfl, rfl, hfits⟩ := h
  obtain ⟨hfirst, hleast⟩ := firstCandidate_eq hs hcountable hp ho
  rw [htop] at hfirst
  have hch : CandidateHeap.Countable heap := fun d hd => hcountable d (hp.mem_iff.1 (Array.mem_toList_iff.2 hd))
  have hcc := (hfits c hc).countable
  have hisFull : (c.after ts).isFull limits = .ok true := by
    rw [isFull_eq hs, decide_eq_true hfull]
  obtain ⟨heap', hsift, -⟩ := CandidateHeap.siftDown_total hs hch (Array.getElem?_eq_some_iff.1 htop).1
    (ho.mono (Nat.zero_le 1)).but
  refine ⟨?_, ?_, ?_⟩
  · refine List.sum_eq_zero_iff_forall_eq_nat.2 fun r hr => ?_
    obtain ⟨d, hd, rfl⟩ := List.mem_map.1 hr
    have hcd := (hfits d hd).countable
    refine Nat.sub_eq_zero_of_le (Nat.le_of_not_lt fun hroom => ?_)
    have hbefore := before_of_room hs hcd hcc hroom hfull
    have hne : d.after ts ≠ c.after ts := fun heq => not_before_self hs hcc (heq ▸ hbefore)
    exact not_before_self hs hcc ((hleast _ htop _ (List.mem_map_of_mem hd) hne).trans hs hcc hcd hcc hbefore)
  · simp only [assignNext, htop, hisFull, ok_bind, if_true, hsift]
    rfl
  · simp only [assignNextGreedily, hfirst, hisFull, ok_bind, if_true]
    rfl

end Step

/-- What both ways of choosing do with one sector: they fail alike where there is no room, or give it to the same
candidate. -/
theorem step_total (hs : limits.Sensible) (hnodup : (cs.map (·.index)).Nodup) (hn : ∀ c ∈ cs, c.index < n) {left : Nat}
    {state : CandidateHeap × List (List Sector)} {state' : List Candidate × List (List Sector)}
    (h : Together limits n cs ss ts (left + 1) state state') (s : Sector) :
    (roomAfter limits cs ts = 0 ∧ assignNext limits state s = exhausted limits cs ∧
      assignNextGreedily limits state' s = exhausted limits cs) ∨
    ∃ i st st', assignNext limits state s = .ok st ∧ assignNextGreedily limits state' s = .ok st' ∧
      roomAfter limits cs (ts ++ [i]) + 1 = roomAfter limits cs ts ∧
      Together limits n cs (ss ++ [s]) (ts ++ [i]) left st st' := by
  obtain ⟨heap, changes⟩ := state
  obtain ⟨opened, changes'⟩ := state'
  cases htop : heap[0]? with
  | none =>
    have hfirst := (firstCandidate_eq hs h.countable h.perm h.ordered).1
    rw [htop] at hfirst
    rcases firstCandidate_total hs h.countable with ⟨hnil, -⟩ | ⟨_, -, hsome, -⟩
    · obtain rfl := List.map_eq_nil_iff.1 hnil
      obtain rfl : opened = [] := h.open_eq
      refine .inl ⟨rfl, ?_, rfl⟩
      simp only [assignNext, htop]
      rfl
    · exact absurd (hfirst.symm.trans hsome) (by simp)
  | some c' =>
    obtain ⟨c, hc, rfl, hperm⟩ := perm_setIfInBounds hnodup h.perm htop
    by_cases hroom : (c.after ts).total < limits.capacity
    · obtain ⟨st, st', hstep, hstep', htogether⟩ := h.give hs hnodup hc (hn c hc) htop hroom hperm s
      exact .inr ⟨c.index, st, st', hstep, hstep', roomAfter_append hnodup hc hroom, htogether⟩
    · have hexhausted : ∀ {α : Type}, @exhausted α limits cs = allFull limits :=
        if_neg (List.ne_nil_of_mem hc)
      rw [hexhausted, hexhausted]
      exact .inl (h.refuse hs hc htop (Nat.le_of_not_lt hroom) s)

/-- A sector that is given out goes to the first candidate. -/
theorem Together.step_of_ok (hs : limits.Sensible) (hnodup : (cs.map (·.index)).Nodup) {left : Nat}
    {state st : CandidateHeap × List (List Sector)} {state' : List Candidate × List (List Sector)}
    (h : Together limits n cs ss ts (left + 1) state state') (hstep : assignNext limits state s = .ok st) :
    ∃ i st', i < n ∧ Together limits n cs (ss ++ [s]) (ts ++ [i]) left st st' := by
  obtain ⟨heap, changes⟩ := state
  obtain ⟨opened, changes'⟩ := state'
  obtain ⟨_, htop, -, hroom, hpush, -⟩ := assignNext_spec hstep
  obtain ⟨c, hc, rfl, hperm⟩ := perm_setIfInBounds hnodup h.perm htop
  obtain rfl : changes = deal n ss ts := h.changes_eq
  have hi : c.index < n := lt_of_pushAt_deal hpush
  obtain ⟨_, st', hstep', -, htogether⟩ := h.give hs hnodup hc hi htop hroom hperm s
  obtain rfl := Except.ok.inj (hstep.symm.trans hstep')
  exact ⟨c.index, st', hi, htogether⟩

/-- Sectors that are all given out have greedily chosen targets. -/
theorem Together.run_of_ok (hs : limits.Sensible) (hnodup : (cs.map (·.index)).Nodup) (rest : List Sector)
    {state st : CandidateHeap × List (List Sector)} {state' : List Candidate × List (List Sector)}
    (h : Together limits n cs ss ts rest.length state state') (hn : ∀ i ∈ ts, i < n)
    (hrun : foldOutcome (assignNext limits) state rest = .ok st) :
    ∃ ts' st', (∀ i ∈ ts', i < n) ∧ Together limits n cs (ss ++ rest) ts' 0 st st' := by
  induction rest generalizing ss ts state state' with
  | nil =>
    obtain rfl := Except.ok.inj hrun
    exact ⟨ts, state', hn, by rwa [List.append_nil]⟩
  | cons s rest ih =>
    rw [foldOutcome_cons, bind_eq_ok] at hrun
    obtain ⟨mid, hstep, hrest⟩ := hrun
    obtain ⟨i, mid', hi, hnext⟩ := h.step_of_ok hs hnodup hstep
    rw [List.append_cons]
    refine ih hnext (fun j hj => ?_) hrest
    rcases List.mem_append.1 hj with hj | hj
    · exact hn j hj
    · exact List.mem_singleton.1 hj ▸ hi

/-- What both ways of choosing do with some sectors: they fail alike if there are more than there is room for, or give
them to the same candidates. -/
theorem run_total (hs : limits.Sensible) (hnodup : (cs.map (·.index)).Nodup) (hn : ∀ c ∈ cs, c.index < n)
    (rest : List Sector) {state : CandidateHeap × List (List Sector)}
    {state' : List Candidate × List (List Sector)} (h : Together limits n cs ss ts rest.length state state') :
    (roomAfter limits cs ts < rest.length ∧ foldOutcome (assignNext limits) state rest = exhausted limits cs ∧
      foldOutcome (assignNextGreedily limits) state' rest = exhausted limits cs) ∨
    ∃ ts' st st', rest.length ≤ roomAfter limits cs ts ∧ foldOutcome (assignNext limits) state rest = .ok st ∧
      foldOutcome (assignNextGreedily limits) state' rest = .ok st' ∧
      Together limits n cs (ss ++ rest) ts' 0 st st' := by
  induction rest generalizing ss ts state state' with
  | nil => exact .inr ⟨ts, state, state', Nat.zero_le _, rfl, rfl, by rwa [List.append_nil]⟩
  | cons s rest ih =>
    rw [foldOutcome_cons, foldOutcome_cons, List.length_cons]
    rcases step_total hs hnodup hn h s with ⟨hzero, hfail, hfail'⟩ | ⟨i, st, st', hstep, hstep', hroom, hnext⟩
    · refine .inl ⟨by omega, ?_, ?_⟩
      · rw [hfail, exhausted_bind]
      · rw [hfail', exhausted_bind]
    · rw [hstep, hstep', ok_bind, ok_bind, List.append_cons]
      rcases ih hnext with ⟨hlt, hfail, hfail'⟩ | ⟨ts', st, st', hle, hrun, hrun', hend⟩
      · exact .inl ⟨by omega, hfail, hfail'⟩
      · exact .inr ⟨ts', st, st', by omega, hrun, hrun', hend⟩

/-! ### The whole assignment -/

section Whole

variable {policy : Policy} {deadlines : List (Option Deadline)} {assigned : List (List Sector)}

/-- Before the first sector is given out. -/
theorem Together.start (hs : limits.Sensible) (hfits : ∀ c ∈ cs, c.Fits limits n) (m : Nat) :
    ∃ heap, CandidateHeap.ofList limits cs = .ok heap ∧
      Together limits m cs [] [] n (heap, List.replicate m []) (cs, List.replicate m []) := by
  have hid : cs.map (Candidate.after []) = cs := by
    rw [List.map_congr_left fun c _ => after_nil c, List.map_id']
  obtain ⟨heap, hheap, hordered⟩ := CandidateHeap.ofList_total hs fun c hc => (hfits c hc).countable
  refine ⟨heap, hheap, rfl, .nil, ?_, hordered, hid.symm, deal_nil.symm, deal_nil.symm, hfits⟩
  rw [hid]
  exact (CandidateHeap.perm_of_ofList hheap).toList

/-- An assignment fails if there are more sectors than there is room for, and deals them out greedily otherwise. So
does the assignment without a heap. -/
theorem assignDeadlines_total (hs : limits.Sensible) (hlen : deadlines.length ≤ policy.deadlines)
    (hfits : ∀ c ∈ candidates deadlines, c.Fits limits ss.length) :
    (((candidates deadlines).map (room limits)).sum < ss.length ∧
      assignDeadlines policy limits deadlines ss = exhausted limits (candidates deadlines) ∧
      assignGreedily policy limits deadlines ss = exhausted limits (candidates deadlines)) ∨
    ∃ ts, ss.length ≤ ((candidates deadlines).map (room limits)).sum ∧ Greedy limits (candidates deadlines) ts ∧
      ts.length = ss.length ∧ assignDeadlines policy limits deadlines ss = .ok (deal policy.deadlines ss ts) ∧
      assignGreedily policy limits deadlines ss = .ok (deal policy.deadlines ss ts) := by
  have hn : ∀ c ∈ candidates deadlines, c.index < policy.deadlines := fun c hc => by
    obtain ⟨d, hget, -⟩ := mem_candidates.1 hc
    exact Nat.lt_of_lt_of_le (List.getElem?_eq_some_iff.1 hget).1 hlen
  obtain ⟨heap, hheap, hstart⟩ := Together.start hs hfits policy.deadlines
  have hroom : roomAfter limits (candidates deadlines) [] = ((candidates deadlines).map (room limits)).sum := rfl
  have hrun := run_total hs (nodup_candidates deadlines) hn ss hstart
  rw [hroom, List.nil_append] at hrun
  rw [assignDeadlines, if_neg (Nat.ne_of_gt hs.partitionSize_pos), hheap]
  rcases hrun with ⟨hlt, hfail, hfail'⟩ | ⟨ts, ⟨_, _⟩, ⟨_, _⟩, hle, hok, hok', hend⟩
  · refine .inl ⟨hlt, ?_, ?_⟩
    · simp only [ok_bind, hfail]
      exact exhausted_bind
    · rw [assignGreedily, hfail', exhausted_bind]
  · obtain rfl := hend.changes_eq
    obtain rfl := hend.same
    refine .inr ⟨ts, hle, hend.greedy, hend.length_eq, ?_, ?_⟩
    · simp only [ok_bind, hok]
      rfl
    · rw [assignGreedily, hok']
      rfl

/-- A successful assignment has greedily chosen targets, however many deadlines there are. -/
theorem greedy_of_ok (hs : limits.Sensible) (hfits : ∀ c ∈ candidates deadlines, c.Fits limits ss.length)
    (h : assignDeadlines policy limits deadlines ss = .ok assigned) :
    ∃ ts, Greedy limits (candidates deadlines) ts ∧ ts.length = ss.length ∧ (∀ i ∈ ts, i < policy.deadlines) ∧
      assigned = deal policy.deadlines ss ts := by
  obtain ⟨heap, hheap, hstart⟩ := Together.start hs hfits policy.deadlines
  simp only [assignDeadlines, failed_bind, ite_failed_eq_ok, hheap, ok_bind, bind_eq_ok, pure_eq_ok] at h
  obtain ⟨-, ⟨_, _⟩, hrun, rfl⟩ := h
  obtain ⟨ts, st', hn, hend⟩ := hstart.run_of_ok hs (nodup_candidates deadlines) ss
    (fun _ hmem => absurd hmem List.not_mem_nil) hrun
  exact ⟨ts, hend.greedy, hend.length_eq, hn, hend.changes_eq⟩

/-- What an assignment should be. -/
structure ProperAssignment (policy : Policy) (limits : AssignmentLimits) (deadlines : List (Option Deadline))
    (ss : List Sector) (assigned : List (List Sector)) : Prop where
  /-- Each sector has a target, the first of the open deadlines at its turn. A deadline gets the sectors that have it
  as their target, in order. -/
  dealt : ∃ ts, Greedy limits (candidates deadlines) ts ∧ ts.length = ss.length ∧ assigned = deal policy.deadlines ss ts
  /-- Each sector is in exactly one list. -/
  perm : assigned.flatten.Perm ss
  /-- The lists keep the order. -/
  sublist : ∀ as ∈ assigned, as.Sublist ss
  /-- A deadline that is not open gets nothing. -/
  closed : ∀ (i : Nat) as, (∀ d, deadlines[i]? ≠ some (some d)) → assigned[i]? = some as → as = []
  /-- A deadline that gets a sector stays within the capacity. -/
  within : ∀ (i : Nat) d as, deadlines[i]? = some (some d) → assigned[i]? = some as → as ≠ [] →
    d.total + as.length ≤ limits.capacity

/-- A successful assignment to greedily chosen targets is as it should be. -/
theorem ProperAssignment.of_deal (hgreedy : Greedy limits (candidates deadlines) ts) (hlength : ts.length = ss.length)
    (h : assignDeadlines policy limits deadlines ss = .ok (deal policy.deadlines ss ts)) :
    ProperAssignment policy limits deadlines ss (deal policy.deadlines ss ts) := by
  obtain ⟨ts', hlength', heq, hopened, hwithin⟩ := assignDeadlines_spec h
  refine ⟨⟨ts, hgreedy, hlength, rfl⟩, ?_, fun as hmem => ?_, fun i as hclosed has => ?_, fun i d as hd has hne => ?_⟩
  · rw [heq]
    exact flatten_deal hlength' fun i hi => (hopened i hi).1
  · obtain ⟨i, -, rfl⟩ := List.mem_map.1 hmem
    exact sublist_dealtTo hlength i
  · rw [heq, getElem?_deal_eq_some] at has
    obtain ⟨-, rfl⟩ := has
    by_contra hne
    obtain ⟨-, c, hc, rfl⟩ := hopened i (mem_of_dealtTo hlength' hne)
    obtain ⟨d, hget, -⟩ := mem_candidates.1 hc
    exact hclosed d hget
  · rw [heq, getElem?_deal_eq_some] at has
    obtain ⟨-, rfl⟩ := has
    rw [length_dealtTo hlength']
    exact hwithin ⟨i, d.live, d.total⟩ (mem_candidates.2 ⟨d, hd, rfl, rfl⟩) (mem_of_dealtTo hlength' hne)

/-- **The assignment refines the plain greedy rule.** The order of preference is a strict total one. Keeping the
candidates in a heap gives what looking through all of them for each sector gives. An assignment succeeds exactly if
there is room for all sectors, fails with words otherwise, and is as it should be. -/
theorem assignDeadlines_refines_greedy (hs : limits.Sensible) (hlen : deadlines.length ≤ policy.deadlines)
    (hfits : ∀ c ∈ candidates deadlines, c.Fits limits ss.length) :
    (IsStrictTotalOrder { c : Candidate // c.Countable } fun a b => preference limits a b = .ok .lt) ∧
    (∀ a b : Candidate, a.Countable → b.Countable → ∃ o, preference limits a b = .ok o ∧
      preference limits b a = .ok o.swap ∧ (o = .eq ↔ a = b)) ∧
    assignDeadlines policy limits deadlines ss = assignGreedily policy limits deadlines ss ∧
    ((∃ assigned, assignDeadlines policy limits deadlines ss = .ok assigned) ↔
      ss.length ≤ ((candidates deadlines).map (room limits)).sum) ∧
    (((candidates deadlines).map (room limits)).sum < ss.length →
      assignDeadlines policy limits deadlines ss = exhausted limits (candidates deadlines)) ∧
    ∀ assigned, assignDeadlines policy limits deadlines ss = .ok assigned →
      ProperAssignment policy limits deadlines ss assigned := by
  refine ⟨isStrictTotalOrder_before hs, fun a b ha hb => preference_swap hs ha hb, ?_⟩
  rcases assignDeadlines_total hs hlen hfits with ⟨hlt, hfail, hfail'⟩ | ⟨ts, hle, hgreedy, hlength, hok, hok'⟩
  · have hnot : ∀ assigned, assignDeadlines policy limits deadlines ss ≠ .ok assigned := fun assigned heq =>
      exhausted_ne_ok (hfail.symm.trans heq)
    refine ⟨hfail.trans hfail'.symm, ⟨fun ⟨assigned, heq⟩ => absurd heq (hnot assigned), fun hle => by omega⟩,
      fun _ => hfail, fun assigned heq => absurd heq (hnot assigned)⟩
  · refine ⟨hok.trans hok'.symm, ⟨fun _ => hle, fun _ => ⟨_, hok⟩⟩, fun hlt => by omega, fun assigned heq => ?_⟩
    obtain rfl := Except.ok.inj (hok.symm.trans heq)
    exact .of_deal hgreedy hlength hok

/-- Four deadlines: one with a terminated sector, one that is not open, one that is half full, and one without room. -/
def sampleOpen : List (Option Deadline) :=
  [some { live := 1, total := 3 }, none, some { live := 2, total := 2 }, some { total := 4 }]

/-- Two partitions of two sectors each. -/
def sampleLimits : AssignmentLimits := ⟨2, 2⟩

/-- The first sector goes where it needs no second partition once the deadline is compacted. -/
theorem refines_greedy_sampleOpen :
    let policy := { Policy.devnet with deadlines := 4 }
    let ss : List Sector := [{ number := 7 }, { number := 8 }, { number := 9 }]
    sampleLimits.Sensible ∧ sampleOpen.length ≤ policy.deadlines ∧
    (∀ c ∈ candidates sampleOpen, c.Fits sampleLimits ss.length) ∧
    (assignDeadlines policy sampleLimits sampleOpen ss).map (·.map (·.map (·.number))) = .ok [[7], [], [8, 9], []] ∧
    assignDeadlines policy sampleLimits sampleOpen ss = assignGreedily policy sampleLimits sampleOpen ss ∧
    ((∃ assigned, assignDeadlines policy sampleLimits sampleOpen ss = .ok assigned) ↔
      ss.length ≤ ((candidates sampleOpen).map (room sampleLimits)).sum) ∧
    ∀ assigned, assignDeadlines policy sampleLimits sampleOpen ss = .ok assigned →
      ProperAssignment policy sampleLimits sampleOpen ss assigned := by
  intro policy ss
  have hs : sampleLimits.Sensible := ⟨by decide, by decide⟩
  have hlen : sampleOpen.length ≤ policy.deadlines := by decide
  have hfits : ∀ c ∈ candidates sampleOpen, c.Fits sampleLimits ss.length := by decide
  obtain ⟨-, -, hsame, hiff, -, hproper⟩ := assignDeadlines_refines_greedy hs hlen hfits
  exact ⟨hs, hlen, hfits, by decide +kernel, hsame, hiff, hproper⟩

end Whole

end SectorLedger
