import SectorLedger.NumberQueue
import SectorLedger.Proofs.Cutting
import SectorLedger.Proofs.Grid
import SectorLedger.Proofs.SparseArray

/-!
# Queues of numbers through their view

A queue of numbers is seen as a function from keys to sets. The operations only unite sets with the sets at
some keys, or empty keys.

* `NumberQueue.entry`: the view.
* `entry_add`, `entry_addValues`, `entry_addMany`: what filing numbers does to it.
* `addMany_eq_addEach`: many numbers are filed as they are one by one.
* `popUntil_spec`: what is due leaves.
* `mem_entry_cut`: numbers are removed, and the others move down.
-/

namespace SectorLedger.NumberQueue

open NumberSet

variable {grid : Grid} {q q' : NumberQueue} {k : Nat}

/-- The set at a key, or the empty one. -/
def entry (q : NumberQueue) (k : Nat) : NumberSet := (SparseArray.get? q k).getD ∅

@[simp] theorem entry_empty (k : Nat) : entry ∅ k = ∅ := rfl

theorem entry_of_get? {v : NumberSet} (h : SparseArray.get? q k = some v) : q.entry k = v := by
  rw [entry, h]
  rfl

theorem get?_of_mem {n : Nat} (h : n ∈ q.entry k) : SparseArray.get? q k = some (q.entry k) := by
  unfold entry at h ⊢
  cases hq : SparseArray.get? q k with
  | some v => rfl
  | none =>
    rw [hq] at h
    exact absurd h (not_mem_empty n)

/-- The keys are epochs. -/
def Bounded (q : NumberQueue) : Prop := ∀ k v, SparseArray.get? q k = some v → k < 0x8000000000000000

theorem bounded_empty : Bounded ∅ := fun k v h => by cases h

theorem keyFor_eq_ok {epoch : Int} : keyFor grid epoch = .ok k ↔ grid.up epoch = .ok (k : Int) := by
  simp only [keyFor, bind_eq_ok, ite_failed_eq_ok, pure_eq_ok]
  constructor
  · rintro ⟨r, hup, hr, rfl⟩
    rw [hup, Int.toNat_of_nonneg (by omega)]
  · intro hup
    exact ⟨k, hup, by omega, Int.toNat_natCast k⟩

theorem mergeAt_eq_ok {values : NumberSet} : mergeAt q k values = .ok q' ↔
    k ≤ SparseArray.greatestIndex ∧ SparseArray.insert q k (q.entry k ∪ values) = q' := by
  simp only [mergeAt, bind_eq_ok, noting_eq_ok, SparseArray.read_eq_ok, SparseArray.write_eq_ok, entry]
  cases SparseArray.get? q k with
  | some old => simp
  | none => simp [empty_union]

theorem entry_insert (q : NumberQueue) (k j : Nat) (values : NumberSet) :
    entry (SparseArray.insert q k values) j = if j = k then values else q.entry j := by
  unfold entry
  rw [SparseArray.get?_insert]
  split <;> rfl

theorem Bounded.insert (hq : q.Bounded) {values : NumberSet} (hk : k < 0x8000000000000000) :
    Bounded (SparseArray.insert q k values) := by
  intro j v hj
  obtain ⟨rfl, -⟩ | ⟨-, hj⟩ := SparseArray.get?_insert_eq_some.1 hj
  · exact hk
  · exact hq j v hj

/-- A set is filed under an epoch only if it is empty or the epoch has a key. -/
theorem add_eq_ok {epoch : Int} {values : NumberSet} : add grid q epoch values = .ok q' ↔
    (values = ∅ ∧ q = q') ∨ (values ≠ ∅ ∧ ∃ k : Nat, grid.up epoch = .ok (k : Int) ∧ k ≤ SparseArray.greatestIndex ∧
      SparseArray.insert q k (q.entry k ∪ values) = q') := by
  unfold add
  split
  · next hempty =>
    have hempty := NumberSet.isEmpty_iff.1 hempty
    simp [hempty]
  · next hsome =>
    have hsome : values ≠ ∅ := fun hempty => hsome (NumberSet.isEmpty_iff.2 hempty)
    simp only [bind_eq_ok, keyFor_eq_ok, mergeAt_eq_ok, hsome, false_and, false_or, ne_eq, not_false_eq_true, true_and]

@[simp]
theorem add_empty {epoch : Int} : add grid q epoch ∅ = .ok q :=
  add_eq_ok.2 (.inl ⟨rfl, rfl⟩)

/-- Two sets are filed under one epoch as their union is. -/
theorem add_union {epoch : Int} {s t : NumberSet} : add grid q epoch (s ∪ t) = .ok q' ↔
    ∃ q₁, add grid q epoch s = .ok q₁ ∧ add grid q₁ epoch t = .ok q' := by
  by_cases hs : s = ∅
  · simp [hs]
  by_cases ht : t = ∅
  · simp [ht]
  have hst : s ∪ t ≠ ∅ := fun he => hs (eq_empty_iff.2 fun n hn => eq_empty_iff.1 he n (mem_union.2 (.inl hn)))
  have htwice : ∀ k : Nat, SparseArray.insert (SparseArray.insert q k (q.entry k ∪ s)) k
      (entry (SparseArray.insert q k (q.entry k ∪ s)) k ∪ t) = SparseArray.insert q k (q.entry k ∪ (s ∪ t)) := by
    intro k
    rw [SparseArray.insert_insert, entry_insert, if_pos rfl, union_assoc]
  simp only [add_eq_ok, hs, ht, hst, false_and, false_or, ne_eq, not_false_eq_true, true_and]
  constructor
  · rintro ⟨k, hup, hk, rfl⟩
    exact ⟨_, ⟨k, hup, hk, rfl⟩, k, hup, hk, htwice k⟩
  · rintro ⟨_, ⟨k, hup, hk, rfl⟩, k', hup', -, rfl⟩
    obtain rfl : k = k' := Int.ofNat.inj (Except.ok.inj (hup.symm.trans hup'))
    exact ⟨k, hup, hk, (htwice k).symm⟩

theorem addValues_eq_ok {epoch : Int} {values : List Nat} : addValues grid q epoch values = .ok q' ↔
    (∀ n ∈ values, n < forbiddenMember) ∧ add grid q epoch (ofList values) = .ok q' := by
  simp only [addValues, bind_eq_ok, ofValues_eq_ok]
  constructor
  · rintro ⟨_, ⟨hv, rfl⟩, h⟩
    exact ⟨hv, h⟩
  · rintro ⟨hv, h⟩
    exact ⟨_, ⟨hv, rfl⟩, h⟩

/-- Two lists are filed under one epoch as one is. -/
theorem addValues_append {epoch : Int} {is js : List Nat} : addValues grid q epoch (is ++ js) = .ok q' ↔
    ∃ q₁, addValues grid q epoch is = .ok q₁ ∧ addValues grid q₁ epoch js = .ok q' := by
  have hunion : ofList (is ++ js) = ofList is ∪ ofList js := NumberSet.ext fun n => by simp
  simp only [addValues_eq_ok, hunion, add_union, List.forall_mem_append]
  constructor
  · rintro ⟨⟨his, hjs⟩, q₁, h₁, h₂⟩
    exact ⟨q₁, ⟨his, h₁⟩, hjs, h₂⟩
  · rintro ⟨q₁, ⟨his, h₁⟩, hjs, h₂⟩
    exact ⟨⟨his, hjs⟩, q₁, h₁, h₂⟩

/-- Filing a set under an epoch. -/
theorem entry_add {epoch : Int} {values : NumberSet} (h : add grid q epoch values = .ok q') (j n : Nat) :
    n ∈ q'.entry j ↔ n ∈ q.entry j ∨ (n ∈ values ∧ grid.up epoch = .ok (j : Int)) := by
  obtain ⟨rfl, rfl⟩ | ⟨-, k, hup, -, rfl⟩ := add_eq_ok.1 h
  · simp
  · rw [entry_insert, hup]
    split
    · next hj => simp [hj]
    · next hj =>
      have : ¬(k : Int) = j := by omega
      simp [this]

theorem Bounded.add (hq : q.Bounded) {epoch : Int} {values : NumberSet} (h : add grid q epoch values = .ok q') :
    q'.Bounded := by
  obtain ⟨-, rfl⟩ | ⟨-, k, hup, -, rfl⟩ := add_eq_ok.1 h
  · exact hq
  · exact hq.insert (Grid.key_lt_of_up hup)

/-- Filing a list of numbers under an epoch. -/
theorem entry_addValues {epoch : Int} {values : List Nat} (h : addValues grid q epoch values = .ok q') (j n : Nat) :
    n ∈ q'.entry j ↔ n ∈ q.entry j ∨ (n ∈ values ∧ grid.up epoch = .ok (j : Int)) := by
  rw [entry_add (addValues_eq_ok.1 h).2, mem_ofList]

/-- If a number can be filed under an epoch, the epoch has a key. -/
theorem key_of_addValues {epoch : Int} {values : List Nat} (h : addValues grid q epoch values = .ok q') {n : Nat}
    (hn : n ∈ values) : ∃ k : Nat, grid.up epoch = .ok (k : Int) := by
  obtain ⟨hnone, -⟩ | ⟨-, k, hup, -⟩ := add_eq_ok.1 (addValues_eq_ok.1 h).2
  · exact absurd (mem_ofList.2 hn) (eq_empty_iff.1 hnone n)
  · exact ⟨k, hup⟩

theorem Bounded.addValues (hq : q.Bounded) {epoch : Int} {values : List Nat}
    (h : addValues grid q epoch values = .ok q') : q'.Bounded :=
  hq.add (addValues_eq_ok.1 h).2

/-- A queue stays empty only if nothing is filed. -/
theorem isEmpty_add {epoch : Int} {values : NumberSet} (h : add grid q epoch values = .ok q') :
    SparseArray.isEmpty q' = (SparseArray.isEmpty q && values.isEmpty) := by
  obtain ⟨rfl, rfl⟩ | ⟨hsome, k, -, -, rfl⟩ := add_eq_ok.1 h
  · rw [isEmpty_iff.2 rfl, Bool.and_true]
  · have hvalues : values.isEmpty = false := Bool.not_eq_true _ ▸ fun he => hsome (isEmpty_iff.1 he)
    rw [hvalues, Bool.and_false, ← Bool.not_eq_true, SparseArray.isEmpty_iff]
    intro hnone
    have := hnone k
    rw [SparseArray.get?_insert, if_pos rfl] at this
    cases this

/-- A set can be filed under an epoch that has a key. -/
theorem add_total {epoch : Int} (hup : grid.up epoch = .ok (k : Int)) (hk : k ≤ SparseArray.greatestIndex)
    (values : NumberSet) : ∃ q', add grid q epoch values = .ok q' := by
  by_cases hvalues : values = ∅
  · exact ⟨q, add_eq_ok.2 (.inl ⟨hvalues, rfl⟩)⟩
  · exact ⟨_, add_eq_ok.2 (.inr ⟨hvalues, k, hup, hk, rfl⟩)⟩

/-- So can a list of numbers below the greatest word. -/
theorem addValues_total {epoch : Int} (hup : grid.up epoch = .ok (k : Int)) (hk : k ≤ SparseArray.greatestIndex)
    {values : List Nat} (hv : ∀ n ∈ values, n < forbiddenMember) : ∃ q', addValues grid q epoch values = .ok q' := by
  obtain ⟨q', h⟩ := add_total (q := q) hup hk (ofList values)
  exact ⟨q', addValues_eq_ok.2 ⟨hv, h⟩⟩

/-! ### Many numbers at many epochs -/

/-- The numbers of the pairs, by key. -/
theorem mem_groupByKey {pairs : List (Int × Nat)} {groups : SparseArray (List Nat)}
    (h : groupByKey grid pairs = .ok groups) (k n : Nat) :
    (∃ vs, groups.get? k = some vs ∧ n ∈ vs) ↔ ∃ epoch, (epoch, n) ∈ pairs ∧ grid.up epoch = .ok (k : Int) := by
  refine foldOutcome_invariant (I := fun done (groups : SparseArray (List Nat)) => ∀ (k : Nat) n,
    (∃ vs, groups.get? k = some vs ∧ n ∈ vs) ↔ ∃ epoch, (epoch, n) ∈ done ∧ grid.up epoch = .ok (k : Int))
    h (by simp) ?_ k n
  intro done pair rest groups groups' hs hI hstep k n
  simp only [bind_eq_ok, keyFor_eq_ok, pure_eq_ok] at hstep
  obtain ⟨key, hkey, rfl⟩ := hstep
  have hone : (∃ epoch, (epoch, n) ∈ done ++ [pair] ∧ grid.up epoch = .ok (k : Int)) ↔
      (∃ vs, groups.get? k = some vs ∧ n ∈ vs) ∨ (k = key ∧ n = pair.2) := by
    rw [hI]
    constructor
    · rintro ⟨epoch, hmem, hup⟩
      rcases List.mem_append.1 hmem with hmem | hmem
      · exact .inl ⟨epoch, hmem, hup⟩
      · obtain rfl := List.mem_singleton.1 hmem
        have := Except.ok.inj (hup.symm.trans hkey)
        exact .inr ⟨by omega, rfl⟩
    · rintro (⟨epoch, hmem, hup⟩ | ⟨rfl, rfl⟩)
      · exact ⟨epoch, List.mem_append_left _ hmem, hup⟩
      · exact ⟨pair.1, List.mem_append_right _ List.mem_cons_self, hkey⟩
  rw [hone, SparseArray.get?_insert]
  split
  · next he =>
    subst he
    cases groups.get? k <;> simp
  · next hne => simp [hne]

theorem mergeGroup_eq_ok {group : Nat × List Nat} : mergeGroup q group = .ok q' ↔
    (∀ n ∈ group.2, n < forbiddenMember) ∧ group.1 ≤ SparseArray.greatestIndex ∧
      SparseArray.insert q group.1 (q.entry group.1 ∪ ofList group.2) = q' := by
  simp only [mergeGroup, bind_eq_ok, ofValues_eq_ok, mergeAt_eq_ok]
  constructor
  · rintro ⟨_, ⟨hn, rfl⟩, hk, rfl⟩
    exact ⟨hn, hk, rfl⟩
  · rintro ⟨hn, hk, rfl⟩
    exact ⟨_, ⟨hn, rfl⟩, hk, rfl⟩

/-- Filing numbers under their epochs. -/
theorem entry_addMany {pairs : List (Int × Nat)} (h : addMany grid q pairs = .ok q') (j n : Nat) :
    n ∈ q'.entry j ↔ n ∈ q.entry j ∨ ∃ epoch, (epoch, n) ∈ pairs ∧ grid.up epoch = .ok (j : Int) := by
  simp only [addMany, bind_eq_ok] at h
  obtain ⟨groups, hgroups, h⟩ := h
  have hfiled : ∀ j n, n ∈ q'.entry j ↔ n ∈ q.entry j ∨ ∃ vs, (j, vs) ∈ groups.entries ∧ n ∈ vs := by
    refine foldOutcome_invariant (I := fun done (q' : NumberQueue) => ∀ j n, n ∈ q'.entry j ↔
      n ∈ q.entry j ∨ ∃ vs, (j, vs) ∈ done ∧ n ∈ vs) h (by simp) ?_
    intro done group rest q₁ q₂ hs hI hstep j n
    obtain ⟨-, -, rfl⟩ := mergeGroup_eq_ok.1 hstep
    obtain ⟨key, values⟩ := group
    rw [entry_insert]
    split
    · next he =>
      subst he
      rw [mem_union, hI, mem_ofList]
      simp only [List.mem_append, List.mem_singleton, Prod.mk.injEq, true_and]
      grind
    · next hne =>
      rw [hI]
      simp only [List.mem_append, List.mem_singleton, Prod.mk.injEq, hne, false_and, or_false]
  rw [hfiled, ← mem_groupByKey hgroups]
  simp only [SparseArray.mem_entries]

theorem Bounded.addMany (hq : q.Bounded) {pairs : List (Int × Nat)}
    (h : addMany grid q pairs = .ok q') : q'.Bounded := by
  simp only [NumberQueue.addMany, bind_eq_ok] at h
  obtain ⟨groups, hgroups, h⟩ := h
  have hkeys : ∀ k vs, groups.get? k = some vs → k < 0x8000000000000000 := by
    refine foldOutcome_invariant (I := fun _ (groups : SparseArray (List Nat)) =>
      ∀ k vs, groups.get? k = some vs → k < 0x8000000000000000) hgroups (fun k vs h => by cases h) ?_
    intro done pair rest groups groups' hs hI hstep k vs hvs
    simp only [bind_eq_ok, pure_eq_ok] at hstep
    obtain ⟨key, hkey, rfl⟩ := hstep
    obtain ⟨rfl, -⟩ | ⟨-, hvs⟩ := SparseArray.get?_insert_eq_some.1 hvs
    · exact Grid.key_lt_of_up (keyFor_eq_ok.1 hkey)
    · exact hI k vs hvs
  refine foldOutcome_invariant (I := fun _ (q : NumberQueue) => q.Bounded) h hq ?_
  intro done group rest q₁ q₂ hs hq₁ hstep
  obtain ⟨-, -, rfl⟩ := mergeGroup_eq_ok.1 hstep
  exact hq₁.insert (hkeys group.1 group.2 (SparseArray.mem_entries.1 (hs ▸ by simp)))

/-- Groups at different keys may change places. -/
theorem mergeGroup_comm {g g' : Nat × List Nat} (hne : g.1 ≠ g'.1)
    (h : (mergeGroup q g >>= fun q => mergeGroup q g') = .ok q') :
    (mergeGroup q g' >>= fun q => mergeGroup q g) = .ok q' := by
  simp only [bind_eq_ok, mergeGroup_eq_ok] at h ⊢
  obtain ⟨_, ⟨hn, hk, rfl⟩, hn', hk', rfl⟩ := h
  refine ⟨_, ⟨hn', hk', rfl⟩, hn, hk, SparseArray.ext fun j => ?_⟩
  rw [entry_insert, entry_insert, if_neg hne, if_neg (Ne.symm hne)]
  simp only [SparseArray.get?_insert]
  grind

/-- Numbers at one key may be united one after the other. -/
theorem mergeGroup_append {ns ms : List Nat} : mergeGroup q (k, ns ++ ms) = .ok q' ↔
    (mergeGroup q (k, ns) >>= fun q => mergeGroup q (k, ms)) = .ok q' := by
  have htwice : SparseArray.insert (SparseArray.insert q k (q.entry k ∪ ofList ns)) k
      (entry (SparseArray.insert q k (q.entry k ∪ ofList ns)) k ∪ ofList ms) =
      SparseArray.insert q k (q.entry k ∪ ofList (ns ++ ms)) := by
    have hunion : ofList (ns ++ ms) = ofList ns ∪ ofList ms := NumberSet.ext fun n => by simp
    rw [SparseArray.insert_insert, entry_insert, if_pos rfl, union_assoc, hunion]
  simp only [bind_eq_ok, mergeGroup_eq_ok, List.forall_mem_append]
  constructor
  · rintro ⟨⟨hn, hn'⟩, hk, rfl⟩
    exact ⟨_, ⟨hn, hk, rfl⟩, hn', hk, htwice⟩
  · rintro ⟨_, ⟨hn, hk, rfl⟩, hn', -, rfl⟩
    exact ⟨⟨hn, hn'⟩, hk, htwice.symm⟩

/-- A number that is put into its group may be filed after all groups. -/
theorem mergeGroups_insertEntry {es : List (Nat × List Nat)} (hsorted : es.Pairwise (·.1 < ·.1)) {n : Nat} :
    foldOutcome mergeGroup q (insertEntry k ((lookupEntry k es).getD [] ++ [n]) es) = .ok q' ↔
      (foldOutcome mergeGroup q es >>= fun q => mergeGroup q (k, [n])) = .ok q' := by
  -- The number changes places with the groups at later keys.
  have hswap : ∀ {es : List (Nat × List Nat)} {q : NumberQueue}, (∀ e ∈ es, k < e.1) →
      ((mergeGroup q (k, [n]) >>= fun q => foldOutcome mergeGroup q es) = .ok q' ↔
        (foldOutcome mergeGroup q es >>= fun q => mergeGroup q (k, [n])) = .ok q') := fun hlater =>
    foldOutcome_comm fun e he _ _ => ⟨mergeGroup_comm (hlater e he).ne, mergeGroup_comm (hlater e he).ne'⟩
  induction es generalizing q with
  | nil =>
    simp only [insertEntry, lookupEntry, Option.getD_none, List.nil_append, foldOutcome_cons, foldOutcome_nil, ok_bind,
      bind_eq_ok, Except.ok.injEq, exists_eq_right]
  | cons e es ih =>
    obtain ⟨j, ns⟩ := e
    obtain ⟨hhead, hrest⟩ := List.pairwise_cons.1 hsorted
    unfold insertEntry lookupEntry
    rcases Nat.lt_trichotomy k j with hlt | rfl | hgt
    · have hnone : lookupEntry k es = none := by
        simpa [lookupEntry, hlt.ne] using lookupEntry_of_lt_head hsorted hlt
      rw [if_pos hlt, if_neg hlt.ne, hnone, foldOutcome_cons]
      exact hswap (List.forall_mem_cons.2 ⟨hlt, fun e he => hlt.trans (hhead e he)⟩)
    · rw [if_neg (Nat.lt_irrefl k), if_pos rfl, if_pos rfl]
      calc foldOutcome mergeGroup q ((k, ns ++ [n]) :: es) = .ok q'
          ↔ ((mergeGroup q (k, ns) >>= fun q => mergeGroup q (k, [n])) >>=
              fun q => foldOutcome mergeGroup q es) = .ok q' := by
            rw [foldOutcome_cons, bind_eq_ok, bind_eq_ok]
            exact exists_congr fun q₁ => and_congr_left fun _ => mergeGroup_append
        _ ↔ (foldOutcome mergeGroup q ((k, ns) :: es) >>= fun q => mergeGroup q (k, [n])) = .ok q' := by
            rw [foldOutcome_cons, bind_assoc, bind_assoc, bind_eq_ok, bind_eq_ok]
            exact exists_congr fun q₁ => and_congr_right fun _ => hswap hhead
    · rw [if_neg hgt.not_gt, if_neg hgt.ne', if_neg hgt.ne', foldOutcome_cons, foldOutcome_cons, bind_assoc,
        bind_eq_ok, bind_eq_ok]
      exact exists_congr fun q₁ => and_congr_right fun _ => ih hrest

theorem addValues_singleton {epoch : Int} {n : Nat} : addValues grid q epoch [n] = .ok q' ↔
    ∃ k, keyFor grid epoch = .ok k ∧ mergeGroup q (k, [n]) = .ok q' := by
  have hsome : ofList [n] ≠ ∅ := fun hnone => eq_empty_iff.1 hnone n (mem_ofList.2 List.mem_cons_self)
  simp only [addValues_eq_ok, add_eq_ok, hsome, false_and, false_or, ne_eq, not_false_eq_true, true_and, keyFor_eq_ok,
    mergeGroup_eq_ok]
  grind

/-- One more number may be filed after the others. -/
theorem addMany_concat {pairs : List (Int × Nat)} {pair : Int × Nat} : addMany grid q (pairs ++ [pair]) = .ok q' ↔
    (addMany grid q pairs >>= fun q => addValues grid q pair.1 [pair.2]) = .ok q' := by
  simp only [addMany, groupByKey, foldOutcome_append, foldOutcome_cons, foldOutcome_nil, bind_eq_ok, pure_eq_ok,
    Except.ok.injEq, addValues_singleton]
  constructor
  · rintro ⟨_, ⟨groups, hgroups, _, ⟨key, hkey, rfl⟩, rfl⟩, hfold⟩
    obtain ⟨q₁, hq₁, hq'⟩ := bind_eq_ok.1 ((mergeGroups_insertEntry groups.ascending).1 hfold)
    exact ⟨q₁, ⟨groups, hgroups, hq₁⟩, key, hkey, hq'⟩
  · rintro ⟨q₁, ⟨groups, hgroups, hq₁⟩, key, hkey, hq'⟩
    exact ⟨_, ⟨groups, hgroups, _, ⟨key, hkey, rfl⟩, rfl⟩,
      (mergeGroups_insertEntry groups.ascending).2 (bind_eq_ok.2 ⟨q₁, hq₁, hq'⟩)⟩

/-- Many numbers are filed as they are one by one. -/
theorem addMany_eq_addEach {pairs : List (Int × Nat)} : addMany grid q pairs = .ok q' ↔
    foldOutcome (fun q pair => addValues grid q pair.1 [pair.2]) q pairs = .ok q' := by
  induction pairs using List.reverseRecOn generalizing q' with
  | nil => rfl
  | append_singleton pairs pair ih =>
    rw [addMany_concat, foldOutcome_append, bind_eq_ok, bind_eq_ok]
    refine exists_congr fun q₁ => and_congr ih ?_
    simp only [foldOutcome_cons, foldOutcome_nil, bind_eq_ok, Except.ok.injEq, exists_eq_right]

/-- Two lists of numbers are filed as one is. -/
theorem addMany_append {pairs pairs' : List (Int × Nat)} : addMany grid q (pairs ++ pairs') = .ok q' ↔
    ∃ q₁, addMany grid q pairs = .ok q₁ ∧ addMany grid q₁ pairs' = .ok q' := by
  simp only [addMany_eq_addEach, foldOutcome_append, bind_eq_ok]

/-! ### What leaves -/

theorem mem_foldl_union {es : List (Nat × NumberSet)} {acc : NumberSet} {n : Nat} :
    n ∈ es.foldl (fun s e => s ∪ e.2) acc ↔ n ∈ acc ∨ ∃ e ∈ es, n ∈ e.2 := by
  induction es generalizing acc with
  | nil => simp
  | cons e es ih => rw [List.foldl_cons, ih, mem_union, or_assoc, List.exists_mem_cons_iff]

/-- What is due leaves the queue and is answered. Without the flag the queue is the same. -/
theorem popUntil_spec (hq : q.Bounded) {upTo : Int} {popped : NumberSet} {modified : Bool}
    (h : q.popUntil upTo = (q', popped, modified)) :
    (∀ k : Nat, q'.entry k = if (k : Int) ≤ upTo then ∅ else q.entry k) ∧ q'.Bounded ∧
      (∀ n, n ∈ popped ↔ ∃ k : Nat, (k : Int) ≤ upTo ∧ n ∈ q.entry k) ∧ (modified = false → q' = q ∧ popped = ∅) := by
  simp only [popUntil, Prod.mk.injEq] at h
  obtain ⟨rfl, rfl, rfl⟩ := h
  have hget : ∀ k : Nat, SparseArray.get? (SparseArray.eraseAll q ((due q upTo).map (·.1))) k =
      if (k : Int) ≤ upTo then none else SparseArray.get? q k := SparseArray.get?_eraseAll_due hq upTo
  refine ⟨fun k => ?_, fun k v hv => ?_, fun n => ?_, fun hnone => ?_⟩
  · simp only [entry, hget]
    split <;> rfl
  · rw [hget] at hv
    split at hv
    · cases hv
    · exact hq k v hv
  · rw [mem_foldl_union, or_iff_right (not_mem_empty n)]
    constructor
    · rintro ⟨e, he, hn⟩
      obtain ⟨hget, hle⟩ := (SparseArray.mem_due hq).1 he
      exact ⟨e.1, hle, (entry_of_get? hget).symm ▸ hn⟩
    · rintro ⟨k, hle, hn⟩
      exact ⟨(k, q.entry k), (SparseArray.mem_due hq).2 ⟨get?_of_mem hn, hle⟩, hn⟩
  · simp only [Bool.not_eq_false', List.isEmpty_iff] at hnone
    simp [hnone, SparseArray.eraseAll]

theorem entry_dropEmpty (q : NumberQueue) (k : Nat) (v : NumberSet) (j : Nat) :
    entry (if v.isEmpty then SparseArray.erase q k else SparseArray.insert q k v) j =
      if j = k then v else q.entry j := by
  split
  · next hnil =>
    rw [NumberSet.isEmpty_iff.1 hnil, entry, SparseArray.get?_erase]
    split <;> rfl
  · rw [entry, SparseArray.get?_insert]
    split <;> rfl

/-- What is cut out leaves every set, and the later numbers move down. -/
theorem mem_entry_cut (q : NumberQueue) (toCut : NumberSet) (k m : Nat) :
    m ∈ entry (q.cut toCut) k ↔ ∃ n, n ∈ q.entry k ∧ n ∉ toCut ∧ m + toCut.rank n = n := by
  suffices h : entry (q.cut toCut) k = (q.entry k).cut toCut by rw [h, mem_cut]
  have hempty : NumberSet.cut ∅ toCut = ∅ := NumberSet.ext fun m => by simp [mem_cut]
  -- Each key is visited once, so an entry is cut when its key has been visited.
  have hrun : ∀ (es done : List (Nat × NumberSet)) (r : NumberQueue), SparseArray.entries q = done ++ es →
      (∀ j, r.entry j = if j ∈ done.map (·.1) then (q.entry j).cut toCut else q.entry j) →
      entry (es.foldl (fun r e =>
        let rest := e.2.cut toCut
        if rest.isEmpty then SparseArray.erase r e.1 else SparseArray.insert r e.1 rest) r) k =
        if k ∈ (done ++ es).map (·.1) then (q.entry k).cut toCut else q.entry k := by
    intro es
    induction es with
    | nil => exact fun done r hs hr => by rw [List.append_nil]; exact hr k
    | cons e es ih =>
      intro done r hs hr
      rw [List.foldl_cons, show done ++ e :: es = (done ++ [e]) ++ es by simp]
      refine ih (done ++ [e]) _ (by simp [hs]) fun j => ?_
      have he : q.entry e.1 = e.2 := entry_of_get? (SparseArray.mem_entries.1 (hs ▸ by simp))
      simp only [List.map_append, List.mem_append, List.map_cons, List.map_nil, List.mem_singleton, entry_dropEmpty]
      by_cases hje : j = e.1
      · rw [if_pos hje, if_pos (Or.inr hje), hje, he]
      · simp only [hje, or_false, if_false]
        exact hr j
  have hcut := hrun (SparseArray.entries q) [] q rfl fun j => by simp
  rw [List.nil_append] at hcut
  refine Eq.trans hcut ?_
  split
  · rfl
  · next hno =>
    have hnone : SparseArray.get? q k = none :=
      Option.eq_none_iff_forall_ne_some.2 fun v hv => hno (SparseArray.mem_keys.2 ⟨v, hv⟩)
    rw [entry, hnone, Option.getD_none, hempty]

/-- No set is left empty by a cut. -/
theorem nonempty_of_get?_cut {toCut v : NumberSet} (h : SparseArray.get? (q.cut toCut) k = some v) :
    ∃ n, n ∈ v := by
  -- A set that has not been visited may be empty, so the induction is on those still to visit.
  have hrun : ∀ (es : List (Nat × NumberSet)) (r : NumberQueue),
      (∀ j w, SparseArray.get? r j = some w → (∃ n, n ∈ w) ∨ j ∈ es.map (·.1)) →
      ∀ j w, SparseArray.get? (es.foldl (fun r e =>
        let rest := e.2.cut toCut
        if rest.isEmpty then SparseArray.erase r e.1 else SparseArray.insert r e.1 rest) r) j = some w → ∃ n, n ∈ w := by
    intro es
    induction es with
    | nil =>
      intro r hr j w hw
      exact (hr j w hw).resolve_right List.not_mem_nil
    | cons e es ih =>
      intro r hr
      rw [List.foldl_cons]
      refine ih _ fun j w hw => ?_
      have hother : j ≠ e.1 → SparseArray.get? r j = some w → (∃ n, n ∈ w) ∨ j ∈ es.map (·.1) := fun hne hw =>
        (hr j w hw).imp id fun hj => (List.mem_cons.1 hj).resolve_left hne
      simp only at hw
      split at hw
      · obtain ⟨hne, hw⟩ := SparseArray.get?_erase_eq_some.1 hw
        exact hother hne hw
      · next hsome =>
        obtain ⟨-, rfl⟩ | ⟨hne, hw⟩ := SparseArray.get?_insert_eq_some.1 hw
        · exact .inl (isEmpty_eq_false_iff.1 (Bool.not_eq_true _ ▸ hsome))
        · exact hother hne hw
  exact hrun (SparseArray.entries q) q (fun j w hw => .inr (SparseArray.mem_keys.2 ⟨w, hw⟩)) k v h

theorem Bounded.cut (hq : q.Bounded) (toCut : NumberSet) : Bounded (q.cut toCut) := by
  unfold NumberQueue.cut
  have hall : ∀ e ∈ SparseArray.entries q, e.1 < 0x8000000000000000 := fun e he =>
    hq e.1 e.2 (SparseArray.mem_entries.1 he)
  revert hall
  generalize SparseArray.entries q = es
  induction es generalizing q with
  | nil => exact fun _ => hq
  | cons e es ih =>
    intro hall
    rw [List.foldl_cons]
    refine ih (fun k v hv => ?_) fun e' he' => hall e' (List.mem_cons_of_mem e he')
    simp only at hv
    split at hv
    · exact hq k v (SparseArray.get?_erase_eq_some.1 hv).2
    · obtain ⟨rfl, -⟩ | ⟨-, hv⟩ := SparseArray.get?_insert_eq_some.1 hv
      · exact hall e List.mem_cons_self
      · exact hq k v hv

end SectorLedger.NumberQueue
