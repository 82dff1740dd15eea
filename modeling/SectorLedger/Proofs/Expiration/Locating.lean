import SectorLedger.Expiration.Queue
import SectorLedger.Proofs.Expiration.Entry
import SectorLedger.Proofs.Grid

/-!
# Where sectors are on time

Before sectors move, the queue is asked in which entries they are on time: first at the epochs that their
own records name, then anywhere. In a queue that holds each sector in one place the answer does not depend
on the order of the search: it is made of the wanted sectors that are on time in each entry.

* `ExpirationQueue.entry`: the queue as a function from keys to entries.
* `ExpirationQueue.Orderly`: keys are epochs, and each sector has one place.
* `Cohort.Of`: a cohort holds exactly the sectors of a set, with their totals.
* `locate_spec`: the cohorts found are the wanted sectors, entry by entry.
-/

namespace SectorLedger

open NumberSet

variable {grid : Grid} {size : SectorSize} {table : SectorTable} {ss : List Sector} {ns wanted : NumberSet}

/-! ### Cohorts -/

namespace Cohort

/-- A cohort of exactly the sectors of a set, with their totals. -/
structure Of (size : SectorSize) (table : SectorTable) (c : Cohort) (ns : NumberSet) : Prop where
  /-- No number occurs twice. -/
  nodup : c.numbers.Nodup
  /-- The numbers are those of the set. -/
  mem : ∀ n, n ∈ c.numbers ↔ n ∈ ns
  /-- The power is theirs. -/
  power_eq : c.power = ns.total (table.powerAt size)
  /-- The pledge is theirs. -/
  pledge_eq : c.pledge = ns.total table.pledgeAt

variable {c : Cohort} {epoch : Int}

theorem Of.congr (h : c.Of size table ns) {ms : NumberSet} (hm : ∀ n, n ∈ ns ↔ n ∈ ms) : c.Of size table ms :=
  NumberSet.ext hm ▸ h

theorem Of.numberSet_eq (h : c.Of size table ns) {s : NumberSet} (hs : c.numberSet = .ok s) : s = ns := by
  obtain ⟨-, rfl⟩ := ofValues_eq_ok.1 hs
  exact NumberSet.ext fun n => by rw [mem_ofList, h.mem]

theorem Of.eq_nil_iff (h : c.Of size table ns) : c.numbers = [] ↔ ns = ∅ := by
  rw [List.eq_nil_iff_forall_not_mem, eq_empty_iff]
  exact forall_congr' fun n => not_congr (h.mem n)

/-- A cohort stands at its epoch and has the numbers of its sectors. -/
theorem shape_of_ofSectors (h : ofSectors size epoch ss = .ok c) :
    c.epoch = epoch ∧ c.numbers = ss.map (·.number) := by
  refine foldOutcome_invariant (I := fun done c => c.epoch = epoch ∧ c.numbers = done.map (·.number)) h ⟨rfl, rfl⟩ ?_
  rintro done s rest c c' - ⟨he, hn⟩ hstep
  simp only [bind_eq_ok, pure_eq_ok] at hstep
  obtain ⟨p, -, rfl⟩ := hstep
  simp [he, hn]

/-- A cohort needs the power of each of its sectors. -/
theorem defined_of_ofSectors (h : ofSectors size epoch ss = .ok c) : ∀ s ∈ ss, ∃ w, Power.ofSector size s = .ok w := by
  refine foldOutcome_forall h fun s c c' hstep => ?_
  obtain ⟨w, hw, -⟩ := bind_eq_ok.1 hstep
  exact ⟨w, hw⟩

/-- The cohort of a list of records is the cohort of the set that it lists. -/
theorem of_ofSectors (hl : table.Lists ss ns) (h : ofSectors size epoch ss = .ok c) : c.Of size table ns := by
  have hI := foldOutcome_invariant (I := fun done c =>
      c.power = (done.map fun s => table.powerAt size s.number).sum ∧
      c.pledge = (done.map fun s => table.pledgeAt s.number).sum) h ⟨rfl, rfl⟩ ?_
  · obtain ⟨-, hn⟩ := shape_of_ofSectors h
    exact ⟨hn ▸ hl.nodup, fun n => by rw [hn, hl.mem], hI.1.trans (hl.sum_map _), hI.2.trans (hl.sum_map _)⟩
  · rintro done s rest c c' hs ⟨hp, hpl⟩ hstep
    simp only [bind_eq_ok, pure_eq_ok] at hstep
    obtain ⟨p, hps, rfl⟩ := hstep
    have hrec : table.Recorded s := hl.recorded s (by rw [hs]; simp)
    simp [hp, hpl, SectorTable.powerAt_eq hrec hps, SectorTable.pledgeAt_eq hrec]

end Cohort

/-! ### Groups by expiration -/

/-- Filing adds one element. -/
theorem perm_fileByEpoch {α : Type} (epoch : Int) (a : α) (gs : List (Int × List α)) :
    ((fileByEpoch epoch a gs).flatMap (·.2)).Perm (a :: gs.flatMap (·.2)) := by
  fun_induction fileByEpoch epoch a gs with
  | case1 => rfl
  | case2 e as rest hlt => rfl
  | case3 as rest hlt =>
    simp only [List.flatMap_cons, List.append_assoc]
    exact List.perm_middle
  | case4 e as rest hlt hne ih =>
    simp only [List.flatMap_cons]
    exact (ih.append_left as).trans List.perm_middle

theorem mem_fileByEpoch {α : Type} {epoch : Int} {a : α} {gs : List (Int × List α)} {g : Int × List α}
    (h : g ∈ fileByEpoch epoch a gs) :
    g ∈ gs ∨ (g.1 = epoch ∧ ∀ b ∈ g.2, b = a ∨ ∃ g' ∈ gs, g'.1 = epoch ∧ b ∈ g'.2) := by
  fun_induction fileByEpoch epoch a gs with
  | case1 => grind
  | case2 e as rest hlt => grind
  | case3 as rest hlt =>
    rcases List.mem_cons.1 h with rfl | h
    · refine .inr ⟨rfl, fun b hb => ?_⟩
      rcases List.mem_append.1 hb with hb | hb
      · exact .inr ⟨_, List.mem_cons_self, rfl, hb⟩
      · exact .inl (List.mem_singleton.1 hb)
    · exact .inl (List.mem_cons_of_mem _ h)
  | case4 e as rest hlt hne ih => grind

theorem ne_nil_of_mem_fileByEpoch {α : Type} {epoch : Int} {a : α} {gs : List (Int × List α)}
    (h : ∀ g ∈ gs, g.2 ≠ []) : ∀ g ∈ fileByEpoch epoch a gs, g.2 ≠ [] := by
  fun_induction fileByEpoch epoch a gs with
  | case1 => simp
  | case2 e as rest hlt => exact List.forall_mem_cons.2 ⟨by simp, h⟩
  | case3 as rest hlt => exact List.forall_mem_cons.2 ⟨by simp, (List.forall_mem_cons.1 h).2⟩
  | case4 e as rest hlt hne ih =>
    obtain ⟨hhead, htail⟩ := List.forall_mem_cons.1 h
    exact List.forall_mem_cons.2 ⟨hhead, ih htail⟩

theorem pairwise_fileByEpoch {α : Type} {epoch : Int} {a : α} {gs : List (Int × List α)}
    (h : gs.Pairwise (·.1 < ·.1)) : (fileByEpoch epoch a gs).Pairwise (·.1 < ·.1) := by
  fun_induction fileByEpoch epoch a gs with
  | case1 => simp
  | case2 e as rest hlt => grind [List.pairwise_cons]
  | case3 as rest hlt => grind [List.pairwise_cons]
  | case4 e as rest hlt hne ih =>
    refine (ih h.of_cons).cons fun g hg => ?_
    have hhead := (List.pairwise_cons.1 h).1
    rcases mem_fileByEpoch hg with hg | ⟨hg, -⟩
    · exact hhead g hg
    · simp only [hg]
      omega

namespace ExpirationQueue

/-- What grouping by expiration does: the groups ascend, hold what they should, and nothing is lost. -/
structure Grouped (grid : Grid) (ss : List Sector) (groups : List (Int × List Sector)) : Prop where
  /-- The epochs ascend. -/
  sorted : groups.Pairwise (·.1 < ·.1)
  /-- A group's epoch is its sectors' expiration, rounded up. -/
  up_eq : ∀ g ∈ groups, ∀ s ∈ g.2, grid.up s.expiration = .ok g.1
  /-- The groups hold the given sectors. -/
  perm : (groups.flatMap (·.2)).Perm ss
  /-- No group is empty. -/
  nonempty : ∀ g ∈ groups, g.2 ≠ []

theorem grouped_of_groupByExpiration {groups : List (Int × List Sector)}
    (h : groupByExpiration grid ss = .ok groups) : Grouped grid ss groups := by
  refine foldOutcome_invariant (I := Grouped grid) h ⟨.nil, by simp, by simp, by simp⟩ ?_
  rintro done s rest gs gs' - hI hstep
  simp only [bind_eq_ok, pure_eq_ok] at hstep
  obtain ⟨e, he, rfl⟩ := hstep
  refine ⟨pairwise_fileByEpoch hI.sorted, fun g hg s' hs' => ?_,
    (perm_fileByEpoch e s gs).trans ((hI.perm.cons s).trans (List.perm_append_singleton s done).symm),
    ne_nil_of_mem_fileByEpoch hI.nonempty⟩
  rcases mem_fileByEpoch hg with hg | ⟨hge, hg⟩
  · exact hI.up_eq g hg s' hs'
  · rcases hg s' hs' with rfl | ⟨g', hg', hge', hs'⟩
    · rw [he, hge]
    · rw [hI.up_eq g' hg' s' hs', hge', hge]

/-! ### The queue as a function -/

/-- The entry at a key, or the empty one. -/
def entry (q : ExpirationQueue) (k : Nat) : ExpirationSet := (q.get? k).getD ∅

/-- Keys are epochs, and each sector has one place. -/
structure Orderly (q : ExpirationQueue) : Prop where
  /-- Keys are epochs. -/
  key_lt : ∀ k e, q.get? k = some e → k < 0x8000000000000000
  /-- No sector is on time and early in one entry. -/
  apart : ∀ k n, n ∈ (q.entry k).onTime → n ∉ (q.entry k).early
  /-- No sector is in two entries. -/
  once : ∀ k k' n, n ∈ (q.entry k).members → n ∈ (q.entry k').members → k = k'

variable {q : ExpirationQueue} {k : Nat} {e : ExpirationSet}

theorem entry_of_get? (h : q.get? k = some e) : q.entry k = e := by
  rw [entry, h, Option.getD_some]

theorem entryAt_eq_ok {epoch : Int} : q.entryAt epoch = .ok e ↔
    ∃ k : Nat, epoch = k ∧ k ≤ SparseArray.greatestIndex ∧ q.entry k = e := by
  simp [entryAt, entry]

/-- A place in the queue implies a stored entry. -/
theorem get?_of_mem {n : Nat} (h : n ∈ (q.entry k).members) : q.get? k = some (q.entry k) := by
  unfold entry at h ⊢
  cases hq : q.get? k with
  | none => rw [hq] at h; simp at h
  | some e => rfl

/-- Whether a queue is orderly can be seen from its entries. -/
theorem orderly_iff : q.Orderly ↔ ∀ e ∈ q.entries, e.1 < 0x8000000000000000 ∧ e.2.onTime ∩ e.2.early = ∅ ∧
    ∀ e' ∈ q.entries, e.1 ≠ e'.1 → e.2.members ∩ e'.2.members = ∅ := by
  constructor
  · intro h e he
    have hentry : ∀ e ∈ q.entries, q.entry e.1 = e.2 := fun e he => entry_of_get? (SparseArray.mem_entries.1 he)
    refine ⟨h.key_lt e.1 e.2 (SparseArray.mem_entries.1 he), eq_empty_iff.2 fun n hn => ?apart,
      fun e' he' hne => eq_empty_iff.2 fun n hn => ?once⟩
    case apart =>
      rw [mem_inter, ← hentry e he] at hn
      exact h.apart e.1 n hn.1 hn.2
    case once =>
      rw [mem_inter, ← hentry e he, ← hentry e' he'] at hn
      exact hne (h.once e.1 e'.1 n hn.1 hn.2)
  · intro h
    have hmem : ∀ {k n}, n ∈ (q.entry k).members → (k, q.entry k) ∈ q.entries := fun hn =>
      SparseArray.mem_entries.2 (get?_of_mem hn)
    refine ⟨fun k e he => (h (k, e) (SparseArray.mem_entries.2 he)).1, fun k n hon hearly => ?apart,
      fun k k' n hn hn' => ?once⟩
    case apart =>
      have hnone := (h _ (hmem (ExpirationSet.mem_members.2 (.inl hon)))).2.1
      exact eq_empty_iff.1 hnone n (mem_inter.2 ⟨hon, hearly⟩)
    case once =>
      by_contra hne
      have hnone := (h _ (hmem hn)).2.2 _ (hmem hn') hne
      exact eq_empty_iff.1 hnone n (mem_inter.2 ⟨hn, hn'⟩)

instance : Decidable q.Orderly := decidable_of_iff _ orderly_iff.symm

/-! ### Cohorts found -/

theorem lastWithNumber_eq (hl : table.Covers ss ns) {n : Nat} (hn : n ∈ ns) :
    ∃ s, lastWithNumber ss n = some s ∧ s.number = n ∧ table.Recorded s := by
  obtain ⟨s, hs, hsn⟩ := hl.exists_of_mem hn
  have hsome : (lastWithNumber ss n).isSome := by
    rw [lastWithNumber, List.find?_isSome]
    exact ⟨s, List.mem_reverse.2 hs, by simpa using hsn⟩
  obtain ⟨s', hs'⟩ := Option.isSome_iff_exists.1 hsome
  have hmem := List.mem_of_find?_eq_some hs'
  have hnum := List.find?_some hs'
  exact ⟨s', hs', by simpa using hnum, hl.recorded s' (List.mem_reverse.1 hmem)⟩

/-- The records of a set of listed sectors. -/
theorem lists_filterMap (hl : table.Covers ss ns) {ms : NumberSet} (hm : ∀ n ∈ ms, n ∈ ns) :
    table.Lists (ms.elements.filterMap (lastWithNumber ss)) ms := by
  have hmap : ∀ ks : List Nat, (∀ n ∈ ks, n ∈ ns) → (ks.filterMap (lastWithNumber ss)).map (·.number) = ks := by
    intro ks hks
    induction ks with
    | nil => rfl
    | cons n ks ih =>
      obtain ⟨s, hs, hn, -⟩ := lastWithNumber_eq hl (hks n List.mem_cons_self)
      rw [List.filterMap_cons_some hs, List.map_cons, hn, ih fun m hm => hks m (List.mem_cons_of_mem n hm)]
  have hks : ∀ n ∈ ms.elements, n ∈ ns := fun n hn => hm n (mem_elements.1 hn)
  refine ⟨fun s hs => ?_, (hmap _ hks).symm ▸ ms.nodup_elements, fun n => by rw [hmap _ hks, mem_elements]⟩
  obtain ⟨n, hn, hs⟩ := List.mem_filterMap.1 hs
  obtain ⟨s', hs', -, hrec⟩ := lastWithNumber_eq hl (hks n hn)
  rw [hs', Option.some.injEq] at hs
  exact hs ▸ hrec

theorem cohortIn_spec (hl : table.Covers ss ns) (hw : ∀ n ∈ wanted, n ∈ ns) {epoch : Int} {c : Cohort}
    (h : cohortIn size ss wanted e epoch = .ok c) : c.epoch = epoch ∧ c.Of size table (e.onTime ∩ wanted) :=
  ⟨(Cohort.shape_of_ofSectors h).1, Cohort.of_ofSectors (lists_filterMap hl fun n hn => hw n (mem_inter.1 hn).2) h⟩

/-- A cohort that stands for the wanted sectors that are on time in a stored entry, of which there are some. -/
structure Found (size : SectorSize) (table : SectorTable) (q : ExpirationQueue) (ns : NumberSet)
    (c : Cohort × ExpirationSet) : Prop where
  /-- The entry is stored at the cohort's epoch. -/
  stored : ∃ k : Nat, c.1.epoch = k ∧ q.get? k = some c.2
  /-- The cohort holds the wanted sectors that are on time there. -/
  of : c.1.Of size table (c.2.onTime ∩ ns)
  /-- There are some. -/
  nonempty : c.1.numbers ≠ []

theorem Found.mem_iff {c : Cohort × ExpirationSet} (h : Found size table q ns c) {n : Nat} :
    n ∈ c.1.numbers ↔ n ∈ c.2.onTime ∧ n ∈ ns := by rw [h.of.mem, mem_inter]

/-- A cohort found in an orderly queue is where its sectors are. -/
theorem Found.epoch_eq (hq : q.Orderly) {c : Cohort × ExpirationSet} (h : Found size table q ns c) {n : Nat}
    (hn : n ∈ c.1.numbers) (hk : n ∈ (q.entry k).onTime) : c.1.epoch = k := by
  obtain ⟨k', hk', hget⟩ := h.stored
  have hm : n ∈ (q.entry k').members := by
    rw [entry_of_get? hget]
    exact ExpirationSet.mem_members.2 (.inl (h.mem_iff.1 hn).1)
  rw [hk', hq.once k' k n hm (ExpirationSet.mem_members.2 (.inl hk))]

/-- How far a search at given epochs has come: what is still wanted is on time at none of them. -/
structure Searched (size : SectorSize) (table : SectorTable) (q : ExpirationQueue) (ns : NumberSet)
    (epochs : List Int) (r : List (Cohort × ExpirationSet) × NumberSet) : Prop where
  /-- At most one cohort for each epoch. -/
  sub : (r.1.map (·.1.epoch)).Sublist epochs
  /-- The cohorts are what they should be. -/
  found : ∀ c ∈ r.1, Found size table q ns c
  /-- What is still wanted is in none of them. -/
  wanted : ∀ n, n ∈ r.2 ↔ n ∈ ns ∧ ∀ c ∈ r.1, n ∉ c.1.numbers
  /-- It is on time at none of the epochs. -/
  clear : ∀ n ∈ r.2, ∀ k : Nat, (k : Int) ∈ epochs → n ∉ (q.entry k).onTime

theorem searched_of_locateAt (hq : q.Orderly) (hl : table.Covers ss ns) {epochs : List Int} (hnd : epochs.Nodup)
    {r : List (Cohort × ExpirationSet) × NumberSet} (h : locateAt size q ss ns epochs = .ok r) :
    Searched size table q ns epochs r := by
  refine foldOutcome_invariant (I := Searched size table q ns) h ⟨.slnil, by simp, by simp, by simp⟩ ?_
  rintro done epoch rest ⟨found, wanted⟩ r' hs hI hstep
  simp only [bind_eq_ok, entryAt_eq_ok] at hstep
  obtain ⟨_, ⟨k, rfl, -, rfl⟩, c, hc, hstep⟩ := hstep
  obtain ⟨hce, hof⟩ := cohortIn_spec hl (fun n hn => ((hI.wanted n).1 hn).1) hc
  have hfresh : (k : Int) ∉ done := by
    rw [hs] at hnd
    exact fun hk => (List.nodup_append.1 hnd).2.2 _ hk _ List.mem_cons_self rfl
  by_cases hempty : c.numbers.isEmpty
  · simp only [hempty, if_true, pure_eq_ok] at hstep
    subst hstep
    have hnone : ∀ n ∈ wanted, n ∉ (q.entry k).onTime := fun n hn hon =>
      eq_empty_iff.1 (hof.eq_nil_iff.1 (List.isEmpty_iff.1 hempty)) n (mem_inter.2 ⟨hon, hn⟩)
    refine ⟨hI.sub.trans (List.sublist_append_left ..), hI.found, hI.wanted, fun n hn j hj => ?_⟩
    rcases List.mem_append.1 hj with hj | hj
    · exact hI.clear n hn j hj
    · obtain rfl : j = k := by simpa using hj
      exact hnone n hn
  · simp only [hempty, Bool.false_eq_true, if_false, pure_eq_ok] at hstep
    subst hstep
    have hne : c.numbers ≠ [] := fun h => hempty (List.isEmpty_iff.2 h)
    -- a wanted sector that is on time here has not been found before: it would be at this epoch twice
    have hall : ∀ n, n ∈ (q.entry k).onTime ∩ wanted ↔ n ∈ (q.entry k).onTime ∩ ns := by
      intro n
      rw [mem_inter, mem_inter, hI.wanted n]
      refine and_congr_right fun hon => ⟨And.left, fun hns => ⟨hns, fun c' hc' hn => ?_⟩⟩
      have := (hI.found c' hc').epoch_eq hq hn hon
      exact hfresh (this ▸ hI.sub.subset (List.mem_map_of_mem hc'))
    have hget : q.get? k = some (q.entry k) := by
      obtain ⟨n, hn⟩ := List.exists_mem_of_ne_nil _ hne
      exact get?_of_mem (ExpirationSet.mem_members.2 (.inl (mem_inter.1 ((hof.mem n).1 hn)).1))
    have hfound : Found size table q ns (c, q.entry k) := ⟨⟨k, hce, hget⟩, hof.congr hall, hne⟩
    refine ⟨?_, fun c' hc' => ?_, fun n => ?_, fun n hn j hj => ?_⟩
    · rw [List.map_append]
      exact hI.sub.append (by simp [hce])
    · rcases List.mem_append.1 hc' with hc' | hc'
      · exact hI.found c' hc'
      · rwa [List.mem_singleton.1 hc']
    · rw [mem_sdiff, hI.wanted n, List.forall_mem_append, List.forall_mem_singleton, hfound.mem_iff]
      tauto
    · rw [mem_sdiff] at hn
      rcases List.mem_append.1 hj with hj | hj
      · exact hI.clear n hn.1 j hj
      · obtain rfl : j = k := by simpa using hj
        exact hn.2

/-- A search through the remaining entries. What was wanted before, and is not wanted any more, is in none of
the entries to come. -/
theorem locateElsewhere_spec (hq : q.Orderly) (hl : table.Covers ss ns) {known : List Int}
    {es : List (Nat × ExpirationSet)} (hsorted : es.Pairwise (·.1 < ·.1)) (hes : ∀ e ∈ es, q.get? e.1 = some e.2)
    (hw : ∀ n ∈ wanted, n ∈ ns)
    (hgone : ∀ n ∈ ns, n ∉ wanted → ∀ e ∈ es, (e.1 : Int) ∉ known → n ∉ e.2.onTime)
    {r : List (Cohort × ExpirationSet) × NumberSet} (h : locateElsewhere size ss known es wanted = .ok r) :
    (r.1.map (·.1.epoch)).Sublist (es.map fun e => (e.1 : Int)) ∧
      (∀ c ∈ r.1, c.1.epoch ∉ known ∧ Found size table q ns c) ∧
      ∀ n, n ∈ r.2 ↔ n ∈ wanted ∧ ∀ c ∈ r.1, n ∉ c.1.numbers := by
  induction es generalizing wanted r with
  | nil =>
    obtain rfl : ([], wanted) = r := by simpa [locateElsewhere] using h
    simp
  | cons e es ih =>
    obtain ⟨key, entry⟩ := e
    have hget : q.get? key = some entry := hes _ List.mem_cons_self
    have hes' : ∀ e ∈ es, q.get? e.1 = some e.2 := fun e he => hes e (List.mem_cons_of_mem _ he)
    have hepoch : Count.toEpoch key = key := Count.toEpoch_of_lt (hq.key_lt key entry hget)
    rw [locateElsewhere, hepoch] at h
    by_cases hknown : known.contains (key : Int)
    · simp only [hknown, if_true] at h
      obtain ⟨hsub, hfound, hwanted⟩ := ih hsorted.of_cons hes' hw
        (fun n hns hn e he => hgone n hns hn e (List.mem_cons_of_mem _ he)) h
      exact ⟨hsub.cons _, hfound, hwanted⟩
    · simp only [hknown, Bool.false_eq_true, if_false, bind_eq_ok, ite_bind_eq_ok, pure_eq_ok] at h
      obtain ⟨-, -, c, hc, ⟨more, wanted'⟩, hmore, rfl⟩ := h
      have hunknown : (key : Int) ∉ known := fun hk => hknown (List.contains_iff_mem.2 hk)
      obtain ⟨hce, hof⟩ := cohortIn_spec hl hw hc
      have hentry : q.entry key = entry := entry_of_get? hget
      -- a wanted sector that is on time here is still wanted, so the cohort is complete
      have hall : ∀ n, n ∈ entry.onTime ∩ wanted ↔ n ∈ entry.onTime ∩ ns := by
        intro n
        rw [mem_inter, mem_inter]
        refine and_congr_right fun hon => ⟨hw n, fun hns => ?_⟩
        by_contra hn
        exact hgone n hns hn _ List.mem_cons_self hunknown hon
      have hgone' : ∀ n ∈ ns, n ∉ wanted \ entry.onTime → ∀ e ∈ es, (e.1 : Int) ∉ known → n ∉ e.2.onTime := by
        intro n hns hn e he hek hon
        by_cases hnw : n ∈ wanted
        · have hhere : n ∈ entry.onTime := by
            by_contra hnot
            exact hn (mem_sdiff.2 ⟨hnw, hnot⟩)
          have hlt := (List.pairwise_cons.1 hsorted).1 e he
          have := hq.once key e.1 n (by rw [hentry]; exact ExpirationSet.mem_members.2 (.inl hhere))
            (by rw [entry_of_get? (hes' e he)]; exact ExpirationSet.mem_members.2 (.inl hon))
          simp only at hlt
          omega
        · exact hgone n hns hnw e (List.mem_cons_of_mem _ he) hek hon
      have hrest : (more.map (·.1.epoch)).Sublist (es.map fun e => (e.1 : Int)) ∧
          (∀ c ∈ more, c.1.epoch ∉ known ∧ Found size table q ns c) ∧
          ∀ n, n ∈ wanted' ↔ n ∈ wanted \ entry.onTime ∧ ∀ c ∈ more, n ∉ c.1.numbers := by
        split at hmore
        · obtain ⟨rfl, rfl⟩ := Prod.mk.inj (pure_eq_ok.1 hmore)
          simp
        · exact ih hsorted.of_cons hes' (fun n hn => hw n (mem_sdiff.1 hn).1) hgone' hmore
      obtain ⟨hsub, hfound, hwanted⟩ := hrest
      by_cases hempty : c.numbers.isEmpty
      · simp only [hempty, if_true]
        have hnone := eq_empty_iff.1 (hof.eq_nil_iff.1 (List.isEmpty_iff.1 hempty))
        refine ⟨hsub.cons _, hfound, fun n => ?_⟩
        have := hnone n
        rw [hwanted n, mem_sdiff]
        rw [mem_inter] at this
        tauto
      · simp only [hempty, Bool.false_eq_true, if_false]
        have hfc : Found size table q ns (c, entry) :=
          ⟨⟨key, hce, hget⟩, hof.congr hall, fun h => hempty (List.isEmpty_iff.2 h)⟩
        refine ⟨?_, List.forall_mem_cons.2 ⟨⟨by rwa [hce], hfc⟩, hfound⟩, fun n => ?_⟩
        · rw [List.map_cons, List.map_cons, hce]
          exact hsub.cons_cons _
        · have := hall n
          rw [hwanted n, mem_sdiff, List.forall_mem_cons, hfc.mem_iff]
          rw [mem_inter, mem_inter] at this
          tauto

/-- What a complete search answers. -/
structure Located (size : SectorSize) (table : SectorTable) (q : ExpirationQueue) (ns : NumberSet)
    (cs : List (Cohort × ExpirationSet)) : Prop where
  /-- The epochs ascend. -/
  sorted : cs.Pairwise (·.1.epoch < ·.1.epoch)
  /-- The cohorts are what they should be. -/
  found : ∀ c ∈ cs, Found size table q ns c
  /-- Every wanted sector is found. -/
  complete : ∀ n ∈ ns, ∃ c ∈ cs, n ∈ c.1.numbers

namespace Located

variable {cs done rest : List (Cohort × ExpirationSet)} {c : Cohort × ExpirationSet}

/-- The cohorts hold the wanted sectors. -/
theorem mem_iff (h : Located size table q ns cs) {n : Nat} : (∃ c ∈ cs, n ∈ c.1.numbers) ↔ n ∈ ns := by
  refine ⟨?_, h.complete n⟩
  rintro ⟨c, hc, hn⟩
  exact ((h.found c hc).mem_iff.1 hn).2

/-- The epoch of a cohort is not the epoch of one before it. -/
theorem epoch_ne (h : Located size table q ns cs) (hs : cs = done ++ c :: rest) :
    ∀ d ∈ done, d.1.epoch ≠ c.1.epoch := by
  intro d hd
  have hsorted := h.sorted
  rw [hs, List.pairwise_append] at hsorted
  exact ne_of_lt (hsorted.2.2 d hd c List.mem_cons_self)

/-- A cohort has no sector of those before it. -/
theorem fresh (h : Located size table q ns cs) (hq : q.Orderly) (hs : cs = done ++ c :: rest) {n : Nat}
    (hn : n ∈ c.1.numbers) : ∀ d ∈ done, n ∉ d.1.numbers := by
  intro d hd hn'
  have hc := h.found c (by rw [hs]; simp)
  obtain ⟨k, hk, hget⟩ := hc.stored
  have hon : n ∈ (q.entry k).onTime := entry_of_get? hget ▸ (hc.mem_iff.1 hn).1
  refine h.epoch_ne hs d hd ?_
  rw [hk]
  exact (h.found d (by rw [hs]; simp [hd])).epoch_eq hq hn' hon

end Located

/-- **In an orderly queue the search finds every wanted sector, entry by entry.** -/
theorem locate_spec (hq : q.Orderly) (hl : table.Covers ss ns) {cs : List (Cohort × ExpirationSet)}
    (h : locate grid size q ss = .ok cs) : Located size table q ns cs := by
  simp only [locate, bind_eq_ok, ite_bind_eq_ok, ← hl.eq_ofList] at h
  obtain ⟨groups, hgroups, ⟨found, wanted⟩, hat, ⟨more, left⟩, hmore, h⟩ := h
  simp only [ite_failed_eq_ok, failed_bind, pure_eq_ok, Bool.not_eq_true', Bool.not_eq_false,
    NumberSet.isEmpty_iff] at h
  obtain ⟨rfl, rfl⟩ := h
  have hsorted := (grouped_of_groupByExpiration hgroups).sorted
  have hnd : (groups.map (·.1)).Nodup := (List.pairwise_map.2 hsorted).imp fun h => ne_of_lt h
  have hI := searched_of_locateAt hq hl hnd hat
  have hrest : (more.map (·.1.epoch)).Sublist (q.entries.map fun e => (e.1 : Int)) ∧
      (∀ c ∈ more, c.1.epoch ∉ groups.map (·.1) ∧ Found size table q ns c) ∧
      ∀ n, n ∈ (∅ : NumberSet) ↔ n ∈ wanted ∧ ∀ c ∈ more, n ∉ c.1.numbers := by
    split at hmore
    · next hw =>
      obtain ⟨rfl, rfl⟩ := Prod.mk.inj (pure_eq_ok.1 hmore)
      simp
    · refine locateElsewhere_spec hq hl q.ascending (fun e he => SparseArray.mem_entries.1 he)
        (fun n hn => ((hI.wanted n).1 hn).1) (fun n hns hn e he hek hon => ?_) (within_eq_ok.1 hmore)
      have hon' : n ∈ (q.entry e.1).onTime := by rwa [entry_of_get? (SparseArray.mem_entries.1 he)]
      have : ∃ c ∈ found, n ∈ c.1.numbers := by
        by_contra hno
        push Not at hno
        exact hn ((hI.wanted n).2 ⟨hns, hno⟩)
      obtain ⟨c, hc, hnc⟩ := this
      exact hek ((hI.found c hc).epoch_eq hq hnc hon' ▸ hI.sub.subset (List.mem_map_of_mem hc))
  obtain ⟨hsub, hfound, hleft⟩ := hrest
  have hkeys : (q.entries.map fun e => (e.1 : Int)).Nodup :=
    List.pairwise_map.2 (q.ascending.imp fun h => by omega)
  have hepochs : ((found ++ more).map (·.1.epoch)).Nodup := by
    rw [List.map_append, List.nodup_append]
    refine ⟨hnd.sublist hI.sub, hkeys.sublist hsub, fun a ha b hb hab => ?_⟩
    obtain ⟨c, hc, rfl⟩ := List.mem_map.1 hb
    exact (hfound c hc).1 (hab ▸ hI.sub.subset ha)
  refine ⟨?_, fun c hc => ?_, fun n hn => ?_⟩
  · have hle := @List.pairwise_mergeSort _ (fun a b : Cohort × ExpirationSet => decide (a.1.epoch ≤ b.1.epoch))
      (by simp; omega) (by simp; omega) (found ++ more)
    have hne := (List.mergeSort_perm (found ++ more) fun a b => decide (a.1.epoch ≤ b.1.epoch)).map (·.1.epoch)
    have hne := List.pairwise_map.1 (hne.nodup_iff.2 hepochs)
    exact (hle.and hne).imp fun h => by
      have := of_decide_eq_true h.1
      have := h.2
      omega
  · rcases List.mem_append.1 (List.mem_mergeSort.1 hc) with hc | hc
    · exact hI.found c hc
    · exact (hfound c hc).2
  · by_contra hno
    push Not at hno
    have hall : ∀ c ∈ found ++ more, n ∉ c.1.numbers := fun c hc => hno c (List.mem_mergeSort.2 hc)
    rw [List.forall_mem_append] at hall
    exact not_mem_empty n ((hleft n).2 ⟨(hI.wanted n).2 ⟨hn, hall.1⟩, hall.2⟩)

end ExpirationQueue

end SectorLedger
