import SectorLedger.Proofs.Expiration.Recovering

/-!
# Entries that are left alone

The keys of a queue are counts, and the largest of them are not epochs. No sector is ever filed at such a key, and a
walk that comes to one fails. An operation that finds what it looks for before then does not notice the entries at
these keys, and leaves them as they are.

* `SparseArray.beside`: two arrays as one. `SparseArray.before_beside_since`: every array is made of two.
* `ExpirationQueue.Beyond`: all keys are too large to be epochs.
* `addActive_beside`, `removeActive_beside`, `rescheduleAsFaults_beside`, `rescheduleRecovered_beside`: what an operation
  does to a queue, it does to the queue with such entries beside it.
-/

namespace SectorLedger

namespace SparseArray

variable {α : Type} {a b : SparseArray α} {i k : Nat} {v : α}

/-- The values of both arrays. Where both have one, that of the second stays. -/
def beside (a b : SparseArray α) : SparseArray α := b.entries.foldl (fun a e => a.insert e.1 e.2) a

/-- The values at the indices below a bound. -/
def before (bound : Nat) (a : SparseArray α) : SparseArray α :=
  ⟨a.entries.filter (·.1 < bound), a.ascending.sublist List.filter_sublist⟩

/-- The values at the other indices. -/
def since (bound : Nat) (a : SparseArray α) : SparseArray α :=
  ⟨a.entries.filter (bound ≤ ·.1), a.ascending.sublist List.filter_sublist⟩

theorem get?_beside (a b : SparseArray α) (k : Nat) : (a.beside b).get? k = (b.get? k).or (a.get? k) := by
  suffices run : ∀ es : List (Nat × α), es.Pairwise (·.1 < ·.1) → ∀ a : SparseArray α,
      (es.foldl (fun a e => a.insert e.1 e.2) a).get? k = (lookupEntry k es).or (a.get? k) from
    run b.entries b.ascending a
  intro es
  induction es with
  | nil => exact fun _ a => rfl
  | cons e es ih =>
    intro hsorted a
    obtain ⟨j, w⟩ := e
    rw [List.foldl_cons, ih hsorted.of_cons, get?_insert, lookupEntry]
    by_cases hk : k = j
    · have hnone : lookupEntry k es = none := by
        refine Option.eq_none_iff_forall_ne_some.2 fun u hu => ?_
        have := (List.pairwise_cons.1 hsorted).1 _ ((lookupEntry_eq_some_iff hsorted.of_cons).1 hu)
        simp only at this
        omega
      rw [if_pos hk, if_pos hk, hnone]
      rfl
    · rw [if_neg hk, if_neg hk]

theorem get?_before (bound : Nat) (a : SparseArray α) (k : Nat) :
    (a.before bound).get? k = if k < bound then a.get? k else none := by
  refine Option.ext fun v => ?_
  rw [get?_eq_some_iff, before, List.mem_filter, decide_eq_true_eq, ← get?_eq_some_iff]
  split
  · next hk => exact and_iff_left hk
  · next hk => exact iff_of_false (fun h => hk h.2) (by simp)

theorem get?_since (bound : Nat) (a : SparseArray α) (k : Nat) :
    (a.since bound).get? k = if bound ≤ k then a.get? k else none := by
  refine Option.ext fun v => ?_
  rw [get?_eq_some_iff, since, List.mem_filter, decide_eq_true_eq, ← get?_eq_some_iff]
  split
  · next hk => exact and_iff_left hk
  · next hk => exact iff_of_false (fun h => hk h.2) (by simp)

/-- An array is made of what is before a bound and what is not. -/
theorem before_beside_since (bound : Nat) (a : SparseArray α) : (a.before bound).beside (a.since bound) = a := by
  refine ext fun k => ?_
  rw [get?_beside, get?_since, get?_before]
  by_cases hk : k < bound
  · rw [if_neg (by omega), if_pos hk, Option.none_or]
  · rw [if_pos (by omega), if_neg hk, Option.or_none]

/-- If one array ends before the other begins, their entries follow one after the other. -/
theorem entries_beside {bound : Nat} (ha : ∀ i v, a.get? i = some v → i < bound)
    (hb : ∀ i v, b.get? i = some v → bound ≤ i) : (a.beside b).entries = a.entries ++ b.entries := by
  have hsorted : (a.entries ++ b.entries).Pairwise (·.1 < ·.1) :=
    List.pairwise_append.2 ⟨a.ascending, b.ascending, fun c hc d hd =>
      (ha c.1 c.2 (mem_entries.1 hc)).trans_le (hb d.1 d.2 (mem_entries.1 hd))⟩
  have heq : a.beside b = ⟨a.entries ++ b.entries, hsorted⟩ := by
    refine ext fun k => Option.ext fun v => ?_
    rw [get?_beside, Option.or_eq_some_iff, get?_eq_some_iff (a := ⟨a.entries ++ b.entries, hsorted⟩),
      List.mem_append, ← get?_eq_some_iff, ← get?_eq_some_iff, or_comm]
    refine or_congr_left (and_iff_right_of_imp fun hv => ?_)
    refine Option.eq_none_iff_forall_ne_some.2 fun w hw => ?_
    have := ha k v hv
    have := hb k w hw
    omega
  rw [heq]

end SparseArray

namespace ExpirationQueue

open NumberSet

variable {grid : Grid} {size : SectorSize} {table : SectorTable} {faults ns wanted : NumberSet} {ss : List Sector}
  {q q' later : ExpirationQueue} {e : ExpirationSet} {k : Nat}

/-- All keys are too large to be epochs. -/
def Beyond (q : ExpirationQueue) : Prop := ∀ k e, q.get? k = some e → 0x8000000000000000 ≤ k

theorem beyond_since (q : ExpirationQueue) : Beyond (q.since 0x8000000000000000) := by
  intro k e hk
  rw [SparseArray.get?_since] at hk
  split at hk
  · assumption
  · cases hk

section Frame

variable (hlater : later.Beyond)

include hlater

theorem get?_beside_of_lt (q : ExpirationQueue) (hk : k < 0x8000000000000000) :
    (q.beside later).get? k = q.get? k := by
  have hnone : later.get? k = none := Option.eq_none_iff_forall_ne_some.2 fun e he => by
    have := hlater k e he
    omega
  rw [SparseArray.get?_beside, hnone, Option.none_or]

theorem entry_beside (q : ExpirationQueue) (hk : k < 0x8000000000000000) :
    ExpirationQueue.entry (q.beside later) k = q.entry k := by
  rw [entry, get?_beside_of_lt hlater q hk, entry]

theorem insert_beside (q : ExpirationQueue) (hk : k < 0x8000000000000000) (e : ExpirationSet) :
    (q.beside later).insert k e = (q.insert k e).beside later := by
  refine SparseArray.ext fun j => ?_
  by_cases hj : j = k
  · subst hj
    rw [get?_beside_of_lt hlater _ hk, SparseArray.get?_insert, SparseArray.get?_insert, if_pos rfl, if_pos rfl]
  · rw [SparseArray.get?_insert, if_neg hj, SparseArray.get?_beside, SparseArray.get?_beside, SparseArray.get?_insert,
      if_neg hj]

theorem store_beside (q : ExpirationQueue) (hk : k < 0x8000000000000000) (e : ExpirationSet) :
    ExpirationQueue.store (q.beside later) k e = (q.store k e).beside later := by
  unfold store
  split
  · refine SparseArray.ext fun j => ?_
    by_cases hj : j = k
    · subst hj
      rw [get?_beside_of_lt hlater _ hk, SparseArray.get?_erase, SparseArray.get?_erase, if_pos rfl, if_pos rfl]
    · rw [SparseArray.get?_erase, if_neg hj, SparseArray.get?_beside, SparseArray.get?_beside, SparseArray.get?_erase,
        if_neg hj]
  · exact insert_beside hlater q hk e

/-! ### One epoch -/

theorem addAt_beside {raw : Int} {added : ExpirationSet} (h : addAt grid q raw added = .ok q') :
    addAt grid (q.beside later) raw added = .ok (q'.beside later) := by
  obtain ⟨k, hup, hle, hvalid, rfl⟩ := addAt_eq_ok.1 h
  have hk := Grid.key_lt_of_up hup
  have hentry := entry_beside hlater q hk
  refine addAt_eq_ok.2 ⟨k, hup, hle, hentry ▸ hvalid, ?_⟩
  rw [hentry, insert_beside hlater q hk]

theorem removeAt_beside {raw : Int} {removed : ExpirationSet} (h : removeAt grid q raw removed = .ok q') :
    removeAt grid (q.beside later) raw removed = .ok (q'.beside later) := by
  obtain ⟨k, hup, hle, hsome, rest, hrest, rfl⟩ := removeAt_eq_ok.1 h
  have hk := Grid.key_lt_of_up hup
  refine removeAt_eq_ok.2 ⟨k, hup, hle, ?_, rest, ?_, store_beside hlater q hk rest⟩
  · rwa [get?_beside_of_lt hlater q hk]
  · rwa [entry_beside hlater q hk]

theorem putOrDrop_beside {epoch : Int} (hlt : epoch < 0x8000000000000000) (h : q.putOrDrop epoch e = .ok q') :
    ExpirationQueue.putOrDrop (q.beside later) epoch e = .ok (q'.beside later) := by
  obtain ⟨k, rfl, hle, rfl⟩ := putOrDrop_eq_ok.1 h
  exact putOrDrop_eq_ok.2 ⟨k, rfl, hle, store_beside hlater q (by omega) e⟩

theorem entryAt_beside (q : ExpirationQueue) {epoch : Int} (hlt : epoch < 0x8000000000000000) :
    ExpirationQueue.entryAt (q.beside later) epoch = q.entryAt epoch := by
  unfold entryAt
  cases hkey : Epoch.asCount epoch with
  | error stop => rfl
  | ok k =>
    have hk := Epoch.asCount_eq_ok.1 hkey
    simp only [ok_bind, SparseArray.read, get?_beside_of_lt hlater q (show k < 0x8000000000000000 by omega)]

/-! ### Searching at given epochs -/

theorem locateAt_beside (q : ExpirationQueue) {epochs : List Int} (hlt : ∀ e ∈ epochs, e < 0x8000000000000000) :
    locateAt size (q.beside later) ss wanted epochs = locateAt size q ss wanted epochs :=
  foldOutcome_congr fun epoch hepoch _ => by rw [entryAt_beside hlater q (hlt epoch hepoch)]

/-- Sectors that are on time at their own expirations are found without a walk through the queue. -/
theorem locate_beside (hq : q.Orderly) (hl : table.Lists ss ns)
    (hplace : ∀ n ∈ ns, ∃ k, table.DueAt grid n k ∧ n ∈ (q.entry k).onTime) {cs : List (Cohort × ExpirationSet)}
    (h : locate grid size q ss = .ok cs) : locate grid size (q.beside later) ss = .ok cs := by
  simp only [locate, bind_eq_ok, ite_bind_eq_ok, ← hl.eq_ofList] at h ⊢
  obtain ⟨groups, hgroups, ⟨found, wanted⟩, hat, hrest⟩ := h
  have hgrouped := grouped_of_groupByExpiration hgroups
  have hkeys : ∀ g ∈ groups, ∃ s ∈ ss, grid.up s.expiration = .ok g.1 := by
    intro g hg
    obtain ⟨s, hs⟩ := List.exists_mem_of_ne_nil _ (hgrouped.nonempty g hg)
    exact ⟨s, hgrouped.perm.subset (List.mem_flatMap.2 ⟨g, hg, hs⟩), hgrouped.up_eq g hg s hs⟩
  have hlt : ∀ e ∈ groups.map (·.1), e < 0x8000000000000000 := by
    intro e he
    obtain ⟨g, hg, rfl⟩ := List.mem_map.1 he
    obtain ⟨s, -, hup⟩ := hkeys g hg
    obtain ⟨-, -, -, -, hr, -⟩ := Grid.multiple_of_up hup
    exact hr.2
  have hnd : (groups.map (·.1)).Nodup := (List.pairwise_map.2 hgrouped.sorted).imp fun h => ne_of_lt h
  have hI := searched_of_locateAt hq hl.covers hnd hat
  have hnone : wanted = ∅ := by
    refine eq_empty_iff.2 fun n hn => ?_
    obtain ⟨k, ⟨s, hrec, hup⟩, hon⟩ := hplace n ((hI.wanted n).1 hn).1
    have hs := hl.mem_of_get? ((hI.wanted n).1 hn).1 hrec
    obtain ⟨g, hg, hsg⟩ := List.mem_flatMap.1 (hgrouped.perm.symm.subset hs)
    have hgk := hgrouped.up_eq g hg s hsg
    rw [hup, Except.ok.injEq] at hgk
    exact hI.clear n hn k (hgk ▸ List.mem_map_of_mem hg) hon
  refine ⟨groups, hgroups, (found, wanted), (locateAt_beside hlater q hlt).trans hat, ?_⟩
  rw [hnone] at hrest ⊢
  exact hrest

/-- **Sectors that are on time at their own expirations leave.** -/
theorem removeActive_beside (hq : q.Orderly) (hl : table.Lists ss ns)
    (hplace : ∀ n ∈ ns, ∃ k, table.DueAt grid n k ∧ n ∈ (q.entry k).onTime) {lot : Lot}
    (h : removeActive grid size q ss = .ok (q', lot)) :
    removeActive grid size (q.beside later) ss = .ok (q'.beside later, lot) := by
  simp only [removeActive, bind_eq_ok, pure_eq_ok, Prod.mk.injEq] at h ⊢
  obtain ⟨cs, hcs, ⟨q₁, numbers, power, pledge⟩, hfold, set, hset, rfl, rfl⟩ := h
  refine ⟨cs, locate_beside hlater hq hl hplace hcs, (q₁.beside later, numbers, power, pledge),
    foldOutcome_map (fun r => (r.1.beside later, r.2)) hfold ?_, set, hset, rfl, rfl⟩
  rintro ⟨c, entry⟩ - ⟨q₀, gone, w, x⟩ r' hstep
  simp only [bind_eq_ok, pure_eq_ok] at hstep ⊢
  obtain ⟨set, hset, q₂, hrem, rfl⟩ := hstep
  exact ⟨set, hset, _, removeAt_beside hlater hrem, rfl⟩

/-- **Sectors that are on time at their own expirations become faulty.** -/
theorem rescheduleAsFaults_beside (hq : q.Orderly) (hl : table.Lists ss ns)
    (hplace : ∀ n ∈ ns, ∃ k, table.DueAt grid n k ∧ n ∈ (q.entry k).onTime) {epoch : Int} {power : Power}
    (h : rescheduleAsFaults grid size q epoch ss = .ok (q', power)) :
    rescheduleAsFaults grid size (q.beside later) epoch ss = .ok (q'.beside later, power) := by
  simp only [rescheduleAsFaults, bind_eq_ok] at h ⊢
  obtain ⟨cs, hcs, ⟨q₁, moved, movedPower, stayingPower⟩, hfold, h⟩ := h
  have hloc := locate_spec hq hl.covers hcs
  have hlt : ∀ c ∈ cs, c.1.epoch < 0x8000000000000000 := by
    intro c hc
    obtain ⟨k, hk, hget⟩ := (hloc.found c hc).stored
    have := hq.key_lt k _ hget
    omega
  refine ⟨cs, locate_beside hlater hq hl hplace hcs, (q₁.beside later, moved, movedPower, stayingPower),
    foldOutcome_map (fun r => (r.1.beside later, r.2)) hfold ?_, ?_⟩
  · rintro ⟨c, entry⟩ hc ⟨q₀, out, w, v⟩ r' hstep
    have hepoch : c.epoch < 0x8000000000000000 := hlt _ hc
    simp only [bind_eq_ok] at hstep ⊢
    obtain ⟨limit, hup, hstep⟩ := hstep
    refine ⟨limit, hup, ?_⟩
    by_cases hle : c.epoch ≤ limit
    · simp only [hle, if_true, bind_eq_ok, pure_eq_ok] at hstep ⊢
      obtain ⟨q₂, hput, u, hvalid, rfl⟩ := hstep
      exact ⟨_, putOrDrop_beside hlater hepoch hput, u, hvalid, rfl⟩
    · simp only [hle, if_false, bind_eq_ok, pure_eq_ok] at hstep ⊢
      obtain ⟨set, hset, q₂, hput, u, hvalid, rfl⟩ := hstep
      exact ⟨set, hset, _, putOrDrop_beside hlater hepoch hput, u, hvalid, rfl⟩
  · by_cases hnone : moved.isEmpty = true
    · simp only [hnone, if_true, pure_eq_ok, Prod.mk.injEq] at h ⊢
      exact ⟨congrArg (·.beside later) h.1, h.2⟩
    · simp only [hnone, Bool.false_eq_true, if_false, bind_eq_ok, pure_eq_ok] at h ⊢
      obtain ⟨early, hset, q₂, hadd, hr⟩ := h
      obtain ⟨rfl, rfl⟩ := Prod.mk.inj hr
      exact ⟨early, hset, _, addAt_beside hlater hadd, rfl⟩

/-! ### Walking -/

/-- A walk that is told to stop does not come to the entries that follow. -/
theorem walk_beside {σ : Type} {f : σ → ExpirationSet → Outcome (σ × ExpirationSet × Bool)} {stopped : σ → Bool}
    (hstop : ∀ s e s' e' more, f s e = .ok (s', e', more) → more = !stopped s') {es es' : List (Nat × ExpirationSet)}
    (hes : es ≠ []) {s s' : σ} (h : walk f es s q = .ok (s', q')) (hs' : stopped s' = true) :
    walk f (es ++ es') s (q.beside later) = .ok (s', q'.beside later) := by
  induction es generalizing s q with
  | nil => exact absurd rfl hes
  | cons c es ih =>
    obtain ⟨key, entry⟩ := c
    simp only [walk, List.cons_append, bind_eq_ok] at h ⊢
    obtain ⟨epoch, hkey, ⟨s₁, e₁, more⟩, hf, h⟩ := h
    refine ⟨epoch, hkey, (s₁, e₁, more), hf, ?_⟩
    have hstore := store_beside hlater q (Count.asEpoch_eq_ok.1 hkey).1 e₁
    unfold store at hstore
    simp only at h ⊢
    rw [hstore]
    cases more with
    | true =>
      -- it was not told to stop, so there is another entry
      have hnext : es ≠ [] := by
        rintro rfl
        obtain ⟨rfl, -⟩ : s₁ = s' ∧ _ = q' := by simpa [walk] using h
        have := hstop _ _ _ _ _ hf
        rw [hs'] at this
        cases this
      exact ih hnext h
    | false =>
      obtain ⟨rfl, rfl⟩ := Prod.mk.inj (pure_eq_ok.1 h)
      rfl

theorem addActive_beside {lot : Lot} (h : addActive grid size q ss = .ok (q', lot)) :
    addActive grid size (q.beside later) ss = .ok (q'.beside later, lot) := by
  obtain ⟨groups, cohorts, hgroups, hcohorts, hfold⟩ := addActive_eq_ok.1 h
  refine addActive_eq_ok.2 ⟨groups, cohorts, hgroups, hcohorts,
    foldOutcome_map (fun r => (r.1.beside later, r.2)) hfold ?_⟩
  rintro c - ⟨q₀, lot₀⟩ r' hstep
  simp only [enter, bind_eq_ok, noting_eq_ok, pure_eq_ok] at hstep ⊢
  obtain ⟨set, hset, q₁, hadd, rfl⟩ := hstep
  exact ⟨set, hset, _, addAt_beside hlater hadd, rfl⟩

/-- **Sectors recover.** There must be an entry at which the search can stop. -/
theorem rescheduleRecovered_beside (hkeys : ∀ k e, q.get? k = some e → k < 0x8000000000000000) (hne : q.entries ≠ [])
    {power : Power} (h : rescheduleRecovered grid size q ss = .ok (q', power)) :
    rescheduleRecovered grid size (q.beside later) ss = .ok (q'.beside later, power) := by
  simp only [rescheduleRecovered, notFound, bind_eq_ok, within_eq_ok, failed_bind, ite_failed_eq_ok, pure_eq_ok] at h ⊢
  obtain ⟨⟨all, q₁⟩, hwalk, hnone, ⟨q₂, lot⟩, hadd, hr⟩ := h
  obtain ⟨rfl, rfl⟩ := Prod.mk.inj hr
  have hstop : ∀ s e s' e' more, recoverEntry size ss s e = .ok (s', e', more) → more = !s'.remaining.isEmpty := by
    intro s e s' e' more hstep
    simp only [recoverEntry, bind_eq_ok, pure_eq_ok] at hstep
    obtain ⟨r, -, u, -, hanswer⟩ := hstep
    obtain ⟨rfl, hr⟩ := Prod.mk.inj hanswer
    exact (Prod.mk.inj hr).2.symm
  refine ⟨(all, q₁.beside later), ?_, hnone, (q₂.beside later, lot), addActive_beside hlater hadd, rfl⟩
  rw [SparseArray.entries_beside hkeys hlater]
  exact walk_beside hlater hstop hne hwalk (by simpa using hnone)

end Frame

end ExpirationQueue

end SectorLedger
