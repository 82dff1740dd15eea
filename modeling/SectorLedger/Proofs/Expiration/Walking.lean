import SectorLedger.Proofs.Expiration.Moving

/-!
# Searching the queue for faulty sectors

Faulty sectors may be at any epoch, so the entries are gone through in order until all of them are found. A
sector has one place, so the order does not matter: each entry gives up exactly those of the sectors that are
in it.

* `walk_invariant`: what every entry keeps, the walk keeps. `walk_total`: a walk that nothing stops.
* `Sound.rescheduleRecovered`: sectors recover; those at early places go back to their own expirations.
-/

namespace SectorLedger.ExpirationQueue

open NumberSet

variable {grid : Grid} {size : SectorSize} {table : SectorTable} {faults ns ms : NumberSet} {ss : List Sector}
  {q q' : ExpirationQueue} {e e' : ExpirationSet} {k : Nat}

/-! ### Walks -/

theorem walk_invariant {σ : Type} {f : σ → ExpirationSet → Outcome (σ × ExpirationSet × Bool)}
    {I : List (Nat × ExpirationSet) → σ → ExpirationQueue → Prop} {es : List (Nat × ExpirationSet)} {s s' : σ}
    (h : walk f es s q = .ok (s', q')) (start : I [] s q)
    (step : ∀ done c rest s q s' e' more, es = done ++ c :: rest → I done s q → f s c.2 = .ok (s', e', more) →
      I (done ++ [c]) s' (q.store c.1 e')) : ∃ done rest, es = done ++ rest ∧ I done s' q' := by
  have run : ∀ rest done s q, es = done ++ rest → I done s q → walk f rest s q = .ok (s', q') →
      ∃ done rest, es = done ++ rest ∧ I done s' q' := by
    intro rest
    induction rest with
    | nil =>
      intro done s q hs hI h
      obtain ⟨rfl, rfl⟩ : s = s' ∧ q = q' := by simpa [walk] using h
      exact ⟨done, [], hs, hI⟩
    | cons c rest ih =>
      intro done s q hs hI h
      obtain ⟨key, entry⟩ := c
      simp only [walk, bind_eq_ok] at h
      obtain ⟨-, -, ⟨s₁, e₁, more⟩, hf, h⟩ := h
      have hI' := step done (key, entry) rest s q s₁ e₁ more hs hI hf
      cases more with
      | true => exact ih (done ++ [(key, entry)]) s₁ _ (by simp [hs]) hI' h
      | false =>
        obtain ⟨rfl, rfl⟩ := Prod.mk.inj (pure_eq_ok.1 h)
        exact ⟨done ++ [(key, entry)], rest, by simp [hs], hI'⟩
  exact run es [] s q rfl start h

/-- A walk in which each step succeeds as long as the invariant holds, and keeps it, ends with it. Then either it
has come to the last entry, or a step has told it to stop. -/
theorem walk_total {σ : Type} {f : σ → ExpirationSet → Outcome (σ × ExpirationSet × Bool)} {stopped : σ → Prop}
    {I : List (Nat × ExpirationSet) → σ → ExpirationQueue → Prop} {es : List (Nat × ExpirationSet)} {s : σ}
    (hkeys : ∀ c ∈ es, c.1 < 0x8000000000000000) (start : I [] s q)
    (step : ∀ done c rest s q, es = done ++ c :: rest → I done s q → ∃ s' e' more, f s c.2 = .ok (s', e', more) ∧
      I (done ++ [c]) s' (q.store c.1 e') ∧ (more = false → stopped s')) :
    ∃ s' q' done rest, walk f es s q = .ok (s', q') ∧ es = done ++ rest ∧ I done s' q' ∧ (rest = [] ∨ stopped s') := by
  have run : ∀ rest done s q, es = done ++ rest → I done s q → ∃ s' q' done rest', walk f rest s q = .ok (s', q') ∧
      es = done ++ rest' ∧ I done s' q' ∧ (rest' = [] ∨ stopped s') := by
    intro rest
    induction rest with
    | nil => exact fun done s q hs hI => ⟨s, q, done, [], rfl, hs, hI, .inl rfl⟩
    | cons c rest ih =>
      intro done s q hs hI
      obtain ⟨key, entry⟩ := c
      obtain ⟨s₁, e₁, more, hf, hI', hstop⟩ := step done (key, entry) rest s q hs hI
      have hkey : Count.asEpoch key = .ok (key : Int) :=
        Count.asEpoch_eq_ok.2 ⟨hkeys (key, entry) (by rw [hs]; simp), rfl⟩
      have hs' : es = (done ++ [(key, entry)]) ++ rest := by simp [hs]
      have hstep : walk f ((key, entry) :: rest) s q =
          if more then walk f rest s₁ (q.store key e₁) else pure (s₁, q.store key e₁) := by
        simp only [walk, hkey, hf, ok_bind, store]
      cases more with
      | true =>
        obtain ⟨s', q', done', rest', hwalk, hsplit, hI'', hend⟩ := ih _ s₁ _ hs' hI'
        exact ⟨s', q', done', rest', hstep.trans hwalk, hsplit, hI'', hend⟩
      | false => exact ⟨s₁, _, _, rest, hstep, hs', hI', .inr (hstop rfl)⟩
  exact run es [] s q rfl start

/-- A sector of an entry is in none of the entries before it. -/
theorem fresh_of_walk (hq : q.Sound grid size table faults) {done rest : List (Nat × ExpirationSet)}
    (hs : q.entries = done ++ (k, e) :: rest) {n : Nat} (hn : n ∈ e.members) : ∀ d ∈ done, n ∉ d.2.members := by
  intro d hd hn'
  have hget : q.get? k = some e := SparseArray.get?_eq_some_iff.2 (by rw [hs]; simp)
  have hdget : q.get? d.1 = some d.2 := SparseArray.get?_eq_some_iff.2 (by rw [hs]; simp [hd])
  have := hq.once k d.1 n (entry_of_get? hget ▸ hn) (entry_of_get? hdget ▸ hn')
  exact SparseArray.fresh_of_entries hs (this ▸ List.mem_map_of_mem hd)

/-- The wanted sectors of an entry are found there, and nowhere before. -/
theorem found_step {done : List (Nat × ExpirationSet)} {left : NumberSet}
    (hleft : ∀ n, n ∈ left ↔ n ∈ ns ∧ ∀ d ∈ done, n ∉ d.2.members)
    (hfresh : ∀ n ∈ e.members, ∀ d ∈ done, n ∉ d.2.members) :
    (∀ n ∈ ns ∩ e.members, n ∈ left) ∧ ns \ (left \ (ns ∩ e.members)) = (ns \ left) ∪ (ns ∩ e.members) ∧
      ∀ n, n ∈ left \ (ns ∩ e.members) ↔ n ∈ ns ∧ ∀ d ∈ done ++ [(k, e)], n ∉ d.2.members := by
  have hwanted : ∀ n ∈ ns ∩ e.members, n ∈ left := fun n hn =>
    (hleft n).2 ⟨(mem_inter.1 hn).1, hfresh n (mem_inter.1 hn).2⟩
  refine ⟨hwanted, NumberSet.ext fun n => ?_, fun n => ?_⟩
  · have := hwanted n
    have := ((hleft n).1 · |>.1)
    simp only [mem_sdiff, mem_union, mem_inter] at *
    tauto
  · simp only [mem_sdiff, mem_inter, hleft, List.forall_mem_append, List.forall_mem_singleton]
    tauto

/-- The wanted sectors of an entry are on time or early. -/
theorem inter_members (ns : NumberSet) (e : ExpirationSet) : (ns ∩ e.onTime) ∪ (ns ∩ e.early) = ns ∩ e.members := by
  ext n
  simp only [mem_union, mem_inter, ExpirationSet.mem_members]
  tauto

/-- What leaves an entry is what has been found once it is gone through. -/
theorem sdiff_here {t left : NumberSet} (hwanted : ∀ n ∈ ns ∩ e.members, n ∈ left) (ht : ∀ n ∈ t, n ∈ e.members) :
    t \ (ns ∩ t) = t \ ((ns \ left) ∪ (ns ∩ e.members)) := by
  ext n
  have := hwanted n
  have := ht n
  simp only [mem_sdiff, mem_union, mem_inter] at *
  tauto

/-- Nothing leaves the other entries. -/
theorem sdiff_elsewhere {t left : NumberSet} (ht : ∀ n ∈ t, n ∉ e.members) :
    t \ (ns \ left) = t \ ((ns \ left) ∪ (ns ∩ e.members)) := by
  ext n
  have := ht n
  simp only [mem_sdiff, mem_union, mem_inter]
  tauto

/-- An entry that was gone through is the queue's. -/
theorem entry_of_walk {done rest : List (Nat × ExpirationSet)} (hs : q.entries = done ++ rest)
    {c : Nat × ExpirationSet} (hc : c ∈ done) : q.entry c.1 = c.2 :=
  entry_of_get? (SparseArray.get?_eq_some_iff.2 (by rw [hs]; simp [hc]))

/-- A sector that was found is early where it was found, or nowhere. -/
theorem early_of_walk (hq : q.Sound grid size table faults) {done rest : List (Nat × ExpirationSet)}
    (hs : q.entries = done ++ rest) {n : Nat} (hfound : ∃ c ∈ done, n ∈ c.2.members) :
    (∃ c ∈ done, n ∈ c.2.early) ↔ ∃ j, n ∈ (q.entry j).early := by
  constructor
  · rintro ⟨c, hc, hnc⟩
    exact ⟨c.1, entry_of_walk hs hc ▸ hnc⟩
  · rintro ⟨j, hj⟩
    obtain ⟨c, hc, hnc⟩ := hfound
    have := hq.once j c.1 n (ExpirationSet.mem_members.2 (.inr hj)) (entry_of_walk hs hc ▸ hnc)
    exact ⟨c, hc, by rw [← entry_of_walk hs hc, ← this]; exact hj⟩

/-- Once nothing remains, every wanted sector was found. -/
theorem found_of_none_left {done : List (Nat × ExpirationSet)} {left : NumberSet}
    (hleft : ∀ n, n ∈ left ↔ n ∈ ns ∧ ∀ c ∈ done, n ∉ c.2.members) (hnone : left = ∅) {n : Nat} (hn : n ∈ ns) :
    ∃ c ∈ done, n ∈ c.2.members := by
  by_contra hno
  push Not at hno
  exact not_mem_empty n (hnone ▸ (hleft n).2 ⟨hn, hno⟩)

/-- At the end of the queue, every wanted sector that is in it was found. -/
theorem none_left_of_holds {done : List (Nat × ExpirationSet)} (hs : q.entries = done) (hheld : ∀ n ∈ ns, q.Holds n)
    {left : NumberSet} (hleft : ∀ n, n ∈ left ↔ n ∈ ns ∧ ∀ c ∈ done, n ∉ c.2.members) : left = ∅ := by
  refine eq_empty_iff.2 fun n hn => ?_
  obtain ⟨hns, hno⟩ := (hleft n).1 hn
  obtain ⟨k, hk⟩ := hheld n hns
  exact hno (k, q.entry k) (hs ▸ SparseArray.mem_entries.2 (get?_of_mem hk)) hk

/-- What one part of every entry has lost once one more entry has given up the wanted sectors. -/
theorem sdiff_store (hq : q.Sound grid size table faults) (hentry : q.entry k = e) {part : ExpirationSet → NumberSet}
    (hpart : ∀ c, ∀ n ∈ part c, n ∈ c.members) {left : NumberSet} (hwanted : ∀ n ∈ ns ∩ e.members, n ∈ left)
    {q₁ : ExpirationQueue} (hlost : ∀ j, part (q₁.entry j) = part (q.entry j) \ (ns \ left)) {fs : NumberSet}
    (he' : e'.Exact size table fs) (hhere : part e' = part e \ (ns ∩ part e)) (j : Nat) :
    part ((q₁.store k e').entry j) = part (q.entry j) \ ((ns \ left) ∪ (ns ∩ e.members)) := by
  rw [entry_store he']
  split
  · next hj =>
    rw [hj, hentry, hhere]
    exact sdiff_here hwanted (hpart e)
  · next hj =>
    rw [hlost j]
    refine sdiff_elsewhere fun n hn hn' => hj ?_
    exact hq.once j k n (hpart _ n hn) (hentry ▸ hn')

/-- The entries after the one that is stored stay as they were. -/
theorem untouched_store {done : List (Nat × ExpirationSet)} {q₁ : ExpirationQueue}
    (h : ∀ j, j ∉ done.map (·.1) → q₁.entry j = q.entry j) {fs : NumberSet} (he' : e'.Exact size table fs) {j : Nat}
    (hj : j ∉ (done ++ [(k, e)]).map (·.1)) : (q₁.store k e').entry j = q.entry j := by
  rw [List.map_append, List.mem_append, not_or] at hj
  have hjk : j ≠ k := by simpa using hj.2
  rw [entry_store he', if_neg hjk, h j hj.1]

/-! ### One entry -/

/-- The numbers of a list of which one more sector has been gone through. -/
theorem ofList_snoc (done : List Sector) (s : Sector) : NumberSet.ofList ((done ++ [s]).map (·.number)) =
    NumberSet.ofList (done.map (·.number)) ∪ NumberSet.singleton s.number := by
  ext n
  simp

/-- A sector is not among those that were gone through before it. -/
theorem fresh_of_lists (hl : table.Lists ss ns) {done rest : List Sector} {s : Sector} (hs : ss = done ++ s :: rest) :
    s.number ∉ NumberSet.ofList (done.map (·.number)) := by
  have hnd := hl.nodup
  rw [hs, List.map_append, List.map_cons, List.nodup_append] at hnd
  rw [mem_ofList]
  exact fun hm => hnd.2.2 _ hm _ List.mem_cons_self rfl

/-- How far the recovering sectors have been gone through, in one entry. -/
structure RecoveringFrom (size : SectorSize) (table : SectorTable) (e : ExpirationSet) (all : Recovering)
    (done : List Sector) (r : Recovering × RecoveringHere) : Prop where
  /-- What remains to be found. -/
  remaining : r.1.remaining = all.remaining \ (NumberSet.ofList (done.map (·.number)) ∩ e.members)
  /-- The sectors taken from early places. -/
  moved : r.1.moved = all.moved ++ done.filter fun s => decide (s.number ∈ e.early)
  /-- The power found. -/
  power : r.1.power = all.power + (NumberSet.ofList (done.map (·.number)) ∩ e.members).total (table.powerAt size)
  /-- What leaves its early place. -/
  early : r.2.early = NumberSet.ofList (done.map (·.number)) ∩ e.early
  /-- The power that becomes active. -/
  active : r.2.active = (NumberSet.ofList (done.map (·.number)) ∩ e.onTime).total (table.powerAt size)
  /-- The power that is no longer faulty. -/
  faulty : r.2.faulty = -(NumberSet.ofList (done.map (·.number)) ∩ e.members).total (table.powerAt size)

/-- What one sector adds, wherever it is. -/
theorem recoverSector_eq_ok (he : ∀ n ∈ e.onTime, n ∉ e.early) {r r' : Recovering × RecoveringHere} {s : Sector}
    (hrec : table.Recorded s) (h : recoverSector size e r s = .ok r') :
    r'.1.remaining = r.1.remaining \ (NumberSet.singleton s.number ∩ e.members) ∧
      r'.1.moved = r.1.moved ++ [s].filter (fun s => decide (s.number ∈ e.early)) ∧
      r'.1.power = r.1.power + (if s.number ∈ e.members then table.powerAt size s.number else 0) ∧
      r'.2.early = r.2.early ∪ (NumberSet.singleton s.number ∩ e.early) ∧
      r'.2.active = r.2.active + (if s.number ∈ e.onTime then table.powerAt size s.number else 0) ∧
      r'.2.faulty = r.2.faulty - (if s.number ∈ e.members then table.powerAt size s.number else 0) := by
  simp only [recoverSector, bind_eq_ok] at h
  obtain ⟨p, hp, h⟩ := h
  rw [SectorTable.powerAt_eq hrec hp]
  split at h
  · next hon =>
    obtain rfl := pure_eq_ok.1 h
    have hmem : s.number ∈ e.members := ExpirationSet.mem_members.2 (.inl hon)
    simp [singleton_inter_of_mem hmem, singleton_inter_of_not_mem (he _ hon), hmem, hon, he _ hon]
  · next hon =>
    split at h
    · next hearly =>
      obtain rfl := pure_eq_ok.1 h
      have hmem : s.number ∈ e.members := ExpirationSet.mem_members.2 (.inr hearly)
      simp [singleton_inter_of_mem hmem, singleton_inter_of_mem hearly, hmem, hon, hearly]
    · next hearly =>
      obtain rfl := pure_eq_ok.1 h
      have hmem : s.number ∉ e.members := fun hm => (ExpirationSet.mem_members.1 hm).elim hon hearly
      simp [singleton_inter_of_not_mem hmem, singleton_inter_of_not_mem hearly, hmem, hon, hearly]

theorem recoveringFrom_of_fold (hl : table.Lists ss ns) (he : ∀ n ∈ e.onTime, n ∉ e.early) {all : Recovering}
    {r : Recovering × RecoveringHere} (h : foldOutcome (recoverSector size e) (all, {}) ss = .ok r) :
    RecoveringFrom size table e all ss r := by
  refine foldOutcome_invariant (I := RecoveringFrom size table e all) h ?_ ?_
  · constructor <;> simp
  · rintro done s rest r r' hs hI hstep
    have hfresh := fresh_of_lists hl hs
    obtain ⟨hremaining, hmoved, hpower, hearly, hactive, hfaulty⟩ :=
      recoverSector_eq_ok he (hl.recorded s (by rw [hs]; simp)) hstep
    refine ⟨NumberSet.ext fun n => ?_, ?_, ?_, NumberSet.ext fun n => ?_, ?_, ?_⟩
    · simp only [hremaining, hI.remaining, ofList_snoc, mem_sdiff, mem_inter, mem_union]
      tauto
    · rw [hmoved, hI.moved, List.filter_append, List.append_assoc]
    · rw [hpower, hI.power, ofList_snoc, total_inter_insert _ hfresh, add_assoc]
    · simp only [hearly, hI.early, ofList_snoc, mem_inter, mem_union]
      tauto
    · rw [hactive, hI.active, ofList_snoc, total_inter_insert _ hfresh]
    · rw [hfaulty, hI.faulty, ofList_snoc, total_inter_insert _ hfresh, neg_add, sub_eq_add_neg]

/-- What recovering sectors do to an entry that they may be in. -/
theorem recoverEntry_eq_ok (hl : table.Lists ss ns) (he : ∀ n ∈ e.onTime, n ∉ e.early) {all all' : Recovering}
    {more : Bool} (h : recoverEntry size ss all e = .ok (all', e', more)) :
    all'.remaining = all.remaining \ (ns ∩ e.members) ∧
      (∃ found, all'.moved = all.moved ++ found ∧ table.Lists found (ns ∩ e.early)) ∧
      all'.power = all.power + (ns ∩ e.members).total (table.powerAt size) ∧
      e' = { e with
        early := e.early \ (ns ∩ e.early)
        active := e.active + (ns ∩ e.onTime).total (table.powerAt size)
        faulty := e.faulty - (ns ∩ e.members).total (table.powerAt size) } := by
  simp only [recoverEntry, bind_eq_ok, pure_eq_ok] at h
  obtain ⟨⟨all₁, here⟩, hfold, -, -, h⟩ := h
  obtain ⟨rfl, hr⟩ := Prod.mk.inj h
  obtain ⟨rfl, -⟩ := Prod.mk.inj hr
  have hI := recoveringFrom_of_fold hl he hfold
  have hset := hl.eq_ofList
  refine ⟨?_, ⟨_, hI.moved, ?_⟩, ?_, ?_⟩
  · rw [hI.remaining, ← hset]
  · exact hl.filter (p := fun n => decide (n ∈ e.early)) fun n => by rw [mem_inter, decide_eq_true_eq]
  · rw [hI.power, ← hset]
  · rw [hI.early, hI.active, hI.faulty, ← hset, ← sub_eq_add_neg]

/-! ### Recovering -/

/-- How far a search for recovering sectors has come. -/
structure RecoveredSoFar (grid : Grid) (size : SectorSize) (table : SectorTable) (faults ns : NumberSet)
    (q : ExpirationQueue) (done : List (Nat × ExpirationSet)) (all : Recovering) (q' : ExpirationQueue) : Prop where
  /-- What remains is in none of the entries gone through. -/
  remaining : ∀ n, n ∈ all.remaining ↔ n ∈ ns ∧ ∀ c ∈ done, n ∉ c.2.members
  /-- Those that were at early places are set apart. -/
  moved : ∃ ms, table.Lists all.moved ms ∧ ∀ n, n ∈ ms ↔ n ∈ ns ∧ ∃ c ∈ done, n ∈ c.2.early
  /-- The power of those found. -/
  power : all.power = (ns \ all.remaining).total (table.powerAt size)
  /-- Those found are not faulty any more. -/
  sound : q'.Sound grid size table (faults \ (ns \ all.remaining))
  /-- Nobody has come or gone on time. -/
  onTime : ∀ k, (q'.entry k).onTime = (q.entry k).onTime
  /-- Those found have left their early places. -/
  early : ∀ k, (q'.entry k).early = (q.entry k).early \ (ns \ all.remaining)
  /-- The entries to come are untouched. -/
  untouched : ∀ k, k ∉ done.map (·.1) → q'.entry k = q.entry k

/-- The next entry is exact once its wanted sectors have recovered. -/
theorem RecoveredSoFar.next (hq : q.Sound grid size table faults) (hf : ∀ n ∈ ns, n ∈ faults)
    {done rest : List (Nat × ExpirationSet)} (hs : q.entries = done ++ (k, e) :: rest) {all : Recovering}
    {q₁ : ExpirationQueue} (hI : RecoveredSoFar grid size table faults ns q done all q₁) :
    ExpirationSet.Exact size table ((faults \ (ns \ all.remaining)) \ (ns ∩ e.members)) { e with
      early := e.early \ (ns ∩ e.early)
      active := e.active + (ns ∩ e.onTime).total (table.powerAt size)
      faulty := e.faulty - (ns ∩ e.members).total (table.powerAt size) } := by
  have hget : q.get? k = some e := SparseArray.get?_eq_some_iff.2 (by rw [hs]; simp)
  have hentry : q₁.entry k = e :=
    (hI.untouched k (SparseArray.fresh_of_entries hs)).trans (entry_of_get? hget)
  obtain ⟨hwanted, -, -⟩ := found_step (k := k) hI.remaining fun n => fresh_of_walk hq hs
  have hfaulty : ∀ n ∈ ns ∩ e.onTime, n ∈ faults \ (ns \ all.remaining) := by
    intro n hn
    have hw := hwanted n (by rw [← inter_members]; exact mem_union.2 (.inl hn))
    exact mem_sdiff.2 ⟨hf n (mem_inter.1 hn).1, fun hn => (mem_sdiff.1 hn).2 hw⟩
  have hon : ∀ n ∈ ns ∩ e.onTime, n ∈ e.onTime := fun n hn => (mem_inter.1 hn).2
  have hearly : ∀ n ∈ ns ∩ e.early, n ∈ e.early := fun n hn => (mem_inter.1 hn).2
  have hexact := (hentry ▸ hI.sound.exact k).recover hon hearly hfaulty
  simpa only [inter_members] using hexact

theorem RecoveredSoFar.step (hq : q.Sound grid size table faults) (hl : table.Lists ss ns)
    (hf : ∀ n ∈ ns, n ∈ faults) {done rest : List (Nat × ExpirationSet)} {c : Nat × ExpirationSet}
    (hs : q.entries = done ++ c :: rest) {all all' : Recovering} {q₁ : ExpirationQueue} {more : Bool}
    (hI : RecoveredSoFar grid size table faults ns q done all q₁)
    (h : recoverEntry size ss all c.2 = .ok (all', e', more)) :
    RecoveredSoFar grid size table faults ns q (done ++ [c]) all' (q₁.store c.1 e') := by
  obtain ⟨key, e⟩ := c
  have hget : q.get? key = some e := SparseArray.get?_eq_some_iff.2 (by rw [hs]; simp)
  have hentry : q.entry key = e := entry_of_get? hget
  obtain ⟨hremaining, ⟨found, hmoved, hfound⟩, hpower, rfl⟩ :=
    recoverEntry_eq_ok hl (hentry ▸ (hq.exact key).apart) h
  simp only at hremaining hfound hpower
  obtain ⟨hwanted, hleft, hrest⟩ := found_step hI.remaining fun n => fresh_of_walk hq hs
  rw [← hremaining] at hleft hrest
  have hexact := hI.next hq hf hs
  have hearly : ∀ n ∈ ns ∩ e.early, n ∈ e.early := fun n hn => (mem_inter.1 hn).2
  have hother : ∀ j ≠ key, ∀ n ∈ (q₁.entry j).members, n ∉ e.members := by
    intro j hj n hn hn'
    rw [ExpirationSet.mem_members, hI.onTime, hI.early, mem_sdiff] at hn
    exact hj (hq.once j key n (ExpirationSet.mem_members.2 (hn.imp_right And.left)) (hentry ▸ hn'))
  refine ⟨hrest, ?_, ?_, ?_, fun j => ?_, fun j => ?_, fun j hj => ?_⟩
  · obtain ⟨ms, hms, hmem⟩ := hI.moved
    have hdis : ∀ n ∈ ms, n ∉ ns ∩ e.early := by
      intro n hn hn'
      obtain ⟨-, d, hd, hnd⟩ := (hmem n).1 hn
      exact fresh_of_walk hq hs (ExpirationSet.mem_members.2 (.inr (hearly n hn'))) d hd
        (ExpirationSet.mem_members.2 (.inr hnd))
    refine ⟨ms ∪ (ns ∩ e.early), hmoved ▸ hms.append hfound hdis, fun n => ?_⟩
    simp only [mem_union, hmem, mem_inter, List.mem_append, List.mem_singleton, or_and_right, exists_or, exists_eq_left]
    exact and_or_left.symm
  · have hdis : ∀ n ∈ ns \ all.remaining, n ∉ ns ∩ e.members := fun n hn hn' => (mem_sdiff.1 hn).2 (hwanted n hn')
    rw [hpower, hI.power, hleft, total_union _ hdis]
  · have hfaults : faults \ (ns \ all'.remaining) = (faults \ (ns \ all.remaining)) \ (ns ∩ e.members) := by
      ext n
      rw [hleft]
      simp only [mem_sdiff, mem_union]
      tauto
    rw [hfaults]
    refine hI.sound.store (hq.key_lt key e hget) (hq.onGrid key e hget) hexact fun j hj n hn => ⟨?_, fun hn' => ?_⟩
    · have := hother j hj n hn
      simp only [mem_sdiff, mem_inter]
      tauto
    · refine hother j hj n hn ?_
      simp only [ExpirationSet.mem_members, mem_sdiff] at hn' ⊢
      tauto
  · rw [entry_store hexact]
    split
    · next hj => rw [hj, hentry]
    · exact hI.onTime j
  · rw [hleft]
    exact sdiff_store hq hentry (fun c n hn => ExpirationSet.mem_members.2 (.inr hn)) hwanted hI.early hexact rfl j
  · exact untouched_store hI.untouched hexact hj

theorem RecoveredSoFar.start (hq : q.Sound grid size table faults) (ns : NumberSet) :
    RecoveredSoFar grid size table faults ns q [] { remaining := ns } q := by
  refine ⟨by simp, ⟨∅, ⟨by simp, by simp, by simp⟩, by simp⟩, ?_, ?_, fun _ => rfl, fun k => ?_, fun _ _ => rfl⟩
  · rw [sdiff_self, total_empty]
  · rwa [sdiff_self, sdiff_empty]
  · rw [sdiff_self, sdiff_empty]

/-- What a search for recovering sectors has done once all are found. -/
structure Recovered (grid : Grid) (size : SectorSize) (table : SectorTable) (faults ns ms : NumberSet)
    (q : ExpirationQueue) (all : Recovering) (q' : ExpirationQueue) : Prop where
  /-- The sectors set apart. -/
  moved : table.Lists all.moved ms
  /-- They are those that were at early places. -/
  mem : ∀ n, n ∈ ms ↔ n ∈ ns ∧ ∃ j, n ∈ (q.entry j).early
  /-- The power of all of them. -/
  power : all.power = ns.total (table.powerAt size)
  /-- None of them is faulty any more. -/
  sound : q'.Sound grid size table (faults \ ns)
  /-- Nobody has come or gone on time. -/
  onTime : ∀ k, (q'.entry k).onTime = (q.entry k).onTime
  /-- They have left their early places. -/
  early : ∀ k, (q'.entry k).early = (q.entry k).early \ ns

theorem RecoveredSoFar.finish (hq : q.Sound grid size table faults) {done rest : List (Nat × ExpirationSet)}
    (hs : q.entries = done ++ rest) {all : Recovering} (hI : RecoveredSoFar grid size table faults ns q done all q')
    (hnone : all.remaining = ∅) : ∃ ms, Recovered grid size table faults ns ms q all q' := by
  obtain ⟨hremaining, ⟨ms, hms, hmem⟩, hpower, hsound, hon, hearly, -⟩ := hI
  rw [hnone, sdiff_empty] at hpower hsound
  simp only [hnone, sdiff_empty] at hearly
  refine ⟨ms, hms, fun n => ?_, hpower, hsound, hon, hearly⟩
  rw [hmem n]
  refine and_congr_right fun hn => ?_
  exact early_of_walk hq hs (found_of_none_left hremaining hnone hn)

/-- The sectors set apart have no place until they enter again. -/
theorem Recovered.not_holds (hq : q.Sound grid size table faults) {all : Recovering}
    (h : Recovered grid size table faults ns ms q all q') : ∀ n ∈ ms, ¬q'.Holds n := by
  rintro n hn ⟨k, hk⟩
  obtain ⟨hns, j, hj⟩ := (h.mem n).1 hn
  rw [ExpirationSet.mem_members, h.onTime, h.early, mem_sdiff] at hk
  rcases hk with hk | hk
  · exact (hq.onTime_unique hk (ExpirationSet.mem_members.2 (.inr hj))).2 hj
  · exact hk.2 hns

/-- The sectors set apart are active. -/
theorem Recovered.active {all : Recovering} (h : Recovered grid size table faults ns ms q all q') :
    ∀ n ∈ ms, n ∉ faults \ ns := fun n hn hn' => (mem_sdiff.1 hn').2 ((h.mem n).1 hn).1

/-- **Faulty sectors recover.** Those at early places go back to their own expirations. -/
theorem Sound.rescheduleRecovered {base : Grid} (hg : grid.LandsOn base) (hq : q.Sound base size table faults)
    (hl : table.Lists ss ns) (hf : ∀ n ∈ ns, n ∈ faults) {power : Power}
    (h : rescheduleRecovered grid size q ss = .ok (q', power)) :
    q'.Sound base size table (faults \ ns) ∧ power = ns.total (table.powerAt size) ∧ (∀ n, q'.Holds n ↔ q.Holds n) ∧
      (∀ k n, n ∈ (q'.entry k).onTime ↔ n ∈ (q.entry k).onTime ∨
        (n ∈ ns ∧ (∃ j, n ∈ (q.entry j).early) ∧ table.DueAt grid n k)) ∧
      ∀ k, (q'.entry k).early = (q.entry k).early \ ns := by
  simp only [ExpirationQueue.rescheduleRecovered, notFound, bind_eq_ok, within_eq_ok, failed_bind, ite_failed_eq_ok,
    pure_eq_ok, Bool.not_eq_true', Bool.not_eq_false, NumberSet.isEmpty_iff, ← hl.eq_ofList] at h
  obtain ⟨⟨all, q₁⟩, hwalk, hnone, ⟨q₂, lot⟩, hadd, hr⟩ := h
  obtain ⟨rfl, rfl⟩ := Prod.mk.inj hr
  obtain ⟨done, rest, hs, hI⟩ := walk_invariant (I := RecoveredSoFar base size table faults ns q) hwalk (.start hq ns)
    fun done c rest all q₁ all' e' more hs hI hstep => hI.step hq hl hf hs hstep
  obtain ⟨ms, hr⟩ := hI.finish hq hs hnone
  obtain ⟨hsound', hon', hearly'⟩ := hr.sound.addActive hg hr.moved (hr.not_holds hq) hr.active hadd
  refine ⟨hsound', hr.power, fun n => ⟨?_, ?_⟩, fun k n => ?_, fun k => by rw [hearly', hr.early]⟩
  · rintro ⟨k, hk⟩
    rw [ExpirationSet.mem_members, hon' k n, hr.onTime, hearly', hr.early, mem_sdiff] at hk
    rcases hk with (hk | ⟨hn, -⟩) | ⟨hk, -⟩
    · exact ⟨k, ExpirationSet.mem_members.2 (.inl hk)⟩
    · obtain ⟨-, j, hj⟩ := (hr.mem n).1 hn
      exact ⟨j, ExpirationSet.mem_members.2 (.inr hj)⟩
    · exact ⟨k, ExpirationSet.mem_members.2 (.inr hk)⟩
  · rintro ⟨k, hk⟩
    rcases ExpirationSet.mem_members.1 hk with hk | hk
    · exact ⟨k, ExpirationSet.mem_members.2 (.inl ((hon' k n).2 (.inl (hr.onTime k ▸ hk))))⟩
    · by_cases hn : n ∈ ns
      · have hn := (hr.mem n).2 ⟨hn, k, hk⟩
        obtain ⟨j, hj⟩ := due_of_addActive hr.moved hadd n hn
        exact ⟨j, ExpirationSet.mem_members.2 (.inl ((hon' j n).2 (.inr ⟨hn, hj⟩)))⟩
      · refine ⟨k, ExpirationSet.mem_members.2 (.inr ?_)⟩
        rw [hearly', hr.early]
        exact mem_sdiff.2 ⟨hk, hn⟩
  · rw [hon' k n, hr.onTime, hr.mem n, and_assoc]

end SectorLedger.ExpirationQueue
