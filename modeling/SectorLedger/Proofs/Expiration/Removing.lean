import SectorLedger.Proofs.Expiration.Walking

/-!
# Sectors that leave the queue

Sectors that are terminated leave from wherever they are. Those that are active are looked for first, like those that
move; then the entries are gone through for the faulty ones, each of which may be on time or early.

* `removeFromEntry_eq_ok`: what leaves one entry.
* `RemovedSoFar.step`: what has left the entries gone through.
* `Removed`, `Sound.removeSectors`: all of them have left.
-/

namespace SectorLedger.ExpirationQueue

open NumberSet

variable {grid : Grid} {size : SectorSize} {table : SectorTable} {faults ns ms : NumberSet} {ss : List Sector}
  {q q' : ExpirationQueue} {e e' : ExpirationSet} {k : Nat}

/-! ### One entry -/

/-- What one faulty sector adds, wherever it is. -/
theorem removeFaulty_eq_ok (he : ∀ n ∈ e.onTime, n ∉ e.early) {r r' : Removing × ExpirationSet} {s : Sector}
    (hrec : table.Recorded s) (h : removeFaulty size ms e r s = .ok r') :
    r'.1.remaining = r.1.remaining \ (NumberSet.singleton s.number ∩ e.members) ∧
      r'.1.removed = r.1.removed ∧
      r'.1.recovering = r.1.recovering + (if s.number ∈ e.members ∩ ms then table.powerAt size s.number else 0) ∧
      r'.2 = {
        onTime := r.2.onTime ∪ (NumberSet.singleton s.number ∩ e.onTime)
        early := r.2.early ∪ (NumberSet.singleton s.number ∩ e.early)
        pledge := r.2.pledge + (if s.number ∈ e.onTime then table.pledgeAt s.number else 0)
        active := r.2.active
        faulty := r.2.faulty + (if s.number ∈ e.members then table.powerAt size s.number else 0) } := by
  simp only [removeFaulty] at h
  split at h
  · next hnot =>
    obtain rfl := pure_eq_ok.1 h
    obtain ⟨hon, hearly⟩ : s.number ∉ e.onTime ∧ s.number ∉ e.early := by simpa using hnot
    have hmem : s.number ∉ e.members := fun hm => (ExpirationSet.mem_members.1 hm).elim hon hearly
    simp [singleton_inter_of_not_mem hmem, singleton_inter_of_not_mem hon, singleton_inter_of_not_mem hearly, hmem, hon]
  · next hnot =>
    simp only [bind_eq_ok, pure_eq_ok] at h
    obtain ⟨p, hp, rfl⟩ := h
    rw [SectorTable.powerAt_eq hrec hp, SectorTable.pledgeAt_eq hrec]
    by_cases hon : s.number ∈ e.onTime
    · have hmem : s.number ∈ e.members := ExpirationSet.mem_members.2 (.inl hon)
      simp [singleton_inter_of_mem hmem, singleton_inter_of_mem hon, singleton_inter_of_not_mem (he _ hon), hmem, hon]
      grind
    · have hearly : s.number ∈ e.early := by simpa [hon] using hnot
      have hmem : s.number ∈ e.members := ExpirationSet.mem_members.2 (.inr hearly)
      simp [singleton_inter_of_mem hmem, singleton_inter_of_not_mem hon, singleton_inter_of_mem hearly, hmem, hon]
      grind

/-- How far the leaving sectors have been gone through, in one entry. -/
structure RemovingFrom (size : SectorSize) (table : SectorTable) (ms : NumberSet) (e : ExpirationSet) (all : Removing)
    (done : List Sector) (r : Removing × ExpirationSet) : Prop where
  /-- What remains to be found. -/
  remaining : r.1.remaining = all.remaining \ (NumberSet.ofList (done.map (·.number)) ∩ e.members)
  /-- What left other entries. -/
  removed : r.1.removed = all.removed
  /-- The power of those that were recovering. -/
  recovering : r.1.recovering =
    all.recovering + (NumberSet.ofList (done.map (·.number)) ∩ (e.members ∩ ms)).total (table.powerAt size)
  /-- What leaves this entry. -/
  leaving : r.2 = {
    onTime := NumberSet.ofList (done.map (·.number)) ∩ e.onTime
    early := NumberSet.ofList (done.map (·.number)) ∩ e.early
    pledge := (NumberSet.ofList (done.map (·.number)) ∩ e.onTime).total table.pledgeAt
    active := 0
    faulty := (NumberSet.ofList (done.map (·.number)) ∩ e.members).total (table.powerAt size) }

theorem removingFrom_of_fold (hl : table.Lists ss ns) (he : ∀ n ∈ e.onTime, n ∉ e.early) {all : Removing}
    {r : Removing × ExpirationSet} (h : foldOutcome (removeFaulty size ms e) (all, ∅) ss = .ok r) :
    RemovingFrom size table ms e all ss r := by
  refine foldOutcome_invariant (I := RemovingFrom size table ms e all) h ?_ ?_
  · refine ⟨by simp, rfl, by simp, ?_⟩
    simp only [List.map_nil, ofList_nil, empty_inter, total_empty]
    rfl
  · rintro done s rest r r' hs hI hstep
    have hfresh := fresh_of_lists hl hs
    obtain ⟨hremaining, hremoved, hrecovering, hleaving⟩ :=
      removeFaulty_eq_ok he (hl.recorded s (by rw [hs]; simp)) hstep
    have hinter : ∀ t : NumberSet, NumberSet.ofList ((done ++ [s]).map (·.number)) ∩ t =
        (NumberSet.ofList (done.map (·.number)) ∩ t) ∪ (NumberSet.singleton s.number ∩ t) := by
      intro t
      ext n
      simp only [ofList_snoc, mem_inter, mem_union]
      tauto
    refine ⟨?_, hremoved.trans hI.removed, ?_, ?_⟩
    · rw [hremaining, hI.remaining, hinter]
      ext n
      simp only [mem_sdiff, mem_union]
      tauto
    · rw [hrecovering, hI.recovering, ofList_snoc, total_inter_insert _ hfresh, add_assoc]
    · rw [hleaving, hI.leaving]
      simp only [ofList_snoc, total_inter_insert _ hfresh]
      simp only [← ofList_snoc, hinter]

/-- What leaving sectors do to an entry that they may be in. -/
theorem removeFromEntry_eq_ok (hl : table.Lists ss ns) (he : ∀ n ∈ e.onTime, n ∉ e.early) {all all' : Removing}
    {more : Bool} (h : removeFromEntry size ms ss all e = .ok (all', e', more)) :
    all'.remaining = all.remaining \ (ns ∩ e.members) ∧
      all'.recovering = all.recovering + (ns ∩ (e.members ∩ ms)).total (table.powerAt size) ∧
      all'.removed = all.removed.merge {
        onTime := ns ∩ e.onTime, early := ns ∩ e.early, pledge := (ns ∩ e.onTime).total table.pledgeAt
        faulty := (ns ∩ e.members).total (table.powerAt size) } ∧
      e' = { e with
        onTime := e.onTime \ (ns ∩ e.onTime)
        early := e.early \ (ns ∩ e.early)
        pledge := e.pledge - (ns ∩ e.onTime).total table.pledgeAt
        faulty := e.faulty - (ns ∩ e.members).total (table.powerAt size) } := by
  simp only [removeFromEntry, bind_eq_ok, pure_eq_ok] at h
  obtain ⟨⟨all₁, leaving⟩, hfold, -, -, h⟩ := h
  obtain ⟨rfl, hr⟩ := Prod.mk.inj h
  obtain ⟨rfl, -⟩ := Prod.mk.inj hr
  have hI := removingFrom_of_fold hl he hfold
  have hset := hl.eq_ofList
  have hleaving := hI.leaving
  simp only at hleaving
  refine ⟨?_, ?_, ?_, ?_⟩
  · have := hI.remaining
    rwa [← hset] at this
  · have := hI.recovering
    rwa [← hset] at this
  · rw [hI.removed, hleaving, ← hset]
  · rw [hleaving, ← hset]

/-! ### The search -/

/-- How far a search for leaving sectors has come. -/
structure RemovedSoFar (grid : Grid) (size : SectorSize) (table : SectorTable) (faults ns ms : NumberSet)
    (q : ExpirationQueue) (before : ExpirationSet) (done : List (Nat × ExpirationSet)) (all : Removing)
    (q' : ExpirationQueue) : Prop where
  /-- What remains is in none of the entries gone through. -/
  remaining : ∀ n, n ∈ all.remaining ↔ n ∈ ns ∧ ∀ c ∈ done, n ∉ c.2.members
  /-- The totals of what was removed. -/
  exact : all.removed.Exact size table faults
  /-- Who was removed on time. -/
  removedOnTime : ∀ n, n ∈ all.removed.onTime ↔ n ∈ before.onTime ∨ (n ∈ ns ∧ ∃ c ∈ done, n ∈ c.2.onTime)
  /-- Who was removed early. -/
  removedEarly : ∀ n, n ∈ all.removed.early ↔ n ∈ before.early ∨ (n ∈ ns ∧ ∃ c ∈ done, n ∈ c.2.early)
  /-- The power of those that were recovering. -/
  recovering : all.recovering = ((ns \ all.remaining) ∩ ms).total (table.powerAt size)
  /-- The queue stays sound. -/
  sound : q'.Sound grid size table faults
  /-- Who is on time. -/
  onTime : ∀ k, (q'.entry k).onTime = (q.entry k).onTime \ (ns \ all.remaining)
  /-- Who is early. -/
  early : ∀ k, (q'.entry k).early = (q.entry k).early \ (ns \ all.remaining)
  /-- The entries to come are untouched. -/
  untouched : ∀ k, k ∉ done.map (·.1) → q'.entry k = q.entry k

/-- Before the search the sectors that were active have left. -/
theorem RemovedSoFar.start (hq : q.Sound grid size table faults) (ns ms : NumberSet) {before : ExpirationSet}
    (hbefore : before.Exact size table faults) :
    RemovedSoFar grid size table faults ns ms q before [] { remaining := ns, removed := before } q := by
  refine ⟨by simp, hbefore, by simp, by simp, ?_, hq, fun k => ?_, fun k => ?_, fun _ _ => rfl⟩
  · rw [sdiff_self, empty_inter, total_empty]
  · rw [sdiff_self, sdiff_empty]
  · rw [sdiff_self, sdiff_empty]

/-- The next entry is exact once its wanted sectors have left. -/
theorem RemovedSoFar.next (hf : ∀ n ∈ ns, n ∈ faults) {before : ExpirationSet}
    {done rest : List (Nat × ExpirationSet)} (hs : q.entries = done ++ (k, e) :: rest) {all : Removing}
    {q₁ : ExpirationQueue} (hI : RemovedSoFar grid size table faults ns ms q before done all q₁) :
    ExpirationSet.Exact size table faults { e with
      onTime := e.onTime \ (ns ∩ e.onTime)
      early := e.early \ (ns ∩ e.early)
      pledge := e.pledge - (ns ∩ e.onTime).total table.pledgeAt
      faulty := e.faulty - (ns ∩ e.members).total (table.powerAt size) } := by
  have hget : q.get? k = some e := SparseArray.get?_eq_some_iff.2 (by rw [hs]; simp)
  have hentry : q₁.entry k = e :=
    (hI.untouched k (SparseArray.fresh_of_entries hs)).trans (entry_of_get? hget)
  have hon : ∀ n ∈ ns ∩ e.onTime, n ∈ e.onTime := fun n hn => (mem_inter.1 hn).2
  have hearly : ∀ n ∈ ns ∩ e.early, n ∈ e.early := fun n hn => (mem_inter.1 hn).2
  have hexact := (hentry ▸ hI.sound.exact k).removeFaulty hon hearly fun n hn => hf n (mem_inter.1 hn).1
  simpa only [inter_members] using hexact

theorem RemovedSoFar.step (hq : q.Sound grid size table faults) (hl : table.Lists ss ns)
    (hf : ∀ n ∈ ns, n ∈ faults) {before : ExpirationSet} (hbefore : ∀ n ∈ before.members, n ∉ ns)
    {done rest : List (Nat × ExpirationSet)} {c : Nat × ExpirationSet} (hs : q.entries = done ++ c :: rest)
    {all all' : Removing} {q₁ : ExpirationQueue} {more : Bool}
    (hI : RemovedSoFar grid size table faults ns ms q before done all q₁)
    (h : removeFromEntry size ms ss all c.2 = .ok (all', e', more)) :
    RemovedSoFar grid size table faults ns ms q before (done ++ [c]) all' (q₁.store c.1 e') := by
  obtain ⟨key, e⟩ := c
  have hget : q.get? key = some e := SparseArray.get?_eq_some_iff.2 (by rw [hs]; simp)
  have hentry : q.entry key = e := entry_of_get? hget
  have hfresh : key ∉ done.map (·.1) := SparseArray.fresh_of_entries hs
  obtain ⟨hremaining, hrecovering, hremoved, rfl⟩ := removeFromEntry_eq_ok hl (hentry ▸ (hq.exact key).apart) h
  simp only at hremaining hrecovering hremoved
  obtain ⟨hwanted, hleft, hrest⟩ := found_step hI.remaining fun n => fresh_of_walk hq hs
  rw [← hremaining] at hleft hrest
  have hon : ∀ n ∈ ns ∩ e.onTime, n ∈ e.onTime := fun n hn => (mem_inter.1 hn).2
  have hearly : ∀ n ∈ ns ∩ e.early, n ∈ e.early := fun n hn => (mem_inter.1 hn).2
  have hexact := hI.next hf hs
  have hother : ∀ j ≠ key, ∀ n ∈ (q₁.entry j).members, n ∉ e.members := by
    intro j hj n hn hn'
    rw [ExpirationSet.mem_members, hI.onTime, hI.early] at hn
    refine hj (hq.once j key n (ExpirationSet.mem_members.2 ?_) (hentry ▸ hn'))
    exact hn.imp (fun hn => (mem_sdiff.1 hn).1) fun hn => (mem_sdiff.1 hn).1
  have hleaving : ExpirationSet.Exact size table faults {
      onTime := ns ∩ e.onTime, early := ns ∩ e.early, pledge := (ns ∩ e.onTime).total table.pledgeAt
      faulty := (ns ∩ e.members).total (table.powerAt size) } := by
    rw [← inter_members]
    refine .of_faulty (fun n hn => hf n (mem_inter.1 hn).1) (fun n hn => hf n (mem_inter.1 hn).1) fun n hn hn' => ?_
    exact (hentry ▸ (hq.exact key).apart) n (hon n hn) (hearly n hn')
  refine ⟨hrest, ?_, fun n => ?_, fun n => ?_, ?_, ?_, fun j => ?_, fun j => ?_, fun j hj => ?_⟩
  · rw [hremoved]
    refine hI.exact.merge hleaving fun n hn hn' => ?_
    have hn : n ∈ ns ∩ e.members := by
      rw [← inter_members]
      exact hn
    rw [ExpirationSet.mem_members, hI.removedOnTime, hI.removedEarly] at hn'
    have hnone := fresh_of_walk hq hs (mem_inter.1 hn).2
    have hbefore := hbefore n
    rw [ExpirationSet.mem_members] at hbefore
    rcases hn' with (hn' | ⟨-, d, hd, hn'⟩) | hn' | ⟨-, d, hd, hn'⟩
    · exact hbefore (.inl hn') (mem_inter.1 hn).1
    · exact hnone d hd (ExpirationSet.mem_members.2 (.inl hn'))
    · exact hbefore (.inr hn') (mem_inter.1 hn).1
    · exact hnone d hd (ExpirationSet.mem_members.2 (.inr hn'))
  · rw [hremoved]
    simp only [ExpirationSet.merge, mem_union, hI.removedOnTime, mem_inter, List.mem_append, List.mem_singleton,
      or_and_right, exists_or, exists_eq_left, or_assoc, and_or_left]
  · rw [hremoved]
    simp only [ExpirationSet.merge, mem_union, hI.removedEarly, mem_inter, List.mem_append, List.mem_singleton,
      or_and_right, exists_or, exists_eq_left, or_assoc, and_or_left]
  · have hdis : ∀ n ∈ (ns \ all.remaining) ∩ ms, n ∉ ns ∩ (e.members ∩ ms) := fun n hn hn' =>
      (mem_sdiff.1 (mem_inter.1 hn).1).2
        (hwanted n (mem_inter.2 ⟨(mem_inter.1 hn').1, (mem_inter.1 (mem_inter.1 hn').2).1⟩))
    rw [hrecovering, hI.recovering, ← total_union _ hdis, hleft]
    refine total_congr_set _ fun n => ?_
    simp only [mem_union, mem_inter, mem_sdiff]
    tauto
  · refine hI.sound.store (hq.key_lt key e hget) (hq.onGrid key e hget) hexact fun j hj n hn => ⟨Iff.rfl, fun hn' => ?_⟩
    refine hother j hj n hn ?_
    simp only [ExpirationSet.mem_members, mem_sdiff] at hn' ⊢
    tauto
  · rw [hleft]
    exact sdiff_store hq hentry (fun c n hn => ExpirationSet.mem_members.2 (.inl hn)) hwanted hI.onTime hexact rfl j
  · rw [hleft]
    exact sdiff_store hq hentry (fun c n hn => ExpirationSet.mem_members.2 (.inr hn)) hwanted hI.early hexact rfl j
  · exact untouched_store hI.untouched hexact hj

/-- What sectors that left, active or faulty, have done to a queue. -/
structure Removed (grid : Grid) (size : SectorSize) (table : SectorTable) (faults ns ms : NumberSet)
    (q : ExpirationQueue) (taken : ExpirationSet) (recovering : Power) (q' : ExpirationQueue) : Prop where
  /-- The queue stays sound. -/
  sound : q'.Sound grid size table faults
  /-- The totals of what was taken. -/
  exact : taken.Exact size table faults
  /-- Those that were on time. -/
  takenOnTime : ∀ n, n ∈ taken.onTime ↔ n ∈ ns ∧ ∃ k, n ∈ (q.entry k).onTime
  /-- Those that were early. -/
  takenEarly : ∀ n, n ∈ taken.early ↔ n ∈ ns ∧ ∃ k, n ∈ (q.entry k).early
  /-- The power of those that were recovering. -/
  recovering_eq : recovering = ((ns ∩ faults) ∩ ms).total (table.powerAt size)
  /-- They were in the queue. -/
  held : ∀ n ∈ ns, q.Holds n
  /-- The others are on time where they were. -/
  onTime : ∀ k, (q'.entry k).onTime = (q.entry k).onTime \ ns
  /-- And early where they were. -/
  early : ∀ k, (q'.entry k).early = (q.entry k).early \ ns

/-- All of the sectors were taken. -/
theorem Removed.members_eq {taken : ExpirationSet} {recovering : Power}
    (h : Removed grid size table faults ns ms q taken recovering q') : taken.members = ns := by
  ext n
  rw [ExpirationSet.mem_members, h.takenOnTime, h.takenEarly, ← and_or_left]
  refine and_iff_left_of_imp fun hn => ?_
  obtain ⟨k, hk⟩ := h.held n hn
  exact (ExpirationSet.mem_members.1 hk).imp (fun hk => ⟨k, hk⟩) fun hk => ⟨k, hk⟩

/-- The entry of the active sectors that leave before the search. -/
def activeAmong (size : SectorSize) (table : SectorTable) (faults ns : NumberSet) : ExpirationSet where
  onTime := ns \ faults
  active := (ns \ faults).total (table.powerAt size)
  pledge := (ns \ faults).total table.pledgeAt

/-- First the active sectors have left, then the faulty ones. -/
theorem RemovedSoFar.finish (hq : q.Sound grid size table faults) {q₁ : ExpirationQueue}
    (hq₁ : q₁.Sound grid size table faults) (hfrom : ∀ n ∈ ns \ faults, ∃ k, n ∈ (q.entry k).onTime)
    (hon : ∀ k, (q₁.entry k).onTime = (q.entry k).onTime \ (ns \ faults))
    (hearly : ∀ k, (q₁.entry k).early = (q.entry k).early) {done rest : List (Nat × ExpirationSet)}
    (hs : q₁.entries = done ++ rest) {all : Removing}
    (hI : RemovedSoFar grid size table faults (ns ∩ faults) ms q₁ (activeAmong size table faults ns) done all q')
    (hnone : all.remaining = ∅) : Removed grid size table faults ns ms q all.removed all.recovering q' := by
  have hfound : ∀ n ∈ ns ∩ faults, ∃ c ∈ done, n ∈ c.2.members := fun n => found_of_none_left hI.remaining hnone
  -- the entries gone through are those of the queue, as far as faulty sectors are concerned
  have hentry : ∀ c ∈ done, q₁.entry c.1 = c.2 := fun c hc => entry_of_walk hs hc
  have honDone : ∀ n, n ∈ ns ∩ faults → ((∃ c ∈ done, n ∈ c.2.onTime) ↔ ∃ k, n ∈ (q.entry k).onTime) := by
    intro n hn
    have hnf : n ∉ ns \ faults := fun hn' => (mem_sdiff.1 hn').2 (mem_inter.1 hn).2
    constructor
    · rintro ⟨c, hc, hnc⟩
      rw [← hentry c hc, hon, mem_sdiff] at hnc
      exact ⟨c.1, hnc.1⟩
    · rintro ⟨k, hk⟩
      have hk₁ : n ∈ (q₁.entry k).onTime := by
        rw [hon, mem_sdiff]
        exact ⟨hk, hnf⟩
      obtain ⟨c, hc, hnc⟩ := hfound n hn
      obtain rfl := hq₁.once k c.1 n (ExpirationSet.mem_members.2 (.inl hk₁)) ((hentry c hc).symm ▸ hnc)
      exact ⟨c, hc, hentry c hc ▸ hk₁⟩
  have hearlyDone : ∀ n, n ∈ ns ∩ faults → ((∃ c ∈ done, n ∈ c.2.early) ↔ ∃ k, n ∈ (q.entry k).early) := by
    intro n hn
    constructor
    · rintro ⟨c, hc, hnc⟩
      rw [← hentry c hc, hearly] at hnc
      exact ⟨c.1, hnc⟩
    · rintro ⟨k, hk⟩
      have hk₁ : n ∈ (q₁.entry k).early := (hearly k).symm ▸ hk
      obtain ⟨c, hc, hnc⟩ := hfound n hn
      obtain rfl := hq₁.once k c.1 n (ExpirationSet.mem_members.2 (.inr hk₁)) ((hentry c hc).symm ▸ hnc)
      exact ⟨c, hc, hentry c hc ▸ hk₁⟩
  have hrecovering := hI.recovering
  have hon' := hI.onTime
  have hearly' := hI.early
  simp only [hnone, sdiff_empty] at hrecovering hon' hearly'
  refine ⟨hI.sound, hI.exact, fun n => ?_, fun n => ?_, hrecovering, fun n hn => ?_, fun k => ?_, fun k => ?_⟩
  · have hactive : n ∈ (activeAmong size table faults ns).onTime ↔ n ∈ ns ∧ n ∉ faults := mem_sdiff
    rw [hI.removedOnTime, hactive]
    by_cases hnf : n ∈ faults
    · rw [or_iff_right fun h => h.2 hnf, mem_inter, and_iff_left hnf]
      exact and_congr_right fun hn => honDone n (mem_inter.2 ⟨hn, hnf⟩)
    · rw [or_iff_left fun h => hnf (mem_inter.1 h.1).2, and_iff_left hnf]
      exact (and_iff_left_of_imp fun hn => hfrom n (mem_sdiff.2 ⟨hn, hnf⟩)).symm
  · have hfaulty : (∃ k, n ∈ (q.entry k).early) → n ∈ faults := fun ⟨k, hk⟩ => (hq.exact k).early_faulty n hk
    have hactive : n ∉ (activeAmong size table faults ns).early := not_mem_empty n
    rw [hI.removedEarly, or_iff_right hactive, mem_inter]
    constructor
    · rintro ⟨hn, hc⟩
      exact ⟨hn.1, (hearlyDone n (mem_inter.2 hn)).1 hc⟩
    · rintro ⟨hn, hk⟩
      exact ⟨⟨hn, hfaulty hk⟩, (hearlyDone n (mem_inter.2 ⟨hn, hfaulty hk⟩)).2 hk⟩
  · by_cases hnf : n ∈ faults
    · obtain ⟨c, hc, hnc⟩ := hfound n (mem_inter.2 ⟨hn, hnf⟩)
      rw [← hentry c hc, ExpirationSet.mem_members, hon, hearly] at hnc
      exact ⟨c.1, ExpirationSet.mem_members.2 (hnc.imp_left fun hnc => (mem_sdiff.1 hnc).1)⟩
    · obtain ⟨j, hj⟩ := hfrom n (mem_sdiff.2 ⟨hn, hnf⟩)
      exact ⟨j, ExpirationSet.mem_members.2 (.inl hj)⟩
  · rw [hon', hon]
    ext n
    simp only [mem_sdiff, mem_inter]
    tauto
  · rw [hearly', hearly]
    ext n
    have := (hq.exact k).early_faulty n
    simp only [mem_sdiff, mem_inter]
    tauto

/-! ### All of them -/

/-- The faulty and the active ones among some sectors. -/
theorem lists_partition (hl : table.Lists ss ns) (faults : NumberSet) :
    table.Lists (ss.filter fun s => decide (s.number ∈ faults)) (ns ∩ faults) ∧
      table.Lists (ss.filter (not ∘ fun s => decide (s.number ∈ faults))) (ns \ faults) :=
  ⟨hl.filter (p := fun n => decide (n ∈ faults)) fun n => by rw [mem_inter, decide_eq_true_eq],
    hl.filter (p := fun n => !decide (n ∈ faults)) fun n => by simp⟩

/-- The steps by which sectors leave: first the active ones, then the faulty ones wherever they are. -/
theorem removeSectors_eq_ok {maxSectors : Nat} {removed : ExpirationSet} {recovering : Power} :
    removeSectors grid size maxSectors q ss faults ms = .ok (q', removed, recovering) ↔
      faults.count ≤ maxSectors ∧ ms.count ≤ maxSectors ∧ ∃ q₁ lot all,
        removeActive grid size q (ss.filter (not ∘ fun s => decide (s.number ∈ faults))) = .ok (q₁, lot) ∧
        walk (removeFromEntry size ms (ss.filter fun s => decide (s.number ∈ faults))) q₁.entries
          { remaining := .ofList ((ss.filter fun s => decide (s.number ∈ faults)).map (·.number))
            removed := { onTime := lot.numbers, active := lot.power, pledge := lot.pledge } } q₁ = .ok (all, q') ∧
        all.remaining = ∅ ∧ all.removed = removed ∧ all.recovering = recovering := by
  simp only [ExpirationQueue.removeSectors, requireFew, List.partition_eq_filter_filter, notFound, bind_eq_ok,
    noting_eq_ok, within_eq_ok, failed_bind, ite_failed_eq_ok, pure_eq_ok, Bool.not_eq_true', Bool.not_eq_false,
    NumberSet.isEmpty_iff, require_failed_eq_ok, decide_eq_true_eq, Prod.mk.injEq]
  constructor
  · rintro ⟨_, hfaults, _, hms, ⟨q₁, lot⟩, hactive, ⟨all, q₂⟩, hwalk, hnone, rfl, rfl, rfl⟩
    exact ⟨hfaults, hms, q₁, lot, all, hactive, hwalk, hnone, rfl, rfl⟩
  · rintro ⟨hfaults, hms, q₁, lot, all, hactive, hwalk, hnone, rfl, rfl⟩
    exact ⟨(), hfaults, (), hms, (q₁, lot), hactive, (all, q'), hwalk, hnone, rfl, rfl, rfl⟩

/-- **Sectors leave, active or faulty.** -/
theorem Sound.removeSectors (hu : 0 < grid.unit) (hq : q.Sound grid size table faults) (hl : table.Lists ss ns)
    {maxSectors : Nat} {removed : ExpirationSet} {recovering : Power}
    (h : removeSectors grid size maxSectors q ss faults ms = .ok (q', removed, recovering)) :
    Removed grid size table faults ns ms q removed recovering q' := by
  obtain ⟨-, -, q₁, lot, all, hactive, hwalk, hnone, rfl, rfl⟩ := removeSectors_eq_ok.1 h
  obtain ⟨hfaulty, hrest⟩ := lists_partition hl faults
  obtain ⟨hsound, hlot, hfrom, hon, hearly⟩ := hq.removeActive hu hrest.covers (fun n hn => (mem_sdiff.1 hn).2) hactive
  rw [hlot.numbers_eq, hlot.power_eq, hlot.pledge_eq, ← hfaulty.eq_ofList] at hwalk
  have hbefore : ∀ n ∈ (activeAmong size table faults ns).members, n ∉ ns ∩ faults := by
    intro n hn hn'
    rw [activeAmong, ExpirationSet.members_of_onTime] at hn
    exact (mem_sdiff.1 hn).2 (mem_inter.1 hn').2
  obtain ⟨done, rest, hs, hI⟩ := walk_invariant
    (I := RemovedSoFar grid size table faults (ns ∩ faults) ms q₁ (activeAmong size table faults ns)) hwalk
    (.start hsound _ _ (.of_onTime fun n hn => (mem_sdiff.1 hn).2))
    fun done c rest all q₁ all' e' more hs hI hstep => hI.step hsound hfaulty (fun n hn => (mem_inter.1 hn).2)
      hbefore hs hstep
  exact hI.finish hq hsound hfrom hon hearly hs hnone

end SectorLedger.ExpirationQueue
