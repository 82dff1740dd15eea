import SectorLedger.Proofs.Expiration.Faulting

/-!
# Active sectors are found, and can become faulty

Before sectors become faulty they are looked for, first at their own expirations and then anywhere. The search cannot
fail if each of them is on time somewhere and its own expiration is a key. What comes after it only moves sectors, so
no total becomes negative, and nothing is refused.

* `Enterable`: what is known of every sector that has come into a queue.
* `locate_total`, `due_of_locate`: the search.
* `Sound.rescheduleAsFaults_total`: the sectors become faulty.
* `Sound.ext`: a sound queue is determined by the places of its sectors.
* `Sound.eq_of_faulted`: two descriptions of faulty sectors that come to the same.
-/

namespace SectorLedger.ExpirationQueue

open NumberSet

variable {grid : Grid} {size : SectorSize} {table : SectorTable} {faults ns ms wanted : NumberSet} {ss : List Sector}
  {q q' : ExpirationQueue} {limit : Int}

/-- The sectors can come into a queue: their own expirations are keys, and their numbers can be in a set. -/
def Enterable (grid : Grid) (table : SectorTable) (ns : NumberSet) : Prop :=
  ∀ n ∈ ns, (∃ k, table.DueAt grid n k) ∧ n ≤ SparseArray.greatestIndex

theorem enterable_union : Enterable grid table (ns ∪ ms) ↔ Enterable grid table ns ∧ Enterable grid table ms :=
  ⟨fun h => ⟨fun n hn => h n (mem_union.2 (.inl hn)), fun n hn => h n (mem_union.2 (.inr hn))⟩,
    fun h n hn => (mem_union.1 hn).elim (h.1 n) (h.2 n)⟩

theorem Enterable.due (h : Enterable grid table ns) : ∀ n ∈ ns, ∃ k, table.DueAt grid n k := fun n hn => (h n hn).1

theorem Enterable.ofValues_total (h : Enterable grid table ns) {numbers : List Nat} (hn : ∀ n ∈ numbers, n ∈ ns) :
    NumberSet.ofValues numbers = .ok (.ofList numbers) :=
  ofValues_eq_ok.2 ⟨fun n hm => lt_forbiddenMember_iff.2 (h n (hn n hm)).2, rfl⟩

/-- Sectors that enter are enterable. -/
theorem enterable_of_addActive (hl : table.Lists ss ns) {lot : Lot}
    (h : addActive grid size q ss = .ok (q', lot)) : Enterable grid table ns := by
  obtain ⟨cohorts, hfiled, hfold⟩ := filed_of_addActive hl h
  have hnumbers : ∀ c ∈ cohorts, ∀ n ∈ c.numbers, n < forbiddenMember :=
    foldOutcome_forall hfold fun c r r' hstep => (enter_eq_ok.1 hstep).1
  intro n hn
  obtain ⟨c, hc, hnc⟩ := (hfiled.mem_iff hl).2 hn
  exact ⟨due_of_addActive hl h n hn, lt_forbiddenMember_iff.1 (hnumbers c hc n hnc)⟩

/-! ### The search -/

theorem ofSectors_total {epoch : Int} (h : ∀ s ∈ ss, ∃ w, Power.ofSector size s = .ok w) :
    ∃ c, Cohort.ofSectors size epoch ss = .ok c := by
  refine (foldOutcome_total (I := fun _ _ => True) trivial ?_).imp fun c hc => hc.1
  rintro done s rest c hs -
  obtain ⟨w, hw⟩ := h s (by rw [hs]; simp)
  exact ⟨_, bind_eq_ok.2 ⟨w, hw, rfl⟩, trivial⟩

theorem cohortIn_total (h : ∀ s ∈ ss, ∃ w, Power.ofSector size s = .ok w) (wanted : NumberSet) (e : ExpirationSet)
    (epoch : Int) : ∃ c, cohortIn size ss wanted e epoch = .ok c := by
  refine ofSectors_total fun s hs => ?_
  obtain ⟨n, -, hn⟩ := List.mem_filterMap.1 hs
  exact h s (List.mem_reverse.1 (List.mem_of_find?_eq_some hn))

theorem groupByExpiration_total (h : ∀ s ∈ ss, ∃ e, grid.up s.expiration = .ok e) :
    ∃ groups, groupByExpiration grid ss = .ok groups := by
  refine (foldOutcome_total (I := fun _ _ => True) trivial ?_).imp fun groups hg => hg.1
  rintro done s rest groups hs -
  obtain ⟨e, he⟩ := h s (by rw [hs]; simp)
  exact ⟨_, bind_eq_ok.2 ⟨e, he, rfl⟩, trivial⟩

theorem locateAt_total {epochs : List Int} (hkeys : ∀ e ∈ epochs, ∃ k : Nat, e = k ∧ k ≤ SparseArray.greatestIndex)
    (h : ∀ s ∈ ss, ∃ w, Power.ofSector size s = .ok w) (q : ExpirationQueue) (wanted : NumberSet) :
    ∃ r, locateAt size q ss wanted epochs = .ok r := by
  refine (foldOutcome_total (I := fun _ _ => True) trivial ?_).imp fun r hr => hr.1
  rintro done epoch rest ⟨found, wanted⟩ hs -
  obtain ⟨k, hk, hle⟩ := hkeys epoch (by rw [hs]; simp)
  obtain ⟨c, hc⟩ := cohortIn_total h wanted (q.entry k) epoch
  refine (em (c.numbers.isEmpty = true)).elim (fun hnil => ⟨(found, wanted), ?_, trivial⟩) fun hsome =>
    ⟨(found ++ [(c, q.entry k)], wanted \ (q.entry k).onTime), ?_, trivial⟩
  · exact bind_eq_ok.2 ⟨_, entryAt_eq_ok.2 ⟨k, hk, hle, rfl⟩, bind_eq_ok.2 ⟨c, hc, by rw [if_pos hnil]; rfl⟩⟩
  · exact bind_eq_ok.2 ⟨_, entryAt_eq_ok.2 ⟨k, hk, hle, rfl⟩, bind_eq_ok.2 ⟨c, hc, by rw [if_neg hsome]; rfl⟩⟩

/-- The search through the remaining entries succeeds if no wanted sector is early. What it leaves is on time in none
of them. -/
theorem locateElsewhere_total (known : List Int) {es : List (Nat × ExpirationSet)}
    (hdefined : ∀ s ∈ ss, ∃ w, Power.ofSector size s = .ok w) (hkeys : ∀ e ∈ es, e.1 < 0x8000000000000000)
    (hearly : ∀ n ∈ wanted, ∀ e ∈ es, n ∉ e.2.early) :
    ∃ r, locateElsewhere size ss known es wanted = .ok r ∧
      ∀ n ∈ r.2, n ∈ wanted ∧ ∀ e ∈ es, (e.1 : Int) ∉ known → n ∉ e.2.onTime := by
  induction es generalizing wanted with
  | nil => exact ⟨([], wanted), rfl, fun n hn => ⟨hn, by simp⟩⟩
  | cons e es ih =>
    obtain ⟨key, entry⟩ := e
    obtain ⟨hkey, hkeys⟩ := List.forall_mem_cons.1 hkeys
    have hepoch : Count.toEpoch key = key := Count.toEpoch_of_lt hkey
    rw [locateElsewhere, hepoch]
    by_cases hknown : known.contains (key : Int)
    · obtain ⟨r, hr, hclear⟩ := ih hkeys fun n hn e he => hearly n hn e (List.mem_cons_of_mem _ he)
      refine ⟨r, by rw [if_pos hknown, hr], fun n hn => ⟨(hclear n hn).1, ?_⟩⟩
      exact List.forall_mem_cons.2 ⟨fun hno => absurd (List.contains_iff_mem.1 hknown) hno, (hclear n hn).2⟩
    · obtain ⟨c, hc⟩ := cohortIn_total hdefined wanted entry key
      have hnone : requireNoneEarly wanted entry = .ok () := by
        have hempty : entry.early ∩ wanted = ∅ := eq_empty_iff.2 fun n hn =>
          hearly n (mem_inter.1 hn).2 _ List.mem_cons_self (mem_inter.1 hn).1
        rw [requireNoneEarly, first?_eq_none_iff.2 hempty]
      -- the search goes on with what is not on time here, if there is any
      obtain ⟨r, hr, hclear⟩ : ∃ r, (if (wanted \ entry.onTime).isEmpty then
          (pure ([], wanted \ entry.onTime) : Outcome (List (Cohort × ExpirationSet) × NumberSet))
          else locateElsewhere size ss known es (wanted \ entry.onTime)) = .ok r ∧
          ∀ n ∈ r.2, n ∈ wanted \ entry.onTime ∧ ∀ e ∈ es, (e.1 : Int) ∉ known → n ∉ e.2.onTime := by
        split
        · next hnil =>
          refine ⟨_, rfl, fun n hn => absurd hn ?_⟩
          rw [isEmpty_iff.1 hnil]
          exact not_mem_empty n
        · exact ih hkeys fun n hn e he => hearly n (mem_sdiff.1 hn).1 e (List.mem_cons_of_mem _ he)
      refine ⟨(if c.numbers.isEmpty then r.1 else (c, entry) :: r.1, r.2), ?_, fun n hn => ?_⟩
      · simp only [hknown, Bool.false_eq_true, if_false, bind_eq_ok, ite_bind_eq_ok, pure_eq_ok]
        exact ⟨(), hnone, c, hc, r, hr, rfl⟩
      · obtain ⟨hwanted, hrest⟩ := hclear n hn
        exact ⟨(mem_sdiff.1 hwanted).1, List.forall_mem_cons.2 ⟨fun _ => (mem_sdiff.1 hwanted).2, hrest⟩⟩

/-- The search begins at epochs that are keys. -/
theorem groupByExpiration_keys (hl : table.Lists ss ns) (hdue : ∀ n ∈ ns, ∃ k, table.DueAt grid n k) :
    ∃ groups, groupByExpiration grid ss = .ok groups ∧
      ∀ e ∈ (groups.map (·.1) : List Int), ∃ k : Nat, e = (k : Int) ∧ k ≤ SparseArray.greatestIndex := by
  have hup : ∀ s ∈ ss, ∃ k : Nat, grid.up s.expiration = .ok (k : Int) := hl.forall_dueAt_iff.1 hdue
  obtain ⟨groups, hgroups⟩ : ∃ groups, groupByExpiration grid ss = .ok groups :=
    groupByExpiration_total fun s hs => (hup s hs).elim fun k hk => ⟨(k : Int), hk⟩
  have hgrouped := grouped_of_groupByExpiration hgroups
  refine ⟨groups, hgroups, fun e hm => ?_⟩
  obtain ⟨g, hg, rfl⟩ := List.mem_map.1 hm
  obtain ⟨s, hs⟩ := List.exists_mem_of_ne_nil _ (hgrouped.nonempty g hg)
  obtain ⟨k, hk⟩ := hup s (hgrouped.perm.subset (List.mem_flatMap.2 ⟨g, hg, hs⟩))
  have hle := key_le_of_up hk
  rw [hgrouped.up_eq g hg s hs] at hk
  exact ⟨k, Except.ok.inj hk, hle⟩

/-- **Sectors that are on time are found.** -/
theorem locate_total (hq : q.Orderly) (hl : table.Lists ss ns) (hdue : ∀ n ∈ ns, ∃ k, table.DueAt grid n k)
    (hdefined : ∀ s ∈ ss, ∃ w, Power.ofSector size s = .ok w) (hon : ∀ n ∈ ns, ∃ k, n ∈ (q.entry k).onTime) :
    ∃ cs, locate grid size q ss = .ok cs := by
  obtain ⟨groups, hgroups, hepochs⟩ := groupByExpiration_keys hl hdue
  have hgrouped := grouped_of_groupByExpiration hgroups
  obtain ⟨⟨found, wanted⟩, hat⟩ := locateAt_total hepochs hdefined q ns
  have hnd : (groups.map (·.1)).Nodup := (List.pairwise_map.2 hgrouped.sorted).imp fun h => ne_of_lt h
  have hI := searched_of_locateAt hq hl.covers hnd hat
  have hearly : ∀ n ∈ wanted, ∀ e ∈ q.entries, n ∉ e.2.early := by
    intro n hn e hm hne
    obtain ⟨k, hk⟩ := hon n ((hI.wanted n).1 hn).1
    have hentry := entry_of_get? (SparseArray.mem_entries.1 hm)
    have hne' : n ∈ (q.entry e.1).early := hentry.symm ▸ hne
    have heq := hq.once k e.1 n (ExpirationSet.mem_members.2 (.inl hk)) (ExpirationSet.mem_members.2 (.inr hne'))
    exact hq.apart k n hk (heq ▸ hne')
  obtain ⟨⟨more, left⟩, hmore, hclear⟩ := locateElsewhere_total (groups.map (·.1)) hdefined
    (fun e hm => hq.key_lt e.1 e.2 (SparseArray.mem_entries.1 hm)) hearly
  -- whoever is left would be on time neither at the epochs searched first nor elsewhere
  have hleft : left = ∅ := by
    refine eq_empty_iff.2 fun n hn => ?_
    obtain ⟨hwanted, hno⟩ := hclear n hn
    obtain ⟨k, hk⟩ := hon n ((hI.wanted n).1 hwanted).1
    by_cases hknown : (k : Int) ∈ groups.map (·.1)
    · exact hI.clear n hwanted k hknown hk
    · have hget := get?_of_mem (ExpirationSet.mem_members.2 (.inl hk))
      exact hno (k, q.entry k) (SparseArray.mem_entries.2 hget) hknown hk
  obtain ⟨r, hr, hempty⟩ : ∃ r, (if wanted.isEmpty then
      (pure ([], wanted) : Outcome (List (Cohort × ExpirationSet) × NumberSet))
      else within .array (locateElsewhere size ss (groups.map (·.1)) q.entries wanted)) = .ok r ∧ r.2 = ∅ := by
    split
    · next hnil => exact ⟨_, rfl, isEmpty_iff.1 hnil⟩
    · exact ⟨_, within_eq_ok.2 hmore, hleft⟩
  refine ⟨(found ++ r.1).mergeSort fun a b => a.1.epoch ≤ b.1.epoch, ?_⟩
  simp only [locate, bind_eq_ok, ite_bind_eq_ok, ← hl.eq_ofList, failed_bind, ite_failed_eq_ok, pure_eq_ok]
  exact ⟨groups, hgroups, (found, wanted), hat, r, hr, by simp [hempty], rfl⟩

/-- Sectors that are found have expirations that are keys: it is there that they are looked for first. -/
theorem due_of_locate (hl : table.Lists ss ns) {cs : List (Cohort × ExpirationSet)}
    (h : locate grid size q ss = .ok cs) : ∀ n ∈ ns, ∃ k, table.DueAt grid n k := by
  simp only [locate, bind_eq_ok] at h
  obtain ⟨groups, hgroups, r, hat, -⟩ := h
  have hgrouped := grouped_of_groupByExpiration hgroups
  have hkeys : ∀ e ∈ groups.map (·.1), ∃ k : Nat, e = (k : Int) := by
    refine foldOutcome_forall hat ?_
    rintro epoch ⟨found, wanted⟩ r' hstep
    simp only [bind_eq_ok, entryAt_eq_ok] at hstep
    obtain ⟨_, ⟨k, hk, -⟩, -⟩ := hstep
    exact ⟨k, hk⟩
  refine hl.forall_dueAt_iff.2 fun s hs => ?_
  obtain ⟨g, hg, hsg⟩ := List.mem_flatMap.1 (hgrouped.perm.symm.subset hs)
  obtain ⟨k, hk⟩ := hkeys g.1 (List.mem_map_of_mem hg)
  exact ⟨k, hk ▸ hgrouped.up_eq g hg s hsg⟩

/-! ### Sectors become faulty -/

section Refiling

variable {cs done rest : List (Cohort × ExpirationSet)} {r : ExpirationQueue × List Nat × Power × Power} {k n : Nat}

/-- Nobody has come while sectors are gone through. -/
theorem Refiling.holds_of_mem (hI : Refiling size table grid faults limit q done r) (hn : n ∈ (r.1.entry k).members) :
    q.Holds n := by
  rw [ExpirationSet.mem_members, hI.onTime, hI.early] at hn
  exact ⟨k, ExpirationSet.mem_members.2 (hn.imp_left And.left)⟩

/-- The next cohort can be gone through. -/
theorem Refiling.next_total (hq : q.Sound grid size table faults) (hnonneg : q.NonnegTotals size table)
    {rounding : Grid} (he : Enterable rounding table ns) (hloc : Located size table q ns cs)
    (hf : ∀ n ∈ ns, n ∉ faults) {c : Cohort} {e : ExpirationSet} (hs : cs = done ++ (c, e) :: rest)
    (hI : Refiling size table grid faults limit q done r) :
    ∃ k : Nat, c.epoch = k ∧ k ≤ SparseArray.greatestIndex ∧ c.numberSet = .ok (.ofList c.numbers) ∧
      ExpirationSet.validate { e with active := e.active - c.power, faulty := e.faulty + c.power } = .ok () ∧
      ExpirationSet.validate { e with
        onTime := e.onTime \ (e.onTime ∩ ns)
        pledge := e.pledge - c.pledge
        active := e.active - c.power } = .ok () := by
  have hc := hloc.found (c, e) (by rw [hs]; simp)
  obtain ⟨k, hk, hget⟩ := hc.stored
  obtain ⟨hexact, hon, hnot⟩ := hI.next hq hloc hf hs
  have hstay := hexact.stay hon hnot
  have hleave := hexact.leave hon hnot
  rw [← hc.of.power_eq] at hstay
  rw [← hc.of.power_eq, ← hc.of.pledge_eq] at hleave
  have hheld : ∀ n ∈ e.members, (table.powerAt size n).Nonneg ∧ 0 ≤ table.pledgeAt n := fun n hn =>
    hnonneg n ⟨k, (entry_of_get? hget).symm ▸ hn⟩
  have hkey := SparseArray.le_greatestIndex_of_lt (hq.key_lt k e hget)
  refine ⟨k, hk, hkey, he.ofValues_total fun n hn => (hc.mem_iff.1 hn).2,
    validate_of_nonneg hstay hheld, validate_of_nonneg hleave fun n hn => hheld n ?_⟩
  rw [ExpirationSet.mem_members, mem_sdiff] at hn
  exact ExpirationSet.mem_members.2 (hn.imp_left And.left)

/-- The entry at which those that have left arrive passes its check. -/
theorem Refiling.validate_arrived (hq : q.Sound grid size table faults) (hnonneg : q.NonnegTotals size table)
    (hloc : Located size table q ns cs) (hI : Refiling size table grid faults limit q cs r) (k : Nat) :
    ((r.1.entry k).merge { early := .ofList r.2.1, faulty := r.2.2.1 }).validate = .ok () := by
  have hmoved : ∀ n ∈ r.2.1, n ∈ ns ∧ ∃ j : Nat, limit < j ∧ n ∈ (q.entry j).onTime := fun n =>
    (hI.moved_iff hq hloc n).1
  have hfaulty : ∀ n ∈ NumberSet.ofList r.2.1, n ∈ faults ∪ .ofList (cs.flatMap (·.1.numbers)) := by
    intro n hn
    rw [mem_union, mem_ofList, List.mem_flatMap]
    exact .inr (hloc.mem_iff.2 (hmoved n (mem_ofList.1 hn)).1)
  have hmerge := (hI.sound.exact k).merge (ExpirationSet.Exact.of_early hfaulty) fun n hn hn' =>
    hI.not_holds hq hloc (mem_ofList.1 (by simpa using hn)) ⟨k, hn'⟩
  rw [← hI.movedPower] at hmerge
  refine validate_of_nonneg hmerge fun n hn => hnonneg n ?_
  rw [ExpirationSet.members_merge, mem_union, ExpirationSet.members_of_early, mem_ofList] at hn
  rcases hn with hn | hn
  · exact hI.holds_of_mem hn
  · obtain ⟨-, j, -, hj⟩ := hmoved n hn
    exact ⟨j, ExpirationSet.mem_members.2 (.inl hj)⟩

end Refiling

/-- **Nothing stops active sectors from becoming faulty.** -/
theorem Sound.rescheduleAsFaults_total {base : Grid} (hq : q.Sound base size table faults)
    (hnonneg : q.NonnegTotals size table) (hl : table.Lists ss ns) (hf : ∀ n ∈ ns, n ∉ faults)
    (he : Enterable grid table ns) (hdefined : ∀ s ∈ ss, ∃ w, Power.ofSector size s = .ok w)
    (hon : ∀ n ∈ ns, ∃ k, n ∈ (q.entry k).onTime) {epoch : Int} (hup : grid.up epoch = .ok limit) (hlimit : 0 ≤ limit) :
    ∃ r, ExpirationQueue.rescheduleAsFaults grid size q epoch ss = .ok r := by
  obtain ⟨cs, hcs⟩ := locate_total hq.orderly hl he.due hdefined hon
  have hloc := locate_spec hq.orderly hl.covers hcs
  simp only [ExpirationQueue.rescheduleAsFaults, bind_eq_ok, hcs, Except.ok.injEq, exists_eq_left']
  refine Exists.elim (foldOutcome_total (I := Refiling size table base faults limit q) ?start ?step) fun r hr =>
    exists_comm.1 ⟨r, exists_and_left.2 ⟨hr.1, ?_⟩⟩
  case start => exact ⟨hq.congr fun n _ => by simp, by simp, rfl, add_zero 0, by simp, fun _ => rfl, fun _ _ => rfl⟩
  case step =>
    rintro done ⟨c, e⟩ rest ⟨q₀, out, w, v⟩ hs hI
    obtain ⟨k, hk, hkey, hset, hstay, hleave⟩ := hI.next_total hq hnonneg he hloc hf hs
    have hc := hloc.found (c, e) (by rw [hs]; simp)
    have hnumbers : NumberSet.ofList c.numbers = e.onTime ∩ ns := NumberSet.ext fun n => by rw [mem_ofList, hc.of.mem]
    by_cases hle : c.epoch ≤ limit
    · refine ⟨_, ?_, hI.stay hq hloc hf hs hk hle⟩
      simp only [bind_eq_ok, hup, Except.ok.injEq, exists_eq_left', hle, if_true, pure_eq_ok, putOrDrop_eq_ok]
      exact ⟨_, ⟨k, hk, hkey, rfl⟩, (), hstay, rfl⟩
    · refine ⟨_, ?_, hI.leave hq hloc hf hs hk (Int.not_le.1 hle)⟩
      simp only [bind_eq_ok, hup, Except.ok.injEq, exists_eq_left', hle, if_false, pure_eq_ok, putOrDrop_eq_ok, hset,
        hnumbers]
      exact ⟨_, ⟨k, hk, hkey, rfl⟩, (), hleave, rfl⟩
  obtain ⟨-, hI⟩ := hr
  obtain ⟨q₁, moved, movedPower, stayingPower⟩ := r
  by_cases hempty : moved.isEmpty = true
  · exact ⟨_, by simp only [hempty, if_true]; rfl⟩
  · obtain ⟨k, rfl⟩ := Int.eq_ofNat_of_zero_le hlimit
    have hkey := key_le_of_up hup
    have hset := he.ofValues_total fun n hn => ((hI.moved_iff hq hloc n).1 hn).1
    simp only [hempty, Bool.false_eq_true, if_false, bind_eq_ok, pure_eq_ok, hset, Except.ok.injEq, exists_eq_left',
      addAt_eq_ok]
    exact ⟨_, _, ⟨k, hup, hkey, hI.validate_arrived hq hnonneg hloc k, rfl⟩, rfl⟩

/-- Sectors that became faulty one by one have been found. -/
theorem due_of_rescheduleAsFaults (hl : table.Lists ss ns) {epoch : Int} {r : ExpirationQueue × Power}
    (h : ExpirationQueue.rescheduleAsFaults grid size q epoch ss = .ok r) : ∀ n ∈ ns, ∃ k, table.DueAt grid n k := by
  simp only [ExpirationQueue.rescheduleAsFaults, bind_eq_ok] at h
  obtain ⟨cs, hcs, -⟩ := h
  exact due_of_locate hl hcs

/-! ### Sound queues that agree -/

/-- A sound queue is determined by who is on time and who is early at each epoch. -/
theorem Sound.ext (h : q.Sound grid size table faults) (h' : q'.Sound grid size table faults)
    (hon : ∀ (k : Nat) n, n ∈ (q.entry k).onTime ↔ n ∈ (q'.entry k).onTime)
    (hearly : ∀ (k : Nat) n, n ∈ (q.entry k).early ↔ n ∈ (q'.entry k).early) : q = q' := by
  have hentry : ∀ k, q.entry k = q'.entry k := fun k =>
    (h.exact k).eq_of_sets (h'.exact k) (NumberSet.ext (hon k)) (NumberSet.ext (hearly k))
  refine SparseArray.ext fun k => ?_
  -- no entry is empty, so the entries tell which keys there are
  have hget : ∀ {q : ExpirationQueue}, q.Sound grid size table faults → ∀ e,
      q.get? k = some e ↔ q.entry k = e ∧ ∃ n, n ∈ (q.entry k).members := by
    refine fun {q} hq e => ⟨fun he => ?_, ?_⟩
    · obtain rfl := entry_of_get? he
      exact ⟨rfl, hq.nonempty k _ he⟩
    · rintro ⟨rfl, n, hn⟩
      exact get?_of_mem hn
  exact Option.ext fun e => by rw [hget h, hget h', hentry]

/-- Sectors that are not after the limit need not be among those that become faulty. -/
theorem Sound.eq_of_faulted {q₁ q₂ : ExpirationQueue} {ms : NumberSet} {limit₁ limit₂ : Int}
    (h₁ : q₁.Sound grid size table faults) (h₂ : q₂.Sound grid size table faults) (hns : Faulted limit₁ ns q q₁)
    (hms : Faulted limit₂ ms q q₂) (hsub : ∀ n ∈ ms, n ∈ ns)
    (hplaced : ∀ n ∈ ns, n ∉ ms → ∀ k : Nat, n ∈ (q.entry k).onTime → (k : Int) ≤ limit₁)
    (hlimit : ∀ n ∈ ms, limit₁ = limit₂) : q₁ = q₂ := by
  refine h₁.ext h₂ (fun k n => ?_) fun k n => ?_
  · rw [hns.onTime, hms.onTime]
    refine and_congr_right fun hon => ⟨fun hle hn => hlimit n hn ▸ hle (hsub n hn), fun hle hn => ?_⟩
    by_cases hm : n ∈ ms
    · exact hlimit n hm ▸ hle hm
    · exact hplaced n hn hm k hon
  · rw [hns.early, hms.early]
    refine or_congr_right ⟨?_, ?_⟩
    · rintro ⟨hk, hn, j, hlt, hj⟩
      by_cases hm : n ∈ ms
      · exact ⟨hlimit n hm ▸ hk, hm, j, hlimit n hm ▸ hlt, hj⟩
      · have := hplaced n hn hm j hj
        omega
    · rintro ⟨hk, hm, j, hlt, hj⟩
      exact ⟨(hlimit n hm).symm ▸ hk, hsub n hm, j, (hlimit n hm).symm ▸ hlt, hj⟩

end SectorLedger.ExpirationQueue
