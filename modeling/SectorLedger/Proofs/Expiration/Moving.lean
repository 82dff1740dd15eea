import SectorLedger.Proofs.Expiration.Sound

/-!
# Active sectors in the queue

Active sectors enter at their own expirations, leave from wherever they are on time, and move to another
epoch, or make room for others, by leaving and entering. Each operation keeps a sound queue sound, reports the
totals of the sectors it is given, and leaves every other place as it was.

* `Sound.addActive`, `Sound.removeActive`, `Sound.reschedule`, `Sound.replace`: the specifications.
-/

namespace SectorLedger

open NumberSet

variable {grid : Grid} {size : SectorSize} {table : SectorTable} {faults ns : NumberSet} {ss : List Sector}
  {k : Nat}

/-- What was reported of sectors: they are the given ones, with their totals. -/
structure Lot.Of (size : SectorSize) (table : SectorTable) (lot : Lot) (ns : NumberSet) : Prop where
  /-- The sectors. -/
  numbers_eq : lot.numbers = ns
  /-- Their power. -/
  power_eq : lot.power = ns.total (table.powerAt size)
  /-- Their pledge. -/
  pledge_eq : lot.pledge = ns.total table.pledgeAt

/-- The cohort as a lot. -/
def Cohort.lot (c : Cohort) : Lot := ⟨ofList c.numbers, c.power, c.pledge⟩

/-- The cohort as an entry. -/
def Cohort.entry (c : Cohort) : ExpirationSet := { onTime := .ofList c.numbers, active := c.power, pledge := c.pledge }

namespace ExpirationQueue

variable {q q' : ExpirationQueue} {cohorts : List Cohort} {lot : Lot} {r r' : ExpirationQueue × Lot} {c : Cohort}

/-! ### Entering -/

theorem enter_eq_ok : enter grid r c = .ok r' ↔ (∀ n ∈ c.numbers, n < forbiddenMember) ∧
    ∃ k : Nat, grid.up c.epoch = .ok (k : Int) ∧ ((r.1.entry k).merge c.entry).validate = .ok () ∧
      r' = (r.1.insert k ((r.1.entry k).merge c.entry), r.2.join c.lot) := by
  simp only [enter, Cohort.numberSet, bind_eq_ok, ofValues_eq_ok, noting_eq_ok, addAt_eq_ok, pure_eq_ok]
  constructor
  · rintro ⟨_, ⟨hn, rfl⟩, _, ⟨k, hup, -, hvalid, rfl⟩, rfl⟩
    exact ⟨hn, k, hup, hvalid, rfl⟩
  · rintro ⟨hn, k, hup, hvalid, rfl⟩
    exact ⟨_, ⟨hn, rfl⟩, _, ⟨k, hup, key_le_of_up hup, hvalid, rfl⟩, rfl⟩

/-- Sectors enter in steps: first they are filed into cohorts, then each cohort is added. -/
theorem addActive_eq_ok : addActive grid size q ss = .ok r ↔ ∃ groups cohorts, groupByExpiration grid ss = .ok groups ∧
    groups.mapM (fun g => Cohort.ofSectors size g.1 g.2) = .ok cohorts ∧
    foldOutcome (enter grid) (q, {}) cohorts = .ok r := by
  simp only [addActive, bind_eq_ok, exists_and_left]

/-- The cohorts in which sectors enter the queue. -/
structure Filed (grid : Grid) (size : SectorSize) (table : SectorTable) (ss : List Sector)
    (cohorts : List Cohort) : Prop where
  /-- Each cohort is what it should be. -/
  of : ∀ c ∈ cohorts, c.Of size table (.ofList c.numbers)
  /-- None is empty. -/
  nonempty : ∀ c ∈ cohorts, c.numbers ≠ []
  /-- Each stands at the expiration of its sectors. -/
  due : ∀ c ∈ cohorts, ∀ n ∈ c.numbers, ∃ s ∈ ss, s.number = n ∧ grid.up s.expiration = .ok c.epoch
  /-- Together they hold the given sectors. -/
  perm : (cohorts.flatMap (·.numbers)).Perm (ss.map (·.number))
  /-- Every sector has a power. -/
  defined : ∀ s ∈ ss, ∃ w, Power.ofSector size s = .ok w

theorem flatMap_numbers {groups : List (Int × List Sector)}
    (h : List.Forall₂ (fun g c => Cohort.ofSectors size g.1 g.2 = .ok c) groups cohorts) :
    cohorts.flatMap (·.numbers) = (groups.flatMap (·.2)).map (·.number) := by
  induction h with
  | nil => rfl
  | cons hc _ ih => rw [List.flatMap_cons, List.flatMap_cons, List.map_append, ih, (Cohort.shape_of_ofSectors hc).2]

theorem filed_of_groups {groups : List (Int × List Sector)} (hl : table.Lists ss ns) (hg : Grouped grid ss groups)
    (h : groups.mapM (fun g => Cohort.ofSectors size g.1 g.2) = .ok cohorts) :
    Filed grid size table ss cohorts := by
  have hback : ∀ c ∈ cohorts, ∃ g ∈ groups, Cohort.ofSectors size g.1 g.2 = .ok c := fun c hc =>
    exists_of_mem_right (R := fun (g : Int × List Sector) c => Cohort.ofSectors size g.1 g.2 = .ok c)
      (mapM_eq_ok.1 h) hc
  have hmem : ∀ g ∈ groups, ∀ s ∈ g.2, s ∈ ss := fun g hg' s hs =>
    hg.perm.subset (List.mem_flatMap.2 ⟨g, hg', hs⟩)
  refine ⟨fun c hc => ?_, fun c hc => ?_, fun c hc n hn => ?_, ?_, fun s hs => ?_⟩
  · obtain ⟨g, hg', hc⟩ := hback c hc
    have hnd : (g.2.map (·.number)).Nodup := by
      refine ((hg.perm.map (·.number)).nodup_iff.2 hl.nodup).sublist (List.Sublist.map _ ?_)
      exact List.sublist_flatten_of_mem (List.mem_map_of_mem hg')
    rw [(Cohort.shape_of_ofSectors hc).2]
    exact Cohort.of_ofSectors (SectorTable.lists_ofList (fun s hs => hl.recorded s (hmem g hg' s hs)) hnd) hc
  · obtain ⟨g, hg', hc⟩ := hback c hc
    rw [(Cohort.shape_of_ofSectors hc).2]
    exact fun hnil => hg.nonempty g hg' (List.map_eq_nil_iff.1 hnil)
  · obtain ⟨g, hg', hc⟩ := hback c hc
    obtain ⟨he, hnum⟩ := Cohort.shape_of_ofSectors hc
    rw [hnum] at hn
    obtain ⟨s, hs, rfl⟩ := List.mem_map.1 hn
    exact ⟨s, hmem g hg' s hs, rfl, by rw [he]; exact hg.up_eq g hg' s hs⟩
  · rw [flatMap_numbers (mapM_eq_ok.1 h)]
    exact hg.perm.map _
  · obtain ⟨g, hg', hs⟩ := List.mem_flatMap.1 (hg.perm.symm.subset hs)
    obtain ⟨c, -, hc⟩ := exists_of_mem_left
      (R := fun (g : Int × List Sector) c => Cohort.ofSectors size g.1 g.2 = .ok c) (mapM_eq_ok.1 h) hg'
    exact Cohort.defined_of_ofSectors hc s hs

/-- The sectors of the cohorts are those of the list. -/
theorem Filed.mem_iff (hf : Filed grid size table ss cohorts) (hl : table.Lists ss ns) {n : Nat} :
    (∃ c ∈ cohorts, n ∈ c.numbers) ↔ n ∈ ns := by
  rw [← hl.mem, ← hf.perm.mem_iff, List.mem_flatMap]

/-- At each key stand the sectors that are due there. -/
theorem Filed.dueAt_iff (hf : Filed grid size table ss cohorts) (hl : table.Lists ss ns) {n : Nat} :
    (∃ c ∈ cohorts, c.epoch = k ∧ n ∈ c.numbers) ↔ n ∈ ns ∧ table.DueAt grid n k := by
  constructor
  · rintro ⟨c, hc, hk, hn⟩
    obtain ⟨s, hs, rfl, hup⟩ := hf.due c hc n hn
    exact ⟨hl.number_mem hs, (hl.recorded s hs).dueAt_iff.2 (hk ▸ hup)⟩
  · rintro ⟨hn, hdue⟩
    obtain ⟨c, hc, hnc⟩ := (hf.mem_iff hl).2 hn
    obtain ⟨s, hs, rfl, hup⟩ := hf.due c hc n hnc
    exact ⟨c, hc, Except.ok.inj (hup.symm.trans ((hl.recorded s hs).dueAt_iff.1 hdue)), hnc⟩

/-- A cohort has no sector of those before it. -/
theorem Filed.fresh (hf : Filed grid size table ss cohorts) (hl : table.Lists ss ns) {done rest : List Cohort}
    {c : Cohort} (hs : cohorts = done ++ c :: rest) {n : Nat} (hn : n ∈ c.numbers) : ∀ d ∈ done, n ∉ d.numbers := by
  intro d hd hn'
  have hnd := hf.perm.nodup_iff.2 hl.nodup
  rw [hs, List.flatMap_append, List.flatMap_cons, List.nodup_append] at hnd
  exact hnd.2.2 n (List.mem_flatMap.2 ⟨d, hd, hn'⟩) n (List.mem_append_left _ hn) rfl

/-- The cohorts that are added hold the sectors. -/
theorem filed_of_addActive (hl : table.Lists ss ns) (h : addActive grid size q ss = .ok r) :
    ∃ cohorts, Filed grid size table ss cohorts ∧ foldOutcome (enter grid) (q, {}) cohorts = .ok r := by
  obtain ⟨groups, cohorts, hgroups, hcohorts, hfold⟩ := addActive_eq_ok.1 h
  exact ⟨cohorts, filed_of_groups hl (grouped_of_groupByExpiration hgroups) hcohorts, hfold⟩

/-- Sectors that enter have a power. -/
theorem defined_of_addActive (hl : table.Lists ss ns) (h : addActive grid size q ss = .ok (q', lot)) :
    ∀ s ∈ ss, ∃ w, Power.ofSector size s = .ok w := by
  obtain ⟨cohorts, hfiled, -⟩ := filed_of_addActive hl h
  exact hfiled.defined

/-- Sectors that enter are due at some key. -/
theorem due_of_addActive (hl : table.Lists ss ns) (h : addActive grid size q ss = .ok (q', lot)) :
    ∀ n ∈ ns, ∃ k, table.DueAt grid n k := by
  obtain ⟨cohorts, hfiled, hfold⟩ := filed_of_addActive hl h
  have hkeys : ∀ c ∈ cohorts, ∃ k : Nat, grid.up c.epoch = .ok (k : Int) := foldOutcome_forall hfold fun c r r' hstep => by
    obtain ⟨-, k, hup, -⟩ := enter_eq_ok.1 hstep
    exact ⟨k, hup⟩
  intro n hn
  obtain ⟨c, hc, hnc⟩ := (hfiled.mem_iff hl).2 hn
  obtain ⟨s, hs, rfl, hup⟩ := hfiled.due c hc n hnc
  obtain ⟨k, hk⟩ := hkeys c hc
  have hck : (k : Int) = c.epoch := Except.ok.inj (hk.symm.trans (Grid.up_of_up hup))
  exact ⟨k, (hl.recorded s hs).dueAt_iff.2 (hck ▸ hup)⟩

/-- What is reported of sectors that enter. -/
theorem lot_of_addActive (hl : table.Lists ss ns) (h : addActive grid size q ss = .ok (q', lot)) :
    lot.Of size table ns := by
  obtain ⟨cohorts, hfiled, hfold⟩ := filed_of_addActive hl h
  have hI := foldOutcome_invariant (I := fun done (r : ExpirationQueue × Lot) => r.2.Of size table r.2.numbers ∧
    ∀ n, n ∈ r.2.numbers ↔ ∃ c ∈ done, n ∈ c.numbers) hfold ⟨⟨rfl, rfl, rfl⟩, by simp⟩ ?_
  · obtain ⟨hof, hmem⟩ := hI
    have hns : lot.numbers = ns := NumberSet.ext fun n => by rw [hmem n, hfiled.mem_iff hl]
    rwa [hns] at hof
  · rintro done c rest r r' hs ⟨hof, hmem⟩ hstep
    obtain ⟨-, k, -, -, rfl⟩ := enter_eq_ok.1 hstep
    have hc := hfiled.of c (by rw [hs]; simp)
    have hfresh : ∀ n ∈ r.2.numbers, n ∉ NumberSet.ofList c.numbers := by
      intro n hn hn'
      obtain ⟨d, hd, hn⟩ := (hmem n).1 hn
      exact hfiled.fresh hl hs (mem_ofList.1 hn') d hd hn
    refine ⟨⟨rfl, ?_, ?_⟩, fun n => ?_⟩
    · simp only [Lot.join, Cohort.lot, hof.power_eq, hc.power_eq, total_union _ hfresh]
    · simp only [Lot.join, Cohort.lot, hof.pledge_eq, hc.pledge_eq, total_union _ hfresh]
    · simp only [Lot.join, Cohort.lot, mem_union, hmem n, mem_ofList, List.mem_append, List.mem_singleton,
        or_and_right, exists_or, exists_eq_left]

/-- A cohort stands where rounding up has led. -/
theorem Filed.up_epoch (hf : Filed grid size table ss cohorts) {c : Cohort} (hc : c ∈ cohorts) :
    grid.up c.epoch = .ok c.epoch := by
  obtain ⟨m, hm⟩ := List.exists_mem_of_ne_nil _ (hf.nonempty c hc)
  obtain ⟨s, -, -, hup⟩ := hf.due c hc m hm
  exact Grid.up_of_up hup

/-- How far new sectors have entered, cohort by cohort. -/
structure Entering (grid : Grid) (size : SectorSize) (table : SectorTable) (faults : NumberSet) (q : ExpirationQueue)
    (done : List Cohort) (q' : ExpirationQueue) : Prop where
  /-- The queue stays sound. -/
  sound : q'.Sound grid size table faults
  /-- The sectors of the cohorts are on time. -/
  onTime : ∀ (k : Nat) n, n ∈ (q'.entry k).onTime ↔
    n ∈ (q.entry k).onTime ∨ ∃ c ∈ done, c.epoch = (k : Int) ∧ n ∈ c.numbers
  /-- Nobody has become early. -/
  early : ∀ k, (q'.entry k).early = (q.entry k).early

theorem Entering.step {base : Grid} (hg : grid.LandsOn base) (hfiled : Filed grid size table ss cohorts)
    (hl : table.Lists ss ns) (hnew : ∀ n ∈ ns, ¬q.Holds n) (hf : ∀ n ∈ ns, n ∉ faults) {done rest : List Cohort}
    {c : Cohort} (hs : cohorts = done ++ c :: rest) {q₁ : ExpirationQueue}
    (hI : Entering base size table faults q done q₁) (hk : c.epoch = (k : Int)) :
    Entering base size table faults q (done ++ [c]) (q₁.insert k ((q₁.entry k).merge c.entry)) := by
  have hmem : c ∈ cohorts := by rw [hs]; simp
  have hc := hfiled.of c hmem
  have hns : ∀ n ∈ c.numbers, n ∈ ns := fun n hn => (hfiled.mem_iff hl).1 ⟨c, hmem, hn⟩
  have hup := hfiled.up_epoch hmem
  rw [hk] at hup
  obtain ⟨m, hm⟩ := List.exists_mem_of_ne_nil _ (hfiled.nonempty c hmem)
  have hfresh : ∀ n ∈ c.numbers, ¬q₁.Holds n := by
    rintro n hn ⟨j, hj⟩
    rcases ExpirationSet.mem_members.1 hj with hj | hj
    · rcases (hI.onTime j n).1 hj with hj | ⟨d, hd, -, hnd⟩
      · exact hnew n (hns n hn) ⟨j, ExpirationSet.mem_members.2 (.inl hj)⟩
      · exact hfiled.fresh hl hs hn d hd hnd
    · exact hnew n (hns n hn) ⟨j, ExpirationSet.mem_members.2 (.inr (hI.early j ▸ hj))⟩
  rw [Cohort.entry, hc.power_eq, hc.pledge_eq]
  refine ⟨hI.sound.insert_merge (Grid.key_lt_of_up hup) (hg _ _ hup)
    (ExpirationSet.Exact.of_onTime fun n hn => hf n (hns n (mem_ofList.1 hn))) (by simpa using hm)
    (by simpa using hfresh), fun j n => ?_, fun j => ?_⟩
  · simp only [List.mem_append, List.mem_singleton, or_and_right, exists_or, exists_eq_left, hk, ← or_assoc]
    rw [entry_insert]
    split
    · next hj =>
      subst hj
      simp only [ExpirationSet.merge, mem_union, hI.onTime j n, mem_ofList, true_and]
    · next hj =>
      rw [hI.onTime j n]
      simp only [Nat.cast_inj, Ne.symm hj, false_and, or_false]
  · rw [entry_insert]
    split
    · next hj =>
      subst hj
      rw [← hI.early j]
      simp only [ExpirationSet.merge]
      exact NumberSet.ext fun n => by simp
    · exact hI.early j

/-- **New active sectors enter at their own expirations.** -/
theorem Sound.addActive {base : Grid} (hg : grid.LandsOn base) (hq : q.Sound base size table faults)
    (hl : table.Lists ss ns) (hnew : ∀ n ∈ ns, ¬q.Holds n) (hf : ∀ n ∈ ns, n ∉ faults)
    (h : addActive grid size q ss = .ok (q', lot)) :
    q'.Sound base size table faults ∧
      (∀ k n, n ∈ (q'.entry k).onTime ↔ n ∈ (q.entry k).onTime ∨ (n ∈ ns ∧ table.DueAt grid n k)) ∧
      ∀ k, (q'.entry k).early = (q.entry k).early := by
  obtain ⟨cohorts, hfiled, hfold⟩ := filed_of_addActive hl h
  have hI := foldOutcome_invariant (I := fun done (r : ExpirationQueue × Lot) =>
    Entering base size table faults q done r.1) hfold ⟨hq, by simp, fun _ => rfl⟩ ?_
  · refine ⟨hI.sound, fun k n => ?_, hI.early⟩
    rw [hI.onTime k n, hfiled.dueAt_iff hl]
  · rintro done c rest ⟨q₀, lot₀⟩ r' hs hI hstep
    obtain ⟨-, k, hup, -, rfl⟩ := enter_eq_ok.1 hstep
    have hmem : c ∈ cohorts := by rw [hs]; simp
    exact hI.step hg hfiled hl hnew hf hs (Except.ok.inj ((hfiled.up_epoch hmem).symm.trans hup))

/-! ### Leaving -/

/-- Rounding leaves the epochs at which the sectors are on time as they are. -/
def Fixed (grid : Grid) (q : ExpirationQueue) (ns : NumberSet) : Prop :=
  ∀ n ∈ ns, ∀ k : Nat, n ∈ (q.entry k).onTime → ∀ r, grid.up k = .ok r → r = k

/-- Points of the grid are not rounded. -/
theorem Sound.fixed (hu : 0 < grid.unit) (hq : q.Sound grid size table faults) (ns : NumberSet) : Fixed grid q ns :=
  fun _ _ k hk _ hup => up_of_onGrid hu (hq.onGrid k _ (get?_of_mem (ExpirationSet.mem_members.2 (.inl hk)))) hup

/-- How far sectors have left, cohort by cohort. -/
structure Leaving (grid : Grid) (size : SectorSize) (table : SectorTable) (faults : NumberSet) (q : ExpirationQueue)
    (done : List (Cohort × ExpirationSet)) (r : ExpirationQueue × List Nat × Power × Int) : Prop where
  /-- The queue stays sound. -/
  sound : r.1.Sound grid size table faults
  /-- The sectors that have left. -/
  numbers_eq : r.2.1 = done.flatMap (·.1.numbers)
  /-- Their power. -/
  power_eq : r.2.2.1 = (NumberSet.ofList r.2.1).total (table.powerAt size)
  /-- Their pledge. -/
  pledge_eq : r.2.2.2 = (NumberSet.ofList r.2.1).total table.pledgeAt
  /-- The others are on time where they were. -/
  onTime : ∀ k, (r.1.entry k).onTime = (q.entry k).onTime \ .ofList r.2.1
  /-- Nobody has become early, or has been so. -/
  early : ∀ k, (r.1.entry k).early = (q.entry k).early

theorem Leaving.start (hq : q.Sound grid size table faults) :
    Leaving grid size table faults q [] (q, [], (0, 0)) :=
  ⟨hq, rfl, rfl, rfl, fun k => NumberSet.ext fun n => by simp, fun _ => rfl⟩

section Leave

variable {cs done rest : List (Cohort × ExpirationSet)} {c : Cohort} {e : ExpirationSet}
  {r : ExpirationQueue × List Nat × Power × Int}

/-- The sectors of the next cohort are still on time where they were found. -/
theorem Leaving.mem_next (hq : q.Orderly) (hloc : Located size table q ns cs) (hs : cs = done ++ (c, e) :: rest)
    (hI : Leaving grid size table faults q done r) (hk : c.epoch = k) {n : Nat} (hn : n ∈ c.numbers) :
    n ∈ (r.1.entry k).onTime := by
  have hc := hloc.found (c, e) (by rw [hs]; simp)
  obtain ⟨j, hj, hget⟩ := hc.stored
  obtain rfl : k = j := Int.ofNat.inj (hk.symm.trans hj)
  rw [hI.onTime, mem_sdiff, mem_ofList, hI.numbers_eq, List.mem_flatMap, entry_of_get? hget]
  refine ⟨(hc.mem_iff.1 hn).1, ?_⟩
  rintro ⟨d, hd, hnd⟩
  exact hloc.fresh hq hs hn d hd hnd

/-- One more cohort leaves. -/
theorem Leaving.step {base : Grid} (hfix : Fixed grid q ns) (hq : q.Sound base size table faults)
    (hf : ∀ n ∈ ns, n ∉ faults) (hloc : Located size table q ns cs) (hs : cs = done ++ (c, e) :: rest)
    (hI : Leaving base size table faults q done r) {q₁ : ExpirationQueue}
    (h : removeAt grid r.1 c.epoch { onTime := .ofList c.numbers, active := c.power, pledge := c.pledge } = .ok q₁) :
    Leaving base size table faults q (done ++ [(c, e)])
      (q₁, r.2.1 ++ c.numbers, r.2.2.1 + c.power, r.2.2.2 + c.pledge) := by
  obtain ⟨hsound, hnum, hpower, hpledge, hon, hearly⟩ := hI
  have hc := hloc.found (c, e) (by rw [hs]; simp)
  have hset : NumberSet.ofList c.numbers = e.onTime ∩ ns := by
    ext n
    rw [mem_ofList, hc.of.mem]
  obtain ⟨k, hk, hget⟩ := hc.stored
  rw [hset, hc.of.power_eq, hc.of.pledge_eq] at h
  have hraw : ∀ r, grid.up c.epoch = .ok r → r = c.epoch := by
    obtain ⟨m, hm⟩ := List.exists_mem_of_ne_nil _ hc.nonempty
    obtain ⟨hmon, hmns⟩ := hc.mem_iff.1 hm
    rw [hk]
    exact hfix m hmns k (entry_of_get? hget ▸ hmon)
  obtain ⟨hsound', k', hk', -, hon', hearly'⟩ := hsound.removeAt hraw (fun n hn => hf n (mem_inter.1 hn).2) h
  obtain rfl : k = k' := Int.ofNat.inj (hk.symm.trans hk')
  have hfresh : ∀ n ∈ NumberSet.ofList r.2.1, n ∉ NumberSet.ofList c.numbers := by
    intro n hn hn'
    rw [mem_ofList, hnum, List.mem_flatMap] at hn
    obtain ⟨d, hd, hn⟩ := hn
    exact hloc.fresh hq.orderly hs (mem_ofList.1 hn') d hd hn
  have hunion : NumberSet.ofList (r.2.1 ++ c.numbers) = NumberSet.ofList r.2.1 ∪ NumberSet.ofList c.numbers := by
    ext n
    simp
  refine ⟨hsound', ?_, ?_, ?_, fun j => ?_, fun j => by rw [hearly', hearly]⟩
  · simp only [List.flatMap_append, hnum, List.flatMap_singleton]
  · rw [hunion, total_union _ hfresh, hpower, hc.of.power_eq, hset]
  · rw [hunion, total_union _ hfresh, hpledge, hc.of.pledge_eq, hset]
  · rw [hunion, hon' j, hset]
    split
    · rw [hon j]
      ext n
      simp only [mem_sdiff, mem_union]
      tauto
    · next hj =>
      rw [hon j]
      ext n
      simp only [mem_sdiff, mem_union, mem_inter]
      have : n ∈ (q.entry j).onTime → n ∉ e.onTime := fun hn hn' =>
        hj (hq.onTime_unique (entry_of_get? hget ▸ hn' : n ∈ (q.entry k).onTime)
          (ExpirationSet.mem_members.2 (.inl hn))).1
      tauto

end Leave

/-- **Active sectors leave from wherever they are on time**, if rounding leaves these epochs as they are. -/
theorem Sound.removeActive_of_fixed {base : Grid} (hfix : Fixed grid q ns) (hq : q.Sound base size table faults)
    (hl : table.Covers ss ns) (hf : ∀ n ∈ ns, n ∉ faults) (h : removeActive grid size q ss = .ok (q', lot)) :
    q'.Sound base size table faults ∧ lot.Of size table ns ∧ (∀ n ∈ ns, ∃ k, n ∈ (q.entry k).onTime) ∧
      (∀ k, (q'.entry k).onTime = (q.entry k).onTime \ ns) ∧ ∀ k, (q'.entry k).early = (q.entry k).early := by
  simp only [ExpirationQueue.removeActive, bind_eq_ok, pure_eq_ok] at h
  obtain ⟨cs, hcs, ⟨q₁, numbers, power, pledge⟩, hfold, set, hset, hr⟩ := h
  obtain ⟨rfl, rfl⟩ := Prod.mk.inj hr
  have hloc := locate_spec hq.orderly hl hcs
  have hI := foldOutcome_invariant (I := Leaving base size table faults q) hfold (.start hq) ?_
  · obtain ⟨hsound, hnum, hpower, hpledge, hon, hearly⟩ := hI
    have hns : NumberSet.ofList numbers = ns := by
      ext n
      simp only at hnum
      rw [mem_ofList, hnum, List.mem_flatMap, hloc.mem_iff]
    simp only [hns] at hpower hpledge hon
    rw [ofValues_eq_ok, hns] at hset
    refine ⟨hsound, ⟨hset.2, hpower, hpledge⟩, fun n hn => ?_, hon, hearly⟩
    obtain ⟨c, hc, hnc⟩ := hloc.complete n hn
    obtain ⟨k, -, hget⟩ := (hloc.found c hc).stored
    exact ⟨k, entry_of_get? hget ▸ ((hloc.found c hc).mem_iff.1 hnc).1⟩
  · rintro done ⟨c, e⟩ rest r r' hs hI hstep
    simp only [bind_eq_ok, pure_eq_ok] at hstep
    obtain ⟨set, hset, q₂, hrem, rfl⟩ := hstep
    obtain ⟨-, rfl⟩ := ofValues_eq_ok.1 hset
    exact hI.step hfix hq hf hloc hs hrem

theorem Sound.removeActive (hu : 0 < grid.unit) (hq : q.Sound grid size table faults) (hl : table.Covers ss ns)
    (hf : ∀ n ∈ ns, n ∉ faults) (h : removeActive grid size q ss = .ok (q', lot)) :
    q'.Sound grid size table faults ∧ lot.Of size table ns ∧ (∀ n ∈ ns, ∃ k, n ∈ (q.entry k).onTime) ∧
      (∀ k, (q'.entry k).onTime = (q.entry k).onTime \ ns) ∧ ∀ k, (q'.entry k).early = (q.entry k).early :=
  hq.removeActive_of_fixed (hq.fixed hu ns) hl hf h

/-- What is reported to have left is what was to leave, faulty or not. -/
theorem numbers_of_removeActive (hq : q.Orderly) (hl : table.Covers ss ns)
    (h : removeActive grid size q ss = .ok (q', lot)) : lot.numbers = ns := by
  simp only [ExpirationQueue.removeActive, bind_eq_ok, pure_eq_ok] at h
  obtain ⟨cs, hcs, ⟨q₁, numbers, power, pledge⟩, hfold, set, hset, hr⟩ := h
  obtain ⟨rfl, rfl⟩ := Prod.mk.inj hr
  have hloc := locate_spec hq hl hcs
  have hnum := foldOutcome_invariant (I := fun done (r : ExpirationQueue × List Nat × Power × Int) =>
    r.2.1 = done.flatMap (·.1.numbers)) hfold rfl ?_
  · rw [ofValues_eq_ok] at hset
    rw [hset.2]
    ext n
    rw [mem_ofList, hnum, List.mem_flatMap, hloc.mem_iff]
  · rintro done ⟨c, e⟩ rest ⟨q₀, nums, w, x⟩ r' - hnum hstep
    simp only [bind_eq_ok, pure_eq_ok] at hstep
    obtain ⟨-, -, -, -, rfl⟩ := hstep
    simp only at hnum ⊢
    rw [hnum, List.flatMap_append, List.flatMap_singleton]

/-- The sectors that left are nowhere in the queue any more; all others are. -/
theorem Sound.holds_removeActive (hu : 0 < grid.unit) (hq : q.Sound grid size table faults) (hl : table.Covers ss ns)
    (hf : ∀ n ∈ ns, n ∉ faults) (h : ExpirationQueue.removeActive grid size q ss = .ok (q', lot)) (n : Nat) :
    q'.Holds n ↔ q.Holds n ∧ n ∉ ns := by
  obtain ⟨-, -, hfrom, hon, hearly⟩ := hq.removeActive hu hl hf h
  constructor
  · rintro ⟨k, hk⟩
    rw [ExpirationSet.mem_members, hon, hearly, mem_sdiff] at hk
    rcases hk with ⟨hk, hn⟩ | hk
    · exact ⟨⟨k, ExpirationSet.mem_members.2 (.inl hk)⟩, hn⟩
    · refine ⟨⟨k, ExpirationSet.mem_members.2 (.inr hk)⟩, fun hn => ?_⟩
      obtain ⟨j, hj⟩ := hfrom n hn
      exact (hq.onTime_unique hj (ExpirationSet.mem_members.2 (.inr hk))).2 hk
  · rintro ⟨⟨k, hk⟩, hn⟩
    refine ⟨k, ?_⟩
    rw [ExpirationSet.mem_members] at hk
    rw [ExpirationSet.mem_members, hon, hearly, mem_sdiff]
    exact hk.imp_left fun hk => ⟨hk, hn⟩

/-! ### Moving -/

/-- **Active sectors move to another epoch.** -/
theorem Sound.reschedule (hu : 0 < grid.unit) (hq : q.Sound grid size table faults) (hl : table.Lists ss ns)
    (hf : ∀ n ∈ ns, n ∉ faults) {epoch : Int} (h : reschedule grid size q epoch ss = .ok q') :
    q'.Sound grid size table faults ∧ (∀ n, q'.Holds n ↔ q.Holds n) ∧
      (∀ k n, n ∈ (q'.entry k).onTime ↔
        (n ∈ (q.entry k).onTime ∧ n ∉ ns) ∨ (n ∈ ns ∧ grid.up epoch = .ok (k : Int))) ∧
      ∀ k, (q'.entry k).early = (q.entry k).early := by
  unfold ExpirationQueue.reschedule at h
  split at h
  · next hss =>
    obtain rfl := pure_eq_ok.1 h
    obtain rfl : ns = ∅ := hl.eq_nil_iff.1 (List.isEmpty_iff.1 hss)
    exact ⟨hq, fun _ => Iff.rfl, by simp, fun _ => rfl⟩
  · next hss =>
    simp only [bind_eq_ok, noting_eq_ok] at h
    obtain ⟨⟨q₁, lot⟩, hrem, hadd⟩ := h
    obtain ⟨hsound, hlot, hfrom, hon, hearly⟩ := hq.removeActive hu hl.covers hf hrem
    rw [hlot.numbers_eq, hlot.power_eq, hlot.pledge_eq] at hadd
    obtain ⟨m, hm⟩ : ∃ m, m ∈ ns := by
      by_contra hno
      push Not at hno
      exact hss (List.isEmpty_iff.2 (hl.eq_nil_iff.2 (eq_empty_iff.2 hno)))
    have hnew : ∀ n ∈ ns, ¬q₁.Holds n := fun n hn hh =>
      ((hq.holds_removeActive hu hl.covers hf hrem n).1 hh).2 hn
    obtain ⟨hsound', k, hup, hentry⟩ := hsound.addAt (Grid.landsOn_self hu) (.of_onTime hf) (by simpa using hm)
      (by simpa using hnew) hadd
    have hon' : ∀ (j : Nat) n, n ∈ (q'.entry j).onTime ↔
        (n ∈ (q.entry j).onTime ∧ n ∉ ns) ∨ (n ∈ ns ∧ grid.up epoch = .ok (j : Int)) := by
      intro j n
      rw [hentry, hup]
      split
      · next hj =>
        subst hj
        simp only [ExpirationSet.merge, mem_union, hon, mem_sdiff, and_true]
      · next hj =>
        have : ¬(Except.ok (k : Int) : Outcome Int) = .ok (j : Int) := by
          rw [Except.ok.injEq, Nat.cast_inj]
          exact Ne.symm hj
        simp only [hon, mem_sdiff, this, and_false, or_false]
    have hearly' : ∀ j, (q'.entry j).early = (q.entry j).early := by
      intro j
      rw [hentry]
      split
      · next hj =>
        subst hj
        rw [← hearly j]
        exact NumberSet.ext fun n => by simp [ExpirationSet.merge]
      · exact hearly j
    refine ⟨hsound', fun n => ⟨?_, ?_⟩, hon', hearly'⟩
    · rintro ⟨j, hj⟩
      rw [ExpirationSet.mem_members, hon', hearly'] at hj
      rcases hj with (⟨hj, -⟩ | ⟨hn, -⟩) | hj
      · exact ⟨j, ExpirationSet.mem_members.2 (.inl hj)⟩
      · obtain ⟨i, hi⟩ := hfrom n hn
        exact ⟨i, ExpirationSet.mem_members.2 (.inl hi)⟩
      · exact ⟨j, ExpirationSet.mem_members.2 (.inr hj)⟩
    · rintro ⟨j, hj⟩
      by_cases hn : n ∈ ns
      · exact ⟨k, ExpirationSet.mem_members.2 (.inl ((hon' k n).2 (.inr ⟨hn, hup⟩)))⟩
      · refine ⟨j, ExpirationSet.mem_members.2 ?_⟩
        rw [hon', hearly']
        exact (ExpirationSet.mem_members.1 hj).imp_left fun hj => .inl ⟨hj, hn⟩

/-- Sectors of a queue that move to a point of its grid are on time there. -/
theorem Sound.reschedule_onGrid (hu : 0 < grid.unit) (hq : q.Sound grid size table faults) (hl : table.Lists ss ns)
    (hf : ∀ n ∈ ns, n ∉ faults) (hin : ∀ n ∈ ns, q.Holds n) {epoch : Int} (hepoch : grid.OnGrid epoch)
    (h : ExpirationQueue.reschedule grid size q epoch ss = .ok q') (k n : Nat) :
    n ∈ (q'.entry k).onTime ↔ n ∈ (q.entry k).onTime ∧ n ∉ ns ∨ n ∈ ns ∧ (k : Int) = epoch := by
  obtain ⟨-, hheld, hon, hearly⟩ := hq.reschedule hu hl hf h
  refine (hon k n).trans (or_congr_right (and_congr_right fun hn => ?_))
  -- The sector is somewhere afterwards. That can only be where the epoch is rounded to, and this is the epoch itself.
  obtain ⟨j, hj⟩ := (hheld n).2 (hin n hn)
  have hup : grid.up epoch = .ok (j : Int) := by
    rw [ExpirationSet.mem_members, hon, hearly] at hj
    rcases hj with (⟨-, hout⟩ | ⟨-, hup⟩) | he
    · exact absurd hn hout
    · exact hup
    · exact absurd ((hq.exact j).early_faulty n he) (hf n hn)
  have heq : (j : Int) = epoch := (Grid.isUp_of_up hu hup).unique (.self hu hepoch)
  rw [hup, Except.ok.injEq, heq]
  exact eq_comm

/-! ### Replacing -/

theorem replace_eq_ok {old new : List Sector} {change : Exchange} :
    replace grid size q old new = .ok (q', change) ↔ ∃ q₁ out incoming, removeActive grid size q old = .ok (q₁, out) ∧
      addActive grid size q₁ new = .ok (q', incoming) ∧ change = {
        old := out.numbers
        new := incoming.numbers
        power := incoming.power - out.power
        pledge := incoming.pledge - out.pledge } := by
  simp only [ExpirationQueue.replace, bind_eq_ok, noting_eq_ok, pure_eq_ok, Prod.mk.injEq]
  constructor
  · rintro ⟨⟨q₁, out⟩, hrem, ⟨q₂, incoming⟩, hadd, rfl, rfl⟩
    exact ⟨q₁, out, incoming, hrem, hadd, rfl⟩
  · rintro ⟨q₁, out, incoming, hrem, hadd, rfl⟩
    exact ⟨(q₁, out), hrem, (q', incoming), hadd, rfl, rfl⟩

/-- **Active sectors leave and others enter, with new records.** None of those that enter may be among those that
stay. -/
theorem Sound.replace (hu : 0 < grid.unit) (hq : q.Sound grid size table faults) {table' : SectorTable}
    {old new : List Sector} {out inc : NumberSet} (hout : table.Covers old out) (hinc : table'.Lists new inc)
    (hf : ∀ n ∈ out, n ∉ faults) (hf' : ∀ n ∈ inc, n ∉ faults) (hnew : ∀ n ∈ inc, q.Holds n → n ∈ out)
    (hsame : ∀ n, n ∉ inc → table'.get? n = table.get? n) {q₁ : ExpirationQueue} {lot lot' : Lot}
    (hrem : ExpirationQueue.removeActive grid size q old = .ok (q₁, lot))
    (hadd : ExpirationQueue.addActive grid size q₁ new = .ok (q', lot')) :
    q'.Sound grid size table' faults ∧ ∀ n, q'.Holds n ↔ (q.Holds n ∧ n ∉ out) ∨ n ∈ inc := by
  have hstays := hq.holds_removeActive hu hout hf hrem
  have hfresh : ∀ n ∈ inc, ¬q₁.Holds n := by
    intro n hn hh
    obtain ⟨hh, hno⟩ := (hstays n).1 hh
    exact hno (hnew n hn hh)
  have hq₁ := (hq.removeActive hu hout hf hrem).1.of_records fun n hh => hsame n fun hn => hfresh n hn hh
  obtain ⟨hsound, hon, hearly⟩ := hq₁.addActive (Grid.landsOn_self hu) hinc hfresh hf' hadd
  refine ⟨hsound, fun n => ?_⟩
  rw [← hstays n]
  constructor
  · rintro ⟨k, hk⟩
    rw [ExpirationSet.mem_members, hon, hearly] at hk
    rcases hk with (hk | ⟨hn, -⟩) | hk
    · exact .inl ⟨k, ExpirationSet.mem_members.2 (.inl hk)⟩
    · exact .inr hn
    · exact .inl ⟨k, ExpirationSet.mem_members.2 (.inr hk)⟩
  · rintro (⟨k, hk⟩ | hn)
    · rw [ExpirationSet.mem_members] at hk
      refine ⟨k, ?_⟩
      rw [ExpirationSet.mem_members, hon, hearly]
      exact hk.imp_left .inl
    · obtain ⟨k, hk⟩ := due_of_addActive hinc hadd n hn
      refine ⟨k, ?_⟩
      rw [ExpirationSet.mem_members, hon]
      exact .inl (.inr ⟨hn, hk⟩)

end ExpirationQueue

end SectorLedger
