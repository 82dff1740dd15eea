import SectorLedger.Proofs.Expiration.Locatable
import SectorLedger.Proofs.Expiration.Walking

/-!
# Faulty sectors can recover, and are then where they were

Nothing stops faulty sectors from recovering if each of them is in the queue and its own expiration is a key. Sectors
that were on time at their own expirations, became faulty and recovered are where they were before.

* `Sound.recoverWalk_total`: the search for the sectors.
* `addActive_total`: sectors enter the queue.
* `Sound.rescheduleRecovered_total`: the two together.
* `Sound.restored`: a fault and the recovery from it leave the queue as it was.
-/

namespace SectorLedger.ExpirationQueue

open NumberSet

variable {grid base : Grid} {size : SectorSize} {table : SectorTable} {faults ns : NumberSet} {ss : List Sector}
  {q q' : ExpirationQueue} {e : ExpirationSet} {k : Nat} {limit : Int}

/-! ### The search -/

theorem recoverSector_total (r : Recovering × RecoveringHere) {s : Sector} (h : ∃ w, Power.ofSector size s = .ok w) :
    ∃ r', recoverSector size e r s = .ok r' := by
  obtain ⟨w, hw⟩ := h
  simp only [recoverSector, hw, ok_bind]
  split
  · exact ⟨_, rfl⟩
  · split
    · exact ⟨_, rfl⟩
    · exact ⟨_, rfl⟩

/-- Sectors can recover in an entry that passes its check afterwards. The walk stops once nothing remains. -/
theorem recoverEntry_total (hl : table.Lists ss ns) (hdefined : ∀ s ∈ ss, ∃ w, Power.ofSector size s = .ok w)
    (he : ∀ n ∈ e.onTime, n ∉ e.early) (all : Recovering)
    (hvalid : ExpirationSet.validate { e with
      early := e.early \ (ns ∩ e.early)
      active := e.active + (ns ∩ e.onTime).total (table.powerAt size)
      faulty := e.faulty - (ns ∩ e.members).total (table.powerAt size) } = .ok ()) :
    ∃ all' e' more, recoverEntry size ss all e = .ok (all', e', more) ∧ (more = false → all'.remaining = ∅) := by
  obtain ⟨r, hfold⟩ : ∃ r, foldOutcome (recoverSector size e) (all, {}) ss = .ok r := by
    refine (foldOutcome_total (I := fun _ _ => True) trivial ?_).imp fun r hr => hr.1
    rintro done s rest r hs -
    obtain ⟨r', hr'⟩ := recoverSector_total (e := e) r (hdefined s (by rw [hs]; simp))
    exact ⟨r', hr', trivial⟩
  have hI := recoveringFrom_of_fold hl he hfold
  have hset := hl.eq_ofList
  obtain ⟨all', here⟩ := r
  have hearly : here.early = ns ∩ e.early := hset ▸ hI.early
  have hactive : here.active = (ns ∩ e.onTime).total (table.powerAt size) := hset ▸ hI.active
  have hfaulty : here.faulty = -(ns ∩ e.members).total (table.powerAt size) := hset ▸ hI.faulty
  have hstep : recoverEntry size ss all e = .ok (all', { e with
      early := e.early \ (ns ∩ e.early)
      active := e.active + (ns ∩ e.onTime).total (table.powerAt size)
      faulty := e.faulty - (ns ∩ e.members).total (table.powerAt size) }, !all'.remaining.isEmpty) := by
    simp only [recoverEntry, hfold, ok_bind, hearly, hactive, hfaulty, ← sub_eq_add_neg, hvalid]
    rfl
  exact ⟨all', _, _, hstep, fun hstop => NumberSet.isEmpty_iff.1 (by simpa using hstop)⟩

/-- **Nothing stops the search for sectors that are in the queue.** -/
theorem Sound.recoverWalk_total (hq : q.Sound grid size table faults) (hnonneg : q.NonnegTotals size table)
    (hl : table.Lists ss ns) (hf : ∀ n ∈ ns, n ∈ faults) (hdefined : ∀ s ∈ ss, ∃ w, Power.ofSector size s = .ok w)
    (hheld : ∀ n ∈ ns, q.Holds n) :
    ∃ all q₁ ms, walk (recoverEntry size ss) q.entries { remaining := ns } q = .ok (all, q₁) ∧ all.remaining = ∅ ∧
      Recovered grid size table faults ns ms q all q₁ := by
  have hkeys : ∀ c ∈ q.entries, c.1 < 0x8000000000000000 := fun c hc =>
    hq.key_lt c.1 c.2 (SparseArray.mem_entries.1 hc)
  have step : ∀ done c rest all q₁, q.entries = done ++ c :: rest →
      RecoveredSoFar grid size table faults ns q done all q₁ →
      ∃ all' e' more, recoverEntry size ss all c.2 = .ok (all', e', more) ∧
        RecoveredSoFar grid size table faults ns q (done ++ [c]) all' (q₁.store c.1 e') ∧
        (more = false → all'.remaining = ∅) := by
    rintro done ⟨key, e⟩ rest all q₁ hs hI
    have hget : q.get? key = some e := SparseArray.get?_eq_some_iff.2 (by rw [hs]; simp)
    have hentry : q.entry key = e := entry_of_get? hget
    have hvalid := validate_of_nonneg (hI.next hq hf hs) fun n hn => hnonneg n ⟨key, by
      rw [ExpirationSet.mem_members, mem_sdiff] at hn
      rw [hentry]
      exact ExpirationSet.mem_members.2 (hn.imp_right And.left)⟩
    obtain ⟨all', e', more, hstep, hstop⟩ := recoverEntry_total hl hdefined (hentry ▸ (hq.exact key).apart) all hvalid
    exact ⟨all', e', more, hstep, hI.step hq hl hf hs hstep, hstop⟩
  obtain ⟨all, q₁, done, rest, hwalk, hs, hI, hend⟩ := walk_total hkeys (.start hq ns) step
  have hnone : all.remaining = ∅ := by
    rcases hend with rfl | hnone
    · exact none_left_of_holds (by rw [hs, List.append_nil]) hheld hI.remaining
    · exact hnone
  obtain ⟨ms, hr⟩ := hI.finish hq hs hnone
  exact ⟨all, q₁, ms, hwalk, hnone, hr⟩

/-! ### Entering again -/

/-- Who is in the queue while new sectors enter. -/
theorem Entering.holds {cohorts done rest : List Cohort} (hfiled : Filed grid size table ss cohorts)
    (hl : table.Lists ss ns) (hs : cohorts = done ++ rest) (hI : Entering base size table faults q done q') {n : Nat}
    (hn : n ∈ (q'.entry k).members) : q.Holds n ∨ n ∈ ns := by
  rw [ExpirationSet.mem_members, hI.onTime, hI.early] at hn
  rcases hn with (hn | ⟨c, hc, -, hnc⟩) | hn
  · exact .inl ⟨k, ExpirationSet.mem_members.2 (.inl hn)⟩
  · exact .inr ((hfiled.mem_iff hl).1 ⟨c, by rw [hs]; exact List.mem_append_left _ hc, hnc⟩)
  · exact .inl ⟨k, ExpirationSet.mem_members.2 (.inr hn)⟩

/-- **Nothing stops new active sectors from entering.** -/
theorem Sound.addActive_total (hg : grid.LandsOn base) (hq : q.Sound base size table faults)
    (hnonneg : q.NonnegTotals size table) (hl : table.Lists ss ns) (he : Enterable grid table ns)
    (hdefined : ∀ s ∈ ss, ∃ w, Power.ofSector size s = .ok w)
    (htotals : ∀ n ∈ ns, (table.powerAt size n).Nonneg ∧ 0 ≤ table.pledgeAt n) (hnew : ∀ n ∈ ns, ¬q.Holds n)
    (hf : ∀ n ∈ ns, n ∉ faults) : ∃ r, ExpirationQueue.addActive grid size q ss = .ok r := by
  obtain ⟨groups, hgroups, hkeys⟩ := groupByExpiration_keys hl he.due
  have hgrouped := grouped_of_groupByExpiration hgroups
  have hcohort : ∀ g ∈ groups, ∃ c, Cohort.ofSectors size g.1 g.2 = .ok c := fun g hg =>
    ofSectors_total fun s hs => hdefined s (hgrouped.perm.subset (List.mem_flatMap.2 ⟨g, hg, hs⟩))
  obtain ⟨cohorts, hcohorts⟩ := mapM_total hcohort
  have hfiled := filed_of_groups hl hgrouped hcohorts
  suffices hfold : ∃ r, foldOutcome (enter grid) (q, {}) cohorts = .ok r from
    hfold.imp fun r hr => addActive_eq_ok.2 ⟨groups, cohorts, hgroups, hcohorts, hr⟩
  refine (foldOutcome_total (I := fun done (r : ExpirationQueue × Lot) =>
    Entering base size table faults q done r.1) ⟨hq, by simp, fun _ => rfl⟩ ?_).imp fun r hr => hr.1
  rintro done c rest ⟨q₀, lot⟩ hs hI
  have hmem : c ∈ cohorts := by rw [hs]; simp
  have hns : ∀ n ∈ c.numbers, n ∈ ns := fun n hn => (hfiled.mem_iff hl).1 ⟨c, hmem, hn⟩
  obtain ⟨k, hk, hle⟩ : ∃ k : Nat, c.epoch = k ∧ k ≤ SparseArray.greatestIndex := by
    obtain ⟨g, hg, hc⟩ := exists_of_mem_right (R := fun (g : Int × List Sector) c =>
      Cohort.ofSectors size g.1 g.2 = .ok c) (mapM_eq_ok.1 hcohorts) hmem
    rw [(Cohort.shape_of_ofSectors hc).1]
    exact hkeys g.1 (List.mem_map_of_mem hg)
  have hI' := hI.step hg hfiled hl hnew hf hs hk
  have hentry : ∀ added : ExpirationSet, ExpirationQueue.entry (q₀.insert k ((q₀.entry k).merge added)) k =
      (q₀.entry k).merge added := fun added => by rw [entry_insert, if_pos rfl]
  have hvalid := validate_of_nonneg (hentry _ ▸ hI'.sound.exact k) fun n hn => ?_
  · have hnumbers := (ofValues_eq_ok.1 (he.ofValues_total hns)).1
    exact ⟨_, enter_eq_ok.2 ⟨hnumbers, k, hk ▸ hfiled.up_epoch hmem, hvalid, rfl⟩, hI'⟩
  · rw [← hentry] at hn
    exact (hI'.holds hfiled hl (by simpa using hs) hn).elim (hnonneg n) (htotals n)

/-- **Nothing stops faulty sectors from recovering.** -/
theorem Sound.rescheduleRecovered_total (hg : grid.LandsOn base) (hq : q.Sound base size table faults)
    (hnonneg : q.NonnegTotals size table) (hl : table.Lists ss ns) (hf : ∀ n ∈ ns, n ∈ faults)
    (he : Enterable grid table ns) (hdefined : ∀ s ∈ ss, ∃ w, Power.ofSector size s = .ok w)
    (hheld : ∀ n ∈ ns, q.Holds n) : ∃ r, ExpirationQueue.rescheduleRecovered grid size q ss = .ok r := by
  obtain ⟨all, q₁, ms, hwalk, hnone, hr⟩ := hq.recoverWalk_total hnonneg hl hf hdefined hheld
  have hms : ∀ n ∈ ms, n ∈ ns := fun n hn => ((hr.mem n).1 hn).1
  have hholds : ∀ n, q₁.Holds n → q.Holds n := by
    rintro n ⟨k, hk⟩
    rw [ExpirationSet.mem_members, hr.onTime, hr.early, mem_sdiff] at hk
    exact ⟨k, ExpirationSet.mem_members.2 (hk.imp_right And.left)⟩
  have hdefined' : ∀ s ∈ all.moved, ∃ w, Power.ofSector size s = .ok w := fun s hs =>
    hdefined s (hl.mem_of_get? (hms s.number (hr.moved.number_mem hs)) (hr.moved.recorded s hs))
  obtain ⟨⟨q₂, lot⟩, hadd⟩ := hr.sound.addActive_total hg (fun n hn => hnonneg n (hholds n hn)) hr.moved
    (fun n hn => he n (hms n hn)) hdefined' (fun n hn => hnonneg n (hheld n (hms n hn))) (hr.not_holds hq) hr.active
  refine ⟨(q₂, all.power), ?_⟩
  simp only [ExpirationQueue.rescheduleRecovered, notFound, bind_eq_ok, within_eq_ok, failed_bind, ite_failed_eq_ok,
    pure_eq_ok, ← hl.eq_ofList]
  exact ⟨(all, q₁), hwalk, by simp [hnone], (q₂, lot), hadd, rfl⟩

/-! ### There and back -/

/-- The places of the sectors after a fault and the recovery from it are those from before. -/
theorem Sound.eq_of_recovered {q₁ : ExpirationQueue} (hq : q.Sound grid size table faults)
    (hq' : q'.Sound grid size table faults) (hf : ∀ n ∈ ns, n ∉ faults) {rounding : Grid}
    (hplace : ∀ n ∈ ns, ∃ k, table.DueAt rounding n k ∧ n ∈ (q.entry k).onTime) (hfaulted : Faulted limit ns q q₁)
    (hon : ∀ k n, n ∈ (q'.entry k).onTime ↔ n ∈ (q₁.entry k).onTime ∨
      (n ∈ ns ∧ (∃ j, n ∈ (q₁.entry j).early) ∧ table.DueAt rounding n k))
    (hearly : ∀ k, (q'.entry k).early = (q₁.entry k).early \ ns) : q' = q := by
  have hnot : ∀ n ∈ ns, ∀ k, n ∉ (q.entry k).early := fun n hn k hk => hf n hn ((hq.exact k).early_faulty n hk)
  refine hq'.ext hq (fun k n => ?_) fun k n => ?_
  · rw [hon, hfaulted.onTime]
    constructor
    · rintro (⟨hn, -⟩ | ⟨hn, -, hdue⟩)
      · exact hn
      · obtain ⟨j, hj, hnj⟩ := hplace n hn
        rwa [hdue.unique hj]
    · intro hn
      by_cases hstay : n ∈ ns → (k : Int) ≤ limit
      · exact .inl ⟨hn, hstay⟩
      · -- it had left for the limit
        obtain ⟨hns, hlt⟩ := Classical.not_imp.1 hstay
        have hlt : limit < (k : Int) := not_le.1 hlt
        obtain ⟨i, hi⟩ := Int.eq_ofNat_of_zero_le (hfaulted.nonneg n hns k hlt hn)
        obtain ⟨j, hj, hnj⟩ := hplace n hns
        obtain rfl := hq.once k j n (ExpirationSet.mem_members.2 (.inl hn)) (ExpirationSet.mem_members.2 (.inl hnj))
        exact .inr ⟨hns, ⟨i, (hfaulted.early i n).2 (.inr ⟨hi.symm, hns, k, hlt, hn⟩)⟩, hj⟩
  · rw [hearly, mem_sdiff, hfaulted.early]
    constructor
    · rintro ⟨hn | ⟨-, hn, -⟩, hnot⟩
      · exact hn
      · exact absurd hn hnot
    · exact fun hn => ⟨.inl hn, fun hns => hnot n hns k hn⟩

/-- **A fault and the recovery from it leave a sound queue as it was.** -/
theorem Sound.restored (hg : grid.LandsOn base) (hq : q.Sound base size table faults)
    (hnonneg : q.NonnegTotals size table) (hl : table.Lists ss ns) (hf : ∀ n ∈ ns, n ∉ faults)
    (he : Enterable grid table ns) (hdefined : ∀ s ∈ ss, ∃ w, Power.ofSector size s = .ok w)
    (hplace : ∀ n ∈ ns, ∃ k, table.DueAt grid n k ∧ n ∈ (q.entry k).onTime) {epoch : Int}
    (hup : grid.up epoch = .ok limit) (hlimit : 0 ≤ limit) :
    ∃ q₁, ExpirationQueue.rescheduleAsFaults grid size q epoch ss = .ok (q₁, ns.total (table.powerAt size)) ∧
      ExpirationQueue.rescheduleRecovered grid size q₁ ss = .ok (q, ns.total (table.powerAt size)) := by
  have hon : ∀ n ∈ ns, ∃ k, n ∈ (q.entry k).onTime := fun n hn => (hplace n hn).imp fun k hk => hk.2
  obtain ⟨⟨q₁, w⟩, hfault⟩ := hq.rescheduleAsFaults_total hnonneg hl hf he hdefined hon hup hlimit
  obtain ⟨hq₁, rfl, -, limit', -, hfaulted⟩ := hq.rescheduleAsFaults hg hl hf hfault
  have hheld : ∀ n ∈ ns, q₁.Holds n := by
    intro n hn
    obtain ⟨k, hk⟩ := hon n hn
    exact (hfaulted.holds_iff n).2 ⟨k, ExpirationSet.mem_members.2 (.inl hk)⟩
  have hfaulty : ∀ n ∈ ns, n ∈ faults ∪ ns := fun n hn => mem_union.2 (.inr hn)
  obtain ⟨⟨q₂, w⟩, hrecover⟩ := hq₁.rescheduleRecovered_total hg
    (fun n hn => hnonneg n ((hfaulted.holds_iff n).1 hn)) hl hfaulty he hdefined hheld
  obtain ⟨hq₂, rfl, -, hon₂, hearly₂⟩ := hq₁.rescheduleRecovered hg hl hfaulty hrecover
  have hback : q₂.Sound base size table faults := by
    refine hq₂.congr fun n _ => ?_
    have := hf n
    simp only [mem_sdiff, mem_union]
    tauto
  obtain rfl := hq.eq_of_recovered hback hf hplace hfaulted hon₂ hearly₂
  exact ⟨q₁, hfault, hrecover⟩

end SectorLedger.ExpirationQueue
