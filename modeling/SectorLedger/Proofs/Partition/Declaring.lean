import SectorLedger.Proofs.Expiration.Locatable
import SectorLedger.Proofs.Partition.Closing
import SectorLedger.Proofs.Partition.Conservation

/-!
# Declaring sectors faulty

Sectors can be declared faulty if they belong to the partition and the new faults among them can be looked for. What
comes of it is determined by the sets and the places of the sectors. So it does not matter whether sectors are declared
together or in turn.

* `Sound.ext`: a sound partition is determined by its sets and its queue.
* `Declarable`, `Sound.declareFaults_total`, `Sound.declarable`: when sectors can be declared faulty.
* `Declared`, `Declared.unique`, `Declared.trans`: what comes of it.
* `declareFaults_union`: two sets are declared together as they are in turn.
-/

namespace SectorLedger.Partition

open NumberSet ExpirationQueue

variable {grid : Grid} {size : SectorSize} {table : SectorTable} {p p' p₁ p₂ : Partition}
  {ns ms numbers newFaults : NumberSet} {ss : List Sector} {epoch limit : Int} {fd : FaultDelta}

/-- The totals and the stored form of the queue follow from the sets and the queue. -/
theorem Sound.ext (h₁ : p₁.Sound grid size table) (h₂ : p₂.Sound grid size table) (hkeeps : Keeps p₁ p₂)
    (hunproven : p₁.unproven = p₂.unproven) (hfaults : p₁.faults = p₂.faults)
    (hrecoveries : p₁.recoveries = p₂.recoveries) (hqueue : p₁.queue = p₂.queue) : p₁ = p₂ := by
  have hexpirations : p₁.expirations = p₂.expirations := by rw [h₁.held, h₂.held, hqueue]
  have hlive : p₁.livePower = p₂.livePower := by rw [h₁.livePower_eq, h₂.livePower_eq, hkeeps.liveSectors_eq]
  have hunprovenPower : p₁.unprovenPower = p₂.unprovenPower := by
    rw [h₁.unprovenPower_eq, h₂.unprovenPower_eq, hunproven]
  have hfaulty : p₁.faultyPower = p₂.faultyPower := by rw [h₁.faultyPower_eq, h₂.faultyPower_eq, hfaults]
  have hrecovering : p₁.recoveringPower = p₂.recoveringPower := by
    rw [h₁.recoveringPower_eq, h₂.recoveringPower_eq, hrecoveries]
  obtain ⟨hsectors, hterminated, hearly⟩ := hkeeps
  cases p₁
  cases p₂
  simp only at *
  subst hsectors hunproven hfaults hrecoveries hterminated hexpirations hearly hlive hunprovenPower hfaulty hrecovering
  rfl

/-! ### When sectors can be declared -/

/-- Early sectors are faulty, so live sectors that are not faulty are on time. -/
theorem Sound.exists_onTime (hp : p.Sound grid size table) {n : Nat} (hn : n ∈ p.liveSectors) (hf : n ∉ p.faults) :
    ∃ k, n ∈ (p.queue.entry k).onTime := by
  obtain ⟨k, hk⟩ := (hp.live_iff n).1 hn
  exact ⟨k, (ExpirationSet.mem_members.1 hk).resolve_right fun he => hf ((hp.queue_sound.exact k).early_faulty n he)⟩

theorem Sound.defined (hp : p.Sound grid size table) (hl : table.Lists ss ns) (hlive : ∀ n ∈ ns, n ∈ p.liveSectors) :
    ∀ s ∈ ss, ∃ w, Power.ofSector size s = .ok w := by
  intro s hs
  obtain ⟨s', hs', hw⟩ := hp.recorded s.number (hlive s.number (hl.number_mem hs))
  obtain rfl := Option.some.inj ((hl.recorded s hs).symm.trans hs')
  exact hw

theorem Sound.nonnegTotals (hp : p.Sound grid size table) (hn : p.Nonneg size table) :
    p.queue.NonnegTotals size table := fun n hm => hn n ((hp.live_iff n).2 hm)

/-- Records of live sectors can be loaded. -/
theorem Sound.loadAll_total (hp : p.Sound grid size table) (hlive : ∀ n ∈ ns, n ∈ p.liveSectors)
    (hle : ∀ n ∈ ns, n ≤ SparseArray.greatestIndex) : ∃ ss, table.loadAll ns = .ok ss :=
  SectorTable.loadAll_total fun n hn => ⟨hle n hn, (hp.recorded n (hlive n hn)).imp fun _ => And.left⟩

/-- Nothing stops live sectors from becoming faulty. -/
theorem Sound.addFaults_total (hu : 0 < grid.unit) (hp : p.Sound grid size table) (hn : p.Nonneg size table)
    (hup : grid.up epoch = .ok limit) (hlimit : 0 ≤ limit) (hl : table.Lists ss ns) (he : Enterable grid table ns)
    (hlive : ∀ n ∈ ns, n ∈ p.liveSectors) (hnew : ∀ n ∈ ns, n ∉ p.faults) :
    ∃ r, p.addFaults grid size ns ss epoch = .ok r := by
  obtain ⟨⟨q, w⟩, hresch⟩ := hp.queue_sound.rescheduleAsFaults_total (hp.nonnegTotals hn) hl hnew he
    (hp.defined hl hlive) (fun n hm => hp.exists_onTime (hlive n hm) (hnew n hm)) hup hlimit
  obtain ⟨hsound, rfl, -, limit', -, hmoved⟩ := hp.queue_sound.rescheduleAsFaults (Grid.landsOn_self hu) hl hnew hresch
  obtain ⟨unprovenInfos, hselect⟩ := hl.select_total fun n (hm : n ∈ ns ∩ p.unproven) => (mem_inter.1 hm).1
  have hunproven := hl.select hselect
  have hlost : (if unprovenInfos.isEmpty then (pure 0 : Outcome Power) else Power.ofSectors size unprovenInfos) =
      .ok ((ns ∩ p.unproven).total (table.powerAt size)) := by
    split
    · next hnil =>
      rw [hunproven.eq_nil_iff.1 (List.isEmpty_iff.1 hnil), total_empty]
      rfl
    · obtain ⟨w, hw⟩ := SectorTable.ofSectors_total (hp.defined hunproven fun n hm => hlive n (mem_inter.1 hm).1)
      rw [hw, hunproven.ofSectors hw]
  have hvalid := (hp.faulted hlive hnew hsound hmoved).validate hn
  simp only [Partition.addFaults, bind_eq_ok, ite_bind_eq_ok, loadExpirations_eq_ok, noting_eq_ok, validated_eq_ok,
    pure_eq_ok]
  exact ⟨_, _, hp.held, _, hresch, _, hselect, _, hlost, _, ⟨hvalid, rfl⟩, rfl⟩

/-- The sectors can be declared faulty, with a fault that expires at the given epoch. -/
structure Declarable (grid : Grid) (table : SectorTable) (p : Partition) (epoch : Int) (numbers : NumberSet) :
    Prop where
  /-- They belong to the partition. -/
  assigned : ∀ n ∈ numbers, n ∈ p.sectors
  /-- The new faults can be looked for. -/
  enterable : Enterable grid table (p.newFaultsAmong numbers)
  /-- There is a place for them. -/
  limit : p.newFaultsAmong numbers ≠ ∅ → ∃ k : Nat, grid.up epoch = .ok (k : Int)
  /-- The records of the recovering ones can be loaded. -/
  loadable : ∀ n ∈ p.recoveries ∩ numbers, n ≤ SparseArray.greatestIndex

/-- Fewer sectors can be declared as well. -/
theorem Declarable.mono (h : p.Declarable grid table epoch ns) (hms : ∀ n ∈ ms, n ∈ ns) :
    p.Declarable grid table epoch ms := by
  have hnew : ∀ n ∈ p.newFaultsAmong ms, n ∈ p.newFaultsAmong ns := by
    intro n hn
    have := hms n
    simp only [newFaultsAmong, mem_sdiff, mem_inter] at hn ⊢
    tauto
  refine ⟨fun n hn => h.assigned n (hms n hn), fun n hn => h.enterable n (hnew n hn), fun hne => h.limit fun hnil => ?_,
    fun n hn => h.loadable n (mem_inter.2 ⟨(mem_inter.1 hn).1, hms n (mem_inter.1 hn).2⟩)⟩
  exact hne (eq_empty_iff.2 fun n hn => eq_empty_iff.1 hnil n (hnew n hn))

/-- **Nothing else stops sectors from being declared faulty.** -/
theorem Sound.declareFaults_total (hu : 0 < grid.unit) (hk : table.Keyed) (hp : p.Sound grid size table)
    (hn : p.Nonneg size table) (hd : p.Declarable grid table epoch numbers) :
    ∃ p' fd, p.declareFaults grid size table numbers epoch = .ok (p', p.newFaultsAmong numbers, fd) := by
  have hlive : ∀ n ∈ p.newFaultsAmong numbers, n ∈ p.liveSectors := fun n hm => (mem_newFaultsAmong hd.assigned hm).1
  have hfresh : ∀ n ∈ p.newFaultsAmong numbers, n ∉ p.faults := fun n hm => (mem_newFaultsAmong hd.assigned hm).2
  have hback : ∀ n ∈ p.recoveries ∩ numbers, n ∈ p.liveSectors := fun n hm =>
    hp.faults_live n (hp.recoveries_faults n (mem_inter.1 hm).1)
  obtain ⟨ss, hload⟩ := hp.loadAll_total hlive fun n hm => (hd.enterable n hm).2
  obtain ⟨retracted, hretracted⟩ := hp.loadAll_total hback hd.loadable
  have hl := SectorTable.lists_of_loadAll hk hload
  -- first the new faults
  obtain ⟨⟨p₁, fd⟩, hadd, hp₁, hkeeps, hrecoveries⟩ : ∃ r : Partition × FaultDelta, (if ss.isEmpty then .ok (p, {})
        else p.addFaults grid size (p.newFaultsAmong numbers) ss epoch) = .ok r ∧
      r.1.Sound grid size table ∧ Keeps p r.1 ∧ r.1.recoveries = p.recoveries := by
    split
    · exact ⟨_, rfl, hp, Keeps.refl p, rfl⟩
    · next hsome =>
      obtain ⟨k, hup⟩ := hd.limit fun hnil => hsome (List.isEmpty_iff.2 (hl.eq_nil_iff.2 hnil))
      obtain ⟨r, hr⟩ := hp.addFaults_total hu hn hup (Int.natCast_nonneg k) hl hd.enterable hlive hfresh
      obtain ⟨hs, hfaulted, hrecoveries⟩ := hp.addFaults hu hl hlive hfresh hr
      exact ⟨r, hr, hs, hfaulted.keeps, hrecoveries⟩
  -- then the recoveries
  obtain ⟨hp₂, hkeeps₂, -⟩ := hp₁.removeRecoveries fun n (hm : n ∈ p.recoveries ∩ numbers) =>
    hrecoveries.symm ▸ (mem_inter.1 hm).1
  have hpower := SectorTable.ofSectors_total (hp.defined (SectorTable.lists_of_loadAll hk hretracted) hback)
  have hvalid := hp₂.validate (hn.mono fun n hm => (hkeeps.trans hkeeps₂).liveSectors_eq ▸ hm)
  exact ⟨_, fd, (declareFaults_eq_ok hk).2 ⟨hd.assigned, rfl, ss, retracted, p₁, hload, hretracted, hadd, hpower, rfl,
    hvalid⟩⟩

/-- Live sectors that became faulty can be looked for, and there is a place for them. -/
theorem Sound.limit_of_faultedBy (hp : p.Sound grid size table) (h : FaultedBy grid epoch ns p p')
    (hnew : ∀ n ∈ ns, n ∉ p.faults) (hne : ns ≠ ∅) : ∃ k : Nat, grid.up epoch = .ok (k : Int) := by
  obtain ⟨limit, hup, hmoved, -⟩ := h.moved
  obtain ⟨n, hn⟩ : ∃ n, n ∈ ns := by
    by_contra hno
    exact hne (eq_empty_iff.2 fun n hn => hno ⟨n, hn⟩)
  obtain ⟨j, hj⟩ := hp.exists_onTime (h.live n hn) (hnew n hn)
  have hlimit : 0 ≤ limit := by
    rcases le_or_gt (j : Int) limit with hle | hlt
    · exact (Int.natCast_nonneg j).trans hle
    · exact hmoved.nonneg n hn j hlt hj
  obtain ⟨k, rfl⟩ := Int.eq_ofNat_of_zero_le hlimit
  exact ⟨k, hup hne⟩

/-- **Sectors that are declared faulty were declarable.** -/
theorem Sound.declarable (hu : 0 < grid.unit) (hk : table.Keyed) (hp : p.Sound grid size table)
    (h : p.declareFaults grid size table numbers epoch = .ok (p', newFaults, fd)) :
    p.Declarable grid table epoch numbers := by
  obtain ⟨-, hfaulted, -⟩ := hp.declareFaults hu hk h
  obtain ⟨hin, rfl, ss, retracted, p₁, hload, hretracted, hadd, -⟩ := (declareFaults_eq_ok hk).1 h
  have hl := SectorTable.lists_of_loadAll hk hload
  refine ⟨hin, fun n hn => ⟨?_, SectorTable.le_of_loadAll hload n hn⟩,
    hp.limit_of_faultedBy hfaulted fun n hn => (mem_newFaultsAmong hin hn).2, SectorTable.le_of_loadAll hretracted⟩
  have hsome : ¬ss.isEmpty = true := fun hnil => by
    rw [hl.eq_nil_iff.1 (List.isEmpty_iff.1 hnil)] at hn
    exact not_mem_empty n hn
  rw [if_neg hsome] at hadd
  simp only [Partition.addFaults, bind_eq_ok, noting_eq_ok] at hadd
  obtain ⟨q, -, r, hresch, -⟩ := hadd
  exact due_of_rescheduleAsFaults hl hresch n hn

/-! ### What comes of it -/

/-- What a declaration has answered. -/
structure Declared (grid : Grid) (size : SectorSize) (table : SectorTable) (epoch : Int) (numbers : NumberSet)
    (p : Partition) (r : Partition × NumberSet × FaultDelta) : Prop where
  /-- The partition stays sound. -/
  sound : r.1.Sound grid size table
  /-- The new faults. -/
  newFaults_eq : r.2.1 = p.newFaultsAmong numbers
  /-- They became faulty. -/
  faultedBy : FaultedBy grid epoch r.2.1 p r.1
  /-- None of the sectors is recovering. -/
  recoveries_eq : r.1.recoveries = p.recoveries \ numbers
  /-- None of the new faults is unproven. -/
  unproven_eq : r.1.unproven = p.unproven \ r.2.1
  /-- The change of active power. -/
  delta_eq : r.1.activePower = p.activePower + r.2.2.delta
  /-- The power that became faulty. -/
  newlyFaulty_eq : r.1.faultyPower = p.faultyPower + r.2.2.newlyFaulty

theorem unproven_of_declareFaults (hk : table.Keyed)
    (h : p.declareFaults grid size table numbers epoch = .ok (p', newFaults, fd)) :
    p'.unproven = p.unproven \ newFaults := by
  obtain ⟨-, -, ss, retracted, p₁, hload, -, hadd, -, rfl, -⟩ := (declareFaults_eq_ok hk).1 h
  have hkept : ∀ ms w, (p₁.removeRecoveries ms w).unproven = p₁.unproven := fun ms w => by
    unfold Partition.removeRecoveries
    split <;> rfl
  rw [hkept]
  split at hadd
  · next hnil =>
    obtain ⟨rfl, -⟩ := Prod.mk.inj (Except.ok.inj hadd)
    rw [(SectorTable.lists_of_loadAll hk hload).eq_nil_iff.1 (List.isEmpty_iff.1 hnil), sdiff_empty]
  · simp only [Partition.addFaults, bind_eq_ok, ite_bind_eq_ok, loadExpirations_eq_ok, noting_eq_ok, validated_eq_ok,
      pure_eq_ok, Prod.mk.injEq] at hadd
    obtain ⟨_, -, _, -, _, -, _, -, _, ⟨-, rfl⟩, rfl, -⟩ := hadd
    ext n
    simp only [mem_sdiff, mem_inter]
    tauto

theorem Sound.declared (hu : 0 < grid.unit) (hk : table.Keyed) (hp : p.Sound grid size table)
    {r : Partition × NumberSet × FaultDelta} (h : p.declareFaults grid size table numbers epoch = .ok r) :
    Declared grid size table epoch numbers p r := by
  obtain ⟨hs, hfaulted, hrecoveries⟩ := hp.declareFaults hu hk h
  obtain ⟨hdelta, hnewly⟩ := powers_of_declareFaults h
  exact ⟨hs, ((declareFaults_eq_ok hk).1 h).2.1, hfaulted, hrecoveries, unproven_of_declareFaults hk h, hdelta, hnewly⟩

/-- The answer is determined. -/
theorem Declared.unique {r r' : Partition × NumberSet × FaultDelta}
    (h : Declared grid size table epoch numbers p r) (h' : Declared grid size table epoch numbers p r') : r = r' := by
  obtain ⟨p₁, newFaults, fd₁⟩ := r
  obtain ⟨p₂, newFaults', fd₂⟩ := r'
  obtain rfl : newFaults = newFaults' := h.newFaults_eq.trans h'.newFaults_eq.symm
  have hfaults : p₁.faults = p₂.faults := h.faultedBy.faults_eq.trans h'.faultedBy.faults_eq.symm
  have hqueue : p₁.queue = p₂.queue := by
    obtain ⟨limit₁, hup₁, hmoved₁, -⟩ := h.faultedBy.moved
    obtain ⟨limit₂, hup₂, hmoved₂, -⟩ := h'.faultedBy.moved
    refine h.sound.queue_sound.eq_of_faulted (hfaults ▸ h'.sound.queue_sound) hmoved₁ hmoved₂ (fun n hn => hn)
      (fun n hn hno => absurd hn hno) fun n hn => ?_
    have hne : newFaults ≠ ∅ := fun he => not_mem_empty n (he ▸ hn)
    exact Except.ok.inj ((hup₁ hne).symm.trans (hup₂ hne))
  have hkeeps := h.faultedBy.keeps
  have hkeeps' := h'.faultedBy.keeps
  obtain rfl : p₁ = p₂ := h.sound.ext h'.sound ⟨hkeeps'.sectors_eq.trans hkeeps.sectors_eq.symm,
    hkeeps'.terminated_eq.trans hkeeps.terminated_eq.symm, hkeeps'.early_eq.trans hkeeps.early_eq.symm⟩
    (h.unproven_eq.trans h'.unproven_eq.symm) hfaults (h.recoveries_eq.trans h'.recoveries_eq.symm) hqueue
  have hdelta : fd₁.delta = fd₂.delta := add_left_cancel (h.delta_eq.symm.trans h'.delta_eq)
  have hnewly : fd₁.newlyFaulty = fd₂.newlyFaulty := add_left_cancel (h.newlyFaulty_eq.symm.trans h'.newlyFaulty_eq)
  cases fd₁
  cases fd₂
  simp only at hdelta hnewly
  rw [hdelta, hnewly]

/-- Recovering sectors are faulty, so the new faults are those that have not ended and are not faulty. -/
theorem Sound.mem_newFaultsAmong_iff (hp : p.Sound grid size table) {n : Nat} :
    n ∈ p.newFaultsAmong numbers ↔ n ∈ numbers ∧ n ∉ p.terminated ∧ n ∉ p.faults := by
  have := hp.recoveries_faults n
  simp only [newFaultsAmong, mem_sdiff, mem_inter]
  tauto

/-- What is new among two sets is what is new among the first, and then among the second. -/
theorem Declared.newFaultsAmong_union (hp : p.Sound grid size table) {r : Partition × NumberSet × FaultDelta}
    (h : Declared grid size table epoch ns p r) (ms : NumberSet) :
    p.newFaultsAmong (ns ∪ ms) = p.newFaultsAmong ns ∪ r.1.newFaultsAmong ms := by
  ext n
  rw [mem_union, hp.mem_newFaultsAmong_iff, hp.mem_newFaultsAmong_iff, h.sound.mem_newFaultsAmong_iff,
    h.faultedBy.faults_eq, h.newFaults_eq, h.faultedBy.keeps.terminated_eq, mem_union, mem_union,
    hp.mem_newFaultsAmong_iff]
  tauto

/-- Sectors can be declared together if and only if they can in turn. -/
theorem Declared.declarable_union (hp : p.Sound grid size table) {r : Partition × NumberSet × FaultDelta}
    (h : Declared grid size table epoch ns p r) : p.Declarable grid table epoch (ns ∪ ms) ↔
      p.Declarable grid table epoch ns ∧ r.1.Declarable grid table epoch ms := by
  have hnew := h.newFaultsAmong_union hp ms
  have hsectors := h.faultedBy.keeps.sectors_eq
  have hback : ∀ n, n ∈ p.recoveries ∩ (ns ∪ ms) ↔ n ∈ p.recoveries ∩ ns ∨ n ∈ r.1.recoveries ∩ ms := by
    intro n
    rw [h.recoveries_eq]
    simp only [mem_inter, mem_union, mem_sdiff]
    tauto
  constructor
  · rintro ⟨hin, he, hlimit, hload⟩
    rw [hnew] at he hlimit
    obtain ⟨hens, hems⟩ := enterable_union.1 he
    refine ⟨⟨fun n hn => hin n (mem_union.2 (.inl hn)), hens, fun hne => hlimit fun hnil => hne ?_,
      fun n hn => hload n ((hback n).2 (.inl hn))⟩, ⟨fun n hn => hsectors ▸ hin n (mem_union.2 (.inr hn)), hems,
      fun hne => hlimit fun hnil => hne ?_, fun n hn => hload n ((hback n).2 (.inr hn))⟩⟩
    · exact eq_empty_iff.2 fun n hn => eq_empty_iff.1 hnil n (mem_union.2 (.inl hn))
    · exact eq_empty_iff.2 fun n hn => eq_empty_iff.1 hnil n (mem_union.2 (.inr hn))
  · rintro ⟨⟨hin, he, hlimit, hload⟩, ⟨hin', he', hlimit', hload'⟩⟩
    refine ⟨fun n hn => (mem_union.1 hn).elim (hin n) fun hn => hsectors ▸ hin' n hn, ?_, ?_,
      fun n hn => ((hback n).1 hn).elim (hload n) (hload' n)⟩
    · rw [hnew]
      exact enterable_union.2 ⟨he, he'⟩
    · rw [hnew]
      intro hne
      by_cases hnil : p.newFaultsAmong ns = ∅
      · refine hlimit' fun hnil' => hne ?_
        rw [hnil, hnil', union_empty]
      · exact hlimit hnil

/-- The limit may be any that rounding up gives, if there are new faults. -/
theorem FaultedBy.moved_at (h : FaultedBy grid epoch ns p p') (hup : ns ≠ ∅ → grid.up epoch = .ok limit) :
    Faulted limit ns p.queue p'.queue ∧ ∀ n ∈ ns, ∀ k : Nat, n ∈ (p.queue.entry k).early → (k : Int) ≤ limit := by
  obtain ⟨limit', hup', hmoved, hearly⟩ := h.moved
  by_cases hne : ns = ∅
  · subst hne
    exact ⟨hmoved.of_empty limit, fun n hn => absurd hn (not_mem_empty n)⟩
  · obtain rfl : limit' = limit := Except.ok.inj ((hup' hne).symm.trans (hup hne))
    exact ⟨hmoved, hearly⟩

/-- Sectors became faulty, and then others, with the same expiration. -/
theorem FaultedBy.trans (h : FaultedBy grid epoch ns p p₁) (h' : FaultedBy grid epoch ms p₁ p₂) :
    FaultedBy grid epoch (ns ∪ ms) p p₂ := by
  refine ⟨h.keeps.trans h'.keeps, by rw [h'.faults_eq, h.faults_eq, union_assoc], fun n hn => ?_, ?_⟩
  · exact (mem_union.1 hn).elim (h.live n) fun hn => h.keeps.liveSectors_eq ▸ h'.live n hn
  · -- one limit serves both
    obtain ⟨limit, hup, hup'⟩ : ∃ limit, (ns ≠ ∅ → grid.up epoch = .ok limit) ∧
        (ms ≠ ∅ → grid.up epoch = .ok limit) := by
      obtain ⟨limit₁, hup₁, -⟩ := h.moved
      obtain ⟨limit₂, hup₂, -⟩ := h'.moved
      by_cases hne : ns = ∅
      · exact ⟨limit₂, fun hns => absurd hne hns, hup₂⟩
      · exact ⟨limit₁, hup₁, fun _ => hup₁ hne⟩
    obtain ⟨hmoved, hearly⟩ := h.moved_at hup
    obtain ⟨hmoved', hearly'⟩ := h'.moved_at hup'
    refine ⟨limit, fun hne => ?_, hmoved.trans hmoved', fun n hn k hk => ?_⟩
    · by_cases hns : ns = ∅
      · exact hup' fun hms => hne (by rw [hns, hms, union_empty])
      · exact hup hns
    · rcases mem_union.1 hn with hn | hn
      · exact hearly n hn k hk
      · exact hearly' n hn k ((hmoved.early k n).2 (.inl hk))

/-- Sectors were declared, and then others: the new faults are united and the powers added. -/
theorem Declared.trans (hp : p.Sound grid size table) {r r' : Partition × NumberSet × FaultDelta}
    (h : Declared grid size table epoch ns p r) (h' : Declared grid size table epoch ms r.1 r') :
    Declared grid size table epoch (ns ∪ ms) p
      (r'.1, r.2.1 ∪ r'.2.1, ⟨r.2.2.delta + r'.2.2.delta, r.2.2.newlyFaulty + r'.2.2.newlyFaulty⟩) where
  sound := h'.sound
  newFaults_eq := by rw [h.newFaultsAmong_union hp, h.newFaults_eq, h'.newFaults_eq]
  faultedBy := h.faultedBy.trans h'.faultedBy
  recoveries_eq := by rw [h'.recoveries_eq, h.recoveries_eq, sdiff_sdiff]
  unproven_eq := by rw [h'.unproven_eq, h.unproven_eq, sdiff_sdiff]
  delta_eq := by rw [h'.delta_eq, h.delta_eq, add_assoc]
  newlyFaulty_eq := by rw [h'.newlyFaulty_eq, h.newlyFaulty_eq, add_assoc]

/-! ### Together or in turn -/

/-- Declares one set of sectors faulty and then another. The new faults are united and the powers added. -/
def declareInTurn (grid : Grid) (size : SectorSize) (table : SectorTable) (p : Partition) (ns ms : NumberSet)
    (epoch : Int) : Outcome (Partition × NumberSet × FaultDelta) := do
  let (p, newFaults, effect) ← p.declareFaults grid size table ns epoch
  let (p, newFaults', effect') ← p.declareFaults grid size table ms epoch
  return (p, newFaults ∪ newFaults',
    { delta := effect.delta + effect'.delta, newlyFaulty := effect.newlyFaulty + effect'.newlyFaulty })

/-- Two sets of sectors are declared together as they are in turn. -/
theorem Sound.declareFaults_union (hu : 0 < grid.unit) (hk : table.Keyed) (hp : p.Sound grid size table)
    (hn : p.Nonneg size table) {r : Partition × NumberSet × FaultDelta} :
    p.declareFaults grid size table (ns ∪ ms) epoch = .ok r ↔ p.declareInTurn grid size table ns ms epoch = .ok r := by
  have hafter : ∀ {r₁ : Partition × NumberSet × FaultDelta}, Declared grid size table epoch ns p r₁ →
      r₁.1.Nonneg size table := fun h₁ => hn.mono fun n hm => h₁.faultedBy.keeps.liveSectors_eq ▸ hm
  simp only [declareInTurn, bind_eq_ok, pure_eq_ok]
  constructor
  · intro h
    have hdeclarable := hp.declarable hu hk h
    obtain ⟨p₁, fd₁, h₁⟩ := hp.declareFaults_total hu hk hn (hdeclarable.mono fun n hm => mem_union.2 (.inl hm))
    have hd₁ := hp.declared hu hk h₁
    obtain ⟨p₂, fd₂, h₂⟩ := hd₁.sound.declareFaults_total hu hk (hafter hd₁) ((hd₁.declarable_union hp).1 hdeclarable).2
    exact ⟨_, h₁, _, h₂, (hd₁.trans hp (hd₁.sound.declared hu hk h₂)).unique (hp.declared hu hk h)⟩
  · rintro ⟨r₁, h₁, r₂, h₂, rfl⟩
    have hd₁ := hp.declared hu hk h₁
    have hd₂ := hd₁.sound.declared hu hk h₂
    obtain ⟨p', fd, h⟩ := hp.declareFaults_total hu hk hn ((hd₁.declarable_union hp).2
      ⟨hp.declarable hu hk h₁, hd₁.sound.declarable hu hk h₂⟩)
    rw [h, (hp.declared hu hk h).unique (hd₁.trans hp hd₂)]

end SectorLedger.Partition
