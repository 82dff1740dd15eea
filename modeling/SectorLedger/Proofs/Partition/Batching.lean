import SectorLedger.Proofs.Expiration.Removable
import SectorLedger.Proofs.Partition.Missing

/-!
# Together or in turn

Sectors that are terminated leave the queue, which treats the active ones among them entry by entry and goes through
the entries for the faulty ones. What comes of it is determined by the sets and the places of the sectors, and what can
stop it concerns each sector apart from the others. So two sets are terminated in turn as they are together, and the
same holds of faults that are declared.

* `Terminable`, `Sound.terminateSectors_total`, `Sound.terminable`: when sectors can be terminated.
* `Terminated.unique`, `Terminated.trans`: what comes of it is determined, and adds up.
* `Sound.terminateSectors_union`: two sets are terminated together as they are in turn.
* `batching_does_not_matter`: the same for faults and terminations, and in either order.
-/

namespace SectorLedger.Partition

open NumberSet ExpirationQueue

variable {grid : Grid} {size : SectorSize} {table : SectorTable} {maxSectors : Nat} {p p' p₁ p₂ : Partition}
  {ns ms numbers : NumberSet} {epoch : Int} {removed removed' : ExpirationSet}

/-! ### Filing -/

/-- Filing is determined. -/
theorem FiledEarly.unique (h : FiledEarly epoch ns p p₁) (h' : FiledEarly epoch ns p p₂) : p₁.early = p₂.early := by
  obtain ⟨q, q₁, hq, hq₁, hadd⟩ := h
  obtain ⟨q', q₂, hq', hq₂, hadd'⟩ := h'
  obtain rfl : q = q' := Stored.held.inj (hq.symm.trans hq')
  rw [hq₁, hq₂, Except.ok.inj (hadd.symm.trans hadd')]

/-- Two sets are filed one after the other as their union is. -/
theorem FiledEarly.trans (h : FiledEarly epoch ns p p₁) (h' : FiledEarly epoch ms p₁ p₂) :
    FiledEarly epoch (ns ∪ ms) p p₂ := by
  obtain ⟨q, q₁, hq, hq₁, hadd⟩ := h
  obtain ⟨q', q₂, hq', hq₂, hadd'⟩ := h'
  obtain rfl : q₁ = q' := Stored.held.inj (hq₁.symm.trans hq')
  exact ⟨q, q₂, hq, hq₂, NumberQueue.add_union.2 ⟨q₁, hadd, hadd'⟩⟩

/-- If a union is filed, the first set can be, and then the second. -/
theorem FiledEarly.split (h : FiledEarly epoch (ns ∪ ms) p p₂) :
    (∃ p₁, FiledEarly epoch ns p p₁) ∧ ∀ p₁, FiledEarly epoch ns p p₁ → FiledEarly epoch ms p₁ p₂ := by
  obtain ⟨q, q₂, hq, hq₂, hadd⟩ := h
  obtain ⟨q₁, hadd₁, hadd₂⟩ := NumberQueue.add_union.1 hadd
  refine ⟨⟨{ p with early := .held q₁ }, q, q₁, hq, rfl, hadd₁⟩, fun p₁ h₁ => ?_⟩
  obtain ⟨q', q₁', hq', hq₁', hadd'⟩ := h₁
  obtain rfl : q = q' := Stored.held.inj (hq.symm.trans hq')
  obtain rfl : q₁ = q₁' := Except.ok.inj (hadd₁.symm.trans hadd')
  exact ⟨q₁, q₂, hq₁', hq₂, hadd₂⟩

/-! ### When sectors can be terminated -/

/-- The sectors can be terminated at the given epoch. -/
structure Terminable (grid : Grid) (table : SectorTable) (maxSectors : Nat) (p : Partition) (epoch : Int)
    (numbers : NumberSet) : Prop where
  /-- They are live. -/
  live : ∀ n ∈ numbers, n ∈ p.liveSectors
  /-- Their records can be loaded. -/
  loadable : ∀ n ∈ numbers, n ≤ SparseArray.greatestIndex
  /-- The active ones can leave the queue. -/
  removable : Removable grid table p.queue (numbers \ p.faults)
  /-- There are not too many faulty sectors in the partition. -/
  few : p.faults.count ≤ maxSectors
  /-- They can be filed to be settled. -/
  filed : ∃ p', FiledEarly epoch numbers p p'

/-- **Nothing else stops sectors from being terminated.** -/
theorem Sound.terminateSectors_total (hu : 0 < grid.unit) (hk : table.Keyed) (hp : p.Sound grid size table)
    (hn : p.Nonneg size table) (ht : p.Terminable grid table maxSectors epoch numbers) :
    ∃ p' removed, p.terminateSectors grid size table maxSectors epoch numbers = .ok (p', removed) := by
  obtain ⟨ss, hload⟩ := hp.loadAll_total ht.live ht.loadable
  have hl := SectorTable.lists_of_loadAll hk hload
  have hrecoveries : p.recoveries.count ≤ maxSectors := (count_le_of_subset hp.recoveries_faults).trans ht.few
  obtain ⟨⟨q', taken, recovering⟩, hremove⟩ := (hp.queue_sound.removeSectors_ok_iff hu (hp.nonnegTotals hn) hl
    (hp.defined hl ht.live) fun n hm => (hp.live_iff n).1 (ht.live n hm)).2 ⟨ht.few, hrecoveries, ht.removable⟩
  have hremoved := hp.queue_sound.removeSectors hu hl hremove
  obtain ⟨_, early, early', hearly, -, hadd⟩ := ht.filed
  obtain ⟨unprovenInfos, hselect⟩ := hl.select_total fun n (hm : n ∈ numbers ∩ p.unproven) => (mem_inter.1 hm).1
  have hunproven := hl.select hselect
  obtain ⟨w, hw⟩ := SectorTable.ofSectors_total (hp.defined hunproven fun n hm => ht.live n (mem_inter.1 hm).1)
  obtain rfl := hunproven.ofSectors hw
  obtain ⟨hsound, -⟩ := hp.ended_removed ht.live hremoved (.held early')
  have hvalid := hsound.validate (hn.mono fun n hm => ?_)
  · refine ⟨_, _, terminateSectors_eq_ok.2 ⟨ht.live, ss, p.queue, q', taken, recovering, early, early', unprovenInfos, _,
      hload, hp.held, hremove, hearly, ?_, ?_, hw, rfl, ?_, rfl⟩⟩
    · rw [hremoved.members_eq]
      exact hadd
    · rw [hremoved.members_eq]
      exact hselect
    · rw [hremoved.members_eq]
      exact hvalid
  · simp only [mem_liveSectors, Partition.ended, mem_union, not_or] at hm
    exact mem_liveSectors.2 ⟨hm.1, hm.2.1⟩

/-- **Sectors that are terminated were terminable.** -/
theorem Sound.terminable (hu : 0 < grid.unit) (hk : table.Keyed) (hp : p.Sound grid size table)
    (hn : p.Nonneg size table) (h : p.terminateSectors grid size table maxSectors epoch numbers = .ok (p', removed)) :
    p.Terminable grid table maxSectors epoch numbers := by
  have hfiled := (hp.terminated hu hk h).filed
  obtain ⟨hlive, ss, q, q', taken, recovering, -, -, -, -, hload, hq, hremove, -⟩ := terminateSectors_eq_ok.1 h
  obtain rfl := queue_eq hq
  have hl := SectorTable.lists_of_loadAll hk hload
  obtain ⟨hfew, -, hremovable⟩ := (hp.queue_sound.removeSectors_ok_iff hu (hp.nonnegTotals hn) hl (hp.defined hl hlive)
    fun n hm => (hp.live_iff n).1 (hlive n hm)).1 ⟨_, hremove⟩
  exact ⟨hlive, SectorTable.le_of_loadAll hload, hremovable, hfew, p', hfiled⟩

/-- The first of two sets can be terminated if both can. -/
theorem Terminable.left (h : p.Terminable grid table maxSectors epoch (ns ∪ ms)) :
    p.Terminable grid table maxSectors epoch ns := by
  obtain ⟨p', hfiled⟩ := h.filed
  refine ⟨fun n hn => h.live n (mem_union.2 (.inl hn)), fun n hn => h.loadable n (mem_union.2 (.inl hn)), ?_, h.few,
    hfiled.split.1⟩
  have hunion : (ns ∪ ms) \ p.faults = (ns \ p.faults) ∪ (ms \ p.faults) := NumberSet.ext fun n => by
    simp only [mem_sdiff, mem_union, or_and_right]
  exact (removable_union.1 (hunion ▸ h.removable)).1

/-- Sectors can be terminated together if and only if they can in turn. -/
theorem Terminated.terminable_union (h : Terminated grid size table epoch ns p p₁ removed) (hd : ∀ n ∈ ns, n ∉ ms) :
    p.Terminable grid table maxSectors epoch (ns ∪ ms) ↔
      p.Terminable grid table maxSectors epoch ns ∧ p₁.Terminable grid table maxSectors epoch ms := by
  have hlive : ∀ n ∈ ms, n ∈ p₁.liveSectors ↔ n ∈ p.liveSectors := fun n hn => by
    rw [h.ended.liveSectors_eq, mem_sdiff, and_iff_left fun hn' => hd n hn' hn]
  have hactive : ms \ p₁.faults = ms \ p.faults := NumberSet.ext fun n => by
    have := hd n
    rw [h.ended.faults_eq]
    simp only [mem_sdiff]
    tauto
  have hremovable : Removable grid table p₁.queue (ms \ p₁.faults) ↔ Removable grid table p.queue (ms \ p.faults) := by
    rw [hactive]
    refine removable_congr fun n hn k => ?_
    rw [h.onTime, mem_sdiff, and_iff_left fun hn' => hd n hn' (mem_sdiff.1 hn).1]
  have hunion : (ns ∪ ms) \ p.faults = (ns \ p.faults) ∪ (ms \ p.faults) := NumberSet.ext fun n => by
    simp only [mem_sdiff, mem_union, or_and_right]
  constructor
  · intro hboth
    obtain ⟨p', hfiled⟩ := hboth.filed
    refine ⟨hboth.left, fun n hn => (hlive n hn).2 (hboth.live n (mem_union.2 (.inr hn))),
      fun n hn => hboth.loadable n (mem_union.2 (.inr hn)),
      hremovable.2 (removable_union.1 (hunion ▸ hboth.removable)).2, ?_, p', hfiled.split.2 p₁ h.filed⟩
    exact (count_le_of_subset fun n hn => (mem_sdiff.1 (h.ended.faults_eq ▸ hn)).1).trans hboth.few
  · rintro ⟨hfirst, hsecond⟩
    obtain ⟨p₂, hfiled⟩ := hsecond.filed
    refine ⟨fun n hn => (mem_union.1 hn).elim (hfirst.live n) fun hn => (hlive n hn).1 (hsecond.live n hn),
      fun n hn => (mem_union.1 hn).elim (hfirst.loadable n) (hsecond.loadable n), ?_, hfirst.few,
      p₂, h.filed.trans hfiled⟩
    rw [hunion]
    exact removable_union.2 ⟨hfirst.removable, hremovable.1 hsecond.removable⟩

/-! ### What comes of it -/

/-- The answer is determined. -/
theorem Terminated.unique (h : Terminated grid size table epoch numbers p p₁ removed)
    (h' : Terminated grid size table epoch numbers p p₂ removed') : p₁ = p₂ ∧ removed = removed' := by
  have hfaults : p₁.faults = p₂.faults := h.ended.faults_eq.trans h'.ended.faults_eq.symm
  have hqueue : p₁.queue = p₂.queue := by
    refine h.sound.queue_sound.ext (hfaults ▸ h'.sound.queue_sound) (fun k n => ?_) fun k n => ?_
    · rw [h.onTime, h'.onTime]
    · rw [h.early, h'.early]
  refine ⟨h.sound.ext h'.sound ⟨h'.ended.sectors_eq.trans h.ended.sectors_eq.symm,
    h'.ended.terminated_eq.trans h.ended.terminated_eq.symm, h'.filed.unique h.filed⟩
    (h.unproven_eq.trans h'.unproven_eq.symm) hfaults (h.recoveries_eq.trans h'.recoveries_eq.symm) hqueue, ?_⟩
  have hexact := h.exact.eq_of_sets h'.exact (NumberSet.ext fun n => by rw [h.removedOnTime, h'.removedOnTime])
    (NumberSet.ext fun n => by rw [h.removedEarly, h'.removedEarly])
  cases removed
  cases removed'
  simpa using hexact

/-- Sectors were terminated, and then others: what has left the queue adds up. -/
theorem Terminated.trans (hp : p.Sound grid size table) (hd : ∀ n ∈ ns, n ∉ ms)
    (h : Terminated grid size table epoch ns p p₁ removed)
    (h' : Terminated grid size table epoch ms p₁ p₂ removed') :
    Terminated grid size table epoch (ns ∪ ms) p p₂ (removed.merge removed') where
  sound := h'.sound
  ended := h.ended.trans h'.ended
  filed := h.filed.trans h'.filed
  recoveries_eq := by rw [h'.recoveries_eq, h.recoveries_eq, sdiff_sdiff]
  unproven_eq := by rw [h'.unproven_eq, h.unproven_eq, sdiff_sdiff]
  onTime k := by rw [h'.onTime, h.onTime, sdiff_sdiff]
  early k := by rw [h'.early, h.early, sdiff_sdiff]
  removedOnTime n := by
    have := hd n
    simp only [ExpirationSet.merge, mem_union, h.removedOnTime, h'.removedOnTime, h.onTime, mem_sdiff, exists_and_right]
    tauto
  removedEarly n := by
    have := hd n
    simp only [ExpirationSet.merge, mem_union, h.removedEarly, h'.removedEarly, h.early, mem_sdiff, exists_and_right]
    tauto
  exact := by
    have hfirst : ∀ n ∈ removed.members, n ∈ ns := fun n hn => h.members_eq hp ▸ hn
    have hsecond : ∀ n ∈ removed'.members, n ∈ ms := fun n hn => h'.members_eq h.sound ▸ hn
    have hexact' : ExpirationSet.Exact size table p.faults
        { removed' with active := removed'.active + (ms ∩ p₁.unproven).total (table.powerAt size) } :=
      h'.exact.congr fun n hn => by
        rw [h.ended.faults_eq, mem_sdiff, and_iff_left fun hn' => hd n hn' (hsecond n hn)]
    have hmerge := h.exact.merge hexact' fun n hn hn' => hd n (hfirst n hn') (hsecond n hn)
    -- the power that never counted adds up as well
    have hunproven : ((ns ∪ ms) ∩ p.unproven).total (table.powerAt size) =
        (ns ∩ p.unproven).total (table.powerAt size) + (ms ∩ p₁.unproven).total (table.powerAt size) := by
      rw [h.unproven_eq, ← total_union _ fun n hn hn' => hd n (mem_inter.1 hn).1 (mem_inter.1 hn').1]
      refine total_congr_set _ fun n => ?_
      have := hd n
      simp only [mem_inter, mem_union, mem_sdiff]
      tauto
    have hactive : removed.active + removed'.active + ((ns ∪ ms) ∩ p.unproven).total (table.powerAt size) =
        removed.active + (ns ∩ p.unproven).total (table.powerAt size) +
          (removed'.active + (ms ∩ p₁.unproven).total (table.powerAt size)) := by
      rw [hunproven]
      abel
    simp only [ExpirationSet.merge, hactive]
    exact hmerge

/-! ### Together or in turn -/

/-- Terminates one set of sectors and then another. What has left the queue adds up. -/
def terminateInTurn (grid : Grid) (size : SectorSize) (table : SectorTable) (maxSectors : Nat) (p : Partition)
    (epoch : Int) (ns ms : NumberSet) : Outcome (Partition × ExpirationSet) := do
  let (p, removed) ← p.terminateSectors grid size table maxSectors epoch ns
  let (p, removed') ← p.terminateSectors grid size table maxSectors epoch ms
  return (p, removed.merge removed')

/-- Two sets of sectors are terminated together as they are in turn. -/
theorem Sound.terminateSectors_union (hu : 0 < grid.unit) (hk : table.Keyed) (hp : p.Sound grid size table)
    (hn : p.Nonneg size table) (hd : ∀ n ∈ ns, n ∉ ms) {r : Partition × ExpirationSet} :
    p.terminateSectors grid size table maxSectors epoch (ns ∪ ms) = .ok r ↔
      p.terminateInTurn grid size table maxSectors epoch ns ms = .ok r := by
  have hafter : ∀ {p₁ : Partition} {removed : ExpirationSet}, Terminated grid size table epoch ns p p₁ removed →
      p₁.Nonneg size table := fun h₁ =>
    hn.mono fun n hm => (mem_sdiff.1 (h₁.ended.liveSectors_eq ▸ hm)).1
  obtain ⟨p', removed⟩ := r
  simp only [terminateInTurn, bind_eq_ok, pure_eq_ok, Prod.mk.injEq, Prod.exists]
  constructor
  · intro h
    have hterminable := hp.terminable hu hk hn h
    obtain ⟨p₁, removed₁, h₁⟩ := hp.terminateSectors_total hu hk hn hterminable.left
    have ht₁ := hp.terminated hu hk h₁
    obtain ⟨p₂, removed₂, h₂⟩ := ht₁.sound.terminateSectors_total hu hk (hafter ht₁)
      ((ht₁.terminable_union hd).1 hterminable).2
    exact ⟨p₁, removed₁, h₁, p₂, removed₂, h₂,
      (ht₁.trans hp hd (ht₁.sound.terminated hu hk h₂)).unique (hp.terminated hu hk h)⟩
  · rintro ⟨p₁, removed₁, h₁, p₂, removed₂, h₂, rfl, rfl⟩
    have ht₁ := hp.terminated hu hk h₁
    have ht₂ := ht₁.sound.terminated hu hk h₂
    obtain ⟨p', removed, h⟩ := hp.terminateSectors_total hu hk hn ((ht₁.terminable_union hd).2
      ⟨hp.terminable hu hk hn h₁, ht₁.sound.terminable hu hk (hafter ht₁) h₂⟩)
    obtain ⟨rfl, rfl⟩ := (hp.terminated hu hk h).unique (ht₁.trans hp hd ht₂)
    exact h

/-- **Batching does not matter.** Two sets of sectors without a common one are declared faulty, or terminated, together
as they are in turn, and in turn in either order: the one goes through if and only if the other does, and then the
answers are the same. With too many faulty sectors in the partition, no termination goes through. -/
theorem batching_does_not_matter (hu : 0 < grid.unit) (hk : table.Keyed) (hp : p.Sound grid size table)
    (hn : p.Nonneg size table) (hd : ∀ n ∈ ns, n ∉ ms) (maxSectors : Nat) (epoch : Int) :
    (∀ r, p.declareFaults grid size table (ns ∪ ms) epoch = .ok r ↔
        p.declareInTurn grid size table ns ms epoch = .ok r) ∧
      (∀ r, p.declareInTurn grid size table ns ms epoch = .ok r ↔
        p.declareInTurn grid size table ms ns epoch = .ok r) ∧
      (∀ r, p.terminateSectors grid size table maxSectors epoch (ns ∪ ms) = .ok r ↔
        p.terminateInTurn grid size table maxSectors epoch ns ms = .ok r) ∧
      ∀ r, p.terminateInTurn grid size table maxSectors epoch ns ms = .ok r ↔
        p.terminateInTurn grid size table maxSectors epoch ms ns = .ok r := by
  have hd' : ∀ n ∈ ms, n ∉ ns := fun n hm hn => hd n hn hm
  refine ⟨fun r => hp.declareFaults_union hu hk hn, fun r => ?_, fun r => hp.terminateSectors_union hu hk hn hd,
    fun r => ?_⟩
  · rw [← hp.declareFaults_union hu hk hn, union_comm, hp.declareFaults_union hu hk hn]
  · rw [← hp.terminateSectors_union hu hk hn hd, union_comm, hp.terminateSectors_union hu hk hn hd']

/-- An active and a faulty sector in one batch, a recovering and an unproven one in the other. -/
theorem batching_of_mixedRun : ∃ p p₁ fd p₂ removed,
    foldOutcome (Operation.apply ⟨5, 0⟩ .kib2 (.ofList fiveSectors)) {} mixedRun = .ok p ∧
    p.declareInTurn ⟨5, 0⟩ .kib2 (.ofList fiveSectors) (.ofList [1, 2]) (.ofList [3, 5]) 14 =
      .ok (p₁, .ofList [1, 5], fd) ∧
    p.declareFaults ⟨5, 0⟩ .kib2 (.ofList fiveSectors) (.ofList [1, 2] ∪ .ofList [3, 5]) 14 =
      .ok (p₁, .ofList [1, 5], fd) ∧
    p.terminateInTurn ⟨5, 0⟩ .kib2 (.ofList fiveSectors) 2 14 (.ofList [1, 2]) (.ofList [3, 5]) = .ok (p₂, removed) ∧
    p.terminateSectors ⟨5, 0⟩ .kib2 (.ofList fiveSectors) 2 14 (.ofList [1, 2] ∪ .ofList [3, 5]) = .ok (p₂, removed) ∧
    removed.members = .ofList [1, 2, 3, 5] := by
  have hu : (0 : Int) < (⟨5, 0⟩ : Grid).unit := by decide
  have hk := SectorTable.keyed_ofList fiveSectors
  have hd : ∀ n ∈ NumberSet.ofList [1, 2], n ∉ NumberSet.ofList [3, 5] := fun n hn hn' => by
    simp only [mem_ofList, List.mem_cons, List.not_mem_nil, or_false] at hn hn'
    omega
  have hrun : ((foldOutcome (Operation.apply ⟨5, 0⟩ .kib2 (.ofList fiveSectors)) {} mixedRun).map fun p =>
      (decide (p.Nonneg .kib2 (.ofList fiveSectors)),
        (p.declareInTurn ⟨5, 0⟩ .kib2 (.ofList fiveSectors) (.ofList [1, 2]) (.ofList [3, 5]) 14).map (·.2.1),
        (p.terminateInTurn ⟨5, 0⟩ .kib2 (.ofList fiveSectors) 2 14 (.ofList [1, 2]) (.ofList [3, 5])).map
          (·.2.members))) = .ok (true, .ok (.ofList [1, 5]), .ok (.ofList [1, 2, 3, 5])) := by
    decide +kernel
  obtain ⟨p, hp, heq⟩ := map_eq_ok.1 hrun
  simp only [Prod.mk.injEq, decide_eq_true_eq] at heq
  obtain ⟨hnonneg, hdeclared, hterminated⟩ := heq
  obtain ⟨⟨p₁, newFaults, fd⟩, hdeclared, hnew⟩ := map_eq_ok.1 hdeclared
  obtain rfl : newFaults = .ofList [1, 5] := hnew
  obtain ⟨⟨p₂, removed⟩, hterminated, hmembers⟩ := map_eq_ok.1 hterminated
  have hs := (enrolled_of_run hu hk (by decide +kernel) hp).toSound
  obtain ⟨hdeclare, -, hterminate, -⟩ := batching_does_not_matter hu hk hs hnonneg hd 2 14
  exact ⟨p, p₁, fd, p₂, removed, hp, hdeclared, (hdeclare _).2 hdeclared, hterminated, (hterminate _).2 hterminated,
    hmembers⟩

end SectorLedger.Partition
