import SectorLedger.Proofs.Partition.Run

/-!
# Sectors that replace others

Active sectors can make room for others. Those that come are given with their records, and may have the
numbers of sectors that go; nothing asks whether they have the numbers of sectors that stay. If one does, its
power is counted once more, although the sets cannot show it.

* `Partition.exchanged`: the partition after it.
* `Sound.exchanged`: with numbers that are new to the sectors that stay it is sound.
* `Sound.apart_of_exchanged`: it is sound only then. The live power has raw bytes for every sector that
  stays and for every one that comes, so in a sound partition none of them is counted twice, or has ended.
* `replaceSectors_sound_iff`: both, for every replacement that succeeds.
-/

namespace SectorLedger.Partition

open NumberSet

variable {grid : Grid} {size : SectorSize} {table table' : SectorTable} {p p' : Partition} {old new : List Sector}
  {out inc : NumberSet} {q : ExpirationQueue}

/-- The partition when sectors have made room for others, with a new queue. The power of those that go is read from the
first table, that of those that come from the second. -/
def exchanged (size : SectorSize) (table table' : SectorTable) (p : Partition) (out inc : NumberSet)
    (q : ExpirationQueue) : Partition :=
  { p with
    expirations := .held q
    sectors := (p.sectors \ out) ∪ inc
    livePower := p.livePower + (inc.total (table'.powerAt size) - out.total (table.powerAt size)) }

/-- The steps of a replacement: the old sectors leave the queue, the new ones enter it, and the old ones turn out to be
active. -/
theorem Sound.of_replaceSectors (hu : 0 < grid.unit) (hp : p.Sound grid size table) (hout : table.Covers old out)
    (hinc : table'.Lists new inc) {w : Power} {x : Int} (h : p.replaceSectors grid size old new = .ok (p', w, x)) :
    ∃ q₁ q lot lot', p.queue.removeActive grid size old = .ok (q₁, lot) ∧
      q₁.addActive grid size new = .ok (q, lot') ∧ (∀ n ∈ out, n ∈ p.activeSectors) ∧
      p' = p.exchanged size table table' out inc q ∧
      w = inc.total (table'.powerAt size) - out.total (table.powerAt size) ∧
      x = inc.total table'.pledgeAt - out.total table.pledgeAt := by
  simp only [Partition.replaceSectors, bind_eq_ok, loadExpirations_eq_ok, noting_eq_ok, failed_bind, ite_failed_eq_ok,
    validated_eq_ok, pure_eq_ok, Prod.mk.injEq, Bool.not_eq_true', Bool.not_eq_false, containsAll_iff] at h
  obtain ⟨q₀, hq, ⟨q, change⟩, hreplace, hactive, _, ⟨-, rfl⟩, rfl, rfl, rfl⟩ := h
  obtain rfl := queue_eq hq
  obtain ⟨q₁, lot, lot', hrem, hadd, rfl⟩ := ExpirationQueue.replace_eq_ok.1 hreplace
  have hnumbers := ExpirationQueue.numbers_of_removeActive hp.queue_sound.orderly hout hrem
  simp only [hnumbers] at hactive
  have hlot := (hp.queue_sound.removeActive hu hout (fun n hn => (mem_activeSectors.1 (hactive n hn)).2.1) hrem).2.1
  have hlot' := ExpirationQueue.lot_of_addActive hinc hadd
  refine ⟨q₁, q, lot, lot', hrem, hadd, hactive, ?_, ?_, ?_⟩
  · simp only [exchanged, hlot.numbers_eq, hlot.power_eq, hlot'.numbers_eq, hlot'.power_eq]
  · rw [hlot.power_eq, hlot'.power_eq]
  · rw [hlot.pledge_eq, hlot'.pledge_eq]

/-- After it, only the live sectors that stayed and those that came can be live. -/
theorem of_mem_liveSectors_exchanged {n : Nat} (hn : n ∈ (p.exchanged size table table' out inc q).liveSectors) :
    n ∈ (p.liveSectors \ out) ∪ inc := by
  obtain ⟨hn, hlive⟩ := mem_liveSectors.1 hn
  rw [mem_union]
  rcases mem_union.1 hn with hn | hn
  · obtain ⟨hn, hno⟩ := mem_sdiff.1 hn
    exact .inl (mem_sdiff.2 ⟨mem_liveSectors.2 ⟨hn, hlive⟩, hno⟩)
  · exact .inr hn

/-- If those that come have no number of a sector that stays, the live sectors that stayed and those that came are
live. -/
theorem Sound.mem_liveSectors_exchanged (hp : p.Sound grid size table) (hout : ∀ n ∈ out, n ∈ p.liveSectors)
    (hnew : ∀ n ∈ inc, n ∈ p.sectors → n ∈ out) {n : Nat} :
    n ∈ (p.exchanged size table table' out inc q).liveSectors ↔ n ∈ (p.liveSectors \ out) ∪ inc := by
  refine ⟨of_mem_liveSectors_exchanged, fun hn => mem_liveSectors.2 ?_⟩
  rcases mem_union.1 hn with hn | hn
  · obtain ⟨hlive, hno⟩ := mem_sdiff.1 hn
    obtain ⟨hmem, hlive⟩ := mem_liveSectors.1 hlive
    exact ⟨mem_union.2 (.inl (mem_sdiff.2 ⟨hmem, hno⟩)), hlive⟩
  · refine ⟨mem_union.2 (.inr hn), fun hended => ?_⟩
    exact (mem_liveSectors.1 (hout n (hnew n hn (hp.terminated_sectors n hended)))).2 hended

/-- **If those that come have no number of a sector that stays, the partition is sound again.** -/
theorem Sound.exchanged (hp : p.Sound grid size table) (hout : ∀ n ∈ out, n ∈ p.activeSectors)
    (hnew : ∀ n ∈ inc, n ∈ p.sectors → n ∈ out) (hsame : ∀ n, n ∉ inc → table'.get? n = table.get? n)
    (hdefined : ∀ n ∈ inc, ∃ s, table'.get? n = some s ∧ ∃ w, Power.ofSector size s = .ok w)
    (hq : q.Sound grid size table' p.faults) (hholds : ∀ n, q.Holds n ↔ (p.queue.Holds n ∧ n ∉ out) ∨ n ∈ inc) :
    (p.exchanged size table table' out inc q).Sound grid size table' := by
  have hgo : ∀ n ∈ out, n ∈ p.liveSectors ∧ n ∉ p.faults ∧ n ∉ p.unproven := fun n hn =>
    mem_activeSectors.1 (hout n hn)
  have hlive : ∀ {n}, n ∈ (p.exchanged size table table' out inc q).liveSectors ↔ n ∈ (p.liveSectors \ out) ∪ inc :=
    hp.mem_liveSectors_exchanged (fun n hn => (hgo n hn).1) hnew
  have hstay : ∀ n ∈ p.liveSectors \ out, table'.get? n = table.get? n := by
    intro n hn
    obtain ⟨hn, hno⟩ := mem_sdiff.1 hn
    exact hsame n fun hi => hno (hnew n hi (mem_liveSectors.1 hn).1)
  have hunproven : ∀ n ∈ p.unproven, n ∈ p.liveSectors \ out := fun n hn =>
    mem_sdiff.2 ⟨hp.unproven_live n hn, fun ho => (hgo n ho).2.2 hn⟩
  have hfaults : ∀ n ∈ p.faults, n ∈ p.liveSectors \ out := fun n hn =>
    mem_sdiff.2 ⟨hp.faults_live n hn, fun ho => (hgo n ho).2.1 hn⟩
  have hpower : ∀ ns : NumberSet, (∀ n ∈ ns, n ∈ p.liveSectors \ out) →
      ns.total (table.powerAt size) = ns.total (table'.powerAt size) := fun ns hns =>
    total_congr fun n hn => (SectorTable.powerAt_congr (hstay n (hns n hn))).symm
  exact {
    unproven_live := fun n hn => hlive.2 (mem_union.2 (.inl (hunproven n hn)))
    faults_live := fun n hn => hlive.2 (mem_union.2 (.inl (hfaults n hn)))
    unproven_faults := hp.unproven_faults
    recoveries_faults := hp.recoveries_faults
    terminated_sectors := fun n hn => mem_union.2 (.inl (mem_sdiff.2
      ⟨hp.terminated_sectors n hn, fun ho => (mem_liveSectors.1 (hgo n ho).1).2 hn⟩))
    livePower_eq := by
      have hapart : ∀ n ∈ p.liveSectors \ out, n ∉ inc := by
        intro n hn hi
        obtain ⟨hn, hno⟩ := mem_sdiff.1 hn
        exact hno (hnew n hi (mem_liveSectors.1 hn).1)
      calc (p.exchanged size table table' out inc q).livePower
          = (p.livePower - out.total (table.powerAt size)) + inc.total (table'.powerAt size) := by
            simp only [Partition.exchanged]
            abel
        _ = (p.liveSectors \ out).total (table'.powerAt size) + inc.total (table'.powerAt size) := by
            rw [hp.livePower_eq, ← total_sdiff _ fun n hn => (hgo n hn).1, hpower _ fun n hn => hn]
        _ = ((p.liveSectors \ out) ∪ inc).total (table'.powerAt size) := (total_union _ hapart).symm
        _ = _ := total_congr_set _ fun n => hlive.symm
    unprovenPower_eq := hp.unprovenPower_eq.trans (hpower _ hunproven)
    faultyPower_eq := hp.faultyPower_eq.trans (hpower _ hfaults)
    recoveringPower_eq := hp.recoveringPower_eq.trans (hpower _ fun n hn => hfaults n (hp.recoveries_faults n hn))
    held := rfl
    queue_sound := hq
    live_iff := fun n => by
      rw [hlive, mem_union, mem_sdiff, hp.live_iff]
      exact (hholds n).symm
    recorded := fun n hn => by
      rcases mem_union.1 (hlive.1 hn) with hn | hn
      · rw [hstay n hn]
        exact hp.recorded n (mem_sdiff.1 hn).1
      · exact hdefined n hn }

/-- **A sound partition shows that those that came had no number of a sector that stayed.** -/
theorem Sound.apart_of_exchanged (hp : p.Sound grid size table) (hout : ∀ n ∈ out, n ∈ p.liveSectors)
    (hdefined : ∀ n ∈ inc, ∃ s, table'.get? n = some s ∧ ∃ w, Power.ofSector size s = .ok w)
    (hp' : (p.exchanged size table table' out inc q).Sound grid size table') :
    ∀ n ∈ inc, n ∈ p.sectors → n ∈ out := by
  set live' := (p.exchanged size table table' out inc q).liveSectors with hlive'
  have hbytes : (size.bytes : Int) ≠ 0 := by cases size <;> decide
  have hlive := raw_total_of_const (f := table.powerAt size) fun n hn => hp.raw_powerAt (n := n) hn
  have hgo := raw_total_of_const (f := table.powerAt size) fun n hn => hp.raw_powerAt (hout n hn)
  have hcome := raw_total_of_const (s := inc) (f := table'.powerAt size) (c := size.bytes) fun n hn => by
    obtain ⟨s, hs, w, hw⟩ := hdefined n hn
    exact SectorTable.raw_powerAt hs hw
  have hafter := raw_total_of_const (f := table'.powerAt size) fun n hn => hp'.raw_powerAt (n := n) hn
  -- the raw bytes of the live power, before and after, count the sectors
  have hraw : (live'.count : Int) * size.bytes =
      p.liveSectors.count * size.bytes + (inc.count * size.bytes - out.count * size.bytes) := by
    rw [← hafter, ← hlive, ← hcome, ← hgo, ← hp'.livePower_eq, ← hp.livePower_eq]
    rfl
  have hcount : (live'.count : Int) = p.liveSectors.count + (inc.count - out.count) := by
    rw [← sub_mul, ← add_mul] at hraw
    exact mul_right_cancel₀ hbytes hraw
  have hstay := count_sdiff hout
  have hle := count_le_of_subset hout
  obtain ⟨hapart, hall⟩ := apart_of_count (s := p.liveSectors \ out) (t := inc) (u := live')
    (fun n hn => of_mem_liveSectors_exchanged hn) (by omega)
  intro n hn hmem
  by_contra hno
  have hn' := (mem_liveSectors.1 (hall n (mem_union.2 (.inr hn)))).2
  exact hapart n (mem_sdiff.2 ⟨mem_liveSectors.2 ⟨hmem, hn'⟩, hno⟩) hn

/-- **What a replacement does.** The old sectors were all active; the sectors and the answered changes are those of
the exchange. With the new sectors stored in the table, the partition is sound again if and only if no new
sector has the number of one that stayed, be it active, faulty, unproven or ended. -/
theorem replaceSectors_sound_iff (hu : 0 < grid.unit) (hp : p.Sound grid size table)
    (hold : ∀ s ∈ old, table.Recorded s) (hnew : (new.map (·.number)).Nodup) (hstore : table.store new = .ok table')
    {w : Power} {x : Int} (h : p.replaceSectors grid size old new = .ok (p', w, x)) :
    let out := NumberSet.ofList (old.map (·.number))
    let inc := NumberSet.ofList (new.map (·.number))
    (∀ n ∈ out, n ∈ p.activeSectors) ∧ p'.sectors = (p.sectors \ out) ∪ inc ∧
      w = inc.total (table'.powerAt size) - out.total (table.powerAt size) ∧
      x = inc.total table'.pledgeAt - out.total table.pledgeAt ∧
      (p'.Sound grid size table' ↔ ∀ n ∈ inc, n ∈ p.sectors → n ∈ out) := by
  intro out inc
  obtain ⟨hthere, hother⟩ := SectorTable.recorded_of_store hstore hnew
  have hout : table.Covers old out := SectorTable.covers_ofList hold
  have hinc : table'.Lists new inc := SectorTable.lists_ofList hthere hnew
  obtain ⟨q₁, q, lot, lot', hrem, hadd, hactive, rfl, hw, hx⟩ := hp.of_replaceSectors hu hout hinc h
  have hgo : ∀ n ∈ out, n ∈ p.liveSectors ∧ n ∉ p.faults := fun n hn =>
    (mem_activeSectors.1 (hactive n hn)).imp_right And.left
  have hsame : ∀ n, n ∉ inc → table'.get? n = table.get? n := fun n hn =>
    hother n fun hmem => hn (mem_ofList.2 hmem)
  have hdefined : ∀ n ∈ inc, ∃ s, table'.get? n = some s ∧ ∃ w, Power.ofSector size s = .ok w := by
    intro n hn
    obtain ⟨s, hs, rfl⟩ := hinc.exists_of_mem hn
    exact ⟨s, hthere s hs, ExpirationQueue.defined_of_addActive hinc hadd s hs⟩
  refine ⟨hactive, rfl, hw, hx, hp.apart_of_exchanged (fun n hn => (hgo n hn).1) hdefined, fun hapart => ?_⟩
  have hinc_faults : ∀ n ∈ inc, n ∉ p.faults := fun n hn hf =>
    (hgo n (hapart n hn (mem_liveSectors.1 (hp.faults_live n hf)).1)).2 hf
  obtain ⟨hsound, hholds⟩ := hp.queue_sound.replace hu hout hinc (fun n hn => (hgo n hn).2) hinc_faults
    (fun n hn hh => hapart n hn (mem_liveSectors.1 ((hp.live_iff n).2 hh)).1) hsame hrem hadd
  exact hp.exchanged hactive hapart hsame hdefined hsound hholds

/-- The first sector with another expiration and pledge, and a sector with a number of its own. -/
def renewed : List Sector :=
  [{ number := 1, expiration := 12, pledge := 9 }, { number := 7, expiration := 30, pledge := 5 }]

/-- Of two proven sectors the first is replaced: once by its renewal and a new sector, once by the second one, which
stays. The second time the power and the pledge of one sector are there twice, and the sets show one sector. -/
theorem replaceSectors_sound_iff_sample :
    ∃ (p p₁ p₂ : Partition) (table₁ table₂ : SectorTable) (w₁ w₂ : Power) (x₁ x₂ : Int),
    p.Sound ⟨5, 0⟩ .kib2 (.ofList sample) ∧ (SectorTable.ofList sample).store renewed = .ok table₁ ∧
    p.replaceSectors ⟨5, 0⟩ .kib2 (sample.take 1) renewed = .ok (p₁, w₁, x₁) ∧ p₁.Sound ⟨5, 0⟩ .kib2 table₁ ∧
    (w₁, x₁) = (⟨2048, 2048⟩, 11) ∧ (SectorTable.ofList sample).store (sample.drop 1) = .ok table₂ ∧
    p.replaceSectors ⟨5, 0⟩ .kib2 (sample.take 1) (sample.drop 1) = .ok (p₂, w₂, x₂) ∧
    p₂.sectors = .ofList [2] ∧ p₂.livePower = ⟨4096, 4096⟩ ∧ ¬p₂.Sound ⟨5, 0⟩ .kib2 table₂ := by
  have hu : (0 : Int) < (⟨5, 0⟩ : Grid).unit := by decide
  have hrun : (do
      let p ← foldOutcome (Operation.apply ⟨5, 0⟩ .kib2 (.ofList sample)) {} [.addSectors true sample]
      let _ ← (SectorTable.ofList sample).store renewed
      let r₁ ← p.replaceSectors ⟨5, 0⟩ .kib2 (sample.take 1) renewed
      let _ ← (SectorTable.ofList sample).store (sample.drop 1)
      let r₂ ← p.replaceSectors ⟨5, 0⟩ .kib2 (sample.take 1) (sample.drop 1)
      return (p.sectors, r₁.2, r₂.1.livePower) : Outcome (NumberSet × (Power × Int) × Power)) =
      .ok (.ofList [1, 2], (⟨2048, 2048⟩, 11), ⟨4096, 4096⟩) := by decide +kernel
  simp only [bind_eq_ok, pure_eq_ok] at hrun
  obtain ⟨p, hp, table₁, hstore₁, ⟨p₁, w₁, x₁⟩, hop₁, table₂, hstore₂, ⟨p₂, w₂, x₂⟩, hop₂, heq⟩ := hrun
  simp only [Prod.mk.injEq] at heq
  obtain ⟨hsectors, ⟨rfl, rfl⟩, hpower⟩ := heq
  have hsound := sound_empty.run hu (SectorTable.keyed_ofList sample) (by decide +kernel) hp
  have hold : ∀ s ∈ sample.take 1, (SectorTable.ofList sample).Recorded s := fun s hs =>
    SectorTable.recorded_ofList (by decide) s (List.mem_of_mem_take hs)
  obtain ⟨-, -, -, -, hiff₁⟩ := replaceSectors_sound_iff hu hsound hold (by decide) hstore₁ hop₁
  obtain ⟨-, hsectors₂, -, -, hiff₂⟩ := replaceSectors_sound_iff hu hsound hold (by decide) hstore₂ hop₂
  rw [hsectors] at hiff₁ hiff₂ hsectors₂
  refine ⟨p, p₁, p₂, table₁, table₂, _, w₂, _, x₂, hsound, hstore₁, hop₁, hiff₁.2 ?_, rfl, hstore₂, hop₂, ?_, hpower,
    fun h => ?_⟩
  · intro n hn hmem
    rw [mem_ofList] at hn hmem ⊢
    simp only [renewed, sample, List.map_cons, List.map_nil, List.mem_cons, List.take_succ_cons, List.take_zero,
      List.not_mem_nil, or_false] at hn hmem ⊢
    omega
  · rw [hsectors₂]
    decide +kernel
  · exact absurd (hiff₂.1 h 2 (by decide +kernel) (by decide +kernel)) (by decide +kernel)

end SectorLedger.Partition
