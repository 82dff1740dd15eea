import SectorLedger.Proofs.Partition.Declaring
import SectorLedger.Proofs.Partition.Enrolled

/-!
# Two ways to miss a proof

A missed proof makes the whole queue faulty at once and takes the powers from the totals. Declaring every live sector
faulty looks for the sectors that are not faulty yet, one by one, and adds up their powers. If no faulty sector is due
after the fault's expiration, both succeed and lead to the same partition. Only the second way looks for sectors at
their own expirations, which have to be keys then. Where the sectors are due is another matter.

* `Sound.declarable_liveSectors`: when every live sector can be declared faulty.
* `Sound.eq_of_missed_of_declared`, `recordMissedProof_eq_declareFaults`: the two ways agree.
* `unlocatable_of_bygone`: a sound partition where only a missed proof succeeds.
-/

namespace SectorLedger.Partition

open NumberSet

variable {grid : Grid} {size : SectorSize} {table : SectorTable} {p p₁ p₂ : Partition} {epoch limit : Int}

/-- The live sectors that are not faulty yet become faulty when all are declared so. -/
theorem Sound.newFaultsAmong_liveSectors (hp : p.Sound grid size table) :
    p.newFaultsAmong p.liveSectors = p.liveSectors \ p.faults := by
  ext n
  have := hp.recoveries_faults n
  simp only [newFaultsAmong, mem_sdiff, mem_inter, mem_liveSectors]
  tauto

/-- All live sectors can be declared faulty, if those that are not faulty yet can be looked for. -/
theorem Sound.declarable_liveSectors (hp : p.Sound grid size table)
    (hindex : ∀ n ∈ p.liveSectors, n ≤ SparseArray.greatestIndex)
    (hdue : ∀ n ∈ p.liveSectors \ p.faults, ∃ k, table.DueAt grid n k) (hup : grid.up epoch = .ok limit)
    (hlimit : 0 ≤ limit) : p.Declarable grid table epoch p.liveSectors where
  assigned n hn := (mem_liveSectors.1 hn).1
  enterable n hn := by
    rw [hp.newFaultsAmong_liveSectors] at hn
    exact ⟨hdue n hn, hindex n (mem_sdiff.1 hn).1⟩
  limit _ := by
    obtain ⟨k, rfl⟩ := Int.eq_ofNat_of_zero_le hlimit
    exact ⟨k, hup⟩
  loadable n hn := hindex n (mem_inter.1 hn).2

/-! ### The two ways agree -/

/-- In either case exactly the live sectors are faulty then. -/
theorem Sound.faults_of_newFaults (hp : p.Sound grid size table)
    (hby : FaultedBy grid epoch (p.liveSectors \ p.faults) p p₂) : p₂.faults = p.liveSectors := by
  rw [hby.faults_eq]
  ext n
  have := hp.faults_live n
  simp only [mem_union, mem_sdiff]
  tauto

/-- The sectors are at the same places, whether all of them move or only those that are not faulty yet. -/
theorem Sound.queue_eq_of_faultedBy (hs₁ : p₁.Sound grid size table) (hs₂ : p₂.Sound grid size table)
    (hfaults : p₁.faults = p₂.faults) (hup : grid.up epoch = .ok limit)
    (hplaced : ∀ n ∈ p.faults, ∀ k : Nat, n ∈ (p.queue.entry k).members → (k : Int) ≤ limit)
    (hby₁ : FaultedBy grid epoch p.liveSectors p p₁)
    (hby₂ : FaultedBy grid epoch (p.liveSectors \ p.faults) p p₂) : p₁.queue = p₂.queue := by
  obtain ⟨limit₁, hup₁, hmoved₁, -⟩ := hby₁.moved
  obtain ⟨limit₂, hup₂, hmoved₂, -⟩ := hby₂.moved
  have hlimit₁ : ∀ n ∈ p.liveSectors, limit₁ = limit := fun n hm =>
    Except.ok.inj ((hup₁ fun he => not_mem_empty n (he ▸ hm)).symm.trans hup)
  refine hs₁.queue_sound.eq_of_faulted (hfaults ▸ hs₂.queue_sound) hmoved₁ hmoved₂ (fun n hm => (mem_sdiff.1 hm).1)
    (fun n hm hno k hk => ?_) fun n hm => ?_
  · have hf : n ∈ p.faults := by
      by_contra hf
      exact hno (mem_sdiff.2 ⟨hm, hf⟩)
    exact hlimit₁ n hm ▸ hplaced n hf k (ExpirationSet.mem_members.2 (.inl hk))
  · have hup₂ := hup₂ fun he => not_mem_empty n (he ▸ hm)
    exact (hlimit₁ n (mem_sdiff.1 hm).1).trans (Except.ok.inj (hup.symm.trans hup₂))

/-- Both ways lead to the same partition, if the sectors that are faulty already are due by the fault's expiration. -/
theorem Sound.eq_of_missed_of_declared (hu : 0 < grid.unit) (hk : table.Keyed) (hp : p.Sound grid size table)
    (hup : grid.up epoch = .ok limit)
    (hplaced : ∀ n ∈ p.faults, ∀ k : Nat, n ∈ (p.queue.entry k).members → (k : Int) ≤ limit) {missed : MissedProof}
    {fd : FaultDelta} (hmissed : p.recordMissedProof grid epoch = .ok (p₁, missed))
    (hdeclared : p.declareFaults grid size table p.liveSectors epoch = .ok (p₂, p.liveSectors \ p.faults, fd)) :
    p₁ = p₂ := by
  obtain ⟨hs₁, hby₁, hunproven₁, hrecoveries₁, hfaults₁⟩ := hp.recordMissedProof hu hmissed
  obtain ⟨hs₂, hby₂, hrecoveries₂⟩ := hp.declareFaults hu hk hdeclared
  have hfaults₂ := hp.faults_of_newFaults hby₂
  have hfaults := hfaults₁.trans hfaults₂.symm
  refine hs₁.ext hs₂ ⟨?_, ?_, ?_⟩ ?_ hfaults ?_ (hs₁.queue_eq_of_faultedBy hs₂ hfaults hup hplaced hby₁ hby₂)
  · rw [hby₁.keeps.sectors_eq, hby₂.keeps.sectors_eq]
  · rw [hby₁.keeps.terminated_eq, hby₂.keeps.terminated_eq]
  · rw [hby₁.keeps.early_eq, hby₂.keeps.early_eq]
  · -- whoever were unproven would be live, and so faulty
    refine hunproven₁.trans (eq_empty_iff.2 fun n hm => hs₂.unproven_faults n hm ?_).symm
    rw [hfaults₂, ← hby₂.keeps.liveSectors_eq]
    exact hs₂.unproven_live n hm
  · refine hrecoveries₁.trans (eq_empty_iff.2 fun n hm => ?_).symm
    rw [hrecoveries₂, mem_sdiff] at hm
    exact hm.2 (hp.faults_live n (hp.recoveries_faults n hm.1))

/-- **A missed proof and the declaration of every live sector agree.** Both succeed and lead to the same partition, if
the sectors that are not faulty yet have expirations of their own that are keys. They report the same change of active
power and the same new faults; the penalty is due for these and for what was recovering. -/
theorem recordMissedProof_eq_declareFaults (hu : 0 < grid.unit) (hk : table.Keyed) (hp : p.Sound grid size table)
    (hn : p.Nonneg size table) (hindex : ∀ n ∈ p.liveSectors, n ≤ SparseArray.greatestIndex)
    (hdue : ∀ n ∈ p.liveSectors \ p.faults, ∃ k, table.DueAt grid n k) (hup : grid.up epoch = .ok limit)
    (hlimit : 0 ≤ limit) (hplaced : ∀ n ∈ p.faults, ∀ k : Nat, n ∈ (p.queue.entry k).members → (k : Int) ≤ limit) :
    ∃ p' missed fd, p.recordMissedProof grid epoch = .ok (p', missed) ∧
      p.declareFaults grid size table p.liveSectors epoch = .ok (p', p.liveSectors \ p.faults, fd) ∧
      missed.delta = fd.delta ∧ missed.newlyFaulty = fd.newlyFaulty ∧
      missed.penalized = missed.newlyFaulty + p.recoveringPower := by
  obtain ⟨p₁, missed, hmissed⟩ := hp.recordMissedProof_total hu hn hup hlimit fun k n he =>
    hplaced n ((hp.queue_sound.exact k).early_faulty n he) k (ExpirationSet.mem_members.2 (.inr he))
  obtain ⟨p₂, fd, hdeclared⟩ :=
    hp.declareFaults_total hu hk hn (hp.declarable_liveSectors hindex hdue hup hlimit)
  rw [hp.newFaultsAmong_liveSectors] at hdeclared
  obtain rfl := hp.eq_of_missed_of_declared hu hk hup hplaced hmissed hdeclared
  obtain ⟨hdelta₁, hnewly₁⟩ := powers_of_recordMissedProof hmissed
  obtain ⟨hdelta₂, hnewly₂⟩ := powers_of_declareFaults hdeclared
  obtain ⟨q, q', -, -, -, -, rfl⟩ := recordMissedProof_eq_ok.1 hmissed
  exact ⟨p₁, _, fd, hmissed, hdeclared, add_left_cancel (hdelta₁.symm.trans hdelta₂),
    add_left_cancel (hnewly₁.symm.trans hnewly₂), add_comm _ _⟩

/-- Five sectors. -/
def fiveSectors : List Sector :=
  [{ number := 1, expiration := 10, pledge := 3 }, { number := 2, expiration := 12, pledge := 4 },
    { number := 3, expiration := 30, pledge := 5 }, { number := 4, expiration := 40, pledge := 6 },
    { number := 5, expiration := 50, pledge := 7 }]

/-- The first sector is active, the second faulty, the third recovering, the fourth terminated and the last
unproven. -/
def mixedRun : List Operation :=
  [.addSectors true (fiveSectors.take 4), .addSectors false (fiveSectors.drop 4), .declareFaults (.ofList [2]) 13,
    .declareFaults (.ofList [3]) 13, .declareRecovered (.ofList [3]), .terminateSectors 10 4 (.ofList [4])]

/-- The first and the last become faulty, and the penalty is due for the third as well. -/
theorem missedProof_of_mixedRun : ∃ p p' missed fd,
    foldOutcome (Operation.apply ⟨5, 0⟩ .kib2 (.ofList fiveSectors)) {} mixedRun = .ok p ∧
    p.recordMissedProof ⟨5, 0⟩ 14 = .ok (p', missed) ∧
    p.declareFaults ⟨5, 0⟩ .kib2 (.ofList fiveSectors) p.liveSectors 14 = .ok (p', .ofList [1, 5], fd) ∧
    missed.delta = fd.delta ∧ missed.newlyFaulty = fd.newlyFaulty ∧ fd.newlyFaulty = ⟨4096, 4096⟩ ∧
    fd.delta = ⟨-2048, -2048⟩ ∧ missed.penalized = ⟨6144, 6144⟩ := by
  have hu : (0 : Int) < (⟨5, 0⟩ : Grid).unit := by decide
  have hk := SectorTable.keyed_ofList fiveSectors
  have hrun : ((foldOutcome (Operation.apply ⟨5, 0⟩ .kib2 (.ofList fiveSectors)) {} mixedRun).map fun p =>
      (decide (p.Nonneg .kib2 (.ofList fiveSectors)), p.liveSectors \ p.faults,
        decide (∀ e ∈ p.queue.entries, ∀ n ∈ p.faults.elements, n ∈ e.2.members → (e.1 : Int) ≤ 15),
        (p.recordMissedProof ⟨5, 0⟩ 14).map (·.2))) = .ok (true, .ofList [1, 5], true,
          .ok { delta := ⟨-2048, -2048⟩, penalized := ⟨6144, 6144⟩, newlyFaulty := ⟨4096, 4096⟩ }) := by
    decide +kernel
  obtain ⟨p, hp, heq⟩ := map_eq_ok.1 hrun
  simp only [Prod.mk.injEq, decide_eq_true_eq] at heq
  obtain ⟨hnonneg, hnew, hplaced, hmissed⟩ := heq
  obtain ⟨⟨_, missed⟩, hmissed, rfl⟩ := map_eq_ok.1 hmissed
  have henrolled := enrolled_of_run hu hk (by decide +kernel) hp
  obtain ⟨p', missed', fd, hmissed', hdeclared, hdelta, hnewly, -⟩ :=
    recordMissedProof_eq_declareFaults hu hk henrolled.toSound hnonneg (fun n hn => (henrolled.enterable n hn).2)
      (fun n hn => (henrolled.enterable n (mem_sdiff.1 hn).1).1)
      (by decide : (⟨5, 0⟩ : Grid).up 14 = .ok 15) (by decide) fun n hn k hk =>
        have hentry := SparseArray.mem_entries.2 (ExpirationQueue.get?_of_mem hk)
        hplaced (k, p.queue.entry k) hentry n (mem_elements.2 hn) hk
  obtain ⟨rfl, rfl⟩ := Prod.mk.inj (Except.ok.inj (hmissed'.symm.trans hmissed))
  exact ⟨p, p', _, fd, hp, hmissed', hnew ▸ hdeclared, hdelta, hnewly, hnewly.symm, hdelta.symm, rfl⟩

/-- A sector that had expired before the first epoch. -/
def bygone : Sector := { number := 1, activation := -20, expiration := -5, pledge := 3 }

/-- A partition may have only this sector, and have it due later. It is sound, and a missed proof makes the sector
faulty. Declared faulty, the sector is first looked for at its own expiration, and nothing can be there. -/
theorem unlocatable_of_bygone :
    let p := alone bygone ⟨2048, 2048⟩ 10
    p.Sound ⟨1, 0⟩ .kib2 (.ofList [bygone]) ∧ p.Nonneg .kib2 (.ofList [bygone]) ∧ p.faults = ∅ ∧
      (∀ n ∈ p.liveSectors, n ≤ SparseArray.greatestIndex) ∧ (⟨1, 0⟩ : Grid).up 8 = .ok 8 ∧
      (∃ r, p.recordMissedProof ⟨1, 0⟩ 8 = .ok r) ∧
      ∀ r, p.declareFaults ⟨1, 0⟩ .kib2 (.ofList [bygone]) p.liveSectors 8 ≠ .ok r := by
  intro p
  have hsound : p.Sound ⟨1, 0⟩ .kib2 (.ofList [bygone]) :=
    sound_alone (SectorTable.recorded_ofList (by decide) bygone List.mem_cons_self) (by decide +kernel)
      (show (1 : Int) ∣ 10 - 0 by decide) (by decide)
  refine ⟨hsound, by decide +kernel, rfl, fun n hn => ?_, by decide, ?_, fun r hr => ?_⟩
  · rw [liveSectors_alone, mem_singleton] at hn
    exact hn ▸ (by decide : (1 : Nat) ≤ SparseArray.greatestIndex)
  · have hrun : ((p.recordMissedProof ⟨1, 0⟩ 8).map fun r => r.2.newlyFaulty) = .ok ⟨2048, 2048⟩ := by decide +kernel
    obtain ⟨r, hr, -⟩ := map_eq_ok.1 hrun
    exact ⟨r, hr⟩
  · have hrun : (p.declareFaults ⟨1, 0⟩ .kib2 (.ofList [bygone]) p.liveSectors 8).isOk = false := by decide +kernel
    rw [hr] at hrun
    cases hrun

end SectorLedger.Partition
