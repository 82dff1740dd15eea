import SectorLedger.Proofs.Partition.Ending

/-!
# Nothing stops a partition from closing

When a window closes, a partition may miss its proof, and what is due ends. Each of these checks what it has done, and
refuses if something is not as it should be. A sound partition, whose sectors have no negative powers and pledges,
passes the checks.

* `Sound.validate`: the check at the end of every operation.
* `Sound.recordMissedProof_total`: a missed proof, if no sector is at an early place after the limit.
* `Sound.popExpired_total`: the end of what is due, if no sector is unproven or recovering.
-/

namespace SectorLedger.Partition

open NumberSet

variable {grid : Grid} {size : SectorSize} {table : SectorTable} {p p' : Partition}

/-- Powers and pledges of the live sectors are not negative. -/
def Nonneg (size : SectorSize) (table : SectorTable) (p : Partition) : Prop :=
  ∀ n ∈ p.liveSectors, (table.powerAt size n).Nonneg ∧ 0 ≤ table.pledgeAt n

instance : Decidable (p.Nonneg size table) :=
  decidable_of_iff (∀ n ∈ p.liveSectors.elements, (table.powerAt size n).Nonneg ∧ 0 ≤ table.pledgeAt n) <|
    forall_congr' fun _ => imp_congr_left mem_elements

theorem Nonneg.mono (h : p.Nonneg size table) (hlive : ∀ n ∈ p'.liveSectors, n ∈ p.liveSectors) :
    p'.Nonneg size table := fun n hn => h n (hlive n hn)

theorem Nonneg.faultyPower (h : p.Nonneg size table) (hp : p.Sound grid size table) : p.faultyPower.Nonneg := by
  rw [hp.faultyPower_eq]
  exact nonneg_total fun n hn => (h n (hp.faults_live n hn)).1

/-! ### The check at the end -/

theorem validatePower_eq_ok : p.validatePower = .ok () ↔
    p.livePower.Nonneg ∧ p.unprovenPower.Nonneg ∧ p.faultyPower.Nonneg ∧ p.recoveringPower.Nonneg ∧
      p.unprovenPower.raw ≤ p.livePower.raw ∧ p.faultyPower.raw ≤ p.livePower.raw ∧
      p.recoveringPower.raw ≤ p.livePower.raw ∧ p.recoveringPower.raw ≤ p.faultyPower.raw := by
  simp only [validatePower, refused_bind, ite_refused_eq_ok, pure_eq_ok, Power.Nonneg, not_or, not_lt, gt_iff_lt,
    and_true]

theorem validateSets_eq_ok : p.validateSets = .ok () ↔
    (∀ n, n ∈ p.unproven ∨ n ∈ p.faults → n ∉ p.terminated) ∧
      (∀ n, (n ∈ p.unproven ∨ n ∈ p.faults) ∨ n ∈ p.terminated → n ∈ p.sectors) ∧
      ∀ n ∈ p.recoveries, n ∈ p.faults := by
  simp only [validateSets, refused_bind, ite_refused_eq_ok, pure_eq_ok, containsAny_iff, Bool.not_eq_true',
    Bool.not_eq_false, containsAll_iff, mem_union, not_exists, not_and, and_true]

/-- A sound partition passes the check. -/
theorem Sound.validate (hp : p.Sound grid size table) (hn : p.Nonneg size table) : p.validate = .ok () := by
  have hraw : ∀ {s t : NumberSet}, (∀ n ∈ t, n ∈ p.liveSectors) → (∀ n ∈ s, n ∈ t) →
      (s.total (table.powerAt size)).raw ≤ (t.total (table.powerAt size)).raw := by
    intro s t ht hs
    rw [raw_total, raw_total]
    exact total_mono_set (fun n hm => (hn n (ht n hm)).1.1) hs
  have hnonneg : ∀ {s : NumberSet}, (∀ n ∈ s, n ∈ p.liveSectors) → (s.total (table.powerAt size)).Nonneg :=
    fun hs => nonneg_total fun n hm => (hn n (hs n hm)).1
  have hrecoveries : ∀ n ∈ p.recoveries, n ∈ p.liveSectors := fun n hm => hp.faults_live n (hp.recoveries_faults n hm)
  have hpower : p.validatePower = .ok () := by
    rw [validatePower_eq_ok, hp.livePower_eq, hp.unprovenPower_eq, hp.faultyPower_eq, hp.recoveringPower_eq]
    exact ⟨hnonneg fun n hm => hm, hnonneg hp.unproven_live, hnonneg hp.faults_live, hnonneg hrecoveries,
      hraw (fun n hm => hm) hp.unproven_live, hraw (fun n hm => hm) hp.faults_live,
      hraw (fun n hm => hm) hrecoveries, hraw hp.faults_live hp.recoveries_faults⟩
  have hpending : ∀ n, n ∈ p.unproven ∨ n ∈ p.faults → n ∈ p.liveSectors := fun n hm =>
    hm.elim (hp.unproven_live n) (hp.faults_live n)
  have hsets : p.validateSets = .ok () := validateSets_eq_ok.2
    ⟨fun n hm => (mem_liveSectors.1 (hpending n hm)).2,
      fun n hm => hm.elim (fun hm => (mem_liveSectors.1 (hpending n hm)).1) (hp.terminated_sectors n),
      hp.recoveries_faults⟩
  exact bind_eq_ok.2 ⟨(), hpower, hsets⟩

/-! ### A missed proof -/

/-- A sound partition can miss its proof, if no sector is at an early place after the limit. -/
theorem Sound.recordMissedProof_total (hu : 0 < grid.unit) (hp : p.Sound grid size table) (hn : p.Nonneg size table)
    {epoch limit : Int} (hup : grid.up epoch = .ok limit) (hlimit : 0 ≤ limit)
    (hearly : ∀ (k : Nat) n, n ∈ (p.queue.entry k).early → (k : Int) ≤ limit) :
    ∃ p' missed, p.recordMissedProof grid epoch = .ok (p', missed) := by
  obtain ⟨q, hq⟩ := hp.queue_sound.rescheduleAllAsFaults_total (fun n hm => hn n ((hp.live_iff n).2 hm)) hup hlimit
    hearly fun n hm => (hp.live_iff n).2 hm
  obtain ⟨hs, hfaulted⟩ := hp.allFaulty hu hq
  have hvalid := hs.validate (hn.mono fun n hm => hfaulted.keeps.liveSectors_eq ▸ hm)
  exact ⟨_, _, recordMissedProof_eq_ok.2 ⟨_, q, hp.held, hq, rfl, hvalid, rfl⟩⟩

/-! ### The end of what is due -/

/-- The sectors that are on time up to an epoch. -/
def dueOnTime (upTo : Int) (p : Partition) : NumberSet := (p.queue.popUntil upTo).2.onTime

theorem Sound.mem_dueOnTime (hp : p.Sound grid size table) {upTo : Int} {n : Nat} :
    n ∈ p.dueOnTime upTo ↔ ∃ k : Nat, (k : Int) ≤ upTo ∧ n ∈ (p.queue.entry k).onTime := by
  obtain ⟨-, -, -, hon, -⟩ := hp.queue_sound.popUntil (rfl : p.queue.popUntil upTo = _)
  exact hon n

/-- An epoch is a key of the finest grid. -/
theorem finest_up {upTo : Int} (h₀ : 0 ≤ upTo) (hr : Epoch.InRange upTo) :
    ∃ k : Nat, Grid.finest.up upTo = .ok (k : Int) ∧ k ≤ SparseArray.greatestIndex := by
  obtain ⟨k, rfl⟩ := Int.eq_ofNat_of_zero_le h₀
  have hup : Grid.finest.up k = .ok (k : Int) :=
    Grid.up_total (by decide) le_rfl h₀ (Grid.IsUp.self (by decide) (one_dvd _)) hr
  exact ⟨k, hup, SparseArray.le_greatestIndex_of_lt (Grid.key_lt_of_up hup)⟩

/-- What is due in a sound partition can end, if no sector is unproven or recovering. -/
theorem Sound.popExpired_total (hp : p.Sound grid size table) (hn : p.Nonneg size table) (hunproven : p.unproven = ∅)
    (hrecoveries : p.recoveries = ∅) (hearly : ∃ q, p.early = .held q) {upTo : Int} (h₀ : 0 ≤ upTo)
    (hr : Epoch.InRange upTo) : ∃ p' popped, p.popExpired upTo = .ok (p', popped) := by
  obtain ⟨q, hq⟩ := hearly
  obtain ⟨k, hup, hk⟩ := finest_up h₀ hr
  obtain ⟨q', hadd⟩ := NumberQueue.add_total (q := q) hup hk (p.queue.popUntil upTo).2.early
  obtain ⟨hs, hended⟩ := hp.expired hunproven hrecoveries (rfl : p.queue.popUntil upTo = _) (.held q')
  have hrecovering : p.recoveringPower = 0 := by rw [hp.recoveringPower_eq, hrecoveries, total_empty]
  have hvalid := hs.validate (hn.mono fun n hm => (mem_sdiff.1 (hended.liveSectors_eq ▸ hm)).1)
  exact ⟨_, _, popExpired_eq_ok.2 ⟨hunproven, hrecoveries, hrecovering, _, q, q', hp.held, rfl,
    fun n hm => (mem_liveSectors.1 (hended.live n hm)).2, hq, hadd, rfl, hvalid⟩⟩

end SectorLedger.Partition
