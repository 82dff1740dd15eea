import SectorLedger.Proofs.Deadline.Compacting
import SectorLedger.Proofs.Deadline.Ending
import SectorLedger.Proofs.Deadline.Faulting
import SectorLedger.Proofs.Deadline.Filling
import SectorLedger.Proofs.Partition.Run
import Mathlib.Data.Finset.Order

/-!
# A deadline stays sound

The expirations of faults only grow along a run, as the clock does. An operation that brings faults needs that the
faults before it expire no later than its own; all the others keep the invariant at any floor.

* `Invariant.apply`: what one operation keeps.
* `invariant_of_run`: what a run keeps, at every floor above its fault expirations.
* `sound_of_ascending_run`: a deadline is sound after every run.
-/

namespace SectorLedger.Deadline

open SparseArray

variable {grid : Grid} {size : SectorSize} {table : SectorTable} {floor : Int} {d d' : Deadline} {w : Power}

/-- An operation keeps the invariant, if its faults expire at the floor. -/
theorem Invariant.apply (hu : 0 < grid.unit) (hk : table.Keyed) (h : d.Invariant grid size table floor)
    {o : Operation} (ho : o.Admissible grid size table d) (hfloor : ∀ e ∈ o.faultExpiration?, e = floor)
    (hop : o.apply grid size table d = .ok (d', w)) : d'.Invariant grid size table floor := by
  cases o with
  | addSectors partitionSize proven ss =>
    obtain ⟨⟨hrec, hnodup⟩, hfresh⟩ := ho
    exact h.addSectors hu hrec hnodup (fun s hs j p hp => hfresh (j, p) (mem_entries.2 hp) s hs) hop
  | declareFaults epoch map =>
    obtain rfl := hfloor epoch rfl
    exact h.declareFaults hu hk hop
  | declareRecovered map =>
    obtain ⟨_, hdone, heq⟩ := map_eq_ok.1 hop
    exact (Prod.mk.inj heq).1 ▸ h.declareRecovered hk hdone
  | recordProven epoch proofs =>
    obtain rfl := hfloor epoch rfl
    obtain ⟨⟨_, r⟩, hdone, heq⟩ := map_eq_ok.1 hop
    exact (Prod.mk.inj heq).1 ▸ h.recordProven hu hk hdone
  | processEnd epoch =>
    obtain rfl := hfloor epoch rfl
    obtain ⟨⟨_, r⟩, hdone, heq⟩ := map_eq_ok.1 hop
    exact (Prod.mk.inj heq).1 ▸ h.processEnd hu hdone
  | popExpired upTo =>
    obtain ⟨⟨_, e⟩, hdone, heq⟩ := map_eq_ok.1 hop
    exact (Prod.mk.inj heq).1 ▸ (h.popExpired hdone).1
  | terminateSectors maxSectors epoch map =>
    obtain ⟨⟨_, lost⟩, hdone, heq⟩ := map_eq_ok.1 hop
    exact (Prod.mk.inj heq).1 ▸ h.terminateSectors hu hk hdone
  | popEarlyTerminations maxPartitions maxSectors =>
    obtain ⟨⟨_, taken, more⟩, hdone, heq⟩ := map_eq_ok.1 hop
    exact (Prod.mk.inj heq).1 ▸ h.popEarlyTerminations hdone
  | removePartitions toRemove =>
    obtain ⟨⟨_, r⟩, hdone, heq⟩ := map_eq_ok.1 hop
    exact (Prod.mk.inj heq).1 ▸ h.removePartitions hdone
  | rescheduleExpirations epoch map =>
    obtain ⟨⟨_, moved⟩, hdone, heq⟩ := map_eq_ok.1 hop
    have hearlier : ∀ s ∈ moved, epoch ≤ s.expiration := by
      have hmoved := ho.2
      simp only [hdone] at hmoved
      exact hmoved
    exact (Prod.mk.inj heq).1 ▸ h.rescheduleExpirations hu hk hdone hearlier

/-- A run keeps the invariant, at every floor that is not below its fault expirations. -/
theorem invariant_of_run (hu : 0 < grid.unit) (hk : table.Keyed) {os : List Operation}
    (h : Run grid size table (Operation.Admissible grid size table) os d w)
    (hmono : (os.filterMap Operation.faultExpiration?).Pairwise (· ≤ ·)) (floor : Int)
    (hfloor : ∀ e ∈ os.filterMap Operation.faultExpiration?, e ≤ floor) : d.Invariant grid size table floor := by
  induction h generalizing floor with
  | start => exact invariant_empty
  | @step os d d' w w' o run ho hop ih =>
    rw [List.filterMap_append, List.pairwise_append] at hmono
    obtain ⟨hmono, -, hle⟩ := hmono
    simp only [List.filterMap_append, List.mem_append] at hfloor
    have hlast : ∀ e ∈ o.faultExpiration?, e ∈ [o].filterMap Operation.faultExpiration? := fun e he =>
      List.mem_filterMap.2 ⟨o, List.mem_cons_self, he⟩
    cases hexp : o.faultExpiration? with
    | none =>
      have hd := ih hmono floor fun e he => hfloor e (.inl he)
      exact hd.apply hu hk ho (fun e he => by rw [hexp] at he; cases he) hop
    | some epoch =>
      have hlast := hlast epoch hexp
      have hd := ih hmono epoch fun e he => hle e he epoch hlast
      refine (hd.apply hu hk ho (fun e he => ?_) hop).mono (hfloor epoch (.inr hlast))
      rw [hexp] at he
      exact (Option.some.inj he).symm

/-- **A deadline is sound after every run** in which the fault expirations never decrease. -/
theorem sound_of_ascending_run (hu : 0 < grid.unit) (hk : table.Keyed) {os : List Operation}
    (h : Run grid size table (Operation.Admissible grid size table) os d w)
    (hmono : (os.filterMap Operation.faultExpiration?).Pairwise (· ≤ ·)) : d.Sound grid size table := by
  obtain ⟨floor, hfloor⟩ := (os.filterMap Operation.faultExpiration?).toFinset.exists_le
  exact (invariant_of_run hu hk h hmono floor fun e he => hfloor e (List.mem_toFinset.2 he)).sound

/-- Two sectors in two partitions. The first becomes faulty twice, the second is moved, and both end. -/
def sampleOperations : List Operation :=
  [.addSectors 1 true Partition.sample, .declareFaults 3 (PartitionSectors.ofList [(0, .ofList [1])]),
    .declareRecovered (PartitionSectors.ofList [(0, .ofList [1])]), .recordProven 8 [⟨0, ∅⟩], .processEnd 8,
    .declareRecovered (PartitionSectors.ofList [(1, .ofList [2])]), .recordProven 9 [⟨1, ∅⟩, ⟨0, .ofList [1]⟩],
    .rescheduleExpirations 12 (PartitionSectors.ofList [(1, .ofList [2])]), .popExpired 14]

/-- The first sector has ended early and is still to be settled. -/
theorem sound_of_sampleOperations : ∃ d w,
    Run ⟨5, 4⟩ .kib2 (.ofList Partition.sample) (Operation.Admissible ⟨5, 4⟩ .kib2 (.ofList Partition.sample))
      sampleOperations d w ∧
    (sampleOperations.filterMap Operation.faultExpiration?).Pairwise (· ≤ ·) ∧
    d.live = 0 ∧ d.total = 2 ∧ d.early = .ofList [0] ∧ d.Sound ⟨5, 4⟩ .kib2 (.ofList Partition.sample) := by
  have hrun : ((follow ⟨5, 4⟩ .kib2 (.ofList Partition.sample)
      (Operation.Admissible ⟨5, 4⟩ .kib2 (.ofList Partition.sample)) sampleOperations ({}, 0)).map fun s =>
        (s.1.live, s.1.total, s.1.early)) = some (0, 2, .ofList [0]) := by decide +kernel
  have hmono : (sampleOperations.filterMap Operation.faultExpiration?).Pairwise (· ≤ ·) := by decide
  obtain ⟨⟨d, w⟩, hfollow, heq⟩ := Option.map_eq_some_iff.1 hrun
  obtain ⟨hlive, htotal, hearly⟩ := by simpa using heq
  have hd := Run.of_follow .start hfollow
  exact ⟨d, w, hd, hmono, hlive, htotal, hearly,
    sound_of_ascending_run (by decide) (SectorTable.keyed_ofList Partition.sample) hd hmono⟩

end SectorLedger.Deadline
