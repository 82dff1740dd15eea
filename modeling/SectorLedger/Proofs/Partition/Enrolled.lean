import SectorLedger.Proofs.Expiration.Locatable
import SectorLedger.Proofs.Partition.Run

/-!
# Live sectors have come into the queue

Every live sector was added once, and came into the queue at its own expiration then. So the partition knows more of
its live sectors than soundness says: their own expirations are keys, and their numbers can be in a set. Wherever they
were moved since, they can be looked for.

* `Partition.Enrolled`: a sound partition that knows this.
* `Enrolled.apply`, `enrolled_of_run`: it is kept by every operation, and so by every run.
-/

namespace SectorLedger.Partition

open NumberSet ExpirationQueue

variable {grid : Grid} {size : SectorSize} {table : SectorTable} {p p' : Partition}

/-- A sound partition whose live sectors have come into the queue at their own expirations. -/
structure Enrolled (grid : Grid) (size : SectorSize) (table : SectorTable) (p : Partition) : Prop
    extends p.Sound grid size table where
  /-- What is known of sectors that have come into a queue. -/
  enterable : Enterable grid table p.liveSectors

theorem enrolled_empty : Enrolled grid size table {} where
  toSound := sound_empty
  enterable n hn := absurd (liveSectors_empty ▸ hn) (not_mem_empty n)

/-- A partition without new live sectors stays enrolled. -/
theorem Enrolled.of_live (hp : p.Enrolled grid size table) (hs : p'.Sound grid size table)
    (hlive : ∀ n ∈ p'.liveSectors, n ∈ p.liveSectors) : p'.Enrolled grid size table :=
  ⟨hs, fun n hn => hp.enterable n (hlive n hn)⟩

theorem Enrolled.addSectors (hu : 0 < grid.unit) (hp : p.Enrolled grid size table) {ss : List Sector} {ns : NumberSet}
    (hl : table.Lists ss ns) {proven : Bool} {w : Power} (h : p.addSectors grid size proven ss = .ok (p', w)) :
    p'.Enrolled grid size table := by
  obtain ⟨hs, -, hsectors, hterminated, -⟩ := hp.toSound.addSectors hu hl h
  simp only [Partition.addSectors, bind_eq_ok, noting_eq_ok] at h
  obtain ⟨q, -, ⟨q₁, lot⟩, hadd, -⟩ := h
  refine ⟨hs, fun n hn => ?_⟩
  rw [mem_liveSectors, hsectors, hterminated, mem_union] at hn
  rcases hn with ⟨hn | hn, hlive⟩
  · exact hp.enterable n (mem_liveSectors.2 ⟨hn, hlive⟩)
  · exact enterable_of_addActive hl hadd n hn

/-- **An operation keeps a partition enrolled.** Only new sectors become live, and they come into the queue. -/
theorem Enrolled.apply (hu : 0 < grid.unit) (hk : table.Keyed) (hp : p.Enrolled grid size table) {o : Operation}
    (ho : o.Admissible table) (h : o.apply grid size table p = .ok p') : p'.Enrolled grid size table := by
  have hs := hp.toSound.apply hu hk ho h
  have of_keeps : Keeps p p' → p'.Enrolled grid size table := fun hkeeps =>
    hp.of_live hs fun n hn => hkeeps.liveSectors_eq ▸ hn
  have of_ended : ∀ {ns}, Ended ns p p' → p'.Enrolled grid size table := fun hended =>
    hp.of_live hs fun n hn => (mem_sdiff.1 (hended.liveSectors_eq ▸ hn)).1
  cases o with
  | addSectors proven ss =>
    obtain ⟨⟨_, w⟩, hdone, rfl⟩ := map_eq_ok.1 h
    exact hp.addSectors hu (SectorTable.lists_ofList ho.1 ho.2) hdone
  | declareFaults numbers epoch =>
    obtain ⟨⟨_, newFaults, fd⟩, hdone, rfl⟩ := map_eq_ok.1 h
    exact of_keeps (hp.toSound.declareFaults hu hk hdone).2.1.keeps
  | declareRecovered numbers => exact of_keeps (hp.toSound.declareRecovered hk h).2.1
  | recordSkippedFaults epoch skipped =>
    obtain ⟨⟨_, sf⟩, hdone, rfl⟩ := map_eq_ok.1 h
    obtain ⟨-, newFaults, hfaulted, -⟩ := hp.toSound.recordSkippedFaults hu hk hdone
    exact of_keeps hfaulted.keeps
  | recoverFaults =>
    obtain ⟨⟨_, w⟩, hdone, rfl⟩ := map_eq_ok.1 h
    exact of_keeps (hp.toSound.recoverFaults hu hk hdone).2.1
  | activateUnproven =>
    obtain rfl := Except.ok.inj h
    exact of_keeps ⟨rfl, rfl, rfl⟩
  | terminateSectors maxSectors epoch numbers =>
    obtain ⟨⟨_, removed⟩, hdone, rfl⟩ := map_eq_ok.1 h
    exact of_ended (hp.toSound.terminateSectors hu hk hdone).2.1
  | popExpired upTo =>
    obtain ⟨⟨_, popped⟩, hdone, rfl⟩ := map_eq_ok.1 h
    exact of_ended (hp.toSound.popExpired hdone).2.1
  | recordMissedProof epoch =>
    obtain ⟨⟨_, missed⟩, hdone, rfl⟩ := map_eq_ok.1 h
    exact of_keeps (hp.toSound.recordMissedProof hu hdone).2.1.keeps
  | popEarlyTerminations maxSectors =>
    obtain ⟨⟨_, taken, more⟩, hdone, rfl⟩ := map_eq_ok.1 h
    obtain ⟨-, hsectors, hterminated, -⟩ := hp.toSound.popEarlyTerminations hdone
    refine hp.of_live hs fun n hn => ?_
    rwa [liveSectors, hsectors, hterminated] at hn
  | rescheduleExpirations epoch numbers =>
    obtain ⟨⟨_, moved⟩, hdone, rfl⟩ := map_eq_ok.1 h
    exact of_keeps (hp.toSound.rescheduleExpirations hu hk hdone).2.1

/-- A partition is enrolled after every run. -/
theorem enrolled_of_run (hu : 0 < grid.unit) (hk : table.Keyed) {operations : List Operation}
    (hadmissible : ∀ o ∈ operations, o.Admissible table)
    (h : foldOutcome (Operation.apply grid size table) {} operations = .ok p) : p.Enrolled grid size table :=
  foldOutcome_invariant (I := fun _ p => p.Enrolled grid size table) h enrolled_empty fun done o rest p p' hs hp ho =>
    hp.apply hu hk (hadmissible o (by simp [hs])) ho

end SectorLedger.Partition
