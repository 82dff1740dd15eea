import SectorLedger.Proofs.Partition.Ending

/-!
# Runs of a partition

Whatever is done to a new partition, it stays sound. Each operation keeps soundness on its own, so a run is an
induction over the operations.

* `Operation`: the operations, with their arguments.
* `Sound.apply`: what one operation keeps.
* `sound_of_run`: what a run keeps.
-/

namespace SectorLedger.Partition

open NumberSet

/-- An operation on a partition, with its arguments. -/
inductive Operation where
  | addSectors (proven : Bool) (sectors : List Sector)
  | declareFaults (numbers : NumberSet) (faultExpiration : Int)
  | declareRecovered (numbers : NumberSet)
  | recordSkippedFaults (faultExpiration : Int) (skipped : NumberSet)
  | recoverFaults
  | activateUnproven
  | terminateSectors (maxSectors : Nat) (epoch : Int) (numbers : NumberSet)
  | popExpired (upTo : Int)
  | recordMissedProof (faultExpiration : Int)
  | popEarlyTerminations (maxSectors : Nat)
  | rescheduleExpirations (newExpiration : Int) (numbers : NumberSet)
  deriving DecidableEq, Repr

variable (grid : Grid) (size : SectorSize) (table : SectorTable)

namespace Operation

/-- Sectors that are added are in the table, and no two have one number. -/
def Admissible : Operation → Prop
  | addSectors _ sectors => (∀ s ∈ sectors, table.Recorded s) ∧ (sectors.map (·.number)).Nodup
  | _ => True

instance : DecidablePred (Admissible table) := fun o => by
  cases o <;> unfold Admissible SectorTable.Recorded <;> infer_instance

/-- The partition after the operation. -/
def apply (p : Partition) : Operation → Outcome Partition
  | addSectors proven sectors => (·.1) <$> p.addSectors grid size proven sectors
  | declareFaults numbers epoch => (·.1) <$> p.declareFaults grid size table numbers epoch
  | declareRecovered numbers => p.declareRecovered size table numbers
  | recordSkippedFaults epoch skipped => (·.1) <$> p.recordSkippedFaults grid size table epoch skipped
  | recoverFaults => (·.1) <$> p.recoverFaults grid size table
  | activateUnproven => .ok p.activateUnproven.1
  | terminateSectors maxSectors epoch numbers =>
    (·.1) <$> Partition.terminateSectors grid size table maxSectors p epoch numbers
  | popExpired upTo => (·.1) <$> p.popExpired upTo
  | recordMissedProof epoch => (·.1) <$> p.recordMissedProof grid epoch
  | popEarlyTerminations maxSectors => (·.1) <$> p.popEarlyTerminations maxSectors
  | rescheduleExpirations epoch numbers => (·.1) <$> p.rescheduleExpirations grid size table epoch numbers

end Operation

variable {grid size table} {p p' : Partition}

/-- An operation keeps a partition sound. -/
theorem Sound.apply (hu : 0 < grid.unit) (hk : table.Keyed) (hp : p.Sound grid size table) {o : Operation}
    (ho : o.Admissible table) (h : o.apply grid size table p = .ok p') : p'.Sound grid size table := by
  cases o with
  | addSectors proven ss =>
    obtain ⟨⟨_, w⟩, hdone, rfl⟩ := map_eq_ok.1 h
    exact (hp.addSectors hu (SectorTable.lists_ofList ho.1 ho.2) hdone).1
  | declareFaults numbers epoch =>
    obtain ⟨⟨_, newFaults, fd⟩, hdone, rfl⟩ := map_eq_ok.1 h
    exact (hp.declareFaults hu hk hdone).1
  | declareRecovered numbers => exact (hp.declareRecovered hk h).1
  | recordSkippedFaults epoch skipped =>
    obtain ⟨⟨_, sf⟩, hdone, rfl⟩ := map_eq_ok.1 h
    exact (hp.recordSkippedFaults hu hk hdone).1
  | recoverFaults =>
    obtain ⟨⟨_, w⟩, hdone, rfl⟩ := map_eq_ok.1 h
    exact (hp.recoverFaults hu hk hdone).1
  | activateUnproven =>
    obtain rfl := Except.ok.inj h
    exact hp.activateUnproven
  | terminateSectors maxSectors epoch numbers =>
    obtain ⟨⟨_, removed⟩, hdone, rfl⟩ := map_eq_ok.1 h
    exact (hp.terminateSectors hu hk hdone).1
  | popExpired upTo =>
    obtain ⟨⟨_, popped⟩, hdone, rfl⟩ := map_eq_ok.1 h
    exact (hp.popExpired hdone).1
  | recordMissedProof epoch =>
    obtain ⟨⟨_, missed⟩, hdone, rfl⟩ := map_eq_ok.1 h
    exact (hp.recordMissedProof hu hdone).1
  | popEarlyTerminations maxSectors =>
    obtain ⟨⟨_, taken, more⟩, hdone, rfl⟩ := map_eq_ok.1 h
    exact (hp.popEarlyTerminations hdone).1
  | rescheduleExpirations epoch numbers =>
    obtain ⟨⟨_, moved⟩, hdone, rfl⟩ := map_eq_ok.1 h
    exact (hp.rescheduleExpirations hu hk hdone).1

/-- A sound partition is sound after a run of operations. -/
theorem Sound.run (hu : 0 < grid.unit) (hk : table.Keyed) (hp : p.Sound grid size table) {operations : List Operation}
    (hadmissible : ∀ o ∈ operations, o.Admissible table)
    (h : foldOutcome (Operation.apply grid size table) p operations = .ok p') : p'.Sound grid size table :=
  foldOutcome_invariant (I := fun _ p => p.Sound grid size table) h hp fun done o rest p p' hs hp ho =>
    hp.apply hu hk (hadmissible o (by simp [hs])) ho

/-- A live sector has exactly one place. -/
theorem Sound.existsUnique_place (hp : p.Sound grid size table) {n : Nat} (hn : n ∈ p.liveSectors) :
    ∃! k, n ∈ (p.queue.entry k).members := by
  obtain ⟨k, hk⟩ := (hp.live_iff n).1 hn
  exact ⟨k, hk, fun j hj => hp.queue_sound.once j k n hj hk⟩

/-- **A partition is sound after every run.** Its sets nest, its totals are exact, and its queue holds every live
sector at exactly one place and nothing else. -/
theorem sound_of_run (hu : 0 < grid.unit) (hk : table.Keyed) {operations : List Operation}
    (hadmissible : ∀ o ∈ operations, o.Admissible table)
    (h : foldOutcome (Operation.apply grid size table) {} operations = .ok p) :
    p.Sound grid size table ∧ ∀ n ∈ p.liveSectors, ∃! k, n ∈ (p.queue.entry k).members := by
  have hsound := sound_empty.run hu hk hadmissible h
  exact ⟨hsound, fun n hn => hsound.existsUnique_place hn⟩

/-- Two sectors. -/
def sample : List Sector :=
  [{ number := 1, expiration := 10, pledge := 3 }, { number := 2, expiration := 20, pledge := 4 }]

/-- Two sectors are added and proven, the first becomes faulty and ends before its time. -/
def sampleRun : List Operation :=
  [.addSectors false sample, .activateUnproven, .declareFaults (.ofList [1]) 3, .popExpired 5]

/-- Afterwards the second sector is left. -/
theorem sound_of_sampleRun : ∃ p,
    foldOutcome (Operation.apply ⟨5, 0⟩ .kib2 (.ofList sample)) {} sampleRun = .ok p ∧
    p.liveSectors = .ofList [2] ∧ p.terminated = .ofList [1] ∧ p.livePower = ⟨2048, 2048⟩ ∧
    p.Sound ⟨5, 0⟩ .kib2 (.ofList sample) ∧ ∀ n ∈ p.liveSectors, ∃! k, n ∈ (p.queue.entry k).members := by
  have hrun : ((foldOutcome (Operation.apply ⟨5, 0⟩ .kib2 (.ofList sample)) {} sampleRun).map fun p =>
      (p.liveSectors, p.terminated, p.livePower)) = .ok (.ofList [2], .ofList [1], ⟨2048, 2048⟩) := by decide +kernel
  obtain ⟨p, hp, heq⟩ := map_eq_ok.1 hrun
  obtain ⟨hlive, hterminated, hpower⟩ := by simpa using heq
  exact ⟨p, hp, hlive, hterminated, hpower,
    sound_of_run (by decide) (SectorTable.keyed_ofList sample) (by decide +kernel) hp⟩

end SectorLedger.Partition
