import SectorLedger.Proofs.Deadline.Everywhere

/-!
# Every partition of a deadline is sound

Operations on partitions keep them sound, if the sectors that are added are in the table. So every partition is sound,
whatever is done to the deadline.

* `Partition.stable_sound`: what operations on partitions keep.
* `partsSound_of_run`: what a run keeps.
-/

namespace SectorLedger

variable {grid : Grid} {size : SectorSize} {table : SectorTable}

/-- The sectors are in the table, and no two have one number. -/
def SectorTable.Knows (table : SectorTable) (ss : List Sector) : Prop :=
  (∀ s ∈ ss, table.Recorded s) ∧ (ss.map (·.number)).Nodup

theorem SectorTable.knows_nil : table.Knows [] := ⟨fun _ hs => absurd hs List.not_mem_nil, List.nodup_nil⟩

theorem Partition.Operation.admissible_iff {o : Partition.Operation} : o.Admissible table ↔ table.Knows o.added := by
  cases o with
  | addSectors proven ss => exact Iff.rfl
  | _ => exact iff_of_true trivial SectorTable.knows_nil

theorem Deadline.Operation.recorded_iff {o : Deadline.Operation} : o.Recorded table ↔ table.Knows o.added := by
  cases o with
  | addSectors k proven ss => exact Iff.rfl
  | _ => exact iff_of_true trivial SectorTable.knows_nil

/-- Partitions stay sound, if the sectors that are added are in the table. -/
theorem Partition.stable_sound (hu : 0 < grid.unit) (hk : table.Keyed) :
    Partition.Stable grid size table table.Knows (·.Sound grid size table) where
  empty := Partition.sound_empty
  apply hp ho hop := hp.apply hu hk (Partition.Operation.admissible_iff.2 ho) hop
  nil := SectorTable.knows_nil
  sublist h hsub := ⟨fun s hs => h.1 s (hsub.subset hs), h.2.sublist (hsub.map _)⟩

namespace Deadline

open SparseArray

variable {d d' : Deadline} {ps : SparseArray Partition} {epoch : Int}

/-- Every partition is sound. -/
def AllSound (grid : Grid) (size : SectorSize) (table : SectorTable) (ps : SparseArray Partition) : Prop :=
  ∀ i p, ps.get? i = some p → p.Sound grid size table

/-- Every partition of the deadline is sound. -/
def PartsSound (grid : Grid) (size : SectorSize) (table : SectorTable) (d : Deadline) : Prop :=
  AllSound grid size table d.parts

theorem PartsSound.held (h : d.PartsSound grid size table) (hps : d.partitions = .held ps) :
    AllSound grid size table ps := by
  rwa [PartsSound, parts_eq hps] at h

theorem PartsSound.recordProven (hu : 0 < grid.unit) (hk : table.Keyed) (hd : d.PartsSound grid size table)
    {proofs : List PartitionProof} {r : ProofResult} (h : d.recordProven grid size table epoch proofs = .ok (d', r)) :
    d'.PartsSound grid size table :=
  Everywhere.recordProven (Partition.stable_sound hu hk) hd h

/-- A run keeps every partition sound. -/
theorem partsSound_of_run (hu : 0 < grid.unit) (hk : table.Keyed) {os : List Operation} {w : Power}
    (h : Run grid size table (fun _ o => o.Recorded table) os d w) : d.PartsSound grid size table :=
  everywhere_of_run (Partition.stable_sound hu hk) (fun _ _ => Operation.recorded_iff.1) h

end Deadline

end SectorLedger
