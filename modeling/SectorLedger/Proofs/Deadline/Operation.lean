import SectorLedger.Deadline
import SectorLedger.Proofs.Power

/-!
# Operations on a deadline

* `Deadline.parts`, `Deadline.queue`: what a deadline holds.
* `Operation.apply`: what an operation does to a deadline, with the change of active power that it reports.
* `Run`: the operations that were done to a new deadline, and the sum of what they reported. `Run.of_follow`
  finds it by computation.
-/

namespace SectorLedger

variable {ps ps' : SparseArray Partition} {p : Partition} {i : Nat}

@[simp] theorem findPartition_eq_ok {o : Option Partition} :
    findPartition ps i = .ok o ↔ i ≤ SparseArray.greatestIndex ∧ ps.get? i = o := by
  rw [findPartition, noting_eq_ok, SparseArray.read_eq_ok]

@[simp] theorem getPartition_eq_ok {code : ExitCode} {words : String} :
    getPartition ps i code words = .ok p ↔ i ≤ SparseArray.greatestIndex ∧ ps.get? i = some p := by
  simp only [getPartition, bind_eq_ok, findPartition_eq_ok]
  constructor
  · rintro ⟨o, ⟨hi, ho⟩, h⟩
    cases o with
    | none => simp at h
    | some p' =>
      obtain rfl := pure_eq_ok.1 h
      exact ⟨hi, ho⟩
  · rintro ⟨hi, ho⟩
    exact ⟨_, ⟨hi, ho⟩, rfl⟩

@[simp] theorem putPartition_eq_ok :
    putPartition ps i p = .ok ps' ↔ i ≤ SparseArray.greatestIndex ∧ ps.insert i p = ps' := by
  rw [putPartition, noting_eq_ok, SparseArray.write_eq_ok]

/-- The power that counts, over all partitions. -/
def activePowerIn (ps : SparseArray Partition) : Power := SparseArray.total Partition.activePower ps

/-- A partition that changes brings the change of its power. -/
theorem activePowerIn_insert {p' : Partition} (h : ps.get? i = some p) :
    activePowerIn (ps.insert i p') = activePowerIn ps + (p'.activePower - p.activePower) :=
  SparseArray.total_insert_of_get? Partition.activePower h

namespace Deadline

/-- The partitions by position. Without contents there are none. -/
def parts (d : Deadline) : SparseArray Partition :=
  match d.partitions with
  | .held ps => ps
  | .missing => ∅

/-- The queue of expiring partitions. Without contents it counts as empty. -/
def queue (d : Deadline) : NumberQueue :=
  match d.expirations with
  | .held q => q
  | .missing => ∅

/-- The power that counts, over all partitions. -/
def activePower (d : Deadline) : Power := activePowerIn d.parts

variable {d d' : Deadline}

@[simp] theorem loadPartitions_eq_ok : d.loadPartitions = .ok ps ↔ d.partitions = .held ps := by
  rw [loadPartitions, refusing_eq_ok, Stored.load_eq_ok]

@[simp] theorem loadExpirations_eq_ok {q : NumberQueue} : d.loadExpirations = .ok q ↔ d.expirations = .held q := by
  rw [loadExpirations, noting_eq_ok, Stored.load_eq_ok]

theorem parts_eq (h : d.partitions = .held ps) : d.parts = ps := by
  rw [parts, h]

theorem queue_eq {q : NumberQueue} (h : d.expirations = .held q) : d.queue = q := by
  rw [queue, h]

/-- An operation on a deadline, with its arguments. -/
inductive Operation where
  | addSectors (partitionSize : Nat) (proven : Bool) (sectors : List Sector)
  | declareFaults (faultExpiration : Int) (map : PartitionSectors)
  | declareRecovered (map : PartitionSectors)
  | recordProven (faultExpiration : Int) (proofs : List PartitionProof)
  | processEnd (faultExpiration : Int)
  | popExpired (upTo : Int)
  | terminateSectors (maxSectors : Nat) (epoch : Int) (map : PartitionSectors)
  | popEarlyTerminations (maxPartitions maxSectors : Nat)
  | removePartitions (toRemove : NumberSet)
  | rescheduleExpirations (epoch : Int) (map : PartitionSectors)
  deriving DecidableEq, Repr

variable (grid : Grid) (size : SectorSize) (table : SectorTable)

namespace Operation

/-- The deadline after the operation, and the change of active power that the operation reports. Those that
answer no power report no change. -/
def apply (d : Deadline) : Operation → Outcome (Deadline × Power)
  | addSectors partitionSize proven sectors => d.addSectors grid size partitionSize proven sectors
  | declareFaults epoch map => d.declareFaults grid size table epoch map
  | declareRecovered map => (·, 0) <$> d.declareRecovered size table map
  | recordProven epoch proofs => (fun (d, r) => (d, r.delta)) <$> d.recordProven grid size table epoch proofs
  | processEnd epoch => (fun (d, r) => (d, r.delta)) <$> d.processEnd grid epoch
  | popExpired upTo => (fun (d, e) => (d, -e.active)) <$> d.popExpired upTo
  | terminateSectors maxSectors epoch map =>
    (fun (d, lost) => (d, -lost)) <$> Deadline.terminateSectors grid size table maxSectors d epoch map
  | popEarlyTerminations maxPartitions maxSectors =>
    (fun (d, _) => (d, 0)) <$> d.popEarlyTerminations maxPartitions maxSectors
  | removePartitions toRemove => (fun (d, r) => (d, -r.power)) <$> d.removePartitions toRemove
  | rescheduleExpirations epoch map => (fun (d, _) => (d, 0)) <$> d.rescheduleExpirations grid size table epoch map

/-- The expiration that the operation gives to new faults. -/
def faultExpiration? : Operation → Option Int
  | declareFaults epoch _ => some epoch
  | recordProven epoch _ => some epoch
  | processEnd epoch => some epoch
  | _ => none

/-- Sectors that are added are in the table, and no two have one number. -/
def Recorded : Operation → Prop
  | addSectors _ _ sectors => (∀ s ∈ sectors, table.Recorded s) ∧ (sectors.map (·.number)).Nodup
  | _ => True

/-- Sectors that are added are new to the deadline too, and sectors move to an epoch not after their recorded
expirations. -/
def Admissible (d : Deadline) (o : Operation) : Prop :=
  o.Recorded table ∧
    match o with
    | addSectors _ _ sectors => ∀ e ∈ d.parts.entries, ∀ s ∈ sectors, s.number ∉ e.2.sectors
    | rescheduleExpirations epoch map =>
      match d.rescheduleExpirations grid size table epoch map with
      | .ok (_, moved) => ∀ s ∈ moved, epoch ≤ s.expiration
      | .error _ => True
    | _ => True

instance : DecidablePred (Recorded table) := fun o => by
  cases o <;> unfold Recorded SectorTable.Recorded <;> infer_instance

instance (d : Deadline) : DecidablePred (Admissible grid size table d) := fun o => by
  unfold Admissible
  cases o <;> try infer_instance
  refine @instDecidableAnd _ _ _ ?_
  dsimp only
  split <;> infer_instance

end Operation

/-- What a run from a new deadline comes to: the operations that were done, each of them allowed and successful
at its turn, the deadline, and the sum of the changes that were reported. -/
inductive Run (allowed : Deadline → Operation → Prop) : List Operation → Deadline → Power → Prop where
  /-- A new deadline. -/
  | start : Run allowed [] {} 0
  /-- One more operation. -/
  | step {os : List Operation} {d d' : Deadline} {w w' : Power} {o : Operation} (run : Run allowed os d w)
    (ho : allowed d o) (h : o.apply grid size table d = .ok (d', w')) : Run allowed (os ++ [o]) d' (w + w')

/-- Does the operations in order, if they are allowed and successful. -/
def follow (allowed : Deadline → Operation → Prop) [∀ d o, Decidable (allowed d o)] :
    List Operation → Deadline × Power → Option (Deadline × Power)
  | [], s => some s
  | o :: os, (d, w) =>
    if allowed d o then
      match o.apply grid size table d with
      | .ok (d', w') => follow allowed os (d', w + w')
      | .error _ => none
    else none

variable {grid size table}

/-- Operations that can be followed are a run. -/
theorem Run.of_follow {allowed : Deadline → Operation → Prop} [∀ d o, Decidable (allowed d o)]
    {os done : List Operation} {w w' : Power} (hd : Run grid size table allowed done d w)
    (h : follow grid size table allowed os (d, w) = some (d', w')) :
    Run grid size table allowed (done ++ os) d' w' := by
  induction os generalizing done d w with
  | nil =>
    obtain ⟨rfl, rfl⟩ := Prod.mk.inj (Option.some.inj h)
    rwa [List.append_nil]
  | cons o os ih =>
    unfold follow at h
    split at h
    · next ho =>
      split at h
      · next d₁ w₁ hstep =>
        rw [show done ++ o :: os = (done ++ [o]) ++ os by simp]
        exact ih (hd.step ho hstep) h
      · cases h
    · cases h

end Deadline

end SectorLedger
