import SectorLedger.Proofs.Deadline.Step
import SectorLedger.Proofs.Partition.Run

/-!
# What every partition of a deadline keeps

An operation on a deadline changes its partitions by operations on them, and opens new ones. So a property that new
partitions have and that every operation on a partition keeps is one of all partitions of a deadline. It may depend on
which sectors are added; a batch of them is a part of the list.

* `Partition.Stable`: a property of that kind.
* `Everywhere.apply`: all partitions keep it. `everywhere_of_run`: they have it after every run.
-/

namespace SectorLedger

open SparseArray

variable {grid : Grid} {size : SectorSize} {table : SectorTable} {Takes : List Sector → Prop}
  {P : Partition → Prop} {ps : SparseArray Partition} {i : Nat} {p : Partition}

/-- The sectors that an operation on a partition adds. -/
def Partition.Operation.added : Partition.Operation → List Sector
  | addSectors _ ss => ss
  | _ => []

/-- The sectors that an operation on a deadline adds. -/
def Deadline.Operation.added : Deadline.Operation → List Sector
  | addSectors _ _ ss => ss
  | _ => []

/-- New partitions have the property, and operations keep it that add only sectors of a certain kind. -/
structure Partition.Stable (grid : Grid) (size : SectorSize) (table : SectorTable) (Takes : List Sector → Prop)
    (P : Partition → Prop) : Prop where
  /-- New partitions. -/
  empty : P {}
  /-- Operations. -/
  apply : ∀ {p p' : Partition} {o : Partition.Operation}, P p → Takes o.added → o.apply grid size table p = .ok p' → P p'
  /-- They need not add sectors. -/
  nil : Takes []
  /-- They may add only some of the sectors. -/
  sublist : ∀ {ss ss' : List Sector}, Takes ss → ss'.Sublist ss → Takes ss'

/-- Every partition has the property. -/
def Everywhere (P : Partition → Prop) (ps : SparseArray Partition) : Prop := ∀ i p, ps.get? i = some p → P p

namespace Everywhere

theorem insert (h : Everywhere P ps) (hp : P p) : Everywhere P (ps.insert i p) := by
  intro j p' hp'
  obtain ⟨-, rfl⟩ | ⟨-, hp'⟩ := get?_insert_eq_some.1 hp'
  · exact hp
  · exact h j p' hp'

/-- An operation changes one of the partitions. -/
theorem step {p' : Partition} {o : Partition.Operation} (hP : Partition.Stable grid size table Takes P)
    (h : Everywhere P ps) (hp : ps.get? i = some p) (ho : Takes o.added) (hop : o.apply grid size table p = .ok p') :
    Everywhere P (ps.insert i p') :=
  h.insert (hP.apply (h i p hp) ho hop)

end Everywhere

namespace Deadline

variable {d d' : Deadline} {epoch : Int} {map : PartitionSectors} {w : Power}

theorem parts_of_addExpirationPartitions {indices : List Nat}
    (h : d.addExpirationPartitions grid epoch indices = .ok d') : d'.parts = d.parts := by
  rcases addExpirationPartitions_eq_ok.1 h with ⟨-, rfl⟩ | ⟨q, q', -, -, rfl⟩ <;> rfl

end Deadline

namespace Everywhere

open Deadline

variable {d d' : Deadline} {epoch : Int} {map : PartitionSectors} {w : Power}

theorem addSectors {k : Nat} {proven : Bool} {ss : List Sector} (hP : Partition.Stable grid size table Takes P)
    (h : Everywhere P d.parts) (hss : Takes ss) (hop : d.addSectors grid size k proven ss = .ok (d', w)) :
    Everywhere P d'.parts := by
  obtain ⟨-, rfl, -⟩ | ⟨ps, q, q', f, -, hps, -, hfold, -, -, rfl⟩ := addSectors_spec hop
  · exact h
  suffices hf : Everywhere P f.partitions ∧ f.remaining.Sublist ss from hf.1
  refine foldOutcome_invariant (I := fun _ (f : Filling) => Everywhere P f.partitions ∧ f.remaining.Sublist ss) hfold
    ⟨parts_eq hps ▸ h, List.Sublist.refl ss⟩ ?_
  rintro done i rest f f' _ ⟨hf, hsub⟩ hstep
  obtain ⟨rfl, -⟩ | ⟨p', w, -, -, hadd, rfl⟩ := fillPartition_spec hstep
  · exact ⟨hf, hsub⟩
  have hp : P ((f.partitions.get? i).getD {}) := by
    cases hp : f.partitions.get? i with
    | none => exact hP.empty
    | some p => exact hf i p hp
  have hbatch : Takes (f.remaining.take (k - ((f.partitions.get? i).getD {}).sectors.count)) :=
    hP.sublist hss ((List.take_sublist _ f.remaining).trans hsub)
  exact ⟨hf.insert (hP.apply (o := .addSectors proven _) hp hbatch (map_eq_ok.2 ⟨_, hadd, rfl⟩)),
    (List.drop_sublist _ _).trans hsub⟩

theorem declareFaults (hP : Partition.Stable grid size table Takes P) (h : Everywhere P d.parts)
    (hop : d.declareFaults grid size table epoch map = .ok (d', w)) : Everywhere P d'.parts := by
  obtain ⟨ps, f, hps, hfold, -, hlist⟩ := declareFaults_spec hop
  rw [parts_of_addExpirationPartitions hlist]
  refine foldOutcome_invariant (I := fun _ (f : Faulting) => Everywhere P f.partitions) hfold (parts_eq hps ▸ h) ?_
  intro done entry rest f f' _ hf hstep
  obtain ⟨p, p', newFaults, fd, hp, hdeclare, rfl⟩ := declareFaultsIn_spec hstep
  exact hf.step hP hp (o := .declareFaults entry.2 epoch) hP.nil (map_eq_ok.2 ⟨_, hdeclare, rfl⟩)

theorem declareRecovered (hP : Partition.Stable grid size table Takes P) (h : Everywhere P d.parts)
    (hop : d.declareRecovered size table map = .ok d') : Everywhere P d'.parts := by
  obtain ⟨ps, ps', hps, hfold, rfl⟩ := declareRecovered_spec hop
  refine foldOutcome_invariant (I := fun _ ps => Everywhere P ps) hfold (parts_eq hps ▸ h) ?_
  intro done entry rest ps₁ ps₂ _ hps₁ hstep
  obtain ⟨p, p', hp, hdeclare, rfl⟩ := recoverIn_spec hstep
  exact hps₁.step hP hp (o := .declareRecovered entry.2) hP.nil hdeclare

theorem recordProven {proofs : List PartitionProof} {r : ProofResult} (hP : Partition.Stable grid size table Takes P)
    (h : Everywhere P d.parts) (hop : d.recordProven grid size table epoch proofs = .ok (d', r)) :
    Everywhere P d'.parts := by
  obtain ⟨ps, v, d₁, hps, hfold, -, -, rfl⟩ := recordProven_eq_ok.1 hop
  refine foldOutcome_invariant (I := fun _ (v : Proving) => Everywhere P v.partitions) hfold (parts_eq hps ▸ h) ?_
  intro done proof rest v v' _ hv hstep
  rcases provePartition_spec hstep with ⟨-, rfl⟩ | ⟨p, p₁, skipped, p₂, recovered, -, hp, hskip, hrecover, hparts, -⟩
  · exact hv
  rw [hparts]
  have hp₁ : P p₁ := hP.apply (o := .recordSkippedFaults epoch proof.skipped) (hv proof.index p hp) hP.nil
    (map_eq_ok.2 ⟨_, hskip, rfl⟩)
  have hp₂ : P p₂ := hP.apply (o := .recoverFaults) hp₁ hP.nil (map_eq_ok.2 ⟨_, hrecover, rfl⟩)
  exact hv.insert (hP.apply (o := .activateUnproven) hp₂ hP.nil rfl)

theorem processEnd {r : WindowEnd} (hP : Partition.Stable grid size table Takes P) (h : Everywhere P d.parts)
    (hop : d.processEnd grid epoch = .ok (d', r)) : Everywhere P d'.parts := by
  obtain ⟨ps, f, d₁, hps, hfold, hlist, rfl, -⟩ := processEnd_spec hop
  have hf : Everywhere P f.partitions := by
    refine foldOutcome_invariant (I := fun _ (f : Faulting) => Everywhere P f.partitions) hfold (parts_eq hps ▸ h) ?_
    intro done i rest f f' _ hf hstep
    rcases missProof_spec hstep with ⟨-, rfl⟩ | ⟨p, hp, -, ⟨-, -, rfl⟩ | ⟨p', missed, hmiss, rfl⟩⟩
    · exact hf
    · exact hf
    · exact hf.step hP hp (o := .recordMissedProof epoch) hP.nil (map_eq_ok.2 ⟨_, hmiss, rfl⟩)
  have hparts := parts_of_addExpirationPartitions hlist
  exact hparts ▸ hf

theorem popExpired {upTo : Int} {e : ExpirationSet} (hP : Partition.Stable grid size table Takes P)
    (h : Everywhere P d.parts) (hop : d.popExpired upTo = .ok (d', e)) : Everywhere P d'.parts := by
  obtain ⟨q, q', listed, modified, -, -, hpopped⟩ := popExpired_spec hop
  obtain ⟨-, rfl, -⟩ | ⟨ps, x, count, -, hps, hfold, -, -, -, rfl⟩ := hpopped
  · exact h
  refine foldOutcome_invariant (I := fun _ (x : Expiring) => Everywhere P x.partitions) hfold (parts_eq hps ▸ h) ?_
  intro done i rest x x' _ hx hstep
  obtain ⟨p, p', popped, hp, hpop, -, hparts, -⟩ := expirePartition_spec hstep
  rw [hparts]
  exact hx.step hP hp (o := .popExpired upTo) hP.nil (map_eq_ok.2 ⟨_, hpop, rfl⟩)

theorem terminateSectors {maxSectors : Nat} (hP : Partition.Stable grid size table Takes P) (h : Everywhere P d.parts)
    (hop : d.terminateSectors grid size table maxSectors epoch map = .ok (d', w)) : Everywhere P d'.parts := by
  obtain ⟨ps, t, hps, hfold, -, rfl⟩ := terminateSectors_spec hop
  refine foldOutcome_invariant (I := fun _ (t : Terminating) => Everywhere P t.partitions) hfold (parts_eq hps ▸ h) ?_
  intro done entry rest t t' _ ht hstep
  obtain ⟨p, p', removed, hp, hterm, -, hparts, -⟩ := terminateIn_spec hstep
  rw [hparts]
  exact ht.step hP hp (o := .terminateSectors maxSectors epoch entry.2) hP.nil (map_eq_ok.2 ⟨_, hterm, rfl⟩)

theorem popEarlyTerminations {maxPartitions maxSectors : Nat} {taken : Terminations} {more : Bool}
    (hP : Partition.Stable grid size table Takes P) (h : Everywhere P d.parts)
    (hop : d.popEarlyTerminations maxPartitions maxSectors = .ok (d', taken, more)) : Everywhere P d'.parts := by
  obtain ⟨ps, s, hps, hfold, rfl⟩ := popEarlyTerminations_spec hop
  obtain ⟨_, _, -, hs⟩ := NumberSet.visitWhile_invariant (I := fun _ (s : Settling) => Everywhere P s.partitions) hfold
    (parts_eq hps ▸ h) fun done i rest s s' go _ hs hstep => by
      rcases settlePartition_spec hstep with ⟨-, rfl⟩ | ⟨p, left, p', popped, more, hp, hpop, hparts, -⟩
      · exact hs
      · rw [hparts]
        exact hs.step hP hp (o := .popEarlyTerminations left) hP.nil (map_eq_ok.2 ⟨_, hpop, rfl⟩)
  exact hs

/-- The partitions that are left were there before. -/
theorem removePartitions {toRemove : NumberSet} {r : RemovedPartitions} (h : Everywhere P d.parts)
    (hop : d.removePartitions toRemove = .ok (d', r)) : Everywhere P d'.parts := by
  rcases removePartitions_spec hop with ⟨-, rfl, -⟩ | ⟨old, q, c, hold, -, -, -, hfold, -, -, -, rfl⟩
  · exact h
  rw [parts_eq hold] at h
  refine foldOutcome_invariant (I := fun _ (c : Compacting) => Everywhere P c.kept) hfold
    (fun i p hp => by cases hp) ?_
  intro done i rest c c' _ hc hstep
  obtain ⟨p, hp, ⟨-, rfl⟩ | ⟨-, -, -, rfl⟩⟩ := compactPartition_spec hstep
  · exact hc.insert (h i p hp)
  · exact hc

theorem rescheduleExpirations {moved : List Sector} (hP : Partition.Stable grid size table Takes P)
    (h : Everywhere P d.parts) (hop : d.rescheduleExpirations grid size table epoch map = .ok (d', moved)) :
    Everywhere P d'.parts := by
  obtain ⟨ps, r, hps, hfold, -, ⟨-, rfl⟩ | hlist⟩ := rescheduleExpirations_spec hop
  · exact h
  rw [parts_of_addExpirationPartitions hlist]
  refine foldOutcome_invariant (I := fun _ (r : Rescheduling) => Everywhere P r.partitions) hfold (parts_eq hps ▸ h) ?_
  intro done entry rest r r' _ hr hstep
  rcases rescheduleIn_spec hstep with rfl | ⟨p, p', moved, hp, hresch, -, rfl⟩
  · exact hr
  · exact hr.step hP hp (o := .rescheduleExpirations epoch entry.2) hP.nil (map_eq_ok.2 ⟨_, hresch, rfl⟩)

/-- **All partitions keep what each of them keeps.** -/
theorem apply (hP : Partition.Stable grid size table Takes P) (h : Everywhere P d.parts) {o : Deadline.Operation}
    (ho : Takes o.added) (hop : o.apply grid size table d = .ok (d', w)) : Everywhere P d'.parts := by
  cases o with
  | addSectors k proven ss => exact h.addSectors hP ho hop
  | declareFaults epoch map => exact h.declareFaults hP hop
  | declareRecovered map =>
    obtain ⟨_, hdone, heq⟩ := map_eq_ok.1 hop
    exact (Prod.mk.inj heq).1 ▸ h.declareRecovered hP hdone
  | recordProven epoch proofs =>
    obtain ⟨⟨_, r⟩, hdone, heq⟩ := map_eq_ok.1 hop
    exact (Prod.mk.inj heq).1 ▸ h.recordProven hP hdone
  | processEnd epoch =>
    obtain ⟨⟨_, r⟩, hdone, heq⟩ := map_eq_ok.1 hop
    exact (Prod.mk.inj heq).1 ▸ h.processEnd hP hdone
  | popExpired upTo =>
    obtain ⟨⟨_, e⟩, hdone, heq⟩ := map_eq_ok.1 hop
    exact (Prod.mk.inj heq).1 ▸ h.popExpired hP hdone
  | terminateSectors maxSectors epoch map =>
    obtain ⟨⟨_, lost⟩, hdone, heq⟩ := map_eq_ok.1 hop
    exact (Prod.mk.inj heq).1 ▸ h.terminateSectors hP hdone
  | popEarlyTerminations maxPartitions maxSectors =>
    obtain ⟨⟨_, taken, more⟩, hdone, heq⟩ := map_eq_ok.1 hop
    exact (Prod.mk.inj heq).1 ▸ h.popEarlyTerminations hP hdone
  | removePartitions toRemove =>
    obtain ⟨⟨_, r⟩, hdone, heq⟩ := map_eq_ok.1 hop
    exact (Prod.mk.inj heq).1 ▸ h.removePartitions hdone
  | rescheduleExpirations epoch map =>
    obtain ⟨⟨_, moved⟩, hdone, heq⟩ := map_eq_ok.1 hop
    exact (Prod.mk.inj heq).1 ▸ h.rescheduleExpirations hP hdone

end Everywhere

namespace Deadline

variable {d : Deadline} {w : Power}

/-- **After every run all partitions of a deadline have what new ones have and each of them keeps.** -/
theorem everywhere_of_run (hP : Partition.Stable grid size table Takes P) {allowed : Deadline → Operation → Prop}
    (hadded : ∀ d o, allowed d o → Takes o.added) {os : List Operation} (h : Run grid size table allowed os d w) :
    Everywhere P d.parts := by
  induction h with
  | start => exact fun i p hp => by cases hp
  | step run ho hop ih => exact ih.apply hP (hadded _ _ ho) hop

end Deadline

end SectorLedger
