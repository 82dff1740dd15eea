import SectorLedger.Proofs.Partition.Sound
import SectorLedger.Proofs.Partition.Ending

/-!
# The powers of a partition

Each operation reports the change of active power by a route of its own, and some the power that became faulty. What
they report is always the difference of what the totals say before and after. This needs no soundness; it is how
the totals are updated.

* `powers_of_addSectors`, `powers_of_declareFaults` and their like: one operation each.
-/

namespace SectorLedger.Partition

open NumberSet

variable {grid : Grid} {size : SectorSize} {table : SectorTable} {p p' : Partition} {ss : List Sector}
  {epoch : Int} {ns : NumberSet}

@[simp] theorem activePower_empty : activePower {} = 0 := rfl

theorem powers_of_addSectors {proven : Bool} {w : Power} (h : p.addSectors grid size proven ss = .ok (p', w)) :
    p'.activePower = p.activePower + w ∧ p'.faultyPower = p.faultyPower := by
  simp only [addSectors, bind_eq_ok, loadExpirations_eq_ok, noting_eq_ok, refused_bind, ite_refused_eq_ok,
    validated_eq_ok, pure_eq_ok, Prod.mk.injEq] at h
  obtain ⟨q, -, ⟨q₁, lot⟩, -, -, _, ⟨-, rfl⟩, rfl, rfl⟩ := h
  refine ⟨?_, rfl⟩
  simp only [activePower]
  cases proven
  · simp only [Bool.false_eq_true, if_false]
    abel
  · simp only [if_true]
    abel

theorem powers_of_addFaults {fd : FaultDelta} (h : p.addFaults grid size ns ss epoch = .ok (p', fd)) :
    p'.activePower = p.activePower + fd.delta ∧ p'.faultyPower = p.faultyPower + fd.newlyFaulty := by
  simp only [addFaults, bind_eq_ok, ite_bind_eq_ok, loadExpirations_eq_ok, noting_eq_ok, validated_eq_ok,
    pure_eq_ok, Prod.mk.injEq] at h
  obtain ⟨q, -, ⟨q₁, newlyFaulty⟩, -, _, -, lost, -, _, ⟨-, rfl⟩, rfl, rfl⟩ := h
  refine ⟨?_, rfl⟩
  simp only [activePower]
  abel

theorem powers_of_removeRecoveries (w : Power) : (p.removeRecoveries ns w).activePower = p.activePower ∧
    (p.removeRecoveries ns w).faultyPower = p.faultyPower := by
  unfold removeRecoveries
  split <;> exact ⟨rfl, rfl⟩

theorem powers_of_declareFaults {newFaults : NumberSet} {fd : FaultDelta}
    (h : p.declareFaults grid size table ns epoch = .ok (p', newFaults, fd)) :
    p'.activePower = p.activePower + fd.delta ∧ p'.faultyPower = p.faultyPower + fd.newlyFaulty := by
  simp only [declareFaults, bind_eq_ok, ite_bind_eq_ok, noting_eq_ok, validated_eq_ok, pure_eq_ok,
    Prod.mk.injEq] at h
  obtain ⟨_, -, newSectors, -, ⟨p₁, fd₁⟩, hadd, retracted, -, p₂, hretract, _, ⟨-, rfl⟩, rfl, rfl, rfl⟩ := h
  have hadded : p₁.activePower = p.activePower + fd₁.delta ∧ p₁.faultyPower = p.faultyPower + fd₁.newlyFaulty := by
    split at hadd
    · obtain ⟨rfl, rfl⟩ := Prod.mk.inj (pure_eq_ok.1 hadd)
      exact ⟨(add_zero p.activePower).symm, (add_zero p.faultyPower).symm⟩
    · exact powers_of_addFaults (noting_eq_ok.1 hadd)
  split at hretract
  · obtain rfl := pure_eq_ok.1 hretract
    exact hadded
  · obtain ⟨w, -, rfl⟩ := map_eq_ok.1 hretract
    rw [(powers_of_removeRecoveries w).1, (powers_of_removeRecoveries w).2]
    exact hadded

theorem powers_of_recordSkippedFaults {sf : SkippedFaults}
    (h : p.recordSkippedFaults grid size table epoch ns = .ok (p', sf)) :
    p'.activePower = p.activePower + sf.delta ∧ p'.faultyPower = p.faultyPower + sf.newlyFaulty := by
  unfold recordSkippedFaults at h
  split at h
  · obtain ⟨rfl, rfl⟩ := Prod.mk.inj (pure_eq_ok.1 h)
    exact ⟨(add_zero p.activePower).symm, (add_zero p.faultyPower).symm⟩
  · simp only [bind_eq_ok, noting_eq_ok, refusing_eq_ok, refused_bind, ite_refused_eq_ok, validated_eq_ok, pure_eq_ok,
      Prod.mk.injEq] at h
    obtain ⟨-, retracted, -, w, -, newSectors, -, ⟨p₁, fd⟩, hadd, _, ⟨-, rfl⟩, rfl, rfl⟩ := h
    rw [(powers_of_removeRecoveries w).1, (powers_of_removeRecoveries w).2]
    exact powers_of_addFaults hadd

theorem powers_of_recordMissedProof {missed : MissedProof} (h : p.recordMissedProof grid epoch = .ok (p', missed)) :
    p'.activePower = p.activePower + missed.delta ∧ p'.faultyPower = p.faultyPower + missed.newlyFaulty := by
  simp only [recordMissedProof, bind_eq_ok, loadExpirations_eq_ok, noting_eq_ok, validated_eq_ok, pure_eq_ok,
    Prod.mk.injEq] at h
  obtain ⟨q, -, q₁, -, _, ⟨-, rfl⟩, rfl, rfl⟩ := h
  constructor
  · simp only [activePower]
    abel
  · exact (add_sub_cancel _ _).symm

theorem newlyFaulty_of_recordMissedProof {missed : MissedProof}
    (h : p.recordMissedProof grid epoch = .ok (p', missed)) : missed.newlyFaulty = p.livePower - p.faultyPower := by
  simp only [recordMissedProof, bind_eq_ok, loadExpirations_eq_ok, noting_eq_ok, validated_eq_ok, pure_eq_ok,
    Prod.mk.injEq] at h
  obtain ⟨q, -, q₁, -, _, ⟨-, rfl⟩, rfl, rfl⟩ := h
  rfl

theorem powers_of_recoverFaults {w : Power} (h : p.recoverFaults grid size table = .ok (p', w)) :
    p'.activePower = p.activePower + w ∧ p'.faultyPower = p.faultyPower - w := by
  simp only [recoverFaults, bind_eq_ok, loadExpirations_eq_ok, noting_eq_ok, validated_eq_ok, pure_eq_ok,
    Prod.mk.injEq] at h
  obtain ⟨recovered, -, q, -, ⟨q₁, w₁⟩, -, _, ⟨-, rfl⟩, rfl, rfl⟩ := h
  refine ⟨?_, rfl⟩
  simp only [activePower]
  abel

theorem powers_of_activateUnproven (p : Partition) :
    p.activateUnproven.1.activePower = p.activePower + p.activateUnproven.2 ∧
      p.activateUnproven.1.faultyPower = p.faultyPower := by
  refine ⟨?_, rfl⟩
  simp only [activateUnproven, activePower]
  abel

theorem powers_of_declareRecovered (h : p.declareRecovered size table ns = .ok p') :
    p'.activePower = p.activePower ∧ p'.faultyPower = p.faultyPower := by
  simp only [declareRecovered, bind_eq_ok, noting_eq_ok, validated_eq_ok] at h
  obtain ⟨_, -, sectors, -, w, -, -, rfl⟩ := h
  exact ⟨rfl, rfl⟩

theorem powers_of_rescheduleExpirations {moved : List Sector}
    (h : p.rescheduleExpirations grid size table epoch ns = .ok (p', moved)) :
    p'.activePower = p.activePower ∧ p'.faultyPower = p.faultyPower := by
  obtain ⟨-, q, q₁, -, -, -, rfl⟩ := rescheduleExpirations_eq_ok.1 h
  exact ⟨rfl, rfl⟩

theorem powers_of_terminateSectors {maxSectors : Nat} {removed : ExpirationSet}
    (h : p.terminateSectors grid size table maxSectors epoch ns = .ok (p', removed)) :
    p'.activePower = p.activePower - removed.active ∧ p'.faultyPower = p.faultyPower - removed.faulty := by
  simp only [terminateSectors, refused_bind, ite_refused_eq_ok, bind_eq_ok, loadExpirations_eq_ok, noting_eq_ok,
    recordEarlyTermination_eq_ok, validated_eq_ok, pure_eq_ok, Prod.mk.injEq] at h
  obtain ⟨-, sectors, -, q, -, ⟨q₁, removed₁, recovering⟩, -, _, ⟨eq, eq', -, -, rfl⟩, unprovenInfos, -,
    unprovenPower, -, _, ⟨-, rfl⟩, rfl, rfl⟩ := h
  refine ⟨?_, rfl⟩
  simp only [activePower]
  abel

theorem powers_of_popExpired {upTo : Int} {popped : ExpirationSet} (h : p.popExpired upTo = .ok (p', popped)) :
    p'.activePower = p.activePower - popped.active ∧ p'.faultyPower = p.faultyPower - popped.faulty := by
  simp only [popExpired, refused_bind, ite_refused_eq_ok, bind_eq_ok, loadExpirations_eq_ok, noting_eq_ok,
    recordEarlyTermination_eq_ok, validated_eq_ok, pure_eq_ok, Prod.mk.injEq] at h
  obtain ⟨-, q, -, -, -, -, _, ⟨eq, eq', -, -, rfl⟩, _, ⟨-, rfl⟩, rfl, rfl⟩ := h
  refine ⟨?_, rfl⟩
  simp only [activePower]
  abel

theorem powers_of_popEarlyTerminations {maxSectors : Nat} {taken : Terminations} {more : Bool}
    (h : p.popEarlyTerminations maxSectors = .ok (p', taken, more)) :
    p'.activePower = p.activePower ∧ p'.faultyPower = p.faultyPower := by
  simp only [popEarlyTerminations, bind_eq_ok, Stored.load_eq_ok, noting_eq_ok, within_eq_ok, validated_eq_ok,
    pure_eq_ok, Prod.mk.injEq] at h
  obtain ⟨q, -, s, -, _, ⟨-, rfl⟩, rfl, rfl, rfl⟩ := h
  exact ⟨rfl, rfl⟩

/-- Without faulty and unproven sectors all live power of a sound partition counts. -/
theorem Sound.activePower_eq_livePower (hp : p.Sound grid size table) (hf : p.faults = ∅) (hu : p.unproven = ∅) :
    p.activePower = p.livePower := by
  rw [activePower, hp.faultyPower_eq, hp.unprovenPower_eq, hf, hu, total_empty, sub_zero, sub_zero]

end SectorLedger.Partition
