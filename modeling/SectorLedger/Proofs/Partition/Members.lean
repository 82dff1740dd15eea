import SectorLedger.Proofs.Partition.Closing

/-!
# Which sectors a partition has

Sectors come to a partition only when they are added, and none leaves it. This is how its sets are updated, whatever
table the operations read.

* `sectors_of_addSectors`: the sectors that come.
* `SameMembers`: what every other operation keeps.
-/

namespace SectorLedger

/-- What is reported of sectors that enter a queue names them all. -/
theorem ExpirationQueue.numbers_of_addActive {grid : Grid} {size : SectorSize} {q q' : ExpirationQueue}
    {ss : List Sector} {lot : Lot} (hnodup : (ss.map (·.number)).Nodup)
    (h : addActive grid size q ss = .ok (q', lot)) : lot.numbers = NumberSet.ofList (ss.map (·.number)) :=
  (lot_of_addActive (SectorTable.lists_ofList (SectorTable.recorded_ofList hnodup) hnodup) h).numbers_eq

namespace Partition

variable {grid : Grid} {size : SectorSize} {table : SectorTable} {p p' : Partition} {ss : List Sector}
  {epoch : Int} {ns : NumberSet}

/-- The sectors that have ended are sectors of the partition. -/
def Nested (p : Partition) : Prop := ∀ n ∈ p.terminated, n ∈ p.sectors

theorem nested_of_validate (h : p.validate = .ok ()) : p.Nested := by
  obtain ⟨_, -, hsets⟩ := bind_eq_ok.1 h
  exact fun n hn => (validateSets_eq_ok.1 hsets).2.1 n (.inr hn)

/-- New sectors are those of the list, and power counts at once only if they are proven. -/
theorem sectors_of_addSectors {proven : Bool} {w : Power} (hnodup : (ss.map (·.number)).Nodup)
    (h : p.addSectors grid size proven ss = .ok (p', w)) :
    p'.sectors = p.sectors ∪ NumberSet.ofList (ss.map (·.number)) ∧ p'.Nested ∧ (proven = false → w = 0) := by
  simp only [addSectors, bind_eq_ok, loadExpirations_eq_ok, noting_eq_ok, refused_bind, ite_refused_eq_ok,
    validated_eq_ok, pure_eq_ok, Prod.mk.injEq] at h
  obtain ⟨q, -, ⟨q₁, lot⟩, hadd, -, _, ⟨hvalid, rfl⟩, rfl, rfl⟩ := h
  refine ⟨?_, nested_of_validate hvalid, fun hproven => by rw [hproven]; rfl⟩
  rw [← ExpirationQueue.numbers_of_addActive hnodup hadd]

/-- No sector comes or goes. -/
structure SameMembers (p p' : Partition) : Prop where
  /-- The sectors. -/
  sectors_eq : p'.sectors = p.sectors
  /-- Those that have ended are among them, if they were. -/
  nested : p.Nested → p'.Nested

namespace SameMembers

theorem refl (p : Partition) : SameMembers p p := ⟨rfl, id⟩

theorem trans {p'' : Partition} (h : SameMembers p p') (h' : SameMembers p' p'') : SameMembers p p'' :=
  ⟨h'.sectors_eq.trans h.sectors_eq, fun hp => h'.nested (h.nested hp)⟩

/-- A checked partition has its ended sectors among its sectors. -/
theorem of_validate (hs : p'.sectors = p.sectors) (hv : p'.validate = .ok ()) : SameMembers p p' :=
  ⟨hs, fun _ => nested_of_validate hv⟩

theorem removeRecoveries (p : Partition) (ns : NumberSet) (w : Power) : SameMembers p (p.removeRecoveries ns w) := by
  unfold Partition.removeRecoveries
  split <;> exact ⟨rfl, id⟩

theorem addFaults {fd : FaultDelta} (h : p.addFaults grid size ns ss epoch = .ok (p', fd)) : SameMembers p p' := by
  simp only [Partition.addFaults, bind_eq_ok, ite_bind_eq_ok, loadExpirations_eq_ok, noting_eq_ok, validated_eq_ok,
    pure_eq_ok, Prod.mk.injEq] at h
  obtain ⟨q, -, ⟨q₁, newlyFaulty⟩, -, _, -, lost, -, _, ⟨hv, rfl⟩, rfl, -⟩ := h
  exact of_validate rfl hv

theorem declareFaults {newFaults : NumberSet} {fd : FaultDelta}
    (h : p.declareFaults grid size table ns epoch = .ok (p', newFaults, fd)) : SameMembers p p' := by
  simp only [Partition.declareFaults, bind_eq_ok, ite_bind_eq_ok, noting_eq_ok, validated_eq_ok, pure_eq_ok,
    Prod.mk.injEq] at h
  obtain ⟨_, -, newSectors, -, ⟨p₁, fd₁⟩, hadd, retracted, -, p₂, hretract, _, ⟨hv, rfl⟩, rfl, -, -⟩ := h
  have hadded : SameMembers p p₁ := by
    split at hadd
    · obtain ⟨rfl, -⟩ := Prod.mk.inj (pure_eq_ok.1 hadd)
      exact refl p
    · exact addFaults (noting_eq_ok.1 hadd)
  split at hretract
  · obtain rfl := pure_eq_ok.1 hretract
    exact hadded
  · obtain ⟨w, -, rfl⟩ := map_eq_ok.1 hretract
    exact hadded.trans (removeRecoveries _ _ w)

theorem recordSkippedFaults {sf : SkippedFaults}
    (h : p.recordSkippedFaults grid size table epoch ns = .ok (p', sf)) : SameMembers p p' := by
  unfold Partition.recordSkippedFaults at h
  split at h
  · obtain ⟨rfl, -⟩ := Prod.mk.inj (pure_eq_ok.1 h)
    exact refl p
  · simp only [bind_eq_ok, noting_eq_ok, refusing_eq_ok, refused_bind, ite_refused_eq_ok, validated_eq_ok, pure_eq_ok,
      Prod.mk.injEq] at h
    obtain ⟨-, retracted, -, w, -, newSectors, -, ⟨p₁, fd⟩, hadd, _, ⟨-, rfl⟩, rfl, -⟩ := h
    exact (addFaults hadd).trans (removeRecoveries _ _ w)

theorem terminateSectors {maxSectors : Nat} {removed : ExpirationSet}
    (h : p.terminateSectors grid size table maxSectors epoch ns = .ok (p', removed)) : SameMembers p p' := by
  simp only [Partition.terminateSectors, refused_bind, ite_refused_eq_ok, bind_eq_ok, loadExpirations_eq_ok,
    noting_eq_ok, recordEarlyTermination_eq_ok, validated_eq_ok, pure_eq_ok, Prod.mk.injEq] at h
  obtain ⟨-, sectors, -, q, -, ⟨q₁, removed₁, recovering⟩, -, _, ⟨eq, eq', -, -, rfl⟩, unprovenInfos, -,
    unprovenPower, -, _, ⟨hv, rfl⟩, rfl, -⟩ := h
  exact of_validate rfl hv

theorem popExpired {upTo : Int} {popped : ExpirationSet} (h : p.popExpired upTo = .ok (p', popped)) :
    SameMembers p p' := by
  obtain ⟨-, -, -, q, eq, eq', -, -, -, -, -, rfl, hv⟩ := popExpired_eq_ok.1 h
  exact of_validate rfl hv

theorem recoverFaults {w : Power} (h : p.recoverFaults grid size table = .ok (p', w)) : SameMembers p p' := by
  simp only [Partition.recoverFaults, bind_eq_ok, loadExpirations_eq_ok, noting_eq_ok, validated_eq_ok, pure_eq_ok,
    Prod.mk.injEq] at h
  obtain ⟨recovered, -, q, -, ⟨q₁, w₁⟩, -, _, ⟨hv, rfl⟩, rfl, -⟩ := h
  exact of_validate rfl hv

theorem declareRecovered (h : p.declareRecovered size table ns = .ok p') : SameMembers p p' := by
  simp only [Partition.declareRecovered, bind_eq_ok, noting_eq_ok, validated_eq_ok] at h
  obtain ⟨_, -, sectors, -, w, -, hv, rfl⟩ := h
  exact of_validate rfl hv

theorem recordMissedProof {missed : MissedProof} (h : p.recordMissedProof grid epoch = .ok (p', missed)) :
    SameMembers p p' := by
  obtain ⟨q, q', -, -, rfl, hv, -⟩ := recordMissedProof_eq_ok.1 h
  exact of_validate rfl hv

theorem popEarlyTerminations {maxSectors : Nat} {taken : Terminations} {more : Bool}
    (h : p.popEarlyTerminations maxSectors = .ok (p', taken, more)) : SameMembers p p' := by
  simp only [Partition.popEarlyTerminations, bind_eq_ok, Stored.load_eq_ok, noting_eq_ok, within_eq_ok,
    validated_eq_ok, pure_eq_ok, Prod.mk.injEq] at h
  obtain ⟨q, -, s, -, _, ⟨hv, rfl⟩, rfl, -, -⟩ := h
  exact of_validate rfl hv

theorem rescheduleExpirations {moved : List Sector}
    (h : p.rescheduleExpirations grid size table epoch ns = .ok (p', moved)) : SameMembers p p' := by
  obtain ⟨-, q, q₁, -, -, hv, rfl⟩ := rescheduleExpirations_eq_ok.1 h
  exact of_validate rfl hv

end SameMembers

end Partition

end SectorLedger
