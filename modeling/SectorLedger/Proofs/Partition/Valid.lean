import SectorLedger.Proofs.Expiration.Valid
import SectorLedger.Proofs.Partition.Closing
import SectorLedger.Proofs.Partition.Run

/-!
# Partitions that pass their checks

An operation checks a partition before it ends, and its queue checks each entry that it stores. So every partition that
comes about by operations passes all of these checks, with any table and any powers and pledges of single sectors.

* `Valid`: the checks pass.
* `Valid.apply`: an operation keeps it.
* `Sound.valid`: a sound partition is valid if its sectors have no negative powers and pledges.
* `valid_of_run`: every partition that comes about by operations is valid.
-/

namespace SectorLedger.Partition

variable {grid : Grid} {size : SectorSize} {table : SectorTable} {p p' : Partition} {ns : NumberSet} {ss : List Sector}
  {epoch : Int}

/-- The partition passes its check, and so do the entries of its queue, if there is one. -/
structure Valid (p : Partition) : Prop where
  /-- The partition. -/
  checked : p.validate = .ok ()
  /-- Its queue. -/
  queue : ∀ q, p.expirations = .held q → q.Valid

theorem valid_empty : Valid {} where
  checked := by decide +kernel
  queue q hq := by
    obtain rfl := Stored.held.inj hq
    exact ExpirationQueue.valid_empty

namespace Valid

/-- A partition that has been checked, with a new queue. -/
theorem of_held {q : ExpirationQueue} (hv : p.validate = .ok ()) (hq : p.expirations = .held q) (h : q.Valid) :
    p.Valid := by
  refine ⟨hv, fun q' hq' => ?_⟩
  obtain rfl := Stored.held.inj (hq.symm.trans hq')
  exact h

/-- A partition that has been checked, with the queue that it had. -/
theorem of_same (h : p.Valid) (hv : p'.validate = .ok ()) (hq : p'.expirations = p.expirations) : p'.Valid :=
  ⟨hv, fun q hq' => h.queue q (hq ▸ hq')⟩

theorem addSectors {proven : Bool} {w : Power} (h : p.Valid) (hadd : p.addSectors grid size proven ss = .ok (p', w)) :
    p'.Valid := by
  simp only [Partition.addSectors, bind_eq_ok, loadExpirations_eq_ok, noting_eq_ok, refused_bind, ite_refused_eq_ok,
    validated_eq_ok, pure_eq_ok, Prod.mk.injEq] at hadd
  obtain ⟨q, hq, ⟨q₁, lot⟩, hadd, -, _, ⟨hv, rfl⟩, rfl, -⟩ := hadd
  exact of_held hv rfl ((h.queue q hq).addActive hadd)

theorem addFaults {fd : FaultDelta} (h : p.Valid) (hadd : p.addFaults grid size ns ss epoch = .ok (p', fd)) :
    p'.Valid := by
  simp only [Partition.addFaults, bind_eq_ok, ite_bind_eq_ok, loadExpirations_eq_ok, noting_eq_ok, validated_eq_ok,
    pure_eq_ok, Prod.mk.injEq] at hadd
  obtain ⟨q, hq, ⟨q₁, newlyFaulty⟩, hfault, _, -, lost, -, _, ⟨hv, rfl⟩, rfl, -⟩ := hadd
  exact of_held hv rfl ((h.queue q hq).rescheduleAsFaults hfault)

theorem expirations_removeRecoveries (p : Partition) (ns : NumberSet) (w : Power) :
    (p.removeRecoveries ns w).expirations = p.expirations := by
  unfold removeRecoveries
  split <;> rfl

theorem declareFaults {newFaults : NumberSet} {fd : FaultDelta} (h : p.Valid)
    (hdeclare : p.declareFaults grid size table ns epoch = .ok (p', newFaults, fd)) : p'.Valid := by
  simp only [Partition.declareFaults, bind_eq_ok, ite_bind_eq_ok, noting_eq_ok, validated_eq_ok, pure_eq_ok,
    Prod.mk.injEq] at hdeclare
  obtain ⟨_, -, newSectors, -, ⟨p₁, fd₁⟩, hadd, retracted, -, p₂, hretract, _, ⟨hv, rfl⟩, rfl, -, -⟩ := hdeclare
  have hp₁ : p₁.Valid := by
    split at hadd
    · obtain ⟨rfl, -⟩ := Prod.mk.inj (pure_eq_ok.1 hadd)
      exact h
    · exact h.addFaults (noting_eq_ok.1 hadd)
  split at hretract
  · obtain rfl := pure_eq_ok.1 hretract
    exact hp₁
  · obtain ⟨w, -, rfl⟩ := map_eq_ok.1 hretract
    exact hp₁.of_same hv (expirations_removeRecoveries _ _ w)

theorem declareRecovered (h : p.Valid) (hdeclare : p.declareRecovered size table ns = .ok p') : p'.Valid := by
  simp only [Partition.declareRecovered, bind_eq_ok, noting_eq_ok, validated_eq_ok] at hdeclare
  obtain ⟨_, -, sectors, -, w, -, hv, rfl⟩ := hdeclare
  exact h.of_same hv rfl

theorem recordSkippedFaults {sf : SkippedFaults} (h : p.Valid)
    (hskip : p.recordSkippedFaults grid size table epoch ns = .ok (p', sf)) : p'.Valid := by
  unfold Partition.recordSkippedFaults at hskip
  split at hskip
  · obtain ⟨rfl, -⟩ := Prod.mk.inj (pure_eq_ok.1 hskip)
    exact h
  · simp only [bind_eq_ok, noting_eq_ok, refusing_eq_ok, refused_bind, ite_refused_eq_ok, validated_eq_ok, pure_eq_ok,
      Prod.mk.injEq] at hskip
    obtain ⟨-, retracted, -, w, -, newSectors, -, ⟨p₁, fd⟩, hadd, _, ⟨hv, rfl⟩, rfl, -⟩ := hskip
    exact (h.addFaults hadd).of_same hv (expirations_removeRecoveries _ _ w)

theorem recoverFaults {w : Power} (h : p.Valid) (hrec : p.recoverFaults grid size table = .ok (p', w)) : p'.Valid := by
  simp only [Partition.recoverFaults, bind_eq_ok, loadExpirations_eq_ok, noting_eq_ok, validated_eq_ok, pure_eq_ok,
    Prod.mk.injEq] at hrec
  obtain ⟨recovered, -, q, hq, ⟨q₁, w₁⟩, hresch, _, ⟨hv, rfl⟩, rfl, -⟩ := hrec
  exact of_held hv rfl ((h.queue q hq).rescheduleRecovered hresch)

/-- Nothing is checked here, but without unproven sectors there is less to check. -/
theorem activateUnproven (h : p.Valid) : p.activateUnproven.1.Valid := by
  obtain ⟨_, hpower, hsets⟩ := bind_eq_ok.1 h.checked
  obtain ⟨hlive, -, hfaulty, hrecovering, -, hle⟩ := validatePower_eq_ok.1 hpower
  obtain ⟨hended, hin, hrecoveries⟩ := validateSets_eq_ok.1 hsets
  have hnone : ∀ {n}, n ∈ (∅ : NumberSet) ∨ n ∈ p.faults → n ∈ p.unproven ∨ n ∈ p.faults := fun hn =>
    hn.imp_left fun hn => absurd hn (NumberSet.not_mem_empty _)
  have hpower' : p.activateUnproven.1.validatePower = .ok () :=
    validatePower_eq_ok.2 ⟨hlive, Power.nonneg_zero, hfaulty, hrecovering, hlive.1, hle⟩
  have hsets' : p.activateUnproven.1.validateSets = .ok () :=
    validateSets_eq_ok.2 ⟨fun n hn => hended n (hnone hn), fun n hn => hin n (hn.imp_left hnone), hrecoveries⟩
  exact ⟨bind_eq_ok.2 ⟨(), hpower', hsets'⟩, h.queue⟩

theorem terminateSectors {maxSectors : Nat} {removed : ExpirationSet} (h : p.Valid)
    (hterm : p.terminateSectors grid size table maxSectors epoch ns = .ok (p', removed)) : p'.Valid := by
  simp only [Partition.terminateSectors, refused_bind, ite_refused_eq_ok, bind_eq_ok, loadExpirations_eq_ok,
    noting_eq_ok, recordEarlyTermination_eq_ok, validated_eq_ok, pure_eq_ok, Prod.mk.injEq] at hterm
  obtain ⟨-, sectors, -, q, hq, ⟨q₁, removed₁, recovering⟩, hremove, _, ⟨eq, eq', -, -, rfl⟩, unprovenInfos, -,
    unprovenPower, -, _, ⟨hv, rfl⟩, rfl, -⟩ := hterm
  exact of_held hv rfl ((h.queue q hq).removeSectors hremove)

theorem popExpired {upTo : Int} {popped : ExpirationSet} (h : p.Valid) (hpop : p.popExpired upTo = .ok (p', popped)) :
    p'.Valid := by
  simp only [Partition.popExpired, refused_bind, ite_refused_eq_ok, bind_eq_ok, loadExpirations_eq_ok, noting_eq_ok,
    recordEarlyTermination_eq_ok, validated_eq_ok, pure_eq_ok, Prod.mk.injEq] at hpop
  obtain ⟨-, q, hq, -, -, -, _, ⟨eq, eq', -, -, rfl⟩, _, ⟨hv, rfl⟩, rfl, -⟩ := hpop
  exact of_held hv rfl ((h.queue q hq).popUntil rfl)

theorem recordMissedProof {missed : MissedProof} (h : p.Valid)
    (hmiss : p.recordMissedProof grid epoch = .ok (p', missed)) : p'.Valid := by
  simp only [Partition.recordMissedProof, bind_eq_ok, loadExpirations_eq_ok, noting_eq_ok, validated_eq_ok, pure_eq_ok,
    Prod.mk.injEq] at hmiss
  obtain ⟨q, hq, q₁, hresch, _, ⟨hv, rfl⟩, rfl, -⟩ := hmiss
  exact of_held hv rfl ((h.queue q hq).rescheduleAllAsFaults hresch)

theorem popEarlyTerminations {maxSectors : Nat} {taken : Terminations} {more : Bool} (h : p.Valid)
    (hpop : p.popEarlyTerminations maxSectors = .ok (p', taken, more)) : p'.Valid := by
  simp only [Partition.popEarlyTerminations, bind_eq_ok, Stored.load_eq_ok, noting_eq_ok, within_eq_ok,
    validated_eq_ok, pure_eq_ok, Prod.mk.injEq] at hpop
  obtain ⟨q, -, s, -, _, ⟨hv, rfl⟩, rfl, -, -⟩ := hpop
  exact h.of_same hv rfl

theorem rescheduleExpirations {moved : List Sector} (h : p.Valid)
    (hresch : p.rescheduleExpirations grid size table epoch ns = .ok (p', moved)) : p'.Valid := by
  obtain ⟨-, q, q₁, hq, hmove, hv, rfl⟩ := rescheduleExpirations_eq_ok.1 hresch
  exact of_held hv rfl ((h.queue q hq).reschedule hmove)

/-- An operation keeps the checks passing. -/
theorem apply (h : p.Valid) {o : Operation} (hop : o.apply grid size table p = .ok p') : p'.Valid := by
  cases o with
  | addSectors proven ss =>
    obtain ⟨_, hdone, rfl⟩ := map_eq_ok.1 hop
    exact h.addSectors hdone
  | declareFaults numbers epoch =>
    obtain ⟨_, hdone, rfl⟩ := map_eq_ok.1 hop
    exact h.declareFaults hdone
  | declareRecovered numbers => exact h.declareRecovered hop
  | recordSkippedFaults epoch skipped =>
    obtain ⟨_, hdone, rfl⟩ := map_eq_ok.1 hop
    exact h.recordSkippedFaults hdone
  | recoverFaults =>
    obtain ⟨_, hdone, rfl⟩ := map_eq_ok.1 hop
    exact h.recoverFaults hdone
  | activateUnproven =>
    obtain rfl := Except.ok.inj hop
    exact h.activateUnproven
  | terminateSectors maxSectors epoch numbers =>
    obtain ⟨_, hdone, rfl⟩ := map_eq_ok.1 hop
    exact h.terminateSectors hdone
  | popExpired upTo =>
    obtain ⟨_, hdone, rfl⟩ := map_eq_ok.1 hop
    exact h.popExpired hdone
  | recordMissedProof epoch =>
    obtain ⟨_, hdone, rfl⟩ := map_eq_ok.1 hop
    exact h.recordMissedProof hdone
  | popEarlyTerminations maxSectors =>
    obtain ⟨_, hdone, rfl⟩ := map_eq_ok.1 hop
    exact h.popEarlyTerminations hdone
  | rescheduleExpirations epoch numbers =>
    obtain ⟨_, hdone, rfl⟩ := map_eq_ok.1 hop
    exact h.rescheduleExpirations hdone

end Valid

/-- A sound partition passes the checks if its sectors have no negative powers and pledges. -/
theorem Sound.valid (hp : p.Sound grid size table) (hn : p.Nonneg size table) : p.Valid where
  checked := hp.validate hn
  queue q hq k e he := by
    have hentry : p.queue.entry k = e := by
      rw [queue, hq]
      exact ExpirationQueue.entry_of_get? he
    have hlive : ∀ n ∈ e.members, n ∈ p.liveSectors := fun n hn => (hp.live_iff n).2 ⟨k, hentry ▸ hn⟩
    have hexact := hentry ▸ hp.queue_sound.exact k
    exact ExpirationSet.validate_eq_ok.2
      (hexact.nonneg (fun n hm => (hn n (hlive n hm)).1) fun n hm => (hn n (hlive n hm)).2)

/-- **After every run the checks pass.** -/
theorem valid_of_run {operations : List Operation}
    (h : foldOutcome (Operation.apply grid size table) {} operations = .ok p) : p.Valid :=
  foldOutcome_invariant (I := fun _ p => p.Valid) h valid_empty fun _ _ _ _ _ _ hp ho => hp.apply ho

end SectorLedger.Partition
