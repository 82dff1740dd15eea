import SectorLedger.Proofs.Partition.Run

/-!
# A fault cannot be prolonged

A sector that becomes faulty comes to a place not after the fault's expiration. Faulty sectors may be declared
faulty again or recovering, be skipped by a proof, or miss it with all the others; none of this moves them to a later
place, nor does a change of expirations. So a sector that stays faulty ends when the fault expires.

* `Sheltered`: what one operation may do to the places of faulty sectors.
* `Sound.sheltered`: every operation keeps to it.
* `FaultyRun`: a run during which a sector is faulty all the time.
* `fault_not_prolonged`: such a run never moves the sector to a later place, and it ends in time.
-/

namespace SectorLedger.Partition

open NumberSet

variable {grid : Grid} {size : SectorSize} {table : SectorTable} {p p' : Partition} {ns : NumberSet} {n : Nat}
  {os : List Operation}

/-- The expiration of the faults that an operation may bring. -/
def Operation.faultExpiration? : Operation → Option Int
  | declareFaults _ epoch => some epoch
  | recordSkippedFaults epoch _ => some epoch
  | recordMissedProof epoch => some epoch
  | _ => none

/-- What an operation may do to the places of faulty sectors, its own faults expiring at the given epoch. -/
structure Sheltered (grid : Grid) (epoch? : Option Int) (p p' : Partition) : Prop where
  /-- New faults are not after their expiration. -/
  le_limit : ∀ n ∈ p'.faults, n ∉ p.faults → ∃ epoch limit, epoch? = some epoch ∧ grid.up epoch = .ok limit ∧
    ∀ k : Nat, n ∈ (p'.queue.entry k).members → (k : Int) ≤ limit
  /-- Old faults are not later than before. -/
  le_place : ∀ n ∈ p.faults, n ∈ p'.faults → ∀ k, n ∈ (p'.queue.entry k).members →
    ∃ j, n ∈ (p.queue.entry j).members ∧ k ≤ j

/-- An operation without new faults has to leave the old ones where they are. -/
theorem Sheltered.of_stay {epoch? : Option Int} (hfaults : ∀ n ∈ p'.faults, n ∈ p.faults)
    (hplace : ∀ n ∈ p.faults, n ∈ p'.faults → ∀ k, n ∈ (p'.queue.entry k).members → n ∈ (p.queue.entry k).members) :
    Sheltered grid epoch? p p' where
  le_limit n hn hno := absurd (hfaults n hn) hno
  le_place n hn hn' k hk := ⟨k, hplace n hn hn' k hk, le_rfl⟩

/-- Sectors that end do not move the others. -/
theorem Sheltered.of_ended {epoch? : Option Int} (h : Ended ns p p') : Sheltered grid epoch? p p' :=
  .of_stay (fun _ hn => (mem_sdiff.1 (h.faults_eq ▸ hn)).1) fun n _ _ k hk => ((h.place k n).1 hk).1

/-- New faults move forward to their expiration, and old ones with them. -/
theorem FaultedBy.sheltered {epoch : Int} (h : FaultedBy grid epoch ns p p') : Sheltered grid (some epoch) p p' := by
  obtain ⟨limit, hlimit, hmoved, hearly⟩ := h.moved
  refine ⟨fun n hn hno => ?_, fun n _ _ k hk => ?_⟩
  · have hns : n ∈ ns := (mem_union.1 (h.faults_eq ▸ hn)).resolve_left hno
    have hup := hlimit fun he => not_mem_empty n (he ▸ hns)
    exact ⟨epoch, limit, rfl, hup, fun k hk => hmoved.le_limit hns (hearly n hns) hk⟩
  · rcases hmoved.place hk with hk | ⟨rfl, -, j, hlt, hj⟩
    · exact ⟨k, hk, le_rfl⟩
    · exact ⟨j, hj, by omega⟩

/-- **Every operation shelters faulty sectors.** Those that bring faults move sectors forward only, and the others
leave the faulty ones alone. -/
theorem Sound.sheltered (hu : 0 < grid.unit) (hk : table.Keyed) (hp : p.Sound grid size table) {o : Operation}
    (ho : o.Admissible table) (h : o.apply grid size table p = .ok p') : Sheltered grid o.faultExpiration? p p' := by
  cases o with
  | addSectors proven ss =>
    obtain ⟨⟨_, w⟩, hdone, rfl⟩ := map_eq_ok.1 h
    obtain ⟨-, hfresh, -, -, hfaults, -, -, hplace⟩ := hp.addSectors hu (SectorTable.lists_ofList ho.1 ho.2) hdone
    refine .of_stay (fun n hn => hfaults ▸ hn) fun n hn _ k hk => (hplace k n hk).resolve_right fun hnew => ?_
    exact hfresh n hnew.1 (mem_liveSectors.1 (hp.faults_live n hn)).1
  | declareFaults numbers epoch =>
    obtain ⟨⟨_, newFaults, fd⟩, hdone, rfl⟩ := map_eq_ok.1 h
    exact (hp.declareFaults hu hk hdone).2.1.sheltered
  | declareRecovered numbers =>
    obtain ⟨-, -, hfaults, hqueue⟩ := hp.declareRecovered hk h
    exact .of_stay (fun n hn => hfaults ▸ hn) fun n _ _ k hk => hqueue ▸ hk
  | recordSkippedFaults epoch skipped =>
    obtain ⟨⟨_, sf⟩, hdone, rfl⟩ := map_eq_ok.1 h
    obtain ⟨-, newFaults, hfaulted, -⟩ := hp.recordSkippedFaults hu hk hdone
    exact hfaulted.sheltered
  | recoverFaults =>
    obtain ⟨⟨_, w⟩, hdone, rfl⟩ := map_eq_ok.1 h
    obtain ⟨-, -, hfaults, -, hplace⟩ := hp.recoverFaults hu hk hdone
    refine .of_stay (fun n hn => (mem_sdiff.1 (hfaults ▸ hn)).1) fun n _ hn k hk => ?_
    exact (hplace k n hk).resolve_right fun hrec => (mem_sdiff.1 (hfaults ▸ hn)).2 hrec.1
  | activateUnproven =>
    obtain rfl := Except.ok.inj h
    exact .of_stay (fun n hn => hn) fun n _ _ k hk => hk
  | terminateSectors maxSectors epoch numbers =>
    obtain ⟨⟨_, removed⟩, hdone, rfl⟩ := map_eq_ok.1 h
    exact .of_ended (hp.terminateSectors hu hk hdone).2.1
  | popExpired upTo =>
    obtain ⟨⟨_, popped⟩, hdone, rfl⟩ := map_eq_ok.1 h
    exact .of_ended (hp.popExpired hdone).2.1
  | recordMissedProof epoch =>
    obtain ⟨⟨_, missed⟩, hdone, rfl⟩ := map_eq_ok.1 h
    exact (hp.recordMissedProof hu hdone).2.1.sheltered
  | popEarlyTerminations maxSectors =>
    obtain ⟨⟨_, taken, more⟩, hdone, rfl⟩ := map_eq_ok.1 h
    obtain ⟨-, -, -, hfaults, hqueue, -⟩ := hp.popEarlyTerminations hdone
    exact .of_stay (fun n hn => hfaults ▸ hn) fun n _ _ k hk => hqueue ▸ hk
  | rescheduleExpirations epoch numbers =>
    obtain ⟨⟨_, moved⟩, hdone, rfl⟩ := map_eq_ok.1 h
    obtain ⟨-, -, hfaults, ns, -, hactive, hplace⟩ := hp.rescheduleExpirations hu hk hdone
    refine .of_stay (fun n hn => hfaults ▸ hn) fun n hn _ k hk => ?_
    exact (((hplace k n).1 hk).resolve_right fun hns => (hactive n hns.1).2.2 hn).1

/-! ### Runs -/

/-- A run of operations during which a sector is faulty all the time. -/
inductive FaultyRun (grid : Grid) (size : SectorSize) (table : SectorTable) (n : Nat) :
    Partition → List Operation → Partition → Prop where
  /-- Nothing happens to the partition. -/
  | nil {p : Partition} : n ∈ p.faults → FaultyRun grid size table n p [] p
  /-- An operation, and the run from what it leaves. -/
  | cons {p p' p'' : Partition} {o : Operation} {os : List Operation} : n ∈ p.faults → o.Admissible table →
    o.apply grid size table p = .ok p' → FaultyRun grid size table n p' os p'' →
    FaultyRun grid size table n p (o :: os) p''

namespace FaultyRun

theorem faulty (h : FaultyRun grid size table n p os p') : n ∈ p.faults ∧ n ∈ p'.faults := by
  induction h with
  | nil hn => exact ⟨hn, hn⟩
  | cons hn _ _ _ ih => exact ⟨hn, ih.2⟩

theorem sound (hu : 0 < grid.unit) (hk : table.Keyed) (h : FaultyRun grid size table n p os p')
    (hp : p.Sound grid size table) : p'.Sound grid size table := by
  induction h with
  | nil _ => exact hp
  | cons _ ho hop _ ih => exact ih (hp.apply hu hk ho hop)

/-- The sector is never later than it was in the beginning. -/
theorem le_place (hu : 0 < grid.unit) (hk : table.Keyed) (h : FaultyRun grid size table n p os p')
    (hp : p.Sound grid size table) {k : Nat} (hn : n ∈ (p'.queue.entry k).members) :
    ∃ j, n ∈ (p.queue.entry j).members ∧ k ≤ j := by
  induction h with
  | nil _ => exact ⟨k, hn, le_rfl⟩
  | cons hfaulty ho hop hrun ih =>
    obtain ⟨i, hi, hki⟩ := ih (hp.apply hu hk ho hop) hn
    obtain ⟨j, hj, hij⟩ := (hp.sheltered hu hk ho hop).le_place n hfaulty hrun.faulty.1 i hi
    exact ⟨j, hj, hki.trans hij⟩

/-- The partition after the operations, if the sector is faulty all the time and nothing is refused. -/
def follow (grid : Grid) (size : SectorSize) (table : SectorTable) (n : Nat) :
    List Operation → Partition → Option Partition
  | [], p => if n ∈ p.faults then some p else none
  | o :: os, p =>
    if n ∈ p.faults ∧ o.Admissible table then
      match o.apply grid size table p with
      | .ok p' => follow grid size table n os p'
      | .error _ => none
    else none

theorem of_follow (h : follow grid size table n os p = some p') : FaultyRun grid size table n p os p' := by
  induction os generalizing p with
  | nil =>
    unfold follow at h
    split at h
    · next hn =>
      obtain rfl := Option.some.inj h
      exact .nil hn
    · cases h
  | cons o os ih =>
    unfold follow at h
    split at h
    · next hn =>
      split at h
      · next p₁ hop => exact .cons hn.1 hn.2 hop (ih h)
      · cases h
    · cases h

end FaultyRun

/-- What is due when everything up to an epoch ends, ends. -/
theorem Sound.mem_of_popExpired (hp : p.Sound grid size table) {upTo : Int} {popped : ExpirationSet}
    (h : p.popExpired upTo = .ok (p', popped)) {k : Nat} (hn : n ∈ (p.queue.entry k).members)
    (hle : (k : Int) ≤ upTo) : n ∈ popped.members ∧ n ∈ p'.terminated ∧ n ∉ p'.faults ∧ ¬p'.queue.Holds n := by
  obtain ⟨-, hended, -, -, -, hentry, -, -⟩ := hp.popExpired h
  have hpopped : n ∈ popped.members := by
    by_contra hno
    have hstays := (hended.place k n).2 ⟨hn, hno⟩
    rw [hentry, if_pos hle] at hstays
    simp at hstays
  refine ⟨hpopped, ?_, ?_, ?_⟩
  · rw [hended.terminated_eq]
    exact mem_union.2 (.inr hpopped)
  · rw [hended.faults_eq]
    exact fun hn' => (mem_sdiff.1 hn').2 hpopped
  · rintro ⟨j, hj⟩
    exact ((hended.place j n).1 hj).2 hpopped

/-- **A fault cannot be prolonged.** A run during which a sector is faulty all the time never moves it to a later
place. If an operation has made it faulty before, its place is not after that fault's expiration, and it ends when
everything up to there ends. -/
theorem fault_not_prolonged (hu : 0 < grid.unit) (hk : table.Keyed) (hp : p.Sound grid size table)
    (hrun : FaultyRun grid size table n p os p') :
    ∃ j k, n ∈ (p.queue.entry j).members ∧ n ∈ (p'.queue.entry k).members ∧ k ≤ j ∧
      ∀ (p₀ : Partition) (o : Operation), p₀.Sound grid size table → o.Admissible table →
        o.apply grid size table p₀ = .ok p → n ∉ p₀.faults →
        ∃ epoch limit, o.faultExpiration? = some epoch ∧ grid.up epoch = .ok limit ∧ (j : Int) ≤ limit ∧
          ∀ upTo p'' popped, limit ≤ upTo → p'.popExpired upTo = .ok (p'', popped) →
            n ∈ popped.members ∧ n ∈ p''.terminated ∧ n ∉ p''.faults ∧ ¬p''.queue.Holds n := by
  have hp' := hrun.sound hu hk hp
  obtain ⟨k, hk'⟩ := (hp'.live_iff n).1 (hp'.faults_live n hrun.faulty.2)
  obtain ⟨j, hj, hkj⟩ := hrun.le_place hu hk hp hk'
  refine ⟨j, k, hj, hk', hkj, fun p₀ o hp₀ ho hop hno => ?_⟩
  obtain ⟨epoch, limit, hepoch, hup, hle⟩ := (hp₀.sheltered hu hk ho hop).le_limit n hrun.faulty.1 hno
  have hjl := hle j hj
  exact ⟨epoch, limit, hepoch, hup, hjl, fun upTo p'' popped hupTo hpop =>
    hp'.mem_of_popExpired hpop hk' (by omega)⟩

/-- The first sector is declared to recover, and faulty again; then the expirations move and a proof is missed. These
faults would expire later than the sector's first one. -/
def sampleFaultyRun : List Operation :=
  [.declareRecovered (.ofList [1]), .declareFaults (.ofList [1]) 14, .rescheduleExpirations 30 (.ofList [1, 2]),
    .recordMissedProof 23]

/-- A fault that expires at 3 brings the first sector to 5. There it is still after the run, and it ends. -/
theorem fault_not_prolonged_sampleFaultyRun : ∃ p p' p'' popped,
    FaultyRun ⟨5, 0⟩ .kib2 (.ofList sample) 1 p sampleFaultyRun p' ∧ 1 ∈ (p.queue.entry 5).members ∧
    p'.popExpired 6 = .ok (p'', popped) ∧ 1 ∈ popped.members ∧ 1 ∈ p''.terminated ∧ 1 ∉ p''.faults ∧
    ¬p''.queue.Holds 1 := by
  have hu : (0 : Int) < (⟨5, 0⟩ : Grid).unit := by decide
  have hk := SectorTable.keyed_ofList sample
  have hstart : ((foldOutcome (Operation.apply ⟨5, 0⟩ .kib2 (.ofList sample)) {} [.addSectors true sample]).map fun p =>
      (decide (1 ∈ p.faults), ((Operation.declareFaults (.ofList [1]) 3).apply ⟨5, 0⟩ .kib2 (.ofList sample) p).map
        fun p => (decide (1 ∈ (p.queue.entry 5).members), (FaultyRun.follow ⟨5, 0⟩ .kib2 (.ofList sample) 1
          sampleFaultyRun p).map fun p => (p.popExpired 6).map fun r => ()))) =
      .ok (false, .ok (true, some (.ok ()))) := by decide +kernel
  obtain ⟨p₀, hp₀, heq⟩ := map_eq_ok.1 hstart
  obtain ⟨hno, hfault⟩ := Prod.mk.inj heq
  obtain ⟨p, hp, heq⟩ := map_eq_ok.1 hfault
  obtain ⟨hplace, hfollow⟩ := Prod.mk.inj heq
  obtain ⟨p', hp', hpop⟩ := Option.map_eq_some_iff.1 hfollow
  obtain ⟨⟨p'', popped⟩, hpop, -⟩ := map_eq_ok.1 hpop
  have hsound₀ := sound_empty.run hu hk (by decide +kernel) hp₀
  have hsound := hsound₀.apply hu hk (o := .declareFaults (.ofList [1]) 3) trivial hp
  have hrun := FaultyRun.of_follow hp'
  obtain ⟨j, k, -, -, -, hend⟩ := fault_not_prolonged hu hk hsound hrun
  obtain ⟨epoch, limit, hepoch, hup, -, hend⟩ := hend p₀ (.declareFaults (.ofList [1]) 3) hsound₀ trivial hp
    (of_decide_eq_false hno)
  obtain rfl : 3 = epoch := Option.some.inj hepoch
  obtain rfl : 5 = limit := Except.ok.inj ((by decide : (⟨5, 0⟩ : Grid).up 3 = .ok 5).symm.trans hup)
  exact ⟨p, p', p'', popped, hrun, of_decide_eq_true hplace, hpop, hend 6 p'' popped (by decide) hpop⟩

end SectorLedger.Partition
