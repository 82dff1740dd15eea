import SectorLedger.Proofs.Expiration.Adding
import SectorLedger.Proofs.Partition.Members
import SectorLedger.Proofs.Partition.Valid

/-!
# New sectors in any batches

New sectors without negative powers and pledges can make no total of a partition negative, and no total larger than one
that it is part of. So the check at the end refuses nothing, and sectors may come in as many batches as one likes.

* `Newcomers`: new sectors that pass the checks.
* `enlarged`: a partition with more sectors.
* `Valid.addSectors_append`: two batches do what one does.
-/

namespace SectorLedger

open NumberSet

variable {grid : Grid} {size : SectorSize} {ss ts : List Sector}

/-- Sectors whose numbers are not known yet, no two with one number, without negative powers and pledges. -/
structure Newcomers (size : SectorSize) (known : Nat → Prop) (ss : List Sector) : Prop where
  /-- Powers and pledges are not negative. -/
  nonneg : ∀ s ∈ ss, s.Nonneg size
  /-- No two have one number. -/
  nodup : (ss.map (·.number)).Nodup
  /-- Their numbers are new. -/
  fresh : ∀ s ∈ ss, ¬known s.number

variable {known known' : Nat → Prop}

instance [DecidablePred known] : Decidable (Newcomers size known ss) :=
  decidable_of_iff ((∀ s ∈ ss, s.Nonneg size) ∧ (ss.map (·.number)).Nodup ∧ ∀ s ∈ ss, ¬known s.number)
    ⟨fun h => ⟨h.1, h.2.1, h.2.2⟩, fun h => ⟨h.nonneg, h.nodup, h.fresh⟩⟩

theorem Newcomers.mono (h : Newcomers size known ss) (hknown : ∀ n, known' n → known n) : Newcomers size known' ss :=
  ⟨h.nonneg, h.nodup, fun s hs hn => h.fresh s hs (hknown _ hn)⟩

/-- Of two batches the second must be new after the first. -/
theorem newcomers_append : Newcomers size known (ss ++ ts) ↔
    Newcomers size known ss ∧ Newcomers size (fun n => known n ∨ n ∈ ss.map (·.number)) ts := by
  constructor
  · rintro ⟨hnonneg, hnodup, hfresh⟩
    obtain ⟨hss, hts⟩ := List.forall_mem_append.1 hnonneg
    obtain ⟨hfss, hfts⟩ := List.forall_mem_append.1 hfresh
    rw [List.map_append, List.nodup_append] at hnodup
    obtain ⟨hnss, hnts, hapart⟩ := hnodup
    exact ⟨⟨hss, hnss, hfss⟩, hts, hnts, fun s hs hin =>
      hin.elim (hfts s hs) fun hin => hapart _ hin _ (List.mem_map_of_mem hs) rfl⟩
  · rintro ⟨hss, hts⟩
    refine ⟨List.forall_mem_append.2 ⟨hss.nonneg, hts.nonneg⟩, ?_, List.forall_mem_append.2 ⟨hss.fresh, fun s hs hin =>
      hts.fresh s hs (.inl hin)⟩⟩
    rw [List.map_append, List.nodup_append]
    refine ⟨hss.nodup, hts.nodup, fun n hn m hm he => ?_⟩
    obtain ⟨s, hs, rfl⟩ := List.mem_map.1 hm
    exact hts.fresh s hs (.inr (he ▸ hn))

namespace Partition

variable {p p' : Partition} {q q' : ExpirationQueue} {lot : Lot} {proven : Bool} {w : Power}

/-- The partition with a lot of new sectors, and the queue that they have entered. -/
def enlarged (p : Partition) (proven : Bool) (q : ExpirationQueue) (lot : Lot) : Partition := { p with
  expirations := .held q
  sectors := p.sectors ∪ lot.numbers
  livePower := p.livePower + lot.power
  unprovenPower := if proven then p.unprovenPower else p.unprovenPower + lot.power
  unproven := if proven then p.unproven else p.unproven ∪ lot.numbers }

theorem enlarged_enlarged (p : Partition) (proven : Bool) (q q' : ExpirationQueue) (lot lot' : Lot) :
    (p.enlarged proven q lot).enlarged proven q' lot' = p.enlarged proven q' (lot.join lot') := by
  cases proven <;> simp [enlarged, Lot.join, union_assoc, add_assoc]

/-- A checked partition stays so, with new sectors of no negative power. -/
theorem validate_enlarged (h : p.validate = .ok ()) (hlot : lot.power.Nonneg) (hnew : ∀ n ∈ lot.numbers, n ∉ p.sectors)
    (proven : Bool) (q : ExpirationQueue) : (p.enlarged proven q lot).validate = .ok () := by
  obtain ⟨_, hpower, hsets⟩ := bind_eq_ok.1 h
  obtain ⟨hlive, hunproven, hfaulty, hrecovering, hle, hle', hle'', hle'''⟩ := validatePower_eq_ok.1 hpower
  obtain ⟨hended, hin, hrecoveries⟩ := validateSets_eq_ok.1 hsets
  have hraw := hlot.1
  have hpending : ∀ {n}, n ∈ (p.enlarged proven q lot).unproven ∨ n ∈ p.faults →
      (n ∈ p.unproven ∨ n ∈ p.faults) ∨ n ∈ lot.numbers := by
    intro n hn
    cases proven <;> simp only [enlarged, if_true, Bool.false_eq_true, if_false, mem_union] at hn <;> tauto
  refine bind_eq_ok.2 ⟨(), validatePower_eq_ok.2 ⟨hlive.add hlot, ?_, hfaulty, hrecovering, ?_, ?_, ?_, hle'''⟩,
    validateSets_eq_ok.2 ⟨fun n hn hend => ?_, fun n hn => mem_union.2 ?_, hrecoveries⟩⟩
  · cases proven
    · exact hunproven.add hlot
    · exact hunproven
  · cases proven <;> simp only [enlarged, if_true, Bool.false_eq_true, if_false, Power.raw_add] <;> omega
  · exact hle'.trans (le_add_of_nonneg_right hraw)
  · exact hle''.trans (le_add_of_nonneg_right hraw)
  · rcases hpending hn with hn | hn
    · exact hended n hn hend
    · exact hnew n hn (hin n (.inr hend))
  · rcases hn with hn | hn
    · exact (hpending hn).imp_left fun hn => hin n (.inl hn)
    · exact .inl (hin n (.inr hn))

/-- Only the data of the newcomers can stop them. -/
theorem Valid.addSectors_eq_ok (h : p.Valid) (hss : Newcomers size (· ∈ p.sectors) ss) :
    p.addSectors grid size proven ss = .ok (p', w) ↔ ∃ q q' lot, p.expirations = .held q ∧
      q.addActive grid size ss = .ok (q', lot) ∧ p.enlarged proven q' lot = p' ∧
      (if proven then lot.power else 0) = w := by
  simp only [Partition.addSectors, bind_eq_ok, loadExpirations_eq_ok, noting_eq_ok, refused_bind, ite_refused_eq_ok,
    validated_eq_ok, pure_eq_ok, Prod.mk.injEq, containsAny_iff]
  constructor
  · rintro ⟨q, hq, ⟨q₁, lot⟩, hadd, -, _, ⟨-, rfl⟩, rfl, rfl⟩
    exact ⟨q, q₁, lot, hq, hadd, rfl, rfl⟩
  · rintro ⟨q, q₁, lot, hq, hadd, rfl, rfl⟩
    have hnew : ∀ n ∈ lot.numbers, n ∉ p.sectors := by
      intro n hn
      rw [ExpirationQueue.numbers_of_addActive hss.nodup hadd, mem_ofList] at hn
      obtain ⟨s, hs, rfl⟩ := List.mem_map.1 hn
      exact hss.fresh s hs
    have hlot : lot.power.Nonneg := ExpirationQueue.nonneg_of_addActive (h.queue q hq) hss.nonneg hadd
    refine ⟨q, hq, (q₁, lot), hadd, ?_, _, ⟨validate_enlarged h.checked hlot hnew proven q₁, rfl⟩, rfl, rfl⟩
    rintro ⟨n, hn, hin⟩
    exact hnew n hn hin

/-- New sectors fill as many places, and the queue is there. -/
theorem Valid.count_of_addSectors (h : p.Valid) (hss : Newcomers size (· ∈ p.sectors) ss)
    (hadd : p.addSectors grid size proven ss = .ok (p', w)) :
    p'.sectors.count = p.sectors.count + ss.length ∧ ∃ q, p'.expirations = .held q := by
  obtain ⟨q, q', lot, -, hactive, rfl, -⟩ := (h.addSectors_eq_ok hss).1 hadd
  refine ⟨?_, q', rfl⟩
  have hnew : ∀ n ∈ p.sectors, n ∉ ofList (ss.map (·.number)) := by
    intro n hin hn
    obtain ⟨s, hs, rfl⟩ := List.mem_map.1 (mem_ofList.1 hn)
    exact hss.fresh s hs hin
  rw [enlarged, ExpirationQueue.numbers_of_addActive hss.nodup hactive, count_union hnew, count_ofList hss.nodup,
    List.length_map]

/-- No sectors change nothing. -/
theorem Valid.addSectors_nil {q : ExpirationQueue} (h : p.Valid) (hq : p.expirations = .held q) :
    p.addSectors grid size proven [] = .ok (p', w) ↔ p' = p ∧ w = 0 := by
  have hnone : p.enlarged proven q {} = p := by
    cases p
    subst hq
    cases proven <;> simp [enlarged]
  have hnew : Newcomers size (· ∈ p.sectors) [] := ⟨by simp, List.nodup_nil, by simp⟩
  rw [h.addSectors_eq_ok hnew]
  constructor
  · rintro ⟨q₀, _, _, hq₀, hadd, rfl, rfl⟩
    obtain rfl := Stored.held.inj (hq.symm.trans hq₀)
    obtain ⟨rfl, rfl⟩ := Prod.mk.inj (Except.ok.inj hadd)
    exact ⟨hnone, ite_self 0⟩
  · rintro ⟨rfl, rfl⟩
    exact ⟨q, q, {}, hq, rfl, hnone, ite_self 0⟩

/-- **Two batches of new sectors do what one does.** -/
theorem Valid.addSectors_append (h : p.Valid) (hss : Newcomers size (· ∈ p.sectors) (ss ++ ts)) :
    p.addSectors grid size proven (ss ++ ts) = .ok (p', w) ↔ ∃ p₁ w₁ w₂,
      p.addSectors grid size proven ss = .ok (p₁, w₁) ∧ p₁.addSectors grid size proven ts = .ok (p', w₂) ∧
      w₁ + w₂ = w := by
  obtain ⟨hfirst, hsecond⟩ := newcomers_append.1 hss
  have hnext : ∀ {p₁ w₁}, p.addSectors grid size proven ss = .ok (p₁, w₁) →
      p₁.Valid ∧ Newcomers size (· ∈ p₁.sectors) ts := by
    intro p₁ w₁ h₁
    refine ⟨h.addSectors h₁, hsecond.mono fun n hn => ?_⟩
    rw [(sectors_of_addSectors hfirst.nodup h₁).1, mem_union, mem_ofList] at hn
    exact hn
  have hsum : ∀ lot lot' : Lot, (if proven then (lot.join lot').power else 0) =
      (if proven then lot.power else 0) + if proven then lot'.power else 0 := by
    intro lot lot'
    cases proven
    · exact (add_zero 0).symm
    · rfl
  rw [h.addSectors_eq_ok hss]
  constructor
  · rintro ⟨q, q', lot, hq, hadd, rfl, rfl⟩
    obtain ⟨q₁, lot₁, lot₂, hadd₁, hadd₂, rfl⟩ := (ExpirationQueue.addActive_append (h.queue q hq) hfirst.nonneg
      hsecond.nonneg).1 hadd
    have h₁ : p.addSectors grid size proven ss = .ok _ :=
      (h.addSectors_eq_ok hfirst).2 ⟨q, q₁, lot₁, hq, hadd₁, rfl, rfl⟩
    obtain ⟨hvalid, hnew⟩ := hnext h₁
    exact ⟨_, _, _, h₁, (hvalid.addSectors_eq_ok hnew).2 ⟨q₁, q', lot₂, rfl, hadd₂, enlarged_enlarged .., rfl⟩,
      (hsum lot₁ lot₂).symm⟩
  · rintro ⟨p₁, w₁, w₂, h₁, h₂, rfl⟩
    obtain ⟨hvalid, hnew⟩ := hnext h₁
    obtain ⟨q, q₁, lot₁, hq, hadd₁, rfl, rfl⟩ := (h.addSectors_eq_ok hfirst).1 h₁
    obtain ⟨_, q', lot₂, hq₁, hadd₂, rfl, rfl⟩ := (hvalid.addSectors_eq_ok hnew).1 h₂
    obtain rfl := Stored.held.inj hq₁
    exact ⟨q, q', lot₁.join lot₂, hq, (ExpirationQueue.addActive_append (h.queue q hq) hfirst.nonneg
      hsecond.nonneg).2 ⟨q₁, lot₁, lot₂, hadd₁, hadd₂, rfl⟩, (enlarged_enlarged ..).symm, hsum lot₁ lot₂⟩

end Partition

end SectorLedger
