import SectorLedger.Proofs.Deadline.Adding
import SectorLedger.Proofs.Deadline.Shape

/-!
# Batches of new sectors

A deadline takes new sectors in one batch or in two, with the same result. This rests on the checks of its partitions
and of their queues: while no total is negative, new sectors without negative powers and pledges cannot make one so,
and whether a batch is refused is a matter of its sectors alone. Where a total is negative, it depends on the rest of
the batch whether the sum is.

* `Deadline.alone`: a deadline with one sector, which is sound whatever the sector's pledge is.
* `Deadline.addInTurn`: two batches, one after the other.
* `Deadline.addSectors_ok_iff_addInTurn`: they do what one does.
-/

namespace SectorLedger

open SparseArray NumberSet

variable {grid : Grid} {size : SectorSize} {table : SectorTable} {k : Nat} {proven : Bool} {s : Sector}
  {ss ts : List Sector} {w : Power}

/-! ### One sector -/

section Alone

variable {key : Nat}

/-- A deadline with one partition, of one sector. -/
def Deadline.alone (s : Sector) (w : Power) (key : Nat) : Deadline where
  partitions := .held (SparseArray.insert ∅ 0 (.alone s w key))
  expirations := .held (SparseArray.insert ∅ key (singleton 0))
  live := 1
  total := 1

theorem Deadline.get?_parts_alone {i : Nat} {p : Partition} :
    (Deadline.alone s w key).parts.get? i = some p ↔ i = 0 ∧ p = .alone s w key := by
  have hget : (Deadline.alone s w key).parts.get? i = if i = 0 then some (.alone s w key) else none :=
    get?_insert ∅ 0 i _
  rw [hget]
  split
  · next hi => rw [Option.some.injEq, and_iff_right hi, eq_comm]
  · next hi => simp [hi]

theorem Deadline.total_alone {M : Type} [AddCommGroup M] (f : Partition → M) :
    SparseArray.total f (Deadline.alone s w key).parts = f (.alone s w key) :=
  (total_insert f ∅ 0 _).trans (by simp)

theorem Deadline.mem_queue_alone {i j : Nat} : i ∈ (Deadline.alone s w key).queue.entry j ↔ j = key ∧ i = 0 := by
  have hentry : (Deadline.alone s w key).queue.entry j = if j = key then singleton 0 else ∅ :=
    NumberQueue.entry_insert ∅ key j _
  rw [hentry]
  split
  · next hj => rw [mem_singleton, and_iff_right hj]
  · next hj => simp [hj]

theorem Deadline.layout_alone : layout (Deadline.alone s w key).parts = [singleton s.number] := rfl

theorem Deadline.sound_alone (hs : table.Recorded s) (hw : Power.ofSector size s = .ok w) (hon : grid.OnGrid key)
    (hkey : key < 0x8000000000000000) : (Deadline.alone s w key).Sound grid size table where
  partitions_held := rfl
  packed := packed_empty.insert (Nat.zero_le _) _
  sound i p hp := by
    obtain ⟨-, rfl⟩ := get?_parts_alone.1 hp
    exact Partition.sound_alone hs hw hon hkey
  apart i j p p' n hp hp' _ _ := (get?_parts_alone.1 hp).1.trans (get?_parts_alone.1 hp').1.symm
  live_eq := by
    rw [total_alone, Partition.liveSectors_alone, count_singleton]
    rfl
  total_eq := by
    rw [total_alone, Partition.alone, count_singleton]
    rfl
  faultyPower_eq := by
    rw [total_alone]
    rfl
  early_held i p hp := by
    obtain ⟨-, rfl⟩ := get?_parts_alone.1 hp
    exact ⟨∅, rfl⟩
  early_iff i := by
    refine ⟨fun hi => absurd hi (not_mem_empty i), ?_⟩
    rintro ⟨p, q, hp, hq, hsome⟩
    obtain ⟨-, rfl⟩ := get?_parts_alone.1 hp
    obtain rfl := Stored.held.inj hq
    cases hsome
  expirations_held := rfl
  bounded := NumberQueue.bounded_empty.insert hkey
  known j i hi := by
    obtain ⟨-, rfl⟩ := mem_queue_alone.1 hi
    exact Nat.zero_lt_one
  listed i p j e hp he := by
    obtain ⟨rfl, rfl⟩ := get?_parts_alone.1 hp
    obtain ⟨n, hn⟩ := (Partition.sound_alone hs hw hon hkey).queue_sound.nonempty j e he
    rw [← ExpirationQueue.entry_of_get? he, Partition.mem_queue_alone] at hn
    exact mem_queue_alone.2 ⟨hn.1, rfl⟩

theorem Deadline.housed_alone {n : Nat} : Housed (Deadline.alone s w key).parts n ↔ n = s.number := by
  simp only [Housed, get?_parts_alone]
  constructor
  · rintro ⟨_, _, ⟨rfl, rfl⟩, hn⟩
    exact mem_singleton.1 hn
  · rintro rfl
    exact ⟨0, _, ⟨rfl, rfl⟩, mem_singleton.2 rfl⟩

theorem Deadline.shaped_alone (hk : 0 < k) : Shaped k (Deadline.alone s w key) where
  held := rfl
  packed := packed_empty.insert (Nat.zero_le _) _
  nested i p hp := by
    obtain ⟨-, rfl⟩ := get?_parts_alone.1 hp
    exact fun n hn => absurd hn (not_mem_empty n)
  filled := by
    refine ⟨List.pairwise_singleton _ _, fun t ht => ?_⟩
    rw [layout_alone, List.mem_singleton] at ht
    rw [ht, count_singleton]
    exact ⟨Nat.one_pos, hk⟩
  total_eq := by
    rw [layout_alone, population_singleton, count_singleton]
    rfl

end Alone

namespace Deadline

variable {d d' : Deadline}

/-! ### Two batches -/

/-- Adds one batch and then another. -/
def addInTurn (grid : Grid) (size : SectorSize) (k : Nat) (proven : Bool) (d : Deadline) (ss ts : List Sector) :
    Outcome (Deadline × Power) := do
  let (d, w) ← d.addSectors grid size k proven ss
  let (d, w') ← d.addSectors grid size k proven ts
  return (d, w + w')

theorem addInTurn_eq_ok : d.addInTurn grid size k proven ss ts = .ok (d', w) ↔ ∃ d₁ w₁ w₂,
    d.addSectors grid size k proven ss = .ok (d₁, w₁) ∧ d₁.addSectors grid size k proven ts = .ok (d', w₂) ∧
      w₁ + w₂ = w := by
  simp only [addInTurn, bind_eq_ok, pure_eq_ok, Prod.exists, Prod.mk.injEq]
  constructor
  · rintro ⟨d₁, w₁, h₁, _, w₂, h₂, rfl, rfl⟩
    exact ⟨d₁, w₁, w₂, h₁, h₂, rfl⟩
  · rintro ⟨d₁, w₁, w₂, h₁, h₂, rfl⟩
    exact ⟨d₁, w₁, h₁, d', w₂, h₂, rfl, rfl⟩

theorem addSectors_nil : d.addSectors grid size k proven [] = .ok (d, 0) := rfl

/-- **Two batches do what one does**: if one way succeeds so does the other, with the same deadline and power. -/
theorem addSectors_ok_iff_addInTurn (hk : 0 < k) (hpacked : d.parts.Packed)
    (hvalid : Everywhere Partition.Valid d.parts) (hnew : Newcomers size (Housed d.parts) (ss ++ ts)) :
    d.addSectors grid size k proven (ss ++ ts) = .ok (d', w) ↔ d.addInTurn grid size k proven ss ts = .ok (d', w) := by
  rw [addInTurn_eq_ok]
  by_cases hss : ss = []
  · subst hss
    simp [addSectors_nil]
  by_cases hts : ts = []
  · subst hts
    simp [addSectors_nil]
  have hsome : ss ++ ts ≠ [] := List.append_ne_nil_of_left_ne_nil hss ts
  simp only [addSectors_eq_ok, hss, hts, hsome, false_and, false_or, ne_eq, not_false_eq_true, true_and]
  constructor
  · rintro ⟨-, hlive, htotal, ps, q, q', f, hps, hq, hfill, hlist, rfl, rfl⟩
    obtain rfl := parts_eq hps
    obtain ⟨f₁, f₂, hfill₁, hfill₂, rfl⟩ := (fill_append hk hpacked hvalid hnew hss).1 hfill
    obtain ⟨q₁, hlist₁, hlist₂⟩ := NumberQueue.addMany_append.1 hlist
    rw [List.length_append] at hlive htotal
    refine ⟨_, _, _, ⟨hk, by omega, by omega, _, q, q₁, f₁, hps, hq, hfill₁, hlist₁, rfl, rfl⟩,
      ⟨hk, by dsimp only; omega, by dsimp only; omega, _, q₁, q', f₂, rfl, rfl, hfill₂, hlist₂, rfl, ?_⟩, rfl⟩
    simp only [List.length_append, Nat.add_assoc]
    rfl
  · rintro ⟨d₁, w₁, w₂, ⟨-, -, -, ps, q, q₁, f₁, hps, hq, hfill₁, hlist₁, rfl, rfl⟩,
      ⟨-, hlive, htotal, ps₁, q₁', q', f₂, hps₁, hq₁, hfill₂, hlist₂, rfl, rfl⟩, rfl⟩
    obtain rfl := parts_eq hps
    obtain rfl := Stored.held.inj hps₁
    obtain rfl := Stored.held.inj hq₁
    rw [Nat.add_assoc, ← List.length_append] at hlive htotal
    refine ⟨hk, hlive, htotal, _, q, q', f₁.followedBy f₂, hps, hq,
      (fill_append hk hpacked hvalid hnew hss).2 ⟨f₁, f₂, hfill₁, hfill₂, rfl⟩,
      NumberQueue.addMany_append.2 ⟨q₁, hlist₁, hlist₂⟩, rfl, ?_⟩
    simp only [List.length_append, Nat.add_assoc]
    rfl

/-- A sector. -/
def first : Sector := { number := 1, expiration := 10, pledge := 3 }

/-- A deadline with one sector gets two sectors and then two more, of which the first fills a partition. -/
theorem addInTurn_ok_sample :
    let d := alone first ⟨2048, 2048⟩ 13
    let ss : List Sector := [{ number := 2, expiration := 20, pledge := 4 }, { number := 3, expiration := 9 }]
    let ts : List Sector := [{ number := 4, expiration := 12 }, { number := 5, expiration := 20, pledge := 6 }]
    0 < 2 ∧ d.parts.Packed ∧ Everywhere Partition.Valid d.parts ∧ Newcomers .kib2 (Housed d.parts) (ss ++ ts) ∧
      ∃ d' w, d.addSectors ⟨4, 1⟩ .kib2 2 true (ss ++ ts) = .ok (d', w) ∧
        d.addInTurn ⟨4, 1⟩ .kib2 2 true ss ts = .ok (d', w) ∧
        layout d'.parts = [.ofList [1, 2], .ofList [3, 4], .ofList [5]] ∧ w = ⟨8192, 8192⟩ := by
  intro d ss ts
  have hsound : d.Sound ⟨4, 1⟩ .kib2 (.ofList (first :: ss ++ ts)) :=
    sound_alone (SectorTable.recorded_ofList (by decide) first List.mem_cons_self) (by decide +kernel)
      (show (4 : Int) ∣ 13 - 1 by decide) (by decide)
  have hvalid : Everywhere Partition.Valid d.parts := fun i p hp => by
    have hnonneg : (Partition.alone first ⟨2048, 2048⟩ 13).Nonneg .kib2 (.ofList (first :: ss ++ ts)) := by
      decide +kernel
    obtain ⟨-, rfl⟩ := get?_parts_alone.1 hp
    exact (hsound.sound i _ hp).valid hnonneg
  have hnew : Newcomers .kib2 (Housed d.parts) (ss ++ ts) :=
    (show Newcomers .kib2 (· = 1) (ss ++ ts) by decide +kernel).mono fun n => housed_alone.1
  have hrun : ((d.addInTurn ⟨4, 1⟩ .kib2 2 true ss ts).map fun r => (layout r.1.parts, r.2)) =
      .ok ([.ofList [1, 2], .ofList [3, 4], .ofList [5]], ⟨8192, 8192⟩) := by decide +kernel
  obtain ⟨⟨d', w⟩, hturn, heq⟩ := map_eq_ok.1 hrun
  obtain ⟨hlayout, hw⟩ := Prod.mk.inj heq
  exact ⟨by decide, hsound.packed, hvalid, hnew, d', w,
    (addSectors_ok_iff_addInTurn (by decide) hsound.packed hvalid hnew).2 hturn, hturn, hlayout, hw⟩

/-- A sector with a negative pledge. -/
def debtor : Sector := { number := 1, expiration := 20, pledge := -5 }

/-- A deadline that has only this sector is sound and filled as it should be. It takes two sectors in one batch, whose
pledges make up for the negative one, and refuses them one after the other. -/
theorem addInTurn_refused_of_debtor :
    let d := alone debtor ⟨2048, 2048⟩ 21
    let ss : List Sector := [{ number := 2, expiration := 20, pledge := 3 }]
    let ts : List Sector := [{ number := 3, expiration := 20, pledge := 4 }]
    d.Sound ⟨4, 1⟩ .kib2 (.ofList (debtor :: ss ++ ts)) ∧ Shaped 4 d ∧ Newcomers .kib2 (Housed d.parts) (ss ++ ts) ∧
      (∃ r, d.addSectors ⟨4, 1⟩ .kib2 4 true (ss ++ ts) = .ok r) ∧
      ∀ r, d.addInTurn ⟨4, 1⟩ .kib2 4 true ss ts ≠ .ok r := by
  intro d ss ts
  have hsound : d.Sound ⟨4, 1⟩ .kib2 (.ofList (debtor :: ss ++ ts)) :=
    sound_alone (SectorTable.recorded_ofList (by decide) debtor List.mem_cons_self) (by decide +kernel)
      (show (4 : Int) ∣ 21 - 1 by decide) (by decide)
  refine ⟨hsound, shaped_alone (by decide),
    (show Newcomers .kib2 (· = 1) (ss ++ ts) by decide +kernel).mono fun n => housed_alone.1, ?_, fun r hr => ?_⟩
  · have hrun : ((d.addSectors ⟨4, 1⟩ .kib2 4 true (ss ++ ts)).map fun r => r.2) = .ok ⟨4096, 4096⟩ := by decide +kernel
    obtain ⟨r, hr, -⟩ := map_eq_ok.1 hrun
    exact ⟨r, hr⟩
  · have hrun : (d.addInTurn ⟨4, 1⟩ .kib2 4 true ss ts).isOk = false := by decide +kernel
    rw [hr] at hrun
    cases hrun

end Deadline

end SectorLedger
