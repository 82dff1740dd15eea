import SectorLedger.Proofs.Deadline.Step
import SectorLedger.Proofs.Partition.Placing

/-!
# Sound deadlines

A deadline keeps totals over its partitions, which of them have terminations to settle, and a queue that tells at
which epochs a partition may have expiring sectors. It is sound if all of these agree with the partitions. That
alone is not kept by the operations: where a partition is listed must be known also for the places to which its
sectors may return.

* `Deadline.Sound`: the specification.
* `Deadline.Invariant`: what the operations keep. `Invariant.sound`: it is enough.
* `Coherent.put`, `Consistent.put`: one partition changes, or comes. The queue may lag behind until the operation ends.
* `queue_of_addExpirationPartitions`: the queue catches up.
-/

namespace SectorLedger.Deadline

open SparseArray

/-- The totals of a deadline agree with its partitions, which are sound and share no sector. -/
structure Coherent (grid : Grid) (size : SectorSize) (table : SectorTable) (d : Deadline) : Prop where
  /-- The partitions are there. -/
  partitions_held : d.partitions = .held d.parts
  /-- The partitions stand at the first positions. -/
  packed : d.parts.Packed
  /-- Each partition is sound. -/
  sound : ∀ i p, d.parts.get? i = some p → p.Sound grid size table
  /-- No sector is in two partitions. -/
  apart : ∀ i j p p' n, d.parts.get? i = some p → d.parts.get? j = some p' → n ∈ p.sectors → n ∈ p'.sectors → i = j
  /-- The number of live sectors. -/
  live_eq : (d.live : Int) = SparseArray.total (fun p => (p.liveSectors.count : Int)) d.parts
  /-- The number of all sectors. -/
  total_eq : (d.total : Int) = SparseArray.total (fun p => (p.sectors.count : Int)) d.parts
  /-- The power of the faulty sectors. -/
  faultyPower_eq : d.faultyPower = SparseArray.total Partition.faultyPower d.parts
  /-- The queues of early terminations are there. -/
  early_held : ∀ i p, d.parts.get? i = some p → ∃ q, p.early = .held q
  /-- The partitions that have terminations to settle. -/
  early_iff : ∀ i, i ∈ d.early ↔
    ∃ p q, d.parts.get? i = some p ∧ p.early = .held q ∧ SparseArray.isEmpty q = false

/-- Totals, partitions and the queue of a deadline agree. -/
structure Sound (grid : Grid) (size : SectorSize) (table : SectorTable) (d : Deadline) : Prop
    extends Coherent grid size table d where
  /-- The queue is there. -/
  expirations_held : d.expirations = .held d.queue
  /-- The queue's keys are epochs. -/
  bounded : d.queue.Bounded
  /-- The queue lists only partitions that exist. -/
  known : ∀ k i, i ∈ d.queue.entry k → i < d.parts.count
  /-- A partition is listed wherever its own queue has an entry. -/
  listed : ∀ i p k e, d.parts.get? i = some p → p.queue.get? k = some e → i ∈ d.queue.entry k

variable (grid : Grid) (size : SectorSize) (table : SectorTable)

/-- The totals agree with the partitions, and each partition is listed where it has to be, according to `listed`.
Faults come at `floor` or later. -/
structure Consistent (floor : Int) (listed : Nat → Nat → Prop) (d : Deadline) : Prop
    extends Coherent grid size table d where
  /-- Each partition is listed where it has to be. -/
  placed : ∀ i p, d.parts.get? i = some p → p.Placed grid table floor (listed i)
  /-- Only partitions that exist are listed. -/
  known : ∀ i k, listed i k → ∃ p, d.parts.get? i = some p

/-- The partitions and the totals agree with the queue. -/
structure Invariant (floor : Int) (d : Deadline) : Prop where
  /-- Partitions and totals, as the queue lists them. -/
  consistent : d.Consistent grid size table floor fun i k => i ∈ d.queue.entry k
  /-- The queue is there. -/
  held : d.expirations = .held d.queue
  /-- Its keys are epochs. -/
  bounded : d.queue.Bounded

variable {grid size table} {floor : Int} {listed listed' : Nat → Nat → Prop} {d d' : Deadline} {i : Nat}
  {p p' : Partition}

theorem coherent_empty : Coherent grid size table {} where
  partitions_held := rfl
  packed := packed_empty
  sound i p hp := by cases hp
  apart i j p p' n hp := by cases hp
  live_eq := rfl
  total_eq := rfl
  faultyPower_eq := rfl
  early_held i p hp := by cases hp
  early_iff i := by
    refine ⟨fun hi => absurd hi (NumberSet.not_mem_empty i), ?_⟩
    rintro ⟨p, q, hp, -⟩
    cases hp

theorem invariant_empty : Invariant grid size table floor {} where
  consistent :=
    { coherent_empty with
      placed := fun i p hp => by cases hp
      known := fun i k hi => absurd hi (NumberSet.not_mem_empty i) }
  held := rfl
  bounded := NumberQueue.bounded_empty

/-- What the operations keep is enough. -/
theorem Invariant.sound (h : d.Invariant grid size table floor) : d.Sound grid size table :=
  { h.consistent with
    expirations_held := h.held
    bounded := h.bounded
    known := fun k i hi => (h.consistent.packed i).1 (h.consistent.known i k hi)
    listed := fun i p k e hp he => by
      obtain ⟨n, hn⟩ := (h.consistent.sound i p hp).queue_sound.nonempty k e he
      rw [← ExpirationQueue.entry_of_get? he] at hn
      exact (h.consistent.placed i p hp).listed_of_mem k n hn }

theorem Consistent.mono (h : d.Consistent grid size table floor listed) {floor' : Int} (hf : floor ≤ floor') :
    d.Consistent grid size table floor' listed :=
  { h with placed := fun i p hp => (h.placed i p hp).mono hf fun _ hk => hk }

theorem Invariant.mono (h : d.Invariant grid size table floor) {floor' : Int} (hf : floor ≤ floor') :
    d.Invariant grid size table floor' :=
  { h with consistent := h.consistent.mono hf }

/-- How it is told where partitions are listed does not matter. -/
theorem Consistent.congr (h : d.Consistent grid size table floor listed) (hl : ∀ i k, listed' i k ↔ listed i k) :
    d.Consistent grid size table floor listed' :=
  { h with
    placed := fun i p hp => (h.placed i p hp).mono le_rfl fun k => (hl i k).2
    known := fun i k hk => h.known i k ((hl i k).1 hk) }

/-! ### One partition at a time -/

/-- The partitions after a change at one position. -/
theorem get?_of_insert (hparts : d'.partitions = .held (d.parts.insert i p')) (j : Nat) (p : Partition)
    (hj : d'.parts.get? j = some p) : (j = i ∧ p = p') ∨ (j ≠ i ∧ d.parts.get? j = some p) := by
  rw [parts_eq hparts] at hj
  exact get?_insert_eq_some.1 hj

/-- The partition at a position changes, or a new one comes after the others. -/
theorem Coherent.put (h : d.Coherent grid size table) (hi : i ≤ d.parts.count) (hs : p'.Sound grid size table)
    (hsectors : ∀ n ∈ p'.sectors,
      n ∈ ((d.parts.get? i).getD {}).sectors ∨ ∀ j p, d.parts.get? j = some p → n ∉ p.sectors)
    (hparts : d'.partitions = .held (d.parts.insert i p'))
    (hlive : (d'.live : Int) =
      d.live + ((p'.liveSectors.count : Int) - ((d.parts.get? i).getD {}).liveSectors.count))
    (htotal : (d'.total : Int) = d.total + ((p'.sectors.count : Int) - ((d.parts.get? i).getD {}).sectors.count))
    (hfaulty : d'.faultyPower = d.faultyPower + (p'.faultyPower - ((d.parts.get? i).getD {}).faultyPower))
    (hearly : ∃ q, p'.early = .held q ∧ (i ∈ d'.early ↔ SparseArray.isEmpty q = false))
    (hothers : ∀ j ≠ i, j ∈ d'.early ↔ j ∈ d.early) : d'.Coherent grid size table := by
  have hparts' : d'.parts = d.parts.insert i p' := parts_eq hparts
  have hget := get?_of_insert hparts
  have hnew : d'.parts.get? i = some p' := by rw [hparts', get?_insert, if_pos rfl]
  have hold : ∀ j p, j ≠ i → d.parts.get? j = some p → d'.parts.get? j = some p := fun j p hne hj => by
    rw [hparts', get?_insert, if_neg hne]
    exact hj
  have hapart : ∀ j p n, j ≠ i → d.parts.get? j = some p → n ∈ p.sectors → n ∉ p'.sectors := by
    intro j p n hne hj hn hn'
    rcases hsectors n hn' with hin | hfresh
    · cases hold : d.parts.get? i with
      | none =>
        rw [hold] at hin
        exact NumberSet.not_mem_empty n hin
      | some p₀ =>
        rw [hold] at hin
        exact hne (h.apart j i p p₀ n hj hold hn hin)
    · exact hfresh j p hj hn
  obtain ⟨q, hq, hq'⟩ := hearly
  refine ⟨by rw [hparts', hparts], by rw [hparts']; exact h.packed.insert hi p', fun j p hj => ?_,
    fun j j' p₁ p₂ n hj hj' hn hn' => ?_, ?_, ?_, ?_, fun j p hj => ?_, fun j => ?_⟩
  · rcases hget j p hj with ⟨-, rfl⟩ | ⟨-, hj⟩
    · exact hs
    · exact h.sound j p hj
  · rcases hget j p₁ hj with ⟨rfl, rfl⟩ | ⟨hne, hj⟩ <;> rcases hget j' p₂ hj' with ⟨rfl, rfl⟩ | ⟨hne', hj'⟩
    · rfl
    · exact absurd hn (hapart j' p₂ n hne' hj' hn')
    · exact absurd hn' (hapart j p₁ n hne hj hn)
    · exact h.apart j j' p₁ p₂ n hj hj' hn hn'
  · rw [hparts', hlive, h.live_eq]
    have hnone : (({} : Partition).liveSectors.count : Int) = 0 := by simp
    exact (total_insert_getD (fun p : Partition => (p.liveSectors.count : Int)) hnone d.parts i p').symm
  · rw [hparts', htotal, h.total_eq]
    exact (total_insert_getD (fun p : Partition => (p.sectors.count : Int)) rfl d.parts i p').symm
  · rw [hparts', hfaulty, h.faultyPower_eq]
    exact (total_insert_getD Partition.faultyPower rfl d.parts i p').symm
  · rcases hget j p hj with ⟨-, rfl⟩ | ⟨-, hj⟩
    · exact ⟨q, hq⟩
    · exact h.early_held j p hj
  · by_cases hji : j = i
    · subst hji
      rw [hq']
      refine ⟨fun he => ⟨p', q, hnew, hq, he⟩, ?_⟩
      rintro ⟨p, q', hj, hp, he⟩
      obtain rfl := Option.some.inj (hnew.symm.trans hj)
      obtain rfl := Stored.held.inj (hq.symm.trans hp)
      exact he
    · rw [hothers j hji, h.early_iff]
      constructor
      · rintro ⟨p, q', hj, hp⟩
        exact ⟨p, q', hold j p hji hj, hp⟩
      · rintro ⟨p, q', hj, hp⟩
        rcases hget j p hj with ⟨he, -⟩ | ⟨-, hj⟩
        · exact absurd he hji
        · exact ⟨p, q', hj, hp⟩

/-- A partition changes and keeps its sectors. -/
theorem Coherent.replace (h : d.Coherent grid size table) (hget : d.parts.get? i = some p)
    (hs : p'.Sound grid size table) (hsectors : p'.sectors = p.sectors)
    (hparts : d'.partitions = .held (d.parts.insert i p'))
    (hlive : (d'.live : Int) = d.live + ((p'.liveSectors.count : Int) - p.liveSectors.count))
    (htotal : d'.total = d.total) (hfaulty : d'.faultyPower = d.faultyPower + (p'.faultyPower - p.faultyPower))
    (hearly : ∃ q, p'.early = .held q ∧ (i ∈ d'.early ↔ SparseArray.isEmpty q = false))
    (hothers : ∀ j ≠ i, j ∈ d'.early ↔ j ∈ d.early) : d'.Coherent grid size table := by
  have hgetD : (d.parts.get? i).getD {} = p := by rw [hget, Option.getD_some]
  have hi : i < d.parts.count := (h.packed i).1 ⟨p, hget⟩
  refine h.put hi.le hs (fun n hn => .inl ?_) hparts (by rw [hgetD, hlive]) ?_ (by rw [hgetD, hfaulty]) hearly hothers
  · rwa [hgetD, ← hsectors]
  · rw [hgetD, hsectors, htotal, sub_self, add_zero]

/-- A partition is among those with terminations to settle if it has some. -/
theorem Coherent.mem_early_iff (h : d.Coherent grid size table) (hget : d.parts.get? i = some p)
    {q : NumberQueue} (hq : p.early = .held q) : i ∈ d.early ↔ SparseArray.isEmpty q = false := by
  rw [h.early_iff]
  refine ⟨?_, fun he => ⟨p, q, hget, hq, he⟩⟩
  rintro ⟨p₁, q₁, hp₁, hq₁, he⟩
  obtain rfl := Option.some.inj (hget.symm.trans hp₁)
  obtain rfl := Stored.held.inj (hq.symm.trans hq₁)
  exact he

/-- A partition changes and keeps its sectors, ended or not, and what it has to settle. -/
theorem Coherent.change (h : d.Coherent grid size table) (hget : d.parts.get? i = some p)
    (hs : p'.Sound grid size table) (hk : Partition.Keeps p p') (hparts : d'.partitions = .held (d.parts.insert i p'))
    (hlive : d'.live = d.live) (htotal : d'.total = d.total)
    (hfaulty : d'.faultyPower = d.faultyPower + (p'.faultyPower - p.faultyPower)) (hearly : d'.early = d.early) :
    d'.Coherent grid size table := by
  obtain ⟨q, hq⟩ := h.early_held i p hget
  refine h.replace hget hs hk.sectors_eq hparts ?_ htotal hfaulty ⟨q, hk.early_eq.trans hq, ?_⟩
    fun j _ => by rw [hearly]
  · rw [hk.liveSectors_eq, hlive, sub_self, add_zero]
  · rw [hearly, h.mem_early_iff hget hq]

/-- A partition that changes or comes is listed where it has to be. The others are listed as before. -/
theorem Consistent.put (h : d.Consistent grid size table floor listed) (hc : d'.Coherent grid size table)
    (hparts : d'.partitions = .held (d.parts.insert i p')) (hp : p'.Placed grid table floor (listed' i))
    (hl : ∀ j k, j ≠ i → (listed' j k ↔ listed j k)) : d'.Consistent grid size table floor listed' := by
  refine { hc with placed := fun j p hj => ?_, known := fun j k hk => ?_ }
  · rcases get?_of_insert hparts j p hj with ⟨rfl, rfl⟩ | ⟨hne, hj⟩
    · exact hp
    · exact (h.placed j p hj).mono le_rfl fun k => (hl j k hne).2
  · rw [parts_eq hparts, get?_insert]
    split
    · exact ⟨p', rfl⟩
    · next hne => exact h.known j k ((hl j k hne).1 hk)

/-! ### The queue catches up -/

/-- Where a partition is listed while the partitions of `indices` wait to be listed at an epoch. -/
def Awaiting (grid : Grid) (q : NumberQueue) (epoch : Int) (indices : List Nat) (i k : Nat) : Prop :=
  i ∈ q.entry k ∨ (i ∈ indices ∧ grid.up epoch = .ok (k : Int))

/-- One more partition waits. -/
theorem awaiting_append_iff {q : NumberQueue} {epoch : Int} {indices : List Nat} {j k : Nat} (h : j ≠ i) :
    Awaiting grid q epoch (indices ++ [i]) j k ↔ Awaiting grid q epoch indices j k := by
  simp only [Awaiting, List.mem_append, List.mem_singleton, h, or_false]

/-- Partitions are listed at an epoch. -/
theorem queue_of_addExpirationPartitions {q : NumberQueue} (hd : d.expirations = .held q)
    (hb : q.Bounded) {epoch : Int} {indices : List Nat}
    (h : d.addExpirationPartitions grid epoch indices = .ok d') :
    d' = { d with expirations := .held d'.queue } ∧ d'.queue.Bounded ∧
      ∀ i k, i ∈ d'.queue.entry k ↔ Awaiting grid q epoch indices i k := by
  rcases addExpirationPartitions_eq_ok.1 h with ⟨rfl, rfl⟩ | ⟨q₁, q', hq, hadd, rfl⟩
  · rw [queue_eq hd]
    refine ⟨by rw [← hd], hb, fun i k => ?_⟩
    simp [Awaiting]
  · obtain rfl := Stored.held.inj (hd.symm.trans hq)
    exact ⟨rfl, hb.addValues hadd, fun i k => NumberQueue.entry_addValues hadd k i⟩

/-- When the queue has caught up, all is well again. -/
theorem Consistent.catchUp {q : NumberQueue} {epoch : Int} {indices : List Nat}
    (hc : d.Consistent grid size table floor (Awaiting grid q epoch indices)) (hd : d.expirations = .held q)
    (hb : q.Bounded) (h : d.addExpirationPartitions grid epoch indices = .ok d') :
    d'.Invariant grid size table floor := by
  obtain ⟨heq, hb', hentry⟩ := queue_of_addExpirationPartitions hd hb h
  have hc' : d'.Consistent grid size table floor (Awaiting grid q epoch indices) := by
    rw [heq]
    exact { hc with }
  exact ⟨hc'.congr hentry, by rw [heq]; rfl, hb'⟩

end SectorLedger.Deadline
