import SectorLedger.Proofs.Deadline.Sound
import SectorLedger.Proofs.Partition.Conservation
import SectorLedger.Proofs.Partition.Rescheduling

/-!
# Sectors of a deadline that move to another expiration

A move goes through the partitions that the request names, and passes over those that do not exist and those of which no
sector can move. In each of the others the movable sectors move, and the partition is listed at the new epoch. So the
request amounts to what can be met of it.

* `Rescheduled`: the specification. `MovingTo`: how far the move has come.
* `Sound.rescheduled`: a move meets it, and keeps the deadline sound.
* `indices_le_of_rescheduleExpirations`: what a request must not name.
* `Coherent.rescheduleExpirations_movable`: a request does the same as its movable part, also where it fails.
-/

namespace SectorLedger.Deadline

open SparseArray

variable {grid : Grid} {size : SectorSize} {table : SectorTable} {d d' : Deadline} {map : PartitionSectors}
  {epoch : Int} {i : Nat} {p : Partition} {numbers : NumberSet} {done : List Nat} {r : Rescheduling}

/-- Those of the sectors asked for in a partition that can move. If there is no such partition, none can. -/
def movable (d : Deadline) (map : PartitionSectors) (i : Nat) : NumberSet :=
  ((d.parts.get? i).getD {}).movable ((map.get? i).getD ∅)

/-- What can be met of a request: the movable sectors of the partitions that have some. -/
def movablePart (d : Deadline) (map : PartitionSectors) : PartitionSectors :=
  map.filterMap fun i _ => if (d.movable map i).isEmpty then none else some (d.movable map i)

theorem movable_eq (hp : d.parts.get? i = some p) (hn : map.get? i = some numbers) :
    d.movable map i = p.movable numbers := by
  rw [movable, hp, hn]
  rfl

theorem movable_of_missing (hp : d.parts.get? i = none) : d.movable map i = ∅ := NumberSet.eq_empty_iff.2 fun n hn => by
  rw [movable, hp, Partition.mem_movable, Option.getD_none, Partition.liveSectors_empty] at hn
  exact NumberSet.not_mem_empty n hn.2.1

theorem movable_of_unlisted (hn : map.get? i = none) : d.movable map i = ∅ := by
  rw [movable, hn, Option.getD_none, Partition.movable_empty]

/-- Only the points of the grid matter. -/
theorem Sound.of_same {grid' : Grid} (hd : d.Sound grid size table) (hg : grid.Same grid') : d.Sound grid' size table :=
  { hd with sound := fun i p hp => (hd.sound i p hp).of_same hg }

/-! ### What moves -/

/-- In each partition the movable sectors move, and the partition is listed where they go. Nothing else changes. -/
structure Rescheduled (size : SectorSize) (table : SectorTable) (epoch : Int) (map : PartitionSectors)
    (d d' : Deadline) : Prop where
  /-- Nothing but the partitions and the queue changes. -/
  frame : d' = { d with partitions := .held d'.parts, expirations := .held d'.queue }
  /-- No partition comes. -/
  missing : ∀ i, d.parts.get? i = none → d'.parts.get? i = none
  /-- In each partition the movable sectors move. -/
  parts : ∀ i p, d.parts.get? i = some p →
    ∃ p', d'.parts.get? i = some p' ∧ p.Relocated size table epoch (d.movable map i) p'
  /-- A partition of which sectors move is listed where they go, and all are listed where they were. -/
  listed : ∀ k i, i ∈ d'.queue.entry k ↔ i ∈ d.queue.entry k ∨ d.movable map i ≠ ∅ ∧ (k : Int) = epoch

/-- How far a move has come after some partitions. -/
structure MovingTo (grid : Grid) (size : SectorSize) (table : SectorTable) (epoch : Int) (map : PartitionSectors)
    (d : Deadline) (done : List Nat) (r : Rescheduling) : Prop where
  /-- The totals agree with the partitions. -/
  coherent : { d with partitions := .held r.partitions }.Coherent grid size table
  /-- No partition comes. -/
  missing : ∀ i, d.parts.get? i = none → r.partitions.get? i = none
  /-- In the partitions gone through the movable sectors have moved. -/
  parts : ∀ i p, d.parts.get? i = some p → ∃ p', r.partitions.get? i = some p' ∧
    p.Relocated size table epoch (if i ∈ done then d.movable map i else ∅) p'
  /-- Those of them with movable sectors are told. -/
  affected : ∀ i, i ∈ r.affected ↔ i ∈ done ∧ d.movable map i ≠ ∅
  /-- The sectors that have moved are told in order. -/
  numbers : r.moved.map (·.number) = done.flatMap fun i => (d.movable map i).elements
  /-- They are told by their records. -/
  recorded : ∀ s ∈ r.moved, table.Recorded s

namespace MovingTo

theorem start (hd : d.Coherent grid size table) {ps : SparseArray Partition} (hps : d.partitions = .held ps) :
    MovingTo grid size table epoch map d [] { partitions := ps } where
  coherent := by
    rw [← hps]
    exact hd
  missing i hi := parts_eq hps ▸ hi
  parts i p hp := ⟨p, parts_eq hps ▸ hp, by simpa using (hd.sound i p hp).relocated_empty⟩
  affected i := by simp
  numbers := rfl
  recorded s hs := absurd hs List.not_mem_nil

/-- A partition that is not gone through yet is as it was. -/
theorem get?_eq (h : MovingTo grid size table epoch map d done r) (hi : i ∉ done) :
    r.partitions.get? i = d.parts.get? i := by
  cases hp : d.parts.get? i with
  | none => exact h.missing i hp
  | some p =>
    obtain ⟨p', hp', hmove⟩ := h.parts i p hp
    rw [if_neg hi] at hmove
    rw [hp', hmove.unmoved rfl]

/-- A partition of which no sector can move is passed over. -/
theorem skip (h : MovingTo grid size table epoch map d done r) (hi : i ∉ done) (hnone : d.movable map i = ∅) :
    MovingTo grid size table epoch map d (done ++ [i]) r := by
  refine { h with parts := fun j p hp => ?_, affected := fun j => ?_, numbers := ?_ }
  · obtain ⟨p', hp', hmove⟩ := h.parts j p hp
    refine ⟨p', hp', ?_⟩
    by_cases hj : j = i
    · subst hj
      rw [if_neg hi] at hmove
      rwa [if_pos (List.mem_append_right _ List.mem_cons_self), hnone]
    · simpa [hj] using hmove
  · rw [h.affected, List.mem_append, List.mem_singleton]
    refine ⟨fun ⟨hj, hsome⟩ => ⟨.inl hj, hsome⟩, ?_⟩
    rintro ⟨hj | rfl, hsome⟩
    · exact ⟨hj, hsome⟩
    · exact absurd hnone hsome
  · have : (∅ : NumberSet).elements = [] := rfl
    rw [h.numbers, List.flatMap_append, List.flatMap_singleton, hnone, this, List.append_nil]

/-- The movable sectors of one more partition move. -/
theorem move (hu : 0 < grid.unit) (hk : table.Keyed) (hon : grid.OnGrid epoch)
    (h : MovingTo grid size table epoch map d done r) (hi : i ∉ done) (hp : d.parts.get? i = some p)
    (hn : map.get? i = some numbers) {p' : Partition} {moved : List Sector} (hsome : moved ≠ [])
    (hmove : p.rescheduleExpirations grid size table epoch numbers = .ok (p', moved)) :
    MovingTo grid size table epoch map d (done ++ [i])
      { partitions := r.partitions.insert i p', affected := r.affected ++ [i], moved := r.moved ++ moved } := by
  have hget := (h.get?_eq hi).trans hp
  have hs := h.coherent.sound i p hget
  obtain ⟨hrelocated, hmap, hrec, hnil⟩ := hs.relocated hu hk hon hmove
  obtain ⟨hs', hkeeps, -⟩ := hs.rescheduleExpirations hu hk hmove
  rw [← movable_eq hp hn] at hrelocated hmap hnil
  refine ⟨h.coherent.change hget hs' hkeeps rfl rfl rfl ?_ rfl, fun j hj => ?_, fun j q hq => ?_, fun j => ?_, ?_,
    List.forall_mem_append.2 ⟨h.recorded, hrec⟩⟩
  · rw [(Partition.powers_of_rescheduleExpirations hmove).2, sub_self, add_zero]
  · have hne : j ≠ i := by
      rintro rfl
      cases hj.symm.trans hp
    rw [get?_insert, if_neg hne]
    exact h.missing j hj
  · by_cases hj : j = i
    · subst hj
      obtain rfl := Option.some.inj (hp.symm.trans hq)
      refine ⟨p', by rw [get?_insert, if_pos rfl], ?_⟩
      rwa [if_pos (List.mem_append_right _ List.mem_cons_self)]
    · obtain ⟨q', hq', hmove'⟩ := h.parts j q hq
      exact ⟨q', by rwa [get?_insert, if_neg hj], by simpa [hj] using hmove'⟩
  · rw [List.mem_append, List.mem_append, List.mem_singleton, h.affected]
    constructor
    · rintro (⟨hj, hsome'⟩ | rfl)
      · exact ⟨.inl hj, hsome'⟩
      · exact ⟨.inr rfl, fun hnone => hsome (hnil.2 hnone)⟩
    · rintro ⟨hj | hj, hsome'⟩
      · exact .inl ⟨hj, hsome'⟩
      · exact .inr hj
  · rw [List.map_append, h.numbers, hmap, List.flatMap_append, List.flatMap_singleton]

end MovingTo

/-- A move goes through all partitions of the request. -/
theorem movingTo_of_fold (hu : 0 < grid.unit) (hk : table.Keyed) (hon : grid.OnGrid epoch)
    (hd : d.Coherent grid size table) {ps : SparseArray Partition} (hps : d.partitions = .held ps)
    (hfold : foldOutcome (rescheduleIn grid size table epoch) { partitions := ps } map.entries = .ok r) :
    MovingTo grid size table epoch map d map.indices r := by
  refine foldOutcome_invariant (I := fun done r => MovingTo grid size table epoch map d (done.map (·.1)) r) hfold
    (.start hd hps) ?_
  rintro done ⟨i, numbers⟩ rest r r' hs hI hstep
  have hi := fresh_of_entries hs
  have hn := get?_of_entries hs
  rw [List.map_append, List.map_singleton]
  obtain ⟨-, ⟨hp, rfl⟩ | ⟨p, p', moved, hp, hmove, hend⟩⟩ := rescheduleIn_eq_ok.1 hstep
  · exact hI.skip hi (movable_of_missing ((hI.get?_eq hi).symm.trans hp))
  · have hp' := (hI.get?_eq hi).symm.trans hp
    rcases hend with ⟨hnil, rfl⟩ | ⟨hsome, rfl⟩
    · obtain ⟨-, -, -, hiff⟩ := (hd.sound i p hp').relocated hu hk hon hmove
      exact hI.skip hi ((movable_eq hp' hn).trans (hiff.1 hnil))
    · exact hI.move hu hk hon hi hp' hn hsome hmove

/-- In the end the movable sectors of every partition have moved. -/
theorem MovingTo.relocated (h : MovingTo grid size table epoch map d map.indices r) (hp : d.parts.get? i = some p) :
    ∃ p', r.partitions.get? i = some p' ∧ p.Relocated size table epoch (d.movable map i) p' := by
  obtain ⟨p', hp', hmove⟩ := h.parts i p hp
  refine ⟨p', hp', ?_⟩
  split at hmove
  · exact hmove
  · next hi =>
    rw [mem_indices, ← Option.ne_none_iff_exists', not_ne_iff] at hi
    rwa [movable_of_unlisted hi]

/-- Exactly the partitions with movable sectors are told. -/
theorem MovingTo.mem_affected (h : MovingTo grid size table epoch map d map.indices r) :
    i ∈ r.affected ↔ d.movable map i ≠ ∅ := by
  refine (h.affected i).trans (and_iff_right_of_imp fun hsome => ?_)
  rw [mem_indices, ← Option.ne_none_iff_exists']
  exact fun hn => hsome (movable_of_unlisted hn)

/-- If no sector can move, nothing changes. -/
theorem Sound.rescheduled_of_none (hd : d.Sound grid size table) (hnone : ∀ i, d.movable map i = ∅) :
    d.Rescheduled size table epoch map d where
  frame := by rw [← hd.partitions_held, ← hd.expirations_held]
  missing i hi := hi
  parts i p hp := ⟨p, hp, by rw [hnone]; exact (hd.sound i p hp).relocated_empty⟩
  listed k i := by simp [hnone]

/-- The partitions afterwards are those of before. -/
theorem Rescheduled.exists_relocated (h : d.Rescheduled size table epoch map d') {p' : Partition}
    (hp' : d'.parts.get? i = some p') :
    ∃ p, d.parts.get? i = some p ∧ p.Relocated size table epoch (d.movable map i) p' := by
  cases hp : d.parts.get? i with
  | none => cases (h.missing i hp).symm.trans hp'
  | some p =>
    obtain ⟨_, hp'', hmove⟩ := h.parts i p hp
    obtain rfl := Option.some.inj (hp'.symm.trans hp'')
    exact ⟨p, rfl, hmove⟩

/-- When the queue has caught up, each partition is listed where its sectors are. -/
theorem Rescheduled.sound (h : d.Rescheduled size table epoch map d') (hd : d.Sound grid size table)
    (hc : d'.Coherent grid size table) (hb : d'.queue.Bounded) : d'.Sound grid size table := by
  refine { hc with
    expirations_held := ?_
    bounded := hb
    known := fun k i hi => ?_
    listed := fun i p' k e hp' he => ?_ }
  · rw [h.frame]
    rfl
  · obtain ⟨p, hp⟩ : ∃ p, d.parts.get? i = some p := by
      rcases (h.listed k i).1 hi with hi | ⟨hsome, -⟩
      · exact (hd.packed i).2 (hd.known k i hi)
      · rw [← Option.ne_none_iff_exists']
        exact fun hp => hsome (movable_of_missing hp)
    obtain ⟨p', hp', -⟩ := h.parts i p hp
    exact (hc.packed i).1 ⟨p', hp'⟩
  · obtain ⟨p, hp, hmove⟩ := h.exists_relocated hp'
    have hlisted : ∀ m, m ∈ (p.queue.entry k).members → i ∈ d.queue.entry k := fun m hm =>
      hd.listed i p k _ hp (ExpirationQueue.get?_of_mem hm)
    obtain ⟨n, hn⟩ := (hc.sound i p' hp').queue_sound.nonempty k e he
    rw [← ExpirationQueue.entry_of_get? he, ExpirationSet.mem_members, hmove.onTime, hmove.early] at hn
    rw [h.listed]
    rcases hn with (⟨hn, -⟩ | ⟨hn, hk⟩) | hn
    · exact .inl (hlisted n (ExpirationSet.mem_members.2 (.inl hn)))
    · exact .inr ⟨fun hnone => NumberSet.eq_empty_iff.1 hnone n hn, hk⟩
    · exact .inl (hlisted n (ExpirationSet.mem_members.2 (.inr hn)))

/-- The partitions that are told are listed at the new epoch. -/
theorem MovingTo.rescheduled (hu : 0 < grid.unit) (hon : grid.OnGrid epoch)
    (h : MovingTo grid size table epoch map d map.indices r) (hd : d.Sound grid size table)
    (hlist : addExpirationPartitions grid { d with partitions := .held r.partitions } epoch r.affected = .ok d') :
    d.Rescheduled size table epoch map d' ∧ d'.Sound grid size table := by
  obtain ⟨heq, hb, hentry⟩ := queue_of_addExpirationPartitions (d := { d with partitions := .held r.partitions })
    hd.expirations_held hd.bounded hlist
  have hparts : d'.parts = r.partitions := by
    rw [heq]
    rfl
  have hc : d'.Coherent grid size table := by
    rw [heq]
    exact { h.coherent with }
  have hkey : ∀ i k, d.movable map i ≠ ∅ → (grid.up epoch = .ok ((k : Nat) : Int) ↔ (k : Int) = epoch) := by
    intro i k hsome
    have hi := h.mem_affected.2 hsome
    obtain ⟨hnil, -⟩ | ⟨q, q', -, hadd, -⟩ := addExpirationPartitions_eq_ok.1 hlist
    · rw [hnil] at hi
      exact absurd hi List.not_mem_nil
    obtain ⟨j, hup⟩ := NumberQueue.key_of_addValues hadd hi
    have hj : (j : Int) = epoch := (Grid.isUp_of_up hu hup).unique (.self hu hon)
    rw [hup, Except.ok.injEq, hj]
    exact eq_comm
  have hresched : d.Rescheduled size table epoch map d' := by
    refine ⟨?frame, ?missing, ?parts, fun k i => ?listed⟩
    case frame =>
      rw [hparts]
      exact heq
    case missing =>
      rw [hparts]
      exact h.missing
    case parts =>
      rw [hparts]
      exact fun i p => h.relocated
    case listed =>
      rw [hentry, Awaiting, h.mem_affected]
      exact or_congr_right (and_congr_right fun hsome => hkey i k hsome)
  exact ⟨hresched, hresched.sound hd hc hb⟩

/-- **The movable sectors move, and nothing else changes.** The answer tells their records, partition by partition. -/
theorem Sound.rescheduled (hu : 0 < grid.unit) (hk : table.Keyed) (hon : grid.OnGrid epoch)
    (hd : d.Sound grid size table) {moved : List Sector}
    (h : d.rescheduleExpirations grid size table epoch map = .ok (d', moved)) :
    d.Rescheduled size table epoch map d' ∧ d'.Sound grid size table ∧
      (moved.map (·.number) = map.indices.flatMap fun i => (d.movable map i).elements) ∧
      ∀ s ∈ moved, table.Recorded s := by
  obtain ⟨ps, r, hps, hfold, rfl, hend⟩ := rescheduleExpirations_spec h
  have hmoving := movingTo_of_fold hu hk hon hd.toCoherent hps hfold
  suffices hresched : d.Rescheduled size table epoch map d' ∧ d'.Sound grid size table from
    ⟨hresched.1, hresched.2, hmoving.numbers, hmoving.recorded⟩
  rcases hend with ⟨hnil, rfl⟩ | hlist
  · refine ⟨hd.rescheduled_of_none fun i => ?_, hd⟩
    by_contra hsome
    have hi := hmoving.mem_affected.2 hsome
    rw [hnil] at hi
    exact List.not_mem_nil hi
  · exact hmoving.rescheduled hu hon hd hlist

/-! ### What cannot move -/

/-- A request that is met names only positions that an array can have. At any other the search for the partition ends
the call. -/
theorem indices_le_of_rescheduleExpirations {moved : List Sector}
    (h : d.rescheduleExpirations grid size table epoch map = .ok (d', moved)) : ∀ i ∈ map.indices, i ≤ greatestIndex := by
  obtain ⟨ps, r, -, hfold, -⟩ := rescheduleExpirations_spec h
  exact List.forall_mem_map.2 (foldOutcome_forall hfold fun entry r r' hstep => (rescheduleIn_eq_ok.1 hstep).1)

/-- A partition of which no sector can move is passed over, also if it does not exist. -/
theorem Coherent.rescheduleIn_of_none (hd : d.Coherent grid size table)
    (hvalid : ∀ i p, d.parts.get? i = some p → p.validate = .ok ()) (hget : r.partitions.get? i = d.parts.get? i)
    (hindex : i ≤ greatestIndex) (hn : map.get? i = some numbers) (hnone : d.movable map i = ∅) {grid' : Grid} :
    rescheduleIn grid' size table epoch r (i, numbers) = .ok r := by
  refine rescheduleIn_eq_ok.2 ⟨hindex, ?_⟩
  cases hp : d.parts.get? i with
  | none => exact .inl ⟨hget.trans hp, rfl⟩
  | some p =>
    rw [movable_eq hp hn] at hnone
    exact .inr ⟨p, p, [], hget.trans hp, (hd.sound i p hp).rescheduleExpirations_of_none (hvalid i p hp) hnone,
      .inl ⟨rfl, rfl⟩⟩

/-- Of a partition with movable sectors only these matter. -/
theorem rescheduleIn_movable (hget : r.partitions.get? i = d.parts.get? i) (hn : map.get? i = some numbers)
    (hsome : d.movable map i ≠ ∅) :
    rescheduleIn grid size table epoch r (i, numbers) =
      rescheduleIn grid size table epoch r (i, d.movable map i) := by
  simp only [rescheduleIn]
  cases hfind : findPartition r.partitions i with
  | error e => rfl
  | ok o =>
    obtain ⟨-, rfl⟩ := findPartition_eq_ok.1 hfind
    cases hp : d.parts.get? i with
    | none => exact absurd (movable_of_missing hp) hsome
    | some p => simp only [hget.trans hp, ok_bind, movable_eq hp hn, Partition.rescheduleExpirations_movable]

/-- A partition that is not asked for stays as it is. -/
theorem get?_of_rescheduleIn {r' : Rescheduling} (h : rescheduleIn grid size table epoch r (i, numbers) = .ok r')
    {j : Nat} (hj : j ≠ i) : r'.partitions.get? j = r.partitions.get? j := by
  rcases rescheduleIn_spec h with rfl | ⟨p, p', moved, -, -, -, rfl⟩
  · rfl
  · rw [get?_insert, if_neg hj]

/-- **A request does the same as what can be met of it**, and fails in the same way. -/
theorem Coherent.rescheduleExpirations_movable (hd : d.Coherent grid size table)
    (hvalid : ∀ i p, d.parts.get? i = some p → p.validate = .ok ()) (hindex : ∀ i ∈ map.indices, i ≤ greatestIndex)
    {grid' : Grid} : d.rescheduleExpirations grid' size table epoch map =
      d.rescheduleExpirations grid' size table epoch (d.movablePart map) := by
  simp only [rescheduleExpirations]
  cases hps : d.loadPartitions with
  | error e => rfl
  | ok ps =>
    have hparts : d.parts = ps := parts_eq (loadPartitions_eq_ok.1 hps)
    have hfold : foldOutcome (rescheduleIn grid' size table epoch) { partitions := ps } map.entries =
        foldOutcome (rescheduleIn grid' size table epoch) { partitions := ps } (d.movablePart map).entries := by
      refine foldOutcome_filterMap (I := fun done r =>
        ∀ i, i ∉ done.map (·.1) → r.partitions.get? i = d.parts.get? i) (fun i _ => by rw [hparts]) ?_ ?_
      · rintro done ⟨i, numbers⟩ rest r hs hI
        have hn := get?_of_entries hs
        have hget := hI i (fresh_of_entries hs)
        dsimp only
        split
        · next hnone =>
          exact hd.rescheduleIn_of_none hvalid hget (hindex i (mem_indices.2 ⟨numbers, hn⟩)) hn
            (NumberSet.isEmpty_iff.1 hnone)
        · next hsome => exact rescheduleIn_movable hget hn fun hnone => hsome (NumberSet.isEmpty_iff.2 hnone)
      · rintro done ⟨i, numbers⟩ rest r r' - hI hstep j hj
        rw [List.map_append, List.mem_append, not_or, List.map_singleton, List.mem_singleton] at hj
        exact (get?_of_rescheduleIn hstep hj.2).trans (hI j hj.1)
    simp only [ok_bind, hfold]

end SectorLedger.Deadline
