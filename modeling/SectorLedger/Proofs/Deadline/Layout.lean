import SectorLedger.Proofs.Deadline.PartsSound
import SectorLedger.Proofs.Partition.Members

/-!
# Where the sectors of a deadline are

The layout of a deadline lists the sectors of its partitions, in order. Of the operations only the adding of sectors
and the removal of partitions change it, whatever table they read; the removal leaves some of the partitions, in
order.

* `layout`: the sectors of the partitions.
* `KeepsLayout.apply`: the operations that leave it as it is.
* `layout_of_removePartitions`: the removal.
-/

namespace SectorLedger

open SparseArray

/-- The sectors of the partitions, in order. -/
def layout (ps : SparseArray Partition) : List NumberSet := ps.values.map (·.sectors)

/-- How many sectors there are, each counted where it is. -/
def population (l : List NumberSet) : Nat := (l.map (·.count)).sum

/-- Every partition has its ended sectors among its sectors. -/
def AllNested (ps : SparseArray Partition) : Prop := ∀ i p, ps.get? i = some p → p.Nested

theorem AllNested.insert {ps : SparseArray Partition} {i : Nat} {p : Partition} (h : AllNested ps) (hp : p.Nested) :
    AllNested (ps.insert i p) := fun j p' hp' => by
  obtain ⟨-, rfl⟩ | ⟨-, hp'⟩ := get?_insert_eq_some.1 hp'
  · exact hp
  · exact h j p' hp'

theorem getElem?_layout {ps : SparseArray Partition} (h : ps.Packed) (i : Nat) :
    (layout ps)[i]? = (ps.get? i).map (·.sectors) := by
  rw [layout, List.getElem?_map, h.getElem?_values]

@[simp] theorem length_layout (ps : SparseArray Partition) : (layout ps).length = ps.count := by
  rw [layout, List.length_map, length_values]

@[simp] theorem population_append (l l' : List NumberSet) : population (l ++ l') = population l + population l' := by
  rw [population, List.map_append, List.sum_append]
  rfl

@[simp] theorem population_singleton (s : NumberSet) : population [s] = s.count := Nat.add_zero _

/-! ### The same layout -/

/-- No partition comes or goes, and none gains or loses a sector. -/
structure SameLayout (ps ps' : SparseArray Partition) : Prop where
  /-- There are no gaps, if there were none. -/
  packed : ps.Packed → ps'.Packed
  /-- The layout. -/
  layout_eq : layout ps' = layout ps
  /-- Ended sectors are sectors, if they were. -/
  nested : AllNested ps → AllNested ps'

namespace SameLayout

variable {ps ps' : SparseArray Partition} {i : Nat} {p p' : Partition}

theorem refl (ps : SparseArray Partition) : SameLayout ps ps := ⟨id, rfl, id⟩

/-- A partition has the sectors that it had. -/
theorem sectors_eq (h : SameLayout ps ps') (hpacked : ps.Packed) (hp : ps'.get? i = some p') :
    ∃ p, ps.get? i = some p ∧ p.sectors = p'.sectors := by
  have hsame := getElem?_layout (h.packed hpacked) i
  rw [h.layout_eq, getElem?_layout hpacked, hp] at hsame
  exact Option.map_eq_some_iff.1 hsame

/-- One more partition changes. -/
theorem insert (h : SameLayout ps ps') (hp : ps'.get? i = some p) (hsame : p.SameMembers p') :
    SameLayout ps (ps'.insert i p') where
  packed hpacked := (h.packed hpacked).insert (Nat.le_of_lt (((h.packed hpacked) i).1 ⟨p, hp⟩)) p'
  layout_eq := (map_values_insert Partition.sectors hp hsame.sectors_eq).trans h.layout_eq
  nested hall := (h.nested hall).insert (hsame.nested (h.nested hall i p hp))

end SameLayout

namespace Deadline

variable {grid : Grid} {size : SectorSize} {table : SectorTable} {d d' : Deadline} {epoch : Int}
  {map : PartitionSectors} {w : Power}

/-- The partitions are laid out as before, and the total has not changed. -/
structure KeepsLayout (d d' : Deadline) : Prop where
  /-- The partitions are there, if they were. -/
  held : d.partitions = .held d.parts → d'.partitions = .held d'.parts
  /-- They are laid out as before. -/
  parts : SameLayout d.parts d'.parts
  /-- There are as many sectors. -/
  total_eq : d'.total = d.total

namespace KeepsLayout

theorem refl (d : Deadline) : KeepsLayout d d := ⟨id, .refl d.parts, rfl⟩

/-- New contents in place of the old ones. -/
theorem of_held {ps ps' : SparseArray Partition} (hps : d.partitions = .held ps) (h : SameLayout ps ps')
    (hps' : d'.partitions = .held ps') (htotal : d'.total = d.total) : KeepsLayout d d' := by
  refine ⟨fun _ => by rw [hps', parts_eq hps'], ?_, htotal⟩
  rwa [parts_eq hps, parts_eq hps']

/-- The queue of expiring partitions is no part of the layout. -/
theorem of_list {d₁ : Deadline} {indices : List Nat}
    (hadd : d₁.addExpirationPartitions grid epoch indices = .ok d') (h : KeepsLayout d d₁) : KeepsLayout d d' := by
  rcases addExpirationPartitions_eq_ok.1 hadd with ⟨-, rfl⟩ | ⟨q, q', -, -, rfl⟩
  · exact h
  · exact ⟨h.held, h.parts, h.total_eq⟩

theorem declareFaults (h : d.declareFaults grid size table epoch map = .ok (d', w)) : KeepsLayout d d' := by
  obtain ⟨ps, f, hps, hfold, -, hlist⟩ := declareFaults_spec h
  refine of_list hlist (of_held hps ?_ rfl rfl)
  refine foldOutcome_invariant (I := fun _ (f : Faulting) => SameLayout ps f.partitions) hfold
    (.refl ps) ?_
  intro done entry rest f f' _ hsame hstep
  obtain ⟨p, p', newFaults, fd, hp, hdeclare, rfl⟩ := declareFaultsIn_spec hstep
  exact hsame.insert hp (.declareFaults hdeclare)

theorem declareRecovered (h : d.declareRecovered size table map = .ok d') : KeepsLayout d d' := by
  obtain ⟨ps, ps', hps, hfold, rfl⟩ := declareRecovered_spec h
  refine of_held hps ?_ rfl rfl
  refine foldOutcome_invariant (I := fun _ ps' => SameLayout ps ps') hfold (.refl ps) ?_
  intro done entry rest ps₁ ps₂ _ hsame hstep
  obtain ⟨p, p', hp, hdeclare, rfl⟩ := recoverIn_spec hstep
  exact hsame.insert hp (.declareRecovered hdeclare)

theorem recordProven {proofs : List PartitionProof} {r : ProofResult}
    (h : d.recordProven grid size table epoch proofs = .ok (d', r)) : KeepsLayout d d' := by
  obtain ⟨ps, v, d₁, hps, hfold, hlist, -, rfl⟩ := recordProven_eq_ok.1 h
  have hsame : SameLayout ps v.partitions := by
    refine foldOutcome_invariant (I := fun _ (v : Proving) => SameLayout ps v.partitions) hfold
      (.refl ps) ?_
    intro done proof rest v v' _ hsame hstep
    rcases provePartition_spec hstep with ⟨-, rfl⟩ | ⟨p, p₁, skipped, p₂, recovered, -, hp, hskip, hrecover, hparts, -⟩
    · exact hsame
    · rw [hparts]
      exact hsame.insert hp (((Partition.SameMembers.recordSkippedFaults hskip).trans (.recoverFaults hrecover)).trans
        ⟨rfl, id⟩)
  exact of_held hps hsame rfl (of_list hlist (refl d)).total_eq

theorem processEnd {r : WindowEnd} (h : d.processEnd grid epoch = .ok (d', r)) : KeepsLayout d d' := by
  obtain ⟨ps, f, d₁, hps, hfold, hlist, rfl, -⟩ := processEnd_spec h
  have hsame : SameLayout ps f.partitions := by
    refine foldOutcome_invariant (I := fun _ (f : Faulting) => SameLayout ps f.partitions) hfold
      (.refl ps) ?_
    intro done i rest f f' _ hsame hstep
    rcases missProof_spec hstep with ⟨-, rfl⟩ | ⟨p, hp, -, ⟨-, -, rfl⟩ | ⟨p', missed, hmiss, rfl⟩⟩
    · exact hsame
    · exact hsame
    · exact hsame.insert hp (.recordMissedProof hmiss)
  obtain ⟨hheld, hparts, htotal⟩ := of_list hlist (of_held hps hsame rfl rfl)
  exact ⟨hheld, hparts, htotal⟩

theorem popExpired {upTo : Int} {e : ExpirationSet} (h : d.popExpired upTo = .ok (d', e)) : KeepsLayout d d' := by
  obtain ⟨q, q', listed, modified, -, -, ⟨-, rfl, -⟩ | ⟨ps, x, count, -, hps, hfold, -, -, -, rfl⟩⟩ := popExpired_spec h
  · exact refl d'
  refine of_held hps ?_ rfl rfl
  refine foldOutcome_invariant (I := fun _ (x : Expiring) => SameLayout ps x.partitions) hfold
    (.refl ps) ?_
  intro done i rest x x' _ hsame hstep
  obtain ⟨p, p', popped, hp, hpop, -, hparts, -⟩ := expirePartition_spec hstep
  rw [hparts]
  exact hsame.insert hp (.popExpired hpop)

theorem terminateSectors {maxSectors : Nat}
    (h : d.terminateSectors grid size table maxSectors epoch map = .ok (d', w)) : KeepsLayout d d' := by
  obtain ⟨ps, t, hps, hfold, -, rfl⟩ := terminateSectors_spec h
  refine of_held hps ?_ rfl rfl
  refine foldOutcome_invariant (I := fun _ (t : Terminating) => SameLayout ps t.partitions) hfold
    (.refl ps) ?_
  intro done entry rest t t' _ hsame hstep
  obtain ⟨p, p', removed, hp, hterm, -, hparts, -⟩ := terminateIn_spec hstep
  rw [hparts]
  exact hsame.insert hp (.terminateSectors hterm)

theorem popEarlyTerminations {maxPartitions maxSectors : Nat} {taken : Terminations} {more : Bool}
    (h : d.popEarlyTerminations maxPartitions maxSectors = .ok (d', taken, more)) : KeepsLayout d d' := by
  obtain ⟨ps, s, hps, hfold, rfl⟩ := popEarlyTerminations_spec h
  obtain ⟨_, _, -, hsame⟩ := NumberSet.visitWhile_invariant (I := fun _ (s : Settling) =>
    SameLayout ps s.partitions) hfold (.refl ps) fun done i rest s s' go _ hsame hstep => by
      rcases settlePartition_spec hstep with ⟨-, rfl⟩ | ⟨p, left, p', popped, more, hp, hpop, hparts, -⟩
      · exact hsame
      · rw [hparts]
        exact hsame.insert hp (.popEarlyTerminations hpop)
  exact of_held hps hsame rfl rfl

theorem rescheduleExpirations {moved : List Sector}
    (h : d.rescheduleExpirations grid size table epoch map = .ok (d', moved)) : KeepsLayout d d' := by
  obtain ⟨ps, r, hps, hfold, -, ⟨-, rfl⟩ | hlist⟩ := rescheduleExpirations_spec h
  · exact refl d'
  refine of_list hlist (of_held hps ?_ rfl rfl)
  refine foldOutcome_invariant (I := fun _ (r : Rescheduling) => SameLayout ps r.partitions) hfold
    (.refl ps) ?_
  intro done entry rest r r' _ hsame hstep
  rcases rescheduleIn_spec hstep with rfl | ⟨p, p', moved, hp, hresch, -, rfl⟩
  · exact hsame
  · exact hsame.insert hp (.rescheduleExpirations hresch)

/-- The layout changes only when sectors are added or partitions removed. -/
theorem apply {o : Operation} (h : o.apply grid size table d = .ok (d', w))
    (hadd : ∀ k proven ss, o ≠ .addSectors k proven ss) (hremove : ∀ toRemove, o ≠ .removePartitions toRemove) :
    KeepsLayout d d' := by
  cases o with
  | addSectors k proven ss => exact absurd rfl (hadd k proven ss)
  | removePartitions toRemove => exact absurd rfl (hremove toRemove)
  | declareFaults epoch map => exact declareFaults h
  | declareRecovered map =>
    obtain ⟨_, hop, heq⟩ := map_eq_ok.1 h
    exact (Prod.mk.inj heq).1 ▸ declareRecovered hop
  | recordProven epoch proofs =>
    obtain ⟨⟨_, r⟩, hop, heq⟩ := map_eq_ok.1 h
    exact (Prod.mk.inj heq).1 ▸ recordProven hop
  | processEnd epoch =>
    obtain ⟨⟨_, r⟩, hop, heq⟩ := map_eq_ok.1 h
    exact (Prod.mk.inj heq).1 ▸ processEnd hop
  | popExpired upTo =>
    obtain ⟨⟨_, e⟩, hop, heq⟩ := map_eq_ok.1 h
    exact (Prod.mk.inj heq).1 ▸ popExpired hop
  | terminateSectors maxSectors epoch map =>
    obtain ⟨⟨_, lost⟩, hop, heq⟩ := map_eq_ok.1 h
    exact (Prod.mk.inj heq).1 ▸ terminateSectors hop
  | popEarlyTerminations maxPartitions maxSectors =>
    obtain ⟨⟨_, taken, more⟩, hop, heq⟩ := map_eq_ok.1 h
    exact (Prod.mk.inj heq).1 ▸ popEarlyTerminations hop
  | rescheduleExpirations epoch map =>
    obtain ⟨⟨_, moved⟩, hop, heq⟩ := map_eq_ok.1 h
    exact (Prod.mk.inj heq).1 ▸ rescheduleExpirations hop

end KeepsLayout

/-! ### Removal -/

/-- How far the removal of partitions has come, after some of them. -/
structure RemovedTo (old : SparseArray Partition) (m : Nat) (c : Compacting) : Prop where
  /-- The kept partitions stand at the first positions. -/
  packed : c.kept.Packed
  /-- Their ended sectors are sectors of theirs. -/
  nested : AllNested c.kept
  /-- They are in order. -/
  sublist : (layout c.kept).Sublist ((layout old).take m)
  /-- The sectors that have left were in the partitions gone through. -/
  gone : ∀ n, n ∈ c.removed.live ∨ n ∈ c.removed.dead → ∃ s ∈ (layout old).take m, n ∈ s
  /-- Each sector is kept or has left. -/
  population_eq : population (layout c.kept) + (c.removed.live.count + c.removed.dead.count) =
    population ((layout old).take m)

theorem take_layout_succ {old : SparseArray Partition} (hpacked : old.Packed) {m : Nat} {p : Partition}
    (hp : old.get? m = some p) : (layout old).take (m + 1) = (layout old).take m ++ [p.sectors] := by
  rw [List.take_add_one, getElem?_layout hpacked, hp]
  rfl

/-- The next partition is kept. -/
theorem RemovedTo.keep {old : SparseArray Partition} {m : Nat} {c : Compacting} {p : Partition} (h : RemovedTo old m c)
    (hpacked : old.Packed) (hp : old.get? m = some p) (hnested : p.Nested) : RemovedTo old (m + 1) (c.keep p) := by
  have htake := take_layout_succ hpacked hp
  have hlayout : layout (c.keep p).kept = layout c.kept ++ [p.sectors] := by
    rw [layout, c.kept_keep, h.packed.values_insert_last le_rfl (Nat.le_succ _), ← length_values, List.take_length,
      List.map_append]
    rfl
  refine ⟨h.packed.insert le_rfl p, h.nested.insert hnested, ?_, fun n hn => ?_, ?_⟩
  · rw [hlayout, htake]
    exact h.sublist.append (List.Sublist.refl _)
  · obtain ⟨s, hs, hin⟩ := h.gone n hn
    exact ⟨s, htake ▸ List.mem_append_left _ hs, hin⟩
  · rw [hlayout, htake, population_append, population_append, ← h.population_eq, c.removed_keep]
    omega

/-- The next partition leaves. It has no sectors of those that left before. -/
theorem RemovedTo.remove {old : SparseArray Partition} {m : Nat} {c : Compacting} {p : Partition}
    (h : RemovedTo old m c) (hpacked : old.Packed) (hp : old.get? m = some p) (hnested : p.Nested)
    (hapart : (layout old).Pairwise fun s t => ∀ n ∈ s, n ∉ t) : RemovedTo old (m + 1) (c.remove p) := by
  have htake := take_layout_succ hpacked hp
  have hnew : ∀ n, n ∈ c.removed.live ∨ n ∈ c.removed.dead → n ∉ p.sectors := by
    intro n hn
    obtain ⟨s, hs, hin⟩ := h.gone n hn
    have hpair := hapart.sublist (List.take_sublist (m + 1) _)
    rw [htake, List.pairwise_append] at hpair
    exact hpair.2.2 s hs p.sectors (List.mem_singleton_self _) n hin
  refine ⟨h.packed, h.nested, ?_, fun n hn => ?_, ?_⟩
  · rw [htake]
    exact h.sublist.trans (List.sublist_append_left _ _)
  · rw [htake]
    rcases Compacting.of_mem_remove hnested hn with hn | hn
    · obtain ⟨s, hs, hin⟩ := h.gone n hn
      exact ⟨s, List.mem_append_left _ hs, hin⟩
    · exact ⟨p.sectors, List.mem_append_right _ (List.mem_singleton_self _), hn⟩
  · rw [htake, population_append, population_singleton, ← h.population_eq, (Compacting.count_remove hnested hnew).2,
      c.kept_remove]
    omega

/-- The next partition is kept or leaves. -/
theorem RemovedTo.step {old : SparseArray Partition} {toRemove : NumberSet} {m : Nat} {c c' : Compacting}
    (hpacked : old.Packed) (hnested : AllNested old)
    (hapart : (layout old).Pairwise fun s t => ∀ n ∈ s, n ∉ t) (h : RemovedTo old m c)
    (hstep : compactPartition old toRemove c m = .ok c') : RemovedTo old (m + 1) c' := by
  obtain ⟨p, hp, ⟨-, rfl⟩ | ⟨-, -, -, rfl⟩⟩ := compactPartition_spec hstep
  · exact h.keep hpacked hp (hnested m p hp)
  · exact h.remove hpacked hp (hnested m p hp) hapart

/-- The partitions that are not removed stay in order, and the total follows. -/
theorem layout_of_removePartitions {toRemove : NumberSet} {r : RemovedPartitions} (hheld : d.partitions = .held d.parts)
    (hpacked : d.parts.Packed) (hnested : AllNested d.parts)
    (hapart : (layout d.parts).Pairwise fun s t => ∀ n ∈ s, n ∉ t) (htotal : d.total = population (layout d.parts))
    (h : d.removePartitions toRemove = .ok (d', r)) :
    d'.partitions = .held d'.parts ∧ d'.parts.Packed ∧ AllNested d'.parts ∧
      (layout d'.parts).Sublist (layout d.parts) ∧ d'.total = population (layout d'.parts) := by
  rcases removePartitions_spec h with ⟨-, rfl, -⟩ | ⟨old, q, c, hold, -, -, -, hfold, -, -, -, rfl⟩
  · exact ⟨hheld, hpacked, hnested, List.Sublist.refl _, htotal⟩
  obtain rfl := parts_eq hold
  have hrun : RemovedTo d.parts d.parts.count c := by
    refine foldOutcome_range_invariant hfold ?_ fun m c c' hI hstep => hI.step hpacked hnested hapart hstep
    refine ⟨packed_empty, fun i p hp => (nomatch hp), List.nil_sublist _, ?_, rfl⟩
    rintro n (hn | hn)
    · exact absurd hn (NumberSet.not_mem_empty n)
    · exact absurd hn (NumberSet.not_mem_empty n)
  obtain ⟨hpacked', hnested', hsub, -, hpop⟩ := hrun
  rw [List.take_of_length_le (by rw [length_layout])] at hsub hpop
  refine ⟨rfl, hpacked', hnested', hsub, ?_⟩
  dsimp only [parts]
  omega

end Deadline

end SectorLedger
