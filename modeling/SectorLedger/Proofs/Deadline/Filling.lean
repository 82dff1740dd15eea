import SectorLedger.Proofs.Deadline.Sound
import SectorLedger.Proofs.Partition.Conservation

/-!
# New sectors in a deadline

New sectors fill the last partition and then new ones. A batch goes to one partition at a time, and the positions
that are tried suffice: each but perhaps the first takes a sector.

* `fill_batch`: one batch.
* `Invariant.addSectors`: all of them.
-/

namespace SectorLedger.Deadline

open SparseArray

variable {grid : Grid} {size : SectorSize} {table : SectorTable} {floor : Int} {d d' : Deadline}
  {listed listed' : Nat → Nat → Prop} {i : Nat} {p' : Partition} {ss : List Sector} {q : NumberQueue}

/-- A partition that may not be there yet is as it should be. -/
theorem Consistent.getD (h : d.Consistent grid size table floor listed) (i : Nat) :
    ((d.parts.get? i).getD {}).Sound grid size table ∧
      ((d.parts.get? i).getD {}).Placed grid table floor (listed i) ∧
      ∃ q, ((d.parts.get? i).getD {}).early = .held q ∧ (i ∈ d.early ↔ SparseArray.isEmpty q = false) := by
  cases hp : d.parts.get? i with
  | none =>
    refine ⟨Partition.sound_empty, Partition.Placed.empty, ∅, rfl, ?_⟩
    rw [h.early_iff]
    refine ⟨?_, fun hnil => by cases hnil⟩
    rintro ⟨p, q, hp', -⟩
    rw [hp] at hp'
    cases hp'
  | some p =>
    obtain ⟨q, hq⟩ := h.early_held i p hp
    exact ⟨h.sound i p hp, h.placed i p hp, q, hq, h.mem_early_iff hp hq⟩

/-- Where a partition is listed while sectors with their expirations wait to be listed. -/
def Expecting (grid : Grid) (q : NumberQueue) (pairs : List (Int × Nat)) (i k : Nat) : Prop :=
  i ∈ q.entry k ∨ ∃ epoch, (epoch, i) ∈ pairs ∧ grid.up epoch = .ok (k : Int)

/-- A batch of new sectors is added to the partition at a position, or to a new one after the others. -/
theorem fill_batch (hu : 0 < grid.unit) {pairs : List (Int × Nat)}
    (h : d.Consistent grid size table floor (Expecting grid q pairs)) (hi : i ≤ d.parts.count) {ns : NumberSet}
    (hl : table.Lists ss ns) (hfresh : ∀ n ∈ ns, ∀ j p, d.parts.get? j = some p → n ∉ p.sectors) {proven : Bool}
    {w : Power} (hadd : ((d.parts.get? i).getD {}).addSectors grid size proven ss = .ok (p', w))
    (hd' : d' = { d with
      partitions := .held (d.parts.insert i p'), live := d.live + ss.length, total := d.total + ss.length }) :
    d'.Consistent grid size table floor (Expecting grid q (pairs ++ ss.map fun s => (s.expiration, i))) ∧
      p'.sectors = ((d.parts.get? i).getD {}).sectors ∪ ns := by
  subst hd'
  obtain ⟨hs, hp, q', hq', hearly⟩ := h.getD i
  obtain ⟨hs', hnew, hsectors, hterminated, hfaults, hearly', -, hplace⟩ := hs.addSectors hu hl hadd
  have hlive : p'.liveSectors = ((d.parts.get? i).getD {}).liveSectors ∪ ns := by
    ext n
    have := hnew n
    have := hs.terminated_sectors n
    rw [NumberSet.mem_union, Partition.mem_liveSectors, Partition.mem_liveSectors, hsectors, hterminated,
      NumberSet.mem_union]
    tauto
  have hcount : ns.count = ss.length := hl.count
  have hdue : ∀ n ∈ ns, ∀ k, table.DueAt grid n k →
      Expecting grid q (pairs ++ ss.map fun s => (s.expiration, i)) i k := by
    rintro n hn k ⟨s, hget, hup⟩
    have hs : s ∈ ss := hl.mem_of_get? hn hget
    exact .inr ⟨s.expiration, List.mem_append_right _ (List.mem_map_of_mem hs), hup⟩
  have hcoherent : Coherent grid size table { d with
      partitions := .held (d.parts.insert i p'), live := d.live + ss.length, total := d.total + ss.length } := by
    refine h.toCoherent.put hi hs' (fun n hn => ?_) rfl ?_ ?_ ?_ ⟨q', hearly'.trans hq', hearly⟩ fun j _ => Iff.rfl
    · rw [hsectors, NumberSet.mem_union] at hn
      exact hn.imp_right (hfresh n)
    · have := NumberSet.count_union (s := ((d.parts.get? i).getD {}).liveSectors) (t := ns) fun n hn hn' =>
        hnew n hn' (Partition.mem_liveSectors.1 hn).1
      rw [hlive, this]
      push_cast
      omega
    · have := NumberSet.count_union (s := ((d.parts.get? i).getD {}).sectors) (t := ns) fun n hn hn' => hnew n hn' hn
      rw [hsectors, this]
      push_cast
      omega
    · rw [(Partition.powers_of_addSectors hadd).2, sub_self, add_zero]
  refine ⟨h.put hcoherent rfl ?_ fun j k hne => ?_, hsectors⟩
  · have hmono : ∀ k, Expecting grid q pairs i k →
        Expecting grid q (pairs ++ ss.map fun s => (s.expiration, i)) i k := by
      rintro k (hk | ⟨epoch, hmem, hup⟩)
      · exact .inl hk
      · exact .inr ⟨epoch, List.mem_append_left _ hmem, hup⟩
    have hactive : ∀ n ∈ ns, n ∉ ((d.parts.get? i).getD {}).faults := fun n hn hf =>
      hnew n hn (Partition.mem_liveSectors.1 (hs.faults_live n hf)).1
    refine hp.addSectors hmono hdue (fun n hn => ?_) hfaults hactive hplace
    rwa [hlive, NumberSet.mem_union] at hn
  · have hother : ∀ epoch, (epoch, j) ∉ ss.map fun s => (s.expiration, i) := fun epoch hmem => by
      obtain ⟨s, -, heq⟩ := List.mem_map.1 hmem
      exact hne (Prod.mk.inj heq).2.symm
    simp only [Expecting, List.mem_append, hother, or_false]

theorem eq_of_range'_eq_append {start n i : Nat} {done rest : List Nat}
    (h : List.range' start n = done ++ i :: rest) : i = start + done.length := by
  have hget : (List.range' start n)[done.length]? = some i := by
    rw [h, List.getElem?_append_right le_rfl, Nat.sub_self, List.getElem?_cons_zero]
  obtain ⟨_, hi⟩ := List.getElem?_eq_some_iff.1 hget
  rw [List.getElem_range', Nat.one_mul] at hi
  exact hi.symm

/-- How far the filling has come after some positions. Unless no sectors remain, each position tried but perhaps the
first, where a full partition may stand, took one. -/
structure FillingTo (grid : Grid) (size : SectorSize) (table : SectorTable) (floor : Int) (d : Deadline)
    (ss : List Sector) (tried : Nat) (f : Filling) : Prop where
  /-- What has been placed counts. -/
  consistent : Consistent grid size table floor (Expecting grid d.queue f.listed)
    { d with
      partitions := .held f.partitions
      live := d.live + (ss.length - f.remaining.length)
      total := d.total + (ss.length - f.remaining.length) }
  /-- What remains is part of the list. -/
  sublist : f.remaining.Sublist ss
  /-- It is new to all partitions. -/
  fresh : ∀ s ∈ f.remaining, ∀ j p, f.partitions.get? j = some p → s.number ∉ p.sectors
  /-- Every position tried is used. -/
  count_eq : f.remaining = [] ∨ f.partitions.count = max d.parts.count (d.parts.count - 1 + tried)
  /-- Nearly every position took a sector. -/
  length_le : f.remaining = [] ∨ f.remaining.length + tried ≤ ss.length + min 1 d.parts.count

/-- One more position is tried. -/
theorem FillingTo.step (hu : 0 < grid.unit) {tried partitionSize : Nat} {proven : Bool} {f f' : Filling}
    (hsize : 0 < partitionSize) (hrec : ∀ s ∈ ss, table.Recorded s) (hnodup : (ss.map (·.number)).Nodup)
    (h : FillingTo grid size table floor d ss tried f)
    (hstep : fillPartition grid size partitionSize proven f (d.parts.count - 1 + tried) = .ok f') :
    FillingTo grid size table floor d ss (tried + 1) f' := by
  have hpacked : f.partitions.Packed := h.consistent.packed
  have hlength := h.sublist.length_le
  rcases fillPartition_spec hstep with ⟨rfl, hnil | hfull⟩ | ⟨p', w, hsome, hfree, hadd, rfl⟩
  · exact ⟨h.consistent, h.sublist, h.fresh, .inl hnil, .inl hnil⟩
  · -- The partition at the first position is full.
    have hthere : d.parts.count - 1 + tried < f'.partitions.count := by
      refine (hpacked _).1 (Option.ne_none_iff_exists'.1 fun hnone => ?_)
      rw [hnone, Option.getD_none, NumberSet.count_empty] at hfull
      omega
    rcases h.count_eq with hnil | hcount
    · exact ⟨h.consistent, h.sublist, h.fresh, .inl hnil, .inl hnil⟩
    · exact ⟨h.consistent, h.sublist, h.fresh, .inr (by omega), .inr (by omega)⟩
  · obtain hcount := h.count_eq.resolve_left hsome
    obtain htried := h.length_le.resolve_left hsome
    have hpos : 0 < f.remaining.length := List.length_pos_iff.2 hsome
    set i := d.parts.count - 1 + tried
    set free := partitionSize - ((f.partitions.get? i).getD {}).sectors.count
    have hi : i ≤ f.partitions.count := by omega
    have htake : (f.remaining.take free).Sublist ss := (List.take_sublist free f.remaining).trans h.sublist
    have hl := SectorTable.lists_ofList (fun s hs => hrec s (htake.subset hs)) (hnodup.sublist (htake.map _))
    have hnew : ∀ n ∈ NumberSet.ofList ((f.remaining.take free).map (·.number)), ∀ j p,
        f.partitions.get? j = some p → n ∉ p.sectors := by
      intro n hn j p hp
      obtain ⟨s, hs, rfl⟩ := hl.exists_of_mem hn
      exact h.fresh s (List.mem_of_mem_take hs) j p hp
    obtain ⟨hc, hsectors⟩ := fill_batch hu h.consistent hi hl hnew hadd rfl
    have hsplit : (f.remaining.take free).length + (f.remaining.drop free).length = f.remaining.length := by
      rw [← List.length_append, List.take_append_drop]
    have hbatch : 0 < (f.remaining.take free).length := by rw [List.length_take]; omega
    refine ⟨?_, (List.drop_sublist free f.remaining).trans h.sublist, fun s hs j p hp hin => ?_, .inr ?_, .inr ?_⟩
    · have hplaced : ss.length - f.remaining.length + (f.remaining.take free).length =
          ss.length - (f.remaining.drop free).length := by omega
      simp only [Nat.add_assoc, hplaced] at hc
      exact hc
    · obtain ⟨-, rfl⟩ | ⟨-, hp⟩ := get?_insert_eq_some.1 hp
      · rw [hsectors, NumberSet.mem_union] at hin
        rcases hin with hin | hin
        · cases hold : f.partitions.get? i with
          | none =>
            have hold' : ((f.partitions.get? i).getD {}).sectors = ∅ := by rw [hold]; rfl
            exact NumberSet.not_mem_empty s.number (hold' ▸ hin)
          | some p₀ =>
            have hold' : ((f.partitions.get? i).getD {}) = p₀ := by rw [hold]; rfl
            exact h.fresh s (List.mem_of_mem_drop hs) i p₀ hold (hold' ▸ hin)
        · -- No number is in both parts of the list.
          have hparts := hnodup.sublist (h.sublist.map (·.number))
          rw [← List.take_append_drop free f.remaining, List.map_append, List.nodup_append] at hparts
          exact hparts.2.2 _ ((hl.mem s.number).2 hin) _ (List.mem_map_of_mem hs) rfl
      · exact h.fresh s (List.mem_of_mem_drop hs) j p hp hin
    · rw [hpacked.count_insert hi]
      omega
    · simp only
      omega

/-- New sectors come. -/
theorem Invariant.addSectors (hu : 0 < grid.unit) (h : d.Invariant grid size table floor)
    (hrec : ∀ s ∈ ss, table.Recorded s) (hnodup : (ss.map (·.number)).Nodup)
    (hfresh : ∀ s ∈ ss, ∀ j p, d.parts.get? j = some p → s.number ∉ p.sectors) {partitionSize : Nat} {proven : Bool}
    {w : Power} (hop : d.addSectors grid size partitionSize proven ss = .ok (d', w)) :
    d'.Invariant grid size table floor := by
  rcases addSectors_spec hop with ⟨-, rfl, -⟩ | ⟨ps, q, q', f, hsize, hps, hq, hfold, hlist, -, rfl⟩
  · exact h
  obtain rfl := parts_eq hps
  obtain rfl := queue_eq hq
  have hfill := foldOutcome_invariant (I := fun done f => FillingTo grid size table floor d ss done.length f) hfold
    ?_ ?_
  · have hnil : f.remaining = [] := by
      refine hfill.length_le.elim id fun hle => List.length_eq_zero_iff.1 ?_
      rw [positionsToFill, List.length_range'] at hle
      omega
    have hc := hfill.consistent
    rw [hnil, List.length_nil, Nat.sub_zero] at hc
    exact ⟨{ hc.congr fun i k => NumberQueue.entry_addMany hlist k i with }, rfl, h.bounded.addMany hlist⟩
  · refine ⟨?_, List.Sublist.refl ss, hfresh, .inr (by simp), .inr (by simp)⟩
    have heq : { d with
        partitions := .held d.parts, live := d.live + (ss.length - ss.length)
        total := d.total + (ss.length - ss.length) } = d := by
      rw [Nat.sub_self, ← hps]
      rfl
    rw [heq]
    refine h.consistent.congr fun i k => ?_
    simp [Expecting]
  · intro done i rest f f' hs hI hstep
    rw [List.length_append, List.length_singleton]
    rw [eq_of_range'_eq_append hs] at hstep
    exact hI.step hu hsize hrec hnodup hstep

end SectorLedger.Deadline
