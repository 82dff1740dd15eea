import SectorLedger.Proofs.Assignment.Preference
import SectorLedger.Proofs.Deadline.Filling
import SectorLedger.Proofs.Deadline.Layout

/-!
# How full the partitions of a deadline are

New sectors go to the last partition until it is full, and then to new ones. So every partition but the last one is
full, and the number of sectors tells the number of partitions. Sectors that end stay where they are, and the removal
of partitions, full or not, leaves the others in order.

* `Filled`: a layout of this kind. `Filled.length_eq`: how long it is. `Filled.topUp`: it gets a batch.
* `FilledTo.step`: one position is tried. `Shaped.addSectors`: all new sectors come.
* `Reachable`: the deadlines that come about with one partition size. `Reachable.shaped`: they are of this kind.
-/

namespace SectorLedger

variable {k i : Nat} {l l' : List NumberSet} {b : NumberSet}

/-! ### Layouts -/

/-- Each partition that another one follows is full and shares no sector with it, and none is empty. -/
structure Filled (k : Nat) (l : List NumberSet) : Prop where
  /-- Full, and apart from those that follow. -/
  pairwise : l.Pairwise fun s t => s.count = k ∧ ∀ n ∈ s, n ∉ t
  /-- Neither empty nor too large. -/
  size : ∀ s ∈ l, 0 < s.count ∧ s.count ≤ k

/-- The sector is in the partition at the position. -/
def InPart (l : List NumberSet) (i n : Nat) : Prop := ∃ s, l[i]? = some s ∧ n ∈ s

/-- The layout with a batch more in the partition at a position, the last one or a new one. -/
def topUp (l : List NumberSet) (i : Nat) (b : NumberSet) : List NumberSet := l.take i ++ [l[i]?.getD ∅ ∪ b]

theorem filled_nil : Filled k [] := ⟨.nil, fun _ hs => absurd hs List.not_mem_nil⟩

theorem Filled.sublist (h : Filled k l) (hl : l'.Sublist l) : Filled k l' :=
  ⟨h.pairwise.sublist hl, fun s hs => h.size s (hl.subset hs)⟩

theorem Filled.apart (h : Filled k l) : l.Pairwise fun s t => ∀ n ∈ s, n ∉ t := h.pairwise.imp And.right

/-- All but the last one are full. -/
theorem Filled.full (h : Filled k l) {s : NumberSet} (hs : l[i]? = some s) (hi : i + 1 < l.length) : s.count = k := by
  obtain ⟨hlt, rfl⟩ := List.getElem?_eq_some_iff.1 hs
  exact (List.pairwise_iff_getElem.1 h.pairwise i (i + 1) hlt hi (Nat.lt_succ_self i)).1

/-- No sector is in two partitions. -/
theorem Filled.inPart_unique (h : Filled k l) {j n : Nat} (hi : InPart l i n) (hj : InPart l j n) : i = j := by
  obtain ⟨s, hs, hin⟩ := hi
  obtain ⟨t, ht, hin'⟩ := hj
  obtain ⟨hlt, rfl⟩ := List.getElem?_eq_some_iff.1 hs
  obtain ⟨hlt', rfl⟩ := List.getElem?_eq_some_iff.1 ht
  have hapart := List.pairwise_iff_getElem.1 h.apart
  rcases Nat.lt_trichotomy i j with hij | hij | hij
  · exact absurd hin' (hapart i j hlt hlt' hij n hin)
  · exact hij
  · exact absurd hin (hapart j i hlt' hlt hij n hin')

/-- **The number of sectors tells the number of partitions.** -/
theorem Filled.length_eq (hk : 0 < k) (h : Filled k l) : l.length = ceilDiv (population l) k := by
  rcases List.eq_nil_or_concat l with rfl | ⟨init, s, rfl⟩
  · exact (Nat.le_zero.1 ((ceilDiv_le_iff hk).2 (Nat.zero_le _))).symm
  · rw [List.concat_eq_append] at h ⊢
    have hfull : init.map (·.count) = List.replicate init.length k := by
      rw [List.eq_replicate_iff]
      refine ⟨List.length_map _, fun c hc => ?_⟩
      obtain ⟨t, ht, rfl⟩ := List.mem_map.1 hc
      exact ((List.pairwise_append.1 h.pairwise).2.2 t ht s (List.mem_singleton_self s)).1
    have hinit : population init = init.length * k := by
      rw [population, hfull, List.sum_replicate_nat]
    obtain ⟨hpos, hle⟩ := h.size s (List.mem_append_right _ (List.mem_singleton_self s))
    rw [List.length_append, List.length_singleton, population_append, population_singleton, hinit]
    refine Nat.le_antisymm ?_ ((ceilDiv_le_iff hk).2 ?_)
    · by_contra hlt
      have := (ceilDiv_le_iff hk).1 (Nat.le_of_lt_succ (Nat.lt_of_not_le hlt))
      omega
    · rw [Nat.succ_mul]
      omega

section TopUp

variable (hi : i ≤ l.length) (hlast : l.length ≤ i + 1)

/-- A batch of new sectors counts. -/
theorem count_getD_union (hb : ∀ s ∈ l, ∀ n ∈ b, n ∉ s) :
    (l[i]?.getD ∅ ∪ b).count = (l[i]?.getD ∅).count + b.count := by
  refine NumberSet.count_union fun n hn hin => ?_
  cases hget : l[i]? with
  | none =>
    rw [hget] at hn
    exact NumberSet.not_mem_empty n hn
  | some s =>
    rw [hget] at hn
    exact hb s (List.mem_of_getElem? hget) n hin hn

include hlast in
theorem population_topUp (hb : ∀ s ∈ l, ∀ n ∈ b, n ∉ s) : population (topUp l i b) = population l + b.count := by
  have hsplit : population l = population (l.take i) + (l[i]?.getD ∅).count := by
    conv => lhs; rw [← List.take_append_drop i l]
    rw [population_append]
    cases hget : l[i]? with
    | none =>
      rw [List.drop_eq_nil_of_le (List.getElem?_eq_none_iff.1 hget)]
      rfl
    | some s =>
      obtain ⟨hlt, rfl⟩ := List.getElem?_eq_some_iff.1 hget
      rw [List.drop_eq_getElem_cons hlt, List.drop_eq_nil_of_le hlast, population_singleton]
      rfl
  rw [topUp, population_append, population_singleton, count_getD_union hb, hsplit]
  omega

include hi hlast in
theorem inPart_topUp {j n : Nat} : InPart (topUp l i b) j n ↔ InPart l j n ∨ (j = i ∧ n ∈ b) := by
  have hget : (topUp l i b)[j]? = if j < i then l[j]? else if j = i then some (l[i]?.getD ∅ ∪ b) else none := by
    rw [topUp, List.getElem?_append, List.length_take, Nat.min_eq_left hi]
    by_cases hlt : j < i
    · rw [if_pos hlt, if_pos hlt, List.getElem?_take_of_lt hlt]
    · rw [if_neg hlt, if_neg hlt]
      split
      · next heq => rw [heq, Nat.sub_self, List.getElem?_cons_zero]
      · next hne => exact List.getElem?_eq_none (by simp only [List.length_singleton]; omega)
  unfold InPart
  rw [hget]
  split
  · next hlt => exact ⟨.inl, fun h => h.resolve_right fun heq => Nat.ne_of_lt hlt heq.1⟩
  · next hge =>
    split
    · next heq =>
      rw [heq]
      cases hold : l[i]? with
      | none => simp
      | some s => simp
    · next hne =>
      have hnone : l[j]? = none := List.getElem?_eq_none (by omega)
      simp [hnone, hne]

/-- All partitions before the position are full, and the batch fits. -/
theorem Filled.topUp (h : Filled k l) (hfull : ∀ s ∈ l.take i, s.count = k) (hb : ∀ s ∈ l, ∀ n ∈ b, n ∉ s)
    (hpos : 0 < b.count) (hfits : (l[i]?.getD ∅ ∪ b).count ≤ k) : Filled k (topUp l i b) := by
  refine ⟨List.pairwise_append.2 ⟨h.pairwise.sublist (List.take_sublist i l), List.pairwise_singleton _ _,
    fun s hs t ht => ?_⟩, fun s hs => ?_⟩
  · obtain rfl := List.mem_singleton.1 ht
    refine ⟨hfull s hs, fun n hn hin => ?_⟩
    rcases NumberSet.mem_union.1 hin with hold | hnew
    · cases hget : l[i]? with
      | none =>
        rw [hget] at hold
        exact NumberSet.not_mem_empty n hold
      | some u =>
        rw [hget] at hold
        obtain ⟨hlt, rfl⟩ := List.getElem?_eq_some_iff.1 hget
        have hpair := h.pairwise
        rw [← List.take_append_drop i l, List.pairwise_append] at hpair
        have hin := hpair.2.2 s hs l[i] (by rw [List.drop_eq_getElem_cons hlt]; exact List.mem_cons_self)
        exact hin.2 n hn hold
    · exact hb s (List.mem_of_mem_take hs) n hnew hn
  · rcases List.mem_append.1 hs with hs | hs
    · exact h.size s (List.mem_of_mem_take hs)
    · obtain rfl := List.mem_singleton.1 hs
      exact ⟨Nat.lt_of_lt_of_le hpos (NumberSet.count_le_of_subset fun n hn => NumberSet.mem_union.2 (.inr hn)), hfits⟩

end TopUp

namespace Deadline

open SparseArray

variable {grid : Grid} {size : SectorSize} {table : SectorTable} {d d' : Deadline} {ps : SparseArray Partition}
  {ss done : List Sector} {proven : Bool} {tried : Nat} {f f' : Filling} {w : Power}

/-! ### New sectors -/

/-- How far the filling has come after some positions. Unless no sectors remain, each position tried but perhaps the
first, where a full partition may stand, took one, and all partitions are full. -/
structure FilledTo (k : Nat) (proven : Bool) (ps : SparseArray Partition) (ss done : List Sector) (tried : Nat)
    (f : Filling) : Prop where
  /-- The partitions stand at the first positions. -/
  packed : f.partitions.Packed
  /-- Their ended sectors are sectors of theirs. -/
  nested : AllNested f.partitions
  /-- They are filled. -/
  filled : Filled k (layout f.partitions)
  /-- Each sector is placed or remains. -/
  split : done ++ f.remaining = ss
  /-- The placed ones count. -/
  population_eq : population (layout f.partitions) = population (layout ps) + done.length
  /-- The others are where they were. -/
  stays : ∀ i n, n ∉ done.map (·.number) → (InPart (layout f.partitions) i n ↔ InPart (layout ps) i n)
  /-- The placed ones have a place. -/
  placed : ∀ s ∈ done, ∃ i, InPart (layout f.partitions) i s.number
  /-- Power counts at once only if it is proven. -/
  activated_eq : proven = false → f.activated = 0
  /-- No partition has room. -/
  full : f.remaining = [] ∨ tried = 0 ∨ ∀ s ∈ layout f.partitions, s.count = k
  /-- Every position tried is used. -/
  count_eq : f.remaining = [] ∨ f.partitions.count = max ps.count (ps.count - 1 + tried)
  /-- Nearly every position took a sector. -/
  length_le : f.remaining = [] ∨ f.remaining.length + tried ≤ ss.length + min 1 ps.count

/-- A partition that may not be there yet has the sectors that the layout says. -/
theorem sectors_getD (h : ps.Packed) (i : Nat) :
    ((ps.get? i).getD {}).sectors = (layout ps)[i]?.getD ∅ := by
  rw [getElem?_layout h]
  cases ps.get? i <;> rfl

/-- A batch tops up the layout. -/
theorem layout_insert_last {p' : Partition} (h : ps.Packed) (hi : i ≤ ps.count) (hlast : ps.count ≤ i + 1)
    (hsectors : p'.sectors = ((ps.get? i).getD {}).sectors ∪ b) : layout (ps.insert i p') = topUp (layout ps) i b := by
  rw [layout, h.values_insert_last hi hlast, List.map_append, List.map_take, topUp, ← sectors_getD h, ← hsectors]
  rfl

namespace FilledTo

/-- The partitions before the position to try are full. -/
theorem full_before (h : FilledTo k proven ps ss done tried f) (hsome : f.remaining ≠ []) :
    ∀ s ∈ (layout f.partitions).take (ps.count - 1 + tried), s.count = k := by
  intro s hs
  have hcount := h.count_eq.resolve_left hsome
  rcases h.full.resolve_left hsome with hzero | hall
  · obtain ⟨j, hj, rfl⟩ := List.getElem_of_mem hs
    rw [List.length_take, length_layout] at hj
    rw [List.getElem_take]
    exact h.filled.full (List.getElem?_eq_getElem _) (by rw [length_layout]; omega)
  · exact hall s (List.mem_of_mem_take hs)

/-- The sectors that remain are in no partition yet. -/
theorem fresh (hnodup : (ss.map (·.number)).Nodup) (hfresh : ∀ s ∈ ss, ∀ i, ¬InPart (layout ps) i s.number)
    (h : FilledTo k proven ps ss done tried f) {t : Sector} (ht : t ∈ f.remaining) :
    ∀ s ∈ layout f.partitions, t.number ∉ s := fun s hs hin => by
  rw [← h.split, List.map_append, List.nodup_append] at hnodup
  obtain ⟨j, hj, rfl⟩ := List.getElem_of_mem hs
  have hnot : t.number ∉ done.map (·.number) := fun hdone =>
    hnodup.2.2 _ hdone _ (List.mem_map_of_mem ht) rfl
  refine hfresh t ?_ j ((h.stays j t.number hnot).1 ⟨_, List.getElem?_eq_getElem hj, hin⟩)
  rw [← h.split]
  exact List.mem_append_right _ ht

/-- Nothing remains. -/
theorem rest (h : FilledTo k proven ps ss done tried f) (hnil : f.remaining = []) :
    FilledTo k proven ps ss done (tried + 1) f :=
  { h with full := .inl hnil, count_eq := .inl hnil, length_le := .inl hnil }

/-- A full partition takes nothing. It is the last one of those there were. -/
theorem skip (hk : 0 < k) (h : FilledTo k proven ps ss done tried f)
    (hnofree : k - ((f.partitions.get? (ps.count - 1 + tried)).getD {}).sectors.count = 0) :
    FilledTo k proven ps ss done (tried + 1) f := by
  by_cases hsome : f.remaining = []
  · exact h.rest hsome
  have hcount := h.count_eq.resolve_left hsome
  have hlength := h.length_le.resolve_left hsome
  have hrem : f.remaining.length ≤ ss.length := by
    rw [← h.split, List.length_append]
    omega
  obtain ⟨p, hp⟩ : ∃ p, f.partitions.get? (ps.count - 1 + tried) = some p :=
    Option.ne_none_iff_exists'.1 fun hnone => by
      rw [hnone, Option.getD_none, NumberSet.count_empty] at hnofree
      omega
  have hthere : ps.count - 1 + tried < f.partitions.count := (h.packed _).1 ⟨p, hp⟩
  refine { h with full := .inr (.inr fun s hs => ?_), count_eq := .inr (by omega), length_le := .inr (by omega) }
  obtain ⟨j, hj, rfl⟩ := List.getElem_of_mem hs
  rw [length_layout] at hj
  by_cases hlast : j + 1 < f.partitions.count
  · exact h.filled.full (List.getElem?_eq_getElem _) (by rwa [length_layout])
  · have hget : (layout f.partitions)[j]? = some p.sectors := by
      rw [getElem?_layout h.packed, show j = ps.count - 1 + tried by omega, hp]
      rfl
    rw [hp, Option.getD_some] at hnofree
    obtain ⟨_, heq⟩ := List.getElem?_eq_some_iff.1 hget
    have hsize := (h.filled.size _ (List.mem_of_getElem? hget)).2
    rw [heq]
    omega

/-- A batch is placed in the last partition or in a new one. -/
theorem place (hnodup : (ss.map (·.number)).Nodup) (hfresh : ∀ s ∈ ss, ∀ i, ¬InPart (layout ps) i s.number)
    (h : FilledTo k proven ps ss done tried f) (hsome : f.remaining ≠ []) {p' : Partition}
    (hfree : 0 < k - ((f.partitions.get? (ps.count - 1 + tried)).getD {}).sectors.count)
    (hadd : ((f.partitions.get? (ps.count - 1 + tried)).getD {}).addSectors grid size proven
      (f.remaining.take (k - ((f.partitions.get? (ps.count - 1 + tried)).getD {}).sectors.count)) = .ok (p', w))
    {listed : List (Int × Nat)} :
    ∃ done', FilledTo k proven ps ss done' (tried + 1) {
      partitions := f.partitions.insert (ps.count - 1 + tried) p'
      remaining := f.remaining.drop (k - ((f.partitions.get? (ps.count - 1 + tried)).getD {}).sectors.count)
      activated := f.activated + w
      listed := listed } := by
  have hcount := h.count_eq.resolve_left hsome
  have hlength := h.length_le.resolve_left hsome
  have hbefore := h.full_before hsome
  rw [sectors_getD h.packed] at hfree hadd ⊢
  set i := ps.count - 1 + tried
  set free := k - ((layout f.partitions)[i]?.getD ∅).count
  set batch := f.remaining.take free
  have hi : i ≤ f.partitions.count := by omega
  have hlast : f.partitions.count ≤ i + 1 := by omega
  have hlen : i ≤ (layout f.partitions).length := by rwa [length_layout]
  have hlen' : (layout f.partitions).length ≤ i + 1 := by rwa [length_layout]
  have hsplit : done ++ batch ++ f.remaining.drop free = ss := by
    rw [List.append_assoc, List.take_append_drop, h.split]
  have hbatch : batch.Sublist ss :=
    hsplit ▸ (List.sublist_append_right done batch).trans (List.sublist_append_left _ _)
  have hbatchNodup := hnodup.sublist (hbatch.map (·.number))
  obtain ⟨hsectors, hnested, hpower⟩ := Partition.sectors_of_addSectors hbatchNodup hadd
  have hlayout := layout_insert_last h.packed hi hlast hsectors
  have hnew : ∀ s ∈ layout f.partitions, ∀ n ∈ NumberSet.ofList (batch.map (·.number)), n ∉ s := fun s hs n hn => by
    obtain ⟨t, ht, rfl⟩ := List.mem_map.1 (NumberSet.mem_ofList.1 hn)
    exact h.fresh hnodup hfresh (List.mem_of_mem_take ht) s hs
  have hunion := count_getD_union (i := i) hnew
  have hbcount : (NumberSet.ofList (batch.map (·.number))).count = batch.length := by
    rw [NumberSet.count_ofList hbatchNodup, List.length_map]
  have hbatchLength : batch.length = min free f.remaining.length := List.length_take
  have hpos : 0 < f.remaining.length := List.length_pos_iff.2 hsome
  refine ⟨done ++ batch, h.packed.insert hi p', h.nested.insert hnested, ?_, hsplit, ?_, fun j n hn => ?_,
    fun s hs => ?_, fun hproven => ?_, ?_, .inr ?_, .inr ?_⟩
  · rw [hlayout]
    exact h.filled.topUp hbefore hnew (by omega) (by omega)
  · rw [hlayout, population_topUp hlen' hnew, h.population_eq, hbcount, List.length_append]
    omega
  · rw [List.map_append, List.mem_append, not_or] at hn
    rw [hlayout, inPart_topUp hlen hlen', h.stays j n hn.1]
    exact or_iff_left fun hin => hn.2 (NumberSet.mem_ofList.1 hin.2)
  · rw [hlayout]
    rcases List.mem_append.1 hs with hs | hs
    · obtain ⟨j, hj⟩ := h.placed s hs
      exact ⟨j, (inPart_topUp hlen hlen').2 (.inl hj)⟩
    · exact ⟨i, (inPart_topUp hlen hlen').2 (.inr ⟨rfl, NumberSet.mem_ofList.2 (List.mem_map_of_mem hs)⟩)⟩
  · simp only [h.activated_eq hproven, hpower hproven, add_zero]
  · by_cases hrest : f.remaining.drop free = []
    · exact .inl hrest
    · -- The batch has filled the partition.
      have hmore : 0 < (f.remaining.drop free).length := List.length_pos_iff.2 hrest
      rw [List.length_drop] at hmore
      refine .inr (.inr fun s hs => ?_)
      rw [hlayout] at hs
      rcases List.mem_append.1 hs with hs | hs
      · exact hbefore s hs
      · obtain rfl := List.mem_singleton.1 hs
        omega
  · simp only
    rw [h.packed.count_insert hi]
    omega
  · simp only [List.length_drop]
    omega

/-- One more position is tried. -/
theorem step (hk : 0 < k) (hnodup : (ss.map (·.number)).Nodup)
    (hfresh : ∀ s ∈ ss, ∀ i, ¬InPart (layout ps) i s.number) (h : FilledTo k proven ps ss done tried f)
    (hstep : fillPartition grid size k proven f (ps.count - 1 + tried) = .ok f') :
    ∃ done', FilledTo k proven ps ss done' (tried + 1) f' := by
  rcases fillPartition_spec hstep with ⟨rfl, hnil | hnofree⟩ | ⟨p', w, hsome, hfree, hadd, rfl⟩
  · exact ⟨done, h.rest hnil⟩
  · exact ⟨done, h.skip hk hnofree⟩
  · exact h.place hnodup hfresh hsome hfree hadd

end FilledTo

/-- The partitions of a deadline are filled, and its total counts their sectors. -/
structure Shaped (k : Nat) (d : Deadline) : Prop where
  /-- The partitions are there. -/
  held : d.partitions = .held d.parts
  /-- They stand at the first positions. -/
  packed : d.parts.Packed
  /-- Their ended sectors are sectors of theirs. -/
  nested : AllNested d.parts
  /-- They are filled. -/
  filled : Filled k (layout d.parts)
  /-- The total. -/
  total_eq : d.total = population (layout d.parts)

theorem shaped_empty : Shaped k {} where
  held := rfl
  packed := packed_empty
  nested _ _ hp := nomatch hp
  filled := filled_nil
  total_eq := rfl

/-- What new sectors do: each of them gets a place, and the others keep theirs. -/
structure Extended (ss : List Sector) (d d' : Deadline) : Prop where
  /-- The others are where they were. -/
  stays : ∀ i n, n ∉ ss.map (·.number) → (InPart (layout d'.parts) i n ↔ InPart (layout d.parts) i n)
  /-- The new ones have a place. -/
  placed : ∀ s ∈ ss, ∃ i, InPart (layout d'.parts) i s.number
  /-- The total grows by their number. -/
  total_eq : d'.total = d.total + ss.length

theorem Extended.refl (d : Deadline) : Extended [] d d :=
  ⟨fun _ _ _ => Iff.rfl, fun _ hs => absurd hs List.not_mem_nil, rfl⟩

/-- New sectors come. -/
theorem Shaped.addSectors (hd : Shaped k d) (hnodup : (ss.map (·.number)).Nodup)
    (hfresh : ∀ s ∈ ss, ∀ i, ¬InPart (layout d.parts) i s.number)
    (h : d.addSectors grid size k proven ss = .ok (d', w)) :
    Shaped k d' ∧ Extended ss d d' ∧ (proven = false → w = 0) := by
  rcases addSectors_spec h with ⟨rfl, rfl, rfl⟩ | ⟨ps, q, q', f, hk, hps, hq, hfold, hlist, rfl, rfl⟩
  · exact ⟨hd, .refl d', fun _ => rfl⟩
  obtain rfl := parts_eq hps
  have hrun : ∃ done, FilledTo k proven d.parts ss done (positionsToFill d.parts ss).length f := by
    refine foldOutcome_invariant
      (I := fun tried (f : Filling) => ∃ done, FilledTo k proven d.parts ss done tried.length f) hfold
      ⟨[], hd.packed, hd.nested, hd.filled, rfl, rfl, fun _ _ _ => Iff.rfl, ?_, fun _ => rfl, .inr (.inl rfl), ?_,
        .inr (Nat.le_add_right _ _)⟩ ?_
    · exact fun s hs => absurd hs List.not_mem_nil
    · exact .inr (Nat.max_eq_left (Nat.sub_le _ _)).symm
    · rintro tried i rest f f' hs ⟨done, hI⟩ hstep
      rw [List.length_append, List.length_singleton]
      rw [eq_of_range'_eq_append hs] at hstep
      exact hI.step hk hnodup hfresh hstep
  obtain ⟨done, hend⟩ := hrun
  have hnil : f.remaining = [] := by
    refine hend.length_le.elim id fun hle => List.length_eq_zero_iff.1 ?_
    rw [positionsToFill, List.length_range'] at hle
    omega
  have hdone : done = ss := by
    rw [← hend.split, hnil, List.append_nil]
  subst hdone
  refine ⟨⟨rfl, hend.packed, hend.nested, hend.filled, ?_⟩, ⟨hend.stays, hend.placed, rfl⟩, hend.activated_eq⟩
  exact (congrArg (· + done.length) hd.total_eq).trans hend.population_eq.symm

/-! ### Runs with one partition size -/

/-- Sectors that are added come with the partition size, and are different from each other and from those there. -/
def Operation.Fitting (k : Nat) (d : Deadline) : Operation → Prop
  | addSectors partitionSize _ ss => partitionSize = k ∧ (ss.map (·.number)).Nodup ∧
    ∀ e ∈ d.parts.entries, ∀ s ∈ ss, s.number ∉ e.2.sectors
  | _ => True

/-- A deadline that comes about by successful operations, all with one partition size. Each may come with a grid, a
sector size and a table of its own. -/
inductive Reachable (k : Nat) : Deadline → Prop where
  /-- A new deadline. -/
  | start : Reachable k {}
  /-- One more operation. -/
  | step {grid : Grid} {size : SectorSize} {table : SectorTable} {o : Operation} {d d' : Deadline} {w : Power}
    (run : Reachable k d) (ho : o.Fitting k d) (h : o.apply grid size table d = .ok (d', w)) : Reachable k d'

/-- A sector is in a partition of a deadline where the layout says. -/
theorem inPart_layout (h : d.parts.Packed) {i n : Nat} :
    InPart (layout d.parts) i n ↔ ∃ p, d.parts.get? i = some p ∧ n ∈ p.sectors := by
  unfold InPart
  rw [getElem?_layout h]
  cases d.parts.get? i <;> simp

/-- One operation keeps the shape. -/
theorem Shaped.apply (hd : Shaped k d) {o : Operation} (ho : o.Fitting k d)
    (h : o.apply grid size table d = .ok (d', w)) : Shaped k d' := by
  cases o with
  | addSectors partitionSize proven ss =>
    obtain ⟨rfl, hnodup, hfresh⟩ := ho
    refine (hd.addSectors hnodup (fun s hs i hin => ?_) h).1
    obtain ⟨p, hp, hin⟩ := (inPart_layout hd.packed).1 hin
    exact hfresh (i, p) (mem_entries.2 hp) s hs hin
  | removePartitions toRemove =>
    obtain ⟨⟨_, r⟩, hop, heq⟩ := map_eq_ok.1 h
    obtain rfl := (Prod.mk.inj heq).1
    obtain ⟨hheld, hpacked, hnested, hsub, htotal⟩ :=
      layout_of_removePartitions hd.held hd.packed hd.nested hd.filled.apart hd.total_eq hop
    exact ⟨hheld, hpacked, hnested, hd.filled.sublist hsub, htotal⟩
  | _ =>
    obtain ⟨hheld, hparts, htotal⟩ := KeepsLayout.apply h nofun nofun
    refine ⟨hheld hd.held, hparts.packed hd.packed, hparts.nested hd.nested, ?_, ?_⟩
    · rw [hparts.layout_eq]
      exact hd.filled
    · rw [htotal, hparts.layout_eq, hd.total_eq]

/-- A run keeps the shape. -/
theorem Reachable.shaped (h : Reachable k d) : Shaped k d := by
  induction h with
  | start => exact shaped_empty
  | step _ ho hstep ih => exact ih.apply ho hstep

/-- Every partition but the last one is full, none is empty or too large, and the total tells how many there are. -/
structure WellFilled (k : Nat) (d : Deadline) : Prop where
  /-- The partitions are there. -/
  held : d.partitions = .held d.parts
  /-- There is a partition at each of the first positions, and no other. -/
  packed : d.parts.Packed
  /-- All but the last one are full. -/
  full : ∀ i p, d.parts.get? i = some p → i + 1 < d.parts.count → p.sectors.count = k
  /-- None is empty or too large. -/
  size : ∀ i p, d.parts.get? i = some p → 0 < p.sectors.count ∧ p.sectors.count ≤ k
  /-- How many there are. -/
  count_eq : d.parts.count = ceilDiv d.total k

theorem Shaped.wellFilled (hk : 0 < k) (hd : Shaped k d) : d.WellFilled k := by
  have hget : ∀ i p, d.parts.get? i = some p → (layout d.parts)[i]? = some p.sectors := fun i p hp => by
    rw [getElem?_layout hd.packed, hp]
    rfl
  refine ⟨hd.held, hd.packed, fun i p hp hi => ?_, fun i p hp => ?_, ?_⟩
  · exact hd.filled.full (hget i p hp) (by rwa [length_layout])
  · exact hd.filled.size _ (List.mem_of_getElem? (hget i p hp))
  · rw [hd.total_eq, ← hd.filled.length_eq hk, length_layout]

end Deadline

end SectorLedger
