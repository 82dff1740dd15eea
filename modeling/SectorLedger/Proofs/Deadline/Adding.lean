import SectorLedger.Proofs.Deadline.Everywhere
import SectorLedger.Proofs.Partition.Adding

/-!
# New sectors of a deadline in any batches

The last partition is filled first and then new ones, so where a list of sectors ends inside a partition the next list
goes on in it, and where it ends with a full partition the next list skips that one. The same places are filled as if
the two lists had come as one.

* `valid_of_run`: the partitions of a deadline that comes about by operations pass their checks.
* `FillsFrom`: the filling from a position on, until no sector remains.
* `foldOutcome_eq_fillsFrom`: the positions that are tried suffice.
* `fillsFrom_append`: the second list begins where the first has come to.
* `fill_append`: two lists are placed as one is.
-/

namespace SectorLedger.Deadline

open SparseArray

variable {grid : Grid} {size : SectorSize} {k i : Nat} {proven : Bool} {f f₁ f' : Filling} {ps : SparseArray Partition}
  {p p' : Partition} {w : Power} {ss ts : List Sector}

/-! ### Checked partitions -/

theorem stable_valid {table : SectorTable} :
    Partition.Stable grid size table (fun _ => True) Partition.Valid where
  empty := Partition.valid_empty
  apply h _ hop := h.apply hop
  nil := trivial
  sublist _ _ := trivial

/-- **The partitions of a deadline pass their checks after every run**, and so do the entries of their queues, whatever
operations are allowed. -/
theorem valid_of_run {table : SectorTable} {allowed : Deadline → Operation → Prop} {os : List Operation} {d : Deadline}
    (h : Run grid size table allowed os d w) : Everywhere Partition.Valid d.parts :=
  everywhere_of_run stable_valid (fun _ _ _ => trivial) h

/-! ### The filling until no sector remains -/

/-- The filling goes on from a position until no sector remains. -/
inductive FillsFrom (grid : Grid) (size : SectorSize) (k : Nat) (proven : Bool) : Nat → Filling → Filling → Prop where
  /-- No sector remains. -/
  | done {i : Nat} {f : Filling} (hnil : f.remaining = []) : FillsFrom grid size k proven i f f
  /-- One more position is tried. -/
  | step {i : Nat} {f f₁ f' : Filling} (hsome : f.remaining ≠ [])
    (hstep : fillPartition grid size k proven f i = .ok f₁) (rest : FillsFrom grid size k proven (i + 1) f₁ f') :
    FillsFrom grid size k proven i f f'

theorem fillsFrom_of_nil (hnil : f.remaining = []) : FillsFrom grid size k proven i f f' ↔ f' = f := by
  constructor
  · rintro (- | ⟨hsome, -, -⟩)
    · rfl
    · exact absurd hnil hsome
  · rintro rfl
    exact .done hnil

theorem fillsFrom_of_ne_nil (hsome : f.remaining ≠ []) : FillsFrom grid size k proven i f f' ↔
    ∃ f₁, fillPartition grid size k proven f i = .ok f₁ ∧ FillsFrom grid size k proven (i + 1) f₁ f' := by
  constructor
  · rintro (hnil | ⟨-, hstep, hrest⟩)
    · exact absurd hnil hsome
    · exact ⟨_, hstep, hrest⟩
  · rintro ⟨f₁, hstep, hrest⟩
    exact .step hsome hstep hrest

/-- A full partition is skipped. -/
theorem fillsFrom_of_full (hsome : f.remaining ≠ []) (hfull : f.free k i = 0) :
    FillsFrom grid size k proven i f f' ↔ i ≤ greatestIndex ∧ FillsFrom grid size k proven (i + 1) f f' := by
  simp only [fillsFrom_of_ne_nil hsome, fillPartition_eq_ok, hsome, hfull, false_and, false_or, lt_self_iff_false,
    or_false, ne_eq, not_false_eq_true, true_and, and_assoc, exists_and_left, exists_eq_left]

/-- A partition that is not full takes a batch. -/
theorem fillsFrom_of_free (hsome : f.remaining ≠ []) (hfree : 0 < f.free k i) :
    FillsFrom grid size k proven i f f' ↔ i ≤ greatestIndex ∧ ∃ p' w,
      (f.target i).addSectors grid size proven (f.remaining.take (f.free k i)) = .ok (p', w) ∧
      FillsFrom grid size k proven (i + 1) (f.place i (f.free k i) p' w) f' := by
  simp only [fillsFrom_of_ne_nil hsome, fillPartition_eq_ok, hsome, hfree, hfree.ne', false_and, false_or, ne_eq,
    not_false_eq_true, true_and]
  constructor
  · rintro ⟨_, ⟨hi, p', w, hadd, rfl⟩, hrest⟩
    exact ⟨hi, p', w, hadd, hrest⟩
  · rintro ⟨hi, p', w, hadd, hrest⟩
    exact ⟨_, ⟨hi, p', w, hadd, rfl⟩, hrest⟩

/-! ### What the positions hold -/

/-- The sector is in a partition. -/
def Housed (ps : SparseArray Partition) (n : Nat) : Prop := ∃ i p, ps.get? i = some p ∧ n ∈ p.sectors

/-- Before a position is tried: it is the last one or the next one, and only their own data can stop the sectors. -/
structure Ready (size : SectorSize) (i : Nat) (f : Filling) : Prop where
  /-- The partitions stand at the first positions. -/
  packed : f.partitions.Packed
  /-- The position follows them, or is the last one. -/
  le_count : i ≤ f.partitions.count
  /-- It is not an earlier one. -/
  count_le : f.partitions.count ≤ i + 1
  /-- The partitions pass their checks. -/
  valid : Everywhere Partition.Valid f.partitions
  /-- The sectors are new to them. -/
  newcomers : Newcomers size (Housed f.partitions) f.remaining

namespace Ready

theorem valid_target (h : Ready size i f) : (f.target i).Valid := by
  unfold Filling.target
  cases hp : f.partitions.get? i with
  | none => exact Partition.valid_empty
  | some p => exact h.valid i p hp

theorem housed_of_target {n : Nat} (hn : n ∈ (f.target i).sectors) : Housed f.partitions n := by
  unfold Filling.target at hn
  cases hp : f.partitions.get? i with
  | none =>
    rw [hp] at hn
    exact absurd hn (NumberSet.not_mem_empty n)
  | some p =>
    rw [hp] at hn
    exact ⟨i, p, hp, hn⟩

/-- What a partition holds after a batch was there or is in the batch. -/
theorem housed_of_place {free n : Nat} (h : Ready size i f)
    (hadd : (f.target i).addSectors grid size proven (f.remaining.take free) = .ok (p', w))
    (hn : Housed (f.place i free p' w).partitions n) :
    Housed f.partitions n ∨ n ∈ (f.remaining.take free).map (·.number) := by
  have hnodup : ((f.remaining.take free).map (·.number)).Nodup :=
    h.newcomers.nodup.sublist ((List.take_sublist free f.remaining).map _)
  obtain ⟨j, p, hp, hn⟩ := hn
  rw [Filling.place] at hp
  obtain ⟨-, rfl⟩ | ⟨-, hp⟩ := get?_insert_eq_some.1 hp
  · rw [(Partition.sectors_of_addSectors hnodup hadd).1, NumberSet.mem_union, NumberSet.mem_ofList] at hn
    exact hn.imp_left housed_of_target
  · exact .inl ⟨j, p, hp, hn⟩

/-- A full partition is there. -/
theorem skip (hk : 0 < k) (h : Ready size i f) (hfull : f.free k i = 0) :
    f.partitions.count = i + 1 ∧ Ready size (i + 1) f := by
  have hlt : i < f.partitions.count := by
    refine (h.packed i).1 (Option.ne_none_iff_exists'.1 fun hnone => ?_)
    rw [Filling.free, Filling.target, hnone, Option.getD_none, NumberSet.count_empty] at hfull
    omega
  have := h.count_le
  exact ⟨by omega, h.packed, by omega, by omega, h.valid, h.newcomers⟩

/-- A batch is placed. -/
theorem place (h : Ready size i f) {free : Nat}
    (hadd : (f.target i).addSectors grid size proven (f.remaining.take free) = .ok (p', w)) :
    (f.place i free p' w).partitions.count = i + 1 ∧ Ready size (i + 1) (f.place i free p' w) := by
  have hcount : (f.partitions.insert i p').count = i + 1 := by
    have := h.count_le
    rw [h.packed.count_insert h.le_count]
    omega
  have hsplit := h.newcomers
  rw [← List.take_append_drop free f.remaining, newcomers_append] at hsplit
  exact ⟨hcount, h.packed.insert h.le_count p', hcount.ge, by rw [Filling.place, hcount]; omega,
    h.valid.insert (h.valid_target.addSectors hadd), hsplit.2.mono fun n hn => h.housed_of_place hadd hn⟩

/-- The last partition is the first to be filled. -/
theorem last (hpacked : f.partitions.Packed) (hvalid : Everywhere Partition.Valid f.partitions)
    (hnew : Newcomers size (Housed f.partitions) f.remaining) : Ready size (f.partitions.count - 1) f :=
  ⟨hpacked, Nat.sub_le _ _, by omega, hvalid, hnew⟩

/-- What the filling leads to. -/
theorem of_fillsFrom (hk : 0 < k) (h : Ready size i f) (hfill : FillsFrom grid size k proven i f f') :
    f'.partitions.Packed ∧ Everywhere Partition.Valid f'.partitions ∧
      ∀ n, Housed f'.partitions n → Housed f.partitions n ∨ n ∈ f.remaining.map (·.number) := by
  induction hfill with
  | done hnil => exact ⟨h.packed, h.valid, fun n hn => .inl hn⟩
  | @step i f f₁ f' hsome hstep rest ih =>
    obtain ⟨hnil, -⟩ | ⟨-, -, ⟨hfull, rfl⟩ | ⟨hfree, p', w, hadd, rfl⟩⟩ := fillPartition_eq_ok.1 hstep
    · exact absurd hnil hsome
    · exact ih (h.skip hk hfull).2
    · obtain ⟨hpacked, hvalid, hhoused⟩ := ih (h.place hadd).2
      refine ⟨hpacked, hvalid, fun n hn => ?_⟩
      rw [← List.take_append_drop (f.free k i) f.remaining, List.map_append, List.mem_append, ← or_assoc]
      exact (hhoused n hn).imp_left (h.housed_of_place hadd)

end Ready

/-! ### The positions suffice -/

theorem foldOutcome_of_nil (hnil : f.remaining = []) (is : List Nat) :
    foldOutcome (fillPartition grid size k proven) f is = .ok f := by
  induction is with
  | nil => rfl
  | cons i is ih =>
    have hstep : fillPartition grid size k proven f i = .ok f := fillPartition_eq_ok.2 (.inl ⟨hnil, rfl⟩)
    rw [foldOutcome_cons, hstep, ok_bind, ih]

/-- Each position but perhaps the first takes a sector, so after some of them no sector remains. -/
theorem foldOutcome_eq_fillsFrom (hk : 0 < k) {m : Nat} (h : Ready size i f)
    (hm : f.remaining.length + (f.partitions.count - i) ≤ m) :
    foldOutcome (fillPartition grid size k proven) f (List.range' i m) = .ok f' ↔
      FillsFrom grid size k proven i f f' := by
  induction m generalizing i f with
  | zero =>
    have hnil : f.remaining = [] := List.length_eq_zero_iff.1 (by omega)
    rw [fillsFrom_of_nil hnil, List.range'_zero, foldOutcome_nil, Except.ok.injEq, eq_comm]
  | succ m ih =>
    by_cases hsome : f.remaining = []
    · rw [fillsFrom_of_nil hsome, foldOutcome_of_nil hsome, Except.ok.injEq, eq_comm]
    rw [List.range'_succ, foldOutcome_cons, bind_eq_ok, fillsFrom_of_ne_nil hsome]
    refine exists_congr fun f₁ => and_congr_right fun hstep => ?_
    obtain ⟨hnil, -⟩ | ⟨-, -, ⟨hfull, rfl⟩ | ⟨hfree, p', w, hadd, rfl⟩⟩ := fillPartition_eq_ok.1 hstep
    · exact absurd hnil hsome
    · obtain ⟨hcount, hnext⟩ := h.skip hk hfull
      exact ih hnext (by omega)
    · obtain ⟨hcount, hnext⟩ := h.place hadd
      have hpos := List.length_pos_iff.2 hsome
      have hrest : (f.place i (f.free k i) p' w).remaining.length + 1 ≤ f.remaining.length := by
        rw [Filling.place, List.length_drop]
        omega
      exact ih hnext (by omega)

/-! ### A position where sectors have been placed -/

/-- The filling with other sectors remaining. -/
def Filling.withRemaining (f : Filling) (ss : List Sector) : Filling := { f with remaining := ss }

@[simp] theorem Filling.remaining_withRemaining (f : Filling) (ss : List Sector) :
    (f.withRemaining ss).remaining = ss := rfl

@[simp] theorem Filling.partitions_withRemaining (f : Filling) (ss : List Sector) :
    (f.withRemaining ss).partitions = f.partitions := rfl

@[simp] theorem Filling.target_withRemaining (f : Filling) (ss : List Sector) (i : Nat) :
    (f.withRemaining ss).target i = f.target i := rfl

@[simp] theorem Filling.free_withRemaining (f : Filling) (ss : List Sector) (k i : Nat) :
    (f.withRemaining ss).free k i = f.free k i := rfl

/-- Nothing is placed. -/
theorem Filling.place_none {free : Nat} (hp : f.partitions.get? i = some p) (hnone : f.remaining.take free = []) :
    f.place i free p 0 = f := by
  have hdrop : f.remaining.drop free = f.remaining := by
    conv_rhs => rw [← List.take_append_drop free f.remaining, hnone, List.nil_append]
  have hsame : f.partitions.insert i p = f.partitions := SparseArray.ext fun j => by
    rw [get?_insert]
    split
    · next hj => rw [hj, hp]
    · rfl
  rw [Filling.place, hdrop, hsame, hnone, List.map_nil, List.append_nil, add_zero]

/-- Where a partition has been filled, the next sectors go on, as many as still fit: perhaps none. -/
theorem fillsFrom_again {q : ExpirationQueue} (hi : i ≤ greatestIndex) (hp : f.partitions.get? i = some p)
    (hvalid : p.Valid) (hq : p.expirations = .held q) : FillsFrom grid size k proven i f f' ↔ ∃ p' w,
      p.addSectors grid size proven (f.remaining.take (f.free k i)) = .ok (p', w) ∧
      FillsFrom grid size k proven (i + 1) (f.place i (f.free k i) p' w) f' := by
  have htarget : f.target i = p := by rw [Filling.target, hp, Option.getD_some]
  by_cases hnone : f.remaining.take (f.free k i) = []
  · simp only [hnone, hvalid.addSectors_nil hq]
    have hplace : FillsFrom grid size k proven (i + 1) f f' ↔ ∃ p' w, (p' = p ∧ w = 0) ∧
        FillsFrom grid size k proven (i + 1) (f.place i (f.free k i) p' w) f' := by
      constructor
      · intro hrest
        exact ⟨p, 0, ⟨rfl, rfl⟩, by rwa [Filling.place_none hp hnone]⟩
      · rintro ⟨_, _, ⟨rfl, rfl⟩, hrest⟩
        rwa [Filling.place_none hp hnone] at hrest
    rw [← hplace]
    rcases List.take_eq_nil_iff.1 hnone with hfull | hnil
    · by_cases hsome : f.remaining = []
      · rw [fillsFrom_of_nil hsome, fillsFrom_of_nil hsome]
      · rw [fillsFrom_of_full hsome hfull, and_iff_right hi]
    · rw [fillsFrom_of_nil hnil, fillsFrom_of_nil hnil]
  · have hsome : f.remaining ≠ [] := fun hnil => hnone (by rw [hnil, List.take_nil])
    have hfree : 0 < f.free k i := Nat.pos_of_ne_zero fun hfull => hnone (by rw [hfull, List.take_zero])
    rw [fillsFrom_of_free hsome hfree, and_iff_right hi, htarget]

/-! ### Two lists of sectors -/

/-- Two batches that the partition has room for are one. -/
theorem Filling.place_place {free : Nat} {p₁ : Partition} {w₁ : Power} (hle : ss.length ≤ free) :
    (((f.withRemaining ss).place i free p₁ w₁).withRemaining ts).place i (free - ss.length) p' w =
      (f.withRemaining (ss ++ ts)).place i free p' (w₁ + w) := by
  simp only [Filling.place, Filling.withRemaining, insert_insert, List.take_append, List.drop_append,
    List.take_of_length_le hle, List.drop_of_length_le hle, List.nil_append, List.map_append, List.append_assoc,
    add_assoc]

theorem Ready.of_append (h : Ready size i (f.withRemaining (ss ++ ts))) : Ready size i (f.withRemaining ss) :=
  ⟨h.packed, h.le_count, h.count_le, h.valid, (newcomers_append.1 h.newcomers).1⟩

/-- A list begins where another one has come to. -/
def ThenFrom (grid : Grid) (size : SectorSize) (k : Nat) (proven : Bool) (i : Nat) (f : Filling) (ss ts : List Sector)
    (f' : Filling) : Prop :=
  ∃ f₁, FillsFrom grid size k proven i (f.withRemaining ss) f₁ ∧
    FillsFrom grid size k proven (f₁.partitions.count - 1) (f₁.withRemaining ts) f'

/-- The first list ends in a partition, which takes as many sectors of the second list as still fit. -/
theorem fillsFrom_append_of_le (h : Ready size i (f.withRemaining (ss ++ ts))) (hss : ss ≠ [])
    (hle : ss.length ≤ f.free k i) :
    FillsFrom grid size k proven i (f.withRemaining (ss ++ ts)) f' ↔ ThenFrom grid size k proven i f ss ts f' := by
  have hsome : (f.withRemaining (ss ++ ts)).remaining ≠ [] := List.append_ne_nil_of_left_ne_nil hss ts
  have hsome' : (f.withRemaining ss).remaining ≠ [] := hss
  have hfree : 0 < f.free k i := (List.length_pos_iff.2 hss).trans_le hle
  have hall : ss.take (f.free k i) = ss := List.take_of_length_le hle
  have hboth : (ss ++ ts).take (f.free k i) = ss ++ ts.take (f.free k i - ss.length) := by
    rw [List.take_append, hall]
  have hvalid : (f.target i).Valid := h.valid_target
  have hnew : Newcomers size (· ∈ (f.target i).sectors) (ss ++ ts.take (f.free k i - ss.length)) := by
    have hsplit := h.newcomers
    rw [Filling.remaining_withRemaining, ← List.take_append_drop (f.free k i) (ss ++ ts), hboth,
      newcomers_append] at hsplit
    exact hsplit.1.mono fun n hn => Ready.housed_of_target hn
  -- What follows the first list, once it has been placed.
  have hnext : ∀ {p₁ w₁}, (f.target i).addSectors grid size proven ss = .ok (p₁, w₁) → i ≤ greatestIndex →
      (FillsFrom grid size k proven (((f.withRemaining ss).place i (f.free k i) p₁ w₁).partitions.count - 1)
          (((f.withRemaining ss).place i (f.free k i) p₁ w₁).withRemaining ts) f' ↔ ∃ p' w,
        p₁.addSectors grid size proven (ts.take (f.free k i - ss.length)) = .ok (p', w) ∧
        FillsFrom grid size k proven (i + 1) ((f.withRemaining (ss ++ ts)).place i (f.free k i) p' (w₁ + w)) f') := by
    intro p₁ w₁ h₁ hi
    obtain ⟨hroom, q, hq⟩ := hvalid.count_of_addSectors (newcomers_append.1 hnew).1 h₁
    have hplace : ((f.withRemaining ss).target i).addSectors grid size proven (ss.take (f.free k i)) = .ok (p₁, w₁) := by
      rwa [hall]
    obtain ⟨hcount, -⟩ := h.of_append.place hplace
    have hget : ((f.withRemaining ss).place i (f.free k i) p₁ w₁).partitions.get? i = some p₁ := by
      rw [Filling.place, get?_insert, if_pos rfl]
    have hleft : ((f.withRemaining ss).place i (f.free k i) p₁ w₁).free k i = f.free k i - ss.length := by
      rw [Filling.free, Filling.target, hget, Option.getD_some, hroom, Filling.free, Nat.sub_sub]
    rw [hcount, Nat.add_sub_cancel, fillsFrom_again hi (by exact hget) (hvalid.addSectors h₁) hq,
      Filling.free_withRemaining, hleft]
    simp only [Filling.remaining_withRemaining, Filling.place_place hle]
  unfold ThenFrom
  simp only [fillsFrom_of_free hsome hfree, fillsFrom_of_free hsome' hfree, Filling.remaining_withRemaining,
    Filling.target_withRemaining, Filling.free_withRemaining, hboth, hall]
  constructor
  · rintro ⟨hi, p', w, hadd, hrest⟩
    obtain ⟨p₁, w₁, w₂, h₁, h₂, rfl⟩ := (hvalid.addSectors_append hnew).1 hadd
    exact ⟨_, ⟨hi, p₁, w₁, h₁, .done (List.drop_of_length_le hle)⟩, (hnext h₁ hi).2 ⟨p', w₂, h₂, hrest⟩⟩
  · rintro ⟨f₁, ⟨hi, p₁, w₁, h₁, hend⟩, hrest⟩
    obtain rfl := (fillsFrom_of_nil (List.drop_of_length_le hle)).1 hend
    obtain ⟨p', w₂, h₂, hrest⟩ := (hnext h₁ hi).1 hrest
    exact ⟨hi, p', w₁ + w₂, (hvalid.addSectors_append hnew).2 ⟨p₁, w₁, w₂, h₁, h₂, rfl⟩, hrest⟩

/-- **Two lists are placed as one is.** The second list begins at the last position that the first has come to. -/
theorem fillsFrom_append (hk : 0 < k) {m : Nat} (h : Ready size i (f.withRemaining (ss ++ ts)))
    (hss : ss ≠ []) (hm : ss.length + (f.partitions.count - i) ≤ m) :
    FillsFrom grid size k proven i (f.withRemaining (ss ++ ts)) f' ↔ ThenFrom grid size k proven i f ss ts f' := by
  induction m generalizing i f ss with
  | zero => exact absurd (List.length_pos_iff.2 hss) (by omega)
  | succ m ih =>
    rcases Nat.lt_or_ge (f.free k i) ss.length with hlt | hle
    case inr => exact fillsFrom_append_of_le h hss hle
    have hsome : (f.withRemaining (ss ++ ts)).remaining ≠ [] := List.append_ne_nil_of_left_ne_nil hss ts
    have hsome' : (f.withRemaining ss).remaining ≠ [] := hss
    rcases Nat.eq_zero_or_pos (f.free k i) with hfull | hfree
    · -- The partition is full. Both fillings skip it.
      obtain ⟨hcount, hready⟩ := h.skip hk hfull
      rw [Filling.partitions_withRemaining] at hcount
      rw [fillsFrom_of_full hsome hfull, ih hready hss (by omega)]
      simp only [ThenFrom, fillsFrom_of_full hsome' hfull, and_assoc, exists_and_left]
    · -- The first list goes on behind the partition. Both fillings place one batch.
      have htake : (ss ++ ts).take (f.free k i) = ss.take (f.free k i) := List.take_append_of_le_length hlt.le
      have hdrop : (ss ++ ts).drop (f.free k i) = ss.drop (f.free k i) ++ ts := List.drop_append_of_le_length hlt.le
      have hplace : ∀ p' w, (f.withRemaining (ss ++ ts)).place i (f.free k i) p' w =
          ((f.withRemaining ss).place i (f.free k i) p' w).withRemaining (ss.drop (f.free k i) ++ ts) := by
        intro p' w
        simp only [Filling.place, Filling.withRemaining, htake, hdrop]
      have hrest : ss.drop (f.free k i) ≠ [] := fun hnil => absurd (List.drop_eq_nil_iff.1 hnil) hlt.not_ge
      have hstep : ∀ {p' w}, (f.target i).addSectors grid size proven (ss.take (f.free k i)) = .ok (p', w) →
          (FillsFrom grid size k proven (i + 1) ((f.withRemaining (ss ++ ts)).place i (f.free k i) p' w) f' ↔
            ∃ f₁, FillsFrom grid size k proven (i + 1) ((f.withRemaining ss).place i (f.free k i) p' w) f₁ ∧
              FillsFrom grid size k proven (f₁.partitions.count - 1) (f₁.withRemaining ts) f') := by
        intro p' w hadd
        have hadd : ((f.withRemaining (ss ++ ts)).target i).addSectors grid size proven
            ((ss ++ ts).take (f.free k i)) = .ok (p', w) := by rwa [htake]
        obtain ⟨hcount, hready⟩ := h.place hadd
        rw [hplace] at hcount hready ⊢
        rw [Filling.partitions_withRemaining] at hcount
        exact ih hready hrest (by rw [List.length_drop]; omega)
      simp only [ThenFrom, fillsFrom_of_free hsome hfree, fillsFrom_of_free hsome' hfree,
        Filling.remaining_withRemaining, Filling.target_withRemaining, Filling.free_withRemaining, htake]
      constructor
      · rintro ⟨hi, p', w, hadd, hfill⟩
        obtain ⟨f₁, hfill₁, hfill₂⟩ := (hstep hadd).1 hfill
        exact ⟨f₁, ⟨hi, p', w, hadd, hfill₁⟩, hfill₂⟩
      · rintro ⟨f₁, ⟨hi, p', w, hadd, hfill₁⟩, hfill₂⟩
        exact ⟨hi, p', w, hadd, (hstep hadd).2 ⟨f₁, hfill₁, hfill₂⟩⟩

/-! ### What has been placed before -/

/-- Another filling after this one. -/
def Filling.followedBy (f f' : Filling) : Filling where
  partitions := f'.partitions
  remaining := f'.remaining
  activated := f.activated + f'.activated
  listed := f.listed ++ f'.listed

/-- What has been placed before stays placed, and does not matter to the rest. -/
theorem fillPartition_followedBy (f f' : Filling) (i : Nat) :
    fillPartition grid size k proven (f.followedBy f') i = f.followedBy <$> fillPartition grid size k proven f' i := by
  unfold fillPartition
  split
  · next hnil =>
    have hnil : f'.remaining.isEmpty = true := hnil
    rw [if_pos hnil]
    rfl
  · next hsome =>
    have hsome : ¬f'.remaining.isEmpty = true := hsome
    rw [if_neg hsome, map_bind]
    refine bind_congr fun found => ?_
    rw [apply_ite (Filling.followedBy f <$> ·), map_bind]
    refine ite_congr rfl (fun _ => rfl) fun _ => bind_congr fun (p, w) => ?_
    rw [map_bind]
    refine bind_congr fun ps => ?_
    rw [map_pure]
    simp only [Filling.followedBy, add_assoc, List.append_assoc]

/-! ### Two batches -/

/-- Places the sectors that remain. -/
def Filling.fill (grid : Grid) (size : SectorSize) (k : Nat) (proven : Bool) (f : Filling) : Outcome Filling :=
  foldOutcome (fillPartition grid size k proven) f (positionsToFill f.partitions f.remaining)

theorem Ready.fill_eq_ok (hk : 0 < k) (h : Ready size (f.partitions.count - 1) f) :
    f.fill grid size k proven = .ok f' ↔ FillsFrom grid size k proven (f.partitions.count - 1) f f' :=
  foldOutcome_eq_fillsFrom hk h (by omega)

/-- Two lists are placed one after the other, with the same outcome. -/
theorem fill_append (hk : 0 < k) (hpacked : ps.Packed) (hvalid : Everywhere Partition.Valid ps)
    (hnew : Newcomers size (Housed ps) (ss ++ ts)) (hss : ss ≠ []) :
    Filling.fill grid size k proven { partitions := ps, remaining := ss ++ ts } = .ok f ↔
      ∃ f₁ f₂, Filling.fill grid size k proven { partitions := ps, remaining := ss } = .ok f₁ ∧
        Filling.fill grid size k proven { partitions := f₁.partitions, remaining := ts } = .ok f₂ ∧
        f₁.followedBy f₂ = f := by
  let f₀ : Filling := { partitions := ps, remaining := [] }
  have hready : Ready size (f₀.partitions.count - 1) (f₀.withRemaining (ss ++ ts)) :=
    Ready.last (f := f₀.withRemaining (ss ++ ts)) hpacked hvalid hnew
  have hfirst : ∀ {f₁}, Filling.fill grid size k proven { partitions := ps, remaining := ss } = .ok f₁ ↔
      FillsFrom grid size k proven (f₀.partitions.count - 1) (f₀.withRemaining ss) f₁ :=
    Ready.fill_eq_ok (f := f₀.withRemaining ss) hk hready.of_append
  have hsecond : ∀ {f₁}, FillsFrom grid size k proven (f₀.partitions.count - 1) (f₀.withRemaining ss) f₁ →
      (FillsFrom grid size k proven (f₁.partitions.count - 1) (f₁.withRemaining ts) f ↔ ∃ f₂,
        Filling.fill grid size k proven { partitions := f₁.partitions, remaining := ts } = .ok f₂ ∧
        f₁.followedBy f₂ = f) := by
    intro f₁ hfill
    obtain ⟨hpacked₁, hvalid₁, hhoused₁⟩ := hready.of_append.of_fillsFrom hk hfill
    have hready₁ : Ready size ((f₁.withRemaining ts).partitions.count - 1) (f₁.withRemaining ts) :=
      .last hpacked₁ hvalid₁ ((newcomers_append.1 hnew).2.mono hhoused₁)
    have hstart : f₁.withRemaining ts = f₁.followedBy { partitions := f₁.partitions, remaining := ts } := by
      rw [Filling.followedBy, add_zero, List.append_nil]
      rfl
    refine (hready₁.fill_eq_ok hk).symm.trans ?_
    rw [hstart, Filling.fill, foldOutcome_map_eq f₁.followedBy fun i f => fillPartition_followedBy f₁ f i, map_eq_ok]
    rfl
  calc Filling.fill grid size k proven (f₀.withRemaining (ss ++ ts)) = .ok f
      ↔ FillsFrom grid size k proven (f₀.partitions.count - 1) (f₀.withRemaining (ss ++ ts)) f := hready.fill_eq_ok hk
    _ ↔ ThenFrom grid size k proven (f₀.partitions.count - 1) f₀ ss ts f := fillsFrom_append hk hready hss le_rfl
    _ ↔ _ := by
        refine exists_congr fun f₁ => ?_
        rw [← hfirst, exists_and_left]
        exact and_congr_right fun hfill => hsecond (hfirst.1 hfill)

end SectorLedger.Deadline
