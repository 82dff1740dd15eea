import SectorLedger.Miner.Sectors
import SectorLedger.Proofs.Deadline.Shape
import SectorLedger.Proofs.Miner.Settling

/-!
# Where a sector is found

A sector is looked up deadline by deadline, and in each deadline partition by partition. The answer depends only on
which partitions have the sector: it is its place if it has one, and the same for miners in which it is in the same
places.

* `Deadlines.Holds`: a place of a sector.
* `findIn_cons`: the search goes into one deadline.
* `findSector_of_unique`: a sector with one place is found there.
* `findSector_congr`: a sector in the same places is found in the same place.
-/

namespace SectorLedger

variable {policy : Policy} {k n : Nat}

namespace Deadlines

variable {ds ds' : Deadlines} {i j : Nat}

/-- The sector is in a partition of a deadline. -/
def Holds (ds : Deadlines) (i j n : Nat) : Prop :=
  ∃ d p, ds.view i = some d ∧ d.parts.get? j = some p ∧ n ∈ p.sectors

/-- All deadlines are there, at indices of the policy, and their partitions are filled. -/
def AllShaped (policy : Policy) (k : Nat) (ds : Deadlines) : Prop :=
  ∀ i < ds.length, i < policy.deadlines ∧ ∃ d, ds.view i = some d ∧ d.Shaped k

theorem lt_length_of_view {d : Deadline} (h : ds.view i = some d) : i < ds.length :=
  (List.getElem?_eq_some_iff.1 (view_eq_some.1 h)).1

theorem Holds.lt_length (h : ds.Holds i j n) : i < ds.length :=
  let ⟨_, _, hd, _⟩ := h
  lt_length_of_view hd

theorem holds_iff_inPart {d : Deadline} (hview : ds.view i = some d) (hd : d.Shaped k) :
    ds.Holds i j n ↔ InPart (layout d.parts) j n := by
  rw [Deadline.inPart_layout hd.packed]
  constructor
  · rintro ⟨d', p, hview', hp, hn⟩
    obtain rfl := Option.some.inj (hview.symm.trans hview')
    exact ⟨p, hp, hn⟩
  · rintro ⟨p, hp, hn⟩
    exact ⟨d, p, hview, hp, hn⟩

/-- No deadline has a sector in two partitions. -/
theorem AllShaped.holds_unique (h : ds.AllShaped policy k) {j' : Nat} (hj : ds.Holds i j n) (hj' : ds.Holds i j' n) :
    j = j' := by
  obtain ⟨-, d, hview, hd⟩ := h i hj.lt_length
  exact hd.filled.inPart_unique ((holds_iff_inPart hview hd).1 hj) ((holds_iff_inPart hview hd).1 hj')

theorem partitionOf_eq_some {d : Deadline} (hd : d.Shaped k) :
    partitionOf d.parts n = some j ↔ InPart (layout d.parts) j n := by
  have hiff := @Deadline.inPart_layout d hd.packed
  have hfound : ∀ j, partitionOf d.parts n = some j → InPart (layout d.parts) j n := fun j h => by
    obtain ⟨⟨_, p⟩, hfind, rfl⟩ := Option.map_eq_some_iff.1 h
    have hn := List.find?_some (p := fun e : Nat × Partition => decide (n ∈ e.2.sectors)) hfind
    exact hiff.2 ⟨p, SparseArray.mem_entries.1 (List.mem_of_find?_eq_some hfind), of_decide_eq_true hn⟩
  refine ⟨hfound j, fun h => ?_⟩
  obtain ⟨p, hp, hn⟩ := hiff.1 h
  cases hfind : partitionOf d.parts n with
  | none =>
    have hnone := List.find?_eq_none.1 (Option.map_eq_none_iff.1 hfind) (j, p) (SparseArray.mem_entries.2 hp)
    exact absurd (decide_eq_true hn) hnone
  | some j' => exact congrArg some (hd.filled.inPart_unique (hfound j' hfind) h)

/-- The search goes into one deadline. -/
theorem findIn_cons (h : ds.AllShaped policy k) (hi : i < ds.length) (n : Nat) (rest : List Nat) :
    (∀ j, ds.Holds i j n → findIn policy ds n (i :: rest) = .ok (i, j)) ∧
      ((∀ j, ¬ds.Holds i j n) → findIn policy ds n (i :: rest) = findIn policy ds n rest) := by
  obtain ⟨hlt, d, hview, hd⟩ := h i hi
  have hload : load policy ds i = .ok d := load_eq_ok.2 ⟨hlt, view_eq_some.1 hview⟩
  have hparts : d.partitions.load .array = .ok d.parts := Stored.load_eq_ok.2 hd.held
  rw [findIn, hload, ok_bind, hparts, ok_bind]
  refine ⟨fun j hj => ?_, fun hnone => ?_⟩
  · rw [(partitionOf_eq_some hd).2 ((holds_iff_inPart hview hd).1 hj)]
    rfl
  · have hfind : partitionOf d.parts n = none := Option.eq_none_iff_forall_ne_some.2 fun j hj =>
      hnone j ((holds_iff_inPart hview hd).2 ((partitionOf_eq_some hd).1 hj))
    rw [hfind]

/-- A sector that is in one deadline only is found there, whichever others are searched. -/
theorem findIn_of_unique (h : ds.AllShaped policy k) (hplace : ds.Holds i j n)
    (hunique : ∀ i' j', ds.Holds i' j' n → i' = i) {is : List Nat} (his : ∀ i' ∈ is, i' < ds.length) (hmem : i ∈ is) :
    findIn policy ds n is = .ok (i, j) := by
  induction is with
  | nil => exact absurd hmem List.not_mem_nil
  | cons i' is ih =>
    obtain ⟨hfound, hskip⟩ := findIn_cons h (his i' List.mem_cons_self) n is
    by_cases hi : i' = i
    · subst hi
      exact hfound j hplace
    · rw [hskip fun j' hj' => hi (hunique i' j' hj')]
      exact ih (fun i'' hi'' => his i'' (List.mem_cons_of_mem _ hi''))
        ((List.mem_cons.1 hmem).resolve_left (Ne.symm hi))

theorem findSector_of_unique (h : ds.AllShaped policy k) (hplace : ds.Holds i j n)
    (hunique : ∀ i' j', ds.Holds i' j' n → i' = i) : findSector policy ds n = .ok (i, j) :=
  findIn_of_unique h hplace hunique (fun _ hi' => List.mem_range.1 hi') (List.mem_range.2 hplace.lt_length)

/-- A sector in the same places is found in the same place, or found nowhere. -/
theorem findIn_congr (h : ds.AllShaped policy k) (h' : ds'.AllShaped policy k) (hlength : ds'.length = ds.length)
    (hsame : ∀ i j, ds'.Holds i j n ↔ ds.Holds i j n) {is : List Nat} (his : ∀ i ∈ is, i < ds.length) :
    findIn policy ds' n is = findIn policy ds n is := by
  induction is with
  | nil => rfl
  | cons i is ih =>
    have hi := his i List.mem_cons_self
    obtain ⟨hfound, hskip⟩ := findIn_cons h hi n is
    obtain ⟨hfound', hskip'⟩ := findIn_cons h' (hlength ▸ hi) n is
    by_cases hplace : ∃ j, ds.Holds i j n
    · obtain ⟨j, hj⟩ := hplace
      rw [hfound j hj, hfound' j ((hsame i j).2 hj)]
    · rw [not_exists] at hplace
      rw [hskip hplace, hskip' fun j hj => hplace j ((hsame i j).1 hj)]
      exact ih fun i' hi' => his i' (List.mem_cons_of_mem _ hi')

theorem findSector_congr (h : ds.AllShaped policy k) (h' : ds'.AllShaped policy k) (hlength : ds'.length = ds.length)
    (hsame : ∀ i j, ds'.Holds i j n ↔ ds.Holds i j n) : findSector policy ds' n = findSector policy ds n := by
  rw [findSector, findSector, hlength]
  exact findIn_congr h h' hlength hsame fun i hi => List.mem_range.1 hi

end Deadlines

end SectorLedger
