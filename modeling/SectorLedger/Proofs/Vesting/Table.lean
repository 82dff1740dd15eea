import SectorLedger.Vesting
import Mathlib.Algebra.Order.Group.Int
import Mathlib.Data.List.TakeWhile
import Mathlib.Tactic.Linarith

/-!
# Vesting tables

A vesting table has its entries in strictly ascending order and no negative amount. Then what has vested is a front
of the table, whichever way it is searched for. This front needs no strict order.

* `Arranged`: a table whose epochs are in some order. `Arranged.of_epochs`: so are those of a table with fewer epochs.
* `Ordered`: a table in ascending order, which may have several entries of one epoch.
* `Sound`: what is to hold of a vesting table.
* `totalAt`: what becomes free at certain epochs.
* `Ordered.unlockVested_eq`: what has vested is taken from the front, and is what a reader is told.
-/

namespace SectorLedger.VestingTable

variable {t t' l : VestingTable} {e : Instalment} {p : Int → Bool} {now : Int} {r : Int → Int → Prop}

/-! ### Sums -/

/-- The sum of the amounts at certain epochs. -/
def totalAt (p : Int → Bool) : VestingTable → Int
  | [] => 0
  | e :: rest => (if p e.epoch then e.amount else 0) + totalAt p rest

@[simp] theorem totalAt_nil : totalAt p [] = 0 := rfl

@[simp] theorem totalAt_cons : totalAt p (e :: t) = (if p e.epoch then e.amount else 0) + totalAt p t := rfl

/-- The sum at certain epochs is that of the entries at these epochs. -/
theorem totalAt_eq_total_filter (p : Int → Bool) (t : VestingTable) : totalAt p t = total (t.filter (p ·.epoch)) := by
  induction t with
  | nil => rfl
  | cons e t ih =>
    rw [totalAt_cons, ih, List.filter_cons]
    split
    · rfl
    · exact zero_add _

theorem totalAt_eq_zero (h : ∀ e ∈ t, p e.epoch → e.amount = 0) : totalAt p t = 0 := by
  induction t with
  | nil => rfl
  | cons e t ih =>
    rw [totalAt_cons, ih fun e he => h e (List.mem_cons_of_mem _ he), add_zero]
    split
    · next hp => exact h e List.mem_cons_self hp
    · rfl

/-- The whole sum is the sum at all epochs. -/
theorem totalAt_true (t : VestingTable) : totalAt (fun _ => true) t = total t := by
  induction t with
  | nil => rfl
  | cons e t ih => rw [totalAt_cons, if_pos rfl, ih, total]

theorem total_append (t t' : VestingTable) : total (t ++ t') = total t + total t' := by
  induction t with
  | nil => exact (zero_add _).symm
  | cons e t ih => rw [List.cons_append, total, total, ih, add_assoc]

theorem total_nonneg (h : ∀ e ∈ t, 0 ≤ e.amount) : 0 ≤ total t := by
  induction t with
  | nil => exact le_rfl
  | cons e t ih => exact add_nonneg (h e List.mem_cons_self) (ih fun e he => h e (List.mem_cons_of_mem _ he))

/-! ### Sound tables -/

/-- Each epoch is before those of later entries, in the order `r`, and no amount is negative. -/
structure Arranged (r : Int → Int → Prop) (t : VestingTable) : Prop where
  /-- The order. -/
  ascending : t.Pairwise fun e e' => r e.epoch e'.epoch
  /-- The amounts. -/
  nonneg : ∀ e ∈ t, 0 ≤ e.amount

/-- The entries are in ascending order, and no amount is negative. -/
abbrev Ordered (t : VestingTable) : Prop := Arranged (· ≤ ·) t

/-- The entries are in strictly ascending order, and no amount is negative. -/
abbrev Sound (t : VestingTable) : Prop := Arranged (· < ·) t

theorem Sound.ordered (h : t.Sound) : t.Ordered := ⟨h.ascending.imp le_of_lt, h.nonneg⟩

theorem sound_nil : Sound [] := ⟨.nil, fun _ he => absurd he List.not_mem_nil⟩

/-- A table stays arranged when no epoch comes, whatever becomes of the amounts. -/
theorem Arranged.of_epochs (h : t.Arranged r) (hsub : (t'.map (·.epoch)).Sublist (t.map (·.epoch)))
    (hnonneg : ∀ e ∈ t', 0 ≤ e.amount) : t'.Arranged r :=
  ⟨List.pairwise_map.1 ((List.pairwise_map.2 h.ascending).sublist hsub), hnonneg⟩

theorem Arranged.sublist (h : t.Arranged r) (hsub : t'.Sublist t) : t'.Arranged r :=
  h.of_epochs (hsub.map _) fun e he => h.nonneg e (hsub.subset he)

/-- What has vested. -/
def vested (now : Int) (t : VestingTable) : VestingTable := t.takeWhile (·.epoch < now)

/-- What has not vested yet. -/
def unvested (now : Int) (t : VestingTable) : VestingTable := t.dropWhile (·.epoch < now)

theorem vested_append_unvested (now : Int) (t : VestingTable) : t.vested now ++ t.unvested now = t :=
  List.takeWhile_append_dropWhile

theorem Arranged.vested (h : t.Arranged r) (now : Int) : (t.vested now).Arranged r :=
  h.sublist (List.takeWhile_sublist _)

theorem Arranged.unvested (h : t.Arranged r) (now : Int) : (t.unvested now).Arranged r :=
  h.sublist (List.dropWhile_sublist _)

theorem lt_of_mem_vested (he : e ∈ t.vested now) : e.epoch < now :=
  of_decide_eq_true (List.mem_takeWhile_imp (p := fun e : Instalment => decide (e.epoch < now)) he)

/-- Behind the first entry that has not vested there is none that has. -/
theorem Ordered.le_of_mem_unvested (h : t.Ordered) (he : e ∈ t.unvested now) : now ≤ e.epoch := by
  have hascending := h.ascending.sublist (List.dropWhile_sublist fun e : Instalment => decide (e.epoch < now))
  have hhead := List.head?_dropWhile_not (fun e : Instalment => decide (e.epoch < now)) t
  unfold VestingTable.unvested at he
  cases hdrop : t.dropWhile (fun e : Instalment => decide (e.epoch < now)) with
  | nil =>
    rw [hdrop] at he
    exact absurd he List.not_mem_nil
  | cons first rest =>
    rw [hdrop] at he hascending hhead
    have hfirst : now ≤ first.epoch := by simpa using hhead
    rcases List.mem_cons.1 he with rfl | hrest
    · exact hfirst
    · exact hfirst.trans ((List.pairwise_cons.1 hascending).1 e hrest)

/-- What has vested can be told apart from later entries by the epochs alone. -/
theorem filter_lt_vested_append (hl : ∀ e ∈ l, now ≤ e.epoch) :
    (t.vested now ++ l).filter (·.epoch < now) = t.vested now := by
  rw [List.filter_append, List.filter_eq_self.2 fun e he => decide_eq_true (lt_of_mem_vested he),
    List.filter_eq_nil_iff.2 fun e he => by simpa using hl e he, List.append_nil]

theorem filter_le_vested_append (hl : ∀ e ∈ l, now ≤ e.epoch) : (t.vested now ++ l).filter (now ≤ ·.epoch) = l := by
  rw [List.filter_append, List.filter_eq_nil_iff.2 fun e he => by simpa using lt_of_mem_vested he,
    List.filter_eq_self.2 fun e he => decide_eq_true (hl e he), List.nil_append]

theorem Ordered.filter_lt (h : t.Ordered) (now : Int) : t.filter (·.epoch < now) = t.vested now := by
  conv_lhs => rw [← vested_append_unvested now t]
  exact filter_lt_vested_append fun e he => h.le_of_mem_unvested he

theorem Ordered.filter_le (h : t.Ordered) (now : Int) : t.filter (now ≤ ·.epoch) = t.unvested now := by
  conv_lhs => rw [← vested_append_unvested now t]
  exact filter_le_vested_append fun e he => h.le_of_mem_unvested he

theorem total_vested_add_unvested (now : Int) (t : VestingTable) :
    t.vestedBefore now + total (t.unvested now) = total t := by
  rw [vestedBefore, ← vested, ← total_append, vested_append_unvested]

/-- What has vested is taken from the front, and is as much as a reader is told. -/
theorem Ordered.unlockVested_eq (h : t.Ordered) (now : Int) :
    t.unlockVested now = (t.unvested now, t.vestedBefore now) := by
  have hcount := vestedCount_eq_length_takeWhile now t h.ascending
  rw [← VestingTable.vested] at hcount
  have hdrop := @List.drop_left _ (t.vested now) (t.unvested now)
  have htake := @List.take_left _ (t.vested now) (t.unvested now)
  rw [vested_append_unvested] at hdrop htake
  rw [unlockVested, hcount, hdrop, htake]
  rfl

end SectorLedger.VestingTable
