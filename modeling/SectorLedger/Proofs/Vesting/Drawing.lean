import SectorLedger.Proofs.Vesting.Table
import Mathlib.Tactic.Ring

/-!
# Unlocking what has not vested

What is wanted is drawn from the earliest entries that have not vested: some are used up, and the next one may be
reduced. The program does this in one pass, with the vested entries in front of the others, and then cuts out the
entries that have been used up.

* `draw`: what is left, and what has been drawn. `draw_eq_min`: how much it is.
* `Drawn.run`: how far the pass comes.
* `Ordered.unlockUnvested_eq`: the pass and the cut draw what is wanted.
* `LeftOf`: what an unlocking leaves of a table. No entry that is left has been emptied.
* `unlockUnvested_takes_earliest`: as much as is wanted comes out of the first entries that have not vested.
-/

namespace SectorLedger.VestingTable

variable {t l : VestingTable} {e : Instalment} {now target : Int}

/-! ### Drawing -/

/-- Draws what is wanted from the front. Answers what is left, and how much has been drawn. -/
def draw (wanted : Int) : List Instalment → List Instalment × Int
  | [] => ([], 0)
  | e :: rest =>
    if wanted ≤ 0 then (e :: rest, 0)
    else if e.amount ≤ wanted then ((draw (wanted - e.amount) rest).1, e.amount + (draw (wanted - e.amount) rest).2)
    else ({ e with amount := e.amount - wanted } :: rest, wanted)

theorem draw_of_nonpos {wanted : Int} (h : wanted ≤ 0) : draw wanted l = (l, 0) := by
  cases l with
  | nil => rfl
  | cons e rest => rw [draw, if_pos h]

/-- What is drawn and what is left are the whole. -/
theorem total_draw (wanted : Int) (l : VestingTable) : total (draw wanted l).1 + (draw wanted l).2 = total l := by
  induction l generalizing wanted with
  | nil => rfl
  | cons e rest ih =>
    rw [draw]
    split
    · exact add_zero _
    · split
      · rw [total, ← ih (wanted - e.amount)]
        ring
      · rw [total, total]
        ring

/-- As much is drawn as is wanted, if there is as much. -/
theorem draw_eq_min {wanted : Int} (h : 0 ≤ wanted) (hl : ∀ e ∈ l, 0 ≤ e.amount) :
    (draw wanted l).2 = min wanted (total l) := by
  induction l generalizing wanted with
  | nil => exact (min_eq_right h).symm
  | cons e rest ih =>
    have he := hl e List.mem_cons_self
    have hrest := fun e he => hl e (List.mem_cons_of_mem _ he)
    have htotal : 0 ≤ total rest := total_nonneg hrest
    rw [draw, total]
    split
    · next hle =>
      have hzero : wanted = 0 := le_antisymm hle h
      rw [hzero, min_eq_left (add_nonneg he htotal)]
    · split
      · next hle =>
        rw [ih (sub_nonneg.2 hle) hrest, ← min_add_add_left, add_sub_cancel]
      · next hgt => exact (min_eq_left (by linarith)).symm

/-- What is left has epochs of the table, in its order. -/
theorem epochs_draw (wanted : Int) (l : VestingTable) :
    ((draw wanted l).1.map (·.epoch)).Sublist (l.map (·.epoch)) := by
  induction l generalizing wanted with
  | nil => exact .slnil
  | cons e rest ih =>
    rw [draw]
    split
    · exact .refl _
    · split
      · exact .cons _ (ih _)
      · exact .refl _

/-- No negative amount is left. -/
theorem nonneg_of_mem_draw {wanted : Int} (hl : ∀ e ∈ l, 0 ≤ e.amount) : ∀ e ∈ (draw wanted l).1, 0 ≤ e.amount := by
  induction l generalizing wanted with
  | nil => exact hl
  | cons e rest ih =>
    have hrest := fun e he => hl e (List.mem_cons_of_mem _ he)
    rw [draw]
    split
    · exact hl
    · split
      · exact ih hrest
      · next hgt =>
        intro e' he'
        rcases List.mem_cons.1 he' with rfl | hin
        · exact sub_nonneg.2 (not_le.1 hgt).le
        · exact hrest e' hin

/-- What is left is at epochs of the table, and no entry is left with nothing. -/
theorem of_mem_draw {wanted : Int} (he : e ∈ (draw wanted l).1) :
    ∃ e' ∈ l, e'.epoch = e.epoch ∧ (0 < e'.amount → 0 < e.amount) := by
  induction l generalizing wanted with
  | nil => exact absurd he List.not_mem_nil
  | cons first rest ih =>
    rw [draw] at he
    split at he
    · exact ⟨e, he, rfl, id⟩
    · split at he
      · obtain ⟨e', hin, hsame⟩ := ih he
        exact ⟨e', List.mem_cons_of_mem _ hin, hsame⟩
      · next hmore =>
        rcases List.mem_cons.1 he with rfl | hin
        · exact ⟨first, List.mem_cons_self, rfl, fun _ => sub_pos.2 (not_le.1 hmore)⟩
        · exact ⟨e, List.mem_cons_of_mem _ hin, rfl, id⟩

/-! ### The pass -/

section Pass

variable {u u' : Unlocking}

theorem unlockEntry_of_done (h : target ≤ u.unlocked) :
    unlockEntry now target u e = { u with entries := u.entries ++ [e] } := if_pos h

theorem unlockEntry_of_vested (h : u.unlocked < target) (he : e.epoch < now) :
    unlockEntry now target u e = { u with entries := u.entries ++ [e], start := u.entries.length + 1 } := by
  rw [unlockEntry, if_neg (not_le.2 h), if_pos he]

theorem unlockEntry_of_used (h : u.unlocked < target) (he : now ≤ e.epoch) (hused : e.amount ≤ target - u.unlocked) :
    unlockEntry now target u e = { u with
      unlocked := u.unlocked + e.amount
      lastEmptied := some u.entries.length
      entries := u.entries ++ [e] } := by
  rw [unlockEntry, if_neg (not_le.2 h), if_neg (not_lt.2 he)]
  simp only [min_eq_right hused, sub_self, if_true]

theorem unlockEntry_of_reduced (h : u.unlocked < target) (he : now ≤ e.epoch)
    (hreduced : target - u.unlocked < e.amount) :
    unlockEntry now target u e = { u with
      unlocked := target
      entries := u.entries ++ [{ e with amount := e.amount - (target - u.unlocked) }] } := by
  rw [unlockEntry, if_neg (not_le.2 h), if_neg (not_lt.2 he)]
  simp only [min_eq_left hreduced.le, if_neg (sub_pos.2 hreduced).ne', add_sub_cancel]

/-- Once all that is wanted is unlocked, the rest stays. -/
theorem foldl_of_done (h : target ≤ u.unlocked) (l : VestingTable) :
    l.foldl (unlockEntry now target) u = { u with entries := u.entries ++ l } := by
  induction l generalizing u with
  | nil => rw [List.foldl_nil, List.append_nil]
  | cons e l ih =>
    have hlater := @ih { u with entries := u.entries ++ [e] } h
    rw [List.foldl_cons, unlockEntry_of_done h, hlater, List.append_assoc]
    rfl

/-- Vested entries stay. They are what a cut would start after. -/
theorem foldl_of_vested (h : u.unlocked < target) (hstart : u.start = u.entries.length)
    (hl : ∀ e ∈ l, e.epoch < now) : l.foldl (unlockEntry now target) u =
      { u with entries := u.entries ++ l, start := u.entries.length + l.length } := by
  induction l generalizing u with
  | nil => rw [List.foldl_nil, List.append_nil, List.length_nil, add_zero, ← hstart]
  | cons e l ih =>
    have hlater := @ih { u with entries := u.entries ++ [e], start := u.entries.length + 1 } h
      (by simp only [List.length_append, List.length_singleton]) fun e he => hl e (List.mem_cons_of_mem _ he)
    rw [List.foldl_cons, unlockEntry_of_vested h (hl e List.mem_cons_self), hlater]
    simp only [List.append_assoc, List.singleton_append, List.length_append, List.length_cons, List.length_nil]
    congr 1
    omega

/-- What the pass has done to entries that have not vested: those in front are used up, and the others are what is
left. -/
structure Drawn (target : Int) (l : VestingTable) (u u' : Unlocking) (used : Nat) (entries : VestingTable) :
    Prop where
  /-- The entries are there, those that are used up included. -/
  entries_eq : u'.entries = u.entries ++ entries
  /-- What is left. -/
  left_eq : entries.drop used = (draw (target - u.unlocked) l).1
  /-- What has been unlocked. -/
  unlocked_eq : u'.unlocked = u.unlocked + (draw (target - u.unlocked) l).2
  /-- A cut starts where it did. -/
  start_eq : u'.start = u.start
  /-- It ends with the last entry that is used up. -/
  last_eq : u'.lastEmptied = if used = 0 then u.lastEmptied else some (u.entries.length + used - 1)

/-- No more is wanted. -/
theorem Drawn.done (h : target ≤ u.unlocked) (l : VestingTable) :
    Drawn target l u { u with entries := u.entries ++ l } 0 l := by
  have hdraw : VestingTable.draw (target - u.unlocked) l = (l, 0) := draw_of_nonpos (sub_nonpos.2 h)
  refine ⟨rfl, ?_, ?_, rfl, rfl⟩
  · rw [hdraw, List.drop_zero]
  · rw [hdraw, add_zero]

/-- The first entry is used up, and the pass goes on. -/
theorem Drawn.used {used : Nat} {entries : VestingTable} (h : u.unlocked < target)
    (hused : e.amount ≤ target - u.unlocked)
    (hrest : Drawn target l { u with
      unlocked := u.unlocked + e.amount
      lastEmptied := some u.entries.length
      entries := u.entries ++ [e] } u' used entries) : Drawn target (e :: l) u u' (used + 1) (e :: entries) := by
  have hwanted : ¬target - u.unlocked ≤ 0 := not_le.2 (sub_pos.2 h)
  obtain ⟨hentries, hleft, hunlocked, hstart, hlast⟩ := hrest
  simp only [← sub_sub] at hleft hunlocked
  refine ⟨?_, ?_, ?_, hstart, ?_⟩
  · rw [hentries, List.append_assoc, List.singleton_append]
  · rw [List.drop_succ_cons, hleft, VestingTable.draw, if_neg hwanted, if_pos hused]
  · rw [hunlocked, VestingTable.draw, if_neg hwanted, if_pos hused, add_assoc]
  · rw [hlast, List.length_append, List.length_singleton, if_neg (Nat.succ_ne_zero used)]
    split
    · next hzero =>
      rw [hzero]
      rfl
    · congr 1
      omega

/-- The first entry is reduced, and no more is wanted. -/
theorem Drawn.reduced (h : u.unlocked < target) (hreduced : target - u.unlocked < e.amount) :
    Drawn target (e :: l) u { u with
      unlocked := target
      entries := u.entries ++ { e with amount := e.amount - (target - u.unlocked) } :: l } 0
        ({ e with amount := e.amount - (target - u.unlocked) } :: l) := by
  have hwanted : ¬target - u.unlocked ≤ 0 := not_le.2 (sub_pos.2 h)
  refine ⟨rfl, ?_, ?_, rfl, rfl⟩
  · rw [VestingTable.draw, if_neg hwanted, if_neg (not_le.2 hreduced), List.drop_zero]
  · rw [VestingTable.draw, if_neg hwanted, if_neg (not_le.2 hreduced), add_sub_cancel]

/-- The pass over entries that have not vested. -/
theorem Drawn.run (u : Unlocking) (hl : ∀ e ∈ l, now ≤ e.epoch) :
    ∃ used entries, Drawn target l u (l.foldl (unlockEntry now target) u) used entries := by
  induction l generalizing u with
  | nil => exact ⟨0, [], (List.append_nil _).symm, rfl, (add_zero _).symm, rfl, rfl⟩
  | cons e l ih =>
    have he := hl e List.mem_cons_self
    rcases le_or_gt target u.unlocked with hdone | hmore
    · rw [foldl_of_done hdone]
      exact ⟨0, e :: l, .done hdone _⟩
    · rw [List.foldl_cons]
      rcases le_or_gt e.amount (target - u.unlocked) with hused | hreduced
      · rw [unlockEntry_of_used hmore he hused]
        obtain ⟨used, entries, hrest⟩ := ih _ fun e he => hl e (List.mem_cons_of_mem _ he)
        exact ⟨used + 1, e :: entries, .used hmore hused hrest⟩
      · have hrest := @foldl_of_done now target { u with
          unlocked := target
          entries := u.entries ++ [{ e with amount := e.amount - (target - u.unlocked) }] } le_rfl l
        rw [unlockEntry_of_reduced hmore he hreduced, hrest]
        simp only [List.append_assoc, List.singleton_append]
        exact ⟨0, _, .reduced hmore hreduced⟩

end Pass

/-- **What has not vested is unlocked in order.** The vested entries stay in front. -/
theorem Ordered.unlockUnvested_eq (h : t.Ordered) (now target : Int) :
    t.unlockUnvested now target =
      .ok (t.vested now ++ (VestingTable.draw target (t.unvested now)).1,
        (VestingTable.draw target (t.unvested now)).2) := by
  rcases le_or_gt target 0 with hdone | hmore
  · rw [draw_of_nonpos hdone, vested_append_unvested, unlockUnvested, foldl_of_done hdone]
    rfl
  · have hpass : t.foldl (unlockEntry now target) {} = (t.unvested now).foldl (unlockEntry now target)
        ((t.vested now).foldl (unlockEntry now target) {}) := by
      rw [← List.foldl_append, vested_append_unvested]
    rw [foldl_of_vested hmore rfl fun e he => lt_of_mem_vested he] at hpass
    obtain ⟨used, entries, hentries, hleft, hunlocked, hstart, hlast⟩ :=
      Drawn.run _ (fun e he => h.le_of_mem_unvested he)
    rw [← hpass] at hentries hunlocked hstart hlast
    simp only [List.nil_append, List.length_nil, zero_add, sub_zero] at hentries hleft hunlocked hstart hlast
    simp only [unlockUnvested, hlast, hentries, hunlocked, hstart, ← hleft]
    by_cases hzero : used = 0
    · rw [hzero, if_pos rfl, List.drop_zero]
    · -- The cut takes out the entries that are used up.
      have hlength : (t.vested now).length + used - 1 + 1 = (t.vested now).length + used := by omega
      rw [if_neg hzero]
      simp only [hlength]
      rw [if_neg (by omega), List.take_left, List.drop_append, List.drop_eq_nil_of_le (by omega), List.nil_append,
        Nat.add_sub_cancel_left]

example : unlockUnvested [⟨3, 10⟩, ⟨6, 10⟩, ⟨7, 10⟩] 5 15 = .ok ([⟨3, 10⟩, ⟨7, 5⟩], 15) := by decide

/-- What is left in the table has epochs of the table, in its order. -/
theorem epochs_vested_append_draw (t : VestingTable) (now target : Int) :
    ((t.vested now ++ (draw target (t.unvested now)).1).map (·.epoch)).Sublist (t.map (·.epoch)) := by
  conv_rhs => rw [← vested_append_unvested now t]
  rw [List.map_append, List.map_append]
  exact (List.Sublist.refl _).append (epochs_draw target _)

/-- No negative amount is left in the table. -/
theorem nonneg_of_mem_vested_append_draw (h : ∀ e ∈ t, 0 ≤ e.amount) :
    ∀ e ∈ t.vested now ++ (draw target (t.unvested now)).1, 0 ≤ e.amount := by
  intro e he
  rcases List.mem_append.1 he with hin | hin
  · exact h e ((List.takeWhile_sublist _).subset hin)
  · exact nonneg_of_mem_draw (fun e he => h e ((List.dropWhile_sublist _).subset he)) e hin

/-- What is left in the table is in order, if the table is. -/
theorem Arranged.vested_append_draw {r : Int → Int → Prop} (h : t.Arranged r) (now target : Int) :
    Arranged r (t.vested now ++ (VestingTable.draw target (t.unvested now)).1) :=
  h.of_epochs (epochs_vested_append_draw t now target) (nonneg_of_mem_vested_append_draw h.nonneg)

/-- What is left in the table and what has been drawn are the whole. -/
theorem total_vested_append_draw (t : VestingTable) (now target : Int) :
    total (t.vested now ++ (draw target (t.unvested now)).1) + (draw target (t.unvested now)).2 = total t := by
  rw [total_append, add_assoc, total_draw, ← total_append, vested_append_unvested]

/-! ### What is left of a table -/

/-- The entries of the second table are at epochs of the first, and none has been emptied. -/
def LeftOf (t t' : VestingTable) : Prop := ∀ e ∈ t', ∃ e' ∈ t, e'.epoch = e.epoch ∧ (0 < e'.amount → 0 < e.amount)

theorem leftOf_self (t : VestingTable) : LeftOf t t := fun e he => ⟨e, he, rfl, id⟩

theorem leftOf_unvested (now : Int) (t : VestingTable) : LeftOf t (t.unvested now) := fun e he =>
  ⟨e, (List.dropWhile_sublist _).subset he, rfl, id⟩

theorem leftOf_vested_append_draw (now target : Int) (t : VestingTable) :
    LeftOf t (t.vested now ++ (draw target (t.unvested now)).1) := fun e he => by
  rcases List.mem_append.1 he with hin | hin
  · exact ⟨e, (List.takeWhile_sublist _).subset hin, rfl, id⟩
  · obtain ⟨e', he', hsame⟩ := of_mem_draw hin
    exact ⟨e', (List.dropWhile_sublist _).subset he', hsame⟩

/-! ### The earliest entries -/

/-- The first entries are gone, the next one may have been reduced to something that is left of it, and the others are
as they were. -/
def TakenFromFront (gone : Nat) (l l' : VestingTable) : Prop :=
  l' = l.drop gone ∨
    ∃ e rest left, l.drop gone = e :: rest ∧ 0 < left ∧ left < e.amount ∧ l' = { e with amount := left } :: rest

theorem takenFromFront_draw (wanted : Int) (l : VestingTable) :
    ∃ gone ≤ l.length, TakenFromFront gone l (draw wanted l).1 := by
  induction l generalizing wanted with
  | nil => exact ⟨0, le_rfl, .inl rfl⟩
  | cons e rest ih =>
    rw [draw]
    split
    · exact ⟨0, Nat.zero_le _, .inl rfl⟩
    · next hmore =>
      split
      · obtain ⟨gone, hgone, htaken⟩ := ih (wanted - e.amount)
        exact ⟨gone + 1, Nat.succ_le_succ hgone, htaken⟩
      · next hreduced =>
        have hleft : 0 < e.amount - wanted := sub_pos.2 (not_le.1 hreduced)
        have hless : e.amount - wanted < e.amount := sub_lt_self _ (not_le.1 hmore)
        exact ⟨0, Nat.zero_le _, .inr ⟨e, rest, _, rfl, hleft, hless, rfl⟩⟩

/-- **The earliest entries that have not vested are unlocked, exactly.** As much comes out as is wanted, if there is as
much. -/
theorem unlockUnvested_takes_earliest (now : Int) (hascending : t.Pairwise (·.epoch < ·.epoch))
    (hnonneg : ∀ e ∈ t, 0 ≤ e.amount) (htarget : 0 ≤ target) :
    ∃ t' unlocked, t.unlockUnvested now target = .ok (t', unlocked) ∧
      unlocked = min target (totalAt (now ≤ ·) t) ∧ total t' = total t - unlocked ∧
      t'.filter (·.epoch < now) = t.filter (·.epoch < now) ∧
      (∃ gone ≤ (t.filter (now ≤ ·.epoch)).length,
        TakenFromFront gone (t.filter (now ≤ ·.epoch)) (t'.filter (now ≤ ·.epoch))) ∧
      t'.Pairwise (·.epoch < ·.epoch) ∧ ∀ e ∈ t', 0 ≤ e.amount := by
  have h : t.Sound := ⟨hascending, hnonneg⟩
  have hleft := h.vested_append_draw now target
  have hdrawn := draw_eq_min htarget (h.unvested now).nonneg
  have htotal := total_vested_append_draw t now target
  have hearly : ∀ e ∈ (draw target (t.unvested now)).1, now ≤ e.epoch := fun e he =>
    let ⟨_, hin, hepoch, _⟩ := of_mem_draw he
    hepoch ▸ h.ordered.le_of_mem_unvested hin
  refine ⟨_, _, h.ordered.unlockUnvested_eq now target, ?_, eq_sub_of_add_eq htotal, ?_, ?_, hleft.ascending, hleft.nonneg⟩
  · rw [hdrawn, totalAt_eq_total_filter, h.ordered.filter_le]
  · rw [filter_lt_vested_append hearly, h.ordered.filter_lt]
  · rw [filter_le_vested_append hearly, h.ordered.filter_le]
    exact takenFromFront_draw target (t.unvested now)

/-- A vested entry, an entry without an amount, two that are used up or reduced, and one that stays. -/
theorem unlockUnvested_takes_earliest_sample : ∃ t' unlocked,
    unlockUnvested [⟨3, 10⟩, ⟨5, 0⟩, ⟨6, 10⟩, ⟨7, 10⟩, ⟨9, 1⟩] 5 15 = .ok (t', unlocked) ∧ unlocked = 15 ∧
      t' = [⟨3, 10⟩, ⟨7, 5⟩, ⟨9, 1⟩] := by
  obtain ⟨t', unlocked, hunlock, hunlocked, -⟩ := unlockUnvested_takes_earliest
    (t := [⟨3, 10⟩, ⟨5, 0⟩, ⟨6, 10⟩, ⟨7, 10⟩, ⟨9, 1⟩]) 5 (by decide) (by decide) (show (0 : Int) ≤ 15 by decide)
  have hresult : unlockUnvested [⟨3, 10⟩, ⟨5, 0⟩, ⟨6, 10⟩, ⟨7, 10⟩, ⟨9, 1⟩] 5 15 =
      .ok ([⟨3, 10⟩, ⟨7, 5⟩, ⟨9, 1⟩], 15) := by decide
  exact ⟨t', unlocked, hunlock, hunlocked.trans (by decide),
    (Prod.mk.inj (Except.ok.inj (hunlock.symm.trans hresult))).1⟩

end SectorLedger.VestingTable
