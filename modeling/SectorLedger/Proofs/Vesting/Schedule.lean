import SectorLedger.Proofs.Grid
import SectorLedger.Proofs.Vesting.Table

/-!
# Vesting schedules

A sum that is locked is released step by step. Each release brings what the elapsed time has earned so far, less what
came before, so the releases add up to the sum. They come in order, but some may fall on one point of the grid: these
are joined, and then the schedule is merged into the table.

* `totalAt_coalesce`, `totalAt_merge`: joining and merging change no sum. `Sound.merge`: the order holds.
* `linearShare_mono`: time earns more and more.
* `Releasing.step`: one release. `Releasing.run`: all of them.
* `lock_spec`: the whole. `wordless_lock`: what may stop it.
-/

namespace SectorLedger.VestingTable

variable {t t' : VestingTable} {e : Instalment} {p : Int → Bool}

/-! ### Joining -/

theorem totalAt_coalesce (p : Int → Bool) (l : List Instalment) : totalAt p (coalesce l) = totalAt p l := by
  induction l with
  | nil => rfl
  | cons a rest ih =>
    rw [coalesce, totalAt_cons, ← ih]
    split
    · next heq => rw [heq, totalAt_cons]
    · next b more heq =>
      rw [heq, totalAt_cons]
      split
      · next hepoch =>
        rw [totalAt_cons, hepoch]
        split <;> ring
      · rw [totalAt_cons, totalAt_cons]

theorem epoch_of_mem_coalesce {l : List Instalment} (he : e ∈ coalesce l) : ∃ e' ∈ l, e'.epoch = e.epoch := by
  induction l generalizing e with
  | nil => exact absurd he List.not_mem_nil
  | cons a rest ih =>
    have later : ∀ e' ∈ coalesce rest, ∃ e'' ∈ a :: rest, e''.epoch = e'.epoch := fun e' he' =>
      let ⟨e'', hmem, hepoch⟩ := ih he'
      ⟨e'', List.mem_cons_of_mem a hmem, hepoch⟩
    rw [coalesce] at he
    split at he
    · obtain rfl := List.mem_singleton.1 he
      exact ⟨e, List.mem_cons_self, rfl⟩
    · next b more heq =>
      rw [heq] at later
      split at he <;> rcases List.mem_cons.1 he with rfl | hmore
      · exact ⟨a, List.mem_cons_self, rfl⟩
      · exact later e (List.mem_cons_of_mem b hmore)
      · exact ⟨e, List.mem_cons_self, rfl⟩
      · exact later e hmore

theorem nonneg_coalesce {l : List Instalment} (h : ∀ e ∈ l, 0 ≤ e.amount) : ∀ e ∈ coalesce l, 0 ≤ e.amount := by
  induction l with
  | nil => exact fun e he => absurd he List.not_mem_nil
  | cons a rest ih =>
    have ha := h a List.mem_cons_self
    have hrest := ih fun e he => h e (List.mem_cons_of_mem a he)
    intro e he
    rw [coalesce] at he
    split at he
    · obtain rfl := List.mem_singleton.1 he
      exact ha
    · next b more heq =>
      rw [heq] at hrest
      split at he <;> rcases List.mem_cons.1 he with rfl | hmore
      · exact add_nonneg ha (hrest b List.mem_cons_self)
      · exact hrest e (List.mem_cons_of_mem b hmore)
      · exact ha
      · exact hrest e hmore

theorem ascending_coalesce {l : List Instalment} (h : l.Pairwise (·.epoch ≤ ·.epoch)) :
    (coalesce l).Pairwise (·.epoch < ·.epoch) := by
  induction l with
  | nil => exact .nil
  | cons a rest ih =>
    obtain ⟨hhead, hrest⟩ := List.pairwise_cons.1 h
    have hfrom : ∀ e ∈ coalesce rest, a.epoch ≤ e.epoch := fun e he =>
      let ⟨e', hmem, hepoch⟩ := epoch_of_mem_coalesce he
      hepoch ▸ hhead e' hmem
    have hstrict := ih hrest
    rw [coalesce]
    split
    · exact List.pairwise_singleton _ _
    · next b more heq =>
      rw [heq] at hfrom hstrict
      obtain ⟨hmore, hpair⟩ := List.pairwise_cons.1 hstrict
      split
      · next hepoch => exact List.pairwise_cons.2 ⟨fun e he => hepoch ▸ hmore e he, hpair⟩
      · next hne =>
        have hlt : a.epoch < b.epoch := lt_of_le_of_ne (hfrom b List.mem_cons_self) hne
        refine List.pairwise_cons.2 ⟨fun e he => ?_, hstrict⟩
        rcases List.mem_cons.1 he with rfl | hin
        · exact hlt
        · exact hlt.trans (hmore e hin)

/-- Releases in order make a sound table. -/
theorem sound_coalesce {l : List Instalment} (hascending : l.Pairwise (·.epoch ≤ ·.epoch))
    (hnonneg : ∀ e ∈ l, 0 ≤ e.amount) : Sound (coalesce l) :=
  ⟨ascending_coalesce hascending, nonneg_coalesce hnonneg⟩

/-! ### Merging -/

@[simp] theorem merge_nil (t : VestingTable) : merge t [] = t := by
  cases t <;> simp [merge]

theorem totalAt_merge (p : Int → Bool) (t t' : VestingTable) :
    totalAt p (merge t t') = totalAt p t + totalAt p t' := by
  induction t, t' using merge.induct with
  | case1 bs => rw [merge, totalAt_nil, zero_add]
  | case2 as => rw [merge_nil, totalAt_nil, add_zero]
  | case3 a as b bs hlt ih =>
    rw [merge, if_pos hlt, totalAt_cons, ih]
    simp only [totalAt_cons]
    ring
  | case4 a as b bs hge hlt ih =>
    rw [merge, if_neg hge, if_pos hlt, totalAt_cons, ih]
    simp only [totalAt_cons]
    ring
  | case5 a as b bs hge hge' ih =>
    have hepoch : a.epoch = b.epoch := by omega
    rw [merge, if_neg hge, if_neg hge', totalAt_cons, ih]
    simp only [totalAt_cons, hepoch]
    split <;> ring

/-- An entry of the merged table is from one of the two, or two of one epoch have been added. -/
theorem mem_merge (he : e ∈ merge t t') : e ∈ t ∨ e ∈ t' ∨
    ∃ a ∈ t, ∃ b ∈ t', a.epoch = b.epoch ∧ e = ⟨a.epoch, a.amount + b.amount⟩ := by
  induction t, t' using merge.induct with
  | case1 bs =>
    rw [merge] at he
    exact .inr (.inl he)
  | case2 as =>
    rw [merge_nil] at he
    exact .inl he
  | case3 a as b bs hlt ih =>
    rw [merge, if_pos hlt] at he
    rcases List.mem_cons.1 he with rfl | hrest
    · exact .inl List.mem_cons_self
    · rcases ih hrest with hin | hin | ⟨c, hc, d, hd, hsame⟩
      · exact .inl (List.mem_cons_of_mem a hin)
      · exact .inr (.inl hin)
      · exact .inr (.inr ⟨c, List.mem_cons_of_mem a hc, d, hd, hsame⟩)
  | case4 a as b bs hge hlt ih =>
    rw [merge, if_neg hge, if_pos hlt] at he
    rcases List.mem_cons.1 he with rfl | hrest
    · exact .inr (.inl List.mem_cons_self)
    · rcases ih hrest with hin | hin | ⟨c, hc, d, hd, hsame⟩
      · exact .inl hin
      · exact .inr (.inl (List.mem_cons_of_mem b hin))
      · exact .inr (.inr ⟨c, hc, d, List.mem_cons_of_mem b hd, hsame⟩)
  | case5 a as b bs hge hge' ih =>
    have hepoch : a.epoch = b.epoch := by omega
    rw [merge, if_neg hge, if_neg hge'] at he
    rcases List.mem_cons.1 he with rfl | hrest
    · exact .inr (.inr ⟨a, List.mem_cons_self, b, List.mem_cons_self, hepoch, rfl⟩)
    · rcases ih hrest with hin | hin | ⟨c, hc, d, hd, hsame⟩
      · exact .inl (List.mem_cons_of_mem a hin)
      · exact .inr (.inl (List.mem_cons_of_mem b hin))
      · exact .inr (.inr ⟨c, List.mem_cons_of_mem a hc, d, List.mem_cons_of_mem b hd, hsame⟩)

theorem lt_of_mem_merge {k : Int} (ht : ∀ e ∈ t, k < e.epoch) (ht' : ∀ e ∈ t', k < e.epoch) :
    ∀ e ∈ merge t t', k < e.epoch := fun e he => by
  rcases mem_merge he with hin | hin | ⟨a, ha, b, -, -, rfl⟩
  · exact ht e hin
  · exact ht' e hin
  · exact ht a ha

theorem ascending_merge (h : t.Pairwise (·.epoch < ·.epoch)) (h' : t'.Pairwise (·.epoch < ·.epoch)) :
    (merge t t').Pairwise (·.epoch < ·.epoch) := by
  induction t, t' using merge.induct with
  | case1 bs =>
    rw [merge]
    exact h'
  | case2 as => rwa [merge_nil]
  | case3 a as b bs hlt ih =>
    obtain ⟨ha, has⟩ := List.pairwise_cons.1 h
    obtain ⟨hb, -⟩ := List.pairwise_cons.1 h'
    rw [merge, if_pos hlt]
    refine List.pairwise_cons.2 ⟨lt_of_mem_merge ha fun e he => ?_, ih has h'⟩
    rcases List.mem_cons.1 he with rfl | hin
    · exact hlt
    · exact hlt.trans (hb e hin)
  | case4 a as b bs hge hlt ih =>
    obtain ⟨ha, -⟩ := List.pairwise_cons.1 h
    obtain ⟨hb, hbs⟩ := List.pairwise_cons.1 h'
    rw [merge, if_neg hge, if_pos hlt]
    refine List.pairwise_cons.2 ⟨lt_of_mem_merge (fun e he => ?_) hb, ih h hbs⟩
    rcases List.mem_cons.1 he with rfl | hin
    · exact hlt
    · exact hlt.trans (ha e hin)
  | case5 a as b bs hge hge' ih =>
    have hepoch : a.epoch = b.epoch := by omega
    obtain ⟨ha, has⟩ := List.pairwise_cons.1 h
    obtain ⟨hb, hbs⟩ := List.pairwise_cons.1 h'
    rw [merge, if_neg hge, if_neg hge']
    exact List.pairwise_cons.2 ⟨lt_of_mem_merge ha fun e he => hepoch ▸ hb e he, ih has hbs⟩

/-- Two sound tables merge into one. -/
theorem sound_merge (h : t.Sound) (h' : t'.Sound) : Sound (merge t t') := by
  refine ⟨ascending_merge h.ascending h'.ascending, fun e he => ?_⟩
  rcases mem_merge he with hin | hin | ⟨a, ha, b, hb, -, rfl⟩
  · exact h.nonneg e hin
  · exact h'.nonneg e hin
  · exact add_nonneg (h.nonneg a ha) (h'.nonneg b hb)

/-! ### What time earns -/

/-- The share of a sum that the elapsed time earns, rounded down. -/
def linearShare (spec : VestingSpec) (sum elapsed : Int) : Int :=
  if elapsed < spec.vestPeriod then sum * elapsed / spec.vestPeriod else sum

variable {spec : VestingSpec} {sum elapsed later : Int}

/-- Once time has elapsed the share can be computed, whatever the period. -/
theorem vestedShare_eq (h : 0 ≤ elapsed) : vestedShare spec sum elapsed = .ok (linearShare spec sum elapsed) := by
  unfold vestedShare linearShare
  split
  · next hlt =>
    have hpos : 0 < spec.vestPeriod := h.trans_lt hlt
    rw [if_neg hpos.ne', Int.fdiv_eq_ediv_of_nonneg _ hpos.le]
  · rfl

theorem linearShare_le (hsum : 0 ≤ sum) (h : 0 ≤ elapsed) : linearShare spec sum elapsed ≤ sum := by
  unfold linearShare
  split
  · next hlt =>
    have hpos : 0 < spec.vestPeriod := h.trans_lt hlt
    exact Int.ediv_le_of_le_mul hpos (Int.mul_le_mul_of_nonneg_left hlt.le hsum)
  · exact le_rfl

theorem linearShare_nonneg (hsum : 0 ≤ sum) (h : 0 ≤ elapsed) : 0 ≤ linearShare spec sum elapsed := by
  unfold linearShare
  split
  · next hlt => exact Int.ediv_nonneg (mul_nonneg hsum h) (h.trans hlt.le)
  · exact hsum

/-- Time earns more and more. -/
theorem linearShare_mono (hsum : 0 ≤ sum) (h : 0 ≤ elapsed) (hlater : elapsed ≤ later) :
    linearShare spec sum elapsed ≤ linearShare spec sum later := by
  by_cases hlt : later < spec.vestPeriod
  · have hpos : 0 < spec.vestPeriod := (h.trans hlater).trans_lt hlt
    rw [linearShare, linearShare, if_pos hlt, if_pos (hlater.trans_lt hlt)]
    exact Int.ediv_le_ediv hpos (Int.mul_le_mul_of_nonneg_left hlater hsum)
  · have hall : linearShare spec sum later = sum := if_neg hlt
    rw [hall]
    exact linearShare_le hsum h

/-! ### The releases -/

/-- Only a fault stops the rounding. -/
theorem wordless_up (grid : Grid) (epoch : Int) : Wordless (grid.up epoch) := by
  refine .bind (.ite .fault (.ok _)) fun offset => .bind (.epoch _) fun distance =>
    .bind (.ite .fault (.ok _)) fun remainder => .bind (.ite .fault (.epoch _)) fun quotient => .ite ?_ ?_
  · exact .bind (.epoch _) fun _ => .epoch _
  · exact .bind (.epoch _) fun _ => .bind (.epoch _) fun _ => .epoch _

section Releases

variable {grid : Grid} {begins epoch earned : Int} {l : List Instalment}

/-- One release and those after it. -/
theorem releases_eq_ok (hstep : 0 < spec.stepDuration) (hmore : earned < sum) :
    releases spec grid begins sum epoch earned = .ok l ↔ ∃ release share rest,
      Epoch.InRange (epoch + spec.stepDuration) ∧ grid.up (epoch + spec.stepDuration) = .ok release ∧
      Epoch.InRange (release - begins) ∧ vestedShare spec sum (release - begins) = .ok share ∧
      releases spec grid begins sum (epoch + spec.stepDuration) share = .ok rest ∧
      l = ⟨release, share - earned⟩ :: rest := by
  rw [releases, if_neg (not_le.2 hmore)]
  split
  · next stop hstop =>
    refine iff_of_false (by simp) ?_
    rintro ⟨_, _, _, hrange, -⟩
    rw [Epoch.add_eq_ok.2 ⟨hrange, rfl⟩] at hstop
    cases hstop
  · next next hnext =>
    obtain ⟨hrange, rfl⟩ := Epoch.add_eq_ok.1 hnext
    simp only [dif_neg hstep.ne', bind_eq_ok, pure_eq_ok, Epoch.sub_eq_ok]
    constructor
    · rintro ⟨release, hup, _, ⟨helapsed, rfl⟩, share, hshare, rest, hrest, rfl⟩
      exact ⟨release, share, rest, hrange, hup, helapsed, hshare, hrest, rfl⟩
    · rintro ⟨release, share, rest, -, hup, helapsed, hshare, hrest, rfl⟩
      exact ⟨release, hup, _, ⟨helapsed, rfl⟩, share, hshare, rest, hrest, rfl⟩

/-- The releases end when everything has vested. Each but these is followed by the others. -/
theorem releases_spec (hstep : 0 < spec.stepDuration) (hunit : 0 < grid.unit) (hbegins : begins ≤ epoch)
    (h : releases spec grid begins sum epoch earned = .ok l) :
    (sum ≤ earned ∧ l = []) ∨ ∃ release rest, earned < sum ∧ grid.IsUp (epoch + spec.stepDuration) release ∧
      Epoch.InRange release ∧
      releases spec grid begins sum (epoch + spec.stepDuration) (linearShare spec sum (release - begins)) = .ok rest ∧
      l = ⟨release, linearShare spec sum (release - begins) - earned⟩ :: rest := by
  rcases le_or_gt sum earned with hdone | hmore
  · rw [releases, if_pos hdone] at h
    exact .inl ⟨hdone, (Except.ok.inj h).symm⟩
  · obtain ⟨release, share, rest, -, hup, -, hshare, hrest, rfl⟩ := (releases_eq_ok hstep hmore).1 h
    have hisUp := Grid.isUp_of_up hunit hup
    rw [vestedShare_eq (by linarith [hisUp.le])] at hshare
    obtain rfl := Except.ok.inj hshare
    exact .inr ⟨release, rest, hmore, hisUp, Grid.inRange_of_up hunit hup, hrest, rfl⟩

/-- Releases in order, not before the next grid point, that add up to what is owed. -/
structure Releasing (grid : Grid) (epoch owed : Int) (l : List Instalment) : Prop where
  /-- They are in order. -/
  ascending : l.Pairwise (·.epoch ≤ ·.epoch)
  /-- None is negative. -/
  nonneg : ∀ e ∈ l, 0 ≤ e.amount
  /-- They add up. -/
  total_eq : total l = owed
  /-- They are not early. -/
  late : ∀ e ∈ l, ∀ r, grid.IsUp epoch r → r ≤ e.epoch

/-- One more release in front of the others. -/
theorem Releasing.step (hstep : 0 < spec.stepDuration) {release amount owed : Int} (hamount : 0 ≤ amount)
    (hup : grid.IsUp (epoch + spec.stepDuration) release) (h : Releasing grid (epoch + spec.stepDuration) owed l) :
    Releasing grid epoch (amount + owed) (⟨release, amount⟩ :: l) where
  ascending := List.pairwise_cons.2 ⟨fun e he => h.late e he release hup, h.ascending⟩
  nonneg e he := by
    rcases List.mem_cons.1 he with rfl | hin
    · exact hamount
    · exact h.nonneg e hin
  total_eq := congrArg (amount + ·) h.total_eq
  late e he r hr := by
    have hle : r ≤ release := hr.mono hup (by linarith)
    rcases List.mem_cons.1 he with rfl | hin
    · exact hle
    · exact hle.trans (h.late e hin release hup)

/-- All releases. What has been earned so far is not more than what will have been at any release to come. -/
theorem Releasing.run (hstep : 0 < spec.stepDuration) (hunit : 0 < grid.unit) (hsum : 0 ≤ sum) (hbegins : begins ≤ epoch)
    (hearned : earned ≤ sum)
    (hless : ∀ e ≥ epoch, ∀ r, grid.IsUp e r → earned ≤ linearShare spec sum (r - begins))
    (h : releases spec grid begins sum epoch earned = .ok l) : Releasing grid epoch (sum - earned) l := by
  induction l generalizing epoch earned with
  | nil =>
    rcases releases_spec hstep hunit hbegins h with ⟨hdone, -⟩ | ⟨release, rest, -, -, -, -, heq⟩
    · exact ⟨.nil, fun e he => absurd he List.not_mem_nil, by rw [total]; linarith,
        fun e he => absurd he List.not_mem_nil⟩
    · cases heq
  | cons first l ih =>
    rcases releases_spec hstep hunit hbegins h with ⟨-, heq⟩ | ⟨release, rest, -, hup, -, hrest, heq⟩
    · cases heq
    · obtain ⟨rfl, rfl⟩ := List.cons.inj heq
      have helapsed : 0 ≤ release - begins := by linarith [hup.le]
      have hlater := ih (by linarith) (linearShare_le hsum helapsed) (fun e he r hr =>
        linearShare_mono hsum helapsed (by linarith [hup.mono hr he])) hrest
      have hamount := hless _ (by linarith) release hup
      have hall := hlater.step hstep (sub_nonneg.2 hamount) hup
      rwa [sub_add_sub_comm, add_comm (linearShare _ _ _), add_sub_add_right_eq_sub] at hall

/-- Only a fault stops the releases. -/
theorem wordless_releases (hstep : 0 < spec.stepDuration) (grid : Grid) (begins sum epoch earned : Int) :
    Wordless (releases spec grid begins sum epoch earned) := by
  induction epoch, earned using releases.induct spec sum with
  | case1 epoch earned hdone =>
    rw [releases, if_pos hdone]
    exact .ok []
  | case2 epoch earned hmore stop hstop =>
    rw [releases, if_neg hmore]
    obtain rfl := Wordless.epoch (epoch + spec.stepDuration) stop hstop
    split
    · next heq =>
      obtain rfl := Except.error.inj (heq.symm.trans hstop)
      exact .fault
    · next heq => exact absurd (heq.symm.trans hstop) nofun
  | case3 epoch earned hmore next hnext ih =>
    rw [releases, if_neg hmore]
    split
    · next heq => exact absurd (heq.symm.trans hnext) nofun
    · next heq =>
      obtain rfl := Except.ok.inj (heq.symm.trans hnext)
      refine .bind (wordless_up grid _) fun release => .bind (.epoch _) fun elapsed => .bind ?_ fun share => ?_
      · exact .ite (.ite .fault (.ok _)) (.ok sum)
      · rw [dif_neg hstep.ne']
        exact .bind (ih share hstep.ne') fun rest => .ok _

end Releases

/-- Only a fault keeps a sum from being locked. -/
theorem wordless_lock (hstep : 0 < spec.stepDuration) (t : VestingTable) (now sum periodStart : Int) :
    Wordless (t.lock now sum periodStart spec) :=
  .bind (.epoch _) fun _ => .bind (wordless_releases hstep _ _ _ _ _) fun _ => .ok _

/-- **A sum that is locked joins the table**, which stays sound and grows by the sum. -/
theorem lock_spec {now periodStart : Int} (ht : t.Sound) (hsum : 0 ≤ sum) (hstep : 0 < spec.stepDuration)
    (hquantization : 0 < spec.quantization) (h : t.lock now sum periodStart spec = .ok t') :
    t'.Sound ∧ total t' = total t + sum := by
  simp only [lock, bind_eq_ok, Epoch.add_eq_ok, pure_eq_ok] at h
  obtain ⟨_, ⟨-, rfl⟩, l, hl, rfl⟩ := h
  have hrun : Releasing ⟨spec.quantization, periodStart⟩ (now + spec.initialDelay) (sum - 0) l :=
    Releasing.run hstep hquantization hsum le_rfl hsum (fun e he r hr =>
      linearShare_nonneg hsum (by linarith [hr.le])) hl
  refine ⟨sound_merge ht (sound_coalesce hrun.ascending hrun.nonneg), ?_⟩
  rw [← totalAt_true, totalAt_merge, totalAt_coalesce, totalAt_true, totalAt_true, hrun.total_eq, sub_zero]

end SectorLedger.VestingTable
