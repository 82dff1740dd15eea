import SectorLedger.Proofs.Vesting.Schedule
import Mathlib.Data.List.Nodup

/-!
# Schedules that release something each time

The shares of a schedule are rounded down. If the sum is small and the vesting period long, the time between two
releases may earn nothing, and the table gets an entry without an amount. If the sum is ample, each new point of the
grid brings something; releases that fall on a point that has been used do not matter, because they are joined.

* `mem_releases`: where releases lie.
* `linearShare_lt`: what is earned between two points of the grid.
* `joined_of_releases`: each point of the grid that is used gets a release with an amount.
* `pos_lock`: the table that a sum is locked into.
-/

namespace SectorLedger.VestingTable

variable {t t' : VestingTable} {e e' : Instalment} {spec : VestingSpec} {grid : Grid}
  {begins epoch sum earned elapsed later : Int} {l : List Instalment}

/-! ### Where releases lie -/

/-- Releases are on the grid, and in range. -/
theorem mem_releases (hstep : 0 < spec.stepDuration) (hunit : 0 < grid.unit) (hbegins : begins ≤ epoch)
    (h : releases spec grid begins sum epoch earned = .ok l) :
    ∀ e ∈ l, grid.OnGrid e.epoch ∧ Epoch.InRange e.epoch := by
  induction l generalizing epoch earned with
  | nil => exact fun e he => absurd he List.not_mem_nil
  | cons first l ih =>
    rcases releases_spec hstep hunit hbegins h with ⟨-, heq⟩ | ⟨release, rest, -, hup, hrange, hrest, heq⟩
    · cases heq
    · obtain ⟨rfl, rfl⟩ := List.cons.inj heq
      intro e he
      rcases List.mem_cons.1 he with rfl | hin
      · exact ⟨hup.onGrid, hrange⟩
      · exact ih (by linarith) hrest e hin

/-- The entries of a table after a sum has been locked are at epochs of the table or of the releases. -/
theorem epoch_of_mem_lock {now periodStart : Int} (hstep : 0 < spec.stepDuration) (hquantization : 0 < spec.quantization)
    (h : t.lock now sum periodStart spec = .ok t') (he : e ∈ t') :
    (∃ e' ∈ t, e'.epoch = e.epoch) ∨
      Grid.OnGrid ⟨spec.quantization, periodStart⟩ e.epoch ∧ Epoch.InRange e.epoch := by
  simp only [lock, bind_eq_ok, Epoch.add_eq_ok, pure_eq_ok] at h
  obtain ⟨_, ⟨-, rfl⟩, l, hl, rfl⟩ := h
  rcases mem_merge he with hin | hin | ⟨a, ha, b, -, -, rfl⟩
  · exact .inl ⟨e, hin, rfl⟩
  · obtain ⟨e', hmem, hepoch⟩ := epoch_of_mem_coalesce hin
    rw [← hepoch]
    have hunit : 0 < (Grid.mk spec.quantization periodStart).unit := hquantization
    exact .inr (mem_releases hstep hunit le_rfl hl e' hmem)
  · exact .inl ⟨a, ha, rfl⟩

/-! ### What the time between two releases earns -/

/-- A time in which a unit of the sum is earned brings something, as long as something is left to earn. -/
theorem linearShare_lt (hsum : 0 ≤ sum) (h : 0 ≤ elapsed) (hmore : linearShare spec sum elapsed < sum) {time : Int}
    (hample : spec.vestPeriod ≤ sum * time) (hlater : elapsed + time ≤ later) :
    linearShare spec sum elapsed < linearShare spec sum later := by
  by_cases hend : later < spec.vestPeriod
  · by_cases hstart : elapsed < spec.vestPeriod
    · have hpos : 0 < spec.vestPeriod := h.trans_lt hstart
      have hle : sum * elapsed + spec.vestPeriod ≤ sum * later := by
        have := Int.mul_le_mul_of_nonneg_left hlater hsum
        linarith [mul_add sum elapsed time]
      rw [linearShare, linearShare, if_pos hstart, if_pos hend]
      calc sum * elapsed / spec.vestPeriod
        _ < sum * elapsed / spec.vestPeriod + 1 := Int.lt_succ _
        _ = (sum * elapsed + spec.vestPeriod) / spec.vestPeriod := by
          rw [Int.add_ediv_of_dvd_right (dvd_refl _), Int.ediv_self hpos.ne']
        _ ≤ sum * later / spec.vestPeriod := Int.ediv_le_ediv hpos hle
    · exact absurd hmore (by rw [linearShare, if_neg hstart]; exact lt_irrefl _)
  · rwa [show linearShare spec sum later = sum from if_neg hend]

/-- So does the time up to the first release. -/
theorem linearShare_pos (hsum : 0 < sum) {time : Int} (hample : spec.vestPeriod ≤ sum * time) (htime : 0 ≤ time)
    (hlater : time ≤ elapsed) : 0 < linearShare spec sum elapsed := by
  by_cases hend : elapsed < spec.vestPeriod
  · have hpos : 0 < spec.vestPeriod := (htime.trans hlater).trans_lt hend
    have hearned : 1 * spec.vestPeriod ≤ sum * elapsed := by
      rw [one_mul]
      exact hample.trans (Int.mul_le_mul_of_nonneg_left hlater hsum.le)
    rw [linearShare, if_pos hend]
    exact Int.lt_of_lt_of_le Int.one_pos ((Int.le_ediv_iff_mul_le hpos).2 hearned)
  · rwa [show linearShare spec sum elapsed = sum from if_neg hend]

/-! ### Joined releases -/

/-- A sum is ample for a schedule on a grid, if a step earns something, and so does a unit of the grid. -/
structure Ample (spec : VestingSpec) (unit sum : Int) : Prop where
  /-- The time up to the first release is a step at least. -/
  step : spec.vestPeriod ≤ sum * spec.stepDuration
  /-- The time between two points of the grid is a unit at least. -/
  unit : spec.vestPeriod ≤ sum * unit

/-- After a release, the others fall on the same point, or on points that get a release with an amount. -/
theorem joined_after (hstep : 0 < spec.stepDuration) (hunit : 0 < grid.unit) (hsum : 0 ≤ sum)
    (hample : Ample spec grid.unit sum) (hbegins : begins ≤ epoch) {last : Int} (hlast : grid.IsUp epoch last)
    (h : releases spec grid begins sum epoch (linearShare spec sum (last - begins)) = .ok l) :
    ∀ e ∈ l, e.epoch = last ∨ ∃ e' ∈ l, e'.epoch = e.epoch ∧ 0 < e'.amount := by
  induction l generalizing epoch last with
  | nil => exact fun e he => absurd he List.not_mem_nil
  | cons first l ih =>
    rcases releases_spec hstep hunit hbegins h with ⟨-, heq⟩ | ⟨release, rest, hmore, hup, -, hrest, heq⟩
    · cases heq
    · obtain ⟨rfl, rfl⟩ := List.cons.inj heq
      have hle : last ≤ release := hlast.mono hup (by linarith)
      -- A release on another point is a unit away from the one before.
      have hfirst : release = last ∨
          0 < linearShare spec sum (release - begins) - linearShare spec sum (last - begins) := by
        rcases hle.eq_or_lt with heq | hlt
        · exact .inl heq.symm
        · have hfar : last + grid.unit ≤ release := by
            by_contra hnear
            have := hlast.onGrid.eq_of_near hup.onGrid (by linarith) (by linarith)
            linarith
          refine .inr (sub_pos.2 (linearShare_lt hsum ?_ hmore hample.unit ?_))
          · linarith [hlast.le]
          · linarith
      intro e he
      rcases List.mem_cons.1 he with rfl | hin
      · exact hfirst.imp id fun hpos => ⟨_, List.mem_cons_self, rfl, hpos⟩
      · rcases ih (by linarith) hup hrest e hin with hsame | ⟨e', hin', hepoch, hpos⟩
        · refine hfirst.imp hsame.trans fun hpos => ⟨_, List.mem_cons_self, hsame.symm, hpos⟩
        · exact .inr ⟨e', List.mem_cons_of_mem _ hin', hepoch, hpos⟩

/-- **Each point of the grid that is used gets a release with an amount**, if the sum is ample. -/
theorem joined_of_releases (hstep : 0 < spec.stepDuration) (hunit : 0 < grid.unit) (hsum : 0 < sum)
    (hample : Ample spec grid.unit sum) (h : releases spec grid begins sum begins 0 = .ok l) :
    ∀ e ∈ l, ∃ e' ∈ l, e'.epoch = e.epoch ∧ 0 < e'.amount := by
  rcases releases_spec hstep hunit le_rfl h with ⟨-, rfl⟩ | ⟨release, rest, -, hup, -, hrest, rfl⟩
  · exact fun e he => absurd he List.not_mem_nil
  · have hpos : 0 < linearShare spec sum (release - begins) - 0 := by
      rw [sub_zero]
      exact linearShare_pos hsum hample.step hstep.le (by linarith [hup.le])
    intro e he
    rcases List.mem_cons.1 he with rfl | hin
    · exact ⟨_, List.mem_cons_self, rfl, hpos⟩
    · rcases joined_after hstep hunit hsum.le hample (by linarith) hup hrest e hin with hsame | ⟨e', hin', hepoch, hpos'⟩
      · exact ⟨_, List.mem_cons_self, hsame.symm, hpos⟩
      · exact ⟨e', List.mem_cons_of_mem _ hin', hepoch, hpos'⟩

/-- Joining keeps each amount, or adds to it. -/
theorem le_of_mem_coalesce (hnonneg : ∀ e ∈ l, 0 ≤ e.amount) :
    ∀ e' ∈ l, ∃ e ∈ coalesce l, e.epoch = e'.epoch ∧ e'.amount ≤ e.amount := by
  induction l with
  | nil => exact fun e' he' => absurd he' List.not_mem_nil
  | cons a rest ih =>
    have ha := hnonneg a List.mem_cons_self
    have hrest := fun e he => hnonneg e (List.mem_cons_of_mem a he)
    have hjoined := nonneg_coalesce hrest
    intro e' he'
    rw [coalesce]
    split
    · next heq =>
      rcases List.mem_cons.1 he' with rfl | hin
      · exact ⟨e', List.mem_cons_self, rfl, le_rfl⟩
      · obtain ⟨e, he, -⟩ := ih hrest e' hin
        rw [heq] at he
        exact absurd he List.not_mem_nil
    · next b more heq =>
      have hb := hjoined b (heq ▸ List.mem_cons_self)
      split
      · next hepoch =>
        rcases List.mem_cons.1 he' with rfl | hin
        · exact ⟨_, List.mem_cons_self, rfl, le_add_of_nonneg_right hb⟩
        · obtain ⟨e, he, hsame, hle⟩ := ih hrest e' hin
          rw [heq] at he
          rcases List.mem_cons.1 he with rfl | hmore
          · exact ⟨_, List.mem_cons_self, hepoch.trans hsame, hle.trans (le_add_of_nonneg_left ha)⟩
          · exact ⟨e, List.mem_cons_of_mem _ hmore, hsame, hle⟩
      · rcases List.mem_cons.1 he' with rfl | hin
        · exact ⟨e', List.mem_cons_self, rfl, le_rfl⟩
        · obtain ⟨e, he, hsame⟩ := ih hrest e' hin
          rw [heq] at he
          exact ⟨e, List.mem_cons_of_mem a he, hsame⟩

/-- If each epoch has something with an amount, the joined table has no entry without one. -/
theorem pos_coalesce (hascending : l.Pairwise (·.epoch ≤ ·.epoch)) (hnonneg : ∀ e ∈ l, 0 ≤ e.amount)
    (h : ∀ e ∈ l, ∃ e' ∈ l, e'.epoch = e.epoch ∧ 0 < e'.amount) : ∀ e ∈ coalesce l, 0 < e.amount := by
  intro e he
  obtain ⟨e₁, he₁, hepoch₁⟩ := epoch_of_mem_coalesce he
  obtain ⟨e₂, he₂, hepoch₂, hpos⟩ := h e₁ he₁
  obtain ⟨e₃, he₃, hepoch₃, hle⟩ := le_of_mem_coalesce hnonneg e₂ he₂
  -- A joined table has one entry for an epoch.
  have hnodup : ((coalesce l).map (·.epoch)).Nodup :=
    List.pairwise_map.2 ((ascending_coalesce hascending).imp ne_of_lt)
  obtain rfl := List.inj_on_of_nodup_map hnodup he he₃ (hepoch₁.symm.trans (hepoch₂.symm.trans hepoch₃.symm))
  exact hpos.trans_le hle

/-- **A table without empty entries gets none** when an ample sum is locked. -/
theorem pos_lock {now periodStart : Int} (hstep : 0 < spec.stepDuration) (hquantization : 0 < spec.quantization)
    (hsum : 0 ≤ sum) (hample : sum = 0 ∨ Ample spec spec.quantization sum)
    (h : t.lock now sum periodStart spec = .ok t') (ht : ∀ e ∈ t, 0 < e.amount) : ∀ e ∈ t', 0 < e.amount := by
  simp only [lock, bind_eq_ok, Epoch.add_eq_ok, pure_eq_ok] at h
  obtain ⟨_, ⟨-, rfl⟩, l, hl, rfl⟩ := h
  have hnew : ∀ e ∈ coalesce l, 0 < e.amount := by
    rcases hsum.eq_or_lt with rfl | hpos
    · rw [releases, if_pos le_rfl] at hl
      obtain rfl := Except.ok.inj hl
      exact fun e he => absurd he List.not_mem_nil
    · have hunit : 0 < (Grid.mk spec.quantization periodStart).unit := hquantization
      have hrun := Releasing.run hstep hunit hsum le_rfl hsum (fun e he r hr =>
        linearShare_nonneg hsum (by linarith [hr.le])) hl
      exact pos_coalesce hrun.ascending hrun.nonneg
        (joined_of_releases hstep hunit hpos (hample.resolve_left hpos.ne') hl)
  intro e he
  rcases mem_merge he with hin | hin | ⟨a, ha, b, hb, -, rfl⟩
  · exact ht e hin
  · exact hnew e hin
  · exact add_pos (ht a ha) (hnew b hb)

end SectorLedger.VestingTable
