import SectorLedger.Proofs.Vesting.Schedule
import Mathlib.Data.Nat.Find

/-!
# Linear vesting

A schedule's releases are its steps, counted from where it begins and rounded up to the grid, up to the first one at
which the vesting period is over. What has come up to a release is the share of the elapsed time. Steps that fall on one
point of the grid bring their amounts together there, the later ones nothing.

* `VestingSpec.releaseEpoch`: where the releases lie. `VestingSpec.LastRelease`: the last of them, which there always is.
* `releases_eq_ok`: the releases one by one. They can be computed if and only if the words hold them.
* `totalAt_instalments`: what has come up to a release.
* `filter_merge`, `le_of_mem_merge`: what merging leaves alone, and what it does not lose.
* `lock_vests_linearly`: the table that a sum is locked into.
-/

namespace SectorLedger

/-! ### Where the releases lie -/

namespace VestingSpec

variable {spec : VestingSpec} {grid : Grid} {begins : Int} {k m last : Nat}

/-- A step of the schedule, rounded up to the grid. -/
def releaseEpoch (spec : VestingSpec) (grid : Grid) (begins : Int) (k : Nat) : Int :=
  grid.next (begins + k * spec.stepDuration)

/-- The first release at which the vesting period is over. -/
structure LastRelease (spec : VestingSpec) (grid : Grid) (begins : Int) (last : Nat) : Prop where
  /-- Nothing is released where the schedule begins. -/
  pos : 1 ≤ last
  /-- The period is over. -/
  reached : spec.vestPeriod ≤ spec.releaseEpoch grid begins last - begins
  /-- It is not over before. -/
  first : ∀ k, 1 ≤ k → k < last → spec.releaseEpoch grid begins k - begins < spec.vestPeriod

theorem isUp_releaseEpoch (hunit : 0 < grid.unit) (k : Nat) :
    grid.IsUp (begins + k * spec.stepDuration) (spec.releaseEpoch grid begins k) := Grid.isUp_next hunit _

theorem releaseEpoch_mono (hstep : 0 < spec.stepDuration) (hunit : 0 < grid.unit) (h : k ≤ m) :
    spec.releaseEpoch grid begins k ≤ spec.releaseEpoch grid begins m := by
  refine (isUp_releaseEpoch hunit k).mono (isUp_releaseEpoch hunit m) ?_
  have hle : (k : Int) ≤ m := Int.ofNat_le.2 h
  exact Int.add_le_add_left (Int.mul_le_mul_of_nonneg_right hle hstep.le) begins

theorem elapsed_nonneg (hstep : 0 < spec.stepDuration) (hunit : 0 < grid.unit) (k : Nat) :
    0 ≤ spec.releaseEpoch grid begins k - begins := by
  have hle : begins + k * spec.stepDuration ≤ spec.releaseEpoch grid begins k := (isUp_releaseEpoch hunit k).le
  have hsteps : 0 ≤ (k : Int) * spec.stepDuration := mul_nonneg (Int.natCast_nonneg k) hstep.le
  linarith

/-- The period is over after as many steps as it has epochs, if not before. -/
theorem exists_lastRelease (hperiod : 0 < spec.vestPeriod) (hstep : 0 < spec.stepDuration) (hunit : 0 < grid.unit)
    (begins : Int) : ∃ last, spec.LastRelease grid begins last := by
  have hover : ∃ k, 1 ≤ k ∧ spec.vestPeriod ≤ spec.releaseEpoch grid begins k - begins := by
    refine ⟨spec.vestPeriod.toNat, by omega, ?_⟩
    have hle : begins + spec.vestPeriod.toNat * spec.stepDuration ≤
      spec.releaseEpoch grid begins spec.vestPeriod.toNat := (isUp_releaseEpoch hunit _).le
    rw [Int.toNat_of_nonneg hperiod.le] at hle
    have hsteps : spec.vestPeriod * 1 ≤ spec.vestPeriod * spec.stepDuration :=
      Int.mul_le_mul_of_nonneg_left hstep hperiod.le
    linarith
  classical
  obtain ⟨hpos, hreached⟩ := Nat.find_spec hover
  exact ⟨Nat.find hover, hpos, hreached, fun k hk hlt => not_le.1 fun hle => Nat.find_min hover hlt ⟨hk, hle⟩⟩

/-- What is computed on the way to a release is in range. -/
structure ReleaseFits (spec : VestingSpec) (grid : Grid) (begins : Int) (k : Nat) : Prop where
  /-- The step. -/
  step : Epoch.InRange (begins + k * spec.stepDuration)
  /-- The rounding. -/
  rounded : grid.up (begins + k * spec.stepDuration) = .ok (spec.releaseEpoch grid begins k)
  /-- The elapsed time. -/
  elapsed : Epoch.InRange (spec.releaseEpoch grid begins k - begins)

end VestingSpec

namespace VestingTable

variable {t t' : VestingTable} {spec : VestingSpec} {grid : Grid} {begins sum : Int} {k m n last : Nat}
  {l : List Instalment}

/-! ### The releases one by one -/

/-- What a schedule has released after some steps. -/
def earnedAfter (spec : VestingSpec) (grid : Grid) (begins sum : Int) : Nat → Int
  | 0 => 0
  | k + 1 => linearShare spec sum (spec.releaseEpoch grid begins (k + 1) - begins)

theorem earnedAfter_of_pos (hk : 1 ≤ k) :
    earnedAfter spec grid begins sum k = linearShare spec sum (spec.releaseEpoch grid begins k - begins) := by
  obtain ⟨k, rfl⟩ := Nat.exists_eq_add_of_le' hk
  rfl

/-- Before the last release something is left to release. -/
theorem earnedAfter_lt (hsum : 0 < sum) (hperiod : 0 < spec.vestPeriod) (hlast : spec.LastRelease grid begins last)
    (hk : k < last) : earnedAfter spec grid begins sum k < sum := by
  cases k with
  | zero => exact hsum
  | succ k =>
    have helapsed := hlast.first (k + 1) k.succ_pos hk
    rw [earnedAfter, linearShare, if_pos helapsed]
    exact Int.ediv_lt_of_lt_mul hperiod (Int.mul_lt_mul_of_pos_left helapsed hsum)

/-- The last release completes the sum. -/
theorem earnedAfter_last (hlast : spec.LastRelease grid begins last) : earnedAfter spec grid begins sum last = sum := by
  rw [earnedAfter_of_pos hlast.pos, linearShare, if_neg (not_lt.2 hlast.reached)]

/-- What a step releases. -/
def instalment (spec : VestingSpec) (grid : Grid) (begins sum : Int) (k : Nat) : Instalment where
  epoch := spec.releaseEpoch grid begins k
  amount := earnedAfter spec grid begins sum k - earnedAfter spec grid begins sum (k - 1)

/-- As long as something is left, the releases go on with the next step, if the words hold it. -/
theorem releases_succ (hstep : 0 < spec.stepDuration) (hunit : 0 < grid.unit)
    (hmore : earnedAfter spec grid begins sum k < sum) :
    releases spec grid begins sum (begins + k * spec.stepDuration) (earnedAfter spec grid begins sum k) = .ok l ↔
      spec.ReleaseFits grid begins (k + 1) ∧ ∃ rest,
        releases spec grid begins sum (begins + (k + 1 : Nat) * spec.stepDuration)
          (earnedAfter spec grid begins sum (k + 1)) = .ok rest ∧
        l = instalment spec grid begins sum (k + 1) :: rest := by
  have hnext : begins + k * spec.stepDuration + spec.stepDuration = begins + (k + 1 : Nat) * spec.stepDuration := by
    push_cast
    ring
  have helapsed : 0 ≤ spec.releaseEpoch grid begins (k + 1) - begins := VestingSpec.elapsed_nonneg hstep hunit (k + 1)
  have hshare : vestedShare spec sum (spec.releaseEpoch grid begins (k + 1) - begins) =
    .ok (earnedAfter spec grid begins sum (k + 1)) := vestedShare_eq helapsed
  rw [releases_eq_ok hstep hmore, hnext]
  constructor
  · rintro ⟨release, share, rest, hrange, hup, helapsed, hearned, hrest, rfl⟩
    obtain rfl := (Grid.isUp_of_up hunit hup).unique (VestingSpec.isUp_releaseEpoch hunit (k + 1))
    obtain rfl := Except.ok.inj (hearned.symm.trans hshare)
    exact ⟨⟨hrange, hup, helapsed⟩, rest, hrest, rfl⟩
  · rintro ⟨⟨hrange, hup, helapsed⟩, rest, hrest, rfl⟩
    exact ⟨_, _, rest, hrange, hup, helapsed, hshare, hrest, rfl⟩

/-- **The releases are the instalments of the steps**, up to the last. -/
theorem releases_eq_instalments (hstep : 0 < spec.stepDuration) (hunit : 0 < grid.unit) (hsum : 0 < sum)
    (hperiod : 0 < spec.vestPeriod) (hlast : spec.LastRelease grid begins last) (hk : k + n = last) :
    releases spec grid begins sum (begins + k * spec.stepDuration) (earnedAfter spec grid begins sum k) = .ok l ↔
      (∀ m ∈ List.range' (k + 1) n, spec.ReleaseFits grid begins m) ∧
        l = (List.range' (k + 1) n).map (instalment spec grid begins sum) := by
  induction n generalizing k l with
  | zero =>
    obtain rfl : k = last := hk
    rw [releases, if_pos (earnedAfter_last hlast).ge]
    simp [eq_comm]
  | succ n ih =>
    rw [releases_succ hstep hunit (earnedAfter_lt hsum hperiod hlast (by omega)), List.range'_succ, List.map_cons,
      List.forall_mem_cons]
    simp only [ih (by omega : k + 1 + n = last)]
    constructor
    · rintro ⟨hfits, rest, ⟨hlater, rfl⟩, rfl⟩
      exact ⟨⟨hfits, hlater⟩, rfl⟩
    · rintro ⟨⟨hfits, hlater⟩, rfl⟩
      exact ⟨hfits, _, ⟨hlater, rfl⟩, rfl⟩

/-! ### What has come up to a release -/

/-- Steps that fall on the same point of the grid as an earlier one bring nothing more. -/
theorem totalAt_later_instalments (hstep : 0 < spec.stepDuration) (hunit : 0 < grid.unit) (hm : 1 ≤ m) (hk : m ≤ k) :
    totalAt (· ≤ spec.releaseEpoch grid begins m) ((List.range' (k + 1) n).map (instalment spec grid begins sum)) = 0 := by
  refine totalAt_eq_zero fun e he hepoch => ?_
  obtain ⟨j, hj, rfl⟩ := List.mem_map.1 he
  have hkj : k + 1 ≤ j := (List.mem_range'_1.1 hj).1
  have hle : spec.releaseEpoch grid begins j ≤ spec.releaseEpoch grid begins m := of_decide_eq_true hepoch
  have hbefore : spec.releaseEpoch grid begins m ≤ spec.releaseEpoch grid begins (j - 1) :=
    VestingSpec.releaseEpoch_mono hstep hunit (by omega)
  have hafter : spec.releaseEpoch grid begins (j - 1) ≤ spec.releaseEpoch grid begins j :=
    VestingSpec.releaseEpoch_mono hstep hunit (by omega)
  have hsame : spec.releaseEpoch grid begins j = spec.releaseEpoch grid begins (j - 1) := by linarith
  rw [instalment, earnedAfter_of_pos (by omega), earnedAfter_of_pos (by omega), hsame, sub_self]

/-- Up to a release there has come what the steps up to it release. -/
theorem totalAt_instalments (hstep : 0 < spec.stepDuration) (hunit : 0 < grid.unit) (hkm : k < m) (hm : m ≤ k + n) :
    totalAt (· ≤ spec.releaseEpoch grid begins m) ((List.range' (k + 1) n).map (instalment spec grid begins sum)) =
      earnedAfter spec grid begins sum m - earnedAfter spec grid begins sum k := by
  induction n generalizing k with
  | zero => omega
  | succ n ih =>
    have hfirst : (instalment spec grid begins sum (k + 1)).epoch ≤ spec.releaseEpoch grid begins m :=
      VestingSpec.releaseEpoch_mono hstep hunit hkm
    have hamount : (instalment spec grid begins sum (k + 1)).amount =
      earnedAfter spec grid begins sum (k + 1) - earnedAfter spec grid begins sum k := rfl
    rw [List.range'_succ, List.map_cons, totalAt_cons, if_pos (decide_eq_true hfirst), hamount]
    rcases (Nat.succ_le_iff.2 hkm).eq_or_lt with rfl | hlt
    · rw [totalAt_later_instalments hstep hunit k.succ_pos le_rfl, add_zero]
    · rw [ih hlt (by omega)]
      ring

/-! ### Merging -/

/-- Merging leaves an epoch alone at which there is nothing to merge. -/
theorem filter_merge {epoch : Int} (h : ∀ e ∈ t', e.epoch ≠ epoch) :
    (merge t t').filter (·.epoch = epoch) = t.filter (·.epoch = epoch) := by
  induction t, t' using merge.induct with
  | case1 bs =>
    rw [merge]
    exact List.filter_eq_nil_iff.2 fun e he => by simpa using h e he
  | case2 as => rw [merge_nil]
  | case3 a as b bs hlt ih => rw [merge, if_pos hlt, List.filter_cons, List.filter_cons, ih h]
  | case4 a as b bs hge hlt ih =>
    have hb := h b List.mem_cons_self
    rw [merge, if_neg hge, if_pos hlt, List.filter_cons_of_neg (by simpa using hb),
      ih fun e he => h e (List.mem_cons_of_mem b he)]
  | case5 a as b bs hge hge' ih =>
    have hb := h b List.mem_cons_self
    have ha : a.epoch ≠ epoch := by omega
    rw [merge, if_neg hge, if_neg hge', List.filter_cons_of_neg (by simpa using ha),
      List.filter_cons_of_neg (by simpa using ha), ih fun e he => h e (List.mem_cons_of_mem b he)]

/-- Merging keeps each amount, or adds to it. -/
theorem le_of_mem_merge (h : ∀ e ∈ t', 0 ≤ e.amount) :
    ∀ e ∈ t, ∃ e' ∈ merge t t', e'.epoch = e.epoch ∧ e.amount ≤ e'.amount := by
  induction t, t' using merge.induct with
  | case1 bs => exact fun e he => absurd he List.not_mem_nil
  | case2 as => exact fun e he => ⟨e, by rwa [merge_nil], rfl, le_rfl⟩
  | case3 a as b bs hlt ih =>
    rw [merge, if_pos hlt]
    intro e he
    rcases List.mem_cons.1 he with rfl | hin
    · exact ⟨e, List.mem_cons_self, rfl, le_rfl⟩
    · obtain ⟨e', he', hsame⟩ := ih h e hin
      exact ⟨e', List.mem_cons_of_mem a he', hsame⟩
  | case4 a as b bs hge hlt ih =>
    rw [merge, if_neg hge, if_pos hlt]
    intro e he
    obtain ⟨e', he', hsame⟩ := ih (fun e he => h e (List.mem_cons_of_mem b he)) e he
    exact ⟨e', List.mem_cons_of_mem b he', hsame⟩
  | case5 a as b bs hge hge' ih =>
    rw [merge, if_neg hge, if_neg hge']
    intro e he
    rcases List.mem_cons.1 he with rfl | hin
    · exact ⟨_, List.mem_cons_self, rfl, le_add_of_nonneg_right (h b List.mem_cons_self)⟩
    · obtain ⟨e', he', hsame⟩ := ih (fun e he => h e (List.mem_cons_of_mem b he)) e hin
      exact ⟨e', List.mem_cons_of_mem _ he', hsame⟩

/-! ### The table -/

/-- What is computed up to the last release is in range. -/
structure ScheduleFits (spec : VestingSpec) (grid : Grid) (begins : Int) (last : Nat) : Prop where
  /-- Where the schedule begins. -/
  start : Epoch.InRange begins
  /-- The releases. -/
  release : ∀ k, 1 ≤ k → k ≤ last → spec.ReleaseFits grid begins k

/-- The second table is the first and a sum that vests linearly. -/
structure VestsLinearly (spec : VestingSpec) (grid : Grid) (begins sum : Int) (last : Nat) (t t' : VestingTable) :
    Prop where
  /-- Before the last release there has come the share of the elapsed time, rounded down. -/
  share : ∀ k, 1 ≤ k → k < last →
    totalAt (· ≤ spec.releaseEpoch grid begins k) t' - totalAt (· ≤ spec.releaseEpoch grid begins k) t =
      (sum * (spec.releaseEpoch grid begins k - begins)).fdiv spec.vestPeriod
  /-- Then there has come everything. -/
  whole : totalAt (· ≤ spec.releaseEpoch grid begins last) t' - totalAt (· ≤ spec.releaseEpoch grid begins last) t = sum
  /-- Nothing comes at another epoch. -/
  elsewhere : ∀ epoch, (∀ k, 1 ≤ k → k ≤ last → spec.releaseEpoch grid begins k ≠ epoch) →
    t'.filter (·.epoch = epoch) = t.filter (·.epoch = epoch)
  /-- No amount is lost. -/
  kept : ∀ e ∈ t, ∃ e' ∈ t', e'.epoch = e.epoch ∧ e.amount ≤ e'.amount
  /-- The order. -/
  ascending : t'.Pairwise (·.epoch < ·.epoch)

/-- The instalments join the table. -/
theorem vestsLinearly_merge (hascending : t.Pairwise (·.epoch < ·.epoch)) (hstep : 0 < spec.stepDuration)
    (hunit : 0 < grid.unit) (hsum : 0 < sum) (hperiod : 0 < spec.vestPeriod)
    (hlast : spec.LastRelease grid begins last)
    (h : releases spec grid begins sum begins 0 = .ok ((List.range' 1 last).map (instalment spec grid begins sum))) :
    VestsLinearly spec grid begins sum last t
      (merge t (coalesce ((List.range' 1 last).map (instalment spec grid begins sum)))) := by
  have hrun := Releasing.run hstep hunit hsum.le le_rfl hsum.le (fun e he r hr =>
    linearShare_nonneg hsum.le (by linarith [hr.le])) h
  have hcome : ∀ m, 1 ≤ m → m ≤ last →
      totalAt (· ≤ spec.releaseEpoch grid begins m)
          (merge t (coalesce ((List.range' 1 last).map (instalment spec grid begins sum)))) -
        totalAt (· ≤ spec.releaseEpoch grid begins m) t = earnedAfter spec grid begins sum m := fun m hm hle => by
    have htotal : totalAt (· ≤ spec.releaseEpoch grid begins m)
        ((List.range' (0 + 1) last).map (instalment spec grid begins sum)) = earnedAfter spec grid begins sum m - 0 :=
      totalAt_instalments hstep hunit hm (by omega)
    rw [totalAt_merge, totalAt_coalesce, add_sub_cancel_left, ← zero_add 1, htotal, sub_zero]
  refine ⟨fun k hk hlt => ?_, ?_, fun epoch hepoch => filter_merge fun e he => ?_,
    le_of_mem_merge (nonneg_coalesce hrun.nonneg), ascending_merge hascending (ascending_coalesce hrun.ascending)⟩
  · rw [hcome k hk hlt.le, earnedAfter_of_pos hk, linearShare, if_pos (hlast.first k hk hlt),
      Int.fdiv_eq_ediv_of_nonneg _ hperiod.le]
  · rw [hcome last hlast.pos le_rfl, earnedAfter_last hlast]
  · obtain ⟨e', he', hsame⟩ := epoch_of_mem_coalesce he
    obtain ⟨k, hk, rfl⟩ := List.mem_map.1 he'
    obtain ⟨hfrom, hto⟩ := List.mem_range'_1.1 hk
    exact hsame ▸ hepoch k hfrom (by omega)

/-- **A sum that is locked vests linearly.** It is locked unless something on the way to the last release is out of
range. -/
theorem lock_vests_linearly (now periodStart : Int) (hascending : t.Pairwise (·.epoch < ·.epoch)) (hsum : 0 < sum)
    (hperiod : 0 < spec.vestPeriod) (hstep : 0 < spec.stepDuration) (hquantization : 0 < spec.quantization) :
    ∃ last, spec.LastRelease ⟨spec.quantization, periodStart⟩ (now + spec.initialDelay) last ∧
      ((∃ t', t.lock now sum periodStart spec = .ok t') ↔
        ScheduleFits spec ⟨spec.quantization, periodStart⟩ (now + spec.initialDelay) last) ∧
      ∀ t', t.lock now sum periodStart spec = .ok t' →
        VestsLinearly spec ⟨spec.quantization, periodStart⟩ (now + spec.initialDelay) sum last t t' := by
  have hunit : 0 < (Grid.mk spec.quantization periodStart).unit := hquantization
  obtain ⟨last, hlast⟩ := VestingSpec.exists_lastRelease hperiod hstep hunit (now + spec.initialDelay)
  have hreleases : ∀ l, releases spec ⟨spec.quantization, periodStart⟩ (now + spec.initialDelay) sum
      (now + spec.initialDelay) 0 = .ok l ↔
      (∀ m ∈ List.range' 1 last, spec.ReleaseFits ⟨spec.quantization, periodStart⟩ (now + spec.initialDelay) m) ∧
        l = (List.range' 1 last).map
          (instalment spec ⟨spec.quantization, periodStart⟩ (now + spec.initialDelay) sum) := fun l => by
    have hall := releases_eq_instalments (k := 0) (n := last) (l := l) hstep hunit hsum hperiod hlast (zero_add last)
    simpa [earnedAfter] using hall
  have hlock : ∀ t', t.lock now sum periodStart spec = .ok t' ↔ Epoch.InRange (now + spec.initialDelay) ∧
      ∃ l, releases spec ⟨spec.quantization, periodStart⟩ (now + spec.initialDelay) sum (now + spec.initialDelay) 0 =
        .ok l ∧ t' = merge t (coalesce l) := fun t' => by
    simp only [lock, bind_eq_ok, Epoch.add_eq_ok, pure_eq_ok]
    constructor
    · rintro ⟨_, ⟨hrange, rfl⟩, l, hl, rfl⟩
      exact ⟨hrange, l, hl, rfl⟩
    · rintro ⟨hrange, l, hl, rfl⟩
      exact ⟨_, ⟨hrange, rfl⟩, l, hl, rfl⟩
  refine ⟨last, hlast, ⟨?_, ?_⟩, ?_⟩
  · rintro ⟨t', hrun⟩
    obtain ⟨hrange, l, hl, -⟩ := (hlock t').1 hrun
    exact ⟨hrange, fun k hk hle => ((hreleases l).1 hl).1 k (List.mem_range'_1.2 ⟨hk, by omega⟩)⟩
  · rintro ⟨hrange, hfits⟩
    refine ⟨_, (hlock _).2 ⟨hrange, _, (hreleases _).2 ⟨fun m hm => ?_, rfl⟩, rfl⟩⟩
    obtain ⟨hfrom, hto⟩ := List.mem_range'_1.1 hm
    exact hfits m hfrom (by omega)
  · intro t' hrun
    obtain ⟨-, l, hl, rfl⟩ := (hlock t').1 hrun
    obtain ⟨-, rfl⟩ := (hreleases l).1 hl
    exact vestsLinearly_merge hascending hstep hunit hsum hperiod hlast hl

/-- Two steps of this schedule fall on one point of the grid, where the table has an entry. -/
theorem lock_vests_linearly_sample : ∃ last t',
    VestingSpec.LastRelease ⟨1, 10, 2, 4⟩ ⟨4, 3⟩ 5 last ∧
      lock [⟨3, 10⟩, ⟨11, 2⟩] 4 101 3 ⟨1, 10, 2, 4⟩ = .ok t' ∧ t' = [⟨3, 10⟩, ⟨7, 20⟩, ⟨11, 42⟩, ⟨15, 41⟩] ∧
      VestsLinearly ⟨1, 10, 2, 4⟩ ⟨4, 3⟩ 5 101 last [⟨3, 10⟩, ⟨11, 2⟩] t' := by
  obtain ⟨last, hlast, -, hvests⟩ := lock_vests_linearly (t := [⟨3, 10⟩, ⟨11, 2⟩]) 4 3 (by decide)
    (show (0 : Int) < 101 by decide) (show 0 < (VestingSpec.mk 1 10 2 4).vestPeriod by decide) (by decide) (by decide)
  have hlock : lock [⟨3, 10⟩, ⟨11, 2⟩] 4 101 3 ⟨1, 10, 2, 4⟩ = .ok [⟨3, 10⟩, ⟨7, 20⟩, ⟨11, 42⟩, ⟨15, 41⟩] := by
    decide +kernel
  exact ⟨last, _, hlast, hlock, rfl, hvests _ hlock⟩

end VestingTable

end SectorLedger
