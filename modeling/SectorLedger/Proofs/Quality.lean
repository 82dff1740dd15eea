import SectorLedger.Proofs.Power
import Mathlib.Data.Rat.Floor
import Mathlib.Tactic.Linarith
import Mathlib.Tactic.Ring

/-!
# What deals add to the power of a sector

Plain space and space under ordinary deals count once, so only verified deals raise the quality of a sector: by nine
times the share that they have of its space and time. Rounding down three times gives what rounding down twice does.

* `bonus`: what verified deals add to the quality of plain space.
* `verifiedBytes`: what a sector weighs with it; `quality_eq`, `weightedBytes_eq`: that is what is computed.
* `bonus_mono`, `bonus_anti`: how the bonus depends on the verified weight and on the duration.
* `le_verifiedBytes`, `verifiedBytes_le`, `verifiedBytes_mono`, `verifiedBytes_anti`: bounds and order.
* `verifiedBytes_eq_floor`: the closed form.
* `power_bounded_monotone_additive`: the closed form, with bounds and order; the powers of sectors add up.
-/

namespace SectorLedger

variable {size : SectorSize} {duration verified : Int}

theorem SectorSize.bytes_pos (size : SectorSize) : 0 < size.bytes := by cases size <;> decide

theorem spaceTime_pos (hd : 0 < duration) : 0 < (size.bytes : Int) * duration :=
  Int.mul_pos (Int.natCast_pos.2 size.bytes_pos) hd

theorem spaceTime_ne_zero (hd : duration ≠ 0) : (size.bytes : Int) * duration ≠ 0 :=
  Int.mul_ne_zero (Int.natCast_ne_zero.2 size.bytes_pos.ne') hd

/-! ### Quality -/

theorem floorDiv_eq_ok {a b c : Int} : floorDiv a b = .ok c ↔ b ≠ 0 ∧ a.fdiv b = c := by
  unfold floorDiv
  split <;> simp_all

/-- What verified deals add to the quality of plain space. -/
def bonus (size : SectorSize) (duration verified : Int) : Int :=
  9 * verified * qualityScale / (size.bytes * duration)

/-- Two roundings are as one, and ordinary deals cancel out. -/
theorem quality_eq (hd : 0 < duration) (deal verified : Int) :
    quality size duration deal verified = .ok (qualityScale + bonus size duration verified) := by
  have hpos : 0 < (size.bytes : Int) * duration := spaceTime_pos hd
  have hweighted : ((size.bytes * duration - (deal + verified)) * plainMultiplier + deal * dealMultiplier +
      verified * verifiedMultiplier) * qualityScale =
      plainMultiplier * (9 * verified * qualityScale + qualityScale * (size.bytes * duration)) := by
    unfold plainMultiplier dealMultiplier verifiedMultiplier
    ring
  simp only [quality, bind_eq_ok, floorDiv_eq_ok, hweighted]
  refine ⟨_, ⟨hpos.ne', rfl⟩, by decide, ?_⟩
  rw [Int.fdiv_fdiv_eq_fdiv_mul _ hpos.le (by decide), Int.mul_comm _ plainMultiplier,
    Int.mul_fdiv_mul_of_pos _ _ (by decide), Int.fdiv_eq_ediv_of_nonneg _ hpos.le, Int.add_mul_ediv_right _ _ hpos.ne',
    Int.add_comm, bonus]

/-- The weighted bytes of a sector, whatever its ordinary deals. -/
def verifiedBytes (size : SectorSize) (duration verified : Int) : Int :=
  size.bytes * (qualityScale + bonus size duration verified) / qualityScale

theorem weightedBytes_eq (hd : 0 < duration) (deal verified : Int) :
    weightedBytes size duration deal verified = .ok (verifiedBytes size duration verified) := by
  simp only [weightedBytes, quality_eq hd, ok_bind, pure_eq_ok]
  exact Int.fdiv_eq_ediv_of_nonneg _ (by decide)

/-! ### The order of bonuses -/

theorem bonus_nonneg (hd : 0 < duration) (hv : 0 ≤ verified) : 0 ≤ bonus size duration verified :=
  Int.ediv_nonneg (by unfold qualityScale; omega) (spaceTime_pos hd).le

/-- Verified deals that fill a sector count tenfold. -/
theorem bonus_le (hd : 0 < duration) (hv : verified ≤ size.bytes * duration) :
    bonus size duration verified ≤ 9 * qualityScale := by
  refine Int.ediv_le_of_le_mul (spaceTime_pos hd) ?_
  unfold qualityScale
  linarith

theorem bonus_mono (hd : 0 < duration) {verified' : Int} (h : verified ≤ verified') :
    bonus size duration verified ≤ bonus size duration verified' := by
  refine Int.ediv_le_ediv (spaceTime_pos hd) ?_
  unfold qualityScale
  linarith

/-- The same deals weigh less in a sector that lasts longer. -/
theorem bonus_anti (hd : 0 < duration) (hv : 0 ≤ verified) {duration' : Int} (h : duration ≤ duration') :
    bonus size duration' verified ≤ bonus size duration verified := by
  have hd' : 0 < duration' := hd.trans_le h
  rw [bonus, bonus, Int.le_ediv_iff_mul_le (spaceTime_pos hd)]
  calc 9 * verified * qualityScale / (size.bytes * duration') * (size.bytes * duration)
      ≤ 9 * verified * qualityScale / (size.bytes * duration') * (size.bytes * duration') :=
        Int.mul_le_mul_of_nonneg_left (Int.mul_le_mul_of_nonneg_left h (Int.natCast_nonneg _)) (bonus_nonneg hd' hv)
    _ ≤ 9 * verified * qualityScale := Int.ediv_mul_le _ (spaceTime_pos hd').ne'

/-! ### The order of weighted bytes -/

variable {q q' : Int}

theorem scaledBytes_mono (h : q ≤ q') : size.bytes * q / qualityScale ≤ size.bytes * q' / qualityScale :=
  Int.ediv_le_ediv (by decide) (Int.mul_le_mul_of_nonneg_left h (Int.natCast_nonneg _))

/-- At a quality of a whole number, nothing is rounded. -/
theorem scaledBytes_mul (size : SectorSize) (n : Int) :
    size.bytes * (n * qualityScale) / qualityScale = size.bytes * n := by
  rw [← Int.mul_assoc, Int.mul_ediv_cancel _ (by decide)]

theorem le_verifiedBytes (hd : 0 < duration) (hv : 0 ≤ verified) : size.bytes ≤ verifiedBytes size duration verified := by
  have hbonus : 0 ≤ bonus size duration verified := bonus_nonneg hd hv
  calc (size.bytes : Int) = size.bytes * (1 * qualityScale) / qualityScale := by rw [scaledBytes_mul, Int.mul_one]
    _ ≤ verifiedBytes size duration verified := scaledBytes_mono (by linarith)

theorem verifiedBytes_le (hd : 0 < duration) (hv : verified ≤ size.bytes * duration) :
    verifiedBytes size duration verified ≤ 10 * size.bytes := by
  have hbonus := bonus_le hd hv
  calc verifiedBytes size duration verified
      ≤ size.bytes * (10 * qualityScale) / qualityScale := scaledBytes_mono (by linarith)
    _ = 10 * size.bytes := by rw [scaledBytes_mul, Int.mul_comm]

theorem verifiedBytes_mono (hd : 0 < duration) {verified' : Int} (h : verified ≤ verified') :
    verifiedBytes size duration verified ≤ verifiedBytes size duration verified' :=
  scaledBytes_mono (Int.add_le_add_left (bonus_mono hd h) _)

theorem verifiedBytes_anti (hd : 0 < duration) (hv : 0 ≤ verified) {duration' : Int} (h : duration ≤ duration') :
    verifiedBytes size duration' verified ≤ verifiedBytes size duration verified :=
  scaledBytes_mono (Int.add_le_add_left (bonus_anti hd hv h) _)

/-! ### The closed form -/

theorem floor_div {a b : Int} (hb : 0 ≤ b) : ⌊(a : ℚ) / b⌋ = a / b := by
  lift b to ℕ using hb
  exact Rat.floor_intCast_div_natCast a b

/-- The quality of plain space and the bonus on it are rounded down as one quotient. -/
theorem quality_eq_floor (hd : 0 < duration) (verified : Int) : qualityScale + bonus size duration verified =
    ⌊(2 : ℚ) ^ 20 * (size.bytes * duration + 9 * verified) / (size.bytes * duration)⌋ := by
  have hpos : 0 < (size.bytes : Int) * duration := spaceTime_pos hd
  rw [bonus, Int.add_comm, ← Int.add_mul_ediv_right _ _ hpos.ne', ← floor_div hpos.le]
  congr 1
  unfold qualityScale
  push_cast
  ring

theorem verifiedBytes_eq_floor (hd : 0 < duration) (verified : Int) : verifiedBytes size duration verified =
    ⌊(size.bytes : ℚ) * ⌊(2 : ℚ) ^ 20 * (size.bytes * duration + 9 * verified) / (size.bytes * duration)⌋ / 2 ^ 20⌋ := by
  rw [← quality_eq_floor hd, verifiedBytes, ← floor_div (show 0 ≤ qualityScale by decide)]
  congr 1
  unfold qualityScale
  push_cast
  ring

/-! ### Sectors -/

/-- The sector's lifetime is an epoch number and not zero. -/
def Sector.Lasts (s : Sector) : Prop :=
  s.expiration ≠ s.activation ∧ Epoch.InRange (s.expiration - s.activation)

instance (s : Sector) : Decidable s.Lasts := inferInstanceAs (Decidable (_ ∧ _))

/-- A sector that lasts has a power, even if it expires before it starts. -/
theorem Sector.Lasts.ofSector_total {s : Sector} (h : s.Lasts) (size : SectorSize) :
    ∃ p, Power.ofSector size s = .ok p := by
  have hpos : (size.bytes : Int) * (s.expiration - s.activation) ≠ 0 := spaceTime_ne_zero (sub_ne_zero.2 h.1)
  simp only [Power.ofSector, Power.weightedOf, weightedBytes, quality, bind_eq_ok, pure_eq_ok, floorDiv_eq_ok,
    Epoch.sub_eq_ok]
  exact ⟨_, _, ⟨_, ⟨h.2, rfl⟩, _, ⟨_, ⟨hpos, rfl⟩, by decide, rfl⟩, rfl⟩, rfl⟩

/-- **The power of a sector is bounded, grows with its verified deals and shrinks with its duration.** Ordinary deals do
not matter, what is rounded on the way adds up to two roundings, and the powers of sectors add up. -/
theorem power_bounded_monotone_additive (size : SectorSize) :
    (∀ duration verified : Int, 0 < duration → 0 ≤ verified → verified ≤ size.bytes * duration → ∃ qa : Int,
      (∀ deal, weightedBytes size duration deal verified = .ok qa) ∧
      qa = ⌊(size.bytes : ℚ) *
        ⌊(2 : ℚ) ^ 20 * (size.bytes * duration + 9 * verified) / (size.bytes * duration)⌋ / 2 ^ 20⌋ ∧
      size.bytes ≤ qa ∧ qa ≤ 10 * size.bytes ∧
      (∀ deal verified' qa', verified ≤ verified' → weightedBytes size duration deal verified' = .ok qa' → qa ≤ qa') ∧
      ∀ deal duration' qa', duration ≤ duration' → weightedBytes size duration' deal verified = .ok qa' → qa' ≤ qa) ∧
    ∀ ss ss' : List Sector, (∀ s ∈ ss ++ ss', s.Lasts) → ∃ ps ps',
      ss.mapM (Power.ofSector size) = .ok ps ∧ ss'.mapM (Power.ofSector size) = .ok ps' ∧
      Power.ofSectors size ss = .ok ps.sum ∧ Power.ofSectors size ss' = .ok ps'.sum ∧
      Power.ofSectors size (ss ++ ss') = .ok (ps.sum + ps'.sum) := by
  refine ⟨fun duration verified hd hv hfit => ?weight, fun ss ss' hlasts => ?sum⟩
  case weight =>
    refine ⟨verifiedBytes size duration verified, fun deal => weightedBytes_eq hd deal verified,
      verifiedBytes_eq_floor hd verified, le_verifiedBytes hd hv, verifiedBytes_le hd hfit, ?verified, ?duration⟩
    case verified =>
      intro deal verified' qa' hle h
      obtain rfl := Except.ok.inj ((weightedBytes_eq hd deal verified').symm.trans h)
      exact verifiedBytes_mono hd hle
    case duration =>
      intro deal duration' qa' hle h
      obtain rfl := Except.ok.inj ((weightedBytes_eq (hd.trans_le hle) deal verified).symm.trans h)
      exact verifiedBytes_anti hd hv hle
  case sum =>
    rw [List.forall_mem_append] at hlasts
    obtain ⟨ps, hps⟩ := mapM_total fun s hs => (hlasts.1 s hs).ofSector_total size
    obtain ⟨ps', hps'⟩ := mapM_total fun s hs => (hlasts.2 s hs).ofSector_total size
    have hss := mapM_eq_ok.1 hps
    have hss' := mapM_eq_ok.1 hps'
    exact ⟨ps, ps', hps, hps', SectorTable.ofSectors_eq_ok.2 ⟨ps, hss, rfl⟩,
      SectorTable.ofSectors_eq_ok.2 ⟨ps', hss', rfl⟩,
      SectorTable.ofSectors_eq_ok.2 ⟨ps ++ ps', List.rel_append hss hss', List.sum_append⟩⟩

/-- One byte in a sector of two kibibytes for three epochs, and two sectors of which one expires before it starts. -/
theorem power_of_sampleSectors :
    (∃ qa : Int, (∀ deal, weightedBytes .kib2 3 deal 1 = .ok qa) ∧ qa = 2051 ∧ (2048 : Int) ≤ qa ∧ qa ≤ 10 * 2048) ∧
      Power.ofSectors .kib2 [{ number := 1, expiration := 4, activation := 1, verifiedWeight := 1 },
        { number := 2, expiration := 1, activation := 4 }] = .ok ⟨4096, 4099⟩ := by
  obtain ⟨hweights, hsums⟩ := power_bounded_monotone_additive .kib2
  obtain ⟨qa, hqa, -, hlow, hhigh, -⟩ := hweights 3 1 (by decide) (by decide) (by decide)
  obtain ⟨ps, ps', hps, hps', -, -, hsum⟩ := hsums
    [{ number := 1, expiration := 4, activation := 1, verifiedWeight := 1 }]
    [{ number := 2, expiration := 1, activation := 4 }] (by decide)
  obtain rfl : [⟨2048, 2051⟩] = ps := Except.ok.inj ((by decide : Except.ok _ = _).trans hps)
  obtain rfl : [⟨2048, 2048⟩] = ps' := Except.ok.inj ((by decide : Except.ok _ = _).trans hps')
  exact ⟨⟨qa, hqa, (Except.ok.inj ((by decide : Except.ok _ = _).trans (hqa 0))).symm, hlow, hhigh⟩, hsum⟩

end SectorLedger
