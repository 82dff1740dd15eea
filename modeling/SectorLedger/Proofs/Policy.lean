import SectorLedger.Policy.Parameters
import SectorLedger.Proofs.Window

/-!
# Which policies are accepted

A policy is accepted if its windows tile its proving period, as computed with machine numbers: the deadline count is
read as an epoch, and so is the product. Counts from `2 ^ 63` on become negative by that, and a product that leaves
the range of epochs is a fault.

* `Policy.Tiles`, `Wraps`, `Overflows`: the windows tile the period, they seem to, it cannot be computed.
* `validate_eq_ok`, `validate_eq_fault`: what is accepted, and what is a fault.
* `described`, `fits_of_described`: the policy of a configuration document, whose fields are in range.
* `validate_exact_but_for_words`: both together.
-/

namespace SectorLedger.Policy

variable {p : Policy} {text : String}

/-! ### Checking a policy -/

/-- The fields from which windows are computed have their machine types. -/
structure Fits (p : Policy) : Prop where
  /-- The deadline count is a count. -/
  deadlines : p.deadlines < Count.bound
  /-- The proving period is an epoch. -/
  period : Epoch.InRange p.period
  /-- The length of a window is an epoch. -/
  window : Epoch.InRange p.window

/-- The windows tile the proving period. -/
abbrev Tiles (p : Policy) : Prop := Window.Tiled p.toTiming

/-- The deadline count is not an epoch, and its bits read as one make the windows seem to tile the period. -/
structure Wraps (p : Policy) : Prop where
  /-- Windows are not empty. -/
  window_pos : 0 < p.window
  /-- The count is above the range of epochs. -/
  deadlines_ge : 0x8000000000000000 ≤ p.deadlines
  /-- The product of the two, as the bits of the count are read. -/
  period_eq : p.period = ((p.deadlines : Int) - Count.bound) * p.window

/-- The windows divide the proving period, but as many of them as there are take longer than any epoch. -/
structure Overflows (p : Policy) : Prop where
  /-- Windows are not empty. -/
  window_pos : 0 < p.window
  /-- There are some. -/
  deadlines_pos : 0 < p.deadlines
  /-- A period consists of whole windows. -/
  dvd : p.window ∣ p.period
  /-- The product is out of range. -/
  product : ¬Epoch.InRange (Count.toEpoch p.deadlines * p.window)

/-- With a wrapped deadline count the proving period runs backwards. -/
theorem Wraps.period_neg (h : p.Wraps) (hp : p.Fits) : p.period < 0 := by
  have hcount : (p.deadlines : Int) - Count.bound < 0 := by have := hp.deadlines; omega
  rw [h.period_eq]
  exact Int.mul_neg_of_neg_of_pos hcount h.window_pos

/-- A period in range has fewer windows than there are epochs. -/
theorem Tiles.deadlines_lt (h : p.Tiles) (hp : p.Fits) : p.deadlines < 0x8000000000000000 := by
  have hle : (p.deadlines : Int) ≤ p.deadlines * p.window :=
    le_mul_of_one_le_right (Int.natCast_nonneg _) h.window_pos
  have hlt : p.period < 0x8000000000000000 := hp.period.2
  have heq : p.period = p.deadlines * p.window := h.period_eq
  omega

/-- The windows are said to tile the period if they do, or if the deadline count wraps so. -/
theorem toEpoch_mul_eq_period (hp : p.Fits) :
    (0 < p.window ∧ 0 < p.deadlines ∧ Count.toEpoch p.deadlines * p.window = p.period) ↔ p.Tiles ∨ p.Wraps := by
  rcases lt_or_ge p.deadlines 0x8000000000000000 with hlt | hge
  · rw [Count.toEpoch_of_lt hlt]
    constructor
    · rintro ⟨hw, hd, heq⟩
      exact .inl ⟨hw, hd, heq.symm⟩
    · rintro (h | h)
      · exact ⟨h.window_pos, h.deadlines_pos, h.period_eq.symm⟩
      · exact absurd h.deadlines_ge (not_le.2 hlt)
  · have hcast : Count.toEpoch p.deadlines = (p.deadlines : Int) - Count.bound := if_neg (not_lt.2 hge)
    rw [hcast]
    constructor
    · rintro ⟨hw, -, heq⟩
      exact .inr ⟨hw, hge, heq.symm⟩
    · rintro (h | h)
      · exact absurd (h.deadlines_lt hp) (not_lt.2 hge)
      · exact ⟨h.window_pos, by omega, h.period_eq.symm⟩

/-- What is left to check of a policy whose windows are not empty. -/
theorem validate_of_pos (hw : 0 < p.window) (hd : 0 < p.deadlines) : p.validate =
    if p.window ∣ p.period then do
      if (← Epoch.mul (Count.toEpoch p.deadlines) p.window) ≠ p.period then
        failed s!"incompatible proving period {p.period} and deadline count {p.deadlines}"
    else failed s!"incompatible proving period {p.period} and challenge window {p.window}" := by
  have hpos : ¬(p.window ≤ 0 ∨ p.deadlines = 0) := by omega
  have hrem : Epoch.rem p.period p.window = .ok (p.period.tmod p.window) := (Grid.rem_eq_ok hw).2 rfl
  simp only [validate, if_neg hpos, hrem, ok_bind]
  by_cases hdvd : p.window ∣ p.period
  · rw [if_pos hdvd, if_neg (not_ne_iff.2 (Int.tmod_eq_zero_of_dvd hdvd))]
  · rw [if_neg hdvd, if_pos fun hzero => hdvd (Int.dvd_of_tmod_eq_zero hzero), failed_bind]

/-- A policy is accepted if and only if its windows tile its period, or the deadline count wraps. -/
theorem validate_eq_ok (hp : p.Fits) : p.validate = .ok () ↔ p.Tiles ∨ p.Wraps := by
  rw [← toEpoch_mul_eq_period hp]
  constructor
  · intro h
    have hpos : ¬(p.window ≤ 0 ∨ p.deadlines = 0) := fun hneg => by
      rw [validate, if_pos hneg] at h
      cases h
    have hw : 0 < p.window := by omega
    have hd : 0 < p.deadlines := by omega
    rw [validate_of_pos hw hd] at h
    split at h
    · simp only [bind_eq_ok, Epoch.mul_eq_ok, ite_failed_eq_ok, not_ne_iff] at h
      obtain ⟨_, ⟨-, rfl⟩, heq, -⟩ := h
      exact ⟨hw, hd, heq⟩
    · cases h
  · rintro ⟨hw, hd, heq⟩
    have hdvd : p.window ∣ p.period := heq ▸ Int.dvd_mul_left ..
    have hmul : Epoch.mul (Count.toEpoch p.deadlines) p.window = .ok p.period :=
      Epoch.mul_eq_ok.2 ⟨heq ▸ hp.period, heq.symm⟩
    rw [validate_of_pos hw hd, if_pos hdvd, hmul, ok_bind, if_neg (not_ne_iff.2 rfl)]
    rfl

/-- Checking a policy is a fault if and only if the product of deadline count and window is out of range. -/
theorem validate_eq_fault : p.validate = .error .fault ↔ p.Overflows := by
  constructor
  · intro h
    have hpos : ¬(p.window ≤ 0 ∨ p.deadlines = 0) := fun hneg => by
      rw [validate, if_pos hneg] at h
      cases h
    have hw : 0 < p.window := by omega
    have hd : 0 < p.deadlines := by omega
    rw [validate_of_pos hw hd] at h
    split at h
    · next hdvd =>
      refine ⟨hw, hd, hdvd, fun hin => ?_⟩
      rw [Epoch.mul_eq_ok.2 ⟨hin, rfl⟩, ok_bind] at h
      split at h <;> cases h
    · cases h
  · intro h
    rw [validate_of_pos h.window_pos h.deadlines_pos, if_pos h.dvd, Epoch.mul, Epoch.checked, if_neg h.product]
    rfl

/-! ### Reading a policy -/

/-- Setting the parameter leaves the fields in range. -/
def Parameter.KeepsFit (parameter : Parameter) : Prop :=
  ∀ p n p', p.Fits → parameter.set p n = some p' → p'.Fits

theorem keepsFit_count {name : String} {get : Policy → Nat} {put : Policy → Nat → Policy}
    (h : ∀ p n, p.Fits → n < Count.bound → (put p n).Fits) : (count name get put).KeepsFit := by
  intro p n p' hp hset
  simp only [count, Option.ite_none_right_eq_some, Option.some.injEq] at hset
  obtain ⟨hn, rfl⟩ := hset
  exact h p n.toNat hp (by omega)

theorem keepsFit_epochs {name : String} {get : Policy → Int} {put : Policy → Int → Policy}
    (h : ∀ p n, p.Fits → Epoch.InRange n → (put p n).Fits) : (epochs name get put).KeepsFit := by
  intro p n p' hp hset
  simp only [epochs, Option.ite_none_right_eq_some, Option.some.injEq] at hset
  obtain ⟨hn, rfl⟩ := hset
  exact h p n hp hn

theorem keepsFit_of_mem : ∀ parameter ∈ parameters, parameter.KeepsFit := by
  simp only [parameters, List.forall_mem_cons]
  and_intros
  all_goals first
    | exact keepsFit_count fun _ _ hp _ => ⟨hp.deadlines, hp.period, hp.window⟩
    | exact keepsFit_epochs fun _ _ hp _ => ⟨hp.deadlines, hp.period, hp.window⟩
    | exact keepsFit_count fun _ _ hp hn => ⟨hn, hp.period, hp.window⟩
    | exact keepsFit_epochs fun _ _ hp hn => ⟨hp.deadlines, hn, hp.window⟩
    | exact keepsFit_epochs fun _ _ hp hn => ⟨hp.deadlines, hp.period, hn⟩
    | exact List.forall_mem_nil _

theorem Fits.assign {name : String} {v : Toml.Value} {p' : Policy} (hp : p.Fits) (h : p.assign name v = some p') :
    p'.Fits := by
  unfold Policy.assign at h
  split at h
  · next hfind => exact keepsFit_of_mem _ (List.mem_of_find?_eq_some hfind) p _ p' hp h
  · cases h
  · exact Option.some.inj h ▸ hp

theorem fits_mainnet : mainnet.Fits := by
  constructor <;> decide

/-- The policy that a configuration document describes, before it is checked. -/
def described (text : String) : Option Policy := do
  let entries ← Toml.read? text
  entries.foldlM (fun p e => p.assign e.1 e.2) mainnet

/-- Fields that are out of range cannot be described. -/
theorem fits_of_described (h : described text = some p) : p.Fits := by
  obtain ⟨entries, -, hfold⟩ := Option.bind_eq_some_iff.1 h
  revert hfold
  suffices hall : ∀ q : Policy, q.Fits → entries.foldlM (fun p e => p.assign e.1 e.2) q = some p → p.Fits from
    hall mainnet fits_mainnet
  induction entries with
  | nil => exact fun q hq h => Option.some.inj h ▸ hq
  | cons e rest ih =>
    intro q hq h
    rw [List.foldlM_cons] at h
    obtain ⟨q', hset, hrest⟩ := Option.bind_eq_some_iff.1 h
    exact ih q' (hq.assign hset) hrest

/-- Reading is describing, then checking. -/
theorem ofToml_of_described (h : described text = some p) : ofToml text = (p.validate >>= fun _ => pure p) := by
  obtain ⟨entries, hread, hfold⟩ := Option.bind_eq_some_iff.1 h
  simp only [ofToml, hread, hfold]

/-- What describes no policy is refused. -/
theorem ofToml_of_undescribed (h : described text = none) : ofToml text = failed "failed to parse policy" := by
  unfold ofToml
  split
  · next entries hread =>
    have hfold : entries.foldlM (fun p e => p.assign e.1 e.2) mainnet = none := by
      rwa [described, hread] at h
    simp only [hfold]
  · rfl

theorem ofToml_eq_ok : ofToml text = .ok p ↔ described text = some p ∧ p.validate = .ok () := by
  cases h : described text with
  | none => rw [ofToml_of_undescribed h]; simp
  | some q =>
    rw [ofToml_of_described h, bind_eq_ok, Option.some.injEq]
    constructor
    · rintro ⟨_, hvalid, hpure⟩
      obtain rfl := pure_eq_ok.1 hpure
      exact ⟨rfl, hvalid⟩
    · rintro ⟨rfl, hvalid⟩
      exact ⟨(), hvalid, rfl⟩

theorem ofToml_eq_fault : ofToml text = .error .fault ↔ ∃ p, described text = some p ∧ p.validate = .error .fault := by
  cases h : described text with
  | none => rw [ofToml_of_undescribed h]; simp [failed]
  | some q =>
    rw [ofToml_of_described h]
    cases hvalid : q.validate with
    | ok _ => simp [hvalid]
    | error stop => simp [hvalid]

/-! ### Both together -/

/-- A policy whose fields are in range is accepted if and only if its windows tile its period or its deadline count wraps,
in which case the period is negative. Checking it is a fault if and only if the product of deadline count and window is
out of range. The same goes for the policy that a configuration document describes. -/
theorem validate_exact_but_for_words (hp : p.Fits) (text : String) :
    (p.validate = .ok () ↔ p.Tiles ∨ p.Wraps) ∧
      (p.validate = .error .fault ↔ p.Overflows) ∧
      (p.Tiles → 0 < p.period) ∧
      (p.Wraps → p.period < 0) ∧
      (∀ q, ofToml text = .ok q → q.Fits ∧ (q.Tiles ∨ q.Wraps)) ∧
      (ofToml text = .error .fault ↔ ∃ q, described text = some q ∧ q.Overflows) := by
  refine ⟨validate_eq_ok hp, validate_eq_fault, fun h => h.period_pos, fun h => h.period_neg hp, fun q h => ?_, ?_⟩
  · obtain ⟨hdescribed, hvalid⟩ := ofToml_eq_ok.1 h
    have hq : q.Fits := fits_of_described hdescribed
    exact ⟨hq, (validate_eq_ok hq).1 hvalid⟩
  · simp only [ofToml_eq_fault, validate_eq_fault]

/-- As many windows as there are counts but forty-eight, and a proving period of minus forty-eight windows. -/
def backwards : Policy := { mainnet with deadlines := 18446744073709551568, period := -2880 }

/-- A quarter of all epochs as deadlines, in windows of four epochs. -/
def endless : Policy := { mainnet with deadlines := 4611686018427387904, window := 4 }

/-- The first is accepted, the second is a fault, also if a document describes it. The main network's policy is neither. -/
theorem validate_of_backwards_and_endless :
    (backwards.Fits ∧ backwards.validate = .ok () ∧ ¬backwards.Tiles) ∧
      (endless.Fits ∧ endless.validate = .error .fault) ∧
      ofToml "wpost_period_deadlines = 4611686018427387904\nwpost_challenge_window = 4" = .error .fault ∧
      (mainnet.Fits ∧ mainnet.validate = .ok () ∧ mainnet.Tiles) := by
  have hbackwards : backwards.Fits := by constructor <;> decide
  have hendless : endless.Fits := by constructor <;> decide
  have hover : endless.Overflows := by constructor <;> decide
  have hmainnet : mainnet.Tiles := by constructor <;> decide
  obtain ⟨hok, -, htiles, hwraps, -⟩ := validate_exact_but_for_words hbackwards ""
  obtain ⟨-, hfault, -, -, -, hdocument⟩ := validate_exact_but_for_words hendless
    "wpost_period_deadlines = 4611686018427387904\nwpost_challenge_window = 4"
  have hwrap : backwards.Wraps := by constructor <;> decide
  refine ⟨⟨hbackwards, hok.2 (.inr hwrap), fun h => (htiles h).not_gt (hwraps hwrap)⟩, ⟨hendless, hfault.2 hover⟩,
    hdocument.2 ⟨endless, by decide +kernel, hover⟩, fits_mainnet, ?_, hmainnet⟩
  exact (validate_exact_but_for_words fits_mainnet "").1.2 (.inl hmainnet)

end SectorLedger.Policy
