import SectorLedger.Expiration.Set
import SectorLedger.Proofs.Power

/-!
# Exact entries

An entry of an expiration queue keeps totals beside its sectors. It is exact, for a given set of faulty
sectors, if its totals are the sums over its sectors: the pledge over those on time, the active power over
those that are not faulty, the faulty power over those that are. Each lemma below is one way in which the
operations of the queue change an entry, and says under which set of faulty sectors the result is exact.

* `ExpirationSet.Exact`: the specification.
* `Exact.merge`, `Exact.remove`: sectors come and go with their totals.
* `Exact.stay`, `Exact.leave`, `Exact.collapse`, `Exact.recover`, `Exact.removeFaulty`: sectors become
  faulty, recover, or end while they are faulty.
-/

namespace SectorLedger.ExpirationSet

open NumberSet

/-- All sectors of an entry. -/
def members (e : ExpirationSet) : NumberSet := e.onTime ∪ e.early

variable (size : SectorSize) (table : SectorTable)

/-- The totals of an entry are the sums over its sectors, when exactly the sectors of `faults` are faulty. -/
structure Exact (faults : NumberSet) (e : ExpirationSet) : Prop where
  /-- No sector is both on time and early. -/
  apart : ∀ n ∈ e.onTime, n ∉ e.early
  /-- Early sectors are faulty. -/
  early_faulty : ∀ n ∈ e.early, n ∈ faults
  /-- The pledge of the on-time sectors. -/
  pledge_eq : e.pledge = e.onTime.total table.pledgeAt
  /-- The power of the sectors that are not faulty. -/
  active_eq : e.active = (e.members \ faults).total (table.powerAt size)
  /-- The power of the sectors that are. -/
  faulty_eq : e.faulty = (e.members ∩ faults).total (table.powerAt size)

variable {size table} {faults faults' : NumberSet} {e e' : ExpirationSet} {ns ms : NumberSet}

@[simp, grind =] theorem mem_members {n : Nat} : n ∈ e.members ↔ n ∈ e.onTime ∨ n ∈ e.early := mem_union

@[simp] theorem members_empty : members ∅ = ∅ :=
  eq_empty_iff.2 fun n hn => (mem_members.1 hn).elim (not_mem_empty n) (not_mem_empty n)

@[simp] theorem members_of_onTime {p : Power} {x : Int} : members { onTime := ns, active := p, pledge := x } = ns := by
  ext n
  simp

@[simp] theorem members_of_early {p : Power} : members { early := ns, faulty := p } = ns := by
  ext n
  simp

theorem members_merge (e e' : ExpirationSet) : (e.merge e').members = e.members ∪ e'.members := by
  ext n
  simp only [mem_members, merge, mem_union]
  tauto

theorem isEmpty_iff : e.isEmpty = true ↔ e.members = ∅ := by
  rw [isEmpty, Bool.and_eq_true, NumberSet.isEmpty_iff, NumberSet.isEmpty_iff]
  simp only [eq_empty_iff, mem_members, not_or, forall_and]

theorem isEmpty_eq_false_iff : e.isEmpty = false ↔ ∃ n, n ∈ e.members := by
  rw [← Bool.not_eq_true, isEmpty_iff, eq_empty_iff]
  push Not
  rfl

theorem exact_empty : Exact size table faults ∅ :=
  ⟨fun n hn => absurd hn (not_mem_empty n), fun n hn => absurd hn (not_mem_empty n), rfl,
    by rw [members_empty, empty_sdiff]; rfl, by rw [members_empty, empty_inter]; rfl⟩

/-! ### Checks -/

theorem validate_eq_ok {u : Unit} : e.validate = .ok u ↔ 0 ≤ e.pledge ∧ e.active.Nonneg ∧ e.faulty.Nonneg := by
  unfold validate negativeTotal?
  simp only [Power.Nonneg]
  split
  · next h =>
    simp only [refused_ne_ok, false_iff]
    grind
  · next h =>
    simp only [true_iff]
    grind

theorem add_eq_ok {sum : ExpirationSet} : e.add e' = .ok sum ↔ (e.merge e').validate = .ok () ∧ e.merge e' = sum := by
  simp only [add, bind_eq_ok, pure_eq_ok]
  constructor
  · rintro ⟨_, hvalid, rfl⟩
    exact ⟨hvalid, rfl⟩
  · rintro ⟨hvalid, rfl⟩
    exact ⟨(), hvalid, rfl⟩

/-- Sectors can be removed if they are there, and if what is left passes the check. -/
theorem remove_eq_ok {removed rest : ExpirationSet} : e.remove removed = .ok rest ↔
    (∀ n ∈ removed.onTime, n ∈ e.onTime) ∧ (∀ n ∈ removed.early, n ∈ e.early) ∧ rest.validate = .ok () ∧
      rest = ⟨e.onTime \ removed.onTime, e.early \ removed.early, e.pledge - removed.pledge,
        e.active - removed.active, e.faulty - removed.faulty⟩ := by
  simp only [remove, refused_bind, ite_refused_eq_ok, bind_eq_ok, pure_eq_ok, Bool.not_eq_true',
    Bool.not_eq_false, containsAll_iff]
  constructor
  · rintro ⟨hon, hearly, -, -, _, hvalid, rfl⟩
    exact ⟨hon, hearly, hvalid, rfl⟩
  · rintro ⟨hon, hearly, hvalid, rfl⟩
    -- the checks for underflow are part of the check of the entry
    obtain ⟨hpledge, hactive, hfaulty⟩ := validate_eq_ok.1 hvalid
    exact ⟨hon, hearly, hpledge.not_gt, not_or.2 ⟨hactive.2.not_gt, hfaulty.2.not_gt⟩, (), hvalid, rfl⟩

/-- On-time sectors are removed with their totals. -/
theorem remove_onTime_eq_ok {rest : ExpirationSet} : e.remove
    { onTime := ns, active := ns.total (table.powerAt size), pledge := ns.total table.pledgeAt } = .ok rest ↔
      (∀ n ∈ ns, n ∈ e.onTime) ∧ rest.validate = .ok () ∧ rest = { e with
        onTime := e.onTime \ ns
        pledge := e.pledge - ns.total table.pledgeAt
        active := e.active - ns.total (table.powerAt size) } := by
  simp only [remove_eq_ok, sub_zero, sdiff_empty]
  exact and_congr_right fun _ => and_iff_right fun n hn => absurd hn (not_mem_empty n)

/-! ### Changes -/

namespace Exact

/-- An exact entry is determined by its sectors. -/
theorem eq_of_sets (h : Exact size table faults e) (h' : Exact size table faults e') (hon : e.onTime = e'.onTime)
    (hearly : e.early = e'.early) : e = e' := by
  have hmembers : e.members = e'.members := by rw [members, members, hon, hearly]
  have hp : e.pledge = e'.pledge := by rw [h.pledge_eq, h'.pledge_eq, hon]
  have ha : e.active = e'.active := by rw [h.active_eq, h'.active_eq, hmembers]
  have hf : e.faulty = e'.faulty := by rw [h.faulty_eq, h'.faulty_eq, hmembers]
  cases e
  cases e'
  simp only at hon hearly hp ha hf
  subst hon hearly hp ha hf
  rfl

/-- An exact entry without sectors has no totals either. -/
theorem eq_empty (h : Exact size table faults e) (he : e.members = ∅) : e = ∅ :=
  h.eq_of_sets exact_empty (eq_empty_iff.2 fun n hn => eq_empty_iff.1 he n (mem_members.2 (.inl hn)))
    (eq_empty_iff.2 fun n hn => eq_empty_iff.1 he n (mem_members.2 (.inr hn)))

/-- Only the sectors of the entry matter. -/
theorem congr (h : Exact size table faults e) (hf : ∀ n ∈ e.members, n ∈ faults ↔ n ∈ faults') :
    Exact size table faults' e where
  apart := h.apart
  early_faulty n hn := (hf n (mem_members.2 (.inr hn))).1 (h.early_faulty n hn)
  pledge_eq := h.pledge_eq
  active_eq := by
    rw [h.active_eq]
    refine total_congr_set _ fun n => ?_
    grind
  faulty_eq := by
    rw [h.faulty_eq]
    refine total_congr_set _ fun n => ?_
    grind

/-- Only what the table says of the sectors of the entry matters. -/
theorem of_records {table' : SectorTable} (h : Exact size table faults e)
    (hsame : ∀ n ∈ e.members, table'.get? n = table.get? n) : Exact size table' faults e where
  apart := h.apart
  early_faulty := h.early_faulty
  pledge_eq := by
    rw [h.pledge_eq]
    exact total_congr fun n hn => (SectorTable.pledgeAt_congr (hsame n (mem_members.2 (.inl hn)))).symm
  active_eq := by
    rw [h.active_eq]
    exact total_congr fun n hn => (SectorTable.powerAt_congr (hsame n (mem_sdiff.1 hn).1)).symm
  faulty_eq := by
    rw [h.faulty_eq]
    exact total_congr fun n hn => (SectorTable.powerAt_congr (hsame n (mem_inter.1 hn).1)).symm

/-- Without negative powers and pledges the totals are not negative. -/
theorem nonneg (h : Exact size table faults e) (hw : ∀ n ∈ e.members, (table.powerAt size n).Nonneg)
    (hp : ∀ n ∈ e.members, 0 ≤ table.pledgeAt n) : 0 ≤ e.pledge ∧ e.active.Nonneg ∧ e.faulty.Nonneg := by
  refine ⟨?_, ?_, ?_⟩
  · rw [h.pledge_eq]
    exact total_nonneg fun n hn => hp n (mem_members.2 (.inl hn))
  · rw [h.active_eq]
    exact nonneg_total fun n hn => hw n (mem_sdiff.1 hn).1
  · rw [h.faulty_eq]
    exact nonneg_total fun n hn => hw n (mem_inter.1 hn).1

/-- Sectors that are not in the entry come with their totals. -/
theorem merge (h : Exact size table faults e) (h' : Exact size table faults e')
    (hd : ∀ n ∈ e'.members, n ∉ e.members) : Exact size table faults (e.merge e') where
  apart n hn := by
    have := h.apart n
    have := h'.apart n
    have := hd n
    simp only [ExpirationSet.merge] at hn ⊢
    grind
  early_faulty n hn := (mem_union.1 hn).elim (h.early_faulty n) (h'.early_faulty n)
  pledge_eq := by
    simp only [ExpirationSet.merge]
    rw [h.pledge_eq, h'.pledge_eq, total_union _ fun n hn hn' => hd n (by grind) (by grind)]
  active_eq := by
    have hs : (e.merge e').members \ faults = (e.members \ faults) ∪ (e'.members \ faults) := by
      ext n
      simp only [members_merge, mem_sdiff, mem_union, or_and_right]
    rw [hs, total_union _ fun n hn hn' => hd n (mem_sdiff.1 hn').1 (mem_sdiff.1 hn).1, ← h.active_eq,
      ← h'.active_eq]
    rfl
  faulty_eq := by
    have hs : (e.merge e').members ∩ faults = (e.members ∩ faults) ∪ (e'.members ∩ faults) := by
      ext n
      simp only [members_merge, mem_inter, mem_union, or_and_right]
    rw [hs, total_union _ fun n hn hn' => hd n (mem_inter.1 hn').1 (mem_inter.1 hn).1, ← h.faulty_eq,
      ← h'.faulty_eq]
    rfl

/-- On-time sectors that are not faulty go, with their totals. -/
theorem remove (h : Exact size table faults e) (hn : ∀ n ∈ ns, n ∈ e.onTime) (hf : ∀ n ∈ ns, n ∉ faults) :
    Exact size table faults { e with
      onTime := e.onTime \ ns
      pledge := e.pledge - ns.total table.pledgeAt
      active := e.active - ns.total (table.powerAt size) } where
  apart n hn' := h.apart n (mem_sdiff.1 hn').1
  early_faulty := h.early_faulty
  pledge_eq := by rw [h.pledge_eq, total_sdiff _ hn]
  active_eq := by
    rw [h.active_eq, ← total_sdiff _ (by grind)]
    refine total_congr_set _ fun n => ?_
    have := h.apart n
    simp only [members]
    grind
  faulty_eq := by
    rw [h.faulty_eq]
    refine total_congr_set _ fun n => ?_
    simp only [members]
    grind

/-- On-time sectors become faulty and stay. -/
theorem stay (h : Exact size table faults e) (hn : ∀ n ∈ ns, n ∈ e.onTime) (hf : ∀ n ∈ ns, n ∉ faults) :
    Exact size table (faults ∪ ns) { e with
      active := e.active - ns.total (table.powerAt size)
      faulty := e.faulty + ns.total (table.powerAt size) } where
  apart := h.apart
  early_faulty n he := mem_union.2 (.inl (h.early_faulty n he))
  pledge_eq := h.pledge_eq
  active_eq := by
    rw [h.active_eq, ← total_sdiff _ (by grind)]
    refine total_congr_set _ fun n => ?_
    simp only [members]
    grind
  faulty_eq := by
    rw [h.faulty_eq, ← total_union _ (by grind)]
    refine total_congr_set _ fun n => ?_
    simp only [members]
    grind

/-- On-time sectors become faulty and leave for an early place elsewhere. -/
theorem leave (h : Exact size table faults e) (hn : ∀ n ∈ ns, n ∈ e.onTime) (hf : ∀ n ∈ ns, n ∉ faults) :
    Exact size table (faults ∪ ns) { e with
      onTime := e.onTime \ ns
      pledge := e.pledge - ns.total table.pledgeAt
      active := e.active - ns.total (table.powerAt size) } :=
  (h.remove hn hf).congr fun n hm => by
    have := h.apart n
    simp only [members] at hm
    grind

/-- The entry of sectors at early places. -/
theorem of_early (hn : ∀ n ∈ ns, n ∈ faults) :
    Exact size table faults { early := ns, faulty := ns.total (table.powerAt size) } where
  apart n hn := absurd hn (not_mem_empty n)
  early_faulty := hn
  pledge_eq := rfl
  active_eq := by
    rw [show members _ \ faults = ∅ by ext n; simp only [members]; grind]
    rfl
  faulty_eq := by
    refine total_congr_set _ fun n => ?_
    simp only [members]
    grind

/-- The entry of sectors that are on time and not faulty. -/
theorem of_onTime (hn : ∀ n ∈ ns, n ∉ faults) :
    Exact size table faults
      { onTime := ns, active := ns.total (table.powerAt size), pledge := ns.total table.pledgeAt } where
  apart n _ := not_mem_empty n
  early_faulty n hn := absurd hn (not_mem_empty n)
  pledge_eq := rfl
  active_eq := by
    refine total_congr_set _ fun n => ?_
    simp only [members]
    grind
  faulty_eq := by
    rw [show members _ ∩ faults = ∅ by ext n; simp only [members]; grind]
    rfl

/-- The entry of sectors that are faulty, on time or early. -/
theorem of_faulty (hn : ∀ n ∈ ns, n ∈ faults) (hm : ∀ n ∈ ms, n ∈ faults) (hd : ∀ n ∈ ns, n ∉ ms) :
    Exact size table faults
      { onTime := ns, early := ms, pledge := ns.total table.pledgeAt
        faulty := (ns ∪ ms).total (table.powerAt size) } where
  apart := hd
  early_faulty := hm
  pledge_eq := rfl
  active_eq := by
    rw [show members _ \ faults = ∅ by ext n; simp only [members]; grind]
    rfl
  faulty_eq := by
    refine total_congr_set _ fun n => ?_
    simp only [members]
    grind

/-- All power of an exact entry. -/
theorem active_add_faulty (h : Exact size table faults e) :
    e.active + e.faulty = e.members.total (table.powerAt size) := by
  rw [h.active_eq, h.faulty_eq, add_comm, total_inter_add_total_sdiff]

/-- All sectors of the entry become faulty where they are. -/
theorem collapse (h : Exact size table faults e) (hf : ∀ n ∈ e.members, n ∈ faults') :
    Exact size table faults' { e with active := 0, faulty := e.faulty + e.active } where
  apart := h.apart
  early_faulty n hn := hf n (mem_members.2 (.inr hn))
  pledge_eq := h.pledge_eq
  active_eq := by
    have : e.members \ faults' = ∅ := by ext n; grind
    exact (congrArg (total _) this).symm
  faulty_eq := by
    have hs : e.members ∩ faults' = e.members := by ext n; grind
    rw [add_comm, h.active_add_faulty]
    exact (congrArg (total _) hs).symm

/-- Faulty sectors recover: the on-time ones stay, the early ones leave. -/
theorem recover (h : Exact size table faults e) (hn : ∀ n ∈ ns, n ∈ e.onTime) (hm : ∀ n ∈ ms, n ∈ e.early)
    (hf : ∀ n ∈ ns, n ∈ faults) :
    Exact size table (faults \ (ns ∪ ms)) { e with
      early := e.early \ ms
      active := e.active + ns.total (table.powerAt size)
      faulty := e.faulty - (ns ∪ ms).total (table.powerAt size) } where
  apart n hn' := fun he => h.apart n hn' (mem_sdiff.1 he).1
  early_faulty n he := by
    have := h.apart n
    have := h.early_faulty n
    grind
  pledge_eq := h.pledge_eq
  active_eq := by
    rw [h.active_eq, ← total_union _ (by grind)]
    refine total_congr_set _ fun n => ?_
    have := h.apart n
    have := h.early_faulty n
    simp only [members]
    grind
  faulty_eq := by
    have hmf : ∀ n ∈ ms, n ∈ faults := fun n hn => h.early_faulty n (hm n hn)
    rw [h.faulty_eq, ← total_sdiff _ (by grind)]
    refine total_congr_set _ fun n => ?_
    have := h.apart n
    simp only [members]
    grind

/-- Faulty sectors end. -/
theorem removeFaulty (h : Exact size table faults e) (hn : ∀ n ∈ ns, n ∈ e.onTime) (hm : ∀ n ∈ ms, n ∈ e.early)
    (hf : ∀ n ∈ ns, n ∈ faults) :
    Exact size table faults { e with
      onTime := e.onTime \ ns
      early := e.early \ ms
      pledge := e.pledge - ns.total table.pledgeAt
      faulty := e.faulty - (ns ∪ ms).total (table.powerAt size) } where
  apart n hn' := fun he => h.apart n (mem_sdiff.1 hn').1 (mem_sdiff.1 he).1
  early_faulty n he := h.early_faulty n (mem_sdiff.1 he).1
  pledge_eq := by rw [h.pledge_eq, total_sdiff _ hn]
  active_eq := by
    have hmf : ∀ n ∈ ms, n ∈ faults := fun n hn => h.early_faulty n (hm n hn)
    rw [h.active_eq]
    refine total_congr_set _ fun n => ?_
    simp only [members]
    grind
  faulty_eq := by
    have hmf : ∀ n ∈ ms, n ∈ faults := fun n hn => h.early_faulty n (hm n hn)
    rw [h.faulty_eq, ← total_sdiff _ (by grind)]
    refine total_congr_set _ fun n => ?_
    have := h.apart n
    simp only [members]
    grind

end Exact

end SectorLedger.ExpirationSet
