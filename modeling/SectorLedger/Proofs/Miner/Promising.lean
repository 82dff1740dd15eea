import SectorLedger.Miner.Funds
import SectorLedger.Miner.Sectors
import SectorLedger.Proofs.NumberQueue

/-!
# Promises, one operation at a time

A promise uses its number up, is recorded under it, and is listed in a queue under the epoch at which it expires. The
queue is not told when a promise is kept, so what leaves it has to be looked up.

* `allocate_spec`, `putPrecommit_spec` and their like: what an operation that succeeds has found and done.
* `expirePrecommits_eq`: the promises that are listed in time leave together with their deposits.
-/

namespace SectorLedger.MinerState

variable {policy : Policy} {m m' : MinerState} {n : Nat} {p : Precommit} {ps : SparseArray Precommit}

@[simp] theorem loadAllocated_eq_ok {used : NumberSet} : m.loadAllocated = .ok used ↔ m.allocated = .held used := by
  rw [loadAllocated, refusing_eq_ok, Stored.fetch_eq_ok]

@[simp] theorem loadPrecommits_eq_ok : m.loadPrecommits = .ok ps ↔ m.precommits = .held ps := by
  rw [loadPrecommits, noting_eq_ok, Stored.load_eq_ok]

theorem allocate_spec (h : m.allocate n = .ok m') : ∃ used, m.allocated = .held used ∧ n ∉ used ∧
    m' = { m with allocated := .held (used ∪ NumberSet.singleton n) } := by
  simp only [allocate, refused_bind, ite_refused_eq_ok, bind_eq_ok, loadAllocated_eq_ok, pure_eq_ok] at h
  obtain ⟨-, used, hused, hnew, rfl⟩ := h
  exact ⟨used, hused, hnew, rfl⟩

theorem maskNumbers_spec {numbers : NumberSet} (h : m.maskNumbers numbers = .ok m') : ∃ used,
    m.allocated = .held used ∧ m' = { m with allocated := .held (used ∪ numbers) } := by
  unfold maskNumbers at h
  split at h
  · simp only [refused_bind, ite_refused_eq_ok, bind_eq_ok, loadAllocated_eq_ok, pure_eq_ok] at h
    obtain ⟨-, used, hused, rfl⟩ := h
    exact ⟨used, hused, rfl⟩
  · exact absurd h refused_ne_ok

theorem putPrecommit_spec (h : m.putPrecommit p = .ok m') : ∃ ps, m.precommits = .held ps ∧ ps.get? p.number = none ∧
    m' = { m with precommits := .held (ps.insert p.number p) } := by
  simp only [putPrecommit, refused_bind, bind_eq_ok, loadPrecommits_eq_ok, ite_refused_eq_ok, pure_eq_ok,
    Option.not_isSome_iff_eq_none] at h
  obtain ⟨ps, hps, hnone, rfl⟩ := h
  exact ⟨ps, hps, hnone, rfl⟩

theorem addPrecommitExpiry_spec {epoch : Int} (h : m.addPrecommitExpiry policy epoch n = .ok m') : ∃ q q',
    m.precommitExpiry = .held q ∧ NumberQueue.addValues (m.everyDeadlineGrid policy) q epoch [n] = .ok q' ∧
    m' = { m with precommitExpiry := .held q' } := by
  simp only [addPrecommitExpiry, bind_eq_ok, noting_eq_ok, Stored.load_eq_ok, pure_eq_ok] at h
  obtain ⟨q, hq, q', hadd, rfl⟩ := h
  exact ⟨q, q', hq, hadd, rfl⟩

theorem addPrecommitDeposit_spec {amount : Int} (h : m.addPrecommitDeposit amount = .ok m') :
    m' = { m with precommitDeposits := m.precommitDeposits + amount } := by
  simp only [addPrecommitDeposit, failed_bind, ite_failed_eq_ok, pure_eq_ok] at h
  exact h.2.symm

theorem deletePrecommit_spec (h : m.deletePrecommits [n] = .ok m') : ∃ ps p, m.precommits = .held ps ∧
    ps.get? n = some p ∧ m' = { m with precommits := .held (ps.erase n) } := by
  simp only [deletePrecommits, bind_eq_ok, loadPrecommits_eq_ok, pure_eq_ok, foldOutcome_cons, foldOutcome_nil,
    Except.ok.injEq] at h
  obtain ⟨ps, hps, _, ⟨_, hone, rfl⟩, rfl⟩ := h
  split at hone
  · next hsome =>
    obtain ⟨p, hp⟩ := Option.isSome_iff_exists.1 hsome
    exact ⟨ps, p, hps, hp, by rw [Except.ok.inj hone]⟩
  · exact absurd hone refused_ne_ok

/-! ### What expires -/

/-- Several promises that are there can be removed together. -/
theorem deletePrecommits_eq (hps : m.precommits = .held ps) {ns : List Nat} (hnd : ns.Nodup)
    (hall : ∀ n ∈ ns, (ps.get? n).isSome = true) :
    m.deletePrecommits ns = .ok { m with precommits := .held (ps.eraseAll ns) } := by
  have hwalk : ∀ (ns : List Nat) (ps : SparseArray Precommit), ns.Nodup → (∀ n ∈ ns, (ps.get? n).isSome = true) →
      foldOutcome (fun ps n => if (ps.get? n).isSome then Except.ok (ps.erase n)
        else refused .notFound s!"no precommitment for sector {n} to delete") ps ns = .ok (ps.eraseAll ns) := by
    intro ns
    induction ns with
    | nil => exact fun ps _ _ => rfl
    | cons n ns ih =>
      intro ps hnd hall
      obtain ⟨hn, hnd⟩ := List.nodup_cons.1 hnd
      rw [foldOutcome_cons, if_pos (hall n List.mem_cons_self)]
      refine ih (ps.erase n) hnd fun k hk => ?_
      rw [SparseArray.get?_erase, if_neg fun (he : k = n) => hn (he ▸ hk)]
      exact hall k (List.mem_cons_of_mem n hk)
  rw [deletePrecommits, loadPrecommits_eq_ok.2 hps, ok_bind, hwalk ns ps hnd hall]
  rfl

/-- The deposits of the listed numbers that have a promise add up, and these numbers are collected. -/
theorem foldOutcome_expirePrecommit (hps : m.precommits = .held ps) (ns : List Nat) (burn : Int) (expired : List Nat) :
    foldOutcome (expirePrecommit m) (burn, expired) ns =
      .ok (burn + ps.totalAt (·.deposit) ns, expired ++ ns.filter fun n => (ps.get? n).isSome) := by
  have hfind : ∀ n, m.findPrecommit n = .ok (ps.get? n) := fun n => by
    rw [findPrecommit, loadPrecommits_eq_ok.2 hps, ok_bind]
    rfl
  induction ns generalizing burn expired with
  | nil => simp [SparseArray.totalAt]
  | cons n ns ih =>
    rw [foldOutcome_cons, expirePrecommit, hfind, ok_bind, SparseArray.totalAt_cons, List.filter_cons]
    cases hn : ps.get? n with
    | none =>
      show foldOutcome (expirePrecommit m) (burn, expired) ns = _
      rw [ih]
      simp
    | some p =>
      show foldOutcome (expirePrecommit m) (burn + p.deposit, expired ++ [n]) ns = _
      rw [ih]
      simp [add_assoc]

/-- The listed numbers leave the promises; those that have none do not matter. -/
theorem eraseAll_filter_isSome (ps : SparseArray Precommit) (ns : List Nat) :
    ps.eraseAll (ns.filter fun n => (ps.get? n).isSome) = ps.eraseAll ns := by
  refine SparseArray.ext fun k => ?_
  rw [SparseArray.get?_eraseAll, SparseArray.get?_eraseAll]
  simp only [List.mem_filter]
  cases hk : ps.get? k <;> simp

/-- **The promises that are listed in time leave with their deposits**, if the deposits are kept right. -/
theorem expirePrecommits_eq {q q' : NumberQueue} {numbers : NumberSet} {modified : Bool} {now : Int}
    (hps : m.precommits = .held ps) (hq : m.precommitExpiry = .held q) (hbounded : q.Bounded)
    (hdeposits : m.precommitDeposits = ps.total (·.deposit)) (hnonneg : ∀ n p, ps.get? n = some p → 0 ≤ p.deposit)
    (hpop : q.popUntil now = (q', numbers, modified)) :
    m.expirePrecommits now = .ok ({ m with
      precommits := .held (ps.eraseAll numbers.elements), precommitExpiry := .held q'
      precommitDeposits := (ps.eraseAll numbers.elements).total (·.deposit) },
      ps.totalAt (·.deposit) numbers.elements) := by
  have hqueue : (if modified then { m with precommitExpiry := .held q' } else m) =
      { m with precommitExpiry := .held q' } := by
    cases hmodified : modified with
    | true => rfl
    | false =>
      obtain ⟨rfl, -⟩ := (NumberQueue.popUntil_spec hbounded hpop).2.2.2 hmodified
      rw [← hq]
      rfl
  have hfold := foldOutcome_expirePrecommit (m := { m with precommitExpiry := .held q' }) hps numbers.elements 0 []
  rw [zero_add, List.nil_append, ← NumberSet.foldMembers_eq] at hfold
  have hdelete : (if (numbers.elements.filter fun n => (ps.get? n).isSome).isEmpty
      then pure { m with precommitExpiry := .held q' }
      else deletePrecommits { m with precommitExpiry := .held q' }
        (numbers.elements.filter fun n => (ps.get? n).isSome)) =
      .ok { m with precommitExpiry := .held q', precommits := .held (ps.eraseAll numbers.elements) } := by
    rw [← eraseAll_filter_isSome]
    split
    · next hempty =>
      rw [List.isEmpty_iff.1 hempty]
      show Except.ok _ = Except.ok { m with precommitExpiry := .held q', precommits := .held ps }
      rw [← hps]
    · exact deletePrecommits_eq (m := { m with precommitExpiry := .held q' }) hps (numbers.nodup_elements.filter _)
        fun n hn => (List.mem_filter.1 hn).2
  have hrest : m.precommitDeposits - ps.totalAt (·.deposit) numbers.elements =
      (ps.eraseAll numbers.elements).total (·.deposit) := by
    rw [hdeposits, SparseArray.total_eraseAll _ _ numbers.nodup_elements]
  have hleft : 0 ≤ (ps.eraseAll numbers.elements).total (·.deposit) := by
    refine SparseArray.total_induction (fun _ _ => add_nonneg) le_rfl fun n p hp => ?_
    exact hnonneg n p (SparseArray.get?_eraseAll_eq_some.1 hp).2
  rw [expirePrecommits, bind_eq_ok]
  refine ⟨q, noting_eq_ok.2 (Stored.load_eq_ok.2 hq), ?_⟩
  rw [hpop]
  dsimp only
  rw [hqueue, bind_eq_ok]
  refine ⟨_, hfold, ite_bind_eq_ok.2 ⟨_, hdelete, ?_⟩⟩
  dsimp only
  rw [hrest, if_neg (not_lt.2 hleft)]
  rfl

end SectorLedger.MinerState
