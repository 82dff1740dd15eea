import SectorLedger.Proofs.Miner.Clock
import SectorLedger.Proofs.Miner.Promising

/-!
# The ledger of promises

The record of promises, the queue of their expirations, the set of used numbers and the total of the deposits are four
separate structures. A promise that is kept leaves its entry in the queue behind, and the grid of the queue moves with
the proving period. What keeps them together is that a number is used only once: whatever the queue lists under a number
is about the one promise that there ever was.

* `Event`: what happens to promises and numbers.
* `Transaction`: the operations on them; `commit` undoes one that fails.
* `Ledger`: the record agrees with all that has happened. `Ledger.promise`, `Ledger.depart`, `Ledger.mask` and
  `Ledger.of_same`: what an operation may do. `Ledger.commit`: each does one of these.
* `Ledger.prove`, `Ledger.burn`: the two ways to depart. `Ledger.expire`: what is due departs, and nothing else.
* `promises_settled_once`: any run of transactions.
-/

namespace SectorLedger

/-- What happens to promises and to sector numbers. -/
inductive Event where
  /-- A sector is promised, until the expiry. -/
  | promised (p : Precommit) (expiry : Int)
  /-- Numbers are used up. -/
  | masked (numbers : NumberSet)
  /-- A promise is kept by the proof of a number, and its deposit is free again. -/
  | released (p : Precommit) (n : Nat)
  /-- A promise has expired at an epoch, and its deposit is lost. -/
  | burnt (p : Precommit) (now : Int)
  deriving DecidableEq, Repr

namespace Event

/-- The event promises the sector of a number. -/
def Promises (n : Nat) : Event → Prop
  | promised p _ => p.number = n
  | _ => False

/-- The event uses a number. -/
def Uses (n : Nat) : Event → Prop
  | promised p _ => p.number = n
  | masked numbers => n ∈ numbers
  | _ => False

/-- What is promised. -/
def promised? : Event → Option Precommit
  | promised p _ => some p
  | _ => none

/-- What is released. -/
def released? : Event → Option Precommit
  | released p _ => some p
  | _ => none

/-- What is burnt. -/
def burnt? : Event → Option Precommit
  | burnt p _ => some p
  | _ => none

theorem Promises.uses {n : Nat} {e : Event} (h : e.Promises n) : e.Uses n := by
  cases e with
  | promised p expiry => exact h
  | masked numbers => exact h.elim
  | released p n => exact h
  | burnt p now => exact h

end Event

namespace MinerState

variable {policy : Policy} {m m' : MinerState} {log es : List Event} {ps ps' : SparseArray Precommit}
  {used : NumberSet} {q q' : NumberQueue} {n : Nat} {p : Precommit}

/-! ### Transactions -/

/-- The promises. Without contents there are none. -/
def promises (m : MinerState) : SparseArray Precommit :=
  match m.precommits with
  | .held ps => ps
  | .missing => ∅

/-- An operation on promises that is undone if a part of it fails. -/
inductive Transaction where
  /-- A sector is promised: its number is used up, the promise is recorded and listed, and the deposit is held back. -/
  | promise (p : Precommit) (expiry : Int)
  /-- A promise is kept. -/
  | prove (n : Nat)
  /-- Numbers are used up. -/
  | mask (numbers : NumberSet)
  /-- What has expired is removed. -/
  | expire (now : Int)
  /-- The window of a deadline closes. -/
  | advance (now : Int)

namespace Transaction

/-- Applies a transaction. -/
def apply (policy : Policy) (m : MinerState) : Transaction → Outcome MinerState
  | promise p expiry => do
    let m ← m.allocate p.number
    let m ← m.putPrecommit p
    let m ← m.addPrecommitExpiry policy expiry p.number
    m.addPrecommitDeposit p.deposit
  | prove n => do
    let kept ← m.findPrecommit n
    let m ← m.deletePrecommits [n]
    m.addPrecommitDeposit (-(kept.map (·.deposit)).getD 0)
  | mask numbers => m.maskNumbers numbers
  | expire now => (·.1) <$> m.expirePrecommits now
  | advance now => (·.1) <$> m.advanceDeadline policy now

/-- What has happened in a transaction, seen from the states before and after it. -/
def events (m m' : MinerState) : Transaction → List Event
  | promise p expiry => [.promised p expiry]
  | prove n => (SparseArray.departed m.promises m'.promises).map (.released · n)
  | mask numbers => [.masked numbers]
  | expire now => (SparseArray.departed m.promises m'.promises).map (.burnt · now)
  | advance _ => []

/-- No deposit is negative. -/
def Regular : Transaction → Prop
  | promise p _ => 0 ≤ p.deposit
  | _ => True

instance : (o : Transaction) → Decidable o.Regular
  | promise p _ => inferInstanceAs (Decidable (0 ≤ p.deposit))
  | prove _ | mask _ | expire _ | advance _ => .isTrue trivial

end Transaction

/-- Does a transaction and records what happened. A transaction that fails does nothing. -/
def commit (policy : Policy) (s : MinerState × List Event) (o : Transaction) : MinerState × List Event :=
  match o.apply policy s.1 with
  | .ok m' => (m', s.2 ++ o.events s.1 m')
  | .error _ => s

/-! ### The ledger -/

/-- The record agrees with all that has happened. -/
structure Ledger (policy : Policy) (m : MinerState) (log : List Event) (ps : SparseArray Precommit)
    (used : NumberSet) (q : NumberQueue) : Prop where
  /-- The promises. -/
  precommits_eq : m.precommits = .held ps
  /-- The used numbers. -/
  allocated_eq : m.allocated = .held used
  /-- The queue of expirations. -/
  expiry_eq : m.precommitExpiry = .held q
  /-- Its keys are epochs. -/
  bounded : q.Bounded
  /-- The deposits add up. -/
  deposits_eq : m.precommitDeposits = ps.total (·.deposit)
  /-- None is negative. -/
  nonneg : ∀ n p, ps.get? n = some p → 0 ≤ p.deposit
  /-- Promises are recorded under their numbers. -/
  keyed : ∀ n p, ps.get? n = some p → p.number = n
  /-- The used numbers are those that have been promised or masked. -/
  used_iff : ∀ n, n ∈ used ↔ ∃ e ∈ log, e.Uses n
  /-- No number is promised after it has been used. -/
  once : log.Pairwise fun e e' => ∀ n, e.Uses n → ¬e'.Promises n
  /-- A promise is listed under its expiry, rounded up. -/
  listed : ∀ n p, ps.get? n = some p → ∃ expiry, ∃ key : Nat, .promised p expiry ∈ log ∧
    (m.everyDeadlineGrid policy).IsUp expiry key ∧ n ∈ q.entry key
  /-- Nothing else has ever been listed. -/
  traced : ∀ (key : Nat) n, n ∈ q.entry key → ∃ p expiry, .promised p expiry ∈ log ∧ p.number = n ∧
    (m.everyDeadlineGrid policy).IsUp expiry key
  /-- A promise is there, or it is kept, or it has expired. -/
  settled : (log.filterMap Event.promised?).Perm
    (ps.values ++ log.filterMap Event.released? ++ log.filterMap Event.burnt?)
  /-- It is kept by the proof of its own number. -/
  proven : ∀ p n, .released p n ∈ log → p.number = n
  /-- It does not expire early. -/
  timely : ∀ p now, .burnt p now ∈ log → ∃ expiry, .promised p expiry ∈ log ∧ expiry ≤ now

/-- A new miner has nothing recorded. -/
theorem ledger_fresh (info : Stored MinerInfo) (periodStart : Int) (deadline : Nat) :
    Ledger policy (fresh policy info periodStart deadline) [] ∅ ∅ ∅ where
  precommits_eq := rfl
  allocated_eq := rfl
  expiry_eq := rfl
  bounded := NumberQueue.bounded_empty
  deposits_eq := rfl
  nonneg := nofun
  keyed := nofun
  used_iff n := by simp
  once := .nil
  listed := nofun
  traced key n h := absurd h (NumberSet.not_mem_empty n)
  settled := .refl _
  proven := nofun
  timely := nofun

/-- There is one promise for a number at most. -/
theorem eq_of_promised (h : log.Pairwise fun e e' => ∀ n, e.Uses n → ¬e'.Promises n) {p' : Precommit}
    {expiry expiry' : Int} (hp : .promised p expiry ∈ log) (hp' : .promised p' expiry' ∈ log)
    (hn : p.number = p'.number) : p = p' ∧ expiry = expiry' := by
  obtain ⟨i, hi, hpi⟩ := List.mem_iff_getElem.1 hp
  obtain ⟨j, hj, hpj⟩ := List.mem_iff_getElem.1 hp'
  rw [List.pairwise_iff_getElem] at h
  rcases lt_trichotomy i j with hlt | rfl | hgt
  · refine absurd ?_ (h i j hi hj hlt p.number (by rw [hpi]; exact rfl))
    rw [hpj]
    exact hn.symm
  · exact Event.promised.inj (hpi.symm.trans hpj)
  · refine absurd ?_ (h j i hj hi hgt p.number (by rw [hpj]; exact hn.symm))
    rw [hpi]
    exact rfl

/-- What is there and what has happened go on to agree, if what comes in is there or has left. -/
theorem settled_append
    (h : (log.filterMap Event.promised?).Perm
      (ps.values ++ log.filterMap Event.released? ++ log.filterMap Event.burnt?))
    (hbalance : (ps.values ++ es.filterMap Event.promised?).Perm
      (ps'.values ++ es.filterMap Event.released? ++ es.filterMap Event.burnt?)) :
    ((log ++ es).filterMap Event.promised?).Perm
      (ps'.values ++ (log ++ es).filterMap Event.released? ++ (log ++ es).filterMap Event.burnt?) := by
  simp only [← Multiset.coe_eq_coe, ← Multiset.coe_add, List.filterMap_append] at h hbalance ⊢
  rw [h, add_right_comm, add_right_comm (ps.values : Multiset Precommit), hbalance]
  abel

namespace Ledger

variable (h : Ledger policy m log ps used q)

include h

theorem promises_eq : m.promises = ps := by
  rw [promises, h.precommits_eq]

/-- Promises stay listed when more happens. -/
theorem listed_append (es : List Event) (hp : ps.get? n = some p) : ∃ expiry, ∃ key : Nat,
    .promised p expiry ∈ log ++ es ∧ (m.everyDeadlineGrid policy).IsUp expiry key ∧ n ∈ q.entry key := by
  obtain ⟨expiry, key, hlog, hlisted⟩ := h.listed n p hp
  exact ⟨expiry, key, List.mem_append_left es hlog, hlisted⟩

/-- What is listed stays traced to its promise. -/
theorem traced_append (es : List Event) {key : Nat} (hn : n ∈ q.entry key) : ∃ p expiry,
    .promised p expiry ∈ log ++ es ∧ p.number = n ∧ (m.everyDeadlineGrid policy).IsUp expiry key := by
  obtain ⟨p, expiry, hlog, htraced⟩ := h.traced key n hn
  exact ⟨p, expiry, List.mem_append_left es hlog, htraced⟩

/-- Nothing has expired early, if nothing does so now. -/
theorem timely_append (hes : ∀ p now, .burnt p now ∈ es → ∃ expiry, .promised p expiry ∈ log ∧ expiry ≤ now) {now : Int}
    (hp : .burnt p now ∈ log ++ es) : ∃ expiry, .promised p expiry ∈ log ++ es ∧ expiry ≤ now := by
  have hlate : ∃ expiry, .promised p expiry ∈ log ∧ expiry ≤ now := by
    rcases List.mem_append.1 hp with hp | hp
    · exact h.timely p now hp
    · exact hes p now hp
  obtain ⟨expiry, hlog, hle⟩ := hlate
  exact ⟨expiry, List.mem_append_left es hlog, hle⟩

/-- What does not touch the promises leaves the ledger alone, if the grid keeps its points. -/
theorem of_same (hgrid : (m.everyDeadlineGrid policy).Same (m'.everyDeadlineGrid policy))
    (hps : m'.precommits = m.precommits) (hused : m'.allocated = m.allocated)
    (hq : m'.precommitExpiry = m.precommitExpiry) (hdeposits : m'.precommitDeposits = m.precommitDeposits) :
    Ledger policy m' log ps used q :=
  { h with
    precommits_eq := hps.trans h.precommits_eq
    allocated_eq := hused.trans h.allocated_eq
    expiry_eq := hq.trans h.expiry_eq
    deposits_eq := hdeposits.trans h.deposits_eq
    listed n p hp := by
      obtain ⟨expiry, key, hlog, hup, hn⟩ := h.listed n p hp
      exact ⟨expiry, key, hlog, hgrid.isUp hup, hn⟩
    traced key n hn := by
      obtain ⟨p, expiry, hlog, hp, hup⟩ := h.traced key n hn
      exact ⟨p, expiry, hlog, hp, hgrid.isUp hup⟩ }

/-- More numbers are used. -/
theorem mask (numbers : NumberSet) : Ledger policy { m with allocated := .held (used ∪ numbers) }
    (log ++ [.masked numbers]) ps (used ∪ numbers) q :=
  { h with
    allocated_eq := rfl
    used_iff n := by
      simp only [NumberSet.mem_union, h.used_iff, List.mem_append, List.mem_singleton, or_and_right, exists_or,
        exists_eq_left]
      rfl
    once := List.pairwise_append.2 ⟨h.once, List.pairwise_singleton _ _, fun e _ e' he' n _ hn => by
      obtain rfl := List.mem_singleton.1 he'
      exact hn⟩
    listed n p hp := h.listed_append _ hp
    traced key n hn := h.traced_append _ hn
    settled := by
      refine settled_append h.settled ?_
      show (ps.values ++ []).Perm (ps.values ++ [] ++ [])
      rw [List.append_nil, List.append_nil]
    proven p n hp := h.proven p n (by simpa using hp)
    timely p now hp := h.timely_append (fun p now hp => by simp at hp) hp }

/-- A sector with an unused number is promised. -/
theorem promise {expiry : Int} (hwindow : 0 < policy.window) (hdeposit : 0 ≤ p.deposit) (hnew : p.number ∉ used)
    (hnone : ps.get? p.number = none)
    (hadd : NumberQueue.addValues (m.everyDeadlineGrid policy) q expiry [p.number] = .ok q') :
    Ledger policy { m with
      allocated := .held (used ∪ NumberSet.singleton p.number), precommits := .held (ps.insert p.number p)
      precommitExpiry := .held q', precommitDeposits := m.precommitDeposits + p.deposit }
      (log ++ [.promised p expiry]) (ps.insert p.number p) (used ∪ NumberSet.singleton p.number) q' where
  precommits_eq := rfl
  allocated_eq := rfl
  expiry_eq := rfl
  bounded := h.bounded.addValues hadd
  deposits_eq := by
    rw [SparseArray.total_insert, hnone, Option.map_none, Option.getD_none, sub_zero, ← h.deposits_eq]
  nonneg n p' hp' := by
    obtain ⟨-, rfl⟩ | ⟨-, hp'⟩ := SparseArray.get?_insert_eq_some.1 hp'
    · exact hdeposit
    · exact h.nonneg n p' hp'
  keyed n p' hp' := by
    obtain ⟨rfl, rfl⟩ | ⟨-, hp'⟩ := SparseArray.get?_insert_eq_some.1 hp'
    · rfl
    · exact h.keyed n p' hp'
  used_iff n := by
    simp only [NumberSet.mem_union, NumberSet.mem_singleton, h.used_iff, List.mem_append, List.mem_singleton,
      or_and_right, exists_or, exists_eq_left]
    exact or_congr_right eq_comm
  once := List.pairwise_append.2 ⟨h.once, List.pairwise_singleton _ _, fun e he e' he' n hn hn' => by
    obtain rfl := List.mem_singleton.1 he'
    obtain rfl : p.number = n := hn'
    exact hnew ((h.used_iff p.number).2 ⟨e, he, hn⟩)⟩
  listed n p' hp' := by
    obtain ⟨hn, rfl⟩ | ⟨-, hp'⟩ := SparseArray.get?_insert_eq_some.1 hp'
    · obtain ⟨key, hup⟩ := NumberQueue.key_of_addValues hadd List.mem_cons_self
      exact ⟨expiry, key, List.mem_append_right _ List.mem_cons_self, Grid.isUp_of_up hwindow hup,
        (NumberQueue.entry_addValues hadd key n).2 (.inr ⟨List.mem_singleton.2 hn, hup⟩)⟩
    · obtain ⟨expiry', key, hlog, hup, hn⟩ := h.listed_append [.promised p expiry] hp'
      exact ⟨expiry', key, hlog, hup, (NumberQueue.entry_addValues hadd key n).2 (.inl hn)⟩
  traced key n hn := by
    rcases (NumberQueue.entry_addValues hadd key n).1 hn with hn | ⟨hn, hup⟩
    · exact h.traced_append _ hn
    · exact ⟨p, expiry, List.mem_append_right _ List.mem_cons_self, (List.mem_singleton.1 hn).symm,
        Grid.isUp_of_up hwindow hup⟩
  settled := by
    refine settled_append h.settled ?_
    show (ps.values ++ [p]).Perm ((ps.insert p.number p).values ++ [] ++ [])
    rw [List.append_nil, List.append_nil]
    exact (List.perm_append_singleton p ps.values).trans (SparseArray.perm_values_insert hnone p).symm
  proven p' n hp' := h.proven p' n (by simpa using hp')
  timely p' now hp' := h.timely_append (fun p now hp => by simp at hp) hp'

/-- Promises leave with their deposits, and the queue keeps what it lists about the others. -/
theorem depart (hps : ∀ n p, ps'.get? n = some p → ps.get? n = some p) (hbounded : q'.Bounded)
    (hq : ∀ (key : Nat) n, n ∈ q'.entry key → n ∈ q.entry key)
    (hkept : ∀ n p, ps'.get? n = some p → ∀ key : Nat, n ∈ q.entry key → n ∈ q'.entry key)
    (hsilent : ∀ e ∈ es, e.promised? = none ∧ ∀ n, ¬e.Uses n)
    (hgone : es.filterMap Event.released? ++ es.filterMap Event.burnt? = SparseArray.departed ps ps')
    (hproven : ∀ p n, .released p n ∈ es → p.number = n)
    (htimely : ∀ p now, .burnt p now ∈ es → ∃ expiry, .promised p expiry ∈ log ∧ expiry ≤ now) :
    Ledger policy { m with
      precommits := .held ps', precommitExpiry := .held q', precommitDeposits := ps'.total (·.deposit) }
      (log ++ es) ps' used q' where
  precommits_eq := rfl
  allocated_eq := h.allocated_eq
  expiry_eq := rfl
  bounded := hbounded
  deposits_eq := rfl
  nonneg n p hp := h.nonneg n p (hps n p hp)
  keyed n p hp := h.keyed n p (hps n p hp)
  used_iff n := by
    rw [h.used_iff]
    constructor
    · rintro ⟨e, he, hn⟩
      exact ⟨e, List.mem_append_left _ he, hn⟩
    · rintro ⟨e, he, hn⟩
      rcases List.mem_append.1 he with he | he
      · exact ⟨e, he, hn⟩
      · exact absurd hn ((hsilent e he).2 n)
  once := by
    have hnot : ∀ e' ∈ es, ∀ n, ¬e'.Promises n := fun e' he' n hn => (hsilent e' he').2 n hn.uses
    refine List.pairwise_append.2 ⟨h.once, ?_, fun e _ e' he' n _ => hnot e' he' n⟩
    exact List.pairwise_of_forall_mem_list fun e _ e' he' n _ => hnot e' he' n
  listed n p hp := by
    obtain ⟨expiry, key, hlog, hup, hn⟩ := h.listed_append es (hps n p hp)
    exact ⟨expiry, key, hlog, hup, hkept n p hp key hn⟩
  traced key n hn := h.traced_append es (hq key n hn)
  settled := by
    have hnone : es.filterMap Event.promised? = [] := List.filterMap_eq_nil_iff.2 fun e he => (hsilent e he).1
    refine settled_append h.settled ?_
    rw [hnone, List.append_nil, List.append_assoc, hgone]
    exact SparseArray.perm_departed hps
  proven p n hp := (List.mem_append.1 hp).elim (h.proven p n) (hproven p n)
  timely p now hp := h.timely_append htimely hp

omit h in
/-- The events of promises that are kept by one proof. -/
theorem filterMap_released (l : List Precommit) (n : Nat) :
    (l.map (Event.released · n)).filterMap Event.released? ++ (l.map (Event.released · n)).filterMap Event.burnt? = l := by
  simp [List.filterMap_map, Function.comp_def, Event.released?, Event.burnt?]

omit h in
/-- The events of promises that expire together. -/
theorem filterMap_burnt (l : List Precommit) (now : Int) :
    (l.map (Event.burnt · now)).filterMap Event.released? ++ (l.map (Event.burnt · now)).filterMap Event.burnt? = l := by
  simp [List.filterMap_map, Function.comp_def, Event.released?, Event.burnt?]

/-- A promise is kept by the proof of its number. -/
theorem prove (n : Nat) : Ledger policy { m with
      precommits := .held (ps.erase n), precommitDeposits := (ps.erase n).total (·.deposit) }
    (log ++ (SparseArray.departed ps (ps.erase n)).map (.released · n)) (ps.erase n) used q := by
  have hdepart : Ledger policy { m with
      precommits := .held (ps.erase n), precommitExpiry := .held q
      precommitDeposits := (ps.erase n).total (·.deposit) }
      (log ++ (SparseArray.departed ps (ps.erase n)).map (.released · n)) (ps.erase n) used q := by
    refine h.depart (fun _ _ hp => (SparseArray.get?_erase_eq_some.1 hp).2) h.bounded (fun _ _ hn => hn)
      (fun _ _ _ _ hn => hn) ?silent (filterMap_released _ n) ?proven ?timely
    case silent =>
      intro e he
      obtain ⟨p', -, rfl⟩ := List.mem_map.1 he
      exact ⟨rfl, fun _ => id⟩
    case proven =>
      intro p' n' he
      obtain ⟨p'', hp'', heq⟩ := List.mem_map.1 he
      obtain ⟨rfl, rfl⟩ := Event.released.inj heq
      have hleft : p'' ∈ SparseArray.departed ps (ps.eraseAll [n]) := hp''
      obtain ⟨k, hk, hgone⟩ := SparseArray.mem_departed_eraseAll.1 hleft
      rw [h.keyed k p'' hgone, List.mem_singleton.1 hk]
    case timely =>
      intro p' now he
      obtain ⟨_, -, heq⟩ := List.mem_map.1 he
      cases heq
  rwa [← h.expiry_eq] at hdepart

/-- A number is listed under the expiry of its only promise. -/
theorem listed_by_iff (now : Int) {expiry due : Int} (hp : ps.get? n = some p) (hlog : .promised p expiry ∈ log)
    (hup : (m.everyDeadlineGrid policy).IsUp expiry due) :
    (∃ key : Nat, (key : Int) ≤ now ∧ n ∈ q.entry key) ↔ due ≤ now := by
  obtain ⟨expiry₁, key₁, hlog₁, hup₁, hlisted⟩ := h.listed n p hp
  obtain ⟨-, rfl⟩ := eq_of_promised h.once hlog hlog₁ rfl
  obtain rfl := hup.unique hup₁
  constructor
  · rintro ⟨key₂, hle, hn⟩
    obtain ⟨p₂, expiry₂, hlog₂, hp₂, hup₂⟩ := h.traced key₂ n hn
    obtain ⟨-, rfl⟩ := eq_of_promised h.once hlog hlog₂ ((h.keyed n p hp).trans hp₂.symm)
    exact (hup.unique hup₂).trans_le hle
  · exact fun hle => ⟨key₁, hle, hlisted⟩

section Popped

variable {now : Int} {numbers : NumberSet} {modified : Bool} (hpop : q.popUntil now = (q', numbers, modified))
include hpop

/-- What comes out of the queue is what is due, of the promises that are there. -/
theorem mem_popped_iff {expiry due : Int} (hp : ps.get? n = some p) (hlog : .promised p expiry ∈ log)
    (hup : (m.everyDeadlineGrid policy).IsUp expiry due) : n ∈ numbers ↔ due ≤ now := by
  obtain ⟨-, -, hnumbers, -⟩ := NumberQueue.popUntil_spec h.bounded hpop
  exact (hnumbers n).trans (h.listed_by_iff now hp hlog hup)

/-- The promises whose numbers come out of the queue are burnt. -/
theorem burn : Ledger policy { m with
      precommits := .held (ps.eraseAll numbers.elements), precommitExpiry := .held q'
      precommitDeposits := (ps.eraseAll numbers.elements).total (·.deposit) }
    (log ++ (SparseArray.departed ps (ps.eraseAll numbers.elements)).map (.burnt · now))
    (ps.eraseAll numbers.elements) used q' := by
  obtain ⟨hentry, hbounded, hnumbers, -⟩ := NumberQueue.popUntil_spec h.bounded hpop
  refine h.depart (fun _ _ hp => (SparseArray.get?_eraseAll_eq_some.1 hp).2) hbounded ?listed ?kept ?silent
    (filterMap_burnt _ now) ?proven ?timely
  case listed =>
    intro key n hn
    rw [hentry] at hn
    split at hn
    · exact absurd hn (NumberSet.not_mem_empty n)
    · exact hn
  case kept =>
    intro n p hp key hn
    have hout : n ∉ numbers := fun hin =>
      (SparseArray.get?_eraseAll_eq_some.1 hp).1 (NumberSet.mem_elements.2 hin)
    rw [hentry, if_neg fun hle => hout ((hnumbers n).2 ⟨key, hle, hn⟩)]
    exact hn
  case silent =>
    intro e he
    obtain ⟨p', -, rfl⟩ := List.mem_map.1 he
    exact ⟨rfl, fun _ => id⟩
  case proven =>
    intro p' n he
    obtain ⟨_, -, heq⟩ := List.mem_map.1 he
    cases heq
  case timely =>
    intro p' now' he
    obtain ⟨p, hp, heq⟩ := List.mem_map.1 he
    obtain ⟨rfl, rfl⟩ := Event.burnt.inj heq
    obtain ⟨n, hin, hn⟩ := SparseArray.mem_departed_eraseAll.1 hp
    obtain ⟨expiry, due, hlog, hup, -⟩ := h.listed n p hn
    exact ⟨expiry, hlog, hup.le.trans ((h.mem_popped_iff hpop hn hlog hup).1 (NumberSet.mem_elements.1 hin))⟩

/-- What is left are the promises that are not due. -/
theorem unburnt_iff : (ps.eraseAll numbers.elements).get? n = some p ↔ ps.get? n = some p ∧ ∃ expiry due,
    .promised p expiry ∈ log ∧ (m.everyDeadlineGrid policy).IsUp expiry due ∧ now < due := by
  rw [SparseArray.get?_eraseAll_eq_some, NumberSet.mem_elements]
  constructor
  · rintro ⟨hout, hp⟩
    obtain ⟨expiry, due, hlog, hup, -⟩ := h.listed n p hp
    exact ⟨hp, expiry, due, hlog, hup, not_le.1 fun hle => hout ((h.mem_popped_iff hpop hp hlog hup).2 hle)⟩
  · rintro ⟨hp, expiry, due, hlog, hup, hlt⟩
    exact ⟨fun hin => not_le.2 hlt ((h.mem_popped_iff hpop hp hlog hup).1 hin), hp⟩

end Popped

/-- **Exactly what is due expires**, and its deposits are what is burnt. -/
theorem expire (now : Int) : ∃ ps' q',
    m.expirePrecommits now = .ok ({ m with
      precommits := .held ps', precommitExpiry := .held q', precommitDeposits := ps'.total (·.deposit) },
      ((SparseArray.departed ps ps').map (·.deposit)).sum) ∧
    Ledger policy { m with
      precommits := .held ps', precommitExpiry := .held q', precommitDeposits := ps'.total (·.deposit) }
      (log ++ (SparseArray.departed ps ps').map (.burnt · now)) ps' used q' ∧
    ∀ n p, ps'.get? n = some p ↔ ps.get? n = some p ∧ ∃ expiry due, .promised p expiry ∈ log ∧
      (m.everyDeadlineGrid policy).IsUp expiry due ∧ now < due := by
  rcases hpop : q.popUntil now with ⟨q', numbers, modified⟩
  have hburnt : ps.totalAt (·.deposit) numbers.elements =
      ((SparseArray.departed ps (ps.eraseAll numbers.elements)).map (·.deposit)).sum := by
    rw [SparseArray.sum_departed _ fun n p hp => (SparseArray.get?_eraseAll_eq_some.1 hp).2,
      SparseArray.total_eraseAll _ _ numbers.nodup_elements, sub_sub_cancel]
  have hexpire := expirePrecommits_eq h.precommits_eq h.expiry_eq h.bounded h.deposits_eq h.nonneg hpop
  rw [hburnt] at hexpire
  exact ⟨ps.eraseAll numbers.elements, q', hexpire, h.burn hpop, fun n p => h.unburnt_iff hpop⟩

/-- A transaction that succeeds leaves a ledger of what has happened in it, too. -/
theorem apply (hpolicy : policy.validate = .ok ()) {o : Transaction} (ho : o.Regular) (hm : o.apply policy m = .ok m') :
    ∃ ps' used' q', Ledger policy m' (log ++ o.events m m') ps' used' q' := by
  obtain ⟨hwindow, hdvd⟩ := window_of_validate hpolicy
  cases o with
  | promise p expiry =>
    simp only [Transaction.apply, bind_eq_ok] at hm
    obtain ⟨m₁, hallocate, m₂, hput, m₃, hlist, hdeposit⟩ := hm
    obtain ⟨_, hused, hnew, rfl⟩ := allocate_spec hallocate
    obtain rfl := Stored.held.inj (h.allocated_eq.symm.trans hused)
    obtain ⟨_, hps, hnone, rfl⟩ := putPrecommit_spec hput
    obtain rfl := Stored.held.inj (h.precommits_eq.symm.trans hps)
    obtain ⟨_, q', hq, hadd, rfl⟩ := addPrecommitExpiry_spec hlist
    obtain rfl := Stored.held.inj (h.expiry_eq.symm.trans hq)
    obtain rfl := addPrecommitDeposit_spec hdeposit
    exact ⟨_, _, q', h.promise hwindow ho hnew hnone hadd⟩
  | prove n =>
    simp only [Transaction.apply, bind_eq_ok] at hm
    obtain ⟨kept, hfind, m₁, hdelete, hdeposit⟩ := hm
    obtain ⟨_, p, hps, hp, rfl⟩ := deletePrecommit_spec hdelete
    obtain rfl := Stored.held.inj (h.precommits_eq.symm.trans hps)
    obtain rfl := addPrecommitDeposit_spec hdeposit
    have hkept : kept = some p := by
      simp only [findPrecommit, bind_eq_ok, loadPrecommits_eq_ok, pure_eq_ok] at hfind
      obtain ⟨_, hps', rfl⟩ := hfind
      obtain rfl := Stored.held.inj (hps.symm.trans hps')
      exact hp
    have hprove := h.prove n
    rw [SparseArray.total_erase _ hp, ← h.deposits_eq, sub_eq_add_neg] at hprove
    rw [Transaction.events, h.promises_eq, hkept]
    exact ⟨_, _, q, hprove⟩
  | mask numbers =>
    obtain ⟨_, hused, rfl⟩ := maskNumbers_spec hm
    obtain rfl := Stored.held.inj (h.allocated_eq.symm.trans hused)
    exact ⟨_, _, q, h.mask numbers⟩
  | expire now =>
    obtain ⟨ps', q', hexpire, hledger, -⟩ := h.expire now
    obtain ⟨_, hok, rfl⟩ := map_eq_ok.1 hm
    obtain rfl := Except.ok.inj (hexpire.symm.trans hok)
    rw [Transaction.events, h.promises_eq]
    exact ⟨ps', _, q', hledger⟩
  | advance now =>
    obtain ⟨_, hadvance, rfl⟩ := map_eq_ok.1 hm
    have hgrid := same_of_advanceDeadline hdvd hadvance
    obtain ⟨_, _, _, _, _, _, _, _, -, heq, -⟩ := advanceDeadline_frame hadvance
    rw [Transaction.events, List.append_nil]
    exact ⟨_, _, _, h.of_same hgrid (by rw [heq]) (by rw [heq]) (by rw [heq]) (by rw [heq])⟩

/-- So does one that fails. -/
theorem commit (hpolicy : policy.validate = .ok ()) {o : Transaction} (ho : o.Regular) : ∃ ps' used' q',
    Ledger policy (MinerState.commit policy (m, log) o).1 (MinerState.commit policy (m, log) o).2 ps' used' q' := by
  unfold MinerState.commit
  split
  · next hm => exact h.apply hpolicy ho hm
  · exact ⟨ps, used, q, h⟩

/-- And so do any transactions. -/
theorem run (hpolicy : policy.validate = .ok ()) {os : List Transaction} (hos : ∀ o ∈ os, o.Regular) :
    ∃ ps' used' q', Ledger policy (os.foldl (MinerState.commit policy) (m, log)).1
      (os.foldl (MinerState.commit policy) (m, log)).2 ps' used' q' := by
  induction os generalizing m log ps used q with
  | nil => exact ⟨ps, used, q, h⟩
  | cons o os ih =>
    obtain ⟨_, _, _, hnext⟩ := h.commit hpolicy (hos o List.mem_cons_self)
    exact ih hnext fun o' ho' => hos o' (List.mem_cons_of_mem o ho')

/-- The numbers that have been promised are different. -/
theorem nodup_promised : ((log.filterMap Event.promised?).map (·.number)).Nodup := by
  refine List.pairwise_map.2 (h.once.filterMap _ fun e e' hee p hp p' hp' heq => ?_)
  cases e with
  | promised p₁ expiry =>
    obtain rfl := Option.some.inj hp
    cases e' with
    | promised p₂ expiry' =>
      obtain rfl := Option.some.inj hp'
      exact hee p₁.number rfl heq.symm
    | _ => cases hp'
  | _ => cases hp

end Ledger

variable {info : Stored MinerInfo} {periodStart : Int} {deadline : Nat} {os : List Transaction}

/-- **A promise is settled once.** Whatever transactions are done on a new miner, the deposits are those of the promises
on record, whose numbers are used and listed under their expiry. No number is promised twice, or after it is masked.
At any time exactly the promises that are due can be removed, and what is burnt are their deposits. Every promise is
still there, or was released by the proof of its number, or was burnt not before it expired; and no two of these. -/
theorem promises_settled_once (hpolicy : policy.validate = .ok ()) (hos : ∀ o ∈ os, o.Regular)
    (hrun : os.foldl (commit policy) (fresh policy info periodStart deadline, []) = (m, log)) :
    ∃ ps used q, m.precommits = .held ps ∧ m.allocated = .held used ∧ m.precommitExpiry = .held q ∧
    m.precommitDeposits = ps.total (·.deposit) ∧
    (∀ n p, ps.get? n = some p → n ∈ used ∧ ∃ expiry, ∃ key : Nat, .promised p expiry ∈ log ∧
      (m.everyDeadlineGrid policy).IsUp expiry key ∧ n ∈ q.entry key) ∧
    (log.Pairwise fun e e' => ∀ n, e.Uses n → ¬e'.Promises n) ∧
    (∀ now, ∃ m' ps', m.expirePrecommits now = .ok (m', ((SparseArray.departed ps ps').map (·.deposit)).sum) ∧
      m'.precommits = .held ps' ∧ ∀ n p, ps'.get? n = some p ↔ ps.get? n = some p ∧ ∃ expiry due,
        .promised p expiry ∈ log ∧ (m.everyDeadlineGrid policy).IsUp expiry due ∧ now < due) ∧
    (log.filterMap Event.promised?).Perm
      (ps.values ++ log.filterMap Event.released? ++ log.filterMap Event.burnt?) ∧
    ((log.filterMap Event.promised?).map (·.number)).Nodup ∧
    (∀ p n, .released p n ∈ log → p.number = n) ∧
    ∀ p now, .burnt p now ∈ log → ∃ expiry, .promised p expiry ∈ log ∧ expiry ≤ now := by
  obtain ⟨ps, used, q, h⟩ := (ledger_fresh info periodStart deadline).run hpolicy hos
  rw [hrun] at h
  refine ⟨ps, used, q, h.precommits_eq, h.allocated_eq, h.expiry_eq, h.deposits_eq, fun n p hp => ?_, h.once,
    fun now => ?_, h.settled, h.nodup_promised, h.proven, h.timely⟩
  · obtain ⟨expiry, key, hlog, hup, hlisted⟩ := h.listed n p hp
    exact ⟨(h.used_iff n).2 ⟨_, hlog, h.keyed n p hp⟩, expiry, key, hlog, hup, hlisted⟩
  · obtain ⟨ps', q', hexpire, -, hexactly⟩ := h.expire now
    exact ⟨_, ps', hexpire, rfl, hexactly⟩

/-- Three sectors are promised and a number is masked. One promise is kept, one expires after the next period has
started, and one stays. Used numbers are tried again in between. -/
def sampleTransactions : List Transaction :=
  [.promise { number := 1, deposit := 3 } 4, .promise { number := 2, deposit := 5 } 9, .mask (.ofList [7]),
    .promise { number := 7, deposit := 1 } 9, .prove 1, .prove 1, .promise { number := 1, deposit := 3 } 4, .advance 2,
    .promise { number := 3, deposit := 4 } 14, .expire 12, .expire 13, .promise { number := 2, deposit := 5 } 30]

/-- The kept promise does not expire, though it is still listed. The last promise can be burnt from the epoch 18 on. -/
theorem settled_of_sampleTransactions : ∃ m log ps used q,
    sampleTransactions.foldl (commit twoWindows) (lateMiner, []) = (m, log) ∧
    log = [.promised { number := 1, deposit := 3 } 4, .promised { number := 2, deposit := 5 } 9,
      .masked (.ofList [7]), .released { number := 1, deposit := 3 } 1, .promised { number := 3, deposit := 4 } 14,
      .burnt { number := 2, deposit := 5 } 13] ∧
    m.periodStart = 3 ∧ m.precommits = .held ps ∧ m.allocated = .held used ∧ m.precommitExpiry = .held q ∧
    ps = .ofEntries [(3, { number := 3, deposit := 4 })] ∧ m.precommitDeposits = ps.total (·.deposit) ∧
    (log.filterMap Event.promised?).Perm
      (ps.values ++ log.filterMap Event.released? ++ log.filterMap Event.burnt?) ∧
    ((log.filterMap Event.promised?).map (·.number)).Nodup ∧
    (m.expirePrecommits 17).map (·.2) = .ok 0 ∧ (m.expirePrecommits 18).map (·.2) = .ok 4 := by
  have hrun : (fun s : MinerState × List Event => (s.2, s.1.periodStart, s.1.precommits,
      (s.1.expirePrecommits 17).map (·.2), (s.1.expirePrecommits 18).map (·.2)))
      (sampleTransactions.foldl (commit twoWindows) (lateMiner, [])) =
      ([.promised { number := 1, deposit := 3 } 4, .promised { number := 2, deposit := 5 } 9, .masked (.ofList [7]),
        .released { number := 1, deposit := 3 } 1, .promised { number := 3, deposit := 4 } 14,
        .burnt { number := 2, deposit := 5 } 13], 3, .held (.ofEntries [(3, { number := 3, deposit := 4 })]), .ok 0,
        .ok 4) := by decide +kernel
  rcases hfold : sampleTransactions.foldl (commit twoWindows) (lateMiner, []) with ⟨m, log⟩
  rw [hfold] at hrun
  simp only [Prod.mk.injEq] at hrun
  obtain ⟨hlog, hstart, hheld, hearly, hlate⟩ := hrun
  obtain ⟨ps, used, q, hps, hused, hq, hdeposits, -, -, -, hsettled, hnodup, -⟩ :=
    promises_settled_once (by decide : twoWindows.validate = .ok ())
      (by decide : ∀ o ∈ sampleTransactions, o.Regular) hfold
  exact ⟨m, log, ps, used, q, rfl, hlog, hstart, hps, hused, hq, Stored.held.inj (hps.symm.trans hheld), hdeposits,
    hsettled, hnodup, hearly, hlate⟩

end MinerState

end SectorLedger
