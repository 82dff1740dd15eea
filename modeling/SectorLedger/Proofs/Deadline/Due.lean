import SectorLedger.Proofs.Deadline.Ending
import SectorLedger.Proofs.Partition.Closing

/-!
# What is due in a deadline can end

The partitions that are listed up to an epoch are asked for their due sectors. None of them refuses if it has nothing
to prove or to recover and no power and pledge is negative, and neither does the deadline.

* `Coherent.validate`: the check when a deadline is stored.
* `popExpired_total`: the end of what is due. The pledge that it releases is that of the sectors on time.
-/

namespace SectorLedger.Deadline

open SparseArray

variable {grid : Grid} {size : SectorSize} {table : SectorTable} {d d' : Deadline} {upTo : Int} {i : Nat}
  {p p' : Partition}

/-- Powers and pledges of the live sectors are not negative. -/
def Nonneg (size : SectorSize) (table : SectorTable) (d : Deadline) : Prop :=
  ∀ i p, d.parts.get? i = some p → p.Nonneg size table

instance : Decidable (d.Nonneg size table) :=
  decidable_of_iff (∀ e ∈ d.parts.entries, e.2.Nonneg size table)
    ⟨fun h i p hp => h (i, p) (mem_entries.2 hp), fun h e he => h e.1 e.2 (mem_entries.1 he)⟩

/-- Positions and counts fit into the machine's words. -/
def Fits (d : Deadline) : Prop := d.parts.count ≤ NumberSet.forbiddenMember ∧ d.total < Count.bound

instance : Decidable d.Fits := inferInstanceAs (Decidable (_ ∧ _))

/-- Nothing is left to prove or to recover. -/
def Idle (d : Deadline) : Prop := ∀ i p, d.parts.get? i = some p → p.unproven = ∅ ∧ p.recoveries = ∅

/-- The pledge of the sectors in some partitions that are on time up to an epoch. -/
def duePledgeIn (table : SectorTable) (upTo : Int) (ps : SparseArray Partition) : Int :=
  SparseArray.total (fun p => (p.dueOnTime upTo).total table.pledgeAt) ps

/-- The pledge of the sectors that are on time up to an epoch. -/
def duePledge (table : SectorTable) (upTo : Int) (d : Deadline) : Int := duePledgeIn table upTo d.parts

theorem le_greatestIndex (hfits : d.Fits) (hi : i < d.parts.count) : i ≤ greatestIndex :=
  NumberSet.lt_forbiddenMember_iff.1 (hi.trans_le hfits.1)

theorem Coherent.live_le_total (h : d.Coherent grid size table) : d.live ≤ d.total := by
  have := total_mono (a := d.parts) (f := fun p : Partition => (p.liveSectors.count : Int))
    (g := fun p : Partition => (p.sectors.count : Int)) fun i p _ => Int.ofNat_le.2 <|
      NumberSet.count_le_of_subset fun n hn => (Partition.mem_liveSectors.1 hn).1
  rw [← h.live_eq, ← h.total_eq] at this
  omega

/-- The check when a deadline is stored. -/
theorem Coherent.validate (h : d.Coherent grid size table) (hn : d.Nonneg size table) : d.validate = .ok () := by
  have hpower : d.faultyPower.Nonneg := by
    rw [h.faultyPower_eq]
    exact total_induction (fun _ _ => Power.Nonneg.add) Power.nonneg_zero fun i p hp =>
      (hn i p hp).faultyPower (h.sound i p hp)
  simp only [Deadline.validate, failed_bind, ite_failed_eq_ok, not_lt, not_or, gt_iff_lt, pure_eq_ok, and_true]
  exact ⟨h.live_le_total, hpower⟩

/-! ### One partition after the other -/

/-- How far the ending of due sectors has come, when nothing has stopped it. -/
structure EndingTo (grid : Grid) (size : SectorSize) (table : SectorTable) (d : Deadline) (upTo : Int)
    (done : List Nat) (x : Expiring) : Prop extends ExpiringTo grid size table d upTo done x where
  /-- Sectors end, and nothing else happens to a partition. -/
  ended : ∀ i p', x.partitions.get? i = some p' → ∃ p ns, d.parts.get? i = some p ∧ Partition.Ended ns p p' ∧
    p'.unproven = ∅ ∧ p'.recoveries = ∅
  /-- What has ended has no negative total. -/
  valid : x.expired.validate = .ok ()
  /-- Its pledge is not due any more. -/
  pledge_add : x.expired.pledge + duePledgeIn table upTo x.partitions = d.duePledge table upTo

theorem EndingTo.start (h : d.Coherent grid size table) (hidle : d.Idle) {ps : SparseArray Partition}
    (hps : d.partitions = .held ps) :
    EndingTo grid size table d upTo [] { partitions := ps, early := d.early } :=
  { ExpiringTo.start h hps with
    ended := fun i p hp => by
      rw [← parts_eq hps] at hp
      exact ⟨p, ∅, hp, .refl p, hidle i p hp⟩
    valid := rfl
    pledge_add := by
      rw [duePledge, parts_eq hps]
      exact zero_add _ }

/-- No power and pledge is negative. -/
theorem EndingTo.nonneg {done : List Nat} {x : Expiring} (h : EndingTo grid size table d upTo done x)
    (hn : d.Nonneg size table) (hp : x.partitions.get? i = some p') : p'.Nonneg size table := by
  obtain ⟨p, ns, hp₀, hended, -⟩ := h.ended i p' hp
  exact (hn i p hp₀).mono fun n hm => (NumberSet.mem_sdiff.1 (hended.liveSectors_eq ▸ hm)).1

/-- The due sectors of one more partition can end. -/
theorem EndingTo.step (hc : d.Coherent grid size table) (hn : d.Nonneg size table) (hfits : d.Fits) (h₀ : 0 ≤ upTo)
    (hr : Epoch.InRange upTo) {done : List Nat} {x : Expiring} (h : EndingTo grid size table d upTo done x)
    (hi : i ∉ done) (hlt : i < d.parts.count) :
    ∃ x', expirePartition upTo x i = .ok x' ∧ EndingTo grid size table d upTo (done ++ [i]) x' := by
  obtain ⟨p, hp⟩ := (h.occupied i).2 ((hc.packed i).2 hlt)
  obtain ⟨p₀, ns, hp₀, hended₀, hunproven, hrecoveries⟩ := h.ended i p hp
  have hs := h.coherent.sound i p hp
  have hnonneg := h.nonneg hn hp
  obtain ⟨p', popped, hpop⟩ := hs.popExpired_total hnonneg hunproven hrecoveries (h.coherent.early_held i p hp) h₀ hr
  obtain ⟨hs', hended, -, hexact, hon, hentry, hunproven', hrecoveries'⟩ := hs.popExpired hpop
  -- What leaves has no negative total, so the sum has none.
  have hpopped : popped.validate = .ok () := ExpirationSet.validate_eq_ok.2 <|
    hexact.nonneg (fun n hm => (hnonneg n (hended.live n hm)).1) fun n hm => (hnonneg n (hended.live n hm)).2
  obtain ⟨hpledge, hactive, hfaulty⟩ := ExpirationSet.validate_eq_ok.1 hpopped
  obtain ⟨hpledge₀, hactive₀, hfaulty₀⟩ := ExpirationSet.validate_eq_ok.1 h.valid
  have hvalid : (x.expired.merge popped).validate = .ok () := ExpirationSet.validate_eq_ok.2
    ⟨Int.add_nonneg hpledge₀ hpledge, hactive₀.add hactive, hfaulty₀.add hfaulty⟩
  have hindex := le_greatestIndex hfits hlt
  have hstep : expirePartition upTo x i = .ok {
      partitions := x.partitions.insert i p'
      early := if popped.early.isEmpty then x.early else x.early ∪ NumberSet.singleton i
      expired := x.expired.merge popped } := by
    simp only [expirePartition, bind_eq_ok, getPartition_eq_ok, noting_eq_ok, putPartition_eq_ok, pure_eq_ok,
      ExpirationSet.add_eq_ok]
    exact ⟨p, ⟨hindex, hp⟩, (p', popped), hpop, _, ⟨hvalid, rfl⟩, _, ⟨hindex, rfl⟩, rfl⟩
  refine ⟨_, hstep, { h.toExpiringTo.step hi hstep with
    ended := fun j p₁ hp₁ => ?_, valid := hvalid, pledge_add := ?_ }⟩
  · obtain ⟨hji, rfl⟩ | ⟨-, hp₁⟩ := get?_insert_eq_some.1 hp₁
    · exact ⟨p₀, _, hji ▸ hp₀, hended₀.trans hended, hunproven', hrecoveries'⟩
    · exact h.ended j p₁ hp₁
  · have hdue : p.dueOnTime upTo = popped.onTime := NumberSet.ext fun n => hs.mem_dueOnTime.trans (hon n).symm
    have hdue' : p'.dueOnTime upTo = ∅ := NumberSet.eq_empty_iff.2 fun n hm => by
      obtain ⟨k, hle, hk⟩ := hs'.mem_dueOnTime.1 hm
      rw [hentry, if_pos hle] at hk
      exact NumberSet.not_mem_empty n hk
    have hsum := h.pledge_add
    rw [duePledgeIn] at hsum
    rw [duePledgeIn, total_insert_of_get? _ hp, hdue, hdue', NumberSet.total_empty, ← hexact.pledge_eq]
    show x.expired.pledge + popped.pledge + _ = _
    omega

/-- The due sectors of some partitions can end. -/
theorem EndingTo.run (hc : d.Coherent grid size table) (hidle : d.Idle) (hn : d.Nonneg size table) (hfits : d.Fits)
    (h₀ : 0 ≤ upTo) (hr : Epoch.InRange upTo) {listed : NumberSet} (hlisted : ∀ i ∈ listed, i < d.parts.count) :
    ∃ x, foldOutcome (expirePartition upTo) { partitions := d.parts, early := d.early } listed.elements = .ok x ∧
      EndingTo grid size table d upTo listed.elements x :=
  foldOutcome_total (.start hc hidle hc.partitions_held) fun _ i _ _ hs hI =>
    hI.step hc hn hfits h₀ hr (NumberSet.not_mem_of_elements_eq hs) <|
      hlisted i (NumberSet.mem_elements.1 (hs ▸ List.mem_append_right _ List.mem_cons_self))

/-- The deadline when what is due has ended. -/
structure Emptied (grid : Grid) (size : SectorSize) (table : SectorTable) (upTo : Int) (d d' : Deadline)
    (e : ExpirationSet) : Prop where
  /-- The totals agree with the partitions. -/
  coherent : d'.Coherent grid size table
  /-- No power and pledge is negative. -/
  nonneg : d'.Nonneg size table
  /-- Sectors ended, and nothing else happened to a partition. -/
  ended : ∀ i p', d'.parts.get? i = some p' → ∃ p ns, d.parts.get? i = some p ∧ Partition.Ended ns p p' ∧
    p'.unproven = ∅ ∧ p'.recoveries = ∅
  /-- Nothing is due in a partition that was listed. -/
  settled : ∀ i (k : Nat), (k : Int) ≤ upTo → i ∈ d.queue.entry k → ∀ p, d'.parts.get? i = some p →
    ∀ (j : Nat) n, n ∈ (p.queue.entry j).members → upTo < j
  /-- The others are as before. -/
  others : ∀ i, (∀ k : Nat, (k : Int) ≤ upTo → i ∉ d.queue.entry k) → d'.parts.get? i = d.parts.get? i
  /-- Nothing is listed up to the epoch any more. -/
  forgotten : ∀ k : Nat, (k : Int) ≤ upTo → d'.queue.entry k = ∅
  /-- No more pledge is released than was due. -/
  pledge_le : e.pledge ≤ d.duePledge table upTo

/-- No pledge that is due is negative. -/
theorem duePledgeIn_nonneg {ps : SparseArray Partition} (hs : ∀ i p, ps.get? i = some p → p.Sound grid size table)
    (hn : ∀ i p, ps.get? i = some p → p.Nonneg size table) : 0 ≤ duePledgeIn table upTo ps := by
  refine total_induction (fun _ _ => Int.add_nonneg) le_rfl fun i p hp => NumberSet.total_nonneg fun n hm => ?_
  obtain ⟨k, -, hk⟩ := (hs i p hp).mem_dueOnTime.1 hm
  exact (hn i p hp n (((hs i p hp).live_iff n).2 ⟨k, ExpirationSet.mem_members.2 (.inl hk)⟩)).2

/-- What is due can end. -/
theorem popExpired_total (hc : d.Coherent grid size table) (hheld : d.expirations = .held d.queue)
    (hb : d.queue.Bounded) (hknown : ∀ k i, i ∈ d.queue.entry k → i < d.parts.count) (hn : d.Nonneg size table)
    (hfits : d.Fits) (hidle : d.Idle) (h₀ : 0 ≤ upTo) (hr : Epoch.InRange upTo) :
    ∃ d' e, d.popExpired upTo = .ok (d', e) ∧ Emptied grid size table upTo d d' e := by
  rcases hpop : d.queue.popUntil upTo with ⟨q', listed, modified⟩
  obtain ⟨hentry, -, hlisted, hsame⟩ := NumberQueue.popUntil_spec hb hpop
  have hforgotten : ∀ k : Nat, (k : Int) ≤ upTo → q'.entry k = ∅ := fun k hle => by rw [hentry, if_pos hle]
  cases modified with
  | false =>
    obtain ⟨rfl, -⟩ := hsame rfl
    refine ⟨d, ∅, ?_, ⟨hc, hn, fun i p hp => ⟨p, ∅, hp, .refl p, hidle i p hp⟩, fun i k hle hi => ?_, fun i _ => rfl,
      hforgotten, duePledgeIn_nonneg hc.sound hn⟩⟩
    · simp only [popExpired, popExpiredPartitions, bind_eq_ok, loadExpirations_eq_ok, pure_eq_ok]
      exact ⟨_, ⟨_, hheld, rfl⟩, by simp [hpop]⟩
    · rw [hforgotten k hle] at hi
      exact absurd hi (NumberSet.not_mem_empty i)
  | true =>
    have hin : ∀ i ∈ listed, i < d.parts.count := fun i hi => by
      obtain ⟨k, -, hk⟩ := (hlisted i).1 hi
      exact hknown k i hk
    obtain ⟨x, hfold, hto⟩ := EndingTo.run hc hidle hn hfits h₀ hr hin
    have hle := hto.count_le
    have hcount : x.expired.count = .ok x.expired.members.count := by
      have hlt := hfits.2
      have hlive := hc.live_le_total
      have hunion : x.expired.members.count = x.expired.onTime.count + x.expired.early.count :=
        NumberSet.count_union hto.apart
      exact Count.add_eq_ok.2 ⟨by omega, hunion⟩
    refine ⟨{ d with
        partitions := .held x.partitions
        expirations := .held q'
        early := x.early
        live := d.live - x.expired.members.count
        faultyPower := d.faultyPower - x.expired.faulty }, x.expired, ?_,
      ⟨{ hto.coherent with }, fun i p hp => hto.nonneg hn hp, hto.ended, fun i k hle hi => ?_, fun i hi => ?_,
        hforgotten, ?_⟩⟩
    · simp only [popExpired, popExpiredPartitions, bind_eq_ok, loadExpirations_eq_ok, pure_eq_ok]
      refine ⟨_, ⟨_, hheld, rfl⟩, ?_⟩
      simp only [hpop, Bool.not_true, Bool.false_eq_true, if_false, if_true, bind_eq_ok, loadPartitions_eq_ok,
        NumberSet.foldMembers_eq, Count.sub_eq_ok, pure_eq_ok]
      exact ⟨_, hc.partitions_held, x, hfold, _, hcount, _, ⟨hle, rfl⟩, rfl⟩
    · exact hto.settled i (NumberSet.mem_elements.2 ((hlisted i).2 ⟨k, hle, hi⟩))
    · refine hto.others i fun hin => ?_
      obtain ⟨k, hle, hk⟩ := (hlisted i).1 (NumberSet.mem_elements.1 hin)
      exact hi k hle hk
    · have hrest : 0 ≤ duePledgeIn table upTo x.partitions :=
        duePledgeIn_nonneg hto.coherent.sound fun i p hp => hto.nonneg hn hp
      have := hto.pledge_add
      omega

end SectorLedger.Deadline
