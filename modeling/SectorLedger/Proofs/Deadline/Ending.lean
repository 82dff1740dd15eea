import SectorLedger.Proofs.Deadline.Sound
import SectorLedger.Proofs.Partition.Conservation

/-!
# Sectors of a deadline that end

Sectors end when they are terminated or when they are due. Only the partitions listed up to an epoch are asked for
sectors that are due; the others have none, since a partition is listed wherever it has sectors.

* `Invariant.terminateSectors`, `Invariant.popExpired`: sectors end.
* `Invariant.popEarlyTerminations`: they are settled.
-/

namespace SectorLedger.Deadline

open SparseArray

variable {grid : Grid} {size : SectorSize} {table : SectorTable} {floor epoch upTo : Int} {d d' : Deadline}
  {listed : Nat → Nat → Prop} {i : Nat} {p p' : Partition} {ns early : NumberSet} {map : PartitionSectors}

/-- Sectors of a partition end, some of them early. -/
theorem Coherent.ended (h : d.Coherent grid size table) (hget : d.parts.get? i = some p)
    (hs : p'.Sound grid size table) (he : Partition.Ended ns p p') (hf : Partition.FiledEarly epoch early p p')
    (hparts : d'.partitions = .held (d.parts.insert i p')) (hlive : (d'.live : Int) = d.live - ns.count)
    (htotal : d'.total = d.total) (hfaulty : d'.faultyPower = d.faultyPower + (p'.faultyPower - p.faultyPower))
    (hearly : ∀ j, j ∈ d'.early ↔ j ∈ d.early ∨ (j = i ∧ early ≠ ∅)) : d'.Coherent grid size table := by
  obtain ⟨q, q', hq, hq', hadd⟩ := hf
  have hempty : SparseArray.isEmpty q' = (SparseArray.isEmpty q && early.isEmpty) := NumberQueue.isEmpty_add hadd
  refine h.replace hget hs he.sectors_eq hparts ?_ htotal hfaulty ⟨q', hq', ?_⟩
    fun j hne => by rw [hearly j]; simp [hne]
  · have hle := NumberSet.count_le_of_subset he.live
    have hcount := NumberSet.count_sdiff he.live
    rw [← he.liveSectors_eq] at hcount
    omega
  · rw [hearly i, h.mem_early_iff hget hq, hempty, Bool.and_eq_false_iff, ← Bool.not_eq_true early.isEmpty,
      NumberSet.isEmpty_iff]
    simp

theorem count_of_expirationSet {e : ExpirationSet} (hd : ∀ n ∈ e.onTime, n ∉ e.early) {count : Nat}
    (h : e.count = .ok count) : count = e.members.count := by
  rw [ExpirationSet.members, NumberSet.count_union hd]
  exact (Count.add_eq_ok.1 h).2

/-- Sectors are terminated. -/
theorem Invariant.terminateSectors (hu : 0 < grid.unit) (hk : table.Keyed) (h : d.Invariant grid size table floor)
    {maxSectors : Nat} {w : Power} (hop : d.terminateSectors grid size table maxSectors epoch map = .ok (d', w)) :
    d'.Invariant grid size table floor := by
  obtain ⟨ps, t, hps, hfold, -, rfl⟩ := terminateSectors_spec hop
  have hc := foldOutcome_invariant (I := fun _ (t : Terminating) =>
    Consistent grid size table floor (fun i k => i ∈ d.queue.entry k)
      { d with
        partitions := .held t.partitions, early := t.early, live := t.live, faultyPower := t.faultyPower }) hfold
    (by rw [← hps]; exact h.consistent) ?_
  · exact ⟨hc, h.held, h.bounded⟩
  intro done entry rest t t' _ hI hstep
  obtain ⟨p, p', removed, hp, hterm, hlive, hparts, hfaulty, -⟩ := terminateIn_spec hstep
  obtain ⟨hs, hended, hfiled, hmembers, hapart⟩ := (hI.sound _ p hp).terminateSectors hu hk hterm
  have hcount : (t'.live : Int) = t.live - entry.2.count ∧
      ∀ j, j ∈ t'.early ↔ j ∈ t.early ∨ (j = entry.1 ∧ entry.2 ≠ ∅) := by
    rcases hlive with ⟨hnil, hlive, hearly⟩ | ⟨count, hsome, hcount, hle, hlive, hearly⟩
    · have hnone : entry.2 = ∅ := by rw [← hmembers, ExpirationSet.isEmpty_iff.1 hnil]
      rw [hlive, hearly, hnone, NumberSet.count_empty]
      exact ⟨by omega, fun j => by simp⟩
    · have hcount := count_of_expirationSet hapart hcount
      have hmem : entry.2 ≠ ∅ := fun hnil => by
        rw [← hmembers, ← ExpirationSet.isEmpty_iff, hsome] at hnil
        cases hnil
      rw [hmembers] at hcount
      rw [hlive, hearly]
      exact ⟨by omega, fun j => by simp [hmem]⟩
  rw [hparts]
  refine hI.put (hI.toCoherent.ended hp hs hended hfiled rfl hcount.1 rfl ?_ hcount.2) rfl
    ((hI.placed _ p hp).ended hended) fun j k _ => Iff.rfl
  rw [(Partition.powers_of_terminateSectors hterm).2, hfaulty]
  dsimp only
  abel

/-! ### Sectors that are due -/

/-- How far the ending of due sectors has come, after some partitions. -/
structure ExpiringTo (grid : Grid) (size : SectorSize) (table : SectorTable) (d : Deadline) (upTo : Int)
    (done : List Nat) (x : Expiring) : Prop where
  /-- What has ended counts no more. -/
  coherent : Coherent grid size table
    { d with
      partitions := .held x.partitions
      early := x.early
      live := d.live - x.expired.members.count
      faultyPower := d.faultyPower - x.expired.faulty }
  /-- It was live. -/
  count_le : x.expired.members.count ≤ d.live
  /-- It was in the partitions gone through. -/
  gone : ∀ n ∈ x.expired.members, ∃ j ∈ done, ∃ p, x.partitions.get? j = some p ∧ n ∈ p.sectors
  /-- No sector of it was both on time and early. -/
  apart : ∀ n ∈ x.expired.onTime, n ∉ x.expired.early
  /-- In the partitions gone through nothing is due. -/
  settled : ∀ j ∈ done, ∀ p, x.partitions.get? j = some p → ∀ (k : Nat) n, n ∈ (p.queue.entry k).members → upTo < k
  /-- The others are as before. -/
  others : ∀ j, j ∉ done → x.partitions.get? j = d.parts.get? j
  /-- No partition comes or goes. -/
  occupied : ∀ j, (∃ p, x.partitions.get? j = some p) ↔ ∃ p, d.parts.get? j = some p

theorem ExpiringTo.start (h : d.Coherent grid size table) {ps : SparseArray Partition}
    (hps : d.partitions = .held ps) : ExpiringTo grid size table d upTo [] { partitions := ps, early := d.early } := by
  have hexpired : ExpirationSet.members (∅ : ExpirationSet) = ∅ := ExpirationSet.members_empty
  refine ⟨?_, by rw [hexpired, NumberSet.count_empty]; omega, fun n hn => ?_,
    fun n hn => absurd hn (NumberSet.not_mem_empty n), fun j hj => absurd hj List.not_mem_nil,
    fun j _ => by rw [parts_eq hps], fun j => by rw [parts_eq hps]⟩
  · have hpower : d.faultyPower - (∅ : ExpirationSet).faulty = d.faultyPower := sub_zero _
    simp only [hexpired, hpower, NumberSet.count_empty, Nat.sub_zero, ← hps]
    exact h
  · rw [hexpired] at hn
    exact absurd hn (NumberSet.not_mem_empty n)

/-- The due sectors of one more partition end. -/
theorem ExpiringTo.step {done : List Nat} {x x' : Expiring} (h : ExpiringTo grid size table d upTo done x)
    (hi : i ∉ done) (hstep : expirePartition upTo x i = .ok x') :
    ExpiringTo grid size table d upTo (done ++ [i]) x' := by
  obtain ⟨p, p', popped, hp, hpop, hadd, hparts, hearly⟩ := expirePartition_spec hstep
  obtain ⟨hs, hended, hfiled, hexact, hon, hentry, -, -⟩ := (h.coherent.sound i p hp).popExpired hpop
  obtain ⟨-, hmerge⟩ := ExpirationSet.add_eq_ok.1 hadd
  have hmembers : x'.expired.members = x.expired.members ∪ popped.members := by
    rw [← hmerge, ExpirationSet.members_merge]
  have hsectors : ∀ n ∈ popped.members, n ∈ p.sectors := fun n hn =>
    (Partition.mem_liveSectors.1 (hended.live n hn)).1
  have hdisjoint : ∀ n ∈ x.expired.members, n ∉ popped.members := by
    intro n hn hn'
    obtain ⟨j, hj, p₀, hp₀, hn₀⟩ := h.gone n hn
    have := h.coherent.apart j i p₀ p n hp₀ hp hn₀ (hsectors n hn')
    exact hi (this ▸ hj)
  have hcount : x'.expired.members.count = x.expired.members.count + popped.members.count := by
    rw [hmembers, NumberSet.count_union hdisjoint]
  -- The partition's live sectors are among those that are still counted.
  have hle : popped.members.count ≤ d.live - x.expired.members.count := by
    have hpart : (p.liveSectors.count : Int) ≤ (d.live - x.expired.members.count : Nat) :=
      (le_total (f := fun p : Partition => (p.liveSectors.count : Int)) (fun _ => Int.natCast_nonneg _) hp).trans_eq
        h.coherent.live_eq.symm
    have := NumberSet.count_le_of_subset hended.live
    omega
  refine ⟨?_, ?_, fun n hn => ?_, ?_, fun j hj p₁ hp₁ k n hn => ?_, fun j hj => ?_, fun j => ?_⟩
  · refine h.coherent.ended hp hs hended hfiled (by rw [hparts]; rfl) ?_ rfl ?_ fun j => ?_
    · rw [hcount]
      push_cast [hle]
      omega
    · rw [(Partition.powers_of_popExpired hpop).2, ← hmerge]
      simp only [ExpirationSet.merge]
      abel
    · rw [hearly]
      split
      · next hnil => simp [NumberSet.isEmpty_iff.1 hnil]
      · next hsome =>
        rw [NumberSet.isEmpty_iff] at hsome
        simp [hsome]
  · have := h.count_le
    omega
  · rcases NumberSet.mem_union.1 (hmembers ▸ hn) with hn | hn
    · obtain ⟨j, hj, p₀, hp₀, hn₀⟩ := h.gone n hn
      have hne : j ≠ i := fun he => hi (he ▸ hj)
      exact ⟨j, List.mem_append_left _ hj, p₀, by rw [hparts, get?_insert, if_neg hne]; exact hp₀, hn₀⟩
    · exact ⟨i, List.mem_append_right _ List.mem_cons_self, p', by rw [hparts, get?_insert, if_pos rfl],
        hended.sectors_eq ▸ hsectors n hn⟩
  · rw [← hmerge]
    intro n hn hn'
    simp only [ExpirationSet.merge, NumberSet.mem_union] at hn hn'
    have := h.apart n
    have := hexact.apart n
    have := hdisjoint n
    simp only [ExpirationSet.mem_members] at this
    tauto
  · rw [hparts] at hp₁
    obtain ⟨-, rfl⟩ | ⟨hne, hp₁⟩ := get?_insert_eq_some.1 hp₁
    · rw [hentry] at hn
      split at hn
      · simp at hn
      · omega
    · rcases List.mem_append.1 hj with hj | hj
      · exact h.settled j hj p₁ hp₁ k n hn
      · exact absurd (List.mem_singleton.1 hj) hne
  · rw [List.mem_append, List.mem_singleton, not_or] at hj
    rw [hparts, get?_insert, if_neg hj.2]
    exact h.others j hj.1
  · rw [← h.occupied j, hparts, get?_insert]
    split
    · next hji => exact ⟨fun _ => ⟨p, hji ▸ hp⟩, fun _ => ⟨p', rfl⟩⟩
    · exact Iff.rfl

/-- Partitions stay listed where they have to be. -/
theorem placed_of_expirePartition {x x' : Expiring} (hs : ∀ i p, x.partitions.get? i = some p → p.Sound grid size table)
    (hp : ∀ i p, x.partitions.get? i = some p → p.Placed grid table floor (listed i))
    (hstep : expirePartition upTo x i = .ok x') (j : Nat) (p : Partition) (hj : x'.partitions.get? j = some p) :
    p.Placed grid table floor (listed j) := by
  obtain ⟨p₀, p', popped, hp₀, hpop, -, hparts, -⟩ := expirePartition_spec hstep
  obtain ⟨-, hended, -⟩ := (hs i p₀ hp₀).popExpired hpop
  rw [hparts] at hj
  obtain ⟨rfl, rfl⟩ | ⟨-, hj⟩ := get?_insert_eq_some.1 hj
  · exact (hp j p₀ hp₀).ended hended
  · exact hp j p hj

/-- When all listed partitions have been gone through, nothing is due anywhere but in a partition that was not
listed. -/
theorem ExpiringTo.nothing_due {listed : NumberSet} {x : Expiring}
    (h : ExpiringTo grid size table d upTo listed.elements x)
    (hlisted : ∀ p, d.parts.get? i = some p → ∀ (k : Nat) n, (k : Int) ≤ upTo → n ∈ (p.queue.entry k).members →
      i ∈ listed) {k n : Nat} (hp : x.partitions.get? i = some p) (hn : n ∈ (p.queue.entry k).members) : upTo < k := by
  by_cases hi : i ∈ listed.elements
  · exact h.settled i hi p hp k n hn
  · by_contra hlt
    rw [h.others i hi] at hp
    exact hi (NumberSet.mem_elements.2 (hlisted p hp k n (Int.not_lt.1 hlt) hn))

/-- When nothing is due, what was listed up to the epoch can be forgotten. -/
theorem Consistent.forget (h : d.Consistent grid size table floor listed)
    (hdue : ∀ i p, d.parts.get? i = some p → ∀ (k : Nat) n, n ∈ (p.queue.entry k).members → upTo < k) :
    d.Consistent grid size table floor fun i k => upTo < k ∧ listed i k :=
  { h with
    placed := fun i p hp =>
      { h.placed i p hp with
        listed_of_mem := fun k n hn => ⟨hdue i p hp k n hn, (h.placed i p hp).listed_of_mem k n hn⟩
        listed_of_due := fun k n hn hd => by
          -- The sector has a place, which is after the epoch, and it is not due before that.
          obtain ⟨j, hj⟩ := ((h.sound i p hp).live_iff n).1 hn
          have hlt := hdue i p hp j n hj
          have hle := (h.placed i p hp).prompt j k n hj hd
          exact ⟨by omega, (h.placed i p hp).listed_of_due k n hn hd⟩ }
    known := fun i k hk => h.known i k hk.2 }

/-- Every sector that is due ends. -/
theorem Invariant.popExpired (h : d.Invariant grid size table floor) {e : ExpirationSet}
    (hop : d.popExpired upTo = .ok (d', e)) : d'.Invariant grid size table floor ∧
      ∀ i p, d'.parts.get? i = some p → ∀ (k : Nat) n, n ∈ (p.queue.entry k).members → upTo < k := by
  obtain ⟨q, q', listed, modified, hq, hpop, hcase⟩ := popExpired_spec hop
  obtain rfl := queue_eq hq
  obtain ⟨hentry, hbounded, hlisted, hsame⟩ := NumberQueue.popUntil_spec h.bounded hpop
  rcases hcase with ⟨hnone, rfl, -⟩ | ⟨ps, x, count, -, hps, hfold, hcount, -, -, rfl⟩
  · refine ⟨h, fun i p hp k n hn => ?_⟩
    by_contra hlt
    have hin := (h.consistent.placed i p hp).listed_of_mem k n hn
    rw [← (hsame hnone).1, hentry, if_pos (Int.not_lt.1 hlt)] at hin
    exact NumberSet.not_mem_empty i hin
  · have hrun := foldOutcome_invariant (I := fun done (x : Expiring) => ExpiringTo grid size table d upTo done x ∧
      ∀ i p, x.partitions.get? i = some p → p.Placed grid table floor fun k => i ∈ d.queue.entry k) hfold
      ⟨ExpiringTo.start h.consistent.toCoherent hps, fun i p hp => h.consistent.placed i p (by rwa [parts_eq hps])⟩
      fun done i rest x x' hs hI hstep => ⟨hI.1.step (NumberSet.not_mem_of_elements_eq hs) hstep,
        placed_of_expirePartition hI.1.coherent.sound hI.2 hstep⟩
    obtain ⟨hto, hplaced⟩ := hrun
    obtain rfl := count_of_expirationSet hto.apart hcount
    have hdue : ∀ i p, x.partitions.get? i = some p → ∀ (k : Nat) n, n ∈ (p.queue.entry k).members → upTo < k :=
      fun i p hp k n hn => hto.nothing_due (fun p hp k n hle hn =>
        (hlisted i).2 ⟨k, hle, (h.consistent.placed i p hp).listed_of_mem k n hn⟩) hp hn
    have hconsistent : Consistent grid size table floor (fun i k => i ∈ d.queue.entry k)
        { d with
          partitions := .held x.partitions, early := x.early, live := d.live - x.expired.members.count
          faultyPower := d.faultyPower - x.expired.faulty } :=
      { hto.coherent with
        placed := hplaced
        known := fun i k hk => (hto.occupied i).2 (h.consistent.known i k hk) }
    refine ⟨⟨{ (hconsistent.forget hdue).congr fun i k => ?_ with }, rfl, hbounded⟩, hdue⟩
    show i ∈ q'.entry k ↔ _
    rw [hentry]
    split
    · next hle => exact ⟨fun hi => absurd hi (NumberSet.not_mem_empty i), fun hi => absurd hi.1 (Int.not_lt.2 hle)⟩
    · next hlt => exact ⟨fun hi => ⟨Int.not_le.1 hlt, hi⟩, And.right⟩

/-! ### Settling -/

/-- Terminations are settled. -/
theorem Invariant.popEarlyTerminations (h : d.Invariant grid size table floor) {maxPartitions maxSectors : Nat}
    {taken : Terminations} {more : Bool}
    (hop : d.popEarlyTerminations maxPartitions maxSectors = .ok (d', taken, more)) :
    d'.Invariant grid size table floor := by
  obtain ⟨ps, s, hps, hvisit, rfl⟩ := popEarlyTerminations_spec hop
  have hstep : ∀ (done : List Nat) i rest s s' go, d.early.elements = done ++ i :: rest →
      (Consistent grid size table floor (fun i k => i ∈ d.queue.entry k)
        { d with partitions := .held s.partitions, early := d.early \ s.drained } ∧ ∀ j ∈ s.drained, j ∈ done) →
      settlePartition maxPartitions maxSectors s i = .ok (s', go) →
      Consistent grid size table floor (fun i k => i ∈ d.queue.entry k)
        { d with partitions := .held s'.partitions, early := d.early \ s'.drained } ∧
        ∀ j ∈ s'.drained, j ∈ done ++ [i] := by
    rintro done i rest s s' go hs ⟨hI, hdrained⟩ hstep
    have hi : i ∈ d.early := NumberSet.mem_elements.1 (hs ▸ by simp)
    have hnew : i ∉ done := NumberSet.not_mem_of_elements_eq hs
    have hmem : i ∈ d.early \ s.drained := NumberSet.mem_sdiff.2 ⟨hi, fun hin => hnew (hdrained i hin)⟩
    rcases settlePartition_spec hstep with ⟨hnone, -⟩ | ⟨p, left, p', popped, more, hp, hpop, hparts, hrest⟩
    · obtain ⟨p, q, hp, -⟩ := (hI.early_iff i).1 hmem
      rw [show s.partitions.get? i = some p from hp] at hnone
      cases hnone
    obtain ⟨hs', hsectors, hterminated, hfaults, hqueue, q, hq, hmore⟩ := (hI.sound i p hp).popEarlyTerminations hpop
    have hlive : p'.liveSectors = p.liveSectors := by
      rw [Partition.liveSectors, hsectors, hterminated]
      rfl
    have hplaced : p'.Placed grid table floor fun k => i ∈ d.queue.entry k :=
      (hI.placed i p hp).of_subset (fun n hn => hlive ▸ hn) (fun n hn => hfaults ▸ hn) fun k n hn => by rwa [← hqueue]
    rw [hparts]
    refine ⟨hI.put (hI.toCoherent.replace hp hs' hsectors rfl ?_ rfl ?_ ⟨q, hq, ?_⟩ fun j hne => ?_) rfl hplaced
      fun j k _ => Iff.rfl, fun j hj => ?_⟩
    · rw [hlive, sub_self, add_zero]
    · rw [(Partition.powers_of_popEarlyTerminations hpop).2, sub_self, add_zero]
    · rw [hrest]
      cases more with
      | true => simpa [hmem] using hmore
      | false => simpa [hi] using hmore
    · rw [hrest]
      split <;> simp [hne]
    · rw [hrest] at hj
      split at hj
      · exact List.mem_append_left _ (hdrained j hj)
      · rcases NumberSet.mem_union.1 hj with hj | hj
        · exact List.mem_append_left _ (hdrained j hj)
        · exact List.mem_append_right _ (List.mem_singleton.2 (NumberSet.mem_singleton.1 hj))
  obtain ⟨_, _, -, hc, -⟩ := NumberSet.visitWhile_invariant (I := fun done (s : Settling) =>
    Consistent grid size table floor (fun i k => i ∈ d.queue.entry k)
      { d with partitions := .held s.partitions, early := d.early \ s.drained } ∧ ∀ j ∈ s.drained, j ∈ done)
    hvisit ⟨by rw [NumberSet.sdiff_empty, ← hps]; exact h.consistent, fun j hj => absurd hj (NumberSet.not_mem_empty j)⟩
    hstep
  exact ⟨hc, h.held, h.bounded⟩

end SectorLedger.Deadline
