import SectorLedger.Audit.Partition
import SectorLedger.Proofs.Audit.Expirations

/-!
# Partitions in which an audit finds nothing

The audit of a partition compares its groups with each other, its totals of power with the sums over the groups, and its
two queues with the sectors that are live or have ended.

* `Partition.Accurate`: what is true of a partition.
* `Accurate.exact_of_keyed`: the queue's totals are sums over the table.
* `Partition.accurate_of_clean`: an audit without findings.
-/

namespace SectorLedger

open NumberSet

variable {grid : Grid} {size : SectorSize} {table : SectorTable} {p : Partition}

/-- A partition whose groups, totals and queues agree with each other and with the records of its sectors. -/
structure Partition.Accurate (grid : Grid) (size : SectorSize) (table : SectorTable) (p : Partition) : Prop where
  /-- Faulty sectors are live. -/
  faults_live : ∀ n ∈ p.faults, n ∈ p.liveSectors
  /-- Unproven sectors are live. -/
  unproven_live : ∀ n ∈ p.unproven, n ∈ p.liveSectors
  /-- No sector is unproven and faulty. -/
  unproven_faults : ∀ n ∈ p.unproven, n ∉ p.faults
  /-- Recovering sectors are faulty. -/
  recoveries_faults : ∀ n ∈ p.recoveries, n ∈ p.faults
  /-- Ended sectors belong to the partition. -/
  terminated_sectors : ∀ n ∈ p.terminated, n ∈ p.sectors
  /-- Every live sector has a record, with a defined power. -/
  recorded : ∀ n ∈ p.liveSectors, ∃ s w, table.get? n = some s ∧ Power.ofSector size s = .ok w
  /-- The power of the live sectors. -/
  livePower_eq : p.livePower = p.liveSectors.total (table.powerAt size)
  /-- The power of the unproven sectors. -/
  unprovenPower_eq : p.unprovenPower = p.unproven.total (table.powerAt size)
  /-- The power of the faulty sectors. -/
  faultyPower_eq : p.faultyPower = p.faults.total (table.powerAt size)
  /-- The power of the recovering sectors. -/
  recoveringPower_eq : p.recoveringPower = p.recoveries.total (table.powerAt size)
  /-- The expiration queue is accurate, and lists the live sectors and no others. -/
  expirations : ∃ q, p.expirations = .held q ∧ q.Accurate grid (table.filed p.liveSectors) size p.faults ∧
    ∀ n, n ∈ p.liveSectors ↔ ∃ k e, q.get? k = some e ∧ n ∈ e.members
  /-- The queue of early terminations is accurate. -/
  early : ∃ q : NumberQueue, p.early = .held q ∧ q.Accurate p.terminated

/-- Some sector that ended early is still to be settled. -/
def Partition.Unsettled (p : Partition) : Prop :=
  ∃ (q : NumberQueue) (k : Nat) (ns : NumberSet) (n : Nat), p.early = .held q ∧ q.get? k = some ns ∧ n ∈ ns

namespace Partition

/-- If each record of the table stands at its own number, the totals in the queue are sums over the table. -/
theorem Accurate.exact_of_keyed (h : p.Accurate grid size table) (hk : table.Keyed) {q : ExpirationQueue}
    (hq : p.expirations = .held q) {k : Nat} {e : ExpirationSet} (he : q.get? k = some e) :
    e.Exact size table p.faults := by
  obtain ⟨q', hq', haccurate, hlive⟩ := h.expirations
  obtain rfl := Stored.held.inj (hq.symm.trans hq')
  refine (haccurate.entries k e he).exact.of_records fun n hn => ?_
  refine (hk.get?_filed (fun m hm => ?_) ((hlive n).2 ⟨k, e, he, hn⟩)).symm
  obtain ⟨s, -, hs, -⟩ := h.recorded m hm
  exact ⟨s, hs⟩

end Partition

namespace Audit

/-- What is checked about the groups. -/
theorem of_clean_partitionGroups {u : Unit} (h : Clean (partitionGroups p) u) :
    (∀ n ∈ p.faults, n ∈ p.liveSectors) ∧ (∀ n ∈ p.unproven, n ∈ p.liveSectors) ∧
      (∀ n ∈ p.unproven, n ∉ p.faults) ∧ (∀ n ∈ p.recoveries, n ∈ p.faults) ∧ ∀ n ∈ p.terminated, n ∈ p.sectors := by
  simp only [partitionGroups, clean_bind, clean_expectContainsAll, clean_expectDisjoint] at h
  obtain ⟨_, -, _, hfaults, _, hunproven, _, -, _, -, _, hrecoveries, _, -, _, happart, hterminated⟩ := h
  exact ⟨hfaults, hunproven, happart, hrecoveries, hterminated⟩

/-- What is checked about the power of a group. -/
theorem of_clean_groupPower {group : String} {ns : NumberSet} {recorded : Power} {r : Option (List Sector × Power)}
    (h : Clean (groupPower size table group ns recorded) r) :
    (∀ n ∈ ns, ∃ s w, table.get? n = some s ∧ Power.ofSector size s = .ok w) ∧
      recorded = ns.total (table.powerAt size) ∧ r = some ((selectKnown table ns).1, recorded) := by
  simp only [groupPower] at h
  split at h
  · next hknown =>
    simp only [clean_bind, clean_liftM, clean_expect, beq_iff_eq, clean_pure] at h
    obtain ⟨w, hw, _, rfl, rfl⟩ := h
    obtain ⟨hrecorded, htotal⟩ :=
      SectorTable.ofSectors_selectKnown (SectorTable.isEmpty_selectKnown_iff.1 hknown) hw
    exact ⟨hrecorded, htotal, rfl⟩
  · simp only [clean_bind, not_clean_note, false_and, exists_false] at h

/-- What is checked about the expiration queue. -/
theorem of_clean_partitionExpirations {ss : List Sector} {epochs : List Int}
    (h : Clean (partitionExpirations grid size p (some ss)) epochs) :
    ∃ q, p.expirations = .held q ∧ q.Accurate grid (SectorTable.ofList ss) size p.faults ∧
      (∀ n, n ∈ p.liveSectors ↔ ∃ k e, q.get? k = some e ∧ n ∈ e.members) ∧ epochs = q.indices.map Count.toEpoch := by
  simp only [partitionExpirations, clean_attempt, Stored.load_eq_ok, clean_bind, clean_expectEqual, clean_pure] at h
  obtain ⟨q, hq, listed, hlisted, _, hlive, rfl⟩ := h
  obtain ⟨haccurate, rfl⟩ := ExpirationQueue.accurate_of_clean hlisted
  exact ⟨q, hq, haccurate, fun n => by rw [hlive, ExpirationQueue.mem_summarize], rfl⟩

end Audit

namespace Partition

/-- **A partition without findings** is accurate, and the summary tells what it holds. -/
theorem accurate_of_clean {part : PartitionSummary} (h : Audit.Clean (Audit.partitionState grid size table p) part) :
    p.Accurate grid size table ∧ part.all = p.sectors ∧ part.live = p.liveSectors ∧ part.faultyPower = p.faultyPower ∧
      (∃ q, p.expirations = .held q ∧ part.epochs = q.indices.map Count.toEpoch) ∧
      (0 < part.earlyCount ↔ p.Unsettled) := by
  simp only [Audit.partitionState, Audit.clean_bind, Audit.clean_attempt, Audit.clean_pure, Stored.load_eq_ok] at h
  obtain ⟨_, hgroups, _, hlive, _, hunproven, _, hfaulty, _, hrecovering, _, -, epochs, hqueue, early,
    ⟨q, hq, hearly⟩, rfl⟩ := h
  obtain ⟨hfaultsLive, hunprovenLive, hunprovenFaults, hrecoveriesFaults, hterminated⟩ :=
    Audit.of_clean_partitionGroups hgroups
  obtain ⟨hrecorded, hlivePower, rfl⟩ := Audit.of_clean_groupPower hlive
  obtain ⟨-, hunprovenPower, rfl⟩ := Audit.of_clean_groupPower hunproven
  obtain ⟨-, hfaultyPower, rfl⟩ := Audit.of_clean_groupPower hfaulty
  obtain ⟨-, hrecoveringPower, -⟩ := Audit.of_clean_groupPower hrecovering
  obtain ⟨q', hq', haccurate, hlisted, rfl⟩ := Audit.of_clean_partitionExpirations hqueue
  obtain ⟨hended, hcount⟩ := NumberQueue.accurate_of_clean hearly
  refine ⟨⟨hfaultsLive, hunprovenLive, hunprovenFaults, hrecoveriesFaults, hterminated, hrecorded, hlivePower,
    hunprovenPower, hfaultyPower, hrecoveringPower, ⟨q', hq', haccurate, hlisted⟩, q, hq, hended⟩, rfl, rfl, rfl,
    ⟨q', hq', rfl⟩, hcount.trans ?_⟩
  constructor
  · rintro ⟨k, ns, n, hk, hn⟩
    exact ⟨q, k, ns, n, hq, hk, hn⟩
  · rintro ⟨q', k, ns, n, hq', hk, hn⟩
    obtain rfl := Stored.held.inj (hq.symm.trans hq')
    exact ⟨k, ns, n, hk, hn⟩

end Partition

end SectorLedger
