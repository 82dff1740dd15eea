import SectorLedger.Proofs.Partition.Ending

/-!
# Where a partition's sectors are, and where it is listed

A deadline lists its partitions at the epochs where they may have expiring sectors. Partitions move sectors
without asking: forward to the expiration of a fault, and back to the sector's own expiration. This works
because a partition stays listed at the sectors' own expirations too, because no sector is ever later than
that, and because a faulty sector is not later than the expiration of any further fault.

* `Placed`: the specification.
* `Placed.addSectors`, `FaultedBy.placed`, `Placed.recoverFaults` and their like: what each operation needs.
-/

namespace SectorLedger.Partition

open NumberSet

variable {grid : Grid} {size : SectorSize} {table : SectorTable} {floor : Int} {listed listed' : Nat → Prop}
  {p p' : Partition} {ns : NumberSet}

/-- The partition is listed wherever it has sectors or may have them again. Faults come at `floor` or
later. -/
structure Placed (grid : Grid) (table : SectorTable) (floor : Int) (listed : Nat → Prop) (p : Partition) : Prop where
  /-- It is listed where it has sectors. -/
  listed_of_mem : ∀ k n, n ∈ (p.queue.entry k).members → listed k
  /-- It is listed at the live sectors' own expirations. -/
  listed_of_due : ∀ k n, n ∈ p.liveSectors → table.DueAt grid n k → listed k
  /-- No sector is later than its own expiration. -/
  prompt : ∀ k j n, n ∈ (p.queue.entry k).members → table.DueAt grid n j → k ≤ j
  /-- No faulty sector is later than the expiration of a further fault. -/
  sheltered : ∀ k n, n ∈ (p.queue.entry k).members → n ∈ p.faults →
    ∀ epoch limit, floor ≤ epoch → grid.up epoch = .ok limit → (k : Int) ≤ limit

namespace Placed

theorem empty : Placed grid table floor listed {} where
  listed_of_mem k n hn := absurd (show n ∈ ExpirationSet.members ∅ from hn) (by simp)
  listed_of_due k n hn := absurd (mem_sdiff.1 hn).1 (not_mem_empty n)
  prompt k j n hn := absurd (show n ∈ ExpirationSet.members ∅ from hn) (by simp)
  sheltered k n hn := absurd (show n ∈ ExpirationSet.members ∅ from hn) (by simp)

/-- Being listed more often does no harm, and neither do later faults. -/
theorem mono (h : p.Placed grid table floor listed) {floor' : Int} (hf : floor ≤ floor')
    (hl : ∀ k, listed k → listed' k) : p.Placed grid table floor' listed' where
  listed_of_mem k n hn := hl k (h.listed_of_mem k n hn)
  listed_of_due k n hn hd := hl k (h.listed_of_due k n hn hd)
  prompt := h.prompt
  sheltered k n hn hf' epoch limit hle := h.sheltered k n hn hf' epoch limit (hf.trans hle)

/-- Sectors may leave or stop being faulty, as long as the others stay where they are. -/
theorem of_subset (h : p.Placed grid table floor listed) (hlive : ∀ n ∈ p'.liveSectors, n ∈ p.liveSectors)
    (hfaults : ∀ n ∈ p'.faults, n ∈ p.faults)
    (hplace : ∀ k n, n ∈ (p'.queue.entry k).members → n ∈ (p.queue.entry k).members) :
    p'.Placed grid table floor listed where
  listed_of_mem k n hn := h.listed_of_mem k n (hplace k n hn)
  listed_of_due k n hn hd := h.listed_of_due k n (hlive n hn) hd
  prompt k j n hn hd := h.prompt k j n (hplace k n hn) hd
  sheltered k n hn hf := h.sheltered k n (hplace k n hn) (hfaults n hf)

/-- Sectors end. -/
theorem ended (h : p.Placed grid table floor listed) (he : Ended ns p p') : p'.Placed grid table floor listed :=
  h.of_subset (fun _ hn => (mem_sdiff.1 (he.liveSectors_eq ▸ hn)).1) (fun _ hn => (mem_sdiff.1 (he.faults_eq ▸ hn)).1)
    fun k n hn => ((he.place k n).1 hn).1

end Placed

/-- New sectors come where they are due. -/
theorem Placed.addSectors (h : p.Placed grid table floor listed) (hl : ∀ k, listed k → listed' k)
    (hdue : ∀ n ∈ ns, ∀ k, table.DueAt grid n k → listed' k) (hlive : ∀ n ∈ p'.liveSectors, n ∈ p.liveSectors ∨ n ∈ ns)
    (hfaults : p'.faults = p.faults) (hnew : ∀ n ∈ ns, n ∉ p.faults)
    (hplace : ∀ k n, n ∈ (p'.queue.entry k).members →
      n ∈ (p.queue.entry k).members ∨ (n ∈ ns ∧ table.DueAt grid n k)) :
    p'.Placed grid table floor listed' where
  listed_of_mem k n hn := (hplace k n hn).elim (fun hn => hl k (h.listed_of_mem k n hn)) fun hn => hdue n hn.1 k hn.2
  listed_of_due k n hn hd := (hlive n hn).elim (fun hn => hl k (h.listed_of_due k n hn hd)) fun hn => hdue n hn k hd
  prompt k j n hn hd := (hplace k n hn).elim (fun hn => h.prompt k j n hn hd) fun hn => (hn.2.unique hd).le
  sheltered k n hn hf := by
    rw [hfaults] at hf
    exact (hplace k n hn).elim (fun hn => h.sheltered k n hn hf) fun hn => absurd hf (hnew n hn.1)

/-- New faults come to the fault's expiration, where the partition must be listed if there are any. -/
theorem FaultedBy.placed (hu : 0 < grid.unit) (hf : FaultedBy grid floor ns p p')
    (h : p.Placed grid table floor listed) (hl : ∀ k, listed k → listed' k)
    (hlisted : (∃ n ∈ ns, n ∉ p.faults) → ∀ k : Nat, grid.up floor = .ok (k : Int) → listed' k) :
    p'.Placed grid table floor listed' := by
  obtain ⟨limit, hlimit, hmoved, hearly⟩ := hf.moved
  have hup : ∀ n ∈ ns, grid.up floor = .ok limit := fun n hn => hlimit fun he => by
    rw [he] at hn
    exact not_mem_empty n hn
  refine ⟨fun k n hn => ?_, fun k n hn hd => ?_, fun k j n hn hd => ?_, fun k n hn hfaulty epoch r hle hr => ?_⟩
  · rcases hmoved.place hn with hn | ⟨rfl, hns, j, hj, hnj⟩
    · exact hl k (h.listed_of_mem k n hn)
    · refine hlisted ⟨n, hns, fun hfaulty => ?_⟩ k (hup n hns)
      have := h.sheltered j n hnj hfaulty floor k le_rfl (hup n hns)
      omega
  · rw [hf.keeps.liveSectors_eq] at hn
    exact hl k (h.listed_of_due k n hn hd)
  · rcases hmoved.place hn with hn | ⟨rfl, hns, i, hi, hni⟩
    · exact h.prompt k j n hn hd
    · have := h.prompt i j n hni hd
      omega
  · by_cases hns : n ∈ ns
    · have hle' := (Grid.isUp_of_up hu (hup n hns)).mono (Grid.isUp_of_up hu hr) hle
      exact (hmoved.le_limit hns (hearly n hns) hn).trans hle'
    · rw [hf.faults_eq, mem_union] at hfaulty
      rcases hmoved.place hn with hn | ⟨-, hns', -⟩
      · exact h.sheltered k n hn (hfaulty.resolve_right hns) epoch r hle hr
      · exact absurd hns' hns

/-- Recovered sectors come back to where they are due. -/
theorem Placed.recoverFaults (h : p.Placed grid table floor listed) (hp : p.Sound grid size table) (hk : Keeps p p')
    (hfaults : p'.faults = p.faults \ p.recoveries)
    (hplace : ∀ k n, n ∈ (p'.queue.entry k).members →
      n ∈ (p.queue.entry k).members ∨ (n ∈ p.recoveries ∧ table.DueAt grid n k)) :
    p'.Placed grid table floor listed where
  listed_of_mem k n hn := by
    rcases hplace k n hn with hn | ⟨hn, hd⟩
    · exact h.listed_of_mem k n hn
    · exact h.listed_of_due k n (hp.faults_live n (hp.recoveries_faults n hn)) hd
  listed_of_due k n hn hd := h.listed_of_due k n (hk.liveSectors_eq ▸ hn) hd
  prompt k j n hn hd := (hplace k n hn).elim (fun hn => h.prompt k j n hn hd) fun hn => (hn.2.unique hd).le
  sheltered k n hn hf := by
    rw [hfaults, mem_sdiff] at hf
    exact (hplace k n hn).elim (fun hn => h.sheltered k n hn hf.1) fun hn => absurd hn.1 hf.2

/-- Sectors that are not faulty move to an epoch not after their own expirations. -/
theorem Placed.rescheduleExpirations (hu : 0 < grid.unit) (h : p.Placed grid table floor listed)
    (hl : ∀ k, listed k → listed' k) (hk : Keeps p p') (hfaults : p'.faults = p.faults) {epoch : Int}
    {moved : List Sector} (hm : table.Lists moved ns) (hearlier : ∀ s ∈ moved, epoch ≤ s.expiration)
    (hactive : ∀ n ∈ ns, n ∉ p.faults) (hlisted : moved ≠ [] → ∀ k : Nat, grid.up epoch = .ok (k : Int) → listed' k)
    (hplace : ∀ k n, n ∈ (p'.queue.entry k).members →
      n ∈ (p.queue.entry k).members ∨ (n ∈ ns ∧ grid.up epoch = .ok (k : Int))) :
    p'.Placed grid table floor listed' where
  listed_of_mem k n hn := by
    rcases hplace k n hn with hn | ⟨hn, hup⟩
    · exact hl k (h.listed_of_mem k n hn)
    · obtain ⟨s, hs, -⟩ := hm.exists_of_mem hn
      exact hlisted (List.ne_nil_of_mem hs) k hup
  listed_of_due k n hn hd := hl k (h.listed_of_due k n (hk.liveSectors_eq ▸ hn) hd)
  prompt k j n hn hd := by
    rcases hplace k n hn with hn | ⟨hn, hup⟩
    · exact h.prompt k j n hn hd
    · obtain ⟨s, hs, rfl⟩ := hm.exists_of_mem hn
      have hdue := (hm.recorded s hs).dueAt_iff.1 hd
      exact Int.ofNat_le.1 ((Grid.isUp_of_up hu hup).mono (Grid.isUp_of_up hu hdue) (hearlier s hs))
  sheltered k n hn hf := by
    rw [hfaults] at hf
    exact (hplace k n hn).elim (fun hn => h.sheltered k n hn hf) fun hn => absurd hf (hactive n hn.1)

end SectorLedger.Partition
