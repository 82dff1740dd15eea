import SectorLedger.Proofs.Partition.Sound

/-!
# Sectors that move to another expiration

Of the sectors that are to move only those do that belong to the partition, are live and not faulty. They leave their
places in the queue, wherever these are, and are on time at the new epoch, where their power and pledge go with them.
Nothing else in the queue changes, and nothing outside of it. The others cause no failure: for a sound partition it is
as if they had not been asked for.

* `Relocated`: the specification.
* `Sound.relocated`: a move meets it.
* `rescheduleExpirations_movable`, `Sound.rescheduleExpirations_of_none`: sectors that cannot move do not matter.
-/

namespace SectorLedger.Partition

open NumberSet

variable {grid : Grid} {size : SectorSize} {table : SectorTable} {p p' : Partition} {ns numbers : NumberSet}
  {epoch : Int} {moved : List Sector}

/-- Sectors of a partition move to an epoch of its queue, where they are on time, and nothing else changes. -/
structure Relocated (size : SectorSize) (table : SectorTable) (epoch : Int) (ns : NumberSet) (p p' : Partition) :
    Prop where
  /-- Nothing but the queue changes. -/
  frame : p' = { p with expirations := .held p'.queue }
  /-- Without sectors nothing does. -/
  unmoved : ns = ∅ → p' = p
  /-- The sectors are on time at the epoch and nowhere else, and the others where they were. -/
  onTime : ∀ k n, n ∈ (p'.queue.entry k).onTime ↔
    n ∈ (p.queue.entry k).onTime ∧ n ∉ ns ∨ n ∈ ns ∧ (k : Int) = epoch
  /-- The early places stay as they are. -/
  early : ∀ k, (p'.queue.entry k).early = (p.queue.entry k).early
  /-- None of them is a place of the sectors. -/
  punctual : ∀ n ∈ ns, ∀ k, n ∉ (p.queue.entry k).early
  /-- The sectors take their power with them. -/
  active : ∀ k, (p'.queue.entry k).active = (p.queue.entry k).active -
    (ns ∩ (p.queue.entry k).onTime).total (table.powerAt size) +
      if (k : Int) = epoch then ns.total (table.powerAt size) else 0
  /-- They take their pledge with them. -/
  pledge : ∀ k, (p'.queue.entry k).pledge = (p.queue.entry k).pledge -
    (ns ∩ (p.queue.entry k).onTime).total table.pledgeAt + if (k : Int) = epoch then ns.total table.pledgeAt else 0
  /-- No faulty power moves. -/
  faulty : ∀ k, (p'.queue.entry k).faulty = (p.queue.entry k).faulty

/-- Only the points of the grid matter. -/
theorem Sound.of_same {grid' : Grid} (hp : p.Sound grid size table) (hg : grid.Same grid') :
    p.Sound grid' size table :=
  { hp with queue_sound := hp.queue_sound.of_same hg }

/-- A sector that is not faulty has no early place. -/
theorem Sound.not_mem_early (hp : p.Sound grid size table) {n : Nat} (hn : n ∉ p.faults) (k : Nat) :
    n ∉ (p.queue.entry k).early := fun he => hn ((hp.queue_sound.exact k).early_faulty n he)

@[simp] theorem movable_empty : p.movable ∅ = ∅ := empty_inter _

@[simp] theorem movable_movable : p.movable (p.movable numbers) = p.movable numbers := NumberSet.ext fun n => by
  simp only [mem_movable]
  tauto

/-- Without sectors nothing moves. -/
theorem Sound.relocated_empty (hp : p.Sound grid size table) : Relocated size table epoch ∅ p p where
  frame := by rw [← hp.held]
  unmoved _ := rfl
  onTime k n := by simp
  early k := rfl
  punctual n hn := absurd hn (not_mem_empty n)
  active k := by simp
  pledge k := by simp
  faulty k := rfl

/-- **The movable sectors move.** The answer tells their records, by ascending number. -/
theorem Sound.relocated (hu : 0 < grid.unit) (hk : table.Keyed) (hp : p.Sound grid size table)
    (hon : grid.OnGrid epoch) (h : p.rescheduleExpirations grid size table epoch numbers = .ok (p', moved)) :
    p.Relocated size table epoch (p.movable numbers) p' ∧ moved.map (·.number) = (p.movable numbers).elements ∧
      (∀ s ∈ moved, table.Recorded s) ∧ (moved = [] ↔ p.movable numbers = ∅) := by
  obtain ⟨hload, q, q', hq, hmove, -, rfl⟩ := rescheduleExpirations_eq_ok.1 h
  obtain rfl := queue_eq hq
  obtain ⟨hmap, hrec⟩ := SectorTable.map_number_of_loadAll hk hload
  have hl := SectorTable.lists_of_loadAll hk hload
  refine ⟨?_, hmap, hrec, hl.eq_nil_iff⟩
  set ns := p.movable numbers
  have hnot : ∀ n ∈ ns, n ∉ p.faults := fun n hn => (mem_movable.1 hn).2.2
  have hin : ∀ n ∈ ns, p.queue.Holds n := fun n hn => (hp.live_iff n).1 (mem_movable.1 hn).2.1
  obtain ⟨hsound, -, -, hearly⟩ := hp.queue_sound.reschedule hu hl hnot hmove
  have hplace := hp.queue_sound.reschedule_onGrid hu hl hnot hin hon hmove
  have hnone : ∀ n ∈ ns, ∀ k, n ∉ (p.queue.entry k).early := fun n hn => hp.not_mem_early (hnot n hn)
  have hshare : ∀ k, (ns ∩ ((p.queue.entry k).members \ p.faults)) = ns ∩ (p.queue.entry k).onTime := fun k => by
    ext n
    simp only [mem_inter, mem_sdiff, ExpirationSet.mem_members]
    exact and_congr_right fun hn => by rw [or_iff_left (hnone n hn k), and_iff_left (hnot n hn)]
  refine ⟨rfl, fun hnil => ?unmoved, hplace, hearly, hnone, fun k => ?active, fun k => ?pledge, fun k => ?faulty⟩
  case unmoved =>
    obtain rfl := hl.eq_nil_iff.2 hnil
    obtain rfl := Except.ok.inj hmove
    rw [← hp.held]
  case active =>
    show (q'.entry k).active = _
    rw [(hsound.exact k).active_eq, (hp.queue_sound.exact k).active_eq, ← hshare k]
    refine total_moved _ fun n => ?_
    simp only [mem_sdiff, ExpirationSet.mem_members, hplace, hearly]
    by_cases hn : n ∈ ns
    · simp [hn, hnot n hn, hnone n hn k]
    · simp [hn]
  case pledge =>
    show (q'.entry k).pledge = _
    rw [(hsound.exact k).pledge_eq, (hp.queue_sound.exact k).pledge_eq]
    exact total_moved _ (hplace k)
  case faulty =>
    show (q'.entry k).faulty = _
    rw [(hsound.exact k).faulty_eq, (hp.queue_sound.exact k).faulty_eq]
    refine total_congr_set _ fun n => ?_
    simp only [mem_inter, ExpirationSet.mem_members, hplace, hearly]
    by_cases hn : n ∈ ns
    · simp [hnot n hn]
    · simp [hn]

/-! ### Sectors that cannot move -/

/-- Sectors that cannot move do not matter. -/
theorem rescheduleExpirations_movable :
    p.rescheduleExpirations grid size table epoch (p.movable numbers) =
      p.rescheduleExpirations grid size table epoch numbers := by
  simp only [rescheduleExpirations, sdiff_faults_eq_movable, movable_movable]

/-- If no sector can move, nothing happens. -/
theorem Sound.rescheduleExpirations_of_none (hp : p.Sound grid size table) (hvalid : p.validate = .ok ())
    (hnone : p.movable numbers = ∅) {grid' : Grid} :
    p.rescheduleExpirations grid' size table epoch numbers = .ok (p, []) := by
  refine rescheduleExpirations_eq_ok.2 ⟨?_, _, _, hp.held, rfl, hvalid, ?_⟩
  · rw [hnone, SectorTable.loadAll, mapMembers_eq_ok]
    exact .nil
  · rw [← hp.held]

end SectorLedger.Partition
