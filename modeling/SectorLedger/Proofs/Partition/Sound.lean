import SectorLedger.Partition
import SectorLedger.Proofs.Expiration.Faulting
import SectorLedger.Proofs.Expiration.Walking

/-!
# Sound partitions

A partition keeps five sets of sectors, four totals of power, and a queue of expirations with totals of its
own. It is sound if the sets nest as they should, every total is the sum over its set, and the queue is
sound and holds exactly the live sectors.

* `Partition.Sound`: the specification.
* `Sound.addSectors`, `Sound.addFaults`, `Sound.recoverFaults` and their like: what each operation does to a
  sound partition.
* `Partition.alone`: a partition of one sector, which is sound wherever the sector is due.
-/

namespace SectorLedger.Partition

open NumberSet

variable {grid : Grid} {size : SectorSize} {table : SectorTable} {p p' : Partition} {ns : NumberSet}
  {ss : List Sector}

/-- The expiration queue. Without contents it counts as empty. -/
def queue (p : Partition) : ExpirationQueue :=
  match p.expirations with
  | .held q => q
  | .missing => ∅

/-- The sets nest, the totals are exact, and the queue holds exactly the live sectors. -/
structure Sound (grid : Grid) (size : SectorSize) (table : SectorTable) (p : Partition) : Prop where
  /-- Unproven sectors are live. -/
  unproven_live : ∀ n ∈ p.unproven, n ∈ p.liveSectors
  /-- Faulty sectors are live. -/
  faults_live : ∀ n ∈ p.faults, n ∈ p.liveSectors
  /-- No sector is unproven and faulty. -/
  unproven_faults : ∀ n ∈ p.unproven, n ∉ p.faults
  /-- Recovering sectors are faulty. -/
  recoveries_faults : ∀ n ∈ p.recoveries, n ∈ p.faults
  /-- Ended sectors belong to the partition. -/
  terminated_sectors : ∀ n ∈ p.terminated, n ∈ p.sectors
  /-- The power of the live sectors. -/
  livePower_eq : p.livePower = p.liveSectors.total (table.powerAt size)
  /-- The power of the unproven sectors. -/
  unprovenPower_eq : p.unprovenPower = p.unproven.total (table.powerAt size)
  /-- The power of the faulty sectors. -/
  faultyPower_eq : p.faultyPower = p.faults.total (table.powerAt size)
  /-- The power of the recovering sectors. -/
  recoveringPower_eq : p.recoveringPower = p.recoveries.total (table.powerAt size)
  /-- The queue is there. -/
  held : p.expirations = .held p.queue
  /-- The queue is sound. -/
  queue_sound : p.queue.Sound grid size table p.faults
  /-- The queue holds the live sectors and no others. -/
  live_iff : ∀ n, n ∈ p.liveSectors ↔ p.queue.Holds n
  /-- Every live sector has a record, with a defined power. -/
  recorded : ∀ n ∈ p.liveSectors, ∃ s, table.get? n = some s ∧ ∃ w, Power.ofSector size s = .ok w

theorem sound_empty : Sound grid size table {} where
  unproven_live n hn := absurd hn (not_mem_empty n)
  faults_live n hn := absurd hn (not_mem_empty n)
  unproven_faults n hn := absurd hn (not_mem_empty n)
  recoveries_faults n hn := absurd hn (not_mem_empty n)
  terminated_sectors n hn := absurd hn (not_mem_empty n)
  livePower_eq := (congrArg (total (table.powerAt size)) (sdiff_self ∅)).symm
  unprovenPower_eq := rfl
  faultyPower_eq := rfl
  recoveringPower_eq := rfl
  held := rfl
  queue_sound := ExpirationQueue.sound_empty
  live_iff n := by
    refine ⟨fun hn => absurd (mem_sdiff.1 hn).1 (not_mem_empty n), ?_⟩
    rintro ⟨k, hk⟩
    exact absurd (show n ∈ ExpirationSet.members ∅ from hk) (by simp)
  recorded n hn := absurd (mem_sdiff.1 hn).1 (not_mem_empty n)

@[simp] theorem validated_eq_ok : p.validated = .ok p' ↔ p.validate = .ok () ∧ p = p' := by
  simp only [validated, bind_eq_ok, pure_eq_ok]
  constructor
  · rintro ⟨_, h, he⟩
    exact ⟨h, he⟩
  · rintro ⟨h, he⟩
    exact ⟨(), h, he⟩

@[simp] theorem loadExpirations_eq_ok {words : String} {q : ExpirationQueue} :
    p.loadExpirations words = .ok q ↔ p.expirations = .held q := by
  simp only [loadExpirations, noting_eq_ok, Stored.load_eq_ok]

theorem queue_eq {q : ExpirationQueue} (h : p.expirations = .held q) : p.queue = q := by
  rw [queue, h]

@[simp] theorem liveSectors_empty : liveSectors {} = ∅ := sdiff_self ∅

theorem mem_liveSectors {n : Nat} : n ∈ p.liveSectors ↔ n ∈ p.sectors ∧ n ∉ p.terminated := mem_sdiff

theorem mem_activeSectors {n : Nat} : n ∈ p.activeSectors ↔ n ∈ p.liveSectors ∧ n ∉ p.faults ∧ n ∉ p.unproven := by
  rw [activeSectors, mem_sdiff, mem_sdiff, and_assoc]

/-- A live sector has the raw bytes of its size. -/
theorem Sound.raw_powerAt (hp : p.Sound grid size table) {n : Nat} (hn : n ∈ p.liveSectors) :
    (table.powerAt size n).raw = size.bytes := by
  obtain ⟨s, hs, w, hw⟩ := hp.recorded n hn
  exact SectorTable.raw_powerAt hs hw

/-- Live sectors of no power are no sectors, since every sector has raw bytes. -/
theorem Sound.eq_empty_of_total (hp : p.Sound grid size table) (hns : ∀ n ∈ ns, n ∈ p.liveSectors)
    (h : ns.total (table.powerAt size) = 0) : ns = ∅ := by
  have hraw := raw_total_of_const fun n hn => hp.raw_powerAt (hns n hn)
  have hbytes : size.bytes ≠ 0 := by cases size <;> decide
  rw [h] at hraw
  rcases Int.mul_eq_zero.1 hraw.symm with hcount | hzero
  · exact count_eq_zero_iff.1 (Int.ofNat_eq_zero.1 hcount)
  · exact absurd (Int.ofNat_eq_zero.1 hzero) hbytes

/-- If all live power is faulty, all live sectors are. -/
theorem Sound.mem_faults_of_power (hp : p.Sound grid size table) (h : p.livePower - p.faultyPower = 0) {n : Nat}
    (hn : n ∈ p.liveSectors) : n ∈ p.faults := by
  rw [hp.livePower_eq, hp.faultyPower_eq, ← total_sdiff _ hp.faults_live] at h
  have hnone := hp.eq_empty_of_total (fun m hm => (mem_sdiff.1 hm).1) h
  by_contra hf
  exact eq_empty_iff.1 hnone n (mem_sdiff.2 ⟨hn, hf⟩)

/-- If all live sectors are faulty, so is their power. -/
theorem Sound.livePower_eq_faultyPower (hp : p.Sound grid size table) (h : ∀ n ∈ p.liveSectors, n ∈ p.faults) :
    p.livePower = p.faultyPower := by
  rw [hp.livePower_eq, hp.faultyPower_eq]
  exact total_congr_set _ fun n => ⟨h n, hp.faults_live n⟩

/-! ### New sectors -/

/-- New sectors come. -/
theorem Sound.addSectors (hu : 0 < grid.unit) (hp : p.Sound grid size table) (hl : table.Lists ss ns)
    {proven : Bool} {w : Power} (h : p.addSectors grid size proven ss = .ok (p', w)) :
    p'.Sound grid size table ∧ (∀ n ∈ ns, n ∉ p.sectors) ∧ p'.sectors = p.sectors ∪ ns ∧
      p'.terminated = p.terminated ∧ p'.faults = p.faults ∧ p'.early = p.early ∧
      (∀ n ∈ ns, ∃ k, table.DueAt grid n k) ∧
      ∀ k n, n ∈ (p'.queue.entry k).members → n ∈ (p.queue.entry k).members ∨ (n ∈ ns ∧ table.DueAt grid n k) := by
  simp only [Partition.addSectors, bind_eq_ok, loadExpirations_eq_ok, noting_eq_ok, refused_bind, ite_refused_eq_ok,
    validated_eq_ok, pure_eq_ok, Prod.mk.injEq, containsAny_iff] at h
  obtain ⟨q, hq, ⟨q₁, lot⟩, hadd, hnew, _, ⟨-, rfl⟩, rfl, rfl⟩ := h
  obtain rfl := queue_eq hq
  have hlot := ExpirationQueue.lot_of_addActive hl hadd
  simp only [hlot.numbers_eq, hlot.power_eq] at hnew ⊢
  have hfresh : ∀ n ∈ ns, n ∉ p.sectors := fun n hn hn' => hnew ⟨n, hn, hn'⟩
  have hdead : ∀ n ∈ ns, n ∉ p.liveSectors := fun n hn hn' => hfresh n hn (mem_liveSectors.1 hn').1
  obtain ⟨hsound, hon, hearly⟩ := hp.queue_sound.addActive (Grid.landsOn_self hu) hl
    (fun n hn hh => hdead n hn ((hp.live_iff n).2 hh))
    (fun n hn hn' => hdead n hn (hp.faults_live n hn')) hadd
  have hdefined := ExpirationQueue.defined_of_addActive hl hadd
  have hdue := ExpirationQueue.due_of_addActive hl hadd
  have hlive : ∀ n, n ∈ (p.sectors ∪ ns) \ p.terminated ↔ n ∈ p.liveSectors ∨ n ∈ ns := by
    intro n
    have := hp.terminated_sectors n
    have := hfresh n
    rw [mem_liveSectors, mem_sdiff, mem_union]
    tauto
  have hplace : ∀ k n, n ∈ (q₁.entry k).members ↔
      n ∈ (p.queue.entry k).members ∨ (n ∈ ns ∧ table.DueAt grid n k) := by
    intro k n
    rw [ExpirationSet.mem_members, ExpirationSet.mem_members, hon, hearly]
    tauto
  refine ⟨?_, hfresh, trivial, trivial, trivial, trivial, hdue, fun k n => (hplace k n).1⟩
  have hlivePower : p.livePower + ns.total (table.powerAt size) =
      ((p.sectors ∪ ns) \ p.terminated).total (table.powerAt size) := by
    rw [hp.livePower_eq, ← total_union _ fun n hn hn' => hdead n hn' hn]
    exact total_congr_set _ fun n => by rw [mem_union, hlive]
  have hunproven : ∀ n, n ∈ (if proven then p.unproven else p.unproven ∪ ns) → n ∈ p.unproven ∨ n ∈ ns := by
    intro n hn
    split at hn
    · exact .inl hn
    · exact mem_union.1 hn
  refine ⟨fun n hn => ?_, fun n hn => (hlive n).2 (.inl (hp.faults_live n hn)), fun n hn => ?_, hp.recoveries_faults,
    fun n hn => mem_union.2 (.inl (hp.terminated_sectors n hn)), hlivePower, ?_, hp.faultyPower_eq,
    hp.recoveringPower_eq, rfl, hsound, fun n => ?_, fun n hn => ?_⟩
  · exact (hlive n).2 ((hunproven n hn).imp_left (hp.unproven_live n))
  · rcases hunproven n hn with hn | hn
    · exact hp.unproven_faults n hn
    · exact fun hf => hdead n hn (hp.faults_live n hf)
  · split
    · exact hp.unprovenPower_eq
    · rw [hp.unprovenPower_eq, total_union _ fun n hn hn' => hdead n hn' (hp.unproven_live n hn)]
  · show n ∈ (p.sectors ∪ ns) \ p.terminated ↔ _
    rw [hlive, hp.live_iff]
    constructor
    · rintro (⟨k, hk⟩ | hn)
      · exact ⟨k, (hplace k n).2 (.inl hk)⟩
      · obtain ⟨k, hk⟩ := hdue n hn
        exact ⟨k, (hplace k n).2 (.inr ⟨hn, hk⟩)⟩
    · rintro ⟨k, hk⟩
      exact ((hplace k n).1 hk).imp (fun hk => ⟨k, hk⟩) And.left
  · rcases (hlive n).1 hn with hn | hn
    · exact hp.recorded n hn
    · obtain ⟨s, hs, rfl⟩ := hl.exists_of_mem hn
      exact ⟨s, hl.recorded s hs, hdefined s hs⟩

/-! ### Faults -/

/-- The sectors are the same, ended or not, and so are those to be settled. -/
structure Keeps (p p' : Partition) : Prop where
  /-- All sectors. -/
  sectors_eq : p'.sectors = p.sectors
  /-- The ended ones. -/
  terminated_eq : p'.terminated = p.terminated
  /-- Those to be settled. -/
  early_eq : p'.early = p.early

namespace Keeps

theorem refl (p : Partition) : Keeps p p := ⟨rfl, rfl, rfl⟩

theorem trans {p₁ p₂ p₃ : Partition} (h : Keeps p₁ p₂) (h' : Keeps p₂ p₃) : Keeps p₁ p₃ :=
  ⟨h'.sectors_eq.trans h.sectors_eq, h'.terminated_eq.trans h.terminated_eq, h'.early_eq.trans h.early_eq⟩

theorem liveSectors_eq (h : Keeps p p') : p'.liveSectors = p.liveSectors := by
  rw [liveSectors, h.sectors_eq, h.terminated_eq]
  rfl

end Keeps

/-- The sectors of the set became faulty, and moved forward to the fault's expiration if they were due later. -/
structure FaultedBy (grid : Grid) (epoch : Int) (ns : NumberSet) (p p' : Partition) : Prop where
  /-- No sector came or went. -/
  keeps : Keeps p p'
  /-- The new faults are faulty now. -/
  faults_eq : p'.faults = p.faults ∪ ns
  /-- They were live. -/
  live : ∀ n ∈ ns, n ∈ p.liveSectors
  /-- They were not at early places after the limit, and moved. -/
  moved : ∃ limit, (ns ≠ ∅ → grid.up epoch = .ok limit) ∧ ExpirationQueue.Faulted limit ns p.queue p'.queue ∧
    ∀ n ∈ ns, ∀ k : Nat, n ∈ (p.queue.entry k).early → (k : Int) ≤ limit

theorem FaultedBy.refl (epoch : Int) (p : Partition) : FaultedBy grid epoch ∅ p p :=
  ⟨Keeps.refl p, (union_empty p.faults).symm, fun n hn => absurd hn (not_mem_empty n),
    0, fun h => absurd rfl h, ExpirationQueue.Faulted.refl 0 p.queue, fun n hn => absurd hn (not_mem_empty n)⟩

/-- The partition when sectors have become faulty, with a new queue. -/
def faulted (size : SectorSize) (table : SectorTable) (p : Partition) (ns : NumberSet) (q : ExpirationQueue) :
    Partition :=
  { p with
    expirations := .held q
    faults := p.faults ∪ ns
    faultyPower := p.faultyPower + ns.total (table.powerAt size)
    unproven := p.unproven \ (ns ∩ p.unproven)
    unprovenPower := p.unprovenPower - (ns ∩ p.unproven).total (table.powerAt size) }

/-- Live sectors become faulty in the partition as in its queue. -/
theorem Sound.faulted (hp : p.Sound grid size table) (hlive : ∀ n ∈ ns, n ∈ p.liveSectors)
    (hnew : ∀ n ∈ ns, n ∉ p.faults) {q : ExpirationQueue} (hq : q.Sound grid size table (p.faults ∪ ns)) {limit : Int}
    (hmoved : ExpirationQueue.Faulted limit ns p.queue q) : (p.faulted size table ns q).Sound grid size table := by
  have hmem : ∀ n, n ∈ p.unproven \ (ns ∩ p.unproven) → n ∈ p.unproven ∧ n ∉ ns := by
    intro n hn
    rw [mem_sdiff, mem_inter] at hn
    tauto
  refine ⟨fun n hn => hp.unproven_live n (hmem n hn).1, fun n hn => ?_, fun n hn => ?_,
    fun n hn => mem_union.2 (.inl (hp.recoveries_faults n hn)), hp.terminated_sectors, hp.livePower_eq, ?_, ?_,
    hp.recoveringPower_eq, rfl, hq, fun n => ?_, hp.recorded⟩
  · exact (mem_union.1 hn).elim (hp.faults_live n) (hlive n)
  · rw [Partition.faulted, mem_union, not_or]
    exact ⟨hp.unproven_faults n (hmem n hn).1, (hmem n hn).2⟩
  · rw [Partition.faulted, hp.unprovenPower_eq, total_sdiff _ fun n hn => (mem_inter.1 hn).2]
  · rw [Partition.faulted, hp.faultyPower_eq, total_union _ fun n hn hn' => hnew n hn' hn]
  · exact (hp.live_iff n).trans (hmoved.holds_iff n).symm

/-- Live sectors become faulty. -/
theorem Sound.addFaults (hu : 0 < grid.unit) (hp : p.Sound grid size table) (hl : table.Lists ss ns)
    (hlive : ∀ n ∈ ns, n ∈ p.liveSectors) (hnew : ∀ n ∈ ns, n ∉ p.faults) {epoch : Int} {fd : FaultDelta}
    (h : p.addFaults grid size ns ss epoch = .ok (p', fd)) :
    p'.Sound grid size table ∧ FaultedBy grid epoch ns p p' ∧ p'.recoveries = p.recoveries := by
  simp only [Partition.addFaults, bind_eq_ok, ite_bind_eq_ok, loadExpirations_eq_ok, noting_eq_ok, validated_eq_ok,
    pure_eq_ok, Prod.mk.injEq] at h
  obtain ⟨q, hq, ⟨q₁, w⟩, hresch, unprovenInfos, hselect, lost, hlost, _, ⟨-, rfl⟩, rfl, rfl⟩ := h
  obtain rfl := queue_eq hq
  obtain ⟨hsound, rfl, hfrom, limit, hlimit, hmoved⟩ := hp.queue_sound.rescheduleAsFaults (Grid.landsOn_self hu) hl hnew
    hresch
  have hunproven := hl.select hselect
  have hlost : lost = (ns ∩ p.unproven).total (table.powerAt size) := by
    split at hlost
    · next hnil =>
      rw [hunproven.eq_nil_iff.1 (List.isEmpty_iff.1 hnil), total_empty]
      exact (pure_eq_ok.1 hlost).symm
    · exact hunproven.ofSectors hlost
  subst hlost
  refine ⟨hp.faulted hlive hnew hsound hmoved,
    ⟨⟨rfl, rfl, rfl⟩, rfl, hlive, limit, hlimit, hmoved, fun n hn k hk => ?_⟩, rfl⟩
  obtain ⟨j, hj⟩ := hfrom n hn
  exact absurd hk (hp.queue_sound.onTime_unique hj (ExpirationSet.mem_members.2 (.inr hk))).2

/-- Recoveries are taken back. -/
theorem Sound.removeRecoveries (hp : p.Sound grid size table) (hns : ∀ n ∈ ns, n ∈ p.recoveries) :
    (p.removeRecoveries ns (ns.total (table.powerAt size))).Sound grid size table ∧
      Keeps p (p.removeRecoveries ns (ns.total (table.powerAt size))) ∧
      (p.removeRecoveries ns (ns.total (table.powerAt size))).faults = p.faults ∧
      (p.removeRecoveries ns (ns.total (table.powerAt size))).queue = p.queue := by
  unfold Partition.removeRecoveries
  split
  · exact ⟨hp, Keeps.refl p, rfl, rfl⟩
  · exact ⟨{ hp with
      recoveries_faults := fun n hn => hp.recoveries_faults n (mem_sdiff.1 hn).1
      recoveringPower_eq := by rw [hp.recoveringPower_eq, total_sdiff _ hns] }, ⟨rfl, rfl, rfl⟩, rfl, rfl⟩

theorem FaultedBy.removeRecoveries {epoch : Int} {ms : NumberSet} {w : Power} (h : FaultedBy grid epoch ns p p') :
    FaultedBy grid epoch ns p (p'.removeRecoveries ms w) := by
  unfold Partition.removeRecoveries
  split
  · exact h
  · exact ⟨h.keeps.trans ⟨rfl, rfl, rfl⟩, h.faults_eq, h.live, h.moved⟩

theorem recoveries_removeRecoveries (p : Partition) (ns : NumberSet) (w : Power) :
    (p.removeRecoveries ns w).recoveries = p.recoveries \ ns := by
  unfold Partition.removeRecoveries
  split
  · next h => rw [isEmpty_iff.1 h, sdiff_empty]
  · rfl

/-- The sectors that become faulty when the given ones are declared so. -/
def newFaultsAmong (p : Partition) (numbers : NumberSet) : NumberSet :=
  ((numbers \ (p.recoveries ∩ numbers)) \ p.terminated) \ p.faults

theorem mem_newFaultsAmong (hin : ∀ n ∈ ns, n ∈ p.sectors) {n : Nat} (hn : n ∈ p.newFaultsAmong ns) :
    n ∈ p.liveSectors ∧ n ∉ p.faults := by
  simp only [newFaultsAmong, mem_sdiff] at hn
  exact ⟨mem_liveSectors.2 ⟨hin n hn.1.1.1, hn.1.2⟩, hn.2⟩

/-- The steps by which sectors are declared faulty: the new faults are added, if there are any, and declared recoveries
are taken back. -/
theorem declareFaults_eq_ok (hk : table.Keyed) {numbers newFaults : NumberSet} {epoch : Int} {fd : FaultDelta} :
    p.declareFaults grid size table numbers epoch = .ok (p', newFaults, fd) ↔
      (∀ n ∈ numbers, n ∈ p.sectors) ∧ newFaults = p.newFaultsAmong numbers ∧ ∃ ss retracted p₁,
        table.loadAll newFaults = .ok ss ∧ table.loadAll (p.recoveries ∩ numbers) = .ok retracted ∧
        (if ss.isEmpty then .ok (p, {}) else p.addFaults grid size newFaults ss epoch) = .ok (p₁, fd) ∧
        (∃ w, Power.ofSectors size retracted = .ok w) ∧
        p' = p₁.removeRecoveries (p.recoveries ∩ numbers) ((p.recoveries ∩ numbers).total (table.powerAt size)) ∧
        p'.validate = .ok () := by
  simp only [Partition.declareFaults, requireDeclarable, bind_eq_ok, ite_bind_eq_ok, noting_eq_ok, validated_eq_ok,
    pure_eq_ok, Prod.mk.injEq, require_refused_eq_ok, containsAll_iff]
  constructor
  · rintro ⟨_, hin, ss, hload, ⟨p₁, fd₁⟩, hadd, retracted, hretracted, p₂, hretract, _, ⟨hvalid, rfl⟩, rfl, rfl, rfl⟩
    have hl := SectorTable.lists_of_loadAll hk hretracted
    obtain ⟨hdefined, hp₂⟩ : (∃ w, Power.ofSectors size retracted = .ok w) ∧
        p₂ = p₁.removeRecoveries (p.recoveries ∩ numbers) ((p.recoveries ∩ numbers).total (table.powerAt size)) := by
      split at hretract
      · next hnil =>
        have hnil := List.isEmpty_iff.1 hnil
        rw [hl.eq_nil_iff.1 hnil, ← pure_eq_ok.1 hretract, hnil]
        exact ⟨⟨_, rfl⟩, rfl⟩
      · obtain ⟨w, hw, rfl⟩ := map_eq_ok.1 hretract
        exact ⟨⟨w, hw⟩, by rw [hl.ofSectors hw]⟩
    refine ⟨hin, rfl, ss, retracted, p₁, hload, hretracted, ?_, hdefined, hp₂, hvalid⟩
    split at hadd
    · next hnil => rw [if_pos hnil, ← pure_eq_ok.1 hadd]
    · next hsome => rw [if_neg hsome, ← noting_eq_ok.1 hadd]
  · rintro ⟨hin, rfl, ss, retracted, p₁, hload, hretracted, hadd, ⟨w, hw⟩, rfl, hvalid⟩
    have hl := SectorTable.lists_of_loadAll hk hretracted
    refine ⟨(), hin, ss, hload, (p₁, fd), ?_, retracted, hretracted, _, ?_, _, ⟨hvalid, rfl⟩, rfl, rfl, rfl⟩
    · split at hadd
      · next hnil =>
        rw [if_pos hnil]
        exact hadd
      · next hsome =>
        rw [if_neg hsome]
        exact noting_eq_ok.2 hadd
    · split
      · next hnil =>
        rw [hl.eq_nil_iff.1 (List.isEmpty_iff.1 hnil)]
        rfl
      · rw [hw, hl.ofSectors hw]
        rfl

/-- Sectors are declared faulty. -/
theorem Sound.declareFaults (hu : 0 < grid.unit) (hk : table.Keyed) (hp : p.Sound grid size table)
    {numbers newFaults : NumberSet} {epoch : Int} {fd : FaultDelta}
    (h : p.declareFaults grid size table numbers epoch = .ok (p', newFaults, fd)) :
    p'.Sound grid size table ∧ FaultedBy grid epoch newFaults p p' ∧ p'.recoveries = p.recoveries \ numbers := by
  obtain ⟨hin, rfl, ss, retracted, p₁, hload, -, hadd, -, rfl, -⟩ := (declareFaults_eq_ok hk).1 h
  have hl := SectorTable.lists_of_loadAll hk hload
  have hfirst : p₁.Sound grid size table ∧ FaultedBy grid epoch (p.newFaultsAmong numbers) p p₁ ∧
      p₁.recoveries = p.recoveries := by
    split at hadd
    · next hnil =>
      obtain ⟨rfl, -⟩ := Prod.mk.inj (Except.ok.inj hadd)
      rw [hl.eq_nil_iff.1 (List.isEmpty_iff.1 hnil)]
      exact ⟨hp, FaultedBy.refl epoch p, rfl⟩
    · exact hp.addFaults hu hl (fun n hn => (mem_newFaultsAmong hin hn).1) (fun n hn => (mem_newFaultsAmong hin hn).2)
        hadd
  obtain ⟨hp₁, hfaulted, hrecoveries⟩ := hfirst
  refine ⟨(hp₁.removeRecoveries fun n hn => hrecoveries ▸ (mem_inter.1 hn).1).1, hfaulted.removeRecoveries, ?_⟩
  rw [recoveries_removeRecoveries, hrecoveries]
  ext n
  simp only [mem_sdiff, mem_inter]
  tauto

/-- A proof skips sectors. The flag tells whether there are new faults. -/
theorem Sound.recordSkippedFaults (hu : 0 < grid.unit) (hk : table.Keyed) (hp : p.Sound grid size table)
    {skipped : NumberSet} {epoch : Int} {sf : SkippedFaults}
    (h : p.recordSkippedFaults grid size table epoch skipped = .ok (p', sf)) :
    p'.Sound grid size table ∧
      ∃ newFaults, FaultedBy grid epoch newFaults p p' ∧ (newFaults ≠ ∅ → sf.anyNew = true) := by
  unfold Partition.recordSkippedFaults at h
  split at h
  · obtain ⟨rfl, -⟩ := Prod.mk.inj (pure_eq_ok.1 h)
    exact ⟨hp, ∅, FaultedBy.refl epoch p, fun hne => absurd rfl hne⟩
  · simp only [bind_eq_ok, noting_eq_ok, refusing_eq_ok, refused_bind, ite_refused_eq_ok, validated_eq_ok, pure_eq_ok,
      Prod.mk.injEq, containsAll_iff, Bool.not_eq_true', Bool.not_eq_false] at h
    obtain ⟨hin, retracted, hretracted, w, hw, newSectors, hnew, ⟨p₁, fd⟩, hadd, _, ⟨-, rfl⟩, rfl, rfl⟩ := h
    have hnew := SectorTable.lists_of_loadAll hk hnew
    obtain rfl := (SectorTable.lists_of_loadAll hk hretracted).ofSectors hw
    have hmem : ∀ n ∈ (skipped \ p.terminated) \ p.faults, n ∈ p.liveSectors ∧ n ∉ p.faults := by
      intro n hn
      simp only [mem_sdiff] at hn
      exact ⟨mem_liveSectors.2 ⟨hin n hn.1.1, hn.1.2⟩, hn.2⟩
    obtain ⟨hp₁, hfaulted, hrecoveries⟩ :=
      hp.addFaults hu hnew (fun n hn => (hmem n hn).1) (fun n hn => (hmem n hn).2) hadd
    refine ⟨(hp₁.removeRecoveries fun n hn => hrecoveries ▸ (mem_inter.1 hn).1).1, _, hfaulted.removeRecoveries,
      fun hne => ?_⟩
    simp only [Bool.not_eq_true', List.isEmpty_eq_false_iff]
    exact fun hnil => hne (hnew.eq_nil_iff.1 hnil)

/-- Skipped sectors are faulty afterwards, unless they have ended, and are not recovering. -/
theorem faulty_of_recordSkippedFaults {skipped : NumberSet} {epoch : Int} {sf : SkippedFaults}
    (h : p.recordSkippedFaults grid size table epoch skipped = .ok (p', sf)) :
    ∀ n ∈ skipped, (n ∈ p'.faults ∨ n ∈ p'.terminated) ∧ n ∉ p'.recoveries := by
  unfold Partition.recordSkippedFaults at h
  split at h
  · next hnil =>
    intro n hn
    exact absurd (isEmpty_iff.1 hnil ▸ hn) (not_mem_empty n)
  · simp only [bind_eq_ok, noting_eq_ok, refusing_eq_ok, refused_bind, ite_refused_eq_ok, validated_eq_ok, pure_eq_ok,
      Prod.mk.injEq] at h
    obtain ⟨-, _, -, w, -, _, -, ⟨p₁, fd⟩, hadd, _, ⟨-, rfl⟩, rfl, -⟩ := h
    simp only [Partition.addFaults, bind_eq_ok, ite_bind_eq_ok, loadExpirations_eq_ok, noting_eq_ok, validated_eq_ok,
      pure_eq_ok, Prod.mk.injEq] at hadd
    obtain ⟨_, -, _, -, _, -, _, -, _, ⟨-, rfl⟩, rfl, -⟩ := hadd
    intro n hn
    constructor
    · unfold Partition.removeRecoveries
      split <;>
      · simp only [mem_union, mem_sdiff]
        tauto
    · rw [recoveries_removeRecoveries]
      simp only [mem_sdiff, mem_inter]
      tauto

/-- The partition when all its live sectors are faulty, with a new queue. -/
def allFaulty (p : Partition) (q : ExpirationQueue) : Partition :=
  { p with
    expirations := .held q
    faults := p.liveSectors
    recoveries := ∅
    unproven := ∅
    faultyPower := p.livePower
    recoveringPower := 0
    unprovenPower := 0 }

/-- All sectors become faulty, and the queue becomes faulty as a whole. -/
theorem Sound.allFaulty (hu : 0 < grid.unit) (hp : p.Sound grid size table) {epoch : Int} {q : ExpirationQueue}
    (h : p.queue.rescheduleAllAsFaults grid epoch = .ok q) :
    (p.allFaulty q).Sound grid size table ∧ FaultedBy grid epoch p.liveSectors p (p.allFaulty q) := by
  obtain ⟨hsound, limit, hlimit, hmoved, hearly⟩ :=
    hp.queue_sound.rescheduleAllAsFaults hu (fun n hn => (hp.live_iff n).2 hn) h
  refine ⟨⟨fun n hn => absurd hn (not_mem_empty n), fun n hn => hn, fun n hn => absurd hn (not_mem_empty n),
    fun n hn => absurd hn (not_mem_empty n), hp.terminated_sectors, hp.livePower_eq, rfl, hp.livePower_eq, rfl, rfl,
    hsound, fun n => (hp.live_iff n).trans (hmoved.holds_iff n).symm, hp.recorded⟩,
    ⟨⟨rfl, rfl, rfl⟩, ?_, fun n hn => hn, limit, fun _ => hlimit, hmoved, fun n _ k hk => hearly k n hk⟩⟩
  ext n
  rw [mem_union]
  exact (or_iff_right_of_imp (hp.faults_live n)).symm

theorem recordMissedProof_eq_ok {epoch : Int} {missed : MissedProof} :
    p.recordMissedProof grid epoch = .ok (p', missed) ↔
      ∃ q q', p.expirations = .held q ∧ q.rescheduleAllAsFaults grid epoch = .ok q' ∧ p' = p.allFaulty q' ∧
        p'.validate = .ok () ∧ missed = {
          delta := -(p.livePower - p.faultyPower - p.unprovenPower)
          penalized := p.recoveringPower + (p.livePower - p.faultyPower)
          newlyFaulty := p.livePower - p.faultyPower } := by
  simp only [Partition.recordMissedProof, bind_eq_ok, loadExpirations_eq_ok, noting_eq_ok, validated_eq_ok,
    pure_eq_ok, Prod.mk.injEq]
  constructor
  · rintro ⟨q, hq, q', hresch, _, ⟨hvalid, rfl⟩, rfl, rfl⟩
    exact ⟨q, q', hq, hresch, rfl, hvalid, rfl⟩
  · rintro ⟨q, q', hq, hresch, rfl, hvalid, rfl⟩
    exact ⟨q, hq, q', hresch, _, ⟨hvalid, rfl⟩, rfl, rfl⟩

/-- A missed proof makes all sectors faulty. -/
theorem Sound.recordMissedProof (hu : 0 < grid.unit) (hp : p.Sound grid size table) {epoch : Int}
    {missed : MissedProof} (h : p.recordMissedProof grid epoch = .ok (p', missed)) :
    p'.Sound grid size table ∧ FaultedBy grid epoch p.liveSectors p p' ∧ p'.unproven = ∅ ∧ p'.recoveries = ∅ ∧
      p'.faults = p.liveSectors := by
  obtain ⟨q, q', hq, hresch, rfl, -, -⟩ := recordMissedProof_eq_ok.1 h
  obtain rfl := queue_eq hq
  obtain ⟨hs, hfaulted⟩ := hp.allFaulty hu hresch
  exact ⟨hs, hfaulted, rfl, rfl, rfl⟩

/-! ### Recovery -/

/-- Recovery ends the faults of the recovering sectors. -/
theorem faults_of_recoverFaults {w : Power} (h : p.recoverFaults grid size table = .ok (p', w)) :
    p'.faults = p.faults \ p.recoveries ∧ p'.recoveries = ∅ ∧ p'.terminated = p.terminated := by
  simp only [Partition.recoverFaults, bind_eq_ok, noting_eq_ok, validated_eq_ok, pure_eq_ok, Prod.mk.injEq] at h
  obtain ⟨_, -, _, -, _, -, _, ⟨-, rfl⟩, rfl, -⟩ := h
  exact ⟨rfl, rfl, rfl⟩

/-- The recovering sectors become active. -/
theorem Sound.recoverFaults (hu : 0 < grid.unit) (hk : table.Keyed) (hp : p.Sound grid size table) {w : Power}
    (h : p.recoverFaults grid size table = .ok (p', w)) :
    p'.Sound grid size table ∧ Keeps p p' ∧ p'.faults = p.faults \ p.recoveries ∧ p'.recoveries = ∅ ∧
      ∀ k n, n ∈ (p'.queue.entry k).members →
        n ∈ (p.queue.entry k).members ∨ (n ∈ p.recoveries ∧ table.DueAt grid n k) := by
  simp only [Partition.recoverFaults, bind_eq_ok, loadExpirations_eq_ok, noting_eq_ok, validated_eq_ok, pure_eq_ok,
    Prod.mk.injEq] at h
  obtain ⟨recovered, hload, q, hq, ⟨q₁, w₁⟩, hresch, _, ⟨-, rfl⟩, rfl, rfl⟩ := h
  obtain rfl := queue_eq hq
  have hl := SectorTable.lists_of_loadAll hk hload
  obtain ⟨hsound, rfl, hheld, hon, hearly⟩ := hp.queue_sound.rescheduleRecovered (Grid.landsOn_self hu) hl
    hp.recoveries_faults hresch
  have hplace : ∀ k n, n ∈ (q₁.entry k).members →
      n ∈ (p.queue.entry k).members ∨ (n ∈ p.recoveries ∧ table.DueAt grid n k) := by
    intro k n hn
    rw [ExpirationSet.mem_members, hon, hearly, mem_sdiff] at hn
    rw [ExpirationSet.mem_members]
    tauto
  refine ⟨⟨hp.unproven_live, fun n hn => hp.faults_live n (mem_sdiff.1 hn).1,
    fun n hn hf => hp.unproven_faults n hn (mem_sdiff.1 hf).1, fun n hn => absurd hn (not_mem_empty n),
    hp.terminated_sectors, hp.livePower_eq, hp.unprovenPower_eq, ?_, ?_, rfl, hsound,
    fun n => (hp.live_iff n).trans (hheld n).symm, hp.recorded⟩, ⟨rfl, rfl, rfl⟩, rfl, rfl, hplace⟩
  · rw [hp.faultyPower_eq, total_sdiff _ hp.recoveries_faults]
  · rw [hp.recoveringPower_eq, sub_self, total_empty]

/-- The unproven sectors become active. -/
theorem Sound.activateUnproven (hp : p.Sound grid size table) : p.activateUnproven.1.Sound grid size table :=
  { hp with
    unproven_live := fun n hn => absurd hn (not_mem_empty n)
    unproven_faults := fun n hn => absurd hn (not_mem_empty n)
    unprovenPower_eq := rfl }

/-- Faulty sectors are declared to recover. -/
theorem Sound.declareRecovered (hk : table.Keyed) (hp : p.Sound grid size table) {numbers : NumberSet}
    (h : p.declareRecovered size table numbers = .ok p') :
    p'.Sound grid size table ∧ Keeps p p' ∧ p'.faults = p.faults ∧ p'.queue = p.queue := by
  simp only [Partition.declareRecovered, requireDeclarable, bind_eq_ok, noting_eq_ok, validated_eq_ok] at h
  obtain ⟨_, -, sectors, hload, w, hw, -, rfl⟩ := h
  obtain rfl := (SectorTable.lists_of_loadAll hk hload).ofSectors hw
  refine ⟨{ hp with recoveries_faults := fun n hn => ?_, recoveringPower_eq := ?_ }, ⟨rfl, rfl, rfl⟩, rfl, rfl⟩
  · rcases mem_union.1 hn with hn | hn
    · exact hp.recoveries_faults n hn
    · exact (mem_inter.1 (mem_sdiff.1 hn).1).2
  · rw [hp.recoveringPower_eq, total_union _ fun n hn hn' => (mem_sdiff.1 hn').2 hn]

/-! ### Moves -/

/-- Those of some sectors that can move: they belong to the partition, are live and not faulty. -/
def movable (p : Partition) (numbers : NumberSet) : NumberSet := numbers ∩ (p.liveSectors \ p.faults)

@[simp] theorem mem_movable {numbers : NumberSet} {n : Nat} :
    n ∈ p.movable numbers ↔ n ∈ numbers ∧ n ∈ p.liveSectors ∧ n ∉ p.faults := by
  rw [movable, mem_inter, mem_sdiff]

theorem sdiff_faults_eq_movable (p : Partition) (numbers : NumberSet) :
    ((numbers ∩ p.sectors) \ p.terminated) \ p.faults = p.movable numbers := NumberSet.ext fun n => by
  simp only [mem_sdiff, mem_inter, mem_movable, mem_liveSectors, and_assoc]

/-- A move concerns the movable sectors only. -/
theorem rescheduleExpirations_eq_ok {epoch : Int} {numbers : NumberSet} {moved : List Sector} :
    p.rescheduleExpirations grid size table epoch numbers = .ok (p', moved) ↔
      table.loadAll (p.movable numbers) = .ok moved ∧ ∃ q q', p.expirations = .held q ∧
        ExpirationQueue.reschedule grid size q epoch moved = .ok q' ∧ p.validate = .ok () ∧
        p' = { p with expirations := .held q' } := by
  simp only [rescheduleExpirations, sdiff_faults_eq_movable, bind_eq_ok, loadExpirations_eq_ok, validated_eq_ok,
    pure_eq_ok, Prod.mk.injEq]
  constructor
  · rintro ⟨sectors, hload, q, hq, q', hresch, _, ⟨hvalid, rfl⟩, rfl, rfl⟩
    exact ⟨hload, q, q', hq, hresch, hvalid, rfl⟩
  · rintro ⟨hload, q, q', hq, hresch, hvalid, rfl⟩
    exact ⟨moved, hload, q, hq, q', hresch, _, ⟨hvalid, rfl⟩, rfl, rfl⟩

/-- The expiration of sectors moves. -/
theorem Sound.rescheduleExpirations (hu : 0 < grid.unit) (hk : table.Keyed) (hp : p.Sound grid size table)
    {epoch : Int} {numbers : NumberSet} {moved : List Sector}
    (h : p.rescheduleExpirations grid size table epoch numbers = .ok (p', moved)) :
    p'.Sound grid size table ∧ Keeps p p' ∧ p'.faults = p.faults ∧
      ∃ ns, table.Lists moved ns ∧ (∀ n ∈ ns, n ∈ numbers ∧ n ∈ p.liveSectors ∧ n ∉ p.faults) ∧
        ∀ k n, n ∈ (p'.queue.entry k).members ↔
          (n ∈ (p.queue.entry k).members ∧ n ∉ ns) ∨ (n ∈ ns ∧ grid.up epoch = .ok (k : Int)) := by
  obtain ⟨hload, q, q₁, hq, hresch, -, rfl⟩ := rescheduleExpirations_eq_ok.1 h
  obtain rfl := queue_eq hq
  have hl := SectorTable.lists_of_loadAll hk hload
  have hmem : ∀ n ∈ p.movable numbers, n ∈ numbers ∧ n ∈ p.liveSectors ∧ n ∉ p.faults := fun n => mem_movable.1
  obtain ⟨hsound, hheld, hon, hearly⟩ := hp.queue_sound.reschedule hu hl (fun n hn => (hmem n hn).2.2) hresch
  have hplace : ∀ k n, n ∈ (q₁.entry k).members ↔
      (n ∈ (p.queue.entry k).members ∧ n ∉ p.movable numbers) ∨
        (n ∈ p.movable numbers ∧ grid.up epoch = .ok (k : Int)) := by
    intro k n
    have hno : n ∈ p.movable numbers → n ∉ (p.queue.entry k).early := fun hn hn' =>
      (hmem n hn).2.2 ((hp.queue_sound.exact k).early_faulty n hn')
    rw [ExpirationSet.mem_members, ExpirationSet.mem_members, hon, hearly]
    tauto
  exact ⟨{ hp with
    held := rfl
    queue_sound := hsound
    live_iff := fun n => (hp.live_iff n).trans (hheld n).symm }, ⟨rfl, rfl, rfl⟩, rfl, _, hl, hmem, hplace⟩

end SectorLedger.Partition

namespace SectorLedger

open NumberSet

/-! ### One sector -/

variable {grid : Grid} {size : SectorSize} {table : SectorTable} {s : Sector} {w : Power} {key : Nat}

/-- The entry of one sector that is on time. -/
def ExpirationSet.alone (s : Sector) (w : Power) : ExpirationSet where
  onTime := singleton s.number
  active := w
  pledge := s.pledge

/-- A partition of one sector, which is proven and expires at a key of the queue. -/
def Partition.alone (s : Sector) (w : Power) (key : Nat) : Partition where
  sectors := singleton s.number
  livePower := w
  expirations := .held (SparseArray.insert ∅ key (.alone s w))

theorem ExpirationSet.mem_alone {n : Nat} : n ∈ (ExpirationSet.alone s w).members ↔ n = s.number := by
  rw [alone, members_of_onTime, mem_singleton]

theorem ExpirationSet.exact_alone (hs : table.Recorded s) (hw : Power.ofSector size s = .ok w) :
    (ExpirationSet.alone s w).Exact size table ∅ := by
  have h : ExpirationSet.Exact size table ∅ {
      onTime := singleton s.number
      active := (singleton s.number).total (table.powerAt size)
      pledge := (singleton s.number).total table.pledgeAt } := .of_onTime fun n _ => not_mem_empty n
  rwa [total_singleton, total_singleton, SectorTable.powerAt_eq hs hw, SectorTable.pledgeAt_eq hs] at h

theorem Partition.mem_queue_alone {j n : Nat} :
    n ∈ ((Partition.alone s w key).queue.entry j).members ↔ j = key ∧ n = s.number := by
  have hentry : (Partition.alone s w key).queue.entry j = if j = key then .alone s w else ∅ :=
    ExpirationQueue.entry_insert ∅ key j _
  rw [hentry]
  split
  · next hj => rw [ExpirationSet.mem_alone, and_iff_right hj]
  · next hj => simp [hj]

theorem Partition.liveSectors_alone : (Partition.alone s w key).liveSectors = singleton s.number := sdiff_empty _

/-- The totals of the one sector are its own, of whatever sign. -/
theorem Partition.sound_alone (hs : table.Recorded s) (hw : Power.ofSector size s = .ok w) (hon : grid.OnGrid key)
    (hkey : key < 0x8000000000000000) : (Partition.alone s w key).Sound grid size table where
  unproven_live n hn := absurd hn (not_mem_empty n)
  faults_live n hn := absurd hn (not_mem_empty n)
  unproven_faults n hn := absurd hn (not_mem_empty n)
  recoveries_faults n hn := absurd hn (not_mem_empty n)
  terminated_sectors n hn := absurd hn (not_mem_empty n)
  livePower_eq := by rw [liveSectors_alone, total_singleton, SectorTable.powerAt_eq hs hw, alone]
  unprovenPower_eq := rfl
  faultyPower_eq := rfl
  recoveringPower_eq := rfl
  held := rfl
  queue_sound := by
    have hempty : ExpirationQueue.Sound grid size table ∅ ∅ := ExpirationQueue.sound_empty
    have hstore := hempty.store hkey hon (ExpirationSet.exact_alone hs hw) fun j _ n hn =>
      absurd hn (by simp [ExpirationQueue.entry])
    rwa [ExpirationQueue.store_of_mem (ExpirationSet.mem_alone.2 rfl)] at hstore
  live_iff n := by
    rw [liveSectors_alone, mem_singleton]
    constructor
    · rintro rfl
      exact ⟨key, mem_queue_alone.2 ⟨rfl, rfl⟩⟩
    · rintro ⟨j, hj⟩
      exact (mem_queue_alone.1 hj).2
  recorded n hn := by
    rw [liveSectors_alone, mem_singleton] at hn
    exact ⟨s, hn ▸ hs, w, hw⟩

end SectorLedger
