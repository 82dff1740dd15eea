import SectorLedger.Proofs.Expiration.Removing
import SectorLedger.Proofs.NumberQueue
import SectorLedger.Proofs.Partition.Sound

/-!
# Sectors that end

Sectors end when they are terminated or when their time comes. They stay in the partition but are not live
any more; those that ended early are filed to be settled.

* `Sound.terminateSectors`, `Sound.popExpired`: sectors end.
* `Sound.popEarlyTerminations`: they are settled.
-/

namespace SectorLedger.Partition

open NumberSet

variable {grid : Grid} {size : SectorSize} {table : SectorTable} {p p' : Partition} {ns numbers : NumberSet}

/-- Sectors were filed to be settled. -/
def FiledEarly (epoch : Int) (ns : NumberSet) (p p' : Partition) : Prop :=
  ∃ q q', p.early = .held q ∧ p'.early = .held q' ∧ NumberQueue.add .finest q epoch ns = .ok q'

theorem recordEarlyTermination_eq_ok {epoch : Int} : p.recordEarlyTermination epoch ns = .ok p' ↔
    ∃ q q', p.early = .held q ∧ NumberQueue.add .finest q epoch ns = .ok q' ∧ { p with early := .held q' } = p' := by
  simp only [recordEarlyTermination, bind_eq_ok, noting_eq_ok, Stored.load_eq_ok, pure_eq_ok]
  constructor
  · rintro ⟨q, hq, q', hq', h⟩
    exact ⟨q, q', hq, hq', h⟩
  · rintro ⟨q, q', hq, hq', h⟩
    exact ⟨q, hq, q', hq', h⟩

/-- The sectors of the set ended. -/
structure Ended (ns : NumberSet) (p p' : Partition) : Prop where
  /-- They stay in the partition. -/
  sectors_eq : p'.sectors = p.sectors
  /-- They count as ended. -/
  terminated_eq : p'.terminated = p.terminated ∪ ns
  /-- They are not faulty any more. -/
  faults_eq : p'.faults = p.faults \ ns
  /-- They were live. -/
  live : ∀ n ∈ ns, n ∈ p.liveSectors
  /-- The others are where they were. -/
  place : ∀ k n, n ∈ (p'.queue.entry k).members ↔ n ∈ (p.queue.entry k).members ∧ n ∉ ns

theorem Ended.liveSectors_eq (h : Ended ns p p') : p'.liveSectors = p.liveSectors \ ns := by
  ext n
  rw [mem_liveSectors, mem_sdiff, mem_liveSectors, h.sectors_eq, h.terminated_eq, mem_union]
  tauto

/-- Nothing ended. -/
theorem Ended.refl (p : Partition) : Ended ∅ p p :=
  ⟨rfl, (union_empty _).symm, (sdiff_empty _).symm, fun n hn => absurd hn (not_mem_empty n),
    fun _ n => (and_iff_left (not_mem_empty n)).symm⟩

/-- Sectors ended, and then others. -/
theorem Ended.trans {p'' : Partition} {ms : NumberSet} (h : Ended ns p p') (h' : Ended ms p' p'') :
    Ended (ns ∪ ms) p p'' where
  sectors_eq := h'.sectors_eq.trans h.sectors_eq
  terminated_eq := by
    rw [h'.terminated_eq, h.terminated_eq]
    exact NumberSet.ext fun n => by simp [or_assoc]
  faults_eq := by
    rw [h'.faults_eq, h.faults_eq]
    exact NumberSet.ext fun n => by simp [and_assoc]
  live n hn := by
    rcases mem_union.1 hn with hn | hn
    · exact h.live n hn
    · exact (mem_sdiff.1 (h.liveSectors_eq ▸ h'.live n hn)).1
  place k n := by rw [h'.place, h.place, mem_union, not_or, and_assoc]

/-- The partition after sectors have ended, with a new queue and the powers that go with them. -/
def ended (p : Partition) (q : ExpirationQueue) (ns : NumberSet) (early : Stored NumberQueue)
    (live faulty recovering unproven : Power) : Partition :=
  { p with
    expirations := .held q
    faults := p.faults \ ns
    recoveries := p.recoveries \ ns
    terminated := p.terminated ∪ ns
    unproven := p.unproven \ (ns ∩ p.unproven)
    early
    livePower := p.livePower - live
    faultyPower := p.faultyPower - faulty
    recoveringPower := p.recoveringPower - recovering
    unprovenPower := p.unprovenPower - unproven }

/-- What ends leaves each set and each total. -/
theorem Sound.ended (hp : p.Sound grid size table) {q : ExpirationQueue} (hlive : ∀ n ∈ ns, n ∈ p.liveSectors)
    (hq : q.Sound grid size table p.faults)
    (hplace : ∀ k n, n ∈ (q.entry k).members ↔ n ∈ (p.queue.entry k).members ∧ n ∉ ns) (early : Stored NumberQueue)
    {live faulty recovering unproven : Power}
    (hlivePower : live = ns.total (table.powerAt size))
    (hfaultyPower : faulty = (ns ∩ p.faults).total (table.powerAt size))
    (hrecovering : recovering = (ns ∩ p.recoveries).total (table.powerAt size))
    (hunproven : unproven = (ns ∩ p.unproven).total (table.powerAt size)) :
    (p.ended q ns early live faulty recovering unproven).Sound grid size table := by
  have hholds : ∀ n, q.Holds n ↔ n ∈ p.liveSectors ∧ n ∉ ns := by
    intro n
    rw [hp.live_iff]
    constructor
    · rintro ⟨k, hk⟩
      exact ⟨⟨k, ((hplace k n).1 hk).1⟩, ((hplace k n).1 hk).2⟩
    · rintro ⟨⟨k, hk⟩, hn⟩
      exact ⟨k, (hplace k n).2 ⟨hk, hn⟩⟩
  have hmem : ∀ n, n ∈ p.sectors \ (p.terminated ∪ ns) ↔ n ∈ p.liveSectors ∧ n ∉ ns := by
    intro n
    rw [mem_sdiff, mem_union, mem_liveSectors]
    tauto
  rw [Partition.ended]
  refine ⟨fun n hn => ?_, fun n hn => ?_, fun n hn hn' => ?_, fun n hn => ?_, fun n hn => ?_, ?_, ?_, ?_, ?_, rfl, ?_,
    fun n => (hmem n).trans (hholds n).symm, fun n hn => hp.recorded n ((hmem n).1 hn).1⟩
  · rw [mem_sdiff, mem_inter] at hn
    exact (hmem n).2 ⟨hp.unproven_live n hn.1, fun hns => hn.2 ⟨hns, hn.1⟩⟩
  · exact (hmem n).2 ⟨hp.faults_live n (mem_sdiff.1 hn).1, (mem_sdiff.1 hn).2⟩
  · exact hp.unproven_faults n (mem_sdiff.1 hn).1 (mem_sdiff.1 hn').1
  · exact mem_sdiff.2 ⟨hp.recoveries_faults n (mem_sdiff.1 hn).1, (mem_sdiff.1 hn).2⟩
  · exact (mem_union.1 hn).elim (hp.terminated_sectors n) fun hn => (mem_liveSectors.1 (hlive n hn)).1
  · rw [hp.livePower_eq, hlivePower, ← total_sdiff _ hlive]
    exact total_congr_set _ fun n => by rw [mem_sdiff, ← hmem]; rfl
  · rw [hp.unprovenPower_eq, hunproven, total_sdiff _ fun n hn => (mem_inter.1 hn).2]
  · rw [hp.faultyPower_eq, hfaultyPower, ← total_sdiff _ fun n hn => (mem_inter.1 hn).2]
    refine total_congr_set _ fun n => ?_
    simp only [mem_sdiff, mem_inter]
    tauto
  · rw [hp.recoveringPower_eq, hrecovering, ← total_sdiff _ fun n hn => (mem_inter.1 hn).2]
    refine total_congr_set _ fun n => ?_
    simp only [mem_sdiff, mem_inter]
    tauto
  · refine hq.congr fun n hn => ?_
    have := ((hholds n).1 hn).2
    rw [mem_sdiff]
    tauto

/-- The steps by which sectors are terminated. -/
theorem terminateSectors_eq_ok {maxSectors : Nat} {epoch : Int} {removed : ExpirationSet} :
    p.terminateSectors grid size table maxSectors epoch numbers = .ok (p', removed) ↔
      (∀ n ∈ numbers, n ∈ p.liveSectors) ∧ ∃ ss q q' taken recovering early early' unprovenInfos w,
        table.loadAll numbers = .ok ss ∧ p.expirations = .held q ∧
        q.removeSectors grid size maxSectors ss p.faults p.recoveries = .ok (q', taken, recovering) ∧
        p.early = .held early ∧ NumberQueue.add .finest early epoch taken.members = .ok early' ∧
        selectSectors ss (taken.members ∩ p.unproven) = .ok unprovenInfos ∧
        Power.ofSectors size unprovenInfos = .ok w ∧
        p' = p.ended q' taken.members (.held early') (taken.active + taken.faulty) taken.faulty recovering w ∧
        p'.validate = .ok () ∧ removed = { taken with active := taken.active - w } := by
  simp only [Partition.terminateSectors, refused_bind, ite_refused_eq_ok, bind_eq_ok, loadExpirations_eq_ok,
    noting_eq_ok, recordEarlyTermination_eq_ok, validated_eq_ok, pure_eq_ok, Prod.mk.injEq, containsAll_iff,
    Bool.not_eq_true', Bool.not_eq_false, sub_sub]
  refine and_congr_right fun _ => ?_
  constructor
  · rintro ⟨ss, hload, q, hq, ⟨q', taken, recovering⟩, hremove, _, ⟨early, early', hearly, hadd, rfl⟩, unprovenInfos,
      hselect, w, hw, _, ⟨hvalid, rfl⟩, rfl, rfl⟩
    exact ⟨ss, q, q', taken, recovering, early, early', unprovenInfos, w, hload, hq, hremove, hearly, hadd, hselect, hw,
      rfl, hvalid, rfl⟩
  · rintro ⟨ss, q, q', taken, recovering, early, early', unprovenInfos, w, hload, hq, hremove, hearly, hadd, hselect, hw,
      rfl, hvalid, rfl⟩
    exact ⟨ss, hload, q, hq, ⟨q', taken, recovering⟩, hremove, _, ⟨early, early', hearly, hadd, rfl⟩, unprovenInfos,
      hselect, w, hw, _, ⟨hvalid, rfl⟩, rfl, rfl⟩

/-- What has left the queue when live sectors were terminated, and what has come of the partition. -/
structure Terminated (grid : Grid) (size : SectorSize) (table : SectorTable) (epoch : Int) (numbers : NumberSet)
    (p p' : Partition) (removed : ExpirationSet) : Prop where
  /-- The partition stays sound. -/
  sound : p'.Sound grid size table
  /-- The sectors ended. -/
  ended : Ended numbers p p'
  /-- They were filed to be settled. -/
  filed : FiledEarly epoch numbers p p'
  /-- None of them is recovering. -/
  recoveries_eq : p'.recoveries = p.recoveries \ numbers
  /-- None of them is unproven. -/
  unproven_eq : p'.unproven = p.unproven \ numbers
  /-- The others are on time where they were. -/
  onTime : ∀ k, (p'.queue.entry k).onTime = (p.queue.entry k).onTime \ numbers
  /-- And early where they were. -/
  early : ∀ k, (p'.queue.entry k).early = (p.queue.entry k).early \ numbers
  /-- Those that were on time. -/
  removedOnTime : ∀ n, n ∈ removed.onTime ↔ n ∈ numbers ∧ ∃ k, n ∈ (p.queue.entry k).onTime
  /-- Those that were early. -/
  removedEarly : ∀ n, n ∈ removed.early ↔ n ∈ numbers ∧ ∃ k, n ∈ (p.queue.entry k).early
  /-- The totals, with the power that never counted, are exact. -/
  exact : ExpirationSet.Exact size table p.faults
    { removed with active := removed.active + (numbers ∩ p.unproven).total (table.powerAt size) }

theorem Terminated.members_eq {epoch : Int} {removed : ExpirationSet}
    (h : Terminated grid size table epoch numbers p p' removed) (hp : p.Sound grid size table) :
    removed.members = numbers := by
  ext n
  rw [ExpirationSet.mem_members, h.removedOnTime, h.removedEarly, ← and_or_left]
  refine and_iff_left_of_imp fun hn => ?_
  obtain ⟨k, hk⟩ := (hp.live_iff n).1 (h.ended.live n hn)
  exact (ExpirationSet.mem_members.1 hk).imp (fun hk => ⟨k, hk⟩) fun hk => ⟨k, hk⟩

/-- The powers that leave with the sectors. -/
theorem Sound.ended_removed (hp : p.Sound grid size table) {q : ExpirationQueue} {taken : ExpirationSet}
    {recovering : Power} (hlive : ∀ n ∈ numbers, n ∈ p.liveSectors)
    (h : ExpirationQueue.Removed grid size table p.faults numbers p.recoveries p.queue taken recovering q)
    (early : Stored NumberQueue) :
    (p.ended q numbers early (taken.active + taken.faulty) taken.faulty recovering
        ((numbers ∩ p.unproven).total (table.powerAt size))).Sound grid size table ∧
      ∀ k n, n ∈ (q.entry k).members ↔ n ∈ (p.queue.entry k).members ∧ n ∉ numbers := by
  have hplace : ∀ k n, n ∈ (q.entry k).members ↔ n ∈ (p.queue.entry k).members ∧ n ∉ numbers := by
    intro k n
    rw [ExpirationSet.mem_members, ExpirationSet.mem_members, h.onTime, h.early, mem_sdiff, mem_sdiff]
    tauto
  have hpower : taken.active + taken.faulty = numbers.total (table.powerAt size) := by
    rw [h.exact.active_add_faulty, h.members_eq]
  have hfaulty : taken.faulty = (numbers ∩ p.faults).total (table.powerAt size) := by
    rw [h.exact.faulty_eq, h.members_eq]
  have hrecovering : recovering = (numbers ∩ p.recoveries).total (table.powerAt size) := by
    rw [h.recovering_eq]
    refine total_congr_set _ fun n => ?_
    have := hp.recoveries_faults n
    simp only [mem_inter]
    tauto
  exact ⟨hp.ended hlive h.sound hplace early hpower hfaulty hrecovering rfl, hplace⟩

/-- Live sectors are terminated. -/
theorem Sound.terminated (hu : 0 < grid.unit) (hk : table.Keyed) (hp : p.Sound grid size table)
    {maxSectors : Nat} {epoch : Int} {removed : ExpirationSet}
    (h : p.terminateSectors grid size table maxSectors epoch numbers = .ok (p', removed)) :
    Terminated grid size table epoch numbers p p' removed := by
  obtain ⟨hlive, ss, q, q', taken, recovering, early, early', unprovenInfos, w, hload, hq, hremove, hearly, hadd,
    hselect, hw, rfl, -, rfl⟩ := terminateSectors_eq_ok.1 h
  obtain rfl := queue_eq hq
  have hl := SectorTable.lists_of_loadAll hk hload
  have hremoved := hp.queue_sound.removeSectors hu hl hremove
  rw [hremoved.members_eq] at hadd hselect ⊢
  obtain rfl := (hl.select hselect).ofSectors hw
  obtain ⟨hsound, hplace⟩ := hp.ended_removed hlive hremoved (.held early')
  refine ⟨hsound, ⟨rfl, rfl, rfl, hlive, hplace⟩, ⟨early, early', hearly, rfl, hadd⟩, rfl, ?_, hremoved.onTime,
    hremoved.early, hremoved.takenOnTime, hremoved.takenEarly, ?_⟩
  · ext n
    simp only [Partition.ended, mem_sdiff, mem_inter]
    tauto
  · simp only [sub_add_cancel]
    exact hremoved.exact

/-- Live sectors are terminated. Each of them was on time or early. -/
theorem Sound.terminateSectors (hu : 0 < grid.unit) (hk : table.Keyed) (hp : p.Sound grid size table)
    {maxSectors : Nat} {epoch : Int} {removed : ExpirationSet}
    (h : p.terminateSectors grid size table maxSectors epoch numbers = .ok (p', removed)) :
    p'.Sound grid size table ∧ Ended numbers p p' ∧ FiledEarly epoch numbers p p' ∧ removed.members = numbers ∧
      (∀ n ∈ removed.onTime, n ∉ removed.early) := by
  have hterminated := hp.terminated hu hk h
  exact ⟨hterminated.sound, hterminated.ended, hterminated.filed, hterminated.members_eq hp, hterminated.exact.apart⟩

/-- The partition after what is due has left its queue. -/
def expired (p : Partition) (q : ExpirationQueue) (popped : ExpirationSet) (early : Stored NumberQueue) : Partition :=
  { p with
    expirations := .held q
    terminated := p.terminated ∪ (popped.onTime ∪ popped.early)
    faults := p.faults \ (popped.onTime ∪ popped.early)
    early
    livePower := p.livePower - (popped.active + popped.faulty)
    faultyPower := p.faultyPower - popped.faulty }

/-- Every sector that is due ends, if none is unproven or recovering. -/
theorem Sound.expired (hp : p.Sound grid size table) (hunproven : p.unproven = ∅) (hrecoveries : p.recoveries = ∅)
    {upTo : Int} {q : ExpirationQueue} {popped : ExpirationSet} (hpop : p.queue.popUntil upTo = (q, popped))
    (early : Stored NumberQueue) :
    (p.expired q popped early).Sound grid size table ∧ Ended popped.members p (p.expired q popped early) := by
  obtain ⟨hsound, hentry, hexact, hon, hearly⟩ := hp.queue_sound.popUntil hpop
  have hmem : ∀ n, n ∈ popped.members ↔ ∃ k : Nat, (k : Int) ≤ upTo ∧ n ∈ (p.queue.entry k).members := by
    intro n
    simp only [ExpirationSet.mem_members, hon, hearly, and_or_left, exists_or]
  have hlive : ∀ n ∈ popped.members, n ∈ p.liveSectors := fun n hn => by
    obtain ⟨k, -, hk⟩ := (hmem n).1 hn
    exact (hp.live_iff n).2 ⟨k, hk⟩
  have hplace : ∀ k n, n ∈ (q.entry k).members ↔ n ∈ (p.queue.entry k).members ∧ n ∉ popped.members := by
    intro k n
    rw [hentry]
    split
    · next hle =>
      refine ⟨fun hn => by simp at hn, ?_⟩
      rintro ⟨hn, hno⟩
      exact absurd ((hmem n).2 ⟨k, hle, hn⟩) hno
    · next hlt =>
      refine ⟨fun hn => ⟨hn, fun hm => ?_⟩, And.left⟩
      obtain ⟨j, hj, hnj⟩ := (hmem n).1 hm
      have := hp.queue_sound.once k j n hn hnj
      omega
  have hnew := hp.ended hlive hsound hplace early hexact.active_add_faulty hexact.faulty_eq rfl rfl
  have hinter : ∀ s : NumberSet, s ∩ ∅ = ∅ := fun s => NumberSet.ext fun n => by simp
  simp only [Partition.ended, hunproven, hrecoveries, hinter, total_empty, sub_zero, empty_sdiff] at hnew
  refine ⟨?_, ⟨rfl, rfl, rfl, hlive, hplace⟩⟩
  rw [Partition.expired, hunproven, hrecoveries]
  exact hnew

theorem popExpired_eq_ok {upTo : Int} {popped : ExpirationSet} : p.popExpired upTo = .ok (p', popped) ↔
    p.unproven = ∅ ∧ p.recoveries = ∅ ∧ p.recoveringPower = 0 ∧ ∃ q eq eq', p.expirations = .held q ∧
      popped = (q.popUntil upTo).2 ∧ (∀ n ∈ popped.members, n ∉ p.terminated) ∧ p.early = .held eq ∧
      NumberQueue.add .finest eq upTo popped.early = .ok eq' ∧ p' = p.expired (q.popUntil upTo).1 popped (.held eq') ∧
      p'.validate = .ok () := by
  simp only [Partition.popExpired, refused_bind, ite_refused_eq_ok, bind_eq_ok, loadExpirations_eq_ok, noting_eq_ok,
    recordEarlyTermination_eq_ok, validated_eq_ok, pure_eq_ok, Prod.mk.injEq, Bool.not_eq_true', Bool.not_eq_false,
    NumberSet.isEmpty_iff, Power.isZero_iff, containsAny_iff]
  constructor
  · rintro ⟨hunproven, q, hq, hrecoveries, hrecovering, hlive, _, ⟨eq, eq', heq, hadd, rfl⟩, _, ⟨hvalid, rfl⟩, rfl, rfl⟩
    exact ⟨hunproven, hrecoveries, hrecovering, q, eq, eq', hq, rfl, fun n hn hn' => hlive ⟨n, hn, hn'⟩, heq, hadd, rfl,
      hvalid⟩
  · rintro ⟨hunproven, hrecoveries, hrecovering, q, eq, eq', hq, rfl, hlive, heq, hadd, rfl, hvalid⟩
    refine ⟨hunproven, q, hq, hrecoveries, hrecovering, ?_, _, ⟨eq, eq', heq, hadd, rfl⟩, _, ⟨hvalid, rfl⟩, rfl, rfl⟩
    rintro ⟨n, hn, hn'⟩
    exact hlive n hn hn'

/-- What ends is what leaves the queue. -/
theorem Sound.popExpired (hp : p.Sound grid size table) {upTo : Int} {popped : ExpirationSet}
    (h : p.popExpired upTo = .ok (p', popped)) :
    p'.Sound grid size table ∧ Ended popped.members p p' ∧ FiledEarly upTo popped.early p p' ∧
      popped.Exact size table p.faults ∧
      (∀ n, n ∈ popped.onTime ↔ ∃ k : Nat, (k : Int) ≤ upTo ∧ n ∈ (p.queue.entry k).onTime) ∧
      (∀ k : Nat, p'.queue.entry k = if (k : Int) ≤ upTo then ∅ else p.queue.entry k) ∧
      p'.unproven = ∅ ∧ p'.recoveries = ∅ := by
  obtain ⟨hunproven, hrecoveries, -, q, eq, eq', hq, rfl, -, heq, hadd, rfl, -⟩ := popExpired_eq_ok.1 h
  obtain rfl := queue_eq hq
  obtain ⟨-, hentry, hexact, hon, -⟩ := hp.queue_sound.popUntil rfl
  obtain ⟨hs, hended⟩ := hp.expired hunproven hrecoveries rfl (.held eq')
  exact ⟨hs, hended, ⟨eq, eq', heq, rfl, hadd⟩, hexact, hon, hentry, hunproven, hrecoveries⟩

/-- Sectors that ended early are settled. -/
theorem Sound.popEarlyTerminations (hp : p.Sound grid size table) {maxSectors : Nat} {taken : Terminations}
    {more : Bool} (h : p.popEarlyTerminations maxSectors = .ok (p', taken, more)) :
    p'.Sound grid size table ∧ p'.sectors = p.sectors ∧ p'.terminated = p.terminated ∧ p'.faults = p.faults ∧
      p'.queue = p.queue ∧ ∃ q, p'.early = .held q ∧ more = !SparseArray.isEmpty q := by
  simp only [Partition.popEarlyTerminations, bind_eq_ok, Stored.load_eq_ok, noting_eq_ok, within_eq_ok,
    validated_eq_ok, pure_eq_ok, Prod.mk.injEq] at h
  obtain ⟨q, hq, s, -, _, ⟨-, rfl⟩, rfl, rfl, rfl⟩ := h
  exact ⟨{ hp with }, rfl, rfl, rfl, rfl, s.queue, rfl, rfl⟩

end SectorLedger.Partition
