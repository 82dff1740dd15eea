import SectorLedger.Proofs.NumberQueue
import SectorLedger.Proofs.Partition.Sound
import SectorLedger.Proofs.Settling

/-!
# Settling the early terminations of a partition

The sectors of a partition that ended early wait in a queue, by the epoch at which they ended. They are taken in order
until the limit is reached; the last entry may be taken in part.

* `settle_total`: the walk through the queue.
* `Partition.workload`: what there is to settle in a partition.
* `popEarlyTerminations_worked`: taking some of it.
-/

namespace SectorLedger

open NumberSet

namespace NumberQueue

/-- The number stands under the epoch. -/
def Files (q : NumberQueue) (epoch : Int) (n : Nat) : Prop := ∃ k : Nat, epoch = k ∧ n ∈ q.entry k

/-- How many entries and numbers there are. -/
def backlog (q : NumberQueue) : Int := SparseArray.total (fun ns : NumberSet => 1 + (ns.count : Int)) q

variable {q : NumberQueue} {k : Nat} {ns : NumberSet}

theorem backlog_nonneg (q : NumberQueue) : 0 ≤ q.backlog :=
  SparseArray.total_induction (P := (0 ≤ ·)) (fun _ _ => Int.add_nonneg) le_rfl fun _ ns _ => by omega

theorem not_files (h : SparseArray.isEmpty q = true) (e : Int) (n : Nat) : ¬q.Files e n := by
  rintro ⟨k, -, hn⟩
  rw [entry, SparseArray.isEmpty_iff.1 h k] at hn
  exact not_mem_empty n hn

theorem files_iff_mem_entries {e : Int} {n : Nat} : q.Files e n ↔ ∃ c ∈ q.entries, e = c.1 ∧ n ∈ c.2 := by
  constructor
  · rintro ⟨k, rfl, hn⟩
    exact ⟨(k, q.entry k), SparseArray.mem_entries.2 (get?_of_mem hn), rfl, hn⟩
  · rintro ⟨⟨k, ns⟩, hc, rfl, hn⟩
    exact ⟨k, rfl, (entry_of_get? (SparseArray.mem_entries.1 hc)).symm ▸ hn⟩

/-- An entry stands under its key. -/
theorem files_iff_of_get? (h : SparseArray.get? q k = some ns) {e : Int} {n : Nat} :
    q.Files e n ↔ (e = k ∧ n ∈ ns) ∨ Files (SparseArray.erase q k) e n := by
  constructor
  · rintro ⟨j, rfl, hn⟩
    by_cases hj : j = k
    · subst hj
      exact .inl ⟨rfl, entry_of_get? h ▸ hn⟩
    · exact .inr ⟨j, rfl, by rwa [entry, SparseArray.get?_erase, if_neg hj]⟩
  · rintro (⟨rfl, hn⟩ | ⟨j, rfl, hn⟩)
    · exact ⟨k, rfl, (entry_of_get? h).symm ▸ hn⟩
    · rw [entry, SparseArray.get?_erase] at hn
      split at hn
      · exact absurd hn (not_mem_empty n)
      · exact ⟨j, rfl, hn⟩

theorem not_files_erase (q : NumberQueue) (k n : Nat) : ¬Files (SparseArray.erase q k) k n := by
  rintro ⟨j, hj, hn⟩
  obtain rfl : k = j := Int.ofNat.inj hj
  rw [entry, SparseArray.get?_erase, if_pos rfl] at hn
  exact not_mem_empty n hn

end NumberQueue

namespace Partition

/-! ### The walk through the queue -/

section Walk

variable {pending : Int → Nat → Prop} {s : Settling} {key maxSectors : Nat} {numbers : NumberSet}

/-- An entry is taken as a whole. -/
def Settling.whole (s : Settling) (key : Nat) (numbers : NumberSet) : Settling where
  queue := SparseArray.erase s.queue key
  taken := { s.taken with
    sectors := mergeByEpoch key numbers s.taken.sectors
    processed := s.taken.processed + numbers.count }

/-- The first few sectors of an entry are taken. -/
def Settling.part (s : Settling) (key : Nat) (numbers : NumberSet) (limit : Nat) : Settling where
  queue := SparseArray.insert s.queue key (numbers \ numbers.takeFirst limit)
  taken := { s.taken with
    sectors := mergeByEpoch key (numbers.takeFirst limit) s.taken.sectors
    processed := s.taken.processed + limit }

/-- The walk, one entry further. -/
theorem settle_cons (hkey : key < 0x8000000000000000) (hle : s.taken.processed ≤ maxSectors)
    (entries : List (Nat × NumberSet)) : settle maxSectors ((key, numbers) :: entries) s =
      if maxSectors - s.taken.processed < numbers.count then .ok (s.part key numbers (maxSectors - s.taken.processed))
      else if s.taken.processed + numbers.count < maxSectors then settle maxSectors entries (s.whole key numbers)
      else .ok (s.whole key numbers) := by
  have hepoch : Count.asEpoch key = .ok (key : Int) := Count.asEpoch_eq_ok.2 ⟨hkey, rfl⟩
  have hlimit : Count.sub maxSectors s.taken.processed = .ok (maxSectors - s.taken.processed) :=
    Count.sub_eq_ok.2 ⟨hle, rfl⟩
  rw [settle, hepoch, hlimit]
  rfl

theorem taken_whole (h : Taken pending s.queue.Files s.taken) (hget : SparseArray.get? s.queue key = some numbers) :
    Taken pending (s.whole key numbers).queue.Files (s.whole key numbers).taken :=
  h.file (fun _ _ => NumberQueue.files_iff_of_get? hget) fun n _ => NumberQueue.not_files_erase s.queue key n

theorem taken_part (h : Taken pending s.queue.Files s.taken) (hget : SparseArray.get? s.queue key = some numbers)
    {limit : Nat} (hlimit : limit ≤ numbers.count) :
    Taken pending (s.part key numbers limit).queue.Files (s.part key numbers limit).taken := by
  have hset : SparseArray.get? (s.part key numbers limit).queue key = some (numbers \ numbers.takeFirst limit) := by
    rw [Settling.part, SparseArray.get?_insert, if_pos rfl]
  have herase : SparseArray.erase (s.part key numbers limit).queue key = SparseArray.erase s.queue key :=
    SparseArray.ext fun j => by
      rw [Settling.part, SparseArray.get?_erase, SparseArray.get?_erase, SparseArray.get?_insert]
      split <;> rfl
  have hleft : ∀ e n, s.queue.Files e n ↔
      (e = key ∧ n ∈ numbers.takeFirst limit) ∨ (s.part key numbers limit).queue.Files e n := fun e n => by
    have hsub : n ∈ numbers.takeFirst limit → n ∈ numbers := mem_of_mem_takeFirst
    rw [NumberQueue.files_iff_of_get? hget, NumberQueue.files_iff_of_get? hset, herase, mem_sdiff]
    tauto
  have hrest : ∀ n ∈ numbers.takeFirst limit, ¬(s.part key numbers limit).queue.Files key n := fun n hn hfiles => by
    rw [NumberQueue.files_iff_of_get? hset, herase, mem_sdiff] at hfiles
    rcases hfiles with ⟨-, -, hno⟩ | hfiles
    · exact hno hn
    · exact NumberQueue.not_files_erase s.queue key n hfiles
  have hfile := h.file hleft hrest
  rwa [count_takeFirst, Nat.min_eq_left hlimit] at hfile

/-- Either way there is less in the queue. -/
theorem backlog_whole (hget : SparseArray.get? s.queue key = some numbers) :
    (s.whole key numbers).queue.backlog < s.queue.backlog := by
  simp only [NumberQueue.backlog, Settling.whole]
  rw [SparseArray.total_erase _ hget]
  omega

theorem backlog_part (hget : SparseArray.get? s.queue key = some numbers) {limit : Nat} (hpos : 0 < limit)
    (hlimit : limit ≤ numbers.count) : (s.part key numbers limit).queue.backlog < s.queue.backlog := by
  have hcount := count_takeFirst numbers limit
  have hleft := count_sdiff (s := numbers) fun n (hn : n ∈ numbers.takeFirst limit) => mem_of_mem_takeFirst hn
  simp only [NumberQueue.backlog, Settling.part]
  rw [SparseArray.total_insert_of_get? _ hget]
  omega

theorem bounded_whole (h : s.queue.Bounded) : (s.whole key numbers).queue.Bounded := fun k v hv =>
  h k v (SparseArray.get?_erase_eq_some.1 hv).2

theorem bounded_part (h : s.queue.Bounded) (hkey : key < 0x8000000000000000) (limit : Nat) :
    (s.part key numbers limit).queue.Bounded := fun k v hv => by
  rw [Settling.part] at hv
  obtain ⟨rfl, -⟩ | ⟨-, hv⟩ := SparseArray.get?_insert_eq_some.1 hv
  · exact hkey
  · exact h k v hv

/-- **The walk takes entries in order until the limit is reached.** -/
theorem settle_total {entries : List (Nat × NumberSet)} (hsorted : entries.Pairwise (·.1 < ·.1))
    (hget : ∀ c ∈ entries, SparseArray.get? s.queue c.1 = some c.2) (hbounded : s.queue.Bounded)
    (htaken : Taken pending s.queue.Files s.taken) (hbelow : s.taken.processed < maxSectors) :
    ∃ s', settle maxSectors entries s = .ok s' ∧ s'.queue.Bounded ∧ Taken pending s'.queue.Files s'.taken ∧
      s'.taken.processed ≤ maxSectors ∧ s'.taken.partitions = s.taken.partitions ∧
      s'.queue.backlog ≤ s.queue.backlog ∧ (entries ≠ [] → s'.queue.backlog < s.queue.backlog) := by
  induction entries generalizing s with
  | nil => exact ⟨s, rfl, hbounded, htaken, hbelow.le, rfl, le_rfl, fun h => absurd rfl h⟩
  | cons c entries ih =>
    obtain ⟨key, numbers⟩ := c
    obtain ⟨hhead, hrest⟩ := List.pairwise_cons.1 hsorted
    have hhere := hget (key, numbers) List.mem_cons_self
    have hkey : key < 0x8000000000000000 := hbounded key numbers hhere
    have hwhole := backlog_whole hhere
    rw [settle_cons hkey hbelow.le]
    by_cases hpart : maxSectors - s.taken.processed < numbers.count
    · -- the limit is reached within the entry
      have hless := backlog_part hhere (Nat.sub_pos_of_lt hbelow) hpart.le
      refine ⟨_, if_pos hpart, bounded_part hbounded hkey _, taken_part htaken hhere hpart.le, ?_, rfl, hless.le,
        fun _ => hless⟩
      simp only [Settling.part]
      omega
    · rw [if_neg hpart]
      by_cases hmore : s.taken.processed + numbers.count < maxSectors
      · obtain ⟨s', hs', hbounded', htaken', hle', hpartitions, hbacklog, -⟩ := ih (s := s.whole key numbers) hrest
          (fun c hc => by
            rw [Settling.whole, SparseArray.get?_erase, if_neg (Nat.ne_of_gt (hhead c hc))]
            exact hget c (List.mem_cons_of_mem _ hc))
          (bounded_whole hbounded) (taken_whole htaken hhere) hmore
        exact ⟨s', by rw [if_pos hmore, hs'], hbounded', htaken', hle', hpartitions, hbacklog.trans hwhole.le,
          fun _ => hbacklog.trans_lt hwhole⟩
      · refine ⟨_, if_neg hmore, bounded_whole hbounded, taken_whole htaken hhere, ?_, rfl, hwhole.le, fun _ => hwhole⟩
        simp only [Settling.whole]
        omega

end Walk

/-! ### The partition -/

variable {p p' : Partition}

/-- The queue of early terminations. Without contents it counts as empty. -/
def earlyQueue (p : Partition) : NumberQueue :=
  match p.early with
  | .held q => q
  | .missing => ∅

/-- The sector ended early at the epoch and is not settled yet. -/
def Pending (p : Partition) (epoch : Int) (n : Nat) : Prop := p.earlyQueue.Files epoch n

/-- Nothing is queued to be settled. -/
def Drained (p : Partition) : Prop := SparseArray.isEmpty p.earlyQueue = true

/-- A valid partition with a queue of early terminations whose keys are epochs. -/
structure Settleable (p : Partition) : Prop where
  /-- The queue is there. -/
  held : p.early = .held p.earlyQueue
  /-- Its keys are epochs. -/
  bounded : p.earlyQueue.Bounded
  /-- The partition passes its check. -/
  valid : p.validate = .ok ()

/-- Two partitions that differ at most in their early terminations. -/
def OnlyEarly (p p' : Partition) : Prop := p' = { p with early := p'.early }

theorem OnlyEarly.trans {p'' : Partition} (h : OnlyEarly p p') (h' : OnlyEarly p' p'') : OnlyEarly p p'' := by
  rw [OnlyEarly] at h h' ⊢
  rw [h', h]

/-- What there is to settle in a partition. -/
def workload : Workload Partition where
  Pending := Pending
  Drained := Drained
  backlog p := p.earlyQueue.backlog
  partitionAt p path := if path = [] then some p else none
  Ready := Settleable
  Same := OnlyEarly
  same_refl _ := rfl
  same_trans := OnlyEarly.trans
  not_pending h := NumberQueue.not_files h
  backlog_nonneg p := NumberQueue.backlog_nonneg p.earlyQueue

/-- **Sectors that ended early are taken from the queue of a partition.** -/
theorem popEarlyTerminations_worked (hp : p.Settleable) {maxSectors : Nat} (hmax : 0 < maxSectors) :
    ∃ p' t more, p.popEarlyTerminations maxSectors = .ok (p', t, more) ∧
      Worked workload 1 maxSectors p p' t more := by
  obtain ⟨s, hs, hbounded, htaken, hle, hpartitions, -, hprogress⟩ := settle_total
    (s := { queue := p.earlyQueue, taken := { partitions := 1 } }) p.earlyQueue.ascending
    (fun c hc => SparseArray.mem_entries.1 hc) hp.bounded (.none _ rfl rfl) hmax
  refine ⟨{ p with early := .held s.queue }, s.taken, !SparseArray.isEmpty s.queue, ?_, {
    taken := htaken
    partitions_le := hpartitions.le
    changed := ⟨[[]], hpartitions.ge, fun path hpath => ?_⟩
    processed_le := hle
    more_iff := by
      rw [Bool.not_eq_false']
      rfl
    progress := fun hbusy => hprogress fun hnil => hbusy (List.isEmpty_iff.2 hnil)
    ready := ⟨rfl, hbounded, hp.valid⟩
    same := rfl }⟩
  · simp only [Partition.popEarlyTerminations, bind_eq_ok, Stored.load_eq_ok, noting_eq_ok, within_eq_ok,
      validated_eq_ok, pure_eq_ok]
    exact ⟨_, hp.held, s, hs, _, ⟨hp.valid, rfl⟩, rfl⟩
  · -- there is no partition but the one that the empty path leads to
    have hne : path ≠ [] := fun hnil => hpath (by simp [hnil])
    simp only [workload, hne, if_false]

end Partition

end SectorLedger
