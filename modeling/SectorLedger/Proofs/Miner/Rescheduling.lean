import SectorLedger.Proofs.Deadline.Adding
import SectorLedger.Proofs.Deadline.Rescheduling
import SectorLedger.Proofs.Deadline.Run
import SectorLedger.Proofs.Miner.Clock
import SectorLedger.Proofs.Miner.Settling

/-!
# Sectors that are to expire with their next window

Sectors are addressed by deadline and partition, and made to expire at the end of the next window of their deadline that
has not closed. Those that can move do. What a request asks for beyond that does no harm, as long as the partitions pass
their checks, and the positions of partitions that the request names are ones that an array can have.

* `Window.IsNextLast`, `nextLast_of_nextNotElapsed`: the epoch to which the sectors of a deadline move.
* `MinerState.Rescheduled`: the specification. `MovingTo`: how far the move has come.
* `Addressable`: a request that names only positions of arrays.
* `rescheduleExpirations_moves_movable`: a move meets it, and a request does the same as its movable part.
* `farRequest_fails`: a missing partition that is not passed over.
-/

namespace SectorLedger

namespace Window

variable {timing : Timing} {start now epoch : Int} {i : Nat} {w w' : Window}

/-- The epoch is the last one of a window of the deadline, in the period that begins at `start` or in a later one, and
this window is the first of them that has not closed. -/
structure IsNextLast (timing : Timing) (start : Int) (i : Nat) (now epoch : Int) : Prop where
  /-- The window has not closed. -/
  le : now ≤ epoch
  /-- It is a window of the deadline, and all windows before it have closed. -/
  first : ∃ n : Nat, epoch = start + n * timing.period + lastIn timing i ∧
    ∀ k < n, start + k * timing.period + lastIn timing i < now

/-- A window closes after its last epoch. -/
theorem closes_of_make (h : make timing start i now = .ok w) : w.closes = start + lastIn timing i + 1 := by
  obtain ⟨-, -, -, -, ⟨hi, hopens, hcloses⟩ | ⟨hpast, hopens, hcloses⟩⟩ := make_spec h
  · rw [hcloses, hopens, lastIn, if_pos hi]
    ring
  · rw [hcloses, hopens, lastIn, if_neg (not_lt.2 hpast)]
    ring

/-- The windows that have closed are passed over by a division. -/
theorem nextLast_of_nextNotElapsed (hpos : 0 < timing.period) (hmake : make timing start i now = .ok w)
    (hnext : w.nextNotElapsed = .ok w') (hlast : w'.last = .ok epoch) : IsNextLast timing start i now epoch := by
  obtain ⟨hstart, hindex, hnow, htiming, -⟩ := make_spec hmake
  have hcloses := closes_of_make hmake
  obtain ⟨-, rfl⟩ := Epoch.sub_eq_ok.1 hlast
  rcases lt_or_ge now w.closes with hopen | hclosed
  · have hself : w.nextNotElapsed = .ok w := nextNotElapsed_of_lt (hnow.symm ▸ hopen)
    obtain rfl := Except.ok.inj (hself.symm.trans hnext)
    exact ⟨by omega, 0, by rw [hcloses]; ring, fun k hk => absurd hk (Nat.not_lt_zero k)⟩
  · have helapsed : w.hasElapsed = true := decide_eq_true (hnow.symm ▸ hclosed)
    rw [nextNotElapsed, helapsed, hstart, hindex, hnow, htiming] at hnext
    simp only [Bool.not_true, Bool.false_eq_true, if_false, bind_eq_ok, Epoch.sub_eq_ok, Epoch.add_eq_ok,
      Epoch.mul_eq_ok] at hnext
    obtain ⟨_, ⟨-, rfl⟩, passed, hdiv, _, ⟨-, rfl⟩, _, ⟨-, rfl⟩, _, ⟨-, rfl⟩, hmake'⟩ := hnext
    obtain ⟨-, rfl⟩ := (Grid.div_eq_ok hpos).1 hdiv
    rw [closes_of_make hmake']
    have hgap : 0 ≤ now - w.closes := Int.sub_nonneg.2 hclosed
    rw [Int.tdiv_eq_ediv_of_nonneg hgap]
    obtain ⟨n, hn⟩ := Int.eq_ofNat_of_zero_le (Int.ediv_nonneg hgap hpos.le)
    have hdown := Int.ediv_mul_le (now - w.closes) hpos.ne'
    have hup := Int.lt_ediv_add_one_mul_self (now - w.closes) hpos
    rw [hn] at hdown hup ⊢
    rw [add_mul, one_mul] at hup
    refine ⟨?_, n + 1, ?_, fun k hk => ?_⟩
    · rw [mul_add, mul_one, mul_comm]
      omega
    · push_cast
      ring
    · have hle : (k : Int) * timing.period ≤ n * timing.period :=
        Int.mul_le_mul_of_nonneg_right (by omega) hpos.le
      omega

/-- The last epochs of a deadline's windows are the points of one grid. -/
theorem IsNextLast.same (h : IsNextLast timing start i now epoch) :
    Grid.Same ⟨timing.period, start + lastIn timing i⟩ ⟨timing.period, epoch⟩ := by
  obtain ⟨n, rfl, -⟩ := h.first
  refine ⟨rfl, ?_⟩
  show timing.period ∣ start + n * timing.period + lastIn timing i - (start + lastIn timing i)
  rw [add_right_comm, add_sub_cancel_left]
  exact Int.dvd_mul_left _ _

end Window

namespace Deadlines

/-- Those of the sectors asked for in a partition that can move. -/
def movable (ds : Deadlines) (map : DeadlineSectors) (i j : Nat) : NumberSet :=
  ((ds.view i).getD {}).movable ((map.get? i).getD ∅) j

/-- What can be met of a request, deadline by deadline. -/
def movablePart (ds : Deadlines) (map : DeadlineSectors) : DeadlineSectors :=
  map.filterMap fun i parts => some (((ds.view i).getD {}).movablePart parts)

end Deadlines

namespace MinerState

open Deadlines SparseArray

variable {policy : Policy} {size : SectorSize} {table : SectorTable} {m m' : MinerState} {now : Int}
  {map : DeadlineSectors} {moved : List Sector} {ds : Deadlines} {start : Int} {done : List Nat}
  {r r' : Rescheduling} {i : Nat}

/-- The deadlines and the partitions of a miner are as their invariants say. -/
structure SoundDeadlines (policy : Policy) (size : SectorSize) (table : SectorTable) (m : MinerState) : Prop where
  /-- The table of sectors is there. -/
  sectors : m.sectors = .held table
  /-- Its records stand at their own numbers. -/
  keyed : table.Keyed
  /-- The deadlines are there. -/
  held : m.deadlines = .held m.allDeadlines
  /-- Each is sound, with its windows' last epochs as the grid. -/
  sound : ∀ i d, m.allDeadlines.view i = some d →
    d.Sound ⟨policy.period, m.periodStart + Window.lastIn policy.toTiming i⟩ size table

/-- All partitions of a miner pass their checks. -/
def PartitionsValid (m : MinerState) : Prop :=
  ∀ i d j p, m.allDeadlines.view i = some d → d.parts.get? j = some p → p.validate = .ok ()

/-- Each partition that the request names, missing or not, is at a position that an array can have. -/
def Addressable (map : DeadlineSectors) : Prop :=
  ∀ i parts, map.get? i = some parts → ∀ j ∈ parts.indices, j ≤ greatestIndex

/-- In each deadline of a request the movable sectors move to the end of its next window. Nothing else changes. -/
structure Rescheduled (policy : Policy) (size : SectorSize) (table : SectorTable) (now : Int) (map : DeadlineSectors)
    (m m' : MinerState) (moved : List Sector) : Prop where
  /-- Nothing but the deadlines changes. -/
  frame : m' = { m with deadlines := .held m'.allDeadlines }
  /-- The other deadlines stay as they are. -/
  unlisted : ∀ i, map.get? i = none → m'.allDeadlines[i]? = m.allDeadlines[i]?
  /-- In those of the request the movable sectors move. -/
  listed : ∀ i parts, map.get? i = some parts → ∃ d d' epoch, m.allDeadlines.view i = some d ∧
    m'.allDeadlines.view i = some d' ∧ Window.IsNextLast policy.toTiming m.periodStart i now epoch ∧
    d.Rescheduled size table epoch parts d'
  /-- The answer tells the sectors that have moved, in order. -/
  numbers : moved.map (·.number) = map.indices.flatMap fun i => ((map.get? i).getD ∅).indices.flatMap fun j =>
    (m.allDeadlines.movable map i j).elements
  /-- It tells them by their records. -/
  recorded : ∀ s ∈ moved, table.Recorded s

/-! ### One deadline after the other -/

theorem SoundDeadlines.loadSectors_eq (hm : m.SoundDeadlines policy size table) : m.loadSectors = .ok table := by
  rw [loadSectors, hm.sectors]
  rfl

theorem rescheduleDeadline_spec {parts : PartitionSectors}
    (h : rescheduleDeadline policy size table start now r (i, parts) = .ok r') : ∃ w w' epoch d d' moved,
      Window.make policy.toTiming start i now = .ok w ∧ w.nextNotElapsed = .ok w' ∧ w'.last = .ok epoch ∧
      r.deadlines.view i = some d ∧
      d.rescheduleExpirations ⟨policy.period, epoch⟩ size table epoch parts = .ok (d', moved) ∧
      i < r.deadlines.length ∧ r' = { deadlines := r.deadlines.set i (.held d'), moved := r.moved ++ moved } := by
  simp only [rescheduleDeadline, bind_eq_ok, load_eq_ok, put_eq_ok, pure_eq_ok] at h
  obtain ⟨w, hmake, w', hnext, epoch, hlast, d, ⟨-, hd⟩, ⟨d', moved⟩, hmove, _, ⟨-, -, hi, rfl⟩, rfl⟩ := h
  exact ⟨w, w', epoch, d, d', moved, hmake, hnext, hlast, view_eq_some.2 hd, hmove, hi, rfl⟩

theorem rescheduleExpirations_eq_ok : m.rescheduleExpirations policy size now map = .ok (m', moved) ↔
    ∃ ds table, m.deadlines = .held ds ∧ m.loadSectors = .ok table ∧ ∃ ds',
      foldOutcome (rescheduleDeadline policy size table m.periodStart now) { deadlines := ds } map.entries =
        .ok { deadlines := ds', moved } ∧ m' = { m with deadlines := .held ds' } := by
  simp only [rescheduleExpirations, bind_eq_ok, loadDeadlines_eq_ok, pure_eq_ok, Prod.mk.injEq]
  constructor
  · rintro ⟨ds, hds, table, htable, ⟨ds', moved⟩, hfold, rfl, rfl⟩
    exact ⟨ds, table, hds, htable, ds', hfold, rfl⟩
  · rintro ⟨ds, table, hds, htable, ds', hfold, rfl⟩
    exact ⟨ds, hds, table, htable, _, hfold, rfl, rfl⟩

/-- How far a move has come after some deadlines. -/
structure MovingTo (policy : Policy) (size : SectorSize) (table : SectorTable) (now : Int) (map : DeadlineSectors)
    (m : MinerState) (done : List Nat) (r : Rescheduling) : Prop where
  /-- The others are as they were. -/
  rest : ∀ i, i ∉ done → r.deadlines[i]? = m.allDeadlines[i]?
  /-- In those gone through the movable sectors have moved, and they are still sound. -/
  gone : ∀ i ∈ done, ∃ d d' epoch, m.allDeadlines.view i = some d ∧ r.deadlines.view i = some d' ∧
    Window.IsNextLast policy.toTiming m.periodStart i now epoch ∧
    d.Rescheduled size table epoch ((map.get? i).getD ∅) d' ∧
    d'.Sound ⟨policy.period, m.periodStart + Window.lastIn policy.toTiming i⟩ size table
  /-- The sectors that have moved are told in order. -/
  numbers : r.moved.map (·.number) = done.flatMap fun i => ((map.get? i).getD ∅).indices.flatMap fun j =>
    (m.allDeadlines.movable map i j).elements
  /-- They are told by their records. -/
  recorded : ∀ s ∈ r.moved, table.Recorded s

/-- The movable sectors of one more deadline move. -/
theorem MovingTo.step (hpos : 0 < policy.period) (hm : m.SoundDeadlines policy size table)
    (h : MovingTo policy size table now map m done r) (hi : i ∉ done) {parts : PartitionSectors}
    (hparts : map.get? i = some parts)
    (hstep : rescheduleDeadline policy size table m.periodStart now r (i, parts) = .ok r') :
    MovingTo policy size table now map m (done ++ [i]) r' := by
  obtain ⟨w, w', epoch, d, d', moved, hmake, hnext, hlast, hd, hmove, hlength, rfl⟩ := rescheduleDeadline_spec hstep
  have hview : m.allDeadlines.view i = some d := view_eq_some.2 ((h.rest i hi).symm.trans (view_eq_some.1 hd))
  have hepoch := Window.nextLast_of_nextNotElapsed hpos hmake hnext hlast
  have hsame := hepoch.same
  have hself : Grid.OnGrid ⟨policy.period, epoch⟩ epoch := by
    rw [Grid.OnGrid, sub_self]
    exact Int.dvd_zero _
  obtain ⟨hresched, hsound, hnumbers, hrec⟩ :=
    ((hm.sound i d hview).of_same hsame).rescheduled hpos hm.keyed hself hmove
  have hnew : view (r.deadlines.set i (.held d')) i = some d' := by
    rw [view_set hlength, Function.update_self]
  refine ⟨fun j hj => ?_, fun j hj => ?_, ?_, List.forall_mem_append.2 ⟨h.recorded, hrec⟩⟩
  · rw [List.mem_append, List.mem_singleton, not_or] at hj
    rw [List.getElem?_set_ne (Ne.symm hj.2)]
    exact h.rest j hj.1
  · by_cases hji : j = i
    · subst hji
      rw [hparts]
      exact ⟨d, d', epoch, hview, hnew, hepoch, hresched, hsound.of_same hsame.symm⟩
    · have hj : j ∈ done := by simpa [hji] using hj
      obtain ⟨e, e', epoch', he, he', hgone⟩ := h.gone j hj
      refine ⟨e, e', epoch', he, ?_, hgone⟩
      rw [view_set hlength, Function.update_of_ne hji]
      exact he'
  · have hmovable : ∀ j, m.allDeadlines.movable map i j = d.movable parts j := fun j => by
      rw [Deadlines.movable, hview, hparts]
      rfl
    simp only [List.map_append, h.numbers, hnumbers, List.flatMap_append, List.flatMap_singleton, hparts,
      Option.getD_some, hmovable]

/-- A move goes through all deadlines of the request. -/
theorem movingTo_of_fold (hpos : 0 < policy.period) (hm : m.SoundDeadlines policy size table)
    (hfold : foldOutcome (rescheduleDeadline policy size table m.periodStart now) { deadlines := m.allDeadlines }
      map.entries = .ok r) : MovingTo policy size table now map m map.indices r := by
  refine foldOutcome_invariant (I := fun done r => MovingTo policy size table now map m (done.map (·.1)) r) hfold
    ⟨fun i _ => rfl, fun i hi => absurd hi List.not_mem_nil, rfl, fun s hs => absurd hs List.not_mem_nil⟩ ?_
  rintro done ⟨i, parts⟩ rest r r' hs hI hstep
  rw [List.map_append, List.map_singleton]
  exact hI.step hpos hm (fresh_of_entries hs) (get?_of_entries hs) hstep

/-- The sectors that can move do, and the deadlines stay as their invariants say. -/
theorem SoundDeadlines.rescheduled (hpos : 0 < policy.period) (hm : m.SoundDeadlines policy size table)
    (h : m.rescheduleExpirations policy size now map = .ok (m', moved)) :
    m.Rescheduled policy size table now map m' moved ∧ m'.SoundDeadlines policy size table ∧
      (m.PartitionsValid → m'.PartitionsValid) := by
  obtain ⟨ds, table', hds, htable, ds', hfold, rfl⟩ := rescheduleExpirations_eq_ok.1 h
  obtain rfl := Stored.held.inj (hm.held.symm.trans hds)
  obtain rfl : table' = table := Except.ok.inj (htable.symm.trans hm.loadSectors_eq)
  have hmoving := movingTo_of_fold hpos hm hfold
  have hrest : ∀ i, map.get? i = none → ds'[i]? = m.allDeadlines[i]? := fun i hi => hmoving.rest i fun hin => by
    obtain ⟨parts, hparts⟩ := mem_indices.1 hin
    cases hi.symm.trans hparts
  refine ⟨⟨rfl, hrest, fun i parts hparts => ?listed, hmoving.numbers, hmoving.recorded⟩,
    { hm with held := rfl, sound := fun i d' hd' => ?sound }, fun hvalid i d' j p' hd' hp' => ?valid⟩
  case listed =>
    obtain ⟨d, d', epoch, hd, hd', hepoch, hresched, -⟩ := hmoving.gone i (mem_indices.2 ⟨parts, hparts⟩)
    rw [hparts] at hresched
    exact ⟨d, d', epoch, hd, hd', hepoch, hresched⟩
  case sound =>
    cases hparts : map.get? i with
    | none => exact hm.sound i d' (view_eq_some.2 ((hrest i hparts).symm.trans (view_eq_some.1 hd')))
    | some parts =>
      obtain ⟨d, e, epoch, -, he, -, -, hsound⟩ := hmoving.gone i (mem_indices.2 ⟨parts, hparts⟩)
      obtain rfl := Option.some.inj (he.symm.trans hd')
      exact hsound
  case valid =>
    cases hparts : map.get? i with
    | none => exact hvalid i d' j p' (view_eq_some.2 ((hrest i hparts).symm.trans (view_eq_some.1 hd'))) hp'
    | some parts =>
      obtain ⟨d, e, epoch, hd, he, -, hresched, -⟩ := hmoving.gone i (mem_indices.2 ⟨parts, hparts⟩)
      obtain rfl := Option.some.inj (he.symm.trans hd')
      obtain ⟨p, hp, hmove⟩ := hresched.exists_relocated hp'
      -- The check does not look at the queue, and nothing else has changed.
      rw [hmove.frame]
      exact hvalid i d j p hd hp

/-! ### What cannot move -/

/-- A request that is met names only positions that an array can have. -/
theorem addressable_of_rescheduleExpirations (h : m.rescheduleExpirations policy size now map = .ok (m', moved)) :
    Addressable map := by
  obtain ⟨ds, table, -, -, ds', hfold, -⟩ := rescheduleExpirations_eq_ok.1 h
  have hall : ∀ e ∈ map.entries, ∀ j ∈ e.2.indices, j ≤ greatestIndex := foldOutcome_forall hfold fun e r r' hstep => by
    obtain ⟨w, w', epoch, d, d', moved, -, -, -, -, hmove, -⟩ := rescheduleDeadline_spec hstep
    exact Deadline.indices_le_of_rescheduleExpirations hmove
  exact fun i parts hparts => hall (i, parts) (mem_entries.2 hparts)

/-- Of a deadline, only what can be met of the request matters. -/
theorem SoundDeadlines.rescheduleDeadline_movable (hm : m.SoundDeadlines policy size table) (hvalid : m.PartitionsValid)
    {parts : PartitionSectors} (hi : r.deadlines[i]? = m.allDeadlines[i]?)
    (hindex : ∀ j ∈ parts.indices, j ≤ greatestIndex) :
    rescheduleDeadline policy size table start now r (i, parts) =
      rescheduleDeadline policy size table start now r (i, ((m.allDeadlines.view i).getD {}).movablePart parts) := by
  simp only [rescheduleDeadline]
  refine bind_congr fun w => bind_congr fun w' => bind_congr fun epoch => ?_
  cases hload : Deadlines.load policy r.deadlines i with
  | error e => rfl
  | ok d =>
    obtain ⟨-, hd⟩ := load_eq_ok.1 hload
    have hview : m.allDeadlines.view i = some d := view_eq_some.2 (hi.symm.trans hd)
    rw [hview, Option.getD_some]
    simp only [ok_bind]
    rw [(hm.sound i d hview).rescheduleExpirations_movable (fun j p hp => hvalid i d j p hview hp) hindex]

/-- **Exactly the movable sectors move.** A request that succeeds answers the records of the sectors asked for that
belong to the partition for which they are asked, are live and not faulty. Each of them is on time, and nowhere else, at
the last epoch of the next window of its deadline that has not closed, has taken its power and pledge there, and its
partition is listed there. Every other sector keeps its place, nothing else changes, and the deadlines stay as their
invariants say. What else is asked for does not matter: if the partitions pass their checks, as all do that operations
have made, a request that names only positions an array can have does the same as its movable part, and fails in the
same way. No other request succeeds. -/
theorem rescheduleExpirations_moves_movable (hpos : 0 < policy.period) (hm : m.SoundDeadlines policy size table) :
    (∀ m' moved, m.rescheduleExpirations policy size now map = .ok (m', moved) →
      m.Rescheduled policy size table now map m' moved ∧ m'.SoundDeadlines policy size table ∧
        (m.PartitionsValid → m'.PartitionsValid) ∧ Addressable map) ∧
    (m.PartitionsValid → Addressable map → m.rescheduleExpirations policy size now map =
      m.rescheduleExpirations policy size now (m.allDeadlines.movablePart map)) := by
  refine ⟨fun m' moved h => ?_, fun hvalid haddressable => ?_⟩
  · obtain ⟨hresched, hsound, hvalid⟩ := hm.rescheduled hpos h
    exact ⟨hresched, hsound, hvalid, addressable_of_rescheduleExpirations h⟩
  have hfold : foldOutcome (rescheduleDeadline policy size table m.periodStart now) { deadlines := m.allDeadlines }
      map.entries = foldOutcome (rescheduleDeadline policy size table m.periodStart now)
        { deadlines := m.allDeadlines } (m.allDeadlines.movablePart map).entries := by
    refine foldOutcome_filterMap (I := fun done r =>
      ∀ i, i ∉ done.map (·.1) → r.deadlines[i]? = m.allDeadlines[i]?) (fun i _ => rfl) ?_ ?_
    · rintro done ⟨i, parts⟩ rest r hs hI
      exact hm.rescheduleDeadline_movable hvalid (hI i (fresh_of_entries hs)) (haddressable i parts (get?_of_entries hs))
    · rintro done ⟨i, parts⟩ rest r r' - hI hstep j hj
      obtain ⟨w, w', epoch, d, d', moved, -, -, -, -, -, -, rfl⟩ := rescheduleDeadline_spec hstep
      rw [List.map_append, List.mem_append, not_or, List.map_singleton, List.mem_singleton] at hj
      rw [List.getElem?_set_ne (Ne.symm hj.2)]
      exact hI j hj.1
  simp only [rescheduleExpirations, loadDeadlines_eq_ok.2 hm.held, hm.loadSectors_eq, ok_bind, hfold]

/-- Three sectors. -/
def threeSectors : List Sector :=
  [{ number := 1, expiration := 49, pledge := 3 }, { number := 2, expiration := 49, pledge := 4 },
    { number := 3, expiration := 30, pledge := 5 }]

/-- Two of them share a partition, and one of these becomes faulty. -/
def loadedOperations : List Deadline.Operation :=
  [.addSectors 2 true threeSectors, .declareFaults 19 (PartitionSectors.ofList [(0, .ofList [2])])]

/-- A miner whose second deadline has sectors. -/
def loadedMiner (d : Deadline) : MinerState :=
  { fresh twoWindows .missing 0 0 with
    sectors := .held (.ofList threeSectors)
    deadlines := .held [.held {}, .held d] }

/-- Besides a sector that can move it names a faulty one, one that does not exist, one in the wrong partition, and a
partition that does not exist. -/
def mixedRequest : DeadlineSectors :=
  insert ∅ 1 (PartitionSectors.ofList [(0, .ofList [1, 2, 9]), (1, .ofList [2]), (7, .ofList [1])])

/-- It names the last position that is not one of an array. -/
def farRequest : DeadlineSectors := insert ∅ 0 (insert ∅ 0xffffffffffffffff (.ofList [1]))

theorem view_pair {d e : Deadline} (h : view [.held {}, .held d] i = some e) : i = 0 ∧ e = {} ∨ i = 1 ∧ e = d := by
  have hget := view_eq_some.1 h
  rcases i with - | - | i
  · exact .inl ⟨rfl, (Stored.held.inj (Option.some.inj hget)).symm⟩
  · exact .inr ⟨rfl, (Stored.held.inj (Option.some.inj hget)).symm⟩
  · cases hget

/-- A miner with a sound deadline beside an empty one. -/
theorem soundDeadlines_pair {d : Deadline} (hheld : m.deadlines = .held [.held {}, .held d])
    (hsectors : m.sectors = .held table) (hk : table.Keyed)
    (hd : d.Sound ⟨policy.period, m.periodStart + Window.lastIn policy.toTiming 1⟩ size table) :
    m.SoundDeadlines policy size table := by
  have hall : m.allDeadlines = [.held {}, .held d] := by rw [allDeadlines, hheld]
  refine ⟨hsectors, hk, by rw [hall, hheld], fun i e he => ?_⟩
  rw [hall] at he
  rcases view_pair he with ⟨rfl, rfl⟩ | ⟨rfl, rfl⟩
  · exact (@Deadline.invariant_empty _ size table 0).sound
  · exact hd

theorem partitionsValid_pair {d : Deadline} (hheld : m.deadlines = .held [.held {}, .held d])
    (hvalid : ∀ j p, d.parts.get? j = some p → p.validate = .ok ()) : m.PartitionsValid := by
  intro i e j p he hp
  rw [allDeadlines, hheld] at he
  rcases view_pair he with ⟨rfl, rfl⟩ | ⟨rfl, rfl⟩
  · cases hp
  · exact hvalid j p hp

/-- The sector that can move joins the faulty one in its entry, at the end of the window that comes next. -/
theorem moves_mixedRequest : ∃ d w m',
    Deadline.Run ⟨10, 9⟩ .kib2 (.ofList threeSectors)
      (Deadline.Operation.Admissible ⟨10, 9⟩ .kib2 (.ofList threeSectors)) loadedOperations d w ∧
    0 < twoWindows.period ∧ (loadedMiner d).SoundDeadlines twoWindows .kib2 (.ofList threeSectors) ∧
    (loadedMiner d).PartitionsValid ∧
    (loadedMiner d).rescheduleExpirations twoWindows .kib2 13 mixedRequest = .ok (m', threeSectors.take 1) ∧
    (loadedMiner d).Rescheduled twoWindows .kib2 (.ofList threeSectors) 13 mixedRequest m' (threeSectors.take 1) ∧
    (loadedMiner d).allDeadlines.movablePart mixedRequest = insert ∅ 1 (PartitionSectors.ofList [(0, .ofList [1])]) ∧
    (loadedMiner d).rescheduleExpirations twoWindows .kib2 13
      (insert ∅ 1 (PartitionSectors.ofList [(0, .ofList [1])])) = .ok (m', threeSectors.take 1) ∧
    (∀ d', m'.allDeadlines.view 1 = some d' → d'.queue.entry 19 = .ofList [0]) := by
  have hrun : ((Deadline.follow ⟨10, 9⟩ .kib2 (.ofList threeSectors)
      (Deadline.Operation.Admissible ⟨10, 9⟩ .kib2 (.ofList threeSectors)) loadedOperations ({}, 0)).map fun s =>
        (decide ((loadedMiner s.1).allDeadlines.movablePart mixedRequest =
            insert ∅ 1 (PartitionSectors.ofList [(0, .ofList [1])])),
          (fun r => (r.2, (r.1.allDeadlines.view 1).map fun d' => d'.queue.entry 19)) <$>
            (loadedMiner s.1).rescheduleExpirations twoWindows .kib2 13 mixedRequest)) =
      some (true, .ok (threeSectors.take 1, some (.ofList [0]))) := by decide +kernel
  have hmono : (loadedOperations.filterMap Deadline.Operation.faultExpiration?).Pairwise (· ≤ ·) := by decide
  obtain ⟨⟨d, w⟩, hfollow, heq⟩ := Option.map_eq_some_iff.1 hrun
  simp only [Prod.mk.injEq, decide_eq_true_eq, map_eq_ok, Prod.exists] at heq
  obtain ⟨hpart, m', moved, hmove, rfl, hlisted⟩ := heq
  have hd := Deadline.Run.of_follow .start hfollow
  have hk := SectorTable.keyed_ofList threeSectors
  have hsound : d.Sound ⟨10, 9⟩ .kib2 (.ofList threeSectors) :=
    Deadline.sound_of_ascending_run (by decide) hk hd hmono
  have hm : (loadedMiner d).SoundDeadlines twoWindows .kib2 (.ofList threeSectors) :=
    soundDeadlines_pair rfl rfl hk hsound
  have hvalid : (loadedMiner d).PartitionsValid :=
    partitionsValid_pair rfl fun j p hp => (Deadline.valid_of_run hd j p hp).checked
  obtain ⟨hmoves, hsame⟩ := @rescheduleExpirations_moves_movable twoWindows .kib2 _ (loadedMiner d) 13 mixedRequest
    (by decide) hm
  obtain ⟨hrescheduled, -, -, haddressable⟩ := hmoves m' _ hmove
  have hmovable := (hsame hvalid haddressable).symm.trans hmove
  rw [hpart] at hmovable
  refine ⟨d, w, m', hd, by decide, hm, hvalid, hmove, hrescheduled, hpart, hmovable, fun d' hd' => ?_⟩
  rw [hd'] at hlisted
  exact Option.some.inj hlisted

/-- The partition is missing, and yet the request fails: an array has no such position. -/
theorem farRequest_fails : 0 < twoWindows.period ∧
    (fresh twoWindows .missing 0 0).SoundDeadlines twoWindows .kib2 ∅ ∧
    (fresh twoWindows .missing 0 0).PartitionsValid ∧
    (fresh twoWindows .missing 0 0).allDeadlines.view 0 = some {} ∧
    ({} : Deadline).parts.get? 0xffffffffffffffff = none ∧
    (fresh twoWindows .missing 0 0).rescheduleExpirations twoWindows .kib2 5 farRequest =
      failed "failed to load partition 18446744073709551615: index 18446744073709551615 out of range for the amt" ∧
    (fresh twoWindows .missing 0 0).rescheduleExpirations twoWindows .kib2 5
      ((fresh twoWindows .missing 0 0).allDeadlines.movablePart farRequest) = .ok (fresh twoWindows .missing 0 0, []) :=
  ⟨by decide, soundDeadlines_pair rfl rfl (fun n s hs => by cases hs) (@Deadline.invariant_empty _ .kib2 ∅ 0).sound,
    partitionsValid_pair rfl (fun j p hp => by cases hp), rfl, rfl, by decide +kernel, by decide +kernel⟩

end MinerState

end SectorLedger
