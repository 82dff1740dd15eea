import SectorLedger.Proofs.Assignment.Dealing
import SectorLedger.Proofs.Miner.Finding

/-!
# Where new sectors go

New sectors are dealt out to the deadlines that may still change, and each deadline puts its share after the sectors
it has. The dealing does not look at partitions: it relies on the total of a deadline to tell how many there are, and
so keeps to their limit.

* `mutableDeadlines_spec`, `fillDeadline_spec`: the parts of the assignment.
* `SpreadTo.step`: one deadline gets its share.
* `Spread`: what all shares do to the deadlines. `assignSectors_spread`: the assignment does this.
* `assignSectors_placed`: each new sector has one place, where it is found, and the others keep theirs.
-/

namespace SectorLedger

open Deadlines

variable {policy : Policy} {k n : Nat} {periodStart now : Int} {ds ds' : Deadlines} {ss : List Sector}
  {share : Nat → List Sector} {w : Power}

namespace MinerState

variable {size : SectorSize} {m m' : MinerState} {open_ : List (Option Deadline)}

/-! ### The parts of the assignment -/

/-- All deadlines are there, and those that may still change are listed at their indices. -/
theorem mutableDeadlines_spec (h : mutableDeadlines policy periodStart now ds = .ok open_) :
    open_.length = ds.length ∧ ∀ i < ds.length, i < policy.deadlines ∧ ∃ d b, ds.view i = some d ∧
      deadlineIsMutable policy.toTiming periodStart i now = .ok b ∧ open_[i]? = some (if b then some d else none) := by
  refine foldOutcome_range_invariant (I := fun m found => found.length = m ∧ ∀ i < m, i < policy.deadlines ∧ ∃ d b,
    ds.view i = some d ∧ deadlineIsMutable policy.toTiming periodStart i now = .ok b ∧
      found[i]? = some (if b then some d else none)) h ⟨rfl, fun i hi => absurd hi (Nat.not_lt_zero i)⟩ ?_
  rintro m found found' ⟨hlength, hI⟩ hstep
  simp only [bind_eq_ok, pure_eq_ok] at hstep
  obtain ⟨d, hload, b, hmutable, rfl⟩ := hstep
  refine ⟨by rw [List.length_append, hlength, List.length_singleton], fun i hi => ?_⟩
  rcases Nat.lt_succ_iff_lt_or_eq.1 hi with hlt | rfl
  · obtain ⟨hbound, d, b, hview, hmutable, hget⟩ := hI i hlt
    exact ⟨hbound, d, b, hview, hmutable, by rwa [List.getElem?_append_left (hlength ▸ hlt)]⟩
  · obtain ⟨hbound, hget⟩ := load_eq_ok.1 hload
    exact ⟨hbound, d, b, view_eq_some.2 hget, hmutable, by rw [← hlength, List.getElem?_concat_length]⟩

/-- A deadline that is listed may still change. -/
theorem mutable_of_open (h : mutableDeadlines policy periodStart now ds = .ok open_) {i : Nat} {d : Deadline}
    (hopen : open_[i]? = some (some d)) :
    ds.view i = some d ∧ deadlineIsMutable policy.toTiming periodStart i now = .ok true := by
  obtain ⟨hlength, hspec⟩ := mutableDeadlines_spec h
  obtain ⟨-, d', b, hview, hmutable, hget⟩ := hspec i (hlength ▸ (List.getElem?_eq_some_iff.1 hopen).1)
  rw [hopen] at hget
  cases b with
  | false => cases hget
  | true =>
    obtain rfl := Option.some.inj (Option.some.inj hget)
    exact ⟨hview, hmutable⟩

/-- A deadline without a share stays as it is. -/
theorem fillDeadline_spec {i : Nat} {w' : Power}
    (h : fillDeadline policy size m k open_ (ds, w) (ss, i) = .ok (ds', w')) :
    (ss = [] ∧ ds' = ds ∧ w' = w) ∨ ∃ grid d d' power, open_[i]? = some (some d) ∧
      d.addSectors grid size k false ss = .ok (d', power) ∧ i < ds.length ∧ ds' = ds.set i (.held d') ∧
      w' = w + power := by
  simp only [fillDeadline] at h
  split at h
  · next hempty =>
    obtain ⟨rfl, rfl⟩ := Prod.mk.inj (pure_eq_ok.1 h)
    exact .inl ⟨List.isEmpty_iff.1 hempty, rfl, rfl⟩
  · rw [bind_eq_ok] at h
    obtain ⟨grid, -, h⟩ := h
    split at h
    · exact absurd h failed_ne_ok
    · next d hopen =>
      simp only [bind_eq_ok, pure_eq_ok, Prod.mk.injEq] at h
      obtain ⟨⟨d', power⟩, hadd, ds₁, hput, rfl, rfl⟩ := h
      obtain ⟨-, -, hi, rfl⟩ := put_eq_ok.1 hput
      exact .inr ⟨grid, d, d', power, Option.join_eq_some_iff.1 hopen, hadd, hi, rfl, rfl⟩

/-- The sectors are dealt out in order of their numbers, and then each deadline gets its share. -/
theorem assignSectors_spec (h : m.assignSectors policy size now ss k = .ok (m', w)) :
    ∃ ds open_ sorted ts ds', m.deadlines = .held ds ∧ sorted.Perm ss ∧
      mutableDeadlines policy m.periodStart now ds = .ok open_ ∧
      assignDeadlines policy ⟨k, policy.partitionsPerDeadline⟩ open_ sorted = .ok (deal policy.deadlines sorted ts) ∧
      ts.length = sorted.length ∧
      (∀ i ∈ ts, ∃ d, open_[i]? = some (some d) ∧ d.total + ts.count i ≤ k * policy.partitionsPerDeadline) ∧
      foldOutcome (fillDeadline policy size m k open_) (ds, 0) (deal policy.deadlines sorted ts).zipIdx =
        .ok (ds', w) ∧
      m' = { m with deadlines := .held ds' } := by
  simp only [assignSectors, bind_eq_ok, noting_eq_ok, pure_eq_ok, loadDeadlines_eq_ok, Prod.mk.injEq] at h
  obtain ⟨ds, hds, open_, hopen, assigned, hassign, ⟨ds', _⟩, hfold, rfl, rfl⟩ := h
  obtain ⟨ts, hlength, rfl, htargets, hwithin⟩ := assignDeadlines_spec hassign
  refine ⟨ds, open_, _, ts, ds', hds, List.mergeSort_perm _ _, hopen, hassign, hlength, fun i hi => ?_, hfold, rfl⟩
  obtain ⟨-, c, hc, rfl⟩ := htargets i hi
  obtain ⟨d, hd, -, htotal⟩ := mem_candidates.1 hc
  exact ⟨d, hd, htotal ▸ hwithin c hc hi⟩

/-! ### The shares -/

/-- The deadlines before a position have got their shares, and the others wait. -/
structure SpreadTo (k : Nat) (ds : Deadlines) (share : Nat → List Sector) (m : Nat) (state : Deadlines × Power) :
    Prop where
  /-- No power counts yet. -/
  power_eq : state.2 = 0
  /-- There are as many deadlines. -/
  length_eq : state.1.length = ds.length
  /-- The shares are in. -/
  extended : ∀ i < m, ∀ d, ds.view i = some d →
    ∃ d', state.1.view i = some d' ∧ d'.Reachable k ∧ Deadline.Extended (share i) d d'
  /-- The others are as they were. -/
  rest : ∀ i, m ≤ i → state.1.view i = ds.view i

/-- One deadline gets its share. -/
theorem SpreadTo.step (hreach : ∀ i d, ds.view i = some d → d.Reachable k)
    (hopen : ∀ i d, open_[i]? = some (some d) → ds.view i = some d)
    (hnodup : ∀ i, ((share i).map (·.number)).Nodup) (hfresh : ∀ i, ∀ s ∈ share i, ∀ j, ¬ds.Holds i j s.number)
    {i : Nat} {state state' : Deadlines × Power} (h : SpreadTo k ds share i state)
    (hstep : fillDeadline policy size m k open_ state (share i, i) = .ok state') :
    SpreadTo k ds share (i + 1) state' := by
  rcases fillDeadline_spec hstep with ⟨hnil, heq, hpower⟩ | ⟨grid, d, d', power, hd, hadd, hi, heq, hpower⟩
  · obtain rfl : state' = state := Prod.ext heq hpower
    refine ⟨h.power_eq, h.length_eq, fun j hj d hview => ?_, fun j hj => h.rest j (Nat.le_of_succ_le hj)⟩
    rcases Nat.lt_succ_iff_lt_or_eq.1 hj with hlt | rfl
    · exact h.extended j hlt d hview
    · rw [hnil]
      exact ⟨d, (h.rest j le_rfl).trans hview, hreach j d hview, .refl d⟩
  · have hview := hopen i d hd
    have hshaped := (hreach i d hview).shaped
    have hnew : ∀ s ∈ share i, ∀ j, ¬InPart (layout d.parts) j s.number := fun s hs j hin =>
      hfresh i s hs j ((holds_iff_inPart hview hshaped).2 hin)
    obtain ⟨-, hextended, hzero⟩ := hshaped.addSectors (hnodup i) hnew hadd
    have hreach' : d'.Reachable k := by
      have hfitting : (Deadline.Operation.addSectors k false (share i)).Fitting k d :=
        ⟨rfl, hnodup i, fun e he s hs hin => hnew s hs e.1
          ((Deadline.inPart_layout hshaped.packed).2 ⟨e.2, SparseArray.mem_entries.1 he, hin⟩)⟩
      exact @Deadline.Reachable.step k grid size ∅ _ d d' power (hreach i d hview) hfitting hadd
    refine ⟨?_, ?_, fun j hj d₁ hview₁ => ?_, fun j hj => ?_⟩
    · rw [hpower, h.power_eq, hzero rfl, add_zero]
    · rw [heq, List.length_set, h.length_eq]
    · rw [heq, view_set hi]
      rcases Nat.lt_succ_iff_lt_or_eq.1 hj with hlt | rfl
      · rw [Function.update_of_ne (Nat.ne_of_lt hlt)]
        exact h.extended j hlt d₁ hview₁
      · obtain rfl := Option.some.inj (hview.symm.trans hview₁)
        exact ⟨d', Function.update_self .., hreach', hextended⟩
    · rw [heq, view_set hi, Function.update_of_ne (Nat.ne_of_gt hj)]
      exact h.rest j (Nat.le_of_succ_le hj)

/-- What all shares do to the deadlines: each new sector is in one share, and each share is in its deadline, which may
still change and has room for it. -/
structure Spread (policy : Policy) (k : Nat) (periodStart now : Int) (ss : List Sector) (share : Nat → List Sector)
    (ds ds' : Deadlines) : Prop where
  /-- The deadlines were filled. -/
  shaped : ds.AllShaped policy k
  /-- There are as many. -/
  length_eq : ds'.length = ds.length
  /-- Each has got its share. -/
  extended : ∀ i d, ds.view i = some d →
    ∃ d', ds'.view i = some d' ∧ d'.Reachable k ∧ Deadline.Extended (share i) d d'
  /-- Shares are of the new sectors. -/
  mem : ∀ i, ∀ s ∈ share i, s ∈ ss
  /-- Each sector is in a share. -/
  dealt : ∀ s ∈ ss, ∃ i, s ∈ share i
  /-- No sector is in two. -/
  once : ∀ s i j, s ∈ share i → s ∈ share j → i = j
  /-- Who has a share may still change, and has room for it. -/
  opened : ∀ i, ∀ s ∈ share i, deadlineIsMutable policy.toTiming periodStart i now = .ok true ∧
    ∃ d, ds.view i = some d ∧ d.total + (share i).length ≤ k * policy.partitionsPerDeadline

/-- The assignment spreads the sectors over the deadlines. -/
theorem assignSectors_spread (hreach : ∀ i d, m.allDeadlines.view i = some d → d.Reachable k)
    (hnodup : (ss.map (·.number)).Nodup) (hfresh : ∀ s ∈ ss, ∀ i j, ¬m.allDeadlines.Holds i j s.number)
    (h : m.assignSectors policy size now ss k = .ok (m', w)) :
    w = 0 ∧ ∃ share, Spread policy k m.periodStart now ss share m.allDeadlines m'.allDeadlines ∧
      m.deadlines = .held m.allDeadlines ∧ m'.deadlines = .held m'.allDeadlines := by
  obtain ⟨ds, open_, sorted, ts, ds', hds, hperm, hopen, -, hlength, htargets, hfold, rfl⟩ := assignSectors_spec h
  have hheld : m.allDeadlines = ds := by rw [allDeadlines, hds]
  have hheld' : allDeadlines { m with deadlines := .held ds' } = ds' := rfl
  rw [hheld, hheld']
  rw [hheld] at hreach hfresh
  obtain ⟨-, hviews⟩ := mutableDeadlines_spec hopen
  have hmem : ∀ i, ∀ s ∈ dealtTo sorted ts i, s ∈ ss := fun i s hs =>
    hperm.mem_iff.1 ((sublist_dealtTo hlength i).subset hs)
  have hsorted : (sorted.map (·.number)).Nodup := (hperm.map _).nodup_iff.2 hnodup
  have hspread : SpreadTo k ds (dealtTo sorted ts) (deal policy.deadlines sorted ts).zipIdx.length (ds', w) := by
    refine foldOutcome_invariant (I := fun done state => SpreadTo k ds (dealtTo sorted ts) done.length state) hfold
      ⟨rfl, rfl, fun i hi => absurd hi (Nat.not_lt_zero i), fun i _ => rfl⟩ ?_
    rintro done ⟨sectors, i⟩ rest state state' hs hI hstep
    have hget : (deal policy.deadlines sorted ts).zipIdx[done.length]? = some (sectors, i) := by
      rw [hs, List.getElem?_append_right le_rfl, Nat.sub_self, List.getElem?_cons_zero]
    obtain ⟨_, hshare, heq⟩ := Option.map_eq_some_iff.1 (List.getElem?_zipIdx.symm.trans hget)
    obtain ⟨rfl, rfl⟩ := Prod.mk.inj heq
    rw [Nat.zero_add] at hstep
    obtain ⟨-, rfl⟩ := getElem?_deal_eq_some.1 hshare
    rw [List.length_append, List.length_singleton]
    refine hI.step hreach (fun i d hd => (mutable_of_open hopen hd).1) (fun i => ?_) (fun i s hs j => ?_) hstep
    · exact hsorted.sublist ((sublist_dealtTo hlength i).map _)
    · exact hfresh s (hmem i s hs) i j
  rw [List.length_zipIdx, length_deal] at hspread
  refine ⟨hspread.power_eq, dealtTo sorted ts, ?_, hds, rfl⟩
  refine ⟨fun i hi => ?_, hspread.length_eq, fun i d hview => ?_, hmem, fun s hs => ?_, fun s i j hi hj => ?_,
    fun i s hs => ?_⟩
  · obtain ⟨hbound, d, -, hview, -⟩ := hviews i hi
    exact ⟨hbound, d, hview, (hreach i d hview).shaped⟩
  · exact hspread.extended i (hviews i (lt_length_of_view hview)).1 d hview
  · obtain ⟨i, -, hi⟩ := exists_dealtTo hlength (hperm.mem_iff.2 hs)
    exact ⟨i, hi⟩
  · exact dealtTo_unique hsorted.of_map hlength hi hj
  · have hne : dealtTo sorted ts i ≠ [] := List.ne_nil_of_mem hs
    obtain ⟨d, hd, hroom⟩ := htargets i (mem_of_dealtTo hlength hne)
    obtain ⟨hview, hmutable⟩ := mutable_of_open hopen hd
    exact ⟨hmutable, d, hview, by rwa [length_dealtTo hlength]⟩

namespace Spread

variable (h : Spread policy k periodStart now ss share ds ds')

include h

/-- What has become of a deadline. -/
theorem before {i : Nat} {d' : Deadline} (hview' : ds'.view i = some d') :
    ∃ d, ds.view i = some d ∧ d.Shaped k ∧ d'.Reachable k ∧ Deadline.Extended (share i) d d' := by
  obtain ⟨-, d, hview, hd⟩ := h.shaped i (h.length_eq ▸ lt_length_of_view hview')
  obtain ⟨d₁, hview₁, hreach, hextended⟩ := h.extended i d hview
  obtain rfl := Option.some.inj (hview'.symm.trans hview₁)
  exact ⟨d, hview, hd, hreach, hextended⟩

/-- The deadlines are still filled. -/
theorem shaped' : ds'.AllShaped policy k := fun i hi => by
  obtain ⟨hbound, d, hview, -⟩ := h.shaped i (h.length_eq ▸ hi)
  obtain ⟨d', hview', hreach, -⟩ := h.extended i d hview
  exact ⟨hbound, d', hview', hreach.shaped⟩

/-- A sector that is in no share of a deadline stays there, or away. -/
theorem holds_iff_of_not_mem {i j : Nat} (hn : n ∉ (share i).map (·.number)) : ds'.Holds i j n ↔ ds.Holds i j n := by
  have hgo : ∀ d d', ds.view i = some d → ds'.view i = some d' → d.Shaped k → d'.Reachable k →
      Deadline.Extended (share i) d d' → (ds'.Holds i j n ↔ ds.Holds i j n) := by
    intro d d' hview hview' hd hreach hextended
    rw [holds_iff_inPart hview' hreach.shaped, holds_iff_inPart hview hd]
    exact hextended.stays j n hn
  constructor
  · intro hold
    obtain ⟨d', -, hview', -⟩ := id hold
    obtain ⟨d, hview, hd, hreach, hextended⟩ := h.before hview'
    exact (hgo d d' hview hview' hd hreach hextended).1 hold
  · intro hold
    obtain ⟨d, -, hview, -⟩ := id hold
    obtain ⟨d', hview', hreach, hextended⟩ := h.extended i d hview
    obtain ⟨-, d₁, hview₁, hd⟩ := h.shaped i (lt_length_of_view hview)
    obtain rfl := Option.some.inj (hview.symm.trans hview₁)
    exact (hgo d d' hview hview' hd hreach hextended).2 hold

/-- The sectors of a share have a place in their deadline. -/
theorem exists_holds {i : Nat} {s : Sector} (hs : s ∈ share i) : ∃ j, ds'.Holds i j s.number := by
  obtain ⟨-, d, hview, -⟩ := h.opened i s hs
  obtain ⟨d', hview', hreach, hextended⟩ := h.extended i d hview
  obtain ⟨j, hj⟩ := hextended.placed s hs
  exact ⟨j, (holds_iff_inPart hview' hreach.shaped).2 hj⟩

/-- A new sector is only where its share is. -/
theorem mem_share (hnodup : (ss.map (·.number)).Nodup) (hfresh : ∀ s ∈ ss, ∀ i j, ¬ds.Holds i j s.number) {s : Sector}
    (hs : s ∈ ss) {i j : Nat} (hold : ds'.Holds i j s.number) : s ∈ share i := by
  by_cases hin : s.number ∈ (share i).map (·.number)
  · obtain ⟨t, ht, heq⟩ := List.mem_map.1 hin
    obtain rfl := List.inj_on_of_nodup_map hnodup (h.mem i t ht) hs heq
    exact ht
  · exact absurd ((h.holds_iff_of_not_mem hin).1 hold) (hfresh s hs i j)

/-- Who has a share keeps to the limit of partitions. -/
theorem count_le (hk : 0 < k) {i : Nat} {s : Sector} (hs : s ∈ share i) {d' : Deadline}
    (hview' : ds'.view i = some d') : d'.parts.count ≤ policy.partitionsPerDeadline := by
  obtain ⟨d, hview, -, hreach, hextended⟩ := h.before hview'
  obtain ⟨-, d₁, hview₁, hroom⟩ := h.opened i s hs
  obtain rfl := Option.some.inj (hview.symm.trans hview₁)
  rw [(hreach.shaped.wellFilled hk).count_eq, ceilDiv_le_iff hk, hextended.total_eq, Nat.mul_comm]
  exact hroom

end Spread

/-! ### The whole assignment -/

/-- What an assignment of new sectors does to the miner. -/
structure Assigned (policy : Policy) (k : Nat) (now : Int) (ss : List Sector) (m m' : MinerState) : Prop where
  /-- Each new sector has one place, in a deadline that may still change, and is found there. -/
  placed : ∀ s ∈ ss, ∃ i j, (∀ i' j', m'.allDeadlines.Holds i' j' s.number ↔ i' = i ∧ j' = j) ∧
    deadlineIsMutable policy.toTiming m.periodStart i now = .ok true ∧ m'.findSector policy s.number = .ok (i, j)
  /-- Each other sector is where it was, and found where it was. -/
  stays : ∀ n, n ∉ ss.map (·.number) →
    (∀ i j, m'.allDeadlines.Holds i j n ↔ m.allDeadlines.Holds i j n) ∧ m'.findSector policy n = m.findSector policy n
  /-- No deadline that got sectors has more partitions than it may. -/
  limit : ∀ s ∈ ss, ∀ i j d, m'.allDeadlines.Holds i j s.number → m'.allDeadlines.view i = some d →
    d.parts.count ≤ policy.partitionsPerDeadline
  /-- The deadlines are such as come about by operations with the partition size. -/
  reachable : ∀ i d, m'.allDeadlines.view i = some d → d.Reachable k

theorem findSector_eq (hheld : m.deadlines = .held m.allDeadlines) :
    m.findSector policy n = Deadlines.findSector policy m.allDeadlines n := by
  rw [findSector, loadDeadlines_eq_ok.2 hheld, ok_bind]

/-- **Partitions are filled one after the other, and new sectors find their places.** However a deadline has come
about, all its partitions but the last one are full, and its total tells how many there are. So the assignment, which
looks at totals only, gives each new sector one place and keeps to the limit of partitions. -/
theorem assignSectors_assigned (hk : 0 < k) :
    (∀ d, Deadline.Reachable k d → d.WellFilled k) ∧
    ∀ (policy : Policy) (size : SectorSize) (m m' : MinerState) (now : Int) (ss : List Sector) (w : Power),
      (∀ i d, m.allDeadlines.view i = some d → d.Reachable k) → (ss.map (·.number)).Nodup →
      (∀ s ∈ ss, ∀ i j, ¬m.allDeadlines.Holds i j s.number) →
      m.assignSectors policy size now ss k = .ok (m', w) → w = 0 ∧ Assigned policy k now ss m m' := by
  refine ⟨fun d hd => hd.shaped.wellFilled hk, fun policy size m m' now ss w hreach hnodup hfresh h => ?_⟩
  obtain ⟨hpower, share, hspread, hheld, hheld'⟩ := assignSectors_spread hreach hnodup hfresh h
  refine ⟨hpower, fun s hs => ?_, fun n hn => ?_, fun s hs i j d hold hview => ?_, fun i d hview => ?_⟩
  · obtain ⟨i, hi⟩ := hspread.dealt s hs
    obtain ⟨j, hj⟩ := hspread.exists_holds hi
    have hunique : ∀ i' j', m'.allDeadlines.Holds i' j' s.number → i' = i := fun i' j' hold =>
      hspread.once s i' i (hspread.mem_share hnodup hfresh hs hold) hi
    refine ⟨i, j, fun i' j' => ⟨fun hold => ?_, ?_⟩, (hspread.opened i s hi).1, ?_⟩
    · obtain rfl := hunique i' j' hold
      exact ⟨rfl, hspread.shaped'.holds_unique hold hj⟩
    · rintro ⟨rfl, rfl⟩
      exact hj
    · rw [findSector_eq hheld']
      exact findSector_of_unique hspread.shaped' hj hunique
  · have hsame : ∀ i j, m'.allDeadlines.Holds i j n ↔ m.allDeadlines.Holds i j n := fun i j =>
      hspread.holds_iff_of_not_mem fun hin => by
        obtain ⟨s, hs, rfl⟩ := List.mem_map.1 hin
        exact hn (List.mem_map_of_mem (hspread.mem i s hs))
    refine ⟨hsame, ?_⟩
    rw [findSector_eq hheld, findSector_eq hheld']
    exact findSector_congr hspread.shaped hspread.shaped' hspread.length_eq hsame
  · exact hspread.count_le hk (hspread.mem_share hnodup hfresh hs hold) hview
  · obtain ⟨-, -, -, hreach', -⟩ := hspread.before hview
    exact hreach'

/-- Parameters with four windows in a period. -/
def fourWindows : Policy := { Policy.devnet with deadlines := 4, period := 40 }

/-- One sector. -/
def veteran : Sector := { number := 9, expiration := 60 }

/-- A new deadline has got it. -/
def firstSector : Outcome (Deadline × Power) := Deadline.addSectors ⟨40, 29⟩ .kib2 {} 2 true [veteran]

/-- A miner with three empty deadlines and one that may have sectors. -/
def openMiner (d : Deadline) : MinerState :=
  { fresh fourWindows .missing 0 0 with deadlines := .held [.held {}, .held {}, .held d, .held {}] }

/-- Three new sectors. -/
def newcomers : List Sector :=
  [{ number := 5, expiration := 60 }, { number := 7, expiration := 60 }, { number := 8, expiration := 60 }]

theorem view_openMiner {d e : Deadline} {i : Nat} (h : (openMiner d).allDeadlines.view i = some e) :
    e = {} ∨ e = d := by
  have hmem := List.mem_of_getElem? (view_eq_some.1 h)
  have hall : (openMiner d).allDeadlines = [.held {}, .held {}, .held d, .held {}] := rfl
  simp only [hall, List.mem_cons, Stored.held.injEq, List.not_mem_nil, or_false] at hmem
  tauto

/-- Only the last two deadlines may still change. The first new sector tops up the partition that there is, and the
others start a partition in the last deadline. -/
theorem assigned_newcomers : ∃ d w m' w', firstSector = .ok (d, w) ∧ 0 < 2 ∧ d.Reachable 2 ∧ d.WellFilled 2 ∧
    (∀ i e, (openMiner d).allDeadlines.view i = some e → e.Reachable 2) ∧ (newcomers.map (·.number)).Nodup ∧
    (∀ s ∈ newcomers, ∀ i j, ¬(openMiner d).allDeadlines.Holds i j s.number) ∧
    (openMiner d).assignSectors fourWindows .kib2 0 newcomers 2 = .ok (m', w') ∧ w' = 0 ∧
    Assigned fourWindows 2 0 newcomers (openMiner d) m' ∧
    [5, 7, 8, 9].map (m'.findSector fourWindows) = [.ok (2, 0), .ok (3, 0), .ok (3, 0), .ok (2, 0)] := by
  have hrun : (do
      let r ← firstSector
      let a ← (openMiner r.1).assignSectors fourWindows .kib2 0 newcomers 2
      return [5, 7, 8, 9].map (a.1.findSector fourWindows)) =
        .ok [.ok (2, 0), .ok (3, 0), .ok (3, 0), .ok (2, 0)] := by
    have hsorted : newcomers.mergeSort (fun a b => decide (a.number ≤ b.number)) = newcomers :=
      List.mergeSort_of_pairwise (by decide)
    simp only [assignSectors, hsorted]
    decide +kernel
  simp only [bind_eq_ok, pure_eq_ok] at hrun
  obtain ⟨⟨d, w⟩, hfirst, ⟨m', w'⟩, hassign, hfound⟩ := hrun
  have hreach : d.Reachable 2 := @Deadline.Reachable.step 2 ⟨40, 29⟩ .kib2 ∅ (.addSectors 2 true [veteran]) {} d w
    .start ⟨rfl, by decide, fun _ he => absurd he List.not_mem_nil⟩ hfirst
  have hall : ∀ i e, (openMiner d).allDeadlines.view i = some e → e.Reachable 2 := fun i e hview => by
    rcases view_openMiner hview with rfl | rfl
    · exact .start
    · exact hreach
  have hempty : ∀ j n, ¬InPart (layout ({} : Deadline).parts) j n := fun j n hin => by
    obtain ⟨p, hp, -⟩ := (Deadline.inPart_layout (@Deadline.shaped_empty 2).packed).1 hin
    cases hp
  have hnew : ∀ s ∈ newcomers, s.number ∉ [veteran].map (·.number) := by decide
  have hfresh : ∀ s ∈ newcomers, ∀ i j, ¬(openMiner d).allDeadlines.Holds i j s.number := by
    intro s hs i j hold
    obtain ⟨e, -, hview, -⟩ := id hold
    have hin := (holds_iff_inPart hview (hall i e hview).shaped).1 hold
    rcases view_openMiner hview with rfl | rfl
    · exact hempty j _ hin
    · obtain ⟨-, hextended, -⟩ := (@Deadline.shaped_empty 2).addSectors (by decide) (fun _ _ i => hempty i _) hfirst
      exact hempty j _ ((hextended.stays j _ (hnew s hs)).1 hin)
  obtain ⟨hfilled, hassigned⟩ := @assignSectors_assigned 2 (by decide)
  obtain ⟨hzero, hresult⟩ := hassigned fourWindows .kib2 (openMiner d) m' 0 newcomers w' hall (by decide) hfresh hassign
  exact ⟨d, w, m', w', hfirst, by decide, hreach, hfilled d hreach, hall, by decide, hfresh, hassign, hzero, hresult,
    hfound⟩

end MinerState

end SectorLedger
