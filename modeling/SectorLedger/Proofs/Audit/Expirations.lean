import SectorLedger.Audit.Expirations
import SectorLedger.Proofs.Audit.Clean
import SectorLedger.Proofs.Expiration.Sound

/-!
# Queues in which an audit finds nothing

The audits compare what a queue lists and adds up with the records of its sectors. Where they find nothing, each entry
is exact, each sector is listed once, and at an epoch that fits its record.

* `SectorTable.ofSectors_selectKnown`: the sum that an audit compares with is the total over the set.
* `ExpirationSet.Accurate`, `ExpirationQueue.Accurate`: what is true of an entry, and of the queue.
* `ExpirationQueue.accurate_of_clean`: an audit of expirations without findings.
* `NumberQueue.accurate_of_clean`: an audit of early terminations without findings.
-/

namespace SectorLedger

open NumberSet

/-- If the values of an array share no members, a shared member tells that the index is the same. -/
theorem SparseArray.eq_of_shared {α : Type} {a : SparseArray α} (members : α → NumberSet)
    (h : a.entries.Pairwise fun e e' => ∀ n ∈ members e.2, n ∉ members e'.2) {i j n : Nat} {v w : α}
    (hi : a.get? i = some v) (hj : a.get? j = some w) (hv : n ∈ members v) (hw : n ∈ members w) : i = j := by
  by_contra hne
  have : Std.Symm fun e e' : Nat × α => ∀ n ∈ members e.2, n ∉ members e'.2 :=
    ⟨fun _ _ hapart n hn hn' => hapart n hn' hn⟩
  have hapart := h.forall (get?_eq_some_iff.1 hi) (get?_eq_some_iff.1 hj) fun heq => hne (Prod.mk.inj heq).1
  exact hapart n hv hw

/-! ### What is added up -/

namespace SectorTable

variable {table : SectorTable} {size : SectorSize} {ns : NumberSet}

theorem isEmpty_selectKnown_iff :
    (selectKnown table ns).2.isEmpty = true ↔ ∀ n ∈ ns, ∃ s, table.get? n = some s := by
  simp only [selectKnown, List.isEmpty_iff, List.filter_eq_nil_iff, Option.isNone_iff_eq_none, mem_elements,
    ← Option.ne_none_iff_exists']

/-- The records that are found are those at the numbers of the set, if none is missing. -/
theorem forall₂_selectKnown (h : ∀ n ∈ ns, ∃ s, table.get? n = some s) :
    List.Forall₂ (fun n s => table.get? n = some s) ns.elements (selectKnown table ns).1 := by
  have hall : ∀ n ∈ ns.elements, ∃ s, table.get? n = some s := fun n hn => h n (mem_elements.1 hn)
  simp only [selectKnown]
  generalize ns.elements = indices at hall ⊢
  induction indices with
  | nil => exact .nil
  | cons n indices ih =>
    obtain ⟨⟨s, hs⟩, hrest⟩ := List.forall_mem_cons.1 hall
    rw [List.filterMap_cons_some hs]
    exact .cons hs (ih hrest)

/-- The record of a member is found. -/
theorem mem_selectKnown {n : Nat} {s : Sector} (hn : n ∈ ns) (hs : table.get? n = some s) :
    s ∈ (selectKnown table ns).1 := List.mem_filterMap.2 ⟨n, mem_elements.2 hn, hs⟩

/-- A sum over the records at the numbers of a set is the total over the set. -/
theorem sum_of_forall₂ {M : Type} [AddCommGroup M] {ss : List Sector} {f : Sector → M} {g : Nat → M}
    (h : List.Forall₂ (fun n s => table.get? n = some s) ns.elements ss)
    (hfg : ∀ n s, s ∈ ss → table.get? n = some s → f s = g n) : (ss.map f).sum = ns.total g := by
  have hmap : ns.elements.map g = ss.map f := by
    generalize ns.elements = indices at h ⊢
    induction h with
    | nil => rfl
    | @cons n s _ ss hn _ ih =>
      rw [List.map_cons, List.map_cons, hfg n s List.mem_cons_self hn,
        ih fun n s hs => hfg n s (List.mem_cons_of_mem _ hs)]
  rw [← hmap, sum_map_eq_total g ns.nodup_elements]
  exact total_congr_set g fun n => by rw [mem_ofList, mem_elements]

/-- The power of the records that are found is defined, and is the total over the set. -/
theorem ofSectors_selectKnown {p : Power} (hknown : ∀ n ∈ ns, ∃ s, table.get? n = some s)
    (h : Power.ofSectors size (selectKnown table ns).1 = .ok p) :
    (∀ n ∈ ns, ∃ s w, table.get? n = some s ∧ Power.ofSector size s = .ok w) ∧ p = ns.total (table.powerAt size) := by
  obtain ⟨ps, hps, rfl⟩ := ofSectors_eq_ok.1 h
  refine ⟨fun n hn => ?_, ?_⟩
  · obtain ⟨s, hs⟩ := hknown n hn
    obtain ⟨w, -, hw⟩ := exists_of_mem_left hps (mem_selectKnown hn hs)
    exact ⟨s, w, hs, hw⟩
  · rw [← map_getD_ofSector hps]
    exact sum_of_forall₂ (forall₂_selectKnown hknown) fun n s _ hs => by rw [powerAt, hs]

/-- The records of a set of sectors, each under its own number. -/
def filed (table : SectorTable) (ns : NumberSet) : SectorTable := ofList (selectKnown table ns).1

/-- If each record stands at its own number, filing changes nothing. -/
theorem Keyed.get?_filed (hk : table.Keyed) (hknown : ∀ n ∈ ns, ∃ s, table.get? n = some s) {n : Nat} (hn : n ∈ ns) :
    (table.filed ns).get? n = table.get? n := by
  obtain ⟨hnumbers, -⟩ := map_number_of_forall₂ hk (forall₂_selectKnown hknown)
  obtain ⟨s, hs⟩ := hknown n hn
  have hfiled := recorded_ofList (hnumbers ▸ ns.nodup_elements) s (mem_selectKnown hn hs)
  rw [Recorded, hk n s hs] at hfiled
  rw [hs]
  exact hfiled

end SectorTable

/-! ### Entries -/

variable {grid : Grid} {live : SectorTable} {size : SectorSize} {faults : NumberSet} {epoch first : Int}
  {e : ExpirationSet} {q : ExpirationQueue}

/-- An entry at an epoch that holds what it should: its totals are exact, and its sectors are due at the epoch or may
stand there. -/
structure ExpirationSet.Accurate (grid : Grid) (live : SectorTable) (size : SectorSize) (faults : NumberSet)
    (epoch first : Int) (e : ExpirationSet) : Prop where
  /-- The epoch is a point of the grid. -/
  quantized : grid.up epoch = .ok epoch
  /-- The entry is not too large. -/
  count_le : e.onTime.count + e.early.count ≤ entrySectorsMax
  /-- The totals are the sums over the sectors. -/
  exact : e.Exact size live faults
  /-- Sectors on time expire at this epoch, unless this is the first entry. -/
  onTime_due : ∀ n ∈ e.onTime, ∃ s target, live.get? n = some s ∧ grid.up s.expiration = .ok target ∧
    (epoch = target ∨ epoch = first)
  /-- Early sectors expire later. -/
  early_due : ∀ n ∈ e.early, ∃ s target, live.get? n = some s ∧ grid.up s.expiration = .ok target ∧ epoch < target

namespace Audit

theorem clean_expectNew {queue : String} {seen seen' : NumberSet} {n : Nat} :
    Clean (expectNew queue seen n) seen' ↔ n ∉ seen ∧ seen' = seen ∪ singleton n := by
  simp only [expectNew, clean_bind, clean_expect, decide_eq_true_eq, clean_pure]
  constructor
  · rintro ⟨_, hnew, hseen⟩
    exact ⟨hnew, hseen.symm⟩
  · rintro ⟨hnew, hseen⟩
    exact ⟨(), hnew, hseen.symm⟩

/-- What is checked about a sector on time. -/
theorem of_clean_onTimeSector {state state' : NumberSet × Int} {n : Nat}
    (h : Clean (onTimeSector grid live epoch first state n) state') :
    n ∉ state.1 ∧ (∃ s target, live.get? n = some s ∧ grid.up s.expiration = .ok target ∧
      (epoch = target ∨ epoch = first)) ∧
      state'.1 = state.1 ∪ singleton n ∧ state'.2 = state.2 + live.pledgeAt n := by
  simp only [onTimeSector, clean_bind, clean_expectNew] at h
  obtain ⟨_, ⟨hnew, rfl⟩, h⟩ := h
  split at h
  · next s hs =>
    simp only [clean_bind, clean_liftM, clean_expect, Bool.or_eq_true, beq_iff_eq, clean_pure] at h
    obtain ⟨target, hup, _, hdue, rfl⟩ := h
    refine ⟨hnew, ⟨s, target, hs, hup, hdue⟩, rfl, ?_⟩
    rw [SectorTable.pledgeAt, hs]
  · simp only [clean_bind, not_clean_note, false_and, exists_false] at h

/-- What is checked about a sector that expires early. -/
theorem of_clean_earlySector {seen seen' : NumberSet} {n : Nat}
    (h : Clean (earlySector grid live faults epoch seen n) seen') :
    n ∉ seen ∧ (n ∈ faults ∧ ∃ s target, live.get? n = some s ∧ grid.up s.expiration = .ok target ∧ epoch < target) ∧
      seen' = seen ∪ singleton n := by
  simp only [earlySector, clean_bind, clean_expectNew, clean_expect, decide_eq_true_eq] at h
  obtain ⟨_, ⟨hnew, rfl⟩, _, hfaulty, h⟩ := h
  split at h
  · next s hs =>
    simp only [clean_bind, clean_liftM, clean_expect, decide_eq_true_eq, clean_pure] at h
    obtain ⟨target, hup, _, hdue, rfl⟩ := h
    exact ⟨hnew, ⟨hfaulty, s, target, hs, hup, hdue⟩, rfl⟩
  · simp only [clean_bind, not_clean_note, false_and, exists_false] at h

/-- The records of a part of an entry are those of all its members. -/
theorem total_of_clean_entrySectors {what : String} {ns : NumberSet} {ss : List Sector} {p : Power}
    (h : Clean (entrySectors live what ns) ss) (hp : Power.ofSectors size ss = .ok p) :
    p = ns.total (live.powerAt size) := by
  simp only [entrySectors, clean_bind, clean_expect, clean_pure] at h
  obtain ⟨_, hknown, rfl⟩ := h
  exact (SectorTable.ofSectors_selectKnown (SectorTable.isEmpty_selectKnown_iff.1 hknown) hp).2

/-- **An entry without findings** is accurate, and its sectors have not been seen before. -/
theorem of_clean_expirationEntry {seen seen' : NumberSet}
    (h : Clean (expirationEntry grid live size faults epoch first e seen) seen') :
    e.Accurate grid live size faults epoch first ∧ (∀ n ∈ e.members, n ∉ seen) ∧ seen' = seen ∪ e.members := by
  simp only [expirationEntry, clean_bind, clean_liftM, clean_expect, beq_iff_eq, decide_eq_true_eq, clean_pure] at h
  obtain ⟨target, hup, _, rfl, count, hcount, _, hle, ⟨seen₁, pledge⟩, hontime, seen₂, hearly, active, hactive, faulty,
    hfaulty, p, hp, _, hactiveEq, w, hw, _, hfaultyEq, _, hpledge, rfl⟩ := h
  obtain ⟨honNew, hseen₁⟩ := seen_of_clean Prod.fst
    (P := fun n => ∃ s t, live.get? n = some s ∧ grid.up s.expiration = .ok t ∧ (target = t ∨ target = first))
    hontime fun c n c' hc => by
      obtain ⟨hnew, hdue, hseen, -⟩ := of_clean_onTimeSector hc
      exact ⟨hnew, hdue, hseen⟩
  have hsum := sum_of_clean Prod.snd (v := live.pledgeAt) hontime fun c n c' hc =>
    (of_clean_onTimeSector hc).2.2.2
  obtain ⟨hearlyNew, rfl⟩ := seen_of_clean id hearly fun c n c' hc => of_clean_earlySector hc
  obtain rfl : seen₁ = seen ∪ e.onTime := hseen₁
  have hpledge' : pledge = e.onTime.total live.pledgeAt := hsum.trans (Int.zero_add _)
  have hcounted : e.onTime.count + e.early.count = count := by
    rw [ExpirationSet.count, Count.add_eq_ok] at hcount
    exact hcount.2.symm
  refine ⟨⟨hup, hcounted ▸ hle, ⟨fun n hn hn' => ?_, fun n hn => (hearlyNew n hn).2.1, hpledge.trans hpledge',
    hactiveEq.trans (total_of_clean_entrySectors hactive hp), hfaultyEq.trans (total_of_clean_entrySectors hfaulty hw)⟩,
    fun n hn => (honNew n hn).2, fun n hn => (hearlyNew n hn).2.2⟩, fun n hn => ?_, ?_⟩
  · exact (hearlyNew n hn').1 (mem_union.2 (.inr hn))
  · rcases ExpirationSet.mem_members.1 hn with hn | hn
    · exact (honNew n hn).1
    · exact fun hseen => (hearlyNew n hn).1 (mem_union.2 (.inl hseen))
  · ext n
    simp only [id, mem_union, ExpirationSet.mem_members, or_assoc]

/-- What is true of entries that are checked one after the other. -/
theorem of_clean_expirationEntries {es : List (Nat × ExpirationSet)} {seen : NumberSet} {u : Unit}
    (h : Clean (expirationEntries grid live size faults first es seen) u) :
    (∀ e ∈ es, e.2.Accurate grid live size faults (Count.toEpoch e.1) first ∧ ∀ n ∈ e.2.members, n ∉ seen) ∧
      es.Pairwise fun e e' => ∀ n ∈ e.2.members, n ∉ e'.2.members := by
  induction es generalizing seen with
  | nil => exact ⟨fun e he => absurd he List.not_mem_nil, .nil⟩
  | cons e es ih =>
    simp only [expirationEntries, clean_bind, clean_under] at h
    obtain ⟨_, hentry, hrest⟩ := h
    obtain ⟨haccurate, hnew, rfl⟩ := of_clean_expirationEntry hentry
    obtain ⟨hall, hapart⟩ := ih hrest
    refine ⟨List.forall_mem_cons.2 ⟨⟨haccurate, hnew⟩, fun e' he' => ⟨(hall e' he').1, fun n hn hseen => ?_⟩⟩,
      hapart.cons fun e' he' n hn hn' => ?_⟩
    · exact (hall e' he').2 n hn (mem_union.2 (.inl hseen))
    · exact (hall e' he').2 n hn' (mem_union.2 (.inr hn))

end Audit

/-! ### Queues -/

namespace ExpirationQueue

/-- The epoch of the first entry. -/
def firstEpoch (q : ExpirationQueue) : Int := (q.indices.head?.map Count.toEpoch).getD 0

/-- A queue of live sectors that lists what it should: its entries are accurate, and share no sector. -/
structure Accurate (grid : Grid) (live : SectorTable) (size : SectorSize) (faults : NumberSet) (q : ExpirationQueue) :
    Prop where
  /-- The entries hold what they should. -/
  entries : ∀ k e, q.get? k = some e → e.Accurate grid live size faults (Count.toEpoch k) q.firstEpoch
  /-- No sector is in two entries. -/
  once : ∀ k k' e e' n, q.get? k = some e → q.get? k' = some e' → n ∈ e.members → n ∈ e'.members → k = k'

/-- **A queue without findings** is accurate. -/
theorem accurate_of_clean {summary : ExpirationSummary}
    (h : Audit.Clean (Audit.expirations grid live size q faults) summary) :
    q.Accurate grid live size faults ∧ summary = Audit.summarize q := by
  unfold Audit.expirations at h
  split at h
  · next hnil =>
    have hnone : ∀ k, q.get? k = none := SparseArray.isEmpty_iff.1 (List.isEmpty_iff.2 hnil)
    refine ⟨⟨fun k e hk => ?_, fun k k' e e' n hk => ?_⟩, (Audit.clean_pure.1 h).symm⟩ <;>
    exact absurd hk (by rw [hnone]; nofun)
  · next key entry rest hcons =>
    rw [Audit.clean_bind] at h
    obtain ⟨_, hentries, h⟩ := h
    have hfirst : q.firstEpoch = Count.toEpoch key := by rw [firstEpoch, SparseArray.indices, hcons]; rfl
    rw [← hcons, ← hfirst] at hentries
    obtain ⟨hall, hapart⟩ := Audit.of_clean_expirationEntries hentries
    exact ⟨⟨fun k e hk => (hall (k, e) (SparseArray.get?_eq_some_iff.1 hk)).1,
      fun k k' e e' n hk hk' => SparseArray.eq_of_shared ExpirationSet.members hapart hk hk'⟩,
      (Audit.clean_pure.1 h).symm⟩

/-- The sectors that a queue lists in all are those of its entries. -/
theorem mem_summarize {n : Nat} : n ∈ (Audit.summarize q).onTime ∪ (Audit.summarize q).early ↔
    ∃ k e, q.get? k = some e ∧ n ∈ e.members := by
  have hunion : ∀ ss : List NumberSet, n ∈ unionAll ss ↔ ∃ s ∈ ss, n ∈ s := by
    intro ss
    induction ss with
    | nil => exact iff_of_false (not_mem_empty n) fun ⟨s, hs, _⟩ => absurd hs List.not_mem_nil
    | cons s ss ih => rw [List.exists_mem_cons_iff, ← ih]; exact mem_union
  simp only [Audit.summarize, mem_union, hunion, SparseArray.values, List.mem_map, SparseArray.mem_entries,
    ExpirationSet.mem_members]
  constructor
  · rintro (⟨_, ⟨e, ⟨c, hc, rfl⟩, rfl⟩, hn⟩ | ⟨_, ⟨e, ⟨c, hc, rfl⟩, rfl⟩, hn⟩)
    · exact ⟨c.1, c.2, hc, .inl hn⟩
    · exact ⟨c.1, c.2, hc, .inr hn⟩
  · rintro ⟨k, e, hk, hn | hn⟩
    · exact .inl ⟨_, ⟨e, ⟨(k, e), hk, rfl⟩, rfl⟩, hn⟩
    · exact .inr ⟨_, ⟨e, ⟨(k, e), hk, rfl⟩, rfl⟩, hn⟩

end ExpirationQueue

/-! ### Early terminations -/

namespace NumberQueue

/-- Entries that are checked one after the other list new numbers only, each once. -/
theorem of_clean_earlyEntries {es : List (Nat × NumberSet)} {seen seen' : NumberSet}
    (h : Audit.Clean (Audit.earlyEntries es seen) seen') :
    (∀ e ∈ es, ∀ n ∈ e.2, n ∉ seen) ∧ (es.Pairwise fun e e' => ∀ n ∈ e.2, n ∉ e'.2) ∧
      ∀ n, n ∈ seen' ↔ n ∈ seen ∨ ∃ e ∈ es, n ∈ e.2 := by
  induction es generalizing seen with
  | nil =>
    obtain rfl := Audit.clean_pure.1 h
    exact ⟨fun e he => absurd he List.not_mem_nil, .nil, fun n => by simp⟩
  | cons e es ih =>
    simp only [Audit.earlyEntries, Audit.clean_bind, Audit.clean_under] at h
    obtain ⟨seen₁, hentry, hrest⟩ := h
    obtain ⟨hnew, hseen⟩ := Audit.seen_of_clean id (P := fun _ => True) hentry fun c n c' hc => by
      obtain ⟨hnew, hseen⟩ := Audit.clean_expectNew.1 hc
      exact ⟨hnew, trivial, hseen⟩
    obtain rfl : seen₁ = seen ∪ e.2 := hseen
    obtain ⟨hall, hapart, hmem⟩ := ih hrest
    refine ⟨List.forall_mem_cons.2 ⟨fun n hn => (hnew n hn).1, fun e' he' n hn hseen => ?_⟩,
      hapart.cons fun e' he' n hn hn' => ?_, fun n => ?_⟩
    · exact hall e' he' n hn (mem_union.2 (.inl hseen))
    · exact hall e' he' n hn' (mem_union.2 (.inr hn))
    · rw [hmem, mem_union, List.exists_mem_cons_iff, or_assoc]

/-- A queue of early terminations that lists what it should: only sectors that ended, each once. -/
structure Accurate (terminated : NumberSet) (q : NumberQueue) : Prop where
  /-- The sectors have ended. -/
  ended : ∀ k ns n, q.get? k = some ns → n ∈ ns → n ∈ terminated
  /-- No sector is listed twice. -/
  once : ∀ k k' ns ns' n, q.get? k = some ns → q.get? k' = some ns' → n ∈ ns → n ∈ ns' → k = k'

/-- **A queue of early terminations without findings** is accurate, and its sectors are counted. -/
theorem accurate_of_clean {q : NumberQueue} {terminated : NumberSet} {count : Nat}
    (h : Audit.Clean (Audit.earlyTerminations q terminated) count) :
    q.Accurate terminated ∧ (0 < count ↔ ∃ k ns n, q.get? k = some ns ∧ n ∈ ns) := by
  simp only [Audit.earlyTerminations, Audit.clean_bind, Audit.clean_expectContainsAll, Audit.clean_pure] at h
  obtain ⟨seen, hentries, _, hended, rfl⟩ := h
  obtain ⟨-, hapart, hmem⟩ := of_clean_earlyEntries hentries
  have hlisted : ∀ n, n ∈ seen ↔ ∃ k ns, q.get? k = some ns ∧ n ∈ ns := by
    intro n
    rw [hmem, or_iff_right (not_mem_empty n)]
    simp only [SparseArray.mem_entries, Prod.exists]
  refine ⟨⟨fun k ns n hk hn => hended n ((hlisted n).2 ⟨k, ns, hk, hn⟩),
    fun k k' ns ns' n hk hk' => SparseArray.eq_of_shared id hapart hk hk'⟩, ?_⟩
  rw [Nat.pos_iff_ne_zero, ne_eq, count_eq_zero_iff, ← NumberSet.isEmpty_iff, Bool.not_eq_true, isEmpty_eq_false_iff]
  constructor
  · rintro ⟨n, hn⟩
    obtain ⟨k, ns, hk, hns⟩ := (hlisted n).1 hn
    exact ⟨k, ns, n, hk, hns⟩
  · rintro ⟨k, ns, n, hk, hns⟩
    exact ⟨n, (hlisted n).2 ⟨k, ns, hk, hns⟩⟩

end NumberQueue

end SectorLedger
