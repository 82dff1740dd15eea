import SectorLedger.Proofs.Expiration.Locatable
import SectorLedger.Proofs.Quality

/-!
# What the search for sectors answers

Sectors are looked for first at their own expirations and then in the other entries, in order, until all are found.
What comes out can be told without the search: it succeeds if each sector is on time somewhere and its own expiration
is not negative, and then answers the entries in which sectors are on time, each with those sectors and their totals.

* `Locatable`: when the search succeeds.
* `Answered`: what it answers; `Located.answered` reads it off the two phases.
* `locate_faultless`: a search that does not succeed ends in a failure.
* `locate_complete_and_exact`: all of this.
-/

namespace SectorLedger.ExpirationQueue

open NumberSet

variable {grid : Grid} {size : SectorSize} {table : SectorTable} {ns : NumberSet} {ss : List Sector}
  {q : ExpirationQueue} {cs : List (Cohort × ExpirationSet)}

/-- Every sector is on time in some entry, and its own expiration is not negative after rounding. That need not be the
key of the entry. -/
def Locatable (grid : Grid) (q : ExpirationQueue) (ss : List Sector) : Prop :=
  ∀ s ∈ ss, (∃ k : Nat, grid.up s.expiration = .ok (k : Int)) ∧ ∃ k e, q.get? k = some e ∧ s.number ∈ e.onTime

/-- The listed sectors, entry by entry. -/
structure Answered (size : SectorSize) (q : ExpirationQueue) (ss : List Sector)
    (cs : List (Cohort × ExpirationSet)) : Prop where
  /-- The epochs ascend. -/
  ascending : cs.Pairwise (·.1.epoch < ·.1.epoch)
  /-- Every listed sector is in one of the cohorts, and in one only. -/
  perm : (cs.flatMap (·.1.numbers)).Perm (ss.map (·.number))
  /-- No cohort is empty. -/
  nonempty : ∀ c ∈ cs, c.1.numbers ≠ []
  /-- The entry beside a cohort is the one that is stored at its epoch. -/
  stored : ∀ c ∈ cs, ∃ k : Nat, c.1.epoch = k ∧ q.get? k = some c.2
  /-- The cohort holds the listed sectors that are on time there. -/
  mem_iff : ∀ c ∈ cs, ∀ n, n ∈ c.1.numbers ↔ n ∈ c.2.onTime ∧ n ∈ ss.map (·.number)
  /-- Its power is theirs. -/
  power : ∀ c ∈ cs, Power.ofSectors size (ss.filter (·.number ∈ c.1.numbers)) = .ok c.1.power
  /-- Its pledge is theirs. -/
  pledge : ∀ c ∈ cs, c.1.pledge = ((ss.filter (·.number ∈ c.1.numbers)).map (·.pledge)).sum

/-- No sector is in two cohorts. -/
theorem Located.nodup (h : Located size table q ns cs) (hq : q.Orderly) : (cs.flatMap (·.1.numbers)).Nodup := by
  refine List.nodup_flatMap.2 ⟨fun c hc => (h.found c hc).of.nodup,
    h.sorted.imp_of_mem fun {c d} hc hd hlt n hn hn' => ?_⟩
  obtain ⟨k, hk, hget⟩ := (h.found d hd).stored
  have hon : n ∈ (q.entry k).onTime := entry_of_get? hget ▸ ((h.found d hd).mem_iff.1 hn').1
  have := (h.found c hc).epoch_eq hq hn hon
  omega

/-- What is found in terms of a table is what is found in terms of the records. -/
theorem Located.answered (h : Located size table q ns cs) (hq : q.Orderly) (hl : table.Lists ss ns)
    (hdefined : ∀ s ∈ ss, ∃ w, Power.ofSector size s = .ok w) : Answered size q ss cs := by
  have hlists : ∀ c ∈ cs, table.Lists (ss.filter (·.number ∈ c.1.numbers)) (c.2.onTime ∩ ns) := fun c hc =>
    hl.filter (p := (· ∈ c.1.numbers)) fun n => by
      rw [decide_eq_true_iff, (h.found c hc).mem_iff, mem_inter]
      tauto
  refine ⟨h.sorted, ?perm, fun c hc => (h.found c hc).nonempty, fun c hc => (h.found c hc).stored, fun c hc n => ?mem,
    fun c hc => ?power, fun c hc => ?pledge⟩
  case perm =>
    refine (List.perm_ext_iff_of_nodup (h.nodup hq) hl.nodup).2 fun n => ?_
    rw [List.mem_flatMap, h.mem_iff, hl.mem]
  case mem => rw [(h.found c hc).mem_iff, hl.mem]
  case power =>
    obtain ⟨w, hw⟩ := SectorTable.ofSectors_total fun s hs => hdefined s (List.mem_filter.1 hs).1
    rw [hw, (h.found c hc).of.power_eq, (hlists c hc).ofSectors hw]
  case pledge =>
    rw [(h.found c hc).of.pledge_eq, ← (hlists c hc).sum_map]
    exact congrArg List.sum (List.map_congr_left fun s hs => SectorTable.pledgeAt_eq ((hlists c hc).recorded s hs))

/-! ### Searches that do not succeed -/

theorem entryAt_faultless (q : ExpirationQueue) (epoch : Int) : Faultless (q.entryAt epoch) := by
  refine .bind (.ite (.ok _) (.failed _)) fun k _ => .bind (.onFailure _ ?_) fun e _ => .ok _
  exact .bind (.ite (.ok _) nofun) fun _ _ => .ok _

theorem requireNoneEarly_faultless (wanted : NumberSet) (e : ExpirationSet) :
    Faultless (requireNoneEarly wanted e) := by
  unfold requireNoneEarly
  split
  · exact .onFailure _ (.failed _)
  · exact .ok _

theorem locateAt_faultless (h : ∀ s ∈ ss, ∃ w, Power.ofSector size s = .ok w) (q : ExpirationQueue) (wanted : NumberSet)
    (epochs : List Int) : Faultless (locateAt size q ss wanted epochs) := by
  refine .foldOutcome ?_ ([], wanted)
  rintro epoch - ⟨found, wanted⟩
  exact .bind (entryAt_faultless q epoch) fun e _ => .bind (.of_ok (cohortIn_total h wanted e epoch)) fun c _ =>
    .ite (.ok _) (.ok _)

theorem locateElsewhere_faultless (h : ∀ s ∈ ss, ∃ w, Power.ofSector size s = .ok w) (known : List Int)
    (es : List (Nat × ExpirationSet)) (wanted : NumberSet) : Faultless (locateElsewhere size ss known es wanted) := by
  induction es generalizing wanted with
  | nil => exact .ok _
  | cons e es ih =>
    obtain ⟨key, entry⟩ := e
    rw [locateElsewhere]
    refine .ite (ih wanted) (.bind (requireNoneEarly_faultless wanted entry) fun _ _ =>
      .bind (.of_ok (cohortIn_total h wanted entry _)) fun c _ => ?_)
    exact .ite (.ok _) (.bind (ih _) fun r _ => .ok _)

/-- **Nothing but a failure stops a search**, where expirations can be rounded and powers are defined. -/
theorem locate_faultless (hup : ∀ s ∈ ss, ∃ e, grid.up s.expiration = .ok e)
    (h : ∀ s ∈ ss, ∃ w, Power.ofSector size s = .ok w) (q : ExpirationQueue) : Faultless (locate grid size q ss) := by
  refine .bind (.of_ok (groupByExpiration_total hup)) fun groups _ => .bind (locateAt_faultless h q _ _) fun r _ => ?_
  -- whatever has been found, the search ends in the same way
  have hend : ∀ more : List (Cohort × ExpirationSet) × NumberSet, Faultless (if !more.2.isEmpty then
      (failed "some sectors not found in expiration queue" : Outcome (List (Cohort × ExpirationSet)))
      else pure ((r.1 ++ more.1).mergeSort fun a b => a.1.epoch ≤ b.1.epoch)) := fun _ => .ite (.failed _) (.ok _)
  exact .ite (.bind (.ok _) fun more _ => hend more)
    (.bind (.onFailure _ (locateElsewhere_faultless h _ _ _)) fun more _ => hend more)

/-- Sectors that are found are locatable. -/
theorem Answered.locatable (h : Answered size q ss cs)
    (hdue : ∀ s ∈ ss, ∃ k : Nat, grid.up s.expiration = .ok (k : Int)) : Locatable grid q ss := by
  refine fun s hs => ⟨hdue s hs, ?_⟩
  obtain ⟨c, hc, hn⟩ := List.mem_flatMap.1 (h.perm.symm.subset (List.mem_map_of_mem hs))
  obtain ⟨k, -, hget⟩ := h.stored c hc
  exact ⟨k, c.2, hget, ((h.mem_iff c hc _).1 hn).1⟩

/-- **The search is complete and exact.** In a queue where each sector has one place, it finds listed sectors if and
only if they are locatable, and answers them entry by entry. Otherwise it ends in a failure. -/
theorem locate_complete_and_exact (hq : q.Orderly) (hnodup : (ss.map (·.number)).Nodup) (hlasts : ∀ s ∈ ss, s.Lasts)
    (hup : ∀ s ∈ ss, ∃ e, grid.up s.expiration = .ok e) :
    ((∃ cs, locate grid size q ss = .ok cs) ↔ Locatable grid q ss) ∧
      (∀ cs, locate grid size q ss = .ok cs → Answered size q ss cs) ∧
      (¬Locatable grid q ss → ∃ f, locate grid size q ss = .error (.failure f)) := by
  have hdefined : ∀ s ∈ ss, ∃ w, Power.ofSector size s = .ok w := fun s hs => (hlasts s hs).ofSector_total size
  have hl := SectorTable.lists_ofList (SectorTable.recorded_ofList hnodup) hnodup
  have hanswered : ∀ cs, locate grid size q ss = .ok cs → Answered size q ss cs := fun cs hcs =>
    (locate_spec hq hl.covers hcs).answered hq hl hdefined
  have hfound : (∃ cs, locate grid size q ss = .ok cs) ↔ Locatable grid q ss := by
    constructor
    · rintro ⟨cs, hcs⟩
      exact (hanswered cs hcs).locatable (hl.forall_dueAt_iff.1 (due_of_locate hl hcs))
    · intro h
      refine locate_total hq hl (hl.forall_dueAt_iff.2 fun s hs => (h s hs).1) hdefined fun n hn => ?_
      obtain ⟨s, hs, rfl⟩ := hl.exists_of_mem hn
      obtain ⟨-, k, e, he, hon⟩ := h s hs
      exact ⟨k, (entry_of_get? he).symm ▸ hon⟩
  exact ⟨hfound, hanswered, fun hno => (locate_faultless hup hdefined q).exists_failure (mt hfound.1 hno)⟩

/-- One sector at its own expiration, two that have been moved, and one that is early. -/
def movedQueue : ExpirationQueue := SparseArray.ofEntries [(10, { onTime := .ofList [1, 2] }),
  (20, { onTime := .ofList [9] }), (30, { onTime := .ofList [3], early := .ofList [4] })]

/-- A sector of that queue. The second and the third have the same expiration, at which neither is. -/
def movedSector (n : Nat) : Sector :=
  { number := n, activation := 0, expiration := if n = 1 then 8 else 17, pledge := n }

/-- The two that have been moved are found, and the one that is early is not. -/
theorem locate_of_movedQueue :
    (∃ cs, locate ⟨10, 0⟩ .kib2 movedQueue ([3, 1, 2].map movedSector) = .ok cs ∧
      Answered .kib2 movedQueue ([3, 1, 2].map movedSector) cs) ∧
    ∃ f, locate ⟨10, 0⟩ .kib2 movedQueue ([1, 4].map movedSector) = .error (.failure f) := by
  have horderly : movedQueue.Orderly := by decide +kernel
  have hdue : ∀ n, ∃ k : Nat, Grid.up ⟨10, 0⟩ (movedSector n).expiration = .ok (k : Int) := fun n => by
    dsimp only [movedSector]
    split
    · exact ⟨10, by decide⟩
    · exact ⟨20, by decide⟩
  have hup : ∀ numbers : List Nat, ∀ s ∈ numbers.map movedSector, ∃ e, Grid.up ⟨10, 0⟩ s.expiration = .ok e :=
    fun _ => List.forall_mem_map.2 fun n _ => (hdue n).elim fun k hk => ⟨k, hk⟩
  obtain ⟨hfound, hanswered, -⟩ := locate_complete_and_exact horderly (by decide) (by decide) (hup [3, 1, 2])
  obtain ⟨-, -, hrefused⟩ := locate_complete_and_exact horderly (by decide) (by decide) (hup [1, 4])
  constructor
  · have honTime : ∀ n ∈ [3, 1, 2], ∃ k e, movedQueue.get? k = some e ∧ n ∈ e.onTime := by
      refine List.forall_mem_cons.2 ⟨⟨30, _, rfl, ?_⟩, List.forall_mem_cons.2 ⟨⟨10, _, rfl, ?_⟩,
        List.forall_mem_singleton.2 ⟨10, _, rfl, ?_⟩⟩⟩ <;> decide +kernel
    obtain ⟨cs, hcs⟩ := hfound.2 (List.forall_mem_map.2 fun n hn => ⟨hdue n, honTime n hn⟩)
    exact ⟨cs, hcs, hanswered cs hcs⟩
  · refine hrefused fun h => ?_
    obtain ⟨-, k, e, he, hon⟩ := h (movedSector 4) (by simp)
    exact (by decide +kernel : ∀ e ∈ movedQueue.entries, 4 ∉ e.2.onTime) (k, e) (SparseArray.mem_entries.2 he) hon

end SectorLedger.ExpirationQueue
