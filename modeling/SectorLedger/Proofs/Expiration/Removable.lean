import SectorLedger.Proofs.Expiration.Locatable
import SectorLedger.Proofs.Expiration.Removing

/-!
# When sectors can leave the queue

Faulty sectors can leave wherever they are. Active ones are looked for and then leave entry by entry, where the key of
the entry is rounded once more; so their own expirations have to be keys, and rounding must not overflow at the epochs
at which they are on time. Nothing else stops them.

* `Removable`: the condition on the active ones. It does not matter whether they leave together.
* `Sound.removeActive_total`, `Sound.removable`: it is enough, and necessary.
* `Sound.removeSectors_ok_iff`: when sectors, active or faulty, can leave.
-/

namespace SectorLedger.ExpirationQueue

open NumberSet

variable {grid : Grid} {size : SectorSize} {table : SectorTable} {faults ns ms : NumberSet} {ss : List Sector}
  {q q' : ExpirationQueue} {e : ExpirationSet} {k : Nat}

/-- Active sectors can leave the queue. -/
structure Removable (grid : Grid) (table : SectorTable) (q : ExpirationQueue) (ns : NumberSet) : Prop where
  /-- Their own expirations are keys, and their numbers can be in a set. -/
  enterable : Enterable grid table ns
  /-- The epochs at which they are on time can be rounded. -/
  rounds : ∀ n ∈ ns, ∀ k : Nat, n ∈ (q.entry k).onTime → grid.up k = .ok (k : Int)

theorem Removable.fixed (h : Removable grid table q ns) : Fixed grid q ns := fun n hn k hk _ hup =>
  (Except.ok.inj ((h.rounds n hn k hk).symm.trans hup)).symm

theorem removable_union : Removable grid table q (ns ∪ ms) ↔ Removable grid table q ns ∧ Removable grid table q ms := by
  constructor
  · rintro ⟨he, hr⟩
    obtain ⟨hns, hms⟩ := enterable_union.1 he
    exact ⟨⟨hns, fun n hn => hr n (mem_union.2 (.inl hn))⟩, ⟨hms, fun n hn => hr n (mem_union.2 (.inr hn))⟩⟩
  · rintro ⟨⟨hns, hr⟩, ⟨hms, hr'⟩⟩
    exact ⟨enterable_union.2 ⟨hns, hms⟩, fun n hn => (mem_union.1 hn).elim (hr n) (hr' n)⟩

/-- Only where the sectors are on time matters. -/
theorem removable_congr (h : ∀ n ∈ ns, ∀ k, n ∈ (q'.entry k).onTime ↔ n ∈ (q.entry k).onTime) :
    Removable grid table q' ns ↔ Removable grid table q ns :=
  ⟨fun hr => ⟨hr.enterable, fun n hn k hk => hr.rounds n hn k ((h n hn k).2 hk)⟩,
    fun hr => ⟨hr.enterable, fun n hn k hk => hr.rounds n hn k ((h n hn k).1 hk)⟩⟩

/-! ### Active sectors -/

/-- Whatever is left of an entry when the sectors have left it passes the check. -/
def LeavesValid (size : SectorSize) (table : SectorTable) (faults : NumberSet) (q : ExpirationQueue) (ns : NumberSet) :
    Prop :=
  ∀ (k : Nat) (e : ExpirationSet), e.Exact size table faults → e.onTime = (q.entry k).onTime \ ns →
    e.early = (q.entry k).early → e.validate = .ok ()

theorem NonnegTotals.leavesValid (h : q.NonnegTotals size table) (faults ns : NumberSet) :
    LeavesValid size table faults q ns := by
  refine fun k e he hon hearly => validate_of_nonneg he fun n hn => h n ⟨k, ExpirationSet.mem_members.2 ?_⟩
  rw [ExpirationSet.mem_members, hon, hearly, mem_sdiff] at hn
  exact hn.imp_left And.left

/-- The next cohort can leave. -/
theorem Leaving.next_total {base : Grid} (hq : q.Sound base size table faults)
    (hvalid : LeavesValid size table faults q ns) (hf : ∀ n ∈ ns, n ∉ faults) (hr : Removable grid table q ns)
    {cs done rest : List (Cohort × ExpirationSet)} (hloc : Located size table q ns cs) {c : Cohort}
    (hs : cs = done ++ (c, e) :: rest) {r : ExpirationQueue × List Nat × Power × Int}
    (hI : Leaving base size table faults q done r) :
    ∃ q₁, removeAt grid r.1 c.epoch { onTime := .ofList c.numbers, active := c.power, pledge := c.pledge } = .ok q₁ := by
  have hc := hloc.found (c, e) (by rw [hs]; simp)
  obtain ⟨k, hk, hget⟩ := hc.stored
  have hset : NumberSet.ofList c.numbers = e.onTime ∩ ns := by
    ext n
    rw [mem_ofList, hc.of.mem]
  have hhere : ∀ n ∈ NumberSet.ofList c.numbers, n ∈ (r.1.entry k).onTime := fun n hn =>
    hI.mem_next hq.orderly hloc hs hk (mem_ofList.1 hn)
  have hactive : ∀ n ∈ NumberSet.ofList c.numbers, n ∉ faults := fun n hn => hf n (mem_inter.1 (hset ▸ hn)).2
  obtain ⟨m, hm⟩ := List.exists_mem_of_ne_nil _ hc.nonempty
  obtain ⟨hmon, hmns⟩ := hc.mem_iff.1 hm
  have hup : grid.up c.epoch = .ok (k : Int) := by
    rw [hk]
    exact hr.rounds m hmns k (entry_of_get? hget ▸ hmon)
  have hstored := get?_of_mem (ExpirationSet.mem_members.2 (.inl (hhere m (mem_ofList.2 hm))))
  -- those that have left before were in other entries, or are to leave too
  have hgone : ∀ n ∈ NumberSet.ofList r.2.1, n ∈ ns := fun n hn => by
    rw [mem_ofList, hI.numbers_eq, List.mem_flatMap] at hn
    obtain ⟨d, hd, hn⟩ := hn
    exact ((hloc.found d (by rw [hs]; simp [hd])).mem_iff.1 hn).2
  have hrest : (r.1.entry k).onTime \ NumberSet.ofList c.numbers = (q.entry k).onTime \ ns := by
    ext n
    have := hgone n
    rw [hI.onTime, hset, entry_of_get? hget]
    simp only [mem_sdiff, mem_inter]
    tauto
  have hleft := hvalid k _ ((hI.sound.exact k).remove hhere hactive) hrest (hI.early k)
  rw [hc.of.power_eq, hc.of.pledge_eq, ← hset]
  exact ⟨_, removeAt_eq_ok.2 ⟨k, hup, key_le_of_up hup, Option.isSome_iff_exists.2 ⟨_, hstored⟩, _,
    ExpirationSet.remove_onTime_eq_ok.2 ⟨hhere, hleft, rfl⟩, rfl⟩⟩

/-- **Nothing else stops active sectors from leaving**, if what is left passes the check. -/
theorem Sound.removeActive_total {base : Grid} (hq : q.Sound base size table faults)
    (hvalid : LeavesValid size table faults q ns) (hl : table.Lists ss ns) (hf : ∀ n ∈ ns, n ∉ faults)
    (hr : Removable grid table q ns) (hdefined : ∀ s ∈ ss, ∃ w, Power.ofSector size s = .ok w)
    (hon : ∀ n ∈ ns, ∃ k, n ∈ (q.entry k).onTime) : ∃ r, ExpirationQueue.removeActive grid size q ss = .ok r := by
  obtain ⟨cs, hcs⟩ := locate_total hq.orderly hl hr.enterable.due hdefined hon
  have hloc := locate_spec hq.orderly hl.covers hcs
  have hsub : ∀ {numbers : List Nat}, (∀ n ∈ numbers, ∃ c ∈ cs, n ∈ c.1.numbers) →
      NumberSet.ofValues numbers = .ok (.ofList numbers) := fun h =>
    hr.enterable.ofValues_total fun n hn => hloc.mem_iff.1 (h n hn)
  simp only [ExpirationQueue.removeActive, bind_eq_ok, hcs, Except.ok.injEq, exists_eq_left', pure_eq_ok]
  refine Exists.elim (foldOutcome_total (I := Leaving base size table faults q) (.start hq) ?step) fun r hr =>
    ⟨_, r, hr.1, _, hsub fun n hn => List.mem_flatMap.1 (hr.2.numbers_eq ▸ hn), rfl⟩
  case step =>
    rintro done ⟨c, e⟩ rest r hs hI
    obtain ⟨q₁, hq₁⟩ := hI.next_total hq hvalid hf hr hloc hs
    refine ⟨_, ?_, hI.step hr.fixed hq hf hloc hs hq₁⟩
    exact bind_eq_ok.2 ⟨_, hsub fun n hn => ⟨(c, e), by rw [hs]; simp, hn⟩, bind_eq_ok.2 ⟨q₁, hq₁, rfl⟩⟩

/-- **Active sectors that leave were removable.** -/
theorem Sound.removable (hu : 0 < grid.unit) (hq : q.Sound grid size table faults) (hl : table.Lists ss ns) {lot : Lot}
    (h : ExpirationQueue.removeActive grid size q ss = .ok (q', lot)) : Removable grid table q ns := by
  simp only [ExpirationQueue.removeActive, bind_eq_ok, pure_eq_ok] at h
  obtain ⟨cs, hcs, ⟨q₁, numbers, power, pledge⟩, hfold, set, hset, -⟩ := h
  have hloc := locate_spec hq.orderly hl.covers hcs
  obtain ⟨hnumbers, hrounds⟩ := foldOutcome_invariant (I := fun done (r : ExpirationQueue × List Nat × Power × Int) =>
      r.2.1 = done.flatMap (·.1.numbers) ∧ ∀ c ∈ done, ∃ k : Nat, grid.up c.1.epoch = .ok (k : Int)) hfold (by simp) (by
    rintro done ⟨c, e⟩ rest r r' - ⟨hnumbers, hrounds⟩ hstep
    simp only [bind_eq_ok, pure_eq_ok, removeAt_eq_ok] at hstep
    obtain ⟨-, -, -, ⟨k, hup, -⟩, rfl⟩ := hstep
    refine ⟨?_, List.forall_mem_append.2 ⟨hrounds, List.forall_mem_singleton.2 ⟨k, hup⟩⟩⟩
    rw [List.flatMap_append, List.flatMap_singleton, hnumbers])
  refine ⟨fun n hn => ⟨due_of_locate hl hcs n hn, ?_⟩, fun n hn k hk => ?_⟩
  · have hlt := (ofValues_eq_ok.1 hset).1 n (hnumbers.symm ▸ List.mem_flatMap.2 (hloc.complete n hn))
    exact lt_forbiddenMember_iff.1 hlt
  · obtain ⟨c, hc, hnc⟩ := hloc.complete n hn
    obtain ⟨j, hup⟩ := hrounds c hc
    rw [(hloc.found c hc).epoch_eq hq.orderly hnc hk] at hup
    rw [hup, up_of_onGrid hu (hq.onGrid k _ (get?_of_mem (ExpirationSet.mem_members.2 (.inl hk)))) hup]

/-! ### Faulty sectors -/

theorem removeFaulty_total (ms : NumberSet) (e : ExpirationSet) (r : Removing × ExpirationSet) {s : Sector}
    (h : ∃ w, Power.ofSector size s = .ok w) :
    ∃ r', removeFaulty size ms e r s = .ok r' := by
  obtain ⟨w, hw⟩ := h
  simp only [removeFaulty, hw, ok_bind]
  split
  · exact ⟨_, rfl⟩
  · exact ⟨_, rfl⟩

/-- Sectors can leave an entry that passes its check afterwards. The walk stops once nothing remains. -/
theorem removeFromEntry_total (hl : table.Lists ss ns) (hdefined : ∀ s ∈ ss, ∃ w, Power.ofSector size s = .ok w)
    (he : ∀ n ∈ e.onTime, n ∉ e.early) (all : Removing)
    (hvalid : ExpirationSet.validate { e with
      onTime := e.onTime \ (ns ∩ e.onTime)
      early := e.early \ (ns ∩ e.early)
      pledge := e.pledge - (ns ∩ e.onTime).total table.pledgeAt
      faulty := e.faulty - (ns ∩ e.members).total (table.powerAt size) } = .ok ()) :
    ∃ all' e' more, removeFromEntry size ms ss all e = .ok (all', e', more) ∧ (more = false → all'.remaining = ∅) := by
  obtain ⟨r, hfold⟩ : ∃ r, foldOutcome (removeFaulty size ms e) (all, ∅) ss = .ok r := by
    refine (foldOutcome_total (I := fun _ _ => True) trivial ?_).imp fun r hr => hr.1
    rintro done s rest r hs -
    obtain ⟨r', hr'⟩ := removeFaulty_total ms e r (hdefined s (by rw [hs]; simp))
    exact ⟨r', hr', trivial⟩
  have hleaving := (removingFrom_of_fold hl he hfold).leaving
  obtain ⟨all', leaving⟩ := r
  simp only [← hl.eq_ofList] at hleaving
  subst hleaving
  have hstep : ∃ removed e', removeFromEntry size ms ss all e =
      .ok ({ all' with removed }, e', !all'.remaining.isEmpty) := by
    simp only [removeFromEntry, hfold, ok_bind, hvalid]
    exact ⟨_, _, rfl⟩
  obtain ⟨removed, e', hstep⟩ := hstep
  exact ⟨_, e', _, hstep, fun hstop => NumberSet.isEmpty_iff.1 (by simpa using hstop)⟩

/-- **Nothing stops the search for faulty sectors that are in the queue.** -/
theorem Sound.removeWalk_total (hq : q.Sound grid size table faults) (hnonneg : q.NonnegTotals size table)
    (ms : NumberSet) (hl : table.Lists ss ns) (hf : ∀ n ∈ ns, n ∈ faults)
    (hdefined : ∀ s ∈ ss, ∃ w, Power.ofSector size s = .ok w)
    (hheld : ∀ n ∈ ns, q.Holds n) {before : ExpirationSet} (hbefore : before.Exact size table faults)
    (hapart : ∀ n ∈ before.members, n ∉ ns) :
    ∃ all q₁, walk (removeFromEntry size ms ss) q.entries { remaining := ns, removed := before } q = .ok (all, q₁) ∧
      all.remaining = ∅ := by
  have hkeys : ∀ c ∈ q.entries, c.1 < 0x8000000000000000 := fun c hc =>
    hq.key_lt c.1 c.2 (SparseArray.mem_entries.1 hc)
  have step : ∀ done c rest all q₁, q.entries = done ++ c :: rest →
      RemovedSoFar grid size table faults ns ms q before done all q₁ →
      ∃ all' e' more, removeFromEntry size ms ss all c.2 = .ok (all', e', more) ∧
        RemovedSoFar grid size table faults ns ms q before (done ++ [c]) all' (q₁.store c.1 e') ∧
        (more = false → all'.remaining = ∅) := by
    rintro done ⟨key, e⟩ rest all q₁ hs hI
    have hentry : q.entry key = e := entry_of_get? (SparseArray.get?_eq_some_iff.2 (by rw [hs]; simp))
    have hvalid := validate_of_nonneg (hI.next hf hs) fun n hn => hnonneg n ⟨key, by
      rw [ExpirationSet.mem_members, mem_sdiff, mem_sdiff] at hn
      rw [hentry]
      exact ExpirationSet.mem_members.2 (hn.imp And.left And.left)⟩
    obtain ⟨all', e', more, hstep, hstop⟩ := removeFromEntry_total hl hdefined (hentry ▸ (hq.exact key).apart) all hvalid
    exact ⟨all', e', more, hstep, hI.step hq hl hf hapart hs hstep, hstop⟩
  obtain ⟨all, q₁, done, rest, hwalk, hs, hI, hend⟩ := walk_total hkeys (.start hq ns ms hbefore) step
  refine ⟨all, q₁, hwalk, ?_⟩
  rcases hend with rfl | hnone
  · exact none_left_of_holds (by rw [hs, List.append_nil]) hheld hI.remaining
  · exact hnone

/-! ### All of them -/

/-- **Sectors can leave, active or faulty, if the active ones are removable** and there are not too many faulty and
recovering ones in all. -/
theorem Sound.removeSectors_ok_iff (hu : 0 < grid.unit) (hq : q.Sound grid size table faults)
    (hnonneg : q.NonnegTotals size table) (hl : table.Lists ss ns)
    (hdefined : ∀ s ∈ ss, ∃ w, Power.ofSector size s = .ok w) (hheld : ∀ n ∈ ns, q.Holds n) {maxSectors : Nat} :
    (∃ r, ExpirationQueue.removeSectors grid size maxSectors q ss faults ms = .ok r) ↔
      faults.count ≤ maxSectors ∧ ms.count ≤ maxSectors ∧ Removable grid table q (ns \ faults) := by
  obtain ⟨hfaulty, hrest⟩ := lists_partition hl faults
  have hactive : ∀ n ∈ ns \ faults, n ∉ faults := fun n hn => (mem_sdiff.1 hn).2
  constructor
  · rintro ⟨⟨q', removed, recovering⟩, h⟩
    obtain ⟨hfaults, hms, q₁, lot, all, hremove, -⟩ := removeSectors_eq_ok.1 h
    exact ⟨hfaults, hms, hq.removable hu hrest hremove⟩
  · rintro ⟨hfaults, hms, hr⟩
    have hon : ∀ n ∈ ns \ faults, ∃ k, n ∈ (q.entry k).onTime := fun n hn => by
      obtain ⟨k, hk⟩ := hheld n (mem_sdiff.1 hn).1
      exact ⟨k, (ExpirationSet.mem_members.1 hk).resolve_right fun he => hactive n hn ((hq.exact k).early_faulty n he)⟩
    obtain ⟨⟨q₁, lot⟩, hremove⟩ := hq.removeActive_total (hnonneg.leavesValid _ _) hrest hactive hr
      (fun s hs => hdefined s (List.mem_filter.1 hs).1) hon
    obtain ⟨hsound, hlot, -, hon', hearly'⟩ := hq.removeActive hu hrest.covers hactive hremove
    have hholds := hq.holds_removeActive hu hrest.covers hactive hremove
    have hbefore : (activeAmong size table faults ns).Exact size table faults := .of_onTime hactive
    obtain ⟨all, q₂, hwalk, hnone⟩ := hsound.removeWalk_total (fun n hn => hnonneg n ((hholds n).1 hn).1) ms hfaulty
      (fun n hn => (mem_inter.1 hn).2) (fun s hs => hdefined s (List.mem_filter.1 hs).1)
      (fun n hn => (hholds n).2 ⟨hheld n (mem_inter.1 hn).1, fun hn' => hactive n hn' (mem_inter.1 hn).2⟩) hbefore
      fun n hn hn' => hactive n (by rwa [activeAmong, ExpirationSet.members_of_onTime] at hn) (mem_inter.1 hn').2
    refine ⟨(q₂, all.removed, all.recovering), removeSectors_eq_ok.2 ⟨hfaults, hms, q₁, lot, all, hremove, ?_, hnone,
      rfl, rfl⟩⟩
    rw [hlot.numbers_eq, hlot.power_eq, hlot.pledge_eq, ← hfaulty.eq_ofList]
    exact hwalk

end SectorLedger.ExpirationQueue
