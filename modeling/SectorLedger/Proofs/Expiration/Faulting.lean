import SectorLedger.Proofs.Expiration.Moving
import Mathlib.Logic.Unique

/-!
# Faulty sectors in the queue

When sectors become faulty, those that are due by the fault's expiration stay, on time, and the others move
to it, early. One path treats the sectors one by one, another all of the queue at once; both meet the same
description.

* `ExpirationQueue.Faulted`: the description.
* `Sound.rescheduleAsFaults`, `Sound.rescheduleAllAsFaults`: the two paths meet it.
* `rescheduleAllAsFaults_total`: the second path cannot fail if no early place lies after the limit.
-/

namespace SectorLedger.ExpirationQueue

open NumberSet

variable {grid : Grid} {size : SectorSize} {table : SectorTable} {faults ns : NumberSet} {ss : List Sector}
  {q q' : ExpirationQueue} {k : Nat} {limit : Int}

/-- The sectors of the set became faulty. Those that were on time after the limit are early at it now. -/
structure Faulted (limit : Int) (ns : NumberSet) (q q' : ExpirationQueue) : Prop where
  /-- Who is on time. -/
  onTime : ∀ (k : Nat) n, n ∈ (q'.entry k).onTime ↔ n ∈ (q.entry k).onTime ∧ (n ∈ ns → (k : Int) ≤ limit)
  /-- Who is early. -/
  early : ∀ (k : Nat) n, n ∈ (q'.entry k).early ↔ n ∈ (q.entry k).early ∨
    ((k : Int) = limit ∧ n ∈ ns ∧ ∃ j : Nat, limit < j ∧ n ∈ (q.entry j).onTime)
  /-- The limit is a key, if anybody moved. -/
  nonneg : ∀ n ∈ ns, ∀ j : Nat, limit < j → n ∈ (q.entry j).onTime → 0 ≤ limit

namespace Faulted

theorem refl (limit : Int) (q : ExpirationQueue) : Faulted limit ∅ q q :=
  ⟨fun k n => by simp, fun k n => by simp, by simp⟩

/-- Without new faults the limit does not matter. -/
theorem of_empty (h : Faulted limit ∅ q q') (limit' : Int) : Faulted limit' ∅ q q' :=
  ⟨fun k n => by simpa using h.onTime k n, fun k n => by simpa using h.early k n, by simp⟩

/-- Sectors became faulty, and then others, with the same limit. -/
theorem trans {ms : NumberSet} {q'' : ExpirationQueue} (h : Faulted limit ns q q') (h' : Faulted limit ms q' q'') :
    Faulted limit (ns ∪ ms) q q'' := by
  have hlater : ∀ (j : Nat) n, limit < j → (n ∈ (q'.entry j).onTime ↔ n ∈ (q.entry j).onTime ∧ n ∉ ns) := by
    intro j n hlt
    rw [h.onTime]
    exact and_congr_right fun _ => ⟨fun hle hn => absurd (hle hn) (not_le.2 hlt), fun hn hn' => absurd hn' hn⟩
  refine ⟨fun k n => ?_, fun k n => ?_, fun n hn j hlt hj => ?_⟩
  · rw [h'.onTime, h.onTime, mem_union, or_imp, and_assoc]
  · rw [h'.early, h.early, mem_union, or_assoc]
    refine or_congr_right ⟨?_, ?_⟩
    · rintro (⟨hk, hn, hj⟩ | ⟨hk, hn, j, hlt, hj⟩)
      · exact ⟨hk, .inl hn, hj⟩
      · exact ⟨hk, .inr hn, j, hlt, ((hlater j n hlt).1 hj).1⟩
    · rintro ⟨hk, hn, j, hlt, hj⟩
      by_cases hns : n ∈ ns
      · exact .inl ⟨hk, hns, j, hlt, hj⟩
      · exact .inr ⟨hk, hn.resolve_left hns, j, hlt, (hlater j n hlt).2 ⟨hj, hns⟩⟩
  · by_cases hns : n ∈ ns
    · exact h.nonneg n hns j hlt hj
    · exact h'.nonneg n ((mem_union.1 hn).resolve_left hns) j hlt ((hlater j n hlt).2 ⟨hj, hns⟩)

theorem holds_iff (h : Faulted limit ns q q') (n : Nat) : q'.Holds n ↔ q.Holds n := by
  constructor
  · rintro ⟨k, hk⟩
    rw [ExpirationSet.mem_members, h.onTime, h.early] at hk
    rcases hk with ⟨hk, -⟩ | hk | ⟨-, -, j, -, hj⟩
    · exact ⟨k, ExpirationSet.mem_members.2 (.inl hk)⟩
    · exact ⟨k, ExpirationSet.mem_members.2 (.inr hk)⟩
    · exact ⟨j, ExpirationSet.mem_members.2 (.inl hj)⟩
  · rintro ⟨k, hk⟩
    rcases ExpirationSet.mem_members.1 hk with hk | hk
    · by_cases hstay : n ∈ ns → (k : Int) ≤ limit
      · exact ⟨k, ExpirationSet.mem_members.2 (.inl ((h.onTime k n).2 ⟨hk, hstay⟩))⟩
      · obtain ⟨hn, hlt⟩ := Classical.not_imp.1 hstay
        obtain ⟨i, hi⟩ := Int.eq_ofNat_of_zero_le (h.nonneg n hn k (by omega) hk)
        exact ⟨i, ExpirationSet.mem_members.2 (.inr ((h.early i n).2 (.inr ⟨hi.symm, hn, k, by omega, hk⟩)))⟩
    · exact ⟨k, ExpirationSet.mem_members.2 (.inr ((h.early k n).2 (.inl hk)))⟩

/-- Where a sector is now: where it was, or at the limit, earlier than it was. -/
theorem place (h : Faulted limit ns q q') {n : Nat} (hn : n ∈ (q'.entry k).members) :
    n ∈ (q.entry k).members ∨ ((k : Int) = limit ∧ n ∈ ns ∧ ∃ j : Nat, limit < j ∧ n ∈ (q.entry j).members) := by
  rw [ExpirationSet.mem_members, h.onTime, h.early] at hn
  rcases hn with ⟨hn, -⟩ | hn | ⟨hk, hns, j, hj, hnj⟩
  · exact .inl (ExpirationSet.mem_members.2 (.inl hn))
  · exact .inl (ExpirationSet.mem_members.2 (.inr hn))
  · exact .inr ⟨hk, hns, j, hj, ExpirationSet.mem_members.2 (.inl hnj)⟩

/-- Nobody of the set is after the limit, unless at an early place from before. -/
theorem le_limit (h : Faulted limit ns q q') {n : Nat} (hns : n ∈ ns)
    (hearly : ∀ k : Nat, n ∈ (q.entry k).early → (k : Int) ≤ limit) (hn : n ∈ (q'.entry k).members) :
    (k : Int) ≤ limit := by
  rw [ExpirationSet.mem_members, h.onTime, h.early] at hn
  rcases hn with ⟨-, hle⟩ | hn | ⟨hk, -⟩
  · exact hle hns
  · exact hearly k hn
  · omega

section Filed

variable {base : ExpirationQueue}

/-- If nobody was on time after the limit, nobody moves. -/
theorem of_none (hon : ∀ (k : Nat) n, n ∈ (base.entry k).onTime ↔ n ∈ (q.entry k).onTime ∧ (n ∈ ns → (k : Int) ≤ limit))
    (hearly : ∀ k, (base.entry k).early = (q.entry k).early)
    (hnone : ∀ n ∈ ns, ∀ j : Nat, limit < j → n ∉ (q.entry j).onTime) : Faulted limit ns q base := by
  refine ⟨hon, fun k n => ?_, fun n hn j hlt hj => absurd hj (hnone n hn j hlt)⟩
  rw [hearly]
  refine (or_iff_left ?_).symm
  rintro ⟨-, hn, j, hlt, hj⟩
  exact hnone n hn j hlt hj

/-- Those that were on time after the limit have left, and are filed as early at it. -/
theorem of_filed {ms : NumberSet} {w : Power}
    (hon : ∀ (j : Nat) n, n ∈ (base.entry j).onTime ↔ n ∈ (q.entry j).onTime ∧ (n ∈ ns → (j : Int) ≤ k))
    (hearly : ∀ j, (base.entry j).early = (q.entry j).early)
    (hms : ∀ n, n ∈ ms ↔ n ∈ ns ∧ ∃ j : Nat, (k : Int) < j ∧ n ∈ (q.entry j).onTime)
    (hentry : ∀ j, q'.entry j = if j = k then (base.entry k).merge { early := ms, faulty := w } else base.entry j) :
    Faulted k ns q q' := by
  refine ⟨fun j n => ?_, fun j n => ?_, fun _ _ _ _ _ => Int.natCast_nonneg k⟩
  · rw [← hon j n, hentry]
    split
    · next hj => simp [ExpirationSet.merge, hj]
    · rfl
  · rw [hentry]
    split
    · next hj => simp only [ExpirationSet.merge, mem_union, hms n, hearly, hj, true_and]
    · next hj => simp only [hearly, Nat.cast_inj, hj, false_and, or_false]

end Filed

end Faulted

/-! ### Sector by sector -/

/-- How far the sectors have been gone through, cohort by cohort. -/
structure Refiling (size : SectorSize) (table : SectorTable) (grid : Grid) (faults : NumberSet) (limit : Int)
    (q : ExpirationQueue) (done : List (Cohort × ExpirationSet))
    (r : ExpirationQueue × List Nat × Power × Power) : Prop where
  /-- The sectors gone through are faulty. -/
  sound : r.1.Sound grid size table (faults ∪ .ofList (done.flatMap (·.1.numbers)))
  /-- Some of them have left. -/
  moved : ∀ n, n ∈ r.2.1 ↔ ∃ c ∈ done, limit < c.1.epoch ∧ n ∈ c.1.numbers
  /-- The power of those that have left. -/
  movedPower : r.2.2.1 = (NumberSet.ofList r.2.1).total (table.powerAt size)
  /-- The power of all of them. -/
  power : r.2.2.1 + r.2.2.2 = (NumberSet.ofList (done.flatMap (·.1.numbers))).total (table.powerAt size)
  /-- The others are on time where they were. -/
  onTime : ∀ k n, n ∈ (r.1.entry k).onTime ↔ n ∈ (q.entry k).onTime ∧ n ∉ r.2.1
  /-- Nobody has become early yet. -/
  early : ∀ k, (r.1.entry k).early = (q.entry k).early
  /-- The entries to come are untouched. -/
  untouched : ∀ k : Nat, (∀ c ∈ done, c.1.epoch ≠ k) → r.1.entry k = q.entry k

/-- Who is in an entry now was there before. -/
theorem Refiling.mem_of_mem {done : List (Cohort × ExpirationSet)} {r : ExpirationQueue × List Nat × Power × Power}
    (hI : Refiling size table grid faults limit q done r) {n : Nat} (hn : n ∈ (r.1.entry k).members) :
    n ∈ (q.entry k).members := by
  rw [ExpirationSet.mem_members, hI.onTime, hI.early] at hn
  exact ExpirationSet.mem_members.2 (hn.imp_left And.left)

/-- The queue stays sound if some sectors leave an entry and its members in `ms` become faulty. -/
theorem Refiling.sound_store (hq : q.Sound grid size table faults) {done : List (Cohort × ExpirationSet)}
    {r : ExpirationQueue × List Nat × Power × Power} (hI : Refiling size table grid faults limit q done r)
    {e e' : ExpirationSet} (hget : q.get? k = some e) {ms : NumberSet}
    (he : e'.Exact size table ((faults ∪ .ofList (done.flatMap (·.1.numbers))) ∪ ms))
    (hms : ∀ n ∈ ms, n ∈ e.members) (hmembers : ∀ n ∈ e'.members, n ∈ e.members) :
    (r.1.store k e').Sound grid size table ((faults ∪ .ofList (done.flatMap (·.1.numbers))) ∪ ms) := by
  -- a sector in another entry is not among those that become faulty now
  have hother : ∀ j ≠ k, ∀ n ∈ (r.1.entry j).members, n ∉ e.members := fun j hj n hn hn' =>
    hj (hq.once j k n (hI.mem_of_mem hn) (entry_of_get? hget ▸ hn'))
  refine hI.sound.store (hq.key_lt k e hget) (hq.onGrid k e hget) he fun j hj n hn =>
    ⟨?_, fun hn' => hother j hj n hn (hmembers n hn')⟩
  exact (mem_union.trans (or_iff_left fun hn' => hother j hj n hn (hms n hn'))).symm

/-- One cohort is gone through: the entry at its epoch is replaced, and the sectors in `out` leave it. These are
all sectors of the cohort or none, according to where the epoch lies. -/
theorem Refiling.step (hq : q.Sound grid size table faults) {cs done rest : List (Cohort × ExpirationSet)}
    (hloc : Located size table q ns cs) {c : Cohort × ExpirationSet} (hs : cs = done ++ c :: rest)
    {r : ExpirationQueue × List Nat × Power × Power} (hI : Refiling size table grid faults limit q done r)
    {e : ExpirationSet} (hk : c.1.epoch = k) (out : List Nat)
    (hout : ∀ n, n ∈ out ↔ limit < c.1.epoch ∧ n ∈ c.1.numbers)
    (he : e.Exact size table ((faults ∪ .ofList (done.flatMap (·.1.numbers))) ∪ (c.2.onTime ∩ ns)))
    (hon : ∀ n, n ∈ e.onTime ↔ n ∈ c.2.onTime ∧ n ∉ out) (hearly : e.early = c.2.early) :
    Refiling size table grid faults limit q (done ++ [c]) (r.1.store k e, r.2.1 ++ out,
      r.2.2.1 + (NumberSet.ofList out).total (table.powerAt size),
      r.2.2.2 + (c.1.power - (NumberSet.ofList out).total (table.powerAt size))) := by
  have hc := hloc.found c (by rw [hs]; simp)
  obtain ⟨k', hk', hget⟩ := hc.stored
  obtain rfl : k = k' := Int.ofNat.inj (hk.symm.trans hk')
  have hentry : q.entry k = c.2 := entry_of_get? hget
  have hfresh : ∀ n ∈ c.1.numbers, ∀ d ∈ done, n ∉ d.1.numbers := fun n hn => hloc.fresh hq.orderly hs hn
  have hdone : NumberSet.ofList ((done ++ [c]).flatMap (·.1.numbers)) =
      NumberSet.ofList (done.flatMap (·.1.numbers)) ∪ (c.2.onTime ∩ ns) := by
    ext n
    rw [List.flatMap_append, List.flatMap_singleton, mem_ofList, List.mem_append, hc.of.mem, mem_union, mem_ofList]
  refine ⟨?_, fun n => ?_, ?_, ?_, fun j n => ?_, fun j => ?_, fun j hj => ?_⟩
  · rw [hdone, ← union_assoc]
    refine hI.sound_store hq hget he (fun n hn => ?_) fun n hn => ?_
    · exact ExpirationSet.mem_members.2 (.inl (mem_inter.1 hn).1)
    · rw [ExpirationSet.mem_members, hon, hearly] at hn
      exact ExpirationSet.mem_members.2 (hn.imp_left And.left)
  · simp only [List.mem_append, List.mem_singleton, hI.moved, hout, or_and_right, exists_or, exists_eq_left]
  · have hdis : ∀ n ∈ NumberSet.ofList r.2.1, n ∉ NumberSet.ofList out := by
      intro n hn hn'
      obtain ⟨d, hd, -, hnd⟩ := (hI.moved n).1 (mem_ofList.1 hn)
      exact hfresh n ((hout n).1 (mem_ofList.1 hn')).2 d hd hnd
    rw [show NumberSet.ofList (r.2.1 ++ out) = NumberSet.ofList r.2.1 ∪ NumberSet.ofList out by ext n; simp,
      total_union _ hdis, ← hI.movedPower]
  · have hdis : ∀ n ∈ NumberSet.ofList (done.flatMap (·.1.numbers)), n ∉ c.2.onTime ∩ ns := by
      intro n hn hn'
      obtain ⟨d, hd, hnd⟩ := List.mem_flatMap.1 (mem_ofList.1 hn)
      exact hfresh n ((hc.of.mem n).2 hn') d hd hnd
    rw [hdone, total_union _ hdis, ← hI.power, ← hc.of.power_eq, add_add_add_comm, add_sub_cancel]
  · rw [entry_store he]
    split
    · next hj =>
      subst hj
      have hnot : n ∈ c.2.onTime → n ∉ r.2.1 := by
        intro hn hm
        obtain ⟨d, hd, -, hnd⟩ := (hI.moved n).1 hm
        have hd' := hloc.found d (by rw [hs]; simp [hd])
        exact hloc.epoch_ne hs d hd ((hd'.epoch_eq hq.orderly hnd (hentry ▸ hn)).trans hk.symm)
      rw [hon n, hentry, List.mem_append]
      tauto
    · next hj =>
      have hnot : n ∈ (q.entry j).onTime → n ∉ out := by
        intro hn hm
        have := hc.epoch_eq hq.orderly ((hout n).1 hm).2 hn
        exact hj (Int.ofNat.inj (this.symm.trans hk))
      rw [hI.onTime j n, List.mem_append]
      tauto
  · rw [entry_store he]
    split
    · next hj => rw [hj, hentry, hearly]
    · exact hI.early j
  · rw [List.forall_mem_append, List.forall_mem_singleton] at hj
    rw [entry_store he, if_neg fun hjk => hj.2 (by rw [hk, hjk]), hI.untouched j hj.1]

section Step

variable {cs done rest : List (Cohort × ExpirationSet)} {c : Cohort} {e : ExpirationSet}
  {r : ExpirationQueue × List Nat × Power × Power}

/-- The entry to come next is exact, and the sectors of its cohort are not faulty yet. -/
theorem Refiling.next (hq : q.Sound grid size table faults) (hloc : Located size table q ns cs)
    (hf : ∀ n ∈ ns, n ∉ faults) (hs : cs = done ++ (c, e) :: rest)
    (hI : Refiling size table grid faults limit q done r) :
    e.Exact size table (faults ∪ .ofList (done.flatMap (·.1.numbers))) ∧
      (∀ n ∈ e.onTime ∩ ns, n ∈ e.onTime) ∧
      ∀ n ∈ e.onTime ∩ ns, n ∉ faults ∪ .ofList (done.flatMap (·.1.numbers)) := by
  have hc := hloc.found (c, e) (by rw [hs]; simp)
  obtain ⟨k, hk, hget⟩ := hc.stored
  refine ⟨?_, fun n hn => (mem_inter.1 hn).1, fun n hn hn' => ?_⟩
  · have := hI.sound.exact k
    rwa [hI.untouched k fun d hd hdk => hloc.epoch_ne hs d hd (hdk.trans hk.symm), entry_of_get? hget] at this
  · rcases mem_union.1 hn' with hn' | hn'
    · exact hf n (mem_inter.1 hn).2 hn'
    · obtain ⟨d, hd, hnd⟩ := List.mem_flatMap.1 (mem_ofList.1 hn')
      exact hloc.fresh hq.orderly hs ((hc.of.mem n).2 hn) d hd hnd

/-- The sectors of a cohort not after the limit stay. -/
theorem Refiling.stay (hq : q.Sound grid size table faults) (hloc : Located size table q ns cs)
    (hf : ∀ n ∈ ns, n ∉ faults) (hs : cs = done ++ (c, e) :: rest) (hI : Refiling size table grid faults limit q done r)
    (hk : c.epoch = k) (hle : c.epoch ≤ limit) :
    Refiling size table grid faults limit q (done ++ [(c, e)])
      (r.1.store k { e with active := e.active - c.power, faulty := e.faulty + c.power }, r.2.1, r.2.2.1,
        r.2.2.2 + c.power) := by
  have hc := hloc.found (c, e) (by rw [hs]; simp)
  obtain ⟨hexact, hon, hnot⟩ := hI.next hq hloc hf hs
  have hexact' := hexact.stay hon hnot
  rw [← hc.of.power_eq] at hexact'
  simpa using Refiling.step hq hloc hs hI hk [] (fun n => by simp; omega) hexact' (fun n => by simp) rfl

/-- Those of a cohort after the limit leave. -/
theorem Refiling.leave (hq : q.Sound grid size table faults) (hloc : Located size table q ns cs)
    (hf : ∀ n ∈ ns, n ∉ faults) (hs : cs = done ++ (c, e) :: rest) (hI : Refiling size table grid faults limit q done r)
    (hk : c.epoch = k) (hlt : limit < c.epoch) :
    Refiling size table grid faults limit q (done ++ [(c, e)])
      (r.1.store k
          { e with onTime := e.onTime \ (e.onTime ∩ ns), pledge := e.pledge - c.pledge, active := e.active - c.power },
        r.2.1 ++ c.numbers, r.2.2.1 + c.power, r.2.2.2) := by
  have hc := hloc.found (c, e) (by rw [hs]; simp)
  obtain ⟨hexact, hon, hnot⟩ := hI.next hq hloc hf hs
  have hexact' := hexact.leave hon hnot
  rw [← hc.of.power_eq, ← hc.of.pledge_eq] at hexact'
  have hnum : NumberSet.ofList c.numbers = e.onTime ∩ ns := by
    ext n
    rw [mem_ofList, hc.of.mem]
  have hstep := Refiling.step hq hloc hs hI hk c.numbers (fun n => by simp; omega) hexact'
    (fun n => by rw [hc.mem_iff]; simp) rfl
  rw [hnum, ← hc.of.power_eq] at hstep
  simpa using hstep

end Step

section Finish

variable {cs : List (Cohort × ExpirationSet)} {r : ExpirationQueue × List Nat × Power × Power}

/-- In the end those that were on time after the limit have left. -/
theorem Refiling.moved_iff (hq : q.Sound grid size table faults) (hloc : Located size table q ns cs)
    (hI : Refiling size table grid faults limit q cs r) (n : Nat) :
    n ∈ r.2.1 ↔ n ∈ ns ∧ ∃ j : Nat, limit < j ∧ n ∈ (q.entry j).onTime := by
  rw [hI.moved n]
  constructor
  · rintro ⟨c, hc, hlt, hn⟩
    obtain ⟨k, hk, hget⟩ := (hloc.found c hc).stored
    obtain ⟨hon, hns⟩ := (hloc.found c hc).mem_iff.1 hn
    exact ⟨hns, k, hk ▸ hlt, entry_of_get? hget ▸ hon⟩
  · rintro ⟨hns, j, hlt, hon⟩
    obtain ⟨c, hc, hn⟩ := hloc.complete n hns
    exact ⟨c, hc, by rw [(hloc.found c hc).epoch_eq hq.orderly hn hon]; exact hlt, hn⟩

/-- Those that were not have stayed. -/
theorem Refiling.stays (hq : q.Sound grid size table faults) (hloc : Located size table q ns cs)
    (hI : Refiling size table grid faults limit q cs r) (k n : Nat) :
    n ∈ (r.1.entry k).onTime ↔ n ∈ (q.entry k).onTime ∧ (n ∈ ns → (k : Int) ≤ limit) := by
  rw [hI.onTime k n]
  refine and_congr_right fun hon => ?_
  rw [hI.moved_iff hq hloc n, not_and]
  refine forall_congr' fun hns => ⟨fun hno => ?_, ?_⟩
  · by_contra hlt
    exact hno ⟨k, by omega, hon⟩
  · rintro hle ⟨j, hlt, hj⟩
    have := (hq.onTime_unique hon (ExpirationSet.mem_members.2 (.inl hj))).1
    omega

/-- Who has left has no place until filed again. -/
theorem Refiling.not_holds (hq : q.Sound grid size table faults) (hloc : Located size table q ns cs)
    (hI : Refiling size table grid faults limit q cs r) {n : Nat} (hn : n ∈ r.2.1) : ¬r.1.Holds n := by
  rintro ⟨k, hk⟩
  obtain ⟨-, j, -, hj⟩ := (hI.moved_iff hq hloc n).1 hn
  rcases ExpirationSet.mem_members.1 hk with hk | hk
  · exact ((hI.onTime k n).1 hk).2 hn
  · rw [hI.early] at hk
    exact (hq.onTime_unique hj (ExpirationSet.mem_members.2 (.inr hk))).2 hk

end Finish

/-- **Active sectors become faulty, one by one.** -/
theorem Sound.rescheduleAsFaults {base : Grid} (hg : grid.LandsOn base) (hq : q.Sound base size table faults)
    (hl : table.Lists ss ns) (hf : ∀ n ∈ ns, n ∉ faults) {epoch : Int} {power : Power}
    (h : rescheduleAsFaults grid size q epoch ss = .ok (q', power)) :
    q'.Sound base size table (faults ∪ ns) ∧ power = ns.total (table.powerAt size) ∧
      (∀ n ∈ ns, ∃ k, n ∈ (q.entry k).onTime) ∧
      ∃ limit, (ns ≠ ∅ → grid.up epoch = .ok limit) ∧ Faulted limit ns q q' := by
  simp only [ExpirationQueue.rescheduleAsFaults, bind_eq_ok] at h
  obtain ⟨cs, hcs, ⟨q₁, moved, movedPower, stayingPower⟩, hfold, h⟩ := h
  have hloc := locate_spec hq.orderly hl.covers hcs
  have hfrom : ∀ n ∈ ns, ∃ k, n ∈ (q.entry k).onTime := by
    intro n hn
    obtain ⟨c, hc, hnc⟩ := hloc.complete n hn
    obtain ⟨k, -, hget⟩ := (hloc.found c hc).stored
    exact ⟨k, entry_of_get? hget ▸ ((hloc.found c hc).mem_iff.1 hnc).1⟩
  obtain ⟨limit, hlimit⟩ : ∃ limit, ns ≠ ∅ → grid.up epoch = .ok limit := by
    cases cs with
    | nil => exact ⟨0, fun hne => absurd (eq_empty_iff.2 fun n hn => by simpa using hloc.complete n hn) hne⟩
    | cons c cs =>
      rw [foldOutcome_cons, bind_eq_ok] at hfold
      obtain ⟨r, hr, -⟩ := hfold
      simp only [bind_eq_ok] at hr
      obtain ⟨limit, hup, -⟩ := hr
      exact ⟨limit, fun _ => hup⟩
  have hI := foldOutcome_invariant (I := Refiling size table base faults limit q) hfold ?_ ?_
  · have hns : NumberSet.ofList (cs.flatMap (·.1.numbers)) = ns := by
      ext n
      rw [mem_ofList, List.mem_flatMap, hloc.mem_iff]
    have hpower := hI.power
    have hsound := hI.sound
    rw [hns] at hpower hsound
    simp only at hpower hsound
    split at h
    · next hempty =>
      obtain ⟨rfl, rfl⟩ := Prod.mk.inj (pure_eq_ok.1 h)
      refine ⟨hsound, hpower, hfrom, limit, hlimit, .of_none (hI.stays hq hloc) hI.early fun n hn j hlt hj => ?_⟩
      have hnil : moved = [] := List.isEmpty_iff.1 hempty
      have hmoved : n ∈ moved := (hI.moved_iff hq hloc n).2 ⟨hn, j, hlt, hj⟩
      rw [hnil] at hmoved
      cases hmoved
    · next hempty =>
      simp only [bind_eq_ok, pure_eq_ok] at h
      obtain ⟨early, hset, q₂, hadd, hr⟩ := h
      obtain ⟨rfl, rfl⟩ := Prod.mk.inj hr
      obtain ⟨-, rfl⟩ := ofValues_eq_ok.1 hset
      obtain ⟨m, hm⟩ := List.exists_mem_of_ne_nil _ fun hnil => hempty (List.isEmpty_iff.2 hnil)
      obtain rfl : movedPower = (NumberSet.ofList moved).total (table.powerAt size) := hI.movedPower
      have hfaulty : ∀ n ∈ NumberSet.ofList moved, n ∈ faults ∪ ns := fun n hn =>
        mem_union.2 (.inr ((hI.moved_iff hq hloc n).1 (mem_ofList.1 hn)).1)
      obtain ⟨hsound', k, hup, hentry⟩ := hsound.addAt hg (ExpirationSet.Exact.of_early hfaulty) (by simpa using hm)
        (by simpa using fun n => hI.not_holds hq hloc) hadd
      obtain rfl : (k : Int) = limit := by
        have := hlimit fun he => not_mem_empty m (he ▸ ((hI.moved_iff hq hloc m).1 hm).1)
        rw [hup] at this
        exact Except.ok.inj this
      exact ⟨hsound', hpower, hfrom, k, hlimit, .of_filed (hI.stays hq hloc) hI.early
        (fun n => mem_ofList.trans (hI.moved_iff hq hloc n)) hentry⟩
  · exact ⟨hq.congr fun n _ => by simp, by simp, rfl, add_zero 0, by simp, fun _ => rfl, fun _ _ => rfl⟩
  · rintro done ⟨c, e⟩ rest ⟨q₀, out, w, v⟩ r' hs hI hstep
    have hc := hloc.found (c, e) (by rw [hs]; simp)
    obtain ⟨m, hm⟩ := List.exists_mem_of_ne_nil _ hc.nonempty
    have hne : ns ≠ ∅ := fun he => not_mem_empty m (he ▸ (hc.mem_iff.1 hm).2)
    simp only [bind_eq_ok, hlimit hne, Except.ok.injEq, exists_eq_left'] at hstep
    split at hstep
    · next hle =>
      simp only [bind_eq_ok, pure_eq_ok, putOrDrop_eq_ok] at hstep
      obtain ⟨_, ⟨k, hk, -, rfl⟩, -, -, rfl⟩ := hstep
      exact hI.stay hq hloc hf hs hk hle
    · next hlt =>
      simp only [bind_eq_ok, pure_eq_ok, putOrDrop_eq_ok] at hstep
      obtain ⟨set, hset, _, ⟨k, hk, -, rfl⟩, -, -, rfl⟩ := hstep
      obtain rfl := hc.of.numberSet_eq hset
      exact hI.leave hq hloc hf hs hk (Int.not_le.1 hlt)

/-! ### All at once -/

/-- An entry whose sectors are all faulty where they are. -/
def collapsed (e : ExpirationSet) : ExpirationSet := { e with active := 0, faulty := e.faulty + e.active }

theorem collapseEntry_eq_ok {c c' : Collapsed} {e : ExpirationSet} : collapseEntry limit c k e = .ok c' ↔
    k < 0x8000000000000000 ∧
      if (k : Int) ≤ limit then
        (collapsed e).validate = .ok () ∧ { c with queue := c.queue.insert k (collapsed e) } = c'
      else e.early = ∅ ∧ e.validate = .ok () ∧
        { c with
          keys := c.keys ++ [k]
          sectors := c.sectors ∪ e.onTime
          power := c.power + e.active + e.faulty } = c' := by
  by_cases hk : k < 0x8000000000000000 <;> by_cases hle : (k : Int) ≤ limit <;>
    simp [collapseEntry, collapsed, hk, hle, Unique.exists_iff]

/-- How far the queue has been gone through. -/
structure Collapsing (size : SectorSize) (table : SectorTable) (limit : Int) (q : ExpirationQueue)
    (done : List (Nat × ExpirationSet)) (c : Collapsed) : Prop where
  /-- The entries up to the limit are wholly faulty; the others are untouched. -/
  queue : ∀ k : Nat, c.queue.get? k =
    if (k : Int) ≤ limit ∧ k ∈ done.map (·.1) then (q.get? k).map collapsed else q.get? k
  /-- The keys of the later entries. -/
  keys : ∀ k, k ∈ c.keys ↔ limit < (k : Int) ∧ k ∈ done.map (·.1)
  /-- The sectors of the later entries. -/
  sectors : ∀ n, n ∈ c.sectors ↔ ∃ k : Nat, limit < k ∧ k ∈ done.map (·.1) ∧ n ∈ (q.entry k).onTime
  /-- Their power. -/
  power : c.power = c.sectors.total (table.powerAt size)
  /-- None of them is early. -/
  early : ∀ k : Nat, limit < k → k ∈ done.map (·.1) → (q.entry k).early = ∅

theorem collapsing_of_fold (hq : q.Sound grid size table faults) {c : Collapsed}
    (h : foldOutcome (fun c e => collapseEntry limit c e.1 e.2) { queue := q } q.entries = .ok c) :
    Collapsing size table limit q q.entries c := by
  refine foldOutcome_invariant (I := Collapsing size table limit q) h
    ⟨by simp, by simp, by simp, rfl, by simp⟩ ?_
  rintro done ⟨key, e⟩ rest c c' hs hI hstep
  have hget : q.get? key = some e := SparseArray.get?_eq_some_iff.2 (by rw [hs]; simp)
  have hentry : q.entry key = e := entry_of_get? hget
  have hfresh : key ∉ done.map (·.1) := SparseArray.fresh_of_entries hs
  have hdone : ∀ k, k ∈ (done ++ [(key, e)]).map (·.1) ↔ k ∈ done.map (·.1) ∨ k = key := fun k => by simp
  obtain ⟨-, hstep⟩ := collapseEntry_eq_ok.1 hstep
  split at hstep
  · next hle =>
    obtain ⟨-, rfl⟩ := hstep
    refine ⟨fun k => ?_, fun k => ?_, fun n => ?_, hI.power, fun k hlt hk => ?_⟩
    · rw [SparseArray.get?_insert, hI.queue]
      simp only [hdone]
      by_cases hk : k = key
      · subst hk
        simp only [if_true, hle, or_true, and_self, hget, Option.map_some]
      · simp only [hk, if_false, or_false]
    · rw [hI.keys, hdone]
      grind
    · rw [hI.sectors]
      simp only [hdone]
      grind
    · exact hI.early k hlt (((hdone k).1 hk).resolve_right fun hk => by omega)
  · next hle =>
    obtain ⟨hearly, -, rfl⟩ := hstep
    simp only at hle hearly
    refine ⟨fun k => ?_, fun k => ?_, fun n => ?_, ?_, fun k hlt hk => ?_⟩
    · rw [hI.queue]
      simp only [hdone]
      by_cases hk : k = key
      · subst hk
        simp only [hle, false_and, if_false]
      · simp only [hk, or_false]
    · rw [List.mem_append, List.mem_singleton, hI.keys, hdone]
      grind
    · rw [mem_union, hI.sectors]
      simp only [hdone]
      grind
    · have hmembers : e.members = e.onTime := by
        ext n
        rw [ExpirationSet.mem_members, hearly]
        simp
      have hdis : ∀ n ∈ c.sectors, n ∉ e.onTime := by
        intro n hn hn'
        obtain ⟨k, -, hk, hon⟩ := (hI.sectors n).1 hn
        have := (hq.onTime_unique (hentry ▸ hn') (ExpirationSet.mem_members.2 (.inl hon))).1
        exact hfresh (this ▸ hk)
      have hexact := hentry ▸ hq.exact key
      rw [total_union _ hdis, ← hI.power, ← hmembers, ← hexact.active_add_faulty, add_assoc]
    · rcases (hdone k).1 hk with hk | rfl
      · exact hI.early k hlt hk
      · rw [hentry, hearly]

namespace Collapsing

variable {c : Collapsed}

/-- The sectors taken are those that are on time after the limit. -/
theorem mem_sectors (hI : Collapsing size table limit q q.entries c) {n : Nat} :
    n ∈ c.sectors ↔ ∃ j : Nat, limit < j ∧ n ∈ (q.entry j).onTime := by
  rw [hI.sectors n]
  constructor
  · rintro ⟨j, hlt, -, hj⟩
    exact ⟨j, hlt, hj⟩
  · rintro ⟨j, hlt, hj⟩
    exact ⟨j, hlt, SparseArray.mem_keys.2 ⟨_, get?_of_mem (ExpirationSet.mem_members.2 (.inl hj))⟩, hj⟩

/-- If there are later entries, some sectors are taken. -/
theorem exists_mem_sectors (hq : q.Sound grid size table faults) (hI : Collapsing size table limit q q.entries c)
    (hk : c.keys ≠ []) : ∃ n, n ∈ c.sectors := by
  obtain ⟨j, hj⟩ := List.exists_mem_of_ne_nil _ hk
  obtain ⟨hlt, hjq⟩ := (hI.keys j).1 hj
  obtain ⟨e, he⟩ := SparseArray.mem_keys.1 hjq
  obtain ⟨m, hm⟩ := hq.nonempty j e he
  rw [ExpirationSet.mem_members, ← entry_of_get? he, hI.early j hlt hjq] at hm
  exact ⟨m, hI.mem_sectors.2 ⟨j, hlt, hm.resolve_right (not_mem_empty m)⟩⟩

/-- What is left of the queue once the later entries have been dropped. -/
theorem get?_eq (hI : Collapsing size table limit q q.entries c) (k : Nat) :
    (SparseArray.eraseAll c.queue c.keys).get? k = if (k : Int) ≤ limit then (q.get? k).map collapsed else none := by
  rw [SparseArray.get?_eraseAll, hI.queue]
  have hnone : k ∉ q.entries.map (·.1) → q.get? k = none := fun hk =>
    Option.eq_none_iff_forall_ne_some.2 fun e he => hk (SparseArray.mem_keys.2 ⟨e, he⟩)
  by_cases hle : (k : Int) ≤ limit
  · have hk : k ∉ c.keys := fun hk => by
      have := ((hI.keys k).1 hk).1
      omega
    rw [if_neg hk, if_pos hle]
    split
    · rfl
    · next hk =>
      rw [hnone fun hm => hk ⟨hle, hm⟩]
      rfl
  · rw [if_neg hle]
    split
    · rfl
    · next hk =>
      rw [if_neg fun h => hle h.1]
      exact hnone fun hm => hk ((hI.keys k).2 ⟨by omega, hm⟩)

theorem entry_eq (hI : Collapsing size table limit q q.entries c) (k : Nat) :
    ExpirationQueue.entry (SparseArray.eraseAll c.queue c.keys) k =
      if (k : Int) ≤ limit then collapsed (q.entry k) else ∅ := by
  rw [entry, hI.get?_eq]
  split
  · rw [entry]
    cases q.get? k <;> rfl
  · rfl

theorem onTime_iff (hI : Collapsing size table limit q q.entries c) (k n : Nat) :
    n ∈ (ExpirationQueue.entry (SparseArray.eraseAll c.queue c.keys) k).onTime ↔
      n ∈ (q.entry k).onTime ∧ (k : Int) ≤ limit := by
  rw [hI.entry_eq]
  split
  · next hle => simp only [collapsed, hle, and_true]
  · next hle => exact ⟨fun hn => absurd hn (not_mem_empty n), fun hn => absurd hn.2 hle⟩

theorem early_eq (hI : Collapsing size table limit q q.entries c) (k : Nat) :
    (ExpirationQueue.entry (SparseArray.eraseAll c.queue c.keys) k).early = (q.entry k).early := by
  rw [hI.entry_eq]
  split
  · rfl
  · next hle =>
    by_cases hk : k ∈ q.entries.map (·.1)
    · exact (hI.early k (by omega) hk).symm
    · rw [entry, Option.eq_none_iff_forall_ne_some.2 fun e he => hk (SparseArray.mem_keys.2 ⟨e, he⟩)]
      rfl

/-- What is left is sound, all its sectors being faulty. -/
theorem sound (hq : q.Sound grid size table faults) (hall : ∀ n, q.Holds n → n ∈ ns)
    (hI : Collapsing size table limit q q.entries c) :
    ExpirationQueue.Sound grid size table ns (SparseArray.eraseAll c.queue c.keys) := by
  have hget : ∀ k e, (SparseArray.eraseAll c.queue c.keys).get? k = some e →
      ∃ e', q.get? k = some e' ∧ collapsed e' = e := by
    intro k e he
    rw [hI.get?_eq] at he
    split at he
    · exact Option.map_eq_some_iff.1 he
    · cases he
  have hmem : ∀ k n, n ∈ (ExpirationQueue.entry (SparseArray.eraseAll c.queue c.keys) k).members →
      n ∈ (q.entry k).members := by
    intro k n hn
    rw [hI.entry_eq] at hn
    split at hn
    · exact hn
    · simp at hn
  refine ⟨fun k e he => ?_, fun k e he => ?_, fun k e he => ?_, fun k => ?_, fun k k' n hn hn' => ?_⟩
  · obtain ⟨e', he', -⟩ := hget k e he
    exact hq.key_lt k e' he'
  · obtain ⟨e', he', -⟩ := hget k e he
    exact hq.onGrid k e' he'
  · obtain ⟨e', he', rfl⟩ := hget k e he
    exact hq.nonempty k e' he'
  · rw [hI.entry_eq]
    split
    · exact (hq.exact k).collapse fun n hn => hall n ⟨k, hn⟩
    · exact ExpirationSet.exact_empty
  · exact hq.once k k' n (hmem k n hn) (hmem k' n hn')

/-- The sectors taken are nowhere in what is left. -/
theorem not_holds (hq : q.Sound grid size table faults) (hI : Collapsing size table limit q q.entries c) :
    ∀ n ∈ c.sectors, ¬ExpirationQueue.Holds (SparseArray.eraseAll c.queue c.keys) n := by
  rintro n hn ⟨k, hk⟩
  obtain ⟨i, hi, hin⟩ := hI.mem_sectors.1 hn
  rw [ExpirationSet.mem_members, hI.onTime_iff, hI.early_eq] at hk
  rcases hk with ⟨hk, hle⟩ | hk
  · have := (hq.onTime_unique hin (ExpirationSet.mem_members.2 (.inl hk))).1
    omega
  · exact (hq.onTime_unique hin (ExpirationSet.mem_members.2 (.inr hk))).2 hk

/-- The limit is not among the keys that are dropped. -/
theorem not_mem_keys (hI : Collapsing size table limit q q.entries c) {epoch : Int} (hup : grid.up epoch = .ok limit)
    (k : Nat) (hk : grid.up epoch = .ok (k : Int)) : k ∉ c.keys := by
  intro hkk
  have := ((hI.keys k).1 hkk).1
  rw [hup] at hk
  have := Except.ok.inj hk
  omega

end Collapsing

/-- An addition at one key does not depend on the other keys. -/
theorem addAt_eraseAll {raw : Int} {added : ExpirationSet} {keys : List Nat}
    (hk : ∀ k : Nat, grid.up raw = .ok (k : Int) → k ∉ keys) (h : addAt grid q raw added = .ok q') :
    addAt grid (q.eraseAll keys) raw added = .ok (q'.eraseAll keys) := by
  obtain ⟨k, hup, hle, hv, rfl⟩ := addAt_eq_ok.1 h
  have hentry : ExpirationQueue.entry (q.eraseAll keys) k = q.entry k := by
    simp only [entry, SparseArray.get?_eraseAll, hk k hup, if_false]
  refine addAt_eq_ok.2 ⟨k, hup, hle, by rwa [hentry], SparseArray.ext fun j => ?_⟩
  simp only [hentry, SparseArray.get?_insert, SparseArray.get?_eraseAll]
  by_cases hj : j = k
  · subst hj
    simp only [if_true, hk j hup, if_false]
  · simp only [hj, if_false]

/-- **The whole queue becomes faulty at once.** -/
theorem Sound.rescheduleAllAsFaults (hu : 0 < grid.unit) (hq : q.Sound grid size table faults)
    (hall : ∀ n, q.Holds n → n ∈ ns) {epoch : Int} (h : rescheduleAllAsFaults grid q epoch = .ok q') :
    q'.Sound grid size table ns ∧ ∃ limit, grid.up epoch = .ok limit ∧ Faulted limit ns q q' ∧
      ∀ (k : Nat) n, n ∈ (q.entry k).early → (k : Int) ≤ limit := by
  simp only [ExpirationQueue.rescheduleAllAsFaults, bind_eq_ok, within_eq_ok] at h
  obtain ⟨limit, hup, c, hfold, h⟩ := h
  have hI := collapsing_of_fold hq hfold
  have hbase := hI.sound hq hall
  have hon : ∀ (k : Nat) n, n ∈ (ExpirationQueue.entry (SparseArray.eraseAll c.queue c.keys) k).onTime ↔
      n ∈ (q.entry k).onTime ∧ (n ∈ ns → (k : Int) ≤ limit) := by
    intro k n
    rw [hI.onTime_iff]
    refine and_congr_right fun hn => ⟨fun hle _ => hle, fun hle => hle (hall n ⟨k, ?_⟩)⟩
    exact ExpirationSet.mem_members.2 (.inl hn)
  have hsectors : ∀ n, n ∈ c.sectors ↔ n ∈ ns ∧ ∃ j : Nat, limit < j ∧ n ∈ (q.entry j).onTime := by
    intro n
    rw [hI.mem_sectors]
    refine ⟨?_, And.right⟩
    rintro ⟨j, hlt, hj⟩
    exact ⟨hall n ⟨j, ExpirationSet.mem_members.2 (.inl hj)⟩, j, hlt, hj⟩
  have hlate : ∀ (k : Nat) n, n ∈ (q.entry k).early → (k : Int) ≤ limit := by
    intro k n hn
    rw [← hI.early_eq, hI.entry_eq] at hn
    by_contra hlt
    rw [if_neg hlt] at hn
    exact not_mem_empty n hn
  split at h
  · next hkeys =>
    obtain rfl := pure_eq_ok.1 h
    have hnil : c.keys = [] := List.isEmpty_iff.1 hkeys
    have hsame : SparseArray.eraseAll c.queue c.keys = c.queue := by rw [hnil]; rfl
    rw [hsame] at hbase hon
    have hnone : ∀ n (j : Nat), limit < j → n ∉ (q.entry j).onTime := by
      intro n j hlt hj
      have hkey : j ∈ q.entries.map (·.1) :=
        SparseArray.mem_keys.2 ⟨_, get?_of_mem (ExpirationSet.mem_members.2 (.inl hj))⟩
      have := (hI.keys j).2 ⟨hlt, hkey⟩
      rw [hnil] at this
      cases this
    exact ⟨hbase, limit, hup, .of_none hon (fun k => hsame ▸ hI.early_eq k) fun n _ j hlt => hnone n j hlt, hlate⟩
  · next hkeys =>
    simp only [bind_eq_ok, pure_eq_ok] at h
    obtain ⟨q₁, hadd, rfl⟩ := h
    obtain ⟨m, hm⟩ := hI.exists_mem_sectors hq fun hnil => hkeys (List.isEmpty_iff.2 hnil)
    have hadd' := addAt_eraseAll (hI.not_mem_keys hup) hadd
    rw [hI.power] at hadd'
    obtain ⟨hsound, k, hupk, hentry⟩ := hbase.addAt (Grid.landsOn_self hu)
      (ExpirationSet.Exact.of_early fun n hn => ((hsectors n).1 hn).1) (by simpa using hm)
      (by simpa using hI.not_holds hq) hadd'
    obtain rfl : (k : Int) = limit := by
      rw [hup] at hupk
      exact (Except.ok.inj hupk).symm
    exact ⟨hsound, k, hup, .of_filed hon hI.early_eq hsectors hentry, hlate⟩

/-- Powers and pledges of the sectors in the queue are not negative. -/
def NonnegTotals (size : SectorSize) (table : SectorTable) (q : ExpirationQueue) : Prop :=
  ∀ n, q.Holds n → (table.powerAt size n).Nonneg ∧ 0 ≤ table.pledgeAt n

theorem validate_of_nonneg {e : ExpirationSet} (he : e.Exact size table faults)
    (hn : ∀ n ∈ e.members, (table.powerAt size n).Nonneg ∧ 0 ≤ table.pledgeAt n) : e.validate = .ok () :=
  ExpirationSet.validate_eq_ok.2 (he.nonneg (fun n hm => (hn n hm).1) fun n hm => (hn n hm).2)

/-- **Nothing stops the whole queue from becoming faulty, if no early place lies after the limit.** -/
theorem Sound.rescheduleAllAsFaults_total (hq : q.Sound grid size table faults)
    (hnonneg : q.NonnegTotals size table) {epoch : Int} (hup : grid.up epoch = .ok limit) (hlimit : 0 ≤ limit)
    (hearly : ∀ (k : Nat) n, n ∈ (q.entry k).early → (k : Int) ≤ limit) (hall : ∀ n, q.Holds n → n ∈ ns) :
    ∃ q', ExpirationQueue.rescheduleAllAsFaults grid q epoch = .ok q' := by
  obtain ⟨c, hfold⟩ : ∃ c, foldOutcome (fun c e => collapseEntry limit c e.1 e.2) { queue := q } q.entries = .ok c := by
    refine (foldOutcome_total (I := fun _ _ => True) trivial ?_).imp fun c hc => hc.1
    rintro done ⟨key, e⟩ rest c hs -
    have hget : q.get? key = some e := SparseArray.get?_eq_some_iff.2 (by rw [hs]; simp)
    have hexact : e.Exact size table faults := entry_of_get? hget ▸ hq.exact key
    have hheld : ∀ n ∈ e.members, (table.powerAt size n).Nonneg ∧ 0 ≤ table.pledgeAt n := fun n hn =>
      hnonneg n ⟨key, (entry_of_get? hget).symm ▸ hn⟩
    by_cases hle : (key : Int) ≤ limit
    · have hcollapsed : (collapsed e).Exact size table e.members := hexact.collapse fun n hn => hn
      refine ⟨{ c with queue := c.queue.insert key (collapsed e) },
        collapseEntry_eq_ok.2 ⟨hq.key_lt key e hget, ?_⟩, trivial⟩
      rw [if_pos hle]
      exact ⟨validate_of_nonneg hcollapsed hheld, rfl⟩
    · have hnone : e.early = ∅ := eq_empty_iff.2 fun n hn => hle (hearly key n ((entry_of_get? hget).symm ▸ hn))
      refine ⟨{ c with
        keys := c.keys ++ [key], sectors := c.sectors ∪ e.onTime, power := c.power + e.active + e.faulty },
        collapseEntry_eq_ok.2 ⟨hq.key_lt key e hget, ?_⟩, trivial⟩
      rw [if_neg hle]
      exact ⟨hnone, validate_of_nonneg hexact hheld, rfl⟩
  have hI := collapsing_of_fold hq hfold
  simp only [ExpirationQueue.rescheduleAllAsFaults, bind_eq_ok, within_eq_ok, hup, hfold, Except.ok.injEq,
    exists_eq_left']
  split
  · exact ⟨_, rfl⟩
  · obtain ⟨k, rfl⟩ := Int.eq_ofNat_of_zero_le hlimit
    have hentry : c.queue.entry k = ExpirationQueue.entry (SparseArray.eraseAll c.queue c.keys) k := by
      simp only [entry, SparseArray.get?_eraseAll, hI.not_mem_keys hup k hup, if_false]
    have hadded : ExpirationSet.Exact size table ns { early := c.sectors, faulty := c.power } := by
      rw [hI.power]
      refine ExpirationSet.Exact.of_early fun n hn => ?_
      obtain ⟨j, -, hj⟩ := hI.mem_sectors.1 hn
      exact hall n ⟨j, ExpirationSet.mem_members.2 (.inl hj)⟩
    have hmerge := ((hI.sound hq hall).exact k).merge hadded fun n hn hn' =>
      hI.not_holds hq n (by simpa using hn) ⟨k, hn'⟩
    have hvalid := validate_of_nonneg hmerge fun n hn => hnonneg n ?_
    · exact ⟨_, bind_eq_ok.2 ⟨_, addAt_eq_ok.2 ⟨k, hup, key_le_of_up hup, by rw [hentry]; exact hvalid, rfl⟩, rfl⟩⟩
    · simp only [ExpirationSet.mem_members, ExpirationSet.merge, mem_union, hI.onTime_iff, hI.early_eq,
        hI.mem_sectors] at hn
      rcases hn with (⟨hn, -⟩ | hn) | hn | ⟨j, -, hj⟩
      · exact ⟨k, ExpirationSet.mem_members.2 (.inl hn)⟩
      · exact absurd hn (not_mem_empty n)
      · exact ⟨k, ExpirationSet.mem_members.2 (.inr hn)⟩
      · exact ⟨j, ExpirationSet.mem_members.2 (.inl hj)⟩

end SectorLedger.ExpirationQueue
