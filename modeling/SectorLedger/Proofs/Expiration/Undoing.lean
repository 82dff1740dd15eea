import SectorLedger.Proofs.Expiration.Adding
import SectorLedger.Proofs.Expiration.Removable
import SectorLedger.Proofs.Expiration.Restoring

/-!
# What has entered can leave again

Sectors that have just entered a queue are on time at their own expirations, which is where a removal looks for them
first. When they have left again, every entry has the sectors it had, and entries that came with them are gone. After
that the removal looks for faulty sectors, of which there are none: it visits the first entry and stops. That entry
must be at an epoch.

* `Valid.addActive_total`: nothing stops sectors from entering a queue that passes the check.
* `Sound.removeActive_addActive`: active sectors that leave after they have entered leave the queue as it was.
* `removeWalk_of_none`: the search for no faulty sectors changes nothing.
* `removeSectors_undoes_addActive`: any removal undoes the entering, in any queue of exact entries.
-/

namespace SectorLedger.ExpirationQueue

open NumberSet

variable {grid : Grid} {size : SectorSize} {table : SectorTable} {faults held ns ms : NumberSet} {ss : List Sector}
  {q q₁ : ExpirationQueue} {lot : Lot}

/-! ### Entering -/

/-- **Nothing stops sectors from entering a queue that passes the check**, if their totals are not negative and their
expirations are keys. -/
theorem Valid.addActive_total (hq : q.Valid) (hnonneg : ∀ s ∈ ss, s.Nonneg size)
    (hdefined : ∀ s ∈ ss, ∃ w, Power.ofSector size s = .ok w)
    (hkeys : ∀ s ∈ ss, ∃ k : Nat, grid.up s.expiration = .ok (k : Int))
    (hnumbers : ∀ s ∈ ss, s.number ≤ SparseArray.greatestIndex) :
    ∃ r, ExpirationQueue.addActive grid size q ss = .ok r := by
  simp only [addActive_eq_enterEach hq hnonneg]
  refine (foldOutcome_total (I := fun _ (r : ExpirationQueue × Lot) => r.1.Valid) hq ?_).imp fun r hr => hr.1
  intro done s rest r hs hr
  have hin : s ∈ ss := by rw [hs]; simp
  obtain ⟨k, hup⟩ := hkeys s hin
  obtain ⟨c, hc⟩ : ∃ c, Cohort.ofSectors size k [s] = .ok c := ofSectors_total (by simpa using hdefined s hin)
  obtain ⟨hepoch, hlisted⟩ := Cohort.shape_of_ofSectors hc
  have hvalid := Cohort.validate_ofSectors (by simpa using hnonneg s hin) hc
  have hnumber : ∀ n ∈ c.numbers, n < forbiddenMember := by
    rw [hlisted]
    exact List.forall_mem_singleton.2 (lt_forbiddenMember_iff.2 (hnumbers s hin))
  have hentered : ExpirationQueue.enter grid r c = .ok _ := enter_eq_ok.2
    ⟨hnumber, k, by rw [hepoch]; exact Grid.up_of_up hup, ExpirationSet.validate_merge (hr.entry k) hvalid, rfl⟩
  exact ⟨_, bind_eq_ok.2 ⟨_, hup, bind_eq_ok.2 ⟨c, hc, hentered⟩⟩, hr.enter hentered⟩

/-! ### Leaving again -/

/-- **Active sectors that leave after they have entered leave the queue as it was.** -/
theorem Sound.removeActive_addActive {base : Grid} (hg : grid.LandsOn base) (hq : q.Sound base size table held)
    (hvalid : q.Valid) (hl : table.Lists ss ns) (hnew : ∀ n ∈ ns, ¬q.Holds n) (hf : ∀ n ∈ ns, n ∉ held)
    (hadd : ExpirationQueue.addActive grid size q ss = .ok (q₁, lot)) :
    q₁.Sound base size table held ∧ (∀ n ∈ ns, ∃ k, table.DueAt grid n k ∧ n ∈ (q₁.entry k).onTime) ∧
      ExpirationQueue.removeActive grid size q₁ ss = .ok (q, lot) := by
  obtain ⟨hsound, hon, hearly⟩ := hq.addActive hg hl hnew hf hadd
  have hplace : ∀ n ∈ ns, ∃ k, table.DueAt grid n k ∧ n ∈ (q₁.entry k).onTime := fun n hn =>
    (due_of_addActive hl hadd n hn).imp fun k hk => ⟨hk, (hon k n).2 (.inr ⟨hn, hk⟩)⟩
  have hold : ∀ {n}, n ∈ ns → ∀ k, n ∉ (q.entry k).onTime := fun hn k hk =>
    hnew _ hn ⟨k, ExpirationSet.mem_members.2 (.inl hk)⟩
  have hleft : ∀ k, (q₁.entry k).onTime \ ns = (q.entry k).onTime := by
    intro k
    ext n
    have := @hold n
    rw [mem_sdiff, hon]
    tauto
  have hr : Removable grid table q₁ ns := by
    refine ⟨enterable_of_addActive hl hadd, fun n hn k hk => ?_⟩
    obtain ⟨s, -, hup⟩ := (((hon k n).1 hk).resolve_left (hold hn k)).2
    exact Grid.up_of_up hup
  have hleaves : LeavesValid size table held q₁ ns := by
    intro k e he heon heearly
    rw [he.eq_of_sets (hq.exact k) (heon.trans (hleft k)) (heearly.trans (hearly k))]
    exact hvalid.entry k
  obtain ⟨⟨q₂, lot₂⟩, hrem⟩ := hsound.removeActive_total hleaves hl hf hr (defined_of_addActive hl hadd)
    fun n hn => (hplace n hn).imp fun _ h => h.2
  obtain ⟨hsound₂, hlot₂, -, hon₂, hearly₂⟩ := hsound.removeActive_of_fixed hr.fixed hl.covers hf hrem
  have hlot := lot_of_addActive hl hadd
  have hq₂ : q₂ = q := hsound₂.ext hq (fun k n => by rw [hon₂, hleft]) fun k n => by rw [hearly₂, hearly]
  have hlots : lot₂ = lot := by
    cases lot
    cases lot₂
    simp only [Lot.mk.injEq]
    exact ⟨hlot₂.numbers_eq.trans hlot.numbers_eq.symm, hlot₂.power_eq.trans hlot.power_eq.symm,
      hlot₂.pledge_eq.trans hlot.pledge_eq.symm⟩
  exact ⟨hsound, hplace, hq₂ ▸ hlots ▸ hrem⟩

/-! ### The search for nobody -/

/-- Nobody leaves an entry. -/
theorem removeFromEntry_nil (ms : NumberSet) (all : Removing) {e : ExpirationSet} (he : e.validate = .ok ()) :
    removeFromEntry size ms [] all e = .ok (all, e, !all.remaining.isEmpty) := by
  have hsame : { e with
      onTime := e.onTime \ ∅, early := e.early \ ∅, pledge := e.pledge - 0, faulty := e.faulty - 0 } = e := by
    simp only [sdiff_empty, sub_zero]
  have hmerge : all.removed.merge ∅ = all.removed := by
    show ExpirationSet.mk (all.removed.onTime ∪ ∅) (all.removed.early ∪ ∅) (all.removed.pledge + 0)
      (all.removed.active + 0) (all.removed.faulty + 0) = all.removed
    simp only [union_empty, add_zero]
  show (do
    ExpirationSet.validate { e with
      onTime := e.onTime \ ∅, early := e.early \ ∅, pledge := e.pledge - 0, faulty := e.faulty - 0 }
    pure ({ all with removed := all.removed.merge ∅ }, { e with
      onTime := e.onTime \ ∅, early := e.early \ ∅, pledge := e.pledge - 0, faulty := e.faulty - 0 },
      !all.remaining.isEmpty)) = _
  rw [hsame, hmerge, he]
  rfl

/-- **The search for no faulty sectors changes nothing.** It visits the first entry, if there is one, which must be at
an epoch. -/
theorem removeWalk_of_none (hne : ∀ k e, q.get? k = some e → ∃ n, n ∈ e.members) (hvalid : q.Valid)
    (hfirst : ∀ c ∈ q.entries.head?, c.1 < 0x8000000000000000) (removed : ExpirationSet) :
    walk (removeFromEntry size ms []) q.entries { remaining := ∅, removed } q =
      .ok ({ remaining := ∅, removed }, q) := by
  cases hentries : q.entries with
  | nil => rfl
  | cons c rest =>
    obtain ⟨key, e⟩ := c
    have hget : q.get? key = some e := SparseArray.mem_entries.1 (by rw [hentries]; exact List.mem_cons_self)
    have hkey : key < 0x8000000000000000 := hfirst (key, e) (by rw [hentries]; rfl)
    have hstep := @removeFromEntry_nil size ms { remaining := ∅, removed } e (hvalid key e hget)
    have hstored : q.store key e = q := by
      obtain ⟨n, hn⟩ := hne key e hget
      rw [store_of_mem hn]
      refine SparseArray.ext fun j => ?_
      rw [SparseArray.get?_insert]
      split
      · next hj => rw [hj, hget]
      · rfl
    unfold store at hstored
    rw [walk, Count.asEpoch_eq_ok.2 ⟨hkey, rfl⟩, ok_bind, hstep, ok_bind]
    simp only [hstored]
    rfl

/-! ### In any queue -/

theorem Exact.of_records {table' : SectorTable} (h : q.Exact size table held)
    (hsame : ∀ n, q.Holds n → table'.get? n = table.get? n) : q.Exact size table' held :=
  { h with exact := fun k e he => (h.exact k e he).of_records fun n hn => hsame n ⟨k, (entry_of_get? he).symm ▸ hn⟩ }

theorem Exact.congr {held' : NumberSet} (h : q.Exact size table held)
    (hsame : ∀ n, q.Holds n → (n ∈ held ↔ n ∈ held')) : q.Exact size table held' :=
  { h with exact := fun k e he => (h.exact k e he).congr fun n hn => hsame n ⟨k, (entry_of_get? he).symm ▸ hn⟩ }

theorem Valid.before (h : q.Valid) (bound : Nat) : Valid (q.before bound) := by
  intro k e he
  rw [SparseArray.get?_before] at he
  split at he
  · exact h k e he
  · cases he

/-- The active sectors of an exact queue leave after they have entered, whatever stands at counts that are too large to
be epochs. -/
theorem Exact.removeActive_addActive (hq : q.Exact size table held) (hvalid : q.Valid) (hl : table.Lists ss ns)
    (hnew : ∀ n ∈ ns, ¬q.Holds n) (hf : ∀ n ∈ ns, n ∉ held) (hnonneg : ∀ s ∈ ss, s.Nonneg size)
    (hdefined : ∀ s ∈ ss, ∃ w, Power.ofSector size s = .ok w)
    (hkeys : ∀ s ∈ ss, ∃ k : Nat, grid.up s.expiration = .ok (k : Int))
    (hnumbers : ∀ s ∈ ss, s.number ≤ SparseArray.greatestIndex) :
    ∃ q₁ lot, addActive grid size q ss = .ok (q₁, lot) ∧ lot.Of size table ns ∧
      removeActive grid size q₁ ss = .ok (q, lot) := by
  have hbefore := hvalid.before 0x8000000000000000
  obtain ⟨⟨q₁, lot⟩, hadd⟩ := hbefore.addActive_total hnonneg hdefined hkeys hnumbers
  have hnew' : ∀ n ∈ ns, ¬Holds (q.before 0x8000000000000000) n := fun n hn ⟨k, hk⟩ =>
    hnew n hn ⟨k, (mem_of_entry_before hk).2⟩
  obtain ⟨hsound, hplace, hrem⟩ :=
    hq.sound_before.removeActive_addActive Grid.landsOn_finest hbefore hl hnew' hf hadd
  have hlater := beyond_since q
  refine ⟨q₁.beside (q.since 0x8000000000000000), lot, ?_, lot_of_addActive hl hadd, ?_⟩
  · have := addActive_beside hlater hadd
    rwa [SparseArray.before_beside_since] at this
  · have := removeActive_beside hlater hsound.orderly hl hplace hrem
    rwa [SparseArray.before_beside_since] at this

/-- **A removal undoes the entering.** Sectors of different numbers that are not in the queue enter at their own
expirations, and a removal takes them out again: the queue is what it was, and what is reported to have left is what
was reported to have entered. Neither the faulty nor the recovering sectors may be too many, and the first entry of the
queue, if there is one, must be at an epoch. The numbers are positions of an array, as those of all sectors are. -/
theorem removeSectors_undoes_addActive {maxSectors : Nat} {recovering : NumberSet} (hq : q.Exact size table held)
    (hvalid : q.Valid) (hnodup : (ss.map (·.number)).Nodup) (hnew : ∀ s ∈ ss, ¬q.Holds s.number)
    (hnonneg : ∀ s ∈ ss, 0 ≤ s.pledge ∧ ∃ w, Power.ofSector size s = .ok w ∧ w.Nonneg)
    (hkeys : ∀ s ∈ ss, ∃ k : Nat, grid.up s.expiration = .ok (k : Int))
    (hnumbers : ∀ s ∈ ss, s.number ≤ SparseArray.greatestIndex) (hapart : ∀ s ∈ ss, s.number ∉ faults)
    (hfaults : faults.count ≤ maxSectors) (hrecovering : recovering.count ≤ maxSectors)
    (hfirst : ∀ c ∈ q.entries.head?, c.1 < 0x8000000000000000) :
    ∃ q₁ lot, addActive grid size q ss = .ok (q₁, lot) ∧ lot.numbers = .ofList (ss.map (·.number)) ∧
      removeSectors grid size maxSectors q₁ ss faults recovering =
        .ok (q, { onTime := lot.numbers, active := lot.power, pledge := lot.pledge }, 0) := by
  -- The sectors are recorded beside those of the queue, and count as active.
  obtain ⟨hrecorded, hother⟩ := SectorTable.recorded_foldl_insert table hnodup
  have hl := SectorTable.lists_ofList hrecorded hnodup
  have hnew' : ∀ n ∈ NumberSet.ofList (ss.map (·.number)), ¬q.Holds n := fun n hn => by
    obtain ⟨s, hs, rfl⟩ := List.mem_map.1 (mem_ofList.1 hn)
    exact hnew s hs
  have hq' : q.Exact size (ss.foldl (fun (a : SectorTable) s => a.insert s.number s) table)
      (held \ .ofList (ss.map (·.number))) := by
    refine (hq.of_records fun n hn => hother n fun hin => ?_).congr fun n hn => ?_
    · exact hnew' n (mem_ofList.2 hin) hn
    · rw [mem_sdiff, and_iff_left fun hin => hnew' n hin hn]
  have htotals : ∀ s ∈ ss, s.Nonneg size := fun s hs => by
    obtain ⟨hpledge, w, hw, hpos⟩ := hnonneg s hs
    exact ⟨hpledge, fun w' hw' => Except.ok.inj (hw.symm.trans hw') ▸ hpos⟩
  obtain ⟨q₁, lot, hadd, hlot, hrem⟩ := hq'.removeActive_addActive hvalid hl hnew' (fun n hn hn' => (mem_sdiff.1 hn').2 hn)
    htotals (fun s hs => (hnonneg s hs).2.imp fun _ h => h.1) hkeys hnumbers
  have hnone : ss.filter (fun s => decide (s.number ∈ faults)) = [] :=
    List.filter_eq_nil_iff.2 fun s hs => by simpa using hapart s hs
  have hall : ss.filter (not ∘ fun s => decide (s.number ∈ faults)) = ss :=
    List.filter_eq_self.2 fun s hs => by simpa using hapart s hs
  have hwalk := @removeWalk_of_none size recovering q hq.nonempty hvalid hfirst
    { onTime := lot.numbers, active := lot.power, pledge := lot.pledge }
  refine ⟨q₁, lot, hadd, hlot.numbers_eq, removeSectors_eq_ok.2 ⟨hfaults, hrecovering, q, lot,
    { remaining := ∅, removed := _ }, ?_, ?_, rfl, rfl, rfl⟩⟩
  · rwa [hall]
  · rwa [hnone]

section Samples

/-- Three more sectors. The first is due where one of the four is. -/
def threeNewcomers : List Sector :=
  [{ number := 4, expiration := 8, pledge := 1 }, { number := 5, expiration := 37, pledge := 2 },
    { number := 6, expiration := 40, pledge := 3 }]

theorem valid_of_nonneg (hq : q.Exact size table held) (hnonneg : q.NonnegTotals size table) : q.Valid := fun k e he =>
  validate_of_nonneg (hq.exact k e he) fun n hn => hnonneg n ⟨k, (entry_of_get? he).symm ▸ hn⟩

/-- Who is in none of the entries is not in the queue. -/
theorem not_holds_of_entries {n : Nat} (h : ∀ c ∈ q.entries, n ∉ c.2.members) : ¬q.Holds n := fun ⟨k, hk⟩ =>
  h (k, q.entry k) (SparseArray.mem_entries.2 (get?_of_mem hk)) hk

/-- The newcomers enter, one of them at an epoch of its own with another, and leave again, while a sector of the queue
is faulty and recovering. -/
theorem undoes_mixedQueue : ∃ q₁ lot, addActive ⟨5, 0⟩ .kib2 mixedQueue threeNewcomers = .ok (q₁, lot) ∧
    q₁.entries.map (·.1) = [10, 15, 20, 40, 0x8000000000000000] ∧ lot.power = ⟨6144, 6144⟩ ∧ lot.pledge = 6 ∧
    removeSectors ⟨5, 0⟩ .kib2 10 q₁ threeNewcomers (.singleton 3) (.singleton 3) =
      .ok (mixedQueue, { onTime := lot.numbers, active := lot.power, pledge := lot.pledge }, 0) := by
  have hvalid := valid_of_nonneg exact_mixedQueue (nonneg_fourSectors _)
  have hnew : ∀ s ∈ threeNewcomers, ∀ c ∈ mixedQueue.entries, s.number ∉ c.2.members := by decide +kernel
  have hnonneg : ∀ s ∈ threeNewcomers, 0 ≤ s.pledge ∧ Power.ofSector .kib2 s = .ok ⟨2048, 2048⟩ := by decide +kernel
  have hkeys : ∀ s ∈ threeNewcomers, ∃ k ∈ [10, 40], Grid.up ⟨5, 0⟩ s.expiration = .ok ((k : Nat) : Int) := by
    decide +kernel
  have hundone : ∃ q₁ lot, addActive ⟨5, 0⟩ .kib2 mixedQueue threeNewcomers = .ok (q₁, lot) ∧ lot.numbers = _ ∧
      removeSectors ⟨5, 0⟩ .kib2 10 q₁ threeNewcomers (.singleton 3) (.singleton 3) =
        .ok (mixedQueue, { onTime := lot.numbers, active := lot.power, pledge := lot.pledge }, 0) :=
    removeSectors_undoes_addActive exact_mixedQueue hvalid (by decide) (fun s hs => not_holds_of_entries (hnew s hs))
      (fun s hs => ⟨(hnonneg s hs).1, _, (hnonneg s hs).2, by decide, by decide⟩)
      (fun s hs => (hkeys s hs).imp fun _ h => h.2) (by decide) (by decide +kernel) (by decide +kernel)
      (by decide +kernel) (by decide +kernel)
  obtain ⟨q₁, lot, hadd, -, hrem⟩ := hundone
  have hresult : (fun r => (r.1.entries.map (·.1), r.2.power, r.2.pledge)) <$>
      addActive ⟨5, 0⟩ .kib2 mixedQueue threeNewcomers =
        .ok ([10, 15, 20, 40, 0x8000000000000000], ⟨6144, 6144⟩, 6) := by decide +kernel
  rw [hadd] at hresult
  obtain ⟨hentries, hpower, hpledge⟩ := by simpa only [Prod.mk.injEq] using Except.ok.inj hresult
  exact ⟨q₁, lot, hadd, hentries, hpower, hpledge, hrem⟩

/-- The only entry does not stand at an epoch: a newcomer enters, but the search for nobody that follows its removal
comes to that entry, and fails. -/
theorem stuck_after_entering : farQueue.Exact .kib2 (.ofList fourSectors) ∅ ∧ farQueue.Valid ∧ ¬farQueue.Holds 4 ∧
    ∃ q₁ lot, addActive .finest .kib2 farQueue (threeNewcomers.take 1) = .ok (q₁, lot) ∧
      removeSectors .finest .kib2 10 q₁ (threeNewcomers.take 1) ∅ ∅ = within .array (failed "<int conversion>") := by
  have hadd : (fun r => r.1) <$> addActive .finest .kib2 farQueue (threeNewcomers.take 1) =
      .ok (farQueue.insert 8 { onTime := .singleton 4, active := ⟨2048, 2048⟩, pledge := 1 }) := by decide +kernel
  obtain ⟨⟨q₁, lot⟩, hadd, rfl⟩ := map_eq_ok.1 hadd
  exact ⟨exact_farQueue, valid_of_nonneg exact_farQueue (nonneg_fourSectors _),
    not_holds_of_entries (by decide +kernel), _, lot, hadd, by decide +kernel⟩

end Samples

end SectorLedger.ExpirationQueue
