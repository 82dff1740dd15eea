import SectorLedger.Proofs.Expiration.Framing

/-!
# Fault and recovery in any queue

The entries of a queue may stand at any count, on the grid or not, and even at counts that are too large to be epochs.
If they are exact, a fault and the recovery from it leave the queue as it was. What is proved of sound queues holds for
the entries at epochs, and the others are left alone.

Only if there are no sectors to look for, the search may come to an entry at such a count before it is told to stop.

* `ExpirationQueue.Exact`: the entries are exact, wherever they are.
* `rescheduleRecovered_restores`: the recovery undoes the fault.
* `stuck_of_farQueue`: nobody is to recover, and the search fails.
-/

namespace SectorLedger.ExpirationQueue

open NumberSet

variable {grid : Grid} {size : SectorSize} {table : SectorTable} {faults ns : NumberSet} {ss : List Sector}
  {q : ExpirationQueue} {epoch limit : Int}

/-- The entries are exact and not empty, and share no sector. -/
structure Exact (size : SectorSize) (table : SectorTable) (faults : NumberSet) (q : ExpirationQueue) : Prop where
  /-- No entry is empty. -/
  nonempty : ∀ k e, q.get? k = some e → ∃ n, n ∈ e.members
  /-- The entries are exact. -/
  exact : ∀ k e, q.get? k = some e → e.Exact size table faults
  /-- No sector is in two entries. -/
  once : ∀ k k' n, n ∈ (q.entry k).members → n ∈ (q.entry k').members → k = k'

/-- An exact queue, entry by entry. -/
theorem exact_of_entries (h : ∀ c ∈ q.entries, c.2.Exact size table faults ∧ ∃ n, n ∈ c.2.members)
    (hd : q.entries.Pairwise fun c d => ∀ n ∈ c.2.members, n ∉ d.2.members) : q.Exact size table faults where
  nonempty k e he := (h (k, e) (SparseArray.mem_entries.2 he)).2
  exact k e he := (h (k, e) (SparseArray.mem_entries.2 he)).1
  once k k' n hn hn' := by
    have hin : (k, q.entry k) ∈ q.entries := SparseArray.mem_entries.2 (get?_of_mem hn)
    have hin' : (k', q.entry k') ∈ q.entries := SparseArray.mem_entries.2 (get?_of_mem hn')
    by_contra hk
    have hsymm : Std.Symm fun c d : Nat × ExpirationSet => ∀ n ∈ c.2.members, n ∉ d.2.members :=
      ⟨fun c d h n hn hn' => h n hn' hn⟩
    exact hd.forall hin hin' (fun heq => hk (Prod.mk.inj heq).1) n hn hn'

theorem entry_before (q : ExpirationQueue) {bound k : Nat} (hk : k < bound) :
    ExpirationQueue.entry (q.before bound) k = q.entry k := by
  rw [entry, SparseArray.get?_before, if_pos hk, entry]

/-- Who is at an epoch is there in the whole queue. -/
theorem mem_of_entry_before {bound k n : Nat} (h : n ∈ (ExpirationQueue.entry (q.before bound) k).members) :
    k < bound ∧ n ∈ (q.entry k).members := by
  have hget := get?_of_mem h
  rw [SparseArray.get?_before] at hget
  split at hget
  · next hk => exact ⟨hk, entry_before q hk ▸ h⟩
  · cases hget

/-- The part of an exact queue that stands at epochs is sound. -/
theorem Exact.sound_before (h : q.Exact size table faults) :
    Sound .finest size table faults (q.before 0x8000000000000000) := by
  have hget : ∀ k e, (q.before 0x8000000000000000).get? k = some e → k < 0x8000000000000000 ∧ q.get? k = some e := by
    intro k e he
    rw [SparseArray.get?_before] at he
    split at he
    · next hk => exact ⟨hk, he⟩
    · cases he
  refine ⟨fun k e he => (hget k e he).1, fun k e he => Int.one_dvd _, fun k e he => h.nonempty k e (hget k e he).2,
    fun k => ?_, fun k k' n hn hn' => h.once k k' n (mem_of_entry_before hn).2 (mem_of_entry_before hn').2⟩
  cases hk : (q.before 0x8000000000000000).get? k with
  | none =>
    rw [entry, hk]
    exact ExpirationSet.exact_empty
  | some e =>
    rw [entry_of_get? hk]
    exact h.exact k e (hget k e hk).2

/-- Entries that are left alone do not keep a recovery from undoing a fault, if the search stops before them. -/
theorem Sound.restored_beside {base : Grid} (hg : grid.LandsOn base) (hq : q.Sound base size table faults)
    (hnonneg : q.NonnegTotals size table) (hl : table.Lists ss ns) (hf : ∀ n ∈ ns, n ∉ faults)
    (he : Enterable grid table ns) (hdefined : ∀ s ∈ ss, ∃ w, Power.ofSector size s = .ok w)
    (hplace : ∀ n ∈ ns, ∃ k, table.DueAt grid n k ∧ n ∈ (q.entry k).onTime) (hup : grid.up epoch = .ok limit)
    (hlimit : 0 ≤ limit) {later : ExpirationQueue} (hlater : later.Beyond) (hstop : q.entries ≠ [] ∨ later = ∅) :
    ∃ q₁, ExpirationQueue.rescheduleAsFaults grid size (q.beside later) epoch ss =
        .ok (q₁, ns.total (table.powerAt size)) ∧
      ExpirationQueue.rescheduleRecovered grid size q₁ ss = .ok (q.beside later, ns.total (table.powerAt size)) := by
  obtain ⟨q₁, hfault, hrecover⟩ := hq.restored hg hnonneg hl hf he hdefined hplace hup hlimit
  rcases hstop with hne | rfl
  · obtain ⟨hq₁, -, -, limit', -, hfaulted⟩ := hq.rescheduleAsFaults hg hl hf hfault
    have hne₁ : q₁.entries ≠ [] := by
      obtain ⟨c, hc⟩ := List.exists_mem_of_ne_nil _ hne
      have hget : q.get? c.1 = some c.2 := SparseArray.mem_entries.1 hc
      obtain ⟨n, hn⟩ := hq.nonempty c.1 c.2 hget
      obtain ⟨k, hk⟩ := (hfaulted.holds_iff n).2 ⟨c.1, (entry_of_get? hget).symm ▸ hn⟩
      have hin : (k, q₁.entry k) ∈ q₁.entries := SparseArray.mem_entries.2 (get?_of_mem hk)
      exact List.ne_nil_of_mem hin
    exact ⟨q₁.beside later, rescheduleAsFaults_beside hlater hq.orderly hl hplace hfault,
      rescheduleRecovered_beside hlater hq₁.key_lt hne₁ hrecover⟩
  · exact ⟨q₁, hfault, hrecover⟩

/-- If there are sectors, there is an entry at an epoch. If there are none, there is one unless the first entry is not
at an epoch. -/
theorem visited_or_nothing_later (hl : table.Lists ss ns)
    (hplace : ∀ n ∈ ns, ∃ k, table.DueAt grid n k ∧ n ∈ (q.entry k).onTime)
    (hfirst : ss = [] → ∀ c ∈ q.entries.head?, c.1 < 0x8000000000000000) :
    (q.before 0x8000000000000000).entries ≠ [] ∨ q.since 0x8000000000000000 = ∅ := by
  have hin : ∀ c ∈ q.entries, c.1 < 0x8000000000000000 → (q.before 0x8000000000000000).entries ≠ [] := by
    intro c hc hlt
    exact List.ne_nil_of_mem (List.mem_filter.2 ⟨hc, decide_eq_true hlt⟩)
  cases ss with
  | cons s ss =>
    obtain ⟨k, ⟨s', -, hup⟩, hon⟩ := hplace s.number (hl.number_mem List.mem_cons_self)
    have hget := get?_of_mem (ExpirationSet.mem_members.2 (.inl hon))
    exact .inl (hin (k, q.entry k) (SparseArray.mem_entries.2 hget) (Grid.key_lt_of_up hup))
  | nil =>
    cases hentries : q.entries with
    | nil =>
      refine .inr (SparseArray.ext fun k => ?_)
      rw [SparseArray.get?_since, SparseArray.get?, hentries]
      split
      · rfl
      · rfl
    | cons c rest =>
      have hc : c ∈ q.entries := by rw [hentries]; simp
      exact .inl (hin c hc (hfirst rfl c (by rw [hentries]; rfl)))

/-- **The recovery undoes the fault.** Sectors that are active and on time at their own expirations become faulty and
recover. Both succeed, both report the power of the sectors, and the queue is what it was. If there are no sectors,
the first entry, if there is one, must be at an epoch. -/
theorem rescheduleRecovered_restores (hq : q.Exact size table faults) (hnonneg : q.NonnegTotals size table)
    (hl : table.Lists ss ns) (hdefined : ∀ s ∈ ss, ∃ w, Power.ofSector size s = .ok w)
    (hnumbers : ∀ n ∈ ns, n ≤ SparseArray.greatestIndex) (hactive : ∀ n ∈ ns, n ∉ faults)
    (hplace : ∀ n ∈ ns, ∃ k, table.DueAt grid n k ∧ n ∈ (q.entry k).onTime)
    (hup : grid.up epoch = .ok limit) (hlimit : 0 ≤ limit)
    (hfirst : ss = [] → ∀ c ∈ q.entries.head?, c.1 < 0x8000000000000000) :
    ∃ q₁, rescheduleAsFaults grid size q epoch ss = .ok (q₁, ns.total (table.powerAt size)) ∧
      rescheduleRecovered grid size q₁ ss = .ok (q, ns.total (table.powerAt size)) := by
  have hplace' : ∀ n ∈ ns, ∃ k, table.DueAt grid n k ∧
      n ∈ (ExpirationQueue.entry (q.before 0x8000000000000000) k).onTime := by
    intro n hn
    obtain ⟨k, ⟨s, hrec, hk⟩, hon⟩ := hplace n hn
    exact ⟨k, ⟨s, hrec, hk⟩, (entry_before q (Grid.key_lt_of_up hk)).symm ▸ hon⟩
  have hnonneg' : NonnegTotals size table (q.before 0x8000000000000000) := by
    rintro n ⟨k, hk⟩
    exact hnonneg n ⟨k, (mem_of_entry_before hk).2⟩
  have hrestored := hq.sound_before.restored_beside Grid.landsOn_finest hnonneg' hl hactive
    (fun n hn => ⟨(hplace n hn).imp fun _ h => h.1, hnumbers n hn⟩) hdefined hplace' hup hlimit (beyond_since q)
    (visited_or_nothing_later hl hplace hfirst)
  rwa [SparseArray.before_beside_since] at hrestored

section Samples

/-- Four sectors. -/
def fourSectors : List Sector :=
  [{ number := 1, expiration := 8, pledge := 3 }, { number := 2, expiration := 20, pledge := 4 },
    { number := 3, expiration := 30, pledge := 5 }, { number := 7, expiration := 40, pledge := 6 }]

/-- The entry of one active sector. -/
def alone (n : Nat) : ExpirationSet :=
  { onTime := .singleton n
    active := (SectorTable.ofList fourSectors).powerAt .kib2 n
    pledge := (SectorTable.ofList fourSectors).pledgeAt n }

/-- The entry of one faulty sector that is to end early. -/
def aloneEarly (n : Nat) : ExpirationSet :=
  { early := .singleton n, faulty := (SectorTable.ofList fourSectors).powerAt .kib2 n }

theorem exact_alone {n : Nat} (hn : n ∉ faults) : (alone n).Exact .kib2 (.ofList fourSectors) faults := by
  have hmem : ∀ m ∈ NumberSet.singleton n, m ∉ faults := fun m hm => by rwa [mem_singleton.1 hm]
  rw [alone, ← total_singleton (SectorTable.powerAt _ _), ← total_singleton (SectorTable.pledgeAt _)]
  exact .of_onTime hmem

theorem exact_aloneEarly {n : Nat} (hn : n ∈ faults) :
    (aloneEarly n).Exact .kib2 (.ofList fourSectors) faults := by
  have hmem : ∀ m ∈ NumberSet.singleton n, m ∈ faults := fun m hm => by rwa [mem_singleton.1 hm]
  rw [aloneEarly, ← total_singleton (SectorTable.powerAt _ _)]
  exact .of_early hmem

theorem members_alone (n : Nat) : (alone n).members = .singleton n := ExpirationSet.members_of_onTime

theorem members_aloneEarly (n : Nat) : (aloneEarly n).members = .singleton n := ExpirationSet.members_of_early

/-- The only entry stands at a count that is too large to be an epoch. -/
def farQueue : ExpirationQueue := .ofEntries [(0x8000000000000000, alone 7)]

/-- Two active sectors, an early one, and one at a count that is too large to be an epoch. -/
def mixedQueue : ExpirationQueue :=
  .ofEntries [(10, alone 1), (15, aloneEarly 3), (20, alone 2), (0x8000000000000000, alone 7)]

theorem exact_mixedQueue : mixedQueue.Exact .kib2 (.ofList fourSectors) (.singleton 3) := by
  have hentries : mixedQueue.entries =
      [(10, alone 1), (15, aloneEarly 3), (20, alone 2), (0x8000000000000000, alone 7)] := rfl
  refine exact_of_entries ?_ ?_
  · simp [hentries, members_alone, members_aloneEarly, exact_alone, exact_aloneEarly, -ExpirationSet.mem_members]
  · simp [hentries, members_alone, members_aloneEarly, -ExpirationSet.mem_members]

theorem exact_farQueue : farQueue.Exact .kib2 (.ofList fourSectors) ∅ := by
  have hentries : farQueue.entries = [(0x8000000000000000, alone 7)] := rfl
  refine exact_of_entries ?_ ?_
  · simp [hentries, members_alone, exact_alone, -ExpirationSet.mem_members]
  · simp [hentries]

theorem nonneg_fourSectors (q : ExpirationQueue) : q.NonnegTotals .kib2 (.ofList fourSectors) := by
  rintro n -
  by_cases hn : n ∈ [1, 2, 3, 7]
  · have hall : ∀ n ∈ [1, 2, 3, 7], 0 ≤ ((SectorTable.ofList fourSectors).powerAt .kib2 n).raw ∧
        0 ≤ ((SectorTable.ofList fourSectors).powerAt .kib2 n).qa ∧
        0 ≤ (SectorTable.ofList fourSectors).pledgeAt n := by decide +kernel
    exact ⟨⟨(hall n hn).1, (hall n hn).2.1⟩, (hall n hn).2.2⟩
  · have hnone : (SectorTable.ofList fourSectors).get? n = none := by
      simp only [List.mem_cons, List.not_mem_nil, or_false, not_or] at hn
      simp [SectorTable.ofList, SparseArray.ofEntries, fourSectors, hn]
    rw [SectorTable.powerAt, SectorTable.pledgeAt, hnone]
    exact ⟨Power.nonneg_zero, le_rfl⟩

/-- The first two of four sectors become faulty and recover, in a queue that changes in between. -/
theorem restores_mixedQueue : mixedQueue.Exact .kib2 (.ofList fourSectors) (.singleton 3) ∧
    ∃ q₁, rescheduleAsFaults ⟨5, 0⟩ .kib2 mixedQueue 13 (fourSectors.take 2) = .ok (q₁, ⟨4096, 4096⟩) ∧
      q₁ ≠ mixedQueue ∧
      rescheduleRecovered ⟨5, 0⟩ .kib2 q₁ (fourSectors.take 2) = .ok (mixedQueue, ⟨4096, 4096⟩) := by
  have hrecorded : ∀ s ∈ fourSectors, (SectorTable.ofList fourSectors).Recorded s :=
    SectorTable.recorded_ofList (by decide)
  have hl : (SectorTable.ofList fourSectors).Lists (fourSectors.take 2) (.ofList [1, 2]) :=
    SectorTable.lists_ofList (fun s hs => hrecorded s (List.mem_of_mem_take hs)) (by decide)
  have hdefined : ∀ s ∈ fourSectors.take 2, ∃ w, Power.ofSector .kib2 s = .ok w := by
    intro s hs
    have hall : ∀ s ∈ fourSectors.take 2, Power.ofSector .kib2 s = .ok ⟨2048, 2048⟩ := by decide +kernel
    exact ⟨_, hall s hs⟩
  have hnumbers : ∀ n, n ∈ NumberSet.ofList [1, 2] → n = 1 ∨ n = 2 := by simp
  have hplace : ∀ n ∈ NumberSet.ofList [1, 2], ∃ k, (SectorTable.ofList fourSectors).DueAt ⟨5, 0⟩ n k ∧
      n ∈ (mixedQueue.entry k).onTime := by
    intro n hn
    rcases hnumbers n hn with rfl | rfl
    · exact ⟨10, ⟨_, hrecorded fourSectors[0] (by decide), by decide⟩, by decide⟩
    · exact ⟨20, ⟨_, hrecorded fourSectors[1] (by decide), by decide⟩, by decide⟩
  have hup : (⟨5, 0⟩ : Grid).up 13 = .ok 15 := by decide
  obtain ⟨q₁, hfault, hrecover⟩ := rescheduleRecovered_restores exact_mixedQueue (nonneg_fourSectors _) hl hdefined
    (fun n hn => by rcases hnumbers n hn with rfl | rfl <;> decide)
    (fun n hn => by rcases hnumbers n hn with rfl | rfl <;> decide)
    hplace hup (by decide) (fun h => absurd h (by decide))
  have hpower : (NumberSet.ofList [1, 2]).total ((SectorTable.ofList fourSectors).powerAt .kib2) = ⟨4096, 4096⟩ := by
    decide +kernel
  rw [hpower] at hfault hrecover
  refine ⟨exact_mixedQueue, q₁, hfault, ?_, hrecover⟩
  rintro rfl
  have hstuck : rescheduleRecovered ⟨5, 0⟩ .kib2 mixedQueue (fourSectors.take 2) ≠ .ok (mixedQueue, ⟨4096, 4096⟩) := by
    decide +kernel
  exact hstuck hrecover

/-- Nobody is to become faulty or to recover, but the only entry does not stand at an epoch: the search for nobody
comes to it, and fails. -/
theorem stuck_of_farQueue : farQueue.Exact .kib2 (.ofList fourSectors) ∅ ∧
    farQueue.NonnegTotals .kib2 (.ofList fourSectors) ∧ (SectorTable.ofList fourSectors).Lists [] ∅ ∧
    Grid.finest.up 0 = .ok 0 ∧ rescheduleAsFaults .finest .kib2 farQueue 0 [] = .ok (farQueue, 0) ∧
    rescheduleRecovered .finest .kib2 farQueue [] = within .array (failed "<int conversion>") := by
  refine ⟨exact_farQueue, nonneg_fourSectors _, SectorTable.lists_ofList (by simp) (by simp), by decide, ?_, ?_⟩
  · decide +kernel
  · decide +kernel

end Samples

end SectorLedger.ExpirationQueue
