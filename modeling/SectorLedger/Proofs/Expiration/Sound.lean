import SectorLedger.Proofs.Expiration.Locating

/-!
# Sound queues

A queue is sound, for a given set of faulty sectors, if its entries are exact, lie on the grid, are not empty
and share no sector. What the operations of the queue have in common is that they store an entry at a key;
`Sound.store` says when that keeps the queue sound, and the set of faulty sectors may change with it.

* `ExpirationQueue.Sound`: the specification.
* `Sound.addAt`, `Sound.removeAt`: sectors come and go at one epoch.
* `Sound.popUntil`: every entry that is due leaves.
-/

namespace SectorLedger.ExpirationQueue

open NumberSet

variable {grid : Grid} {size : SectorSize} {table : SectorTable} {faults faults' ns : NumberSet}
  {q q' : ExpirationQueue} {k : Nat} {e : ExpirationSet}

/-- The entries are exact, lie on the grid, are not empty, and share no sector. -/
structure Sound (grid : Grid) (size : SectorSize) (table : SectorTable) (faults : NumberSet)
    (q : ExpirationQueue) : Prop where
  /-- Keys are epochs. -/
  key_lt : ∀ k e, q.get? k = some e → k < 0x8000000000000000
  /-- Keys are points of the grid. -/
  onGrid : ∀ k e, q.get? k = some e → grid.OnGrid k
  /-- No entry is empty. -/
  nonempty : ∀ k e, q.get? k = some e → ∃ n, n ∈ e.members
  /-- The entries are exact. -/
  exact : ∀ k, (q.entry k).Exact size table faults
  /-- No sector is in two entries. -/
  once : ∀ k k' n, n ∈ (q.entry k).members → n ∈ (q.entry k').members → k = k'

/-- The sector is somewhere in the queue. -/
def Holds (q : ExpirationQueue) (n : Nat) : Prop := ∃ k, n ∈ (q.entry k).members

theorem sound_empty : Sound grid size table faults ∅ where
  key_lt k e h := by simp at h
  onGrid k e h := by simp at h
  nonempty k e h := by simp at h
  exact k := ExpirationSet.exact_empty
  once k k' n h := by simp [entry] at h

namespace Sound

theorem orderly (h : q.Sound grid size table faults) : q.Orderly :=
  ⟨h.key_lt, fun k => (h.exact k).apart, h.once⟩

/-- Only the sectors of the queue matter. -/
theorem congr (h : q.Sound grid size table faults) (hf : ∀ n, q.Holds n → (n ∈ faults ↔ n ∈ faults')) :
    q.Sound grid size table faults' :=
  { h with exact := fun k => (h.exact k).congr fun n hn => hf n ⟨k, hn⟩ }

/-- Only what the table says of the sectors of the queue matters. -/
theorem of_records {table' : SectorTable} (h : q.Sound grid size table faults)
    (hsame : ∀ n, q.Holds n → table'.get? n = table.get? n) : q.Sound grid size table' faults :=
  { h with exact := fun k => (h.exact k).of_records fun n hn => hsame n ⟨k, hn⟩ }

/-- Only the points of the grid matter. -/
theorem of_same {grid' : Grid} (h : q.Sound grid size table faults) (hg : grid.Same grid') :
    q.Sound grid' size table faults :=
  { h with onGrid := fun k e hk => hg.onGrid (h.onGrid k e hk) }

/-- A sector has one place. -/
theorem onTime_unique (h : q.Sound grid size table faults) {k' n : Nat} (hn : n ∈ (q.entry k).onTime)
    (hn' : n ∈ (q.entry k').members) : k' = k ∧ n ∉ (q.entry k').early := by
  obtain rfl := h.once k' k n hn' (ExpirationSet.mem_members.2 (.inl hn))
  exact ⟨rfl, (h.exact k').apart n hn⟩

end Sound

/-! ### Storing an entry -/

/-- Stores an entry, or drops the key if the entry is empty. -/
def store (q : ExpirationQueue) (k : Nat) (e : ExpirationSet) : ExpirationQueue :=
  if e.isEmpty then q.erase k else q.insert k e

theorem store_of_mem {n : Nat} (h : n ∈ e.members) : q.store k e = q.insert k e := by
  rw [store, ExpirationSet.isEmpty_eq_false_iff.2 ⟨n, h⟩]
  rfl

theorem entry_insert (q : ExpirationQueue) (k j : Nat) (e : ExpirationSet) :
    ExpirationQueue.entry (SparseArray.insert q k e) j = if j = k then e else q.entry j := by
  simp only [entry, SparseArray.get?_insert]
  split <;> rfl

theorem entry_erase (q : ExpirationQueue) (k j : Nat) :
    ExpirationQueue.entry (SparseArray.erase q k) j = if j = k then ∅ else q.entry j := by
  simp only [entry, SparseArray.get?_erase]
  split <;> rfl

/-- An exact entry can be read back after it was stored. -/
theorem entry_store (he : e.Exact size table faults) (q : ExpirationQueue) (k j : Nat) :
    (q.store k e).entry j = if j = k then e else q.entry j := by
  unfold store
  split
  · next h => rw [entry_erase, he.eq_empty (ExpirationSet.isEmpty_iff.1 h)]
  · rw [entry_insert]

/-- What is stored after `store` was stored before, or is the new entry. -/
theorem get?_store {j : Nat} {e' : ExpirationSet} (h : (q.store k e).get? j = some e') :
    (j = k ∧ e' = e ∧ ∃ n, n ∈ e.members) ∨ (j ≠ k ∧ q.get? j = some e') := by
  unfold store at h
  split at h
  · exact .inr (SparseArray.get?_erase_eq_some.1 h)
  · next he =>
    refine (SparseArray.get?_insert_eq_some.1 h).imp_left ?_
    rintro ⟨hj, rfl⟩
    exact ⟨hj, rfl, ExpirationSet.isEmpty_eq_false_iff.1 (by simpa using he)⟩

/-- Storing an exact entry keeps a queue sound if the sectors elsewhere are others, and as faulty as before. -/
theorem Sound.store (h : q.Sound grid size table faults) (hk : k < 0x8000000000000000) (hg : grid.OnGrid k)
    (he : e.Exact size table faults')
    (hother : ∀ j ≠ k, ∀ n ∈ (q.entry j).members, (n ∈ faults ↔ n ∈ faults') ∧ n ∉ e.members) :
    (q.store k e).Sound grid size table faults' where
  key_lt j e' hj := by
    rcases get?_store hj with ⟨rfl, -⟩ | ⟨-, hj⟩
    · exact hk
    · exact h.key_lt j e' hj
  onGrid j e' hj := by
    rcases get?_store hj with ⟨rfl, -⟩ | ⟨-, hj⟩
    · exact hg
    · exact h.onGrid j e' hj
  nonempty j e' hj := by
    rcases get?_store hj with ⟨-, rfl, hn⟩ | ⟨-, hj⟩
    · exact hn
    · exact h.nonempty j e' hj
  exact j := by
    rw [entry_store he]
    split
    · exact he
    · next hj => exact (h.exact j).congr fun n hn => (hother j hj n hn).1
  once i j n hi hj := by
    rw [entry_store he] at hi hj
    split at hi <;> split at hj
    · next hik hjk => rw [hik, hjk]
    · next hik hjk => exact absurd hi (hother j hjk n hj).2
    · next hik hjk => exact absurd hj (hother i hik n hi).2
    · exact h.once i j n hi hj

theorem putOrDrop_eq_ok {epoch : Int} : q.putOrDrop epoch e = .ok q' ↔
    ∃ k : Nat, epoch = k ∧ k ≤ SparseArray.greatestIndex ∧ q.store k e = q' := by
  simp only [putOrDrop, bind_eq_ok, Epoch.asCount_eq_ok, store]
  refine exists_congr fun k => and_congr_right fun _ => ?_
  split <;> simp

/-! ### One epoch -/

theorem addAt_eq_ok {raw : Int} {added : ExpirationSet} : addAt grid q raw added = .ok q' ↔
    ∃ k : Nat, grid.up raw = .ok (k : Int) ∧ k ≤ SparseArray.greatestIndex ∧
      ((q.entry k).merge added).validate = .ok () ∧ q.insert k ((q.entry k).merge added) = q' := by
  simp only [addAt, putEntry, ExpirationSet.add, bind_eq_ok, entryAt_eq_ok, noting_eq_ok, pure_eq_ok,
    Epoch.asCount_eq_ok, SparseArray.write_eq_ok]
  constructor
  · rintro ⟨_, hup, _, ⟨k, rfl, hk, rfl⟩, _, ⟨_, hv, rfl⟩, k', hkk, -, rfl⟩
    obtain rfl : k = k' := by omega
    exact ⟨k, hup, hk, hv, rfl⟩
  · rintro ⟨k, hup, hk, hv, rfl⟩
    exact ⟨_, hup, _, ⟨k, rfl, hk, rfl⟩, _, ⟨_, hv, rfl⟩, k, rfl, hk, rfl⟩

/-- There is a place in the queue for what rounding up has found. -/
theorem key_le_of_up {raw : Int} (h : grid.up raw = .ok (k : Int)) : k ≤ SparseArray.greatestIndex :=
  SparseArray.le_greatestIndex_of_lt (Grid.key_lt_of_up h)

/-- Rounding up keeps a point of the grid. -/
theorem up_of_onGrid (hu : 0 < grid.unit) {p r : Int} (hp : grid.OnGrid p) (h : grid.up p = .ok r) : r = p :=
  (Grid.isUp_of_up hu h).unique (Grid.IsUp.self hu hp)

/-- New sectors join an entry, with their totals. -/
theorem Sound.insert_merge (h : q.Sound grid size table faults) (hk : k < 0x8000000000000000) (hg : grid.OnGrid k)
    {added : ExpirationSet} (ha : added.Exact size table faults) {n : Nat} (hn : n ∈ added.members)
    (hnew : ∀ n ∈ added.members, ¬q.Holds n) :
    ExpirationQueue.Sound grid size table faults (q.insert k ((q.entry k).merge added)) := by
  have he : ((q.entry k).merge added).Exact size table faults :=
    (h.exact k).merge ha fun m hm hm' => hnew m hm ⟨k, hm'⟩
  have hmem : ∀ m, m ∈ ((q.entry k).merge added).members ↔ m ∈ (q.entry k).members ∨ m ∈ added.members := by
    intro m
    rw [ExpirationSet.members_merge, mem_union]
  rw [← store_of_mem ((hmem n).2 (.inr hn))]
  refine h.store hk hg he fun j hj m hm => ⟨Iff.rfl, fun hm' => ?_⟩
  rcases (hmem m).1 hm' with hm' | hm'
  · exact hj (h.once j k m hm hm')
  · exact hnew m hm' ⟨j, hm⟩

/-- New sectors come at one epoch, with their totals. -/
theorem Sound.addAt {base : Grid} (hg : grid.LandsOn base) (h : q.Sound base size table faults) {raw : Int}
    {added : ExpirationSet} (ha : added.Exact size table faults) {n : Nat} (hn : n ∈ added.members)
    (hnew : ∀ n ∈ added.members, ¬q.Holds n) (hadd : addAt grid q raw added = .ok q') :
    q'.Sound base size table faults ∧ ∃ k : Nat, grid.up raw = .ok (k : Int) ∧
      ∀ j, q'.entry j = if j = k then (q.entry k).merge added else q.entry j := by
  obtain ⟨k, hup, -, -, rfl⟩ := addAt_eq_ok.1 hadd
  exact ⟨h.insert_merge (Grid.key_lt_of_up hup) (hg raw k hup) ha hn hnew, k, hup, fun j => entry_insert q k j _⟩

theorem removeAt_eq_ok {raw : Int} {removed : ExpirationSet} : removeAt grid q raw removed = .ok q' ↔
    ∃ k : Nat, grid.up raw = .ok (k : Int) ∧ k ≤ SparseArray.greatestIndex ∧ (q.get? k).isSome ∧
      ∃ rest, (q.entry k).remove removed = .ok rest ∧ q.store k rest = q' := by
  simp only [removeAt, bind_eq_ok, Epoch.asCount_eq_ok, noting_eq_ok, SparseArray.read_eq_ok]
  constructor
  · rintro ⟨_, hup, k, rfl, o, ⟨hk, ho⟩, h⟩
    cases o with
    | none => simp at h
    | some old =>
      simp only [bind_eq_ok, noting_eq_ok, putOrDrop_eq_ok] at h
      obtain ⟨rest, hrest, k', hkk, -, rfl⟩ := h
      obtain rfl : k = k' := Int.ofNat.inj hkk
      exact ⟨k, hup, hk, by rw [ho]; rfl, rest, entry_of_get? ho ▸ hrest, rfl⟩
  · rintro ⟨k, hup, hk, hsome, rest, hrest, rfl⟩
    obtain ⟨old, hold⟩ := Option.isSome_iff_exists.1 hsome
    refine ⟨_, hup, k, rfl, some old, ⟨hk, hold⟩, ?_⟩
    simp only [bind_eq_ok, noting_eq_ok, putOrDrop_eq_ok]
    exact ⟨rest, entry_of_get? hold ▸ hrest, k, rfl, hk, rfl⟩

/-- On-time sectors that are not faulty leave their epoch, with their totals, where rounding leaves it as it is. -/
theorem Sound.removeAt {base : Grid} (h : q.Sound base size table faults) {raw : Int}
    (hraw : ∀ r, grid.up raw = .ok r → r = raw) (hf : ∀ n ∈ ns, n ∉ faults) (hrem : removeAt grid q raw
      { onTime := ns, active := ns.total (table.powerAt size), pledge := ns.total table.pledgeAt } = .ok q') :
    q'.Sound base size table faults ∧ ∃ k : Nat, raw = k ∧ (∀ n ∈ ns, n ∈ (q.entry k).onTime) ∧
      (∀ j, (q'.entry j).onTime = if j = k then (q.entry j).onTime \ ns else (q.entry j).onTime) ∧
      ∀ j, (q'.entry j).early = (q.entry j).early := by
  obtain ⟨k, hup, -, hsome, rest, hrest, rfl⟩ := removeAt_eq_ok.1 hrem
  obtain ⟨hon, -, rfl⟩ := ExpirationSet.remove_onTime_eq_ok.1 hrest
  obtain rfl := hraw _ hup
  obtain ⟨old, hold⟩ := Option.isSome_iff_exists.1 hsome
  have he := (h.exact k).remove hon hf
  refine ⟨h.store (h.key_lt k old hold) (h.onGrid k old hold) he fun j hj n hn =>
    ⟨Iff.rfl, fun hn' => hj (h.once j k n hn ?_)⟩, k, rfl, hon, ?_, ?_⟩
  · simp only [ExpirationSet.mem_members, mem_sdiff] at hn' ⊢
    tauto
  · intro j
    rw [entry_store he]
    split
    · next hj => rw [hj]
    · rfl
  · intro j
    rw [entry_store he]
    split
    · next hj => rw [hj]
    · rfl

/-! ### Everything that is due -/

/-- Exact entries without common sectors merge into an exact entry. -/
theorem exact_foldl_merge {es : List (Nat × ExpirationSet)} {acc : ExpirationSet}
    (hacc : acc.Exact size table faults) (hes : ∀ c ∈ es, c.2.Exact size table faults)
    (hd : es.Pairwise fun c d => ∀ n ∈ d.2.members, n ∉ c.2.members)
    (hnew : ∀ c ∈ es, ∀ n ∈ c.2.members, n ∉ acc.members) :
    (es.foldl (fun s c => s.merge c.2) acc).Exact size table faults ∧
      (∀ n, n ∈ (es.foldl (fun s c => s.merge c.2) acc).onTime ↔ n ∈ acc.onTime ∨ ∃ c ∈ es, n ∈ c.2.onTime) ∧
      ∀ n, n ∈ (es.foldl (fun s c => s.merge c.2) acc).early ↔ n ∈ acc.early ∨ ∃ c ∈ es, n ∈ c.2.early := by
  induction es generalizing acc with
  | nil => simp [hacc]
  | cons c es ih =>
    obtain ⟨hlater, hd⟩ := List.pairwise_cons.1 hd
    have hmerge := hacc.merge (hes c List.mem_cons_self) (hnew c List.mem_cons_self)
    have hnew' : ∀ d ∈ es, ∀ n ∈ d.2.members, n ∉ (acc.merge c.2).members := by
      intro d hd n hn
      rw [ExpirationSet.members_merge, mem_union, not_or]
      exact ⟨hnew d (List.mem_cons_of_mem c hd) n hn, hlater d hd n hn⟩
    obtain ⟨he, hon, hearly⟩ := ih hmerge (fun d hd => hes d (List.mem_cons_of_mem c hd)) hd hnew'
    refine ⟨he, fun n => ?_, fun n => ?_⟩
    · rw [List.foldl_cons, hon n]
      simp only [ExpirationSet.merge, mem_union, List.mem_cons, exists_eq_or_imp, or_assoc]
    · rw [List.foldl_cons, hearly n]
      simp only [ExpirationSet.merge, mem_union, List.mem_cons, exists_eq_or_imp, or_assoc]

/-- What is due leaves the queue and is answered, merged into an exact entry; the rest stays as it is. -/
theorem Sound.popUntil (h : q.Sound grid size table faults) {upTo : Int} {popped : ExpirationSet}
    (hpop : q.popUntil upTo = (q', popped)) :
    q'.Sound grid size table faults ∧ (∀ k : Nat, q'.entry k = if (k : Int) ≤ upTo then ∅ else q.entry k) ∧
      popped.Exact size table faults ∧
      (∀ n, n ∈ popped.onTime ↔ ∃ k : Nat, (k : Int) ≤ upTo ∧ n ∈ (q.entry k).onTime) ∧
      ∀ n, n ∈ popped.early ↔ ∃ k : Nat, (k : Int) ≤ upTo ∧ n ∈ (q.entry k).early := by
  obtain ⟨rfl, rfl⟩ := Prod.mk.inj hpop
  have hdue : ∀ c, c ∈ due q upTo ↔ q.get? c.1 = some c.2 ∧ (c.1 : Int) ≤ upTo := fun c =>
    SparseArray.mem_due h.key_lt
  have hget : ∀ k : Nat, (q.eraseAll ((due q upTo).map (·.1))).get? k = if (k : Int) ≤ upTo then none else q.get? k :=
    SparseArray.get?_eraseAll_due h.key_lt upTo
  have hentry : ∀ k : Nat, ExpirationQueue.entry (q.eraseAll ((due q upTo).map (·.1))) k =
      if (k : Int) ≤ upTo then ∅ else q.entry k := by
    intro k
    simp only [entry, hget]
    split <;> rfl
  have hsub : ∀ k e, (q.eraseAll ((due q upTo).map (·.1))).get? k = some e → q.get? k = some e := by
    intro k e he
    rw [hget] at he
    split at he
    · cases he
    · exact he
  have hdist : (due q upTo).Pairwise fun c d => ∀ n ∈ d.2.members, n ∉ c.2.members := by
    refine (q.ascending.sublist (List.takeWhile_sublist _)).imp_of_mem fun {c d} hc hd hcd n hn hn' => ?_
    rw [← entry_of_get? ((hdue c).1 hc).1] at hn'
    rw [← entry_of_get? ((hdue d).1 hd).1] at hn
    have := h.once c.1 d.1 n hn' hn
    omega
  have hempty : (∅ : ExpirationSet).Exact size table faults := ExpirationSet.exact_empty
  have hall : ∀ c ∈ due q upTo, c.2.Exact size table faults := fun c hc =>
    entry_of_get? ((hdue c).1 hc).1 ▸ h.exact c.1
  obtain ⟨he, hon, hearly⟩ := exact_foldl_merge hempty hall hdist (by simp)
  refine ⟨⟨fun k e hk => h.key_lt k e (hsub k e hk), fun k e hk => h.onGrid k e (hsub k e hk),
    fun k e hk => h.nonempty k e (hsub k e hk), fun k => ?_, fun k k' n hn hn' => ?_⟩, hentry, he, fun n => ?_,
    fun n => ?_⟩
  · rw [hentry]
    split
    · exact ExpirationSet.exact_empty
    · exact h.exact k
  · rw [hentry] at hn hn'
    split at hn <;> split at hn'
    · simp at hn
    · simp at hn
    · simp at hn'
    · exact h.once k k' n hn hn'
  · rw [hon n]
    constructor
    · rintro (hn | ⟨c, hc, hn⟩)
      · exact absurd hn (not_mem_empty n)
      · exact ⟨c.1, ((hdue c).1 hc).2, entry_of_get? ((hdue c).1 hc).1 ▸ hn⟩
    · rintro ⟨k, hk, hn⟩
      exact .inr ⟨(k, q.entry k), (hdue _).2 ⟨get?_of_mem (ExpirationSet.mem_members.2 (.inl hn)), hk⟩, hn⟩
  · rw [hearly n]
    constructor
    · rintro (hn | ⟨c, hc, hn⟩)
      · exact absurd hn (not_mem_empty n)
      · exact ⟨c.1, ((hdue c).1 hc).2, entry_of_get? ((hdue c).1 hc).1 ▸ hn⟩
    · rintro ⟨k, hk, hn⟩
      exact .inr ⟨(k, q.entry k), (hdue _).2 ⟨get?_of_mem (ExpirationSet.mem_members.2 (.inr hn)), hk⟩, hn⟩

end SectorLedger.ExpirationQueue
