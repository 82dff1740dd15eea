import SectorLedger.Proofs.NumberQueue

/-!
# What is filed comes out when it is due

Many numbers are filed in one go as they are one by one, in any order and however often: the set at each key grows by
the numbers whose epochs round up to it. A number stays there until somebody takes out what is due, and does not come
out before unless it was filed under an earlier key too.

* `NumberQueue.filed`: the numbers that go to a key; `get?_addMany` says that they are all that changes.
* `addMany_total`, `addMany_refused`: a list is filed if none of its epochs rounds up to a negative one. Otherwise
  nothing is written.
* `NumberQueue.Operation`: filing and taking out; `Operation.mem_entry_apply` says what one operation does to a key,
  `mem_entry_of_run` and `source_of_run` what many do.
* `filed_until_due`: all of this for one list and everything that is done after it.
-/

namespace SectorLedger

variable {α β : Type}

/-- The state that a walk leaves behind, also if one of its steps stops it. -/
def leftBehind (f : β → α → Outcome β) : β → List α → β
  | b, [] => b
  | b, a :: as =>
    match f b a with
    | .ok b' => leftBehind f b' as
    | .error _ => b

theorem leftBehind_of_ok {f : β → α → Outcome β} {b b' : β} {as : List α} (h : foldOutcome f b as = .ok b') :
    leftBehind f b as = b' := by
  induction as generalizing b with
  | nil => exact Except.ok.inj h
  | cons a as ih =>
    rw [foldOutcome_cons, bind_eq_ok] at h
    obtain ⟨b₁, h₁, h₂⟩ := h
    rw [leftBehind, h₁]
    exact ih h₂

namespace NumberQueue

open NumberSet

variable {grid : Grid} {q q' : NumberQueue} {k n : Nat} {pairs pairs' : List (Int × Nat)}

/-! ### Many numbers -/

/-- The numbers whose epochs round up to a key. -/
def filed (grid : Grid) (pairs : List (Int × Nat)) (k : Nat) : NumberSet :=
  .ofList ((pairs.filter fun p => grid.up p.1 = .ok (k : Int)).map (·.2))

theorem mem_filed : n ∈ filed grid pairs k ↔ ∃ epoch, (epoch, n) ∈ pairs ∧ grid.up epoch = .ok (k : Int) := by
  simp [filed, mem_ofList]

/-- It does not matter how often and in which order the pairs are listed. -/
theorem filed_congr (h : ∀ p, p ∈ pairs' ↔ p ∈ pairs) (k : Nat) : filed grid pairs' k = filed grid pairs k :=
  NumberSet.ext fun n => by simp only [mem_filed, h]

/-- One more number goes to its own key. -/
theorem filed_concat {p : Int × Nat} {key : Nat} (hup : grid.up p.1 = .ok (key : Int)) (k : Nat) :
    filed grid (pairs ++ [p]) k = if k = key then filed grid pairs k ∪ .ofList [p.2] else filed grid pairs k := by
  refine NumberSet.ext fun n => ?_
  have hlast : (∃ epoch, (epoch, n) ∈ [p] ∧ grid.up epoch = .ok (k : Int)) ↔ n = p.2 ∧ k = key := by
    constructor
    · rintro ⟨epoch, hmem, hk⟩
      obtain rfl := List.mem_singleton.1 hmem
      exact ⟨rfl, Int.ofNat.inj (Except.ok.inj (hk.symm.trans hup))⟩
    · rintro ⟨rfl, rfl⟩
      exact ⟨p.1, List.mem_cons_self, hup⟩
  simp only [mem_filed, List.mem_append, or_and_right, exists_or, hlast]
  split
  · next hk => simp [mem_filed, mem_union, mem_ofList, hk]
  · next hk => simp [mem_filed, hk]

/-- Filing one by one changes nothing but the sets at the keys of the numbers. -/
theorem get?_addEach (h : foldOutcome (fun q p => addValues grid q p.1 [p.2]) q pairs = .ok q') (k : Nat) :
    SparseArray.get? q' k =
      if filed grid pairs k = ∅ then SparseArray.get? q k else some (q.entry k ∪ filed grid pairs k) := by
  refine foldOutcome_invariant (I := fun done (q' : NumberQueue) => ∀ k, SparseArray.get? q' k =
    if filed grid done k = ∅ then SparseArray.get? q k else some (q.entry k ∪ filed grid done k)) h
    (fun k => (if_pos rfl).symm) ?_ k
  intro done p rest q₁ q₂ hs hI hstep k
  obtain ⟨key, hkey, hmerge⟩ := addValues_singleton.1 hstep
  obtain ⟨-, -, rfl⟩ := mergeGroup_eq_ok.1 hmerge
  have hentry : q₁.entry key = q.entry key ∪ filed grid done key := by
    rw [entry, hI]
    split
    · next hnone => rw [hnone, union_empty, entry]
    · rfl
  rw [SparseArray.get?_insert, filed_concat (keyFor_eq_ok.1 hkey)]
  split
  · next hk =>
    have hsome : filed grid done k ∪ .ofList [p.2] ≠ ∅ := fun hnone =>
      eq_empty_iff.1 hnone p.2 (mem_union.2 (.inr (mem_ofList.2 List.mem_cons_self)))
    rw [if_neg hsome, ← union_assoc, hk, hentry]
  · exact hI k

/-- Filing many numbers changes nothing but the sets at their keys. -/
theorem get?_addMany (h : addMany grid q pairs = .ok q') (k : Nat) : SparseArray.get? q' k =
    if filed grid pairs k = ∅ then SparseArray.get? q k else some (q.entry k ∪ filed grid pairs k) :=
  get?_addEach (addMany_eq_addEach.1 h) k

/-- Numbers can be filed one by one under epochs that have keys. -/
theorem addEach_total (hkeys : ∀ p ∈ pairs, ∃ k : Nat, grid.up p.1 = .ok (k : Int))
    (hvalues : ∀ p ∈ pairs, p.2 < forbiddenMember) (q : NumberQueue) :
    ∃ q', foldOutcome (fun q p => addValues grid q p.1 [p.2]) q pairs = .ok q' := by
  refine (foldOutcome_total (I := fun _ _ => True) trivial ?_).imp fun q' h => h.1
  rintro done p rest q₁ hs -
  have hp : p ∈ pairs := by rw [hs]; simp
  obtain ⟨k, hk⟩ := hkeys p hp
  have hle : k ≤ SparseArray.greatestIndex := SparseArray.le_greatestIndex_of_lt (Grid.key_lt_of_up hk)
  exact (addValues_total (q := q₁) hk hle (List.forall_mem_singleton.2 (hvalues p hp))).imp fun q₂ h => ⟨h, trivial⟩

/-- So can they in one go. -/
theorem addMany_total (hkeys : ∀ p ∈ pairs, ∃ k : Nat, grid.up p.1 = .ok (k : Int))
    (hvalues : ∀ p ∈ pairs, p.2 < forbiddenMember) (q : NumberQueue) : ∃ q', addMany grid q pairs = .ok q' :=
  (addEach_total hkeys hvalues q).imp fun _ => addMany_eq_addEach.2

/-- The same pairs, listed in another way and filed one by one, give the same queue. -/
theorem addEach_of_addMany (h : addMany grid q pairs = .ok q') (hvalues : ∀ p ∈ pairs, p.2 < forbiddenMember)
    (hkeys : ∀ p ∈ pairs, ∃ k : Nat, grid.up p.1 = .ok (k : Int)) (hsame : ∀ p, p ∈ pairs' ↔ p ∈ pairs) :
    foldOutcome (fun q p => addValues grid q p.1 [p.2]) q pairs' = .ok q' := by
  obtain ⟨q₁, hq₁⟩ := addEach_total (fun p hp => hkeys p ((hsame p).1 hp)) (fun p hp => hvalues p ((hsame p).1 hp)) q
  have heq : q₁ = q' := SparseArray.ext fun k => by rw [get?_addEach hq₁, get?_addMany h, filed_congr hsame]
  rw [hq₁, heq]

/-- What is left of a queue when many numbers have been filed, or when that has been refused. -/
def leftByAddMany (grid : Grid) (q : NumberQueue) (pairs : List (Int × Nat)) : NumberQueue :=
  match groupByKey grid pairs with
  | .ok groups => leftBehind mergeGroup q groups.entries
  | .error _ => q

theorem leftByAddMany_of_ok (h : addMany grid q pairs = .ok q') : leftByAddMany grid q pairs = q' := by
  simp only [addMany, bind_eq_ok] at h
  obtain ⟨groups, hgroups, h⟩ := h
  rw [leftByAddMany, hgroups]
  exact leftBehind_of_ok h

/-- The first epoch that has no key stops the numbers from being grouped. -/
theorem groupByKey_refused (hup : ∀ p ∈ pairs, ∃ r, grid.up p.1 = .ok r)
    (hneg : ∃ p ∈ pairs, ∃ r < 0, grid.up p.1 = .ok r) :
    ∃ r < 0, (∃ p ∈ pairs, grid.up p.1 = .ok r) ∧
      groupByKey grid pairs = failed s!"bitfield queue cannot hold epoch {r}" := by
  unfold groupByKey
  generalize (∅ : SparseArray (List Nat)) = groups
  induction pairs generalizing groups with
  | nil => simp at hneg
  | cons p pairs ih =>
    obtain ⟨⟨r, hr⟩, hup⟩ := List.forall_mem_cons.1 hup
    rw [foldOutcome_cons]
    by_cases hnegative : r < 0
    · refine ⟨r, hnegative, ⟨p, List.mem_cons_self, hr⟩, ?_⟩
      rw [keyFor, hr, ok_bind, if_pos hnegative]
      rfl
    · have hrest : ∃ p ∈ pairs, ∃ r < 0, grid.up p.1 = .ok r := by
        obtain ⟨p', hp', r', hr', hup'⟩ := hneg
        rcases List.mem_cons.1 hp' with rfl | hp'
        · exact absurd (Except.ok.inj (hup'.symm.trans hr) ▸ hr') hnegative
        · exact ⟨p', hp', r', hr', hup'⟩
      rw [keyFor, hr, ok_bind, if_neg hnegative]
      obtain ⟨r', hr', ⟨p', hp', hup'⟩, h⟩ := ih hup hrest _
      exact ⟨r', hr', ⟨p', List.mem_cons_of_mem p hp', hup'⟩, h⟩

/-- A list with an epoch that has no key is refused before anything is written. -/
theorem addMany_refused (hup : ∀ p ∈ pairs, ∃ r, grid.up p.1 = .ok r)
    (hneg : ∃ p ∈ pairs, ∃ r < 0, grid.up p.1 = .ok r) (q : NumberQueue) :
    ∃ r < 0, (∃ p ∈ pairs, grid.up p.1 = .ok r) ∧
      addMany grid q pairs = failed s!"bitfield queue cannot hold epoch {r}" ∧ leftByAddMany grid q pairs = q := by
  obtain ⟨r, hr, hp, hgroups⟩ := groupByKey_refused hup hneg
  exact ⟨r, hr, hp, by rw [addMany, hgroups, failed_bind], by rw [leftByAddMany, hgroups, failed]⟩

/-! ### What is due -/

/-- The sets at the keys up to an epoch come out, and the others stay. -/
theorem popUntil_takes_due (hq : q.Bounded) (upTo : Int) :
    (∀ n, n ∈ (q.popUntil upTo).2.1 ↔ ∃ k : Nat, (k : Int) ≤ upTo ∧ n ∈ q.entry k) ∧
      ∀ k : Nat, SparseArray.get? (q.popUntil upTo).1 k = if (k : Int) ≤ upTo then none else SparseArray.get? q k :=
  ⟨(popUntil_spec hq rfl).2.2.1, SparseArray.get?_eraseAll_due hq upTo⟩

/-- An operation on a queue of numbers, with its arguments. -/
inductive Operation where
  | addValues (epoch : Int) (values : List Nat)
  | addMany (pairs : List (Int × Nat))
  | popUntil (upTo : Int)
  deriving DecidableEq, Repr

namespace Operation

/-- The queue after the operation. -/
def apply (grid : Grid) (q : NumberQueue) : Operation → Outcome NumberQueue
  | addValues epoch values => NumberQueue.addValues grid q epoch values
  | addMany pairs => NumberQueue.addMany grid q pairs
  | popUntil upTo => .ok (q.popUntil upTo).1

/-- The operation files the number under the key. -/
def Files (grid : Grid) (k n : Nat) : Operation → Prop
  | addValues epoch values => n ∈ values ∧ grid.up epoch = .ok (k : Int)
  | addMany pairs => n ∈ filed grid pairs k
  | popUntil _ => False

/-- The operation takes out what is at the key. -/
def Takes (k : Nat) : Operation → Prop
  | popUntil upTo => (k : Int) ≤ upTo
  | _ => False

theorem bounded_apply (hq : q.Bounded) {o : Operation} (h : o.apply grid q = .ok q') : q'.Bounded := by
  cases o with
  | addValues epoch values => exact hq.addValues h
  | addMany pairs => exact hq.addMany h
  | popUntil upTo =>
    obtain rfl := Except.ok.inj h
    exact (popUntil_spec hq rfl).2.1

/-- What is at a key after an operation was there before and stayed, or has been filed. -/
theorem mem_entry_apply (hq : q.Bounded) {o : Operation} (h : o.apply grid q = .ok q') (k n : Nat) :
    n ∈ q'.entry k ↔ (n ∈ q.entry k ∧ ¬o.Takes k) ∨ o.Files grid k n := by
  cases o with
  | addValues epoch values =>
    rw [entry_addValues h]
    simp [Takes, Files]
  | addMany pairs =>
    rw [entry_addMany h, ← mem_filed]
    simp [Takes, Files]
  | popUntil upTo =>
    obtain rfl := Except.ok.inj h
    have hentry : (q.popUntil upTo).1.entry k = if (k : Int) ≤ upTo then ∅ else q.entry k := (popUntil_spec hq rfl).1 k
    rw [hentry]
    by_cases hdue : (k : Int) ≤ upTo <;> simp [Takes, Files, hdue]

end Operation

variable {os : List Operation}

theorem bounded_of_run (hq : q.Bounded) (h : foldOutcome (Operation.apply grid) q os = .ok q') : q'.Bounded :=
  foldOutcome_invariant (I := fun _ (q : NumberQueue) => q.Bounded) h hq fun _ _ _ _ _ _ hq₁ hstep =>
    Operation.bounded_apply hq₁ hstep

/-- A number stays at its key until it is taken out. -/
theorem mem_entry_of_run (hq : q.Bounded) (h : foldOutcome (Operation.apply grid) q os = .ok q')
    (hkept : ∀ o ∈ os, ¬o.Takes k) (hn : n ∈ q.entry k) : n ∈ q'.entry k := by
  refine (foldOutcome_invariant (I := fun _ (q' : NumberQueue) => q'.Bounded ∧ n ∈ q'.entry k) h ⟨hq, hn⟩ ?_).2
  rintro done o rest q₁ q₂ hs ⟨hq₁, hn₁⟩ hstep
  have ho : o ∈ os := by rw [hs]; simp
  exact ⟨Operation.bounded_apply hq₁ hstep, (Operation.mem_entry_apply hq₁ hstep k n).2 (.inl ⟨hn₁, hkept o ho⟩)⟩

/-- What is at a key was there at the start, or has been filed. -/
theorem source_of_run (hq : q.Bounded) (h : foldOutcome (Operation.apply grid) q os = .ok q')
    (hn : n ∈ q'.entry k) : n ∈ q.entry k ∨ ∃ o ∈ os, o.Files grid k n := by
  refine (foldOutcome_invariant (I := fun done (q' : NumberQueue) => q'.Bounded ∧
    (n ∈ q'.entry k → n ∈ q.entry k ∨ ∃ o ∈ done, o.Files grid k n)) h ⟨hq, .inl⟩ ?_).2 hn
  rintro done o rest q₁ q₂ hs ⟨hq₁, hI⟩ hstep
  refine ⟨Operation.bounded_apply hq₁ hstep, fun hn₂ => ?_⟩
  rcases (Operation.mem_entry_apply hq₁ hstep k n).1 hn₂ with ⟨hn₁, -⟩ | hfiles
  · exact (hI hn₁).imp_right fun ⟨o', ho', hfiles⟩ => ⟨o', List.mem_append_left _ ho', hfiles⟩
  · exact .inr ⟨o, List.mem_append_right _ List.mem_cons_self, hfiles⟩

/-- **Numbers that are filed in one go are filed as they are one by one, in any order, and come out when they are due.**
A list with an epoch that rounds up to a negative one is refused, and leaves the queue as it was. -/
theorem filed_until_due (hu : 0 < grid.unit) (hq : q.Bounded) (hup : ∀ p ∈ pairs, ∃ r, grid.up p.1 = .ok r) :
    ((∀ p ∈ pairs, ∀ r, grid.up p.1 = .ok r → 0 ≤ r) → (∀ p ∈ pairs, p.2 < forbiddenMember) → ∃ q',
      addMany grid q pairs = .ok q' ∧ leftByAddMany grid q pairs = q' ∧
      (∀ pairs', (∀ p, p ∈ pairs' ↔ p ∈ pairs) →
        foldOutcome (fun q p => addValues grid q p.1 [p.2]) q pairs' = .ok q') ∧
      (∀ k, SparseArray.get? q' k =
        if filed grid pairs k = ∅ then SparseArray.get? q k else some (q.entry k ∪ filed grid pairs k)) ∧
      (∀ upTo : Int, (∀ n, n ∈ (q'.popUntil upTo).2.1 ↔ ∃ k : Nat, (k : Int) ≤ upTo ∧ n ∈ q'.entry k) ∧
        ∀ k : Nat, SparseArray.get? (q'.popUntil upTo).1 k =
          if (k : Int) ≤ upTo then none else SparseArray.get? q' k) ∧
      ∀ epoch n r, (epoch, n) ∈ pairs → grid.up epoch = .ok r → ∀ os q₂,
        foldOutcome (Operation.apply grid) q' os = .ok q₂ → ∀ upTo : Int,
          ((∀ o ∈ os, ∀ earlier, o = .popUntil earlier → earlier < r) → r ≤ upTo → n ∈ (q₂.popUntil upTo).2.1) ∧
          (upTo < epoch → n ∈ (q₂.popUntil upTo).2.1 → ∃ k : Nat, (k : Int) ≤ upTo ∧ (k : Int) < r ∧
            (n ∈ q.entry k ∨ n ∈ filed grid pairs k ∨ ∃ o ∈ os, o.Files grid k n))) ∧
    ((∃ p ∈ pairs, ∃ r < 0, grid.up p.1 = .ok r) → ∃ r < 0, (∃ p ∈ pairs, grid.up p.1 = .ok r) ∧
      addMany grid q pairs = failed s!"bitfield queue cannot hold epoch {r}" ∧ leftByAddMany grid q pairs = q) := by
  refine ⟨fun hnonneg hvalues => ?_, fun hneg => addMany_refused hup hneg q⟩
  have hkeys : ∀ p ∈ pairs, ∃ k : Nat, grid.up p.1 = .ok (k : Int) := fun p hp => by
    obtain ⟨r, hr⟩ := hup p hp
    exact ⟨r.toNat, by rw [hr, Int.toNat_of_nonneg (hnonneg p hp r hr)]⟩
  obtain ⟨q', hq'⟩ := addMany_total hkeys hvalues q
  have hbounded : q'.Bounded := hq.addMany hq'
  refine ⟨q', hq', leftByAddMany_of_ok hq', fun pairs' => addEach_of_addMany hq' hvalues hkeys, get?_addMany hq',
    popUntil_takes_due hbounded, ?_⟩
  intro epoch n r hmem hr os q₂ hrun upTo
  have hpopped := (popUntil_takes_due (bounded_of_run hbounded hrun) upTo).1 n
  refine ⟨fun hbefore hle => ?_, fun hlt hn => ?_⟩
  · obtain ⟨k, hk⟩ := hkeys _ hmem
    obtain rfl : (k : Int) = r := Except.ok.inj (hk.symm.trans hr)
    have hkept : ∀ o ∈ os, ¬o.Takes k := by
      rintro (_ | _ | earlier) ho htakes
      · exact htakes
      · exact htakes
      · exact (hbefore _ ho earlier rfl).not_ge htakes
    have hthere : n ∈ q'.entry k := (entry_addMany hq' k n).2 (.inr ⟨epoch, hmem, hr⟩)
    exact hpopped.2 ⟨k, hle, mem_entry_of_run hbounded hrun hkept hthere⟩
  · obtain ⟨k, hk, hn⟩ := hpopped.1 hn
    have hearlier : (k : Int) < r := (hk.trans_lt hlt).trans_le (Grid.isUp_of_up hu hr).le
    refine ⟨k, hk, hearlier, ?_⟩
    rcases source_of_run hbounded hrun hn with hn | hfiles
    · exact ((entry_addMany hq' k n).1 hn).imp_right fun h => .inl (mem_filed.2 h)
    · exact .inr (.inr hfiles)

/-- A queue with one number. -/
def sample : NumberQueue := SparseArray.insert ∅ 5 (.ofList [7])

theorem bounded_sample : sample.Bounded := bounded_empty.insert (by decide)

/-- Two numbers join the one that is there, and come out with the second of two later pops. A list with an early epoch
is refused. -/
theorem filed_until_due_sample :
    (∃ q' q₂, addMany ⟨4, 1⟩ sample [(3, 1), (9, 2), (4, 3), (9, 2)] = .ok q' ∧
      foldOutcome (fun q p => addValues ⟨4, 1⟩ q p.1 [p.2]) sample [(9, 2), (4, 3), (3, 1)] = .ok q' ∧
      SparseArray.get? q' 5 = some (.ofList [1, 3, 7]) ∧
      foldOutcome (Operation.apply ⟨4, 1⟩) q' [.popUntil 4, .addValues 6 [3]] = .ok q₂ ∧ 3 ∈ (q₂.popUntil 5).2.1) ∧
    addMany ⟨4, 1⟩ sample [(3, 1), (-6, 2)] = failed "bitfield queue cannot hold epoch -3" ∧
      leftByAddMany ⟨4, 1⟩ sample [(3, 1), (-6, 2)] = sample := by
  have hkeys : ∀ p ∈ [((3 : Int), 1), (9, 2), (4, 3), (9, 2)],
      Grid.up ⟨4, 1⟩ p.1 = .ok 5 ∨ Grid.up ⟨4, 1⟩ p.1 = .ok 9 := by decide
  have hup : ∀ p ∈ [((3 : Int), 1), (9, 2), (4, 3), (9, 2)], ∃ r, Grid.up ⟨4, 1⟩ p.1 = .ok r := fun p hp =>
    (hkeys p hp).elim (fun h => ⟨5, h⟩) fun h => ⟨9, h⟩
  have hearly : ∀ p ∈ [((3 : Int), 1), (-6, 2)], ∃ r, Grid.up ⟨4, 1⟩ p.1 = .ok r :=
    List.forall_mem_cons.2 ⟨⟨5, by decide⟩, List.forall_mem_singleton.2 ⟨-3, by decide⟩⟩
  have hsame : ∀ p, p ∈ [((9 : Int), 2), (4, 3), (3, 1)] ↔ p ∈ [((3 : Int), 1), (9, 2), (4, 3), (9, 2)] := by
    simp only [List.mem_cons]
    tauto
  obtain ⟨haccept, -⟩ := filed_until_due (by decide) bounded_sample hup
  obtain ⟨-, hrefuse⟩ := filed_until_due (by decide) bounded_sample hearly
  obtain ⟨q', hmany, -, heach, -, -, hlater⟩ := haccept
    (fun p hp r hr => by
      rcases hkeys p hp with h | h <;> obtain rfl := Except.ok.inj (h.symm.trans hr) <;> decide)
    (by decide)
  obtain ⟨-, -, -, -, hleft⟩ := hrefuse ⟨(-6, 2), by simp, -3, by decide, by decide⟩
  obtain rfl : SparseArray.ofEntries [(5, NumberSet.ofList [1, 3, 7]), (9, .ofList [2])] = q' :=
    Except.ok.inj ((by decide +kernel : Except.ok _ = _).trans hmany)
  have hrun : foldOutcome (Operation.apply ⟨4, 1⟩) (SparseArray.ofEntries [(5, .ofList [1, 3, 7]), (9, .ofList [2])])
      [.popUntil 4, .addValues 6 [3]] = .ok (SparseArray.ofEntries [(5, .ofList [1, 3, 7]), (9, .ofList [2, 3])]) := by
    decide +kernel
  exact ⟨⟨_, _, hmany, heach _ hsame, by decide +kernel, hrun,
    (hlater 4 3 5 (by simp) (by decide) _ _ hrun 5).1 (by simp) le_rfl⟩, by decide +kernel, hleft⟩

end NumberQueue

end SectorLedger
