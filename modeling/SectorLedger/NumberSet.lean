import SectorLedger.Word

/-!
# Sets of numbers

A finite set of natural numbers, kept as the strictly ascending list of the numbers at which
membership changes: `[2, 5, 9, 10]` is the set `{2, 3, 4, 9}`. Every set has exactly one such list,
long runs cost nothing, and any Boolean combination of two sets is one merge of their lists.

* `NumberSet.contains`, `NumberSet.combine`: the view (membership) and the one set operation.
* `NumberSet.contains_combine`, with `contains_union`, `contains_inter`, `contains_diff`: membership in
  a combination is the combination of the memberships.
* `NumberSet.runs`, `NumberSet.elements`, `NumberSet.count`: maximal runs, the numbers, how many.
* `NumberSet.takeFirst`, `NumberSet.cut`: the least few members; removal that closes the gaps.
-/

namespace SectorLedger

/-- How many of the given change points are at or below `n`, modulo two: whether `n` is inside. -/
def insideBounds (bounds : List Nat) (n : Nat) : Bool := bounds.countP (· ≤ n) % 2 == 1

/-- Merges two lists of change points into those of the combination by `f`. The flags say whether the
position reached is inside the first and the second set. -/
def mergeBounds (f : Bool → Bool → Bool) : Bool → Bool → List Nat → List Nat → List Nat
  | p, q, [], ys => if f p q = f p (!q) then [] else ys
  | p, q, xs, [] => if f p q = f (!p) q then [] else xs
  | p, q, x :: xs, y :: ys =>
    if x < y then
      if f p q = f (!p) q then mergeBounds f (!p) q xs (y :: ys) else x :: mergeBounds f (!p) q xs (y :: ys)
    else if y < x then
      if f p q = f p (!q) then mergeBounds f p (!q) (x :: xs) ys else y :: mergeBounds f p (!q) (x :: xs) ys
    else
      if f p q = f (!p) (!q) then mergeBounds f (!p) (!q) xs ys else x :: mergeBounds f (!p) (!q) xs ys
termination_by _ _ xs ys => xs.length + ys.length

theorem insideBounds_nil (n : Nat) : insideBounds [] n = false := rfl

theorem insideBounds_cons (x : Nat) (xs : List Nat) (n : Nat) :
    insideBounds (x :: xs) n = (insideBounds xs n != decide (x ≤ n)) := by
  unfold insideBounds
  by_cases h : x ≤ n
  · simp only [List.countP_cons, h, decide_true, if_true]
    rcases Nat.mod_two_eq_zero_or_one (List.countP (fun x => decide (x ≤ n)) xs) with h2 | h2 <;>
      simp [Nat.add_mod, h2]
  · simp [h]

/-- Nothing is inside before the first change point. -/
theorem insideBounds_of_lt {xs : List Nat} {n : Nat} (h : ∀ x ∈ xs, n < x) : insideBounds xs n = false := by
  have : xs.countP (fun x => decide (x ≤ n)) = 0 := by
    rw [List.countP_eq_zero]; intro x hx; have := h x hx; simp; omega
  simp [insideBounds, this]

/-- A merge holds no change point that lies below both lists. -/
theorem lt_of_mem_mergeBounds {f : Bool → Bool → Bool} {p q : Bool} {xs ys : List Nat} {n : Nat}
    (hx : ∀ x ∈ xs, n < x) (hy : ∀ y ∈ ys, n < y) : ∀ z ∈ mergeBounds f p q xs ys, n < z := by
  fun_induction mergeBounds f p q xs ys <;> grind

/-- Every number of an ascending list lies above what lies below its head. -/
theorem lt_of_lt_head {x n : Nat} {xs : List Nat} (h : (x :: xs).Pairwise (· < ·)) (hn : n < x) :
    ∀ z ∈ x :: xs, n < z := by
  rw [List.pairwise_cons] at h
  intro z hz
  rcases List.mem_cons.1 hz with rfl | hz
  · exact hn
  · exact Nat.lt_trans hn (h.1 z hz)

/-- The same for the numbers after the head. -/
theorem lt_of_lt_tail {x n : Nat} {xs : List Nat} (h : (x :: xs).Pairwise (· < ·)) (hn : n < x) : ∀ z ∈ xs, n < z :=
  fun z hz => lt_of_lt_head h hn z (List.mem_cons_of_mem x hz)

/-- A merge of ascending change points ascends. -/
theorem pairwise_mergeBounds {f : Bool → Bool → Bool} {p q : Bool} {xs ys : List Nat}
    (hx : xs.Pairwise (· < ·)) (hy : ys.Pairwise (· < ·)) : (mergeBounds f p q xs ys).Pairwise (· < ·) := by
  fun_induction mergeBounds f p q xs ys with
  | case1 | case3 => exact List.Pairwise.nil
  | case2 => exact hy
  | case4 => exact hx
  | case5 p q x xs y ys h hf ih => exact ih hx.of_cons hy
  | case6 p q x xs y ys h hf ih =>
    exact (ih hx.of_cons hy).cons (lt_of_mem_mergeBounds (List.pairwise_cons.1 hx).1 (lt_of_lt_head hy h))
  | case7 p q x xs y ys h h' hf ih => exact ih hx hy.of_cons
  | case8 p q x xs y ys h h' hf ih =>
    exact (ih hx hy.of_cons).cons (lt_of_mem_mergeBounds (lt_of_lt_head hx h') (List.pairwise_cons.1 hy).1)
  | case9 p q x xs y ys h h' hf ih => exact ih hx.of_cons hy.of_cons
  | case10 p q x xs y ys h h' hf ih =>
    obtain rfl : x = y := by omega
    exact (ih hx.of_cons hy.of_cons).cons
      (lt_of_mem_mergeBounds (List.pairwise_cons.1 hx).1 (List.pairwise_cons.1 hy).1)

/-- The change points of a merge describe the combination of the two memberships. -/
theorem insideBounds_mergeBounds {f : Bool → Bool → Bool} {p q : Bool} {xs ys : List Nat}
    (hx : xs.Pairwise (· < ·)) (hy : ys.Pairwise (· < ·)) (n : Nat) :
    (insideBounds (mergeBounds f p q xs ys) n != f p q) = f (p != insideBounds xs n) (q != insideBounds ys n) := by
  have other : ∀ {a b : Bool}, ¬ a = b → b = !a := by decide
  have flipOne : ∀ p i : Bool, (p != (i != true)) = ((!p) != i) := by decide
  have flipTwo : ∀ a b : Bool, ((a != true) != b) = (a != !b) := by decide
  fun_induction mergeBounds f p q xs ys with
  | case1 p q ys h => cases hi : insideBounds ys n <;> simp_all [insideBounds_nil]
  | case2 p q ys h =>
    have := other h
    cases hi : insideBounds ys n <;> simp_all [insideBounds_nil]
  | case3 p q xs _ h => cases hi : insideBounds xs n <;> simp_all [insideBounds_nil]
  | case4 p q xs _ h =>
    have := other h
    cases hi : insideBounds xs n <;> simp_all [insideBounds_nil]
  | case5 p q x xs y ys h hf ih =>
    by_cases hn : x ≤ n
    · rw [hf, ih hx.of_cons hy, insideBounds_cons x, decide_eq_true hn, flipOne]
    · rw [insideBounds_of_lt (lt_of_mem_mergeBounds (lt_of_lt_tail hx (by omega)) (lt_of_lt_head hy (by omega))),
        insideBounds_of_lt (lt_of_lt_head hx (by omega)), insideBounds_of_lt (lt_of_lt_head hy (by omega))]
      simp
  | case6 p q x xs y ys h hf ih =>
    by_cases hn : x ≤ n
    · rw [insideBounds_cons x, insideBounds_cons x, decide_eq_true hn, flipOne, flipTwo, ← other hf,
        ih hx.of_cons hy]
    · rw [insideBounds_of_lt (List.forall_mem_cons.2 ⟨by omega, lt_of_mem_mergeBounds (lt_of_lt_tail hx (by omega))
          (lt_of_lt_head hy (by omega))⟩),
        insideBounds_of_lt (lt_of_lt_head hx (by omega)), insideBounds_of_lt (lt_of_lt_head hy (by omega))]
      simp
  | case7 p q x xs y ys h h' hf ih =>
    by_cases hn : y ≤ n
    · rw [hf, ih hx hy.of_cons, insideBounds_cons y, decide_eq_true hn, flipOne]
    · rw [insideBounds_of_lt (lt_of_mem_mergeBounds (lt_of_lt_head hx (by omega)) (lt_of_lt_tail hy (by omega))),
        insideBounds_of_lt (lt_of_lt_head hx (by omega)), insideBounds_of_lt (lt_of_lt_head hy (by omega))]
      simp
  | case8 p q x xs y ys h h' hf ih =>
    by_cases hn : y ≤ n
    · rw [insideBounds_cons y, insideBounds_cons y, decide_eq_true hn, flipOne, flipTwo, ← other hf,
        ih hx hy.of_cons]
    · rw [insideBounds_of_lt (List.forall_mem_cons.2 ⟨by omega, lt_of_mem_mergeBounds (lt_of_lt_head hx (by omega))
          (lt_of_lt_tail hy (by omega))⟩),
        insideBounds_of_lt (lt_of_lt_head hx (by omega)), insideBounds_of_lt (lt_of_lt_head hy (by omega))]
      simp
  | case9 p q x xs y ys h h' hf ih =>
    obtain rfl : x = y := by omega
    by_cases hn : x ≤ n
    · rw [hf, ih hx.of_cons hy.of_cons, insideBounds_cons x xs, insideBounds_cons x ys, decide_eq_true hn,
        flipOne, flipOne]
    · rw [insideBounds_of_lt (lt_of_mem_mergeBounds (lt_of_lt_tail hx (by omega)) (lt_of_lt_tail hy (by omega))),
        insideBounds_of_lt (lt_of_lt_head hx (by omega)), insideBounds_of_lt (lt_of_lt_head hy (by omega))]
      simp
  | case10 p q x xs y ys h h' hf ih =>
    obtain rfl : x = y := by omega
    by_cases hn : x ≤ n
    · rw [insideBounds_cons x, insideBounds_cons x xs, insideBounds_cons x ys, decide_eq_true hn, flipOne,
        flipOne, flipTwo, ← other hf, ih hx.of_cons hy.of_cons]
    · rw [insideBounds_of_lt (List.forall_mem_cons.2 ⟨by omega, lt_of_mem_mergeBounds (lt_of_lt_tail hx (by omega))
          (lt_of_lt_tail hy (by omega))⟩),
        insideBounds_of_lt (lt_of_lt_head hx (by omega)), insideBounds_of_lt (lt_of_lt_head hy (by omega))]
      simp

/-- How many change points a merge has, modulo two: every run that starts ends. -/
theorem length_mergeBounds {f : Bool → Bool → Bool} {p q : Bool} {xs ys : List Nat} :
    ((mergeBounds f p q xs ys).length % 2 == 1) =
      (f p q != f (p != (xs.length % 2 == 1)) (q != (ys.length % 2 == 1))) := by
  have other : ∀ {a b : Bool}, ¬ a = b → b = !a := by decide
  have odd : ∀ n : Nat, ((n + 1) % 2 == 1) = !(n % 2 == 1) := by
    intro n; rcases Nat.mod_two_eq_zero_or_one n with h | h <;> simp [Nat.add_mod, h]
  fun_induction mergeBounds f p q xs ys with
  | case1 p q ys h => cases hi : (ys.length % 2 == 1) <;> simp_all
  | case2 p q ys h =>
    have := other h
    cases hi : (ys.length % 2 == 1) <;> simp_all
  | case3 p q xs _ h => cases hi : (xs.length % 2 == 1) <;> simp_all
  | case4 p q xs _ h =>
    have := other h
    cases hi : (xs.length % 2 == 1) <;> simp_all
  | case5 p q x xs y ys h hf ih | case7 p q x xs y ys h h' hf ih | case9 p q x xs y ys h h' hf ih =>
    rw [ih]; simp only [List.length_cons, odd, hf]; simp
  | case6 p q x xs y ys h hf ih | case8 p q x xs y ys h h' hf ih | case10 p q x xs y ys h h' hf ih =>
    simp only [List.length_cons, odd] at ih ⊢
    rw [ih, other hf]
    simp

/-- A finite set of numbers. -/
structure NumberSet where
  /-- The numbers at which membership changes. -/
  bounds : List Nat
  /-- They ascend. -/
  ascending : bounds.Pairwise (· < ·)
  /-- The set is finite: every run that starts ends. -/
  paired : bounds.length % 2 = 0
  deriving DecidableEq, Repr

namespace NumberSet

/-- Whether the number belongs to the set. -/
def contains (s : NumberSet) (n : Nat) : Bool := insideBounds s.bounds n

instance : Membership Nat NumberSet := ⟨fun s n => s.contains n = true⟩

theorem mem_def {s : NumberSet} {n : Nat} : n ∈ s ↔ s.contains n = true := Iff.rfl

instance (s : NumberSet) (n : Nat) : Decidable (n ∈ s) := inferInstanceAs (Decidable (s.contains n = true))

/-- The set without members. -/
def empty : NumberSet := ⟨[], .nil, rfl⟩

instance : EmptyCollection NumberSet := ⟨empty⟩

instance : Inhabited NumberSet := ⟨empty⟩

/-- The run of `length` numbers from `start` on. -/
def run (start length : Nat) : NumberSet :=
  if h : length = 0 then empty
  else ⟨[start, start + length], by simp; omega, by simp⟩

/-- The set with one member. -/
def singleton (n : Nat) : NumberSet := run n 1

/-- The numbers whose memberships in the two sets satisfy `f`, which must reject a number in neither. -/
def combine (f : Bool → Bool → Bool) (hf : f false false = false) (s t : NumberSet) : NumberSet where
  bounds := mergeBounds f false false s.bounds t.bounds
  ascending := pairwise_mergeBounds s.ascending t.ascending
  paired := by
    have h := @length_mergeBounds f false false s.bounds t.bounds
    simpa [s.paired, t.paired, hf] using h

/-- Membership in a combination is the combination of the memberships. -/
theorem contains_combine (f : Bool → Bool → Bool) (hf : f false false = false) (s t : NumberSet) (n : Nat) :
    (combine f hf s t).contains n = f (s.contains n) (t.contains n) := by
  have h := insideBounds_mergeBounds (f := f) (p := false) (q := false) s.ascending t.ascending n
  simpa [combine, contains, hf] using h

/-- The numbers in either set. -/
def union (s t : NumberSet) : NumberSet := combine or rfl s t

/-- The numbers in both sets. -/
def inter (s t : NumberSet) : NumberSet := combine and rfl s t

/-- The numbers in the first set and not in the second. -/
def diff (s t : NumberSet) : NumberSet := combine (fun a b => a && !b) rfl s t

instance : Union NumberSet := ⟨union⟩

instance : Inter NumberSet := ⟨inter⟩

instance : SDiff NumberSet := ⟨diff⟩

@[simp] theorem contains_union (s t : NumberSet) (n : Nat) :
    (s ∪ t).contains n = (s.contains n || t.contains n) := contains_combine _ rfl s t n

@[simp] theorem contains_inter (s t : NumberSet) (n : Nat) :
    (s ∩ t).contains n = (s.contains n && t.contains n) := contains_combine _ rfl s t n

@[simp] theorem contains_diff (s t : NumberSet) (n : Nat) :
    (s \ t).contains n = (s.contains n && !t.contains n) := contains_combine _ rfl s t n

@[simp] theorem contains_empty (n : Nat) : (∅ : NumberSet).contains n = false := rfl

/-- Whether the set has no members. -/
def isEmpty (s : NumberSet) : Bool := s.bounds.isEmpty

/-- Pairs up the change points into the start and the length of each run. -/
def pairUp : List Nat → List (Nat × Nat)
  | a :: b :: rest => (a, b - a) :: pairUp rest
  | _ => []

/-- The maximal runs, each with its start and its length, in ascending order. -/
def runs (s : NumberSet) : List (Nat × Nat) := pairUp s.bounds

/-- The members in ascending order. -/
def elements (s : NumberSet) : List Nat := s.runs.flatMap fun r => List.range' r.1 r.2

/-- How many members there are. -/
def count (s : NumberSet) : Nat := s.runs.foldr (fun r n => r.2 + n) 0

/-- The least member. -/
def first? (s : NumberSet) : Option Nat := s.bounds.head?

/-- The greatest member. -/
def last? (s : NumberSet) : Option Nat := s.bounds.getLast?.map (· - 1)

/-- Whether every member of the second set is in the first. -/
def containsAll (s t : NumberSet) : Bool := (t \ s).isEmpty

/-- Whether some member of the second set is in the first. -/
def containsAny (s t : NumberSet) : Bool := !(s ∩ t).isEmpty

/-- The union of the given runs, in any order and possibly overlapping. -/
def ofRuns (rs : List (Nat × Nat)) : NumberSet := rs.foldr (fun r s => run r.1 r.2 ∪ s) ∅

/-- The set of the numbers in a list. -/
def ofList (ns : List Nat) : NumberSet := ns.foldr (fun n s => singleton n ∪ s) ∅

/-- The union of a list of sets. -/
def unionAll (ss : List NumberSet) : NumberSet := ss.foldr (· ∪ ·) ∅

/-- The greatest number that a stored set may hold is one less. -/
def forbiddenMember : Nat := 0xffffffffffffffff

/-- The set of the numbers in a list, which must all be below the greatest 64-bit number. -/
def ofValues (ns : List Nat) : Outcome NumberSet :=
  if ns.all (· < forbiddenMember) then .ok (ofList ns) else failed "bitfields may not include u64::MAX"

/-- The change points of the least `k` members. -/
def takeBounds (k : Nat) : List Nat → List (Nat × Nat)
  | a :: b :: rest =>
    if k = 0 then [] else if k ≤ b - a then [(a, k)] else (a, b - a) :: takeBounds (k - (b - a)) rest
  | _ => []

/-- The least `k` members, or all of them if there are fewer. -/
def takeFirst (s : NumberSet) (k : Nat) : NumberSet := ofRuns (takeBounds k s.bounds)

/-- How many members lie below `n`. -/
def rank (s : NumberSet) (n : Nat) : Nat := s.runs.foldr (fun r below => min r.2 (n - r.1) + below) 0

/-- Removes the members of the second set, and moves each later member down by the number of places
removed below it. -/
def cut (s t : NumberSet) : NumberSet := ofRuns ((s \ t).runs.map fun r => (r.1 - t.rank r.1, r.2))

/-- How a list of numbers is shown inside a message. -/
def shownList (ns : List Nat) : String := "[" ++ ", ".intercalate (ns.map toString) ++ "]"

/-- How a set is shown inside a message. -/
def shown (s : NumberSet) : String := "\x7b" ++ ", ".intercalate (s.elements.map toString) ++ "\x7d"

variable {β : Type}

/-- Visits the numbers of a run in ascending order, as long as each visit says to go on. -/
def foldRun (f : β → Nat → Outcome (β × Bool)) : Nat → Nat → β → Outcome (β × Bool)
  | _, 0, b => .ok (b, true)
  | start, length + 1, b => do
    let (b, more) ← f b start
    if more then foldRun f (start + 1) length b else return (b, false)

/-- Visits the numbers of runs in order, as long as each visit says to go on. -/
def foldRuns (f : β → Nat → Outcome (β × Bool)) : List (Nat × Nat) → β → Outcome β
  | [], b => .ok b
  | (start, length) :: rest, b => do
    let (b, more) ← foldRun f start length b
    if more then foldRuns f rest b else return b

/-- Visits the members in ascending order, as long as each visit says to go on. -/
def foldWhile (f : β → Nat → Outcome (β × Bool)) (b : β) (s : NumberSet) : Outcome β := foldRuns f s.runs b

/-- Visits all members in ascending order. -/
def foldMembers (f : β → Nat → Outcome β) (b : β) (s : NumberSet) : Outcome β :=
  s.foldWhile (fun b n => do return (← f b n, true)) b

/-- The results for the numbers of a run, in ascending order. -/
def mapRun (f : Nat → Outcome β) : Nat → Nat → Outcome (List β)
  | _, 0 => .ok []
  | start, length + 1 => do
    let b ← f start
    return b :: (← mapRun f (start + 1) length)

/-- The results for the members, in ascending order. Stops at the first that has none. -/
def mapMembers (f : Nat → Outcome β) (s : NumberSet) : Outcome (List β) := do
  return (← s.runs.mapM fun r => mapRun f r.1 r.2).flatten

end NumberSet

end SectorLedger
