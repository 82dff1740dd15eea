import SectorLedger.Word

/-!
# Sparse arrays

Values at some indices, kept in ascending order of index. This is the container behind every queue
(keyed by epoch), the partitions of a deadline (keyed by position) and the tables of sectors and
pre-commitments (keyed by sector number).

* `SparseArray.get?`: the view; `get?_insert`, `get?_erase` say what the updates do to it.
* `SparseArray.read`, `write`, `remove`: the same with the refusal of the one index that is too large.
-/

namespace SectorLedger

variable {α β : Type}

/-- Puts a value at an index of an ascending list of entries, replacing the one that is there. -/
def insertEntry (i : Nat) (v : α) : List (Nat × α) → List (Nat × α)
  | [] => [(i, v)]
  | (j, w) :: rest =>
    if i < j then (i, v) :: (j, w) :: rest
    else if i = j then (i, v) :: rest
    else (j, w) :: insertEntry i v rest

/-- The value at an index of a list of entries. -/
def lookupEntry (i : Nat) : List (Nat × α) → Option α
  | [] => none
  | (j, w) :: rest => if i = j then some w else lookupEntry i rest

/-- Insertion brings no index below both the old ones and its own. -/
theorem lt_of_mem_insertEntry {i k : Nat} {v : α} {es : List (Nat × α)} (hi : k < i)
    (h : ∀ e ∈ es, k < e.1) : ∀ e ∈ insertEntry i v es, k < e.1 := by
  induction es with
  | nil => simpa [insertEntry] using hi
  | cons e rest ih =>
    rw [List.forall_mem_cons] at h
    unfold insertEntry
    split
    · exact List.forall_mem_cons.2 ⟨hi, List.forall_mem_cons.2 h⟩
    · split
      · exact List.forall_mem_cons.2 ⟨hi, h.2⟩
      · exact List.forall_mem_cons.2 ⟨h.1, ih h.2⟩

/-- Insertion keeps the indices ascending. -/
theorem pairwise_insertEntry {i : Nat} {v : α} {es : List (Nat × α)} (h : es.Pairwise (·.1 < ·.1)) :
    (insertEntry i v es).Pairwise (·.1 < ·.1) := by
  fun_induction insertEntry i v es with
  | case1 => simp
  | case2 j w rest hlt =>
    refine h.cons fun e he => ?_
    rcases List.mem_cons.1 he with rfl | he
    · exact hlt
    · exact Nat.lt_trans hlt ((List.pairwise_cons.1 h).1 e he)
  | case3 w rest hlt => exact h.of_cons.cons (List.pairwise_cons.1 h).1
  | case4 j w rest hlt hne ih =>
    exact (ih h.of_cons).cons (lt_of_mem_insertEntry (by omega) (List.pairwise_cons.1 h).1)

theorem lookupEntry_insertEntry (i k : Nat) (v : α) (es : List (Nat × α)) :
    lookupEntry k (insertEntry i v es) = if k = i then some v else lookupEntry k es := by
  fun_induction insertEntry i v es <;> grind [lookupEntry]

theorem lookupEntry_filter_ne (i k : Nat) (es : List (Nat × α)) :
    lookupEntry k (es.filter (·.1 ≠ i)) = if k = i then none else lookupEntry k es := by
  induction es with
  | nil => simp [lookupEntry]
  | cons e rest ih =>
    obtain ⟨j, w⟩ := e
    by_cases hj : j = i <;> grind [lookupEntry]

/-- Values at some indices, in ascending order of index. -/
structure SparseArray (α : Type) where
  /-- The occupied indices with their values. -/
  entries : List (Nat × α)
  /-- The indices ascend, so none occurs twice. -/
  ascending : entries.Pairwise (·.1 < ·.1)
  deriving DecidableEq, Repr

namespace SparseArray

/-- The array without values. -/
def empty : SparseArray α := ⟨[], .nil⟩

instance : EmptyCollection (SparseArray α) := ⟨empty⟩

instance : Inhabited (SparseArray α) := ⟨empty⟩

/-- The value at an index. -/
def get? (a : SparseArray α) (i : Nat) : Option α := lookupEntry i a.entries

/-- Puts a value at an index, replacing the one that is there. -/
def insert (a : SparseArray α) (i : Nat) (v : α) : SparseArray α :=
  ⟨insertEntry i v a.entries, pairwise_insertEntry a.ascending⟩

/-- Empties an index. -/
def erase (a : SparseArray α) (i : Nat) : SparseArray α :=
  ⟨a.entries.filter (·.1 ≠ i), a.ascending.sublist List.filter_sublist⟩

/-- Empties several indices. -/
def eraseAll (a : SparseArray α) (is : List Nat) : SparseArray α := is.foldl erase a

@[simp] theorem get?_insert (a : SparseArray α) (i k : Nat) (v : α) :
    (a.insert i v).get? k = if k = i then some v else a.get? k :=
  lookupEntry_insertEntry i k v a.entries

@[simp] theorem get?_erase (a : SparseArray α) (i k : Nat) :
    (a.erase i).get? k = if k = i then none else a.get? k :=
  lookupEntry_filter_ne i k a.entries

@[simp] theorem get?_empty (k : Nat) : (∅ : SparseArray α).get? k = none := rfl

/-- The occupied indices, ascending. -/
def indices (a : SparseArray α) : List Nat := a.entries.map (·.1)

/-- The values, by ascending index. -/
def values (a : SparseArray α) : List α := a.entries.map (·.2)

/-- How many indices are occupied. -/
def count (a : SparseArray α) : Nat := a.entries.length

/-- Whether no index is occupied. -/
def isEmpty (a : SparseArray α) : Bool := a.entries.isEmpty

/-- The array of the given entries; of two at one index the later one stays. -/
def ofEntries (es : List (Nat × α)) : SparseArray α := es.foldl (fun a e => a.insert e.1 e.2) ∅

/-- The greatest index that an array has. -/
def greatestIndex : Nat := 0xfffffffffffffffe

/-- Accepts an index that an array has. -/
def checkIndex (i : Nat) : Outcome Unit :=
  if i ≤ greatestIndex then .ok ()
  else .error (.failure (.container .array s!"index {i} out of range for the amt"))

/-- The value at an index that the array has. -/
def read (a : SparseArray α) (i : Nat) : Outcome (Option α) := do
  checkIndex i
  return a.get? i

/-- Puts a value at an index that the array has. -/
def write (a : SparseArray α) (i : Nat) (v : α) : Outcome (SparseArray α) := do
  checkIndex i
  return a.insert i v

/-- Empties an index that the array has, and says whether it was occupied. -/
def remove (a : SparseArray α) (i : Nat) : Outcome (SparseArray α × Bool) := do
  checkIndex i
  return (a.erase i, (a.get? i).isSome)

end SparseArray

end SectorLedger
