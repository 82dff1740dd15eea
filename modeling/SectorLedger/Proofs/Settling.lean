import SectorLedger.Partition
import SectorLedger.Proofs.Terminations

/-!
# Settling what is pending, part by part

A partition has a queue of terminations to settle, a deadline has partitions, and a miner has deadlines. At each level
some of what is pending is taken, within limits, and at each level the same has to be true of it. A level that consists
of parts keeps flags on those with something in their queues; it goes through them in order, takes from each within
what is left of the limits, and takes back the flags of those that have nothing left.

* `Workload`: what there is to settle at one level. `Worked`: what one call does.
* `InOrder`: the flags are right, and no pair is pending in two parts.
* `Sweep.Ran`: the parts at some positions have been gone through. `Sweep.Ran.step`, `Sweep.visit_total`: one part
  more, and the whole sweep.
* `ExactlyOnce`, `exactlyOnce_of_calls`: a sequence of calls takes each pair exactly once.
-/

namespace SectorLedger

/-- What there is to settle at one level. -/
structure Workload (α : Type) where
  /-- The sector ended at the epoch and waits to be settled. -/
  Pending : α → Int → Nat → Prop
  /-- Nothing is queued. -/
  Drained : α → Prop
  /-- How many entries and sectors are queued. -/
  backlog : α → Int
  /-- The partition to which a path of positions leads. -/
  partitionAt : α → List Nat → Option Partition
  /-- The records are in order. -/
  Ready : α → Prop
  /-- Nothing differs but what is queued. -/
  Same : α → α → Prop
  same_refl : ∀ a, Same a a
  same_trans : ∀ {a b c}, Same a b → Same b c → Same a c
  not_pending : ∀ {a}, Drained a → ∀ e n, ¬Pending a e n
  backlog_nonneg : ∀ a, 0 ≤ backlog a

variable {α : Type}

/-- A part that keeps all but what is queued may take the place of another. -/
theorem Workload.rel_some (W : Workload α) {x : Option α} {a a' : α} (h : Option.Rel W.Same x (some a))
    (ha : W.Same a a') : Option.Rel W.Same x (some a') := by
  cases h with
  | some h => exact .some (W.same_trans h ha)

/-- At most so many partitions differ. -/
def Workload.Changed (W : Workload α) (a a' : α) (count : Nat) : Prop :=
  ∃ paths : List (List Nat), paths.length ≤ count ∧ ∀ path ∉ paths, W.partitionAt a' path = W.partitionAt a path

/-- What one call does: it takes some of what is pending, within limits, and tells whether more is queued. -/
structure Worked (W : Workload α) (maxPartitions maxSectors : Nat) (a a' : α) (t : Terminations) (more : Bool) :
    Prop where
  /-- What was pending is taken or left. -/
  taken : Taken (W.Pending a) (W.Pending a') t
  /-- Not too many partitions are gone through. -/
  partitions_le : t.partitions ≤ maxPartitions
  /-- All others are as they were. -/
  changed : W.Changed a a' t.partitions
  /-- Not too many sectors are taken. -/
  processed_le : t.processed ≤ maxSectors
  /-- The flag tells whether more is queued. -/
  more_iff : more = false ↔ W.Drained a'
  /-- If something was queued, less is queued now. -/
  progress : ¬W.Drained a → W.backlog a' < W.backlog a
  /-- The records stay in order. -/
  ready : W.Ready a'
  /-- Nothing else changes. -/
  same : W.Same a a'

namespace Worked

variable {W : Workload α} {a a' : α} {t : Terminations} {more : Bool} {maxPartitions maxSectors : Nat}

/-- Where nothing is queued, nothing is done. -/
theorem drained (hready : W.Ready a) (hempty : W.Drained a) : Worked W maxPartitions maxSectors a a {} false where
  taken := .none _ rfl rfl
  partitions_le := Nat.zero_le _
  changed := ⟨[], le_rfl, fun _ _ => rfl⟩
  processed_le := Nat.zero_le _
  more_iff := iff_of_true rfl hempty
  progress h := absurd hempty h
  ready := hready
  same := W.same_refl a

end Worked

/-! ### Parts -/

/-- The pair is pending in the part at the position. -/
def PendingAt (W : Workload α) (view : Nat → Option α) (i : Nat) (e : Int) (n : Nat) : Prop :=
  ∃ a, view i = some a ∧ W.Pending a e n

/-- The pair is pending in some part. -/
def PendingIn (W : Workload α) (view : Nat → Option α) (e : Int) (n : Nat) : Prop := ∃ i, PendingAt W view i e n

/-- Nothing is queued in any part. -/
def DrainedIn (W : Workload α) (view : Nat → Option α) : Prop := ∀ i a, view i = some a → W.Drained a

/-- The partition to which a path of positions leads, of which the first is that of the part. -/
def partitionIn (W : Workload α) (view : Nat → Option α) : List Nat → Option Partition
  | [] => none
  | i :: path => (view i).bind (W.partitionAt · path)

/-- At most so many partitions differ in the parts. -/
def ChangedIn (W : Workload α) (view view' : Nat → Option α) (count : Nat) : Prop :=
  ∃ paths : List (List Nat), paths.length ≤ count ∧ ∀ path ∉ paths, partitionIn W view' path = partitionIn W view path

/-- The parts differ at most in what is queued. -/
def SameIn (W : Workload α) (view view' : Nat → Option α) : Prop := ∀ i, Option.Rel W.Same (view i) (view' i)

section Parts

variable {W : Workload α} {view view' view'' : Nat → Option α} {i j : Nat} {a : α}

theorem not_pendingIn (h : DrainedIn W view) (e : Int) (n : Nat) : ¬PendingIn W view e n :=
  fun ⟨i, a, ha, hpending⟩ => W.not_pending (h i a ha) e n hpending

theorem ChangedIn.refl (W : Workload α) (view : Nat → Option α) (count : Nat) : ChangedIn W view view count :=
  ⟨[], Nat.zero_le _, fun _ _ => rfl⟩

/-- What changes in a part changes in the whole. -/
theorem ChangedIn.update {count count' : Nat} (h : ChangedIn W view view' count) (ha : view' i = some a) {a' : α}
    (ha' : W.Changed a a' count') : ChangedIn W view (Function.update view' i (some a')) (count + count') := by
  obtain ⟨paths, hlength, hother⟩ := h
  obtain ⟨more, hlength', hother'⟩ := ha'
  refine ⟨paths ++ more.map (i :: ·), by rw [List.length_append, List.length_map]; omega, fun path hpath => ?_⟩
  rw [List.mem_append, not_or] at hpath
  rw [← hother path hpath.1]
  cases path with
  | nil => rfl
  | cons j path =>
    by_cases hj : j = i
    · subst hj
      have hnew : path ∉ more := fun hmem => hpath.2 (List.mem_map_of_mem hmem)
      simp only [partitionIn, Function.update_self, ha, Option.bind_some, hother' path hnew]
    · simp only [partitionIn, Function.update_of_ne hj]

theorem SameIn.refl (W : Workload α) (view : Nat → Option α) : SameIn W view view := fun i => by
  cases view i with
  | none => exact .none
  | some a => exact .some (W.same_refl a)

theorem SameIn.trans (h : SameIn W view view') (h' : SameIn W view' view'') : SameIn W view view'' := fun i => by
  have hi := h i
  have hi' := h' i
  generalize view' i = x at hi hi'
  generalize view'' i = y at hi' ⊢
  cases hi' with
  | none => exact hi
  | some hsame => exact W.rel_some hi hsame

/-- The same parts are there. -/
theorem SameIn.exists_iff (h : SameIn W view view') (i : Nat) : (∃ a, view i = some a) ↔ ∃ a, view' i = some a := by
  have hi := h i
  generalize view i = x at hi ⊢
  generalize view' i = y at hi ⊢
  cases hi <;> simp

theorem pendingAt_of_view (h : view i = some a) : PendingAt W view i = W.Pending a :=
  funext₂ fun e n => propext (by simp [PendingAt, h])

theorem pendingAt_update_self : PendingAt W (Function.update view i (some a)) i = W.Pending a :=
  pendingAt_of_view (Function.update_self i _ view)

theorem pendingAt_update_of_ne (h : j ≠ i) :
    PendingAt W (Function.update view i (some a)) j = PendingAt W view j :=
  funext₂ fun e n => by rw [PendingAt, PendingAt, Function.update_of_ne h]

end Parts

/-- The parts are in order and flagged as they should be, and no pair is pending in two of them. -/
structure InOrder (W : Workload α) (flags : NumberSet) (view : Nat → Option α) : Prop where
  /-- Each part is in order. -/
  ready : ∀ i a, view i = some a → W.Ready a
  /-- The flags tell which parts have something queued. -/
  flagged : ∀ i, i ∈ flags ↔ ∃ a, view i = some a ∧ ¬W.Drained a
  /-- No sector is queued under the same epoch in two parts. -/
  once : ∀ i j e n, PendingAt W view i e n → PendingAt W view j e n → i = j

/-- The parts with nothing queued are those without a flag. -/
theorem InOrder.eq_empty_iff {W : Workload α} {flags : NumberSet} {view : Nat → Option α}
    (h : InOrder W flags view) : flags = ∅ ↔ DrainedIn W view := by
  simp only [DrainedIn, NumberSet.eq_empty_iff, h.flagged, not_exists, not_and, not_not]

/-! ### A sweep through the parts -/

/-- What a sweep through the parts works on. -/
structure Sweep (α : Type) where
  /-- The parts by position. -/
  view : Nat → Option α
  /-- How much is queued in them. -/
  backlog : Int
  /-- The parts that have nothing left. -/
  drained : NumberSet := ∅
  /-- What was taken. -/
  taken : Terminations := {}

namespace Sweep

variable {W : Workload α} {s s₀ : Sweep α} {done : List Nat} {flags : NumberSet} {t u : Terminations} {i j : Nat}
  {a a' : α} {more : Bool} {maxPartitions maxSectors : Nat}

/-- One part has been gone through. -/
def put (W : Workload α) (s : Sweep α) (i : Nat) (a a' : α) (more : Bool) (t : Terminations) : Sweep α where
  view := Function.update s.view i (some a')
  backlog := s.backlog + (W.backlog a' - W.backlog a)
  drained := if more then s.drained else s.drained ∪ NumberSet.singleton i
  taken := t

@[simp] theorem view_put : (s.put W i a a' more t).view = Function.update s.view i (some a') := rfl

@[simp] theorem backlog_put : (s.put W i a a' more t).backlog = s.backlog + (W.backlog a' - W.backlog a) := rfl

@[simp] theorem taken_put : (s.put W i a a' more t).taken = t := rfl

theorem mem_drained_put (hw : more = false ↔ W.Drained a') :
    j ∈ (s.put W i a a' more t).drained ↔ j ∈ s.drained ∨ (j = i ∧ W.Drained a') := by
  cases more with
  | true => simp [put, ← hw]
  | false => simp [put, ← hw]

/-- The parts at the given positions have been gone through. -/
structure Ran (W : Workload α) (s₀ s : Sweep α) (done : List Nat) : Prop where
  /-- Each part is in order. -/
  ready : ∀ i a, s.view i = some a → W.Ready a
  /-- Nothing differs but what is queued. -/
  same : SameIn W s₀.view s.view
  /-- The other parts are as they were. -/
  untouched : ∀ i ∉ done, s.view i = s₀.view i
  /-- Parts that have nothing left. -/
  drained : ∀ i, i ∈ s.drained ↔ i ∈ done ∧ ∃ a, s.view i = some a ∧ W.Drained a
  /-- No pair is pending in two parts. -/
  once : ∀ i j e n, PendingAt W s.view i e n → PendingAt W s.view j e n → i = j
  /-- What was pending is taken or left. -/
  taken : Taken (PendingIn W s₀.view) (PendingIn W s.view) s.taken
  /-- No more partitions than counted differ. -/
  changed : ChangedIn W s₀.view s.view s.taken.partitions
  /-- With each part less is queued. -/
  backlog_le : s.backlog + done.length ≤ s₀.backlog

namespace Ran

/-- No part has been gone through. -/
theorem start (h : InOrder W flags s.view) (hdrained : s.drained = ∅) (htaken : s.taken = {}) : Ran W s s [] where
  ready := h.ready
  same := .refl W s.view
  untouched _ _ := rfl
  drained i := by simp [hdrained]
  once := h.once
  taken := .none _ (by rw [htaken]) (by rw [htaken])
  changed := .refl W s.view _
  backlog_le := by simp

/-- What is pending in the part that is gone through is taken or left. -/
theorem taken_part (ha : s.view i = some a) (hw : Worked W maxPartitions maxSectors a a' u more) :
    Taken (PendingAt W s.view i) (PendingAt W (Function.update s.view i (some a')) i) u := by
  rw [pendingAt_of_view ha, pendingAt_update_self]
  exact hw.taken

/-- What is taken from the part can be added to what was taken. -/
theorem add (h : Ran W s₀ s done) (ha : s.view i = some a) (hw : Worked W maxPartitions maxSectors a a' u more)
    (hpartitions : s.taken.partitions + maxPartitions < Count.bound)
    (hprocessed : s.taken.processed + maxSectors < Count.bound) :
    ∃ t, s.taken.add u = .ok t ∧ t.partitions = s.taken.partitions + u.partitions ∧
      t.processed = s.taken.processed + u.processed ∧
      Taken (PendingIn W s₀.view) (PendingIn W (Function.update s.view i (some a'))) t := by
  have hle := hw.partitions_le
  have hle' := hw.processed_le
  exact h.taken.add ((taken_part ha hw).lift (fun j hj => pendingAt_update_of_ne hj) fun j e n hj hi =>
    h.once j i e n hj hi) (by omega) (by omega)

/-- **One part more is gone through.** -/
theorem step (h : Ran W s₀ s done) (hi : i ∉ done) (ha : s.view i = some a) (hbusy : ¬W.Drained a)
    (hw : Worked W maxPartitions maxSectors a a' u more)
    (hcount : t.partitions = s.taken.partitions + u.partitions)
    (htaken : Taken (PendingIn W s₀.view) (PendingIn W (Function.update s.view i (some a'))) t) :
    Ran W s₀ (s.put W i a a' more t) (done ++ [i]) where
  ready j c hj := by
    by_cases hji : j = i
    · subst hji
      obtain rfl := Option.some.inj ((Function.update_self j _ s.view).symm.trans hj)
      exact hw.ready
    · exact h.ready j c ((Function.update_of_ne hji _ s.view).symm.trans hj)
  same j := by
    rw [view_put]
    by_cases hji : j = i
    · subst hji
      rw [Function.update_self]
      exact W.rel_some (ha ▸ h.same j) hw.same
    · rw [Function.update_of_ne hji]
      exact h.same j
  untouched j hj := by
    rw [List.mem_append, List.mem_singleton, not_or] at hj
    rw [view_put, Function.update_of_ne hj.2, h.untouched j hj.1]
  drained j := by
    rw [mem_drained_put hw.more_iff, h.drained, List.mem_append, List.mem_singleton]
    by_cases hji : j = i
    · subst hji
      simp [hi]
    · simp [hji]
  once j k e n hj hk := by
    have hsub : ∀ j, PendingAt W (s.put W i a a' more t).view j e n → PendingAt W s.view j e n := fun j hj => by
      by_cases hji : j = i
      · subst hji
        exact (taken_part ha hw).of_left hj
      · rwa [view_put, pendingAt_update_of_ne hji] at hj
    exact h.once j k e n (hsub j hj) (hsub k hk)
  taken := htaken
  changed := by
    rw [taken_put, hcount, view_put]
    exact h.changed.update ha hw.changed
  backlog_le := by
    have hprogress := hw.progress hbusy
    have hbacklog := h.backlog_le
    rw [List.length_append, List.length_singleton, backlog_put]
    push_cast
    omega

/-- In the end the flags that are left are right again. -/
theorem inOrder (h : Ran W s₀ s done) (h₀ : InOrder W flags s₀.view) (hdone : ∀ i ∈ done, i ∈ flags) :
    InOrder W (flags \ s.drained) s.view where
  ready := h.ready
  flagged i := by
    rw [NumberSet.mem_sdiff, h.drained]
    by_cases hi : i ∈ done
    · have hflag := hdone i hi
      obtain ⟨a₀, ha₀, -⟩ := (h₀.flagged i).1 hflag
      obtain ⟨a, ha⟩ := (h.same.exists_iff i).1 ⟨a₀, ha₀⟩
      simp [hi, hflag, ha]
    · rw [h₀.flagged, h.untouched i hi]
      simp [hi]
  once := h.once

end Ran

/-- What a whole sweep does. -/
structure Swept (W : Workload α) (flags : NumberSet) (maxPartitions maxSectors : Nat) (s₀ s : Sweep α) : Prop where
  /-- The flags that are left are right again. -/
  inOrder : InOrder W (flags \ s.drained) s.view
  /-- What was pending is taken or left. -/
  taken : Taken (PendingIn W s₀.view) (PendingIn W s.view) s.taken
  /-- Not too many partitions are gone through. -/
  partitions_le : s.taken.partitions ≤ maxPartitions
  /-- All others are as they were. -/
  changed : ChangedIn W s₀.view s.view s.taken.partitions
  /-- Not too many sectors are taken. -/
  processed_le : s.taken.processed ≤ maxSectors
  /-- Nothing differs but what is queued. -/
  same : SameIn W s₀.view s.view
  /-- If something was queued, less is queued now. -/
  progress : ¬DrainedIn W s₀.view → s.backlog < s₀.backlog

/-- Nothing is queued if no flag is left. -/
theorem Swept.more_iff (h : Swept W flags maxPartitions maxSectors s₀ s) :
    (!(flags \ s.drained).isEmpty) = false ↔ DrainedIn W s.view := by
  rw [Bool.not_eq_false', NumberSet.isEmpty_iff, h.inOrder.eq_empty_iff]

/-- A sweep that gets past the first flagged part makes what is queued less. -/
theorem Ran.progress (h : Ran W s₀ s done) (h₀ : InOrder W flags s₀.view) (hdone : flags.elements ≠ [] → done ≠ [])
    (hbusy : ¬DrainedIn W s₀.view) : s.backlog < s₀.backlog := by
  have hflags : flags.elements ≠ [] := fun hnil => hbusy <| h₀.eq_empty_iff.1 <| NumberSet.eq_empty_iff.2 fun n hn => by
    rw [← NumberSet.mem_elements, hnil] at hn
    cases hn
  have hlength := List.length_pos_iff.2 (hdone hflags)
  have hbacklog := h.backlog_le
  omega

/-- **A sweep goes through the flagged parts until a limit is reached.** Each part is offered what is left of the
limits. -/
theorem visit_total {σ : Type} {f : σ → Nat → Outcome (σ × Bool)} (sweep : σ → Sweep α) {x : σ}
    (h : InOrder W flags (sweep x).view) (hdrained : (sweep x).drained = ∅) (htaken : (sweep x).taken = {})
    (hpartitions : 0 < maxPartitions ∧ maxPartitions < Count.bound)
    (hsectors : 0 < maxSectors ∧ maxSectors < Count.bound)
    (hstep : ∀ x, ∀ i ∈ flags, ∀ a, (sweep x).view i = some a → W.Ready a →
      (sweep x).taken.partitions < maxPartitions → (sweep x).taken.processed < maxSectors → ∃ a' u more,
        Worked W (maxPartitions - (sweep x).taken.partitions) (maxSectors - (sweep x).taken.processed) a a' u more ∧
        ∀ t, (sweep x).taken.add u = .ok t → ∃ x', f x i = .ok (x', t.belowLimit maxPartitions maxSectors) ∧
          sweep x' = (sweep x).put W i a a' more t) :
    ∃ x', flags.foldWhile f x = .ok x' ∧ Swept W flags maxPartitions maxSectors (sweep x) (sweep x') := by
  obtain ⟨done, rest, x', hsplit, hdone, hvisit, hran, hle, hle'⟩ := NumberSet.visitWhile_total (f := f) (b := x)
    flags.elements
    (fun done y => Ran W (sweep x) (sweep y) done ∧ (sweep y).taken.partitions ≤ maxPartitions ∧
      (sweep y).taken.processed ≤ maxSectors)
    (fun y => (sweep y).taken.partitions < maxPartitions ∧ (sweep y).taken.processed < maxSectors)
    ⟨.start h hdrained htaken, by simp [htaken], by simp [htaken]⟩ (by simp [htaken, hpartitions.1, hsectors.1])
    (by
      intro done i rest y hsplit hI hgoing
      obtain ⟨hran, -, -⟩ := hI
      obtain ⟨hgo, hgo'⟩ := hgoing
      have hi : i ∉ done := NumberSet.not_mem_of_elements_eq hsplit
      have hflag : i ∈ flags := NumberSet.mem_elements.1 (by rw [hsplit]; simp)
      obtain ⟨a, ha, hempty⟩ := (h.flagged i).1 hflag
      rw [← hran.untouched i hi] at ha
      obtain ⟨a', u, more, hw, hf⟩ := hstep y i hflag a ha (hran.ready i a ha) hgo hgo'
      obtain ⟨t, hadd, hp, hs, htaken⟩ := hran.add ha hw (by omega) (by omega)
      obtain ⟨y', hy', hput⟩ := hf t hadd
      have hle := hw.partitions_le
      have hle' := hw.processed_le
      refine ⟨y', _, hy', ?_, ?_⟩
      · rw [hput]
        refine ⟨hran.step hi ha hempty hw hp htaken, ?_, ?_⟩ <;>
          simp only [taken_put] <;>
          omega
      · rw [hput]
        simp [Terminations.belowLimit])
  refine ⟨x', by rw [NumberSet.foldWhile_eq, hvisit], ?_, hran.taken, hle, hran.changed, hle',
    hran.same, hran.progress h hdone⟩
  exact hran.inOrder h fun i hi => NumberSet.mem_elements.1 (by rw [hsplit]; simp [hi])

end Sweep

/-! ### One call after another -/

/-- The lists of a sequence of calls hold each pair that was pending exactly once, as soon as nothing is queued. That
comes about. -/
structure ExactlyOnce (W : Workload α) (states : Nat → α) (lists : Nat → Terminations) : Prop where
  /-- What was pending has been listed by some call, or is left. -/
  split : ∀ r e n, W.Pending (states 0) e n ↔ (∃ i < r, (lists i).Lists e n) ∨ W.Pending (states r) e n
  /-- What has been listed is not left. -/
  apart : ∀ i r, i < r → ∀ e n, (lists i).Lists e n → ¬W.Pending (states r) e n
  /-- No pair is listed by two calls. -/
  disjoint : ∀ i j, i ≠ j → ∀ e n, (lists i).Lists e n → ¬(lists j).Lists e n
  /-- When nothing is queued, exactly the pairs that were pending have been listed. -/
  complete : ∀ r, W.Drained (states r) → ∀ e n, W.Pending (states 0) e n ↔ ∃ i < r, (lists i).Lists e n
  /-- After some calls nothing is queued. -/
  ends : ∃ r : Nat, (r : Int) ≤ W.backlog (states 0) ∧ W.Drained (states r)

section Calls

variable {W : Workload α} {limits : Nat → Nat × Nat} {states : Nat → α} {lists : Nat → Terminations}
  {more : Nat → Bool}

/-- As long as something is queued, each call makes it less. -/
theorem backlog_le_of_calls
    (h : ∀ i, Worked W (limits i).1 (limits i).2 (states i) (states (i + 1)) (lists i) (more i)) {r : Nat}
    (hbusy : ∀ i < r, ¬W.Drained (states i)) : W.backlog (states r) + r ≤ W.backlog (states 0) := by
  induction r with
  | zero => simp
  | succ r ih =>
    have hrest := ih fun i hi => hbusy i (Nat.lt_succ_of_lt hi)
    have hprogress := (h r).progress (hbusy r (Nat.lt_succ_self r))
    push_cast
    omega

/-- **Each pair is taken exactly once.** -/
theorem exactlyOnce_of_calls
    (h : ∀ i, Worked W (limits i).1 (limits i).2 (states i) (states (i + 1)) (lists i) (more i)) :
    ExactlyOnce W states lists := by
  have hsplit : ∀ r e n, W.Pending (states 0) e n ↔ (∃ i < r, (lists i).Lists e n) ∨ W.Pending (states r) e n := by
    intro r e n
    induction r with
    | zero => simp
    | succ r ih =>
      rw [ih, (h r).taken.split]
      simp only [Nat.lt_succ_iff_lt_or_eq, or_and_right, exists_or, exists_eq_left, or_assoc]
  have hapart : ∀ i r, i < r → ∀ e n, (lists i).Lists e n → ¬W.Pending (states r) e n := by
    intro i r hir e n hl
    induction r with
    | zero => exact absurd hir (Nat.not_lt_zero i)
    | succ r ih =>
      rcases Nat.lt_succ_iff_lt_or_eq.1 hir with hlt | rfl
      · exact fun hp => ih hlt ((h r).taken.of_left hp)
      · exact (h i).taken.apart e n hl
  -- a call lists only what was pending before it, so nothing that an earlier call listed
  have hlater : ∀ i j, i < j → ∀ e n, (lists i).Lists e n → ¬(lists j).Lists e n := fun i j hij e n hi hj =>
    hapart i j hij e n hi (((h j).taken.split e n).2 (.inl hj))
  refine ⟨hsplit, hapart, fun i j hij e n hi hj => ?_, fun r hempty e n => ?_, ?_⟩
  · rcases Nat.lt_or_gt_of_ne hij with hlt | hlt
    · exact hlater i j hlt e n hi hj
    · exact hlater j i hlt e n hj hi
  · rw [hsplit r, or_iff_left (W.not_pending hempty e n)]
  · by_contra hno
    push Not at hno
    obtain ⟨b, hb⟩ := Int.eq_ofNat_of_zero_le (W.backlog_nonneg (states 0))
    have hle := backlog_le_of_calls h (r := b + 1) fun i hi => hno i (by omega)
    have hnonneg := W.backlog_nonneg (states (b + 1))
    push_cast at hle
    omega

/-- A call that can be made in every state can be made again and again. -/
theorem exists_calls {call : Nat → α → Outcome (α × Terminations × Bool)}
    (h : ∀ i a, W.Ready a → ∃ a' t more, call i a = .ok (a', t, more) ∧
      Worked W (limits i).1 (limits i).2 a a' t more) {a : α} (ha : W.Ready a) :
    ∃ (states : Nat → α) (lists : Nat → Terminations) (more : Nat → Bool), states 0 = a ∧
      (∀ i, call i (states i) = .ok (states (i + 1), lists i, more i) ∧
        Worked W (limits i).1 (limits i).2 (states i) (states (i + 1)) (lists i) (more i)) ∧
      ExactlyOnce W states lists := by
  have : Nonempty (α × Terminations × Bool) := ⟨(a, {}, false)⟩
  have hstep : ∀ i a, W.Ready a → ∃ r : α × Terminations × Bool,
      call i a = .ok r ∧ Worked W (limits i).1 (limits i).2 a r.1 r.2.1 r.2.2 := fun i a ha =>
    let ⟨a', t, more, hcall, hw⟩ := h i a ha
    ⟨(a', t, more), hcall, hw⟩
  choose! next hnext using hstep
  let states : Nat → α := fun i => Nat.rec a (fun i b => (next i b).1) i
  have hready : ∀ i, W.Ready (states i) := by
    intro i
    induction i with
    | zero => exact ha
    | succ i ih => exact (hnext i _ ih).2.ready
  have hcalls := fun i => hnext i (states i) (hready i)
  exact ⟨states, fun i => (next i (states i)).2.1, fun i => (next i (states i)).2.2, rfl, hcalls,
    exactlyOnce_of_calls fun i => (hcalls i).2⟩

end Calls

end SectorLedger
