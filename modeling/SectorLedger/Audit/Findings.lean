import SectorLedger.NumberSet

/-!
# Audits

An audit looks through a record and writes down every contradiction that it finds, instead of stopping at
the first. A part that cannot be loaded is written down too. Only a fault stops an audit.

* `Audit`: a computation that collects findings in order.
* `Audit.note`, `expect`, `attempt`, `under`: a finding, always, on a condition, for a part that cannot be
  loaded, or with words in front.
* `Audit.bind_eq_clean_iff`: an audit without findings has none in any of its parts.
-/

namespace SectorLedger

variable {α β : Type}

/-- A computation that collects findings, in order, beside its value. -/
def Audit (α : Type) : Type := Outcome (List String × α)

namespace Audit

/-- The findings and the value of an audit. -/
def run (x : Audit α) : Outcome (List String × α) := x

/-- The audit that finds nothing. -/
protected def pure (a : α) : Audit α := (.ok ([], a) : Outcome _)

/-- Runs an audit, then another that depends on its value. The first one's findings come first. -/
protected def bind (x : Audit α) (f : α → Audit β) : Audit β :=
  match x.run with
  | .error e => (.error e : Outcome _)
  | .ok (found, a) => (Except.map (Prod.map (found ++ ·) id) (f a).run : Outcome _)

instance : Monad Audit where
  pure := Audit.pure
  bind := Audit.bind

/-- A computation that finds nothing. -/
protected def lift (x : Outcome α) : Audit α :=
  match x with
  | .error e => (.error e : Outcome _)
  | .ok a => (.ok ([], a) : Outcome _)

instance : MonadLift Outcome Audit where
  monadLift := Audit.lift

/-- Writes down a finding. -/
def note (finding : String) : Audit Unit := (.ok ([finding], ()) : Outcome _)

/-- Writes down a finding unless the condition holds. Its words are put together only when they are needed,
as they may list sets of any size. -/
@[macro_inline] def expect (condition : Bool) (finding : String) : Audit Unit :=
  if condition then pure () else note finding

/-- Puts words in front of every finding. -/
def under (words : String) (x : Audit α) : Audit α :=
  match x.run with
  | .error e => (.error e : Outcome _)
  | .ok (found, a) => (.ok (found.map (words ++ ·), a) : Outcome _)

/-- Goes on with the value of an operation. If it fails, that is a finding, and the audit ends with the
fallback. -/
def attempt (words : String) (fallback : α) (x : Outcome β) (k : β → Audit α) : Audit α :=
  match x with
  | .ok b => k b
  | .error (.failure f) => do note s!"{words}: {f.outermost}"; return fallback
  | .error .fault => (.error .fault : Outcome _)

/-- Expects the first set to contain the second. -/
def expectContainsAll (s t : NumberSet) (words : String) : Audit Unit :=
  expect (s.containsAll t) s!"{words}: {NumberSet.shownList s.elements}, {NumberSet.shownList t.elements}"

/-- Expects the two sets to have no common member. -/
def expectDisjoint (s t : NumberSet) (words : String) : Audit Unit :=
  expect (!s.containsAny t) s!"{words}: {NumberSet.shownList s.elements}, {NumberSet.shownList t.elements}"

/-- Expects the two sets to be equal. Only one of the two directions is written down. -/
def expectEqual (s t : NumberSet) (words : String) : Audit Unit := do
  expectContainsAll s t words
  if s.containsAll t then
    expectContainsAll t s words

/-- An audit without findings has none in any of its parts. -/
theorem bind_eq_clean_iff {x : Audit α} {f : α → Audit β} {b : β} :
    (x >>= f).run = .ok ([], b) ↔ ∃ a, x.run = .ok ([], a) ∧ (f a).run = .ok ([], b) := by
  change (Audit.bind x f).run = _ ↔ _
  unfold Audit.bind
  generalize x.run = result
  rcases result with e | ⟨found, a⟩
  · simp [run]
  · change Except.map (Prod.map (found ++ ·) id) (f a).run = _ ↔ _
    generalize hf : (f a).run = result
    rcases result with e | ⟨more, c⟩ <;> simp [Except.map] <;> grind

/-- An expectation finds nothing exactly when its condition holds. -/
theorem expect_eq_clean_iff {condition : Bool} {finding : String} :
    (expect condition finding).run = .ok ([], ()) ↔ condition = true := by
  unfold expect
  split
  · simp_all [run, pure, Audit.pure]
  · simp_all [run, note]

end Audit

end SectorLedger
