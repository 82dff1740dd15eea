/-!
# Why an operation stops

An operation on the ledger ends in a value, in a *fault* (an arithmetic accident: a number out of
range, a division by zero, an index out of bounds) or in a *failure*. A failure is a small tree: at
its leaf stands what went wrong, and around it the layers that the callers added. A leaf with an
exit code is a *refusal*; the code must reach the outermost caller whatever wraps it.

* `Failure.outermost`, `Failure.chain`: the texts shown to a reader.
* `Failure.unwrap`: the refusal inside a failure, if any, looking through layers and boxes.
* `Failure.annotate`, `Failure.refuse`: the two ways a caller adds its own words.
* `Failure.unwrap_annotate_of_refusal`: a refusal keeps its code when words are added.
-/

namespace SectorLedger

/-- The number that classifies a refusal for the outside world. -/
structure ExitCode where
  /-- The number itself. -/
  value : Nat
  deriving DecidableEq, Repr, Inhabited

namespace ExitCode

/-- The caller's input is not acceptable. -/
def illegalArgument : ExitCode := ⟨16⟩

/-- Something asked for does not exist. -/
def notFound : ExitCode := ⟨17⟩

/-- The operation is not allowed now. -/
def forbidden : ExitCode := ⟨18⟩

/-- There is too little money. -/
def insufficientFunds : ExitCode := ⟨19⟩

/-- The recorded state contradicts itself. -/
def illegalState : ExitCode := ⟨20⟩

/-- A value could not be written in its binary form. -/
def serialization : ExitCode := ⟨21⟩

/-- An assertion of the ledger did not hold. -/
def assertionFailed : ExitCode := ⟨24⟩

/-- The miner's balance does not cover what the ledger promises. -/
def balanceInvariantsBroken : ExitCode := ⟨1000⟩

/-- The name of a code. One without a meaning of its own is named by its number. -/
def name (c : ExitCode) : String :=
  match c.value with
  | 16 => "illegal_argument"
  | 17 => "not_found"
  | 18 => "forbidden"
  | 19 => "insufficient_funds"
  | 20 => "illegal_state"
  | 21 => "serialization"
  | 24 => "assertion_failed"
  | 1000 => "balance_invariants_broken"
  | n => s!"exit_{n}"

/-- The codes with a meaning of their own. -/
def named : List ExitCode := [
  illegalArgument, notFound, forbidden, insufficientFunds, illegalState, serialization, assertionFailed,
  balanceInvariantsBroken]

end ExitCode

/-- The two kinds of container that the ledger's contents are kept in. -/
inductive Container where
  /-- A sparse array, keyed by a number. -/
  | array
  /-- A map keyed by bytes. -/
  | map
  deriving DecidableEq, Repr, Inhabited

/-- A refusal: an exit code and the words that go with it. -/
structure Refusal where
  /-- The class of the refusal. -/
  code : ExitCode
  /-- The words that go with it. -/
  text : String
  deriving DecidableEq, Repr, Inhabited

namespace Refusal

/-- Puts a caller's words in front. -/
def wrap (r : Refusal) (msg : String) : Refusal := { r with text := s!"{msg}: {r.text}" }

/-- How a refusal is shown inside another message. -/
def shown (r : Refusal) : String :=
  "ActorError(exit_code: ExitCode \x7b value: " ++ toString r.code.value ++ " \x7d, msg: " ++ r.text ++ ")"

end Refusal

/-- What went wrong, with the layers that callers put around it. -/
inductive Failure where
  /-- A failure with an exit code. -/
  | refused (r : Refusal)
  /-- A failure that is only words. -/
  | plain (text : String)
  /-- A failure of a container itself. -/
  | container (kind : Container) (text : String)
  /-- A failure raised while a container was being walked, carried out of it in a box. -/
  | boxed (kind : Container) (inner : Failure)
  /-- Words put around a failure, which is kept. -/
  | layered (text : String) (inner : Failure)
  deriving DecidableEq, Repr, Inhabited

namespace Failure

/-- The text a reader sees first. -/
def outermost : Failure → String
  | refused r => r.shown
  | plain text => text
  | container _ text => text
  | boxed _ inner => inner.outermost
  | layered text _ => text

/-- All the texts a reader can unfold, outermost first. A box hides the layers inside it. -/
def chain : Failure → List String
  | layered text inner => text :: inner.chain
  | f => [f.outermost]

/-- The failure below the layers of words. -/
def core : Failure → Failure
  | layered _ inner => inner.core
  | f => f

/-- Looks for the refusal inside a failure: through layers of words, and through boxes at any depth.
Without one, the answer is what is left to show: the content of the innermost box, or the container's
own failure without the words around it. -/
def unwrap : Failure → Refusal ⊕ Failure
  | refused r => .inl r
  | plain text => .inr (plain text)
  | container kind text => .inr (container kind text)
  | boxed _ inner => inner.unwrap
  | layered text inner =>
    match inner.core with
    | plain _ => .inr (layered text inner)
    | _ => inner.unwrap

/-- Adds a caller's words without losing a refusal's code. Other layers of words are dropped. -/
def annotate (msg : String) (f : Failure) : Failure :=
  match f.unwrap with
  | .inl r => refused (r.wrap msg)
  | .inr other => plain s!"{msg}: {other.outermost}"

/-- Adds a caller's words and makes a refusal of the result, with the given code unless the failure
already holds one. -/
def refuse (code : ExitCode) (msg : String) (f : Failure) : Refusal :=
  match f.unwrap with
  | .inl r => r.wrap msg
  | .inr other => ⟨code, s!"{msg}: {other.outermost}"⟩

/-- Carries a failure out of a container of the given kind: one that already is of that kind passes
as it is, without the words around it, and any other is put in a box. -/
def box (kind : Container) (f : Failure) : Failure :=
  match f.core with
  | container k text => if k = kind then container k text else boxed kind f
  | boxed k inner => if k = kind then boxed k inner else boxed kind f
  | _ => boxed kind f

/-- Whether the refusal stands directly under the layers of words, in no box. -/
def isRefusal (f : Failure) : Bool :=
  match f.core with
  | refused _ => true
  | _ => false

/-- A refusal keeps its code and gains the words when a caller annotates it. -/
theorem unwrap_annotate_of_refusal {f : Failure} {r : Refusal} (msg : String) (h : f.unwrap = .inl r) :
    (f.annotate msg).unwrap = .inl (r.wrap msg) := by
  simp [annotate, h, unwrap]

/-- Without a refusal inside, annotating yields words alone. -/
theorem unwrap_annotate_of_other {f g : Failure} (msg : String) (h : f.unwrap = .inr g) :
    (f.annotate msg).unwrap = .inr (plain s!"{msg}: {g.outermost}") := by
  simp [annotate, h, unwrap]

end Failure

/-- Why an operation ends without a value. -/
inductive Stop where
  /-- An arithmetic accident, or an index out of bounds. -/
  | fault
  /-- A failure with words for the caller. -/
  | failure (f : Failure)
  deriving DecidableEq, Repr, Inhabited

/-- The result of an operation that can stop early. -/
abbrev Outcome (α : Type) : Type := Except Stop α

variable {α β : Type}

/-- Stops with a refusal. -/
def refused (code : ExitCode) (text : String) : Outcome α := .error (.failure (.refused ⟨code, text⟩))

/-- Stops with words alone. -/
def failed (text : String) : Outcome α := .error (.failure (.plain text))

/-- Changes the failure, if there is one. A fault passes through. -/
def onFailure (g : Failure → Failure) : Outcome α → Outcome α
  | .error (.failure f) => .error (.failure (g f))
  | x => x

/-- Runs an operation whose failures the caller annotates with its own words. -/
def noting (msg : String) (x : Outcome α) : Outcome α := onFailure (Failure.annotate msg) x

/-- Runs an operation whose failures the caller turns into refusals, with the given code unless they
already carry one. -/
def refusing (code : ExitCode) (msg : String) (x : Outcome α) : Outcome α :=
  onFailure (fun f => .refused (f.refuse code msg)) x

/-- Runs an operation around whose failures the caller puts a layer of words. -/
def layering (msg : String) (x : Outcome α) : Outcome α := onFailure (Failure.layered msg) x

/-- Runs an operation inside the walk of a container, which carries its failures out in a box. -/
def within (kind : Container) (x : Outcome α) : Outcome α := onFailure (Failure.box kind) x

/-- Goes on only if the condition holds. -/
def require (condition : Bool) (otherwise : Outcome Unit) : Outcome Unit :=
  if condition then .ok () else otherwise

/-- Continues with the values of a list in order, and stops at the first that stops. -/
def foldOutcome (f : β → α → Outcome β) : β → List α → Outcome β
  | b, [] => .ok b
  | b, a :: as =>
    match f b a with
    | .ok b' => foldOutcome f b' as
    | .error e => .error e

end SectorLedger
