import SectorLedger.Failure

/-!
# Handing failures on

A failure travels through callers in one of three forms: as a refusal, in general form, or as a
container's own. Each caller may add words, change the form, or make a refusal of it. Adding words to a
refusal, or carrying it out of a container, never changes its code; only a caller that classifies a failure
anew by its text loses it.

* `Carried`, `Handling`: the forms, and what a caller may do.
* `Handling.apply`: the form that results.
-/

namespace SectorLedger

/-- A failure on its way, in the form in which callers hand it on. -/
inductive Carried where
  /-- A refusal. -/
  | refusal (r : Refusal)
  /-- The general form. -/
  | general (f : Failure)
  /-- The form in which a container fails. -/
  | contained (kind : Container) (f : Failure)
  deriving DecidableEq, Repr

namespace Carried

/-- The failure in general form. -/
def failure : Carried → Failure
  | refusal r => .refused r
  | general f => f
  | contained _ f => f

end Carried

/-- What a caller may do with a failure. -/
inductive Handling where
  /-- Puts words in front of a refusal. -/
  | wrap (words : String)
  /-- Brings the failure into general form. -/
  | generalize
  /-- Carries the failure out of a container. -/
  | carryOut (kind : Container)
  /-- Adds words without losing a refusal's code. -/
  | annotate (words : String)
  /-- Makes a refusal with words, and with the code only if the failure holds none. -/
  | refuse (code : ExitCode) (words : String)
  /-- Makes a refusal with the code of the failure's text, after words if there are any. -/
  | classify (code : ExitCode) (words : Option String)
  deriving DecidableEq, Repr

namespace Handling

/-- What becomes of a failure. Only a refusal can be wrapped. -/
def apply (c : Carried) : Handling → Option Carried
  | wrap words =>
    match c with
    | .refusal r => some (.refusal (r.wrap words))
    | _ => none
  | generalize => some (.general c.failure)
  | carryOut kind => some (.contained kind (c.failure.box kind))
  | annotate words => some (.general (c.failure.annotate words))
  | refuse code words => some (.refusal (c.failure.refuse code words))
  | classify code none => some (.refusal ⟨code, c.failure.outermost⟩)
  | classify code (some words) => some (.refusal ⟨code, s!"{words}: {c.failure.outermost}"⟩)

/-- What becomes of a failure that several callers handle in turn. -/
def applyAll (c : Carried) (hs : List Handling) : Option Carried := hs.foldlM apply c

end Handling

end SectorLedger
