import SectorLedger.Failure

/-!
# References into the store

The parts of a miner's record are kept apart and found through references. All that matters of the
store is whether it still has what a reference leads to. Writing to it is taken to succeed, also for a set
of numbers whose encoding has more bytes than one may have (`NumberSet.sizeMax`): what is written is there
afterwards.
-/

namespace SectorLedger

variable {α : Type}

/-- What a reference into the store leads to: the contents, or nothing because the store lost them. -/
inductive Stored (α : Type) where
  /-- The contents. -/
  | held (contents : α)
  /-- The store does not have them. -/
  | missing
  deriving DecidableEq, Repr, Inhabited

namespace Stored

/-- The contents of a container. Without them the container itself fails. -/
def load (kind : Container) : Stored α → Outcome α
  | held contents => .ok contents
  | missing => .error (.failure (.container kind "Cid (<cid>) did not match any in database"))

/-- The contents of a single object, which the refusal calls `what`. -/
def fetch (what : String) : Stored α → Outcome α
  | held contents => .ok contents
  | missing => refused .illegalState s!"failed to load {what} at <cid>"

end Stored

end SectorLedger
