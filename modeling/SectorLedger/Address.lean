/-!
# Addresses

An address is known by its text. An ID address is one that the network itself assigned.
-/

namespace SectorLedger

/-- An address on the chain. -/
structure Address where
  /-- Its text. -/
  text : String
  deriving DecidableEq, Repr, Inhabited

namespace Address

/-- Whether the network assigned the address. -/
def isId (a : Address) : Bool := a.text.startsWith "f0"

end Address

end SectorLedger
