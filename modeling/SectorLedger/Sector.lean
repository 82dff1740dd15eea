import SectorLedger.Amount
import SectorLedger.Word

/-!
# Sectors

What is recorded about a proven sector and about one that is only promised, and the seal proofs and
sector sizes that they refer to.
-/

namespace SectorLedger

/-- The sizes that a sector can have. -/
inductive SectorSize where
  /-- Two kibibytes. -/
  | kib2
  /-- Eight mebibytes. -/
  | mib8
  /-- Five hundred and twelve mebibytes. -/
  | mib512
  /-- Thirty-two gibibytes. -/
  | gib32
  /-- Sixty-four gibibytes. -/
  | gib64
  deriving DecidableEq, Repr, Inhabited

namespace SectorSize

/-- The number of bytes. -/
def bytes : SectorSize → Nat
  | kib2 => 2 * 1024
  | mib8 => 8 * 1024 * 1024
  | mib512 => 512 * 1024 * 1024
  | gib32 => 32 * 1024 * 1024 * 1024
  | gib64 => 64 * 1024 * 1024 * 1024

/-- The size in words. -/
def label : SectorSize → String
  | kib2 => "2KiB"
  | mib8 => "8MiB"
  | mib512 => "512MiB"
  | gib32 => "32GiB"
  | gib64 => "64GiB"

/-- All sizes, smallest first. -/
def all : List SectorSize := [kib2, mib8, mib512, gib32, gib64]

/-- How the size is shown inside a message. -/
def shown (s : SectorSize) : String := "_" ++ s.label

end SectorSize

/-- A kind of seal proof, by its registered number. Only the numbers from 0 to 19 are in use. -/
structure SealProof where
  /-- The registered number. -/
  code : Int
  deriving DecidableEq, Repr

namespace SealProof

instance : Inhabited SealProof := ⟨⟨-1⟩⟩

/-- Whether the number is in use. -/
def registered (p : SealProof) : Bool := 0 ≤ p.code && p.code < 20

/-- The sector size that the proof seals: the numbers run through the sizes. -/
def sectorSize? (p : SealProof) : Option SectorSize :=
  if p.registered then SectorSize.all[(p.code % 5).toNat]? else none

/-- How many sectors of this kind are proven together. -/
def partitionSectors? (p : SealProof) : Option Nat :=
  p.sectorSize?.map fun
    | .kib2 | .mib8 | .mib512 => 2
    | .gib32 => 2349
    | .gib64 => 2300

/-- The generation of the proof: five numbers each. -/
def generation (p : SealProof) : String :=
  match p.code / 5 with
  | 0 => "V1"
  | 1 => "V1P1"
  | 2 => "V1P1_Feat_SyntheticPoRep"
  | _ => "V1P2_Feat_NiPoRep"

/-- The name of the proof. -/
def shown (p : SealProof) : String :=
  match p.sectorSize? with
  | some size => "StackedDRG" ++ size.label ++ p.generation
  | none => s!"Invalid({p.code})"

/-- The words for a number that is not in use. -/
def unsupported (p : SealProof) : String := s!"unsupported proof type: {p.code}"

end SealProof

/-- What is recorded about a proven sector. -/
structure Sector where
  /-- Its number, unique for the miner. -/
  number : Nat
  /-- How it was sealed. -/
  proof : SealProof := default
  /-- The deals it stores. -/
  deals : List Nat := []
  /-- When its proof was accepted. -/
  activation : Int := 0
  /-- When it expires. -/
  expiration : Int := 0
  /-- The space times time that deals take up. -/
  dealWeight : Int := 0
  /-- The space times time that verified deals take up. -/
  verifiedWeight : Int := 0
  /-- The pledge collected for it. -/
  pledge : Int := 0
  /-- The reward expected for a day when it was activated. -/
  dayReward : Int := 0
  /-- The reward expected for twenty days when it was activated. -/
  storagePledge : Int := 0
  /-- The age of the sector that it replaced. -/
  replacedAge : Int := 0
  /-- The day reward of the sector that it replaced. -/
  replacedReward : Int := 0
  deriving DecidableEq, Repr, Inhabited

/-- What is recorded about a sector that is promised and not yet proven. -/
structure Precommit where
  /-- Its number. -/
  number : Nat
  /-- The money held back until it is proven. -/
  deposit : Int := 0
  /-- How it is sealed. -/
  proof : SealProof := default
  /-- The epoch whose randomness the seal uses. -/
  sealEpoch : Int := 0
  /-- The deals it will store. -/
  deals : List Nat := []
  /-- When the sector will expire. -/
  expiration : Int := 0
  /-- Whether it takes the place of a sector without deals. -/
  replaceCapacity : Bool := false
  /-- The deadline of the sector to replace. -/
  replaceDeadline : Nat := 0
  /-- The partition of the sector to replace. -/
  replacePartition : Nat := 0
  /-- The number of the sector to replace. -/
  replaceNumber : Nat := 0
  /-- When it was promised. -/
  epoch : Int := 0
  /-- The space times time that its deals will take up. -/
  dealWeight : Int := 0
  /-- The space times time that its verified deals will take up. -/
  verifiedWeight : Int := 0
  deriving DecidableEq, Repr, Inhabited

end SectorLedger
