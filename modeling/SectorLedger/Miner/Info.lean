import SectorLedger.Address
import SectorLedger.Failure
import SectorLedger.Sector

/-!
# Miner information

What rarely changes about a miner: who owns and controls it, where it is reached, and how it seals. The
sector size and the number of sectors in a partition follow from the seal proof and are kept with it.
-/

namespace SectorLedger

/-- A worker that is to take over. -/
structure WorkerChange where
  /-- The new worker. -/
  newWorker : Address
  /-- When it takes over. -/
  effectiveAt : Int
  deriving DecidableEq, Repr

/-- What rarely changes about a miner. -/
structure MinerInfo where
  /-- The owner. -/
  owner : Address
  /-- The worker, which signs for the miner. -/
  worker : Address
  /-- Other addresses that may act for the miner. -/
  control : List Address := []
  /-- A worker that is to take over. -/
  pendingWorker : Option WorkerChange := none
  /-- The miner's identity in the network. -/
  peerId : List UInt8 := []
  /-- Where the miner is reached in the network. -/
  multiAddresses : List (List UInt8) := []
  /-- How sectors are sealed. -/
  proof : SealProof
  /-- How large a sector is. -/
  sectorSize : SectorSize
  /-- How many sectors are proven together. -/
  partitionSectors : Nat
  /-- Until when the miner is barred for a consensus fault. -/
  consensusFaultElapsed : Int := -1
  /-- An owner that is proposed. -/
  pendingOwner : Option Address := none
  deriving DecidableEq, Repr

namespace MinerInfo

/-- The information of a new miner. The seal proof must be one in use. -/
def make (owner worker : Address) (control : List Address) (peerId : List UInt8)
    (multiAddresses : List (List UInt8)) (proof : SealProof) : Outcome MinerInfo := do
  let some sectorSize := proof.sectorSize?
    | refused .illegalArgument s!"invalid sector size: {proof.unsupported}"
  let some partitionSectors := proof.partitionSectors?
    | refused .illegalArgument s!"invalid partition sectors: {proof.unsupported}"
  return { owner, worker, control, peerId, multiAddresses, proof, sectorSize, partitionSectors }

end MinerInfo

end SectorLedger
