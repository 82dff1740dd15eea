import SectorLedger.Binary.Base32
import SectorLedger.Binary.Cbor
import SectorLedger.Binary.RunLength
import SectorLedger.Deadline
import SectorLedger.Miner.Info
import SectorLedger.Vesting

/-!
# Records as binary values

How records are laid out in the store: each is the array of its fields, in the order given here.
-/

namespace SectorLedger

namespace NumberSet

/-- The most bytes that a set may take. -/
def sizeMax : Nat := 32768

/-- A set is a byte string. -/
def toCbor (s : NumberSet) : Cbor :=
  let content := RunLength.encode s
  if content.length ≤ sizeMax then .bytes content else .oversize (.set content.length)

end NumberSet

namespace Power

/-- Raw and weighted bytes. -/
def toCbor (p : Power) : Cbor := .array [.bigInteger p.raw, .bigInteger p.qa]

end Power

namespace VestingTable

/-- The instalments, in an array of one field. -/
def toCbor (t : VestingTable) : Cbor :=
  .array [.array (t.map fun e => .array [.integer e.epoch, .bigInteger e.amount])]

end VestingTable

namespace ExpirationSet

/-- The sectors, then the totals. -/
def toCbor (s : ExpirationSet) : Cbor :=
  .array [s.onTime.toCbor, s.early.toCbor, .bigInteger s.pledge, s.active.toCbor, s.faulty.toCbor]

end ExpirationSet

namespace PartitionProof

/-- The position, then the skipped sectors. -/
def toCbor (p : PartitionProof) : Cbor := .array [.integer p.index, p.skipped.toCbor]

end PartitionProof

namespace Address

/-- The number of a text of digits. -/
def number (digits : List Char) : Nat := digits.foldl (fun n c => n * 10 + (c.toNat - '0'.toNat)) 0

/-- The bytes that some letters stand for, without the checksum, which takes the last four. -/
def unchecked (letters : List Char) : Option (List UInt8) := do
  let all ← Base32.decode letters
  return all.take (all.length - 4)

/-- The bytes of an address: a byte for its kind, and its content. The kind is the digit that follows the
network's letter. An ID address holds a number; a delegated one (the fourth kind) holds the number of its
manager, which a letter separates from the rest. -/
def bytes? (a : Address) : Option (List UInt8) :=
  match a.text.toList with
  | _ :: '0' :: id => some (0 :: Varint.encode (number id))
  | _ :: '4' :: rest => do
    let manager := rest.takeWhile Char.isDigit
    let content ← unchecked ((rest.dropWhile Char.isDigit).drop 1)
    return 4 :: Varint.encode (number manager) ++ content
  | _ :: kind :: letters => do
    let content ← unchecked letters
    return (kind.toNat - '0'.toNat).toUInt8 :: content
  | _ => none

/-- An address is a byte string. -/
def toCbor (a : Address) : Cbor := .bytes (a.bytes?.getD [])

end Address

namespace WorkerChange

/-- The worker, then when it takes over. -/
def toCbor (c : WorkerChange) : Cbor := .array [c.newWorker.toCbor, .integer c.effectiveAt]

end WorkerChange

namespace MinerInfo

/-- All fields; one that is absent is empty. -/
def toCbor (i : MinerInfo) : Cbor :=
  .array [
    i.owner.toCbor, i.worker.toCbor, .array (i.control.map Address.toCbor),
    (i.pendingWorker.map WorkerChange.toCbor).getD .null,
    .bytes i.peerId, .array (i.multiAddresses.map .bytes),
    .integer i.proof.code, .integer i.sectorSize.bytes, .integer i.partitionSectors,
    .integer i.consensusFaultElapsed, (i.pendingOwner.map Address.toCbor).getD .null]

end MinerInfo

end SectorLedger
