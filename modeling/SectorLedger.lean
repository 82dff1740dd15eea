import SectorLedger.Audit.Miner
import SectorLedger.Binary.Hex
import SectorLedger.Binary.Record
import SectorLedger.MessageLog
import SectorLedger.Miner.Proving
import SectorLedger.Miner.Sectors
import SectorLedger.Policy.Parameters
import SectorLedger.Proofs.Assignment.Balance
import SectorLedger.Proofs.Audit.Deadline
import SectorLedger.Proofs.Deadline.Batches
import SectorLedger.Proofs.Deadline.StaleRecord
import SectorLedger.Proofs.Deadline.Submitting
import SectorLedger.Proofs.Partition.Replacing
import SectorLedger.Proofs.Expiration.Restoring
import SectorLedger.Proofs.Expiration.Searching
import SectorLedger.Proofs.Expiration.Undoing
import SectorLedger.Proofs.Handling
import SectorLedger.Proofs.Miner.Mutability
import SectorLedger.Proofs.Miner.Promises
import SectorLedger.Proofs.Miner.Rescheduling
import SectorLedger.Proofs.Miner.VestingAudit
import SectorLedger.Proofs.NumberQueue.Filing
import SectorLedger.Proofs.Partition.Batching
import SectorLedger.Proofs.Partition.Prolonging
import SectorLedger.Proofs.Policy
import SectorLedger.Proofs.Vesting.Linear
