import MonadChain.Staking.Balance
import MonadChain.Staking.Delegations
import MonadChain.Rlp.Totality
import MonadChain.Execution.RelaxedSerial
import MonadChain.Contract.AbiTuple
import MonadChain.Db.CommitEquivalence
import MonadChain.Execution.Settlement
import MonadChain.Runloop.Canonical
import MonadChain.Execution.FailedMessages
import MonadChain.Vm.StackChecks
import MonadChain.Rlp.Witness
import MonadChain.Staking.Snapshot
import MonadChain.Mpt.ChunkLists
import MonadChain.Mpt.VersionHistory
import MonadChain.Execution.BlockHashes
import MonadChain.Execution.StorageRefunds
import MonadChain.Execution.BlobFee
import MonadChain.Execution.ModexpGas
import MonadChain.Staking.StorageKeys
import MonadChain.Db.PageBinding
import MonadChain.Vm.MemoryBound
import MonadChain.Staking.ReadValset
