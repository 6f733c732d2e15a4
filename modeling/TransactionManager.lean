import TransactionManager.Lock.Overtaking
import TransactionManager.Lock.WaitGraph
import TransactionManager.Txn.GapProtocol
import TransactionManager.Storage.BTreeReopen
import TransactionManager.Storage.Heap
import TransactionManager.Wal.Flush
import TransactionManager.Wal.TornTail
import TransactionManager.Txn.Reaping
import TransactionManager.Txn.AbortedUnseen
import TransactionManager.Txn.Terminal
import TransactionManager.Txn.OwnWrites
import TransactionManager.Txn.Serializable
import TransactionManager.Txn.AbortNeutral
import TransactionManager.Txn.MvccSavepoint
import TransactionManager.Txn.ConflictSerializable
import TransactionManager.Txn.RecoveryExact
import TransactionManager.Txn.Restart
import TransactionManager.Raft.LeaderCompleteness
import TransactionManager.Raft.ExactlyOnce
import TransactionManager.Raft.CompactedRestart
import TransactionManager.Raft.Proposals
import TransactionManager.Raft.Transport
import TransactionManager.Raft.Replicas
import TransactionManager.Raft.Compaction
import TransactionManager.Raft.FailedWrite
