import OxideDB.Client.AtMostOnce
import OxideDB.Client.Get
import OxideDB.Client.GroupWalk
import OxideDB.Client.LastWrite
import OxideDB.Embedded.Restart
import OxideDB.Metadata.LeaderClaims
import OxideDB.Metadata.Restore
import OxideDB.Metadata.Retry
import OxideDB.Metadata.Wire
import OxideDB.Raft.CatchUp
import OxideDB.Raft.Guarantees
import OxideDB.Raft.Indexing
import OxideDB.Raft.JSONFileStorage
import OxideDB.Raft.Proposal
import OxideDB.Raft.ReadIndex
import OxideDB.Raft.Recovery
import OxideDB.Raft.RecoveryNotes
import OxideDB.Raft.Terms
import OxideDB.Shard.CopyAnswers
import OxideDB.Shard.Landing
import OxideDB.Shard.ReadOut
import OxideDB.Sql.Inserted
import OxideDB.Storage.Clock
import OxideDB.Storage.Pointwise
import OxideDB.Storage.Reproposal
import OxideDB.Storage.Restart
import OxideDB.Txn.Atomic
import OxideDB.Txn.FreshReads
import OxideDB.Txn.Refusal
import OxideDB.Txn.Serial
import OxideDB.Txn.Settling
import OxideDB.Txn.Truth
