import KvRaft.Consensus.TermLog
import KvRaft.Consensus.Invariant
import KvRaft.Raft.Node
import KvRaft.Raft.Cluster
import KvRaft.Raft.ClientReply
import KvRaft.Raft.Redirect
import KvRaft.Raft.Applied
import KvRaft.Raft.Ballot
import KvRaft.Raft.Durable
import KvRaft.Raft.CatchUp
import KvRaft.Raft.QuorumIndex
import KvRaft.Raft.Linearizability
import KvRaft.Raft.LogTerms
import KvRaft.Raft.MatchIndex
import KvRaft.Raft.AnswerOrder
import KvRaft.Raft.Availability
import KvRaft.Raft.Settling
import KvRaft.Kv.Failure
import KvRaft.Kv.Fallback
import KvRaft.Kv.Splitting
import KvRaft.Kv.Crash
import KvRaft.Kv.Overwrite
import KvRaft.Kv.Oversize
import KvRaft.Kv.Reservation
import KvRaft.Kv.FreeQueue
import KvRaft.Kv.Lifetime
import KvRaft.Kv.Concurrency
import KvRaft.Example.Deployment
