import Mathlib.Algebra.Group.Nat.Defs
import Mathlib.Data.List.AList

/-!
# Messages, roles and the state of a node

The data types of `raft-rs`: `message.rs`, `role.rs`, `storage.rs`, `error.rs`,
`raft_handle.rs` and the fields of `RaftNode` that its handlers read or write. Terms,
node ids and indices are natural numbers; the one addition on terms checks the bound of
`u64`.

What a handler does to the world around the node is recorded in order in
`RaftNode.effects`: saved states, sent messages, answers to clients, and four marks
that no other field shows (a command was applied, the node became leader, it advanced
its commit index, it truncated its log). A crash in the middle of a handler is a prefix
of this list.

The election deadline, the configured timeouts, the channels on which inputs arrive and
the log output carry no data of the protocol; an election timeout may happen at any
time.
-/

namespace KvRaft
namespace Raft

/-- `types.rs`: `NodeId`. -/
abbrev NodeId := ℕ

/-- The largest term, `u64::MAX`. -/
def u64Max : ℕ := 2 ^ 64 - 1

/-- The sending half of the oneshot channel of one client command. -/
abbrev Sender := ℕ

/-- `HashMap<NodeId, usize>`. -/
abbrev PeerMap := AList fun _ : NodeId => ℕ

/-- `state_machine.rs`: `RaftStateMachine::apply`, with the mutated machine returned. -/
class RaftStateMachine (S : Type) (C O : outParam Type) where
  apply : S → C → S × O

/-- `message.rs`: `LogCommand`. -/
inductive LogCommand (C : Type)
  | noOp
  | command (cmd : C)
  deriving DecidableEq

/-- `message.rs`: `LogEntry`. -/
structure LogEntry (C : Type) where
  term : ℕ
  command : LogCommand C
  deriving DecidableEq

/-- `message.rs`: `AppendRequest`. -/
structure AppendRequest (C : Type) where
  term : ℕ
  leaderId : NodeId
  prevLogIndex : ℕ
  prevLogTerm : ℕ
  entries : List (LogEntry C)
  leaderCommit : ℕ
  deriving DecidableEq

/-- `message.rs`: `AppendResponse`. -/
structure AppendResponse where
  term : ℕ
  matchIndex : ℕ
  success : Bool
  deriving DecidableEq

/-- `message.rs`: `VoteRequest`. -/
structure VoteRequest where
  term : ℕ
  candidateId : NodeId
  lastLogIndex : ℕ
  lastLogTerm : ℕ
  deriving DecidableEq

/-- `message.rs`: `VoteResponse`. -/
structure VoteResponse where
  term : ℕ
  voteGranted : Bool
  deriving DecidableEq

/-- `message.rs`: `RaftMessage`. -/
inductive RaftMessage (C : Type)
  | appendRequest (msg : AppendRequest C)
  | appendResponse (msg : AppendResponse)
  | voteRequest (msg : VoteRequest)
  | voteResponse (msg : VoteResponse)
  deriving DecidableEq

/-- `error.rs`: the errors a node answers a client with. -/
inductive RaftError
  | notLeader (leader : NodeId)
  | noLeader
  deriving DecidableEq

/-- `role.rs`: `Role`. -/
inductive Role
  | follower (currentLeaderId : Option NodeId)
  | candidate (votesReceived : ℕ)
  | leader (nextIndex matchIndex : PeerMap)
  deriving DecidableEq

/-- `role.rs`: `Role::is_leader`. -/
def Role.isLeader : Role → Bool
  | .leader _ _ => true
  | _ => false

/-- `role.rs`: `Role::is_candidate`. -/
def Role.isCandidate : Role → Bool
  | .candidate _ => true
  | _ => false

/-- `storage.rs`: `PersistentState`. -/
structure PersistentState (C : Type) where
  currentTerm : ℕ
  votedFor : Option NodeId
  log : List (LogEntry C)
  deriving DecidableEq

/-- `raft_handle.rs`: `RaftRole`. -/
inductive RaftRole
  | follower
  | candidate (votesReceived : ℕ)
  | leader (nextIndex matchIndex : PeerMap)
  deriving DecidableEq

/-- `raft_handle.rs`: `RaftStatus`. -/
structure RaftStatus where
  id : NodeId
  currentTerm : ℕ
  votedFor : Option NodeId
  role : RaftRole
  leaderId : Option NodeId
  commitIndex : ℕ
  lastApplied : ℕ
  logLen : ℕ
  peerIds : List NodeId
  deriving DecidableEq

/-- `raft_handle.rs`: `ClientCommands`. -/
inductive ClientCommands (C : Type)
  | apply (command : C) (reply : Sender)
  | isLeader (reply : Sender)
  | getLog (reply : Sender)
  | getLogEntry (index : ℕ) (reply : Sender)
  | getStatus (reply : Sender)

/-- What is sent on the reply channel of a client command. -/
inductive Reply (C O : Type)
  | applied (output : O)
  | error (err : RaftError)
  | isLeader
  | log (log : List (LogEntry C))
  | logEntry (entry : Option (LogEntry C))
  | status (status : RaftStatus)
  deriving DecidableEq

/-- What a handler does, in order. -/
inductive Effect (C O S : Type)
  /-- `storage.save_state` was called with this state. -/
  | save (state : PersistentState C)
  /-- The message was handed to the worker of the peer. -/
  | send (toId : NodeId) (message : RaftMessage C)
  /-- A reply was sent to a client. -/
  | reply (channel : Sender) (answer : Reply C O)
  /-- A client's `Apply` was accepted: its entry was pushed at `index`. -/
  | accepted (index : ℕ) (term : ℕ) (command : C) (channel : Sender)
  /-- One turn of the loop of `apply_committed`, on a state machine in state `machine`. -/
  | applied (index : ℕ) (entry : LogEntry C) (machine : S)
  /-- The role became `Role::Leader`, with this log. -/
  | becameLeader (term : ℕ) (log : List (LogEntry C))
  /-- `advance_commit` set the commit index. -/
  | committed (term : ℕ) (index : ℕ) (log : List (LogEntry C))
  /-- `append_request` called `log.truncate(index)`. -/
  | truncated (index : ℕ)
  deriving DecidableEq

/-- The ways a handler can panic. -/
inductive Panic
  | indexOutOfBounds
  | unwrapNone
  | subtractWithOverflow
  | addWithOverflow
  /-- `unreachable!("two leaders detected in the same term")`. -/
  | twoLeadersInTheSameTerm
  /-- `unreachable!("handling heartbeat while not a leader")`. -/
  | heartbeatWhileNotALeader
  deriving DecidableEq

/-- `raft.rs`: `RaftNode`. -/
structure RaftNode (C O S : Type) where
  -- persistent state
  currentTerm : ℕ
  votedFor : Option NodeId
  log : List (LogEntry C)
  -- volatile state
  id : NodeId
  peerIds : List NodeId
  role : Role
  commitIndex : ℕ
  lastApplied : ℕ
  stateMachine : S
  pendingApplies : AList fun _ : ℕ => Sender
  /-- What the handler that is running has done so far. -/
  effects : List (Effect C O S)

end Raft
end KvRaft
