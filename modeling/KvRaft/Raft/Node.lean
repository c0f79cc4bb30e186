import KvRaft.Raft.Types

/-!
# The handlers of a node

`raft.rs`, function by function. A handler maps a node to the node it leaves behind, or
to the `Panic` it dies of: every slice index, `unwrap`, unsigned subtraction and
`unreachable!` of the source is a possible panic here. `send_message` only reaches
peers, because `transport_work` has a worker for each of `peer_ids` and for nobody else.
-/

namespace KvRaft
namespace Raft

variable {C O S : Type}

/-- `raft.rs`: `has_majority`. -/
def hasMajority (count total : ℕ) : Bool :=
  decide (total / 2 < count)

namespace RaftNode

/-- Record an effect. -/
def emit (self : RaftNode C O S) (e : Effect C O S) : RaftNode C O S :=
  { self with effects := self.effects ++ [e] }

/-- `self.log[index]`. -/
def logAt (self : RaftNode C O S) (index : ℕ) : Except Panic (LogEntry C) :=
  match self.log[index]? with
  | some entry => .ok entry
  | none => .error .indexOutOfBounds

/-- `self.log.len() - 1` and `self.log.last().unwrap().term`. -/
def lastLog (self : RaftNode C O S) : Except Panic (ℕ × ℕ) :=
  match self.log.getLast? with
  | some entry => .ok (self.log.length - 1, entry.term)
  | none => .error .subtractWithOverflow

/-- `raft.rs`: `persist_state`, with a `save_state` that succeeds. -/
def persistState (self : RaftNode C O S) : RaftNode C O S :=
  self.emit (.save ⟨self.currentTerm, self.votedFor, self.log⟩)

/-- `raft.rs`: `send_message`. -/
def sendMessage (self : RaftNode C O S) (toId : NodeId) (message : RaftMessage C) :
    RaftNode C O S :=
  if toId ∈ self.peerIds then self.emit (.send toId message) else self

/-- `raft.rs`: `broadcast_message`. -/
def broadcastMessage (self : RaftNode C O S) (message : RaftMessage C) : RaftNode C O S :=
  self.peerIds.foldl (fun node peerId => node.sendMessage peerId message) self

/-- `raft.rs`: `become_follower`. -/
def becomeFollower (self : RaftNode C O S) (term : ℕ) : RaftNode C O S :=
  let self :=
    if self.currentTerm < term then { self with currentTerm := term, votedFor := none }
    else self
  { self with role := .follower none }.persistState

/-- `raft.rs`: the body of the loop of `on_heartbeat`. -/
def heartbeatTo (self : RaftNode C O S) (peerId : NodeId) : Except Panic (RaftNode C O S) :=
  match self.role with
  | .leader nextIndex _ =>
    match nextIndex.lookup peerId with
    | none => .error .unwrapNone
    | some nodeNextIndex =>
      if nodeNextIndex = 0 then .error .subtractWithOverflow
      else do
        let prev ← self.logAt (nodeNextIndex - 1)
        -- `self.log[node_next_index..]`
        if self.log.length < nodeNextIndex then .error .indexOutOfBounds
        else
          .ok (self.sendMessage peerId (.appendRequest
            { term := self.currentTerm
              leaderId := self.id
              prevLogIndex := nodeNextIndex - 1
              prevLogTerm := prev.term
              entries := self.log.drop nodeNextIndex
              leaderCommit := self.commitIndex }))
  | _ => .error .heartbeatWhileNotALeader

/-- `raft.rs`: `on_heartbeat`. -/
def onHeartbeat (self : RaftNode C O S) : Except Panic (RaftNode C O S) :=
  self.peerIds.foldlM heartbeatTo self

/-- The loop of `advance_commit` over the indices that are left, highest first. -/
def findCommit (self : RaftNode C O S) (matchIndex : PeerMap) :
    List ℕ → Except Panic (Option ℕ)
  | [] => .ok none
  | index :: rest => do
    let entry ← self.logAt index
    if entry.term ≠ self.currentTerm then self.findCommit matchIndex rest
    else
      let replicatedCount :=
        (matchIndex.entries.map Sigma.snd).countP (fun matchIdx => decide (index ≤ matchIdx)) + 1
      if hasMajority replicatedCount (self.peerIds.length + 1) then .ok (some index)
      else self.findCommit matchIndex rest

/-- `raft.rs`: `advance_commit`. -/
def advanceCommit (self : RaftNode C O S) : Except Panic (RaftNode C O S) :=
  match self.role with
  | .leader _ matchIndex => do
    let first := self.commitIndex + 1
    let found ← self.findCommit matchIndex
      (List.range' first (self.log.length - first)).reverse
    match found with
    | some index =>
      .ok ({ self with commitIndex := index }.emit (.committed self.currentTerm index self.log))
    | none => .ok self
  | _ => .ok self

variable [RaftStateMachine S C O]

/-- The turns of the loop of `apply_committed` that are left. -/
def applyCommittedLoop : ℕ → RaftNode C O S → Except Panic (RaftNode C O S)
  | 0, self => .ok self
  | turns + 1, self => do
    let self := { self with lastApplied := self.lastApplied + 1 }
    let entry ← self.logAt self.lastApplied
    let self := self.emit (.applied self.lastApplied entry self.stateMachine)
    match entry.command with
    | .noOp => applyCommittedLoop turns self
    | .command cmd =>
      let (stateMachine, output) := RaftStateMachine.apply self.stateMachine cmd
      let self := { self with stateMachine := stateMachine }
      match self.pendingApplies.lookup self.lastApplied with
      | some reply =>
        let self := { self with
          pendingApplies := self.pendingApplies.erase self.lastApplied }
        applyCommittedLoop turns (self.emit (.reply reply (.applied output)))
      | none => applyCommittedLoop turns self

/-- `raft.rs`: `apply_committed`. The loop leaves `commit_index` alone, so the number of
its turns is known when it starts. -/
def applyCommitted (self : RaftNode C O S) : Except Panic (RaftNode C O S) :=
  applyCommittedLoop (self.commitIndex - self.lastApplied) self

/-- `raft.rs`: `become_leader`. -/
def becomeLeader (self : RaftNode C O S) : Except Panic (RaftNode C O S) := do
  let self := { self with log := self.log ++ [LogEntry.mk self.currentTerm .noOp] }
  let next := self.log.length
  let nextIndex : PeerMap := self.peerIds.foldl (fun m peerId => m.insert peerId next) ∅
  let matchIndex : PeerMap := self.peerIds.foldl (fun m peerId => m.insert peerId 0) ∅
  let self := { self with role := .leader nextIndex matchIndex }.emit
    (.becameLeader self.currentTerm self.log)
  let self := self.persistState
  let self ← self.advanceCommit
  let self ← self.applyCommitted
  self.onHeartbeat

/-- `raft.rs`: `become_candidate`. -/
def becomeCandidate (self : RaftNode C O S) : Except Panic (RaftNode C O S) :=
  if u64Max ≤ self.currentTerm then .error .addWithOverflow
  else
    let self := { self with
      currentTerm := self.currentTerm + 1
      votedFor := some self.id
      role := .candidate 1 }
    -- a single node cluster becomes leader immediately
    if hasMajority 1 (self.peerIds.length + 1) then self.becomeLeader
    else do
      let (lastLogIndex, lastLogTerm) ← self.lastLog
      let request := .voteRequest
        { term := self.currentTerm
          candidateId := self.id
          lastLogIndex := lastLogIndex
          lastLogTerm := lastLogTerm }
      .ok (self.persistState.broadcastMessage request)

/-- `raft.rs`: `append_response`. -/
def appendResponse (self : RaftNode C O S) (fromId : NodeId) (msg : AppendResponse) :
    Except Panic (RaftNode C O S) :=
  if msg.term < self.currentTerm then .ok self
  else if self.currentTerm < msg.term then .ok (self.becomeFollower msg.term)
  else
    match self.role with
    | .leader nextIndex matchIndex =>
      let role :=
        if msg.success then
          Role.leader (nextIndex.insert fromId (msg.matchIndex + 1))
            (matchIndex.insert fromId msg.matchIndex)
        else
          Role.leader (nextIndex.insert fromId (max (msg.matchIndex - 1) 1)) matchIndex
      do
        let self ← { self with role := role }.advanceCommit
        self.applyCommitted
    | _ => .ok self

/-- The loop of `append_request` over the entries of the message, from `index` on. -/
def appendEntries (self : RaftNode C O S) (index : ℕ) :
    List (LogEntry C) → Except Panic (RaftNode C O S)
  | [] => .ok self
  | entry :: entries =>
    if index < self.log.length then do
      let own ← self.logAt index
      if own.term ≠ entry.term then
        -- `self.log.truncate(index); self.log.push(entry)`
        let self := { self with log := self.log.take index ++ [entry] }.emit (.truncated index)
        self.appendEntries (index + 1) entries
      else self.appendEntries (index + 1) entries
    else { self with log := self.log ++ [entry] }.appendEntries (index + 1) entries

/-- The tail of `append_request`, once the term and the role are settled: check the entry
at `prev_log_index`, splice the entries, commit, save, apply, answer. -/
def appendAtPrev (self : RaftNode C O S) (fromId : NodeId) (msg : AppendRequest C) :
    Except Panic (RaftNode C O S) :=
  if self.log.length ≤ msg.prevLogIndex then
    if self.log.length = 0 then .error .subtractWithOverflow
    else
      .ok (self.sendMessage fromId (.appendResponse
        { term := self.currentTerm, matchIndex := self.log.length - 1, success := false }))
  else do
    let prev ← self.logAt msg.prevLogIndex
    if prev.term ≠ msg.prevLogTerm then
      .ok (self.sendMessage fromId (.appendResponse
        { term := self.currentTerm, matchIndex := msg.prevLogIndex, success := false }))
    else
      let lastMatchIndex := msg.prevLogIndex + msg.entries.length
      let self ← self.appendEntries (msg.prevLogIndex + 1) msg.entries
      if self.commitIndex < msg.leaderCommit ∧ self.log.length = 0 then
        .error .subtractWithOverflow
      else
        let self :=
          if self.commitIndex < msg.leaderCommit then
            { self with commitIndex := min msg.leaderCommit (self.log.length - 1) }
          else self
        let self ← self.persistState.applyCommitted
        .ok (self.sendMessage fromId (.appendResponse
          { term := self.currentTerm, matchIndex := lastMatchIndex, success := true }))

/-- `raft.rs`: `append_request`. -/
def appendRequest (self : RaftNode C O S) (fromId : NodeId) (msg : AppendRequest C) :
    Except Panic (RaftNode C O S) :=
  if msg.term < self.currentTerm then
    .ok (self.sendMessage fromId (.appendResponse
      { term := self.currentTerm, matchIndex := 0, success := false }))
  else
    let self := if self.currentTerm < msg.term then self.becomeFollower msg.term else self
    if self.role.isLeader ∧ msg.term = self.currentTerm then .error .twoLeadersInTheSameTerm
    else
      let self :=
        if self.role.isCandidate ∧ msg.term = self.currentTerm then
          self.becomeFollower msg.term
        else self
      let self :=
        match self.role with
        | .follower none => { self with role := .follower (some msg.leaderId) }
        | _ => self
      self.appendAtPrev fromId msg

/-- `raft.rs`: `vote_request`. -/
def voteRequest (self : RaftNode C O S) (fromId : NodeId) (msg : VoteRequest) :
    Except Panic (RaftNode C O S) :=
  if msg.term < self.currentTerm then
    .ok (self.sendMessage fromId (.voteResponse
      { term := self.currentTerm, voteGranted := false }))
  else
    let self := if self.currentTerm < msg.term then self.becomeFollower msg.term else self
    let canVote := self.votedFor = none ∨ self.votedFor = some msg.candidateId
    do
      let (lastLogIndex, lastLogTerm) ← self.lastLog
      let logUpToDate := lastLogTerm < msg.lastLogTerm ∨
        msg.lastLogTerm = lastLogTerm ∧ lastLogIndex ≤ msg.lastLogIndex
      if canVote ∧ logUpToDate then
        let self := { self with votedFor := some msg.candidateId }
        .ok (self.persistState.sendMessage fromId (.voteResponse
          { term := self.currentTerm, voteGranted := true }))
      else
        .ok (self.sendMessage fromId (.voteResponse
          { term := self.currentTerm, voteGranted := false }))

/-- `raft.rs`: `vote_response`. -/
def voteResponse (self : RaftNode C O S) (msg : VoteResponse) :
    Except Panic (RaftNode C O S) :=
  if msg.term < self.currentTerm then .ok self
  else if self.currentTerm < msg.term then .ok (self.becomeFollower msg.term)
  else
    match self.role, msg.voteGranted with
    | .candidate votesReceived, true =>
      let self := { self with role := .candidate (votesReceived + 1) }
      if hasMajority (votesReceived + 1) (self.peerIds.length + 1) then self.becomeLeader
      else .ok self
    | _, _ => .ok self

/-- `raft.rs`: `handle_message`. -/
def handleMessage (self : RaftNode C O S) (fromId : NodeId) :
    RaftMessage C → Except Panic (RaftNode C O S)
  | .appendResponse msg => self.appendResponse fromId msg
  | .appendRequest msg => self.appendRequest fromId msg
  | .voteRequest msg => self.voteRequest fromId msg
  | .voteResponse msg => self.voteResponse msg

/-- `raft.rs`: `require_leader`, the helper of `client_command`. `none` is `Ok(())`. -/
def requireLeader : Role → Option RaftError
  | .leader _ _ => none
  | .follower (some leader) => some (.notLeader leader)
  | .follower none | .candidate _ => some .noLeader

omit [RaftStateMachine S C O] in
/-- `raft.rs`: `status`. -/
def status (self : RaftNode C O S) : RaftStatus :=
  let (role, leaderId) : RaftRole × Option NodeId :=
    match self.role with
    | .follower currentLeaderId => (.follower, currentLeaderId)
    | .candidate votesReceived => (.candidate votesReceived, none)
    | .leader nextIndex matchIndex => (.leader nextIndex matchIndex, some self.id)
  { id := self.id
    currentTerm := self.currentTerm
    votedFor := self.votedFor
    role := role
    leaderId := leaderId
    commitIndex := self.commitIndex
    lastApplied := self.lastApplied
    logLen := self.log.length
    peerIds := self.peerIds }

/-- `raft.rs`: `client_command`. -/
def clientCommand (self : RaftNode C O S) :
    ClientCommands C → Except Panic (RaftNode C O S)
  | .apply command reply =>
    match requireLeader self.role with
    | none => do
      let index := self.log.length
      let self := { self with
        log := self.log ++ [LogEntry.mk self.currentTerm (.command command)]
        pendingApplies := self.pendingApplies.insert index reply }
      let self := self.emit (.accepted index self.currentTerm command reply)
      let self := self.persistState
      let self ← self.advanceCommit
      let self ← self.applyCommitted
      self.onHeartbeat
    | some err => .ok (self.emit (.reply reply (.error err)))
  | .isLeader reply =>
    match requireLeader self.role with
    | none => .ok (self.emit (.reply reply .isLeader))
    | some err => .ok (self.emit (.reply reply (.error err)))
  | .getLog reply => .ok (self.emit (.reply reply (.log self.log)))
  | .getLogEntry index reply => .ok (self.emit (.reply reply (.logEntry self.log[index]?)))
  | .getStatus reply => .ok (self.emit (.reply reply (.status self.status)))

omit [RaftStateMachine S C O] in
/-- `raft.rs`: `RaftNode::new`, which ends with `restore_state` on what the storage
holds. -/
def new (id : NodeId) (peerIds : List NodeId) (stateMachine : S)
    (stored : Option (PersistentState C)) : RaftNode C O S :=
  let state := stored.getD ⟨0, none, [⟨0, .noOp⟩]⟩
  { currentTerm := state.currentTerm
    votedFor := state.votedFor
    log := state.log
    id := id
    peerIds := peerIds.filter (fun peerId => decide (peerId ≠ id))
    role := .follower none
    commitIndex := 0
    lastApplied := 0
    stateMachine := stateMachine
    pendingApplies := ∅
    effects := [] }

end RaftNode

end Raft
end KvRaft
