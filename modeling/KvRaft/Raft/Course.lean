import KvRaft.Raft.Safety

/-!
# The course of a handler

A handler of the model maps a node to the node it leaves behind, or to a panic. Some
properties are about the way there: what is in memory at the moment a message is sent, or
what a handler that panics in the end has done before.

The *course* of a handler is the list of nodes it goes through: the node each time it has
saved its state, sent a message, answered a client, applied an entry or changed its role.
Where the handler returns, it returns what the model of the handler says
(`RaftNode.course_result`); where it panics, what it has done stays done.

What one step of a course can do is the subject of `Turn`.
-/

namespace KvRaft
namespace Raft

variable {C O S : Type}

/-- The nodes a handler goes through, and what it returns. -/
structure Course (C O S : Type) where
  visited : List (RaftNode C O S)
  result : Except Panic (RaftNode C O S)

namespace Course

def stay (n : RaftNode C O S) : Course C O S := ⟨[], .ok n⟩

def visit (n : RaftNode C O S) : Course C O S := ⟨[n], .ok n⟩

def stop (e : Panic) : Course C O S := ⟨[], .error e⟩

/-- A function that has done nothing where it panics. -/
def attempt : Except Panic (RaftNode C O S) → Course C O S
  | .ok n => visit n
  | .error e => stop e

/-- First one course, then another from where it ended. -/
def andThen (c : Course C O S) (f : RaftNode C O S → Course C O S) : Course C O S :=
  match c.result with
  | .ok n => ⟨c.visited ++ (f n).visited, (f n).result⟩
  | .error e => ⟨c.visited, .error e⟩

end Course

namespace RaftNode

open Course

/-! ### The courses of the functions of `raft.rs` -/

def courseBroadcast (message : RaftMessage C) : List NodeId → RaftNode C O S → Course C O S
  | [], self => stay self
  | peerId :: peerIds, self =>
    (visit (self.sendMessage peerId message)).andThen (courseBroadcast message peerIds)

def courseHeartbeats : List NodeId → RaftNode C O S → Course C O S
  | [], self => stay self
  | peerId :: peerIds, self =>
    (attempt (self.heartbeatTo peerId)).andThen (courseHeartbeats peerIds)

def courseHeartbeat (self : RaftNode C O S) : Course C O S :=
  courseHeartbeats self.peerIds self

variable [RaftStateMachine S C O]

/-- `apply_committed`, with as many turns of its loop. -/
def courseApply : ℕ → RaftNode C O S → Course C O S
  | 0, self => stay self
  | turns + 1, self => (attempt (applyCommittedLoop 1 self)).andThen (courseApply turns)

/-- `advance_commit` and `apply_committed`. -/
def courseCommit (self : RaftNode C O S) : Course C O S :=
  (attempt self.advanceCommit).andThen fun self =>
    courseApply (self.commitIndex - self.lastApplied) self

def courseLeader (self : RaftNode C O S) : Course C O S :=
  (visit (crownedNode self).persistState).andThen fun self =>
    self.courseCommit.andThen courseHeartbeat

def courseCandidate (self : RaftNode C O S) : Course C O S :=
  if u64Max ≤ self.currentTerm then stop .addWithOverflow
  else if hasMajority 1 (self.peerIds.length + 1) then (standing self).courseLeader
  else
    match (standing self).lastLog with
    | .error e => stop e
    | .ok (lastLogIndex, lastLogTerm) =>
      (visit (standing self).persistState).andThen fun self =>
        courseBroadcast (.voteRequest
          { term := self.currentTerm
            candidateId := self.id
            lastLogIndex := lastLogIndex
            lastLogTerm := lastLogTerm }) self.peerIds self

def courseAppendResponse (self : RaftNode C O S) (fromId : NodeId) (msg : AppendResponse) :
    Course C O S :=
  if msg.term < self.currentTerm then stay self
  else if self.currentTerm < msg.term then visit (self.becomeFollower msg.term)
  else
    match self.role with
    | .leader nextIndex matchIndex =>
      let role :=
        if msg.success then
          Role.leader (nextIndex.insert fromId (msg.matchIndex + 1))
            (matchIndex.insert fromId msg.matchIndex)
        else
          Role.leader (nextIndex.insert fromId (max (msg.matchIndex - 1) 1)) matchIndex
      (visit { self with role := role }).andThen courseCommit
    | _ => stay self

/-- The commit index after a request was appended. -/
def followCommit (self : RaftNode C O S) (leaderCommit : ℕ) : RaftNode C O S :=
  if self.commitIndex < leaderCommit then
    { self with commitIndex := min leaderCommit (self.log.length - 1) }
  else self

def courseAppendAtPrev (self : RaftNode C O S) (fromId : NodeId) (msg : AppendRequest C) :
    Course C O S :=
  if self.log.length ≤ msg.prevLogIndex then
    if self.log.length = 0 then stop .subtractWithOverflow
    else
      visit (self.sendMessage fromId (.appendResponse
        { term := self.currentTerm, matchIndex := self.log.length - 1, success := false }))
  else
    match self.logAt msg.prevLogIndex with
    | .error e => stop e
    | .ok prev =>
      if prev.term ≠ msg.prevLogTerm then
        visit (self.sendMessage fromId (.appendResponse
          { term := self.currentTerm, matchIndex := msg.prevLogIndex, success := false }))
      else
        match self.appendEntries (msg.prevLogIndex + 1) msg.entries with
        | .error e => stop e
        | .ok self =>
          if self.commitIndex < msg.leaderCommit ∧ self.log.length = 0 then
            stop .subtractWithOverflow
          else
            (visit (self.followCommit msg.leaderCommit).persistState).andThen fun self =>
              (courseApply (self.commitIndex - self.lastApplied) self).andThen fun self =>
                visit (self.sendMessage fromId (.appendResponse
                  { term := self.currentTerm
                    matchIndex := msg.prevLogIndex + msg.entries.length
                    success := true }))

def courseAppendRequest (self : RaftNode C O S) (fromId : NodeId) (msg : AppendRequest C) :
    Course C O S :=
  if msg.term < self.currentTerm then
    visit (self.sendMessage fromId (.appendResponse
      { term := self.currentTerm, matchIndex := 0, success := false }))
  else
    (if self.currentTerm < msg.term then visit (self.becomeFollower msg.term)
      else stay self).andThen fun self =>
    if self.role.isLeader ∧ msg.term = self.currentTerm then stop .twoLeadersInTheSameTerm
    else
      (if self.role.isCandidate ∧ msg.term = self.currentTerm then
        visit (self.becomeFollower msg.term)
        else stay self).andThen fun self =>
      (match self.role with
        | .follower none => visit { self with role := .follower (some msg.leaderId) }
        | _ => stay self).andThen fun self =>
      self.courseAppendAtPrev fromId msg

def courseVoteRequest (self : RaftNode C O S) (fromId : NodeId) (msg : VoteRequest) :
    Course C O S :=
  if msg.term < self.currentTerm then
    visit (self.sendMessage fromId (.voteResponse
      { term := self.currentTerm, voteGranted := false }))
  else
    (if self.currentTerm < msg.term then visit (self.becomeFollower msg.term)
      else stay self).andThen fun self =>
    match self.lastLog with
    | .error e => stop e
    | .ok (lastLogIndex, lastLogTerm) =>
      if (self.votedFor = none ∨ self.votedFor = some msg.candidateId) ∧
          (lastLogTerm < msg.lastLogTerm ∨
            msg.lastLogTerm = lastLogTerm ∧ lastLogIndex ≤ msg.lastLogIndex) then
        (visit { self with votedFor := some msg.candidateId }.persistState).andThen fun self =>
          visit (self.sendMessage fromId (.voteResponse
            { term := self.currentTerm, voteGranted := true }))
      else
        visit (self.sendMessage fromId (.voteResponse
          { term := self.currentTerm, voteGranted := false }))

def courseVoteResponse (self : RaftNode C O S) (msg : VoteResponse) : Course C O S :=
  if msg.term < self.currentTerm then stay self
  else if self.currentTerm < msg.term then visit (self.becomeFollower msg.term)
  else
    match self.role, msg.voteGranted with
    | .candidate votesReceived, true =>
      (visit { self with role := .candidate (votesReceived + 1) }).andThen fun self =>
        if hasMajority (votesReceived + 1) (self.peerIds.length + 1) then self.courseLeader
        else stay self
    | _, _ => stay self

def courseCommand (self : RaftNode C O S) : ClientCommands C → Course C O S
  | .apply command reply =>
    match requireLeader self.role with
    | none =>
      let index := self.log.length
      let self := { self with
        log := self.log ++ [LogEntry.mk self.currentTerm (.command command)]
        pendingApplies := self.pendingApplies.insert index reply }
      (visit (self.emit (.accepted index self.currentTerm command reply)).persistState).andThen
        fun self => self.courseCommit.andThen courseHeartbeat
    | some err => visit (self.emit (.reply reply (.error err)))
  | .isLeader reply =>
    match requireLeader self.role with
    | none => visit (self.emit (.reply reply .isLeader))
    | some err => visit (self.emit (.reply reply (.error err)))
  | .getLog reply => visit (self.emit (.reply reply (.log self.log)))
  | .getLogEntry index reply => visit (self.emit (.reply reply (.logEntry self.log[index]?)))
  | .getStatus reply => visit (self.emit (.reply reply (.status self.status)))

/-- The course of the handler of an input. -/
def course (self : RaftNode C O S) : Input C → Course C O S
  | .electionTimeout => self.courseCandidate
  | .heartbeat => self.courseHeartbeat
  | .command command => self.courseCommand command
  | .message fromId (.appendRequest msg) => self.courseAppendRequest fromId msg
  | .message fromId (.appendResponse msg) => self.courseAppendResponse fromId msg
  | .message fromId (.voteRequest msg) => self.courseVoteRequest fromId msg
  | .message _ (.voteResponse msg) => self.courseVoteResponse msg

end RaftNode

/-! ### What a course returns -/

namespace Course

@[simp] theorem result_stay (n : RaftNode C O S) : (stay n).result = .ok n := rfl

@[simp] theorem result_visit (n : RaftNode C O S) : (visit n).result = .ok n := rfl

@[simp] theorem result_stop (e : Panic) : (stop e : Course C O S).result = .error e := rfl

@[simp]
theorem result_attempt (r : Except Panic (RaftNode C O S)) : (attempt r).result = r := by
  cases r <;> rfl

@[simp]
theorem result_andThen (c : Course C O S) (f : RaftNode C O S → Course C O S) :
    (c.andThen f).result = c.result >>= fun n => (f n).result := by
  unfold andThen
  cases c.result <;> rfl

end Course

namespace RaftNode

open Course

theorem courseBroadcast_result (message : RaftMessage C) : ∀ (ps : List NodeId)
    (n : RaftNode C O S), (courseBroadcast message ps n).result =
      .ok (ps.foldl (fun node peerId => node.sendMessage peerId message) n)
  | [], _ => rfl
  | p :: ps, n => by
    rw [courseBroadcast, result_andThen, result_visit, List.foldl_cons]
    exact courseBroadcast_result message ps _

theorem courseHeartbeats_result : ∀ (ps : List NodeId) (n : RaftNode C O S),
    (courseHeartbeats ps n).result = ps.foldlM heartbeatTo n
  | [], _ => rfl
  | p :: ps, n => by
    rw [courseHeartbeats, result_andThen, result_attempt, List.foldlM_cons]
    exact congrArg _ (funext fun n' => courseHeartbeats_result ps n')

theorem courseHeartbeat_result (n : RaftNode C O S) : n.courseHeartbeat.result = n.onHeartbeat :=
  courseHeartbeats_result n.peerIds n

variable [RaftStateMachine S C O]

theorem courseApply_result : ∀ (turns : ℕ) (n : RaftNode C O S),
    (courseApply turns n).result = applyCommittedLoop turns n
  | 0, _ => rfl
  | turns + 1, n => by
    rw [courseApply, result_andThen, result_attempt]
    refine Eq.trans ?_ (applyCommittedLoop_succ turns n).symm
    exact congrArg _ (funext fun n' => courseApply_result turns n')

theorem courseCommit_result (n : RaftNode C O S) :
    n.courseCommit.result = n.advanceCommit >>= applyCommitted := by
  rw [courseCommit, result_andThen, result_attempt]
  exact congrArg _ (funext fun n' => courseApply_result _ n')

/-- The tail of the handlers of a leader. -/
theorem courseTail_result (n : RaftNode C O S) :
    (n.courseCommit.andThen courseHeartbeat).result = (do
      let self ← n.advanceCommit
      let self ← self.applyCommitted
      self.onHeartbeat) := by
  rw [result_andThen, courseCommit_result, bind_assoc]
  exact congrArg _ (funext fun n' => congrArg _ (funext courseHeartbeat_result))

theorem courseLeader_result (n : RaftNode C O S) : n.courseLeader.result = n.becomeLeader := by
  rw [courseLeader, result_andThen, result_visit]
  exact courseTail_result _

theorem courseCandidate_result (n : RaftNode C O S) :
    n.courseCandidate.result = n.becomeCandidate := by
  unfold courseCandidate
  by_cases hterm : u64Max ≤ n.currentTerm
  · rw [becomeCandidate, if_pos hterm, if_pos hterm]
    rfl
  rw [if_neg hterm]
  by_cases halone : hasMajority 1 (n.peerIds.length + 1) = true
  · rw [becomeCandidate, if_neg hterm, if_pos halone]
    exact (courseLeader_result _).trans (if_pos halone).symm
  rw [if_neg halone, becomeCandidate_of_peers hterm halone]
  cases (standing n).lastLog with
  | error e => rfl
  | ok last => exact (result_andThen _ _).trans (courseBroadcast_result _ _ _)

theorem courseAppendResponse_result (n : RaftNode C O S) (p : NodeId) (msg : AppendResponse) :
    (n.courseAppendResponse p msg).result = n.appendResponse p msg := by
  unfold courseAppendResponse appendResponse
  split
  · rfl
  split
  · rfl
  cases n.role with
  | leader nextIndex matchIndex =>
    dsimp only
    rw [result_andThen, result_visit]
    exact courseCommit_result _
  | follower leader => rfl
  | candidate votes => rfl

theorem courseAppendAtPrev_result (n : RaftNode C O S) (p : NodeId) (msg : AppendRequest C) :
    (n.courseAppendAtPrev p msg).result = n.appendAtPrev p msg := by
  unfold courseAppendAtPrev appendAtPrev
  split
  · split <;> rfl
  cases n.logAt msg.prevLogIndex with
  | error e => rfl
  | ok prev =>
    simp only [bind, Except.bind]
    split
    · rfl
    cases n.appendEntries (msg.prevLogIndex + 1) msg.entries with
    | error e => rfl
    | ok n₁ =>
      dsimp only
      split
      · rfl
      · rw [result_andThen, result_visit]
        change Course.result (andThen _ _) = _
        rw [result_andThen, courseApply_result]
        rfl

theorem courseAppendRequest_result (n : RaftNode C O S) (p : NodeId) (msg : AppendRequest C) :
    (n.courseAppendRequest p msg).result = n.appendRequest p msg := by
  unfold courseAppendRequest appendRequest
  split
  · rfl
  -- each of the changes of role is made or left out
  have hmade : ∀ (q : Prop) [Decidable q] (m m' : RaftNode C O S)
      (f : RaftNode C O S → Course C O S),
      ((if q then visit m' else stay m).andThen f).result =
        (f (if q then m' else m)).result := by
    intro q _ m m' f
    split <;> rfl
  have hadopt : ∀ m : RaftNode C O S,
      ((match m.role with
        | .follower none => visit { m with role := .follower (some msg.leaderId) }
        | _ => stay m).andThen fun m => m.courseAppendAtPrev p msg).result =
      (match m.role with
        | .follower none => { m with role := .follower (some msg.leaderId) }
        | _ => m).appendAtPrev p msg := by
    intro m
    rw [← courseAppendAtPrev_result]
    rcases m.role with (_ | leader) | votes | ⟨nextIndex, matchIndex⟩ <;> rfl
  rw [hmade]
  generalize (if n.currentTerm < msg.term then n.becomeFollower msg.term else n) = m
  dsimp only
  split
  · rfl
  · rw [hmade]
    exact hadopt _

omit [RaftStateMachine S C O] in
/-- The end of `vote_request`, once the term of the request is entered. -/
theorem courseDecideVote_result (m : RaftNode C O S) (p : NodeId) (msg : VoteRequest) :
    (match m.lastLog with
      | .error e => (stop e : Course C O S)
      | .ok (lastLogIndex, lastLogTerm) =>
        if (m.votedFor = none ∨ m.votedFor = some msg.candidateId) ∧
            (lastLogTerm < msg.lastLogTerm ∨
              msg.lastLogTerm = lastLogTerm ∧ lastLogIndex ≤ msg.lastLogIndex) then
          (visit { m with votedFor := some msg.candidateId }.persistState).andThen fun m =>
            visit (m.sendMessage p (.voteResponse ⟨m.currentTerm, true⟩))
        else
          visit (m.sendMessage p (.voteResponse ⟨m.currentTerm, false⟩))).result = (do
      let (lastLogIndex, lastLogTerm) ← m.lastLog
      if (m.votedFor = none ∨ m.votedFor = some msg.candidateId) ∧
          (lastLogTerm < msg.lastLogTerm ∨
            msg.lastLogTerm = lastLogTerm ∧ lastLogIndex ≤ msg.lastLogIndex) then
        .ok ({ m with votedFor := some msg.candidateId }.persistState.sendMessage p
          (.voteResponse ⟨m.currentTerm, true⟩))
      else
        .ok (m.sendMessage p (.voteResponse ⟨m.currentTerm, false⟩))) := by
  cases m.lastLog with
  | error e => rfl
  | ok last =>
    simp only [bind, Except.bind]
    split <;> rfl

omit [RaftStateMachine S C O] in
theorem courseVoteRequest_result (n : RaftNode C O S) (p : NodeId) (msg : VoteRequest) :
    (n.courseVoteRequest p msg).result = n.voteRequest p msg := by
  unfold courseVoteRequest voteRequest
  split
  · rfl
  split <;> exact courseDecideVote_result _ p msg

theorem courseVoteResponse_result (n : RaftNode C O S) (msg : VoteResponse) :
    (n.courseVoteResponse msg).result = n.voteResponse msg := by
  unfold courseVoteResponse voteResponse
  split
  · rfl
  split
  · rfl
  cases n.role with
  | candidate votes =>
    cases msg.voteGranted with
    | false => rfl
    | true =>
      dsimp only
      rw [result_andThen, result_visit]
      change Course.result (ite _ _ _) = _
      split
      · exact courseLeader_result _
      · rfl
  | follower leader => rfl
  | leader nextIndex matchIndex => rfl

theorem courseCommand_result (n : RaftNode C O S) (command : ClientCommands C) :
    (n.courseCommand command).result = n.clientCommand command := by
  cases command with
  | apply command reply =>
    unfold courseCommand clientCommand
    cases requireLeader n.role with
    | none =>
      dsimp only
      rw [result_andThen, result_visit]
      exact courseTail_result _
    | some err => rfl
  | isLeader reply =>
    unfold courseCommand clientCommand
    cases requireLeader n.role <;> rfl
  | getLog reply => rfl
  | getLogEntry index reply => rfl
  | getStatus reply => rfl

/-- **A course ends where its handler ends.** -/
theorem course_result (n : RaftNode C O S) (input : Input C) :
    (n.course input).result = n.handle input := by
  cases input with
  | electionTimeout => exact n.courseCandidate_result
  | heartbeat => exact n.courseHeartbeat_result
  | command command => exact n.courseCommand_result command
  | message p m =>
    cases m with
    | appendRequest msg => exact n.courseAppendRequest_result p msg
    | appendResponse msg => exact n.courseAppendResponse_result p msg
    | voteRequest msg => exact n.courseVoteRequest_result p msg
    | voteResponse msg => exact n.courseVoteResponse_result msg

end RaftNode

end Raft
end KvRaft
