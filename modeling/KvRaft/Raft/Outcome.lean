import KvRaft.Raft.Redelivery

/-!
# What a handler does about replication

For any node, reachable or not: which requests and answers its handler sends, and how it
changes the two maps of a leader (`Outcome`). Requests are sent by `on_heartbeat` only, which
every handler that calls it calls last; so they are the requests of the node the handler
leaves behind. Answers are sent by `append_request` only, to the sender of the request.

A node that leads after a handler has led before with the same maps, has just been crowned,
or has counted an answer (`LeadsBy`). The results about single peers of a leader are read off
this list, and no handler is taken apart a second time.
-/

namespace KvRaft
namespace Raft

variable {C O S : Type} {n n' n₁ n₂ n₃ : RaftNode C O S} {input : Input C} {p : NodeId}
  {nextIndex matchIndex : PeerMap}

/-! ### Answers and maps -/

/-- What `append_request` answers. A request of an earlier term is refused with index 0, in
the term of the node that refuses it. -/
def AnswerTo (req : AppendRequest C) (msg : AppendResponse) : Prop :=
  if msg.success then
    msg.term = req.term ∧ msg.matchIndex = req.prevLogIndex + req.entries.length
  else msg.matchIndex = 0 ∨ msg.term = req.term ∧ msg.matchIndex ≤ req.prevLogIndex

/-- The maps after an answer of the own term was counted. -/
def countAnswer (p : NodeId) (msg : AppendResponse) (nextIndex matchIndex : PeerMap) :
    PeerMap × PeerMap :=
  if msg.success then
    (nextIndex.insert p (msg.matchIndex + 1), matchIndex.insert p msg.matchIndex)
  else (nextIndex.insert p (max (msg.matchIndex - 1) 1), matchIndex)

/-- The ways a node comes to lead with these maps. -/
inductive LeadsBy (input : Input C) (n n' : RaftNode C O S) (nextIndex matchIndex : PeerMap) : Prop
  /-- It led with them before, and has at most appended entries of its term. -/
  | kept (es : List (LogEntry C)) (hrole : n.role = .leader nextIndex matchIndex)
    (hterm : n'.currentTerm = n.currentTerm) (hlog : n'.log = n.log ++ es)
    (hes : ∀ e ∈ es, e.term = n.currentTerm)
  | crowned (hfrom : ((∃ votes, n.role = .candidate votes) ∧ n'.currentTerm = n.currentTerm) ∨
      n.peerIds = [])
    (hlog : n'.log = n.log ++ [⟨n'.currentTerm, .noOp⟩])
    (hmark : ∃ es, n'.effects = n.effects ++ .becameLeader n'.currentTerm n'.log :: es)
    (hnext : ∀ p, nextIndex.lookup p = if p ∈ n.peerIds then some n'.log.length else none)
    (hmatch : ∀ p, matchIndex.lookup p = if p ∈ n.peerIds then some 0 else none)
  | counted (p : NodeId) (msg : AppendResponse) (nextIndex₀ matchIndex₀ : PeerMap)
    (hin : input = .message p (.appendResponse msg)) (hmsg : msg.term = n.currentTerm)
    (hrole : n.role = .leader nextIndex₀ matchIndex₀) (hterm : n'.currentTerm = n.currentTerm)
    (hlog : n'.log = n.log)
    (hmaps : (nextIndex, matchIndex) = countAnswer p msg nextIndex₀ matchIndex₀)

/-! ### Effects -/

/-- An effect that is neither a request nor an answer of the replication. -/
def Aside (e : Effect C O S) : Prop :=
  match e with
  | .send _ (.appendRequest _) | .send _ (.appendResponse _) => False
  | _ => True

/-- What a node that is done with `input` may have sent. -/
def Replicates (input : Input C) (n : RaftNode C O S) (e : Effect C O S) : Prop :=
  match e with
  | .send p (.appendRequest msg) => p ∈ n.peerIds ∧ n.RequestOf p msg
  | .send p (.appendResponse msg) =>
    ∃ req, input = .message p (.appendRequest req) ∧ AnswerTo req msg
  | _ => True

theorem Aside.replicates {e : Effect C O S} (h : Aside e) (input : Input C)
    (n : RaftNode C O S) : Replicates input n e := by
  cases e with
  | send q m =>
    cases m with
    | appendRequest msg => exact h.elim
    | appendResponse msg => exact h.elim
    | _ => trivial
  | _ => trivial

/-- `n'` has the effects of `n` and some more, all of which satisfy `P`. -/
def Adds (P : Effect C O S → Prop) (n n' : RaftNode C O S) : Prop :=
  ∃ es, n'.effects = n.effects ++ es ∧ ∀ e ∈ es, P e

section Adds

variable {P Q : Effect C O S → Prop}

theorem Adds.refl (n : RaftNode C O S) : Adds P n n :=
  ⟨[], (List.append_nil _).symm, by simp⟩

theorem Adds.one {e : Effect C O S} (heff : n'.effects = n.effects ++ [e]) (he : P e) :
    Adds P n n' :=
  ⟨[e], heff, by simpa using he⟩

theorem Adds.trans (h₁ : Adds P n₁ n₂) (h₂ : Adds P n₂ n₃) : Adds P n₁ n₃ := by
  obtain ⟨es, hes, hP⟩ := h₁
  obtain ⟨es', hes', hP'⟩ := h₂
  refine ⟨es ++ es', by rw [hes', hes, List.append_assoc], fun e he => ?_⟩
  rcases List.mem_append.mp he with he | he
  · exact hP e he
  · exact hP' e he

theorem Adds.mono (h : Adds P n n') (hPQ : ∀ e, P e → Q e) : Adds Q n n' := by
  obtain ⟨es, hes, hP⟩ := h
  exact ⟨es, hes, fun e he => hPQ e (hP e he)⟩

theorem Adds.sendMessage (n : RaftNode C O S) (p : NodeId) (m : RaftMessage C)
    (hP : p ∈ n.peerIds → P (.send p m)) : Adds P n (n.sendMessage p m) := by
  unfold RaftNode.sendMessage
  split
  · next hp => exact Adds.one rfl (hP hp)
  · exact Adds.refl n

end Adds

/-- `n'` is `n` after effects that satisfy `P`; log and role are the same. -/
structure Passes (P : Effect C O S → Prop) (n n' : RaftNode C O S) : Prop where
  core : SameCore n n'
  id : n'.id = n.id
  effects : Adds P n n'

section Passes

variable {P Q : Effect C O S → Prop}

theorem Passes.refl (n : RaftNode C O S) : Passes P n n :=
  ⟨SameCore.refl n, rfl, Adds.refl n⟩

theorem Passes.trans (h₁ : Passes P n₁ n₂) (h₂ : Passes P n₂ n₃) : Passes P n₁ n₃ :=
  ⟨h₁.core.trans h₂.core, h₂.id.trans h₁.id, h₁.effects.trans h₂.effects⟩

theorem Passes.mono (h : Passes P n n') (hPQ : ∀ e, P e → Q e) : Passes Q n n' :=
  ⟨h.core, h.id, h.effects.mono hPQ⟩

theorem Passes.sendMessage (n : RaftNode C O S) (p : NodeId) (m : RaftMessage C)
    (hP : p ∈ n.peerIds → P (.send p m)) : Passes P n (n.sendMessage p m) := by
  refine ⟨?_, ?_, Adds.sendMessage n p m hP⟩
  · unfold RaftNode.sendMessage
    split <;> exact ⟨rfl, rfl, rfl, rfl⟩
  · unfold RaftNode.sendMessage
    split <;> rfl

end Passes

/-! ### The functions the handlers share -/

/-- What `become_follower` leaves. -/
structure Follows (n : RaftNode C O S) (term : ℕ) (n' : RaftNode C O S) : Prop where
  term : n'.currentTerm = max n.currentTerm term
  role : ∃ leader, n'.role = .follower leader
  log : n'.log = n.log
  commit : n'.commitIndex = n.commitIndex
  effects : Adds Aside n n'

theorem RaftNode.becomeFollower_follows (n : RaftNode C O S) (term : ℕ) :
    Follows n term (n.becomeFollower term) := by
  unfold RaftNode.becomeFollower
  split
  · next hlt => exact ⟨(max_eq_right hlt.le).symm, ⟨none, rfl⟩, rfl, rfl, Adds.one rfl trivial⟩
  · next hle =>
    exact ⟨(max_eq_left (not_lt.mp hle)).symm, ⟨none, rfl⟩, rfl, rfl, Adds.one rfl trivial⟩

theorem advanceCommit_passes (h : n.advanceCommit = .ok n') : Passes Aside n n' := by
  rcases RaftNode.advanceCommit_cases h with rfl | ⟨index, -, rfl⟩
  · exact Passes.refl n'
  · exact ⟨⟨rfl, rfl, rfl, rfl⟩, rfl, Adds.one rfl trivial⟩

theorem broadcast_passes {P : Effect C O S → Prop} (message : RaftMessage C) :
    ∀ (ps : List NodeId), (∀ q, P (.send q message)) → ∀ n : RaftNode C O S,
      Passes P n (ps.foldl (fun node peerId => node.sendMessage peerId message) n)
  | [], _, n => Passes.refl n
  | q :: ps, hP, n =>
    (Passes.sendMessage n q message fun _ => hP q).trans (broadcast_passes message ps hP _)

/-- A request does not look at what the node has done so far. -/
theorem RequestOf.of_same {msg : AppendRequest C} (hreq : n.RequestOf p msg)
    (hcore : SameCore n n') (hid : n'.id = n.id) (hcommit : n'.commitIndex = n.commitIndex) :
    n'.RequestOf p msg := by
  obtain ⟨nextIndex, matchIndex, next, prev, hrole, hnext, hpos, hle, hprev, rfl⟩ := hreq
  rw [← hcore.log] at hle hprev
  refine ⟨nextIndex, matchIndex, next, prev, hcore.role.trans hrole, hnext, hpos, hle, hprev, ?_⟩
  rw [hcore.term, hcore.log, hid, hcommit]

theorem heartbeats_passes : ∀ (ps : List NodeId) {n n' : RaftNode C O S},
    ps.foldlM RaftNode.heartbeatTo n = .ok n' → n'.commitIndex = n.commitIndex ∧
      Passes (fun e => ∃ p msg, e = .send p (.appendRequest msg) ∧ p ∈ n.peerIds ∧
        n.RequestOf p msg) n n'
  | [], n, n', h => by
    obtain rfl := Except.ok.inj h
    exact ⟨rfl, Passes.refl n⟩
  | p :: ps, n, n', h => by
    rw [List.foldlM_cons] at h
    cases hone : n.heartbeatTo p with
    | error e =>
      rw [hone] at h
      exact absurd h (by simp [bind, Except.bind])
    | ok m =>
      rw [hone] at h
      obtain ⟨msg, hreq, rfl⟩ := RaftNode.heartbeatTo_request hone
      have hsame : (n.sendMessage p (.appendRequest msg)).commitIndex = n.commitIndex := by
        unfold RaftNode.sendMessage
        split <;> rfl
      have hstep : Passes (fun e => ∃ p msg, e = .send p (.appendRequest msg) ∧ p ∈ n.peerIds ∧
          n.RequestOf p msg) n (n.sendMessage p (.appendRequest msg)) :=
        Passes.sendMessage n p _ fun hp => ⟨p, msg, rfl, hp, hreq⟩
      obtain ⟨hcommit, hrest⟩ := heartbeats_passes ps h
      -- the rest of the loop sends the requests of a node that differs in its effects only
      refine ⟨hcommit.trans hsame, hstep.trans (hrest.mono ?_)⟩
      rintro e ⟨q, req, rfl, hq, hreq'⟩
      exact ⟨q, req, rfl, hstep.core.peers ▸ hq,
        RequestOf.of_same hreq' hstep.core.symm hstep.id.symm hsame.symm⟩

/-- **What `on_heartbeat` sends** are the requests of the node it leaves. -/
theorem onHeartbeat_passes (input : Input C) (h : n.onHeartbeat = .ok n') :
    Passes (Replicates input n') n n' := by
  obtain ⟨hcommit, hpass⟩ := heartbeats_passes n.peerIds h
  refine hpass.mono ?_
  rintro e ⟨q, req, rfl, hq, hreq⟩
  exact ⟨hpass.core.peers ▸ hq, RequestOf.of_same hreq hpass.core hpass.id hcommit⟩

section Handlers

variable [RaftStateMachine S C O]

theorem applyLoop_passes : ∀ (turns : ℕ) {n n' : RaftNode C O S},
    RaftNode.applyCommittedLoop turns n = .ok n' →
      n'.commitIndex = n.commitIndex ∧ Passes Aside n n'
  | 0, n, n', h => by
    obtain rfl := Except.ok.inj h
    exact ⟨rfl, Passes.refl n⟩
  | turns + 1, n, n', h => by
    rw [applyCommittedLoop_succ] at h
    cases hone : RaftNode.applyCommittedLoop 1 n with
    | error e =>
      rw [hone] at h
      exact absurd h (by simp [bind, Except.bind])
    | ok m =>
      rw [hone] at h
      obtain ⟨hcommit, hpass⟩ := applyLoop_passes turns h
      have hturn : m.commitIndex = n.commitIndex ∧ Passes Aside n m := by
        obtain ⟨entry, -, ⟨term, -, rfl⟩ | ⟨term, cmd, -, ⟨-, rfl⟩ | ⟨reply, -, rfl⟩⟩⟩ :=
          RaftNode.lastApplied_turn hone
        · exact ⟨rfl, ⟨rfl, rfl, rfl, rfl⟩, rfl, Adds.one rfl trivial⟩
        · exact ⟨rfl, ⟨rfl, rfl, rfl, rfl⟩, rfl, Adds.one rfl trivial⟩
        · exact ⟨rfl, ⟨rfl, rfl, rfl, rfl⟩, rfl, _, List.append_assoc _ _ _, by simp [Aside]⟩
      exact ⟨hcommit.trans hturn.1, hturn.2.trans hpass⟩

/-- `advance_commit` and `apply_committed`. -/
theorem commit_passes (h : (n.advanceCommit >>= RaftNode.applyCommitted) = .ok n') :
    Passes Aside n n' := by
  cases hone : n.advanceCommit with
  | error e =>
    rw [hone] at h
    exact absurd h (by simp [bind, Except.bind])
  | ok m =>
    rw [hone] at h
    exact (advanceCommit_passes hone).trans (applyLoop_passes _ h).2

/-- The common end of `become_leader` and of an accepted `Apply`. -/
theorem leaderTail_passes (input : Input C) (h : (do
      let self ← n.advanceCommit
      let self ← self.applyCommitted
      self.onHeartbeat) = Except.ok n') : Passes (Replicates input n') n n' := by
  rw [← bind_assoc] at h
  cases hone : n.advanceCommit >>= RaftNode.applyCommitted with
  | error e =>
    rw [hone] at h
    exact absurd h (by simp [bind, Except.bind])
  | ok m =>
    rw [hone] at h
    exact ((commit_passes hone).mono fun _ he => he.replicates input n').trans
      (onHeartbeat_passes input h)

/-! ### The handlers -/

/-- What a handler does about replication. -/
structure Outcome (input : Input C) (n n' : RaftNode C O S) : Prop where
  effects : Adds (Replicates input n') n n'
  leads : ∀ nextIndex matchIndex, n'.role = .leader nextIndex matchIndex →
    LeadsBy input n n' nextIndex matchIndex

omit [RaftStateMachine S C O] in
/-- A node that does not lead any more leads with no maps. -/
theorem leads_of_follower (h : ∃ leader, n'.role = .follower leader)
    (hrole : n'.role = .leader nextIndex matchIndex) :
    LeadsBy input n n' nextIndex matchIndex := by
  obtain ⟨leader, hleader⟩ := h
  exact absurd (hleader.symm.trans hrole) (by simp)

omit [RaftStateMachine S C O] in
/-- A node whose log, term and role are the same leads as before. -/
theorem leads_of_same (h : SameCore n n') (hrole : n'.role = .leader nextIndex matchIndex) :
    LeadsBy input n n' nextIndex matchIndex :=
  LeadsBy.kept [] (h.role.symm.trans hrole) h.term (by rw [h.log, List.append_nil]) (by simp)

theorem becomeLeader_passes (input : Input C) (h : n.becomeLeader = .ok n') :
    Adds (Replicates input n') n n' ∧ n'.currentTerm = n.currentTerm ∧
      n'.log = n.log ++ [⟨n.currentTerm, .noOp⟩] ∧ n'.role = (crownedNode n).role ∧
      ∃ es, n'.effects = n.effects ++ .becameLeader n'.currentTerm n'.log :: es := by
  have htail : Passes (Replicates input n') (crownedNode n).persistState n' := leaderTail_passes input h
  refine ⟨Adds.trans ?_ htail.effects, htail.core.term, htail.core.log, htail.core.role, ?_⟩
  · exact ⟨[_, _], List.append_assoc n.effects [_] [_], by simp [Replicates]⟩
  · obtain ⟨es, hes, -⟩ := htail.effects
    refine ⟨.save ⟨n.currentTerm, n.votedFor, n.log ++ [⟨n.currentTerm, .noOp⟩]⟩ :: es, ?_⟩
    rw [hes, htail.core.term, htail.core.log]
    simp [crownedNode, RaftNode.persistState, RaftNode.emit]

/-- The maps of a leader that was just crowned. -/
theorem becomeLeader_leads (h : n.becomeLeader = .ok n') {m : RaftNode C O S}
    (hlog : n.log = m.log) (hpeers : n.peerIds = m.peerIds) (heffects : n.effects = m.effects)
    (hfrom : ((∃ votes, m.role = .candidate votes) ∧ n.currentTerm = m.currentTerm) ∨
      m.peerIds = []) (hrole : n'.role = .leader nextIndex matchIndex) :
    LeadsBy input m n' nextIndex matchIndex := by
  obtain ⟨-, hterm', hlog', hrole', hmark⟩ := becomeLeader_passes input h
  have hmaps : (crownedNode n).role = .leader nextIndex matchIndex := hrole'.symm.trans hrole
  obtain ⟨rfl, rfl⟩ := Role.leader.inj hmaps
  refine LeadsBy.crowned ?_ ?_ (heffects ▸ hmark) (fun p => ?_) (fun p => ?_)
  · rwa [hterm']
  · rw [hlog', hterm', hlog]
  · rw [lookup_foldl_insert, hpeers, hlog']
    simp
  · rw [lookup_foldl_insert, hpeers]
    simp

theorem becomeCandidate_outcome (h : n.becomeCandidate = .ok n') :
    Outcome input n n' := by
  rw [← RaftNode.courseCandidate_result, RaftNode.courseCandidate] at h
  split at h
  · exact absurd h (by simp)
  split at h
  · next halone =>
    rw [RaftNode.courseLeader_result] at h
    obtain ⟨heffects, -⟩ := becomeLeader_passes input h
    have hnil : n.peerIds = [] := by
      unfold hasMajority at halone
      rw [decide_eq_true_eq] at halone
      exact List.eq_nil_of_length_eq_zero (by omega)
    exact ⟨heffects, fun _ _ => becomeLeader_leads h rfl rfl rfl (Or.inr hnil)⟩
  split at h
  · exact absurd h (by simp)
  · -- the requests for votes are beside the replication
    rw [Course.result_andThen, Course.result_visit] at h
    change (RaftNode.courseBroadcast _ _ _).result = _ at h
    rw [RaftNode.courseBroadcast_result] at h
    have hpass : Passes Aside (standing n).persistState n' := by
      rw [← Except.ok.inj h]
      exact broadcast_passes _ _ (fun _ => trivial) _
    refine ⟨Adds.trans ?_ (hpass.effects.mono fun _ he => he.replicates input n'),
      fun _ _ hrole => ?_⟩
    · exact Adds.one rfl trivial
    · rw [hpass.core.role] at hrole
      exact absurd hrole (by simp [standing, RaftNode.persistState, RaftNode.emit])

/-- A leader counts an answer of its own term. -/
theorem appendResponse_counts {msg : AppendResponse} (hrole : n.role = .leader nextIndex matchIndex)
    (hterm : msg.term = n.currentTerm) (h : n.appendResponse p msg = .ok n') :
    n'.role = .leader (countAnswer p msg nextIndex matchIndex).1
        (countAnswer p msg nextIndex matchIndex).2 ∧
      n'.currentTerm = n.currentTerm ∧ n'.log = n.log ∧ Adds Aside n n' := by
  simp only [RaftNode.appendResponse, hterm, lt_irrefl, if_false, hrole] at h
  have hpass := commit_passes h
  refine ⟨hpass.core.role.trans ?_, hpass.core.term, hpass.core.log, hpass.effects⟩
  unfold countAnswer
  dsimp only
  split <;> rfl

theorem appendResponse_outcome {msg : AppendResponse}
    (hin : input = .message p (.appendResponse msg)) (h : n.appendResponse p msg = .ok n') :
    Outcome input n n' := by
  have hcounts := h
  unfold RaftNode.appendResponse at h
  split at h
  · obtain rfl := Except.ok.inj h
    exact ⟨Adds.refl n, fun _ _ => leads_of_same (SameCore.refl n)⟩
  split at h
  · obtain rfl := Except.ok.inj h
    have hf := n.becomeFollower_follows msg.term
    exact ⟨hf.effects.mono fun _ he => he.replicates input _, fun _ _ => leads_of_follower hf.role⟩
  split at h
  · next hge hle nextIndex₀ matchIndex₀ hrole₀ =>
    have hmsg : msg.term = n.currentTerm := by omega
    obtain ⟨hrole', hterm, hlog, heffects⟩ := appendResponse_counts hrole₀ hmsg hcounts
    refine ⟨heffects.mono fun _ he => he.replicates input n', fun _ _ hrole => ?_⟩
    obtain ⟨hnext, hmatch⟩ := Role.leader.inj (hrole.symm.trans hrole')
    exact LeadsBy.counted p msg nextIndex₀ matchIndex₀ hin hmsg hrole₀ hterm hlog
      (Prod.ext hnext hmatch)
  · obtain rfl := Except.ok.inj h
    exact ⟨Adds.refl n, fun _ _ => leads_of_same (SameCore.refl n)⟩

/-- **The tail of `append_request`**: a refusal that changes nothing, or a splice, a save, the
loop of `apply_committed` and the answer. -/
theorem appendAtPrev_cases {req : AppendRequest C} (h : n.appendAtPrev p req = .ok n') :
    (∃ k ≤ req.prevLogIndex, n' = n.sendMessage p (.appendResponse
        { term := n.currentTerm, matchIndex := k, success := false })) ∨
      ∃ m n₁, n.appendEntries (req.prevLogIndex + 1) req.entries = .ok m ∧
        (m.followCommit req.leaderCommit).persistState.applyCommitted = .ok n₁ ∧
        n' = n₁.sendMessage p (.appendResponse
          { term := n₁.currentTerm
            matchIndex := req.prevLogIndex + req.entries.length
            success := true }) := by
  rw [← RaftNode.courseAppendAtPrev_result, RaftNode.courseAppendAtPrev] at h
  split at h
  · next hshort =>
    split at h
    · exact absurd h (by simp)
    · exact Or.inl ⟨n.log.length - 1, by omega, (Except.ok.inj h).symm⟩
  split at h
  · exact absurd h (by simp)
  split at h
  · exact Or.inl ⟨req.prevLogIndex, le_rfl, (Except.ok.inj h).symm⟩
  split at h
  · exact absurd h (by simp)
  · next m hloop =>
    split at h
    · exact absurd h (by simp)
    · rw [Course.result_andThen, Course.result_visit] at h
      change (Course.andThen _ _).result = _ at h
      rw [Course.result_andThen, RaftNode.courseApply_result] at h
      cases happly : RaftNode.applyCommittedLoop _ (m.followCommit req.leaderCommit).persistState with
      | error e =>
        rw [happly] at h
        exact absurd h (by simp [bind, Except.bind])
      | ok n₁ =>
        rw [happly] at h
        exact Or.inr ⟨m, n₁, hloop, happly, (Except.ok.inj h).symm⟩

omit [RaftStateMachine S C O] in
/-- The commit index after a request was appended is its own or that of the request. -/
theorem followCommit_cases (m : RaftNode C O S) (leaderCommit : ℕ) :
    ∃ commit, m.followCommit leaderCommit = { m with commitIndex := commit } ∧
      (commit = m.commitIndex ∨ commit ≤ leaderCommit) := by
  unfold RaftNode.followCommit
  split
  · exact ⟨_, rfl, Or.inr (min_le_left _ _)⟩
  · exact ⟨m.commitIndex, rfl, Or.inl rfl⟩

/-- The tail of `append_request` keeps term and role, raises the commit index to what the
request says at most, and answers the sender once. -/
theorem appendAtPrev_outcome {req : AppendRequest C} (h : n.appendAtPrev p req = .ok n') :
    n'.role = n.role ∧ n'.currentTerm = n.currentTerm ∧
      (n'.commitIndex = n.commitIndex ∨ n'.commitIndex ≤ req.leaderCommit) ∧
      (n.currentTerm = req.term → Adds (fun e => Aside e ∨ ∃ msg,
        e = .send p (.appendResponse msg) ∧ AnswerTo req msg) n n') := by
  have hsame : ∀ (m : RaftNode C O S) (msg : RaftMessage C),
      (m.sendMessage p msg).commitIndex = m.commitIndex := by
    intro m msg
    unfold RaftNode.sendMessage
    split <;> rfl
  have hcore : ∀ (m : RaftNode C O S) (msg : RaftMessage C), SameCore m (m.sendMessage p msg) :=
    fun m msg => (Passes.sendMessage (P := fun _ => True) m p msg fun _ => trivial).core
  rcases appendAtPrev_cases h with ⟨k, hk, rfl⟩ | ⟨m, n₁, hloop, happly, rfl⟩
  · refine ⟨(hcore _ _).role, (hcore _ _).term, Or.inl (hsame _ _), fun hterm => ?_⟩
    exact Adds.sendMessage n p _ fun _ => Or.inr ⟨_, rfl, Or.inr ⟨hterm, hk⟩⟩
  · obtain ⟨log, es, rfl, hes⟩ := RaftNode.appendEntries_log _ _ hloop
    obtain ⟨commit, hfollow, hcommit⟩ := followCommit_cases
      { n with log := log, effects := n.effects ++ es } req.leaderCommit
    rw [hfollow] at happly
    obtain ⟨hcommit₁, hpass⟩ := applyLoop_passes _ happly
    have hcommit₂ : n₁.commitIndex = commit := hcommit₁
    refine ⟨(hcore _ _).role.trans hpass.core.role, (hcore _ _).term.trans hpass.core.term, ?_,
      fun hterm => ?_⟩
    · rw [hsame, hcommit₂]
      exact hcommit
    · -- the cuts, the save and what is applied come before the answer
      have hbefore : Adds Aside n n₁ := by
        refine Adds.trans ⟨es ++ [.save _], List.append_assoc n.effects es _, fun e he => ?_⟩
          hpass.effects
        rcases List.mem_append.mp he with he | he
        · obtain ⟨k, rfl⟩ := hes e he
          trivial
        · rw [List.mem_singleton.mp he]
          trivial
      refine (hbefore.mono fun _ he => Or.inl he).trans (Adds.sendMessage n₁ p _ fun _ => ?_)
      exact Or.inr ⟨_, rfl, hpass.core.term.trans hterm, rfl⟩

/-- Up to its tail, `append_request` has made a follower of the node, or has refused a
request of an earlier term. -/
theorem appendRequest_cases {req : AppendRequest C} (h : n.appendRequest p req = .ok n') :
    n' = n.sendMessage p (.appendResponse
        { term := n.currentTerm, matchIndex := 0, success := false }) ∨
      ∃ m, Follows n req.term m ∧ m.currentTerm = req.term ∧ m.appendAtPrev p req = .ok n' := by
  unfold RaftNode.appendRequest at h
  split at h
  · exact Or.inl (Except.ok.inj h).symm
  · next hge =>
    right
    dsimp only at h
    -- the term of the request, which a leader of that term cannot receive
    obtain ⟨m, hm, hmterm, hmlog, hmcommit, hmeffects, hmrole⟩ : ∃ m,
        (if n.currentTerm < req.term then n.becomeFollower req.term else n) = m ∧
          m.currentTerm = req.term ∧ m.log = n.log ∧ m.commitIndex = n.commitIndex ∧
          Adds Aside n m ∧ (n.currentTerm < req.term → ∃ leader, m.role = .follower leader) := by
      split
      · next hlt =>
        have hf := n.becomeFollower_follows req.term
        exact ⟨_, rfl, by rw [hf.term]; omega, hf.log, hf.commit, hf.effects, fun _ => hf.role⟩
      · next hle => exact ⟨n, rfl, by omega, rfl, rfl, Adds.refl n, fun hlt => absurd hlt hle⟩
    rw [hm] at h
    split at h
    · exact absurd h (by simp)
    · next hlead =>
      have hterm : req.term = max n.currentTerm req.term := by omega
      obtain ⟨m₁, hm₁, hf₁, hm₁term⟩ : ∃ m₁,
          (if m.role.isCandidate = true ∧ req.term = m.currentTerm then
            m.becomeFollower req.term else m) = m₁ ∧
            Follows n req.term m₁ ∧ m₁.currentTerm = req.term := by
        split
        · next hcand =>
          have hf := m.becomeFollower_follows req.term
          have hfterm : (m.becomeFollower req.term).currentTerm = req.term := by
            rw [hf.term, hmterm, max_self]
          exact ⟨_, rfl, ⟨hfterm.trans hterm, hf.role, hf.log.trans hmlog,
            hf.commit.trans hmcommit, hmeffects.trans hf.effects⟩, hfterm⟩
        · next hcand =>
          refine ⟨m, rfl, ⟨hmterm.trans hterm, ?_, hmlog, hmcommit, hmeffects⟩, hmterm⟩
          cases hrole : m.role with
          | follower leader => exact ⟨leader, rfl⟩
          | candidate votes =>
            exact absurd ⟨by rw [hrole]; rfl, hmterm.symm⟩ hcand
          | leader nextIndex matchIndex =>
            exact absurd ⟨by rw [hrole]; rfl, hmterm.symm⟩ hlead
      rw [hm₁] at h
      split at h
      · exact ⟨{ m₁ with role := .follower (some req.leaderId) },
          ⟨hf₁.term, ⟨_, rfl⟩, hf₁.log, hf₁.commit, hf₁.effects⟩, hm₁term, h⟩
      · exact ⟨m₁, hf₁, hm₁term, h⟩

/-- A node that commits more while it handles a request is a follower in the term of the
request, and commits what the request says at most. -/
theorem appendRequest_commit {req : AppendRequest C} (h : n.appendRequest p req = .ok n')
    (hraise : n.commitIndex < n'.commitIndex) :
    n'.currentTerm = req.term ∧ n'.commitIndex ≤ req.leaderCommit := by
  rcases appendRequest_cases h with rfl | ⟨m, hf, hterm, htail⟩
  · have hsame : (n.sendMessage p (.appendResponse
        { term := n.currentTerm, matchIndex := 0, success := false })).commitIndex =
        n.commitIndex := by
      unfold RaftNode.sendMessage
      split <;> rfl
    omega
  · obtain ⟨-, hterm', hcommit, -⟩ := appendAtPrev_outcome htail
    have := hf.commit
    exact ⟨hterm'.trans hterm, by omega⟩

theorem appendRequest_outcome {req : AppendRequest C}
    (hin : input = .message p (.appendRequest req)) (h : n.appendRequest p req = .ok n') :
    Outcome input n n' := by
  rcases appendRequest_cases h with rfl | ⟨m, hf, hterm, htail⟩
  · have hpass := Passes.sendMessage n p (.appendResponse
      { term := n.currentTerm, matchIndex := 0, success := false })
      (P := fun e => ∃ msg, e = .send p (.appendResponse msg) ∧ AnswerTo req msg)
      fun _ => ⟨_, rfl, Or.inl rfl⟩
    refine ⟨hpass.effects.mono ?_, fun _ _ => leads_of_same hpass.core⟩
    rintro e ⟨msg, rfl, hanswer⟩
    exact ⟨req, hin, hanswer⟩
  · obtain ⟨hrole, -, -, heffects⟩ := appendAtPrev_outcome htail
    refine ⟨(hf.effects.mono fun _ he => he.replicates input n').trans
      ((heffects hterm).mono ?_), fun _ _ => leads_of_follower (hrole ▸ hf.role)⟩
    rintro e (he | ⟨msg, rfl, hanswer⟩)
    · exact he.replicates input n'
    · exact ⟨req, hin, hanswer⟩

omit [RaftStateMachine S C O] in
theorem voteRequest_outcome {msg : VoteRequest} (h : n.voteRequest p msg = .ok n') :
    Outcome input n n' := by
  unfold RaftNode.voteRequest at h
  split at h
  · obtain rfl := Except.ok.inj h
    have hpass := Passes.sendMessage (P := Aside) n p (.voteResponse
      { term := n.currentTerm, voteGranted := false }) fun _ => trivial
    exact ⟨hpass.effects.mono fun _ he => he.replicates input _, fun _ _ =>
      leads_of_same hpass.core⟩
  · dsimp only at h
    obtain ⟨m, hm, hmeffects, hmrole⟩ : ∃ m,
        (if n.currentTerm < msg.term then n.becomeFollower msg.term else n) = m ∧
          Adds Aside n m ∧ ((∃ leader, m.role = .follower leader) ∨ SameCore n m) := by
      split
      · have hf := n.becomeFollower_follows msg.term
        exact ⟨_, rfl, hf.effects, Or.inl hf.role⟩
      · exact ⟨n, rfl, Adds.refl n, Or.inr (SameCore.refl n)⟩
    rw [hm] at h
    cases hlast : m.lastLog with
    | error e =>
      rw [hlast] at h
      exact absurd h (by simp [bind, Except.bind])
    | ok last =>
      simp only [hlast, bind, Except.bind] at h
      have hstep : Adds Aside m n' ∧ SameCore m n' := by
        split at h
        · obtain rfl := Except.ok.inj h
          have hpass := Passes.sendMessage (P := Aside)
            (RaftNode.persistState { m with votedFor := some msg.candidateId }) p (.voteResponse
              { term := m.currentTerm, voteGranted := true }) fun _ => trivial
          refine ⟨Adds.trans (Adds.one (e := .save _) rfl trivial) hpass.effects,
            SameCore.trans ?_ hpass.core⟩
          exact ⟨rfl, rfl, rfl, rfl⟩
        · obtain rfl := Except.ok.inj h
          have hpass := Passes.sendMessage (P := Aside) m p (.voteResponse
            { term := m.currentTerm, voteGranted := false }) fun _ => trivial
          exact ⟨hpass.effects, hpass.core⟩
      refine ⟨(hmeffects.trans hstep.1).mono fun _ he => he.replicates input n', fun _ _ => ?_⟩
      rcases hmrole with hfollower | hsame
      · exact leads_of_follower (hstep.2.role ▸ hfollower)
      · exact leads_of_same (hsame.trans hstep.2)

theorem voteResponse_outcome {msg : VoteResponse} (h : n.voteResponse msg = .ok n') :
    Outcome input n n' := by
  unfold RaftNode.voteResponse at h
  split at h
  · obtain rfl := Except.ok.inj h
    exact ⟨Adds.refl n, fun _ _ => leads_of_same (SameCore.refl n)⟩
  split at h
  · obtain rfl := Except.ok.inj h
    have hf := n.becomeFollower_follows msg.term
    exact ⟨hf.effects.mono fun _ he => he.replicates input _, fun _ _ => leads_of_follower hf.role⟩
  split at h
  · next votes hrole _ =>
    dsimp only at h
    split at h
    · obtain ⟨heffects, -⟩ := becomeLeader_passes input h
      refine ⟨Adds.trans (Adds.refl n) heffects, fun _ _ => ?_⟩
      exact becomeLeader_leads h rfl rfl rfl (Or.inl ⟨⟨votes, hrole⟩, rfl⟩)
    · obtain rfl := Except.ok.inj h
      exact ⟨Adds.refl n, fun _ _ hlead => absurd hlead (by simp)⟩
  · obtain rfl := Except.ok.inj h
    exact ⟨Adds.refl n, fun _ _ => leads_of_same (SameCore.refl n)⟩

theorem clientCommand_outcome {command : ClientCommands C} (h : n.clientCommand command = .ok n') :
    Outcome input n n' := by
  have hreply : ∀ (reply : Sender) (answer : Reply C O), n.emit (.reply reply answer) = n' →
      Outcome input n n' := by
    rintro reply answer rfl
    exact ⟨Adds.one rfl trivial, fun _ _ => leads_of_same ⟨rfl, rfl, rfl, rfl⟩⟩
  cases command with
  | apply command reply =>
    unfold RaftNode.clientCommand at h
    dsimp only at h
    split at h
    · have hpass := leaderTail_passes input h
      refine ⟨Adds.trans ⟨[_, _], List.append_assoc n.effects [_] [_], by simp [Replicates]⟩
        hpass.effects, fun _ _ hrole => ?_⟩
      refine LeadsBy.kept [⟨n.currentTerm, .command command⟩] (hpass.core.role.symm.trans hrole)
        hpass.core.term hpass.core.log ?_
      simp
    · exact hreply _ _ (Except.ok.inj h)
  | isLeader reply =>
    unfold RaftNode.clientCommand at h
    dsimp only at h
    split at h
    · exact hreply _ _ (Except.ok.inj h)
    · exact hreply _ _ (Except.ok.inj h)
  | getLog reply => exact hreply _ _ (Except.ok.inj h)
  | getLogEntry index reply => exact hreply _ _ (Except.ok.inj h)
  | getStatus reply => exact hreply _ _ (Except.ok.inj h)

/-- **What a handler does about replication**: it sends the requests of the node it leaves,
answers the request it handles, and leads as before, as a new leader, or with one answer
counted. -/
theorem handle_outcome (h : n.handle input = .ok n') :
    Outcome input n n' := by
  cases input with
  | electionTimeout => exact becomeCandidate_outcome h
  | heartbeat =>
    have hpass := onHeartbeat_passes .heartbeat h
    exact ⟨hpass.effects, fun _ _ => leads_of_same hpass.core⟩
  | command command => exact clientCommand_outcome h
  | message p m =>
    cases m with
    | appendRequest req => exact appendRequest_outcome rfl h
    | appendResponse msg => exact appendResponse_outcome rfl h
    | voteRequest msg => exact voteRequest_outcome h
    | voteResponse msg => exact voteResponse_outcome h

end Handlers

end Raft
end KvRaft
