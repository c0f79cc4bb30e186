import KvRaft.Raft.Ledger
import KvRaft.Run.Possible

/-!
# A majority can elect a leader

Whatever a cluster has been through, any majority `Q` of its nodes can elect a leader without
the others, who may be down for good. `Cluster.Among` are the steps in which a node of `Q`
handles an input: nobody crashes and no message is lost.

Not every node of `Q` can win. Where no node of the latest term leads it, the one with the best
log (the latest last term, then the greatest length) is brought into the latest term by the
request of a node that is there, and stands: everybody else in `Q` is in an earlier term then,
has not voted in the new one and finds the candidate's log up to date (`Contender`). The grants
come in one by one (`Canvassing`), and the last of them makes a majority.
-/

namespace KvRaft
namespace Raft

open TermLog

variable {C O S : Type} [RaftStateMachine S C O]
variable {ids : List NodeId} {machine : S} {Q : Finset NodeId} {s t u : Cluster C O S}
  {i l p : NodeId} {n n' : RaftNode C O S} {input : Input C}

/-! ### Steps of a part of the cluster -/

/-- A step in which a node of `Q` handles an input. -/
def Cluster.Among (ids : List NodeId) (machine : S) (Q : Finset NodeId) (s t : Cluster C O S) :
    Prop :=
  ∃ source i input u, s.offer ids source = some (i, input, u) ∧ i ∈ Q ∧
    s.exec ids machine (.run source) = some t

/-- From every reachable cluster of `P`, the nodes of `Q` alone can get to one of `P'`. -/
abbrev Attainable (ids : List NodeId) (machine : S) (Q : Finset NodeId)
    (P P' : Cluster C O S → Prop) : Prop :=
  Possible (Cluster.Among ids machine Q) (Cluster.Reachable ids machine) P P'

theorem Cluster.Among.reachable (s t : Cluster C O S) (hs : s.Reachable ids machine)
    (h : Cluster.Among ids machine Q s t) : t.Reachable ids machine := by
  obtain ⟨source, i, input, u, -, -, hexec⟩ := h
  exact Relation.ReflTransGen.tail hs ⟨_, hexec⟩

/-- What there is after node `i` has handled `input`, which made it `n`. -/
structure Turned (s : Cluster C O S) (i : NodeId) (input : Input C) (n : RaftNode C O S)
    (t : Cluster C O S) : Prop where
  handle : (s.node i).handle input = .ok n
  self : t.node i = { n with effects := [] }
  other : ∀ j, j ≠ i → t.node j = s.node j
  trace : t.trace = s.trace ++ n.effects.map (Prod.mk i)
  sent : ∀ p m, .send p m ∈ n.effects → ⟨i, p, m⟩ ∈ t.network
  /-- No message is gone but the one that was handled. -/
  kept : ∀ env ∈ s.network, env ∈ t.network ∨
    i = env.toId ∧ input = .message env.fromId env.message
  nextReply : (∀ command, input ≠ .command command) → t.nextReply = s.nextReply

/-- **Whatever is offered to a node of `Q` can be handled.** -/
theorem Cluster.Reachable.turn (h : s.Reachable ids machine) (hnd : ids.Nodup) {source : Source C}
    (ho : s.offer ids source = some (i, input, u)) (hi : i ∈ Q) :
    ∃ n t, Cluster.Among ids machine Q s t ∧ Turned s i input n t := by
  obtain ⟨a, ha⟩ := h.rel hnd
  obtain ⟨-, held, hsync, hin, hsame⟩ := ha.offered ho
  obtain ⟨n, a', held', hn, -, -⟩ := hsync.handle hnd (ha.offered ho).1 hin
  have hexec : s.exec ids machine (.run source) = some (u.settle i n) := by
    simp only [Cluster.exec, ho, hn]
  have hnetwork : ∀ env, env ∈ (u.settle i n).network ↔
      env ∈ u.network ∨ env.fromId = i ∧ .send env.toId env.message ∈ n.effects :=
    fun env => Cluster.mem_network_perform i n.effects u
  refine ⟨n, u.settle i n, ⟨source, i, input, u, ho, hi, hexec⟩, hsame ▸ hn,
    Cluster.settle_node_self u i n, fun j hj => ?_, ?_, fun p m hm => ?_, fun env henv => ?_,
    fun hplain => ?_⟩
  · rw [Cluster.settle_node_of_ne u n hj, hsame]
  · rw [Cluster.settle_trace, Cluster.offer_trace ho]
  · exact (hnetwork _).mpr (Or.inr ⟨rfl, hm⟩)
  · rw [hnetwork]
    rcases Cluster.offer_cases ho with ⟨-, -, -, -, -, rfl⟩ | ⟨-, -, -, -, rfl⟩ |
      ⟨command, -, -, -, -, rfl⟩ | ⟨k, taken, -, hk, rfl, rfl, rfl⟩
    · exact Or.inl (Or.inl henv)
    · exact Or.inl (Or.inl henv)
    · exact Or.inl (Or.inl henv)
    · -- a message that is not the one taken out of the network stays
      by_cases heq : env = taken
      · subst heq
        exact Or.inr ⟨rfl, rfl⟩
      · obtain ⟨hlt, rfl⟩ := List.getElem?_eq_some_iff.mp hk
        have hmem := (List.getElem_cons_eraseIdx_perm hlt).mem_iff.mpr henv
        exact Or.inl (Or.inl ((List.mem_cons.mp hmem).resolve_left heq))
  · change (u.perform i n.effects).nextReply = s.nextReply
    rw [Cluster.perform_nextReply]
    rcases Cluster.offer_cases ho with ⟨-, -, -, -, -, rfl⟩ | ⟨-, -, -, -, rfl⟩ |
      ⟨command, -, rfl, -, -, rfl⟩ | ⟨k, taken, -, -, rfl, -, rfl⟩
    · rfl
    · rfl
    · exact absurd rfl (hplain command)
    · rfl

theorem Cluster.Reachable.timeOut (h : s.Reachable ids machine) (hnd : ids.Nodup) (hi : i ∈ Q)
    (hmem : i ∈ ids) (hlead : (s.node i).role.isLeader = false)
    (hroom : (s.node i).currentTerm + 1 < u64Max) :
    ∃ n t, Cluster.Among ids machine Q s t ∧ Turned s i .electionTimeout n t := by
  have ho : s.offer ids (.electionTimeout i) = some (i, .electionTimeout, s) :=
    if_pos ⟨hmem, hlead, hroom⟩
  exact h.turn hnd ho hi

theorem Cluster.Reachable.beat (h : s.Reachable ids machine) (hnd : ids.Nodup) (hi : i ∈ Q)
    (hmem : i ∈ ids) (hlead : (s.node i).role.isLeader = true) :
    ∃ n t, Cluster.Among ids machine Q s t ∧ Turned s i .heartbeat n t := by
  have ho : s.offer ids (.heartbeat i) = some (i, .heartbeat, s) := if_pos ⟨hmem, hlead⟩
  exact h.turn hnd ho hi

/-- Any message in flight to a node of `Q` can be delivered next. -/
theorem Cluster.Reachable.receive (h : s.Reachable ids machine) (hnd : ids.Nodup) (hp : p ∈ Q)
    {m : RaftMessage C} (hnet : ⟨i, p, m⟩ ∈ s.network) :
    ∃ n t, Cluster.Among ids machine Q s t ∧ Turned s p (.message i m) n t := by
  obtain ⟨k, hk⟩ := List.mem_iff_getElem?.mp hnet
  have ho : s.offer ids (.deliver k) =
      some (p, .message i m, { s with network := s.network.eraseIdx k }) := by
    simp only [Cluster.offer, hk]
  exact h.turn hnd ho hp

/-! ### Standing and voting -/

section Voting

/-- `vote_request` finds the log of the candidate up to date. -/
def UpToDate (n : RaftNode C O S) (msg : VoteRequest) : Prop :=
  ∃ last, n.lastLog = .ok last ∧
    (last.2 < msg.lastLogTerm ∨ msg.lastLogTerm = last.2 ∧ last.1 ≤ msg.lastLogIndex)

omit [RaftStateMachine S C O] in
/-- A request of a later term makes a follower of the node, and gets its vote if the log of the
candidate is up to date. -/
theorem voteRequest_later {msg : VoteRequest} (hlt : n.currentTerm < msg.term)
    (h : n.voteRequest l msg = .ok n') :
    n'.currentTerm = msg.term ∧ n'.role.isLeader = false ∧ n'.log = n.log ∧
      (UpToDate n msg → l ∈ n.peerIds →
        .send l (.voteResponse ⟨msg.term, true⟩) ∈ n'.effects) := by
  obtain ⟨m, hm, hvote, hterm, hrole, hlog, hpeers⟩ : ∃ m, n.becomeFollower msg.term = m ∧
      m.votedFor = none ∧ m.currentTerm = msg.term ∧ m.role = .follower none ∧ m.log = n.log ∧
      m.peerIds = n.peerIds := by
    refine ⟨_, rfl, ?_⟩
    unfold RaftNode.becomeFollower
    rw [if_pos hlt]
    exact ⟨rfl, rfl, rfl, rfl, rfl⟩
  have hlast : m.lastLog = n.lastLog := by
    unfold RaftNode.lastLog
    rw [hlog]
  have hfollower : m.role.isLeader = false := by rw [hrole]; rfl
  unfold RaftNode.voteRequest at h
  rw [if_neg hlt.not_gt] at h
  simp only [if_pos hlt, hm, hlast] at h
  cases hl : n.lastLog with
  | error e =>
    rw [hl] at h
    exact absurd h (by simp [bind, Except.bind])
  | ok last =>
    simp only [hl, bind, Except.bind] at h
    split at h
    · obtain rfl := Except.ok.inj h
      have hpass := Passes.sendMessage (P := fun _ => True)
        (RaftNode.persistState { m with votedFor := some msg.candidateId }) l
        (.voteResponse ⟨m.currentTerm, true⟩) fun _ => trivial
      refine ⟨hpass.core.term.trans hterm, by rw [hpass.core.role]; exact hfollower,
        hpass.core.log.trans hlog, fun _ hback => ?_⟩
      rw [sendMessage_of_mem (show l ∈ (RaftNode.persistState
        { m with votedFor := some msg.candidateId }).peerIds from hpeers ▸ hback), hterm]
      exact List.mem_append_right _ (List.mem_singleton_self _)
    · next hno =>
      obtain rfl := Except.ok.inj h
      have hpass := Passes.sendMessage (P := fun _ => True) m l
        (.voteResponse ⟨m.currentTerm, false⟩) fun _ => trivial
      refine ⟨hpass.core.term.trans hterm, by rw [hpass.core.role]; exact hfollower,
        hpass.core.log.trans hlog, fun hup _ => ?_⟩
      -- nobody has this node's vote in the new term, so only the log can have been in the way
      obtain ⟨last', hlast', hup⟩ := hup
      obtain rfl := Except.ok.inj (hl.symm.trans hlast')
      exact absurd ⟨Or.inl hvote, hup⟩ hno

omit [RaftStateMachine S C O] in
theorem broadcastMessage_eq (n : RaftNode C O S) (m : RaftMessage C) :
    n.broadcastMessage m = { n with effects := n.effects ++ n.peerIds.map fun p => .send p m } := by
  have hloop : ∀ (ps : List NodeId) (n : RaftNode C O S), (∀ p ∈ ps, p ∈ n.peerIds) →
      ps.foldl (fun node peerId => node.sendMessage peerId m) n =
        { n with effects := n.effects ++ ps.map fun p => .send p m } := by
    intro ps
    induction ps with
    | nil =>
      intro n _
      rw [List.foldl_nil, List.map_nil, List.append_nil]
    | cons p ps ih =>
      intro n hps
      rw [List.foldl_cons, sendMessage_of_mem (hps p List.mem_cons_self)]
      refine (ih { n with effects := n.effects ++ [.send p m] } fun q hq =>
        hps q (List.mem_cons_of_mem _ hq)).trans ?_
      simp only [List.map_cons, List.append_assoc, List.singleton_append]
  exact hloop n.peerIds n fun _ hp => hp

/-- A node with peers that times out asks all of them for their votes. -/
theorem becomeCandidate_asks (hpeers : n.peerIds ≠ []) (h : n.becomeCandidate = .ok n') :
    n'.currentTerm = n.currentTerm + 1 ∧ n'.role = .candidate 1 ∧ n'.log = n.log ∧
      ∃ last, n.lastLog = .ok last ∧ ∀ p ∈ n.peerIds,
        .send p (.voteRequest ⟨n.currentTerm + 1, n.id, last.1, last.2⟩) ∈ n'.effects := by
  by_cases hterm : u64Max ≤ n.currentTerm
  · rw [RaftNode.becomeCandidate, if_pos hterm] at h
    exact absurd h (by simp)
  have halone : ¬ hasMajority 1 (n.peerIds.length + 1) = true := by
    have hpos := List.length_pos_of_ne_nil hpeers
    unfold hasMajority
    rw [decide_eq_true_eq]
    omega
  rw [becomeCandidate_of_peers hterm halone] at h
  have hsame : (standing n).lastLog = n.lastLog := rfl
  cases hlast : n.lastLog with
  | error e =>
    rw [hsame, hlast] at h
    exact absurd h (by simp [Except.map])
  | ok last =>
    rw [hsame, hlast] at h
    obtain rfl := Except.ok.inj h
    dsimp only
    rw [broadcastMessage_eq]
    refine ⟨rfl, rfl, rfl, last, rfl, fun p hp => List.mem_append_right _ ?_⟩
    exact List.mem_map.mpr ⟨p, hp, rfl⟩

/-- A node without peers that times out leads. -/
theorem becomeCandidate_alone (hpeers : n.peerIds = []) (h : n.becomeCandidate = .ok n') :
    n'.currentTerm = n.currentTerm + 1 ∧ n'.role.isLeader = true := by
  unfold RaftNode.becomeCandidate at h
  split at h
  · exact absurd h (by simp)
  have halone : hasMajority 1 (n.peerIds.length + 1) = true := by
    rw [hpeers]
    rfl
  dsimp only at h
  rw [if_pos halone] at h
  obtain ⟨-, hterm, -, hrole, -⟩ := becomeLeader_passes .electionTimeout h
  exact ⟨hterm, by rw [hrole]; rfl⟩

/-- A candidate that counts a vote has won or has one vote more. -/
theorem voteResponse_counts {votes T : ℕ} (hrole : n.role = .candidate votes)
    (hterm : n.currentTerm = T) (h : n.voteResponse ⟨T, true⟩ = .ok n') :
    n'.currentTerm = T ∧ (n'.role.isLeader = true ∨ n'.role = .candidate (votes + 1) ∧
      ¬ (n.peerIds.length + 1) / 2 < votes + 1) := by
  unfold RaftNode.voteResponse at h
  rw [if_neg (by dsimp only; omega), if_neg (by dsimp only; omega)] at h
  simp only [hrole] at h
  split at h
  · obtain ⟨-, hterm', -, hrole', -⟩ := becomeLeader_passes .electionTimeout h
    exact ⟨hterm'.trans hterm, Or.inl (by rw [hrole']; rfl)⟩
  · next hminority =>
    obtain rfl := Except.ok.inj h
    refine ⟨hterm, Or.inr ⟨rfl, fun hlt => hminority ?_⟩⟩
    unfold hasMajority
    exact decide_eq_true hlt

end Voting

/-! ### The election -/

/-- How good a log is, as `vote_request` compares them. -/
def rank (log : List (LogEntry C)) : ℕ ×ₗ ℕ := toLex (lastTerm log, log.length)

/-- `l` leads term `T`, and no node of `Q` is past it. -/
structure Elected (Q : Finset NodeId) (reply : Sender) (l : NodeId) (T : ℕ)
    (s : Cluster C O S) : Prop where
  mem : l ∈ Q
  lead : (s.node l).role.isLeader = true
  term : (s.node l).currentTerm = T
  cap : ∀ i ∈ Q, (s.node i).currentTerm ≤ T
  nextReply : s.nextReply = reply

/-- `l` does not lead, and nobody in `Q` is in a later term or has a better log. -/
structure Contender (Q : Finset NodeId) (reply : Sender) (l : NodeId) (s : Cluster C O S) :
    Prop where
  mem : l ∈ Q
  lead : (s.node l).role.isLeader = false
  room : (s.node l).currentTerm + 1 < u64Max
  cap : ∀ i ∈ Q, (s.node i).currentTerm ≤ (s.node l).currentTerm
  best : ∀ i ∈ Q, rank (s.node i).log ≤ rank (s.node l).log
  nextReply : s.nextReply = reply

/-- `l` stands in term `T` and has all votes of `Q` but those of `rest`, which are in earlier
terms and would vote for it. -/
structure Canvassing (ids : List NodeId) (Q : Finset NodeId) (reply : Sender) (l : NodeId) (T : ℕ)
    (rest : List NodeId) (s : Cluster C O S) : Prop where
  mem : l ∈ Q
  term : (s.node l).currentTerm = T
  votes : ∃ votes, (s.node l).role = .candidate votes ∧ votes + rest.length = Q.card ∧
    votes ≤ ids.toFinset.card / 2
  cap : ∀ i ∈ Q, (s.node i).currentTerm ≤ T
  asked : ∀ p ∈ rest, p ∈ Q ∧ p ≠ l ∧ (s.node p).currentTerm < T ∧
    ∃ req : VoteRequest, req.term = T ∧ UpToDate (s.node p) req ∧
      ⟨l, p, .voteRequest req⟩ ∈ s.network
  nodup : rest.Nodup
  nextReply : s.nextReply = reply

/-- **A node with the best log comes into the latest term**, unless that term has a leader. -/
theorem attainable_contender (hnd : ids.Nodup) (hQ : (quorums ids).IsQuorum Q) (reply : Sender) :
    Attainable ids machine Q
      (fun s : Cluster C O S => s.nextReply = reply ∧ ∀ i ∈ Q, (s.node i).currentTerm + 2 < u64Max)
      (fun s => (∃ l T, Elected Q reply l T s) ∨ ∃ l, Contender Q reply l s) := by
  refine Possible.of_run Cluster.Among.reachable ?_
  rintro s hs ⟨hreply, hroom⟩
  have hids : ∀ i ∈ Q, i ∈ ids := fun i hi => List.mem_toFinset.mp (hQ.1 hi)
  have hne : Q.Nonempty := Finset.card_pos.mp (by have := hQ.2; omega)
  obtain ⟨x, hx, hlatest⟩ := Finset.exists_max_image Q (fun i => (s.node i).currentTerm) hne
  obtain ⟨l, hl, hbest⟩ := Finset.exists_max_image Q (fun i => rank (s.node i).log) hne
  by_cases hlead : (s.node x).role.isLeader = true
  · exact ⟨s, .refl, Or.inl ⟨x, _, hx, hlead, rfl, hlatest, hreply⟩⟩
  rw [Bool.not_eq_true] at hlead
  by_cases hlx : l = x
  · subst hlx
    have := hroom l hl
    exact ⟨s, .refl, Or.inr ⟨l, hl, hlead, by omega, hlatest, hbest, hreply⟩⟩
  -- the node of the latest term asks for votes, which brings the best one into a later term
  have hxroom := hroom x hx
  obtain ⟨a, ha⟩ := hs.rel hnd
  have hpeer : l ∈ (s.node x).peerIds := (ha.nodes x (hids x hx)).1.mem_peers.mpr ⟨hids l hl, hlx⟩
  obtain ⟨n, t, hst, ht⟩ := hs.timeOut hnd hx (hids x hx) hlead (by omega)
  obtain ⟨hterm, -, hlog, last, -, hsent⟩ :=
    becomeCandidate_asks (List.ne_nil_of_mem hpeer) ht.handle
  obtain ⟨n', u, htu, hu⟩ := (Cluster.Among.reachable s t hs hst).receive hnd hl
    (ht.sent l _ (hsent l hpeer))
  have hsame : t.node l = s.node l := ht.other l hlx
  have hle : (s.node l).currentTerm ≤ (s.node x).currentTerm := hlatest l hl
  obtain ⟨hterm', hlead', hlog', -⟩ := voteRequest_later (n := t.node l)
    (by rw [hsame]; exact Nat.lt_succ_of_le hle) hu.handle
  have hnodes : ∀ i ∈ Q, (u.node i).log = (s.node i).log ∧
      (u.node i).currentTerm ≤ (s.node x).currentTerm + 1 := by
    intro i hi
    by_cases hil : i = l
    · subst hil
      rw [hu.self]
      exact ⟨hlog'.trans (by rw [hsame]), hterm'.le⟩
    rw [hu.other i hil]
    by_cases hix : i = x
    · subst hix
      rw [ht.self]
      exact ⟨hlog, hterm.le⟩
    · rw [ht.other i hix]
      exact ⟨rfl, (hlatest i hi).trans (Nat.le_succ _)⟩
  have hself : (u.node l).currentTerm = (s.node x).currentTerm + 1 := by
    rw [hu.self]
    exact hterm'
  refine ⟨u, .tail (.single hst) htu, Or.inr ⟨l, hl, ?_, ?_, fun i hi => ?_, fun i hi => ?_, ?_⟩⟩
  · rw [hu.self]
    exact hlead'
  · omega
  · rw [hself]
    exact (hnodes i hi).2
  · rw [(hnodes i hi).1, (hnodes l hl).1]
    exact hbest i hi
  · rw [hu.nextReply (by simp), ht.nextReply (by simp), hreply]

omit [RaftStateMachine S C O] in
/-- A log that is not better is found up to date. -/
theorem upToDate_of_rank {log : List (LogEntry C)} {T : ℕ} {c : NodeId}
    (hlast : n.lastLog = .ok (n.log.length - 1, lastTerm n.log)) (hle : rank n.log ≤ rank log) :
    UpToDate n ⟨T, c, log.length - 1, lastTerm log⟩ := by
  refine ⟨_, hlast, ?_⟩
  rcases Prod.Lex.toLex_le_toLex.mp hle with hlt | ⟨heq, hlen⟩
  · exact Or.inl hlt
  · exact Or.inr ⟨heq.symm, Nat.sub_le_sub_right hlen 1⟩

/-- **The contender stands**: everybody else in `Q` gets its request. -/
theorem attainable_canvassing (hnd : ids.Nodup) (hQ : (quorums ids).IsQuorum Q) (reply : Sender)
    (l : NodeId) :
    Attainable ids machine Q (Contender Q reply l : Cluster C O S → Prop)
      (fun s => (∃ l T, Elected Q reply l T s) ∨
        ∃ T, Canvassing ids Q reply l T (Q.erase l).toList s) := by
  refine Possible.of_run Cluster.Among.reachable ?_
  intro s hs hl
  have hids : ∀ i ∈ Q, i ∈ ids := fun i hi => List.mem_toFinset.mp (hQ.1 hi)
  obtain ⟨a, ha⟩ := hs.rel hnd
  have hnode := (ha.nodes l (hids l hl.mem)).1
  obtain ⟨n, t, hst, ht⟩ := hs.timeOut hnd hl.mem (hids l hl.mem) hl.lead hl.room
  have hreply : t.nextReply = reply := (ht.nextReply (by simp)).trans hl.nextReply
  refine ⟨t, .single hst, ?_⟩
  have hcap : n.currentTerm = (s.node l).currentTerm + 1 → ∀ i ∈ Q,
      (t.node i).currentTerm ≤ (s.node l).currentTerm + 1 := by
    intro hterm i hi
    by_cases hil : i = l
    · subst hil
      rw [ht.self]
      exact hterm.le
    · rw [ht.other i hil]
      exact (hl.cap i hi).trans (Nat.le_succ _)
  by_cases hpeers : (s.node l).peerIds = []
  · obtain ⟨hterm, hlead⟩ := becomeCandidate_alone hpeers ht.handle
    refine Or.inl ⟨l, _, hl.mem, ?_, ?_, hcap hterm, hreply⟩
    · rw [ht.self]
      exact hlead
    · rw [ht.self]
      exact hterm
  · obtain ⟨hterm, hrole, -, last, hlast, hsent⟩ := becomeCandidate_asks hpeers ht.handle
    obtain ⟨_, hlast', rfl⟩ := hnode.exists_lastLog
    obtain rfl := Except.ok.inj (hlast.symm.trans hlast')
    refine Or.inr ⟨_, hl.mem, ?_, ⟨1, ?_, ?_, ?_⟩, hcap hterm, fun p hp => ?_,
      Finset.nodup_toList _, hreply⟩
    · rw [ht.self]
      exact hterm
    · rw [ht.self]
      exact hrole
    · rw [Finset.length_toList, Finset.card_erase_of_mem hl.mem]
      have hpos : 0 < Q.card := Finset.card_pos.mpr ⟨l, hl.mem⟩
      omega
    · have hcard := hnode.card_peers hnd (hids l hl.mem)
      have hpos := List.length_pos_of_ne_nil hpeers
      omega
    · obtain ⟨hpl, hp⟩ := Finset.mem_erase.mp (Finset.mem_toList.mp hp)
      obtain ⟨_, hlast', rfl⟩ := (ha.nodes p (hids p hp)).1.exists_lastLog
      rw [ht.other p hpl]
      exact ⟨hp, hpl, Nat.lt_succ_of_le (hl.cap p hp), _, rfl,
        upToDate_of_rank hlast' (hl.best p hp),
        ht.sent p _ (hsent p (hnode.mem_peers.mpr ⟨hids p hp, hpl⟩))⟩

/-- **One vote**: the request is delivered, and so is the grant. -/
theorem attainable_vote (hnd : ids.Nodup) (hQ : (quorums ids).IsQuorum Q) (reply : Sender)
    (l : NodeId) (T : ℕ) (p : NodeId) (rest : List NodeId) :
    Attainable ids machine Q (Canvassing ids Q reply l T (p :: rest) : Cluster C O S → Prop)
      (fun s => (∃ l T, Elected Q reply l T s) ∨ Canvassing ids Q reply l T rest s) := by
  refine Possible.of_run Cluster.Among.reachable ?_
  intro s hs hc
  have hids : ∀ i ∈ Q, i ∈ ids := fun i hi => List.mem_toFinset.mp (hQ.1 hi)
  obtain ⟨a, ha⟩ := hs.rel hnd
  have hnode := (ha.nodes l (hids l hc.mem)).1
  obtain ⟨votes, hrole, hcount, -⟩ := hc.votes
  obtain ⟨hp, hpl, hearlier, req, hreq, hup, hnet⟩ := hc.asked p List.mem_cons_self
  obtain ⟨hnotin, hrest⟩ := List.nodup_cons.mp hc.nodup
  -- the voter
  obtain ⟨n, t, hst, ht⟩ := hs.receive hnd hp hnet
  obtain ⟨hterm, -, -, hgrant⟩ := voteRequest_later (hreq ▸ hearlier) ht.handle
  have hback : l ∈ (s.node p).peerIds :=
    (ha.nodes p (hids p hp)).1.mem_peers.mpr ⟨hids l hc.mem, hpl.symm⟩
  -- the candidate
  obtain ⟨n', u, htu, hu⟩ := (Cluster.Among.reachable s t hs hst).receive hnd hc.mem
    (ht.sent l _ (hgrant hup hback))
  have hsame : t.node l = s.node l := ht.other l hpl.symm
  obtain ⟨hterm', hwon⟩ := voteResponse_counts (n := t.node l) (T := req.term)
    (by rw [hsame]; exact hrole) (by rw [hsame, hreq]; exact hc.term) hu.handle
  have hself : (u.node l).currentTerm = T := by
    rw [hu.self]
    exact hterm'.trans hreq
  have hcap : ∀ i ∈ Q, (u.node i).currentTerm ≤ T := by
    intro i hi
    by_cases hil : i = l
    · subst hil
      exact hself.le
    rw [hu.other i hil]
    by_cases hip : i = p
    · subst hip
      rw [ht.self]
      exact (hterm.trans hreq).le
    · rw [ht.other i hip]
      exact hc.cap i hi
  have hreply : u.nextReply = reply := by
    rw [hu.nextReply (by simp), ht.nextReply (by simp), hc.nextReply]
  refine ⟨u, .tail (.single hst) htu, ?_⟩
  rcases hwon with hlead | ⟨hrole', hminority⟩
  · refine Or.inl ⟨l, T, hc.mem, ?_, hself, hcap, hreply⟩
    rw [hu.self]
    exact hlead
  · rw [hsame, hnode.card_peers hnd (hids l hc.mem)] at hminority
    refine Or.inr ⟨hc.mem, hself, ⟨votes + 1, ?_, ?_, not_lt.mp hminority⟩, hcap, fun q hq => ?_,
      hrest, hreply⟩
    · rw [hu.self]
      exact hrole'
    · rw [List.length_cons] at hcount
      omega
    · -- the voters that are left have not moved, and their requests are still in flight
      obtain ⟨hq', hql, hqterm, req', hreq', hup', hnet'⟩ := hc.asked q (List.mem_cons_of_mem _ hq)
      have hqp : q ≠ p := fun heq => hnotin (heq ▸ hq)
      rw [hu.other q hql, ht.other q hqp]
      refine ⟨hq', hql, hqterm, req', hreq', hup', ?_⟩
      have hnet₁ := (ht.kept _ hnet').resolve_right fun h => hqp h.1.symm
      exact (hu.kept _ hnet₁).resolve_right fun h => hql h.1.symm

/-- **A majority elects a leader.** -/
theorem attainable_elected (hnd : ids.Nodup) (hQ : (quorums ids).IsQuorum Q) (reply : Sender) :
    Attainable ids machine Q
      (fun s : Cluster C O S => s.nextReply = reply ∧ ∀ i ∈ Q, (s.node i).currentTerm + 2 < u64Max)
      (fun s => ∃ l T, Elected Q reply l T s) := by
  refine (attainable_contender hnd hQ reply).or_trans (Possible.exists_left fun l => ?_)
  refine (attainable_canvassing hnd hQ reply l).or_trans (Possible.exists_left fun T => ?_)
  refine Possible.of_list (P := fun rest s => Canvassing ids Q reply l T rest s) ?_
    (attainable_vote hnd hQ reply l T) (Q.erase l).toList
  -- with all votes of `Q` the candidate has a majority already
  refine Possible.of_imp fun s _ hc => ?_
  obtain ⟨votes, -, hcount, hminority⟩ := hc.votes
  rw [List.length_nil] at hcount
  have := hQ.2
  omega

end Raft
end KvRaft
