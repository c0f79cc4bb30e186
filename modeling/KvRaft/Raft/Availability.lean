import KvRaft.Raft.Canvass
import KvRaft.Raft.CatchUp
import KvRaft.Raft.Lanes

/-!
# A majority can serve

Safety would also hold of nodes that never do anything. Here is what rules that out: from every
reachable cluster, whatever was lost and whoever has crashed on the way, the nodes of any
majority `Q` can take a command of a client, replicate it, apply it and answer it, without the
others and without a crash or a loss among themselves (`majority_serves`).

`Q` elects a leader (`attainable_elected`), and the leader accepts the command as the last
entry of its log. From then on its log does not change, and while the command is not answered
the entry is not committed (`Awaiting`): the leader has just looked and found no majority. A
round with a peer brings `next_index` down or gets the success that `match_index` is set from
(`attainable_round`); when every peer in `Q` has had its success there is a majority, and the
leader has answered.
-/

namespace KvRaft
namespace Raft

variable {C O S : Type} {n n' : RaftNode C O S} {p : NodeId} {k T : ℕ} {command : C}
  {reply : Sender} {nextIndex matchIndex : PeerMap}

/-! ### What the handlers of a leader change -/

/-- **`on_heartbeat`** changes nothing and sends every peer its request. -/
theorem onHeartbeat_sends (h : n.onHeartbeat = .ok n') :
    ∃ es, n' = { n with effects := n.effects ++ es } ∧ ∀ p ∈ n.peerIds, ∃ req,
      n.RequestOf p req ∧ .send p (.appendRequest req) ∈ es := by
  have hloop : ∀ (ps : List NodeId) (m : RaftNode C O S), (∀ p ∈ ps, p ∈ m.peerIds) →
      ps.foldlM RaftNode.heartbeatTo m = .ok n' →
      ∃ es, n' = { m with effects := m.effects ++ es } ∧ ∀ p ∈ ps, ∃ req,
        m.RequestOf p req ∧ .send p (.appendRequest req) ∈ es := by
    intro ps
    induction ps with
    | nil =>
      intro m _ hm
      refine ⟨[], ?_, by simp⟩
      rw [← Except.ok.inj hm, List.append_nil]
    | cons q ps ih =>
      intro m hps hm
      rw [List.foldlM_cons] at hm
      obtain ⟨m₁, hone, hrest⟩ := bind_eq_ok.mp hm
      obtain ⟨req, hreq, rfl⟩ := RaftNode.heartbeatTo_request hone
      rw [sendMessage_of_mem (hps q List.mem_cons_self)] at hrest
      obtain ⟨es, rfl, hsent⟩ := ih { m with effects := m.effects ++ [.send q (.appendRequest req)] }
        (fun p hp => hps p (List.mem_cons_of_mem _ hp)) hrest
      refine ⟨.send q (.appendRequest req) :: es, by simp, fun p hp => ?_⟩
      rcases List.mem_cons.mp hp with rfl | hp
      · exact ⟨req, hreq, List.mem_cons_self⟩
      · obtain ⟨req', hreq', hmem⟩ := hsent p hp
        exact ⟨req', hreq', List.mem_cons_of_mem _ hmem⟩
  exact hloop n.peerIds n (fun _ hp => hp) h

/-- **`advance_commit`** looks at the last entry first. -/
theorem advanceCommit_last (hrole : n.role = .leader nextIndex matchIndex)
    (hlen : n.log.length = k + 1) (hcommit : n.commitIndex < k) (h : n.advanceCommit = .ok n') :
    ∃ commit es, n' = { n with commitIndex := commit, effects := n.effects ++ es } ∧
      n.commitIndex ≤ commit ∧
      (committable n matchIndex k = true ∧ commit = k ∨
        committable n matchIndex k = false ∧ commit < k) := by
  have hmem : ∀ x, x ∈ (List.range' (n.commitIndex + 1) (k - n.commitIndex - 1)).reverse ↔
      n.commitIndex < x ∧ x < k := by
    intro x
    rw [List.mem_reverse, List.mem_range'_1]
    omega
  have hindices : (List.range' (n.commitIndex + 1) (n.log.length - (n.commitIndex + 1))).reverse =
      k :: (List.range' (n.commitIndex + 1) (k - n.commitIndex - 1)).reverse := by
    rw [show n.log.length - (n.commitIndex + 1) = k - n.commitIndex - 1 + 1 by omega,
      List.range'_1_concat, List.reverse_append, List.reverse_singleton, List.singleton_append,
      show n.commitIndex + 1 + (k - n.commitIndex - 1) = k by omega]
  unfold RaftNode.advanceCommit at h
  split at h
  swap
  · next hno => exact absurd hrole (hno nextIndex matchIndex)
  next nextIndex₀ matchIndex₀ hrole₀ =>
  obtain ⟨rfl, rfl⟩ := Role.leader.inj (hrole₀.symm.trans hrole)
  dsimp only at h
  rw [hindices, findCommit_eq matchIndex₀] at h
  swap
  · intro x hx
    rcases List.mem_cons.mp hx with rfl | hx
    · omega
    · have := (hmem x).mp hx
      omega
  cases hk : committable n matchIndex₀ k with
  | true =>
    rw [List.find?_cons_of_pos hk] at h
    exact ⟨k, [.committed n.currentTerm k n.log], (Except.ok.inj h).symm, hcommit.le,
      Or.inl ⟨rfl, rfl⟩⟩
  | false =>
    rw [List.find?_cons_of_neg (by rw [hk]; exact Bool.false_ne_true)] at h
    cases hfound : (List.range' (n.commitIndex + 1) (k - n.commitIndex - 1)).reverse.find?
        (committable n matchIndex₀) with
    | none =>
      rw [hfound] at h
      obtain rfl := Except.ok.inj h
      exact ⟨n.commitIndex, [], by rw [List.append_nil], le_rfl, Or.inr ⟨rfl, hcommit⟩⟩
    | some index =>
      rw [hfound] at h
      have hindex := (hmem index).mp (List.mem_of_find?_eq_some hfound)
      exact ⟨index, [.committed n.currentTerm index n.log], (Except.ok.inj h).symm, hindex.1.le,
        Or.inr ⟨rfl, hindex.2⟩⟩

/-! ### The command that is waited for -/

variable [RaftStateMachine S C O]

/-- The node has applied the command at `k` and answered its client. -/
def Serves (k T : ℕ) (command : C) (reply : Sender) (n : RaftNode C O S) : Prop :=
  ∃ machine : S, .applied k ⟨T, .command command⟩ machine ∈ n.effects ∧
    .reply reply (.applied (RaftStateMachine.apply machine command).2) ∈ n.effects

theorem Serves.mono (h : Serves k T command reply n) (hsub : n.effects ⊆ n'.effects) :
    Serves k T command reply n' := by
  obtain ⟨machine, happlied, hreply⟩ := h
  exact ⟨machine, hsub happlied, hsub hreply⟩

/-- **`apply_committed`** answers the client when it comes to the index of its command. -/
theorem applyLoop_serves : ∀ (turns : ℕ) {n : RaftNode C O S},
    RaftNode.applyCommittedLoop turns n = .ok n' → n.lastApplied < k →
    n.log[k]? = some ⟨T, .command command⟩ → n.pendingApplies.lookup k = some reply →
    k ≤ n.lastApplied + turns ∧ Serves k T command reply n' ∨
      n.lastApplied + turns < k ∧ n'.pendingApplies.lookup k = some reply
  | 0, n, h, hlt, _, hpending => by
    obtain rfl := Except.ok.inj h
    exact Or.inr ⟨hlt, hpending⟩
  | turns + 1, n, h, hlt, hentry, hpending => by
    rw [applyCommittedLoop_succ] at h
    obtain ⟨n₁, hone, hrest⟩ := bind_eq_ok.mp h
    obtain ⟨es, hes, -⟩ := (applyLoop_passes turns hrest).2.effects
    obtain ⟨entry, hat, hcases⟩ := RaftNode.lastApplied_turn hone
    by_cases hk : n.lastApplied + 1 = k
    · -- the turn of the command itself; what follows only adds effects
      subst hk
      obtain rfl := Option.some.inj (hat.symm.trans hentry)
      left
      refine ⟨by omega, ?_⟩
      obtain ⟨term, heq, -⟩ | ⟨term, cmd, heq, hcases⟩ := hcases
      · exact absurd (LogEntry.mk.inj heq).2 (by simp)
      obtain rfl := LogCommand.command.inj (LogEntry.mk.inj heq).2
      obtain ⟨hnone, -⟩ | ⟨channel, hsome, rfl⟩ := hcases
      · exact absurd (hnone.symm.trans hpending) (by simp)
      · obtain rfl := Option.some.inj (hsome.symm.trans hpending)
        have hserves : Serves (n.lastApplied + 1) T command channel { n with
            lastApplied := n.lastApplied + 1
            stateMachine := (RaftStateMachine.apply n.stateMachine command).1
            pendingApplies := n.pendingApplies.erase (n.lastApplied + 1)
            effects := n.effects ++
              [.applied (n.lastApplied + 1) ⟨T, .command command⟩ n.stateMachine] ++
              [.reply channel (.applied (RaftStateMachine.apply n.stateMachine command).2)] } :=
          ⟨n.stateMachine, by simp, by simp⟩
        exact hserves.mono (by rw [hes]; exact List.subset_append_left _ _)
    · have hkept : n₁.lastApplied = n.lastApplied + 1 ∧ n₁.log = n.log ∧
          n₁.pendingApplies.lookup k = some reply := by
        obtain ⟨term, -, rfl⟩ | ⟨term, cmd, -, ⟨-, rfl⟩ | ⟨channel, -, rfl⟩⟩ := hcases
        · exact ⟨rfl, rfl, hpending⟩
        · exact ⟨rfl, rfl, hpending⟩
        · refine ⟨rfl, rfl, ?_⟩
          rw [← hpending]
          exact AList.lookup_erase_ne (Ne.symm hk)
      obtain ⟨happlied, hlog, hpending'⟩ := hkept
      have hrest' := applyLoop_serves turns hrest (by omega) (by rw [hlog]; exact hentry) hpending'
      rw [happlied, Nat.add_assoc, Nat.add_comm 1 turns] at hrest'
      exact hrest'

/-- A leader whose last entry, at `k`, is a command that a client waits for. It is not
committed. -/
structure Awaiting (k T : ℕ) (command : C) (reply : Sender) (nextIndex matchIndex : PeerMap)
    (n : RaftNode C O S) : Prop where
  role : n.role = .leader nextIndex matchIndex
  term : n.currentTerm = T
  length : n.log.length = k + 1
  entry : n.log[k]? = some ⟨T, .command command⟩
  pending : n.pendingApplies.lookup k = some reply
  commit : n.commitIndex < k

/-- **`advance_commit` and `apply_committed`** answer the client, or there is no majority for
its command yet. -/
theorem Awaiting.commits (h : Awaiting k T command reply nextIndex matchIndex n)
    (happlied : n.lastApplied ≤ n.commitIndex)
    (hn : (n.advanceCommit >>= RaftNode.applyCommitted) = .ok n') :
    Serves k T command reply n' ∨ Awaiting k T command reply nextIndex matchIndex n' ∧
      committable n' matchIndex k = false := by
  obtain ⟨m, hm, hloop⟩ := bind_eq_ok.mp hn
  obtain ⟨commit, es, rfl, hle, hfound⟩ := advanceCommit_last h.role h.length h.commit hm
  obtain ⟨hcommit, hpass⟩ := applyLoop_passes _ hloop
  have hturns : n.lastApplied + (commit - n.lastApplied) = commit := by omega
  obtain ⟨hge, hserves⟩ | ⟨hlt, hpending⟩ :=
    applyLoop_serves _ hloop (happlied.trans_lt h.commit) h.entry h.pending
  · exact Or.inl hserves
  · right
    have hlt' : commit < k := hturns ▸ hlt
    have hno : committable n matchIndex k = false := by
      rcases hfound with ⟨-, rfl⟩ | ⟨hno, -⟩
      · exact absurd hlt' (lt_irrefl _)
      · exact hno
    refine ⟨⟨hpass.core.role.trans h.role, hpass.core.term.trans h.term,
      (congrArg List.length hpass.core.log).trans h.length, ?_, hpending, hcommit ▸ hlt'⟩, ?_⟩
    · rw [hpass.core.log]
      exact h.entry
    · unfold committable
      rw [hpass.core.log, hpass.core.term, hpass.core.peers]
      exact hno

/-- **The command is accepted**, and answered at once if the leader is a majority. -/
theorem clientCommand_awaits (hlead : n.role.isLeader = true)
    (happlied : n.lastApplied ≤ n.commitIndex) (hcommit : n.commitIndex < n.log.length)
    (h : n.clientCommand (.apply command reply) = .ok n') :
    .accepted n.log.length n.currentTerm command reply ∈ n'.effects ∧
      (Serves n.log.length n.currentTerm command reply n' ∨ ∃ nextIndex matchIndex,
        Awaiting n.log.length n.currentTerm command reply nextIndex matchIndex n' ∧
          committable n' matchIndex n.log.length = false) := by
  obtain ⟨nextIndex, matchIndex, hrole⟩ := exists_maps hlead
  have hrequire : RaftNode.requireLeader n.role = none := by rw [hrole]; rfl
  unfold RaftNode.clientCommand at h
  simp only [hrequire] at h
  have htail : ((n.accepting command reply).advanceCommit >>= RaftNode.applyCommitted) >>=
      RaftNode.onHeartbeat = .ok n' := by
    rw [bind_assoc]
    exact h
  obtain ⟨m, hm, hbeat⟩ := bind_eq_ok.mp htail
  obtain ⟨es, rfl, -⟩ := onHeartbeat_sends hbeat
  have hstart : Awaiting n.log.length n.currentTerm command reply nextIndex matchIndex
      (n.accepting command reply) := by
    refine ⟨hrole, rfl, ?_, ?_, AList.lookup_insert _, hcommit⟩
    · exact List.length_append
    · change (n.log ++ [_])[n.log.length]? = _
      rw [List.getElem?_append_right le_rfl, Nat.sub_self]
      rfl
  refine ⟨?_, ?_⟩
  · obtain ⟨es', hes', -⟩ := (commit_passes hm).effects
    refine List.mem_append_left _ ?_
    rw [hes']
    exact List.mem_append_left _ (by simp [RaftNode.accepting, RaftNode.persistState, RaftNode.emit])
  · rcases hstart.commits happlied hm with hserves | ⟨hawaits, hno⟩
    · exact Or.inl (hserves.mono (List.subset_append_left _ _))
    · exact Or.inr ⟨nextIndex, matchIndex, ⟨hawaits.role, hawaits.term, hawaits.length,
        hawaits.entry, hawaits.pending, hawaits.commit⟩, hno⟩

/-- **An answer is counted**, and the client is answered if that makes a majority. -/
theorem Awaiting.counts (h : Awaiting k T command reply nextIndex matchIndex n)
    (happlied : n.lastApplied ≤ n.commitIndex) {msg : AppendResponse} (hterm : msg.term = T)
    (hn : n.appendResponse p msg = .ok n') :
    Serves k T command reply n' ∨
      Awaiting k T command reply (countAnswer p msg nextIndex matchIndex).1
          (countAnswer p msg nextIndex matchIndex).2 n' ∧
        committable n' (countAnswer p msg nextIndex matchIndex).2 k = false := by
  have hmsg : msg.term = n.currentTerm := hterm.trans h.term.symm
  simp only [RaftNode.appendResponse, hmsg, lt_irrefl, if_false, h.role] at hn
  have hmaps : (if msg.success = true then
      Role.leader (nextIndex.insert p (msg.matchIndex + 1)) (matchIndex.insert p msg.matchIndex)
      else Role.leader (nextIndex.insert p (max (msg.matchIndex - 1) 1)) matchIndex) =
      .leader (countAnswer p msg nextIndex matchIndex).1
        (countAnswer p msg nextIndex matchIndex).2 := by
    unfold countAnswer
    split <;> rfl
  rw [hmaps] at hn
  have hcounted : Awaiting k T command reply (countAnswer p msg nextIndex matchIndex).1
      (countAnswer p msg nextIndex matchIndex).2 { n with
        role := .leader (countAnswer p msg nextIndex matchIndex).1
          (countAnswer p msg nextIndex matchIndex).2 } :=
    ⟨rfl, h.term, h.length, h.entry, h.pending, h.commit⟩
  exact hcounted.commits happlied hn

/-! ### Replication -/

variable {ids : List NodeId} {machine : S} {Q : Finset NodeId} {s t : Cluster C O S}
  {l : NodeId} {rest : List NodeId}

/-- Node `l` has accepted the command, applied it and answered its client with the output. -/
def Served (l : NodeId) (k T : ℕ) (command : C) (reply : Sender) (s : Cluster C O S) : Prop :=
  (l, .accepted k T command reply) ∈ s.trace ∧ ∃ machine : S,
    (l, .applied k ⟨T, .command command⟩ machine) ∈ s.trace ∧
    (l, .reply reply (.applied (RaftStateMachine.apply machine command).2)) ∈ s.trace

/-- The command is accepted, and the peers in `Q` have the log of the leader but for `rest`. -/
structure Replicating (Q : Finset NodeId) (l : NodeId) (k T : ℕ) (command : C) (reply : Sender)
    (rest : List NodeId) (s : Cluster C O S) : Prop where
  mem : l ∈ Q
  cap : ∀ i ∈ Q, (s.node i).currentTerm ≤ T
  accepted : (l, .accepted k T command reply) ∈ s.trace
  awaits : ∃ nextIndex matchIndex, Awaiting k T command reply nextIndex matchIndex (s.node l) ∧
    committable (s.node l) matchIndex k = false
  left : ∀ p ∈ rest, p ∈ Q ∧ p ≠ l
  matched : ∀ p ∈ Q, p ≠ l → p ∉ rest → (s.node l).matchOf p = some k

theorem Turned.served {input : Input C} (h : Turned s l input n t)
    (haccepted : (l, .accepted k T command reply) ∈ t.trace)
    (hserves : Serves k T command reply n) : Served l k T command reply t := by
  obtain ⟨machine, happlied, hreply⟩ := hserves
  refine ⟨haccepted, machine, ?_, ?_⟩
  · rw [h.trace]
    exact List.mem_append_right _ (List.mem_map.mpr ⟨_, happlied, rfl⟩)
  · rw [h.trace]
    exact List.mem_append_right _ (List.mem_map.mpr ⟨_, hreply, rfl⟩)

/-- **The leader accepts the command.** -/
theorem attainable_accepted (hnd : ids.Nodup) (hQ : (quorums ids).IsQuorum Q) (command : C)
    (reply : Sender) (l : NodeId) (T : ℕ) :
    Attainable ids machine Q (Elected Q reply l T : Cluster C O S → Prop) (fun s =>
      (∃ l ∈ Q, ∃ k T, Served l k T command reply s) ∨
        ∃ k, Replicating Q l k T command reply (Q.erase l).toList s) := by
  refine Possible.of_run Cluster.Among.reachable ?_
  intro s hs hl
  have hids : l ∈ ids := List.mem_toFinset.mp (hQ.1 hl.mem)
  obtain ⟨a, ha⟩ := hs.rel hnd
  have hnode := (ha.nodes l hids).1
  have ho : s.offer ids (.command l (.apply command reply)) =
      some (l, .command (.apply command reply), { s with nextReply := s.nextReply + 1 }) :=
    if_pos ⟨hids, hl.nextReply.symm⟩
  obtain ⟨n, t, hst, ht⟩ := hs.turn hnd ho hl.mem
  obtain ⟨haccepted, hcases⟩ := clientCommand_awaits hl.lead hnode.applied_le hnode.commit_lt
    ht.handle
  rw [hl.term] at haccepted hcases
  have hmem : (l, .accepted (s.node l).log.length T command reply) ∈ t.trace := by
    rw [ht.trace]
    exact List.mem_append_right _ (List.mem_map.mpr ⟨_, haccepted, rfl⟩)
  refine ⟨t, .single hst, ?_⟩
  rcases hcases with hserves | ⟨nextIndex, matchIndex, hawaits, hno⟩
  · exact Or.inl ⟨l, hl.mem, _, T, ht.served hmem hserves⟩
  · refine Or.inr ⟨_, hl.mem, fun i hi => ?_, hmem, ⟨nextIndex, matchIndex, ?_, ?_⟩,
      fun p hp => ?_, fun p hp hpl hnot => ?_⟩
    · by_cases hil : i = l
      · subst hil
        rw [ht.self]
        exact hawaits.term.le
      · rw [ht.other i hil]
        exact hl.cap i hi
    · rw [ht.self]
      exact ⟨hawaits.role, hawaits.term, hawaits.length, hawaits.entry, hawaits.pending,
        hawaits.commit⟩
    · rw [ht.self]
      exact hno
    · exact (Finset.mem_erase.mp (Finset.mem_toList.mp hp)).symm
    · exact absurd (Finset.mem_toList.mpr (Finset.mem_erase.mpr ⟨hpl, hp⟩)) hnot

/-- **The answer of the peer.** A refusal names an index that was not above the probed one, and
is not about the first entry of the logs, which they share. -/
theorem Turned.answers {p : NodeId} {req : AppendRequest C} (ht : t.Reachable ids machine)
    (hnd : ids.Nodup) (hp : p ∈ ids) (hl : l ∈ ids) (hlp : l ≠ p)
    (h : Turned s p (.message l (.appendRequest req)) n t) (hidle : (s.node p).effects = [])
    (hterm : (s.node p).currentTerm ≤ req.term)
    (hfirst : req.prevLogIndex = 0 → Accepts (s.node p) req) :
    (t.node p).currentTerm ≤ req.term ∧ ∃ msg, ⟨p, l, .appendResponse msg⟩ ∈ t.network ∧
      msg.term = req.term ∧
      (msg.success = true → msg.matchIndex = req.prevLogIndex + req.entries.length) ∧
      (msg.success = false → msg.matchIndex ≤ req.prevLogIndex ∧ 0 < req.prevLogIndex) := by
  have hhandle : (s.node p).appendRequest l req = .ok n := h.handle
  have hself := h.self
  refine ⟨?_, ?_⟩
  · rw [hself]
    rcases appendRequest_cases hhandle with rfl | ⟨m, -, hm, htail⟩
    · have hpass := Passes.sendMessage (P := fun _ => True) (s.node p) l (.appendResponse
        ⟨(s.node p).currentTerm, 0, false⟩) fun _ => trivial
      exact hpass.core.term.le.trans hterm
    · obtain ⟨-, hsame, -⟩ := appendAtPrev_outcome htail
      exact (hsame.trans hm).le
  · obtain ⟨n₁, msg, -, rfl, hresponds⟩ := appendRequest_answers hhandle
    -- the leader is a peer of the node that answers
    obtain ⟨a, ha⟩ := ht.rel hnd
    have hpass := Passes.sendMessage (P := fun _ => True) n₁ l (.appendResponse msg)
      fun _ => trivial
    have hback : l ∈ n₁.peerIds := by
      have hpeers := (ha.nodes p hp).1.mem_peers.mpr ⟨hl, hlp⟩
      rw [hself] at hpeers
      exact hpass.core.peers ▸ hpeers
    have hsent : .send l (.appendResponse msg) ∈
        (n₁.sendMessage l (.appendResponse msg)).effects := by
      rw [sendMessage_of_mem hback]
      exact List.mem_append_right _ (List.mem_singleton_self _)
    refine ⟨msg, h.sent l _ hsent, ?_⟩
    -- what a refusal may name
    obtain ⟨es, hes, hreplicates⟩ := (handle_outcome h.handle).effects
    rw [hes, hidle, List.nil_append] at hsent
    obtain ⟨req', hin, hanswer⟩ := hreplicates _ hsent
    obtain rfl := RaftMessage.appendRequest.inj (Input.message.inj hin).2
    cases hresponds with
    | stale hlt => exact absurd hlt hterm.not_gt
    | accepted _ hmsg hsuccess hindex =>
      exact ⟨hmsg, fun _ => hindex, fun hno => absurd (hsuccess.symm.trans hno) (by simp)⟩
    | refused _ hmsg hsuccess hnot =>
      refine ⟨hmsg, fun hyes => absurd (hyes.symm.trans hsuccess) (by simp), fun _ => ⟨?_, ?_⟩⟩
      · rw [AnswerTo, if_neg (by rw [hsuccess]; exact Bool.false_ne_true)] at hanswer
        rcases hanswer with h0 | ⟨-, hle⟩
        · omega
        · exact hle
      · exact Nat.pos_of_ne_zero fun h0 => hnot (hfirst h0)

omit [RaftStateMachine S C O] in
/-- A request that probes the first entry is accepted. -/
theorem Rel.accepts_first {a : Spec C} {p : NodeId} {req : AppendRequest C} (h : Rel ids a s)
    (hl : l ∈ ids) (hp : p ∈ ids) (hreq : (s.node l).RequestOf p req)
    (hfirst : req.prevLogIndex = 0) : Accepts (s.node p) req := by
  have hlog : ∀ i ∈ ids, (s.node i).log[0]? = some ⟨0, .noOp⟩ := by
    intro i hi
    have hdisk : a.log i = (s.node i).log := (h.nodes i hi).1.disk.log
    rw [← hdisk]
    exact log_first (h.mid i).inv h.start hi i
  obtain ⟨nextIndex, matchIndex, next, prev, -, -, -, -, hprev, rfl⟩ := hreq
  have hzero : next - 1 = 0 := hfirst
  rw [hzero, hlog l hl] at hprev
  obtain rfl := Option.some.inj hprev
  refine ⟨⟨0, .noOp⟩, ?_, rfl⟩
  dsimp only
  rw [hzero]
  exact hlog p hp

/-- **One round with a peer**: it is brought up to the log of the leader, or is probed further
down the next time. -/
theorem attainable_round (hnd : ids.Nodup) (hQ : (quorums ids).IsQuorum Q) (command : C)
    (reply : Sender) (l : NodeId) (k T : ℕ) (p : NodeId) (rest : List NodeId) (next : ℕ) :
    Attainable ids machine Q
      (fun s : Cluster C O S => Replicating Q l k T command reply (p :: rest) s ∧
        (s.node l).nextOf p = some next)
      (fun s => ((∃ l ∈ Q, ∃ k T, Served l k T command reply s) ∨
          Replicating Q l k T command reply rest s) ∨
        ∃ m < next, Replicating Q l k T command reply (p :: rest) s ∧
          (s.node l).nextOf p = some m) := by
  refine Possible.of_run Cluster.Among.reachable ?_
  rintro s hs ⟨hr, hnext⟩
  have hids : ∀ i ∈ Q, i ∈ ids := fun i hi => List.mem_toFinset.mp (hQ.1 hi)
  obtain ⟨nextIndex, matchIndex, hawaits, -⟩ := hr.awaits
  obtain ⟨hp, hpl⟩ := hr.left p List.mem_cons_self
  obtain ⟨a, ha⟩ := hs.rel hnd
  obtain ⟨hnode, hidle⟩ := ha.nodes l (hids l hr.mem)
  -- the leader sends the peer what it thinks it lacks
  obtain ⟨n, t, hst, ht⟩ := hs.beat hnd hr.mem (hids l hr.mem) (by rw [hawaits.role]; rfl)
  obtain ⟨es, hn, hsent⟩ := onHeartbeat_sends ht.handle
  obtain ⟨req, hreq, hmem⟩ := hsent p (hnode.mem_peers.mpr ⟨hids p hp, hpl⟩)
  have htnode : ∀ i, t.node i = s.node i := by
    intro i
    by_cases hil : i = l
    · subst hil
      rw [ht.self, hn]
      exact RaftNode.idle_of_effects hidle
    · exact ht.other i hil
  obtain ⟨hreqterm, hcovers⟩ := RequestOf.covers hreq
  rw [hawaits.term] at hreqterm
  rw [hawaits.length] at hcovers
  -- the peer answers
  have htreach := Cluster.Among.reachable s t hs hst
  obtain ⟨f, u, htu, hu⟩ := htreach.receive hnd hp
    (ht.sent p _ (by rw [hn]; exact List.mem_append_right _ hmem))
  have hureach := Cluster.Among.reachable t u htreach htu
  obtain ⟨hpterm, msg, hnet, hmsg, hsuccess, hfailure⟩ := hu.answers hureach hnd (hids p hp)
    (hids l hr.mem) hpl.symm (by rw [htnode]; exact (ha.nodes p (hids p hp)).2)
    (by rw [htnode, hreqterm]; exact hr.cap p hp)
    (fun h0 => by rw [htnode]; exact ha.accepts_first (hids l hr.mem) (hids p hp) hreq h0)
  -- the leader counts the answer
  obtain ⟨n', v, huv, hv⟩ := hureach.receive hnd hr.mem hnet
  have hunode : u.node l = s.node l := (hu.other l hpl.symm).trans (htnode l)
  have hcounts := Awaiting.counts (n := u.node l) (by rw [hunode]; exact hawaits)
    (by rw [hunode]; exact hnode.applied_le) (hmsg.trans hreqterm) hv.handle
  have haccepted : (l, .accepted k T command reply) ∈ v.trace := by
    rw [hv.trace, hu.trace, ht.trace]
    exact List.mem_append_left _ (List.mem_append_left _ (List.mem_append_left _ hr.accepted))
  refine ⟨v, ((Relation.ReflTransGen.single hst).tail htu).tail huv, ?_⟩
  rcases hcounts with hserves | ⟨hawaits', hno⟩
  · exact Or.inl (Or.inl ⟨l, hr.mem, k, T, hv.served haccepted hserves⟩)
  have hself : Awaiting k T command reply (countAnswer p msg nextIndex matchIndex).1
      (countAnswer p msg nextIndex matchIndex).2 (v.node l) := by
    rw [hv.self]
    exact ⟨hawaits'.role, hawaits'.term, hawaits'.length, hawaits'.entry, hawaits'.pending,
      hawaits'.commit⟩
  have hno' : committable (v.node l) (countAnswer p msg nextIndex matchIndex).2 k = false := by
    rw [hv.self]
    exact hno
  have hcap : ∀ i ∈ Q, (v.node i).currentTerm ≤ T := by
    intro i hi
    by_cases hil : i = l
    · subst hil
      exact hself.term.le
    rw [hv.other i hil]
    by_cases hip : i = p
    · subst hip
      exact hpterm.trans hreqterm.le
    · rw [hu.other i hip, htnode]
      exact hr.cap i hi
  have hleft : ∀ q ∈ rest, q ∈ Q ∧ q ≠ l := fun q hq => hr.left q (List.mem_cons_of_mem _ hq)
  have hmatched : ∀ q ∈ Q, q ≠ l → q ∉ p :: rest → matchIndex.lookup q = some k := by
    intro q hq hql hnot
    rw [← matchOf_of_role hawaits.role]
    exact hr.matched q hq hql hnot
  cases hanswer : msg.success with
  | true =>
    left; right
    refine ⟨hr.mem, hcap, haccepted, ⟨_, _, hself, hno'⟩, hleft, fun q hq hql hnot => ?_⟩
    rw [matchOf_of_role hself.role, countAnswer, if_pos hanswer]
    by_cases hqp : q = p
    · subst hqp
      rw [AList.lookup_insert, hsuccess hanswer]
      exact congrArg some (by omega)
    · rw [AList.lookup_insert_ne hqp]
      exact hmatched q hq hql fun hin => (List.mem_cons.mp hin).elim hqp hnot
  | false =>
    right
    have hmiss : ¬ msg.success = true := by rw [hanswer]; exact Bool.false_ne_true
    obtain ⟨hindex, hpos⟩ := hfailure hanswer
    -- the request probed the entry before `next_index`
    have hprobe : req.prevLogIndex = next - 1 := by
      obtain ⟨nextIndex₀, matchIndex₀, next₀, prev, hrole₀, hnext₀, -, -, -, rfl⟩ := hreq
      rw [nextOf_of_role hrole₀, hnext₀] at hnext
      rw [Option.some.inj hnext]
    refine ⟨max (msg.matchIndex - 1) 1, by omega, ⟨hr.mem, hcap, haccepted,
      ⟨_, _, hself, hno'⟩, hr.left, fun q hq hql hnot => ?_⟩, ?_⟩
    · rw [matchOf_of_role hself.role, countAnswer, if_neg hmiss]
      exact hmatched q hq hql hnot
    · rw [nextOf_of_role hself.role, countAnswer, if_neg hmiss]
      exact AList.lookup_insert _

/-- **A peer is caught up.** -/
theorem attainable_caughtUp (hnd : ids.Nodup) (hQ : (quorums ids).IsQuorum Q) (command : C)
    (reply : Sender) (l : NodeId) (k T : ℕ) (p : NodeId) (rest : List NodeId) :
    Attainable ids machine Q (Replicating Q l k T command reply (p :: rest) : Cluster C O S → Prop)
      (fun s => (∃ l ∈ Q, ∃ k T, Served l k T command reply s) ∨
        Replicating Q l k T command reply rest s) := by
  refine Possible.trans (Q := fun s => ∃ next, Replicating Q l k T command reply (p :: rest) s ∧
    (s.node l).nextOf p = some next) (Possible.of_imp fun s hs hr => ?_)
    (Possible.exists_left (Possible.of_rank (attainable_round hnd hQ command reply l k T p rest)))
  -- a leader has a next index for each of its peers
  obtain ⟨nextIndex, matchIndex, hawaits, -⟩ := hr.awaits
  obtain ⟨hp, hpl⟩ := hr.left p List.mem_cons_self
  obtain ⟨a, ha⟩ := Cluster.Reachable.rel (s := s) hs hnd
  have hnode := (ha.nodes l (List.mem_toFinset.mp (hQ.1 hr.mem))).1
  have hrole := hnode.role
  unfold RoleOk at hrole
  rw [hawaits.role] at hrole
  obtain ⟨next, hnext, -⟩ := hrole.2.2.1 p
    (hnode.mem_peers.mpr ⟨List.mem_toFinset.mp (hQ.1 hp), hpl⟩)
  exact ⟨next, hr, (nextOf_of_role hawaits.role p).trans hnext⟩

omit [RaftStateMachine S C O] in
/-- Peers whose entry in the map has the property are counted. -/
theorem card_le_count {P : Finset NodeId} {f : ℕ → Bool}
    (h : ∀ p ∈ P, ∃ x, matchIndex.lookup p = some x ∧ f x = true) :
    P.card ≤ (matchIndex.entries.map Sigma.snd).countP f := by
  let counted := matchIndex.entries.filter fun entry => f entry.snd
  have hsub : P ⊆ (counted.map Sigma.fst).toFinset := by
    intro p hp
    obtain ⟨x, hx, hf⟩ := h p hp
    rw [List.mem_toFinset]
    exact List.mem_map.mpr ⟨⟨p, x⟩, List.mem_filter.mpr ⟨AList.mem_lookup_iff.mp hx, hf⟩, rfl⟩
  calc P.card ≤ (counted.map Sigma.fst).toFinset.card := Finset.card_le_card hsub
    _ ≤ (counted.map Sigma.fst).length := List.toFinset_card_le _
    _ = (matchIndex.entries.map Sigma.snd).countP f := by
      rw [List.length_map, List.countP_map, List.countP_eq_length_filter]
      rfl

/-- **The command is served**: with the log on all nodes of `Q` it would be committed. -/
theorem attainable_served (hnd : ids.Nodup) (hQ : (quorums ids).IsQuorum Q) (command : C)
    (reply : Sender) (l : NodeId) (k T : ℕ) :
    Attainable ids machine Q
      (Replicating Q l k T command reply (Q.erase l).toList : Cluster C O S → Prop)
      (fun s => ∃ l ∈ Q, ∃ k T, Served l k T command reply s) := by
  refine Possible.of_list (P := fun rest s => Replicating Q l k T command reply rest s) ?_
    (attainable_caughtUp hnd hQ command reply l k T) _
  refine Possible.of_imp fun s hs hr => ?_
  exfalso
  obtain ⟨nextIndex, matchIndex, hawaits, hno⟩ := hr.awaits
  obtain ⟨a, ha⟩ := Cluster.Reachable.rel (s := s) hs hnd
  have hids : l ∈ ids := List.mem_toFinset.mp (hQ.1 hr.mem)
  have hcount : (Q.erase l).card ≤ (matchIndex.entries.map Sigma.snd).countP
      (fun matchIdx => decide (k ≤ matchIdx)) := by
    refine card_le_count fun p hp => ?_
    obtain ⟨hpl, hp⟩ := Finset.mem_erase.mp hp
    refine ⟨k, ?_, decide_eq_true le_rfl⟩
    rw [← matchOf_of_role hawaits.role]
    exact hr.matched p hp hpl (by simp)
  refine absurd (committable_iff.mpr ⟨?_, ?_⟩) (by rw [hno]; exact Bool.false_ne_true)
  · rw [hawaits.entry, hawaits.term]
    rfl
  · rw [hasMajority, decide_eq_true_eq, (ha.nodes l hids).1.card_peers hnd hids]
    have hmajority := hQ.2
    rw [Finset.card_erase_of_mem hr.mem] at hcount
    omega

/-- **A majority can serve.** From every reachable cluster the nodes of any majority whose terms
leave room for two more can, with nobody else doing anything and without a crash or a loss,
accept a new command, apply it and answer its client with the output. -/
theorem majority_serves (hnd : ids.Nodup) (hs : s.Reachable ids machine)
    (hQ : (quorums ids).IsQuorum Q) (hroom : ∀ i ∈ Q, (s.node i).currentTerm + 2 < u64Max)
    (command : C) :
    ∃ t, Relation.ReflTransGen (Cluster.Among ids machine Q) s t ∧
      ∃ l ∈ Q, ∃ k T, Served l k T command s.nextReply t := by
  have helect : Attainable ids machine Q
      (fun t : Cluster C O S => t.nextReply = s.nextReply ∧
        ∀ i ∈ Q, (t.node i).currentTerm + 2 < u64Max)
      (fun t => ∃ l T, Elected Q s.nextReply l T t) := attainable_elected hnd hQ s.nextReply
  have hserve : Attainable ids machine Q
      (fun t : Cluster C O S => ∃ l T, Elected Q s.nextReply l T t)
      (fun t => ∃ l ∈ Q, ∃ k T, Served l k T command s.nextReply t) :=
    Possible.exists_left fun l => Possible.exists_left fun T =>
      (attainable_accepted hnd hQ command s.nextReply l T).or_trans
        (Possible.exists_left fun k => attainable_served hnd hQ command s.nextReply l k T)
  obtain ⟨t, hst, -, hserved⟩ := helect.trans hserve s hs ⟨rfl, hroom⟩
  exact ⟨t, hst, hserved⟩

theorem majority_serves_afterTwoTerms :
    ∃ t, Relation.ReflTransGen (Cluster.Among [1, 2, 3] ⟨0⟩ {1, 3}) afterTwoTerms t ∧
      ∃ l ∈ ({1, 3} : Finset NodeId), ∃ k T, Served l k T 5 afterTwoTerms.nextReply t :=
  majority_serves (by decide) reachable_afterTwoTerms ⟨by decide, by decide⟩ (by decide +kernel) 5

end Raft
end KvRaft
