import KvRaft.Raft.Lanes
import KvRaft.Run.Possible

/-!
# The channels come to rest

A worker waits for room in the channel of the peer, and the peer is a node that may have sent to
the worker's own node. Still nobody waits for ever. A handler never waits: what has no room in
the channel of a worker is dropped. So a node whose channel is full takes an envelope out of it,
and a worker that waits for a node that is gone is told so (`Deployment.Steady.goes_on`).

Nor do messages cause messages for ever. A vote request is answered, the vote may make a leader,
whose requests are answered, and there it ends. So each message costs something, the more the
closer it is to the start of this chain (`RaftMessage.cost`), and handling it costs less than it
did (`handleMessage_costs`). Every move of a message takes something off what the whole deployment
has left to do (`Deployment.load`), so as long as no timer fires and no client calls the traffic
ends, after that many moves at most (`comes_to_rest`).
-/

namespace KvRaft
namespace Raft

variable {C O S : Type}

/-! ### What a message costs -/

/-- The moves that a message and what it causes can make, if every node has at most `peers`
peers. -/
def RaftMessage.cost (peers : ℕ) : RaftMessage C → ℕ
  | .appendResponse _ => 4
  | .appendRequest _ => 8
  | .voteResponse _ => 4 + 8 * peers
  | .voteRequest _ => 8 + 8 * peers

/-- The moves that an effect causes. -/
def Effect.cost (peers : ℕ) : Effect C O S → ℕ
  | .send _ message => message.cost peers
  | _ => 0

/-- `n'` is `n` after effects that cost at most `c`. -/
def Costs (peers c : ℕ) (n n' : RaftNode C O S) : Prop :=
  ∃ es, n'.effects = n.effects ++ es ∧ (es.map (Effect.cost peers)).sum ≤ c

section Handlers

variable {n n' m : RaftNode C O S} {peers c c' : ℕ} {p : NodeId} {message : RaftMessage C}

theorem RaftMessage.four_le_cost (message : RaftMessage C) (peers : ℕ) :
    4 ≤ message.cost peers := by
  cases message <;> simp only [cost] <;> omega

theorem Costs.trans (h : Costs peers c n m) (h' : Costs peers c' m n') :
    Costs peers (c + c') n n' := by
  obtain ⟨es, hes, hc⟩ := h
  obtain ⟨es', hes', hc'⟩ := h'
  refine ⟨es ++ es', by rw [hes', hes, List.append_assoc], ?_⟩
  rw [List.map_append, List.sum_append]
  exact Nat.add_le_add hc hc'

theorem Costs.mono (h : Costs peers c n n') (hle : c ≤ c') : Costs peers c' n n' := by
  obtain ⟨es, hes, hc⟩ := h
  exact ⟨es, hes, hc.trans hle⟩

/-- Only what is sent costs something. -/
theorem Adds.costs (h : Adds Quiet n n') : Costs peers 0 n n' := by
  obtain ⟨es, hes, hquiet⟩ := h
  refine ⟨es, hes, (List.sum_eq_zero fun c hc => ?_).le⟩
  obtain ⟨e, he, rfl⟩ := List.mem_map.mp hc
  cases e with
  | send p message => exact absurd rfl (hquiet _ he p message)
  | _ => rfl

theorem Costs.sendMessage (n : RaftNode C O S) (p : NodeId) (message : RaftMessage C) :
    Costs peers (message.cost peers) n (n.sendMessage p message) := by
  unfold RaftNode.sendMessage
  split
  · exact ⟨[.send p message], rfl, by simp [Effect.cost]⟩
  · exact ⟨[], (List.append_nil _).symm, Nat.zero_le _⟩

/-- **`on_heartbeat`** sends each peer one request. -/
theorem onHeartbeat_costs (h : n.onHeartbeat = .ok n') :
    Costs peers (8 * n.peerIds.length) n n' := by
  have hloop : ∀ (ps : List NodeId) (m : RaftNode C O S),
      ps.foldlM RaftNode.heartbeatTo m = .ok n' → Costs peers (8 * ps.length) m n' := by
    intro ps
    induction ps with
    | nil =>
      intro m hm
      obtain rfl := Except.ok.inj hm
      exact (Adds.refl m).costs
    | cons q ps ih =>
      intro m hm
      rw [List.foldlM_cons] at hm
      obtain ⟨m₁, hone, hrest⟩ := bind_eq_ok.mp hm
      obtain ⟨req, -, rfl⟩ := RaftNode.heartbeatTo_request hone
      rw [List.length_cons, Nat.mul_succ, Nat.add_comm]
      exact (Costs.sendMessage m q (.appendRequest req)).trans (ih _ hrest)
  exact hloop n.peerIds n h

variable [RaftStateMachine S C O]

/-- `advance_commit` and `apply_committed` send nothing. -/
theorem commit_quiet (h : (n.advanceCommit >>= RaftNode.applyCommitted) = .ok n') :
    Adds Quiet n n' := by
  obtain ⟨m, hm, happly⟩ := bind_eq_ok.mp h
  refine Adds.trans ?_ (applyLoop_quiet _ happly)
  obtain rfl | ⟨index, -, rfl⟩ := RaftNode.advanceCommit_cases hm
  · exact Adds.refl m
  · exact Adds.one rfl fun _ _ => by simp

/-- **`become_leader`** sends what `on_heartbeat` sends. -/
theorem becomeLeader_costs (h : n.becomeLeader = .ok n') :
    Costs peers (8 * n.peerIds.length) n n' := by
  have htail : ((crownedNode n).persistState.advanceCommit >>= RaftNode.applyCommitted) >>=
      RaftNode.onHeartbeat = .ok n' := by
    rw [bind_assoc]
    exact h
  obtain ⟨m, hm, hbeat⟩ := bind_eq_ok.mp htail
  have hcrowned : Adds Quiet n (crownedNode n).persistState :=
    ⟨[_, _], List.append_assoc n.effects [_] [_], by simp [Quiet]⟩
  have hpeers : m.peerIds = n.peerIds := (commit_passes hm).core.peers
  have hbeats : Costs peers (8 * m.peerIds.length) m n' := onHeartbeat_costs hbeat
  have hcosts := (hcrowned.trans (commit_quiet hm)).costs.trans hbeats
  rwa [Nat.zero_add, hpeers] at hcosts

omit [RaftStateMachine S C O] in
/-- **`vote_request`** answers once. -/
theorem voteRequest_costs {msg : VoteRequest} (h : n.voteRequest p msg = .ok n') :
    Costs peers (4 + 8 * peers) n n' := by
  have hanswer : ∀ {m : RaftNode C O S} (answer : VoteResponse), Adds Quiet n m →
      Costs peers (4 + 8 * peers) n (m.sendMessage p (.voteResponse answer)) := by
    intro m answer hm
    have hsent : Costs peers (4 + 8 * peers) m (m.sendMessage p (.voteResponse answer)) :=
      Costs.sendMessage m p (.voteResponse answer)
    have hcosts := hm.costs.trans hsent
    rwa [Nat.zero_add] at hcosts
  unfold RaftNode.voteRequest at h
  split at h
  · obtain rfl := Except.ok.inj h
    exact hanswer _ (Adds.refl n)
  obtain ⟨m, hm, hquiet⟩ : ∃ m, (if n.currentTerm < msg.term then n.becomeFollower msg.term
      else n) = m ∧ Adds Quiet n m := by
    split
    · exact ⟨_, rfl, becomeFollower_quiet n msg.term⟩
    · exact ⟨n, rfl, Adds.refl n⟩
  dsimp only at h
  rw [hm] at h
  obtain ⟨last, -, h⟩ := bind_eq_ok.mp h
  split at h
  · obtain rfl := Except.ok.inj h
    exact hanswer _ (hquiet.trans (Adds.one rfl fun _ _ => by simp))
  · obtain rfl := Except.ok.inj h
    exact hanswer _ hquiet

/-- **`vote_response`** may make a leader. -/
theorem voteResponse_costs {msg : VoteResponse} (hpeers : n.peerIds.length ≤ peers)
    (h : n.voteResponse msg = .ok n') : Costs peers (8 * peers) n n' := by
  have hquiet : ∀ {m : RaftNode C O S}, Adds Quiet n m → Costs peers (8 * peers) n m :=
    fun hm => hm.costs.mono (Nat.zero_le _)
  unfold RaftNode.voteResponse at h
  split at h
  · obtain rfl := Except.ok.inj h
    exact hquiet (Adds.refl n)
  split at h
  · obtain rfl := Except.ok.inj h
    exact hquiet (becomeFollower_quiet n msg.term)
  split at h
  · next votes _ _ =>
    dsimp only at h
    split at h
    · have hcosts : Costs peers (8 * n.peerIds.length) { n with role := .candidate (votes + 1) } n' :=
        becomeLeader_costs h
      exact hcosts.mono (Nat.mul_le_mul_left 8 hpeers)
    · obtain rfl := Except.ok.inj h
      exact hquiet (Adds.refl n)
  · obtain rfl := Except.ok.inj h
    exact hquiet (Adds.refl n)

/-- **`append_response`** sends nothing. -/
theorem appendResponse_quiet {msg : AppendResponse} (h : n.appendResponse p msg = .ok n') :
    Adds Quiet n n' := by
  unfold RaftNode.appendResponse at h
  split at h
  · obtain rfl := Except.ok.inj h
    exact Adds.refl n
  split at h
  · obtain rfl := Except.ok.inj h
    exact becomeFollower_quiet n msg.term
  split at h
  · -- an answer that is counted changes the maps, which is no effect
    have hquiet := commit_quiet h
    exact hquiet
  · obtain rfl := Except.ok.inj h
    exact Adds.refl n

/-- **Handling a message costs less than the message did.** -/
theorem handleMessage_costs (hpeers : n.peerIds.length ≤ peers)
    (h : n.handleMessage p message = .ok n') : ∃ c, c + 4 ≤ message.cost peers ∧
      Costs peers c n n' := by
  cases message with
  | appendResponse msg => exact ⟨0, le_rfl, (appendResponse_quiet h).costs⟩
  | appendRequest msg =>
    obtain ⟨m, answer, hquiet, rfl, -⟩ := appendRequest_answers h
    exact ⟨_, le_rfl, hquiet.costs.trans (Costs.sendMessage m p (.appendResponse answer))⟩
  | voteResponse msg => exact ⟨_, (Nat.add_comm _ _).le, voteResponse_costs hpeers h⟩
  | voteRequest msg =>
    refine ⟨_, ?_, voteRequest_costs h⟩
    simp only [RaftMessage.cost]
    omega

end Handlers

/-! ### What there is left to do -/

namespace Worker

/-- What a worker and the messages it has are left to do. -/
def load (peers : ℕ) (self : Worker C) : ℕ :=
  (match self.sending with
  | some (message, none) => message.cost peers - 1
  | some (message, some _) => message.cost peers - 2
  | none => 0) + (self.queue.queue.map (RaftMessage.cost peers)).sum

variable {w w' : Worker C} {peers : ℕ}

theorem load_eq_zero (h : w.pending = []) : w.load peers = 0 := by
  obtain ⟨hsending, hqueue⟩ := List.append_eq_nil_iff.mp h
  have hidle : w.sending = none := by
    cases hs : w.sending with
    | none => rfl
    | some x =>
      rw [hs] at hsending
      exact absurd hsending (by simp)
  rw [load, hidle, hqueue]
  rfl

theorem take_load (h : w.take = some w') : w'.load peers < w.load peers := by
  rcases w with ⟨queue, _ | sending⟩
  · cases hrecv : queue.recv with
    | none => exact absurd h (by simp [take, hrecv])
    | some x =>
      obtain ⟨message, rest⟩ := x
      simp only [take, hrecv, Option.some.injEq] at h
      subst h
      have hcost := message.four_le_cost peers
      simp only [load, Channel.queue_of_recv hrecv, List.map_cons, List.sum_cons]
      omega
  · exact absurd h (by simp [take])

theorem resolve_load {handle : Option ℕ} (h : w.resolve handle = some w') :
    w'.load peers < w.load peers := by
  rcases w with ⟨queue, _ | ⟨message, _ | start⟩⟩
  · exact absurd h (by simp [resolve])
  · simp only [resolve, Option.some.injEq] at h
    subst h
    have hcost := message.four_le_cost peers
    cases handle with
    | none => simp only [load, Option.map_none]; omega
    | some start => simp only [load, Option.map_some]; omega
  · exact absurd h (by simp [resolve])

theorem giveUp_load (h : w.giveUp = some w') : w'.load peers < w.load peers := by
  rcases w with ⟨queue, _ | ⟨message, handle⟩⟩
  · exact absurd h (by simp [giveUp])
  · simp only [giveUp, Option.some.injEq] at h
    subst h
    have hcost := message.four_le_cost peers
    cases handle <;> simp only [load] <;> omega

theorem deliver_load (peers : ℕ) {i : NodeId} {start : ℕ}
    {receiver receiver' : Channel channelCapacity (RaftEnvelope C)}
    (h : w.deliver i start receiver = some (w', receiver')) :
    ∃ message, w'.load peers + (message.cost peers - 2) = w.load peers ∧
      receiver'.queue = receiver.queue ++ [⟨i, message⟩] := by
  rcases w with ⟨queue, _ | ⟨message, _ | handle⟩⟩
  · exact absurd h (by simp [deliver])
  · exact absurd h (by simp [deliver])
  · simp only [deliver] at h
    split at h
    · obtain ⟨receiver'', hsend, heq⟩ := Option.map_eq_some_iff.mp h
      obtain ⟨rfl, rfl⟩ := Prod.mk.inj heq
      refine ⟨message, ?_, Channel.queue_of_trySend hsend⟩
      simp only [load]
      omega
    · exact absurd h (by simp)

theorem offer_load (w : Worker C) (message : RaftMessage C) :
    load peers { w with queue := w.queue.offer message } ≤ w.load peers + message.cost peers := by
  rcases w.queue.offer_cases message with h | h
  · simp only [load, h, List.map_append, List.sum_append, List.map_singleton, List.sum_singleton]
    omega
  · simp only [load, h]
    omega

end Worker

section Sums

variable {ι : Type} {s : Finset ι} {f g : ι → ℕ} {a : ι} {c : ℕ}

/-- One summand is replaced. -/
theorem sum_add_of_agree [DecidableEq ι] (ha : a ∈ s) (h : ∀ x, x ≠ a → f x = g x) :
    ∑ x ∈ s, f x + g a = ∑ x ∈ s, g x + f a := by
  have hrest : ∑ x ∈ s.erase a, f x = ∑ x ∈ s.erase a, g x :=
    Finset.sum_congr rfl fun x hx => h x (Finset.ne_of_mem_erase hx)
  rw [← Finset.add_sum_erase s f ha, ← Finset.add_sum_erase s g ha, hrest]
  omega

/-- One summand grows, if it is one. -/
theorem sum_le_add_of_agree [DecidableEq ι] (h : ∀ x, x ≠ a → f x = g x) (ha : f a ≤ g a + c) :
    ∑ x ∈ s, f x ≤ ∑ x ∈ s, g x + c := by
  by_cases hmem : a ∈ s
  · have hsum := sum_add_of_agree hmem h
    omega
  · have hsum : ∑ x ∈ s, f x = ∑ x ∈ s, g x :=
      Finset.sum_congr rfl fun x hx => h x (ne_of_mem_of_not_mem hx hmem)
    omega

end Sums

namespace Deployment

/-- What the messages in the channel of a node are left to do. -/
def inbox (peers : ℕ) (receiver : Channel channelCapacity (RaftEnvelope C)) : ℕ :=
  (receiver.queue.map fun envelope => envelope.message.cost peers - 3).sum

/-- The workers there are or were: sender, receiver and start of the sender. -/
def workers (ids : List NodeId) (d : Deployment C O S) : Finset (Σ _ : NodeId × NodeId, ℕ) :=
  (ids.toFinset ×ˢ ids.toFinset).sigma fun link => Finset.range (d.starts link.1 + 1)

/-- What all workers are left to do. -/
def workload (ids : List NodeId) (d : Deployment C O S) : ℕ :=
  ∑ x ∈ d.workers ids, (d.worker x.1.1 x.2 x.1.2).load ids.length

/-- How many moves the messages of a deployment are good for. -/
def load (ids : List NodeId) (d : Deployment C O S) : ℕ :=
  d.workload ids + ∑ j ∈ ids.toFinset, inbox ids.length (d.messageReceiver j)

variable {ids : List NodeId} {d : Deployment C O S} {i j : NodeId} {n c : ℕ} {w : Worker C}

theorem mem_workers :
    ⟨(i, j), n⟩ ∈ d.workers ids ↔ (i ∈ ids ∧ j ∈ ids) ∧ n ≤ d.starts i := by
  simp [workers]

/-- Another worker is what it was. -/
theorem setWorker_load_of_ne (x : Σ _ : NodeId × NodeId, ℕ) (hx : x ≠ ⟨(i, j), n⟩) :
    ((d.setWorker i n j w).worker x.1.1 x.2 x.1.2).load c = (d.worker x.1.1 x.2 x.1.2).load c := by
  rw [setWorker_worker, if_neg ?_]
  rintro ⟨hi, hn, hj⟩
  refine hx (Sigma.ext (Prod.ext hi hj) ?_)
  rw [hn]

theorem setWorker_load_self :
    ((d.setWorker i n j w).worker i n j).load c = w.load c := by
  rw [setWorker_worker, if_pos ⟨rfl, rfl, rfl⟩]

theorem setWorker_workload (hi : i ∈ ids) (hj : j ∈ ids) (hn : n ≤ d.starts i) :
    (d.setWorker i n j w).workload ids + (d.worker i n j).load ids.length =
      d.workload ids + w.load ids.length := by
  have hsum := sum_add_of_agree (mem_workers.mpr ⟨⟨hi, hj⟩, hn⟩)
    (setWorker_load_of_ne (d := d) (w := w) (c := ids.length))
  rwa [setWorker_load_self] at hsum

theorem setWorker_workload_le (h : w.load ids.length ≤ (d.worker i n j).load ids.length + c) :
    (d.setWorker i n j w).workload ids ≤ d.workload ids + c :=
  sum_le_add_of_agree setWorker_load_of_ne (setWorker_load_self.trans_le h)

/-- What a node does is more to do for its workers. -/
theorem perform_workload (ids : List NodeId) (d : Deployment C O S) (i : NodeId)
    (es : List (Effect C O S)) :
    (d.perform i es).workload ids ≤ d.workload ids + (es.map (Effect.cost ids.length)).sum := by
  induction es generalizing d with
  | nil => exact le_rfl
  | cons e es ih =>
    have hone : (d.performOne i e).workload ids ≤ d.workload ids + e.cost ids.length := by
      cases e with
      | send j message => exact setWorker_workload_le (Worker.offer_load _ message)
      | _ => exact Nat.le_add_right _ _
    have hrest := ih (d.performOne i e)
    rw [List.map_cons, List.sum_cons]
    change ((d.performOne i e).perform i es).workload ids ≤ _
    omega

theorem perform_messageReceiver (d : Deployment C O S) (i : NodeId) (es : List (Effect C O S)) :
    (d.perform i es).messageReceiver = d.messageReceiver := by
  induction es generalizing d with
  | nil => rfl
  | cons e es ih =>
    refine (ih (d.performOne i e)).trans ?_
    cases e <;> rfl

/-- A channel is replaced. -/
theorem inbox_update (d : Deployment C O S) (c : ℕ)
    (receiver : Channel channelCapacity (RaftEnvelope C)) (hj : j ∈ ids) :
    ∑ p ∈ ids.toFinset, inbox c (Function.update d.messageReceiver j receiver p) +
        inbox c (d.messageReceiver j) =
      ∑ p ∈ ids.toFinset, inbox c (d.messageReceiver p) + inbox c receiver := by
  have hsum := sum_add_of_agree (List.mem_toFinset.mpr hj)
    (f := fun p => inbox c (Function.update d.messageReceiver j receiver p))
    (g := fun p => inbox c (d.messageReceiver p)) fun p hp => by rw [Function.update_of_ne hp]
  rwa [Function.update_self] at hsum

end Deployment

/-! ### Moves -/

/-- A message moves: a worker goes on, or a node takes a message out of its channel. -/
def Activity.Moves : Activity C → Prop
  | .take _ _ _ | .resolve _ _ _ | .deliver _ _ _ | .giveUp _ _ _ | .turn _ .message => True
  | _ => False

namespace Deployment

variable [RaftStateMachine S C O] {ids : List NodeId} {machine : S} {d d' d₁ : Deployment C O S}
  {i j : NodeId} {n : ℕ} {w : Worker C} {activity : Activity C}

/-- A deployment that was reached. -/
structure Steady (ids : List NodeId) (machine : S) (d : Deployment C O S) : Prop where
  refines : ∃ s, Cluster.Reachable ids machine s ∧ d.Refines ids machine s
  /-- A node that is gone has nothing to receive. -/
  gone : ∀ i, d.node i = none → (d.messageReceiver i).queue = []

omit [RaftStateMachine S C O] in
theorem receive_messageReceiver {branch : Branch} {node : RaftNode C O S} {input : Input C}
    (h : d.receive i node branch = some (input, d₁)) (hj : j ≠ i) :
    d₁.messageReceiver j = d.messageReceiver j := by
  rcases receive_cases h with ⟨-, -, -, rfl⟩ | ⟨-, -, rfl⟩ | ⟨envelope, receiver, -, -, rfl⟩ |
    ⟨call, receiver, -, rfl⟩
  · rfl
  · rfl
  · exact Function.update_of_ne hj receiver d.messageReceiver
  · rfl

omit [RaftStateMachine S C O] in
/-- A node that handles its input is there. -/
theorem gone_perform (hgone : ∀ k, d.node k = none → (d.messageReceiver k).queue = [])
    {branch : Branch} {node : RaftNode C O S} {input : Input C}
    (hsel : d.select i branch = some (node, input, d₁)) (es : List (Effect C O S)) (k : NodeId)
    (hk : (d₁.perform i es).node k = none) : ((d₁.perform i es).messageReceiver k).queue = [] := by
  obtain ⟨hnode, hreceive⟩ := select_eq_some hsel
  rw [perform_node, receive_node hreceive] at hk
  have hki : k ≠ i := by
    rintro rfl
    exact absurd (hk.symm.trans hnode) (by simp)
  rw [perform_messageReceiver, receive_messageReceiver hreceive hki]
  exact hgone k hk

omit [RaftStateMachine S C O] in
theorem gone_stop (hgone : ∀ k, d.node k = none → (d.messageReceiver k).queue = [])
    (i : NodeId) (workers : Bool) (k : NodeId) (hk : (d.stop i workers).node k = none) :
    ((d.stop i workers).messageReceiver k).queue = [] := by
  change Function.update d.node i none k = none at hk
  change (Function.update d.messageReceiver i Channel.empty k).queue = []
  by_cases hki : k = i
  · rw [hki, Function.update_self]
    rfl
  · rw [Function.update_of_ne hki] at hk ⊢
    exact hgone k hk

theorem Steady.step (h : d.Steady ids machine) (hact : d.exec ids machine activity = some d') :
    d'.Steady ids machine := by
  obtain ⟨⟨s, hs, href⟩, hgone⟩ := h
  refine ⟨?_, ?_⟩
  · obtain ⟨s', href', rfl | ⟨action, hstep, -⟩⟩ := href.step hact
    · exact ⟨_, hs, href'⟩
    · exact ⟨s', hs.tail ⟨action, hstep⟩, href'⟩
  intro k hk
  cases move_of_exec hact with
  | launch i hactivity hi hnode =>
    change Function.update d.node i (some _) k = none at hk
    by_cases hki : k = i
    · rw [hki, Function.update_self] at hk
      exact absurd hk (by simp)
    · rw [Function.update_of_ne hki] at hk
      exact hgone k hk
  | outside nodes commandReceiver => exact hgone k hk
  | turn i branch node node' input d₁ hactivity hsel hnode =>
    change Function.update (d₁.perform i node'.effects).node i (some _) k = none at hk
    by_cases hki : k = i
    · rw [hki, Function.update_self] at hk
      exact absurd hk (by simp)
    · rw [Function.update_of_ne hki] at hk
      exact gone_perform hgone hsel node'.effects k hk
  | kill i workers hnode => exact gone_stop hgone i workers k hk
  | killIn i branch done workers node node' input d₁ hactivity hsel hnode =>
    exact gone_stop (gone_perform hgone hsel (node'.effects.take done)) i workers k hk
  | worker i n j w hwas hpending => exact hgone k hk
  | deliver i n j w receiver message hnode hpending hqueue =>
    change d.node k = none at hk
    have hkj : k ≠ j := by
      rintro rfl
      rw [hk] at hnode
      exact absurd hnode (by simp)
    change (Function.update d.messageReceiver j receiver k).queue = []
    rw [Function.update_of_ne hkj]
    exact hgone k hk

theorem Steady.of_runs {K : Deployment C O S → Activity C → Prop}
    (h : Runs ids machine K init d) : d.Steady ids machine := by
  induction h with
  | refl => exact ⟨⟨_, Relation.ReflTransGen.refl, Refines.init ids machine⟩, fun _ _ => rfl⟩
  | tail _ hstep ih =>
    obtain ⟨activity, -, hact⟩ := hstep
    exact ih.step hact

/-- A worker that has something to send goes from a node to a node. -/
theorem Steady.busy (h : d.Steady ids machine) (hnd : ids.Nodup)
    (hpending : (d.worker i n j).pending ≠ []) : (i ∈ ids ∧ j ∈ ids) ∧ n ≤ d.starts i := by
  obtain ⟨s, hs, href⟩ := h.refines
  have hn : n ≤ d.starts i := href.start_le fun hnew => hpending (by rw [hnew, Worker.pending_new])
  obtain ⟨message, hmem⟩ := List.exists_mem_of_ne_nil _ hpending
  obtain ⟨a, ha⟩ := hs.rel hnd
  obtain ⟨hfrom, hto, -⟩ := (ha.mid i).net _ (href.mem_network (mem_link_of_pending hn hmem))
  exact ⟨⟨hfrom, hto⟩, hn⟩

/-- What the turn of a node that takes a message is. -/
theorem exec_message (hact : d.exec ids machine (.turn j .message) = some d') :
    ∃ node node' envelope receiver, d.node j = some node ∧
      (d.messageReceiver j).queue = envelope :: receiver.queue ∧
      node.handleMessage envelope.fromId envelope.message = .ok node' ∧
      d' = settle { d with
        messageReceiver := Function.update d.messageReceiver j receiver } j node' := by
  simp only [exec] at hact
  split at hact
  · next node input d₁ hsel =>
    obtain ⟨hnode, hreceive⟩ := select_eq_some hsel
    simp only [receive] at hreceive
    split at hreceive
    · next envelope receiver hrecv =>
      obtain ⟨rfl, rfl⟩ := Prod.mk.inj (Option.some.inj hreceive)
      split at hact
      · next node' hhandle =>
        exact ⟨node, node', envelope, receiver, hnode, Channel.queue_of_recv hrecv, hhandle,
          (Option.some.inj hact).symm⟩
      · exact absurd hact (by simp)
    · exact absurd hreceive (by simp)
  · exact absurd hact (by simp)

/-- **A node that has a message can take it.** -/
theorem Steady.takes (h : d.Steady ids machine) (hnd : ids.Nodup)
    (hqueue : (d.messageReceiver j).queue ≠ []) :
    ∃ d', d.exec ids machine (.turn j .message) = some d' := by
  obtain ⟨s, hs, href⟩ := h.refines
  obtain ⟨a, ha⟩ := hs.rel hnd
  cases hnode : d.node j with
  | none => exact absurd (h.gone j hnode) hqueue
  | some node =>
    obtain ⟨envelope, receiver, hrecv⟩ := Channel.exists_recv hqueue
    have hsel : d.select j .message = some (node, .message envelope.fromId envelope.message,
        { d with messageReceiver := Function.update d.messageReceiver j receiver }) := by
      simp only [select, hnode, receive, hrecv, Option.map_some]
    -- the cluster offers the node this message, and no handler panics on what is offered
    obtain ⟨source, u, ho, -, hun, -⟩ := href.select hsel
    obtain ⟨hj, held, hsync, hin, -⟩ := ha.offered ho
    obtain ⟨node', -, -, hhandle, -⟩ := hsync.handle hnd hj hin
    rw [hun] at hhandle
    simp only [exec, hsel, hhandle]
    exact ⟨_, rfl⟩

/-- **A message that moves costs.** -/
theorem Steady.load_lt (h : d.Steady ids machine) (hnd : ids.Nodup) (hmoves : activity.Moves)
    (hact : d.exec ids machine activity = some d') : d'.load ids < d.load ids := by
  -- a worker that goes on by itself
  have hworker : ∀ {i n j w}, w.load ids.length < (d.worker i n j).load ids.length →
      (d.setWorker i n j w).load ids < d.load ids := by
    intro i n j w hlt
    have hpending : (d.worker i n j).pending ≠ [] := fun hnil => by
      rw [Worker.load_eq_zero hnil] at hlt
      exact absurd hlt (Nat.not_lt_zero _)
    obtain ⟨⟨hi, hj⟩, hn⟩ := h.busy hnd hpending
    have hsum := setWorker_workload (d := d) (w := w) hi hj hn
    have hlt' : (d.setWorker i n j w).workload ids < d.workload ids := by omega
    exact Nat.add_lt_add_right hlt' _
  cases activity with
  | take i n j =>
    obtain ⟨w, hw, rfl⟩ := Option.map_eq_some_iff.mp hact
    exact hworker (Worker.take_load hw)
  | resolve i n j =>
    obtain ⟨w, hw, rfl⟩ := Option.map_eq_some_iff.mp hact
    exact hworker (Worker.resolve_load hw)
  | giveUp i n j =>
    obtain ⟨w, hw, rfl⟩ := Option.map_eq_some_iff.mp hact
    exact hworker (Worker.giveUp_load hw)
  | deliver i n j =>
    simp only [exec] at hact
    split at hact
    swap
    · exact absurd hact (by simp)
    obtain ⟨⟨w, receiver⟩, hw, rfl⟩ := Option.map_eq_some_iff.mp hact
    obtain ⟨message, hload, hqueue⟩ := Worker.deliver_load ids.length hw
    have hcost := message.four_le_cost ids.length
    have hpending : (d.worker i n j).pending ≠ [] := fun hnil => by
      rw [Worker.load_eq_zero hnil] at hload
      omega
    obtain ⟨⟨hi, hj⟩, hn⟩ := h.busy hnd hpending
    have hwork := setWorker_workload (d := d) (w := w) hi hj hn
    have hinbox := d.inbox_update ids.length receiver hj
    have hgrown : inbox ids.length receiver =
        inbox ids.length (d.messageReceiver j) + (message.cost ids.length - 3) := by
      unfold inbox
      rw [hqueue]
      simp
    change (d.setWorker i n j w).workload ids + ∑ p ∈ ids.toFinset, inbox ids.length
      (Function.update d.messageReceiver j receiver p) < d.load ids
    unfold load
    omega
  | turn j branch =>
    cases branch with
    | message =>
      obtain ⟨node, node', envelope, receiver, hnode, hqueue, hhandle, rfl⟩ := exec_message hact
      obtain ⟨s, hs, href⟩ := h.refines
      obtain ⟨a, ha⟩ := hs.rel hnd
      have hj : j ∈ ids := href.mem j (by rw [hnode]; rfl)
      have hsame : s.node j = node := by rw [href.node, hnode, Option.getD_some]
      obtain ⟨hok, hidle⟩ := ha.nodes j hj
      rw [hsame] at hok hidle
      have hpeers : node.peerIds.length ≤ ids.length := by
        rw [hok.peers]
        exact List.length_filter_le _ _
      obtain ⟨c, hc, es, hes, hsum⟩ := handleMessage_costs hpeers hhandle
      rw [hidle, List.nil_append] at hes
      have hwork := perform_workload ids
        { d with messageReceiver := Function.update d.messageReceiver j receiver } j es
      have hinbox := d.inbox_update ids.length receiver hj
      have hshrunk : inbox ids.length (d.messageReceiver j) =
          envelope.message.cost ids.length - 3 + inbox ids.length receiver := by
        unfold inbox
        rw [hqueue]
        simp
      unfold settle
      rw [hes]
      change (perform _ j es).workload ids + ∑ p ∈ ids.toFinset, inbox ids.length
        ((perform _ j es).messageReceiver p) < d.load ids
      rw [perform_messageReceiver]
      change _ ≤ d.workload ids + _ at hwork
      unfold load
      dsimp only
      omega
    | _ => exact hmoves.elim
  | _ => exact hmoves.elim

/-! ### Rest -/

/-- No message is on its way. -/
def AtRest (d : Deployment C O S) : Prop :=
  (∀ i n j, (d.worker i n j).pending = []) ∧ ∀ j, (d.messageReceiver j).queue = []

/-- A message moves, and no worker gives up that sends to a node that is still there. -/
def Patient (d : Deployment C O S) (activity : Activity C) : Prop :=
  activity.Moves ∧ ∀ i n j, activity = .giveUp i n j → ∃ message start,
    (d.worker i n j).sending = some (message, some start) ∧
      ¬ ((d.node j).isSome ∧ d.starts j = start)

/-- **Nobody waits for ever.** While messages are on their way, one of them can move. -/
theorem Steady.goes_on (h : d.Steady ids machine) (hnd : ids.Nodup) :
    d.AtRest ∨ ∃ activity d', d.Patient activity ∧ d.exec ids machine activity = some d' := by
  have hturn : ∀ j, (d.messageReceiver j).queue ≠ [] →
      ∃ activity d', d.Patient activity ∧ d.exec ids machine activity = some d' := by
    intro j hqueue
    obtain ⟨d', hact⟩ := h.takes hnd hqueue
    exact ⟨.turn j .message, d', ⟨trivial, by simp⟩, hact⟩
  by_cases hworkers : ∀ i n j, (d.worker i n j).pending = []
  · by_cases hinbox : ∀ j, (d.messageReceiver j).queue = []
    · exact Or.inl ⟨hworkers, hinbox⟩
    · obtain ⟨j, hqueue⟩ := not_forall.mp hinbox
      exact Or.inr (hturn j hqueue)
  right
  obtain ⟨i, n, j, hpending⟩ : ∃ i n j, (d.worker i n j).pending ≠ [] := by
    simpa only [not_forall] using hworkers
  cases hsending : (d.worker i n j).sending with
  | none =>
    have hqueue : (d.worker i n j).queue.queue ≠ [] := by
      rwa [Worker.pending, hsending] at hpending
    obtain ⟨message, queue, hrecv⟩ := Channel.exists_recv hqueue
    have htake : (d.worker i n j).take = some ⟨queue, some (message, none)⟩ := by
      simp only [Worker.take, hsending, hrecv]
    exact ⟨.take i n j, _, ⟨trivial, by simp⟩, Option.map_eq_some_iff.mpr ⟨_, htake, rfl⟩⟩
  | some x =>
    obtain ⟨message, _ | start⟩ := x
    · have hresolve : ∃ w, (d.worker i n j).resolve (d.nodes j) = some w := by
        simp only [Worker.resolve, hsending]
        exact ⟨_, rfl⟩
      obtain ⟨w, hw⟩ := hresolve
      exact ⟨.resolve i n j, _, ⟨trivial, by simp⟩, Option.map_eq_some_iff.mpr ⟨w, hw, rfl⟩⟩
    by_cases hthere : (d.node j).isSome ∧ d.starts j = start
    swap
    · -- the node it sends to is gone
      have hgiveUp : (d.worker i n j).giveUp = some { d.worker i n j with sending := none } := by
        simp only [Worker.giveUp, hsending]
      refine ⟨.giveUp i n j, _, ⟨trivial, ?_⟩, Option.map_eq_some_iff.mpr ⟨_, hgiveUp, rfl⟩⟩
      rintro i' n' j' heq
      obtain ⟨rfl, rfl, rfl⟩ := Activity.giveUp.inj heq
      exact ⟨message, start, hsending, hthere⟩
    cases hroom : (d.messageReceiver j).trySend ⟨i, message⟩ with
    | some receiver =>
      have hdeliver : (d.worker i n j).deliver i (d.starts j) (d.messageReceiver j) =
          some ({ d.worker i n j with sending := none }, receiver) := by
        simp only [Worker.deliver, hsending, hthere.2, if_true, hroom, Option.map_some]
      have hact : ∃ d', d.exec ids machine (.deliver i n j) = some d' := by
        simp only [exec, hthere.1, if_true, hdeliver, Option.map_some]
        exact ⟨_, rfl⟩
      obtain ⟨d', hact⟩ := hact
      exact ⟨.deliver i n j, d', ⟨trivial, by simp⟩, hact⟩
    | none =>
      -- the channel is full, so the node has something to take out of it
      refine hturn j fun hnil => ?_
      have hfull := Channel.length_of_trySend hroom
      rw [hnil] at hfull
      exact absurd hfull (by simp [channelCapacity])

/-- **A run of moves** is paid for by the load it takes away. -/
theorem Steady.run (hnd : ids.Nodup) : ∀ {activities : List (Activity C)}
    {d d' : Deployment C O S}, d.Steady ids machine →
      (∀ activity ∈ activities, activity.Moves) → d.run ids machine activities = some d' →
        d'.Steady ids machine ∧ activities.length + d'.load ids ≤ d.load ids := by
  intro activities
  induction activities with
  | nil =>
    intro d d' h _ hrun
    obtain rfl := Option.some.inj hrun
    exact ⟨h, (Nat.zero_add _).le⟩
  | cons activity activities ih =>
    intro d d' h hmoves hrun
    unfold Deployment.run at hrun
    cases hact : d.exec ids machine activity with
    | none =>
      rw [hact] at hrun
      exact absurd hrun (by simp)
    | some d₁ =>
      rw [hact] at hrun
      have hlt := h.load_lt hnd (hmoves activity List.mem_cons_self) hact
      obtain ⟨h', hrest⟩ :=
        ih (h.step hact) (fun a ha => hmoves a (List.mem_cons_of_mem _ ha)) hrun
      refine ⟨h', ?_⟩
      rw [List.length_cons]
      omega

/-- **From every deployment some patient run leads to rest.** -/
theorem possible_rest (hnd : ids.Nodup) : Possible (fun d d' : Deployment C O S =>
    ∃ activity, d.Patient activity ∧ d.exec ids machine activity = some d')
      (Steady ids machine) (fun _ => True) AtRest := by
  have hlow : ∀ d₁ d₂ : Deployment C O S, d₁.Steady ids machine →
      (∃ activity, d₁.Patient activity ∧ d₁.exec ids machine activity = some d₂) →
        d₂.load ids < d₁.load ids := by
    rintro d₁ d₂ h ⟨activity, hpatient, hact⟩
    exact h.load_lt hnd hpatient.1 hact
  refine Possible.of_measure ?_ hlow ?_
  · rintro d₁ d₂ h ⟨activity, -, hact⟩
    exact h.step hact
  · intro d₁ h
    rcases h.goes_on hnd with hrest | ⟨activity, d₂, hpatient, hact⟩
    · exact Or.inl hrest
    · exact Or.inr ⟨d₂, activity, hpatient, hact⟩

/-- **The channels come to rest.** Whatever has happened to a deployment: when from now on only
messages move, in any order and with any time-outs, they make at most `load` moves. They do not
get stuck before all channels and workers are empty, and for this no worker has to give up that
sends to a node that is still there. -/
theorem comes_to_rest {K : Deployment C O S → Activity C → Prop} (hnd : ids.Nodup)
    (h : Runs ids machine K init d) :
    (∀ activities d', (∀ activity ∈ activities, activity.Moves) →
        d.run ids machine activities = some d' →
          activities.length ≤ d.load ids ∧
            ((∀ activity, d'.Patient activity → d'.exec ids machine activity = none) →
              d'.AtRest)) ∧
      ∃ d', Runs ids machine Patient d d' ∧ d'.AtRest := by
  have hsteady := Steady.of_runs h
  refine ⟨fun activities d' hmoves hrun => ?_, ?_⟩
  · obtain ⟨hsteady', hlength⟩ := hsteady.run hnd hmoves hrun
    refine ⟨by omega, fun hstuck => ?_⟩
    rcases hsteady'.goes_on hnd with hrest | ⟨activity, d₁, hpatient, hact⟩
    · exact hrest
    · exact absurd ((hstuck activity hpatient).symm.trans hact) (by simp)
  · obtain ⟨d', hruns, -, hrest⟩ := possible_rest hnd d hsteady trivial
    exact ⟨d', hruns, hrest⟩

/-- Node 1 has asked the others for their votes. Node 2 is there, node 3 is gone, but the worker
for node 3 has got its handle. -/
def canvassed : List (Activity ℕ) :=
  [.launch 1, .launch 2, .launch 3, .addNode 2 1, .addNode 3 1, .addNode 1 1,
    .turn 1 .electionTimeout, .take 1 1 3, .resolve 1 1 3, .kill 3 true]

theorem comes_to_rest_canvassed : ∃ d : Deployment ℕ ℕ Counter,
    init.run [1, 2, 3] ⟨0⟩ canvassed = some d ∧ d.load [1, 2, 3] = 62 ∧
      (∀ activities d', (∀ activity ∈ activities, activity.Moves) →
        d.run [1, 2, 3] ⟨0⟩ activities = some d' → activities.length ≤ 62) ∧
      ∃ d', Runs [1, 2, 3] ⟨0⟩ Patient d d' ∧ d'.AtRest := by
  have hend : ((init : Deployment ℕ ℕ Counter).run [1, 2, 3] ⟨0⟩ canvassed).map
      (fun d => d.load [1, 2, 3]) = some 62 := by
    decide +kernel
  obtain ⟨d, hd, hload⟩ := Option.map_eq_some_iff.mp hend
  obtain ⟨hbound, hrest⟩ := comes_to_rest (by decide)
    (runs_of_run (K := fun _ _ => True) (fun _ _ _ => trivial) hd)
  refine ⟨d, hd, hload, fun activities d' hmoves hrun => ?_, hrest⟩
  rw [← hload]
  exact (hbound activities d' hmoves hrun).1

end Deployment

end Raft
end KvRaft
