import KvRaft.Raft.CommitCap

/-!
# Answers that overtake each other

`append_response` overwrites both maps with whatever the latest answer says. Its guard drops
the answers of earlier terms as stale; answers of the own term to earlier requests pass. A
success answer to an earlier request then lowers `match_index`, and a refusal that arrives
after a success sets `next_index` to an index the peer is known to have.

`Cluster.InOrder` is what an order of deliveries has to avoid: a success that reports less
than what was counted, and a refusal once anything was counted. This is exact
(`progress_iff_in_order`), because of what is in flight (`InFlight`): no request of a leader
probes beyond the larger of the log it was elected with and what it knows the peer has, and
no answer refuses beyond the probe. A success always covers the log the leader was elected
with, so a refusal after a success never sets `next_index` above `match_index`.
-/

namespace KvRaft
namespace Raft

open TermLog

variable {C O S : Type}

/-! ### Progress of a leader -/

/-- `match_index[p]` of a leader. -/
def RaftNode.matchOf (n : RaftNode C O S) (p : NodeId) : Option ℕ :=
  match n.role with
  | .leader _ matchIndex => matchIndex.lookup p
  | _ => none

/-- `next_index[p]` of a leader. -/
def RaftNode.nextOf (n : RaftNode C O S) (p : NodeId) : Option ℕ :=
  match n.role with
  | .leader nextIndex _ => nextIndex.lookup p
  | _ => none

/-- After the step every leader has `match_index[p] < next_index[p]`, and no leader that stays
in its term has gone back. -/
def Cluster.Advances (ids : List NodeId) (s t : Cluster C O S) : Prop :=
  ∀ l ∈ ids, ∀ p ∈ ids, p ≠ l →
    (∀ x y, (t.node l).matchOf p = some x → (t.node l).nextOf p = some y → x < y) ∧
    ((t.node l).currentTerm = (s.node l).currentTerm → ∀ x x',
      (s.node l).matchOf p = some x → (t.node l).matchOf p = some x' → x ≤ x')

/-- If the action delivers an answer of its term to a leader, then a success reports at least
what was counted, and a refusal comes before any success was counted. -/
def Cluster.InOrder (s : Cluster C O S) (action : Action C) : Prop :=
  ∀ k p l msg, action = .run (.deliver k) →
    s.network[k]? = some ⟨p, l, .appendResponse msg⟩ → msg.term = (s.node l).currentTerm →
    ∀ x, (s.node l).matchOf p = some x → if msg.success then x ≤ msg.matchIndex else x = 0

/-- Every step of a run satisfies `P`. -/
def Cluster.AllSteps [RaftStateMachine S C O] (ids : List NodeId) (machine : S)
    (P : Cluster C O S → Action C → Cluster C O S → Prop) : Cluster C O S → List (Action C) → Prop
  | _, [] => True
  | s, action :: actions => ∀ t ∈ s.exec ids machine action,
    P s action t ∧ t.AllSteps ids machine P actions

variable {ids : List NodeId} {a a' : Spec C} {s t : Cluster C O S} {l p : NodeId} {machine : S}
  {n n' node : RaftNode C O S} {nextIndex matchIndex : PeerMap} {T b x x' y : ℕ}

/-! ### What is in flight -/

/-- The length of the log that a leader was elected with: its entries of earlier terms. -/
def RaftNode.inherited (n : RaftNode C O S) : ℕ :=
  n.log.countP fun e => decide (e.term < n.currentTerm)

/-- Between the leader `l` of term `T`, elected with `b` entries, and its peer `p`, of which
it knows `x`: no request probes beyond `b` and `x`, all cover the log `l` was elected with, and
no answer refuses beyond the probes. -/
structure InFlight (network : List (Envelope C)) (l p : NodeId) (T b x : ℕ) : Prop where
  requests : ∀ req, ⟨l, p, .appendRequest req⟩ ∈ network → req.term = T →
    req.prevLogIndex ≤ max b x ∧ b ≤ req.prevLogIndex + req.entries.length
  answers : ∀ msg, ⟨p, l, .appendResponse msg⟩ ∈ network → msg.term = T →
    if msg.success then b ≤ msg.matchIndex else msg.matchIndex ≤ max b x

/-- What a leader knows of the peer `p`, with what is on its way between them. -/
structure Knows (network : List (Envelope C)) (n : RaftNode C O S) (l p : NodeId)
    (x y : ℕ) : Prop where
  pos : 1 ≤ n.inherited
  lt : n.inherited < n.log.length
  next : x < y
  covers : x = 0 ∨ n.inherited ≤ x
  bound : y ≤ max n.inherited x + 1
  flight : InFlight network l p n.currentTerm n.inherited x

/-- What holds of the leaders of a run in which every answer so far came in order. -/
def Cluster.Tracked (ids : List NodeId) (s : Cluster C O S) : Prop :=
  ∀ l ∈ ids, ∀ p ∈ ids, p ≠ l → (s.node l).role.isLeader = true →
    ∃ x y, (s.node l).matchOf p = some x ∧ (s.node l).nextOf p = some y ∧
      Knows s.network (s.node l) l p x y

/-! ### What a step does to the entries of one peer -/

/-- What a step does to what the leader `l` has for its peer `p`. -/
inductive PeerStep (s : Cluster C O S) (action : Action C) (t : Cluster C O S)
    (l p : NodeId) : Prop
  /-- `l` has just become leader. -/
  | crowned (hfresh : (s.node l).matchOf p = none) (hmatch : (t.node l).matchOf p = some 0)
    (hnext : (t.node l).nextOf p = some (t.node l).log.length)
    (hpos : 1 ≤ (t.node l).inherited)
    (hlen : (t.node l).inherited + 1 = (t.node l).log.length)
    (hflight : InFlight s.network l p (t.node l).currentTerm (t.node l).inherited 0)
  | kept (hlead : (s.node l).role.isLeader = true)
    (hterm : (t.node l).currentTerm = (s.node l).currentTerm)
    (hinherited : (t.node l).inherited = (s.node l).inherited)
    (hlen : (s.node l).log.length ≤ (t.node l).log.length)
    (hmatch : (t.node l).matchOf p = (s.node l).matchOf p)
    (hnext : (t.node l).nextOf p = (s.node l).nextOf p)
  /-- `l` has counted an answer of `p`. -/
  | counted (k : ℕ) (msg : AppendResponse) (haction : action = .run (.deliver k))
    (hk : s.network[k]? = some ⟨p, l, .appendResponse msg⟩)
    (hmsg : msg.term = (s.node l).currentTerm) (hlead : (s.node l).role.isLeader = true)
    (hterm : (t.node l).currentTerm = (s.node l).currentTerm)
    (hlog : (t.node l).log = (s.node l).log)
    (hmatch : (t.node l).matchOf p =
      if msg.success then some msg.matchIndex else (s.node l).matchOf p)
    (hnext : (t.node l).nextOf p =
      some (if msg.success then msg.matchIndex + 1 else max (msg.matchIndex - 1) 1))

theorem matchOf_of_role (h : n.role = .leader nextIndex matchIndex) (p : NodeId) :
    n.matchOf p = matchIndex.lookup p := by
  rw [RaftNode.matchOf, h]

theorem nextOf_of_role (h : n.role = .leader nextIndex matchIndex) (p : NodeId) :
    n.nextOf p = nextIndex.lookup p := by
  rw [RaftNode.nextOf, h]

theorem isLeader_of_matchOf (h : n.matchOf p = some x) : n.role.isLeader = true := by
  unfold RaftNode.matchOf at h
  split at h
  · next hrole => rw [hrole]; rfl
  · exact absurd h (by simp)

theorem exists_maps (h : n.role.isLeader = true) :
    ∃ nextIndex matchIndex, n.role = .leader nextIndex matchIndex := by
  cases hrole : n.role with
  | leader nextIndex matchIndex => exact ⟨nextIndex, matchIndex, rfl⟩
  | follower leader =>
    rw [hrole] at h
    exact absurd h (by simp [Role.isLeader])
  | candidate votes =>
    rw [hrole] at h
    exact absurd h (by simp [Role.isLeader])

/-- Entries of the own term are not inherited. -/
theorem inherited_of_append {es : List (LogEntry C)} (hterm : n'.currentTerm = n.currentTerm)
    (hlog : n'.log = n.log ++ es) (hes : ∀ e ∈ es, e.term = n.currentTerm) :
    n'.inherited = n.inherited := by
  have hnone : es.countP (fun e => decide (e.term < n.currentTerm)) = 0 := by
    rw [List.countP_eq_zero]
    intro e he
    rw [hes e he]
    simp
  rw [RaftNode.inherited, RaftNode.inherited, hterm, hlog, List.countP_append, hnone, Nat.add_zero]

/-- A candidate's log is all that it will have inherited. -/
theorem inherited_of_crowned (hold : ∀ e ∈ n.log, e.term < n'.currentTerm)
    (hlog : n'.log = n.log ++ [⟨n'.currentTerm, .noOp⟩]) : n'.inherited = n.log.length := by
  rw [RaftNode.inherited, hlog, List.countP_append, List.countP_eq_length.mpr fun e he => by
    simpa using hold e he]
  simp

/-- A term that a candidate has not won yet has no requests of its own and no answers to it. -/
theorem Rel.no_flight (h : Rel ids a s) (hl : l ∈ ids) {votes : ℕ}
    (hrole : (s.node l).role = .candidate votes) (b : ℕ) :
    InFlight s.network l p (s.node l).currentTerm b 0 := by
  have hcand := (h.nodes l hl).1.role
  unfold RoleOk at hcand
  rw [hrole] at hcand
  obtain ⟨-, hnot, -⟩ := hcand
  refine ⟨fun req hreq hterm => ?_, fun msg hmsg hterm => ?_⟩
  · obtain ⟨-, -, -, -, r, hr, hw, -⟩ := (h.mid l).net _ hreq
    exact absurd hw (hnot r (hterm ▸ hr))
  · obtain ⟨-, -, -, hsuccess, hfailure⟩ := (h.mid l).net _ hmsg
    split
    · next hs =>
      obtain ⟨r, hr, hw, -⟩ := hsuccess hs
      exact absurd hw (hnot r (hterm ▸ hr))
    · next hs =>
      rcases hfailure (by simpa using hs) with h0 | ⟨r, hr, hw, -⟩
      · rw [h0]
        exact Nat.zero_le _
      · exact absurd hw (hnot r (hterm ▸ hr))

variable [RaftStateMachine S C O] {action : Action C}

/-- **The inversion lemma** for one peer of a node that leads after a step. -/
theorem Rel.peerStep (h : Rel ids a s) (hact : s.exec ids machine action = some t) (hl : l ∈ ids)
    (hp : p ∈ ids) (hpl : p ≠ l) (hlead : (t.node l).role.isLeader = true) :
    PeerStep s action t l p := by
  have hok := (h.nodes l hl).1
  have hpeer : p ∈ (s.node l).peerIds := hok.mem_peers.mpr ⟨hp, hpl⟩
  rcases Cluster.exec_node_cases hact l with hsame | ⟨source, input, u, node, hsource, ho, hn, rfl⟩ |
    ⟨stored, hnew⟩
  · exact PeerStep.kept (hsame ▸ hlead) (by rw [hsame]) (by rw [hsame]) (by rw [hsame])
      (by rw [hsame]) (by rw [hsame])
  · rw [Cluster.offer_node ho] at hn
    obtain ⟨nextIndex, matchIndex, hrole⟩ := exists_maps hlead
    have hrole' : node.role = .leader nextIndex matchIndex := by
      rw [Cluster.settle_node_self] at hrole
      exact hrole
    have hmatch := matchOf_of_role hrole p
    have hnext := nextOf_of_role hrole p
    -- the node after the step differs from what its handler left in the effects only
    have hterm_eq : ((u.settle l node).node l).currentTerm = node.currentTerm := by
      rw [Cluster.settle_node_self]
    have hlog_eq : ((u.settle l node).node l).log = node.log := by
      rw [Cluster.settle_node_self]
    have hinherited_eq : ((u.settle l node).node l).inherited = node.inherited := by
      rw [Cluster.settle_node_self]
      rfl
    cases (handle_outcome hn).leads nextIndex matchIndex hrole' with
    | kept es hrole₀ hterm hlog hes =>
      refine PeerStep.kept (by rw [hrole₀]; rfl) (hterm_eq.trans hterm)
        (hinherited_eq.trans (inherited_of_append hterm hlog hes)) ?_ ?_ ?_
      · rw [hlog_eq, hlog, List.length_append]
        exact Nat.le_add_right _ _
      · rw [hmatch, matchOf_of_role hrole₀]
      · rw [hnext, nextOf_of_role hrole₀]
    | crowned hfrom hlog hmark hnext' hmatch' =>
      rcases hfrom with ⟨⟨votes, hcand⟩, hterm⟩ | halone
      · have hvote := hok.role
        unfold RoleOk at hvote
        rw [hcand] at hvote
        have hinh : node.inherited = (s.node l).log.length :=
          inherited_of_crowned (fun e he => by
            rw [hterm]
            exact (h.mid l).inv.vote_self l _ _ hvote.1 e he) hlog
        refine PeerStep.crowned ?_ ?_ ?_ ?_ ?_ ?_
        · rw [RaftNode.matchOf, hcand]
        · rw [hmatch, hmatch', if_pos hpeer]
        · rw [hnext, hnext', if_pos hpeer, hlog_eq]
        · rw [hinherited_eq, hinh]
          exact hok.log_pos
        · rw [hinherited_eq, hlog_eq, hinh, hlog, List.length_append]
          rfl
        · rw [hterm_eq, hterm]
          exact h.no_flight hl hcand _
      · rw [halone] at hpeer
        exact absurd hpeer List.not_mem_nil
    | counted q msg next₀ match₀ hin hmsg hrole₀ hterm hlog hmaps =>
      have hinh : node.inherited = (s.node l).inherited :=
        inherited_of_append hterm (show node.log = (s.node l).log ++ [] by
          rw [hlog, List.append_nil]) (by simp)
      have hled : (s.node l).role.isLeader = true := by
        rw [hrole₀]
        rfl
      unfold countAnswer at hmaps
      by_cases hq : p = q
      · subst hq
        -- the answer was in flight
        obtain ⟨k, hk, hdeliver⟩ : ∃ k, s.network[k]? = some ⟨p, l, .appendResponse msg⟩ ∧
            source = .deliver k := by
          rcases Cluster.offer_cases ho with ⟨-, hin', -⟩ | ⟨-, hin', -⟩ | ⟨command, -, hin', -⟩ |
            ⟨k, env, hsource', hk, hto, hin', -⟩
          · exact absurd (hin.symm.trans hin') (by simp)
          · exact absurd (hin.symm.trans hin') (by simp)
          · exact absurd (hin.symm.trans hin') (by simp)
          · obtain ⟨hfrom, hmessage⟩ := Input.message.inj (hin.symm.trans hin')
            refine ⟨k, ?_, hsource'⟩
            rw [hk, hto, hfrom, hmessage]
        refine PeerStep.counted k msg (by rw [hsource, hdeliver]) hk hmsg hled
          (hterm_eq.trans hterm) (hlog_eq.trans hlog) ?_ ?_
        · rw [hmatch, matchOf_of_role hrole₀]
          split at hmaps
          · next hs => rw [(Prod.mk.inj hmaps).2, AList.lookup_insert, if_pos hs]
          · next hs => rw [(Prod.mk.inj hmaps).2, if_neg hs]
        · rw [hnext]
          split at hmaps
          · next hs => rw [(Prod.mk.inj hmaps).1, AList.lookup_insert, if_pos hs]
          · next hs => rw [(Prod.mk.inj hmaps).1, AList.lookup_insert, if_neg hs]
      · refine PeerStep.kept hled (hterm_eq.trans hterm) (hinherited_eq.trans hinh)
          (by rw [hlog_eq, hlog]) ?_ ?_
        · rw [hmatch, matchOf_of_role hrole₀]
          split at hmaps
          · rw [(Prod.mk.inj hmaps).2, AList.lookup_insert_ne hq]
          · rw [(Prod.mk.inj hmaps).2]
        · rw [hnext, nextOf_of_role hrole₀]
          split at hmaps
          · rw [(Prod.mk.inj hmaps).1, AList.lookup_insert_ne hq]
          · rw [(Prod.mk.inj hmaps).1, AList.lookup_insert_ne hq]
  · rw [hnew] at hlead
    exact absurd hlead (by simp [RaftNode.new, Role.isLeader])

/-! ### What a step does to what is in flight -/

/-- The requests a leader has sent in a step are built from its maps after the step. -/
theorem Rel.sent_probe (h : Rel ids a s) {req : AppendRequest C}
    (hsend : s.Sends ids machine ⟨l, p, .appendRequest req⟩ node t)
    (hlead : (t.node l).role.isLeader = true) (hy : (t.node l).nextOf p = some y) :
    req.prevLogIndex + 1 = y ∧ y + req.entries.length = (t.node l).log.length := by
  obtain ⟨nextIndex, matchIndex, next, prev, hrole, hnext, hpos, hle, -, rfl⟩ :=
    h.sent_request hsend rfl
  obtain ⟨source, input, u, -, -, ⟨rfl, -⟩ | ⟨done, rfl, -⟩⟩ := hsend
  · have hsettled : (u.settle l node).node l = { node with effects := [] } :=
      Cluster.settle_node_self u l node
    rw [hsettled, nextOf_of_role (n := { node with effects := [] }) hrole p, hnext] at hy
    obtain rfl := Option.some.inj hy
    refine ⟨Nat.sub_add_cancel hpos, ?_⟩
    rw [hsettled, List.length_drop]
    exact Nat.add_sub_cancel' hle
  · -- a node that crashes does not lead
    have hnew : (((u.perform l (node.effects.take done)).restart ids machine l).node l) =
        RaftNode.new l ids machine _ := Function.update_self _ _ _
    rw [hnew] at hlead
    exact absurd hlead (by simp [RaftNode.new, Role.isLeader])

/-- An answer that was sent in a step answers a request that was in flight. -/
theorem Rel.sent_answer (h : Rel ids a s) {msg : AppendResponse}
    (hsend : s.Sends ids machine ⟨p, l, .appendResponse msg⟩ node t) :
    ∃ req, ⟨l, p, .appendRequest req⟩ ∈ s.network ∧ AnswerTo req msg := by
  obtain ⟨source, input, u, ho, hn, hcase⟩ := hsend
  have hmem : .send l (.appendResponse msg) ∈ node.effects := by
    rcases hcase with ⟨-, hmem⟩ | ⟨done, -, hmem⟩
    · exact hmem
    · exact List.mem_of_mem_take hmem
  obtain ⟨hi, -, -, -, hsame⟩ := h.offered ho
  obtain ⟨es, hes, hrep⟩ := (handle_outcome hn).effects
  rw [hsame, (h.nodes _ hi).2, List.nil_append] at hes
  obtain ⟨req, hin, hanswer⟩ : ∃ req, input = .message l (.appendRequest req) ∧
      AnswerTo req msg := hrep (.send l (.appendResponse msg)) (hes ▸ hmem)
  refine ⟨req, ?_, hanswer⟩
  rcases Cluster.offer_cases ho with ⟨-, hin', -⟩ | ⟨-, hin', -⟩ | ⟨command, -, hin', -⟩ |
    ⟨k, ⟨q, q', m⟩, -, hk, hto, hin', -⟩
  · exact absurd (hin.symm.trans hin') (by simp)
  · exact absurd (hin.symm.trans hin') (by simp)
  · exact absurd (hin.symm.trans hin') (by simp)
  · obtain ⟨hfrom, hmessage⟩ := Input.message.inj (hin.symm.trans hin')
    dsimp only at hto hfrom hmessage
    rw [hto, hfrom, hmessage]
    exact List.mem_of_getElem? hk

/-- What is in flight stays below what the leader knows, as it learns more: its requests are
built from what it knows after the step, and an answer refuses below its request. -/
theorem InFlight.step (h : InFlight s.network l p T b x) (ha : Rel ids a s)
    (hact : s.exec ids machine action = some t) (hlead : (t.node l).role.isLeader = true)
    (hx : x ≤ x') (hy : (t.node l).nextOf p = some y) (hbound : y ≤ max b x' + 1)
    (hlen : b < (t.node l).log.length) : InFlight t.network l p T b x' := by
  refine ⟨fun req hreq hterm => ?_, fun msg hmsg hterm => ?_⟩
  · rcases Cluster.Step.network ⟨action, hact⟩ hreq with hold | ⟨node, hsend⟩
    · obtain ⟨hprobe, hcovers⟩ := h.requests req hold hterm
      exact ⟨by omega, hcovers⟩
    · obtain ⟨hprobe, hcovers⟩ := ha.sent_probe hsend hlead hy
      exact ⟨by omega, by omega⟩
  · rcases Cluster.Step.network ⟨action, hact⟩ hmsg with hold | ⟨node, hsend⟩
    · have hanswer := h.answers msg hold hterm
      split
      · next hs => rwa [if_pos hs] at hanswer
      · next hs =>
        rw [if_neg hs] at hanswer
        omega
    · obtain ⟨req, hreq, hanswer⟩ := ha.sent_answer hsend
      unfold AnswerTo at hanswer
      split at hanswer
      · next hs =>
        rw [if_pos hs]
        obtain ⟨-, hcovers⟩ := h.requests req hreq (hanswer.1.symm.trans hterm)
        omega
      · next hs =>
        rw [if_neg hs]
        rcases hanswer with h0 | ⟨hreqterm, hprobe⟩
        · omega
        · obtain ⟨hle, -⟩ := h.requests req hreq (hreqterm.symm.trans hterm)
          omega

/-! ### Steps in order -/

/-- **A step in order** keeps what the leaders know, and advances them. -/
theorem Cluster.Tracked.step (h : s.Tracked ids) (ha : Rel ids a s)
    (hact : s.exec ids machine action = some t) (horder : s.InOrder action) :
    t.Tracked ids ∧ s.Advances ids t := by
  have hpeer : ∀ l ∈ ids, ∀ p ∈ ids, p ≠ l → (t.node l).role.isLeader = true →
      ∃ x' y', (t.node l).matchOf p = some x' ∧ (t.node l).nextOf p = some y' ∧
        Knows t.network (t.node l) l p x' y' ∧
        ∀ x, (s.node l).matchOf p = some x → x ≤ x' := by
    intro l hl p hp hpl hlead
    cases ha.peerStep hact hl hp hpl hlead with
    | crowned hfresh hmatch hnext hpos hlen hflight =>
      refine ⟨0, _, hmatch, hnext, ⟨hpos, by omega, by omega, Or.inl rfl, by omega, ?_⟩, ?_⟩
      · exact hflight.step ha hact hlead le_rfl hnext (by omega) (by omega)
      · exact fun x hx => absurd (hfresh.symm.trans hx) (by simp)
    | kept hled hterm hinh hlen hmatch hnext =>
      obtain ⟨x, y, hx, hy, hknows⟩ := h l hl p hp hpl hled
      have hflight := hknows.flight
      have hlt := hknows.lt
      rw [← hterm, ← hinh] at hflight
      refine ⟨x, y, hmatch.trans hx, hnext.trans hy, ⟨hinh ▸ hknows.pos, by omega, hknows.next,
        hinh ▸ hknows.covers, hinh ▸ hknows.bound, ?_⟩, ?_⟩
      · exact hflight.step ha hact hlead le_rfl (hnext.trans hy) (hinh ▸ hknows.bound) (by omega)
      · exact fun x₀ hx₀ => (Option.some.inj (hx₀.symm.trans hx)).le
    | counted k msg haction hk hmsg hled hterm hlog hmatch hnext =>
      obtain ⟨x, y, hx, hy, hknows⟩ := h l hl p hp hpl hled
      have hinh : (t.node l).inherited = (s.node l).inherited := by
        rw [RaftNode.inherited, RaftNode.inherited, hterm, hlog]
      have hlen : (t.node l).inherited < (t.node l).log.length := by
        rw [hinh, hlog]
        exact hknows.lt
      have hpos : 1 ≤ (t.node l).inherited := hinh ▸ hknows.pos
      have hflight := hknows.flight
      have hinorder := horder k p l msg haction hk hmsg x hx
      have hanswer := hflight.answers msg (List.mem_of_getElem? hk) hmsg
      rw [← hinh] at hanswer
      rw [← hterm, ← hinh] at hflight
      by_cases hs : msg.success = true
      · -- a success that reports at least as much
        rw [if_pos hs] at hmatch hnext hinorder hanswer
        refine ⟨_, _, hmatch, hnext, ⟨hpos, hlen, Nat.lt_succ_self _, Or.inr hanswer, by omega, ?_⟩,
          ?_⟩
        · exact hflight.step ha hact hlead hinorder hnext (by omega) hlen
        · intro x₀ hx₀
          obtain rfl := Option.some.inj (hx₀.symm.trans hx)
          exact hinorder
      · -- a refusal before any success
        rw [if_neg hs] at hmatch hnext hinorder hanswer
        subst hinorder
        refine ⟨0, _, hmatch.trans hx, hnext, ⟨hpos, hlen, by omega, Or.inl rfl, by omega, ?_⟩, ?_⟩
        · exact hflight.step ha hact hlead le_rfl hnext (by omega) hlen
        · exact fun x₀ hx₀ => (Option.some.inj (hx₀.symm.trans hx)).le
  refine ⟨fun l hl p hp hpl hled => ?_, fun l hl p hp hpl => ⟨fun x y hx hy => ?_,
    fun _ x x' hx hx' => ?_⟩⟩
  · obtain ⟨x, y, hx, hy, hknows, -⟩ := hpeer l hl p hp hpl hled
    exact ⟨x, y, hx, hy, hknows⟩
  · obtain ⟨x₁, y₁, hx₁, hy₁, hknows, -⟩ := hpeer l hl p hp hpl (isLeader_of_matchOf hx)
    obtain rfl := Option.some.inj (hx.symm.trans hx₁)
    obtain rfl := Option.some.inj (hy.symm.trans hy₁)
    exact hknows.next
  · obtain ⟨x₁, y₁, hx₁, -, -, hmono⟩ := hpeer l hl p hp hpl (isLeader_of_matchOf hx')
    obtain rfl := Option.some.inj (hx'.symm.trans hx₁)
    exact hmono x hx

/-- **A step that advances its leaders is in order**: a refusal after a success would set
`next_index` to an index the peer is known to have. -/
theorem Cluster.Tracked.inOrder (h : s.Tracked ids) (ha : Rel ids a s)
    (hact : s.exec ids machine action = some t) (hadvances : s.Advances ids t) :
    s.InOrder action := by
  rintro k p l msg rfl hk hmsg x hx
  have henv := List.mem_of_getElem? hk
  obtain ⟨hp, hl, hpl, -⟩ := (ha.mid l).net _ henv
  obtain ⟨nextIndex, matchIndex, hrole⟩ := exists_maps (isLeader_of_matchOf hx)
  -- the delivery counts the answer
  obtain ⟨u, node, hnode, rfl⟩ : ∃ (u : Cluster C O S) (node : RaftNode C O S),
      (s.node l).appendResponse p msg = .ok node ∧ t = u.settle l node := by
    simp only [Cluster.exec, Cluster.offer, hk] at hact
    split at hact
    · next node hnode => exact ⟨_, node, hnode, (Option.some.inj hact).symm⟩
    · exact absurd hact (by simp)
  obtain ⟨hrole', hterm, -⟩ := appendResponse_counts hrole hmsg hnode
  have hsettled := Cluster.settle_node_self u l node
  have hx' : ((u.settle l node).node l).matchOf p =
      (countAnswer p msg nextIndex matchIndex).2.lookup p := by
    rw [hsettled]
    exact matchOf_of_role (n := { node with effects := [] }) hrole' p
  have hy' : ((u.settle l node).node l).nextOf p =
      (countAnswer p msg nextIndex matchIndex).1.lookup p := by
    rw [hsettled]
    exact nextOf_of_role (n := { node with effects := [] }) hrole' p
  obtain ⟨hless, hmono⟩ := hadvances l hl p hp hpl
  rw [hx', hy'] at hless
  rw [hx'] at hmono
  obtain ⟨x₀, y, hx₀, -, hknows⟩ := h l hl p hp hpl (isLeader_of_matchOf hx)
  obtain rfl := Option.some.inj (hx₀.symm.trans hx)
  have hanswer := hknows.flight.answers msg henv hmsg
  unfold countAnswer at hless hmono
  by_cases hs : msg.success = true
  · rw [if_pos hs] at hmono ⊢
    refine hmono ?_ x₀ _ hx (AList.lookup_insert _)
    rw [hsettled]
    exact hterm
  · rw [if_neg hs] at hless hanswer ⊢
    have hlt := hless x₀ _ (by rw [← matchOf_of_role hrole]; exact hx) (AList.lookup_insert _)
    have hpos := hknows.pos
    have hcovers := hknows.covers
    omega

/-! ### Runs -/

theorem Cluster.Tracked.allSteps_iff (hnd : ids.Nodup) : ∀ (actions : List (Action C))
    {s : Cluster C O S}, Cluster.Reachable ids machine s → s.Tracked ids →
    (s.AllSteps ids machine (fun s _ t => s.Advances ids t) actions ↔
      s.AllSteps ids machine (fun s action _ => s.InOrder action) actions) := by
  intro actions
  -- on the actions: as long as all steps were in order, each next one is or is not, with no
  -- difference between the two properties
  induction actions with
  | nil => exact fun _ _ => Iff.rfl
  | cons action actions ih =>
    intro s hs h
    obtain ⟨a, ha⟩ := hs.rel hnd
    refine forall₂_congr fun t ht => ?_
    have hact : s.exec ids machine action = some t := ht
    have hreach : Cluster.Reachable ids machine t := hs.tail ⟨action, hact⟩
    constructor
    · rintro ⟨hadvances, hrest⟩
      have horder := h.inOrder ha hact hadvances
      exact ⟨horder, (ih hreach (h.step ha hact horder).1).mp hrest⟩
    · rintro ⟨horder, hrest⟩
      obtain ⟨htracked, hadvances⟩ := h.step ha hact horder
      exact ⟨hadvances, (ih hreach htracked).mpr hrest⟩

/-- **Progress never goes back, exactly where answers come in order.** In a run of a cluster
every step keeps `match_index` from decreasing and below `next_index`, for every leader and
every peer, if and only if no leader gets a success that reports less than `match_index`, and
none gets a refusal once `match_index` is above 0. -/
theorem progress_iff_in_order (hnd : ids.Nodup) (machine : S) (actions : List (Action C)) :
    (Cluster.init ids machine : Cluster C O S).AllSteps ids machine
        (fun s _ t => s.Advances ids t) actions ↔
      (Cluster.init ids machine : Cluster C O S).AllSteps ids machine
        (fun s action _ => s.InOrder action) actions := by
  refine Cluster.Tracked.allSteps_iff hnd actions Relation.ReflTransGen.refl ?_
  -- nobody leads at the start
  exact fun l _ p _ _ hlead => absurd hlead (by simp [Cluster.init, RaftNode.new, Role.isLeader])

theorem progress_iff_in_order_twoTerms :
    (Cluster.init [1, 2, 3] ⟨0⟩ : Cluster ℕ ℕ Counter).AllSteps [1, 2, 3] ⟨0⟩
        (fun s _ t => s.Advances [1, 2, 3] t) twoTerms ↔
      (Cluster.init [1, 2, 3] ⟨0⟩ : Cluster ℕ ℕ Counter).AllSteps [1, 2, 3] ⟨0⟩
        (fun s action _ => s.InOrder action) twoTerms :=
  progress_iff_in_order (by decide) _ _

/-! ### Two runs that go back

Node 1 leads term 1 and has two requests to node 2 on the way. In `staleRefusal` both probe
too far; the second refusal reaches the leader after the success that the first one led to. In
`staleSuccess` an `Apply` lies between the two requests, and the answers change places. -/

def staleRefusal : List (Action ℕ) :=
  [.run (.electionTimeout 1), .run (.deliver 0), .run (.deliver 1), .run (.heartbeat 1),
    .run (.deliver 1), .run (.deliver 2), .run (.deliver 3), .run (.heartbeat 1),
    .run (.deliver 4), .run (.deliver 5)]

def staleSuccess : List (Action ℕ) :=
  [.run (.electionTimeout 1), .run (.deliver 0), .run (.deliver 1), .run (.deliver 1),
    .run (.deliver 2), .run (.heartbeat 1), .run (.command 1 (.apply 7 0)), .run (.deliver 2),
    .run (.deliver 3), .run (.deliver 5)]

theorem Cluster.AllSteps.last {P : Cluster C O S → Action C → Cluster C O S → Prop} :
    ∀ {actions : List (Action C)} {s u t : Cluster C O S},
      s.AllSteps ids machine P (actions ++ [action]) → s.run ids machine actions = some u →
      u.exec ids machine action = some t → P u action t := by
  intro actions
  induction actions with
  | nil =>
    intro s u t h hrun hact
    obtain rfl := Option.some.inj hrun
    exact (h t hact).1
  | cons first actions ih =>
    intro s u t h hrun hact
    unfold Cluster.run at hrun
    cases hfirst : s.exec ids machine first with
    | none =>
      rw [hfirst] at hrun
      exact absurd hrun (by simp)
    | some s' =>
      rw [hfirst] at hrun
      exact ih (h s' hfirst).2 hrun hact

/-- What node 1 has for node 2 before and after one more action. -/
def glimpse (actions : List (Action ℕ)) (action : Action ℕ) :
    Option ((ℕ × Option ℕ) × ℕ × Option ℕ × Option ℕ) := do
  let u ← (Cluster.init [1, 2, 3] ⟨0⟩ : Cluster ℕ ℕ Counter).run [1, 2, 3] ⟨0⟩ actions
  let t ← u.exec [1, 2, 3] ⟨0⟩ action
  some (((u.node 1).currentTerm, (u.node 1).matchOf 2),
    (t.node 1).currentTerm, (t.node 1).matchOf 2, (t.node 1).nextOf 2)

theorem advances_of_glimpse {actions : List (Action ℕ)} {action : Action ℕ} {T x x' y : ℕ}
    (h : (Cluster.init [1, 2, 3] ⟨0⟩ : Cluster ℕ ℕ Counter).AllSteps [1, 2, 3] ⟨0⟩
      (fun s _ t => s.Advances [1, 2, 3] t) (actions ++ [action]))
    (hglimpse : glimpse actions action = some ((T, some x), T, some x', some y)) :
    x' < y ∧ x ≤ x' := by
  unfold glimpse at hglimpse
  rw [Option.bind_eq_bind, Option.bind_eq_some_iff] at hglimpse
  obtain ⟨u, hu, hglimpse⟩ := hglimpse
  rw [Option.bind_eq_some_iff] at hglimpse
  obtain ⟨t, ht, hglimpse⟩ := hglimpse
  simp only [Option.some.injEq, Prod.mk.injEq] at hglimpse
  obtain ⟨⟨hterm, hx⟩, hterm', hx', hy⟩ := hglimpse
  obtain ⟨hless, hmono⟩ := h.last hu ht 1 (by decide) 2 (by decide) (by decide)
  exact ⟨hless x' y hx' hy, hmono (hterm'.trans hterm.symm) x x' hx hx'⟩

/-- **A stale refusal sets `next_index` back to `match_index`, and a stale success lowers
`match_index`.** -/
theorem progress_goes_back :
    ¬ (Cluster.init [1, 2, 3] ⟨0⟩ : Cluster ℕ ℕ Counter).AllSteps [1, 2, 3] ⟨0⟩
        (fun s _ t => s.Advances [1, 2, 3] t) (staleRefusal ++ [.run (.deliver 3)]) ∧
      ¬ (Cluster.init [1, 2, 3] ⟨0⟩ : Cluster ℕ ℕ Counter).AllSteps [1, 2, 3] ⟨0⟩
        (fun s _ t => s.Advances [1, 2, 3] t) (staleSuccess ++ [.run (.deliver 4)]) := by
  constructor
  · intro h
    have hback : 1 < 1 ∧ 1 ≤ 1 := advances_of_glimpse (T := 1) h (by decide +kernel)
    omega
  · intro h
    have hback : 1 < 2 ∧ 2 ≤ 1 := advances_of_glimpse (T := 1) h (by decide +kernel)
    omega

end Raft
end KvRaft
