import KvRaft.Consensus.Invariant
import KvRaft.Raft.Cluster
import Mathlib.Tactic

/-!
# Reading a cluster as a term log

The relation between a cluster and a `TermLog.State`. The durable part of the term log
is what the storages hold (`DiskOk`); the history part (votes, reigns, acknowledgements)
justifies everything else: each message in flight (`MsgOk`), each node's volatile state
(`NodeOk`) and each mark of the trace (`EventOk`).

`Mid` is the relation while node `i` runs a handler: it says nothing about the volatile
state of `i`, so it is also what a crash of `i` leaves behind. The message that `i` is
handling is kept in `held`, because the count of votes still owes it.

**Votes.** `votes_received` counts answers, not voters. What ties it to voters is the
number of `tokens` of a candidate `c`, a voter `p` and a term: requests of `c` to `p`
and grants of `p` to `c` that are in flight. There is never more than one, and none once
the grant of `p` has been counted.

**A cluster of one.** A single node becomes leader before it saves its new term. If it
crashes in between, the leadership was real but nothing durable remembers it
(`Pending`); the node will win the same term again with the same log.
-/

namespace KvRaft
namespace Raft

open TermLog

variable {C O S : Type}

instance : Termed (LogEntry C) := ⟨LogEntry.term⟩

@[simp] theorem term_logEntry (e : LogEntry C) : Termed.term e = e.term := rfl

/-- The term logs of a cluster. -/
abbrev Spec (C : Type) := TermLog.State NodeId (LogEntry C)

/-- The majorities that `has_majority` counts. -/
def quorums (ids : List NodeId) : Quorums NodeId := Quorums.majority ids.toFinset

/-- What node `i` restores when it starts. -/
def Cluster.saved (s : Cluster C O S) (i : NodeId) : PersistentState C :=
  (s.storage i).getD ⟨0, none, [⟨0, .noOp⟩]⟩

/-! ### Votes in flight -/

/-- A request for the vote of `p` for `c` in term `t`, or its grant. -/
def isToken (c p : NodeId) (t : ℕ) (env : Envelope C) : Bool :=
  match env.message with
  | .voteRequest msg => decide (env.fromId = c ∧ env.toId = p ∧ msg.term = t)
  | .voteResponse msg =>
    decide (msg.voteGranted = true ∧ env.fromId = p ∧ env.toId = c ∧ msg.term = t)
  | _ => false

/-- The number of tokens in a list of messages. -/
def tokens (c p : NodeId) (t : ℕ) (pool : List (Envelope C)) : ℕ :=
  pool.countP (isToken c p t)

theorem tokens_append (c p : NodeId) (t : ℕ) (l m : List (Envelope C)) :
    tokens c p t (l ++ m) = tokens c p t l + tokens c p t m :=
  List.countP_append

/-- A message that is no request and no grant of a vote. -/
def Plain (message : RaftMessage C) : Prop :=
  match message with
  | .voteRequest _ => False
  | .voteResponse msg => msg.voteGranted = false
  | _ => True

theorem isToken_of_plain {message : RaftMessage C} (h : Plain message) (c p : NodeId) (t : ℕ)
    (i j : NodeId) : isToken c p t ⟨i, j, message⟩ = false := by
  cases message with
  | voteRequest msg => exact absurd h (by simp [Plain])
  | voteResponse msg =>
    have hg : msg.voteGranted = false := h
    simp [isToken, hg]
  | _ => rfl

/-! ### The relation -/

/-- The storage of `i` holds the durable state of `i` in the term log. -/
structure DiskOk (a : Spec C) (st : PersistentState C) (i : NodeId) : Prop where
  term : a.term i = st.currentTerm
  log : a.log i = st.log
  vote : (a.vote i (a.term i)).map Prod.fst = st.votedFor

/-- What the term log knows about a message in flight. -/
def MsgOk (ids : List NodeId) (a : Spec C) (env : Envelope C) : Prop :=
  env.fromId ∈ ids ∧ env.toId ∈ ids ∧ env.fromId ≠ env.toId ∧
    match env.message with
    | .voteRequest msg =>
      msg.candidateId = env.fromId ∧
        ∃ l, a.vote env.fromId msg.term = some (env.fromId, l) ∧
          msg.lastLogIndex + 1 = l.length ∧ msg.lastLogTerm = lastTerm l
    | .voteResponse msg =>
      msg.voteGranted = true → ∃ l, a.vote env.fromId msg.term = some (env.toId, l)
    | .appendRequest msg =>
      msg.leaderId = env.fromId ∧
        ∃ r, a.reign msg.term = some r ∧ r.winner = some env.fromId ∧
          (∃ e, r.log[msg.prevLogIndex]? = some e ∧ e.term = msg.prevLogTerm) ∧
          msg.entries <+: r.log.drop (msg.prevLogIndex + 1) ∧
          msg.leaderCommit ≤ msg.prevLogIndex + msg.entries.length ∧
          CommittedBy (quorums ids) a msg.term (r.log.take (msg.leaderCommit + 1))
    | .appendResponse msg =>
      (msg.success = true → ∃ r, a.reign msg.term = some r ∧ r.winner = some env.toId ∧
          msg.matchIndex + 1 ≤ a.acked env.fromId msg.term) ∧
        (msg.success = false → msg.matchIndex = 0 ∨
          ∃ r, a.reign msg.term = some r ∧ r.winner = some env.toId ∧
            msg.matchIndex < r.log.length)

/-- `i` won term `t`, and `l` is a log it had as the leader of `t`. -/
def Crowned (a : Spec C) (i : NodeId) (t : ℕ) (l : List (LogEntry C)) : Prop :=
  ∃ r, a.reign t = some r ∧ r.winner = some i ∧ r.base <+: l ∧ l <+: r.log

/-- `i` is the only node and became leader of `t` without saving it. -/
def Pending (ids : List NodeId) (a : Spec C) (i : NodeId) (t : ℕ)
    (l : List (LogEntry C)) : Prop :=
  (∀ j ∈ ids, j = i) ∧ t = a.term i + 1 ∧ l = a.log i ++ [⟨t, .noOp⟩]

/-- What the term log knows about an effect of node `i`. -/
def EventOk (ids : List NodeId) (a : Spec C) (i : NodeId) : Effect C O S → Prop
  | .applied index entry _ =>
    ∃ t k r, Chosen (quorums ids) a t k r ∧ index < k ∧ r.log[index]? = some entry
  | .becameLeader t l => Crowned a i t l ∨ Pending ids a i t l
  | .committed t index l =>
    ∃ r, Chosen (quorums ids) a t (index + 1) r ∧ r.winner = some i ∧
      l.take (index + 1) = r.log.take (index + 1)
  | _ => True

/-- What the term log knows about the role of node `i`. -/
def RoleOk (ids : List NodeId) (a : Spec C) (pool : List (Envelope C))
    (trace : List (NodeId × Effect C O S)) (i : NodeId) (n : RaftNode C O S) : Prop :=
  match n.role with
  | .follower leader =>
    ∀ l, leader = some l → ∃ r, a.reign n.currentTerm = some r ∧ r.winner = some l
  | .candidate votes =>
    a.vote i n.currentTerm = some (i, n.log) ∧
      (∀ r, a.reign n.currentTerm = some r → r.winner ≠ some i) ∧
      ∃ voters : Finset NodeId, voters ⊆ ids.toFinset.erase i ∧ votes = voters.card + 1 ∧
        ∀ p ∈ voters, (∃ l, a.vote p n.currentTerm = some (i, l)) ∧
          tokens i p n.currentTerm pool = 0
  | .leader nextIndex matchIndex =>
    (∃ r, a.reign n.currentTerm = some r ∧ r.winner = some i ∧ r.log = n.log) ∧
      n.log.length ≤ a.acked i n.currentTerm ∧
      (∀ p ∈ n.peerIds, ∃ x, nextIndex.lookup p = some x ∧ 1 ≤ x ∧ x ≤ n.log.length) ∧
      (∀ p x, matchIndex.lookup p = some x →
        p ∈ n.peerIds ∧ (x = 0 ∨ x + 1 ≤ a.acked p n.currentTerm)) ∧
      ∀ t l, (i, Effect.becameLeader t l) ∈ trace → Crowned a i t l

/-- What the term log knows about node `i`. -/
structure NodeOk (ids : List NodeId) (a : Spec C) (pool : List (Envelope C))
    (trace : List (NodeId × Effect C O S)) (i : NodeId) (n : RaftNode C O S) : Prop where
  id : n.id = i
  peers : n.peerIds = ids.filter (fun peerId => decide (peerId ≠ i))
  disk : DiskOk a ⟨n.currentTerm, n.votedFor, n.log⟩ i
  applied_le : n.lastApplied ≤ n.commitIndex
  commit_lt : n.commitIndex < n.log.length
  committed : CommittedBy (quorums ids) a n.currentTerm (n.log.take (n.commitIndex + 1))
  role : RoleOk ids a pool trace i n

/-- The cluster `s` is related to the term log `a`, up to the volatile state of node `i`,
which is handling the messages `held`. -/
structure Mid (ids : List NodeId) (a : Spec C) (s : Cluster C O S)
    (held : List (Envelope C)) (i : NodeId) : Prop where
  inv : Inv (quorums ids) a
  disk : ∀ j, DiskOk a (s.saved j) j
  net : ∀ env ∈ held ++ s.network, MsgOk ids a env
  tok : ∀ c p t, tokens c p t (held ++ s.network) ≤ 1
  trace : ∀ x ∈ s.trace, EventOk ids a x.1 x.2
  nodes : ∀ j ∈ ids, j ≠ i → NodeOk ids a (held ++ s.network) s.trace j (s.node j) ∧
    (s.node j).effects = []

/-- The term log of a cluster that has just started: everybody holds the entry that
`RaftNode::new` puts at index `0`. -/
def Spec.start : Spec C := TermLog.initial [⟨0, .noOp⟩]

/-- The cluster `s` is related to the term log `a`. -/
structure Rel (ids : List NodeId) (a : Spec C) (s : Cluster C O S) : Prop where
  start : Le Spec.start a
  mid : ∀ i, Mid ids a s [] i
  nodes : ∀ j ∈ ids, NodeOk ids a s.network s.trace j (s.node j) ∧ (s.node j).effects = []

/-! ### Monotonicity -/

section Mono

variable {ids : List NodeId} {a a' : Spec C}

theorem MsgOk.mono {env : Envelope C} (h : MsgOk ids a env) (hle : Le a a') :
    MsgOk ids a' env := by
  obtain ⟨hfrom, hto, hne, h⟩ := h
  refine ⟨hfrom, hto, hne, ?_⟩
  -- a message that was true of the term log stays true as reigns and votes are added
  cases hmsg : env.message with
  | voteRequest msg =>
    rw [hmsg] at h
    obtain ⟨hc, l, hl, hlen, hlast⟩ := h
    exact ⟨hc, l, hle.vote _ _ _ hl, hlen, hlast⟩
  | voteResponse msg =>
    rw [hmsg] at h
    intro hg
    obtain ⟨l, hl⟩ := h hg
    exact ⟨l, hle.vote _ _ _ hl⟩
  | appendRequest msg =>
    rw [hmsg] at h
    obtain ⟨hid, r, hr, hw, ⟨e, he, heterm⟩, hentries, hcommit, hcommitted⟩ := h
    obtain ⟨r', hr', hw', -, hp⟩ := hle.reign _ r hr
    obtain ⟨q, hq⟩ := hp
    have hprev := (List.getElem?_eq_some_iff.mp he).1
    refine ⟨hid, r', hr', hw'.trans hw, ⟨e, ?_, heterm⟩, ?_, hcommit, ?_⟩
    · rw [← hq, List.getElem?_append_left hprev, he]
    · rw [← hq, List.drop_append_of_le_length hprev]
      exact hentries.trans (List.prefix_append _ _)
    · have hlen : msg.leaderCommit + 1 ≤ r.log.length := by
        have := hentries.length_le
        rw [List.length_drop] at this
        omega
      rw [← hq, List.take_append_of_le_length hlen]
      exact hcommitted.mono hle le_rfl (List.prefix_refl _)
  | appendResponse msg =>
    rw [hmsg] at h
    obtain ⟨hsucc, hfail⟩ := h
    refine ⟨fun hs => ?_, fun hs => ?_⟩
    · obtain ⟨r, hr, hw, hack⟩ := hsucc hs
      obtain ⟨r', hr', hw', -, -⟩ := hle.reign _ r hr
      exact ⟨r', hr', hw'.trans hw, hack.trans (hle.acked _ _)⟩
    · rcases hfail hs with h0 | ⟨r, hr, hw, hlt⟩
      · exact Or.inl h0
      · obtain ⟨r', hr', hw', -, hp⟩ := hle.reign _ r hr
        exact Or.inr ⟨r', hr', hw'.trans hw, hlt.trans_le hp.length_le⟩

theorem Crowned.mono {i : NodeId} {t : ℕ} {l : List (LogEntry C)} (h : Crowned a i t l)
    (hle : Le a a') : Crowned a' i t l := by
  obtain ⟨r, hr, hw, hb, hl⟩ := h
  obtain ⟨r', hr', hw', hb', hp⟩ := hle.reign _ r hr
  exact ⟨r', hr', hw'.trans hw, hb' ▸ hb, hl.trans hp⟩

/-- Every mark but that of a leader only needs the history to grow. -/
theorem EventOk.mono {i : NodeId} {e : Effect C O S} (h : EventOk ids a i e) (hle : Le a a')
    (hlead : ∀ t l, e = .becameLeader t l → Crowned a' i t l ∨ Pending ids a' i t l) :
    EventOk ids a' i e := by
  cases e with
  | applied index entry machine =>
    obtain ⟨t, k, r, hch, hk, he⟩ := h
    obtain ⟨r', hch', htake⟩ := hch.mono hle
    exact ⟨t, k, r', hch', hk, by rw [getElem?_of_take_eq htake hk, he]⟩
  | becameLeader t l => exact hlead t l rfl
  | committed t index l =>
    obtain ⟨r, hch, hw, htake⟩ := h
    obtain ⟨r', hch', htake'⟩ := hch.mono hle
    obtain ⟨q, hq, hqw, -, -⟩ := hle.reign _ r hch.1
    rw [hch'.1] at hq
    obtain rfl := Option.some.inj hq
    exact ⟨r', hch', hqw.trans hw, htake.trans htake'.symm⟩
  | _ => trivial

/-- Steps of another node keep what is known about node `j`. -/
theorem NodeOk.frame {i j : NodeId} (hj : j ≠ i) {pool pool' : List (Envelope C)}
    {trace trace' : List (NodeId × Effect C O S)} {n : RaftNode C O S}
    (h : NodeOk ids a pool trace j n) (hf : Frame i a a')
    (hpool : ∀ p t, tokens j p t pool' ≤ tokens j p t pool)
    (htrace : ∀ t l, (j, Effect.becameLeader t l) ∈ trace' →
      (j, Effect.becameLeader t l) ∈ trace) :
    NodeOk ids a' pool' trace' j n := by
  have hterm : a'.term j = n.currentTerm := (hf.term j hj).trans h.disk.term
  refine ⟨h.id, h.peers, ⟨hterm, (hf.log j hj).trans h.disk.log, ?_⟩, h.applied_le,
    h.commit_lt, h.committed.mono hf.le le_rfl (List.prefix_refl _), ?_⟩
  · rw [hf.term j hj, hf.vote j hj]
    exact h.disk.vote
  -- what the role says is about reigns, which only grow, and about the votes of this node
  have hrole := h.role
  unfold RoleOk at hrole ⊢
  cases hr : n.role with
  | follower leader =>
    rw [hr] at hrole
    intro l hl
    obtain ⟨r, hr, hw⟩ := hrole l hl
    obtain ⟨r', hr', hw', -, -⟩ := hf.le.reign _ r hr
    exact ⟨r', hr', hw'.trans hw⟩
  | candidate votes =>
    rw [hr] at hrole
    obtain ⟨hvote, hnot, voters, hsub, hcard, hvoters⟩ := hrole
    refine ⟨hf.le.vote _ _ _ hvote, fun r hr hw => ?_, voters, hsub, hcard, fun p hp => ?_⟩
    · exact hnot r ((hf.reign j hj _ r hw).mp hr) hw
    · obtain ⟨⟨l, hl⟩, htok⟩ := hvoters p hp
      exact ⟨⟨l, hf.le.vote _ _ _ hl⟩, Nat.le_zero.mp (htok ▸ hpool p _)⟩
  | leader nextIndex matchIndex =>
    rw [hr] at hrole
    obtain ⟨⟨r, hr, hw, hlog⟩, hack, hnext, hmatch, hlead⟩ := hrole
    refine ⟨⟨r, (hf.reign j hj _ r hw).mpr hr, hw, hlog⟩, hack.trans (hf.le.acked _ _), hnext,
      fun p x hx => ?_, fun t l hl => (hlead t l (htrace t l hl)).mono hf.le⟩
    obtain ⟨hp, hx⟩ := hmatch p x hx
    exact ⟨hp, hx.imp (fun h0 => h0) fun hx => hx.trans (hf.le.acked _ _)⟩

end Mono

/-! ### Effects -/

namespace Cluster

variable (s : Cluster C O S) (i : NodeId)

@[simp] theorem performOne_node (e : Effect C O S) : (s.performOne i e).node = s.node := by
  cases e <;> rfl

@[simp] theorem performOne_trace (e : Effect C O S) :
    (s.performOne i e).trace = s.trace ++ [(i, e)] := by
  cases e <;> rfl

@[simp] theorem performOne_send_network (j : NodeId) (m : RaftMessage C) :
    (s.performOne i (.send j m)).network = s.network ++ [⟨i, j, m⟩] := rfl

theorem perform_append (es es' : List (Effect C O S)) :
    s.perform i (es ++ es') = (s.perform i es).perform i es' :=
  List.foldl_append

@[simp] theorem perform_nil : s.perform i ([] : List (Effect C O S)) = s := rfl

@[simp] theorem perform_singleton (e : Effect C O S) : s.perform i [e] = s.performOne i e := rfl

/-- The messages an effect puts into the network. -/
def sent (i : NodeId) : Effect C O S → List (Envelope C)
  | .send j m => [⟨i, j, m⟩]
  | _ => []

theorem performOne_network (e : Effect C O S) :
    (s.performOne i e).network = s.network ++ sent i e := by
  cases e <;> simp [performOne, sent]

theorem performOne_saved_of_ne (e : Effect C O S) {j : NodeId} (hj : j ≠ i) :
    (s.performOne i e).saved j = s.saved j := by
  cases e <;> simp [performOne, saved, Function.update_of_ne hj]

theorem performOne_saved_of_not_save (e : Effect C O S) (he : ∀ st, e ≠ .save st)
    (j : NodeId) : (s.performOne i e).saved j = s.saved j := by
  cases e with
  | save st => exact absurd rfl (he st)
  | _ => rfl

@[simp] theorem performOne_saved (st : PersistentState C) :
    (s.performOne i (.save st)).saved i = st := by
  simp [performOne, saved]

end Cluster

variable {ids : List NodeId} {a a' : Spec C} {s : Cluster C O S} {i : NodeId}
  {held held' : List (Envelope C)}

/-- One effect of node `i`, together with the steps of the term log that explain it. -/
theorem Mid.effect (h : Mid ids a s held i) (hm : Moves (quorums ids) i a a')
    (e : Effect C O S) (hdisk : DiskOk a' ((s.performOne i e).saved i) i)
    (hmsg : ∀ env ∈ held' ++ (s.performOne i e).network,
      env ∈ held ++ s.network ∨ MsgOk ids a' env)
    (htok : ∀ c p t, tokens c p t (held' ++ (s.performOne i e).network) ≤ 1)
    (htok' : ∀ c p t, c ≠ i → tokens c p t (held' ++ (s.performOne i e).network) ≤
      tokens c p t (held ++ s.network))
    (hev : EventOk ids a' i e)
    (hlead : ∀ t l, (i, Effect.becameLeader t l) ∈ s.trace →
      Crowned a' i t l ∨ Pending ids a' i t l) :
    Mid ids a' (s.performOne i e) held' i := by
  -- the moves touch node `i` alone, so every other node is framed
  have hf := hm.frame
  refine ⟨hm.inv h.inv, ?_, ?_, htok, ?_, ?_⟩
  · intro j
    by_cases hj : j = i
    · subst hj; exact hdisk
    · rw [s.performOne_saved_of_ne i e hj]
      refine ⟨(hf.term j hj).trans (h.disk j).term, (hf.log j hj).trans (h.disk j).log, ?_⟩
      rw [hf.term j hj, hf.vote j hj]
      exact (h.disk j).vote
  · intro env henv
    rcases hmsg env henv with hold | hnew
    · exact (h.net env hold).mono hf.le
    · exact hnew
  · intro x hx
    rw [Cluster.performOne_trace] at hx
    rcases List.mem_append.mp hx with hold | hx
    · obtain ⟨j, ev⟩ := x
      refine (h.trace _ hold).mono hf.le ?_
      rintro t l rfl
      by_cases hj : j = i
      · subst hj; exact hlead t l hold
      · rcases h.trace _ hold with hcr | ⟨hone, ht, hl⟩
        · exact Or.inl (hcr.mono hf.le)
        · exact Or.inr ⟨hone, by rw [hf.term j hj]; exact ht, by rw [hf.log j hj]; exact hl⟩
    · rw [List.mem_singleton.mp hx]
      exact hev
  · intro j hmem hj
    rw [Cluster.performOne_node]
    refine ⟨(h.nodes j hmem hj).1.frame hj hf (fun p t => htok' j p t hj) ?_,
      (h.nodes j hmem hj).2⟩
    intro t l hl
    rw [Cluster.performOne_trace] at hl
    rcases List.mem_append.mp hl with hl | hl
    · exact hl
    · exact absurd (Prod.mk.inj (List.mem_singleton.mp hl)).1 hj

/-- The relation looks at the storages, the nodes, the trace and at no more than the
messages that are there. -/
theorem Mid.of_pool {s' : Cluster C O S} (h : Mid ids a s held i)
    (hstorage : s'.storage = s.storage) (hnode : s'.node = s.node) (htrace : s'.trace = s.trace)
    (hnet : ∀ env ∈ held' ++ s'.network, env ∈ held ++ s.network)
    (htok : ∀ c p t, tokens c p t (held' ++ s'.network) ≤ tokens c p t (held ++ s.network)) :
    Mid ids a s' held' i := by
  refine ⟨h.inv, fun j => ?_, fun env henv => h.net env (hnet env henv),
    fun c p t => (htok c p t).trans (h.tok c p t), htrace ▸ h.trace, fun j hj hne => ?_⟩
  · unfold Cluster.saved
    rw [hstorage]
    exact h.disk j
  · rw [hnode]
    refine ⟨(h.nodes j hj hne).1.frame hne (Frame.refl i a) (fun p t => htok j p t) ?_,
      (h.nodes j hj hne).2⟩
    exact fun _ _ hl => htrace ▸ hl

/-- Dropping messages loses nothing. -/
theorem Mid.drop (h : Mid ids a s (held ++ held') i) : Mid ids a s held' i := by
  refine h.of_pool rfl rfl rfl (fun env henv => ?_) fun c p t => ?_
  · rw [List.append_assoc]
    exact List.mem_append_right _ henv
  · rw [List.append_assoc, tokens_append c p t held]
    exact Nat.le_add_left _ _

end Raft
end KvRaft
