import KvRaft.History.Linearizable
import KvRaft.Raft.ClientReply
import KvRaft.Raft.Ledger

/-!
# The cluster is one linearizable object

To its clients a cluster is one copy of the state machine: a call is invoked when a leader
accepts the command, and answered when a node sends the output. The order that explains
the answers is that of the log. The place of a call is the index at which its entry was
applied; entries that were lost with a deposed leader have none.

Three things have to be shown of every run. The books (`Ledger`) say that what is applied
was accepted, and what the machine was. No index of a term is given to two commands, even
by a leader that crashes between the acceptance and the save (`Tenure.reign`): such a
leader does not lead that term again. And real time (`Tenure.late`): a leader that accepts
a command at an index that was passed before, by whatever node, has lost the index for good,
for another entry is chosen there.

A client is only answered with the output of its own command where no `append_request`
cuts a pending key (`Cluster.StepKeeping`), so that is the condition on the runs.
-/

namespace KvRaft
namespace Raft

open TermLog History

variable {C O S : Type}
variable {ids : List NodeId} {s t : Cluster C O S} {i j : NodeId} {a a' : Spec C}
  {n n' : RaftNode C O S} {machine : S} {trace past : List (NodeId × Effect C O S)}
  {input : Input C}

/-! ### One command for each index of a term -/

/-- The node has led term `T` for the last time. -/
def Retired (T : ℕ) (n : RaftNode C O S) : Prop :=
  T ≤ n.currentTerm ∧ (n.currentTerm = T → ∃ leader, n.role = .follower leader)

/-- Another entry than one of term `T` is chosen at index `k`. -/
def Overtaken (ids : List NodeId) (a : Spec C) (k T : ℕ) : Prop :=
  ∃ t x r e, Chosen (quorums ids) a t x r ∧ k < x ∧ r.log[k]? = some e ∧ e.term ≠ T

/-- What the term log knows of the commands that were accepted. -/
structure Tenure (ids : List NodeId) (a : Spec C) (s : Cluster C O S) : Prop where
  /-- The winner of the term has the index in its log, or will not lead the term again. -/
  reign : ∀ i k T c channel, (i, Effect.accepted k T c channel) ∈ s.trace →
    ∃ r, a.reign T = some r ∧ r.winner = some i ∧ (k < r.log.length ∨ Retired T (s.node i))
  once : Along (fun past _ e => ∀ k T c channel, e = .accepted k T c channel →
    ∀ j c' channel', (j, Effect.accepted k T c' channel') ∉ past) s.trace
  late : Along (fun past _ e => ∀ k T c channel, e = .accepted k T c channel →
    ∀ j k' e' m, (j, Effect.applied k' e' m) ∈ past → k ≤ k' → Overtaken ids a k T) s.trace

theorem Overtaken.mono {k T : ℕ} (h : Overtaken ids a k T) (hle : Le a a') :
    Overtaken ids a' k T := by
  obtain ⟨t, x, r, e, hch, hk, he, hne⟩ := h
  obtain ⟨r', hch', htake⟩ := hch.mono hle
  exact ⟨t, x, r', e, hch', hk, by rw [getElem?_of_take_eq htake hk, he], hne⟩

theorem Along.imp {Q Q' : List (NodeId × Effect C O S) → NodeId → Effect C O S → Prop}
    (h : Along Q trace) (himp : ∀ past i e, Q past i e → Q' past i e) : Along Q' trace :=
  fun past i e future heq => himp past i e (h past i e future heq)

section Steps

variable [RaftStateMachine S C O]

/-- **The turn lemma**: no turn brings a node back into a role of an old term. -/
theorem Retired.turn {T : ℕ} (h : Retired T n) (ht : Turn input n n') : Retired T n' := by
  obtain ⟨hle, hrole⟩ := h
  -- turns that keep the role and the term
  have hsame : ∀ {m : RaftNode C O S}, m.currentTerm = n.currentTerm → m.role = n.role →
      Retired T m := by
    intro m hterm hm
    rw [Retired, hterm, hm]
    exact ⟨hle, hrole⟩
  -- turns of a node that is no follower have left the term behind
  have hleft : (∀ leader, n.role ≠ .follower leader) → T < n.currentTerm := by
    intro hno
    refine hle.lt_of_ne fun heq => ?_
    obtain ⟨leader, hleader⟩ := hrole heq.symm
    exact hno leader hleader
  have hlater : ∀ {m : RaftNode C O S}, T < m.currentTerm → Retired T m :=
    fun hlt => ⟨hlt.le, fun heq => absurd heq hlt.ne'⟩
  cases ht with
  | follow term _ _ =>
    have hf := n.becomeFollower_follows term
    exact ⟨by rw [hf.term]; exact hle.trans (le_max_left _ _), fun _ => hf.role⟩
  | stand _ => exact hlater (Nat.lt_succ_of_le hle)
  | crownAlone _ _ => exact hlater (Nat.lt_succ_of_le hle)
  | crown votes hcandidate _ => exact hlater (hleft (by simp [hcandidate]))
  | count votes p msg _ _ _ hcandidate => exact hlater (hleft (by simp [hcandidate]))
  | indices _ _ _ _ hleader => exact hlater (hleft (by simp [hleader]))
  | adopt p msg _ _ _ => exact ⟨hle, fun _ => ⟨_, rfl⟩⟩
  | append n₁ p msg _ happend =>
    obtain ⟨log, es, rfl, -⟩ := RaftNode.appendEntries_log _ _ happend
    refine hsame ?_ ?_
    · unfold RaftNode.followCommit
      split <;> rfl
    · unfold RaftNode.followCommit
      split <;> rfl
  | advance _ hadvance =>
    rcases RaftNode.advanceCommit_cases hadvance with rfl | ⟨index, -, rfl⟩
    · exact hsame rfl rfl
    · exact hsame rfl rfl
  | apply _ _ happly =>
    obtain ⟨-, hpass⟩ := applyLoop_passes 1 happly
    exact hsame hpass.core.term hpass.core.role
  | vote p msg _ _ => exact hsame rfl rfl
  | accept command reply _ _ => exact hsame rfl rfl
  | send p m _ =>
    unfold RaftNode.sendMessage
    split <;> exact hsame rfl rfl
  | answer reply answer _ => exact hsame rfl rfl

theorem Retired.handle {T : ℕ} (h : Retired T n) (hn : n.handle input = .ok n') : Retired T n' :=
  RaftNode.handle_induction hn h fun _ _ ht hm => hm.turn ht

/-- A node keeps its leadership of a term for good while it survives, or gives it up. -/
theorem Retired.step {T : ℕ} (h : Retired T (s.node i)) (hi : i ∈ ids) (hs : Rel ids a s)
    (ht : Rel ids a' t) (hle : Le a a') {action : Action C}
    (hact : s.exec ids machine action = some t) : Retired T (t.node i) := by
  rcases Cluster.exec_node_cases hact i with hsame | ⟨source, input, u, node, -, ho, hnode, rfl⟩ |
    ⟨stored, hnew⟩
  · rwa [hsame]
  · rw [Cluster.settle_node_self]
    rw [Cluster.offer_node ho] at hnode
    have hretired : Retired T node := h.handle hnode
    exact hretired
  · -- what was saved is not older
    have hterm : a'.term i = (t.node i).currentTerm := (ht.nodes i hi).1.disk.term
    have hterm' : a.term i = (s.node i).currentTerm := (hs.nodes i hi).1.disk.term
    refine ⟨?_, fun _ => ⟨none, by rw [hnew]; rfl⟩⟩
    calc T ≤ (s.node i).currentTerm := h.1
      _ = a.term i := hterm'.symm
      _ ≤ a'.term i := hle.term i
      _ = (t.node i).currentTerm := hterm

/-! ### The acceptance of a command -/

/-- A leader that has accepted a command leads on, with the command in its log. -/
theorem RaftNode.handle_apply_core {command : C} {reply : Sender} (hlead : n.role.isLeader = true)
    (hn : n.handle (.command (.apply command reply)) = .ok n') :
    SameCore (n.accepting command reply) n' := by
  have hn' : n.clientCommand (.apply command reply) = .ok n' := hn
  unfold clientCommand at hn'
  have hrequire : requireLeader n.role = none := by
    cases hrole : n.role with
    | leader nextIndex matchIndex => rfl
    | follower leader =>
      rw [hrole] at hlead
      exact absurd hlead (by simp [Role.isLeader])
    | candidate votes =>
      rw [hrole] at hlead
      exact absurd hlead (by simp [Role.isLeader])
  simp only [hrequire] at hn'
  exact (leaderTail_passes .heartbeat hn').core

/-- Among the first effects of a handler a command is accepted first, by a leader, at the end
of its log. -/
theorem RaftNode.accepts_first (heff : n.effects = []) (hn : n.handle input = .ok n')
    {pre post : List (Effect C O S)} {k T : ℕ} {c : C} {channel : Sender}
    (hp : pre ++ .accepted k T c channel :: post <+: n'.effects) :
    pre = [] ∧ input = .command (.apply c channel) ∧ n.role.isLeader = true ∧
      k = n.log.length ∧ T = n.currentTerm := by
  have hmem : Effect.accepted k T c channel ∈ n'.effects := hp.subset (by simp)
  rcases handle_accepts heff hn with hno | ⟨command, ch, es, hin, hlead, heffects, hno⟩
  · exact absurd hmem (hno k T c channel)
  rw [heffects] at hmem hp
  rcases List.mem_cons.mp hmem with heq | hrest
  · obtain ⟨rfl, rfl, rfl, rfl⟩ := Effect.accepted.inj heq
    refine ⟨?_, hin, hlead, rfl, rfl⟩
    cases pre with
    | nil => rfl
    | cons e pre =>
      -- a second acceptance in one handler
      have htail : pre ++ .accepted n.log.length n.currentTerm c channel :: post <+: es :=
        (List.cons_prefix_cons.mp hp).2
      exact absurd (htail.subset (List.mem_append_right _ List.mem_cons_self)) (hno _ _ _ _)
  · exact absurd hrest (hno k T c channel)

omit [RaftStateMachine S C O] in
/-- A leader has the log of its reign. -/
theorem Rel.leading (h : Rel ids a s) (hi : i ∈ ids) (hlead : (s.node i).role.isLeader = true) :
    ∃ r, a.reign (s.node i).currentTerm = some r ∧ r.winner = some i ∧
      r.log = (s.node i).log := by
  have hrole := (h.nodes i hi).1.role
  unfold RoleOk at hrole
  cases hr : (s.node i).role with
  | leader nextIndex matchIndex =>
    rw [hr] at hrole
    exact hrole.1
  | follower leader =>
    rw [hr] at hlead
    exact absurd hlead (by simp [Role.isLeader])
  | candidate votes =>
    rw [hr] at hlead
    exact absurd hlead (by simp [Role.isLeader])

omit [RaftStateMachine S C O] in
/-- A leader accepts no command at an index of its term that was given before. -/
theorem Tenure.fresh (h : Tenure ids a s) (hs : Rel ids a s) (hi : i ∈ ids)
    (hlead : (s.node i).role.isLeader = true) {c : C} {channel : Sender} :
    (j, Effect.accepted (s.node i).log.length (s.node i).currentTerm c channel) ∉ s.trace := by
  intro hmem
  obtain ⟨r, hr, hw, hlog⟩ := hs.leading hi hlead
  obtain ⟨r', hr', hw', hcase⟩ := h.reign _ _ _ _ _ hmem
  obtain rfl := Option.some.inj (hr.symm.trans hr')
  rcases hcase with hlt | ⟨-, hretired⟩
  · rw [hlog] at hlt
    exact lt_irrefl _ hlt
  · -- the winner of the term has retired, and leads it
    obtain rfl := Option.some.inj (hw.symm.trans hw')
    obtain ⟨leader, hleader⟩ := hretired rfl
    rw [hleader] at hlead
    exact absurd hlead (by simp [Role.isLeader])

omit [RaftStateMachine S C O] in
/-- **A leader that accepts a command at an index that was applied** has lost the index: the
entry that is chosen there is not one of its term, for its term has none there yet. -/
theorem Rel.overtaken (hs : Rel ids a s) (hi : i ∈ ids)
    (hlead : (s.node i).role.isLeader = true) {k' : ℕ} {e' : LogEntry C} {m : S}
    (hmark : (j, Effect.applied k' e' m) ∈ s.trace) (hle : (s.node i).log.length ≤ k') :
    Overtaken ids a (s.node i).log.length (s.node i).currentTerm := by
  obtain ⟨r, hr, -, hlog⟩ := hs.leading hi hlead
  have hinv := (hs.mid i).inv
  obtain ⟨t, x, r', hch, hk', -⟩ := (hs.mid i).trace _ hmark
  have hlen : (s.node i).log.length < r'.log.length := hle.trans_lt (hk'.trans_le hch.2.1)
  obtain ⟨e, he⟩ := exists_getElem?_of_lt hlen
  refine ⟨t, x, r', e, hch, hle.trans_lt hk', he, fun hterm => ?_⟩
  -- an entry of the term at this index would be in the log of its reign
  obtain ⟨r₀, hr₀, htake⟩ := hinv.reign_grounded t r' hch.1 _ e he
  have hterm' : Termed.term e = (s.node i).currentTerm := hterm
  rw [hterm', hr] at hr₀
  obtain rfl := Option.some.inj hr₀
  have hown : r.log[(s.node i).log.length]? = some e := by
    rw [← getElem?_of_take_eq htake (Nat.lt_succ_self _), he]
  rw [hlog] at hown
  exact absurd hown (by simp)

/-- The marks of some first effects of a handler, on those that were there. -/
theorem Tenure.marks (h : Tenure ids a s) (hs : Rel ids a s) (hle : Le a a') {source : Source C}
    {u : Cluster C O S} (ho : s.offer ids source = some (i, input, u))
    (hn : (s.node i).handle input = .ok n') {es : List (Effect C O S)} (hes : es <+: n'.effects) :
    Along (fun past _ e => ∀ k T c channel, e = .accepted k T c channel →
        ∀ j c' channel', (j, Effect.accepted k T c' channel') ∉ past)
        (s.trace ++ es.map (Prod.mk i)) ∧
      Along (fun past _ e => ∀ k T c channel, e = .accepted k T c channel →
        ∀ j k' e' m, (j, Effect.applied k' e' m) ∈ past → k ≤ k' → Overtaken ids a' k T)
        (s.trace ++ es.map (Prod.mk i)) := by
  obtain ⟨hi, -⟩ := hs.offered ho
  have heff : (s.node i).effects = [] := (hs.nodes i hi).2
  constructor
  · refine h.once.append fun pre e post heq k T c channel hacc j c' channel' => ?_
    subst hacc
    obtain ⟨rfl, -, hlead, rfl, rfl⟩ := RaftNode.accepts_first heff hn (heq ▸ hes)
    rw [List.map_nil, List.append_nil]
    exact h.fresh hs hi hlead
  · have hold := h.late.imp fun past i e hpast k T c channel hacc j k' e' m hmem hk =>
      (hpast k T c channel hacc j k' e' m hmem hk).mono hle
    refine hold.append fun pre e post heq k T c channel hacc j k' e' m hmem hk => ?_
    subst hacc
    obtain ⟨rfl, -, hlead, rfl, rfl⟩ := RaftNode.accepts_first heff hn (heq ▸ hes)
    rw [List.map_nil, List.append_nil] at hmem
    exact (hs.overtaken hi hlead hmem hk).mono hle

/-- **The step lemma.** -/
theorem Tenure.step (h : Tenure ids a s) (hs : Rel ids a s) (ht : Rel ids a' t) (hle : Le a a')
    {action : Action C} (hact : s.exec ids machine action = some t)
    (hmem : ∀ x ∈ s.trace, x.1 ∈ ids) : Tenure ids a' t := by
  -- a mark that was there before
  have hold : ∀ j k T c channel, (j, Effect.accepted k T c channel) ∈ s.trace →
      ∃ r, a'.reign T = some r ∧ r.winner = some j ∧
        (k < r.log.length ∨ Retired T (t.node j)) := by
    intro j k T c channel hmark
    obtain ⟨r, hr, hw, hcase⟩ := h.reign j k T c channel hmark
    obtain ⟨r', hr', hw', -, hp⟩ := hle.reign T r hr
    refine ⟨r', hr', hw'.trans hw, ?_⟩
    rcases hcase with hlt | hretired
    · exact Or.inl (hlt.trans_le hp.length_le)
    · exact Or.inr (hretired.step (hmem _ hmark) hs ht hle hact)
  -- a mark of the handler that runs, whose node is a leader when it starts
  have hnew : ∀ {source : Source C} {i : NodeId} {input : Input C} {u : Cluster C O S}
      {node : RaftNode C O S} {es : List (Effect C O S)},
      s.offer ids source = some (i, input, u) → (s.node i).handle input = .ok node →
      es <+: node.effects → (∀ c channel, input = .command (.apply c channel) →
        (s.node i).role.isLeader = true → ∀ r, a'.reign (s.node i).currentTerm = some r →
        (s.node i).log.length < r.log.length ∨ Retired (s.node i).currentTerm (t.node i)) →
      ∀ j k T c channel, (j, Effect.accepted k T c channel) ∈ es.map (Prod.mk i) →
        ∃ r, a'.reign T = some r ∧ r.winner = some j ∧
          (k < r.log.length ∨ Retired T (t.node j)) := by
    intro source i input u node es ho hnode hes hafter j k T c channel hmark
    obtain ⟨hi, -⟩ := hs.offered ho
    obtain ⟨e, he, heq⟩ := List.mem_map.mp hmark
    obtain ⟨rfl, rfl⟩ := Prod.mk.inj heq
    obtain ⟨pre, post, rfl⟩ := List.append_of_mem he
    obtain ⟨-, hin, hlead, rfl, rfl⟩ :=
      RaftNode.accepts_first (hs.nodes i hi).2 hnode hes
    obtain ⟨r, hr, hw, -⟩ := hs.leading hi hlead
    obtain ⟨r', hr', hw', -, -⟩ := hle.reign _ r hr
    exact ⟨r', hr', hw'.trans hw, hafter c channel hin hlead r' hr'⟩
  rcases Cluster.exec_cases hact with ⟨source, i, input, u, node, -, ho, hnode, rfl⟩ |
    ⟨i, -, -, rfl⟩ | ⟨source, done, i, input, u, node, -, ho, hnode, rfl⟩ | ⟨k, -, -, rfl⟩
  · rw [Cluster.offer_node ho] at hnode
    have htrace : (u.settle i node).trace = s.trace ++ node.effects.map (Prod.mk i) := by
      rw [Cluster.settle_trace, Cluster.offer_trace ho]
    obtain ⟨hi, -⟩ := hs.offered ho
    refine ⟨fun j k T c channel hmark => ?_, ?_, ?_⟩
    · rw [htrace] at hmark
      refine (List.mem_append.mp hmark).elim (hold j k T c channel)
        (hnew ho hnode (List.prefix_refl _) (fun c channel hin hlead r hr => Or.inl ?_) j k T c
          channel)
      -- the leader has saved the command, so its reign has it
      subst hin
      have hcore := RaftNode.handle_apply_core hlead hnode
      have hnode' : (u.settle i node).node i = { node with effects := [] } :=
        Cluster.settle_node_self u i node
      have hlead' : ((u.settle i node).node i).role.isLeader = true := by
        rw [hnode']
        exact (congrArg Role.isLeader hcore.role).trans hlead
      obtain ⟨r', hr', -, hlog⟩ := ht.leading hi hlead'
      rw [hnode'] at hr' hlog
      have hterm : node.currentTerm = (s.node i).currentTerm := hcore.term
      have hpushed : node.log = (s.node i).log ++
          [LogEntry.mk (s.node i).currentTerm (.command c)] := hcore.log
      have hr'' : a'.reign (s.node i).currentTerm = some r' := hterm ▸ hr'
      obtain rfl := Option.some.inj (hr.symm.trans hr'')
      have hlog' : r.log = node.log := hlog
      rw [hlog', hpushed, List.length_append, List.length_singleton]
      exact Nat.lt_succ_self _
    · rw [htrace]
      exact (h.marks hs hle ho hnode (List.prefix_refl _)).1
    · rw [htrace]
      exact (h.marks hs hle ho hnode (List.prefix_refl _)).2
  · refine ⟨hold, h.once, ?_⟩
    exact h.late.imp fun past i e hpast k T c channel hacc j k' e' m hm hk =>
      (hpast k T c channel hacc j k' e' m hm hk).mono hle
  · rw [Cluster.offer_node ho] at hnode
    have htrace : ((u.perform i (node.effects.take done)).restart ids machine i).trace =
        s.trace ++ (node.effects.take done).map (Prod.mk i) := by
      change (u.perform i (node.effects.take done)).trace = _
      rw [Cluster.perform_trace, Cluster.offer_trace ho]
    obtain ⟨hi, -⟩ := hs.offered ho
    refine ⟨fun j k T c channel hmark => ?_, ?_, ?_⟩
    · rw [htrace] at hmark
      refine (List.mem_append.mp hmark).elim (hold j k T c channel)
        (hnew ho hnode (List.take_prefix _ _) (fun c channel hin hlead r hr => Or.inr ?_) j k T c
          channel)
      -- a leader that crashes does not lead the term again
      have hnode' : ((u.perform i (node.effects.take done)).restart ids machine i).node i =
          RaftNode.new i ids machine ((u.perform i (node.effects.take done)).storage i) :=
        Function.update_self i _ _
      have hterm : a'.term i = _ := (ht.nodes i hi).1.disk.term
      have hterm' : a.term i = _ := (hs.nodes i hi).1.disk.term
      refine ⟨?_, fun _ => ⟨none, by rw [hnode']; rfl⟩⟩
      exact hterm'.symm.le.trans ((hle.term i).trans hterm.le)
    · rw [htrace]
      exact (h.marks hs hle ho hnode (List.take_prefix _ _)).1
    · rw [htrace]
      exact (h.marks hs hle ho hnode (List.take_prefix _ _)).2
  · refine ⟨hold, h.once, ?_⟩
    exact h.late.imp fun past i e hpast k T c channel hacc j k' e' m hm hk =>
      (hpast k T c channel hacc j k' e' m hm hk).mono hle

/-- **The run lemma.** -/
theorem Cluster.Reachable.tenure (h : Cluster.Reachable ids machine s) (hnd : ids.Nodup) :
    ∃ a, Rel ids a s ∧ Tenure ids a s := by
  induction h with
  | refl =>
    refine ⟨Spec.start, Rel.init ids machine, fun j k T c channel hmark => ?_, Along.nil,
      Along.nil⟩
    exact absurd hmark (by simp [Cluster.init])
  | @tail s t hs hstep ih =>
    obtain ⟨a, ha, htenure⟩ := ih
    obtain ⟨a', ha', hle⟩ := ha.step hnd hstep
    obtain ⟨action, hact⟩ := hstep
    exact ⟨a', ha', htenure.step ha ha' hle hact (Cluster.Reachable.mem_trace hs hnd)⟩

end Steps

/-! ### The history of the clients -/

/-- The event of a client that an effect is. -/
def clientEvent : NodeId × Effect C O S → Option (CallEvent Sender C O)
  | (_, .accepted _ _ command channel) => some (.invoke channel command)
  | (_, .reply channel (.applied output)) => some (.respond channel output)
  | _ => none

/-- What the clients whose commands were accepted have seen. -/
def clientHistory (trace : List (NodeId × Effect C O S)) : List (CallEvent Sender C O) :=
  trace.filterMap clientEvent

/-- The entry that an effect applies at index `k`. -/
def appliedEntry (k : ℕ) : NodeId × Effect C O S → Option (LogEntry C)
  | (_, .applied index entry _) => if index = k then some entry else none
  | _ => none

/-- The channel for which an effect accepts index `k` of term `T`. -/
def acceptedFor (k T : ℕ) : NodeId × Effect C O S → Option Sender
  | (_, .accepted index term _ channel) => if index = k ∧ term = T then some channel else none
  | _ => none

/-- The call whose entry was applied at index `k`. -/
def callAt (trace : List (NodeId × Effect C O S)) (k : ℕ) : Option (Sender × C) := do
  let entry ← trace.findSome? (appliedEntry k)
  let command ← entry.cmd?
  let channel ← trace.findSome? (acceptedFor k entry.term)
  some (channel, command)

/-- An index above all that were applied. -/
def appliedBound (trace : List (NodeId × Effect C O S)) : ℕ :=
  trace.foldr (fun x bound =>
    match x.2 with
    | .applied index _ _ => max (index + 1) bound
    | _ => bound) 0

/-- The calls that took effect, in the order of the log. -/
def logOrder (trace : List (NodeId × Effect C O S)) : List (Sender × C) :=
  below (callAt trace) (appliedBound trace)

/-- What the nodes agree on. -/
structure Agreed [RaftStateMachine S C O] (machine : S) (trace : List (NodeId × Effect C O S)) :
    Prop where
  books : Along (Booked machine) trace
  entry : ∀ i j k e e' m m', (i, Effect.applied k e m) ∈ trace →
    (j, Effect.applied k e' m') ∈ trace → e = e'
  call : ∀ i j k T c c' channel channel', (i, Effect.accepted k T c channel) ∈ trace →
    (j, Effect.accepted k T c' channel') ∈ trace → c = c' ∧ channel = channel'
  late : ∀ past future i j j' k k' T e c channel m m', trace = past ++ future →
    (i, Effect.applied k' e m) ∈ past → (j, Effect.accepted k T c channel) ∈ future →
    (j', Effect.applied k ⟨T, .command c⟩ m') ∈ trace → k' < k

section Agreement

variable [RaftStateMachine S C O]

/-- **What the nodes agree on in every run.** -/
theorem Cluster.Reachable.agreed (h : Cluster.Reachable ids machine s) (hnd : ids.Nodup) :
    Agreed machine s.trace := by
  obtain ⟨a, ha, htenure⟩ := h.tenure hnd
  have hentry : ∀ i j k e e' m m', (i, Effect.applied k e m) ∈ s.trace →
      (j, Effect.applied k e' m') ∈ s.trace → e = e' := by
    intro i j k e e' m m' hi hj
    obtain ⟨T, x, r, hch, hk, he⟩ := (ha.mid i).trace _ hi
    obtain ⟨T', x', r', hch', hk', he'⟩ := (ha.mid i).trace _ hj
    have hagree := (ha.mid i).inv.chosen_agree hch hch' hk hk'
    rw [he, he'] at hagree
    exact Option.some.inj hagree
  refine ⟨h.books.1, hentry, ?_, ?_⟩
  · intro i j k T c c' channel channel' hi hj
    rcases mem_order hi hj with heq | ⟨past, future, heq, hmem⟩ | ⟨past, future, heq, hmem⟩
    · obtain ⟨-, hmark⟩ := Prod.mk.inj heq
      obtain ⟨-, -, rfl, rfl⟩ := Effect.accepted.inj hmark
      exact ⟨rfl, rfl⟩
    · exact absurd hmem (htenure.once past j _ future heq k T c' channel' rfl i c channel)
    · exact absurd hmem (htenure.once past i _ future heq k T c channel rfl j c' channel')
  · intro past future i j j' k k' T e c channel m m' htrace hpast hfuture hmark
    by_contra hle
    obtain ⟨mid, rest, rfl⟩ := List.append_of_mem hfuture
    have hsplit : s.trace = (past ++ mid) ++ (j, .accepted k T c channel) :: rest := by
      rw [htrace, List.append_assoc]
    -- another entry is chosen at this index
    obtain ⟨t, x, r, e', hch, hk, he', hne⟩ := htenure.late _ j _ rest hsplit k T c channel rfl
      i k' e m (List.mem_append_left _ hpast) (not_lt.mp hle)
    obtain ⟨t', x', r', hch', hk', hentry'⟩ := (ha.mid j').trace _ hmark
    have hagree := (ha.mid j').inv.chosen_agree hch hch' hk hk'
    rw [he', hentry'] at hagree
    obtain rfl := Option.some.inj hagree
    exact hne rfl

omit [RaftStateMachine S C O] in
theorem appliedEntry_eq_some {x : NodeId × Effect C O S} {k : ℕ} {e : LogEntry C} :
    appliedEntry k x = some e ↔ ∃ i m, x = (i, .applied k e m) := by
  obtain ⟨i, mark⟩ := x
  cases mark with
  | applied index entry m =>
    by_cases hk : index = k
    · subst hk
      simp [appliedEntry]
    · simp [appliedEntry, hk]
  | _ => simp [appliedEntry]

omit [RaftStateMachine S C O] in
theorem acceptedFor_eq_some {x : NodeId × Effect C O S} {k T : ℕ} {channel : Sender} :
    acceptedFor k T x = some channel ↔ ∃ i c, x = (i, .accepted k T c channel) := by
  obtain ⟨i, mark⟩ := x
  cases mark with
  | accepted index term command ch =>
    by_cases hk : index = k ∧ term = T
    · obtain ⟨rfl, rfl⟩ := hk
      simp [acceptedFor]
    · rw [acceptedFor, if_neg hk]
      refine ⟨fun h => absurd h (by simp), fun h => ?_⟩
      obtain ⟨j, c, heq⟩ := h
      obtain ⟨rfl, rfl, -, -⟩ := Effect.accepted.inj (Prod.mk.inj heq).2
      exact absurd ⟨rfl, rfl⟩ hk
  | _ => simp [acceptedFor]

/-- A search whose hits are all the same finds it. -/
theorem findSome?_of_unique {α β : Type} {l : List α} {f : α → Option β} {x : α} {b : β}
    (hx : x ∈ l) (hb : f x = some b) (hunique : ∀ y ∈ l, ∀ b', f y = some b' → b' = b) :
    l.findSome? f = some b := by
  cases hfind : l.findSome? f with
  | none =>
    rw [List.findSome?_eq_none_iff.mp hfind x hx] at hb
    exact absurd hb (by simp)
  | some b' =>
    obtain ⟨y, hy, hb'⟩ := List.exists_of_findSome?_eq_some hfind
    rw [hunique y hy b' hb']

variable {k : ℕ} {channel : Sender} {c : C}

/-- What was applied was pushed for a client, above index 0. -/
theorem Agreed.pushed (h : Agreed machine trace) {e : LogEntry C} {m : S}
    (hmark : (i, Effect.applied k e m) ∈ trace) :
    Pushed trace k e ∧ 1 ≤ k ∧ Built machine trace (k - 1) m := by
  obtain ⟨past, future, heq, hpushed, hpos, hbuilt⟩ := h.books.at hmark
  have hsub : ∀ x ∈ past, x ∈ trace := by
    rw [heq]
    exact fun x hx => List.mem_append_left _ hx
  exact ⟨hpushed.mono hsub, hpos, hbuilt.mono hsub⟩

/-- **The place of a call** is that of its entry. -/
theorem Agreed.callAt_iff (h : Agreed machine trace) : callAt trace k = some (channel, c) ↔
    ∃ i j T m, (i, Effect.applied k ⟨T, .command c⟩ m) ∈ trace ∧
      (j, Effect.accepted k T c channel) ∈ trace := by
  constructor
  · intro hcall
    obtain ⟨entry, hentry, hcall⟩ := Option.bind_eq_some_iff.mp hcall
    obtain ⟨command, hcommand, hcall⟩ := Option.bind_eq_some_iff.mp hcall
    obtain ⟨ch, hch, hcall⟩ := Option.bind_eq_some_iff.mp hcall
    obtain ⟨rfl, rfl⟩ := Prod.mk.inj (Option.some.inj hcall)
    obtain ⟨x, hx, hfx⟩ := List.exists_of_findSome?_eq_some hentry
    obtain ⟨i, m, rfl⟩ := appliedEntry_eq_some.mp hfx
    obtain ⟨y, hy, hfy⟩ := List.exists_of_findSome?_eq_some hch
    obtain ⟨j, c', rfl⟩ := acceptedFor_eq_some.mp hfy
    obtain ⟨T, cmd⟩ := entry
    cases cmd with
    | noOp => exact absurd hcommand (by simp [LogEntry.cmd?])
    | command cmd =>
      obtain rfl : cmd = command := Option.some.inj hcommand
      -- the index was given to this command, and to no other
      obtain ⟨j', channel', hacc⟩ := (h.pushed hx).1 T cmd rfl
      obtain ⟨-, rfl⟩ := h.call _ _ _ _ _ _ _ _ hy hacc
      exact ⟨i, j', T, m, hx, hacc⟩
  · rintro ⟨i, j, T, m, hmark, hacc⟩
    have hentry : trace.findSome? (appliedEntry k) = some ⟨T, .command c⟩ := by
      refine findSome?_of_unique hmark (appliedEntry_eq_some.mpr ⟨i, m, rfl⟩) fun y hy e he => ?_
      obtain ⟨i', m', rfl⟩ := appliedEntry_eq_some.mp he
      exact h.entry _ _ _ _ _ _ _ hy hmark
    have hchannel : trace.findSome? (acceptedFor k T) = some channel := by
      refine findSome?_of_unique hacc (acceptedFor_eq_some.mpr ⟨j, c, rfl⟩) fun y hy ch hch => ?_
      obtain ⟨j', c', rfl⟩ := acceptedFor_eq_some.mp hch
      exact (h.call _ _ _ _ _ _ _ _ hy hacc).2
    unfold callAt
    rw [hentry]
    simp only [LogEntry.cmd?, Option.bind_eq_bind, Option.bind_some]
    rw [hchannel]
    rfl

/-- The calls below an index are the commands of the entries that were applied there. -/
theorem Agreed.below_entries (h : Agreed machine trace) {entries : List (LogEntry C)}
    (hmarks : ∀ x e, entries[x]? = some e → ∃ j m, (j, Effect.applied (x + 1) e m) ∈ trace) :
    ∀ x ≤ entries.length, (below (callAt trace) (x + 1)).map Prod.snd =
      (entries.take x).filterMap LogEntry.cmd? := by
  intro x
  induction x with
  | zero =>
    intro _
    -- nothing is applied at index 0
    have hnone : callAt trace 0 = none := by
      cases hcall : callAt trace 0 with
      | none => rfl
      | some call =>
        obtain ⟨i, -, T, m, hmark, -⟩ := h.callAt_iff.mp hcall
        exact absurd (h.pushed hmark).2.1 (by simp)
    rw [below_succ, hnone]
    rfl
  | succ x ih =>
    intro hx
    obtain ⟨e, he⟩ := exists_getElem?_of_lt (Nat.lt_of_succ_le hx)
    obtain ⟨j, m, hmark⟩ := hmarks x e he
    rw [below_succ, List.map_append, ih (by omega), List.take_add_one, he, List.filterMap_append]
    congr 1
    obtain ⟨T, cmd⟩ := e
    cases cmd with
    | noOp =>
      cases hcall : callAt trace (x + 1) with
      | none => rfl
      | some call =>
        obtain ⟨i, -, T', m', hmark', -⟩ := h.callAt_iff.mp hcall
        exact absurd (h.entry _ _ _ _ _ _ _ hmark hmark') (by simp)
    | command cmd =>
      obtain ⟨j', channel', hacc⟩ := (h.pushed hmark).1 T cmd rfl
      rw [h.callAt_iff.mpr ⟨j, j', T, m, hmark, hacc⟩]
      rfl

/-- **A machine is what the calls below its index have made of it.** -/
theorem Agreed.built (h : Agreed machine trace) {m : S} (hbuilt : Built machine trace k m) :
    m = stateAfter RaftStateMachine.apply machine
      ((below (callAt trace) (k + 1)).map Prod.snd) := by
  obtain ⟨entries, rfl, rfl, hmarks⟩ := hbuilt
  rw [h.below_entries hmarks entries.length le_rfl, List.take_length, stateAfter,
    List.foldl_filterMap]
  rfl

omit [RaftStateMachine S C O] in
theorem lt_appliedBound {e : LogEntry C} {m : S} (hmark : (i, Effect.applied k e m) ∈ trace) :
    k < appliedBound trace := by
  induction trace with
  | nil => exact absurd hmark (by simp)
  | cons x trace ih =>
    rcases List.mem_cons.mp hmark with rfl | hmark
    · exact lt_max_of_lt_left (Nat.lt_succ_self k)
    · refine (ih hmark).trans_le ?_
      obtain ⟨j, mark⟩ := x
      cases mark with
      | applied index entry m => exact le_max_right _ _
      | _ => exact le_rfl

omit [RaftStateMachine S C O] in
theorem invoke_mem {trace : List (NodeId × Effect C O S)} :
    .invoke channel c ∈ clientHistory trace ↔
      ∃ i k T, (i, Effect.accepted k T c channel) ∈ trace := by
  constructor
  · intro h
    obtain ⟨⟨i, mark⟩, hmem, heq⟩ := List.mem_filterMap.mp h
    cases mark with
    | accepted k T command ch =>
      obtain ⟨rfl, rfl⟩ := CallEvent.invoke.inj (Option.some.inj heq)
      exact ⟨i, k, T, hmem⟩
    | reply ch answer => cases answer <;> simp [clientEvent] at heq
    | _ => exact absurd heq (by simp [clientEvent])
  · rintro ⟨i, k, T, hmem⟩
    exact List.mem_filterMap.mpr ⟨_, hmem, rfl⟩

omit [RaftStateMachine S C O] in
theorem respond_mem {trace : List (NodeId × Effect C O S)} {output : O} :
    .respond channel output ∈ clientHistory trace ↔
      ∃ i, (i, Effect.reply channel (.applied output)) ∈ trace := by
  constructor
  · intro h
    obtain ⟨⟨i, mark⟩, hmem, heq⟩ := List.mem_filterMap.mp h
    cases mark with
    | reply ch answer =>
      cases answer with
      | applied out =>
        obtain ⟨rfl, rfl⟩ := CallEvent.respond.inj (Option.some.inj heq)
        exact ⟨i, hmem⟩
      | _ => exact absurd heq (by simp [clientEvent])
    | _ => exact absurd heq (by simp [clientEvent])
  · rintro ⟨i, hmem⟩
    exact List.mem_filterMap.mpr ⟨_, hmem, rfl⟩

omit [RaftStateMachine S C O] in
/-- A cut of the history is one of the trace. -/
theorem clientHistory_cut {past future : List (CallEvent Sender C O)}
    (h : clientHistory trace = past ++ future) : ∃ before after, trace = before ++ after ∧
      clientHistory before = past ∧ clientHistory after = future :=
  List.filterMap_eq_append_iff.mp h

/-- An answer is that of the machine to which the command of the client was applied. -/
theorem Answered.mark (hans : Answered trace) {output : O}
    (hreply : (i, Effect.reply channel (.applied output)) ∈ trace) :
    ∃ k T command m, (i, Effect.applied k ⟨T, .command command⟩ m) ∈ trace ∧
      (i, Effect.accepted k T command channel) ∈ trace ∧
      output = (RaftStateMachine.apply m command).2 := by
  obtain ⟨pre, post, htrace⟩ := List.append_of_mem hreply
  obtain ⟨pre', k, T, command, m, rfl, hacc, hout⟩ := hans pre post i channel output htrace
  exact ⟨k, T, command, m, by simp [htrace], by simp [htrace, hacc], hout⟩

/-- **The log linearizes the history**, if every client got the output of its own command. -/
theorem Agreed.linearizes (h : Agreed machine trace) (hans : Answered trace) :
    Linearizes RaftStateMachine.apply machine (clientHistory trace) (logOrder trace) := by
  refine Linearizes.of_places _ ?_ ?_ ?_ ?_
  · intro j k x y hx hy heq
    obtain ⟨_, _, T, _, -, hacc⟩ := h.callAt_iff.mp hx
    obtain ⟨_, _, T', _, -, hacc'⟩ := h.callAt_iff.mp hy
    rw [← heq] at hacc'
    exact (accepted_once h.books hacc hacc').2.1
  · intro k x hx
    obtain ⟨_, j, T, _, -, hacc⟩ := h.callAt_iff.mp hx
    exact invoke_mem.mpr ⟨j, k, T, hacc⟩
  · intro call output hresp
    obtain ⟨i, hreply⟩ := respond_mem.mp hresp
    obtain ⟨k, T, command, m, hmark, hacc, hout⟩ := hans.mark hreply
    obtain ⟨-, hpos, hbuilt⟩ := h.pushed hmark
    refine ⟨k, lt_appliedBound hmark, command, h.callAt_iff.mpr ⟨i, i, T, m, hmark, hacc⟩, ?_⟩
    have hm := h.built hbuilt
    rw [Nat.sub_add_cancel hpos] at hm
    rw [← hm, hout]
  · -- real time
    rintro j k x y hx hy ⟨past, future, output, command, hcut, hresp, hinv⟩
    obtain ⟨before, after, htrace, hbefore, hafter⟩ := clientHistory_cut hcut
    rw [← hbefore] at hresp
    rw [← hafter] at hinv
    obtain ⟨i, hreply⟩ := respond_mem.mp hresp
    -- the answered call was applied at its place by then
    obtain ⟨k₀, T₀, c₀, m, hmark, hacc, -⟩ :=
      (hans.of_initial ⟨after, htrace.symm⟩).mark hreply
    obtain ⟨_, _, _, _, -, haccx⟩ := h.callAt_iff.mp hx
    obtain ⟨-, rfl, -, -⟩ := accepted_once h.books
      (htrace ▸ List.mem_append_left after hacc) haccx
    -- and the later call is accepted at its own
    obtain ⟨i', k', T', hacc'⟩ := invoke_mem.mp hinv
    obtain ⟨iy, jy, Ty, my, hmarky, haccy⟩ := h.callAt_iff.mp hy
    obtain ⟨-, rfl, rfl, rfl⟩ := accepted_once h.books
      (htrace ▸ List.mem_append_right before hacc') haccy
    exact h.late before after i i' iy k' k₀ T' _ _ _ m my htrace hmark hacc' hmarky

/-! ### The history is one of calls and answers -/

omit [RaftStateMachine S C O] in
theorem invoked_eq_some {x : NodeId × Effect C O S} :
    (clientEvent x).bind CallEvent.invoked? = some channel ↔
      ∃ i k T c, x = (i, .accepted k T c channel) := by
  obtain ⟨i, mark⟩ := x
  cases mark with
  | accepted k T c ch => simp [clientEvent, CallEvent.invoked?]
  | reply ch answer => cases answer <;> simp [clientEvent, CallEvent.invoked?]
  | _ => simp [clientEvent]

omit [RaftStateMachine S C O] in
theorem responded_eq_some {x : NodeId × Effect C O S} :
    (clientEvent x).bind CallEvent.responded? = some channel ↔
      ∃ i output, x = (i, .reply channel (.applied output)) := by
  obtain ⟨i, mark⟩ := x
  cases mark with
  | accepted k T c ch => simp [clientEvent, CallEvent.responded?]
  | reply ch answer => cases answer <;> simp [clientEvent, CallEvent.responded?]
  | _ => simp [clientEvent]

/-- A channel is answered once, by the node that has accepted its command. -/
theorem answered_once (h : Along (Booked machine) trace) :
    Along (fun past _ e => ∀ channel output, e = .reply channel (.applied output) →
      ∀ j output', (j, Effect.reply channel (.applied output')) ∉ past) trace := by
  rintro past i e future htrace channel output rfl j output' hmem
  obtain ⟨⟨k, T, c, hacc⟩, hno⟩ := h past i _ future htrace
  have hpast : Along (Booked machine) past := h.of_initial ⟨_, htrace.symm⟩
  -- the earlier answer was owed by the same node
  obtain ⟨before, after, heq, ⟨k', T', c', hacc'⟩, -⟩ := hpast.at hmem
  obtain ⟨rfl, -⟩ := accepted_once hpast hacc (heq ▸ List.mem_append_left _ hacc')
  exact hno output' hmem

theorem wellFormed (h : Along (Booked machine) trace) : WellFormed (clientHistory trace) := by
  refine ⟨?_, ?_, ?_⟩
  · rw [clientHistory, List.filterMap_filterMap]
    have hpair : trace.Pairwise fun x y => ∀ channel,
        (clientEvent x).bind CallEvent.invoked? = some channel →
          (clientEvent y).bind CallEvent.invoked? ≠ some channel := by
      refine h.pairwise fun past i e he x hx channel hinv hinv' => ?_
      obtain ⟨j, k, T, c, rfl⟩ := invoked_eq_some.mp hinv
      obtain ⟨_, k', T', c', heq⟩ := invoked_eq_some.mp hinv'
      obtain ⟨-, rfl⟩ := Prod.mk.inj heq
      exact he j k T c hx
    refine hpair.filterMap _ fun x y hxy channel hx channel' hy heq => ?_
    exact hxy channel hx (heq ▸ hy)
  · rw [clientHistory, List.filterMap_filterMap]
    have hpair : trace.Pairwise fun x y => ∀ channel,
        (clientEvent x).bind CallEvent.responded? = some channel →
          (clientEvent y).bind CallEvent.responded? ≠ some channel := by
      refine (answered_once h).pairwise fun past i e he x hx channel hresp hresp' => ?_
      obtain ⟨j, output, rfl⟩ := responded_eq_some.mp hresp
      obtain ⟨_, output', heq⟩ := responded_eq_some.mp hresp'
      obtain ⟨-, rfl⟩ := Prod.mk.inj heq
      exact he channel output' rfl j output hx
    refine hpair.filterMap _ fun x y hxy channel hx channel' hy heq => ?_
    exact hxy channel hx (heq ▸ hy)
  · intro past channel output future hcut
    obtain ⟨before, after, rfl, rfl, hafter⟩ := clientHistory_cut hcut
    obtain ⟨skipped, x, rest, rfl, hskipped, hx, -⟩ := List.filterMap_eq_cons_iff.mp hafter
    -- the answer finds the acceptance in its past
    obtain ⟨i, hreply⟩ : ∃ i, x = (i, .reply channel (.applied output)) := by
      obtain ⟨i, hmem⟩ := respond_mem.mp
        (show .respond channel output ∈ clientHistory [x] by simp [clientHistory, hx])
      exact ⟨i, (List.mem_singleton.mp hmem).symm⟩
    subst hreply
    obtain ⟨⟨k, T, c, hacc⟩, -⟩ :=
      h (before ++ skipped) i (.reply channel (.applied output)) rest (by simp)
    refine ⟨c, ?_⟩
    have hmem : .invoke channel c ∈ clientHistory (before ++ skipped) := invoke_mem.mpr ⟨i, k, T, hacc⟩
    rw [clientHistory, List.filterMap_append, List.filterMap_eq_nil_iff.mpr hskipped,
      List.append_nil] at hmem
    exact hmem

/-- A machine has executed some of the first calls of the order. -/
theorem Agreed.initial (h : Agreed machine trace) {m : S} (hbuilt : Built machine trace k m) :
    ∃ done rest, logOrder trace = done ++ rest ∧
      m = stateAfter RaftStateMachine.apply machine (done.map Prod.snd) := by
  have hm := h.built hbuilt
  obtain ⟨entries, hlen, -, hmarks⟩ := hbuilt
  cases k with
  | zero =>
    have hnil := h.below_entries hmarks 0 (Nat.zero_le _)
    refine ⟨[], logOrder trace, rfl, ?_⟩
    rw [hm, hnil]
    rfl
  | succ k =>
    obtain ⟨e, he⟩ := exists_getElem?_of_lt (show k < entries.length by omega)
    obtain ⟨j, m', hmark⟩ := hmarks k e he
    obtain ⟨rest, hrest⟩ : ∃ rest, logOrder trace = below (callAt trace) (k + 1 + 1) ++ rest :=
      below_of_le (lt_appliedBound hmark)
    exact ⟨_, rest, hrest, hm⟩

end Agreement

/-- A run that cuts no pending key is a run, and answers every client with the output of its own
command. -/
theorem Cluster.keeping_answered [RaftStateMachine S C O]
    (h : Relation.ReflTransGen (Cluster.StepKeeping ids machine) (Cluster.init ids machine) s) :
    Cluster.Reachable ids machine s ∧ Answered s.trace := by
  suffices hboth : Cluster.Reachable ids machine s ∧ s.Faithful from ⟨hboth.1, hboth.2.answered⟩
  induction h with
  | refl => exact ⟨Relation.ReflTransGen.refl, Cluster.Faithful.init ids machine⟩
  | tail _ hst ih =>
    obtain ⟨hreach, hfaithful⟩ := ih
    refine ⟨?_, hfaithful.step hst⟩
    obtain ⟨action, hact, -⟩ := hst
    exact hreach.tail ⟨action, hact⟩

/-- **Linearizability.** In every run in which no delivered `AppendRequest` cuts a log at or
below a key of `pending_applies`, whatever is lost, delayed or reordered and whoever crashes,
the log linearizes what the clients see; and every replica has executed a first part of the
same order. -/
theorem linearizable [RaftStateMachine S C O] (hnd : ids.Nodup)
    (h : Relation.ReflTransGen (Cluster.StepKeeping ids machine) (Cluster.init ids machine) s) :
    WellFormed (clientHistory s.trace) ∧
      Linearizes RaftStateMachine.apply machine (clientHistory s.trace) (logOrder s.trace) ∧
      ∀ i, ∃ done rest, logOrder s.trace = done ++ rest ∧
        (s.node i).stateMachine =
          stateAfter RaftStateMachine.apply machine (done.map Prod.snd) := by
  obtain ⟨hreach, hanswered⟩ := Cluster.keeping_answered h
  have hagreed := hreach.agreed hnd
  exact ⟨wellFormed hagreed.books, hagreed.linearizes hanswered,
    fun i => hagreed.initial (hreach.books.2 i).built⟩

theorem stepsKeeping_afterTwoTerms :
    Relation.ReflTransGen (Cluster.StepKeeping [1, 2, 3] (⟨0⟩ : Counter))
      (Cluster.init [1, 2, 3] ⟨0⟩) afterTwoTerms := by
  have hkeep : (Cluster.init [1, 2, 3] ⟨0⟩ : Cluster ℕ ℕ Counter).AllKeepPending [1, 2, 3] ⟨0⟩
      twoTerms := by decide +kernel
  refine Cluster.stepsKeeping_of_run ?_ hkeep
  unfold afterTwoTerms
  cases h : (Cluster.init [1, 2, 3] ⟨0⟩ : Cluster ℕ ℕ Counter).run [1, 2, 3] ⟨0⟩ twoTerms with
  | some s => rfl
  | none =>
    have hsome : ((Cluster.init [1, 2, 3] ⟨0⟩ : Cluster ℕ ℕ Counter).run [1, 2, 3] ⟨0⟩
      twoTerms).isSome = true := by decide +kernel
    rw [h] at hsome
    exact absurd hsome (by simp)

theorem linearizable_afterTwoTerms :
    WellFormed (clientHistory afterTwoTerms.trace) ∧
      Linearizes RaftStateMachine.apply (⟨0⟩ : Counter) (clientHistory afterTwoTerms.trace)
        (logOrder afterTwoTerms.trace) ∧
      ∀ i, ∃ done rest, logOrder afterTwoTerms.trace = done ++ rest ∧
        (afterTwoTerms.node i).stateMachine =
          stateAfter RaftStateMachine.apply ⟨0⟩ (done.map Prod.snd) :=
  linearizable (by decide) stepsKeeping_afterTwoTerms

example : logOrder afterTwoTerms.trace = [(0, 7)] := by decide +kernel

end Raft
end KvRaft
