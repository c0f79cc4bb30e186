import KvRaft.Raft.Turn

/-!
# Redirects

A follower that knows a leader of its term tells its clients so: `NotLeader(l)`, and
`leader_id` in the status. It has learned of the leader from an `AppendRequest` of that
term, and it forgets it when it enters another term or stands for election.

Only a node that became leader sends `AppendRequest`s (`Spoken`), in the term in which it
became leader; so whoever is named has won the term (`redirects_name_the_leader`).
-/

namespace KvRaft
namespace Raft

variable {C O S : Type}
variable {ids : List NodeId} {s t : Cluster C O S} {i : NodeId}
  {n n' : RaftNode C O S} {machine : S} {trace old : List (NodeId × Effect C O S)}
  {es es' : List (Effect C O S)} {input : Input C}

/-- Node `l` has become leader in term `T`. -/
def Won (trace : List (NodeId × Effect C O S)) (l : NodeId) (T : ℕ) : Prop :=
  ∃ log, (l, Effect.becameLeader T log) ∈ trace

/-- Node `l` has been elected leader in term `T`, and no other node has. -/
def Cluster.Elected (s : Cluster C O S) (l : NodeId) (T : ℕ) : Prop :=
  Won s.trace l T ∧ ∀ l' log, (l', Effect.becameLeader T log) ∈ s.trace → l' = l

theorem Won.append {l : NodeId} {T : ℕ} (h : Won trace l T)
    (more : List (NodeId × Effect C O S)) : Won (trace ++ more) l T := by
  obtain ⟨log, hlog⟩ := h
  exact ⟨log, List.mem_append_left _ hlog⟩

/-! ### Nodes -/

/-- The leader a node knows, itself included, has won the term of the node. -/
def Headed (trace : List (NodeId × Effect C O S)) (i : NodeId) (n : RaftNode C O S) : Prop :=
  (∀ l, n.role = .follower (some l) → Won trace l n.currentTerm) ∧
    (n.role.isLeader = true → Won trace i n.currentTerm)

/-- Whoever an `AppendRequest` names as leader had won its term when it was sent. -/
def Spoken (old : List (NodeId × Effect C O S)) (i : NodeId) (es : List (Effect C O S)) : Prop :=
  ∀ pre p msg, pre ++ [Effect.send p (.appendRequest msg)] <+: es →
    Won (old ++ pre.map (Prod.mk i)) msg.leaderId msg.term

/-- What holds of node `i` while it handles an input; `old` is the trace before. -/
structure Heads (old : List (NodeId × Effect C O S)) (i : NodeId) (n : RaftNode C O S) :
    Prop where
  id : n.id = i
  headed : Headed (old ++ n.effects.map (Prod.mk i)) i n
  spoken : Spoken old i n.effects

theorem Headed.append (h : Headed trace i n) (more : List (NodeId × Effect C O S)) :
    Headed (trace ++ more) i n :=
  ⟨fun l hl => (h.1 l hl).append more, fun hl => (h.2 hl).append more⟩

theorem Spoken.of_initial (h : Spoken old i es') (hp : es <+: es') : Spoken old i es :=
  fun pre p msg hpre => h pre p msg (hpre.trans hp)

theorem Spoken.concat (h : Spoken old i es) {e : Effect C O S}
    (he : ∀ p msg, e = .send p (.appendRequest msg) →
      Won (old ++ es.map (Prod.mk i)) msg.leaderId msg.term) : Spoken old i (es ++ [e]) := by
  intro pre p msg hpre
  rcases List.prefix_concat_iff.mp hpre with heq | hpre
  · obtain ⟨rfl, hlast⟩ := List.append_inj' heq rfl
    exact he p msg (List.singleton_injective hlast).symm
  · exact h pre p msg hpre

/-- An effect that asks nobody to append. -/
def NoAppend (e : Effect C O S) : Prop := ∀ p msg, e ≠ .send p (.appendRequest msg)

theorem Spoken.append (h : Spoken old i es) : ∀ more : List (Effect C O S),
    (∀ e ∈ more, NoAppend e) → Spoken old i (es ++ more) := by
  intro more
  induction more using List.reverseRecOn with
  | nil =>
    intro _
    rwa [List.append_nil]
  | append_singleton more e ih =>
    intro hmore
    rw [← List.append_assoc]
    refine (ih fun x hx => hmore x (List.mem_append_left _ hx)).concat fun p msg heq => ?_
    exact absurd heq (hmore e (by simp) p msg)

/-- A node that asks nobody to append, and keeps its role. -/
theorem Heads.more (h : Heads old i n) (hid : n'.id = n.id) (hrole : n'.role = n.role)
    (hterm : n'.currentTerm = n.currentTerm) (heff : n'.effects = n.effects ++ es)
    (hes : ∀ e ∈ es, NoAppend e) : Heads old i n' := by
  refine ⟨hid.trans h.id, ?_, ?_⟩
  · rw [Headed, hrole, hterm, heff, List.map_append, ← List.append_assoc]
    exact h.headed.append _
  · rw [heff]
    exact h.spoken.append es hes

/-- A node that becomes leader. -/
theorem Heads.crown (hid : n.id = i) (hspoken : Spoken old i n.effects) :
    Heads old i (crownedNode n).persistState := by
  have heff : (crownedNode n).persistState.effects = n.effects ++
      [.becameLeader n.currentTerm (n.log ++ [⟨n.currentTerm, .noOp⟩]),
        .save ⟨n.currentTerm, n.votedFor, n.log ++ [⟨n.currentTerm, .noOp⟩]⟩] :=
    List.append_assoc n.effects [_] [_]
  refine ⟨hid, ⟨fun l hl => absurd hl (by simp [crownedNode, RaftNode.persistState, RaftNode.emit]),
    fun _ => ?_⟩, ?_⟩
  · refine ⟨n.log ++ [⟨n.currentTerm, .noOp⟩], List.mem_append_right _ ?_⟩
    rw [heff]
    exact List.mem_map.mpr ⟨_, List.mem_append_right _ List.mem_cons_self, rfl⟩
  · rw [heff]
    refine hspoken.append _ fun e he p msg heq => ?_
    subst heq
    simp at he

section Turns

variable [RaftStateMachine S C O]

/-- **The turn lemma**: a node names nobody but the winner of its term, if the request it
handles does. -/
theorem Heads.turn (h : Heads old i n) (ht : Turn input n n')
    (hin : ∀ p msg, input = .message p (.appendRequest msg) → Won old msg.leaderId msg.term) :
    Heads old i n' := by
  have hsave : ∀ (st : PersistentState C), ∀ e ∈ [(Effect.save st : Effect C O S)], NoAppend e := by
    intro st e he p msg heq
    subst heq
    simp at he
  cases ht with
  | follow term _ _ =>
    refine ⟨?_, ⟨fun l hl => ?_, fun hl => ?_⟩, ?_⟩
    · unfold RaftNode.becomeFollower
      split <;> exact h.id
    · exact absurd hl (by simp [RaftNode.becomeFollower, RaftNode.persistState, RaftNode.emit])
    · exact absurd hl (by simp [RaftNode.becomeFollower, RaftNode.persistState, RaftNode.emit,
        Role.isLeader])
    · have heff : ∃ st, (n.becomeFollower term).effects = n.effects ++ [.save st] := by
        unfold RaftNode.becomeFollower
        split <;> exact ⟨_, rfl⟩
      obtain ⟨st, heff⟩ := heff
      rw [heff]
      exact h.spoken.append _ (hsave st)
  | stand _ =>
    refine ⟨h.id, ⟨fun l hl => absurd hl (by simp [standing, RaftNode.persistState, RaftNode.emit]),
      fun hl => absurd hl (by simp [standing, RaftNode.persistState, RaftNode.emit, Role.isLeader])⟩,
      h.spoken.append _ (hsave _)⟩
  | crownAlone _ _ => exact Heads.crown (n := standing n) h.id h.spoken
  | crown votes _ _ => exact Heads.crown h.id h.spoken
  | count votes p msg _ _ _ _ =>
    exact ⟨h.id, ⟨fun l hl => absurd hl (by simp), fun hl => absurd hl (by simp [Role.isLeader])⟩,
      h.spoken⟩
  | indices nextIndex matchIndex nextIndex' matchIndex' hrole =>
    refine ⟨h.id, ⟨fun l hl => absurd hl (by simp), fun _ => ?_⟩, h.spoken⟩
    exact h.headed.2 (by rw [hrole]; rfl)
  | adopt p msg hmsg hterm _ =>
    refine ⟨h.id, ⟨fun l hl => ?_, fun hl => absurd hl (by simp [Role.isLeader])⟩, h.spoken⟩
    obtain rfl : msg.leaderId = l := by simpa using hl
    change Won _ _ n.currentTerm
    rw [← hterm]
    exact (hin p msg hmsg).append _
  | append n₁ p msg _ happend =>
    obtain ⟨log, es, rfl, hes⟩ := RaftNode.appendEntries_log _ _ happend
    refine h.more ?_ ?_ ?_
      (?_ : _ = n.effects ++ (es ++ [.save ⟨n.currentTerm, n.votedFor, log⟩])) ?_
    · unfold RaftNode.followCommit
      split <;> rfl
    · unfold RaftNode.followCommit
      split <;> rfl
    · unfold RaftNode.followCommit
      split <;> rfl
    · unfold RaftNode.followCommit
      split <;> exact List.append_assoc _ _ _
    · intro e he
      rcases List.mem_append.mp he with he | he
      · obtain ⟨k, rfl⟩ := hes e he
        exact fun p msg heq => absurd heq (by simp)
      · exact hsave _ e he
  | advance _ hadvance =>
    rcases RaftNode.advanceCommit_cases hadvance with rfl | ⟨index, -, rfl⟩
    · exact h
    · refine h.more rfl rfl rfl rfl fun e he p msg heq => ?_
      subst heq
      simp at he
  | apply _ _ happly =>
    obtain ⟨entry, -, ⟨term, -, rfl⟩ | ⟨term, cmd, -, ⟨-, rfl⟩ | ⟨reply, -, rfl⟩⟩⟩ :=
      RaftNode.lastApplied_turn happly
    · refine h.more rfl rfl rfl rfl fun e he p msg heq => ?_
      subst heq
      simp at he
    · refine h.more rfl rfl rfl rfl fun e he p msg heq => ?_
      subst heq
      simp at he
    · refine h.more rfl rfl rfl (List.append_assoc _ _ _) fun e he p msg heq => ?_
      subst heq
      simp at he
  | vote p msg _ _ => exact h.more rfl rfl rfl rfl (hsave _)
  | accept command reply _ _ =>
    refine h.more rfl rfl rfl (List.append_assoc _ _ _) fun e he p msg heq => ?_
    subst heq
    simp at he
  | send p m hsends =>
    unfold RaftNode.sendMessage
    split
    · have hmore : Headed (old ++ (n.effects ++ [Effect.send p m]).map (Prod.mk i)) i n := by
        rw [List.map_append, ← List.append_assoc]
        exact h.headed.append _
      refine ⟨h.id, hmore, h.spoken.concat fun q msg heq => ?_⟩
      obtain ⟨rfl, rfl⟩ := Effect.send.inj heq
      -- only a leader sends requests, and it names itself and its term
      cases hsends with
      | heartbeat _ hrole hterm hid =>
        rw [hterm, hid, h.id]
        exact h.headed.2 hrole
    · exact h
  | answer reply answer _ =>
    refine h.more rfl rfl rfl rfl fun e he p msg heq => ?_
    subst heq
    simp at he

/-! ### Clusters -/

/-- What holds of a cluster between two steps. -/
structure Cluster.Heads (s : Cluster C O S) : Prop where
  network : ∀ env ∈ s.network, ∀ msg, env.message = .appendRequest msg →
    Won s.trace msg.leaderId msg.term
  nodes : ∀ i, Raft.Heads s.trace i (s.node i) ∧ (s.node i).effects = []

omit [RaftStateMachine S C O] in
/-- What an effect has put into the network. -/
theorem mem_perform_network {env : Envelope C} : ∀ {es : List (Effect C O S)}
    (_ : env ∈ (s.perform i es).network), env ∈ s.network ∨
      ∃ pre p m, pre ++ [Effect.send p m] <+: es ∧ env = ⟨i, p, m⟩ := by
  intro es
  induction es using List.reverseRecOn with
  | nil => exact fun h => Or.inl h
  | append_singleton es e ih =>
    intro h
    rw [Cluster.perform_append, Cluster.perform_singleton, Cluster.performOne_network] at h
    rcases List.mem_append.mp h with h | h
    · rcases ih h with h | ⟨pre, p, m, hpre, heq⟩
      · exact Or.inl h
      · exact Or.inr ⟨pre, p, m, hpre.trans (List.prefix_append _ _), heq⟩
    · cases e with
      | send p m => exact Or.inr ⟨es, p, m, List.prefix_refl _, List.mem_singleton.mp h⟩
      | _ => exact absurd h List.not_mem_nil

omit [RaftStateMachine S C O] in
/-- A node that starts knows no leader. -/
theorem Heads.new (trace : List (NodeId × Effect C O S)) (i : NodeId)
    (stored : Option (PersistentState C)) :
    Raft.Heads trace i (RaftNode.new i ids machine stored : RaftNode C O S) := by
  refine ⟨rfl, ⟨fun l hl => absurd hl (by simp [RaftNode.new]),
    fun hl => absurd hl (by simp [RaftNode.new, Role.isLeader])⟩, fun pre p msg hpre => ?_⟩
  exact absurd (hpre.length_le) (by simp [RaftNode.new])

omit [RaftStateMachine S C O] in
/-- The effects of one node do not matter to the others. -/
theorem Cluster.Heads.perform (h : s.Heads) (hspoken : Spoken s.trace i es) :
    (s.perform i es).Heads := by
  refine ⟨fun env henv msg hmsg => ?_, fun j => ?_⟩
  · rw [perform_trace]
    rcases mem_perform_network henv with henv | ⟨pre, p, m, hpre, rfl⟩
    · exact (h.network env henv msg hmsg).append _
    · obtain rfl : m = .appendRequest msg := hmsg
      obtain ⟨rest, rfl⟩ := hpre
      have hwon := hspoken pre p msg (List.prefix_append _ _)
      rw [List.append_assoc, List.map_append, ← List.append_assoc]
      exact hwon.append _
  · rw [perform_trace, perform_node]
    obtain ⟨hj, heff⟩ := h.nodes j
    refine ⟨⟨hj.id, ?_, ?_⟩, heff⟩
    · have hhead := hj.headed
      rw [heff] at hhead ⊢
      simpa using hhead.append (es.map (Prod.mk i))
    · rw [heff]
      exact fun pre p msg hpre => absurd hpre.length_le (by simp)

omit [RaftStateMachine S C O] in
/-- Crashing keeps every promise. -/
theorem Cluster.Heads.restart (h : s.Heads) (i : NodeId) : (s.restart ids machine i).Heads := by
  refine ⟨h.network, fun j => ?_⟩
  change Raft.Heads s.trace j (Function.update s.node i _ j) ∧
    (Function.update s.node i _ j).effects = []
  by_cases hj : j = i
  · subst hj
    rw [Function.update_self]
    exact ⟨Heads.new _ _ _, rfl⟩
  · rw [Function.update_of_ne hj]
    exact h.nodes j

/-- **The step lemma.** -/
theorem Cluster.Heads.step (h : s.Heads) (hst : Cluster.Step ids machine s t) : t.Heads := by
  obtain ⟨action, hst⟩ := hst
  -- the cluster an input is taken from, and the node after the handler
  have hrun : ∀ {source : Source C} {i : NodeId} {input : Input C} {u : Cluster C O S}
      {node : RaftNode C O S}, s.offer ids source = some (i, input, u) →
      (u.node i).handle input = .ok node → u.Heads ∧ Raft.Heads u.trace i node := by
    intro source i input u node ho hnode
    have hu : u.Heads ∧ ∀ p msg, input = .message p (.appendRequest msg) →
        Won u.trace msg.leaderId msg.term := by
      rcases offer_cases ho with ⟨-, rfl, -, -, -, rfl⟩ | ⟨-, rfl, -, -, rfl⟩ |
        ⟨command, -, rfl, -, -, rfl⟩ | ⟨k, env, -, hk, -, rfl, rfl⟩
      · exact ⟨h, fun _ _ heq => absurd heq (by simp)⟩
      · exact ⟨h, fun _ _ heq => absurd heq (by simp)⟩
      · exact ⟨⟨h.network, h.nodes⟩, fun _ _ heq => absurd heq (by simp)⟩
      · refine ⟨⟨fun env' henv' => h.network env' (List.mem_of_mem_eraseIdx henv'), h.nodes⟩,
          fun p msg heq => ?_⟩
        exact h.network env (List.mem_of_getElem? hk) msg (Input.message.inj heq).2
    exact ⟨hu.1, RaftNode.handle_induction hnode (hu.1.nodes i).1
      fun m m' hturn hm => hm.turn hturn hu.2⟩
  rcases exec_cases hst with ⟨source, i, input, u, node, -, ho, hnode, rfl⟩ | ⟨i, -, -, rfl⟩ |
    ⟨source, done, i, input, u, node, -, ho, hnode, rfl⟩ | ⟨k, -, -, rfl⟩
  · obtain ⟨hu, hnode'⟩ := hrun ho hnode
    have hp := hu.perform hnode'.spoken
    refine ⟨hp.network, fun j => ?_⟩
    by_cases hj : j = i
    · subst hj
      rw [settle_node_self, settle_trace]
      refine ⟨⟨hnode'.id, ?_, fun pre p msg hpre => absurd hpre.length_le (by simp)⟩, rfl⟩
      rw [List.map_nil, List.append_nil]
      exact hnode'.headed
    · rw [settle_node_of_ne u node hj, ← perform_node i node.effects u]
      exact hp.nodes j
  · exact h.restart i
  · obtain ⟨hu, hnode'⟩ := hrun ho hnode
    exact (hu.perform (hnode'.spoken.of_initial (List.take_prefix _ _))).restart i
  · exact ⟨fun env henv => h.network env (List.mem_of_mem_eraseIdx henv), h.nodes⟩

/-- **The run lemma.** -/
theorem Cluster.Reachable.heads (h : Cluster.Reachable ids machine s) : s.Heads := by
  induction h with
  | refl =>
    refine Cluster.Heads.mk (fun env henv => ?_) fun i => ⟨Heads.new _ _ _, rfl⟩
    exact absurd henv (by simp [Cluster.init])
  | tail _ hst ih => exact ih.step hst

/-- Whoever has won a term is its leader. -/
theorem Cluster.Reachable.elected (hnd : ids.Nodup) (h : Cluster.Reachable ids machine s)
    {l : NodeId} {T : ℕ} (hwon : Won s.trace l T) : s.Elected l T := by
  obtain ⟨a, ha⟩ := h.rel hnd
  obtain ⟨log, hlog⟩ := hwon
  refine ⟨⟨log, hlog⟩, fun l' log' hlog' => ?_⟩
  exact ha.leader_unique (h.mem_trace hnd _ hlog') (h.mem_trace hnd _ hlog) hlog' hlog

/-! ### Answers -/

/-- A node that is not a leader answers a client at once, and does nothing else. -/
theorem answer_of_not_leader (hrole : n.role.isLeader = false)
    {command : ClientCommands C} (hn : n.handle (.command command) = .ok n') :
    ∃ answer, Answers n answer ∧ n' = n.emit (.reply command.reply answer) := by
  obtain ⟨err, herr⟩ : ∃ err, RaftNode.requireLeader n.role = some err := by
    cases hlead : RaftNode.requireLeader n.role with
    | some err => exact ⟨err, rfl⟩
    | none =>
      rw [RaftNode.isLeader_of_requireLeader hlead] at hrole
      exact absurd hrole (by simp)
  cases command with
  | apply command channel =>
    simp only [RaftNode.handle, RaftNode.clientCommand, herr] at hn
    exact ⟨_, Answers.error err herr, (Except.ok.inj hn).symm⟩
  | isLeader channel =>
    simp only [RaftNode.handle, RaftNode.clientCommand, herr] at hn
    exact ⟨_, Answers.error err herr, (Except.ok.inj hn).symm⟩
  | getLog channel => exact ⟨_, Answers.log, (Except.ok.inj hn).symm⟩
  | getLogEntry index channel => exact ⟨_, Answers.logEntry index, (Except.ok.inj hn).symm⟩
  | getStatus channel => exact ⟨_, Answers.status, (Except.ok.inj hn).symm⟩

/-- An effect that names no other leader than `l`, and that for term `T`. -/
def NamesSelf (l : NodeId) (T : ℕ) (e : Effect C O S) : Prop :=
  (∀ channel err, e ≠ .reply channel (.error err)) ∧
    ∀ channel st, e = .reply channel (.status st) → st.currentTerm = T ∧ st.leaderId = some l

/-- A leader that answers clients. -/
structure Leads (l : NodeId) (T : ℕ) (n : RaftNode C O S) : Prop where
  role : n.role.isLeader = true
  term : n.currentTerm = T
  id : n.id = l
  names : ∀ e ∈ n.effects, NamesSelf l T e

omit [RaftStateMachine S C O] in
theorem Leads.more {l : NodeId} {T : ℕ} (h : Leads l T n) (hrole : n'.role.isLeader = true)
    (hterm : n'.currentTerm = n.currentTerm) (hid : n'.id = n.id)
    (heff : n'.effects = n.effects ++ es) (hes : ∀ e ∈ es, NamesSelf l T e) :
    Leads l T n' := by
  refine ⟨hrole, hterm.trans h.term, hid.trans h.id, fun e he => ?_⟩
  rw [heff] at he
  rcases List.mem_append.mp he with he | he
  · exact h.names e he
  · exact hes e he

/-- A leader that handles a client command names itself, if it names anybody. -/
theorem Leads.turn {l : NodeId} {T : ℕ} {command : ClientCommands C} (h : Leads l T n)
    (ht : Turn (.command command) n n') : Leads l T n' := by
  -- what is no answer names nobody
  have hquiet : ∀ e : Effect C O S, (∀ channel answer, e ≠ .reply channel answer) →
      NamesSelf l T e :=
    fun e he => ⟨fun channel err => he channel _, fun channel st heq => absurd heq (he channel _)⟩
  cases ht with
  | follow term hin _ =>
    obtain ⟨p, msg, hin⟩ := hin
    exact absurd hin (by simp)
  | stand hin => exact absurd hin (by simp)
  | crownAlone hin _ => exact absurd hin (by simp)
  | crown votes hcand _ =>
    have hrole := h.role
    rw [hcand] at hrole
    exact absurd hrole (by simp [Role.isLeader])
  | count votes p msg hin _ _ _ => exact absurd hin (by simp)
  | indices _ _ _ _ _ => exact ⟨rfl, h.term, h.id, h.names⟩
  | adopt p msg hin _ _ => exact absurd hin (by simp)
  | append _ p msg hin _ => exact absurd hin (by simp)
  | advance _ hadvance =>
    rcases RaftNode.advanceCommit_cases hadvance with rfl | ⟨index, hlead, rfl⟩
    · exact h
    · exact h.more hlead rfl rfl rfl (by simpa using hquiet _ (by simp))
  | apply _ _ happly =>
    obtain ⟨entry, -, ⟨term, -, rfl⟩ | ⟨term, cmd, -, ⟨-, rfl⟩ | ⟨reply, -, rfl⟩⟩⟩ :=
      RaftNode.lastApplied_turn happly
    · exact h.more h.role rfl rfl rfl (by simpa using hquiet _ (by simp))
    · exact h.more h.role rfl rfl rfl (by simpa using hquiet _ (by simp))
    · refine h.more h.role rfl rfl (List.append_assoc _ _ _) fun e he => ?_
      rcases List.mem_pair.mp he with rfl | rfl
      · exact hquiet _ (by simp)
      · exact ⟨by simp, by simp⟩
  | vote p msg hin _ => exact absurd hin (by simp)
  | accept _ _ _ hlead =>
    refine h.more hlead rfl rfl (List.append_assoc _ _ _) fun e he => hquiet e ?_
    rcases List.mem_pair.mp he with rfl | rfl <;> simp
  | send p msg _ =>
    unfold RaftNode.sendMessage
    split
    · exact h.more h.role rfl rfl rfl (by simpa using hquiet _ (by simp))
    · exact h
  | answer reply answer hans =>
    refine h.more h.role rfl rfl rfl fun e he => ?_
    obtain rfl := List.mem_singleton.mp he
    -- a leader has no error to give
    obtain ⟨nextIndex, matchIndex, hrole⟩ : ∃ nextIndex matchIndex,
        n.role = .leader nextIndex matchIndex := by
      have hlead := h.role
      unfold Role.isLeader at hlead
      split at hlead
      · next nextIndex matchIndex hrole => exact ⟨nextIndex, matchIndex, hrole⟩
      · exact absurd hlead (by simp)
    cases hans with
    | error err herr =>
      rw [hrole] at herr
      exact absurd herr (by simp [RaftNode.requireLeader])
    | isLeader => exact ⟨by simp, by simp⟩
    | log => exact ⟨by simp, by simp⟩
    | logEntry index => exact ⟨by simp, by simp⟩
    | status =>
      refine ⟨by simp, fun channel st heq => ?_⟩
      obtain ⟨-, rfl⟩ : reply = channel ∧ n.status = st := by simpa using heq
      refine ⟨h.term, ?_⟩
      rw [← h.id, RaftNode.status, hrole]

/-- **Redirects name the leader.** In every run a follower that knows a leader knows the one
node that was elected in its term; and when a client command is answered, a `NotLeader`
error and the leader in the status name nobody else. -/
theorem redirects_name_the_leader (hnd : ids.Nodup) (h : Cluster.Reachable ids machine s) :
    (∀ i l, (s.node i).role = .follower (some l) → s.Elected l (s.node i).currentTerm) ∧
    ∀ i command n', (s.node i).handle (.command command) = .ok n' →
      (∀ channel l, Effect.reply channel (.error (.notLeader l)) ∈ n'.effects →
        s.Elected l (s.node i).currentTerm) ∧
      ∀ channel st l, Effect.reply channel (.status st) ∈ n'.effects → st.leaderId = some l →
        st.currentTerm = (s.node i).currentTerm ∧ s.Elected l st.currentTerm := by
  have hheaded : ∀ i, Headed s.trace i (s.node i) := by
    intro i
    obtain ⟨hi, heff⟩ := h.heads.nodes i
    have hhead := hi.headed
    rwa [heff, List.map_nil, List.append_nil] at hhead
  have hfollower : ∀ i l, (s.node i).role = .follower (some l) →
      s.Elected l (s.node i).currentTerm := fun i l hl => h.elected hnd ((hheaded i).1 l hl)
  refine ⟨hfollower, fun i command n' hn => ?_⟩
  obtain ⟨hi, heff⟩ := h.heads.nodes i
  cases hrole : (s.node i).role.isLeader with
  | true =>
    -- a leader answers no request with another's name, and names itself in its status
    have hleads : Leads i (s.node i).currentTerm n' :=
      RaftNode.handle_induction hn ⟨hrole, rfl, hi.id, by simp [heff]⟩
        fun _ _ hturn hm => hm.turn hturn
    refine ⟨fun channel l hmem => ?_, fun channel st l hmem hst => ?_⟩
    · exact absurd rfl ((hleads.names _ hmem).1 channel _)
    · obtain ⟨hterm, hid⟩ := (hleads.names _ hmem).2 channel st rfl
      obtain rfl : i = l := Option.some.inj (hid.symm.trans hst)
      refine ⟨hterm, ?_⟩
      rw [hterm]
      exact h.elected hnd ((hheaded i).2 hrole)
  | false =>
    -- any other node answers at once and does nothing else
    obtain ⟨answer, hans, rfl⟩ := answer_of_not_leader hrole hn
    have hmem : ∀ channel answer', Effect.reply channel answer' ∈
        ((s.node i).emit (.reply command.reply answer)).effects → answer' = answer := by
      intro channel answer' hmem
      simp only [RaftNode.emit, heff, List.nil_append, List.mem_singleton] at hmem
      exact (Effect.reply.inj hmem).2
    refine ⟨fun channel l hl => ?_, fun channel st l hst hl => ?_⟩
    · obtain rfl := hmem _ _ hl
      cases hans with
      | error err herr =>
        refine hfollower i l ?_
        unfold RaftNode.requireLeader at herr
        split at herr
        · exact absurd herr (by simp)
        · next leader hfollow =>
          obtain rfl : leader = l := by simpa using herr
          exact hfollow
        · exact absurd herr (by simp)
        · exact absurd herr (by simp)
    · obtain rfl := hmem _ _ hst
      cases hans with
      | status =>
        refine ⟨rfl, hfollower i l ?_⟩
        cases hr : (s.node i).role with
        | follower leader =>
          simp only [RaftNode.status, hr] at hl
          rw [hl]
        | candidate votes => simp [RaftNode.status, hr] at hl
        | leader nextIndex matchIndex =>
          rw [hr] at hrole
          exact absurd hrole (by simp [Role.isLeader])

end Turns

/-- `twoTerms`, and then the first request of the leader of term 2 reaches node 3. -/
def afterAdoption : Cluster ℕ ℕ Counter :=
  (afterTwoTerms.exec [1, 2, 3] ⟨0⟩ (.run (.deliver 9))).getD afterTwoTerms

theorem reachable_afterAdoption : Cluster.Reachable [1, 2, 3] ⟨0⟩ afterAdoption := by
  unfold afterAdoption
  cases h : afterTwoTerms.exec [1, 2, 3] ⟨0⟩ (.run (.deliver 9)) with
  | none => exact reachable_afterTwoTerms
  | some s => exact reachable_afterTwoTerms.tail ⟨_, h⟩

theorem redirects_name_the_leader_afterAdoption :
    afterAdoption.Elected 2 (afterAdoption.node 3).currentTerm :=
  (redirects_name_the_leader (by decide) reachable_afterAdoption).1 3 2 (by decide +kernel)

end Raft
end KvRaft
