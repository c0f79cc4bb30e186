import KvRaft.Raft.Node
import Mathlib.Logic.Function.Basic
import Mathlib.Logic.Relation

/-!
# A cluster of nodes

The transition system in which the nodes run. A node handles one input at a time
(`launch` is a single task): an election timeout, a heartbeat tick, a client command or
the delivery of one message. A message in flight is delivered at most once, to the node
it was sent to and with its true sender; any message may be delivered next, and any may
be lost.

A node may crash while it waits or after any number of the effects of the handler it is
running. It then starts again with `RaftNode::new` on the state that was saved last and
a fresh state machine. `Cluster.trace` remembers every effect of every node, in order;
no step reads it.

A handler that panics has no step: that none ever does is a theorem about the reachable
clusters, not an assumption.
-/

namespace KvRaft
namespace Raft

variable {C O S : Type}

/-- A message in flight. -/
structure Envelope (C : Type) where
  fromId : NodeId
  toId : NodeId
  message : RaftMessage C
  deriving DecidableEq

/-- The state of a cluster. -/
structure Cluster (C O S : Type) where
  node : NodeId → RaftNode C O S
  /-- What the storage of each node holds. -/
  storage : NodeId → Option (PersistentState C)
  network : List (Envelope C)
  trace : List (NodeId × Effect C O S)
  /-- The reply channel of the next client command. -/
  nextReply : Sender

/-- What a node handles in one turn of the loop of `launch`. -/
inductive Input (C : Type)
  | electionTimeout
  | heartbeat
  | command (command : ClientCommands C)
  | message (fromId : NodeId) (message : RaftMessage C)

/-- Where the next input of a node comes from. -/
inductive Source (C : Type)
  | electionTimeout (id : NodeId)
  | heartbeat (id : NodeId)
  | command (id : NodeId) (command : ClientCommands C)
  /-- The `k`-th message in flight. -/
  | deliver (k : ℕ)

/-- A step of the cluster. -/
inductive Action (C : Type)
  | run (source : Source C)
  /-- The node crashes while it waits. -/
  | crash (id : NodeId)
  /-- The node crashes when it has done the first `done` effects of a handler. -/
  | crashIn (source : Source C) (done : ℕ)
  | lose (k : ℕ)

/-- The reply channel of a client command. -/
def ClientCommands.reply : ClientCommands C → Sender
  | .apply _ reply | .isLeader reply | .getLog reply | .getLogEntry _ reply
  | .getStatus reply => reply

/-- `raft.rs`: the branches of the `select!` in `launch`. -/
def RaftNode.handle [RaftStateMachine S C O] (self : RaftNode C O S) :
    Input C → Except Panic (RaftNode C O S)
  | .electionTimeout => self.becomeCandidate
  | .heartbeat => self.onHeartbeat
  | .command command => self.clientCommand command
  | .message fromId message => self.handleMessage fromId message

namespace Cluster

/-- One effect of node `id`. -/
def performOne (s : Cluster C O S) (id : NodeId) (e : Effect C O S) : Cluster C O S :=
  let s := { s with trace := s.trace ++ [(id, e)] }
  match e with
  | .save state => { s with storage := Function.update s.storage id (some state) }
  | .send toId message => { s with network := s.network ++ [⟨id, toId, message⟩] }
  | _ => s

/-- The effects of node `id`, in order. -/
def perform (s : Cluster C O S) (id : NodeId) (es : List (Effect C O S)) : Cluster C O S :=
  es.foldl (fun s e => s.performOne id e) s

/-- Every node has started on an empty storage. -/
def init (ids : List NodeId) (machine : S) : Cluster C O S where
  node id := RaftNode.new id ids machine none
  storage _ := none
  network := []
  trace := []
  nextReply := 0

/-- Node `id` starts again on what its storage holds. -/
def restart (ids : List NodeId) (machine : S) (s : Cluster C O S) (id : NodeId) :
    Cluster C O S :=
  { s with node := Function.update s.node id (RaftNode.new id ids machine (s.storage id)) }

/-- The input that a source offers, with the node it is for and the cluster it is taken
from. The guards are those of `launch` and the bound on terms. -/
def offer (ids : List NodeId) (s : Cluster C O S) :
    Source C → Option (NodeId × Input C × Cluster C O S)
  | .electionTimeout id =>
    if id ∈ ids ∧ (s.node id).role.isLeader = false ∧ (s.node id).currentTerm + 1 < u64Max then
      some (id, .electionTimeout, s)
    else none
  | .heartbeat id =>
    if id ∈ ids ∧ (s.node id).role.isLeader = true then some (id, .heartbeat, s) else none
  | .command id command =>
    if id ∈ ids ∧ command.reply = s.nextReply then
      some (id, .command command, { s with nextReply := s.nextReply + 1 })
    else none
  | .deliver k =>
    match s.network[k]? with
    | some env =>
      some (env.toId, .message env.fromId env.message,
        { s with network := s.network.eraseIdx k })
    | none => none

variable [RaftStateMachine S C O]

/-- Node `id` has handled its input and waits for the next one. -/
def settle (s : Cluster C O S) (id : NodeId) (node : RaftNode C O S) : Cluster C O S :=
  let s := s.perform id node.effects
  { s with node := Function.update s.node id { node with effects := [] } }

/-- The cluster after an action, if the action is possible. -/
def exec (ids : List NodeId) (machine : S) (s : Cluster C O S) :
    Action C → Option (Cluster C O S)
  | .run source =>
    match s.offer ids source with
    | some (id, input, s) =>
      match (s.node id).handle input with
      | .ok node => some (s.settle id node)
      | .error _ => none
    | none => none
  | .crash id => if id ∈ ids then some (s.restart ids machine id) else none
  | .crashIn source done =>
    match s.offer ids source with
    | some (id, input, s) =>
      match (s.node id).handle input with
      | .ok node => some ((s.perform id (node.effects.take done)).restart ids machine id)
      | .error _ => none
    | none => none
  | .lose k =>
    if k < s.network.length then some { s with network := s.network.eraseIdx k } else none

/-- A list of actions, one after the other. -/
def run (ids : List NodeId) (machine : S) (s : Cluster C O S) :
    List (Action C) → Option (Cluster C O S)
  | [] => some s
  | a :: as =>
    match s.exec ids machine a with
    | some s' => s'.run ids machine as
    | none => none

/-- The step relation. -/
def Step (ids : List NodeId) (machine : S) (s s' : Cluster C O S) : Prop :=
  ∃ a, s.exec ids machine a = some s'

/-- `s'` is reached from `s`. -/
abbrev Steps (ids : List NodeId) (machine : S) : Cluster C O S → Cluster C O S → Prop :=
  Relation.ReflTransGen (Step ids machine)

/-- The states of the runs. -/
def Reachable (ids : List NodeId) (machine : S) (s : Cluster C O S) : Prop :=
  Steps ids machine (init ids machine) s

/-! ### What a step can do -/

omit [RaftStateMachine S C O] in
/-- The ways an input can be offered. -/
theorem offer_cases {ids : List NodeId} {s u : Cluster C O S} {source : Source C} {i : NodeId}
    {input : Input C} (h : s.offer ids source = some (i, input, u)) :
    (source = .electionTimeout i ∧ input = .electionTimeout ∧ i ∈ ids ∧
        (s.node i).role.isLeader = false ∧ (s.node i).currentTerm + 1 < u64Max ∧ u = s) ∨
      (source = .heartbeat i ∧ input = .heartbeat ∧ i ∈ ids ∧
        (s.node i).role.isLeader = true ∧ u = s) ∨
      (∃ command, source = .command i command ∧ input = .command command ∧ i ∈ ids ∧
        command.reply = s.nextReply ∧ u = { s with nextReply := s.nextReply + 1 }) ∨
      (∃ k env, source = .deliver k ∧ s.network[k]? = some env ∧ i = env.toId ∧
        input = .message env.fromId env.message ∧
        u = { s with network := s.network.eraseIdx k }) := by
  cases source with
  | electionTimeout id =>
    simp only [offer] at h
    split at h
    · next hguard =>
      obtain ⟨rfl, rfl, rfl⟩ := by simpa only [Option.some.injEq, Prod.mk.injEq] using h
      exact Or.inl ⟨rfl, rfl, hguard.1, hguard.2.1, hguard.2.2, rfl⟩
    · exact absurd h (by simp)
  | heartbeat id =>
    simp only [offer] at h
    split at h
    · next hguard =>
      obtain ⟨rfl, rfl, rfl⟩ := by simpa only [Option.some.injEq, Prod.mk.injEq] using h
      exact Or.inr (Or.inl ⟨rfl, rfl, hguard.1, hguard.2, rfl⟩)
    · exact absurd h (by simp)
  | command id command =>
    simp only [offer] at h
    split at h
    · next hguard =>
      obtain ⟨rfl, rfl, rfl⟩ := by simpa only [Option.some.injEq, Prod.mk.injEq] using h
      exact Or.inr (Or.inr (Or.inl ⟨command, rfl, rfl, hguard.1, hguard.2, rfl⟩))
    · exact absurd h (by simp)
  | deliver k =>
    simp only [offer] at h
    cases hk : s.network[k]? with
    | none =>
      rw [hk] at h
      exact absurd h (by simp)
    | some env =>
      rw [hk] at h
      obtain ⟨rfl, rfl, rfl⟩ := by simpa only [Option.some.injEq, Prod.mk.injEq] using h
      exact Or.inr (Or.inr (Or.inr ⟨k, env, rfl, hk, rfl, rfl, rfl⟩))

/-- The ways a cluster can step. -/
theorem exec_cases {ids : List NodeId} {machine : S} {s t : Cluster C O S} {action : Action C}
    (h : s.exec ids machine action = some t) :
    (∃ source i input u node, action = .run source ∧ s.offer ids source = some (i, input, u) ∧
        (u.node i).handle input = .ok node ∧ t = u.settle i node) ∨
      (∃ i, action = .crash i ∧ i ∈ ids ∧ t = s.restart ids machine i) ∨
      (∃ source done i input u node, action = .crashIn source done ∧
        s.offer ids source = some (i, input, u) ∧ (u.node i).handle input = .ok node ∧
        t = (u.perform i (node.effects.take done)).restart ids machine i) ∨
      (∃ k, action = .lose k ∧ k < s.network.length ∧
        t = { s with network := s.network.eraseIdx k }) := by
  cases action with
  | run source =>
    simp only [exec] at h
    split at h
    · next i input u ho =>
      split at h
      · next node hnode =>
        exact Or.inl ⟨source, i, input, u, node, rfl, ho, hnode, (Option.some.inj h).symm⟩
      · exact absurd h (by simp)
    · exact absurd h (by simp)
  | crash i =>
    simp only [exec] at h
    split at h
    · next hi => exact Or.inr (Or.inl ⟨i, rfl, hi, (Option.some.inj h).symm⟩)
    · exact absurd h (by simp)
  | crashIn source done =>
    simp only [exec] at h
    split at h
    · next i input u ho =>
      split at h
      · next node hnode =>
        exact Or.inr (Or.inr (Or.inl
          ⟨source, done, i, input, u, node, rfl, ho, hnode, (Option.some.inj h).symm⟩))
      · exact absurd h (by simp)
    · exact absurd h (by simp)
  | lose k =>
    simp only [exec] at h
    split at h
    · next hk => exact Or.inr (Or.inr (Or.inr ⟨k, rfl, hk, (Option.some.inj h).symm⟩))
    · exact absurd h (by simp)

theorem steps_of_run {ids : List NodeId} {machine : S} :
    ∀ {as : List (Action C)} {s s' : Cluster C O S}, s.run ids machine as = some s' →
      Steps ids machine s s' := by
  intro as
  induction as with
  | nil =>
    intro s s' h
    obtain rfl := Option.some.inj h
    exact Relation.ReflTransGen.refl
  | cons a as ih =>
    intro s s' h
    unfold run at h
    cases he : s.exec ids machine a with
    | none => rw [he] at h; exact absurd h (by simp)
    | some t =>
      rw [he] at h
      exact (Relation.ReflTransGen.single ⟨a, he⟩).trans (ih h)

end Cluster

end Raft
end KvRaft
