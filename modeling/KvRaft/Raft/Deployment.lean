import KvRaft.Channel.Bounded
import KvRaft.Raft.Cluster

/-!
# Nodes with their channels

`Cluster` puts the messages in flight into one pool. Here is the way they take. A node hands a
message to the worker of the peer (`init_transport_workers`) through a channel of 128 messages,
and drops it when the channel is full. The worker takes one message at a time and sends it with
the `MemoryNetwork` of the example: it looks up the handle of the peer, and waits until there is
room in the channel of that handle, until the node behind it is gone or until the time is up.
The node takes the oldest envelope of its channel when `select!` chooses to. Client commands
come through a channel of their own.

A node that is killed leaves its channels closed. Its workers are tasks of their own: they go on
with what they were handed (`kill_node` of the example aborts the task of the node only), unless
the process has died. A node that is launched again has new channels and new workers; a worker
may still hold the handle of the node that was there before.
-/

namespace KvRaft
namespace Raft

variable {C O S : Type}

/-- `mpsc::channel(128)`. -/
def channelCapacity : ℕ := 128

/-- `message.rs`: `RaftEnvelope`. -/
structure RaftEnvelope (C : Type) where
  fromId : NodeId
  message : RaftMessage C
  deriving DecidableEq

/-- `raft_handle.rs`: what the methods of `RaftHandle` send. The reply channel has no name as
long as the command waits. -/
inductive ClientCall (C : Type)
  | apply (command : C)
  | isLeader
  | log
  | logEntry (index : ℕ)
  | status
  deriving DecidableEq

/-- The command of a call, with its reply channel. -/
def ClientCall.command (reply : Sender) : ClientCall C → ClientCommands C
  | .apply command => .apply command reply
  | .isLeader => .isLeader reply
  | .log => .getLog reply
  | .logEntry index => .getLogEntry index reply
  | .status => .getStatus reply

/-! ### Workers -/

/-- `raft.rs`: one of the tasks of `init_transport_workers`. -/
structure Worker (C : Type) where
  /-- The channel behind `transport_work`. -/
  queue : Channel channelCapacity (RaftMessage C)
  /-- The message that is being sent. It has found a handle, that of a start of the peer, or
  has not looked for one yet. -/
  sending : Option (RaftMessage C × Option ℕ)

namespace Worker

/-- A worker that was just spawned. -/
def new : Worker C := ⟨Channel.empty, none⟩

/-- The messages a worker has, oldest first. -/
def pending (self : Worker C) : List (RaftMessage C) :=
  (self.sending.map Prod.fst).toList ++ self.queue.queue

/-- `rx.recv()`. -/
def take (self : Worker C) : Option (Worker C) :=
  match self.sending, self.queue.recv with
  | none, some (message, queue) => some ⟨queue, some (message, none)⟩
  | _, _ => none

/-- `main.rs`: the first half of `MemoryNetwork::send`. A node without a handle is unavailable,
and the message is dropped. -/
def resolve (self : Worker C) (handle : Option ℕ) : Option (Worker C) :=
  match self.sending with
  | some (message, none) =>
    some { self with sending := handle.map fun start => (message, some start) }
  | _ => none

/-- `send` has failed or has timed out. -/
def giveUp (self : Worker C) : Option (Worker C) :=
  match self.sending with
  | some _ => some { self with sending := none }
  | none => none

/-- `main.rs`: the second half of `MemoryNetwork::send`: the channel of the handle, that of start
`start`, takes the message. -/
def deliver (self : Worker C) (fromId : NodeId) (start : ℕ)
    (receiver : Channel channelCapacity (RaftEnvelope C)) :
    Option (Worker C × Channel channelCapacity (RaftEnvelope C)) :=
  match self.sending with
  | some (message, some handle) =>
    if handle = start then
      (receiver.trySend ⟨fromId, message⟩).map fun receiver =>
        ({ self with sending := none }, receiver)
    else none
  | _ => none

end Worker

/-! ### Deployments -/

/-- Nodes, their channels and workers, and the network between them. -/
structure Deployment (C O S : Type) where
  /-- The nodes that are running. -/
  node : NodeId → Option (RaftNode C O S)
  /-- How often each node was launched. -/
  starts : NodeId → ℕ
  storage : NodeId → Option (PersistentState C)
  messageReceiver : NodeId → Channel channelCapacity (RaftEnvelope C)
  commandReceiver : NodeId → Channel channelCapacity (ClientCall C)
  /-- The workers of each start of a node, one for each peer. -/
  worker : NodeId → ℕ → NodeId → Worker C
  /-- `MemoryNetwork::nodes`: of which start of a node the network has the handle. -/
  nodes : NodeId → Option ℕ
  trace : List (NodeId × Effect C O S)
  /-- The name of the next reply channel. -/
  nextReply : Sender

/-- The branches of the `select!` in `launch`. -/
inductive Branch
  | electionTimeout
  | heartbeat
  | message
  | command

/-- What happens next. -/
inductive Activity (C : Type)
  /-- `RaftNode::new` and `launch`. -/
  | launch (id : NodeId)
  | addNode (id : NodeId) (start : ℕ)
  | removeNode (id : NodeId)
  /-- A client command is in the channel of the node. -/
  | call (id : NodeId) (call : ClientCall C)
  | turn (id : NodeId) (branch : Branch)
  /-- The node is gone while it waits, with its workers or without them. -/
  | kill (id : NodeId) (workers : Bool)
  /-- The node is gone after the first `done` effects of a handler. -/
  | killIn (id : NodeId) (branch : Branch) (done : ℕ) (workers : Bool)
  | take (fromId : NodeId) (start : ℕ) (toId : NodeId)
  | resolve (fromId : NodeId) (start : ℕ) (toId : NodeId)
  | deliver (fromId : NodeId) (start : ℕ) (toId : NodeId)
  | giveUp (fromId : NodeId) (start : ℕ) (toId : NodeId)

namespace Deployment

/-- Nothing was launched yet. -/
def init : Deployment C O S where
  node _ := none
  starts _ := 0
  storage _ := none
  messageReceiver _ := Channel.empty
  commandReceiver _ := Channel.empty
  worker _ _ _ := Worker.new
  nodes _ := none
  trace := []
  nextReply := 0

/-- One worker is replaced. -/
def setWorker (d : Deployment C O S) (fromId : NodeId) (start : ℕ) (toId : NodeId)
    (worker : Worker C) : Deployment C O S :=
  { d with
    worker := Function.update d.worker fromId
      (Function.update (d.worker fromId) start
        (Function.update (d.worker fromId start) toId worker)) }

/-- `raft.rs`: `send_message`, from the channel on: `try_send` to the worker of the peer. -/
def sendMessage (d : Deployment C O S) (id toId : NodeId) (message : RaftMessage C) :
    Deployment C O S :=
  let worker := d.worker id (d.starts id) toId
  d.setWorker id (d.starts id) toId { worker with queue := worker.queue.offer message }

/-- One effect of node `id`. -/
def performOne (d : Deployment C O S) (id : NodeId) (e : Effect C O S) : Deployment C O S :=
  let d := { d with trace := d.trace ++ [(id, e)] }
  match e with
  | .save state => { d with storage := Function.update d.storage id (some state) }
  | .send toId message => d.sendMessage id toId message
  | _ => d

/-- The effects of node `id`, in order. -/
def perform (d : Deployment C O S) (id : NodeId) (es : List (Effect C O S)) : Deployment C O S :=
  es.foldl (fun d e => d.performOne id e) d

/-- The node is gone: its channels are closed and what was in them is lost. -/
def stop (d : Deployment C O S) (id : NodeId) (workers : Bool) : Deployment C O S :=
  { d with
    node := Function.update d.node id none
    messageReceiver := Function.update d.messageReceiver id Channel.empty
    commandReceiver := Function.update d.commandReceiver id Channel.empty
    worker := if workers then Function.update d.worker id fun _ _ => Worker.new else d.worker }

/-- Node `id` starts on what its storage holds. -/
def start (ids : List NodeId) (machine : S) (d : Deployment C O S) (id : NodeId) :
    Deployment C O S :=
  { d with
    node := Function.update d.node id (some (RaftNode.new id ids machine (d.storage id)))
    starts := Function.update d.starts id (d.starts id + 1) }

/-- What a branch of `select!` gives the node, if the branch is ready. -/
def receive (d : Deployment C O S) (id : NodeId) (node : RaftNode C O S) :
    Branch → Option (Input C × Deployment C O S)
  | .electionTimeout =>
    if node.role.isLeader = false ∧ node.currentTerm + 1 < u64Max then some (.electionTimeout, d)
    else none
  | .heartbeat => if node.role.isLeader = true then some (.heartbeat, d) else none
  | .message =>
    match (d.messageReceiver id).recv with
    | some (envelope, receiver) =>
      some (.message envelope.fromId envelope.message,
        { d with messageReceiver := Function.update d.messageReceiver id receiver })
    | none => none
  | .command =>
    match (d.commandReceiver id).recv with
    | some (call, receiver) =>
      some (.command (call.command d.nextReply), { d with
        commandReceiver := Function.update d.commandReceiver id receiver
        nextReply := d.nextReply + 1 })
    | none => none

/-- A running node with what the branch gives it. -/
def select (d : Deployment C O S) (id : NodeId) (branch : Branch) :
    Option (RaftNode C O S × Input C × Deployment C O S) :=
  match d.node id with
  | some node => (d.receive id node branch).map fun x => (node, x)
  | none => none

variable [RaftStateMachine S C O]

/-- Node `id` has handled its input. -/
def settle (d : Deployment C O S) (id : NodeId) (node : RaftNode C O S) : Deployment C O S :=
  let d := d.perform id node.effects
  { d with node := Function.update d.node id (some { node with effects := [] }) }

/-- The deployment after an activity, if the activity is possible. -/
def exec (ids : List NodeId) (machine : S) (d : Deployment C O S) :
    Activity C → Option (Deployment C O S)
  | .launch id => if id ∈ ids ∧ (d.node id).isNone then some (d.start ids machine id) else none
  | .addNode id start =>
    if 0 < start ∧ start ≤ d.starts id then
      some { d with nodes := Function.update d.nodes id (some start) }
    else none
  | .removeNode id => some { d with nodes := Function.update d.nodes id none }
  | .call id call =>
    if (d.node id).isSome then
      ((d.commandReceiver id).trySend call).map fun receiver =>
        { d with commandReceiver := Function.update d.commandReceiver id receiver }
    else none
  | .turn id branch =>
    match d.select id branch with
    | some (node, input, d) =>
      match node.handle input with
      | .ok node => some (d.settle id node)
      | .error _ => none
    | none => none
  | .kill id workers => if (d.node id).isSome then some (d.stop id workers) else none
  | .killIn id branch done workers =>
    match d.select id branch with
    | some (node, input, d) =>
      match node.handle input with
      | .ok node => some ((d.perform id (node.effects.take done)).stop id workers)
      | .error _ => none
    | none => none
  | .take fromId start toId =>
    (d.worker fromId start toId).take.map (d.setWorker fromId start toId)
  | .resolve fromId start toId =>
    ((d.worker fromId start toId).resolve (d.nodes toId)).map (d.setWorker fromId start toId)
  | .deliver fromId start toId =>
    if (d.node toId).isSome then
      ((d.worker fromId start toId).deliver fromId (d.starts toId) (d.messageReceiver toId)).map
        fun x => { d.setWorker fromId start toId x.1 with
          messageReceiver := Function.update d.messageReceiver toId x.2 }
    else none
  | .giveUp fromId start toId =>
    (d.worker fromId start toId).giveUp.map (d.setWorker fromId start toId)

/-- A list of activities, one after the other. -/
def run (ids : List NodeId) (machine : S) (d : Deployment C O S) :
    List (Activity C) → Option (Deployment C O S)
  | [] => some d
  | activity :: activities =>
    match d.exec ids machine activity with
    | some d' => d'.run ids machine activities
    | none => none

/-- Any number of activities, each of which meets the condition `K`. -/
def Runs (ids : List NodeId) (machine : S) (K : Deployment C O S → Activity C → Prop) :
    Deployment C O S → Deployment C O S → Prop :=
  Relation.ReflTransGen fun d d' => ∃ activity, K d activity ∧
    d.exec ids machine activity = some d'

end Deployment

end Raft
end KvRaft
