import KvRaft.Example.StateMachine
import KvRaft.Raft.Channels

/-!
# The example program

The nodes of `example/src/main.rs` as they run: every node with a database of its own, the
channels and the workers between them, and the table of handles. A run of the program is a run
of the cluster (`Deployment.Refines.step`) and the cluster is a map (`replicated_map`), so the
clients of the program see one linearizable map (`deployed_map`).

What the cluster asks of a run is asked of the program in its own terms: no node that takes an
`AppendRequest` from its channel cuts its log at or below a pending key
(`Deployment.KeepsPending`).
-/

namespace KvRaft

namespace Raft

variable {C O S : Type} {ids : List NodeId} {machine : S} {d d' : Deployment C O S}
  {s : Cluster C O S} {activity : Activity C}

/-- No node takes a request that cuts its log at or below a pending key. -/
def Deployment.KeepsPending (d : Deployment C O S) (activity : Activity C) : Prop :=
  ∀ i branch node p msg d₁, activity.branch = some (i, branch) →
    d.select i branch = some (node, .message p (.appendRequest msg), d₁) → node.KeepsPending msg

variable [RaftStateMachine S C O]

end Raft

namespace Example

open Kv Ordered Raft History

/-- The build and the enumeration of a first run. -/
def Enumeration.inOrder : Enumeration := ⟨fun _ l => l, fun _ l => List.Perm.refl l⟩

end Example
end KvRaft
