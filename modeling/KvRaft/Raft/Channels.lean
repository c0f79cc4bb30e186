import KvRaft.Raft.Deployment
import KvRaft.Raft.Safety
import Mathlib.Algebra.BigOperators.Group.Finset.Basic
import Mathlib.Algebra.Order.BigOperators.Group.Finset
import Mathlib.Data.Multiset.OrderedMonoid
import Mathlib.Tactic.Abel

/-!
# The channels are a pool of messages

Every activity of a deployment is a step of the cluster or nothing at all: taking, resolving,
delivering and giving up move or lose messages on their way, and a turn of a node delivers one of
them. What is on the way from one node to another (`Deployment.link`) is always part of what the
cluster has in flight between the two (`Deployment.Refines`). The cluster may have more: it still
keeps what the channels have lost. So nothing is sent twice, nothing is altered on the way and
everything has its true sender, although each message passes through two channels, a task and a
table of handles, and nodes are killed and launched again meanwhile.
-/

namespace KvRaft
namespace Raft

variable {C O S : Type}

/-! ### What is on its way -/

/-- The message of an envelope from `i` to `j`. -/
def Envelope.along (i j : NodeId) (envelope : Envelope C) : Option (RaftMessage C) :=
  if envelope.fromId = i ∧ envelope.toId = j then some envelope.message else none

/-- The messages in flight from `i` to `j`. -/
def Cluster.link (s : Cluster C O S) (i j : NodeId) : Multiset (RaftMessage C) :=
  ↑(s.network.filterMap (Envelope.along i j))

/-- The messages from `i` in the channel of `j`, oldest first. -/
def Deployment.arrived (d : Deployment C O S) (i j : NodeId) : List (RaftMessage C) :=
  (d.messageReceiver j).queue.filterMap fun envelope =>
    Envelope.along i j ⟨envelope.fromId, j, envelope.message⟩

/-- The messages on their way from `i` to `j`: those in the channel of `j` and those that the
workers of `i` for `j` have. -/
def Deployment.link (d : Deployment C O S) (i j : NodeId) : Multiset (RaftMessage C) :=
  ↑(d.arrived i j) + ∑ n ∈ Finset.range (d.starts i + 1), ↑(d.worker i n j).pending

/-- The cluster that a deployment is. -/
structure Deployment.Refines (ids : List NodeId) (machine : S) (d : Deployment C O S)
    (s : Cluster C O S) : Prop where
  /-- A node that is not running is one that will start on its storage. -/
  node : ∀ i, s.node i = (d.node i).getD (RaftNode.new i ids machine (d.storage i))
  storage : s.storage = d.storage
  trace : s.trace = d.trace
  nextReply : s.nextReply = d.nextReply
  mem : ∀ i, (d.node i).isSome → i ∈ ids
  fresh : ∀ i n j, d.starts i < n → d.worker i n j = Worker.new
  link : ∀ i j, d.link i j ≤ s.link i j

/-- The branch of `select!` that a node takes. -/
def Activity.branch : Activity C → Option (NodeId × Branch)
  | .turn id branch | .killIn id branch _ _ => some (id, branch)
  | _ => none

/-- Where the input of an action comes from. -/
def Action.source : Action C → Option (Source C)
  | .run source | .crashIn source _ => some source
  | _ => none

variable {ids : List NodeId} {machine : S} {d d' : Deployment C O S} {s : Cluster C O S}
  {i j : NodeId} {n : ℕ} {w w' : Worker C}

/-! ### Workers -/

theorem Worker.take_pending (h : w.take = some w') : w'.pending = w.pending := by
  rcases w with ⟨queue, _ | sending⟩
  · cases hrecv : queue.recv with
    | none => exact absurd h (by simp [Worker.take, hrecv])
    | some x =>
      obtain ⟨message, rest⟩ := x
      simp only [Worker.take, hrecv, Option.some.injEq] at h
      subst h
      exact (Channel.queue_of_recv hrecv).symm
  · exact absurd h (by simp [Worker.take])

theorem Worker.resolve_pending {handle : Option ℕ} (h : w.resolve handle = some w') :
    w'.pending.Sublist w.pending := by
  rcases w with ⟨queue, _ | ⟨message, _ | start⟩⟩
  · exact absurd h (by simp [Worker.resolve])
  · simp only [Worker.resolve, Option.some.injEq] at h
    subst h
    cases handle with
    | none => exact List.sublist_cons_self _ _
    | some start => exact List.Sublist.refl _
  · exact absurd h (by simp [Worker.resolve])

theorem Worker.giveUp_pending (h : w.giveUp = some w') : w'.pending.Sublist w.pending := by
  rcases w with ⟨queue, _ | ⟨message, handle⟩⟩
  · exact absurd h (by simp [Worker.giveUp])
  · simp only [Worker.giveUp, Option.some.injEq] at h
    subst h
    exact List.sublist_cons_self _ _

/-- A delivery moves the oldest message of the worker to the end of the channel of the peer. -/
theorem Worker.deliver_pending {start : ℕ}
    {receiver receiver' : Channel channelCapacity (RaftEnvelope C)}
    (h : w.deliver i start receiver = some (w', receiver')) :
    ∃ message, w.pending = message :: w'.pending ∧
      receiver'.queue = receiver.queue ++ [⟨i, message⟩] := by
  rcases w with ⟨queue, _ | ⟨message, _ | handle⟩⟩
  · exact absurd h (by simp [Worker.deliver])
  · exact absurd h (by simp [Worker.deliver])
  · simp only [Worker.deliver] at h
    split at h
    · obtain ⟨receiver'', hsend, heq⟩ := Option.map_eq_some_iff.mp h
      obtain ⟨rfl, rfl⟩ := Prod.mk.inj heq
      exact ⟨message, rfl, Channel.queue_of_trySend hsend⟩
    · exact absurd h (by simp)

/-- A new worker has nothing to go on with. -/
theorem Worker.take_new : (Worker.new : Worker C).take = none := rfl

theorem Worker.pending_new : (Worker.new : Worker C).pending = [] := rfl

/-- What a worker is handed comes last, or is refused. -/
theorem Worker.pending_offer (w : Worker C) (message : RaftMessage C) :
    ({ w with queue := w.queue.offer message } : Worker C).pending = w.pending ++ [message] ∨
      ({ w with queue := w.queue.offer message } : Worker C).pending = w.pending := by
  rcases w.queue.offer_cases message with h | h
  · left
    rw [Worker.pending, Worker.pending, h, List.append_assoc]
  · right
    rw [Worker.pending, Worker.pending, h]

/-! ### One worker is replaced -/

namespace Deployment

theorem setWorker_worker (d : Deployment C O S) (i : NodeId) (n : ℕ) (j : NodeId) (w : Worker C)
    (i' : NodeId) (n' : ℕ) (j' : NodeId) : (d.setWorker i n j w).worker i' n' j' =
      if i' = i ∧ n' = n ∧ j' = j then w else d.worker i' n' j' := by
  unfold setWorker
  dsimp only
  by_cases hi : i' = i
  · subst hi
    by_cases hn : n' = n
    · subst hn
      by_cases hj : j' = j
      · subst hj
        simp
      · simp [hj]
    · simp [hn]
  · simp [hi]

/-- What the link gains or loses by it is what the worker does. -/
theorem setWorker_link (d : Deployment C O S) (hn : n ≤ d.starts i) (j : NodeId) (w : Worker C) :
    (d.setWorker i n j w).link i j + ↑(d.worker i n j).pending = d.link i j + ↑w.pending := by
  have hmem : n ∈ Finset.range (d.starts i + 1) := Finset.mem_range.mpr (Nat.lt_succ_of_le hn)
  have hrest : ∑ k ∈ (Finset.range (d.starts i + 1)).erase n,
      (↑((d.setWorker i n j w).worker i k j).pending : Multiset (RaftMessage C)) =
        ∑ k ∈ (Finset.range (d.starts i + 1)).erase n, ↑(d.worker i k j).pending := by
    refine Finset.sum_congr rfl fun k hk => ?_
    rw [setWorker_worker, if_neg fun h => Finset.ne_of_mem_erase hk h.2.1]
  have hself : (d.setWorker i n j w).worker i n j = w := by
    rw [setWorker_worker, if_pos ⟨rfl, rfl, rfl⟩]
  change (↑(d.arrived i j) + ∑ k ∈ Finset.range (d.starts i + 1),
      (↑((d.setWorker i n j w).worker i k j).pending : Multiset (RaftMessage C))) + _ = _
  rw [← Finset.add_sum_erase _ _ hmem, hself, hrest, Deployment.link,
    ← Finset.add_sum_erase _ (fun k => (↑(d.worker i k j).pending : Multiset (RaftMessage C))) hmem]
  abel

theorem setWorker_link_of_ne (d : Deployment C O S) (w : Worker C) {i' j' : NodeId}
    (h : ¬ (i' = i ∧ j' = j)) : (d.setWorker i n j w).link i' j' = d.link i' j' := by
  refine congrArg _ (Finset.sum_congr rfl fun k _ => ?_)
  rw [setWorker_worker, if_neg fun hsame => h ⟨hsame.1, hsame.2.2⟩]

/-- A worker that has lost messages. -/
theorem setWorker_link_le (d : Deployment C O S) (hn : n ≤ d.starts i)
    (h : w.pending.Sublist (d.worker i n j).pending) (i' j' : NodeId) :
    (d.setWorker i n j w).link i' j' ≤ d.link i' j' := by
  by_cases hsame : i' = i ∧ j' = j
  · obtain ⟨rfl, rfl⟩ := hsame
    rw [← add_le_add_iff_right (↑(d.worker i' n j').pending : Multiset (RaftMessage C)),
      d.setWorker_link hn]
    exact add_le_add_right (Multiset.coe_le.mpr h.subperm) _
  · exact (d.setWorker_link_of_ne w hsame).le

end Deployment

/-! ### Effects and deliveries -/

theorem Envelope.along_self (i j : NodeId) (message : RaftMessage C) :
    Envelope.along i j ⟨i, j, message⟩ = some message :=
  if_pos ⟨rfl, rfl⟩

theorem Envelope.along_of_ne {i j i' j' : NodeId} (h : ¬ (i' = i ∧ j' = j))
    (message : RaftMessage C) : Envelope.along i' j' ⟨i, j, message⟩ = none :=
  if_neg fun hsame => h ⟨hsame.1.symm, hsame.2.symm⟩

theorem Cluster.link_append (s : Cluster C O S) (envelope : Envelope C) (i j : NodeId) :
    ({ s with network := s.network ++ [envelope] } : Cluster C O S).link i j =
      s.link i j + ↑(envelope.along i j).toList := by
  unfold Cluster.link
  rw [List.filterMap_append, ← Multiset.coe_add]
  cases h : envelope.along i j <;> simp [h]

/-- A message leaves the pool. -/
theorem Cluster.link_eraseIdx (s : Cluster C O S) {k : ℕ} {envelope : Envelope C}
    (hk : s.network[k]? = some envelope) (i j : NodeId) :
    ↑(envelope.along i j).toList +
        ({ s with network := s.network.eraseIdx k } : Cluster C O S).link i j = s.link i j := by
  obtain ⟨hlt, rfl⟩ := List.getElem?_eq_some_iff.mp hk
  have hperm : (s.network[k] :: s.network.eraseIdx k).Perm s.network :=
    List.getElem_cons_eraseIdx_perm hlt
  unfold Cluster.link
  rw [← Multiset.coe_eq_coe.mpr (hperm.filterMap (Envelope.along i j))]
  cases h : s.network[k].along i j <;> simp [h]

namespace Deployment

theorem arrived_push {receiver : Channel channelCapacity (RaftEnvelope C)}
    {message : RaftMessage C} (hqueue : receiver.queue = (d.messageReceiver j).queue ++ [⟨i, message⟩])
    (i' j' : NodeId) : arrived { d with
        messageReceiver := Function.update d.messageReceiver j receiver } i' j' =
      d.arrived i' j' ++ (Envelope.along i' j' ⟨i, j, message⟩).toList := by
  unfold arrived
  dsimp only
  by_cases hj : j' = j
  · subst hj
    rw [Function.update_self, hqueue, List.filterMap_append]
    cases h : Envelope.along i' j' ⟨i, j', message⟩ <;> simp [h]
  · rw [Function.update_of_ne hj, Envelope.along_of_ne fun h => hj h.2]
    simp

/-- **A delivery** changes nothing between sender and receiver but where the message is. -/
theorem deliver_link {receiver : Channel channelCapacity (RaftEnvelope C)} {message : RaftMessage C}
    (hn : n ≤ d.starts i) (hpending : (d.worker i n j).pending = message :: w.pending)
    (hqueue : receiver.queue = (d.messageReceiver j).queue ++ [⟨i, message⟩]) (i' j' : NodeId) :
    Deployment.link { d.setWorker i n j w with
      messageReceiver := Function.update d.messageReceiver j receiver } i' j' = d.link i' j' := by
  have hpush := arrived_push (d := d.setWorker i n j w) hqueue i' j'
  have hlink : Deployment.link { d.setWorker i n j w with
      messageReceiver := Function.update d.messageReceiver j receiver } i' j' =
        (d.setWorker i n j w).link i' j' + ↑(Envelope.along i' j' ⟨i, j, message⟩).toList := by
    unfold Deployment.link
    rw [show arrived { d.setWorker i n j w with
      messageReceiver := Function.update d.messageReceiver j receiver } i' j' = _ from hpush,
      ← Multiset.coe_add, add_right_comm]
  rw [hlink]
  by_cases hsame : i' = i ∧ j' = j
  · obtain ⟨rfl, rfl⟩ := hsame
    have hwas := d.setWorker_link hn j' w
    rw [hpending, ← Multiset.cons_coe, ← Multiset.singleton_add, ← add_assoc] at hwas
    rw [Envelope.along_self]
    exact add_right_cancel hwas
  · rw [d.setWorker_link_of_ne w hsame, Envelope.along_of_ne hsame]
    simp

/-- A message that is handed to a worker is on its way, or lost. -/
theorem sendMessage_link (d : Deployment C O S) (i j : NodeId) (message : RaftMessage C)
    (i' j' : NodeId) : (d.sendMessage i j message).link i' j' ≤
      d.link i' j' + ↑(Envelope.along i' j' ⟨i, j, message⟩).toList := by
  by_cases hsame : i' = i ∧ j' = j
  · obtain ⟨rfl, rfl⟩ := hsame
    rw [Envelope.along_self, ← add_le_add_iff_right
      (↑(d.worker i' (d.starts i') j').pending : Multiset (RaftMessage C)), sendMessage,
      d.setWorker_link le_rfl, add_assoc]
    refine add_le_add_right (Multiset.coe_le.mpr ?_) _
    rcases (d.worker i' (d.starts i') j').pending_offer message with h | h
    · rw [h]
      exact (List.perm_append_comm).subperm
    · rw [h]
      exact (List.sublist_cons_self _ _).subperm
  · rw [Envelope.along_of_ne hsame]
    exact (d.setWorker_link_of_ne _ hsame).le.trans (by simp)

/-- Replacing a worker of the last start keeps later ones new. -/
theorem fresh_setWorker (hfresh : ∀ i n j, d.starts i < n → d.worker i n j = Worker.new)
    (hn : n ≤ d.starts i) (w : Worker C) (i' : NodeId) (n' : ℕ) (j' : NodeId)
    (h : d.starts i' < n') : (d.setWorker i n j w).worker i' n' j' = Worker.new := by
  rw [setWorker_worker, if_neg ?_]
  · exact hfresh i' n' j' h
  · rintro ⟨rfl, rfl, -⟩
    exact absurd h hn.not_gt

theorem Refines.performOne (h : d.Refines ids machine s) (hi : (d.node i).isSome)
    (e : Effect C O S) : (d.performOne i e).Refines ids machine (s.performOne i e) := by
  have htrace : s.trace ++ [(i, e)] = d.trace ++ [(i, e)] := congrArg (· ++ _) h.trace
  cases e with
  | save state =>
    refine ⟨fun k => ?_, congrArg (Function.update · i _) h.storage, htrace, h.nextReply, h.mem,
      h.fresh, h.link⟩
    by_cases hk : k = i
    · subst hk
      obtain ⟨node, hnode⟩ := Option.isSome_iff_exists.mp hi
      have hsame : s.node k = node := by rw [h.node, hnode, Option.getD_some]
      change s.node k = (d.node k).getD _
      rw [hnode, hsame, Option.getD_some]
    · change s.node k = (d.node k).getD (RaftNode.new k ids machine
        (Function.update d.storage i (some state) k))
      rw [Function.update_of_ne hk]
      exact h.node k
  | send j message =>
    refine ⟨h.node, h.storage, htrace, h.nextReply, h.mem,
      fresh_setWorker h.fresh le_rfl _, fun i' j' => ?_⟩
    refine (sendMessage_link _ i j message i' j').trans ?_
    change _ ≤ Cluster.link { s with network := s.network ++ [⟨i, j, message⟩] } i' j'
    rw [Cluster.link_append]
    exact add_le_add_left (h.link i' j') _
  | _ => exact ⟨h.node, h.storage, htrace, h.nextReply, h.mem, h.fresh, h.link⟩

theorem performOne_node (d : Deployment C O S) (i : NodeId) (e : Effect C O S) :
    (d.performOne i e).node = d.node := by
  cases e <;> rfl

theorem perform_node (d : Deployment C O S) (i : NodeId) (es : List (Effect C O S)) :
    (d.perform i es).node = d.node := by
  induction es generalizing d with
  | nil => rfl
  | cons e es ih => exact (ih (d.performOne i e)).trans (d.performOne_node i e)

theorem Refines.perform (h : d.Refines ids machine s) (hi : (d.node i).isSome)
    (es : List (Effect C O S)) : (d.perform i es).Refines ids machine (s.perform i es) := by
  induction es generalizing d s with
  | nil => exact h
  | cons e es ih =>
    refine ih (h.performOne hi e) ?_
    rw [performOne_node]
    exact hi

/-! ### Nodes that come and go -/

/-- **A node that is gone** is one that will start on its storage. -/
theorem Refines.stop (h : d.Refines ids machine s) (i : NodeId) (workers : Bool) :
    (d.stop i workers).Refines ids machine (s.restart ids machine i) := by
  refine ⟨fun k => ?_, h.storage, h.trace, h.nextReply, fun k hk => ?_, fun i' n j hn => ?_,
    fun i' j => ?_⟩
  · by_cases hk : k = i
    · subst hk
      change Function.update s.node k _ k = (Function.update d.node k none k).getD _
      rw [Function.update_self, Function.update_self, h.storage]
      rfl
    · change Function.update s.node i _ k = (Function.update d.node i none k).getD _
      rw [Function.update_of_ne hk, Function.update_of_ne hk]
      exact h.node k
  · refine h.mem k ?_
    by_cases hki : k = i
    · subst hki
      exact absurd hk (by simp [Deployment.stop])
    · simpa [Deployment.stop, hki] using hk
  · have hnew : d.worker i' n j = Worker.new := h.fresh i' n j hn
    cases workers with
    | false => exact hnew
    | true =>
      change Function.update d.worker i (fun _ _ => Worker.new) i' n j = Worker.new
      by_cases hi : i' = i
      · rw [hi, Function.update_self]
      · rwa [Function.update_of_ne hi]
  · refine le_trans (add_le_add (Multiset.coe_le.mpr ?_) (Finset.sum_le_sum fun n _ => ?_))
      (h.link i' j)
    · -- the channel of the node is empty
      refine List.Sublist.subperm (List.Sublist.filterMap _ ?_)
      change (Function.update d.messageReceiver i Channel.empty j).queue.Sublist _
      by_cases hj : j = i
      · rw [hj, Function.update_self]
        exact List.nil_sublist _
      · rw [Function.update_of_ne hj]
    · cases workers with
      | false => exact le_rfl
      | true =>
        change (↑(Function.update d.worker i (fun _ _ => Worker.new) i' n j).pending :
          Multiset (RaftMessage C)) ≤ _
        by_cases hi : i' = i
        · rw [hi, Function.update_self, Worker.pending_new]
          exact Multiset.zero_le _
        · rw [Function.update_of_ne hi]

/-- A node that starts finds what it would have started on before. -/
theorem Refines.start (h : d.Refines ids machine s) (hi : i ∈ ids) (hnode : (d.node i).isNone) :
    (d.start ids machine i).Refines ids machine s := by
  have hstarts : ∀ k, (d.start ids machine i).starts k = if k = i then d.starts i + 1 else d.starts k :=
    fun k => by
      change Function.update d.starts i (d.starts i + 1) k = _
      by_cases hk : k = i
      · rw [hk, Function.update_self, if_pos rfl]
      · rw [Function.update_of_ne hk, if_neg hk]
  refine ⟨fun k => ?_, h.storage, h.trace, h.nextReply, fun k hk => ?_, fun i' n j hn => ?_,
    fun i' j => ?_⟩
  · change s.node k = (Function.update d.node i (some _) k).getD _
    by_cases hk : k = i
    · subst hk
      rw [Function.update_self, h.node k, Option.isNone_iff_eq_none.mp hnode]
      rfl
    · rw [Function.update_of_ne hk]
      exact h.node k
  · by_cases hki : k = i
    · exact hki ▸ hi
    · exact h.mem k (by simpa [Deployment.start, hki] using hk)
  · refine h.fresh i' n j (lt_of_le_of_lt ?_ hn)
    rw [hstarts]
    split
    · next hsame => exact hsame ▸ Nat.le_succ _
    · exact le_rfl
  · -- the workers of the new start have nothing yet
    refine le_of_eq_of_le ?_ (h.link i' j)
    unfold Deployment.link
    rw [hstarts]
    split
    · next hsame =>
      subst hsame
      rw [Finset.sum_range_succ]
      change _ + (_ + (↑(d.worker i' (d.starts i' + 1) j).pending : Multiset (RaftMessage C))) = _
      rw [h.fresh i' _ j (Nat.lt_succ_self _), Worker.pending_new, Multiset.coe_nil, add_zero]
      rfl
    · rfl

theorem Refines.setNode (h : d.Refines ids machine s) (hi : i ∈ ids) (node : RaftNode C O S) :
    Refines ids machine { d with node := Function.update d.node i (some node) }
      { s with node := Function.update s.node i node } := by
  refine ⟨fun k => ?_, h.storage, h.trace, h.nextReply, fun k hk => ?_, h.fresh, h.link⟩
  · change Function.update s.node i node k = (Function.update d.node i (some node) k).getD _
    by_cases hk : k = i
    · subst hk
      rw [Function.update_self, Function.update_self]
      rfl
    · rw [Function.update_of_ne hk, Function.update_of_ne hk]
      exact h.node k
  · by_cases hki : k = i
    · exact hki ▸ hi
    · exact h.mem k (by simpa [hki] using hk)

theorem Refines.settle (h : d.Refines ids machine s) (hi : (d.node i).isSome)
    (node : RaftNode C O S) : (d.settle i node).Refines ids machine (s.settle i node) :=
  (h.perform hi node.effects).setNode (h.mem i hi) _

/-- A worker that has something to send belongs to a start there was. -/
theorem Refines.start_le (h : d.Refines ids machine s) (hw : d.worker i n j ≠ Worker.new) :
    n ≤ d.starts i :=
  not_lt.mp fun hlt => hw (h.fresh i n j hlt)

/-! ### Inputs -/

theorem select_eq_some {branch : Branch} {node : RaftNode C O S} {input : Input C}
    (hsel : d.select i branch = some (node, input, d')) :
    d.node i = some node ∧ d.receive i node branch = some (input, d') := by
  unfold select at hsel
  cases hnode : d.node i with
  | none =>
    rw [hnode] at hsel
    exact absurd hsel (by simp)
  | some node' =>
    rw [hnode] at hsel
    obtain ⟨x, hx, heq⟩ := Option.map_eq_some_iff.mp hsel
    obtain ⟨rfl, rfl⟩ := Prod.mk.inj heq
    exact ⟨rfl, hx⟩

/-- The ways a branch is ready. -/
theorem receive_cases {branch : Branch} {node : RaftNode C O S} {input : Input C}
    (h : d.receive i node branch = some (input, d')) :
    (input = .electionTimeout ∧ node.role.isLeader = false ∧ node.currentTerm + 1 < u64Max ∧
        d' = d) ∨
      (input = .heartbeat ∧ node.role.isLeader = true ∧ d' = d) ∨
      (∃ envelope receiver, (d.messageReceiver i).queue = envelope :: receiver.queue ∧
        input = .message envelope.fromId envelope.message ∧
        d' = { d with messageReceiver := Function.update d.messageReceiver i receiver }) ∨
      (∃ call receiver, input = .command (ClientCall.command d.nextReply call) ∧ d' = { d with
        commandReceiver := Function.update d.commandReceiver i receiver
        nextReply := d.nextReply + 1 }) := by
  cases branch with
  | electionTimeout =>
    simp only [receive] at h
    split at h
    · next hguard =>
      obtain ⟨rfl, rfl⟩ := Prod.mk.inj (Option.some.inj h)
      exact Or.inl ⟨rfl, hguard.1, hguard.2, rfl⟩
    · exact absurd h (by simp)
  | heartbeat =>
    simp only [receive] at h
    split at h
    · next hguard =>
      obtain ⟨rfl, rfl⟩ := Prod.mk.inj (Option.some.inj h)
      exact Or.inr (Or.inl ⟨rfl, hguard, rfl⟩)
    · exact absurd h (by simp)
  | message =>
    simp only [receive] at h
    cases hrecv : (d.messageReceiver i).recv with
    | none =>
      rw [hrecv] at h
      exact absurd h (by simp)
    | some x =>
      rw [hrecv] at h
      obtain ⟨rfl, rfl⟩ := Prod.mk.inj (Option.some.inj h)
      exact Or.inr (Or.inr (Or.inl ⟨x.1, x.2, Channel.queue_of_recv hrecv, rfl, rfl⟩))
  | command =>
    simp only [receive] at h
    cases hrecv : (d.commandReceiver i).recv with
    | none =>
      rw [hrecv] at h
      exact absurd h (by simp)
    | some x =>
      rw [hrecv] at h
      obtain ⟨rfl, rfl⟩ := Prod.mk.inj (Option.some.inj h)
      exact Or.inr (Or.inr (Or.inr ⟨x.1, x.2, rfl, rfl⟩))

/-- The oldest envelope of a channel leaves it. -/
theorem link_recv (d : Deployment C O S) {envelope : RaftEnvelope C}
    {receiver : Channel channelCapacity (RaftEnvelope C)}
    (hqueue : (d.messageReceiver i).queue = envelope :: receiver.queue) (i' j' : NodeId) :
    ↑(Envelope.along i' j' ⟨envelope.fromId, i, envelope.message⟩).toList +
        Deployment.link { d with
          messageReceiver := Function.update d.messageReceiver i receiver } i' j' =
      d.link i' j' := by
  unfold Deployment.link
  rw [← add_assoc]
  refine congrArg (· + _) ?_
  unfold arrived
  dsimp only
  by_cases hj : j' = i
  · subst hj
    rw [Function.update_self, hqueue, List.filterMap_cons]
    cases Envelope.along i' j' ⟨envelope.fromId, j', envelope.message⟩ <;> simp
  · rw [Function.update_of_ne hj, Envelope.along_of_ne fun h => hj h.2]
    simp

/-- **An input of a node is one that the cluster offers.** -/
theorem Refines.select (h : d.Refines ids machine s) {branch : Branch} {node : RaftNode C O S}
    {input : Input C} (hsel : d.select i branch = some (node, input, d')) :
    ∃ source u, s.offer ids source = some (i, input, u) ∧ d'.Refines ids machine u ∧
      u.node i = node ∧ d'.node i = some node := by
  obtain ⟨hnode, hreceive⟩ := select_eq_some hsel
  have hi : i ∈ ids := h.mem i (by rw [hnode]; rfl)
  have hsame : s.node i = node := by rw [h.node, hnode, Option.getD_some]
  rcases receive_cases hreceive with ⟨rfl, hlead, hterm, rfl⟩ | ⟨rfl, hlead, rfl⟩ |
    ⟨envelope, receiver, hqueue, rfl, rfl⟩ | ⟨call, receiver, rfl, rfl⟩
  · refine ⟨.electionTimeout i, s, ?_, h, hsame, hnode⟩
    rw [Cluster.offer, hsame, if_pos ⟨hi, hlead, hterm⟩]
  · refine ⟨.heartbeat i, s, ?_, h, hsame, hnode⟩
    rw [Cluster.offer, hsame, if_pos ⟨hi, hlead⟩]
  · -- the message is on the link, so the cluster has it in flight
    have hmem : envelope.message ∈ s.link envelope.fromId i := by
      refine Multiset.mem_of_le (h.link envelope.fromId i) ?_
      rw [← d.link_recv hqueue, Envelope.along_self]
      simp
    obtain ⟨env, henv, halong⟩ := List.mem_filterMap.mp (Multiset.mem_coe.mp hmem)
    obtain ⟨k, hlt, rfl⟩ := List.mem_iff_getElem.mp henv
    have hk : s.network[k]? = some s.network[k] := List.getElem?_eq_getElem hlt
    unfold Envelope.along at halong
    split at halong
    · next hends =>
      have hmessage : s.network[k].message = envelope.message := Option.some.inj halong
      have hsame' : s.network[k] = ⟨envelope.fromId, i, envelope.message⟩ := by
        rw [← hends.1, ← hends.2, ← hmessage]
      refine ⟨.deliver k, { s with network := s.network.eraseIdx k }, ?_, ?_, hsame, hnode⟩
      · rw [Cluster.offer, hk, hsame']
      · refine ⟨h.node, h.storage, h.trace, h.nextReply, h.mem, h.fresh, fun i' j' => ?_⟩
        rw [← add_le_add_iff_left (↑(Envelope.along i' j'
          ⟨envelope.fromId, i, envelope.message⟩).toList : Multiset (RaftMessage C)),
          d.link_recv hqueue, ← hsame', s.link_eraseIdx hk]
        exact h.link i' j'
    · exact absurd halong (by simp)
  · have hreply : (call.command d.nextReply).reply = s.nextReply := by
      rw [h.nextReply]
      cases call <;> rfl
    refine ⟨.command i (call.command d.nextReply), { s with nextReply := s.nextReply + 1 }, ?_, ?_,
      hsame, hnode⟩
    · rw [Cluster.offer, if_pos ⟨hi, hreply⟩]
    · exact ⟨h.node, h.storage, h.trace, congrArg (· + 1) h.nextReply, h.mem, h.fresh, h.link⟩

/-! ### Steps -/

section Steps

variable [RaftStateMachine S C O] {activity : Activity C}

/-- The ways a deployment goes on. -/
inductive Move (ids : List NodeId) (machine : S) (d : Deployment C O S) (activity : Activity C) :
    Deployment C O S → Prop
  | launch (i : NodeId) (hactivity : activity = .launch i) (hi : i ∈ ids)
    (hnode : (d.node i).isNone) : Move ids machine d activity (d.start ids machine i)
  /-- The table of handles or a client. -/
  | outside (nodes : NodeId → Option ℕ)
    (commandReceiver : NodeId → Channel channelCapacity (ClientCall C)) :
    Move ids machine d activity { d with nodes, commandReceiver }
  | turn (i : NodeId) (branch : Branch) (node node' : RaftNode C O S) (input : Input C)
    (d₁ : Deployment C O S) (hactivity : activity = .turn i branch)
    (hsel : d.select i branch = some (node, input, d₁)) (hnode : node.handle input = .ok node') :
    Move ids machine d activity (d₁.settle i node')
  | kill (i : NodeId) (workers : Bool) (hnode : (d.node i).isSome) :
    Move ids machine d activity (d.stop i workers)
  | killIn (i : NodeId) (branch : Branch) (done : ℕ) (workers : Bool) (node node' : RaftNode C O S)
    (input : Input C) (d₁ : Deployment C O S)
    (hactivity : activity = .killIn i branch done workers)
    (hsel : d.select i branch = some (node, input, d₁)) (hnode : node.handle input = .ok node') :
    Move ids machine d activity ((d₁.perform i (node'.effects.take done)).stop i workers)
  /-- A worker goes on, and may lose a message. -/
  | worker (i : NodeId) (n : ℕ) (j : NodeId) (w : Worker C)
    (hwas : d.worker i n j ≠ Worker.new) (hpending : w.pending.Sublist (d.worker i n j).pending) :
    Move ids machine d activity (d.setWorker i n j w)
  | deliver (i : NodeId) (n : ℕ) (j : NodeId) (w : Worker C)
    (receiver : Channel channelCapacity (RaftEnvelope C)) (message : RaftMessage C)
    (hnode : (d.node j).isSome) (hpending : (d.worker i n j).pending = message :: w.pending)
    (hqueue : receiver.queue = (d.messageReceiver j).queue ++ [⟨i, message⟩]) :
    Move ids machine d activity { d.setWorker i n j w with
      messageReceiver := Function.update d.messageReceiver j receiver }

/-- **The inversion lemma.** -/
theorem move_of_exec (h : d.exec ids machine activity = some d') : Move ids machine d activity d' := by
  cases activity with
  | launch id =>
    simp only [exec] at h
    split at h
    · next hguard => exact Option.some.inj h ▸ .launch id rfl hguard.1 hguard.2
    · exact absurd h (by simp)
  | addNode id start =>
    simp only [exec] at h
    split at h
    · exact Option.some.inj h ▸ .outside _ _
    · exact absurd h (by simp)
  | removeNode id => exact Option.some.inj h ▸ .outside _ _
  | call id call =>
    simp only [exec] at h
    split at h
    · obtain ⟨receiver, -, rfl⟩ := Option.map_eq_some_iff.mp h
      exact .outside _ _
    · exact absurd h (by simp)
  | turn id branch =>
    simp only [exec] at h
    split at h
    · next node input d₁ hsel =>
      split at h
      · next node' hnode =>
        exact Option.some.inj h ▸ .turn id branch node node' input d₁ rfl hsel hnode
      · exact absurd h (by simp)
    · exact absurd h (by simp)
  | kill id workers =>
    simp only [exec] at h
    split at h
    · next hnode => exact Option.some.inj h ▸ .kill id workers hnode
    · exact absurd h (by simp)
  | killIn id branch done workers =>
    simp only [exec] at h
    split at h
    · next node input d₁ hsel =>
      split at h
      · next node' hnode =>
        exact Option.some.inj h ▸
          .killIn id branch done workers node node' input d₁ rfl hsel hnode
      · exact absurd h (by simp)
    · exact absurd h (by simp)
  | take i n j =>
    obtain ⟨w, hw, rfl⟩ := Option.map_eq_some_iff.mp h
    refine .worker i n j w (fun hnew => ?_) (by rw [Worker.take_pending hw])
    rw [hnew, Worker.take_new] at hw
    exact absurd hw (by simp)
  | resolve i n j =>
    obtain ⟨w, hw, rfl⟩ := Option.map_eq_some_iff.mp h
    refine .worker i n j w (fun hnew => ?_) (Worker.resolve_pending hw)
    rw [hnew] at hw
    exact absurd hw (by simp [Worker.new, Worker.resolve])
  | giveUp i n j =>
    obtain ⟨w, hw, rfl⟩ := Option.map_eq_some_iff.mp h
    refine .worker i n j w (fun hnew => ?_) (Worker.giveUp_pending hw)
    rw [hnew] at hw
    exact absurd hw (by simp [Worker.new, Worker.giveUp])
  | deliver i n j =>
    simp only [exec] at h
    split at h
    · next hnode =>
      obtain ⟨⟨w, receiver⟩, hw, rfl⟩ := Option.map_eq_some_iff.mp h
      obtain ⟨message, hpending, hqueue⟩ := Worker.deliver_pending hw
      exact .deliver i n j w receiver message hnode hpending hqueue
    · exact absurd h (by simp)

/-- **An activity is a step of the cluster or nothing**, and a node that takes a branch gets the
input that the cluster offers. -/
theorem Refines.step (h : d.Refines ids machine s) (hact : d.exec ids machine activity = some d') :
    ∃ s', d'.Refines ids machine s' ∧ (s' = s ∨ ∃ action, s.exec ids machine action = some s' ∧
      ∀ source, action.source = some source → ∃ i branch node input d₁ u,
        activity.branch = some (i, branch) ∧ d.select i branch = some (node, input, d₁) ∧
          s.offer ids source = some (i, input, u) ∧ u.node i = node) := by
  cases move_of_exec hact with
  | launch i hactivity hi hnode => exact ⟨s, h.start hi hnode, Or.inl rfl⟩
  | outside nodes commandReceiver =>
    exact ⟨s, ⟨h.node, h.storage, h.trace, h.nextReply, h.mem, h.fresh, h.link⟩, Or.inl rfl⟩
  | turn i branch node node' input d₁ hactivity hsel hnode =>
    obtain ⟨source, u, ho, hu, hun, hd₁⟩ := h.select hsel
    refine ⟨_, hu.settle (by rw [hd₁]; rfl) node', Or.inr ⟨.run source, ?_, ?_⟩⟩
    · simp only [Cluster.exec, ho, hun, hnode]
    · rintro source' hsource
      obtain rfl := Option.some.inj hsource
      exact ⟨i, branch, node, input, d₁, u, by rw [hactivity]; rfl, hsel, ho, hun⟩
  | kill i workers hnode =>
    refine ⟨_, h.stop i workers, Or.inr ⟨.crash i, if_pos (h.mem i hnode), ?_⟩⟩
    exact fun source hsource => absurd hsource (by simp [Action.source])
  | killIn i branch done workers node node' input d₁ hactivity hsel hnode =>
    obtain ⟨source, u, ho, hu, hun, hd₁⟩ := h.select hsel
    refine ⟨_, (hu.perform (by rw [hd₁]; rfl) (node'.effects.take done)).stop i workers,
      Or.inr ⟨.crashIn source done, ?_, ?_⟩⟩
    · simp only [Cluster.exec, ho, hun, hnode]
    · rintro source' hsource
      obtain rfl := Option.some.inj hsource
      exact ⟨i, branch, node, input, d₁, u, by rw [hactivity]; rfl, hsel, ho, hun⟩
  | worker i n j w hwas hpending =>
    have hn := h.start_le hwas
    exact ⟨s, ⟨h.node, h.storage, h.trace, h.nextReply, h.mem,
      fresh_setWorker h.fresh hn w, fun i' j' =>
        (d.setWorker_link_le hn hpending i' j').trans (h.link i' j')⟩, Or.inl rfl⟩
  | deliver i n j w receiver message hnode hpending hqueue =>
    have hn := h.start_le (i := i) (n := n) (j := j) fun hnew => by
      rw [hnew, Worker.pending_new] at hpending
      exact absurd hpending (by simp)
    exact ⟨s, ⟨h.node, h.storage, h.trace, h.nextReply, h.mem,
      fresh_setWorker h.fresh hn w, fun i' j' =>
        (deliver_link hn hpending hqueue i' j').le.trans (h.link i' j')⟩, Or.inl rfl⟩

omit [RaftStateMachine S C O] in
/-- Before anything was launched, every node is one that will start on an empty storage. -/
theorem Refines.init (ids : List NodeId) (machine : S) :
    (Deployment.init : Deployment C O S).Refines ids machine (Cluster.init ids machine) := by
  refine ⟨fun _ => rfl, rfl, rfl, rfl, fun _ hi => absurd hi (by simp [Deployment.init]),
    fun _ _ _ _ => rfl, fun i j => ?_⟩
  simp [Deployment.link, arrived, Deployment.init, Worker.pending_new]

/-- **The channels are a pool of messages.** Whatever nodes are launched, killed and registered,
whatever the workers do and whichever branches `select!` takes: the nodes, their storages and
everything they have done are those of a run of the cluster, and every message that is somewhere
between two nodes is in flight between them in that run. -/
theorem channels_refine {K : Deployment C O S → Activity C → Prop}
    (h : Runs ids machine K init d) :
    ∃ s, Cluster.Reachable ids machine s ∧ d.Refines ids machine s := by
  induction h with
  | refl => exact ⟨_, Relation.ReflTransGen.refl, Refines.init ids machine⟩
  | tail _ hstep ih =>
    obtain ⟨s, hs, href⟩ := ih
    obtain ⟨activity, -, hact⟩ := hstep
    obtain ⟨s', href', rfl | ⟨action, hstep, -⟩⟩ := href.step hact
    · exact ⟨_, hs, href'⟩
    · exact ⟨s', hs.tail ⟨action, hstep⟩, href'⟩

/-- Activities that are possible one after the other are a run. -/
theorem runs_of_run {K : Deployment C O S → Activity C → Prop} :
    ∀ {activities : List (Activity C)} {d d' : Deployment C O S},
      (∀ d, ∀ activity ∈ activities, K d activity) → d.run ids machine activities = some d' →
        Runs ids machine K d d' := by
  intro activities
  induction activities with
  | nil =>
    intro d d' _ h
    obtain rfl := Option.some.inj h
    exact Relation.ReflTransGen.refl
  | cons activity activities ih =>
    intro d d' hK h
    unfold run at h
    cases hact : d.exec ids machine activity with
    | none =>
      rw [hact] at h
      exact absurd h (by simp)
    | some d₁ =>
      rw [hact] at h
      refine (Relation.ReflTransGen.single ⟨activity, hK d _ List.mem_cons_self, hact⟩).trans
        (ih (fun d a ha => hK d a (List.mem_cons_of_mem _ ha)) h)

end Steps

/-! ### A command that takes the way through the channels -/

/-- The oldest message of the worker of the first start of `i` for `j` comes to `j`, which
handles it. -/
def hop (i j : NodeId) : List (Activity ℕ) :=
  [.take i 1 j, .resolve i 1 j, .deliver i 1 j, .turn j .message]

/-- Node 2 elects node 1, which then gets a command and commits it. Node 3 is killed and launched
again, and the network never gets a handle of it. -/
def oneCommand : List (Activity ℕ) :=
  [.launch 1, .launch 2, .launch 3, .addNode 1 1, .addNode 2 1, .turn 1 .electionTimeout] ++
    hop 1 2 ++ hop 2 1 ++ [.kill 3 false, .launch 3] ++ hop 1 2 ++ hop 2 1 ++
    [.call 1 (.apply 7), .turn 1 .command] ++ hop 1 2 ++ hop 2 1

theorem channels_refine_oneCommand : ∃ (d : Deployment ℕ ℕ Counter) (s : Cluster ℕ ℕ Counter),
    init.run [1, 2, 3] ⟨0⟩ oneCommand = some d ∧
      (Cluster.Reachable [1, 2, 3] ⟨0⟩ s ∧ d.Refines [1, 2, 3] ⟨0⟩ s) ∧
      (d.node 1).map RaftNode.stateMachine = some ⟨7⟩ ∧ d.starts 3 = 2 := by
  have hend : ((init : Deployment ℕ ℕ Counter).run [1, 2, 3] ⟨0⟩ oneCommand).map (fun d =>
      ((d.node 1).map RaftNode.stateMachine, d.starts 3)) = some (some ⟨7⟩, 2) := by
    decide +kernel
  obtain ⟨d, hd, hend⟩ := Option.map_eq_some_iff.mp hend
  obtain ⟨hvalue, hstarts⟩ := Prod.mk.inj hend
  obtain ⟨s, hs⟩ := channels_refine (runs_of_run (K := fun _ _ => True) (fun _ _ _ => trivial) hd)
  exact ⟨d, s, hd, hs, hvalue, hstarts⟩

end Deployment

end Raft
end KvRaft
