import KvRaft.Effect.Result
import KvRaft.Raft.AnswerOrder
import KvRaft.Raft.Channels
import KvRaft.Raft.MatchIndex

/-!
# Messages do not overtake each other

What a node sends to a peer takes one lane: the channel of one worker, the worker, the channel of
the peer. Messages are lost on it, but none overtakes another, as long as a node is not launched
again before the workers of its earlier starts are done (`Deployment.Drained`).

This is the order that `progress_iff_in_order` asks for. For a leader of term `T` and a peer, put
what the leader knows, the answers on their way to it and the requests on their way to the peer
into one line. Whatever stands in the line for an index of the leader's log (`reported`) has
nothing behind it that stands for a smaller one, and nothing that will be a refusal of term `T`
(`InLine`). The turn of the peer replaces a request by its answer, in the same place: it does not
refuse a request once anything before it was accepted, because the requests probe no further
than what it has acknowledged. So the maps of a leader never go back
(`progress_over_channels`), although nothing in `append_response` prevents it.
-/

namespace KvRaft
namespace Raft

open TermLog

variable {C O S : Type}

/-! ### Lanes -/

/-- The messages from `i` to `j` that the last start of `i` has sent or that have arrived,
oldest first. -/
def Deployment.lane (d : Deployment C O S) (i j : NodeId) : List (RaftMessage C) :=
  d.arrived i j ++ (d.worker i (d.starts i) j).pending

/-- If a node is launched, its workers of earlier starts are done. -/
def Deployment.Drained (d : Deployment C O S) (activity : Activity C) : Prop :=
  ∀ i, activity = .launch i → ∀ n j, (d.worker i n j).pending = []

/-- Only the workers of the last starts have messages. -/
def Deployment.Lone (d : Deployment C O S) : Prop :=
  ∀ i n j, n < d.starts i → (d.worker i n j).pending = []

/-- The message that an effect sends to `j`. -/
def Effect.messageTo (j : NodeId) : Effect C O S → Option (RaftMessage C)
  | .send k message => if k = j then some message else none
  | _ => none

variable {ids : List NodeId} {machine : S} {d d' d₁ : Deployment C O S} {s : Cluster C O S}
  {i j : NodeId} {n : ℕ} {w : Worker C} {message : RaftMessage C} {activity : Activity C}

theorem Effect.messageTo_eq_some {e : Effect C O S} :
    e.messageTo j = some message ↔ e = .send j message := by
  cases e with
  | send k m =>
    by_cases hk : k = j
    · simp [messageTo, hk]
    · simp [messageTo, hk]
  | _ => simp [messageTo]

namespace Deployment

theorem mem_link_of_pending (hn : n ≤ d.starts i) (h : message ∈ (d.worker i n j).pending) :
    message ∈ d.link i j := by
  refine Multiset.mem_add.mpr (Or.inr ?_)
  exact Multiset.mem_of_le (Finset.single_le_sum
    (f := fun n => (↑(d.worker i n j).pending : Multiset (RaftMessage C)))
    (fun _ _ => Multiset.zero_le _) (Finset.mem_range.mpr (Nat.lt_succ_of_le hn))) h

theorem mem_link_of_mem_lane (h : message ∈ d.lane i j) : message ∈ d.link i j := by
  rcases List.mem_append.mp h with h | h
  · exact Multiset.mem_add.mpr (Or.inl h)
  · exact mem_link_of_pending le_rfl h

/-- What is on its way is in flight. -/
theorem Refines.mem_network (h : d.Refines ids machine s) (hmem : message ∈ d.link i j) :
    ⟨i, j, message⟩ ∈ s.network := by
  have hlink := Multiset.mem_of_le (h.link i j) hmem
  obtain ⟨envelope, henv, halong⟩ := List.mem_filterMap.mp (Multiset.mem_coe.mp hlink)
  unfold Envelope.along at halong
  split at halong
  · next hends =>
    rwa [← hends.1, ← hends.2, ← Option.some.inj halong]
  · exact absurd halong (by simp)

/-- A worker that may have lost messages. -/
theorem setWorker_lane (h : w.pending.Sublist (d.worker i n j).pending) (i' j' : NodeId) :
    ((d.setWorker i n j w).lane i' j').Sublist (d.lane i' j') := by
  refine List.Sublist.append (List.Sublist.refl _) ?_
  change ((d.setWorker i n j w).worker i' (d.starts i') j').pending.Sublist _
  rw [setWorker_worker]
  split
  · next hsame =>
    obtain ⟨rfl, rfl, rfl⟩ := hsame
    exact h
  · exact List.Sublist.refl _

theorem Lone.setWorker (hlone : d.Lone) (h : w.pending.Sublist (d.worker i n j).pending) :
    (d.setWorker i n j w).Lone := by
  intro i' n' j' hn'
  rw [setWorker_worker]
  split
  · next hsame =>
    obtain ⟨rfl, rfl, rfl⟩ := hsame
    exact List.sublist_nil.mp (hlone i' n' j' hn' ▸ h)
  · exact hlone i' n' j' hn'

/-- What is delivered stays in its place. -/
theorem deliver_lane {receiver : Channel channelCapacity (RaftEnvelope C)} (hlone : d.Lone)
    (hn : n ≤ d.starts i) (hpending : (d.worker i n j).pending = message :: w.pending)
    (hqueue : receiver.queue = (d.messageReceiver j).queue ++ [⟨i, message⟩]) (i' j' : NodeId) :
    lane { d.setWorker i n j w with
      messageReceiver := Function.update d.messageReceiver j receiver } i' j' = d.lane i' j' := by
  have hlast : n = d.starts i := by
    refine hn.antisymm (not_lt.mp fun hlt => ?_)
    rw [hlone i n j hlt] at hpending
    exact absurd hpending (by simp)
  subst hlast
  have hpush := arrived_push (d := d.setWorker i (d.starts i) j w) hqueue i' j'
  unfold lane
  rw [show arrived { d.setWorker i (d.starts i) j w with
    messageReceiver := Function.update d.messageReceiver j receiver } i' j' = _ from hpush]
  change d.arrived i' j' ++ _ ++
    ((d.setWorker i (d.starts i) j w).worker i' (d.starts i') j').pending = _
  rw [setWorker_worker]
  by_cases hsame : i' = i ∧ j' = j
  · obtain ⟨rfl, rfl⟩ := hsame
    rw [if_pos ⟨rfl, rfl, rfl⟩, Envelope.along_self, hpending, List.append_assoc]
    rfl
  · rw [if_neg fun h => hsame ⟨h.1, h.2.2⟩, Envelope.along_of_ne hsame]
    simp

/-- What a node sends comes last, or is refused. -/
theorem performOne_lane (d : Deployment C O S) (i : NodeId) (e : Effect C O S) (i' j' : NodeId) :
    ((d.performOne i e).lane i' j').Sublist
      (d.lane i' j' ++ if i' = i then (e.messageTo j').toList else []) := by
  cases e with
  | send j message =>
    change (lane (sendMessage { d with trace := d.trace ++ [(i, .send j message)] } i j message)
      i' j').Sublist _
    unfold sendMessage lane
    dsimp only
    rw [setWorker_worker, List.append_assoc]
    refine List.Sublist.append (List.Sublist.refl _) ?_
    change (if i' = i ∧ d.starts i' = d.starts i ∧ j' = j then _ else
      d.worker i' (d.starts i') j').pending.Sublist _
    split
    · next hsame =>
      obtain ⟨rfl, -, rfl⟩ := hsame
      rw [if_pos rfl, Effect.messageTo, if_pos rfl]
      rcases (d.worker i' (d.starts i') j').pending_offer message with h | h
      · rw [h]
        exact List.Sublist.refl _
      · rw [h]
        exact List.sublist_append_left _ _
    · exact List.sublist_append_left _ _
  | _ => exact List.sublist_append_left _ _

theorem perform_lane (d : Deployment C O S) (i : NodeId) (es : List (Effect C O S))
    (i' j' : NodeId) : ((d.perform i es).lane i' j').Sublist
      (d.lane i' j' ++ if i' = i then es.filterMap (Effect.messageTo j') else []) := by
  induction es generalizing d with
  | nil => exact List.sublist_append_left _ _
  | cons e es ih =>
    refine (ih (d.performOne i e)).trans ?_
    refine ((d.performOne_lane i e i' j').append (List.Sublist.refl _)).trans ?_
    rw [List.append_assoc]
    refine List.Sublist.append (List.Sublist.refl _) ?_
    split
    · rw [List.filterMap_cons]
      cases e.messageTo j' <;> exact List.Sublist.refl _
    · exact List.Sublist.refl _

/-- The lanes of a node that is gone are cut. -/
theorem stop_lane (d : Deployment C O S) (i : NodeId) (workers : Bool) (i' j' : NodeId) :
    ((d.stop i workers).lane i' j').Sublist (d.lane i' j') := by
  refine List.Sublist.append (List.Sublist.filterMap _ ?_) ?_
  · change (Function.update d.messageReceiver i Channel.empty j').queue.Sublist _
    by_cases hj : j' = i
    · rw [hj, Function.update_self]
      exact List.nil_sublist _
    · rw [Function.update_of_ne hj]
  · cases workers with
    | false => exact List.Sublist.refl _
    | true =>
      change (Function.update d.worker i (fun _ _ => Worker.new) i' (d.starts i') j').pending.Sublist _
      by_cases hi : i' = i
      · rw [hi, Function.update_self]
        exact List.nil_sublist _
      · rw [Function.update_of_ne hi]

theorem Lone.stop (hlone : d.Lone) (i : NodeId) (workers : Bool) : (d.stop i workers).Lone := by
  intro i' n j hn
  cases workers with
  | false => exact hlone i' n j hn
  | true =>
    change (Function.update d.worker i (fun _ _ => Worker.new) i' n j).pending = []
    by_cases hi : i' = i
    · rw [hi, Function.update_self]
      rfl
    · rw [Function.update_of_ne hi]
      exact hlone i' n j hn

theorem Lone.performOne (hlone : d.Lone) (i : NodeId) (e : Effect C O S) :
    (d.performOne i e).Lone := by
  cases e with
  | send j message =>
    intro i' n j' hn
    change n < d.starts i' at hn
    change ((Deployment.setWorker _ i (d.starts i) j _).worker i' n j').pending = []
    rw [setWorker_worker, if_neg fun h => absurd (h.1 ▸ h.2.1 ▸ hn) (lt_irrefl _)]
    exact hlone i' n j' hn
  | _ => exact hlone

theorem Lone.perform (hlone : d.Lone) (i : NodeId) (es : List (Effect C O S)) :
    (d.perform i es).Lone := by
  induction es generalizing d with
  | nil => exact hlone
  | cons e es ih => exact ih (hlone.performOne i e)

/-- A new start finds its lanes as they were, if the workers before it are done. -/
theorem start_lane (hfresh : ∀ i n j, d.starts i < n → d.worker i n j = Worker.new)
    (hdone : ∀ n j, (d.worker i n j).pending = []) (i' j' : NodeId) :
    (d.start ids machine i).lane i' j' = d.lane i' j' := by
  refine congrArg (d.arrived i' j' ++ ·) ?_
  change (d.worker i' (Function.update d.starts i (d.starts i + 1) i') j').pending = _
  by_cases hi : i' = i
  · rw [hi, Function.update_self, hfresh i _ j' (Nat.lt_succ_self _), hdone]
    rfl
  · rw [Function.update_of_ne hi]

theorem Lone.start (hlone : d.Lone) (hdone : ∀ n j, (d.worker i n j).pending = []) :
    (d.start ids machine i).Lone := by
  intro i' n j hn
  by_cases hi : i' = i
  · exact hi ▸ hdone n j
  · refine hlone i' n j ?_
    change n < Function.update d.starts i (d.starts i + 1) i' at hn
    rwa [Function.update_of_ne hi] at hn

/-- A node takes the oldest message of the lane that its input comes from. -/
theorem receive_lane {branch : Branch} {node : RaftNode C O S} {input : Input C}
    (h : d.receive j node branch = some (input, d₁)) (i : NodeId) :
    (∃ message, input = .message i message ∧ d.lane i j = message :: d₁.lane i j) ∨
      (∀ message, input ≠ .message i message) ∧ d.lane i j = d₁.lane i j := by
  rcases receive_cases h with ⟨rfl, -, -, rfl⟩ | ⟨rfl, -, rfl⟩ | ⟨envelope, receiver, hqueue, rfl, rfl⟩ |
    ⟨call, receiver, rfl, rfl⟩
  · exact Or.inr ⟨by simp, rfl⟩
  · exact Or.inr ⟨by simp, rfl⟩
  · have harrived : d.arrived i j =
        (Envelope.along i j ⟨envelope.fromId, j, envelope.message⟩).toList ++ arrived { d with
          messageReceiver := Function.update d.messageReceiver j receiver } i j := by
      unfold arrived
      dsimp only
      rw [Function.update_self, hqueue, List.filterMap_cons]
      cases Envelope.along i j ⟨envelope.fromId, j, envelope.message⟩ <;> rfl
    unfold lane
    rw [harrived]
    by_cases hi : envelope.fromId = i
    · subst hi
      rw [Envelope.along_self]
      exact Or.inl ⟨envelope.message, rfl, rfl⟩
    · rw [Envelope.along, if_neg fun h => hi h.1]
      exact Or.inr ⟨fun message heq => hi (Input.message.inj heq).1, rfl⟩
  · exact Or.inr ⟨by simp, rfl⟩

theorem receive_lane_of_ne {branch : Branch} {node : RaftNode C O S} {input : Input C}
    (h : d.receive i node branch = some (input, d₁)) (i' : NodeId) {j' : NodeId} (hj : j' ≠ i) :
    d₁.lane i' j' = d.lane i' j' := by
  rcases receive_cases h with ⟨-, -, -, rfl⟩ | ⟨-, -, rfl⟩ | ⟨envelope, receiver, -, -, rfl⟩ |
    ⟨call, receiver, -, rfl⟩
  · rfl
  · rfl
  · unfold lane arrived
    dsimp only
    rw [Function.update_of_ne hj]
  · rfl

theorem receive_sublist {branch : Branch} {node : RaftNode C O S} {input : Input C}
    (h : d.receive i node branch = some (input, d₁)) (i' j' : NodeId) :
    (d₁.lane i' j').Sublist (d.lane i' j') := by
  by_cases hj : j' = i
  · subst hj
    rcases receive_lane h i' with ⟨message, -, hlane⟩ | ⟨-, hlane⟩
    · rw [hlane]
      exact List.sublist_cons_self _ _
    · rw [hlane]
  · rw [receive_lane_of_ne h i' hj]

theorem receive_node {branch : Branch} {node : RaftNode C O S} {input : Input C}
    (h : d.receive i node branch = some (input, d₁)) : d₁.node = d.node := by
  rcases receive_cases h with ⟨-, -, -, rfl⟩ | ⟨-, -, rfl⟩ | ⟨envelope, receiver, -, -, rfl⟩ |
    ⟨call, receiver, -, rfl⟩ <;> rfl

theorem Lone.receive {branch : Branch} {node : RaftNode C O S} {input : Input C} (hlone : d.Lone)
    (h : d.receive i node branch = some (input, d₁)) : d₁.Lone := by
  rcases receive_cases h with ⟨-, -, -, rfl⟩ | ⟨-, -, rfl⟩ | ⟨envelope, receiver, -, -, rfl⟩ |
    ⟨call, receiver, -, rfl⟩ <;> exact hlone

end Deployment

/-! ### Lines -/

def RaftMessage.isAnswer : RaftMessage C → Bool
  | .appendResponse _ => true
  | _ => false

def RaftMessage.isRequest : RaftMessage C → Bool
  | .appendRequest _ => true
  | _ => false

/-- The index that a success of term `T` reports, or that a request of term `T` covers. -/
def reported (T : ℕ) : RaftMessage C → Option ℕ
  | .appendResponse msg =>
    if msg.term = T ∧ msg.success = true then some msg.matchIndex else none
  | .appendRequest req =>
    if req.term = T then some (req.prevLogIndex + req.entries.length) else none
  | _ => none

theorem reported_answer {T v : ℕ} {msg : AppendResponse} :
    reported T (.appendResponse msg : RaftMessage C) = some v ↔
      msg.term = T ∧ msg.success = true ∧ msg.matchIndex = v := by
  simp [reported, and_assoc]

theorem reported_request {T v : ℕ} {req : AppendRequest C} :
    reported T (.appendRequest req) = some v ↔
      req.term = T ∧ req.prevLogIndex + req.entries.length = v := by
  simp [reported]

/-- A refusal of term `T`, or a request that can only get one. -/
def Refuses (T : ℕ) : RaftMessage C → Prop
  | .appendResponse msg => msg.term = T ∧ msg.success = false
  | .appendRequest req => req.term < T
  | _ => False

/-- `m'` may stand behind `m`. -/
def Before (T : ℕ) (m m' : RaftMessage C) : Prop :=
  ∀ v, reported T m = some v → ¬ Refuses T m' ∧ ∀ v', reported T m' = some v' → v ≤ v'

/-- Nothing in the line has something smaller or a refusal behind it; `len` is the length of the
leader's log. -/
structure InLine (T len : ℕ) (line : List (RaftMessage C)) : Prop where
  ordered : line.Pairwise (Before T)
  bound : ∀ m ∈ line, ∀ v, reported T m = some v → v < len

section InLine

variable {T len len' : ℕ} {line line' before after : List (RaftMessage C)} {q a : RaftMessage C}

theorem InLine.sublist (h : InLine T len line) (hsub : line'.Sublist line) : InLine T len line' :=
  ⟨h.ordered.sublist hsub, fun m hm => h.bound m (hsub.subset hm)⟩

/-- Nothing in the line stands for an index. -/
theorem InLine.of_none (h : ∀ m ∈ line, reported T m = none) : InLine T len line := by
  refine ⟨List.pairwise_of_forall_mem_list fun m hm m' _ v hv => ?_, fun m hm v hv => ?_⟩
  · exact absurd ((h m hm).symm.trans hv) (by simp)
  · exact absurd ((h m hm).symm.trans hv) (by simp)

/-- New requests, which cover the whole log, come last. -/
theorem InLine.append (h : InLine T len line) (hle : len ≤ len')
    (hafter : ∀ m ∈ after, ¬ Refuses T m ∧ ∃ v, reported T m = some v ∧ v + 1 = len') :
    InLine T len' (line ++ after) := by
  have hlast : ∀ m ∈ after, ∀ v, v < len' → ¬ Refuses T m ∧ ∀ v', reported T m = some v' → v ≤ v' := by
    intro m hm v hv
    obtain ⟨hnot, v₀, hv₀, hlen⟩ := hafter m hm
    refine ⟨hnot, fun v' hv' => ?_⟩
    obtain rfl := Option.some.inj (hv₀.symm.trans hv')
    omega
  have hbound : ∀ m ∈ after, ∀ v, reported T m = some v → v < len' := by
    intro m hm v hv
    obtain ⟨-, v₀, hv₀, hlen⟩ := hafter m hm
    obtain rfl := Option.some.inj (hv₀.symm.trans hv)
    omega
  refine ⟨List.pairwise_append.mpr ⟨h.ordered, ?_, fun m hm m' hm' v hv => ?_⟩, fun m hm v hv => ?_⟩
  · exact List.pairwise_of_forall_mem_list fun m hm m' hm' v hv => hlast m' hm' v (hbound m hm v hv)
  · exact hlast m' hm' v ((h.bound m hm v hv).trans_le hle)
  · rcases List.mem_append.mp hm with hm | hm
    · exact (h.bound m hm v hv).trans_le hle
    · exact hbound m hm v hv

/-- **The peer answers**: the answer takes the place of the request. -/
theorem InLine.replace (h : InLine T len (before ++ q :: after))
    (hreported : ∀ v, reported T a = some v → reported T q = some v)
    (hrefuses : Refuses T a → ∀ m ∈ before, reported T m = none) :
    InLine T len (before ++ a :: after) := by
  obtain ⟨hbefore, hrest, hcross⟩ := List.pairwise_append.mp h.ordered
  obtain ⟨hq, hafter⟩ := List.pairwise_cons.mp hrest
  refine ⟨List.pairwise_append.mpr ⟨hbefore, List.pairwise_cons.mpr ⟨fun m hm v hv => ?_, hafter⟩,
    fun m hm m' hm' v hv => ?_⟩, fun m hm v hv => ?_⟩
  · exact hq m hm v (hreported v hv)
  · rcases List.mem_cons.mp hm' with rfl | hm'
    · refine ⟨fun hno => ?_, fun v' hv' => ?_⟩
      · exact absurd ((hrefuses hno m hm).symm.trans hv) (by simp)
      · exact (hcross m hm q List.mem_cons_self v hv).2 v' (hreported v' hv')
    · exact hcross m hm m' (List.mem_cons_of_mem _ hm') v hv
  · rcases List.mem_append.mp hm with hm | hm
    · exact h.bound m (List.mem_append_left _ hm) v hv
    · rcases List.mem_cons.mp hm with rfl | hm
      · exact h.bound q (by simp) v (hreported v hv)
      · exact h.bound m (by simp [hm]) v hv

end InLine

/-! ### Answers and requests of a handler -/

/-- What `append_request` answers, and why it refuses. -/
inductive Responds (node : RaftNode C O S) (req : AppendRequest C) (msg : AppendResponse) : Prop
  | stale (hlt : req.term < node.currentTerm) (hterm : msg.term = node.currentTerm)
    (hsuccess : msg.success = false)
  | accepted (hle : node.currentTerm ≤ req.term) (hterm : msg.term = req.term)
    (hsuccess : msg.success = true)
    (hindex : msg.matchIndex = req.prevLogIndex + req.entries.length)
  | refused (hle : node.currentTerm ≤ req.term) (hterm : msg.term = req.term)
    (hsuccess : msg.success = false)
    (hnot : ¬ Accepts node req)

section Handlers

variable [RaftStateMachine S C O] {node node' : RaftNode C O S} {input : Input C} {p : NodeId}

omit [RaftStateMachine S C O] in
theorem becomeFollower_quiet (node : RaftNode C O S) (term : ℕ) :
    Adds Quiet node (node.becomeFollower term) := by
  unfold RaftNode.becomeFollower
  split
  · exact Adds.one rfl fun _ _ => by simp
  · exact Adds.one rfl fun _ _ => by simp

theorem applyLoop_quiet : ∀ (turns : ℕ) {node node' : RaftNode C O S},
    RaftNode.applyCommittedLoop turns node = .ok node' → Adds Quiet node node'
  | 0, _, _, h => by
    obtain rfl := Except.ok.inj h
    exact Adds.refl _
  | turns + 1, node, node', h => by
    rw [applyCommittedLoop_succ] at h
    obtain ⟨node₁, hone, hrest⟩ := bind_eq_ok.mp h
    refine Adds.trans ?_ (applyLoop_quiet turns hrest)
    obtain ⟨entry, -, ⟨term, -, rfl⟩ | ⟨term, cmd, -, ⟨-, rfl⟩ | ⟨reply, -, rfl⟩⟩⟩ :=
      RaftNode.lastApplied_turn hone
    · exact Adds.one rfl fun _ _ => by simp
    · exact Adds.one rfl fun _ _ => by simp
    · exact ⟨_, List.append_assoc _ _ _, by simp [Quiet]⟩

/-- The tail of `append_request` answers last, and refuses only a log that does not match. -/
theorem appendAtPrev_answers {req : AppendRequest C} (hterm : node.currentTerm = req.term)
    (h : node.appendAtPrev p req = .ok node') : ∃ node₁ msg, Adds Quiet node node₁ ∧
      node' = node₁.sendMessage p (.appendResponse msg) ∧ Responds node req msg := by
  rw [← RaftNode.courseAppendAtPrev_result, RaftNode.courseAppendAtPrev] at h
  split at h
  · next hshort =>
    split at h
    · exact absurd h (by simp)
    · obtain rfl := Except.ok.inj h
      refine ⟨node, _, Adds.refl node, rfl, .refused hterm.le hterm rfl ?_⟩
      rintro ⟨e, he, -⟩
      exact absurd (List.getElem?_eq_some_iff.mp he).1 hshort.not_gt
  split at h
  · exact absurd h (by simp)
  next prev hprev =>
  split at h
  · next hne =>
    obtain rfl := Except.ok.inj h
    refine ⟨node, _, Adds.refl node, rfl, .refused hterm.le hterm rfl ?_⟩
    rintro ⟨e, he, heterm⟩
    obtain rfl := Except.ok.inj (hprev.symm.trans (logAt_of_getElem? he))
    exact hne heterm
  split at h
  · exact absurd h (by simp)
  next m hloop =>
  split at h
  · exact absurd h (by simp)
  -- the log matches: a splice, a save and what is applied come before the answer
  obtain ⟨log, es, rfl, hes⟩ := RaftNode.appendEntries_log _ _ hloop
  obtain ⟨commit, hfollow, -⟩ := followCommit_cases
    { node with log := log, effects := node.effects ++ es } req.leaderCommit
  rw [hfollow, Course.result_andThen, Course.result_visit] at h
  change (Course.andThen _ _).result = _ at h
  rw [Course.result_andThen, RaftNode.courseApply_result] at h
  obtain ⟨node₁, happly, hanswer⟩ := bind_eq_ok.mp h
  obtain ⟨-, hpass⟩ := applyLoop_passes _ happly
  refine ⟨node₁, _, Adds.trans ⟨es ++ [.save _], List.append_assoc node.effects es _, fun e he => ?_⟩
    (applyLoop_quiet _ happly), (Except.ok.inj hanswer).symm,
    .accepted hterm.le (hpass.core.term.trans hterm) rfl rfl⟩
  rcases List.mem_append.mp he with he | he
  · obtain ⟨k, rfl⟩ := hes e he
    exact fun _ _ => by simp
  · rw [List.mem_singleton.mp he]
    exact fun _ _ => by simp

/-- A request that is not stale comes to the tail, in its own term. -/
theorem appendRequest_tail {req : AppendRequest C} (hstale : ¬ req.term < node.currentTerm)
    (h : node.appendRequest p req = .ok node') : ∃ m, Adds Quiet node m ∧ m.log = node.log ∧
      m.currentTerm = req.term ∧ m.appendAtPrev p req = .ok node' := by
  rw [RaftNode.appendRequest, if_neg hstale] at h
  dsimp only at h
  obtain ⟨m, hm, hmterm, hmlog, hmadds⟩ : ∃ m, (if node.currentTerm < req.term then
      node.becomeFollower req.term else node) = m ∧ m.currentTerm = req.term ∧
        m.log = node.log ∧ Adds Quiet node m := by
    split
    · next hlt =>
      have hf := node.becomeFollower_follows req.term
      exact ⟨_, rfl, hf.term.trans (max_eq_right hlt.le), hf.log,
        becomeFollower_quiet _ _⟩
    · next hle => exact ⟨node, rfl, by omega, rfl, Adds.refl node⟩
  rw [hm] at h
  split at h
  · exact absurd h (by simp)
  obtain ⟨m₁, hm₁, hterm₁, hlog₁, hadds₁⟩ : ∃ m₁, (if m.role.isCandidate = true ∧
      req.term = m.currentTerm then m.becomeFollower req.term else m) = m₁ ∧
        m₁.currentTerm = req.term ∧ m₁.log = m.log ∧ Adds Quiet m m₁ := by
    split
    · have hf := m.becomeFollower_follows req.term
      exact ⟨_, rfl, by rw [hf.term, hmterm, max_self], hf.log, becomeFollower_quiet _ _⟩
    · exact ⟨m, rfl, hmterm, rfl, Adds.refl m⟩
  rw [hm₁] at h
  have hadds := hmadds.trans hadds₁
  have hlog := hlog₁.trans hmlog
  split at h
  · exact ⟨{ m₁ with role := .follower (some req.leaderId) }, hadds, hlog, hterm₁, h⟩
  · exact ⟨m₁, hadds, hlog, hterm₁, h⟩

/-- **`append_request` answers once**, after everything else it does. -/
theorem appendRequest_answers {req : AppendRequest C} (h : node.appendRequest p req = .ok node') :
    ∃ node₁ msg, Adds Quiet node node₁ ∧
      node' = node₁.sendMessage p (.appendResponse msg) ∧ Responds node req msg := by
  by_cases hstale : req.term < node.currentTerm
  · rw [RaftNode.appendRequest, if_pos hstale] at h
    exact ⟨node, _, Adds.refl node, (Except.ok.inj h).symm, .stale hstale rfl rfl⟩
  · obtain ⟨m, hadds, hlog, hterm, htail⟩ := appendRequest_tail hstale h
    obtain ⟨node₁, msg, hadds₁, rfl, hresponds⟩ := appendAtPrev_answers hterm htail
    refine ⟨node₁, msg, hadds.trans hadds₁, rfl, ?_⟩
    cases hresponds with
    | stale hlt => exact absurd (hterm ▸ hlt) (lt_irrefl _)
    | accepted _ hmsg hsuccess hindex => exact .accepted (not_lt.mp hstale) hmsg hsuccess hindex
    | refused _ hmsg hsuccess hnot =>
      refine .refused (not_lt.mp hstale) hmsg hsuccess ?_
      rintro ⟨e, he, heterm⟩
      exact hnot ⟨e, hlog ▸ he, heterm⟩

omit [RaftStateMachine S C O] in
theorem Adds.no_answers (h : Adds Quiet node node') (hidle : node.effects = []) (j : NodeId) :
    (node'.effects.filterMap (Effect.messageTo j)).filter RaftMessage.isAnswer = [] := by
  obtain ⟨es, hes, hquiet⟩ := h
  rw [hes, hidle, List.nil_append, List.filter_eq_nil_iff]
  intro m hm
  obtain ⟨e, he, hto⟩ := List.mem_filterMap.mp hm
  obtain rfl := Effect.messageTo_eq_some.mp hto
  exact absurd rfl (hquiet _ he j m)

/-- **The answers of a handler to `j`**: none, or one to the request it has handled. -/
theorem handle_answers (hidle : node.effects = []) (h : node.handle input = .ok node') (j : NodeId) :
    (node'.effects.filterMap (Effect.messageTo j)).filter RaftMessage.isAnswer = [] ∨
      ∃ req msg, input = .message j (.appendRequest req) ∧ Responds node req msg ∧
        (node'.effects.filterMap (Effect.messageTo j)).filter RaftMessage.isAnswer =
          [.appendResponse msg] := by
  by_cases hreq : ∃ p req, input = .message p (.appendRequest req)
  · obtain ⟨p, req, rfl⟩ := hreq
    obtain ⟨node₁, msg, hadds, rfl, hresponds⟩ := appendRequest_answers (p := p) h
    have hnone := hadds.no_answers hidle j
    unfold RaftNode.sendMessage
    split
    · have hsent : ((node₁.emit (.send p (.appendResponse msg))).effects.filterMap
          (Effect.messageTo j)).filter RaftMessage.isAnswer =
            ([Effect.send (S := S) (O := O) p (.appendResponse msg)].filterMap
              (Effect.messageTo j)).filter RaftMessage.isAnswer := by
        change ((node₁.effects ++ _).filterMap _).filter _ = _
        rw [List.filterMap_append, List.filter_append, hnone, List.nil_append]
      rw [hsent]
      by_cases hj : p = j
      · subst hj
        exact Or.inr ⟨req, msg, rfl, hresponds, by simp [Effect.messageTo, RaftMessage.isAnswer]⟩
      · exact Or.inl (by simp [Effect.messageTo, hj])
    · exact Or.inl hnone
  · left
    obtain ⟨es, hes, hrep⟩ := (handle_outcome h).effects
    rw [hes, hidle, List.nil_append, List.filter_eq_nil_iff]
    intro m hm
    obtain ⟨e, he, hto⟩ := List.mem_filterMap.mp hm
    obtain rfl := Effect.messageTo_eq_some.mp hto
    have hwhy := hrep _ he
    cases m with
    | appendResponse msg =>
      obtain ⟨req, hin, -⟩ := hwhy
      exact absurd ⟨j, req, hin⟩ hreq
    | _ => simp [RaftMessage.isAnswer]

omit [RaftStateMachine S C O] in
/-- A request of a leader covers its whole log. -/
theorem RequestOf.covers {req : AppendRequest C} (h : node.RequestOf p req) :
    req.term = node.currentTerm ∧ req.prevLogIndex + req.entries.length + 1 = node.log.length := by
  obtain ⟨nextIndex, matchIndex, next, prev, -, -, hpos, hle, -, rfl⟩ := h
  refine ⟨rfl, ?_⟩
  dsimp only
  rw [List.length_drop]
  omega

/-- **The requests of a handler to `j`** are those of the node it leaves. -/
theorem handle_requests (hidle : node.effects = []) (h : node.handle input = .ok node')
    {m : RaftMessage C} (hm : m ∈ (node'.effects.filterMap (Effect.messageTo j)).filter
      RaftMessage.isRequest) : ¬ Refuses node'.currentTerm m ∧
        ∃ v, reported node'.currentTerm m = some v ∧ v + 1 = node'.log.length := by
  obtain ⟨hm, hreq⟩ := List.mem_filter.mp hm
  obtain ⟨es, hes, hrep⟩ := (handle_outcome h).effects
  rw [hes, hidle, List.nil_append] at hm
  obtain ⟨e, he, hto⟩ := List.mem_filterMap.mp hm
  obtain rfl := Effect.messageTo_eq_some.mp hto
  have hwhy := hrep _ he
  cases m with
  | appendRequest req =>
    obtain ⟨hterm, hcovers⟩ := RequestOf.covers hwhy.2
    exact ⟨fun hlt => absurd (hterm ▸ hlt) (lt_irrefl _), _, if_pos hterm, hcovers⟩
  | _ => exact absurd hreq (by simp [RaftMessage.isRequest])

end Handlers

/-! ### What the peer has acknowledged -/

/-- A node does not refuse a request that probes no further than what it has acknowledged in the
term of the request. -/
theorem Rel.accepts {a : Spec C} (h : Rel ids a s) {l p : NodeId} (hl : l ∈ ids) (hp : p ∈ ids)
    (hlead : (s.node l).role.isLeader = true) {req : AppendRequest C}
    (hreq : ⟨l, p, .appendRequest req⟩ ∈ s.network) (hterm : req.term = (s.node l).currentTerm)
    {v : ℕ} (hack : v + 1 ≤ a.acked p (s.node l).currentTerm) (hprobe : req.prevLogIndex ≤ v)
    (hle : (s.node p).currentTerm ≤ req.term) : Accepts (s.node p) req := by
  obtain ⟨nextIndex, matchIndex, hrole⟩ := exists_maps hlead
  have hok := (h.nodes l hl).1.role
  unfold RoleOk at hok
  rw [hrole] at hok
  obtain ⟨⟨r, hr, -, hlog⟩, -⟩ := hok
  obtain ⟨-, -, -, -, r', hr', -, ⟨e, he, heterm⟩, -⟩ := (h.mid l).net _ hreq
  obtain rfl := Option.some.inj ((hterm ▸ hr').symm.trans hr)
  -- the peer is in the term it has acknowledged
  have hreached : (s.node l).currentTerm ≤ (s.node p).currentTerm := by
    have hdisk : a.term p = (s.node p).currentTerm := (h.nodes p hp).1.disk.term
    rw [← hdisk]
    exact (h.mid p).inv.acked_term p _ (Nat.lt_of_lt_of_le (Nat.succ_pos v) hack)
  obtain ⟨-, hagree⟩ := h.agreesUpTo hl hp hr hlog (Or.inr hack)
  have hsame := (hagree (le_antisymm (hterm ▸ hle) hreached) _ hprobe).1
  exact ⟨e, by rw [hsame, ← hlog, he], heterm⟩

/-! ### The lines of the leaders -/

/-- What a leader of term `T` knows of a peer, as the success that has told it. -/
def known (T x : ℕ) : List (RaftMessage C) :=
  if x = 0 then [] else [.appendResponse ⟨T, x, true⟩]

/-- What stands between the leader `l` of term `T` and its peer `p`, of which it knows `x`. -/
def Deployment.line (d : Deployment C O S) (l p : NodeId) (T x : ℕ) : List (RaftMessage C) :=
  known T x ++ (d.lane p l).filter RaftMessage.isAnswer ++
    (d.lane l p).filter RaftMessage.isRequest

/-- The lines of all leaders are in order. -/
def Deployment.Lined (ids : List NodeId) (d : Deployment C O S) : Prop :=
  ∀ l node, d.node l = some node → ∀ p ∈ ids, p ≠ l → ∀ x, node.matchOf p = some x →
    InLine node.currentTerm node.log.length (d.line l p node.currentTerm x)

theorem mem_known {T x : ℕ} {m : RaftMessage C} (h : m ∈ known T x) :
    0 < x ∧ m = .appendResponse ⟨T, x, true⟩ := by
  unfold known at h
  split at h
  · exact absurd h List.not_mem_nil
  · next hx => exact ⟨Nat.pos_of_ne_zero hx, List.mem_singleton.mp h⟩

/-- Lines that have only lost messages are in order. -/
theorem Deployment.Lined.of_sublist (h : d.Lined ids)
    (hnode : ∀ l node x p, d'.node l = some node → node.matchOf p = some x → d.node l = some node)
    (hlane : ∀ i j, (d'.lane i j).Sublist (d.lane i j)) : d'.Lined ids := by
  intro l node hl p hp hpl x hx
  refine (h l node (hnode l node x p hl hx) p hp hpl x hx).sublist ?_
  exact ((List.Sublist.refl _).append ((hlane p l).filter _)).append ((hlane l p).filter _)

section Turns

variable {a : Spec C} {node node' : RaftNode C O S} {input : Input C} {branch : Branch}
  {l p : NodeId}

/-- **What stands in front of a request has been acknowledged**: the peer has more than the
request probes. -/
theorem acked_of_reported (ha : Rel ids a s) (href : d.Refines ids machine s)
    (htracked : s.Tracked ids) (hl : l ∈ ids) (hp : p ∈ ids) (hpl : p ≠ l)
    (hnode : d.node l = some node) {x : ℕ} (hx : node.matchOf p = some x)
    (hline : InLine node.currentTerm node.log.length (d.line l p node.currentTerm x))
    {m : RaftMessage C} (hm : m ∈ known node.currentTerm x ++
      (d.lane p l).filter RaftMessage.isAnswer) {v : ℕ}
    (hv : reported node.currentTerm m = some v) :
    v + 1 ≤ a.acked p node.currentTerm ∧ node.inherited ≤ v ∧ x ≤ v := by
  have hsame : s.node l = node := by rw [href.node, hnode, Option.getD_some]
  have hlead : node.role.isLeader = true := isLeader_of_matchOf hx
  obtain ⟨x', y, hx', -, hknows⟩ := htracked l hl p hp hpl (hsame ▸ hlead)
  rw [hsame] at hx' hknows
  obtain rfl := Option.some.inj (hx.symm.trans hx')
  obtain ⟨nextIndex, matchIndex, hrole⟩ := exists_maps hlead
  rcases List.mem_append.mp hm with hm | hm
  · -- it has been counted
    obtain ⟨hpos, rfl⟩ := mem_known hm
    obtain ⟨-, -, rfl⟩ := reported_answer.mp hv
    have hok := (ha.nodes l hl).1.role
    unfold RoleOk at hok
    rw [hsame, hrole] at hok
    obtain ⟨-, -, -, hmatch, -⟩ := hok
    refine ⟨((hmatch p x ?_).2).resolve_left hpos.ne', hknows.covers.resolve_left hpos.ne', le_rfl⟩
    rw [← matchOf_of_role hrole, hx]
  · -- it is on its way
    obtain ⟨hlane, hanswer⟩ := List.mem_filter.mp hm
    have henv := href.mem_network (Deployment.mem_link_of_mem_lane hlane)
    cases m with
    | appendResponse msg =>
      obtain ⟨hterm, hsuccess, rfl⟩ := reported_answer.mp hv
      obtain ⟨-, -, -, hok, -⟩ := (ha.mid l).net _ henv
      obtain ⟨-, -, -, hack⟩ := hok hsuccess
      have hcovers := hknows.flight.answers msg henv hterm
      rw [if_pos hsuccess] at hcovers
      refine ⟨hterm ▸ hack, hcovers, ?_⟩
      rcases Nat.eq_zero_or_pos x with rfl | hpos
      · exact Nat.zero_le _
      · have hbefore := (List.pairwise_append.mp (List.pairwise_append.mp hline.ordered).1).2.2
          (.appendResponse ⟨node.currentTerm, x, true⟩) (by simp [known, hpos.ne']) _ hm
        exact (hbefore x (reported_answer.mpr ⟨rfl, rfl, rfl⟩)).2 _ hv
    | _ => exact absurd hanswer (by simp [RaftMessage.isAnswer])

/-- What node `i` does to the lanes when it handles its input: it has taken its message, and what
it sends comes last. -/
def Handles (i : NodeId) (d₁ : Deployment C O S) (node' : RaftNode C O S)
    (d' : Deployment C O S) : Prop :=
  ∀ i' j, (d'.lane i' j).Sublist
    (d₁.lane i' j ++ if i' = i then node'.effects.filterMap (Effect.messageTo j) else [])

/-- **An answer may stand in the place of its request**: it is no refusal if anything before it
was accepted. -/
theorem InLine.answer (ha : Rel ids a s) (href : d.Refines ids machine s)
    (htracked : s.Tracked ids) {leader : RaftNode C O S} (hl : d.node l = some leader)
    (hnode : d.node p = some node) (hpl : p ≠ l) {x : ℕ} (hx : leader.matchOf p = some x)
    (hline : InLine leader.currentTerm leader.log.length (d.line l p leader.currentTerm x))
    {req : AppendRequest C} {msg : AppendResponse} {after : List (RaftMessage C)}
    (hreq : .appendRequest req ∈ d.lane l p)
    (hlane : (d.lane l p).filter RaftMessage.isRequest = .appendRequest req :: after)
    (hresponds : Responds node req msg) :
    InLine leader.currentTerm leader.log.length (known leader.currentTerm x ++
      (d.lane p l).filter RaftMessage.isAnswer ++ .appendResponse msg :: after) := by
  have hlids := href.mem l (by rw [hl]; rfl)
  have hpids := href.mem p (by rw [hnode]; rfl)
  have hlsame : s.node l = leader := by rw [href.node, hl, Option.getD_some]
  have hpsame : s.node p = node := by rw [href.node, hnode, Option.getD_some]
  have hwas : InLine leader.currentTerm leader.log.length (known leader.currentTerm x ++
      (d.lane p l).filter RaftMessage.isAnswer ++ .appendRequest req :: after) := by
    rw [← hlane]
    exact hline
  refine hwas.replace (fun v hv => ?_) fun hrefuses m hm => ?_
  · obtain ⟨hterm, hsuccess, rfl⟩ := reported_answer.mp hv
    cases hresponds with
    | stale _ _ hno => exact absurd (hno.symm.trans hsuccess) (by simp)
    | accepted _ hmsg _ hindex => exact reported_request.mpr ⟨hmsg.symm.trans hterm, hindex.symm⟩
    | refused _ _ hno => exact absurd (hno.symm.trans hsuccess) (by simp)
  · -- something before it was accepted
    by_contra hsome
    obtain ⟨v, hv⟩ := Option.ne_none_iff_exists'.mp hsome
    obtain ⟨hterm, hno⟩ := hrefuses
    cases hresponds with
    | stale hlt hmsg =>
      have hbefore := (List.pairwise_append.mp hwas.ordered).2.2 m hm _ List.mem_cons_self
      refine (hbefore v hv).1 ?_
      change req.term < leader.currentTerm
      rw [← hterm, hmsg]
      exact hlt
    | accepted _ _ hsuccess => exact absurd (hno.symm.trans hsuccess) (by simp)
    | refused hle hmsg _ hnot =>
      obtain ⟨hack, hcovers, hxv⟩ := acked_of_reported ha href htracked hlids hpids hpl hl hx hline
        hm hv
      have hreqterm : req.term = leader.currentTerm := hmsg.symm.trans hterm
      have hnet := href.mem_network (Deployment.mem_link_of_mem_lane hreq)
      have hlead : (s.node l).role.isLeader = true := hlsame ▸ isLeader_of_matchOf hx
      obtain ⟨x', y, hx', -, hknows⟩ := htracked l hlids p hpids hpl hlead
      rw [hlsame] at hx' hknows
      obtain rfl := Option.some.inj (hx.symm.trans hx')
      obtain ⟨hprobe, -⟩ := hknows.flight.requests req hnet hreqterm
      refine hnot (hpsame ▸ ha.accepts hlids hpids hlead hnet (hlsame ▸ hreqterm)
        (hlsame ▸ hack) ?_ (hpsame ▸ hle))
      exact hprobe.trans (max_le hcovers hxv)

/-- **The answer that a leader takes is in order**: it comes right behind what the leader knows. -/
theorem Deployment.Lined.inOrder (h : d.Lined ids) (ha : Rel ids a s)
    (href : d.Refines ids machine s) (hsel : d.select i branch = some (node, input, d₁))
    {source : Source C} {u : Cluster C O S} (ho : s.offer ids source = some (i, input, u)) :
    s.InOrder (.run source) := by
  rintro k p l msg hsource hk hmsg x hx
  obtain rfl := Action.run.inj hsource
  rw [Cluster.offer, hk] at ho
  obtain ⟨rfl, rfl, -⟩ : l = i ∧ Input.message p (.appendResponse msg) = input ∧ _ = u := by
    simpa only [Option.some.injEq, Prod.mk.injEq] using ho
  obtain ⟨hnode, hreceive⟩ := Deployment.select_eq_some hsel
  have hsame : s.node l = node := by rw [href.node, hnode, Option.getD_some]
  obtain ⟨hp, hl, hpl, -⟩ := (ha.mid l).net _ (List.mem_of_getElem? hk)
  rw [hsame] at hmsg hx
  have hline := h l node hnode p hp hpl x hx
  obtain ⟨message, heq, hlane⟩ | ⟨hnot, -⟩ := Deployment.receive_lane hreceive p
  · obtain ⟨-, rfl⟩ := Input.message.inj heq
    rcases Nat.eq_zero_or_pos x with rfl | hpos
    · split
      · exact Nat.zero_le _
      · rfl
    · unfold Deployment.line at hline
      rw [hlane, List.filter_cons_of_pos (by rfl)] at hline
      have hbefore := (List.pairwise_append.mp (List.pairwise_append.mp hline.ordered).1).2.2
        (.appendResponse ⟨node.currentTerm, x, true⟩) (by simp [known, hpos.ne']) _
        List.mem_cons_self
      obtain ⟨hnot, hmore⟩ := hbefore x (reported_answer.mpr ⟨rfl, rfl, rfl⟩)
      split
      · next hsuccess => exact hmore _ (reported_answer.mpr ⟨hmsg, hsuccess, rfl⟩)
      · next hno => exact absurd ⟨hmsg, by simpa using hno⟩ hnot
  · exact absurd rfl (hnot _)

/-- The lanes after a node has handled its input, or a first part of it. -/
theorem handles_perform (hlane : ∀ i' j, (d'.lane i' j).Sublist
      ((d₁.perform i (node'.effects.take n)).lane i' j)) : Handles i d₁ node' d' := by
  intro i' j
  refine (hlane i' j).trans ((Deployment.perform_lane d₁ i _ i' j).trans ?_)
  refine (List.Sublist.refl _).append ?_
  split
  · exact (List.take_sublist n _).filterMap _
  · exact List.Sublist.refl _

variable [RaftStateMachine S C O]

/-- **The turn of a peer** puts an answer in the place of a request. -/
theorem Deployment.Lined.peer (h : d.Lined ids) (ha : Rel ids a s) (href : d.Refines ids machine s)
    (htracked : s.Tracked ids) (hsel : d.select i branch = some (node, input, d₁))
    (hhandle : node.handle input = .ok node') (hlanes : Handles i d₁ node' d')
    {leader : RaftNode C O S} (hl : d.node l = some leader) (hli : l ≠ i) (hp : p ∈ ids)
    (hpl : p ≠ l) {x : ℕ} (hx : leader.matchOf p = some x) :
    InLine leader.currentTerm leader.log.length (d'.line l p leader.currentTerm x) := by
  obtain ⟨hnode, hreceive⟩ := Deployment.select_eq_some hsel
  have hline := h l leader hl p hp hpl x hx
  have hforth := hlanes l p
  rw [if_neg hli, List.append_nil] at hforth
  have hback := hlanes p l
  rw [Deployment.receive_lane_of_ne hreceive p hli] at hback
  by_cases hpi : p = i
  · subst hpi
    rw [if_pos rfl] at hback
    have hsub : (d'.line l p leader.currentTerm x).Sublist (known leader.currentTerm x ++
        ((d.lane p l).filter RaftMessage.isAnswer ++
          (node'.effects.filterMap (Effect.messageTo l)).filter RaftMessage.isAnswer) ++
        (d₁.lane l p).filter RaftMessage.isRequest) := by
      rw [← List.filter_append]
      exact ((List.Sublist.refl _).append (hback.filter _)).append (hforth.filter _)
    have hidle : node.effects = [] := by
      have hpsame : s.node p = node := by rw [href.node, hnode, Option.getD_some]
      exact hpsame ▸ (ha.nodes p hp).2
    rcases handle_answers hidle hhandle l with hnone | ⟨req, msg, rfl, hresponds, hone⟩
    · rw [hnone, List.append_nil] at hsub
      exact hline.sublist (hsub.trans (List.Sublist.append (List.Sublist.refl _)
        ((Deployment.receive_sublist hreceive l p).filter _)))
    · obtain ⟨message, heq, hlane⟩ | ⟨hnot, -⟩ := Deployment.receive_lane hreceive l
      · obtain ⟨-, rfl⟩ := Input.message.inj heq
        rw [hone, ← List.append_assoc, List.append_assoc _ [_]] at hsub
        refine (InLine.answer ha href htracked hl hnode hpl hx hline ?_ ?_ hresponds).sublist hsub
        · rw [hlane]
          exact List.mem_cons_self
        · rw [hlane, List.filter_cons_of_pos rfl]
          rfl
      · exact absurd rfl (hnot _)
  · -- the turn of somebody else
    rw [if_neg hpi, List.append_nil] at hback
    rw [Deployment.receive_lane_of_ne hreceive l hpi] at hforth
    exact hline.sublist (((List.Sublist.refl _).append (hback.filter _)).append (hforth.filter _))

/-- **The turn of the leader**: what it has counted is known, and its new requests come last. -/
theorem Deployment.Lined.own (h : d.Lined ids) (ha : Rel ids a s) (href : d.Refines ids machine s)
    (htracked : s.Tracked ids) (hsel : d.select l branch = some (node, input, d₁)) (hhandle : node.handle input = .ok node')
    (hlanes : Handles l d₁ node' d') (hp : p ∈ ids) (hpl : p ≠ l) {x : ℕ}
    (hx : node'.matchOf p = some x) :
    InLine node'.currentTerm node'.log.length (d'.line l p node'.currentTerm x) := by
  obtain ⟨hnode, hreceive⟩ := Deployment.select_eq_some hsel
  have hl : l ∈ ids := href.mem l (by rw [hnode]; rfl)
  have hsame : s.node l = node := by rw [href.node, hnode, Option.getD_some]
  have hidle : node.effects = [] := hsame ▸ (ha.nodes l hl).2
  have hforth := hlanes l p
  rw [if_pos rfl, Deployment.receive_lane_of_ne hreceive l hpl] at hforth
  have hback := hlanes p l
  rw [if_neg hpl, List.append_nil] at hback
  -- the requests that were there, then the new ones
  have hsub : (d'.line l p node'.currentTerm x).Sublist (known node'.currentTerm x ++
      (d₁.lane p l).filter RaftMessage.isAnswer ++ (d.lane l p).filter RaftMessage.isRequest ++
      (node'.effects.filterMap (Effect.messageTo p)).filter RaftMessage.isRequest) := by
    rw [List.append_assoc _ _ (List.filter _ _), ← List.filter_append]
    exact ((List.Sublist.refl _).append (hback.filter _)).append (hforth.filter _)
  suffices hold : ∃ len ≤ node'.log.length, InLine node'.currentTerm len (known node'.currentTerm x ++
      (d₁.lane p l).filter RaftMessage.isAnswer ++ (d.lane l p).filter RaftMessage.isRequest) by
    obtain ⟨len, hlen, hold⟩ := hold
    exact (hold.append hlen fun m hm => handle_requests hidle hhandle hm).sublist hsub
  have hsubline : ∀ {T y : ℕ}, (known T y ++ (d₁.lane p l).filter RaftMessage.isAnswer ++
      (d.lane l p).filter RaftMessage.isRequest).Sublist (d.line l p T y) := fun {T y} =>
    ((List.Sublist.refl _).append ((Deployment.receive_sublist hreceive p l).filter _)).append
      (List.Sublist.refl _)
  obtain ⟨nextIndex, matchIndex, hrole⟩ := exists_maps (isLeader_of_matchOf hx)
  rw [matchOf_of_role hrole] at hx
  cases (handle_outcome hhandle).leads nextIndex matchIndex hrole with
  | kept es hrole₀ hterm hlog hes =>
    have hline := h l node hnode p hp hpl x ((matchOf_of_role hrole₀ p).trans hx)
    rw [hterm]
    exact ⟨node.log.length, by rw [hlog, List.length_append]; exact Nat.le_add_right _ _,
      hline.sublist hsubline⟩
  | crowned hfrom hlog hmark hnext hmatch =>
    -- nothing of its term was there before
    have hpeer : p ∈ node.peerIds := hsame ▸ (ha.nodes l hl).1.mem_peers.mpr ⟨hp, hpl⟩
    obtain ⟨⟨votes, hcand⟩, hterm⟩ := hfrom.resolve_right fun hnil =>
      absurd (hnil ▸ hpeer) List.not_mem_nil
    rw [hmatch, if_pos hpeer] at hx
    obtain rfl := Option.some.inj hx
    have hflight : ∀ b, InFlight s.network l p node'.currentTerm b 0 := by
      rw [hterm, ← hsame]
      exact ha.no_flight hl (hsame ▸ hcand)
    refine ⟨0, Nat.zero_le _, InLine.of_none fun m hm => ?_⟩
    by_contra hsome
    obtain ⟨v, hv⟩ := Option.ne_none_iff_exists'.mp hsome
    rcases List.mem_append.mp hm with hm | hm
    · obtain ⟨hlane, hanswer⟩ := List.mem_filter.mp hm
      have hnet := href.mem_network (Deployment.mem_link_of_mem_lane
        ((Deployment.receive_sublist hreceive p l).subset hlane))
      cases m with
      | appendResponse msg =>
        obtain ⟨hmsg, hsuccess, rfl⟩ := reported_answer.mp hv
        have hle := (hflight (msg.matchIndex + 1)).answers msg hnet hmsg
        rw [if_pos hsuccess] at hle
        exact absurd hle (Nat.not_succ_le_self _)
      | _ => exact absurd hanswer (by simp [RaftMessage.isAnswer])
    · obtain ⟨hlane, hrequest⟩ := List.mem_filter.mp hm
      have hnet := href.mem_network (Deployment.mem_link_of_mem_lane hlane)
      cases m with
      | appendRequest req =>
        obtain ⟨hmsg, rfl⟩ := reported_request.mp hv
        exact absurd ((hflight (_ + 1)).requests req hnet hmsg).2 (Nat.not_succ_le_self _)
      | _ => exact absurd hrequest (by simp [RaftMessage.isRequest])
  | counted q msg next₀ match₀ hin hmsg hrole₀ hterm hlog hmaps =>
    rw [hterm]
    refine ⟨node.log.length, by rw [hlog], ?_⟩
    by_cases hq : p = q
    · subst hq
      obtain ⟨message, heq, hlane⟩ | ⟨hnot, -⟩ := Deployment.receive_lane hreceive p
      · obtain ⟨-, rfl⟩ := Input.message.inj (hin.symm.trans heq)
        obtain ⟨x₀, y, hx₀, -, -⟩ := htracked l hl p hp hpl (by rw [hsame, hrole₀]; rfl)
        rw [hsame] at hx₀
        have hline := h l node hnode p hp hpl x₀ hx₀
        unfold Deployment.line at hline
        rw [hlane, List.filter_cons_of_pos (by rfl)] at hline
        refine hline.sublist (List.Sublist.append ?_ (List.Sublist.refl _))
        unfold countAnswer at hmaps
        split at hmaps
        · -- the success is what the leader knows now
          next hsuccess =>
          rw [(Prod.mk.inj hmaps).2, AList.lookup_insert] at hx
          obtain rfl := Option.some.inj hx
          have hknown : (known node.currentTerm msg.matchIndex : List (RaftMessage C)).Sublist
              [.appendResponse msg] := by
            unfold known
            split
            · exact List.nil_sublist _
            · rw [← hmsg, ← hsuccess]
          exact (hknown.append (List.Sublist.refl _)).trans (List.sublist_append_right _ _)
        · rw [(Prod.mk.inj hmaps).2, ← matchOf_of_role hrole₀, hx₀] at hx
          obtain rfl := Option.some.inj hx
          exact (List.Sublist.refl _).append (List.sublist_cons_self _ _)
      · exact absurd hin (hnot _)
    · have hwas : node.matchOf p = some x := by
        rw [matchOf_of_role hrole₀, ← hx]
        unfold countAnswer at hmaps
        split at hmaps
        · rw [(Prod.mk.inj hmaps).2, AList.lookup_insert_ne hq]
        · rw [(Prod.mk.inj hmaps).2]
      exact (h l node hnode p hp hpl x hwas).sublist hsubline

/-- A turn, or the part of it that a node has done when it is gone. -/
theorem Deployment.Lined.turn (h : d.Lined ids) (ha : Rel ids a s) (href : d.Refines ids machine s)
    (htracked : s.Tracked ids) (hsel : d.select i branch = some (node, input, d₁))
    (hhandle : node.handle input = .ok node') (hlanes : Handles i d₁ node' d')
    (hnodes : ∀ l leader, d'.node l = some leader → if l = i then
      leader = { node' with effects := [] } else d.node l = some leader) : d'.Lined ids := by
  intro l leader hl p hp hpl x hx
  have hwas := hnodes l leader hl
  split at hwas
  · next hli =>
    subst hli hwas
    exact h.own ha href htracked hsel hhandle hlanes hp hpl hx
  · next hli => exact h.peer ha href htracked hsel hhandle hlanes hwas hli hp hpl hx

/-- **The step lemma.** -/
theorem Deployment.Lined.step (h : d.Lined ids) (hlone : d.Lone) (ha : Rel ids a s)
    (href : d.Refines ids machine s) (htracked : s.Tracked ids) (hdrained : d.Drained activity)
    (hact : d.exec ids machine activity = some d') : d'.Lined ids ∧ d'.Lone := by
  cases Deployment.move_of_exec hact with
  | launch i hactivity hi hnode =>
    have hdone := hdrained i hactivity
    refine ⟨h.of_sublist (fun l node x p hl hx => ?_) fun i' j => ?_, hlone.start hdone⟩
    · change Function.update d.node i (some _) l = some node at hl
      by_cases hli : l = i
      · rw [hli, Function.update_self] at hl
        obtain rfl := Option.some.inj hl
        exact absurd (isLeader_of_matchOf hx) (by simp [RaftNode.new, Role.isLeader])
      · rwa [Function.update_of_ne hli] at hl
    · rw [Deployment.start_lane href.fresh hdone]
  | outside nodes commandReceiver =>
    exact ⟨h.of_sublist (fun _ _ _ _ hl _ => hl) fun _ _ => List.Sublist.refl _, hlone⟩
  | turn i branch node node' input d₁ hactivity hsel hnode =>
    obtain ⟨-, hreceive⟩ := Deployment.select_eq_some hsel
    refine ⟨h.turn ha href htracked hsel hnode (d₁.perform_lane i node'.effects) ?_,
      (hlone.receive hreceive).perform i node'.effects⟩
    intro l leader hl
    change Function.update (d₁.perform i node'.effects).node i (some _) l = some leader at hl
    split
    · next hli =>
      rw [hli, Function.update_self] at hl
      exact (Option.some.inj hl).symm
    · next hli =>
      rwa [Function.update_of_ne hli, Deployment.perform_node,
        Deployment.receive_node hreceive] at hl
  | kill i workers hnode =>
    refine ⟨h.of_sublist (fun l node x p hl hx => ?_) (d.stop_lane i workers), hlone.stop i workers⟩
    change Function.update d.node i none l = some node at hl
    by_cases hli : l = i
    · rw [hli, Function.update_self] at hl
      exact absurd hl (by simp)
    · rwa [Function.update_of_ne hli] at hl
  | killIn i branch done workers node node' input d₁ hactivity hsel hnode =>
    obtain ⟨-, hreceive⟩ := Deployment.select_eq_some hsel
    refine ⟨h.turn ha href htracked hsel hnode (handles_perform (n := done)
      (Deployment.stop_lane _ i workers)) ?_, ((hlone.receive hreceive).perform i _).stop i workers⟩
    intro l leader hl
    change Function.update (d₁.perform i _).node i none l = some leader at hl
    split
    · next hli =>
      rw [hli, Function.update_self] at hl
      exact absurd hl (by simp)
    · next hli =>
      rwa [Function.update_of_ne hli, Deployment.perform_node,
        Deployment.receive_node hreceive] at hl
  | worker i n j w hwas hpending =>
    exact ⟨h.of_sublist (fun _ _ _ _ hl _ => hl) (Deployment.setWorker_lane hpending),
      hlone.setWorker hpending⟩
  | deliver i n j w receiver message hnode hpending hqueue =>
    have hn := href.start_le (i := i) (n := n) (j := j) fun hnew => by
      rw [hnew, Worker.pending_new] at hpending
      exact absurd hpending (by simp)
    refine ⟨h.of_sublist (fun _ _ _ _ hl _ => hl) fun i' j' => ?_, hlone.setWorker ?_⟩
    · rw [Deployment.deliver_lane hlone hn hpending hqueue]
    · rw [hpending]
      exact List.sublist_cons_self _ _

end Turns

/-! ### Runs -/

/-- No leader goes back: after the activity every leader has `match_index[p] < next_index[p]`, and
a leader that stays in its term has not lowered `match_index[p]`. -/
def Deployment.Advances (ids : List NodeId) (d d' : Deployment C O S) : Prop :=
  ∀ l leader, d'.node l = some leader → ∀ p ∈ ids, p ≠ l →
    (∀ x y, leader.matchOf p = some x → leader.nextOf p = some y → x < y) ∧
    ∀ was, d.node l = some was → leader.currentTerm = was.currentTerm → ∀ x x',
      was.matchOf p = some x → leader.matchOf p = some x' → x ≤ x'

section Runs

variable [RaftStateMachine S C O] {s' : Cluster C O S}

omit [RaftStateMachine S C O] in
/-- What the leaders of the cluster do, those of the deployment do. -/
theorem Deployment.Refines.advances (href : d.Refines ids machine s)
    (href' : d'.Refines ids machine s') (h : s.Advances ids s') : d.Advances ids d' := by
  intro l leader hl p hp hpl
  have hsame' : s'.node l = leader := by rw [href'.node, hl, Option.getD_some]
  obtain ⟨hless, hmono⟩ := h l (href'.mem l (by rw [hl]; rfl)) p hp hpl
  rw [hsame'] at hless hmono
  refine ⟨hless, fun was hwas => ?_⟩
  have hsame : s.node l = was := by rw [href.node, hwas, Option.getD_some]
  rwa [hsame] at hmono

omit [RaftStateMachine S C O] in
/-- A cluster that stays as it is advances its leaders. -/
theorem Cluster.Tracked.advances (h : s.Tracked ids) : s.Advances ids s := by
  intro l hl p hp hpl
  refine ⟨fun x y hx hy => ?_, fun _ x x' hx hx' => (Option.some.inj (hx.symm.trans hx')).le⟩
  obtain ⟨x₀, y₀, hx₀, hy₀, hknows⟩ := h l hl p hp hpl (isLeader_of_matchOf hx)
  obtain rfl := Option.some.inj (hx.symm.trans hx₀)
  obtain rfl := Option.some.inj (hy.symm.trans hy₀)
  exact hknows.next

/-- What holds of a deployment in every run whose launches wait for the workers. -/
structure Deployment.InStep (ids : List NodeId) (machine : S) (d : Deployment C O S)
    (s : Cluster C O S) : Prop where
  reachable : Cluster.Reachable ids machine s
  refines : d.Refines ids machine s
  tracked : s.Tracked ids
  lined : d.Lined ids
  lone : d.Lone

theorem Deployment.InStep.step (hnd : ids.Nodup) (h : d.InStep ids machine s)
    (hdrained : d.Drained activity) (hact : d.exec ids machine activity = some d') :
    ∃ s', d'.InStep ids machine s' ∧ d.Advances ids d' := by
  obtain ⟨a, ha⟩ := h.reachable.rel hnd
  obtain ⟨hlined, hlone⟩ := h.lined.step h.lone ha h.refines h.tracked hdrained hact
  obtain ⟨s', href', rfl | ⟨action, hstep, hinput⟩⟩ := h.refines.step hact
  · exact ⟨_, ⟨h.reachable, href', h.tracked, hlined, hlone⟩,
      h.refines.advances href' h.tracked.advances⟩
  · have horder : s.InOrder action := by
      cases action with
      | run source =>
        obtain ⟨i, branch, node, input, d₁, u, -, hsel, ho, -⟩ := hinput source rfl
        exact h.lined.inOrder ha h.refines hsel ho
      | _ => exact fun _ _ _ _ heq => absurd heq (by simp)
    obtain ⟨htracked, hadvances⟩ := h.tracked.step ha hstep horder
    exact ⟨s', ⟨h.reachable.tail ⟨action, hstep⟩, href', htracked, hlined, hlone⟩,
      h.refines.advances href' hadvances⟩

/-- **Over these channels no leader goes back.** In every run in which no node is launched before
the workers of its earlier starts are done, whatever is lost, refused or timed out and whoever
is killed: each activity leaves `match_index` of every leader and peer below `next_index`, and
lowers no `match_index` of a leader that stays in its term. -/
theorem progress_over_channels (hnd : ids.Nodup)
    (h : Deployment.Runs ids machine Deployment.Drained Deployment.init d)
    (hdrained : d.Drained activity) (hact : d.exec ids machine activity = some d') :
    d.Advances ids d' := by
  obtain ⟨s, hs⟩ : ∃ s, d.InStep ids machine s := by
    clear hact hdrained
    induction h with
    | refl =>
      refine ⟨_, Relation.ReflTransGen.refl, Deployment.Refines.init ids machine, ?_, ?_, fun _ _ _ _ => rfl⟩
      · exact fun l _ p _ _ hlead => absurd hlead (by simp [Cluster.init, RaftNode.new, Role.isLeader])
      · exact fun l node hl => absurd hl (by simp [Deployment.init])
    | tail _ hstep ih =>
      obtain ⟨s, hs⟩ := ih
      obtain ⟨activity, hdrained, hact⟩ := hstep
      obtain ⟨s', hs', -⟩ := hs.step hnd hdrained hact
      exact ⟨s', hs'⟩
  exact (hs.step hnd hdrained hact).elim fun _ h => h.2

end Runs

/-- The answer of node 2 to the second request of node 1, which has got a command, arrives. -/
def secondAnswer : List (Activity ℕ) :=
  [.addNode 1 1, .addNode 2 1, .turn 1 .electionTimeout] ++ Deployment.hop 1 2 ++
    Deployment.hop 2 1 ++ Deployment.hop 1 2 ++ Deployment.hop 2 1 ++
    [.call 1 (.apply 7), .turn 1 .command] ++ Deployment.hop 1 2 ++
    [.take 2 1 1, .resolve 2 1 1, .deliver 2 1 1]

/-- The three nodes are running and have done nothing yet. -/
def launched : Deployment ℕ ℕ Counter :=
  ((Deployment.init.start [1, 2, 3] ⟨0⟩ 1).start [1, 2, 3] ⟨0⟩ 2).start [1, 2, 3] ⟨0⟩ 3

theorem progress_over_channels_secondAnswer : ∃ d d' : Deployment ℕ ℕ Counter,
    Deployment.Runs [1, 2, 3] ⟨0⟩ Deployment.Drained Deployment.init d ∧
      d.exec [1, 2, 3] ⟨0⟩ (.turn 1 .message) = some d' ∧ d.Advances [1, 2, 3] d' ∧
      (d.node 1).bind (RaftNode.matchOf · 2) = some 0 ∧
      (d'.node 1).bind (RaftNode.matchOf · 2) = some 2 := by
  have hlaunched : Deployment.Runs [1, 2, 3] ⟨0⟩ Deployment.Drained Deployment.init launched :=
    ((Relation.ReflTransGen.single ⟨.launch 1, fun _ _ _ _ => rfl, rfl⟩).tail
      ⟨.launch 2, fun _ _ _ _ => rfl, rfl⟩).tail ⟨.launch 3, fun _ _ _ _ => rfl, rfl⟩
  have hnone : ∀ (d : Deployment ℕ ℕ Counter), ∀ activity ∈ secondAnswer, d.Drained activity := by
    rintro d activity hmem i rfl
    exact absurd hmem (by simp [secondAnswer, Deployment.hop])
  have hend : ((launched.run [1, 2, 3] ⟨0⟩ secondAnswer).bind fun d =>
      (d.exec [1, 2, 3] ⟨0⟩ (.turn 1 .message)).map fun d' =>
        ((d.node 1).bind (RaftNode.matchOf · 2), (d'.node 1).bind (RaftNode.matchOf · 2))) =
      some (some 0, some 2) := by
    decide +kernel
  obtain ⟨d, hd, hend⟩ := Option.bind_eq_some_iff.mp hend
  obtain ⟨d', hd', hend⟩ := Option.map_eq_some_iff.mp hend
  obtain ⟨hbefore, hafter⟩ := Prod.mk.inj hend
  have hruns := hlaunched.trans (Deployment.runs_of_run hnone hd)
  exact ⟨d, d', hruns, hd', progress_over_channels (by decide) hruns (by simp [Deployment.Drained])
    hd', hbefore, hafter⟩

end Raft
end KvRaft
