import KvRaft.Raft.Turn

/-!
# Counting votes

A candidate counts granting `VoteResponse`s: `votes_received` is a number, and
`handle_message` does not tell `vote_response` who sent the message. `append_response`, its
sibling, is told and keeps one entry for each peer.

So a response that the transport delivers twice counts twice, and a node can lead without a
majority (`leader_of_a_minority`). Two nodes can then lead in one term, which the source
itself calls unreachable. As long as a candidate counts each peer once, a leader has the
votes of a majority (`elected_by_majority`).
-/

namespace KvRaft
namespace Raft

variable {C O S : Type}
variable {n n' : RaftNode C O S} {input : Input C} {T : ℕ} {voters : Finset NodeId}

/-- Who grants a vote for term `T` with this input. -/
def grant? (T : ℕ) : Input C → Option NodeId
  | .message p (.voteResponse msg) => if msg.term = T ∧ msg.voteGranted = true then some p else none
  | _ => none

/-- The senders of the granting responses for term `T`, one for each delivery. -/
def granters (T : ℕ) (inputs : List (Input C)) : List NodeId :=
  inputs.filterMap (grant? T)

/-- The node itself and the peers whose vote for term `T` it has received. -/
def RaftNode.supporters (n : RaftNode C O S) (T : ℕ) (inputs : List (Input C)) : Finset NodeId :=
  insert n.id ((granters T inputs).toFinset.filter fun p => p ∈ n.peerIds)

/-- The inputs, one after the other. -/
def RaftNode.handleAll [RaftStateMachine S C O] (self : RaftNode C O S)
    (inputs : List (Input C)) : Except Panic (RaftNode C O S) :=
  inputs.foldlM RaftNode.handle self

/-- If the node is the candidate of term `T`, a vote for it comes from a peer that has not
voted for it before. -/
def RaftNode.CountsOnce (n : RaftNode C O S) (T : ℕ) (seen : List NodeId) (input : Input C) :
    Prop :=
  n.role.isCandidate = true → n.currentTerm = T →
    ∀ p ∈ grant? T input, p ∈ n.peerIds ∧ p ≠ n.id ∧ p ∉ seen

/-- Every input of a list counts once when its turn comes. -/
def RaftNode.AllCountOnce [RaftStateMachine S C O] (T : ℕ) :
    RaftNode C O S → List NodeId → List (Input C) → Prop
  | _, _, [] => True
  | n, seen, input :: inputs => n.CountsOnce T seen input ∧
    match n.handle input with
    | .ok n' => n'.AllCountOnce T (seen ++ granters T [input]) inputs
    | .error _ => True

instance (n : RaftNode C O S) (T : ℕ) (seen : List NodeId) (input : Input C) :
    Decidable (n.CountsOnce T seen input) := by
  unfold RaftNode.CountsOnce
  infer_instance

instance RaftNode.decidableAllCountOnce [RaftStateMachine S C O] (T : ℕ) :
    ∀ (inputs : List (Input C)) (n : RaftNode C O S) (seen : List NodeId),
    Decidable (n.AllCountOnce T seen inputs)
  | [], _, _ => .isTrue trivial
  | input :: inputs, n, seen =>
    haveI : Decidable (match n.handle input with
        | .ok n' => n'.AllCountOnce T (seen ++ granters T [input]) inputs
        | .error _ => True) :=
      match n.handle input with
      | .ok n' => decidableAllCountOnce T inputs n' (seen ++ granters T [input])
      | .error _ => .isTrue trivial
    inferInstanceAs (Decidable (n.CountsOnce T seen input ∧ _))

/-! ### The count -/

/-- The candidate of term `T` has counted no more than `voters`, and its leader had a
majority of them. -/
structure Ballot (T : ℕ) (voters : Finset NodeId) (n : RaftNode C O S) : Prop where
  self : n.id ∈ voters
  candidate : n.currentTerm = T → ∀ votes, n.role = .candidate votes → votes ≤ voters.card
  leader : n.currentTerm = T → n.role.isLeader = true →
    hasMajority voters.card (n.peerIds.length + 1) = true

theorem hasMajority_mono {count count' total : ℕ} (h : hasMajority count total = true)
    (hle : count ≤ count') : hasMajority count' total = true := by
  unfold hasMajority at h ⊢
  rw [decide_eq_true_eq] at h ⊢
  omega

/-- Votes that come in do no harm. -/
theorem Ballot.mono {voters' : Finset NodeId} (h : Ballot T voters n) (hle : voters ⊆ voters') :
    Ballot T voters' n where
  self := hle h.self
  candidate hterm votes hrole :=
    (h.candidate hterm votes hrole).trans (Finset.card_le_card hle)
  leader hterm hrole := hasMajority_mono (h.leader hterm hrole) (Finset.card_le_card hle)

/-- A node that keeps its term and its role. -/
theorem Ballot.same (h : Ballot T voters n) (hid : n'.id = n.id)
    (hpeers : n'.peerIds = n.peerIds) (hterm : n'.currentTerm = n.currentTerm)
    (hrole : n'.role = n.role) : Ballot T voters n' := by
  refine ⟨?_, ?_, ?_⟩
  · rw [hid]
    exact h.self
  · rw [hterm, hrole]
    exact h.candidate
  · rw [hterm, hrole, hpeers]
    exact h.leader

/-- A follower has counted nothing. -/
theorem Ballot.follower (hself : n.id ∈ voters) {leader : Option NodeId}
    (hrole : n.role = .follower leader) : Ballot T voters n := by
  refine ⟨hself, fun _ votes hr => ?_, fun _ hr => ?_⟩
  · rw [hrole] at hr
    exact absurd hr (by simp)
  · rw [hrole] at hr
    exact absurd hr (by simp [Role.isLeader])

/-- A leader had a majority. -/
theorem Ballot.crowned (hself : n.id ∈ voters)
    (hmajority : n.currentTerm = T → hasMajority voters.card (n.peerIds.length + 1) = true) :
    Ballot T voters (crownedNode n).persistState :=
  ⟨hself, fun _ votes hrole => absurd hrole (by simp [crownedNode, RaftNode.persistState,
    RaftNode.emit]), fun hterm _ => hmajority hterm⟩

section Handlers

variable [RaftStateMachine S C O]

/-- **The turn lemma**, for every input that is no vote. -/
theorem Ballot.turn (h : Ballot T voters n) (ht : Turn input n n')
    (hin : ∀ p msg, input ≠ .message p (.voteResponse msg)) : Ballot T voters n' := by
  have hone : 1 ≤ voters.card := Finset.card_pos.mpr ⟨_, h.self⟩
  cases ht with
  | follow term _ _ =>
    refine Ballot.follower ?_ (rfl : (n.becomeFollower _).role = .follower none)
    unfold RaftNode.becomeFollower
    split <;> exact h.self
  | stand _ =>
    -- the node has its own vote
    refine ⟨h.self, fun _ votes hrole => ?_, fun _ hrole => absurd hrole (by
      simp [standing, RaftNode.persistState, RaftNode.emit, Role.isLeader])⟩
    obtain rfl : 1 = votes := by simpa [standing, RaftNode.persistState, RaftNode.emit] using hrole
    exact hone
  | crownAlone _ halone =>
    exact Ballot.crowned (n := standing n) h.self fun _ => hasMajority_mono halone hone
  | crown votes hrole hmajority =>
    exact Ballot.crowned h.self fun hterm => hasMajority_mono hmajority
      (h.candidate hterm votes hrole)
  | count votes p msg hmsg _ _ _ => exact absurd hmsg (hin p msg)
  | indices nextIndex matchIndex _ _ hrole =>
    refine ⟨h.self, fun _ votes hr => absurd hr (by simp), fun hterm _ => h.leader hterm ?_⟩
    rw [hrole]
    rfl
  | adopt p msg _ _ _ => exact Ballot.follower h.self rfl
  | append n₁ p msg _ happend =>
    obtain ⟨log, es, rfl, -⟩ := RaftNode.appendEntries_log _ _ happend
    unfold RaftNode.followCommit
    split <;> exact h.same rfl rfl rfl rfl
  | advance _ hadvance =>
    rcases RaftNode.advanceCommit_cases hadvance with rfl | ⟨index, -, rfl⟩
    · exact h
    · exact h.same rfl rfl rfl rfl
  | apply _ _ happly =>
    obtain ⟨entry, -, ⟨term, -, rfl⟩ | ⟨term, cmd, -, ⟨-, rfl⟩ | ⟨reply, -, rfl⟩⟩⟩ :=
      RaftNode.lastApplied_turn happly <;> exact h.same rfl rfl rfl rfl
  | vote p msg _ _ => exact h.same rfl rfl rfl rfl
  | accept command reply _ _ => exact h.same rfl rfl rfl rfl
  | send p m _ =>
    unfold RaftNode.sendMessage
    split <;> exact h.same rfl rfl rfl rfl
  | answer reply answer _ => exact h.same rfl rfl rfl rfl

/-- What follows when a candidate has the votes it needs. -/
theorem Ballot.becomeLeader (h : Ballot T voters n) {votes : ℕ} (hrole : n.role = .candidate votes)
    (hmajority : hasMajority votes (n.peerIds.length + 1) = true)
    (hn : n.becomeLeader = .ok n') : Ballot T voters n' := by
  -- the tail of `become_leader` handles no vote
  have hturns := RaftNode.courseLeader_turns n n
    (Turn.crown n votes hrole hmajority : Turn .heartbeat n _)
  refine hturns.induction h (fun m _ m' ht hm => hm.turn ht (by simp)) ?_
  rw [RaftNode.courseLeader_result, hn]

/-- A vote that is counted once. -/
theorem Ballot.voteResponse {voters' : Finset NodeId} (h : Ballot T voters n)
    (hle : voters ⊆ voters') {msg : VoteResponse}
    (hgrow : n.role.isCandidate = true → n.currentTerm = T → msg.term = T →
      msg.voteGranted = true → voters.card < voters'.card)
    (hn : n.voteResponse msg = .ok n') : Ballot T voters' n' := by
  unfold RaftNode.voteResponse at hn
  split at hn
  · rw [← Except.ok.inj hn]
    exact h.mono hle
  next hge =>
  split at hn
  · rw [← Except.ok.inj hn]
    refine Ballot.follower ?_ (rfl : (n.becomeFollower _).role = .follower none)
    unfold RaftNode.becomeFollower
    split <;> exact hle h.self
  next hle' =>
  split at hn
  · next votes hrole hgranted =>
    -- a vote of this term is counted: the peer is a new voter, so the count stays within the voters
    have hcount : Ballot T voters' { n with role := .candidate (votes + 1) } := by
      refine ⟨hle h.self, fun hterm votes' hr => ?_, fun _ hr => absurd hr (by simp [Role.isLeader])⟩
      obtain rfl : votes + 1 = votes' := by simpa using hr
      have hlt := hgrow (by rw [hrole]; rfl) hterm (by dsimp only at hterm; omega) hgranted
      have := h.candidate hterm votes hrole
      omega
    dsimp only at hn
    split at hn
    · next hmajority => exact hcount.becomeLeader rfl hmajority hn
    · rw [← Except.ok.inj hn]
      exact hcount
  · rw [← Except.ok.inj hn]
    exact h.mono hle

omit [RaftStateMachine S C O] in
theorem supporters_append (n : RaftNode C O S) (T : ℕ) (l m : List (Input C)) :
    n.supporters T l ⊆ n.supporters T (l ++ m) := by
  intro p hp
  simp only [RaftNode.supporters, granters, List.filterMap_append, Finset.mem_insert,
    Finset.mem_filter, List.mem_toFinset, List.mem_append] at hp ⊢
  tauto

/-- The node and its peers stay who they are. -/
theorem Turn.same_peers (ht : Turn input n n') : n'.id = n.id ∧ n'.peerIds = n.peerIds := by
  cases ht with
  | follow term _ _ =>
    unfold RaftNode.becomeFollower
    split <;> exact ⟨rfl, rfl⟩
  | append n₁ p msg _ happend =>
    obtain ⟨log, es, rfl, -⟩ := RaftNode.appendEntries_log _ _ happend
    unfold RaftNode.followCommit
    split <;> exact ⟨rfl, rfl⟩
  | advance _ hadvance =>
    rcases RaftNode.advanceCommit_cases hadvance with rfl | ⟨index, -, rfl⟩ <;> exact ⟨rfl, rfl⟩
  | apply _ _ happly =>
    obtain ⟨entry, -, ⟨term, -, rfl⟩ | ⟨term, cmd, -, ⟨-, rfl⟩ | ⟨reply, -, rfl⟩⟩⟩ :=
      RaftNode.lastApplied_turn happly <;> exact ⟨rfl, rfl⟩
  | send p m _ =>
    unfold RaftNode.sendMessage
    split <;> exact ⟨rfl, rfl⟩
  | _ => exact ⟨rfl, rfl⟩

theorem handle_same_peers (hn : n.handle input = .ok n') :
    n'.id = n.id ∧ n'.peerIds = n.peerIds :=
  RaftNode.handle_induction (P := fun m => m.id = n.id ∧ m.peerIds = n.peerIds) hn ⟨rfl, rfl⟩
    fun _ _ ht hm => ⟨ht.same_peers.1.trans hm.1, ht.same_peers.2.trans hm.2⟩

/-- **The step lemma.** -/
theorem Ballot.handle {inputs : List (Input C)} (h : Ballot T (n.supporters T inputs) n)
    (honce : n.CountsOnce T (granters T inputs) input) (hn : n.handle input = .ok n') :
    Ballot T (n'.supporters T (inputs ++ [input])) n' := by
  obtain ⟨hid, hpeers⟩ := handle_same_peers hn
  have hsame : n'.supporters T (inputs ++ [input]) = n.supporters T (inputs ++ [input]) := by
    rw [RaftNode.supporters, RaftNode.supporters, hid, hpeers]
  rw [hsame]
  have hle := supporters_append n T inputs [input]
  by_cases hvote : ∃ p msg, input = .message p (.voteResponse msg)
  · obtain ⟨p, msg, rfl⟩ := hvote
    refine h.voteResponse hle (fun hcand hterm hmsg hgranted => ?_) hn
    have hgrant : grant? T (.message p (.voteResponse msg) : Input C) = some p :=
      if_pos ⟨hmsg, hgranted⟩
    obtain ⟨hpeer, hother, hnew⟩ := honce hcand hterm p hgrant
    -- the sender has not supported the node before
    refine Finset.card_lt_card ⟨hle, fun hback => ?_⟩
    have hp : p ∈ n.supporters T (inputs ++ [.message p (.voteResponse msg)]) := by
      simp [RaftNode.supporters, granters, hgrant, hpeer]
    have hold := hback hp
    simp only [RaftNode.supporters, Finset.mem_insert, Finset.mem_filter, List.mem_toFinset] at hold
    rcases hold with rfl | ⟨hmem, -⟩
    · exact hother rfl
    · exact hnew hmem
  · exact (RaftNode.handle_induction hn h fun _ _ ht hm => hm.turn ht
      fun p msg heq => hvote ⟨p, msg, heq⟩).mono hle

/-- **The run lemma.** -/
theorem Ballot.handleAll : ∀ (rest : List (Input C)) {inputs : List (Input C)}
    {n n' : RaftNode C O S}, Ballot T (n.supporters T inputs) n →
    n.AllCountOnce T (granters T inputs) rest → n.handleAll rest = .ok n' →
    Ballot T (n'.supporters T (inputs ++ rest)) n' ∧ n'.id = n.id ∧ n'.peerIds = n.peerIds
  | [], inputs, n, n', h, _, hn => by
    obtain rfl := Except.ok.inj hn
    rw [List.append_nil]
    exact ⟨h, rfl, rfl⟩
  | input :: rest, inputs, n, n', h, honce, hn => by
    obtain ⟨hinput, hrest⟩ := honce
    cases hm : n.handle input with
    | error e =>
      simp only [RaftNode.handleAll, List.foldlM_cons, hm] at hn
      exact absurd hn (by simp [bind, Except.bind])
    | ok m =>
      simp only [hm] at hrest
      simp only [RaftNode.handleAll, List.foldlM_cons, hm, bind, Except.bind] at hn
      have hgranters : granters T (inputs ++ [input]) = granters T inputs ++ granters T [input] :=
        List.filterMap_append
      rw [← hgranters] at hrest
      obtain ⟨hend, hid, hpeers⟩ := Ballot.handleAll rest (h.handle hinput hm) hrest hn
      rw [List.append_assoc] at hend
      obtain ⟨hid', hpeers'⟩ := handle_same_peers hm
      exact ⟨hend, hid.trans hid', hpeers.trans hpeers'⟩

/-- **An election is won by a majority, where each vote is counted once.** A node that is not
yet in term `T` handles any inputs. If the candidate of `T` is never given a second vote of
one peer, it leads in `T` only with the votes of a majority, its own included. -/
theorem elected_by_majority (hbefore : n.currentTerm < T) {inputs : List (Input C)}
    (honce : n.AllCountOnce T [] inputs) (hn : n.handleAll inputs = .ok n')
    (hterm : n'.currentTerm = T) (hleader : n'.role.isLeader = true) :
    hasMajority (n.supporters T inputs).card (n.peerIds.length + 1) = true := by
  have hstart : Ballot T (n.supporters T []) n :=
    ⟨Finset.mem_insert_self _ _, fun h => absurd h hbefore.ne, fun h => absurd h hbefore.ne⟩
  obtain ⟨hend, hid, hpeers⟩ := Ballot.handleAll inputs hstart honce hn
  have hmajority := hend.leader hterm hleader
  rwa [RaftNode.supporters, hid, hpeers, List.nil_append] at hmajority

end Handlers

/-- Node 1 of five, when it has just started. -/
def oneOfFive : RaftNode ℕ ℕ Counter := RaftNode.new 1 [1, 2, 3, 4, 5] ⟨0⟩ none

/-- It stands for term 1, and two responses reach it. -/
def twoVotes (p q : NodeId) : List (Input ℕ) :=
  [.electionTimeout, .message p (.voteResponse ⟨1, true⟩), .message q (.voteResponse ⟨1, true⟩)]

/-- Node 1 after them. -/
def afterTwoVotes (p q : NodeId) : RaftNode ℕ ℕ Counter :=
  match oneOfFive.handleAll (twoVotes p q) with
  | .ok n => n
  | .error _ => oneOfFive

theorem handleAll_twoVotes {p q : NodeId}
    (h : (oneOfFive.handleAll (twoVotes p q)).toBool = true) :
    oneOfFive.handleAll (twoVotes p q) = .ok (afterTwoVotes p q) := by
  unfold afterTwoVotes
  cases hn : oneOfFive.handleAll (twoVotes p q) with
  | ok n => rfl
  | error e =>
    rw [hn] at h
    exact absurd h (by simp [Except.toBool])

theorem elected_by_majority_twoVotes :
    hasMajority (oneOfFive.supporters 1 (twoVotes 2 3)).card (oneOfFive.peerIds.length + 1) =
      true :=
  elected_by_majority (by decide) (by decide +kernel) (handleAll_twoVotes (by decide +kernel))
    (by decide +kernel) (by decide +kernel)

/-- **One response, delivered twice, makes a leader with two votes of five.** -/
theorem leader_of_a_minority :
    ¬ ∀ n', oneOfFive.handleAll (twoVotes 2 2) = .ok n' → n'.currentTerm = 1 →
      n'.role.isLeader = true →
      hasMajority (oneOfFive.supporters 1 (twoVotes 2 2)).card (oneOfFive.peerIds.length + 1) =
        true := by
  intro h
  have hmajority := h (afterTwoVotes 2 2) (handleAll_twoVotes (by decide +kernel))
    (by decide +kernel) (by decide +kernel)
  have hminority : hasMajority (oneOfFive.supporters 1 (twoVotes 2 2)).card
      (oneOfFive.peerIds.length + 1) = false := by decide +kernel
  rw [hminority] at hmajority
  exact absurd hmajority (by simp)

end Raft
end KvRaft
