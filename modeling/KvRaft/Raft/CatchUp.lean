import KvRaft.Raft.Redelivery

/-!
# A leader finds the place where a peer's log matches

The leader probes the peer at `next_index - 1`. The peer refuses a probe past its end with
its last index, and a probe at an entry of another term with the index of the probe; in
both cases the answer is at most the probed index, and no refusal comes at index 0, which
both logs share. So `match_index.saturating_sub(1).max(1)` lies below the old `next_index`
(`Handled.refusal`), and `next_index` bounds the number of rounds
(`catch_up_terminates`).
-/

namespace KvRaft
namespace Raft

variable {C O S : Type} {T next : ℕ} {l l' f f' n : RaftNode C O S} {p : NodeId}

/-! ### The exchange -/

/-- The node before a handler starts. -/
def RaftNode.idle (n : RaftNode C O S) : RaftNode C O S := { n with effects := [] }

section Exchange

variable [RaftStateMachine S C O]

/-- One round without loss: the `AppendRequest` that `on_heartbeat` builds for the peer, the
peer's `append_request`, the leader's `append_response`. -/
def exchange (leader peer : RaftNode C O S) :
    Except Panic (Option (RaftNode C O S × RaftNode C O S × AppendResponse)) := do
  let leader ← leader.idle.heartbeatTo peer.id
  match sentTo peer.id leader.effects with
  | some (.appendRequest request) =>
    let peer ← peer.idle.appendRequest leader.id request
    match sentTo leader.id peer.effects with
    | some (.appendResponse response) =>
      let leader ← leader.appendResponse peer.id response
      .ok (some (leader, peer, response))
    | _ => .ok none
  | _ => .ok none

/-- Rounds until the peer answers with success, at most so many. -/
def catchUp : ℕ → RaftNode C O S → RaftNode C O S →
    Except Panic (Option (RaftNode C O S × RaftNode C O S))
  | 0, _, _ => .ok none
  | rounds + 1, leader, peer => do
    match ← exchange leader peer with
    | some (leader, peer, response) =>
      if response.success then .ok (some (leader, peer)) else catchUp rounds leader peer
    | none => .ok none

end Exchange

/-- A leader in term `T` that sends the peer `p` entries from `next` on. -/
structure Leading (T : ℕ) (l : RaftNode C O S) (p : NodeId) (next : ℕ) : Prop where
  term : l.currentTerm = T
  role : ∃ nextIndex matchIndex, l.role = .leader nextIndex matchIndex ∧
    nextIndex.lookup p = some next
  commit_lt : l.commitIndex < l.log.length

/-! ### The side of the leader -/

/-- The slice that a leader sends a peer: everything from `next` on. -/
def Leading.slice (h : Leading T l p next) (hle : next ≤ l.log.length) : Slice l.log where
  prev := next - 1
  last := l.log.length - 1
  leaderId := l.id
  leaderCommit := l.commitIndex
  prev_le := by omega
  last_lt := by have := h.commit_lt; omega
  commit_le := by have := h.commit_lt; omega

/-- What `on_heartbeat` sends the peer. -/
theorem Leading.heartbeatTo (h : Leading T l p next) (hpos : 1 ≤ next)
    (hle : next ≤ l.log.length) :
    l.heartbeatTo p =
      .ok (l.sendMessage p (.appendRequest ((h.slice hle).request T))) := by
  obtain ⟨nextIndex, matchIndex, hrole, hnext⟩ := h.role
  have hat : l.log[next - 1]? = some (l.log.get ⟨next - 1, by omega⟩) :=
    List.getElem?_eq_getElem (by omega)
  unfold RaftNode.heartbeatTo
  simp only [hrole, hnext]
  rw [if_neg (by omega), logAt_of_getElem? hat]
  simp only [bind, Except.bind]
  rw [if_neg (by omega)]
  have hentries : l.log.drop next = ((h.slice hle).request T).entries := by
    have hpos' := h.commit_lt
    simp only [Slice.request, slice]
    rw [show l.log.length - 1 + 1 = l.log.length by omega, List.take_length,
      show next - 1 + 1 = next by omega]
  rw [hentries, h.term]
  rfl

/-- `advance_commit` does not panic and stays inside the log. -/
theorem exists_advanceCommit (hlt : n.commitIndex < n.log.length) :
    ∃ n', n.advanceCommit = .ok n' ∧ SameCore n n' ∧ n'.id = n.id ∧
      n'.commitIndex < n'.log.length := by
  unfold RaftNode.advanceCommit
  split
  · next nextIndex matchIndex hrole =>
    obtain ⟨found, hfound, hspec⟩ := findCommit_ok (n := n) matchIndex
      (List.range' (n.commitIndex + 1) (n.log.length - (n.commitIndex + 1))).reverse (by
        intro k hk
        rw [List.mem_reverse, List.mem_range'_1] at hk
        omega)
    simp only [hfound, bind, Except.bind]
    cases found with
    | none => exact ⟨n, rfl, SameCore.refl n, rfl, hlt⟩
    | some index =>
      refine ⟨_, rfl, ⟨rfl, rfl, rfl, rfl⟩, rfl, ?_⟩
      have hmem := (hspec index rfl).1
      rw [List.mem_reverse, List.mem_range'_1] at hmem
      change index < n.log.length
      omega
  · exact ⟨n, rfl, SameCore.refl n, rfl, hlt⟩

variable [RaftStateMachine S C O]

/-- **`append_response`** to an answer of the own term. -/
theorem Leading.appendResponse (h : Leading T l p next) {answer : AppendResponse}
    (hterm : answer.term = T) :
    ∃ l', l.appendResponse p answer = .ok l' ∧ l'.log = l.log ∧ l'.id = l.id ∧
      l'.peerIds = l.peerIds ∧
      (answer.success = false → Leading T l' p (max (answer.matchIndex - 1) 1)) ∧
      (answer.success = true → ∃ nextIndex matchIndex, l'.role = .leader nextIndex matchIndex ∧
        matchIndex.lookup p = some answer.matchIndex ∧
        nextIndex.lookup p = some (answer.matchIndex + 1)) := by
  obtain ⟨nextIndex, matchIndex, hrole, -⟩ := h.role
  -- whatever role the answer leads to, committing and applying keep it
  have htail : ∀ role, ∃ l', (do
        let self ← ({ l with role := role } : RaftNode C O S).advanceCommit
        self.applyCommitted) = Except.ok l' ∧ l'.log = l.log ∧ l'.id = l.id ∧
      l'.peerIds = l.peerIds ∧ l'.currentTerm = T ∧ l'.role = role ∧
      l'.commitIndex < l'.log.length := by
    intro role
    obtain ⟨l₁, h₁, hc₁, hid₁, hlt₁⟩ := exists_advanceCommit (n := { l with role := role })
      h.commit_lt
    obtain ⟨l₂, h₂, hs₂, -⟩ := exists_applyCommitted hlt₁
    refine ⟨l₂, by rw [h₁]; exact h₂, hs₂.core.log.trans hc₁.log, hs₂.id.trans hid₁,
      hs₂.core.peers.trans hc₁.peers, (hs₂.core.term.trans hc₁.term).trans h.term,
      hs₂.core.role.trans hc₁.role, ?_⟩
    rw [hs₂.commit, hs₂.core.log]
    exact hlt₁
  unfold RaftNode.appendResponse
  have hown := h.term
  rw [if_neg (by omega), if_neg (by omega)]
  simp only [hrole]
  cases hsuccess : answer.success with
  | true =>
    obtain ⟨l', h', hlog, hid, hpeers, -, hrole', -⟩ := htail (.leader
      (nextIndex.insert p (answer.matchIndex + 1)) (matchIndex.insert p answer.matchIndex))
    exact ⟨l', h', hlog, hid, hpeers, by simp, fun _ =>
      ⟨_, _, hrole', AList.lookup_insert _, AList.lookup_insert _⟩⟩
  | false =>
    obtain ⟨l', h', hlog, hid, hpeers, hterm', hrole', hlt⟩ := htail (.leader
      (nextIndex.insert p (max (answer.matchIndex - 1) 1)) matchIndex)
    exact ⟨l', h', hlog, hid, hpeers, fun _ =>
      ⟨hterm', ⟨_, _, hrole', AList.lookup_insert _⟩, hlt⟩, by simp⟩

/-! ### Rounds -/

/-- What a round comes to. -/
structure Round (T : ℕ) (l f : RaftNode C O S) (next : ℕ) (l' f' : RaftNode C O S)
    (answer : AppendResponse) : Prop where
  log : l'.log = l.log
  leader : l'.id = l.id ∧ l'.peerIds = l.peerIds
  peer : f'.id = f.id ∧ f'.peerIds = f.peerIds
  following : Following l.log T f'
  success : answer.success = true → l.log <+: f'.log ∧
    ∃ nextIndex matchIndex, l'.role = .leader nextIndex matchIndex ∧
      matchIndex.lookup f.id = some (l.log.length - 1) ∧
      nextIndex.lookup f.id = some l.log.length
  /-- The back-off lowers `next_index`, and not below 1. -/
  refusal : answer.success = false → ∃ next', Leading T l' f.id next' ∧ 1 ≤ next' ∧ next' < next

omit [RaftStateMachine S C O] in
theorem RaftNode.idle_of_effects (h : n.effects = []) : n.idle = n := by
  cases n
  subst h
  rfl

/-- One round, of two nodes that are between two handlers. -/
theorem Leading.exchange_of_idle (hl : Leading T l f.id next) (hf : Following l.log T f)
    (hidle : l.effects = []) (hidle' : f.effects = []) (hpeer : f.id ∈ l.peerIds)
    (hback : l.id ∈ f.peerIds) (hpos : 1 ≤ next) (hle : next ≤ l.log.length) :
    ∃ l' f' answer, exchange l f = .ok (some (l', f', answer)) ∧
      Round T l f next l' f' answer := by
  -- the message of the leader
  have hbeat := hl.heartbeatTo hpos hle
  obtain ⟨msg, hmsg⟩ : ∃ msg, msg = (hl.slice hle).request T := ⟨_, rfl⟩
  rw [← hmsg] at hbeat
  have hsent : sentTo f.id (l.sendMessage f.id (.appendRequest msg)).effects =
      some (.appendRequest msg) :=
    sentTo_sendMessage hidle (by simp) hpeer _
  rw [sendMessage_of_mem hpeer] at hbeat hsent
  -- the answer of the peer
  obtain ⟨g, answer, hg, hanswer, -, hh⟩ := hf.answer hidle' hback (hl.slice hle)
  -- the reaction of the leader
  obtain ⟨l', hl', hlog, hid, hpeers, hrefused, haccepted⟩ := Leading.appendResponse
    (l := { l with effects := l.effects ++ [.send f.id (.appendRequest msg)] })
    ⟨hl.term, hl.role, hl.commit_lt⟩ hh.term
  refine ⟨l', { g with effects := g.effects ++ [.send l.id (.appendResponse answer)] }, answer,
    ?_, ?_⟩
  · unfold Raft.exchange
    rw [RaftNode.idle_of_effects hidle, RaftNode.idle_of_effects hidle', hbeat]
    simp only [bind, Except.bind, hsent]
    rw [hmsg, hg]
    simp only [hanswer, hh.id]
    rw [hmsg] at hl'
    rw [hl']
  have hfollow := hh.following
  refine ⟨hlog, ⟨hid, hpeers⟩, ⟨hh.id, hh.peers⟩, ⟨hfollow.term, hfollow.role, hfollow.matching,
    hfollow.agree, hfollow.applied_le, hfollow.commit_lt, hfollow.commit_lt_leader⟩,
    fun hsuccess => ⟨?_, ?_⟩, fun hrefusal => ?_⟩
  · -- the slice reached to the end of the leader's log
    have hlast := (hh.success hsuccess).2
    have hlen : (hl.slice hle).last + 1 = l.log.length := by
      have := hl.commit_lt
      simp only [Leading.slice]
      omega
    rw [hlen, List.take_length] at hlast
    refine ⟨g.log.drop l.log.length, ?_⟩
    have hsplit := List.take_append_drop l.log.length g.log
    rwa [hlast] at hsplit
  · obtain ⟨nextIndex, matchIndex, hrole, hmatch, hnext⟩ := haccepted hsuccess
    have hindex : answer.matchIndex = l.log.length - 1 := (hh.success hsuccess).1
    have hnext' : answer.matchIndex + 1 = l.log.length := by
      have := hl.commit_lt
      omega
    exact ⟨nextIndex, matchIndex, hrole, hindex ▸ hmatch, hnext' ▸ hnext⟩
  · obtain ⟨-, hprev, hindex⟩ := hh.refusal hrefusal
    have hprev' : 0 < next - 1 := hprev
    have hindex' : answer.matchIndex ≤ next - 1 := hindex
    exact ⟨_, hrefused hrefusal, le_max_right _ _, by omega⟩

/-- **One round.** -/
theorem Leading.exchange (hl : Leading T l f.id next) (hf : Following l.log T f)
    (hpeer : f.id ∈ l.peerIds) (hback : l.id ∈ f.peerIds) (hpos : 1 ≤ next)
    (hle : next ≤ l.log.length) :
    ∃ l' f' answer, exchange l f = .ok (some (l', f', answer)) ∧
      Round T l f next l' f' answer := by
  have hl₀ : Leading T l.idle f.idle.id next := ⟨hl.term, hl.role, hl.commit_lt⟩
  have hf₀ : Following l.idle.log T f.idle :=
    ⟨hf.term, hf.role, hf.matching, hf.agree, hf.applied_le, hf.commit_lt, hf.commit_lt_leader⟩
  obtain ⟨l', f', answer, hround, hr⟩ := hl₀.exchange_of_idle hf₀ rfl rfl hpeer hback hpos hle
  exact ⟨l', f', answer, hround, hr.log, hr.leader, hr.peer, hr.following, hr.success, hr.refusal⟩

/-- **Catch-up terminates.** The leader reaches a success answer after at most `next_index`
rounds; its log is then a prefix of the peer's, and it knows that. -/
theorem catch_up_terminates : ∀ (next : ℕ) {l f : RaftNode C O S}, Leading T l f.id next →
    Following l.log T f → f.id ∈ l.peerIds → l.id ∈ f.peerIds → 1 ≤ next →
    next ≤ l.log.length →
    ∃ rounds ≤ next, ∃ l' f', catchUp rounds l f = .ok (some (l', f')) ∧ l'.log = l.log ∧
      l.log <+: f'.log ∧ ∃ nextIndex matchIndex, l'.role = .leader nextIndex matchIndex ∧
        matchIndex.lookup f.id = some (l.log.length - 1) ∧
        nextIndex.lookup f.id = some l.log.length := by
  intro next
  -- on the next index the leader keeps for the peer: a refusal brings it down, and at 1 the check
  -- cannot fail
  induction next using Nat.strong_induction_on with
  | _ next ih =>
    intro l f hl hf hpeer hback hpos hle
    obtain ⟨l₁, f₁, answer, hround, hr⟩ := hl.exchange hf hpeer hback hpos hle
    cases hsuccess : answer.success with
    | true =>
      obtain ⟨hpre, hmaps⟩ := hr.success hsuccess
      refine ⟨1, hpos, l₁, f₁, ?_, hr.log, hpre, hmaps⟩
      rw [catchUp, hround]
      simp [bind, Except.bind, hsuccess]
    | false =>
      obtain ⟨next', hl', hpos', hlt⟩ := hr.refusal hsuccess
      obtain ⟨rounds, hrounds, l₂, f₂, hrest, hlog, hpre, hmaps⟩ := ih next' hlt
        (l := l₁) (f := f₁) (by rw [hr.peer.1]; exact hl') (by rw [hr.log]; exact hr.following)
        (by rw [hr.peer.1, hr.leader.2]; exact hpeer)
        (by rw [hr.leader.1, hr.peer.2]; exact hback) hpos' (by rw [hr.log]; omega)
      rw [hr.log] at hlog hpre hmaps
      rw [hr.peer.1] at hmaps
      refine ⟨rounds + 1, by omega, l₂, f₂, ?_, hlog, hpre, hmaps⟩
      rw [catchUp, hround]
      simpa [bind, Except.bind, hsuccess] using hrest

/-- A leader that sends peer 2 the entries from the end of its log on, and a peer that
kept an entry of an older term. -/
def probing : RaftNode ℕ ℕ Counter :=
  { RaftNode.new 1 [1, 2, 3] ⟨0⟩ (some ⟨3, some 1, reignLog⟩) with
    role := .leader ((∅ : PeerMap).insert 2 3) ((∅ : PeerMap).insert 2 0) }

theorem catch_up_terminates_probing :
    ∃ rounds ≤ 3, ∃ l' f', catchUp rounds probing lagging = .ok (some (l', f')) ∧
      l'.log = probing.log ∧ probing.log <+: f'.log ∧
      ∃ nextIndex matchIndex, l'.role = .leader nextIndex matchIndex ∧
        matchIndex.lookup lagging.id = some (probing.log.length - 1) ∧
        nextIndex.lookup lagging.id = some probing.log.length :=
  catch_up_terminates 3 (l := probing) (f := lagging) ⟨rfl, ⟨_, _, rfl, rfl⟩, by decide⟩
    following_lagging (by decide) (by decide) (by decide) (by decide)

end Raft
end KvRaft
