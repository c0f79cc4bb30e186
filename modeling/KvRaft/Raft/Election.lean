import KvRaft.Raft.Handlers

/-!
# Elections

`become_leader`, `become_candidate`, `vote_request` and `vote_response`.

**Counting.** A grant that is counted leaves the network with its handler, so its token
is gone when `votes_received` grows: the voter is new, because a voter that had been
counted has no token left (`Synced.countVote`). The tokens of a term are all created by
the candidate itself when it enters the term (`Synced.requestVotes`), one for each peer.

**Winning.** A candidate with a majority opens the reign of its term at the mark
`becameLeader` (`Synced.winElection`). A node without peers saves nothing before that
mark, so its whole election happens at the first save (`Synced.electAlone`).
-/

namespace KvRaft
namespace Raft

open TermLog

variable {C O S : Type}
variable {ids : List NodeId} {a₀ a a' : Spec C} {s : Cluster C O S} {i : NodeId}
  {held held' : List (Envelope C)} {es : List (Effect C O S)} {n n' : RaftNode C O S}

/-! ### Reading a candidate -/

/-- The maps that `become_leader` collects over the peers. -/
theorem lookup_foldl_insert (x : ℕ) (p : NodeId) : ∀ (ps : List NodeId) (m : PeerMap),
    (ps.foldl (fun m peerId => m.insert peerId x) m).lookup p =
      if p ∈ ps then some x else m.lookup p := by
  intro ps
  induction ps with
  | nil =>
    intro m
    rw [List.foldl_nil, if_neg (by simp)]
  | cons q ps ih =>
    intro m
    rw [List.foldl_cons, ih]
    by_cases hp : p ∈ ps
    · rw [if_pos hp, if_pos (List.mem_cons_of_mem _ hp)]
    · rw [if_neg hp]
      by_cases hpq : p = q
      · subst hpq
        rw [AList.lookup_insert, if_pos (by simp)]
      · rw [AList.lookup_insert_ne hpq, if_neg (by simp [hp, hpq])]

/-- The last entry of a log that is not empty. -/
theorem NodeOk.exists_lastLog {pool : List (Envelope C)}
    {trace : List (NodeId × Effect C O S)} (h : NodeOk ids a pool trace i n) :
    ∃ t, n.lastLog = .ok (n.log.length - 1, t) ∧ t = lastTerm n.log := by
  unfold RaftNode.lastLog lastTerm
  cases hl : n.log.getLast? with
  | none =>
    have hpos := h.log_pos
    rw [List.getLast?_eq_none_iff.mp hl] at hpos
    exact absurd hpos (by simp)
  | some e => exact ⟨e.term, rfl, rfl⟩

/-- A node that is not a leader or that has counted no votes depends on no message and
no mark. -/
theorem NodeOk.of_follower {pool pool' : List (Envelope C)}
    {trace trace' : List (NodeId × Effect C O S)} (h : NodeOk ids a pool trace i n)
    {leader : Option NodeId} (hrole : n.role = .follower leader) :
    NodeOk ids a pool' trace' i n := by
  refine ⟨h.id, h.peers, h.disk, h.applied_le, h.commit_lt, h.committed, ?_⟩
  have hr := h.role
  unfold RoleOk at hr ⊢
  rwa [hrole] at hr ⊢

theorem NodeOk.of_candidate_one {pool pool' : List (Envelope C)}
    {trace trace' : List (NodeId × Effect C O S)} (h : NodeOk ids a pool trace i n)
    (hrole : n.role = .candidate 1) : NodeOk ids a pool' trace' i n := by
  refine ⟨h.id, h.peers, h.disk, h.applied_le, h.commit_lt, h.committed, ?_⟩
  have hr := h.role
  unfold RoleOk at hr ⊢
  rw [hrole] at hr ⊢
  obtain ⟨hvote, hnot, voters, hsub, hcard, -⟩ := hr
  obtain rfl : voters = ∅ := Finset.card_eq_zero.mp (by omega)
  exact ⟨hvote, hnot, ∅, hsub, hcard, by simp⟩

/-- The term of a candidate is positive: the entries of its log are below it. -/
theorem pos_of_vote_self (hinv : Inv (quorums ids) a) {t : ℕ} {l : List (LogEntry C)}
    (hv : a.vote i t = some (i, l)) (hl : 0 < l.length) : t ≠ 0 := by
  rintro rfl
  obtain ⟨e, he⟩ := exists_getElem?_of_lt hl
  exact absurd (hinv.vote_self i 0 l hv e (List.mem_of_getElem? he)) (Nat.not_lt_zero _)

/-- Nobody has voted in a term that a node has not reached for that node, and so it has
not won the term. -/
theorem vote_none_of_lt (hinv : Inv (quorums ids) a) {t : ℕ} (ht : a.term i < t) :
    a.vote i t = none := by
  cases hv : a.vote i t with
  | none => rfl
  | some v => exact absurd (hinv.vote_term i t v hv) (by omega)

/-- A term that a node has not voted in was not won by it. -/
theorem winner_ne_of_vote_none (hinv : Inv (quorums ids) a) {t : ℕ} (hv : a.vote i t = none)
    {r : Reign NodeId (LogEntry C)} (hr : a.reign t = some r) : r.winner ≠ some i := by
  rintro hw
  rcases hinv.reign_won t r hr with ⟨-, hnone⟩ | ⟨c, P, hc, hvc, -⟩
  · exact absurd (hnone.symm.trans hw) (by simp)
  · obtain rfl := Option.some.inj (hc.symm.trans hw)
    exact absurd (hv.symm.trans hvc) (by simp)

/-- A term that a node has not entered has none of its tokens. -/
theorem tokens_eq_zero {pool : List (Envelope C)} (hinv : Inv (quorums ids) a)
    (hpool : ∀ env ∈ pool, MsgOk ids a env) {t : ℕ} (hv : a.vote i t = none) (p : NodeId) :
    tokens i p t pool = 0 := by
  refine List.countP_eq_zero.mpr fun env henv htok => ?_
  obtain ⟨-, -, -, hmsg⟩ := hpool env henv
  unfold isToken at htok
  cases hm : env.message with
  | voteRequest msg =>
    rw [hm] at htok hmsg
    obtain ⟨hfrom, -, hterm⟩ := of_decide_eq_true htok
    obtain ⟨-, l, hl, -⟩ := hmsg
    rw [hfrom, hterm, hv] at hl
    exact absurd hl (by simp)
  | voteResponse msg =>
    rw [hm] at htok hmsg
    obtain ⟨hgrant, -, hto, hterm⟩ := of_decide_eq_true htok
    obtain ⟨l, hl⟩ := hmsg hgrant
    obtain ⟨lc, hlc, -⟩ := hinv.vote_cand _ _ _ _ hl
    rw [hto, hterm, hv] at hlc
    exact absurd hlc (by simp)
  | appendRequest msg => rw [hm] at htok; exact absurd htok (by simp)
  | appendResponse msg => rw [hm] at htok; exact absurd htok (by simp)

/-! ### `become_leader` -/

/-- The node `become_leader` saves. -/
def crownedNode (n : RaftNode C O S) : RaftNode C O S :=
  let log := n.log ++ [LogEntry.mk n.currentTerm .noOp]
  { n with
    log := log
    role := .leader (n.peerIds.foldl (fun m peerId => m.insert peerId log.length) ∅)
      (n.peerIds.foldl (fun m peerId => m.insert peerId 0) ∅)
    effects := n.effects ++ [.becameLeader n.currentTerm log] }

/-- What the term log knows about a leader that has just taken over its first entry. -/
theorem crownedNode_ok {pool : List (Envelope C)} {trace : List (NodeId × Effect C O S)}
    (hid : n.id = i) (hpeers : n.peerIds = ids.filter (fun peerId => decide (peerId ≠ i)))
    (happlied : n.lastApplied ≤ n.commitIndex) (hcommit : n.commitIndex < n.log.length)
    (hcommitted : CommittedBy (quorums ids) a n.currentTerm (n.log.take (n.commitIndex + 1)))
    (hterm : a.term i = n.currentTerm)
    (hlog : a.log i = n.log ++ [⟨n.currentTerm, .noOp⟩])
    (hvote : (a.vote i (a.term i)).map Prod.fst = n.votedFor)
    {r : Reign NodeId (LogEntry C)} (hreign : a.reign n.currentTerm = some r)
    (hw : r.winner = some i) (hrlog : r.log = n.log ++ [⟨n.currentTerm, .noOp⟩])
    (hack : r.log.length ≤ a.acked i n.currentTerm)
    (hlead : ∀ t l, (i, Effect.becameLeader t l) ∈ trace → Crowned a i t l) :
    NodeOk ids a pool trace i (crownedNode n) := by
  refine ⟨hid, hpeers, ⟨hterm, hlog, hvote⟩, happlied, ?_, ?_, ⟨r, hreign, hw, hrlog⟩, ?_, ?_,
    ?_, hlead⟩
  · change n.commitIndex < (n.log ++ [_]).length
    rw [List.length_append]
    omega
  · change CommittedBy (quorums ids) a n.currentTerm ((n.log ++ [_]).take (n.commitIndex + 1))
    rwa [List.take_append_of_le_length hcommit]
  · change (n.log ++ [_]).length ≤ a.acked i n.currentTerm
    rwa [← hrlog]
  · -- every peer is to get the log from its end on
    intro p hp
    change p ∈ n.peerIds at hp
    refine ⟨(crownedNode n).log.length, ?_, ?_, le_rfl⟩
    · rw [lookup_foldl_insert, if_pos hp]
      rfl
    · change 1 ≤ (n.log ++ [_]).length
      rw [List.length_append]
      exact Nat.le_add_left _ _
  · intro p x hx
    rw [lookup_foldl_insert] at hx
    by_cases hp : p ∈ n.peerIds
    · rw [if_pos hp] at hx
      exact ⟨hp, Or.inl (Option.some.inj hx).symm⟩
    · rw [if_neg hp] at hx
      exact absurd hx (by simp)

variable [RaftStateMachine S C O]

/-- Once the first entry is saved, `become_leader` goes on like an accepted `Apply`. -/
theorem Synced.becomeLeader_of_saved (hs : Synced ids a₀ s i held a' (crownedNode n).persistState)
    (hnd : ids.Nodup) (hi : i ∈ ids) :
    ∃ n', n.becomeLeader = .ok n' ∧ Synced ids a₀ s i held a' n' ∧ Progress n n' := by
  obtain ⟨n', hn', hs', hp', -⟩ := hs.leaderTail hnd hi rfl
  have hp : Progress n (crownedNode n).persistState :=
    ⟨le_rfl, le_rfl, [_, _], List.append_assoc n.effects [_] [_], by simp⟩
  exact ⟨n', hn', hs', hp.trans hp'⟩

/-- **A candidate with a majority becomes leader**: its voters are a quorum, and the
quorum makes it the winner of its term. -/
theorem Synced.winElection (h : Synced ids a₀ s i held a n) (hnd : ids.Nodup) (hi : i ∈ ids)
    (hother : ∃ j ∈ ids, j ≠ i) {votes : ℕ} (hrole : n.role = .candidate votes)
    (hmaj : hasMajority votes (n.peerIds.length + 1) = true) :
    ∃ n' a', n.becomeLeader = .ok n' ∧ Synced ids a₀ s i held a' n' ∧ Progress n n' := by
  have hinv := h.run.mid.inv
  have hdterm : a.term i = n.currentTerm := h.node.disk.term
  have hdlog : a.log i = n.log := h.node.disk.log
  have hr := h.node.role
  unfold RoleOk at hr
  rw [hrole] at hr
  obtain ⟨hvote, hnot, voters, hsub, hcard, hvoters⟩ := hr
  have hne0 := pos_of_vote_self hinv hvote h.node.log_pos
  unfold hasMajority at hmaj
  rw [decide_eq_true_eq, h.node.card_peers hnd hi] at hmaj
  -- the quorum: the voters and the candidate
  have hnotin : i ∉ voters := fun hin => (Finset.mem_erase.mp (hsub hin)).1 rfl
  have hquorum : (quorums ids).IsQuorum (insert i voters) := by
    refine ⟨?_, ?_⟩
    · intro q hq
      rcases Finset.mem_insert.mp hq with rfl | hq
      · exact List.mem_toFinset.mpr hi
      · exact (Finset.mem_erase.mp (hsub hq)).2
    · rw [Finset.card_insert_of_notMem hnotin, ← hcard]
      exact hmaj
  have hvotes : ∀ q ∈ insert i voters, ∃ l, a.vote q n.currentTerm = some (i, l) := by
    intro q hq
    rcases Finset.mem_insert.mp hq with rfl | hq
    · exact ⟨_, hvote⟩
    · exact (hvoters q hq).1
  have hnone : a.reign n.currentTerm = none := by
    cases hreign : a.reign n.currentTerm with
    | none => rfl
    | some r => exact absurd (hinv.winner_unique hreign hne0 hquorum hvotes) (hnot r hreign)
  let entry : LogEntry C := ⟨n.currentTerm, .noOp⟩
  let r : Reign NodeId (LogEntry C) := ⟨some i, n.log, n.log ++ [entry]⟩
  let a₁ : Spec C := { a with reign := Function.update a.reign n.currentTerm (some r) }
  have helect : Moves (quorums ids) i a a₁ := Relation.ReflTransGen.single
    (Step.elect a n.currentTerm n.log entry _ hvote hquorum hvotes hnone rfl)
  have hreign₁ : a₁.reign n.currentTerm = some r := Function.update_self _ _ _
  -- the mark
  have hmark : Run ids a₀ s i held a₁ (crownedNode n).effects := by
    refine h.run.emit helect (h.run.mid.effect helect _ ?_ ?_ ?_ ?_ ?_
      (h.run.lead_of_other helect hother))
    · have hdisk := h.run.mid.disk i
      exact ⟨hdisk.term, hdisk.log, hdisk.vote⟩
    · exact fun env henv => Or.inl henv
    · exact h.run.mid.tok
    · exact fun _ _ _ _ => le_rfl
    · exact Or.inl ⟨r, hreign₁, rfl, List.prefix_append _ _, List.prefix_refl _⟩
  -- the save
  obtain ⟨a', hm', halog, hack, haterm, havote, hareign⟩ :=
    exists_takeOwn (Q := quorums ids) (s := a₁) (i := i) (r := r) (e := entry)
      (by change a₁.reign (a.term i) = some r; rw [hdterm, hreign₁])
      (by change n.log ++ [entry] = a.log i ++ [entry]; rw [hdlog])
  have hm : Moves (quorums ids) i a a' := helect.trans hm'
  have hlead := hmark.crowned_of_other hm' hother
  have hsaved : Synced ids a₀ s i held a' (crownedNode n).persistState := by
    refine Synced.save hmark hm' (fun t l hl => Or.inl (hlead t l hl)) ?_
    refine crownedNode_ok (r := r) h.node.id h.node.peers h.node.applied_le h.node.commit_lt
      (h.node.committed.mono hm.frame.le le_rfl (List.prefix_refl _)) ?_ halog ?_ ?_ rfl rfl ?_
      hlead
    · rw [haterm]; exact hdterm
    · rw [haterm, havote]; exact h.node.disk.vote
    · rw [hareign]; exact hreign₁
    · rw [← hdterm]; exact hack
  obtain ⟨n', hn', hs', hp'⟩ := Synced.becomeLeader_of_saved hsaved hnd hi
  exact ⟨n', a', hn', hs', hp'⟩

/-! ### `become_candidate` -/

omit [RaftStateMachine S C O] in
/-- The memory of a node that has entered the next term and not saved it yet. -/
def standing (n : RaftNode C O S) : RaftNode C O S :=
  { n with currentTerm := n.currentTerm + 1, votedFor := some n.id, role := .candidate 1 }

/-- A candidate with peers asks them for their votes. -/
theorem becomeCandidate_of_peers (hterm : ¬ u64Max ≤ n.currentTerm)
    (hpeers : ¬ hasMajority 1 (n.peerIds.length + 1) = true) :
    n.becomeCandidate = (standing n).lastLog.map fun last =>
      (standing n).persistState.broadcastMessage
        (.voteRequest ⟨n.currentTerm + 1, n.id, last.1, last.2⟩) := by
  rw [RaftNode.becomeCandidate, if_neg hterm]
  refine (if_neg hpeers).trans ?_
  change (standing n).lastLog >>= _ = _
  cases (standing n).lastLog <;> rfl

omit [RaftStateMachine S C O] in
/-- Entering the next term and voting for oneself. -/
theorem exists_stand (hinv : Inv (quorums ids) a) {t : ℕ} (ht : a.term i < t) :
    ∃ a', Moves (quorums ids) i a a' ∧ a'.term i = t ∧ a'.log = a.log ∧
      a'.vote i t = some (i, a.log i) ∧ a'.reign = a.reign ∧
      (∀ j, j ≠ i → a'.vote j = a.vote j) := by
  let a₁ : Spec C := { a with term := Function.update a.term i t }
  have henter : Step (quorums ids) i a a₁ := Step.enter a t ht.le
  have hterm : a₁.term i = t := Function.update_self _ _ _
  have hstand : Step (quorums ids) i a₁ _ := Step.stand a₁
    (by rw [hterm]; exact vote_none_of_lt hinv ht)
    (by
      intro e he
      rw [hterm]
      exact (hinv.log_term i e he).trans_lt ht)
  refine ⟨_, (Relation.ReflTransGen.single henter).tail hstand, hterm, rfl, ?_, rfl, ?_⟩
  · change update₂ a.vote i (a₁.term i) (some (i, a.log i)) i t = _
    rw [hterm, update₂_self]
  · intro j hj
    exact Function.update_of_ne hj _ _

omit [RaftStateMachine S C O] in
/-- A vote request: the one token of its receiver. -/
theorem Synced.requestVote (h : Synced ids a₀ s i held a n) (hrole : n.role = .candidate 1)
    {p : NodeId} (hp : p ∈ n.peerIds) {msg : VoteRequest}
    (hmsg : MsgOk ids a ⟨i, p, .voteRequest msg⟩)
    (hzero : tokens i p msg.term (held ++ (s.perform i n.effects).network) = 0) :
    Synced ids a₀ s i held a (n.sendMessage p (.voteRequest msg)) ∧
      Progress n (n.sendMessage p (.voteRequest msg)) ∧
      SameCore n (n.sendMessage p (.voteRequest msg)) ∧
      ∀ q t, q ≠ p → tokens i q t
        (held ++ (s.perform i (n.sendMessage p (.voteRequest msg)).effects).network) =
        tokens i q t (held ++ (s.perform i n.effects).network) := by
  have heq : n.sendMessage p (.voteRequest msg) = n.emit (.send p (.voteRequest msg)) :=
    if_pos hp
  rw [heq]
  have hnet : (s.perform i (n.emit (.send p (.voteRequest msg))).effects).network =
      (s.perform i n.effects).network ++ [⟨i, p, .voteRequest msg⟩] := by
    change (s.perform i (n.effects ++ [_])).network = _
    rw [Cluster.perform_append]
    rfl
  -- the request is the only message that carries a token for this peer and term
  have hpool : ∀ c q t, tokens c q t (held ++ ((s.perform i n.effects).performOne i
      (.send p (.voteRequest msg))).network) =
        tokens c q t (held ++ (s.perform i n.effects).network) +
          if i = c ∧ p = q ∧ msg.term = t then 1 else 0 := by
    intro c q t
    rw [Cluster.performOne_send_network, ← List.append_assoc, tokens_append]
    simp [tokens, isToken]
  have hrun : Run ids a₀ s i held a (n.effects ++ [.send p (.voteRequest msg)]) := by
    refine h.run.emit Relation.ReflTransGen.refl
      (h.run.mid.effect Relation.ReflTransGen.refl (.send p (.voteRequest msg))
        (h.run.mid.disk i) ?_ ?_ ?_ trivial h.run.mid.lead)
    · intro env henv
      rw [Cluster.performOne_send_network, ← List.append_assoc] at henv
      rcases List.mem_append.mp henv with hold | hnew
      · exact Or.inl hold
      · rw [List.mem_singleton.mp hnew]
        exact Or.inr hmsg
    · intro c q t
      rw [hpool]
      have htok := h.run.mid.tok c q t
      split
      · next heq' =>
        obtain ⟨rfl, rfl, rfl⟩ := heq'
        omega
      · exact htok
    · intro c q t hc
      rw [hpool, if_neg (fun heq' => hc heq'.1.symm), Nat.add_zero]
  refine ⟨⟨hrun, (h.node.of_effects _).of_candidate_one hrole⟩,
    Progress.of_effect le_rfl le_rfl rfl (by simp), ⟨rfl, rfl, rfl, rfl⟩, ?_⟩
  intro q t hq
  rw [hnet, ← List.append_assoc, tokens_append]
  simp [tokens, isToken, hq.symm]

omit [RaftStateMachine S C O] in
/-- **The requests of a candidate** reach each peer once. -/
theorem Synced.requestVotes (msg : VoteRequest) : ∀ (ps : List NodeId) {n : RaftNode C O S},
    Synced ids a₀ s i held a n → n.role = .candidate 1 → ps.Nodup →
    (∀ p ∈ ps, p ∈ n.peerIds ∧ MsgOk ids a ⟨i, p, .voteRequest msg⟩ ∧
      tokens i p msg.term (held ++ (s.perform i n.effects).network) = 0) →
    Synced ids a₀ s i held a
        (ps.foldl (fun node peerId => node.sendMessage peerId (.voteRequest msg)) n) ∧
      Progress n (ps.foldl (fun node peerId => node.sendMessage peerId (.voteRequest msg)) n) := by
  intro ps
  induction ps with
  | nil => exact fun h _ _ _ => ⟨h, Progress.refl _⟩
  | cons p ps ih =>
    intro n h hrole hnd hps
    obtain ⟨hp, hmsg, hzero⟩ := hps p (by simp)
    obtain ⟨hs', hp', hc', hkeep⟩ := h.requestVote hrole hp hmsg hzero
    obtain ⟨hnotin, hnd'⟩ := List.nodup_cons.mp hnd
    obtain ⟨hs'', hp''⟩ := ih hs' (hc'.role.trans hrole) hnd' (by
      intro q hq
      obtain ⟨hq1, hq2, hq3⟩ := hps q (List.mem_cons_of_mem _ hq)
      have hqp : q ≠ p := by
        rintro rfl
        exact hnotin hq
      exact ⟨hc'.peers ▸ hq1, hq2, (hkeep q _ hqp).trans hq3⟩)
    exact ⟨hs'', hp'.trans hp''⟩

/-- **A node without peers** wins the next term with its own vote. Until the first save
its leadership is only `Pending`. -/
theorem Synced.electAlone (h : Synced ids a₀ s i held a n) (hnd : ids.Nodup) (hi : i ∈ ids)
    (halone : ∀ j ∈ ids, j = i) :
    ∃ n' a', (standing n).becomeLeader = .ok n' ∧ Synced ids a₀ s i held a' n' ∧
      Progress n n' := by
  have hinv := h.run.mid.inv
  have hdterm : a.term i = n.currentTerm := h.node.disk.term
  have hdlog : a.log i = n.log := h.node.disk.log
  let entry : LogEntry C := ⟨n.currentTerm + 1, .noOp⟩
  -- the mark, while nothing is saved
  have hmark : Run ids a₀ s i held a (crownedNode (standing n)).effects := by
    refine h.run.mark trivial (Or.inr ⟨halone, by rw [hdterm]; rfl, ?_⟩)
    rw [hdlog]
    rfl
  -- the save: enter the term, stand, win with the own vote, take over the entry
  obtain ⟨a₁, hm₁, hterm₁, hlog₁, hvote₁, hreign₁, -⟩ :=
    exists_stand (i := i) (t := n.currentTerm + 1) hinv (by omega)
  have hquorum : (quorums ids).IsQuorum {i} := by
    have hset : ids.toFinset = {i} := by
      ext j
      rw [List.mem_toFinset, Finset.mem_singleton]
      exact ⟨halone j, fun hj => hj ▸ hi⟩
    refine ⟨by rw [hset], ?_⟩
    rw [hset, Finset.card_singleton]
    exact Nat.one_pos
  have hnone : a.reign (n.currentTerm + 1) = none := by
    cases hreign : a.reign (n.currentTerm + 1) with
    | none => rfl
    | some r =>
      rcases hinv.reign_won _ r hreign with ⟨h0, -⟩ | ⟨c, P, hw, hvc, hP, hvotes⟩
      · exact absurd h0 (Nat.succ_ne_zero _)
      · obtain ⟨q, hq, hqi⟩ := (quorums ids).meet hP hquorum
        obtain ⟨l, hl, -⟩ := hvotes q hq
        rw [Finset.mem_singleton.mp hqi] at hl
        have := hinv.vote_term i _ _ hl
        omega
  let r : Reign NodeId (LogEntry C) := ⟨some i, n.log, n.log ++ [entry]⟩
  let a₂ : Spec C := { a₁ with reign := Function.update a₁.reign (n.currentTerm + 1) (some r) }
  have helect : Step (quorums ids) i a₁ a₂ :=
    Step.elect a₁ (n.currentTerm + 1) n.log entry {i} (by rw [hvote₁, hdlog]) hquorum
      (fun q hq => ⟨n.log, by rw [Finset.mem_singleton.mp hq, hvote₁, hdlog]⟩)
      (by rw [hreign₁, hnone]) rfl
  have hreign₂ : a₂.reign (n.currentTerm + 1) = some r := Function.update_self _ _ _
  obtain ⟨a', hm', halog, hack, haterm, havote, hareign⟩ :=
    exists_takeOwn (Q := quorums ids) (s := a₂) (i := i) (r := r) (e := entry)
      (by change a₂.reign (a₁.term i) = some r; rw [hterm₁, hreign₂])
      (by change n.log ++ [entry] = a₁.log i ++ [entry]; rw [hlog₁, hdlog])
  have hm : Moves (quorums ids) i a a' := (hm₁.tail helect).trans hm'
  have hreign' : a'.reign (n.currentTerm + 1) = some r := by rw [hareign, hreign₂]
  -- every leadership so far is on record now
  have hlead : ∀ t l,
      (i, Effect.becameLeader t l) ∈ (s.perform i (crownedNode (standing n)).effects).trace →
      Crowned a' i t l := by
    intro t l hl
    rcases hmark.mid.lead t l hl with hcr | ⟨-, ht, hl'⟩
    · exact hcr.mono hm.frame.le
    · rw [hdterm] at ht
      subst ht
      rw [hl', hdlog]
      exact ⟨r, hreign', rfl, List.prefix_append _ _, List.prefix_refl _⟩
  have hsaved : Synced ids a₀ s i held a' (crownedNode (standing n)).persistState := by
    refine Synced.save hmark hm (fun t l hl => Or.inl (hlead t l hl)) ?_
    refine crownedNode_ok (n := standing n) (r := r) h.node.id h.node.peers h.node.applied_le
      h.node.commit_lt
      (h.node.committed.mono hm.frame.le (Nat.le_succ _) (List.prefix_refl _)) ?_ halog ?_
      hreign' rfl rfl ?_ hlead
    · rw [haterm]; exact hterm₁
    · rw [haterm, havote]
      change (a₁.vote i (a₁.term i)).map Prod.fst = some n.id
      rw [hterm₁, hvote₁, h.node.id]
      rfl
    · change r.log.length ≤ a'.acked i (n.currentTerm + 1)
      rw [← hterm₁]
      exact hack
  obtain ⟨n', hn', hs', hp'⟩ := Synced.becomeLeader_of_saved hsaved hnd hi
  exact ⟨n', a', hn', hs', hp'.commit, hp'.applied, hp'.effects⟩

/-- **`become_candidate` does not panic** below the largest term. -/
theorem Synced.becomeCandidate (h : Synced ids a₀ s i held a n) (hnd : ids.Nodup) (hi : i ∈ ids)
    (hmax : n.currentTerm < u64Max) :
    ∃ n' a', n.becomeCandidate = .ok n' ∧ Synced ids a₀ s i held a' n' ∧ Progress n n' := by
  have hinv := h.run.mid.inv
  have hdterm : a.term i = n.currentTerm := h.node.disk.term
  have hdlog : a.log i = n.log := h.node.disk.log
  have hcard := h.node.card_peers hnd hi
  have hterm : ¬ u64Max ≤ n.currentTerm := not_le.mpr hmax
  by_cases hmaj : hasMajority 1 (n.peerIds.length + 1) = true
  · -- no peers
    have halone : ∀ j ∈ ids, j = i := by
      intro j hj
      by_contra hne
      have hmem : j ∈ n.peerIds := h.node.mem_peers.mpr ⟨hj, hne⟩
      have hpos := List.length_pos_of_mem hmem
      unfold hasMajority at hmaj
      rw [decide_eq_true_eq] at hmaj
      omega
    obtain ⟨n', a', hn', hs', hp'⟩ := h.electAlone hnd hi halone
    refine ⟨n', a', ?_, hs', hp'⟩
    rw [RaftNode.becomeCandidate, if_neg hterm]
    exact (if_pos hmaj).trans hn'
  · have hother : ∃ j ∈ ids, j ≠ i := by
      unfold hasMajority at hmaj
      rw [decide_eq_true_eq] at hmaj
      obtain ⟨j, hj⟩ := List.exists_mem_of_length_pos (l := n.peerIds) (by omega)
      exact ⟨j, h.node.mem_peers.mp hj⟩
    obtain ⟨lastLogTerm, hlast, hlastTerm⟩ := h.node.exists_lastLog
    change (standing n).lastLog = _ at hlast
    let request : VoteRequest := ⟨n.currentTerm + 1, n.id, n.log.length - 1, lastLogTerm⟩
    have hask : n.becomeCandidate =
        .ok ((standing n).persistState.broadcastMessage (.voteRequest request)) := by
      rw [becomeCandidate_of_peers hterm hmaj, hlast]
      rfl
    -- the save: enter the term and stand
    obtain ⟨a', hm, hterm', hlog', hvote', hreign', -⟩ :=
      exists_stand (i := i) (t := n.currentTerm + 1) hinv (by omega)
    have hnone := vote_none_of_lt (i := i) (t := n.currentTerm + 1) hinv (by omega)
    have hsaved : Synced ids a₀ s i held a' (standing n).persistState := by
      refine Synced.save (n := standing n) h.run hm (h.run.lead_of_other hm hother) ?_
      refine ⟨h.node.id, h.node.peers, ⟨hterm', by rw [hlog']; exact hdlog, ?_⟩,
        h.node.applied_le, h.node.commit_lt,
        h.node.committed.mono hm.frame.le (Nat.le_succ _) (List.prefix_refl _), ?_, ?_,
        ∅, by simp, rfl, by simp⟩
      · rw [hterm', hvote']
        change some i = some n.id
        rw [h.node.id]
      · change a'.vote i (n.currentTerm + 1) = some (i, n.log)
        rw [← hdlog]
        exact hvote'
      · intro r hr
        rw [hreign'] at hr
        exact winner_ne_of_vote_none hinv hnone hr
    -- the requests
    have hpool : ∀ p, tokens i p (n.currentTerm + 1)
        (held ++ (s.perform i (standing n).persistState.effects).network) = 0 := by
      intro p
      have hnet : (s.perform i (standing n).persistState.effects).network =
          (s.perform i n.effects).network := by
        change (s.perform i (n.effects ++ [_])).network = _
        rw [Cluster.perform_append]
        rfl
      rw [hnet]
      exact tokens_eq_zero hinv h.run.mid.net hnone p
    have hpnd : n.peerIds.Nodup := by
      rw [h.node.peers]
      exact hnd.filter _
    obtain ⟨hs', hp'⟩ := hsaved.requestVotes request n.peerIds rfl hpnd (by
        intro p hp
        obtain ⟨hpids, hpi⟩ := h.node.mem_peers.mp hp
        have hpos := h.node.log_pos
        refine ⟨hp, ⟨hi, hpids, fun heq => hpi heq.symm, h.node.id, n.log, ?_, ?_, ?_⟩,
          hpool p⟩
        · rw [← hdlog]
          exact hvote'
        · change n.log.length - 1 + 1 = n.log.length
          omega
        · exact hlastTerm)
    have hp : Progress n (standing n).persistState :=
      Progress.of_effect le_rfl le_rfl rfl (by simp)
    exact ⟨_, a', hask, hs', hp.trans hp'⟩

/-! ### `vote_request` -/

omit [RaftStateMachine S C O] in
/-- A node that may vote for another one in its term is a follower: candidates and
leaders have voted for themselves. -/
theorem NodeOk.follower_of_canVote {pool : List (Envelope C)}
    {trace : List (NodeId × Effect C O S)} (h : NodeOk ids a pool trace i n)
    (hinv : Inv (quorums ids) a) {c : NodeId} (hc : c ≠ i)
    (hcan : n.votedFor = none ∨ n.votedFor = some c) : ∃ leader, n.role = .follower leader := by
  have hvote := h.disk.vote
  have hterm : a.term i = n.currentTerm := h.disk.term
  rw [hterm] at hvote
  change (a.vote i n.currentTerm).map Prod.fst = n.votedFor at hvote
  -- a candidate or a leader has voted for itself, and such a node has no vote for another
  have hself : ∀ l, a.vote i n.currentTerm ≠ some (i, l) := by
    intro l hl
    rw [hl] at hvote
    rcases hcan with hcan | hcan
    · exact absurd (hvote.trans hcan) (by simp)
    · exact hc (Option.some.inj (hvote.trans hcan)).symm
  have hr := h.role
  unfold RoleOk at hr
  cases hrole : n.role with
  | follower leader => exact ⟨leader, rfl⟩
  | candidate votes =>
    rw [hrole] at hr
    exact absurd hr.1 (hself _)
  | leader nextIndex matchIndex =>
    rw [hrole] at hr
    obtain ⟨⟨r, hreign, hw, -⟩, -⟩ := hr
    rcases hinv.reign_won _ r hreign with ⟨-, hnone⟩ | ⟨c', P, hc', hvc, -⟩
    · exact absurd (hnone.symm.trans hw) (by simp)
    · obtain rfl := Option.some.inj (hc'.symm.trans hw)
      exact absurd hvc (hself _)

omit [RaftStateMachine S C O] in
/-- The request of `p` for a vote and its grant are the same token. -/
theorem tokens_grant {p : NodeId} {msg : VoteRequest} {rsp : VoteResponse}
    (hg : rsp.voteGranted = true) (hterm : rsp.term = msg.term) (pool : List (Envelope C))
    (c q : NodeId) (t : ℕ) :
    tokens c q t (pool ++ [⟨i, p, .voteResponse rsp⟩]) =
      tokens c q t ([⟨p, i, .voteRequest msg⟩] ++ pool) := by
  rw [tokens_append, tokens_append, Nat.add_comm]
  congr 1
  simp only [tokens, List.countP_singleton, isToken, hg, hterm, true_and]
  congr 1
  rw [decide_eq_true_eq, decide_eq_true_eq]
  exact propext and_left_comm

omit [RaftStateMachine S C O] in
/-- **The grant of a vote**: saved before it is sent, and sent for the request that is
being handled. -/
theorem Synced.grantVote {p : NodeId} {msg : VoteRequest}
    (h : Synced ids a₀ s i [⟨p, i, .voteRequest msg⟩] a n) (hi : i ∈ ids)
    (hmsg : MsgOk ids a ⟨p, i, .voteRequest msg⟩) (hterm : n.currentTerm = msg.term)
    (hcan : n.votedFor = none ∨ n.votedFor = some msg.candidateId)
    (hup : lastTerm n.log < msg.lastLogTerm ∨
      msg.lastLogTerm = lastTerm n.log ∧ n.log.length - 1 ≤ msg.lastLogIndex) :
    ∃ n' a', n' = (RaftNode.persistState { n with votedFor := some msg.candidateId }).sendMessage
        p (.voteResponse { term := n.currentTerm, voteGranted := true }) ∧
      Synced ids a₀ s i [] a' n' ∧ Progress n n' := by
  obtain ⟨hp, -, hne, hcand, l, hl, hlen, hlast⟩ := hmsg
  dsimp only at hp hne hcand hl hlen hlast
  rw [hcand] at hcan ⊢
  have hinv := h.run.mid.inv
  have hpeer : p ∈ n.peerIds := h.node.mem_peers.mpr ⟨hp, hne⟩
  have hdterm : a.term i = n.currentTerm := h.node.disk.term
  have hdlog : a.log i = n.log := h.node.disk.log
  have hdvote : (a.vote i (a.term i)).map Prod.fst = n.votedFor := h.node.disk.vote
  obtain ⟨leader, hrole⟩ := h.node.follower_of_canVote hinv hne hcan
  -- the vote is cast now, or it was cast for the same candidate before
  obtain ⟨a', hm, hterm', hlog', l', hvote'⟩ : ∃ a', Moves (quorums ids) i a a' ∧
      a'.term = a.term ∧ a'.log = a.log ∧ ∃ l', a'.vote i (a.term i) = some (p, l') := by
    cases hv : a.vote i (a.term i) with
    | some v =>
      obtain ⟨c, l'⟩ := v
      rw [hv] at hdvote
      rcases hcan with hcan | hcan
      · exact absurd (hdvote.trans hcan) (by simp)
      · obtain rfl := Option.some.inj (hdvote.trans hcan)
        exact ⟨a, Relation.ReflTransGen.refl, rfl, rfl, l', hv⟩
    | none =>
      have hgrant := Step.grant (Q := quorums ids) a p l
        (by rw [hdterm, hterm]; exact hl) hv (by
          rw [hdlog]
          unfold UpToDate
          omega)
      exact ⟨_, Relation.ReflTransGen.single hgrant, rfl, rfl, a.log i, update₂_self _ _ _ _⟩
  have hother : ∃ j ∈ ids, j ≠ i := ⟨p, hp, hne⟩
  let m : RaftNode C O S := { n with votedFor := some p }
  have hsaved : Synced ids a₀ s i [⟨p, i, .voteRequest msg⟩] a' m.persistState := by
    refine Synced.save (n := m) h.run hm (h.run.lead_of_other hm hother) ?_
    refine ⟨h.node.id, h.node.peers, ⟨?_, ?_, ?_⟩, h.node.applied_le, h.node.commit_lt,
      h.node.committed.mono hm.frame.le le_rfl (List.prefix_refl _), ?_⟩
    · rw [hterm']; exact hdterm
    · rw [hlog']; exact hdlog
    · rw [hterm', hvote']; rfl
    · have hr := h.node.role
      have hmrole : m.role = .follower leader := hrole
      unfold RoleOk at hr ⊢
      rw [hrole] at hr
      rw [hmrole]
      intro q hq
      obtain ⟨r, hr, hw⟩ := hr q hq
      obtain ⟨r', hr', hw', -, -⟩ := hm.frame.le.reign _ r hr
      exact ⟨r', hr', hw'.trans hw⟩
  -- the grant takes the place of the request
  have heq : m.persistState.sendMessage p
      (.voteResponse { term := n.currentTerm, voteGranted := true }) =
      m.persistState.emit (.send p (.voteResponse { term := n.currentTerm, voteGranted := true }))
      := if_pos hpeer
  have htok : ∀ c q t, tokens c q t ([] ++ ((s.perform i m.persistState.effects).performOne i
      (.send p (.voteResponse { term := n.currentTerm, voteGranted := true }))).network) =
      tokens c q t ([⟨p, i, .voteRequest msg⟩] ++
        (s.perform i m.persistState.effects).network) := by
    intro c q t
    rw [Cluster.performOne_send_network, List.nil_append]
    exact tokens_grant rfl hterm _ c q t
  refine ⟨_, a', rfl, ?_, ?_⟩
  · rw [heq]
    refine ⟨hsaved.run.emit Relation.ReflTransGen.refl (hsaved.run.mid.effect
      Relation.ReflTransGen.refl _ (hsaved.run.mid.disk i) ?_ ?_ ?_ trivial
      hsaved.run.mid.lead), ?_⟩
    · intro env henv
      rw [Cluster.performOne_send_network, List.nil_append] at henv
      rcases List.mem_append.mp henv with hold | hnew
      · exact Or.inl (List.mem_append_right _ hold)
      · rw [List.mem_singleton.mp hnew]
        refine Or.inr ⟨hi, hp, hne.symm, fun _ => ⟨l', ?_⟩⟩
        change a'.vote i n.currentTerm = some (p, l')
        rw [← hdterm, hvote']
    · exact fun c q t => (htok c q t).trans_le (hsaved.run.mid.tok c q t)
    · exact fun c q t _ => (htok c q t).le
    · exact (hsaved.node.of_effects _).of_follower hrole
  · rw [heq]
    exact ⟨le_rfl, le_rfl, [_, _], List.append_assoc n.effects [_] [_], by simp⟩

omit [RaftStateMachine S C O] in
/-- A refused vote. -/
theorem Synced.refuseVote (h : Synced ids a₀ s i held a n) (hi : i ∈ ids) {p : NodeId}
    (hp : p ∈ n.peerIds) :
    Synced ids a₀ s i held a
        (n.sendMessage p (.voteResponse { term := n.currentTerm, voteGranted := false })) ∧
      Progress n
        (n.sendMessage p (.voteResponse { term := n.currentTerm, voteGranted := false })) := by
  obtain ⟨hpids, hpi⟩ := h.node.mem_peers.mp hp
  have hsend := h.send hp (m := .voteResponse { term := n.currentTerm, voteGranted := false })
    rfl ⟨hi, hpids, fun heq => hpi heq.symm, by simp⟩
  exact ⟨hsend.1, hsend.2.1⟩

omit [RaftStateMachine S C O] in
/-- The part of `vote_request` that follows the comparison of terms. -/
theorem Synced.decideVote {p : NodeId} {msg : VoteRequest}
    (h : Synced ids a₀ s i [⟨p, i, .voteRequest msg⟩] a n) (hi : i ∈ ids)
    (hmsg : MsgOk ids a ⟨p, i, .voteRequest msg⟩) (hterm : n.currentTerm = msg.term) :
    ∃ n' a' held', (do
        let (lastLogIndex, lastLogTerm) ← n.lastLog
        let logUpToDate := lastLogTerm < msg.lastLogTerm ∨
          msg.lastLogTerm = lastLogTerm ∧ lastLogIndex ≤ msg.lastLogIndex
        if (n.votedFor = none ∨ n.votedFor = some msg.candidateId) ∧ logUpToDate then
          let self := { n with votedFor := some msg.candidateId }
          Except.ok (self.persistState.sendMessage p (.voteResponse
            { term := self.currentTerm, voteGranted := true }))
        else
          Except.ok (n.sendMessage p (.voteResponse
            { term := n.currentTerm, voteGranted := false }))) = (Except.ok n' : Except Panic (RaftNode C O S)) ∧
      Synced ids a₀ s i held' a' n' ∧ Progress n n' := by
  obtain ⟨lastTerm', hlast, hlastTerm⟩ := h.node.exists_lastLog
  simp only [hlast, bind, Except.bind, hlastTerm]
  obtain ⟨hp, -, hne, -⟩ := id hmsg
  have hpeer : p ∈ n.peerIds := h.node.mem_peers.mpr ⟨hp, hne⟩
  by_cases hgrant : (n.votedFor = none ∨ n.votedFor = some msg.candidateId) ∧
      (lastTerm n.log < msg.lastLogTerm ∨
        msg.lastLogTerm = lastTerm n.log ∧ n.log.length - 1 ≤ msg.lastLogIndex)
  · obtain ⟨n', a', hn', hs', hp'⟩ := h.grantVote hi hmsg hterm hgrant.1 hgrant.2
    rw [if_pos hgrant]
    exact ⟨n', a', [], by rw [hn'], hs', hp'⟩
  · rw [if_neg hgrant]
    obtain ⟨hs', hp'⟩ := h.refuseVote hi hpeer
    exact ⟨_, a, _, rfl, hs', hp'⟩

omit [RaftStateMachine S C O] in
/-- **`vote_request` does not panic**, and grants at most one vote a term. -/
theorem Synced.voteRequest {p : NodeId} {msg : VoteRequest}
    (h : Synced ids a₀ s i [⟨p, i, .voteRequest msg⟩] a n) (hi : i ∈ ids)
    (hmsg : MsgOk ids a ⟨p, i, .voteRequest msg⟩) :
    ∃ n' a' held', n.voteRequest p msg = .ok n' ∧ Synced ids a₀ s i held' a' n' ∧
      Progress n n' := by
  obtain ⟨hp, -, hne, -⟩ := id hmsg
  have hpeer : p ∈ n.peerIds := h.node.mem_peers.mpr ⟨hp, hne⟩
  unfold RaftNode.voteRequest
  by_cases hstale : msg.term < n.currentTerm
  · rw [if_pos hstale]
    obtain ⟨hs', hp'⟩ := h.refuseVote hi hpeer
    exact ⟨_, a, _, rfl, hs', hp'⟩
  rw [if_neg hstale]
  by_cases hlt : n.currentTerm < msg.term
  · obtain ⟨a₁, hs₁, hm₁, hp₁, hterm₁, -⟩ := h.becomeFollower ⟨p, hp, hne⟩ hlt.le
    obtain ⟨n', a', held', hn', hs', hp'⟩ := hs₁.decideVote hi (hmsg.mono hm₁.frame.le) hterm₁
    refine ⟨n', a', held', ?_, hs', hp₁.trans hp'⟩
    simp only [if_pos hlt]
    exact hn'
  · obtain ⟨n', a', held', hn', hs', hp'⟩ := h.decideVote hi hmsg (by omega)
    refine ⟨n', a', held', ?_, hs', hp'⟩
    simp only [if_neg hlt]
    exact hn'

/-! ### `vote_response` -/

omit [RaftStateMachine S C O] in
/-- **A grant is counted once**: its token was in flight, so its voter was not among the
voters counted before, and no token of that voter is left. -/
theorem Synced.countVote {p : NodeId} {msg : VoteResponse}
    (h : Synced ids a₀ s i [⟨p, i, .voteResponse msg⟩] a n)
    (hmsg : MsgOk ids a ⟨p, i, .voteResponse msg⟩) (hterm : msg.term = n.currentTerm)
    (hg : msg.voteGranted = true) {votes : ℕ} (hrole : n.role = .candidate votes) :
    Synced ids a₀ s i [] a { n with role := .candidate (votes + 1) } := by
  obtain ⟨hp, -, hne, hgranted⟩ := hmsg
  obtain ⟨l, hl⟩ := hgranted hg
  dsimp only at hp hne hl
  rw [hterm] at hl
  have hr := h.node.role
  unfold RoleOk at hr
  rw [hrole] at hr
  obtain ⟨hvote, hnot, voters, hsub, hcard, hvoters⟩ := hr
  let net := (s.perform i n.effects).network
  -- The answer in hand is the only one of this peer for the term, so it has not been counted yet.
  have hone : tokens i p n.currentTerm [⟨p, i, (.voteResponse msg : RaftMessage C)⟩] = 1 := by
    simp [tokens, isToken, hg, hterm]
  have hsplit := tokens_append i p n.currentTerm [⟨p, i, (.voteResponse msg : RaftMessage C)⟩] net
  have hle := h.run.mid.tok i p n.currentTerm
  have hnew : p ∉ voters := by
    intro hin
    have hzero := (hvoters p hin).2
    change tokens i p n.currentTerm (_ ++ net) = 0 at hzero
    omega
  refine ⟨⟨h.run.mid.forget, h.run.moves, h.run.crash⟩, h.node.id, h.node.peers, h.node.disk,
    h.node.applied_le, h.node.commit_lt, h.node.committed, hvote, hnot, insert p voters, ?_, ?_, ?_⟩
  · intro q hq
    rcases Finset.mem_insert.mp hq with rfl | hq
    · exact Finset.mem_erase.mpr ⟨hne, List.mem_toFinset.mpr hp⟩
    · exact hsub hq
  · rw [Finset.card_insert_of_notMem hnew, hcard]
  · intro q hq
    change _ ∧ tokens i q n.currentTerm ([] ++ net) = 0
    rw [List.nil_append]
    rcases Finset.mem_insert.mp hq with rfl | hq
    · change tokens i q n.currentTerm (_ ++ net) ≤ 1 at hle
      exact ⟨⟨l, hl⟩, by omega⟩
    · obtain ⟨hq1, hq2⟩ := hvoters q hq
      change tokens i q n.currentTerm (_ ++ net) = 0 at hq2
      rw [tokens_append] at hq2
      exact ⟨hq1, by omega⟩

/-- **`vote_response` does not panic.** -/
theorem Synced.voteResponse {p : NodeId} {msg : VoteResponse}
    (h : Synced ids a₀ s i [⟨p, i, .voteResponse msg⟩] a n) (hnd : ids.Nodup) (hi : i ∈ ids)
    (hmsg : MsgOk ids a ⟨p, i, .voteResponse msg⟩) :
    ∃ n' a' held', n.voteResponse msg = .ok n' ∧ Synced ids a₀ s i held' a' n' ∧
      Progress n n' := by
  obtain ⟨hp, -, hne, -⟩ := id hmsg
  have hother : ∃ j ∈ ids, j ≠ i := ⟨p, hp, hne⟩
  unfold RaftNode.voteResponse
  by_cases hstale : msg.term < n.currentTerm
  · rw [if_pos hstale]
    exact ⟨n, a, _, rfl, h, Progress.refl n⟩
  rw [if_neg hstale]
  by_cases hlt : n.currentTerm < msg.term
  · rw [if_pos hlt]
    obtain ⟨a₁, hs₁, -, hp₁, -⟩ := h.becomeFollower hother hlt.le
    exact ⟨_, a₁, _, rfl, hs₁, hp₁⟩
  rw [if_neg hlt]
  cases hrole : n.role with
  | follower leader => exact ⟨n, a, _, rfl, h, Progress.refl n⟩
  | leader nextIndex matchIndex => exact ⟨n, a, _, rfl, h, Progress.refl n⟩
  | candidate votes =>
    cases hg : msg.voteGranted with
    | false => exact ⟨n, a, _, rfl, h, Progress.refl n⟩
    | true =>
      have hcount := h.countVote hmsg (by omega) hg hrole
      by_cases hmaj : hasMajority (votes + 1) (n.peerIds.length + 1) = true
      · obtain ⟨n', a', hn', hs', hp'⟩ := hcount.winElection hnd hi hother rfl hmaj
        refine ⟨n', a', [], ?_, hs', hp'.commit, hp'.applied, hp'.effects⟩
        simp only [if_pos hmaj]
        exact hn'
      · refine ⟨_, a, [], ?_, hcount, le_rfl, le_rfl, [], by simp, by simp⟩
        simp only [if_neg hmaj]

end Raft
end KvRaft
