import KvRaft.Raft.Simulation

/-!
# The functions the handlers share

`become_follower`, `apply_committed`, `advance_commit` and `on_heartbeat`: each keeps a
node in sync with the term log, and the last three need no step of the term log at all.
-/

namespace KvRaft
namespace Raft

open TermLog

variable {C O S : Type}
variable {ids : List NodeId} {a₀ a a' : Spec C} {s : Cluster C O S} {i : NodeId}
  {held held' : List (Envelope C)} {es : List (Effect C O S)} {n n' : RaftNode C O S}

/-! ### Reading a node -/

theorem NodeOk.log_pos {pool : List (Envelope C)} {trace : List (NodeId × Effect C O S)}
    (h : NodeOk ids a pool trace i n) : 0 < n.log.length :=
  (Nat.zero_le _).trans_lt h.commit_lt

theorem NodeOk.mem_peers {pool : List (Envelope C)} {trace : List (NodeId × Effect C O S)}
    (h : NodeOk ids a pool trace i n) {p : NodeId} : p ∈ n.peerIds ↔ p ∈ ids ∧ p ≠ i := by
  rw [h.peers]
  simp

/-- The node and its peers are the members. -/
theorem NodeOk.card_peers {pool : List (Envelope C)} {trace : List (NodeId × Effect C O S)}
    (h : NodeOk ids a pool trace i n) (hnd : ids.Nodup) (hi : i ∈ ids) :
    n.peerIds.length + 1 = ids.toFinset.card := by
  have hcount : n.peerIds = ids.erase i := by
    rw [h.peers, hnd.erase_eq_filter]
    refine List.filter_congr fun p _ => ?_
    simp [bne, BEq.beq]
  have hpos := List.length_pos_of_mem hi
  rw [List.toFinset_card_of_nodup hnd, hcount, List.length_erase_of_mem hi]
  omega

theorem logAt_of_getElem? {k : ℕ} {e : LogEntry C} (h : n.log[k]? = some e) :
    n.logAt k = .ok e := by
  unfold RaftNode.logAt
  rw [h]

theorem exists_getElem?_of_lt {α : Type} {l : List α} {k : ℕ} (h : k < l.length) :
    ∃ e, l[k]? = some e :=
  ⟨l[k], List.getElem?_eq_getElem h⟩

/-! ### `become_follower` -/

/-- Entering a term that is not below the own one. -/
theorem Synced.becomeFollower (h : Synced ids a₀ s i held a n) (hother : ∃ j ∈ ids, j ≠ i)
    {t : ℕ} (ht : n.currentTerm ≤ t) :
    ∃ a', Synced ids a₀ s i held a' (n.becomeFollower t) ∧ Moves (quorums ids) i a a' ∧
      Progress n (n.becomeFollower t) ∧ (n.becomeFollower t).currentTerm = t ∧
      (n.becomeFollower t).role = .follower none ∧ (n.becomeFollower t).log = n.log := by
  have hterm : a.term i = n.currentTerm := h.node.disk.term
  have hm : Moves (quorums ids) i a { a with term := Function.update a.term i t } :=
    Relation.ReflTransGen.single (Step.enter a t (hterm ▸ ht))
  -- the node as it is when it saves
  obtain ⟨m, hmdef, hmvote⟩ : ∃ m : RaftNode C O S,
      n.becomeFollower t = m.persistState ∧
        m = { n with currentTerm := t, votedFor := m.votedFor, role := .follower none } ∧
        (a.vote i t).map Prod.fst = m.votedFor := by
    by_cases hlt : n.currentTerm < t
    · refine ⟨_, rfl, ?_, ?_⟩
      · simp [if_pos hlt]
      · simp only [if_pos hlt]
        cases hv : a.vote i t with
        | none => rfl
        | some v =>
          have := h.run.mid.inv.vote_term i t v hv
          omega
    · obtain rfl : n.currentTerm = t := by omega
      refine ⟨_, rfl, ?_, ?_⟩
      · simp
      · simp only [lt_irrefl, if_false]
        rw [← hterm]
        exact h.node.disk.vote
  obtain ⟨hm', hvote⟩ := hmvote
  have heff : m.effects = n.effects := by rw [hm']
  have hrun : Run ids a₀ s i held a m.effects := heff ▸ h.run
  have hnode : NodeOk ids { a with term := Function.update a.term i t }
      (held ++ (s.perform i m.effects).network) (s.perform i m.effects).trace i m := by
    refine ⟨?_, ?_, ⟨?_, ?_, ?_⟩, ?_, ?_, ?_, ?_⟩
    · rw [hm']; exact h.node.id
    · rw [hm']; exact h.node.peers
    · rw [hm']; simp
    · rw [hm']; exact h.node.disk.log
    · simpa using hvote
    · rw [hm']; exact h.node.applied_le
    · rw [hm']; exact h.node.commit_lt
    · rw [hm']
      exact h.node.committed.mono hm.frame.le ht (List.prefix_refl _)
    · rw [hm']
      intro l hl
      exact absurd hl (by simp)
  refine ⟨_, hmdef ▸ Synced.save hrun hm (hrun.lead_of_other hm hother) hnode, hm, ?_, ?_, ?_, ?_⟩
  · rw [hmdef, hm']
    exact Progress.of_effect le_rfl le_rfl rfl (by simp)
  · rw [hmdef, hm']; rfl
  · rw [hmdef, hm']; rfl
  · rw [hmdef, hm']; rfl

/-! ### `apply_committed` -/

variable [RaftStateMachine S C O]

/-- The loop of `apply_committed`, one turn at a time. -/
theorem applyCommittedLoop_succ (turns : ℕ) (n : RaftNode C O S) :
    RaftNode.applyCommittedLoop (turns + 1) n =
      RaftNode.applyCommittedLoop 1 n >>= RaftNode.applyCommittedLoop turns := by
  rw [RaftNode.applyCommittedLoop, RaftNode.applyCommittedLoop]
  cases hat : RaftNode.logAt { n with lastApplied := n.lastApplied + 1 } (n.lastApplied + 1) with
  | error e => rfl
  | ok entry =>
    simp only [bind, Except.bind]
    obtain ⟨term, command⟩ := entry
    cases command with
    | noOp => rfl
    | command cmd =>
      dsimp only
      split <;> rfl

/-- One turn of the loop: the entry applied is a chosen one. -/
theorem Synced.applyTurn (h : Synced ids a₀ s i held a n) (hlt : n.lastApplied < n.commitIndex)
    (turns : ℕ) :
    ∃ n', Synced ids a₀ s i held a n' ∧ Progress n n' ∧ SameCore n n' ∧
      n'.commitIndex = n.commitIndex ∧ n'.lastApplied = n.lastApplied + 1 ∧
      RaftNode.applyCommittedLoop (turns + 1) n = RaftNode.applyCommittedLoop turns n' := by
  obtain ⟨e, he⟩ := exists_getElem?_of_lt (show n.lastApplied + 1 < n.log.length by
    have := h.node.commit_lt; omega)
  have hev : EventOk (O := O) ids a i (.applied (n.lastApplied + 1) e n.stateMachine) := by
    have htake : (n.log.take (n.commitIndex + 1))[n.lastApplied + 1]? = some e := by
      rw [List.getElem?_take_of_lt (by omega), he]
    exact h.node.committed.entry htake
  -- the node after the mark, with the fields the turn has written so far
  have hmark : ∀ (machine : S) (pending : AList fun _ : ℕ => Sender),
      Synced ids a₀ s i held a
        { n with
          lastApplied := n.lastApplied + 1
          stateMachine := machine
          pendingApplies := pending
          effects := n.effects ++ [.applied (n.lastApplied + 1) e n.stateMachine] } := by
    intro machine pending
    refine h.mark (e := .applied (n.lastApplied + 1) e n.stateMachine) rfl trivial (by simp)
      hev ?_
    exact ⟨h.node.id, h.node.peers, h.node.disk, hlt, h.node.commit_lt, h.node.committed,
      h.node.role⟩
  have hat : RaftNode.logAt { n with lastApplied := n.lastApplied + 1 } (n.lastApplied + 1) =
      .ok e := logAt_of_getElem? he
  have hone : Progress n { n with
      lastApplied := n.lastApplied + 1
      effects := n.effects ++ [.applied (n.lastApplied + 1) e n.stateMachine] } :=
    Progress.of_effect le_rfl (Nat.le_succ _) rfl (by simp)
  -- the turn itself, before the rest of the loop
  suffices hturn : ∃ n', Synced ids a₀ s i held a n' ∧ Progress n n' ∧ SameCore n n' ∧
      n'.commitIndex = n.commitIndex ∧ n'.lastApplied = n.lastApplied + 1 ∧
      RaftNode.applyCommittedLoop 1 n = .ok n' by
    obtain ⟨n', hs, hp, hc, hcommit, happlied, hrun⟩ := hturn
    refine ⟨n', hs, hp, hc, hcommit, happlied, ?_⟩
    rw [applyCommittedLoop_succ, hrun]
    rfl
  rw [RaftNode.applyCommittedLoop]
  simp only [hat, bind, Except.bind, RaftNode.emit]
  cases hcmd : e.command with
  | noOp => exact ⟨_, hmark n.stateMachine n.pendingApplies, hone, ⟨rfl, rfl, rfl, rfl⟩, rfl, rfl, rfl⟩
  | command cmd =>
    cases hreply : n.pendingApplies.lookup (n.lastApplied + 1) with
    | none =>
      exact ⟨_, hmark (RaftStateMachine.apply n.stateMachine cmd).1 n.pendingApplies,
        ⟨hone.commit, hone.applied, hone.effects⟩, ⟨rfl, rfl, rfl, rfl⟩, rfl, rfl, rfl⟩
    | some reply =>
      have h₁ := hmark (RaftStateMachine.apply n.stateMachine cmd).1
        (n.pendingApplies.erase (n.lastApplied + 1))
      have h₂ : Synced ids a₀ s i held a { n with
          lastApplied := n.lastApplied + 1
          stateMachine := (RaftStateMachine.apply n.stateMachine cmd).1
          pendingApplies := n.pendingApplies.erase (n.lastApplied + 1)
          effects := n.effects ++ [.applied (n.lastApplied + 1) e n.stateMachine] ++
            [.reply reply (.applied (RaftStateMachine.apply n.stateMachine cmd).2)] } :=
        h₁.mark (e := .reply reply (.applied (RaftStateMachine.apply n.stateMachine cmd).2))
          rfl trivial (by simp) trivial (h₁.node.of_effects _)
      refine ⟨_, h₂, ⟨le_rfl, Nat.le_succ _, _, List.append_assoc _ _ _, ?_⟩, ⟨rfl, rfl, rfl, rfl⟩,
        rfl, rfl, rfl⟩
      simp

/-- **`apply_committed` does not panic** and only applies chosen entries. -/
theorem Synced.applyCommittedLoop : ∀ (turns : ℕ) {n : RaftNode C O S},
    Synced ids a₀ s i held a n → n.lastApplied + turns ≤ n.commitIndex →
    ∃ n', RaftNode.applyCommittedLoop turns n = .ok n' ∧ Synced ids a₀ s i held a n' ∧
      Progress n n' ∧ SameCore n n' := by
  intro turns
  induction turns with
  | zero => exact fun {n} h _ => ⟨n, rfl, h, Progress.refl n, SameCore.refl n⟩
  | succ turns ih =>
    intro n h hle
    obtain ⟨m, hm, hp, hc, hcommit, happlied, heq⟩ := h.applyTurn (by omega) turns
    obtain ⟨n', hn', hs', hp', hc'⟩ := ih hm (by omega)
    exact ⟨n', heq.trans hn', hs', hp.trans hp', hc.trans hc'⟩

theorem Synced.applyCommitted (h : Synced ids a₀ s i held a n) :
    ∃ n', n.applyCommitted = .ok n' ∧ Synced ids a₀ s i held a n' ∧ Progress n n' ∧
      SameCore n n' :=
  Synced.applyCommittedLoop _ h (by have := h.node.applied_le; omega)

/-! ### `advance_commit` -/

/-- What `advance_commit` asks of an index: its entry is of the current term and a majority
has replicated it. -/
def committable (n : RaftNode C O S) (matchIndex : PeerMap) (index : ℕ) : Bool :=
  decide (n.log[index]?.map LogEntry.term = some n.currentTerm) &&
    hasMajority ((matchIndex.entries.map Sigma.snd).countP
      (fun matchIdx => decide (index ≤ matchIdx)) + 1) (n.peerIds.length + 1)

omit [RaftStateMachine S C O] in
theorem committable_iff {matchIndex : PeerMap} {index : ℕ} :
    committable n matchIndex index = true ↔
      n.log[index]?.map LogEntry.term = some n.currentTerm ∧
        hasMajority ((matchIndex.entries.map Sigma.snd).countP
          (fun matchIdx => decide (index ≤ matchIdx)) + 1) (n.peerIds.length + 1) = true := by
  rw [committable, Bool.and_eq_true, decide_eq_true_eq]

omit [RaftStateMachine S C O] in
/-- The loop of `advance_commit` is a search for the first index it can commit. It does not
panic on indices inside the log. -/
theorem findCommit_eq (matchIndex : PeerMap) {indices : List ℕ}
    (hlt : ∀ k ∈ indices, k < n.log.length) :
    n.findCommit matchIndex indices = .ok (indices.find? (committable n matchIndex)) := by
  induction indices with
  | nil => rfl
  | cons k rest ih =>
    obtain ⟨e, he⟩ := exists_getElem?_of_lt (hlt k (by simp))
    have hrest := ih fun k' hk' => hlt k' (List.mem_cons_of_mem _ hk')
    -- one round of the loop: entries of earlier terms are passed over, the first index with a
    -- majority ends it
    have hstep : n.findCommit matchIndex (k :: rest) =
        if e.term ≠ n.currentTerm then n.findCommit matchIndex rest
        else if hasMajority ((matchIndex.entries.map Sigma.snd).countP
            (fun matchIdx => decide (k ≤ matchIdx)) + 1) (n.peerIds.length + 1) = true
          then .ok (some k) else n.findCommit matchIndex rest := by
      rw [RaftNode.findCommit, logAt_of_getElem? he]
      rfl
    rw [hstep, hrest]
    by_cases hterm : e.term ≠ n.currentTerm
    · rw [if_pos hterm, List.find?_cons_of_neg]
      simp [committable, he, hterm]
    · rw [if_neg hterm]
      push Not at hterm
      have heterm : n.log[k]?.map LogEntry.term = some n.currentTerm := by rw [he, ← hterm]; rfl
      by_cases hmaj : hasMajority ((matchIndex.entries.map Sigma.snd).countP
          (fun matchIdx => decide (k ≤ matchIdx)) + 1) (n.peerIds.length + 1) = true
      · rw [if_pos hmaj, List.find?_cons_of_pos (committable_iff.mpr ⟨heterm, hmaj⟩)]
      · rw [if_neg hmaj, List.find?_cons_of_neg fun hk => hmaj (committable_iff.mp hk).2]

omit [RaftStateMachine S C O] in
/-- The index that the loop of `advance_commit` finds has an entry of the current term that
a majority replicated. -/
theorem findCommit_ok (matchIndex : PeerMap) (indices : List ℕ)
    (hlt : ∀ k ∈ indices, k < n.log.length) :
    ∃ found, n.findCommit matchIndex indices = .ok found ∧
      ∀ index, found = some index → index ∈ indices ∧
        (∃ e, n.log[index]? = some e ∧ e.term = n.currentTerm) ∧
        hasMajority ((matchIndex.entries.map Sigma.snd).countP
          (fun matchIdx => decide (index ≤ matchIdx)) + 1) (n.peerIds.length + 1) = true := by
  refine ⟨_, findCommit_eq matchIndex hlt, fun index hindex => ?_⟩
  obtain ⟨hterm, hmaj⟩ := committable_iff.mp (List.find?_some hindex)
  exact ⟨List.mem_of_find?_eq_some hindex, Option.map_eq_some_iff.mp hterm, hmaj⟩

omit [RaftStateMachine S C O] in
/-- The peers that a count over `match_index` counts, with the node itself, are as many
nodes as `has_majority` is asked about. -/
theorem exists_quorum_of_count {matchIndex : PeerMap} {f : ℕ → Bool}
    (hkeys : ∀ p x, matchIndex.lookup p = some x → p ∈ ids ∧ p ≠ i) (hi : i ∈ ids)
    (hmaj : ids.toFinset.card / 2 < (matchIndex.entries.map Sigma.snd).countP f + 1) :
    ∃ P : Finset NodeId, (quorums ids).IsQuorum P ∧
      ∀ q ∈ P, q = i ∨ ∃ x, matchIndex.lookup q = some x ∧ f x = true := by
  let counted := matchIndex.entries.filter fun entry => f entry.snd
  have hmem : ∀ p ∈ counted.map Sigma.fst, ∃ x, matchIndex.lookup p = some x ∧ f x = true := by
    intro p hp
    obtain ⟨entry, hentry, rfl⟩ := List.mem_map.mp hp
    obtain ⟨hin, hf⟩ := List.mem_filter.mp hentry
    exact ⟨entry.snd, AList.mem_lookup_iff.mpr hin, hf⟩
  have hnodup : (counted.map Sigma.fst).Nodup :=
    (matchIndex.nodupKeys.sublist List.filter_sublist : counted.NodupKeys)
  have hcard : (counted.map Sigma.fst).toFinset.card
      = (matchIndex.entries.map Sigma.snd).countP f := by
    rw [List.toFinset_card_of_nodup hnodup, List.length_map, List.countP_map,
      List.countP_eq_length_filter]
    rfl
  -- the map has no entry for the node itself, which is the one added to the count
  have hnot : i ∉ (counted.map Sigma.fst).toFinset := by
    intro hin
    obtain ⟨x, hx, -⟩ := hmem i (List.mem_toFinset.mp hin)
    exact (hkeys i x hx).2 rfl
  refine ⟨insert i (counted.map Sigma.fst).toFinset, ⟨?_, ?_⟩, ?_⟩
  · intro q hq
    rcases Finset.mem_insert.mp hq with rfl | hq
    · exact List.mem_toFinset.mpr hi
    · obtain ⟨x, hx, -⟩ := hmem q (List.mem_toFinset.mp hq)
      exact List.mem_toFinset.mpr (hkeys q x hx).1
  · rw [Finset.card_insert_of_notMem hnot, hcard]
    exact hmaj
  · intro q hq
    rcases Finset.mem_insert.mp hq with rfl | hq
    · exact Or.inl rfl
    · exact Or.inr (hmem q (List.mem_toFinset.mp hq))

omit [RaftStateMachine S C O] in
/-- **`advance_commit`** moves the commit index to a chosen index, or leaves it. -/
theorem Synced.advanceCommit (h : Synced ids a₀ s i held a n) (hnd : ids.Nodup) (hi : i ∈ ids) :
    ∃ n', n.advanceCommit = .ok n' ∧ Synced ids a₀ s i held a n' ∧ Progress n n' ∧
      SameCore n n' := by
  unfold RaftNode.advanceCommit
  cases hrole : n.role with
  | follower leader => exact ⟨n, rfl, h, Progress.refl n, SameCore.refl n⟩
  | candidate votes => exact ⟨n, rfl, h, Progress.refl n, SameCore.refl n⟩
  | leader nextIndex matchIndex =>
    obtain ⟨found, hfound, hspec⟩ := findCommit_ok (n := n) matchIndex
      (List.range' (n.commitIndex + 1) (n.log.length - (n.commitIndex + 1))).reverse (by
        intro k hk
        rw [List.mem_reverse, List.mem_range'_1] at hk
        omega)
    simp only [hfound, bind, Except.bind]
    cases found with
    | none => exact ⟨n, rfl, h, Progress.refl n, SameCore.refl n⟩
    | some index =>
      obtain ⟨hin, ⟨e, he, hterm⟩, hmaj⟩ := hspec index rfl
      rw [List.mem_reverse, List.mem_range'_1] at hin
      have hr := h.node.role
      unfold RoleOk at hr
      rw [hrole] at hr
      obtain ⟨⟨r, hreign, hw, hlog⟩, hown, -, hmatch, -⟩ := hr
      have hcard := h.node.card_peers hnd hi
      unfold hasMajority at hmaj
      rw [decide_eq_true_eq, hcard] at hmaj
      obtain ⟨P, hP, hcount⟩ := exists_quorum_of_count
        (fun p x hx => h.node.mem_peers.mp (hmatch p x hx).1) hi hmaj
      -- every member of the quorum acknowledged the entry
      have hch : Chosen (quorums ids) a n.currentTerm (index + 1) r := by
        refine ⟨hreign, by rw [hlog]; omega, ⟨e, ?_, hterm⟩, Nat.succ_pos _, P, hP, ?_⟩
        · rw [hlog]
          exact he
        · intro q hq
          rcases hcount q hq with rfl | ⟨x, hx, hle⟩
          · omega
          · rw [decide_eq_true_eq] at hle
            rcases (hmatch q x hx).2 with h0 | hack
            · omega
            · omega
      refine ⟨_, rfl, h.mark (e := .committed n.currentTerm index n.log) rfl trivial (by simp)
        ⟨r, hch, hw, by rw [hlog]⟩ ?_, Progress.of_effect (by dsimp only [RaftNode.emit]; omega)
        le_rfl rfl (by simp), ⟨rfl, rfl, hrole.symm, rfl⟩⟩
      refine ⟨h.node.id, h.node.peers, h.node.disk, ?_, ?_, ?_, ?_⟩
      · have := h.node.applied_le
        dsimp only [RaftNode.emit]
        omega
      · dsimp only [RaftNode.emit]
        omega
      · exact ⟨n.currentTerm, index + 1, r, le_rfl, hch, by
          dsimp only [RaftNode.emit]; rw [hlog]⟩
      · have hr := h.node.role
        unfold RoleOk at hr ⊢
        rwa [hrole] at hr

/-! ### `on_heartbeat` -/

omit [RaftStateMachine S C O] in
/-- The request a leader builds for a peer is part of the log of its reign. -/
theorem Synced.heartbeatTo (h : Synced ids a₀ s i held a n) (hi : i ∈ ids)
    (hlead : n.role.isLeader = true) {p : NodeId} (hp : p ∈ n.peerIds) :
    ∃ n', n.heartbeatTo p = .ok n' ∧ Synced ids a₀ s i held a n' ∧ Progress n n' ∧
      SameCore n n' := by
  have hr := h.node.role
  unfold RoleOk at hr
  unfold RaftNode.heartbeatTo
  cases hrole : n.role with
  | follower leader => rw [hrole] at hlead; exact absurd hlead (by simp [Role.isLeader])
  | candidate votes => rw [hrole] at hlead; exact absurd hlead (by simp [Role.isLeader])
  | leader nextIndex matchIndex =>
    rw [hrole] at hr
    obtain ⟨⟨r, hreign, hw, hlog⟩, -, hnext, -, -⟩ := hr
    -- the next index of the peer lies in the log, so neither index below it is out of range
    obtain ⟨x, hx, hx1, hxlen⟩ := hnext p hp
    obtain ⟨e, he⟩ := exists_getElem?_of_lt (show x - 1 < n.log.length by omega)
    simp only [hx, if_neg (show ¬ x = 0 by omega), logAt_of_getElem? he, bind, Except.bind,
      if_neg (show ¬ n.log.length < x by omega)]
    obtain ⟨hpids, hpi⟩ := h.node.mem_peers.mp hp
    have hlt := h.node.commit_lt
    have hsend := h.send hp (m := .appendRequest
      { term := n.currentTerm
        leaderId := n.id
        prevLogIndex := x - 1
        prevLogTerm := e.term
        entries := n.log.drop x
        leaderCommit := n.commitIndex }) trivial (by
      refine ⟨hi, hpids, fun heq => hpi heq.symm, h.node.id, r, hreign, hw, ⟨e, ?_, rfl⟩, ?_, ?_, ?_⟩
      · rw [hlog]
        exact he
      · rw [hlog, Nat.sub_add_cancel hx1]
      · dsimp only
        rw [List.length_drop]
        omega
      · dsimp only
        rw [hlog]
        exact h.node.committed)
    exact ⟨_, rfl, hsend⟩

omit [RaftStateMachine S C O] in
/-- **`on_heartbeat` does not panic** on a leader. -/
theorem Synced.onHeartbeat (h : Synced ids a₀ s i held a n) (hi : i ∈ ids)
    (hlead : n.role.isLeader = true) :
    ∃ n', n.onHeartbeat = .ok n' ∧ Synced ids a₀ s i held a n' ∧ Progress n n' ∧
      SameCore n n' := by
  have hloop : ∀ (ps : List NodeId) (m : RaftNode C O S), Synced ids a₀ s i held a m →
      m.role.isLeader = true → (∀ p ∈ ps, p ∈ m.peerIds) →
      ∃ n', ps.foldlM RaftNode.heartbeatTo m = .ok n' ∧ Synced ids a₀ s i held a n' ∧
        Progress m n' ∧ SameCore m n' := by
    intro ps
    induction ps with
    | nil => exact fun m hm _ _ => ⟨m, rfl, hm, Progress.refl m, SameCore.refl m⟩
    | cons p ps ih =>
      intro m hm hml hps
      obtain ⟨m', hm', hs', hp', hc'⟩ := hm.heartbeatTo hi hml (hps p (by simp))
      obtain ⟨n', hn', hs'', hp'', hc''⟩ := ih m' hs' (hc'.role ▸ hml)
        (fun q hq => hc'.peers ▸ hps q (List.mem_cons_of_mem _ hq))
      refine ⟨n', ?_, hs'', hp'.trans hp'', hc'.trans hc''⟩
      rw [List.foldlM_cons, hm']
      exact hn'
  exact hloop n.peerIds n h hlead fun _ hp => hp

/-- The common end of `become_leader` and of an accepted `Apply`. -/
theorem Synced.leaderTail (h : Synced ids a₀ s i held a n) (hnd : ids.Nodup) (hi : i ∈ ids)
    (hlead : n.role.isLeader = true) :
    ∃ n', (do
        let self ← n.advanceCommit
        let self ← self.applyCommitted
        self.onHeartbeat) = Except.ok n' ∧
      Synced ids a₀ s i held a n' ∧ Progress n n' ∧ SameCore n n' := by
  obtain ⟨n₁, h₁, hs₁, hp₁, hc₁⟩ := h.advanceCommit hnd hi
  obtain ⟨n₂, h₂, hs₂, hp₂, hc₂⟩ := hs₁.applyCommitted
  obtain ⟨n₃, h₃, hs₃, hp₃, hc₃⟩ := hs₂.onHeartbeat hi (by rw [hc₂.role, hc₁.role, hlead])
  refine ⟨n₃, ?_, hs₃, (hp₁.trans hp₂).trans hp₃, (hc₁.trans hc₂).trans hc₃⟩
  simp only [h₁, h₂, h₃, bind, Except.bind]

end Raft
end KvRaft
