import KvRaft.Raft.Handlers

/-!
# Replication

`append_request`, `append_response` and `client_command`.

The loop of `append_request` compares terms only. Against the log `L` of the reign the
request comes from, it stops changing anything at the first disagreement: either the own
log already has everything the request covers, or it is cut at the first index where it
disagrees with `L` and continued with `L` (`appendEntries_spec`). The second case is
`TermLog.Step.adopt`. What is committed agrees with `L`, so the cut is above it.
-/

namespace KvRaft
namespace Raft

open TermLog

variable {C O S : Type}
variable {ids : List NodeId} {a₀ a a' : Spec C} {s : Cluster C O S} {i : NodeId}
  {held held' : List (Envelope C)} {es : List (Effect C O S)} {n n' : RaftNode C O S}

/-! ### The loop of `append_request` -/

/-- Two logs agree up to every index at which they have entries of one term. -/
def Matching (l m : List (LogEntry C)) : Prop :=
  ∀ k e e', l[k]? = some e → m[k]? = some e' → e.term = e'.term →
    l.take (k + 1) = m.take (k + 1)

theorem take_succ_of_getElem? {α : Type} {l : List α} {k : ℕ} {e : α} (h : l[k]? = some e) :
    l.take (k + 1) = l.take k ++ [e] := by
  rw [List.take_add_one, h, Option.toList_some]

/-- A log that ends where the entries begin is extended by all of them. -/
theorem appendEntries_push (L : List (LogEntry C)) : ∀ (entries : List (LogEntry C)) (index : ℕ)
    (n : RaftNode C O S), n.log = L.take index → index ≤ L.length →
    entries <+: L.drop index →
    n.appendEntries index entries = .ok { n with log := L.take (index + entries.length) } := by
  intro entries
  induction entries with
  | nil =>
    intro index n hlog _ _
    rw [List.length_nil, Nat.add_zero, ← hlog]
    rfl
  | cons e entries ih =>
    intro index n hlog hle hpre
    -- the log ends at the index, so the entry is pushed and the next one meets the same state
    have hlen : n.log.length = index := by rw [hlog, List.length_take, min_eq_left hle]
    obtain ⟨t, ht⟩ := hpre
    have he : L[index]? = some e := by
      have h0 : (L.drop index)[0]? = L[index + 0]? := List.getElem?_drop
      rw [← ht] at h0
      simpa using h0.symm
    have hlt := (List.getElem?_eq_some_iff.mp he).1
    have hdrop : L.drop (index + 1) = entries ++ t := by
      rw [← List.drop_drop, ← ht]
      rfl
    rw [RaftNode.appendEntries, if_neg (by omega)]
    rw [ih (index + 1) { n with log := n.log ++ [e] } (by
      rw [take_succ_of_getElem? he, ← hlog]) hlt (by rw [hdrop]; exact List.prefix_append _ _)]
    rw [List.length_cons, Nat.add_assoc, Nat.add_comm 1]

/-- **The loop of `append_request`**, on a log that agrees with `L` below `index` and for
entries that `L` has from `index` on. -/
theorem appendEntries_spec (L : List (LogEntry C)) : ∀ (entries : List (LogEntry C)) (index : ℕ)
    (n : RaftNode C O S), Matching n.log L → n.log.take index = L.take index →
    index ≤ n.log.length → index ≤ L.length → entries <+: L.drop index →
    (n.appendEntries index entries = .ok n ∧
        n.log.take (index + entries.length) = L.take (index + entries.length) ∧
        index + entries.length ≤ n.log.length) ∨
      ∃ j es, n.appendEntries index entries = .ok { n with
          log := L.take (index + entries.length), effects := n.effects ++ es } ∧
        index ≤ j ∧ j < index + entries.length ∧ index + entries.length ≤ L.length ∧
        n.log.take j = L.take j ∧ n.log[j]? ≠ L[j]? ∧
        ∀ x ∈ es, x = .truncated j := by
  intro entries
  induction entries with
  | nil =>
    intro index n _ htake hle _ _
    exact Or.inl ⟨rfl, htake, hle⟩
  | cons e entries ih =>
    intro index n hmatch htake hle hleL hpre
    have hlenL : index + (e :: entries).length ≤ L.length := by
      have := hpre.length_le
      rw [List.length_drop] at this
      omega
    obtain ⟨t, ht⟩ := hpre
    have he : L[index]? = some e := by
      have h0 : (L.drop index)[0]? = L[index + 0]? := List.getElem?_drop
      rw [← ht] at h0
      simpa using h0.symm
    have hlt := (List.getElem?_eq_some_iff.mp he).1
    have hpre' : entries <+: L.drop (index + 1) := by
      rw [← List.drop_drop, ← ht]
      exact List.prefix_append _ _
    have hlen : index + 1 + entries.length = index + (e :: entries).length := by
      rw [List.length_cons]; omega
    by_cases hin : index < n.log.length
    · obtain ⟨own, hown⟩ := exists_getElem?_of_lt hin
      have hstep : n.appendEntries index (e :: entries) =
          if own.term ≠ e.term then
            RaftNode.appendEntries (RaftNode.emit
              { n with log := n.log.take index ++ [e] } (.truncated index)) (index + 1) entries
          else n.appendEntries (index + 1) entries := by
        rw [RaftNode.appendEntries, if_pos hin, logAt_of_getElem? hown]
        rfl
      by_cases hterm : own.term ≠ e.term
      · -- the first disagreement: cut here, then push the rest
        refine Or.inr ⟨index, [.truncated index], ?_, le_rfl, by simp, hlenL, htake, ?_, by simp⟩
        · rw [hstep, if_pos hterm, appendEntries_push L entries (index + 1) _ (by
            rw [take_succ_of_getElem? he, ← htake]; rfl) hlt hpre', hlen]
          rfl
        · rw [hown, he]
          intro heq
          exact hterm (by rw [Option.some.inj heq])
      · push Not at hterm
        rw [hstep, if_neg (by simpa using hterm)]
        have hagree := hmatch index own e hown he hterm
        rcases ih (index + 1) n hmatch hagree hin hlt hpre' with ⟨h1, h2, h3⟩ |
          ⟨j, es, h1, h2, h3, h4, h5, h6, h7⟩
        · rw [hlen] at h2 h3
          exact Or.inl ⟨h1, h2, h3⟩
        · rw [hlen] at h1 h3 h4
          exact Or.inr ⟨j, es, h1, by omega, h3, h4, h5, h6, h7⟩
    · -- the own log ends here
      have hend : n.log.length = index := by omega
      have hlog : n.log = L.take index := by
        rw [← htake, List.take_of_length_le hend.le]
      refine Or.inr ⟨index, [], ?_, le_rfl, by simp, hlenL, htake, ?_, by simp⟩
      · rw [appendEntries_push L (e :: entries) index n hlog hleL ⟨t, ht⟩, List.append_nil]
      · rw [he, List.getElem?_eq_none (by omega)]
        simp

/-! ### `append_request` -/

/-- Marks of truncations change nothing the relation looks at. -/
theorem Run.truncations (h : Run ids a₀ s i held a es) : ∀ (es' : List (Effect C O S)),
    (∀ x ∈ es', ∃ k, x = .truncated k) → Run ids a₀ s i held a (es ++ es') := by
  intro es'
  induction es' using List.reverseRecOn with
  | nil =>
    intro _
    rwa [List.append_nil]
  | append_singleton rest x ih =>
    intro hx
    obtain ⟨k, rfl⟩ := hx x (by simp)
    have hrest := ih fun y hy => hx y (List.mem_append_left _ hy)
    rw [← List.append_assoc]
    exact hrest.mark trivial trivial

/-- The steps of the term log behind a loop of `append_request` that covered the first
`q` entries of the reign `r` of the own term. -/
theorem exists_adopt (hinv : Inv (quorums ids) a) {r : Reign NodeId (LogEntry C)} {q : ℕ}
    {log' : List (LogEntry C)} (hr : a.reign (a.term i) = some r) (hq : q ≤ r.log.length)
    (hlog : (log' = a.log i ∧ (a.log i).take q = r.log.take q) ∨
      ∃ j, j < q ∧ log' = r.log.take q ∧ (a.log i).take j = r.log.take j ∧
        (a.log i)[j]? ≠ r.log[j]?) :
    ∃ a', Moves (quorums ids) i a a' ∧ Inv (quorums ids) a' ∧ a'.log i = log' ∧
      q ≤ a'.acked i (a.term i) ∧ a'.term = a.term ∧ a'.vote = a.vote ∧ a'.reign = a.reign := by
  rcases hlog with ⟨rfl, htake⟩ | ⟨j, hj, rfl, hkeep, hne⟩
  · have hm : Moves (quorums ids) i a _ :=
      Relation.ReflTransGen.single (Step.ack a r q hr hq htake)
    refine ⟨_, hm, hm.inv hinv, rfl, ?_, rfl, rfl, rfl⟩
    dsimp only
    rw [update₂_self]
    exact le_max_right _ _
  · have hadopt := Step.adopt (Q := quorums ids) a r j q hr hj hq hkeep hne
    have hack := Step.ack (Q := quorums ids) (i := i)
      { a with log := Function.update a.log i (r.log.take q) } r q hr hq (by
        change (Function.update a.log i (r.log.take q) i).take q = r.log.take q
        rw [Function.update_self, List.take_take, min_self])
    have hm : Moves (quorums ids) i a _ := (Relation.ReflTransGen.single hadopt).tail hack
    refine ⟨_, hm, hm.inv hinv, Function.update_self _ _ _, ?_, rfl, rfl, rfl⟩
    dsimp only
    rw [update₂_self]
    exact le_max_right _ _

variable [RaftStateMachine S C O]

/-- **The tail of `append_request`** on a follower in the term of the request. -/
theorem Synced.appendAtPrev (h : Synced ids a₀ s i held a n) (hi : i ∈ ids) {p : NodeId}
    {msg : AppendRequest C} (hmsg : MsgOk ids a ⟨p, i, .appendRequest msg⟩)
    (hterm : n.currentTerm = msg.term) {leader : Option NodeId}
    (hrole : n.role = .follower leader) :
    ∃ n' a', n.appendAtPrev p msg = .ok n' ∧ Synced ids a₀ s i held a' n' ∧
      Progress n n' := by
  obtain ⟨hp, -, hne, -, r, hreign, hw, ⟨e, he, heterm⟩, hentries, hcommit, hcommitted⟩ := hmsg
  dsimp only at hp hne hreign hw he heterm hentries hcommit hcommitted
  have hpeer : p ∈ n.peerIds := h.node.mem_peers.mpr ⟨hp, hne⟩
  have hlogpos := h.node.log_pos
  have hprevL := (List.getElem?_eq_some_iff.mp he).1
  have hdterm : a.term i = n.currentTerm := h.node.disk.term
  have hdlog : a.log i = n.log := h.node.disk.log
  unfold RaftNode.appendAtPrev
  by_cases hshort : n.log.length ≤ msg.prevLogIndex
  · rw [if_pos hshort, if_neg (by omega)]
    have hsend := h.send hpeer (m := .appendResponse
      { term := n.currentTerm, matchIndex := n.log.length - 1, success := false }) trivial (by
      refine ⟨hi, hp, hne.symm, by simp, fun _ => Or.inr ⟨r, ?_, hw, ?_⟩⟩
      · dsimp only
        rw [hterm]
        exact hreign
      · dsimp only
        omega)
    exact ⟨_, a, rfl, hsend.1, hsend.2.1⟩
  · rw [if_neg hshort]
    obtain ⟨prev, hprev⟩ := exists_getElem?_of_lt (show msg.prevLogIndex < n.log.length by omega)
    simp only [logAt_of_getElem? hprev, bind, Except.bind]
    by_cases hmis : prev.term ≠ msg.prevLogTerm
    · rw [if_pos hmis]
      have hsend := h.send hpeer (m := .appendResponse
        { term := n.currentTerm, matchIndex := msg.prevLogIndex, success := false }) trivial (by
        refine ⟨hi, hp, hne.symm, by simp, fun _ => Or.inr ⟨r, ?_, hw, hprevL⟩⟩
        dsimp only
        rw [hterm]
        exact hreign)
      exact ⟨_, a, rfl, hsend.1, hsend.2.1⟩
    · rw [if_neg hmis]
      push Not at hmis
      -- the two logs match, by their terms at `prev_log_index`
      have hinv := h.run.mid.inv
      have hmatching : Matching n.log r.log := by
        intro k x y hx hy hxy
        rw [← hdlog] at hx ⊢
        exact (hinv.log_grounded i).matching (hinv.reign_grounded _ r hreign) hx hy hxy
      have hagree := hmatching msg.prevLogIndex prev e hprev he (hmis.trans heterm.symm)
      -- what is committed agrees with the log of the reign
      have hown : n.log.take (n.commitIndex + 1) = r.log.take (n.commitIndex + 1) := by
        have hpre := h.node.committed.log hinv le_rfl (hterm ▸ hreign)
        have hlt := h.node.commit_lt
        have htake := take_eq_of_initial hpre (k := n.commitIndex + 1)
          (by rw [List.length_take]; omega)
        rwa [List.take_take, min_self] at htake
      have hqL : msg.prevLogIndex + 1 + msg.entries.length ≤ r.log.length := by
        have := hentries.length_le
        rw [List.length_drop] at this
        omega
      obtain ⟨log', es', hloop, hlog', hmarks, hq, hkeep, htruncated⟩ :
          ∃ log' es', n.appendEntries (msg.prevLogIndex + 1) msg.entries = .ok { n with
              log := log', effects := n.effects ++ es' } ∧
            ((log' = a.log i ∧ (a.log i).take (msg.prevLogIndex + 1 + msg.entries.length) =
                r.log.take (msg.prevLogIndex + 1 + msg.entries.length)) ∨
              ∃ j, j < msg.prevLogIndex + 1 + msg.entries.length ∧
                log' = r.log.take (msg.prevLogIndex + 1 + msg.entries.length) ∧
                (a.log i).take j = r.log.take j ∧ (a.log i)[j]? ≠ r.log[j]?) ∧
            (∀ x ∈ es', ∃ k, x = .truncated k) ∧
            log'.take (msg.prevLogIndex + 1 + msg.entries.length) =
              r.log.take (msg.prevLogIndex + 1 + msg.entries.length) ∧
            log'.take (n.commitIndex + 1) = n.log.take (n.commitIndex + 1) ∧
            ∀ k, Effect.truncated k ∈ es' → n.commitIndex < k := by
        rw [hdlog]
        rcases appendEntries_spec r.log msg.entries (msg.prevLogIndex + 1) n hmatching hagree
          (by omega) (by omega) hentries with ⟨h1, h2, h3⟩ | ⟨j, es', h1, h2, h3, h4, h5, h6, h7⟩
        · refine ⟨n.log, [], ?_, Or.inl ⟨rfl, h2⟩, by simp, h2, rfl, by simp⟩
          rw [h1, List.append_nil]
        · have hj : n.commitIndex < j := by
            by_contra hle
            exact h6 (getElem?_of_take_eq hown (by omega))
          refine ⟨_, es', h1, Or.inr ⟨j, h3, rfl, h5, h6⟩, fun x hx => ⟨j, h7 x hx⟩, ?_, ?_, ?_⟩
          · rw [List.take_take, min_self]
          · rw [List.take_take, min_eq_left (by omega), hown]
          · intro k hk
            have := h7 _ hk
            injection this with hk'
            omega
      simp only [hloop]
      have hlen' : msg.prevLogIndex + 1 + msg.entries.length ≤ log'.length :=
        length_le_of_take_eq hq hqL
      have hclen' : n.commitIndex + 1 ≤ log'.length :=
        length_le_of_take_eq hkeep h.node.commit_lt
      rw [if_neg (by omega)]
      -- the node as it is when it saves
      obtain ⟨ci, hcieq, hcile, hcilt, hcicom⟩ : ∃ ci,
          (if n.commitIndex < msg.leaderCommit then
            ({ n with
              log := log'
              effects := n.effects ++ es'
              commitIndex := min msg.leaderCommit (log'.length - 1) } : RaftNode C O S)
          else { n with log := log', effects := n.effects ++ es' }) =
            { n with log := log', effects := n.effects ++ es', commitIndex := ci } ∧
          n.commitIndex ≤ ci ∧ ci < log'.length ∧
          CommittedBy (quorums ids) a n.currentTerm (log'.take (ci + 1)) := by
        by_cases hadv : n.commitIndex < msg.leaderCommit
        · refine ⟨min msg.leaderCommit (log'.length - 1), if_pos hadv, by omega, by omega, ?_⟩
          rw [hterm]
          refine hcommitted.mono (Le.refl a) le_rfl ?_
          rw [take_eq_of_take_eq hq (by omega)]
          exact List.take_prefix_take_left (by omega)
        · refine ⟨n.commitIndex, if_neg hadv, le_rfl, hclen', ?_⟩
          rw [hkeep]
          exact h.node.committed
      simp only [hcieq]
      obtain ⟨a', hm, -, halog, hack, haterm, havote, hareign⟩ :=
        exists_adopt (i := i) hinv (by rw [hdterm, hterm]; exact hreign) hqL hlog'
      have hrun : Run ids a₀ s i held a (n.effects ++ es') := h.run.truncations es' hmarks
      have hsync : Synced ids a₀ s i held a' (RaftNode.persistState
          { n with log := log', effects := n.effects ++ es', commitIndex := ci }) := by
        refine Synced.save hrun hm (hrun.lead_of_other hm ⟨p, hp, hne⟩) ?_
        refine ⟨h.node.id, h.node.peers, ⟨?_, halog, ?_⟩, ?_, hcilt, ?_, ?_⟩
        · rw [haterm]; exact hdterm
        · rw [haterm, havote]; exact h.node.disk.vote
        · exact h.node.applied_le.trans hcile
        · exact hcicom.mono hm.frame.le le_rfl (List.prefix_refl _)
        · have hr := h.node.role
          unfold RoleOk at hr ⊢
          rw [hrole] at hr
          dsimp only
          rw [hrole]
          intro l hl
          obtain ⟨r', hr', hw'⟩ := hr l hl
          exact ⟨r', by rw [hareign]; exact hr', hw'⟩
      obtain ⟨n₁, hn₁, hs₁, hp₁, hc₁⟩ := hsync.applyCommitted
      simp only [hn₁]
      have hpeer₁ : p ∈ n₁.peerIds := by rw [hc₁.peers]; exact hpeer
      have hsend := hs₁.send hpeer₁ (m := .appendResponse
        { term := n₁.currentTerm
          matchIndex := msg.prevLogIndex + msg.entries.length
          success := true }) trivial (by
        refine ⟨hi, hp, hne.symm, fun _ => ⟨r, ?_, hw, ?_⟩, by simp⟩
        · dsimp only
          rw [hc₁.term]
          change a'.reign n.currentTerm = some r
          rw [hareign, hterm]
          exact hreign
        · dsimp only
          rw [hc₁.term]
          change _ ≤ a'.acked i n.currentTerm
          rw [← hdterm]
          omega)
      refine ⟨_, a', rfl, hsend.1, ?_⟩
      have hp₀ : Progress n (RaftNode.persistState
          { n with log := log', effects := n.effects ++ es', commitIndex := ci }) := by
        refine ⟨hcile, le_rfl, es' ++ [.save ⟨n.currentTerm, n.votedFor, log'⟩], ?_, ?_⟩
        · change n.effects ++ es' ++ [.save ⟨n.currentTerm, n.votedFor, log'⟩] = _
          rw [List.append_assoc]
        intro k hk
        rcases List.mem_append.mp hk with hk | hk
        · exact htruncated k hk
        · simp at hk
      exact (hp₀.trans hp₁).trans hsend.2.1

omit [RaftStateMachine S C O] in
/-- A follower learns who leads its term. -/
theorem Synced.setLeader (h : Synced ids a₀ s i held a n) {l : NodeId}
    {r : Reign NodeId (LogEntry C)} (hr : a.reign n.currentTerm = some r)
    (hw : r.winner = some l) : Synced ids a₀ s i held a { n with role := .follower (some l) } := by
  refine ⟨h.run, h.node.id, h.node.peers, h.node.disk, h.node.applied_le, h.node.commit_lt,
    h.node.committed, ?_⟩
  intro l' hl'
  obtain rfl := Option.some.inj hl'
  exact ⟨r, hr, hw⟩

/-- The end of `append_request`, on a follower in the term of the request. -/
theorem Synced.appendAsFollower (h : Synced ids a₀ s i held a n) (hi : i ∈ ids) {p : NodeId}
    {msg : AppendRequest C} (hmsg : MsgOk ids a ⟨p, i, .appendRequest msg⟩)
    (hterm : n.currentTerm = msg.term) {leader : Option NodeId}
    (hrole : n.role = .follower leader) :
    ∃ n' a', RaftNode.appendAtPrev (match n.role with
          | .follower none => { n with role := .follower (some msg.leaderId) }
          | _ => n) p msg = .ok n' ∧
      Synced ids a₀ s i held a' n' ∧ Progress n n' := by
  rw [hrole]
  cases leader with
  | some l => exact h.appendAtPrev hi hmsg hterm hrole
  | none =>
    have hset : Synced ids a₀ s i held a { n with role := .follower (some msg.leaderId) } := by
      obtain ⟨-, -, -, hid, r, hr, hw, -⟩ := hmsg
      exact h.setLeader (hterm ▸ hr) (hid ▸ hw)
    obtain ⟨n', a', hn', hs', hp'⟩ := hset.appendAtPrev hi hmsg hterm rfl
    exact ⟨n', a', hn', hs', hp'.commit, hp'.applied, hp'.effects⟩

/-- **`append_request` does not panic**: no two leaders share a term, and every index it
reads is inside the log. -/
theorem Synced.appendRequest (h : Synced ids a₀ s i held a n) (hi : i ∈ ids) {p : NodeId}
    {msg : AppendRequest C} (hmsg : MsgOk ids a ⟨p, i, .appendRequest msg⟩) :
    ∃ n' a', n.appendRequest p msg = .ok n' ∧ Synced ids a₀ s i held a' n' ∧
      Progress n n' := by
  obtain ⟨hp, -, hne, -, r, hreign, hw, -⟩ := id hmsg
  dsimp only at hp hne hreign hw
  have hpeer : p ∈ n.peerIds := h.node.mem_peers.mpr ⟨hp, hne⟩
  unfold RaftNode.appendRequest
  by_cases hstale : msg.term < n.currentTerm
  · rw [if_pos hstale]
    have hsend := h.send hpeer (m := .appendResponse
      { term := n.currentTerm, matchIndex := 0, success := false }) trivial
      ⟨hi, hp, hne.symm, by simp, fun _ => Or.inl rfl⟩
    exact ⟨_, a, rfl, hsend.1, hsend.2.1⟩
  rw [if_neg hstale]
  by_cases hlt : n.currentTerm < msg.term
  · -- a newer term: the node is a follower from here on
    obtain ⟨a₁, hs₁, hm₁, hp₁, hterm₁, hrole₁, -⟩ := h.becomeFollower ⟨p, hp, hne⟩ hlt.le
    obtain ⟨n', a', hn', hs', hp'⟩ := hs₁.appendAsFollower hi (hmsg.mono hm₁.frame.le) hterm₁ hrole₁
    refine ⟨n', a', ?_, hs', hp₁.trans hp'⟩
    rw [hrole₁] at hn'
    simp only [if_pos hlt, hrole₁, Role.isLeader, Role.isCandidate, Bool.false_eq_true,
      false_and, if_false]
    exact hn'
  · have hterm : n.currentTerm = msg.term := by omega
    simp only [if_neg hlt]
    have hr := h.node.role
    unfold RoleOk at hr
    cases hrole : n.role with
    | follower leader =>
      obtain ⟨n', a', hn', hs', hp'⟩ := h.appendAsFollower hi hmsg hterm hrole
      refine ⟨n', a', ?_, hs', hp'⟩
      rw [hrole] at hn'
      simp only [hrole, Role.isLeader, Role.isCandidate, Bool.false_eq_true, false_and, if_false]
      exact hn'
    | candidate votes =>
      obtain ⟨a₁, hs₁, hm₁, hp₁, hterm₁, hrole₁, -⟩ := h.becomeFollower ⟨p, hp, hne⟩ hterm.le
      obtain ⟨n', a', hn', hs', hp'⟩ :=
        hs₁.appendAsFollower hi (hmsg.mono hm₁.frame.le) hterm₁ hrole₁
      refine ⟨n', a', ?_, hs', hp₁.trans hp'⟩
      rw [hrole₁] at hn'
      simp only [Role.isLeader, Role.isCandidate, Bool.false_eq_true, false_and, if_false, hterm,
        and_self, if_true, hrole₁]
      exact hn'
    | leader nextIndex matchIndex =>
      -- the reign of the term was won by the node and by the sender
      rw [hrole] at hr
      obtain ⟨⟨r', hr', hw', -⟩, -⟩ := hr
      rw [hterm, hreign] at hr'
      obtain rfl := Option.some.inj hr'
      exact absurd (Option.some.inj (hw.symm.trans hw')) hne

/-! ### `append_response` -/

omit [RaftStateMachine S C O] in
/-- The bookkeeping of a leader for one answer of peer `p`. -/
theorem Synced.setIndices (h : Synced ids a₀ s i held a n) {p : NodeId} (hpeer : p ∈ n.peerIds)
    {nextIndex matchIndex matchIndex' : PeerMap} (hrole : n.role = .leader nextIndex matchIndex)
    {x : ℕ} (hx1 : 1 ≤ x) (hxlen : x ≤ n.log.length)
    (hmatch' : ∀ q y, matchIndex'.lookup q = some y → matchIndex.lookup q = some y ∨
      q = p ∧ y + 1 ≤ a.acked p n.currentTerm) :
    Synced ids a₀ s i held a
      { n with role := .leader (nextIndex.insert p x) matchIndex' } := by
  have hr := h.node.role
  unfold RoleOk at hr
  rw [hrole] at hr
  obtain ⟨hreign, hown, hnext, hmatch, hlead⟩ := hr
  refine ⟨h.run, h.node.id, h.node.peers, h.node.disk, h.node.applied_le, h.node.commit_lt,
    h.node.committed, hreign, hown, ?_, ?_, hlead⟩
  · intro q hq
    by_cases hqp : q = p
    · subst hqp
      exact ⟨x, AList.lookup_insert _, hx1, hxlen⟩
    · obtain ⟨y, hy, hy1, hylen⟩ := hnext q hq
      exact ⟨y, by rw [AList.lookup_insert_ne hqp, hy], hy1, hylen⟩
  · intro q y hy
    rcases hmatch' q y hy with hold | ⟨rfl, hack⟩
    · exact hmatch q y hold
    · exact ⟨hpeer, Or.inr hack⟩

/-- **`append_response`** keeps `1 ≤ next_index ≤ log.len()` and every `match_index`
acknowledged, whatever the order the answers come in. -/
theorem Synced.appendResponse (h : Synced ids a₀ s i held a n) (hnd : ids.Nodup) (hi : i ∈ ids)
    {p : NodeId} {msg : AppendResponse} (hmsg : MsgOk ids a ⟨p, i, .appendResponse msg⟩) :
    ∃ n' a', n.appendResponse p msg = .ok n' ∧ Synced ids a₀ s i held a' n' ∧
      Progress n n' := by
  obtain ⟨hp, -, hne, hsucc, hfail⟩ := hmsg
  dsimp only at hp hne hsucc hfail
  have hpeer : p ∈ n.peerIds := h.node.mem_peers.mpr ⟨hp, hne⟩
  unfold RaftNode.appendResponse
  by_cases hstale : msg.term < n.currentTerm
  · rw [if_pos hstale]
    exact ⟨n, a, rfl, h, Progress.refl n⟩
  rw [if_neg hstale]
  by_cases hlt : n.currentTerm < msg.term
  · rw [if_pos hlt]
    obtain ⟨a₁, hs₁, -, hp₁, -⟩ := h.becomeFollower ⟨p, hp, hne⟩ hlt.le
    exact ⟨_, a₁, rfl, hs₁, hp₁⟩
  rw [if_neg hlt]
  have hterm : msg.term = n.currentTerm := by omega
  rw [hterm] at hsucc hfail
  cases hrole : n.role with
  | follower leader => exact ⟨n, a, rfl, h, Progress.refl n⟩
  | candidate votes => exact ⟨n, a, rfl, h, Progress.refl n⟩
  | leader nextIndex matchIndex =>
    have hr := h.node.role
    unfold RoleOk at hr
    rw [hrole] at hr
    obtain ⟨⟨r, hreign, hw, hlog⟩, -⟩ := hr
    have hpos := h.node.log_pos
    have hlen : r.log.length = n.log.length := by rw [hlog]
    -- the role after the answer
    obtain ⟨role', hrole', hset⟩ : ∃ role',
        (if msg.success then
          Role.leader (nextIndex.insert p (msg.matchIndex + 1))
            (matchIndex.insert p msg.matchIndex)
        else Role.leader (nextIndex.insert p (max (msg.matchIndex - 1) 1)) matchIndex) = role' ∧
        Synced ids a₀ s i held a { n with role := role' } := by
      cases hs : msg.success with
      | true =>
        obtain ⟨r', hr', -, hack⟩ := hsucc hs
        have hacked := h.run.mid.inv.acked_len p _ r' hr'
        rw [hreign] at hr'
        obtain rfl := Option.some.inj hr'
        refine ⟨_, if_pos rfl, h.setIndices hpeer hrole (by omega) (by omega) ?_⟩
        intro q y hy
        by_cases hqp : q = p
        · subst hqp
          rw [AList.lookup_insert] at hy
          obtain rfl := Option.some.inj hy
          exact Or.inr ⟨rfl, hack⟩
        · rw [AList.lookup_insert_ne hqp] at hy
          exact Or.inl hy
      | false =>
        have hbound : msg.matchIndex < n.log.length := by
          rcases hfail hs with h0 | ⟨r', hr', -, hlt'⟩
          · omega
          · rw [hreign] at hr'
            obtain rfl := Option.some.inj hr'
            omega
        exact ⟨_, if_neg (by simp), h.setIndices hpeer hrole (le_max_right _ _) (by omega)
          fun q y hy => Or.inl hy⟩
    simp only [hrole']
    obtain ⟨n₁, h₁, hs₁, hp₁, -⟩ := hset.advanceCommit hnd hi
    obtain ⟨n₂, h₂, hs₂, hp₂, -⟩ := hs₁.applyCommitted
    simp only [h₁, h₂, bind, Except.bind]
    have hp := hp₁.trans hp₂
    exact ⟨n₂, a, rfl, hs₂, hp.commit, hp.applied, hp.effects⟩

/-! ### `client_command` -/

/-- **An accepted `Apply`** proposes its entry in the reign of the leader. -/
theorem Synced.applyCommand (h : Synced ids a₀ s i held a n) (hnd : ids.Nodup) (hi : i ∈ ids)
    {nextIndex matchIndex : PeerMap} (hrole : n.role = .leader nextIndex matchIndex)
    (command : C) (reply : Sender) :
    ∃ n' a', n.clientCommand (.apply command reply) = .ok n' ∧ Synced ids a₀ s i held a' n' ∧
      Progress n n' := by
  have hr := h.node.role
  unfold RoleOk at hr
  rw [hrole] at hr
  obtain ⟨⟨r, hreign, hw, hlog⟩, hown, hnext, hmatch, hlead⟩ := hr
  have hdterm : a.term i = n.currentTerm := h.node.disk.term
  have hdlog : a.log i = n.log := h.node.disk.log
  let entry : LogEntry C := ⟨n.currentTerm, .command command⟩
  -- propose the entry, then take it over
  let a₁ : Spec C := { a with
    reign := Function.update a.reign n.currentTerm (some { r with log := r.log ++ [entry] }) }
  have hpropose : Step (quorums ids) i a a₁ :=
    Step.propose a n.currentTerm r entry hreign hw rfl
  obtain ⟨a', hm', halog, hack, haterm, havote, hareign⟩ :=
    exists_takeOwn (Q := quorums ids) (s := a₁) (i := i)
      (r := { r with log := r.log ++ [entry] }) (e := entry)
      (by change Function.update a.reign _ _ (a.term i) = _; rw [hdterm, Function.update_self])
      (by change r.log ++ [entry] = a.log i ++ [entry]; rw [hdlog, hlog])
  have hm : Moves (quorums ids) i a a' := (Relation.ReflTransGen.single hpropose).trans hm'
  have hreign' : a'.reign n.currentTerm = some { r with log := r.log ++ [entry] } := by
    rw [hareign]
    exact Function.update_self _ _ _
  let m : RaftNode C O S := { n with
    log := n.log ++ [entry]
    pendingApplies := n.pendingApplies.insert n.log.length reply
    effects := n.effects ++ [.accepted n.log.length n.currentTerm command reply] }
  have hrun : Run ids a₀ s i held a m.effects := h.run.mark trivial trivial
  have htrace : ∀ t l, (i, Effect.becameLeader t l) ∈ (s.perform i m.effects).trace →
      Crowned a' i t l := by
    intro t l hl
    rw [Cluster.perform_append, Cluster.perform_singleton, Cluster.performOne_trace] at hl
    rcases List.mem_append.mp hl with hl | hl
    · exact (hlead t l hl).mono hm.frame.le
    · exact absurd (Prod.mk.inj (List.mem_singleton.mp hl)).2 (by simp)
  have hsync : Synced ids a₀ s i held a' m.persistState := by
    refine Synced.save hrun hm (fun t l hl => Or.inl (htrace t l hl)) ?_
    have hlen : m.log.length = n.log.length + 1 := by simp [m]
    have hclt := h.node.commit_lt
    refine ⟨h.node.id, h.node.peers, ⟨?_, ?_, ?_⟩, h.node.applied_le, ?_, ?_, ?_⟩
    · rw [haterm]; exact hdterm
    · rw [halog]
      change r.log ++ [entry] = n.log ++ [entry]
      rw [hlog]
    · rw [haterm, havote]; exact h.node.disk.vote
    · change n.commitIndex < m.log.length
      omega
    · change CommittedBy (quorums ids) a' n.currentTerm ((n.log ++ [entry]).take _)
      rw [List.take_append_of_le_length hclt]
      exact h.node.committed.mono hm.frame.le le_rfl (List.prefix_refl _)
    · unfold RoleOk
      have hmrole : m.role = .leader nextIndex matchIndex := hrole
      rw [hmrole]
      refine ⟨⟨_, hreign', hw, by rw [hlog]⟩, ?_, ?_, ?_, htrace⟩
      · change (n.log ++ [entry]).length ≤ a'.acked i n.currentTerm
        rw [← hlog, ← hdterm]
        exact hack
      · intro q hq
        obtain ⟨x, hx, hx1, hxlen⟩ := hnext q hq
        exact ⟨x, hx, hx1, by omega⟩
      · intro q x hx
        obtain ⟨hq, hx⟩ := hmatch q x hx
        exact ⟨hq, hx.imp id fun hx => hx.trans (hm.frame.le.acked _ _)⟩
  obtain ⟨n', hn', hs', hp', -⟩ := hsync.leaderTail hnd hi (by
    change n.role.isLeader = true
    rw [hrole]
    rfl)
  have hp : Progress n m.persistState := by
    refine ⟨le_rfl, le_rfl, [.accepted n.log.length n.currentTerm command reply,
      .save ⟨n.currentTerm, n.votedFor, n.log ++ [entry]⟩], ?_, by simp⟩
    exact List.append_assoc n.effects [_] [_]
  refine ⟨n', a', ?_, hs', hp.trans hp'⟩
  have hleader : RaftNode.requireLeader n.role = none := by rw [hrole]; rfl
  unfold RaftNode.clientCommand
  simp only [hleader]
  exact hn'

omit [RaftStateMachine S C O] in
/-- Answering a client changes nothing. -/
theorem Synced.reply (h : Synced ids a₀ s i held a n) (channel : Sender) (answer : Reply C O) :
    Synced ids a₀ s i held a (n.emit (.reply channel answer)) ∧
      Progress n (n.emit (.reply channel answer)) :=
  ⟨h.mark rfl trivial (by simp) trivial (h.node.of_effects _),
    Progress.of_effect le_rfl le_rfl rfl (by simp)⟩

/-- **`client_command` does not panic.** -/
theorem Synced.clientCommand (h : Synced ids a₀ s i held a n) (hnd : ids.Nodup) (hi : i ∈ ids)
    (command : ClientCommands C) :
    ∃ n' a', n.clientCommand command = .ok n' ∧ Synced ids a₀ s i held a' n' ∧
      Progress n n' := by
  have hreply : ∀ (channel : Sender) (answer : Reply C O), ∃ n' a',
      (Except.ok (n.emit (.reply channel answer)) : Except Panic (RaftNode C O S)) = .ok n' ∧
        Synced ids a₀ s i held a' n' ∧ Progress n n' :=
    fun channel answer => ⟨_, a, rfl, h.reply channel answer⟩
  cases command with
  | apply command reply =>
    cases hrole : n.role with
    | leader nextIndex matchIndex => exact h.applyCommand hnd hi hrole command reply
    | candidate votes =>
      unfold RaftNode.clientCommand
      rw [hrole]
      exact hreply reply _
    | follower leader =>
      unfold RaftNode.clientCommand
      rw [hrole]
      cases leader <;> exact hreply reply _
  | isLeader reply =>
    unfold RaftNode.clientCommand
    cases RaftNode.requireLeader n.role <;> exact hreply reply _
  | getLog reply => exact hreply reply _
  | getLogEntry index reply => exact hreply reply _
  | getStatus reply => exact hreply reply _

end Raft
end KvRaft
