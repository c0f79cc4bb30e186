import KvRaft.Raft.Turn

/-!
# Late and repeated requests

One leader of a term sends slices of one log `L`. A follower of that term may get them in
any order and any number of times. `Following` is what the follower and `L` have to agree
on, and `Handled` is what one `append_request` does about a slice: it answers, it keeps
every agreement with `L` there was, and a slice that it accepts makes it agree up to the
last index of the slice.

From that an induction over the requests gives that what was accepted once stays
(`accepted_replication_kept`). A short slice that comes late finds its entries in place;
the loop of `append_request` compares and changes nothing, so the longer log behind them
survives.
-/

namespace KvRaft
namespace Raft

open TermLog

variable {C O S : Type} {L : List (LogEntry C)} {T : ℕ} {f g n n' : RaftNode C O S}

/-! ### Slices of a log -/

/-- What one request for the log `L` covers: the entries after `prev` up to `last`. -/
structure Slice (L : List (LogEntry C)) where
  prev : ℕ
  last : ℕ
  leaderId : NodeId
  leaderCommit : ℕ
  prev_le : prev ≤ last
  last_lt : last < L.length
  commit_le : leaderCommit ≤ last

/-- The request of term `T` for a slice. -/
def Slice.request (x : Slice L) (T : ℕ) : AppendRequest C :=
  { term := T
    leaderId := x.leaderId
    prevLogIndex := x.prev
    prevLogTerm := (L.get ⟨x.prev, x.prev_le.trans_lt x.last_lt⟩).term
    entries := (L.take (x.last + 1)).drop (x.prev + 1)
    leaderCommit := x.leaderCommit }

theorem Slice.prev_lt (x : Slice L) : x.prev < L.length :=
  x.prev_le.trans_lt x.last_lt

theorem Slice.length_entries (x : Slice L) : (x.request T).entries.length = x.last - x.prev := by
  have := x.last_lt
  simp only [request, List.length_drop, List.length_take]
  omega

theorem Slice.entries_prefix (x : Slice L) : (x.request T).entries <+: L.drop (x.prev + 1) := by
  have h := List.take_prefix (x.last - x.prev) (L.drop (x.prev + 1))
  rwa [List.take_drop, show x.prev + 1 + (x.last - x.prev) = x.last + 1 by
    have := x.prev_le; omega] at h

/-- The check of `append_request` at `prev_log_index`, which decides about the answer. -/
def Accepts (f : RaftNode C O S) (msg : AppendRequest C) : Prop :=
  ∃ e, f.log[msg.prevLogIndex]? = some e ∧ e.term = msg.prevLogTerm

/-- A follower in term `T` and the log `L` of the leader of that term. They agree up to the
commit index, so at least on entry 0. -/
structure Following (L : List (LogEntry C)) (T : ℕ) (f : RaftNode C O S) : Prop where
  term : f.currentTerm = T
  role : ∃ leader, f.role = .follower leader
  matching : Matching f.log L
  agree : f.log.take (f.commitIndex + 1) = L.take (f.commitIndex + 1)
  applied_le : f.lastApplied ≤ f.commitIndex
  commit_lt : f.commitIndex < f.log.length
  commit_lt_leader : f.commitIndex < L.length

/-! ### Applying what is committed -/

/-- An effect that sends nothing. -/
def Quiet (e : Effect C O S) : Prop := ∀ p m, e ≠ .send p m

/-- `n'` is `n` after effects that send nothing; log, role and commit index are the same. -/
structure Settled (n n' : RaftNode C O S) : Prop where
  core : SameCore n n'
  id : n'.id = n.id
  commit : n'.commitIndex = n.commitIndex
  effects : ∃ es, n'.effects = n.effects ++ es ∧ ∀ e ∈ es, Quiet e

theorem Settled.refl (n : RaftNode C O S) : Settled n n :=
  ⟨SameCore.refl n, rfl, rfl, [], by simp, by simp⟩

theorem Settled.trans {n₁ n₂ n₃ : RaftNode C O S} (h₁ : Settled n₁ n₂) (h₂ : Settled n₂ n₃) :
    Settled n₁ n₃ := by
  obtain ⟨es, hes, hq⟩ := h₁.effects
  obtain ⟨es', hes', hq'⟩ := h₂.effects
  refine ⟨h₁.core.trans h₂.core, h₂.id.trans h₁.id, h₂.commit.trans h₁.commit, es ++ es', ?_, ?_⟩
  · rw [hes', hes, List.append_assoc]
  · intro e he
    rcases List.mem_append.mp he with he | he
    · exact hq e he
    · exact hq' e he

section Apply

variable [RaftStateMachine S C O]

/-- One turn of the loop of `apply_committed`, at an index inside the log. -/
theorem exists_applyTurn (hlt : n.lastApplied + 1 < n.log.length) :
    ∃ n', RaftNode.applyCommittedLoop 1 n = .ok n' ∧ Settled n n' ∧
      n'.lastApplied = n.lastApplied + 1 := by
  obtain ⟨entry, hentry⟩ := exists_getElem?_of_lt hlt
  obtain ⟨n', hn'⟩ : ∃ n', RaftNode.applyCommittedLoop 1 n = .ok n' := by
    rw [RaftNode.applyCommittedLoop, logAt_of_getElem? (by exact hentry)]
    simp only [bind, Except.bind]
    obtain ⟨term, command⟩ := entry
    cases command with
    | noOp => exact ⟨_, rfl⟩
    | command cmd =>
      dsimp only
      split <;> exact ⟨_, rfl⟩
  refine ⟨n', hn', ?_⟩
  obtain ⟨entry, -, ⟨term, rfl, rfl⟩ | ⟨term, cmd, rfl, ⟨-, rfl⟩ | ⟨reply, -, rfl⟩⟩⟩ :=
    RaftNode.lastApplied_turn hn'
  · exact ⟨⟨⟨rfl, rfl, rfl, rfl⟩, rfl, rfl, [.applied _ _ _], rfl, by simp [Quiet]⟩, rfl⟩
  · exact ⟨⟨⟨rfl, rfl, rfl, rfl⟩, rfl, rfl, [.applied _ _ _], rfl, by simp [Quiet]⟩, rfl⟩
  · exact ⟨⟨⟨rfl, rfl, rfl, rfl⟩, rfl, rfl, _, List.append_assoc _ _ _, by simp [Quiet]⟩, rfl⟩

/-- The loop of `apply_committed` does not panic while it stays inside the log. -/
theorem exists_applyLoop : ∀ (turns : ℕ) {n : RaftNode C O S},
    (0 < turns → n.lastApplied + turns < n.log.length) →
    ∃ n', RaftNode.applyCommittedLoop turns n = .ok n' ∧ Settled n n' ∧
      n'.lastApplied = n.lastApplied + turns
  | 0, n, _ => ⟨n, rfl, Settled.refl n, rfl⟩
  | turns + 1, n, h => by
    have hlt := h (Nat.succ_pos turns)
    obtain ⟨n₁, hn₁, hs₁, ha₁⟩ := exists_applyTurn (n := n) (by omega)
    obtain ⟨n₂, hn₂, hs₂, ha₂⟩ := exists_applyLoop turns (n := n₁) (by
      intro _
      rw [hs₁.core.log, ha₁]
      omega)
    refine ⟨n₂, ?_, hs₁.trans hs₂, by omega⟩
    rw [applyCommittedLoop_succ, hn₁]
    exact hn₂

/-- `apply_committed` does not panic when what is committed is in the log. -/
theorem exists_applyCommitted (hlt : n.commitIndex < n.log.length) :
    ∃ n', n.applyCommitted = .ok n' ∧ Settled n n' ∧
      n'.lastApplied = max n.lastApplied n.commitIndex := by
  obtain ⟨n', hn', hs, ha⟩ := exists_applyLoop (n.commitIndex - n.lastApplied) (n := n) (by omega)
  exact ⟨n', hn', hs, by omega⟩

end Apply

/-! ### What is sent -/

/-- The first message that some effects hand to the worker of `peerId`. -/
def sentTo (peerId : NodeId) (effects : List (Effect C O S)) : Option (RaftMessage C) :=
  effects.findSome? fun e =>
    match e with
    | .send toId message => if toId = peerId then some message else none
    | _ => none

theorem sendMessage_of_mem {p : NodeId} (hp : p ∈ n.peerIds) (m : RaftMessage C) :
    n.sendMessage p m = { n with effects := n.effects ++ [.send p m] } :=
  if_pos hp

/-- What comes after effects that send nothing is what is sent. -/
theorem sentTo_sendMessage {p : NodeId} {es : List (Effect C O S)} (hes : n.effects = es)
    (hquiet : ∀ e ∈ es, Quiet e) (hp : p ∈ n.peerIds) (m : RaftMessage C) :
    sentTo p (n.sendMessage p m).effects = some m := by
  have hnone : sentTo p es = none := by
    refine List.findSome?_eq_none_iff.mpr fun e he => ?_
    have := hquiet e he
    cases e <;> simp [Quiet] at this ⊢
  rw [RaftNode.sendMessage, if_pos hp]
  change sentTo p (n.effects ++ [.send p m]) = some m
  rw [hes]
  unfold sentTo at hnone ⊢
  rw [List.findSome?_append, hnone]
  simp

/-! ### One request -/

/-- What a follower has done about a slice when it sends its answer. -/
structure Handled (T : ℕ) (f : RaftNode C O S) (x : Slice L) (g : RaftNode C O S)
    (answer : AppendResponse) : Prop where
  following : Following L T g
  commit : f.commitIndex ≤ g.commitIndex
  /-- No agreement with the leader's log is lost. -/
  kept : ∀ k < L.length, f.log.take (k + 1) = L.take (k + 1) → g.log.take (k + 1) = L.take (k + 1)
  /-- A slice that is in place changes nothing. -/
  same : f.log.take (x.last + 1) = L.take (x.last + 1) → g.log = f.log
  id : g.id = f.id
  peers : g.peerIds = f.peerIds
  effects : ∃ es, g.effects = f.effects ++ es ∧ ∀ e ∈ es, Quiet e
  term : answer.term = T
  success_iff : answer.success = true ↔ Accepts f (x.request T)
  success : answer.success = true →
    answer.matchIndex = x.last ∧ g.log.take (x.last + 1) = L.take (x.last + 1)
  refusal : answer.success = false → g.log = f.log ∧ 0 < x.prev ∧ answer.matchIndex ≤ x.prev

/-- A follower that knows its leader. -/
theorem Following.setLeader (h : Following L T f) (leader : Option NodeId) :
    Following L T { f with role := .follower leader } :=
  ⟨h.term, ⟨leader, rfl⟩, h.matching, h.agree, h.applied_le, h.commit_lt, h.commit_lt_leader⟩

/-- A log cut from `L` matches it. -/
theorem matching_take (k : ℕ) : Matching (L.take k) L := by
  intro j e e' he _ _
  have hlt := (List.getElem?_eq_some_iff.mp he).1
  rw [List.length_take] at hlt
  rw [List.take_take, min_eq_left (by omega)]

/-- The loop of `append_request` over an accepted slice. -/
theorem Following.appendEntries (h : Following L T f) (x : Slice L)
    (hacc : Accepts f (x.request T)) :
    ∃ log es, f.appendEntries (x.prev + 1) (x.request T).entries =
        .ok { f with log := log, effects := f.effects ++ es } ∧
      (∀ e ∈ es, Quiet e) ∧ Matching log L ∧
      log.take (x.last + 1) = L.take (x.last + 1) ∧
      (∀ k < L.length, f.log.take (k + 1) = L.take (k + 1) →
        log.take (k + 1) = L.take (k + 1)) ∧
      (f.log.take (x.last + 1) = L.take (x.last + 1) → log = f.log) := by
  obtain ⟨e, he, hterm⟩ := hacc
  have hprev := x.prev_lt
  have hlast : x.prev + 1 + (x.request T).entries.length = x.last + 1 := by
    have := x.prev_le
    rw [x.length_entries]
    omega
  have hagree : f.log.take (x.prev + 1) = L.take (x.prev + 1) :=
    h.matching x.prev e L[x.prev] he (List.getElem?_eq_getElem hprev) hterm
  have hlen : x.prev < f.log.length := (List.getElem?_eq_some_iff.mp he).1
  rcases appendEntries_spec L (x.request T).entries (x.prev + 1) f h.matching hagree hlen hprev
    x.entries_prefix with ⟨h1, h2, h3⟩ | ⟨j, es, h1, h2, h3, h4, h5, h6, h7⟩
  · rw [hlast] at h2
    refine ⟨f.log, [], ?_, by simp, h.matching, h2, fun k _ hk => hk, fun _ => rfl⟩
    rw [h1, List.append_nil]
  · rw [hlast] at h1 h3
    -- what agreed with `L` before ends below the cut
    have hbelow : ∀ k, f.log.take (k + 1) = L.take (k + 1) → k < j := by
      intro k hk
      by_contra hle
      exact h6 (getElem?_of_take_eq hk (by omega))
    refine ⟨_, es, h1, fun x hx => ?_, matching_take _, ?_, fun k _ hk => ?_, fun hsame => ?_⟩
    · rw [h7 x hx]
      simp [Quiet]
    · rw [List.take_take, min_self]
    · have := hbelow k hk
      rw [List.take_take, min_eq_left (by omega)]
    · have := hbelow _ hsame
      omega

variable [RaftStateMachine S C O]

/-- **The tail of `append_request`** for a slice of the leader's log. -/
theorem Following.appendAtPrev (h : Following L T f) (src : NodeId) (x : Slice L) :
    ∃ g answer, f.appendAtPrev src (x.request T) =
        .ok (g.sendMessage src (.appendResponse answer)) ∧ Handled T f x g answer := by
  have hfirst : f.log.take 1 = L.take 1 := by
    have htake := congrArg (List.take 1) h.agree
    rwa [List.take_take, List.take_take, min_eq_left (by omega)] at htake
  have hpos := h.commit_lt
  -- the two refusals differ in the index of the answer alone
  have hrefuse : ∀ matchIndex ≤ x.prev, ¬ Accepts f (x.request T) →
      Handled T f x f ⟨f.currentTerm, matchIndex, false⟩ := by
    intro matchIndex hle hno
    refine ⟨h, le_rfl, fun _ _ hk => hk, fun _ => rfl, rfl, rfl, ⟨[], by simp, by simp⟩,
      h.term, by simpa using hno, by simp, fun _ => ⟨rfl, ?_, hle⟩⟩
    by_contra hzero
    obtain ⟨e, he⟩ := exists_getElem?_of_lt (show 0 < f.log.length by omega)
    have hx : x.prev = 0 := by omega
    have heL : L[0]? = some e := by rw [← getElem?_of_take_eq hfirst (Nat.zero_lt_one), he]
    refine hno ⟨e, by simpa only [Slice.request, hx] using he, ?_⟩
    have hat := (List.getElem?_eq_some_iff.mp heL).2
    simp only [Slice.request, List.get_eq_getElem, hx, hat]
  unfold RaftNode.appendAtPrev
  by_cases hshort : f.log.length ≤ (x.request T).prevLogIndex
  · rw [if_pos hshort, if_neg (by omega)]
    refine ⟨f, _, rfl, hrefuse _ (by simp only [Slice.request] at hshort; omega) ?_⟩
    rintro ⟨e, he, -⟩
    have := (List.getElem?_eq_some_iff.mp he).1
    omega
  · rw [if_neg hshort]
    obtain ⟨prev, hprev⟩ := exists_getElem?_of_lt (not_le.mp hshort)
    simp only [logAt_of_getElem? hprev, bind, Except.bind]
    by_cases hmis : prev.term ≠ (x.request T).prevLogTerm
    · rw [if_pos hmis]
      refine ⟨f, _, rfl, hrefuse _ le_rfl ?_⟩
      rintro ⟨e, he, heterm⟩
      rw [hprev] at he
      obtain rfl := Option.some.inj he
      exact hmis heterm
    · rw [if_neg hmis]
      push Not at hmis
      have hacc : Accepts f (x.request T) := ⟨prev, hprev, hmis⟩
      obtain ⟨log, es, hloop, hquiet, hmatching, hlast, hkept, hsame⟩ := h.appendEntries x hacc
      change f.appendEntries ((x.request T).prevLogIndex + 1) _ = _ at hloop
      simp only [hloop]
      have hlen : x.last < log.length := length_le_of_take_eq hlast x.last_lt
      have hagree := hkept _ h.commit_lt_leader h.agree
      have hclen : f.commitIndex < log.length := length_le_of_take_eq hagree h.commit_lt_leader
      have hcommit := x.commit_le
      rw [if_neg (by omega)]
      -- the node as it is when it saves
      obtain ⟨ci, hcieq, hcile, hcilt, hciL, hciagree⟩ : ∃ ci,
          (if f.commitIndex < (x.request T).leaderCommit then
            ({ f with
              log := log
              effects := f.effects ++ es
              commitIndex := min (x.request T).leaderCommit (log.length - 1) } : RaftNode C O S)
          else { f with log := log, effects := f.effects ++ es }) =
            { f with log := log, effects := f.effects ++ es, commitIndex := ci } ∧
          f.commitIndex ≤ ci ∧ ci < log.length ∧ ci < L.length ∧
          log.take (ci + 1) = L.take (ci + 1) := by
        by_cases hadv : f.commitIndex < (x.request T).leaderCommit
        · have hadv' : f.commitIndex < x.leaderCommit := hadv
          have hmin : min (x.request T).leaderCommit (log.length - 1) = x.leaderCommit := by
            change min x.leaderCommit _ = _
            omega
          refine ⟨x.leaderCommit, by rw [if_pos hadv, hmin], hadv'.le, by omega,
            hcommit.trans_lt x.last_lt, take_eq_of_take_eq hlast (by omega)⟩
        · exact ⟨f.commitIndex, if_neg hadv, le_rfl, hclen, h.commit_lt_leader, hagree⟩
      simp only [hcieq]
      obtain ⟨n₁, hn₁, hs₁, ha₁⟩ := exists_applyCommitted (n := RaftNode.persistState
        { f with log := log, effects := f.effects ++ es, commitIndex := ci }) hcilt
      simp only [hn₁]
      have hlog₁ : n₁.log = log := hs₁.core.log
      have hci₁ : n₁.commitIndex = ci := hs₁.commit
      obtain ⟨es₁, hes₁, hquiet₁⟩ := hs₁.effects
      refine ⟨n₁, _, rfl, ⟨hs₁.core.term.trans h.term, ?_, hlog₁ ▸ hmatching, ?_, ?_, ?_, ?_⟩,
        hci₁ ▸ hcile, hlog₁ ▸ hkept, hlog₁ ▸ hsame, hs₁.id, hs₁.core.peers, ?_,
        hs₁.core.term.trans h.term, by simpa using hacc, fun _ => ⟨?_, hlog₁ ▸ hlast⟩, by simp⟩
      · obtain ⟨leader, hleader⟩ := h.role
        exact ⟨leader, hs₁.core.role.trans hleader⟩
      · rw [hlog₁, hci₁]
        exact hciagree
      · have happlied := h.applied_le
        change n₁.lastApplied = max f.lastApplied ci at ha₁
        omega
      · rw [hlog₁, hci₁]
        exact hcilt
      · rw [hci₁]
        exact hciL
      · refine ⟨es ++ .save ⟨f.currentTerm, f.votedFor, log⟩ :: es₁, ?_, ?_⟩
        · rw [hes₁]
          simp [RaftNode.persistState, RaftNode.emit]
        · intro e he
          rcases List.mem_append.mp he with he | he
          · exact hquiet e he
          · rcases List.mem_cons.mp he with rfl | he
            · simp [Quiet]
            · exact hquiet₁ e he
      · have := x.prev_le
        rw [x.length_entries]
        change x.prev + (x.last - x.prev) = x.last
        omega

/-- **`append_request`** for a slice of the leader's log. -/
theorem Following.appendRequest (h : Following L T f) (src : NodeId) (x : Slice L) :
    ∃ g answer, f.appendRequest src (x.request T) =
        .ok (g.sendMessage src (.appendResponse answer)) ∧ Handled T f x g answer := by
  obtain ⟨leader, hleader⟩ := h.role
  have hterm : (x.request T).term = f.currentTerm := h.term.symm
  unfold RaftNode.appendRequest
  rw [if_neg (by omega), if_neg (show ¬ f.currentTerm < (x.request T).term by omega),
    if_neg (by rw [hleader]; simp [Role.isLeader]),
    if_neg (by rw [hleader]; simp [Role.isCandidate])]
  simp only [hleader]
  cases leader with
  | some leader => exact h.appendAtPrev src x
  | none =>
    obtain ⟨g, answer, hg, hh⟩ := (h.setLeader (some x.leaderId)).appendAtPrev src x
    exact ⟨g, answer, hg, hh.following, hh.commit, hh.kept, hh.same, hh.id, hh.peers, hh.effects,
      hh.term, hh.success_iff, hh.success, hh.refusal⟩

/-- The check at `prev_log_index` is what the answer tells. -/
theorem Following.answer (h : Following L T f) (hidle : f.effects = []) {src : NodeId}
    (hsrc : src ∈ f.peerIds) (x : Slice L) :
    ∃ g answer, f.appendRequest src (x.request T) =
        .ok { g with effects := g.effects ++ [.send src (.appendResponse answer)] } ∧
      sentTo src (g.effects ++ [.send src (.appendResponse answer)]) =
        some (.appendResponse answer) ∧
      (answer.success = true ↔ Accepts f (x.request T)) ∧ Handled T f x g answer := by
  obtain ⟨g, answer, hg, hh⟩ := h.appendRequest src x
  obtain ⟨es, hes, hquiet⟩ := hh.effects
  have hsrc' : src ∈ g.peerIds := by
    rw [hh.peers]
    exact hsrc
  have hsent := sentTo_sendMessage (hes.trans (by rw [hidle, List.nil_append])) hquiet hsrc'
    (.appendResponse answer)
  rw [sendMessage_of_mem hsrc'] at hg hsent
  exact ⟨g, answer, hg, hsent, hh.success_iff, hh⟩

/-! ### Any sequence of requests -/

/-- The follower handles requests of term `T` one after the other, each from its sender. -/
def deliver (T : ℕ) (f : RaftNode C O S) (requests : List (NodeId × Slice L)) :
    Except Panic (RaftNode C O S) :=
  requests.foldlM (fun f x => f.appendRequest x.1 (x.2.request T)) f

omit [RaftStateMachine S C O] in
theorem Following.sendMessage (h : Following L T f) (p : NodeId) (m : RaftMessage C) :
    Following L T (f.sendMessage p m) := by
  unfold RaftNode.sendMessage
  split
  · exact ⟨h.term, h.role, h.matching, h.agree, h.applied_le, h.commit_lt, h.commit_lt_leader⟩
  · exact h

/-- What any number of requests preserve. -/
structure Onward (L : List (LogEntry C)) (T : ℕ) (f g : RaftNode C O S) : Prop where
  following : Following L T g
  commit : f.commitIndex ≤ g.commitIndex
  kept : ∀ k < L.length, f.log.take (k + 1) = L.take (k + 1) → g.log.take (k + 1) = L.take (k + 1)

/-- One request, as a step of the follower alone. -/
theorem Following.step (h : Following L T f) (src : NodeId) (x : Slice L) :
    ∃ g, f.appendRequest src (x.request T) = .ok g ∧ Onward L T f g ∧
      (Accepts f (x.request T) → g.log.take (x.last + 1) = L.take (x.last + 1)) ∧
      (¬ Accepts f (x.request T) → g.log = f.log) ∧
      (f.log.take (x.last + 1) = L.take (x.last + 1) → g.log = f.log) := by
  obtain ⟨g, answer, hg, hh⟩ := h.appendRequest src x
  have hcommit : (g.sendMessage src (.appendResponse answer)).commitIndex = g.commitIndex := by
    unfold RaftNode.sendMessage
    split <;> rfl
  have hlog : (g.sendMessage src (.appendResponse answer)).log = g.log := by
    unfold RaftNode.sendMessage
    split <;> rfl
  refine ⟨_, hg, ⟨hh.following.sendMessage _ _, hcommit ▸ hh.commit, hlog ▸ hh.kept⟩,
    fun hacc => ?_, fun hno => ?_, hlog ▸ hh.same⟩
  · rw [hlog]
    exact (hh.success (hh.success_iff.mpr hacc)).2
  · rw [hlog]
    exact (hh.refusal (by simpa using mt hh.success_iff.mp hno)).1

/-- **Any sequence of requests**, by induction over the requests. -/
theorem Following.deliver : ∀ (requests : List (NodeId × Slice L)) {f : RaftNode C O S},
    Following L T f → ∃ g, deliver T f requests = .ok g ∧ Onward L T f g
  | [], f, h => ⟨f, rfl, h, le_rfl, fun _ _ hk => hk⟩
  | x :: rest, f, h => by
    obtain ⟨f₁, h₁, hon₁, -⟩ := h.step x.1 x.2
    obtain ⟨g, hg, hon⟩ := Following.deliver rest hon₁.following
    refine ⟨g, ?_, hon.following, hon₁.commit.trans hon.commit,
      fun k hk hagree => hon.kept k hk (hon₁.kept k hk hagree)⟩
    unfold Raft.deliver
    rw [List.foldlM_cons, h₁]
    exact hg

/-- **Accepted replication is never undone.** In a run of `before`, `x` and `after`, the
follower never panics and its commit index never falls; if it accepts `x`, then after
`after` its log still agrees with `L` on all of `x`, and a second `x` changes nothing in the
log. Twice the same request at once has the effect of one on the log, accepted or not. -/
theorem accepted_replication_kept (h : Following L T f) (before after : List (NodeId × Slice L))
    (src src' : NodeId) (x : Slice L) :
    ∃ f₁ f₂ f₃, deliver T f before = .ok f₁ ∧ f₁.appendRequest src (x.request T) = .ok f₂ ∧
      deliver T f₂ after = .ok f₃ ∧
      f.commitIndex ≤ f₁.commitIndex ∧ f₁.commitIndex ≤ f₂.commitIndex ∧
      f₂.commitIndex ≤ f₃.commitIndex ∧
      (Accepts f₁ (x.request T) →
        (∀ k ≤ x.last, f₃.log[k]? = L[k]?) ∧ x.last + 1 ≤ f₃.log.length ∧
        ∃ f₄, f₃.appendRequest src' (x.request T) = .ok f₄ ∧ f₄.log = f₃.log) ∧
      ∃ f₄, f₂.appendRequest src' (x.request T) = .ok f₄ ∧ f₄.log = f₂.log := by
  obtain ⟨f₁, h₁, hon₁⟩ := h.deliver before
  obtain ⟨f₂, h₂, hon₂, haccepted, hrefused, -⟩ := hon₁.following.step src x
  obtain ⟨f₃, h₃, hon₃⟩ := hon₂.following.deliver after
  refine ⟨f₁, f₂, f₃, h₁, h₂, h₃, hon₁.commit, hon₂.commit, hon₃.commit, fun hacc => ?_, ?_⟩
  · -- what follows keeps the log up to the last entry of the slice, so the second copy changes
    -- nothing
    have hagree := hon₃.kept x.last x.last_lt (haccepted hacc)
    obtain ⟨f₄, h₄, -, -, -, hsame⟩ := hon₃.following.step src' x
    refine ⟨fun k hk => getElem?_of_take_eq hagree (by omega),
      length_le_of_take_eq hagree x.last_lt, f₄, h₄, hsame hagree⟩
  · obtain ⟨f₄, h₄, -, -, hrefused', hsame⟩ := hon₂.following.step src' x
    refine ⟨f₄, h₄, ?_⟩
    by_cases hacc : Accepts f₁ (x.request T)
    · exact hsame (haccepted hacc)
    · -- a refusal leaves the log, so the check fails again
      refine hrefused' fun hacc' => hacc ?_
      unfold Accepts at hacc' ⊢
      rwa [hrefused hacc] at hacc'

/-- The log of a leader of term 3. -/
def reignLog : List (LogEntry ℕ) := [⟨0, .noOp⟩, ⟨2, .command 5⟩, ⟨3, .noOp⟩]

/-- A follower that kept an entry of term 1. -/
def lagging : RaftNode ℕ ℕ Counter :=
  RaftNode.new 2 [1, 2, 3] ⟨0⟩ (some ⟨3, none, [⟨0, .noOp⟩, ⟨1, .command 7⟩]⟩)

theorem following_lagging : Following reignLog 3 lagging := by
  refine ⟨rfl, ⟨none, rfl⟩, ?_, by decide, by decide, by decide, by decide⟩
  intro k e e' he he' hterm
  match k with
  | 0 => rfl
  | 1 =>
    obtain rfl := Option.some.inj he
    obtain rfl := Option.some.inj he'
    exact absurd hterm (by decide)
  | k + 2 => exact absurd he (by simp [lagging, RaftNode.new])

/-- Everything after the first entry. -/
def longSlice : Slice reignLog := ⟨0, 2, 1, 1, by decide, by decide, by decide⟩

/-- The second entry alone. -/
def shortSlice : Slice reignLog := ⟨0, 1, 1, 0, by decide, by decide, by decide⟩

/-- The long slice, then the short one that comes late, then the long one again. -/
theorem accepted_replication_kept_lagging :
    ∃ f₁ f₂ f₃, deliver 3 lagging ([] : List (NodeId × Slice reignLog)) = .ok f₁ ∧
      f₁.appendRequest 1 (longSlice.request 3) = .ok f₂ ∧
      deliver 3 f₂ [(1, shortSlice)] = .ok f₃ ∧
      lagging.commitIndex ≤ f₁.commitIndex ∧ f₁.commitIndex ≤ f₂.commitIndex ∧
      f₂.commitIndex ≤ f₃.commitIndex ∧
      (Accepts f₁ (longSlice.request 3) →
        (∀ k ≤ 2, f₃.log[k]? = reignLog[k]?) ∧ 2 + 1 ≤ f₃.log.length ∧
        ∃ f₄, f₃.appendRequest 1 (longSlice.request 3) = .ok f₄ ∧ f₄.log = f₃.log) ∧
      ∃ f₄, f₂.appendRequest 1 (longSlice.request 3) = .ok f₄ ∧ f₄.log = f₂.log :=
  accepted_replication_kept following_lagging [] [(1, shortSlice)] 1 1 longSlice

end Raft
end KvRaft
