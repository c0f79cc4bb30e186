import KvRaft.Raft.Course
import Mathlib.Data.List.Chain

/-!
# The turns of a course

`Turn` lists what a node does between one node of a course and the next, with the guards
under which the code does it. Every course is a chain of turns (`RaftNode.course_turns`);
so what each turn preserves every handler preserves (`RaftNode.handle_turns`), and the
handlers need not be taken apart again.
-/

namespace KvRaft
namespace Raft

variable {C O S : Type}

/-- What a node that handles `input` sends. -/
inductive Sends (input : Input C) (n : RaftNode C O S) : NodeId → RaftMessage C → Prop
  | standing (p : NodeId) (msg : VoteRequest) (hin : input = .electionTimeout)
    (hvote : n.votedFor = some n.id) (hterm : msg.term = n.currentTerm)
    (hid : msg.candidateId = n.id) : Sends input n p (.voteRequest msg)
  | heartbeat (p : NodeId) (msg : AppendRequest C) (hrole : n.role.isLeader = true)
    (hterm : msg.term = n.currentTerm) (hid : msg.leaderId = n.id) :
    Sends input n p (.appendRequest msg)
  | grant (p : NodeId) (req : VoteRequest) (hin : input = .message p (.voteRequest req))
    (hvote : n.votedFor = some req.candidateId) :
    Sends input n p (.voteResponse ⟨n.currentTerm, true⟩)
  | refuse (p : NodeId) : Sends input n p (.voteResponse ⟨n.currentTerm, false⟩)
  /-- The entries of the request are in the log. -/
  | appended (p : NodeId) (req : AppendRequest C) (hin : input = .message p (.appendRequest req))
    (hentries : ∀ k e, req.entries[k]? = some e →
      ∃ own, n.log[req.prevLogIndex + 1 + k]? = some own ∧ own.term = e.term) :
    Sends input n p
      (.appendResponse ⟨n.currentTerm, req.prevLogIndex + req.entries.length, true⟩)
  | rejected (p : NodeId) (k : ℕ) : Sends input n p (.appendResponse ⟨n.currentTerm, k, false⟩)

/-- What a node answers a client with outside of `apply_committed`. -/
inductive Answers (n : RaftNode C O S) : Reply C O → Prop
  | error (err : RaftError) (h : RaftNode.requireLeader n.role = some err) :
    Answers n (.error err)
  | isLeader : Answers n .isLeader
  | log : Answers n (.log n.log)
  | logEntry (index : ℕ) : Answers n (.logEntry n.log[index]?)
  | status : Answers n (.status n.status)

/-- One step of the course of the handler of `input`. -/
inductive Turn [RaftStateMachine S C O] (input : Input C) :
    RaftNode C O S → RaftNode C O S → Prop
  | follow (n : RaftNode C O S) (term : ℕ) (hin : ∃ p m, input = .message p m)
    (hterm : n.currentTerm ≤ term) : Turn input n (n.becomeFollower term)
  | stand (n : RaftNode C O S) (hin : input = .electionTimeout) :
    Turn input n (standing n).persistState
  /-- The only node of a cluster becomes leader. -/
  | crownAlone (n : RaftNode C O S) (hin : input = .electionTimeout)
    (halone : hasMajority 1 (n.peerIds.length + 1) = true) :
    Turn input n (crownedNode (standing n)).persistState
  | crown (n : RaftNode C O S) (votes : ℕ) (hrole : n.role = .candidate votes)
    (hmajority : hasMajority votes (n.peerIds.length + 1) = true) :
    Turn input n (crownedNode n).persistState
  | count (n : RaftNode C O S) (votes : ℕ) (p : NodeId) (msg : VoteResponse)
    (hin : input = .message p (.voteResponse msg)) (hterm : msg.term = n.currentTerm)
    (hgranted : msg.voteGranted = true) (hrole : n.role = .candidate votes) :
    Turn input n { n with role := .candidate (votes + 1) }
  | indices (n : RaftNode C O S) (nextIndex matchIndex nextIndex' matchIndex' : PeerMap)
    (hrole : n.role = .leader nextIndex matchIndex) :
    Turn input n { n with role := .leader nextIndex' matchIndex' }
  | adopt (n : RaftNode C O S) (p : NodeId) (msg : AppendRequest C)
    (hin : input = .message p (.appendRequest msg)) (hterm : msg.term = n.currentTerm)
    (hrole : n.role = .follower none) :
    Turn input n { n with role := .follower (some msg.leaderId) }
  | append (n n' : RaftNode C O S) (p : NodeId) (msg : AppendRequest C)
    (hin : input = .message p (.appendRequest msg))
    (happend : n.appendEntries (msg.prevLogIndex + 1) msg.entries = .ok n') :
    Turn input n (n'.followCommit msg.leaderCommit).persistState
  | advance (n n' : RaftNode C O S) (hadvance : n.advanceCommit = .ok n') : Turn input n n'
  | apply (n n' : RaftNode C O S) (hlt : n.lastApplied < n.commitIndex)
    (happly : RaftNode.applyCommittedLoop 1 n = .ok n') : Turn input n n'
  | vote (n : RaftNode C O S) (p : NodeId) (msg : VoteRequest)
    (hin : input = .message p (.voteRequest msg))
    (hvote : n.votedFor = none ∨ n.votedFor = some msg.candidateId) :
    Turn input n { n with votedFor := some msg.candidateId }.persistState
  | accept (n : RaftNode C O S) (command : C) (reply : Sender)
    (hin : input = .command (.apply command reply)) (hrole : n.role.isLeader = true) :
    Turn input n ({ n with
      log := n.log ++ [LogEntry.mk n.currentTerm (.command command)]
      pendingApplies := n.pendingApplies.insert n.log.length reply
      effects := n.effects ++
        [.accepted n.log.length n.currentTerm command reply] } : RaftNode C O S).persistState
  | send (n : RaftNode C O S) (p : NodeId) (m : RaftMessage C) (hsends : Sends input n p m) :
    Turn input n (n.sendMessage p m)
  | answer (n : RaftNode C O S) (reply : Sender) (answer : Reply C O)
    (hanswers : Answers n answer) : Turn input n (n.emit (.reply reply answer))

/-! ### Chains of turns -/

/-- The course leads from `n` to what it returns, by steps of `R`. -/
structure Course.From (R : RaftNode C O S → RaftNode C O S → Prop) (n : RaftNode C O S)
    (c : Course C O S) : Prop where
  chain : List.IsChain R (n :: c.visited)
  last : ∀ n', c.result = .ok n' → (n :: c.visited).getLast? = some n'

namespace Course

variable {R : RaftNode C O S → RaftNode C O S → Prop} {n n' : RaftNode C O S}
  {c : Course C O S} {f : RaftNode C O S → Course C O S}

theorem From.stay (n : RaftNode C O S) : (stay n).From R n where
  chain := List.isChain_singleton n
  last _ h := congrArg some (Except.ok.inj h)

theorem From.stop (n : RaftNode C O S) (e : Panic) : (stop e : Course C O S).From R n where
  chain := List.isChain_singleton n
  last _ h := absurd h (by simp [Course.stop])

theorem From.visit (h : R n n') : (visit n').From R n where
  chain := List.isChain_pair.mpr h
  last _ h := congrArg some (Except.ok.inj h)

theorem From.attempt {r : Except Panic (RaftNode C O S)} (h : ∀ n', r = .ok n' → R n n') :
    (attempt r).From R n := by
  cases r with
  | error e => exact From.stop n e
  | ok n' => exact From.visit (h n' rfl)

theorem From.andThen (hc : c.From R n) (hf : ∀ n', c.result = .ok n' → (f n').From R n') :
    (c.andThen f).From R n := by
  unfold Course.andThen
  cases hres : c.result with
  | error e => exact ⟨hc.chain, fun _ h => absurd h (by simp)⟩
  | ok n' =>
    obtain ⟨hchain, hlast⟩ := hf n' hres
    have hend := hc.last n' hres
    refine ⟨?_, fun m hm => ?_⟩
    · -- the second course starts where the first one ends
      have hsplit : n :: (c.visited ++ (f n').visited) =
          (n :: c.visited) ++ (f n').visited := rfl
      rw [hsplit, List.isChain_append]
      refine ⟨hc.chain, hchain.tail, fun x hx y hy => ?_⟩
      rw [hend] at hx
      obtain rfl := Option.some.inj hx
      cases hvisited : (f n').visited with
      | nil =>
        rw [hvisited] at hy
        exact absurd hy (by simp)
      | cons z rest =>
        rw [hvisited] at hy hchain
        obtain rfl := Option.some.inj hy
        exact (List.isChain_cons_cons.mp hchain).1
    · have hm' := hlast m hm
      dsimp only
      cases hvisited : (f n').visited with
      | nil =>
        rw [hvisited] at hm'
        rw [List.append_nil, hend, ← hm']
        rfl
      | cons z rest =>
        rw [hvisited, List.getLast?_cons_cons] at hm'
        rw [← List.cons_append, List.getLast?_append, hm']
        rfl

/-- What the steps of a chain preserve, where both nodes of a step are in the chain. -/
theorem chain_induction {P : RaftNode C O S → Prop} : ∀ {l : List (RaftNode C O S)}
    {n : RaftNode C O S}, List.IsChain R (n :: l) → P n →
    (∀ m ∈ n :: l, ∀ m' ∈ n :: l, R m m' → P m → P m') → ∀ m ∈ n :: l, P m
  | [], n, _, hn, _, m, hm => by
    obtain rfl := List.mem_singleton.mp hm
    exact hn
  | n' :: l, n, hchain, hn, hstep, m, hm => by
    obtain ⟨hR, htail⟩ := List.isChain_cons_cons.mp hchain
    have hmem : ∀ x ∈ n' :: l, x ∈ n :: n' :: l := fun x hx => List.mem_cons_of_mem _ hx
    rcases List.mem_cons.mp hm with rfl | hm
    · exact hn
    · exact chain_induction htail (hstep n List.mem_cons_self n' (hmem n' List.mem_cons_self) hR hn)
        (fun x hx y hy => hstep x (hmem x hx) y (hmem y hy)) m hm

/-- A property that the steps of a course preserve holds of what it returns. -/
theorem From.induction {P : RaftNode C O S → Prop} (hc : c.From R n) (hn : P n)
    (hstep : ∀ m ∈ n :: c.visited, ∀ m', R m m' → P m → P m') (hres : c.result = .ok n') :
    P n' :=
  chain_induction hc.chain hn (fun m hm m' _ => hstep m hm m') n'
    (List.mem_of_mem_getLast? (hc.last n' hres))

end Course

/-! ### What the loops leave alone -/

namespace RaftNode

variable {n n' : RaftNode C O S}

/-- The loop of `append_request` changes the log, and records its cuts. -/
theorem appendEntries_log : ∀ (entries : List (LogEntry C)) (index : ℕ) {n n' : RaftNode C O S},
    n.appendEntries index entries = .ok n' →
      ∃ log es, n' = { n with log := log, effects := n.effects ++ es } ∧
        ∀ e ∈ es, ∃ k, e = .truncated k
  | [], _, n, n', h => by
    refine ⟨n.log, [], ?_, by simp⟩
    rw [← Except.ok.inj h, List.append_nil]
  | entry :: entries, index, n, n', h => by
    rw [appendEntries] at h
    split at h
    · cases hat : n.logAt index with
      | error e =>
        rw [hat] at h
        exact absurd h (by simp [bind, Except.bind])
      | ok own =>
        simp only [hat, bind, Except.bind] at h
        split at h
        · obtain ⟨log, es, rfl, hes⟩ := appendEntries_log entries _ h
          refine ⟨log, .truncated index :: es, ?_, fun e he => ?_⟩
          · simp [emit]
          · rcases List.mem_cons.mp he with rfl | he
            · exact ⟨index, rfl⟩
            · exact hes e he
        · exact appendEntries_log entries _ h
    · obtain ⟨log, es, rfl, hes⟩ := appendEntries_log entries _ h
      exact ⟨log, es, rfl, hes⟩

/-- The entries of the request end up in the log, as far as terms go. -/
theorem appendEntries_terms : ∀ (entries : List (LogEntry C)) (index : ℕ)
    {n n' : RaftNode C O S}, index ≤ n.log.length → n.appendEntries index entries = .ok n' →
      n'.log.take index = n.log.take index ∧ index + entries.length ≤ n'.log.length ∧
        ∀ k e, entries[k]? = some e → ∃ own, n'.log[index + k]? = some own ∧ own.term = e.term
  | [], _, n, n', hle, h => by
    rw [← Except.ok.inj h]
    exact ⟨rfl, hle, by simp⟩
  | entry :: entries, index, n, n', hle, h => by
    -- one entry is in place, the loop does the others
    have hrest : ∀ m : RaftNode C O S, m.log.take index = n.log.take index →
        (∃ own, m.log[index]? = some own ∧ own.term = entry.term) →
        m.appendEntries (index + 1) entries = .ok n' →
        n'.log.take index = n.log.take index ∧
          index + (entry :: entries).length ≤ n'.log.length ∧
          ∀ k e, (entry :: entries)[k]? = some e →
            ∃ own, n'.log[index + k]? = some own ∧ own.term = e.term := by
      rintro m htake ⟨own, hown, hterm⟩ hm
      have hlt := (List.getElem?_eq_some_iff.mp hown).1
      obtain ⟨htake', hlen, hterms⟩ := appendEntries_terms entries (index + 1) hlt hm
      refine ⟨?_, ?_, fun k e hk => ?_⟩
      · have hshort := congrArg (List.take index) htake'
        rw [List.take_take, List.take_take, Nat.min_eq_left (Nat.le_succ index)] at hshort
        rw [hshort, htake]
      · rw [List.length_cons]
        omega
      · cases k with
        | zero =>
          refine ⟨own, ?_, ?_⟩
          · have hat := congrArg (fun l => l[index]?) htake'
            simp only [List.getElem?_take_of_lt (Nat.lt_succ_self index)] at hat
            rw [Nat.add_zero, hat, hown]
          · rw [hterm]
            exact congrArg LogEntry.term (Option.some.inj hk)
        | succ k =>
          obtain ⟨own', hown', hterm'⟩ := hterms k e hk
          exact ⟨own', by rw [← hown']; congr 1; omega, hterm'⟩
    rw [appendEntries] at h
    split at h
    · next hlt =>
      obtain ⟨own, hown⟩ := exists_getElem?_of_lt hlt
      rw [logAt_of_getElem? hown] at h
      simp only [bind, Except.bind] at h
      split at h
      · refine hrest (emit { n with log := n.log.take index ++ [entry] } (.truncated index)) ?_ ?_ h
        · change (n.log.take index ++ [entry]).take index = _
          rw [List.take_append_of_le_length (by rw [List.length_take]; omega), List.take_take,
            Nat.min_self]
        · refine ⟨entry, ?_, rfl⟩
          change (n.log.take index ++ [entry])[index]? = some entry
          rw [List.getElem?_append_right (by rw [List.length_take]; omega), List.length_take,
            Nat.min_eq_left hlt.le, Nat.sub_self]
          rfl
      · next hterm =>
        exact hrest n rfl ⟨own, hown, not_not.mp hterm⟩ h
    · next hge =>
      obtain rfl : index = n.log.length := by omega
      refine hrest { n with log := n.log ++ [entry] } ?_ ⟨entry, ?_, rfl⟩ h
      · change (n.log ++ [entry]).take n.log.length = _
        rw [List.take_append_of_le_length le_rfl]
      · change (n.log ++ [entry])[n.log.length]? = some entry
        rw [List.getElem?_append_right le_rfl, Nat.sub_self]
        rfl

/-- An entry stays in the log unless the loop of `append_request` cuts it off. -/
theorem appendEntries_kept : ∀ (entries : List (LogEntry C)) (index : ℕ)
    {n n' : RaftNode C O S} {es : List (Effect C O S)}, n.appendEntries index entries = .ok n' →
      n'.effects = n.effects ++ es → ∀ k own, n.log[k]? = some own →
      n'.log[k]? = some own ∨ ∃ c ≤ k, Effect.truncated c ∈ es
  | [], _, n, n', es, h, _, k, own, hown => by
    rw [← Except.ok.inj h]
    exact Or.inl hown
  | entry :: entries, index, n, n', es, h, heff, k, own, hown => by
    rw [appendEntries] at h
    split at h
    · next hlt =>
      obtain ⟨here, hat⟩ := exists_getElem?_of_lt hlt
      rw [logAt_of_getElem? hat] at h
      simp only [bind, Except.bind] at h
      split at h
      · obtain ⟨log, es', hn', -⟩ := appendEntries_log entries _ h
        -- the cut is the first of the effects
        have hes : es = .truncated index :: es' := by
          rw [hn'] at heff
          have := List.append_cancel_left ((List.append_assoc _ _ _).symm.trans heff)
          exact this.symm
        by_cases hk : index ≤ k
        · exact Or.inr ⟨index, hk, hes ▸ List.mem_cons_self⟩
        · have hkept := appendEntries_kept entries (index + 1) h
            (show n'.effects = _ ++ es' by rw [hn']) k own (by
            change (n.log.take index ++ [entry])[k]? = some own
            rw [List.getElem?_append_left (by rw [List.length_take]; omega),
              List.getElem?_take_of_lt (by omega), hown])
          rcases hkept with hkept | ⟨c, hc, hmem⟩
          · exact Or.inl hkept
          · exact Or.inr ⟨c, hc, hes ▸ List.mem_cons_of_mem _ hmem⟩
      · exact appendEntries_kept entries (index + 1) h heff k own hown
    · refine appendEntries_kept entries (index + 1) h heff k own ?_
      change (n.log ++ [entry])[k]? = some own
      rw [List.getElem?_append_left (List.getElem?_eq_some_iff.mp hown).1, hown]

/-- What `advance_commit` does. -/
theorem advanceCommit_cases (h : n.advanceCommit = .ok n') :
    n' = n ∨ ∃ index, n.role.isLeader = true ∧
      n' = { n with
        commitIndex := index
        effects := n.effects ++ [.committed n.currentTerm index n.log] } := by
  unfold advanceCommit at h
  split at h
  · next nextIndex matchIndex hrole =>
    cases hfound : n.findCommit matchIndex
        (List.range' (n.commitIndex + 1) (n.log.length - (n.commitIndex + 1))).reverse with
    | error e =>
      simp only [hfound, bind, Except.bind] at h
      exact absurd h (by simp)
    | ok found =>
      simp only [hfound, bind, Except.bind] at h
      cases found with
      | none => exact Or.inl (Except.ok.inj h).symm
      | some index =>
        refine Or.inr ⟨index, ?_, (Except.ok.inj h).symm⟩
        rw [hrole]
        rfl
  · exact Or.inl (Except.ok.inj h).symm

theorem getElem?_of_logAt {k : ℕ} {e : LogEntry C} (h : n.logAt k = .ok e) :
    n.log[k]? = some e := by
  unfold logAt at h
  split at h
  · next own hown => rw [hown, Except.ok.inj h]
  · exact absurd h (by simp)

/-- The request that `on_heartbeat` builds for a peer: the entries from `next_index` on, and
the entry below them. -/
def RequestOf (n : RaftNode C O S) (p : NodeId) (msg : AppendRequest C) : Prop :=
  ∃ nextIndex matchIndex next prev, n.role = .leader nextIndex matchIndex ∧
    nextIndex.lookup p = some next ∧ 1 ≤ next ∧ next ≤ n.log.length ∧
    n.log[next - 1]? = some prev ∧
    msg =
      { term := n.currentTerm
        leaderId := n.id
        prevLogIndex := next - 1
        prevLogTerm := prev.term
        entries := n.log.drop next
        leaderCommit := n.commitIndex }

/-- What `on_heartbeat` does for one peer. -/
theorem heartbeatTo_request {p : NodeId} (h : n.heartbeatTo p = .ok n') :
    ∃ msg, n.RequestOf p msg ∧ n' = n.sendMessage p (.appendRequest msg) := by
  unfold heartbeatTo at h
  split at h
  · next nextIndex matchIndex hrole =>
    split at h
    · exact absurd h (by simp)
    · next next hnext =>
      split at h
      · exact absurd h (by simp)
      · next hpos =>
        cases hat : n.logAt (next - 1) with
        | error e =>
          rw [hat] at h
          exact absurd h (by simp [bind, Except.bind])
        | ok prev =>
          simp only [hat, bind, Except.bind] at h
          split at h
          · exact absurd h (by simp)
          · next hlen =>
            exact ⟨_, ⟨nextIndex, matchIndex, next, prev, hrole, hnext, by omega, by omega,
              getElem?_of_logAt hat, rfl⟩, (Except.ok.inj h).symm⟩
  · exact absurd h (by simp)

theorem heartbeatTo_cases {p : NodeId} (h : n.heartbeatTo p = .ok n') :
    ∃ msg : AppendRequest C, n.role.isLeader = true ∧ msg.term = n.currentTerm ∧
      msg.leaderId = n.id ∧ n' = n.sendMessage p (.appendRequest msg) := by
  obtain ⟨msg, ⟨nextIndex, matchIndex, next, prev, hrole, -, -, -, -, rfl⟩, rfl⟩ :=
    heartbeatTo_request h
  exact ⟨_, by rw [hrole]; rfl, rfl, rfl, rfl⟩

theorem lastApplied_turn [RaftStateMachine S C O] (h : applyCommittedLoop 1 n = .ok n') :
    ∃ entry, n.log[n.lastApplied + 1]? = some entry ∧
      ((∃ term, entry = ⟨term, .noOp⟩ ∧ n' = { n with
          lastApplied := n.lastApplied + 1
          effects := n.effects ++ [.applied (n.lastApplied + 1) entry n.stateMachine] }) ∨
        ∃ term cmd, entry = ⟨term, .command cmd⟩ ∧
          ((n.pendingApplies.lookup (n.lastApplied + 1) = none ∧ n' = { n with
            lastApplied := n.lastApplied + 1
            stateMachine := (RaftStateMachine.apply n.stateMachine cmd).1
            effects := n.effects ++ [.applied (n.lastApplied + 1) entry n.stateMachine] }) ∨
          ∃ reply, n.pendingApplies.lookup (n.lastApplied + 1) = some reply ∧ n' = { n with
            lastApplied := n.lastApplied + 1
            stateMachine := (RaftStateMachine.apply n.stateMachine cmd).1
            pendingApplies := n.pendingApplies.erase (n.lastApplied + 1)
            effects := n.effects ++ [.applied (n.lastApplied + 1) entry n.stateMachine] ++
              [.reply reply (.applied (RaftStateMachine.apply n.stateMachine cmd).2)] })) := by
  rw [applyCommittedLoop] at h
  cases hat : logAt { n with lastApplied := n.lastApplied + 1 } (n.lastApplied + 1) with
  | error e =>
    simp only [hat, bind, Except.bind] at h
    exact absurd h (by simp)
  | ok entry =>
    -- the log is read as it stood before `last_applied` moved
    have hentry : n.log[n.lastApplied + 1]? = some entry := getElem?_of_logAt hat
    simp only [hat, bind, Except.bind] at h
    refine ⟨entry, hentry, ?_⟩
    obtain ⟨term, command⟩ := entry
    cases command with
    | noOp => exact Or.inl ⟨term, rfl, (Except.ok.inj h).symm⟩
    | command cmd =>
      refine Or.inr ⟨term, cmd, rfl, ?_⟩
      cases hlook : n.pendingApplies.lookup (n.lastApplied + 1) with
      | none =>
        simp only [emit, hlook] at h
        exact Or.inl ⟨rfl, (Except.ok.inj h).symm⟩
      | some reply =>
        simp only [emit, hlook] at h
        exact Or.inr ⟨reply, rfl, (Except.ok.inj h).symm⟩

/-- Applying leaves the persistent state and the role alone. -/
theorem courseApply_same [RaftStateMachine S C O] : ∀ (turns : ℕ) {n n' : RaftNode C O S},
    applyCommittedLoop turns n = .ok n' →
      n'.log = n.log ∧ n'.currentTerm = n.currentTerm
  | 0, n, n', h => by
    obtain rfl := Except.ok.inj h
    exact ⟨rfl, rfl⟩
  | turns + 1, n, n', h => by
    rw [applyCommittedLoop_succ] at h
    cases hone : applyCommittedLoop 1 n with
    | error e =>
      rw [hone] at h
      exact absurd h (by simp [bind, Except.bind])
    | ok m =>
      rw [hone] at h
      obtain ⟨hlog, hterm⟩ := courseApply_same turns h
      obtain ⟨entry, -, ⟨term, -, rfl⟩ | ⟨term, cmd, -, ⟨-, rfl⟩ | ⟨reply, -, rfl⟩⟩⟩ :=
        lastApplied_turn hone <;> exact ⟨hlog, hterm⟩

/-! ### Every course is a chain of turns -/

section Chains

variable [RaftStateMachine S C O] {input : Input C}

theorem courseBroadcast_turns (m : RaftMessage C) : ∀ (ps : List NodeId) (n : RaftNode C O S),
    (∀ p (n' : RaftNode C O S), n'.votedFor = n.votedFor → n'.id = n.id →
      n'.currentTerm = n.currentTerm → Sends input n' p m) →
    (courseBroadcast m ps n).From (Turn input) n
  | [], n, _ => Course.From.stay n
  | p :: ps, n, h => by
    refine (Course.From.visit (Turn.send n p m (h p n rfl rfl rfl))).andThen fun n' hn' => ?_
    obtain rfl := Except.ok.inj hn'
    refine courseBroadcast_turns m ps _ fun q n' hv hi ht => h q n' ?_ ?_ ?_
    · rw [hv, sendMessage]
      split <;> rfl
    · rw [hi, sendMessage]
      split <;> rfl
    · rw [ht, sendMessage]
      split <;> rfl

theorem courseHeartbeats_turns : ∀ (ps : List NodeId) (n : RaftNode C O S),
    (courseHeartbeats ps n).From (Turn input) n
  | [], n => Course.From.stay n
  | p :: ps, n => by
    refine (Course.From.attempt fun n' hn' => ?_).andThen fun n' _ => courseHeartbeats_turns ps n'
    obtain ⟨msg, hrole, hterm, hid, rfl⟩ := heartbeatTo_cases hn'
    exact Turn.send n p _ (Sends.heartbeat p msg hrole hterm hid)

theorem courseHeartbeat_turns (n : RaftNode C O S) : n.courseHeartbeat.From (Turn input) n :=
  courseHeartbeats_turns n.peerIds n

theorem courseApply_turns : ∀ (turns : ℕ) (n : RaftNode C O S),
    turns ≤ n.commitIndex - n.lastApplied → (courseApply turns n).From (Turn input) n
  | 0, n, _ => Course.From.stay n
  | turns + 1, n, hle => by
    refine (Course.From.attempt fun n' hn' => Turn.apply n n' (by omega) hn').andThen
      fun n' hn' => courseApply_turns turns n' ?_
    rw [Course.result_attempt] at hn'
    obtain ⟨entry, -, ⟨term, -, rfl⟩ | ⟨term, cmd, -, ⟨-, rfl⟩ | ⟨reply, -, rfl⟩⟩⟩ :=
      lastApplied_turn hn' <;> (dsimp only; omega)

theorem courseCommit_turns (n : RaftNode C O S) : n.courseCommit.From (Turn input) n :=
  (Course.From.attempt fun n' hn' => Turn.advance n n' hn').andThen
    fun n' _ => courseApply_turns _ n' le_rfl

/-- What a leader does once its entry is saved. -/
theorem courseTail_turns (n : RaftNode C O S) :
    (n.courseCommit.andThen courseHeartbeat).From (Turn input) n :=
  n.courseCommit_turns.andThen fun n' _ => n'.courseHeartbeat_turns

theorem courseLeader_turns (n m : RaftNode C O S)
    (hcrown : Turn input m (crownedNode n).persistState) : n.courseLeader.From (Turn input) m :=
  (Course.From.visit hcrown).andThen fun _ hn' => by
    obtain rfl := Except.ok.inj hn'
    exact courseTail_turns _

theorem courseCandidate_turns (n : RaftNode C O S) (hin : input = .electionTimeout) :
    n.courseCandidate.From (Turn input) n := by
  unfold courseCandidate
  split
  · exact Course.From.stop n _
  split
  · next halone => exact courseLeader_turns _ _ (Turn.crownAlone n hin halone)
  split
  · exact Course.From.stop n _
  · refine (Course.From.visit (Turn.stand n hin)).andThen fun n' hn' => ?_
    obtain rfl := Except.ok.inj hn'
    exact courseBroadcast_turns _ _ _ fun p n' hv hi ht =>
      Sends.standing p _ hin (by rw [hv, hi]; rfl) ht.symm hi.symm

theorem courseAppendResponse_turns (n : RaftNode C O S) (p : NodeId) (msg : AppendResponse)
    (hin : input = .message p (.appendResponse msg)) : (n.courseAppendResponse p msg).From (Turn input) n := by
  unfold courseAppendResponse
  split
  · exact Course.From.stay n
  split
  · next hlt => exact Course.From.visit (Turn.follow n msg.term ⟨p, _, hin⟩ hlt.le)
  split
  · next nextIndex matchIndex hrole =>
    dsimp only
    split
    · exact (Course.From.visit (Turn.indices n _ _ _ _ hrole)).andThen
        fun n' _ => n'.courseCommit_turns
    · exact (Course.From.visit (Turn.indices n _ _ _ _ hrole)).andThen
        fun n' _ => n'.courseCommit_turns
  · exact Course.From.stay n

theorem courseAppendAtPrev_turns (n : RaftNode C O S) (p : NodeId) (msg : AppendRequest C)
    (hin : input = .message p (.appendRequest msg)) :
    (n.courseAppendAtPrev p msg).From (Turn input) n := by
  unfold courseAppendAtPrev
  split
  · split
    · exact Course.From.stop n _
    · exact Course.From.visit (Turn.send n p _ (Sends.rejected p _))
  next hlong =>
  split
  · exact Course.From.stop n _
  split
  · exact Course.From.visit (Turn.send n p _ (Sends.rejected p _))
  split
  · exact Course.From.stop n _
  next n₁ happend =>
  split
  · exact Course.From.stop n _
  obtain ⟨-, -, hterms⟩ := appendEntries_terms msg.entries (msg.prevLogIndex + 1) (by omega) happend
  refine (Course.From.visit (Turn.append n n₁ p msg hin happend)).andThen fun n₂ hn₂ => ?_
  obtain rfl := Except.ok.inj hn₂
  refine (courseApply_turns _ _ le_rfl).andThen fun n₃ hn₃ => ?_
  rw [courseApply_result] at hn₃
  obtain ⟨hlog, -⟩ := courseApply_same _ hn₃
  -- the entries are still in the log when the answer is sent
  have hkept : n₃.log = n₁.log := by
    rw [hlog, followCommit]
    split <;> rfl
  refine Course.From.visit (Turn.send n₃ p _ (Sends.appended p msg hin fun k e hk => ?_))
  rw [hkept]
  exact hterms k e hk

theorem courseAppendRequest_turns (n : RaftNode C O S) (p : NodeId) (msg : AppendRequest C)
    (hin : input = .message p (.appendRequest msg)) :
    (n.courseAppendRequest p msg).From (Turn input) n := by
  unfold courseAppendRequest
  split
  · exact Course.From.visit (Turn.send n p _ (Sends.rejected p _))
  next hterm =>
  -- after the first step the terms are equal
  have hfirst : ∀ n₁ : RaftNode C O S, (if n.currentTerm < msg.term then
      Course.visit (n.becomeFollower msg.term) else Course.stay n).result = .ok n₁ →
      msg.term = n₁.currentTerm := by
    intro n₁ hn₁
    split at hn₁
    · next hlt =>
      obtain rfl := Except.ok.inj hn₁
      unfold becomeFollower
      rw [if_pos hlt]
      rfl
    · obtain rfl := Except.ok.inj hn₁
      omega
  refine Course.From.andThen ?_ fun n₁ hn₁ => ?_
  · split
    · next hlt => exact Course.From.visit (Turn.follow n msg.term ⟨p, _, hin⟩ hlt.le)
    · exact Course.From.stay n
  have hterm₁ := hfirst n₁ hn₁
  split
  · exact Course.From.stop n₁ _
  have hsecond : ∀ n₂ : RaftNode C O S, (if n₁.role.isCandidate ∧ msg.term = n₁.currentTerm then
      Course.visit (n₁.becomeFollower msg.term) else Course.stay n₁).result = .ok n₂ →
      msg.term = n₂.currentTerm := by
    intro n₂ hn₂
    split at hn₂
    · obtain rfl := Except.ok.inj hn₂
      unfold becomeFollower
      rw [if_neg (by omega)]
      exact hterm₁
    · obtain rfl := Except.ok.inj hn₂
      exact hterm₁
  refine Course.From.andThen ?_ fun n₂ hn₂ => ?_
  · split
    · exact Course.From.visit (Turn.follow n₁ msg.term ⟨p, _, hin⟩ hterm₁.ge)
    · exact Course.From.stay n₁
  have hterm₂ := hsecond n₂ hn₂
  refine Course.From.andThen ?_ fun n₃ _ => courseAppendAtPrev_turns n₃ p msg hin
  split
  · next hrole => exact Course.From.visit (Turn.adopt n₂ p msg hin hterm₂ hrole)
  · exact Course.From.stay n₂

theorem courseVoteRequest_turns (n : RaftNode C O S) (p : NodeId) (msg : VoteRequest)
    (hin : input = .message p (.voteRequest msg)) :
    (n.courseVoteRequest p msg).From (Turn input) n := by
  unfold courseVoteRequest
  split
  · exact Course.From.visit (Turn.send n p _ (Sends.refuse p))
  refine Course.From.andThen ?_ fun n₁ _ => ?_
  · split
    · next hlt => exact Course.From.visit (Turn.follow n msg.term ⟨p, _, hin⟩ hlt.le)
    · exact Course.From.stay n
  split
  · exact Course.From.stop n₁ _
  split
  · next hvote =>
    refine (Course.From.visit (Turn.vote n₁ p msg hin hvote.1)).andThen fun n₂ hn₂ => ?_
    obtain rfl := Except.ok.inj hn₂
    exact Course.From.visit (Turn.send _ p _ (Sends.grant p msg hin rfl))
  · exact Course.From.visit (Turn.send n₁ p _ (Sends.refuse p))

theorem courseVoteResponse_turns (n : RaftNode C O S) (p : NodeId) (msg : VoteResponse)
    (hin : input = .message p (.voteResponse msg)) :
    (n.courseVoteResponse msg).From (Turn input) n := by
  unfold courseVoteResponse
  split
  · exact Course.From.stay n
  next hge =>
  split
  · next hlt => exact Course.From.visit (Turn.follow n msg.term ⟨p, _, hin⟩ hlt.le)
  next hle =>
  split
  · next votes hrole hgranted =>
    refine (Course.From.visit (Turn.count n votes p msg hin (by omega) hgranted hrole)).andThen
      fun n' hn' => ?_
    obtain rfl := Except.ok.inj hn'
    split
    · next hmajority =>
      exact courseLeader_turns _ _ (Turn.crown _ (votes + 1) rfl hmajority)
    · exact Course.From.stay _
  · exact Course.From.stay n

theorem isLeader_of_requireLeader {role : Role} (h : requireLeader role = none) :
    role.isLeader = true := by
  rcases role with (_ | leader) | votes | ⟨nextIndex, matchIndex⟩
  · exact absurd h (by simp [requireLeader])
  · exact absurd h (by simp [requireLeader])
  · exact absurd h (by simp [requireLeader])
  · rfl

theorem courseCommand_turns (n : RaftNode C O S) (command : ClientCommands C)
    (hin : input = .command command) : (n.courseCommand command).From (Turn input) n := by
  cases command with
  | apply command reply =>
    rw [courseCommand]
    cases hlead : requireLeader n.role with
    | none =>
      exact (Course.From.visit (Turn.accept n command reply hin
        (isLeader_of_requireLeader hlead))).andThen fun n' _ => courseTail_turns n'
    | some err => exact Course.From.visit (Turn.answer n reply _ (Answers.error err hlead))
  | isLeader reply =>
    rw [courseCommand]
    cases hlead : requireLeader n.role with
    | none => exact Course.From.visit (Turn.answer n reply _ Answers.isLeader)
    | some err => exact Course.From.visit (Turn.answer n reply _ (Answers.error err hlead))
  | getLog reply => exact Course.From.visit (Turn.answer n reply _ Answers.log)
  | getLogEntry index reply => exact Course.From.visit (Turn.answer n reply _ (Answers.logEntry _))
  | getStatus reply => exact Course.From.visit (Turn.answer n reply _ Answers.status)

/-- **Every course is a chain of turns.** -/
theorem course_turns (n : RaftNode C O S) (input : Input C) :
    (n.course input).From (Turn input) n := by
  cases input with
  | electionTimeout => exact n.courseCandidate_turns rfl
  | heartbeat => exact n.courseHeartbeat_turns
  | command command => exact n.courseCommand_turns command rfl
  | message p m =>
    cases m with
    | appendRequest msg => exact n.courseAppendRequest_turns p msg rfl
    | appendResponse msg => exact n.courseAppendResponse_turns p msg rfl
    | voteRequest msg => exact n.courseVoteRequest_turns p msg rfl
    | voteResponse msg => exact n.courseVoteResponse_turns p msg rfl

/-- **A handler that returns** has gone from its node to the node it leaves by turns. -/
theorem handle_turns (h : n.handle input = .ok n') :
    Relation.ReflTransGen (Turn input) n n' := by
  obtain ⟨hchain, hlast⟩ := n.course_turns input
  rw [← n.course_result input] at h
  have hend := hlast n' h
  have hne : n :: (n.course input).visited ≠ [] := List.cons_ne_nil _ _
  rw [List.getLast?_eq_getLast_of_ne_nil hne, Option.some.injEq] at hend
  rw [← hend]
  exact List.relationReflTransGen_of_exists_isChain_cons _ hchain rfl

/-- A property that turns preserve holds of the node a handler leaves. -/
theorem handle_induction {P : RaftNode C O S → Prop} (h : n.handle input = .ok n') (hn : P n)
    (hturn : ∀ m m', Turn input m m' → P m → P m') : P n' := by
  have hturns := handle_turns h
  clear h
  induction hturns with
  | refl => exact hn
  | tail _ hlast ih => exact hturn _ _ hlast ih

end Chains

end RaftNode

end Raft
end KvRaft
