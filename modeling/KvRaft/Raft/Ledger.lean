import KvRaft.Raft.Along
import KvRaft.Raft.Applied
import KvRaft.Raft.Redirect

/-!
# Where commands come from, and what was done with them

A command is pushed into a log once, by the leader that accepts it from a client; every
other log that holds it has it from there, at the same index and in the same term. The
state machine of a node is what the entries below `last_applied` make of the initial one.
And a client is answered once.

The three are properties of the order of effects: each saved log, each request and each
applied entry has its commands from clients that were accepted before (`Sourced`), each
applied entry finds the machine that the entries below it have made (`Built`), and each
answer is owed to a client that was not answered before.

A handler accepts a client's command first, if it does at all (`RaftNode.handle_from`);
the rest of it are turns that accept nothing. `Turn.books` says what such a turn does to
the log, to what is pending and to the machine.
-/

namespace KvRaft
namespace Raft

variable {C O S : Type}
variable {ids : List NodeId} {s t : Cluster C O S} {i j : NodeId}
  {n n' : RaftNode C O S} {machine : S} {trace past : List (NodeId × Effect C O S)}
  {input : Input C}

/-! ### The index at which a log changes -/

namespace Course

variable {R R' : RaftNode C O S → RaftNode C O S → Prop} {c : Course C O S}

theorem isChain_and : ∀ {l : List (RaftNode C O S)}, List.IsChain R l → List.IsChain R' l →
    List.IsChain (fun m m' => R m m' ∧ R' m m') l
  | [], _, _ => List.isChain_nil
  | [_], _, _ => List.isChain_singleton _
  | m :: m' :: l, h, h' => by
    obtain ⟨hR, htail⟩ := List.isChain_cons_cons.mp h
    obtain ⟨hR', htail'⟩ := List.isChain_cons_cons.mp h'
    exact List.isChain_cons_cons.mpr ⟨⟨hR, hR'⟩, isChain_and htail htail'⟩

/-- Two things that can be said of each step. -/
theorem From.and (h : c.From R n) (h' : c.From R' n) :
    c.From (fun m m' => R m m' ∧ R' m m') n :=
  ⟨isChain_and h.chain h'.chain, h.last⟩

/-- A course that returns is a sequence of its steps. -/
theorem From.turns (h : c.From R n) (hres : c.result = .ok n') : Relation.ReflTransGen R n n' := by
  have hend := h.last n' hres
  rw [List.getLast?_eq_getLast_of_ne_nil (List.cons_ne_nil _ _), Option.some.injEq] at hend
  rw [← hend]
  exact List.relationReflTransGen_of_exists_isChain_cons _ h.chain rfl

end Course

/-- The log is the same, or the index below the entries of the request is one of its own. -/
def Reaches (input : Input C) (n n' : RaftNode C O S) : Prop :=
  ∀ p msg, input = .message p (.appendRequest msg) →
    n'.log = n.log ∨ msg.prevLogIndex < n.log.length

namespace RaftNode

variable [RaftStateMachine S C O]

theorem courseApply_reaches : ∀ (turns : ℕ) (n : RaftNode C O S),
    (courseApply turns n).From (Reaches input) n
  | 0, _ => Course.From.stay _
  | turns + 1, _ =>
    (Course.From.attempt fun _ h _ _ _ => Or.inl (courseApply_same 1 h).1).andThen
      fun n' _ => courseApply_reaches turns n'

omit [RaftStateMachine S C O] in
theorem sendMessage_log (n : RaftNode C O S) (p : NodeId) (m : RaftMessage C) :
    (n.sendMessage p m).log = n.log := by
  unfold sendMessage
  split <;> rfl

omit [RaftStateMachine S C O] in
theorem becomeFollower_log (n : RaftNode C O S) (term : ℕ) :
    (n.becomeFollower term).log = n.log :=
  (n.becomeFollower_follows term).log

theorem courseAppendAtPrev_reaches (n : RaftNode C O S) (p : NodeId) (msg : AppendRequest C) :
    (n.courseAppendAtPrev p msg).From (Reaches (.message p (.appendRequest msg))) n := by
  have hsend : ∀ (m : RaftNode C O S) (answer : RaftMessage C),
      (Course.visit (m.sendMessage p answer)).From (Reaches (.message p (.appendRequest msg))) m :=
    fun m answer => Course.From.visit fun _ _ _ => Or.inl (sendMessage_log m p answer)
  unfold courseAppendAtPrev
  split
  · split
    · exact Course.From.stop n _
    · exact hsend n _
  next hlong =>
  split
  · exact Course.From.stop n _
  split
  · exact hsend n _
  split
  · exact Course.From.stop n _
  split
  · exact Course.From.stop n _
  -- past the checks the index is one of the log
  refine (Course.From.visit fun q req heq => Or.inr ?_).andThen fun n₂ _ =>
    (courseApply_reaches _ _).andThen fun n₃ _ => hsend n₃ _
  obtain ⟨-, hmsg⟩ := Input.message.inj heq
  obtain rfl := RaftMessage.appendRequest.inj hmsg
  omega

theorem courseAppendRequest_reaches (n : RaftNode C O S) (p : NodeId) (msg : AppendRequest C) :
    (n.courseAppendRequest p msg).From (Reaches (.message p (.appendRequest msg))) n := by
  have hfollow : ∀ m : RaftNode C O S, (Course.visit (m.becomeFollower msg.term)).From
      (Reaches (.message p (.appendRequest msg))) m :=
    fun m => Course.From.visit fun _ _ _ => Or.inl (becomeFollower_log m _)
  unfold courseAppendRequest
  split
  · exact Course.From.visit fun _ _ _ => Or.inl (sendMessage_log n p _)
  refine Course.From.andThen ?_ fun n₁ _ => ?_
  · split
    · exact hfollow n
    · exact Course.From.stay n
  split
  · exact Course.From.stop n₁ _
  refine Course.From.andThen ?_ fun n₂ _ => ?_
  · split
    · exact hfollow n₁
    · exact Course.From.stay n₁
  refine Course.From.andThen ?_ fun n₃ _ => courseAppendAtPrev_reaches n₃ p msg
  split
  · exact Course.From.visit fun _ _ _ => Or.inl rfl
  · exact Course.From.stay n₂

/-- **Every course reaches only its own log.** -/
theorem course_reaches (n : RaftNode C O S) (input : Input C) :
    (n.course input).From (fun m m' => Turn input m m' ∧ Reaches input m m') n := by
  have hvacuous : (∀ p msg, input ≠ .message p (.appendRequest msg)) →
      (n.course input).From (fun m m' => Turn input m m' ∧ Reaches input m m') n := by
    intro hne
    refine ⟨(n.course_turns input).chain.imp fun m m' ht => ⟨ht, fun p msg heq => ?_⟩,
      (n.course_turns input).last⟩
    exact absurd heq (hne p msg)
  cases input with
  | message p m =>
    cases m with
    | appendRequest msg =>
      exact (n.course_turns _).and (courseAppendRequest_reaches n p msg)
    | _ => exact hvacuous (by simp)
  | _ => exact hvacuous (by simp)

end RaftNode

/-! ### The command of a client comes first -/

/-- An input that brings no command of a client. -/
def Input.Plain (input : Input C) : Prop :=
  ∀ command reply, input ≠ .command (.apply command reply)

/-- The leader that has accepted a command and saved it. -/
def RaftNode.accepting (n : RaftNode C O S) (command : C) (reply : Sender) : RaftNode C O S :=
  ({ n with
    log := n.log ++ [LogEntry.mk n.currentTerm (.command command)]
    pendingApplies := n.pendingApplies.insert n.log.length reply
    effects := n.effects ++
      [.accepted n.log.length n.currentTerm command reply] } : RaftNode C O S).persistState

/-- **What a handler does**: it accepts a command, if a leader is given one, and then goes on
by turns that accept none. -/
theorem RaftNode.handle_from [RaftStateMachine S C O] (h : n.handle input = .ok n') :
    ∃ m input', Relation.ReflTransGen (fun m m' => Turn input' m m' ∧ Reaches input' m m') m n' ∧
      input'.Plain ∧ (input' = input ∨ input' = .heartbeat) ∧
      (m = n ∨ ∃ command reply, input = .command (.apply command reply) ∧
        n.role.isLeader = true ∧ m = n.accepting command reply) := by
  by_cases hplain : input.Plain
  · refine ⟨n, input, (n.course_reaches input).turns ?_, hplain, Or.inl rfl, Or.inl rfl⟩
    rw [n.course_result input, h]
  · obtain ⟨command, reply, rfl⟩ : ∃ command reply, input = .command (.apply command reply) := by
      simpa [Input.Plain] using hplain
    have hheartbeat : (Input.heartbeat : Input C).Plain := fun _ _ => by simp
    have hreaches : ∀ m m' : RaftNode C O S, Reaches .heartbeat m m' :=
      fun _ _ _ _ heq => absurd heq (by simp)
    have hrun : (n.courseCommand (.apply command reply)).result = .ok n' := by
      rw [courseCommand_result]
      exact h
    unfold courseCommand at hrun
    cases hlead : requireLeader n.role with
    | some err =>
      -- a command that is refused is answered at once
      simp only [hlead] at hrun
      obtain rfl := Except.ok.inj hrun
      refine ⟨n, .heartbeat, .single ⟨Turn.answer n reply _ (Answers.error err hlead), ?_⟩,
        hheartbeat, Or.inr rfl, Or.inl rfl⟩
      exact hreaches _ _
    | none =>
      simp only [hlead] at hrun
      rw [Course.result_andThen, Course.result_visit] at hrun
      have htail : ((n.accepting command reply).courseCommit.andThen courseHeartbeat).result =
          .ok n' := hrun
      refine ⟨n.accepting command reply, .heartbeat, ?_, hheartbeat, Or.inr rfl, Or.inr
        ⟨command, reply, rfl, isLeader_of_requireLeader hlead, rfl⟩⟩
      have hturns : Relation.ReflTransGen (Turn .heartbeat) (n.accepting command reply) n' :=
        (courseTail_turns _).turns htail
      have hboth : Turn .heartbeat ≤ fun m m' : RaftNode C O S =>
          Turn .heartbeat m m' ∧ Reaches .heartbeat m m' :=
        fun m m' ht => ⟨ht, hreaches m m'⟩
      exact Relation.ReflTransGen.mono hboth _ _ hturns

/-! ### What a turn does to the books -/

/-- An effect that accepts, applies and answers nothing; what it saves is this log. -/
def Unbooked (log : List (LogEntry C)) : Effect C O S → Prop
  | .save state => state.log = log
  | .accepted _ _ _ _ | .applied _ _ _ | .reply _ (.applied _) => False
  | _ => True

/-- The entry at index `k` is one of the log of `n`, of the request that is handled, or the
`NoOp` of a leader. -/
def Inherits (input : Input C) (n : RaftNode C O S) (k : ℕ) (e : LogEntry C) : Prop :=
  n.log[k]? = some e ∨ e.command = .noOp ∨ ∃ p msg x,
    input = .message p (.appendRequest msg) ∧ k = msg.prevLogIndex + 1 + x ∧
      msg.entries[x]? = some e

/-- What a turn that accepts no command does. -/
inductive Books [RaftStateMachine S C O] (input : Input C) (n n' : RaftNode C O S) : Prop
  /-- It applies an entry, and answers the client that waits for it. -/
  | applied (entry : LogEntry C) (hentry : n.log[n.lastApplied + 1]? = some entry)
    (hlog : n'.log = n.log) (happlied : n'.lastApplied = n.lastApplied + 1)
    (hmachine : n'.stateMachine = applyEntry n.stateMachine entry)
    (hanswer : (n'.pendingApplies = n.pendingApplies ∧
        n'.effects = n.effects ++ [.applied (n.lastApplied + 1) entry n.stateMachine]) ∨
      ∃ reply output, n.pendingApplies.lookup (n.lastApplied + 1) = some reply ∧
        n'.pendingApplies = n.pendingApplies.erase (n.lastApplied + 1) ∧
        n'.effects = n.effects ++ [.applied (n.lastApplied + 1) entry n.stateMachine,
          .reply reply (.applied output)])
  | other (es : List (Effect C O S))
    (hlog : ∀ k e, n'.log[k]? = some e → Inherits input n k e)
    (hpending : n'.pendingApplies = n.pendingApplies) (happlied : n'.lastApplied = n.lastApplied)
    (hmachine : n'.stateMachine = n.stateMachine) (heffects : n'.effects = n.effects ++ es)
    (hes : ∀ e ∈ es, Unbooked n'.log e)

/-- An entry of a log that an entry was pushed to. -/
theorem getElem?_concat_cases {α : Type} {l : List α} {a e : α} {k : ℕ}
    (h : (l ++ [a])[k]? = some e) : l[k]? = some e ∨ k = l.length ∧ e = a := by
  rcases lt_trichotomy k l.length with hk | rfl | hk
  · exact Or.inl (by rwa [List.getElem?_append_left hk] at h)
  · exact Or.inr ⟨rfl, by simpa using h.symm⟩
  · rw [List.getElem?_eq_none (by simp; omega)] at h
    exact absurd h (by simp)

theorem getElem?_of_take {α : Type} {l : List α} {e : α} {k m : ℕ}
    (h : (l.take m)[k]? = some e) : l[k]? = some e := by
  rw [List.getElem?_take] at h
  split at h
  · exact h
  · exact absurd h (by simp)

/-- The loop of `append_request` takes what it writes from the request, index by index. -/
theorem RaftNode.appendEntries_from : ∀ (entries : List (LogEntry C)) (index : ℕ)
    {n n' : RaftNode C O S}, index ≤ n.log.length → n.appendEntries index entries = .ok n' →
      ∀ k e, n'.log[k]? = some e →
        n.log[k]? = some e ∨ ∃ x, k = index + x ∧ entries[x]? = some e
  | [], _, n, n', _, h, k, e, he => by
    obtain rfl := Except.ok.inj h
    exact Or.inl he
  | entry :: entries, index, n, n', hle, h, k, e, he => by
    rw [appendEntries] at h
    -- the rest of the loop, from a log with an entry at `index`
    have hrest : ∀ {m : RaftNode C O S}, index + 1 ≤ m.log.length →
        m.appendEntries (index + 1) entries = .ok n' →
        (∀ k e, m.log[k]? = some e → n.log[k]? = some e ∨ k = index ∧ e = entry) →
        n.log[k]? = some e ∨ ∃ x, k = index + x ∧ (entry :: entries)[x]? = some e := by
      intro m hm hloop hfrom
      rcases appendEntries_from entries (index + 1) hm hloop k e he with hold | ⟨x, rfl, hx⟩
      · rcases hfrom k e hold with hold | ⟨rfl, rfl⟩
        · exact Or.inl hold
        · exact Or.inr ⟨0, rfl, rfl⟩
      · exact Or.inr ⟨x + 1, by omega, hx⟩
    split at h
    · next hin =>
      obtain ⟨own, hown⟩ := exists_getElem?_of_lt hin
      simp only [logAt_of_getElem? hown, bind, Except.bind] at h
      split at h
      · refine hrest ?_ h fun k e hk => ?_
        · change index + 1 ≤ (n.log.take index ++ [entry]).length
          simp only [List.length_append, List.length_take, List.length_singleton]
          omega
        · change (n.log.take index ++ [entry])[k]? = some e at hk
          rcases getElem?_concat_cases hk with hk | ⟨rfl, rfl⟩
          · exact Or.inl (getElem?_of_take hk)
          · exact Or.inr ⟨by rw [List.length_take]; omega, rfl⟩
      · exact hrest hin h fun k e hk => Or.inl hk
    · next hout =>
      refine hrest ?_ h fun k e hk => ?_
      · change index + 1 ≤ (n.log ++ [entry]).length
        rw [List.length_append, List.length_singleton]
        omega
      · rcases getElem?_concat_cases hk with hk | ⟨rfl, rfl⟩
        · exact Or.inl hk
        · exact Or.inr ⟨by omega, rfl⟩

/-- **What a turn does to the books**, if it accepts no command. -/
theorem Turn.books [RaftStateMachine S C O] (ht : Turn input n n') (hreach : Reaches input n n')
    (hplain : input.Plain) : Books input n n' := by
  have hsame : ∀ {log : List (LogEntry C)}, log = n.log → ∀ k e, log[k]? = some e →
      Inherits input n k e := by
    rintro log rfl k e he
    exact Or.inl he
  -- a leader starts its term with a `NoOp`
  have hcrown : ∀ m : RaftNode C O S, m.log = n.log → m.pendingApplies = n.pendingApplies →
      m.lastApplied = n.lastApplied → m.stateMachine = n.stateMachine → m.effects = n.effects →
      Books input n (crownedNode m).persistState := by
    intro m hlog hpending happlied hmachine heffects
    refine .other [.becameLeader m.currentTerm (m.log ++ [⟨m.currentTerm, .noOp⟩]),
      .save ⟨m.currentTerm, m.votedFor, m.log ++ [⟨m.currentTerm, .noOp⟩]⟩] (fun k e he => ?_)
      hpending happlied hmachine ?_ ?_
    · have he' : (m.log ++ [⟨m.currentTerm, .noOp⟩])[k]? = some e := he
      rcases getElem?_concat_cases he' with hold | ⟨-, rfl⟩
      · exact Or.inl (hlog ▸ hold)
      · exact Or.inr (Or.inl rfl)
    · rw [← heffects]
      exact List.append_assoc _ [_] [_]
    · simp [Unbooked, crownedNode, RaftNode.persistState, RaftNode.emit]
  cases ht with
  | follow term _ _ =>
    refine .other [.save ⟨(n.becomeFollower term).currentTerm, (n.becomeFollower term).votedFor,
      (n.becomeFollower term).log⟩] (hsame (RaftNode.becomeFollower_log n term)) ?_ ?_ ?_ ?_ ?_
    · unfold RaftNode.becomeFollower
      split <;> rfl
    · unfold RaftNode.becomeFollower
      split <;> rfl
    · unfold RaftNode.becomeFollower
      split <;> rfl
    · unfold RaftNode.becomeFollower
      split <;> rfl
    · simp [Unbooked]
  | stand _ =>
    exact .other [.save _] (hsame rfl) rfl rfl rfl rfl
      (by simp [Unbooked, standing, RaftNode.persistState, RaftNode.emit])
  | crownAlone _ _ => exact hcrown (standing n) rfl rfl rfl rfl rfl
  | crown votes _ _ => exact hcrown n rfl rfl rfl rfl rfl
  | count votes p msg _ _ _ _ =>
    exact .other [] (hsame rfl) rfl rfl rfl (List.append_nil _).symm (by simp)
  | indices _ _ _ _ _ => exact .other [] (hsame rfl) rfl rfl rfl (List.append_nil _).symm (by simp)
  | adopt p msg _ _ _ => exact .other [] (hsame rfl) rfl rfl rfl (List.append_nil _).symm (by simp)
  | append n₁ p msg hin happend =>
    have hfrom : msg.prevLogIndex < n.log.length → ∀ k e, n₁.log[k]? = some e →
        n.log[k]? = some e ∨ ∃ x, k = msg.prevLogIndex + 1 + x ∧ msg.entries[x]? = some e :=
      fun hlt => RaftNode.appendEntries_from _ _ hlt happend
    obtain ⟨log, es, rfl, hes⟩ := RaftNode.appendEntries_log _ _ happend
    have hlog : (RaftNode.followCommit { n with log := log, effects := n.effects ++ es }
        msg.leaderCommit).persistState.log = log := by
      unfold RaftNode.followCommit
      split <;> rfl
    refine .other (es ++ [.save ⟨n.currentTerm, n.votedFor, log⟩]) ?_ ?_ ?_ ?_ ?_ ?_
    · rcases hreach p msg hin with heq | hlt
      · exact hsame heq
      · intro k e he
        rw [hlog] at he
        rcases hfrom hlt k e he with hold | ⟨x, hk, hx⟩
        · exact Or.inl hold
        · exact Or.inr (Or.inr ⟨p, msg, x, hin, hk, hx⟩)
    · unfold RaftNode.followCommit
      split <;> rfl
    · unfold RaftNode.followCommit
      split <;> rfl
    · unfold RaftNode.followCommit
      split <;> rfl
    · unfold RaftNode.followCommit
      split <;> exact List.append_assoc _ _ _
    · rw [hlog]
      intro e he
      rcases List.mem_append.mp he with he | he
      · obtain ⟨k, rfl⟩ := hes e he
        trivial
      · obtain rfl := List.mem_singleton.mp he
        rfl
  | advance _ hadvance =>
    rcases RaftNode.advanceCommit_cases hadvance with rfl | ⟨index, -, rfl⟩
    · exact .other [] (hsame rfl) rfl rfl rfl (List.append_nil _).symm (by simp)
    · exact .other [.committed _ _ _] (hsame rfl) rfl rfl rfl rfl (by simp [Unbooked])
  | apply _ _ happly =>
    obtain ⟨entry, hentry, ⟨term, rfl, rfl⟩ | ⟨term, cmd, rfl, ⟨-, rfl⟩ | ⟨reply, hlook, rfl⟩⟩⟩ :=
      RaftNode.lastApplied_turn happly
    · exact .applied _ hentry rfl rfl rfl (Or.inl ⟨rfl, rfl⟩)
    · exact .applied _ hentry rfl rfl rfl (Or.inl ⟨rfl, rfl⟩)
    · exact .applied _ hentry rfl rfl rfl
        (Or.inr ⟨reply, _, hlook, rfl, List.append_assoc _ [_] [_]⟩)
  | vote p msg _ _ =>
    exact .other [.save _] (hsame rfl) rfl rfl rfl rfl
      (by simp [Unbooked, RaftNode.persistState, RaftNode.emit])
  | accept command reply hin _ => exact absurd hin (hplain command reply)
  | send p m _ =>
    unfold RaftNode.sendMessage
    split
    · exact .other [.send _ _] (hsame rfl) rfl rfl rfl rfl (by simp [Unbooked])
    · exact .other [] (hsame rfl) rfl rfl rfl (List.append_nil _).symm (by simp)
  | answer reply answer hanswers =>
    refine .other [.reply _ _] (hsame rfl) rfl rfl rfl rfl ?_
    cases hanswers <;> simp [Unbooked]

/-! ### The books of a run -/

/-- The entry at `index` has its command from a client. -/
def Pushed (trace : List (NodeId × Effect C O S)) (index : ℕ) (entry : LogEntry C) : Prop :=
  ∀ term command, entry = ⟨term, .command command⟩ →
    ∃ j channel, (j, Effect.accepted index term command channel) ∈ trace

/-- `m` is what entries that were applied at the indices `1..=k` make of `machine`. -/
def Built [RaftStateMachine S C O] (machine : S) (trace : List (NodeId × Effect C O S)) (k : ℕ)
    (m : S) : Prop :=
  ∃ entries : List (LogEntry C), entries.length = k ∧ m = entries.foldl applyEntry machine ∧
    ∀ x e, entries[x]? = some e → ∃ j m', (j, Effect.applied (x + 1) e m') ∈ trace

/-- What has to be in the books before an effect. -/
def Booked [RaftStateMachine S C O] (machine : S) (past : List (NodeId × Effect C O S))
    (i : NodeId) : Effect C O S → Prop
  | .save state => ∀ k e, state.log[k]? = some e → Pushed past k e
  | .accepted _ _ _ channel =>
    ∀ j index term command, (j, Effect.accepted index term command channel) ∉ past
  | .applied index entry m => Pushed past index entry ∧ 1 ≤ index ∧ Built machine past (index - 1) m
  | .reply channel (.applied _) =>
    (∃ index term command, (i, Effect.accepted index term command channel) ∈ past) ∧
      ∀ output, (i, Effect.reply channel (.applied output)) ∉ past
  | _ => True

/-- What a request asks to append comes from clients. -/
def Asked (past : List (NodeId × Effect C O S)) : Effect C O S → Prop
  | .send _ (.appendRequest msg) =>
    ∀ x e, msg.entries[x]? = some e → Pushed past (msg.prevLogIndex + 1 + x) e
  | _ => True

/-- What node `i` knows of the books. -/
structure Ledger [RaftStateMachine S C O] (machine : S) (trace : List (NodeId × Effect C O S))
    (i : NodeId) (n : RaftNode C O S) : Prop where
  log : ∀ k e, n.log[k]? = some e → Pushed trace k e
  built : Built machine trace n.lastApplied n.stateMachine
  pending : ∀ k channel, n.pendingApplies.lookup k = some channel →
    (∃ term command, (i, Effect.accepted k term command channel) ∈ trace) ∧
      ∀ output, (i, Effect.reply channel (.applied output)) ∉ trace

theorem Pushed.mono {trace' : List (NodeId × Effect C O S)} {k : ℕ} {e : LogEntry C}
    (h : Pushed trace k e) (hsub : ∀ x ∈ trace, x ∈ trace') : Pushed trace' k e := by
  intro term command heq
  obtain ⟨j, channel, hmem⟩ := h term command heq
  exact ⟨j, channel, hsub _ hmem⟩

theorem pushed_noOp {k : ℕ} {e : LogEntry C} (h : e.command = .noOp) : Pushed trace k e := by
  rintro term command rfl
  exact absurd h (by simp)

/-- Of two elements of a list one comes after the other, if they are not the same. -/
theorem mem_order {α : Type} {l : List α} {x y : α} (hx : x ∈ l) (hy : y ∈ l) :
    x = y ∨ (∃ past future, l = past ++ y :: future ∧ x ∈ past) ∨
      ∃ past future, l = past ++ x :: future ∧ y ∈ past := by
  obtain ⟨past, future, rfl⟩ := List.append_of_mem hx
  rcases List.mem_append.mp hy with hy | hy
  · exact Or.inr (Or.inr ⟨past, future, rfl, hy⟩)
  rcases List.mem_cons.mp hy with rfl | hy
  · exact Or.inl rfl
  · obtain ⟨mid, rest, rfl⟩ := List.append_of_mem hy
    exact Or.inr (Or.inl ⟨past ++ x :: mid, rest, by simp, by simp⟩)

section Books

variable [RaftStateMachine S C O]

theorem Built.mono {trace' : List (NodeId × Effect C O S)} {k : ℕ} {m : S}
    (h : Built machine trace k m) (hsub : ∀ x ∈ trace, x ∈ trace') : Built machine trace' k m := by
  obtain ⟨entries, hlen, hm, hmarks⟩ := h
  refine ⟨entries, hlen, hm, fun x e he => ?_⟩
  obtain ⟨j, m', hmem⟩ := hmarks x e he
  exact ⟨j, m', hsub _ hmem⟩

/-- One more entry. -/
theorem Built.next {k : ℕ} {m : S} (h : Built machine trace k m) {entry : LogEntry C}
    (hmark : (i, Effect.applied (k + 1) entry m) ∈ trace) :
    Built machine trace (k + 1) (applyEntry m entry) := by
  obtain ⟨entries, rfl, rfl, hmarks⟩ := h
  refine ⟨entries ++ [entry], by simp, by simp, fun x e he => ?_⟩
  rcases getElem?_concat_cases he with he | ⟨rfl, rfl⟩
  · exact hmarks x e he
  · exact ⟨i, _, hmark⟩

/-- **A channel is accepted once.** -/
theorem accepted_once (h : Along (Booked machine) trace) {k k' T T' : ℕ} {c c' : C}
    {channel : Sender} (hi : (i, Effect.accepted k T c channel) ∈ trace)
    (hj : (j, Effect.accepted k' T' c' channel) ∈ trace) :
    i = j ∧ k = k' ∧ T = T' ∧ c = c' := by
  rcases mem_order hi hj with heq | ⟨past, future, heq, hmem⟩ | ⟨past, future, heq, hmem⟩
  · obtain ⟨rfl, hmark⟩ := Prod.mk.inj heq
    obtain ⟨rfl, rfl, rfl, -⟩ := Effect.accepted.inj hmark
    exact ⟨rfl, rfl, rfl, rfl⟩
  · exact absurd hmem (h past j _ future heq i k T c)
  · exact absurd hmem (h past i _ future heq j k' T' c')

/-- What a node knows is not taken back. -/
theorem Ledger.more (h : Ledger machine trace i n) {es : List (NodeId × Effect C O S)}
    (hes : ∀ channel output, (i, Effect.reply channel (.applied output)) ∉ es) :
    Ledger machine (trace ++ es) i n := by
  have hsub : ∀ x ∈ trace, x ∈ trace ++ es := fun x hx => List.mem_append_left _ hx
  refine ⟨fun k e he => (h.log k e he).mono hsub, h.built.mono hsub, fun k channel hk => ?_⟩
  obtain ⟨⟨term, command, hacc⟩, hno⟩ := h.pending k channel hk
  refine ⟨⟨term, command, hsub _ hacc⟩, fun output hmem => ?_⟩
  rcases List.mem_append.mp hmem with hmem | hmem
  · exact hno output hmem
  · exact hes channel output hmem

/-- The books of node `i` while it runs; `trace` is the trace before the handler. -/
structure Booking (machine : S) (trace : List (NodeId × Effect C O S)) (i : NodeId)
    (n : RaftNode C O S) : Prop where
  along : Along (Booked machine) (trace ++ n.effects.map (Prod.mk i))
  ledger : Ledger machine (trace ++ n.effects.map (Prod.mk i)) i n

/-- **The turn lemma**: a turn that accepts no command keeps the books, if the request that is
handled asks for what clients have sent. -/
theorem Booking.turn (h : Booking machine trace i n) (ht : Turn input n n')
    (hreach : Reaches input n n') (hplain : input.Plain)
    (hin : ∀ p msg, input = .message p (.appendRequest msg) → ∀ x e, msg.entries[x]? = some e →
      Pushed trace (msg.prevLogIndex + 1 + x) e) : Booking machine trace i n' := by
  obtain ⟨halong, hledger⟩ := h
  -- the trace up to this turn
  generalize hold : trace ++ n.effects.map (Prod.mk i) = now at halong hledger
  have hnow : ∀ {es : List (Effect C O S)}, n'.effects = n.effects ++ es →
      trace ++ n'.effects.map (Prod.mk i) = now ++ es.map (Prod.mk i) := by
    intro es hes
    rw [hes, List.map_append, ← List.append_assoc, hold]
  have hsub : ∀ x ∈ trace, x ∈ now := by
    rw [← hold]
    exact fun x hx => List.mem_append_left _ hx
  cases ht.books hreach hplain with
  | applied entry hentry hlog happlied hmachine hanswer =>
    -- first the mark, which the books cover
    have hmark : Along (Booked machine)
        (now ++ [(i, .applied (n.lastApplied + 1) entry n.stateMachine)]) :=
      halong.concat ⟨hledger.log _ _ hentry, Nat.le_add_left 1 _, hledger.built⟩
    have hmore : Ledger machine
        (now ++ [(i, .applied (n.lastApplied + 1) entry n.stateMachine)]) i n :=
      hledger.more (by simp)
    have hbuilt : Built machine (now ++ [(i, .applied (n.lastApplied + 1) entry n.stateMachine)])
        n'.lastApplied n'.stateMachine := by
      rw [happlied, hmachine]
      exact hmore.built.next (List.mem_append_right _ (List.mem_singleton.mpr rfl))
    rcases hanswer with ⟨hpending, heffects⟩ | ⟨channel, output, hlook, hpending, heffects⟩
    · constructor
      · rw [hnow heffects]
        exact hmark
      · rw [hnow heffects]
        exact ⟨hlog ▸ hmore.log, hbuilt, hpending ▸ hmore.pending⟩
    · -- then the answer to the client that waits for this index
      obtain ⟨⟨term, command, hacc⟩, hno⟩ := hmore.pending _ channel hlook
      have hanswer : Along (Booked machine)
          (now ++ [(i, .applied (n.lastApplied + 1) entry n.stateMachine)] ++
            [(i, .reply channel (.applied output))]) :=
        hmark.concat ⟨⟨_, term, command, hacc⟩, hno⟩
      have hsplit := hnow heffects
      rw [show ∀ a b : Effect C O S, [a, b].map (Prod.mk i) = [(i, a)] ++ [(i, b)] from
        fun _ _ => rfl, ← List.append_assoc] at hsplit
      rw [← hsplit] at hanswer
      have hsub' : ∀ x ∈ now ++ [(i, .applied (n.lastApplied + 1) entry n.stateMachine)],
          x ∈ trace ++ n'.effects.map (Prod.mk i) := by
        rw [hsplit]
        exact fun x hx => List.mem_append_left _ hx
      refine ⟨hanswer, fun k e he => (hmore.log k e (hlog ▸ he)).mono hsub', hbuilt.mono hsub',
        fun k channel' hk => ?_⟩
      rw [hpending] at hk
      have hne : k ≠ n.lastApplied + 1 := by
        rintro rfl
        exact absurd hk (by simp)
      rw [AList.lookup_erase_ne hne] at hk
      obtain ⟨⟨term', command', hacc'⟩, hno'⟩ := hmore.pending k channel' hk
      refine ⟨⟨term', command', hsub' _ hacc'⟩, fun output' hmem => ?_⟩
      rw [hsplit] at hmem
      rcases List.mem_append.mp hmem with hmem | hmem
      · exact hno' output' hmem
      · -- another channel, since this one was accepted at another index
        obtain ⟨rfl, -⟩ : channel' = channel ∧ output' = output := by simpa using hmem
        exact hne (accepted_once hmark hacc' hacc).2.1
  | other es hlog hpending happlied hmachine heffects hes =>
    have hpushed : ∀ k e, n'.log[k]? = some e → Pushed now k e := by
      intro k e he
      rcases hlog k e he with hown | hnoOp | ⟨p, msg, x, rfl, rfl, hx⟩
      · exact hledger.log k e hown
      · exact pushed_noOp hnoOp
      · exact (hin p msg rfl x e hx).mono hsub
    have hquiet : ∀ channel output,
        (i, Effect.reply channel (.applied output)) ∉ es.map (Prod.mk i) := by
      intro channel output hmem
      obtain ⟨e, he, heq⟩ := List.mem_map.mp hmem
      obtain rfl := (Prod.mk.inj heq).2
      exact hes _ he
    have hmore := hledger.more hquiet
    constructor
    · rw [hnow heffects]
      refine halong.append fun pre e post heq => ?_
      have he := hes e (by simp [heq])
      -- only what is saved says something of the books
      cases e with
      | save state =>
        intro k entry hk
        have hlog' : state.log = n'.log := he
        rw [hlog'] at hk
        exact (hpushed k entry hk).mono fun x hx => List.mem_append_left _ hx
      | reply channel answer =>
        cases answer with
        | applied output => exact he.elim
        | _ => trivial
      | accepted _ _ _ _ => exact he.elim
      | applied _ _ _ => exact he.elim
      | _ => trivial
    · rw [hnow heffects]
      refine ⟨fun k e he => (hpushed k e he).mono fun x hx => List.mem_append_left _ hx, ?_, ?_⟩
      · rw [happlied, hmachine]
        exact hmore.built
      · rw [hpending]
        exact hmore.pending

/-- A leader that accepts a command for a channel that was not used before. -/
theorem Booking.accepting (h : Booking machine trace i n) (heff : n.effects = []) {command : C}
    {channel : Sender} (hfresh : ∀ j k T c, (j, Effect.accepted k T c channel) ∉ trace) :
    Booking machine trace i (n.accepting command channel) := by
  obtain ⟨halong, hledger⟩ := h
  rw [heff, List.map_nil, List.append_nil] at halong hledger
  have hmark : Along (Booked machine)
      (trace ++ [(i, .accepted n.log.length n.currentTerm command channel)]) :=
    halong.concat hfresh
  have hmem : (i, Effect.accepted n.log.length n.currentTerm command channel) ∈
      trace ++ [(i, .accepted n.log.length n.currentTerm command channel)] := by simp
  have hmore : Ledger machine
      (trace ++ [(i, .accepted n.log.length n.currentTerm command channel)]) i n :=
    hledger.more (by simp)
  have hlog : ∀ k e, (n.accepting command channel).log[k]? = some e →
      Pushed (trace ++ [(i, .accepted n.log.length n.currentTerm command channel)]) k e := by
    intro k e he
    rcases getElem?_concat_cases he with he | ⟨rfl, rfl⟩
    · exact hmore.log k e he
    · intro term command' heq
      obtain ⟨rfl, hcommand⟩ := LogEntry.mk.inj heq
      obtain rfl := LogCommand.command.inj hcommand
      exact ⟨i, channel, hmem⟩
  have htrace : trace ++ (n.accepting command channel).effects.map (Prod.mk i) =
      trace ++ [(i, .accepted n.log.length n.currentTerm command channel)] ++
        [(i, .save ⟨n.currentTerm, n.votedFor, (n.accepting command channel).log⟩)] := by
    simp [RaftNode.accepting, RaftNode.persistState, RaftNode.emit, heff]
  have hsub : ∀ x ∈ trace ++ [(i, .accepted n.log.length n.currentTerm command channel)],
      x ∈ trace ++ (n.accepting command channel).effects.map (Prod.mk i) := by
    rw [htrace]
    exact fun x hx => List.mem_append_left _ hx
  refine ⟨htrace ▸ hmark.concat hlog, fun k e he => (hlog k e he).mono hsub,
    hmore.built.mono hsub, fun k channel' hk => ?_⟩
  have hk' : (n.pendingApplies.insert n.log.length channel).lookup k = some channel' := hk
  by_cases hlen : k = n.log.length
  · subst hlen
    rw [AList.lookup_insert] at hk'
    obtain rfl := Option.some.inj hk'
    refine ⟨⟨n.currentTerm, command, hsub _ hmem⟩, fun output hreply => ?_⟩
    -- an answer would have come after an earlier acceptance
    rw [htrace] at hreply
    have hold : (i, Effect.reply channel (.applied output)) ∈ trace := by simpa using hreply
    obtain ⟨past, future, heq, ⟨index, term, command', hacc⟩, -⟩ := halong.at hold
    exact hfresh i index term command' (by simp [heq, hacc])
  · rw [AList.lookup_insert_ne hlen] at hk'
    obtain ⟨⟨term, command', hacc⟩, hno⟩ := hmore.pending k channel' hk'
    refine ⟨⟨term, command', hsub _ hacc⟩, fun output hreply => ?_⟩
    rw [htrace] at hreply
    exact hno output (by simpa using hreply)

/-- A handler keeps the books. -/
theorem Booking.handle (h : Booking machine trace i n) (heff : n.effects = [])
    (hfresh : ∀ command channel, input = .command (.apply command channel) →
      ∀ j k T c, (j, Effect.accepted k T c channel) ∉ trace)
    (hin : ∀ p msg, input = .message p (.appendRequest msg) → ∀ x e, msg.entries[x]? = some e →
      Pushed trace (msg.prevLogIndex + 1 + x) e)
    (hn : n.handle input = .ok n') : Booking machine trace i n' := by
  obtain ⟨m, input', hturns, hplain, hinput, hm⟩ := RaftNode.handle_from hn
  have hin' : ∀ p msg, input' = .message p (.appendRequest msg) → ∀ x e,
      msg.entries[x]? = some e → Pushed trace (msg.prevLogIndex + 1 + x) e := by
    rcases hinput with rfl | rfl
    · exact hin
    · exact fun _ _ heq => absurd heq (by simp)
  have hstart : Booking machine trace i m := by
    rcases hm with rfl | ⟨command, channel, hcommand, -, rfl⟩
    · exact h
    · exact h.accepting heff (hfresh command channel hcommand)
  clear hm hn
  induction hturns with
  | refl => exact hstart
  | tail _ hlast ih => exact ih.turn hlast.1 hlast.2 hplain hin'

/-- **A command is accepted first**, and by a leader, if one is accepted at all. -/
theorem RaftNode.handle_accepts (heff : n.effects = []) (hn : n.handle input = .ok n') :
    (∀ k T c channel, .accepted k T c channel ∉ n'.effects) ∨
      ∃ command channel es, input = .command (.apply command channel) ∧ n.role.isLeader = true ∧
        n'.effects = .accepted n.log.length n.currentTerm command channel :: es ∧
        ∀ k T c channel, .accepted k T c channel ∉ es := by
  obtain ⟨m, input', hturns, hplain, -, hm⟩ := RaftNode.handle_from hn
  have hadds : Adds (fun e => ∀ k T c channel, e ≠ .accepted k T c channel) m n' := by
    clear hm hn
    induction hturns with
    | refl => exact Adds.refl m
    | tail _ hlast ih =>
      refine ih.trans ?_
      cases hlast.1.books hlast.2 hplain with
      | applied entry _ _ _ _ hanswer =>
        rcases hanswer with ⟨-, heffects⟩ | ⟨reply, output, -, -, heffects⟩
        · exact Adds.one heffects (by simp)
        · exact ⟨_, heffects, by simp⟩
      | other es _ _ _ _ heffects hes =>
        refine ⟨es, heffects, fun e he k T c channel heq => ?_⟩
        subst heq
        exact hes _ he
  obtain ⟨es, hes, hno⟩ := hadds
  rcases hm with rfl | ⟨command, channel, hcommand, hlead, rfl⟩
  · left
    rw [hes, heff]
    exact fun k T c channel hmem => hno _ hmem k T c channel rfl
  · right
    refine ⟨command, channel, .save ⟨n.currentTerm, n.votedFor,
      (n.accepting command channel).log⟩ :: es, hcommand, hlead, ?_, fun k T c ch hmem => ?_⟩
    · rw [hes]
      simp only [RaftNode.accepting, RaftNode.persistState, RaftNode.emit, heff]
      rfl
    · rcases List.mem_cons.mp hmem with heq | hmem
      · exact absurd heq (by simp)
      · exact hno _ hmem k T c ch rfl

/-! ### Runs -/

omit [RaftStateMachine S C O] in
theorem Cluster.perform_nextReply (es : List (Effect C O S)) : ∀ s : Cluster C O S,
    (s.perform i es).nextReply = s.nextReply := by
  induction es with
  | nil => exact fun _ => rfl
  | cons e es ih =>
    intro s
    change ((s.performOne i e).perform i es).nextReply = _
    rw [ih]
    cases e <;> rfl

/-- The channels that were used are below the next one. -/
theorem Cluster.Reachable.channel_lt (h : Cluster.Reachable ids machine s) :
    ∀ j k T c channel, (j, Effect.accepted k T c channel) ∈ s.trace → channel < s.nextReply := by
  induction h with
  | refl => exact fun _ _ _ _ _ hmem => absurd hmem (by simp [Cluster.init])
  | @tail s t hs hstep ih =>
    -- the effects of a handler, in the cluster its input was taken from
    have hrun : ∀ {source : Source C} {i : NodeId} {input : Input C} {u : Cluster C O S}
        {node : RaftNode C O S}, s.offer ids source = some (i, input, u) →
        (u.node i).handle input = .ok node → ∀ es : List (Effect C O S), es ⊆ node.effects →
        ∀ j k T c channel,
          (j, Effect.accepted k T c channel) ∈ (u.perform i es).trace →
            channel < (u.perform i es).nextReply := by
      intro source i input u node ho hnode es hes j k T c channel hmem
      rw [Cluster.perform_trace, Cluster.offer_trace ho] at hmem
      rw [Cluster.perform_nextReply]
      rw [Cluster.offer_node ho] at hnode
      have heff : (s.node i).effects = [] := ((Cluster.Reachable.heads hs).nodes i).2
      rcases List.mem_append.mp hmem with hold | hnew
      · refine (ih j k T c channel hold).trans_le ?_
        rcases Cluster.offer_cases ho with ⟨-, -, -, -, -, rfl⟩ | ⟨-, -, -, -, rfl⟩ |
          ⟨-, -, -, -, -, rfl⟩ | ⟨-, -, -, -, -, -, rfl⟩
        · exact le_rfl
        · exact le_rfl
        · exact Nat.le_succ _
        · exact le_rfl
      · obtain ⟨e, he, heq⟩ := List.mem_map.mp hnew
        obtain ⟨-, rfl⟩ := Prod.mk.inj heq
        rcases RaftNode.handle_accepts heff hnode with hno | ⟨command, ch, rest, hin, -, heffects, hno⟩
        · exact absurd (hes he) (hno k T c channel)
        · have hhead := hes he
          rw [heffects] at hhead
          rcases List.mem_cons.mp hhead with hhead | hhead
          · obtain ⟨-, -, -, rfl⟩ := Effect.accepted.inj hhead
            subst hin
            rcases Cluster.offer_cases ho with ⟨-, hin, -⟩ | ⟨-, hin, -⟩ |
              ⟨command', -, hin, -, hreply, rfl⟩ | ⟨_, _, -, -, -, hin, -⟩
            · exact absurd hin (by simp)
            · exact absurd hin (by simp)
            · obtain rfl := Input.command.inj hin
              have hreply' : channel = s.nextReply := hreply
              rw [hreply']
              exact Nat.lt_succ_self _
            · exact absurd hin (by simp)
          · exact absurd hhead (hno k T c channel)
    obtain ⟨action, hstep⟩ := hstep
    rcases Cluster.exec_cases hstep with ⟨source, i, input, u, node, -, ho, hnode, rfl⟩ |
      ⟨i, -, -, rfl⟩ | ⟨source, done, i, input, u, node, -, ho, hnode, rfl⟩ | ⟨k, -, -, rfl⟩
    · exact hrun ho hnode node.effects (List.Subset.refl _)
    · exact ih
    · exact hrun ho hnode _ (List.take_subset _ _)
    · exact ih

/-- A handler asks others to append what clients have sent. -/
theorem RaftNode.handle_asks (heff : n.effects = []) (hn : n.handle input = .ok n')
    (hlog : ∀ k e, n'.log[k]? = some e → Pushed (trace ++ n'.effects.map (Prod.mk i)) k e)
    (htrace : Along (fun past _ => Asked past) trace) :
    Along (fun past _ => Asked past) (trace ++ n'.effects.map (Prod.mk i)) := by
  refine htrace.append fun pre e post heq => ?_
  cases e with
  | send p m =>
    cases m with
    | appendRequest msg =>
      intro x entry hx
      -- the request is one of the node that the handler leaves
      obtain ⟨es, hes, hreplicates⟩ := (handle_outcome hn).effects
      rw [heff, List.nil_append] at hes
      have hmem : .send p (.appendRequest msg) ∈ es := by
        rw [← hes, heq]
        simp
      obtain ⟨-, nextIndex, matchIndex, next, prev, -, -, hpos, -, -, rfl⟩ := hreplicates _ hmem
      have hentry : n'.log[next - 1 + 1 + x]? = some entry := by
        rw [List.getElem?_drop] at hx
        rwa [Nat.sub_add_cancel hpos]
      -- a command that is accepted in this handler comes first
      intro term command hcommand
      obtain ⟨j, channel, hacc⟩ := hlog _ _ hentry term command hcommand
      refine ⟨j, channel, ?_⟩
      rcases List.mem_append.mp hacc with hacc | hacc
      · exact List.mem_append_left _ hacc
      obtain ⟨mark, hmark, hmarkeq⟩ := List.mem_map.mp hacc
      obtain ⟨rfl, rfl⟩ := Prod.mk.inj hmarkeq
      rcases handle_accepts heff hn with hno | ⟨command', channel', rest, -, -, heffects, hno⟩
      · exact absurd hmark (hno _ _ _ _)
      rw [heffects] at hmark heq
      rcases List.mem_cons.mp hmark with hhead | hrest
      · rw [hhead]
        cases pre with
        | nil => exact absurd (List.cons.inj heq).1 (by simp)
        | cons y pre =>
          obtain rfl := (List.cons.inj heq).1
          simp
      · exact absurd hrest (hno _ _ _ _)
    | _ => trivial
  | _ => trivial

/-- A node that starts knows of the books what it has saved. -/
theorem Ledger.new (stored : Option (PersistentState C)) (h : Along (Booked machine) trace)
    (hstored : ∀ state, stored = some state → (i, .save state) ∈ trace) :
    Ledger machine trace i (RaftNode.new i ids machine stored) := by
  refine ⟨fun k e he => ?_, ⟨[], rfl, rfl, by simp⟩, fun k channel hk => ?_⟩
  · cases stored with
    | none =>
      -- the log that every node starts with
      have he' : ([⟨0, .noOp⟩] : List (LogEntry C))[k]? = some e := he
      exact pushed_noOp (by rw [List.mem_singleton.mp (List.mem_of_getElem? he')])
    | some state =>
      obtain ⟨past, future, heq, hsaved⟩ := h.at (hstored state rfl)
      refine Pushed.mono (hsaved k e he) fun x hx => ?_
      rw [heq]
      exact List.mem_append_left _ hx
  · exact absurd hk (by simp [RaftNode.new])

/-- **The books carry themselves.** -/
theorem carries_books : Carries ids machine
    (fun past i e => Booked machine past i e ∧ Asked past e) (Ledger machine (C := C)) where
  start trace i stored h hstored :=
    Ledger.new stored (fun past j e future heq => (h past j e future heq).1) hstored
  others trace i j es n hne h := h.more fun channel output hmem => by
    obtain ⟨e, -, heq⟩ := List.mem_map.mp hmem
    exact hne (Prod.mk.inj heq).1.symm
  waits trace i n h := ⟨h.log, h.built, h.pending⟩
  handle s source i input u node hs ho halong h heff hnode := by
    have hstart : Booking machine s.trace i (s.node i) := by
      refine ⟨?_, ?_⟩
      · rw [heff, List.map_nil, List.append_nil]
        exact fun past j e future heq => (halong past j e future heq).1
      · rw [heff, List.map_nil, List.append_nil]
        exact h
    have hend := hstart.handle heff (fun command channel hin j k T c hmem => ?_)
      (fun p msg hin x e hx => ?_) hnode
    · refine ⟨hend.along.and (RaftNode.handle_asks heff hnode hend.ledger.log ?_), hend.ledger⟩
      exact fun past j e future heq => (halong past j e future heq).2
    · -- the channel is the next one
      subst hin
      have hlt := Cluster.Reachable.channel_lt hs j k T c channel hmem
      rcases Cluster.offer_cases ho with ⟨-, hin, -⟩ | ⟨-, hin, -⟩ |
        ⟨command', -, hin, -, hreply, -⟩ | ⟨_, _, -, -, -, hin, -⟩
      · exact absurd hin (by simp)
      · exact absurd hin (by simp)
      · obtain rfl := Input.command.inj hin
        have hreply' : channel = s.nextReply := hreply
        exact absurd hreply' hlt.ne
      · exact absurd hin (by simp)
    · -- the request was sent
      subst hin
      rcases Cluster.offer_cases ho with ⟨-, hin, -⟩ | ⟨-, hin, -⟩ | ⟨_, -, hin, -⟩ |
        ⟨k, env, -, hk, -, hin, -⟩
      · exact absurd hin (by simp)
      · exact absurd hin (by simp)
      · exact absurd hin (by simp)
      · obtain ⟨-, hmsg⟩ := Input.message.inj hin
        have hsent := Cluster.Reachable.sent_mark hs (List.mem_of_getElem? hk)
        obtain ⟨past, future, heq, -, hasked⟩ := halong.at hsent
        rw [← hmsg] at hasked
        refine Pushed.mono (hasked x e hx) fun y hy => ?_
        rw [heq]
        exact List.mem_append_left _ hy

/-- **The books of every run.** -/
theorem Cluster.Reachable.books (h : Cluster.Reachable ids machine s) :
    Along (Booked machine) s.trace ∧ ∀ i, Ledger machine s.trace i (s.node i) := by
  obtain ⟨halong, hnodes⟩ := carries_books.reachable h
  exact ⟨fun past i e future heq => (halong past i e future heq).1, fun i => (hnodes i).1⟩

end Books

end Raft
end KvRaft
