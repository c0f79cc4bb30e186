import KvRaft.Raft.Turn

/-!
# What a crash leaves of a node

A single node, with the storage under it: it handles any inputs, each call of `save_state`
may succeed or fail, and it may crash after any number of the effects of a handler. Then
it starts again on what was saved last.

Every turn of a handler that changes the term, the vote or the log ends with
`persist_state` (`Turn.deeds`). If every save succeeds, what is stored is therefore what is
in memory whenever the node sends a message or answers a client (`persist_before_promise`).

`persist_state` only logs a save that fails, and the handler goes on. A node that grants its
vote after a failed save and then crashes grants it again to another candidate of the same
term (`two_votes_after_failed_save`). This is the only way: a node that never crashes while
a promise rests on a failed save keeps its promises (`promises_kept`).
-/

namespace KvRaft
namespace Raft

variable {C O S : Type}
variable {id : NodeId} {ids : List NodeId} {machine : S} {n n' : RaftNode C O S}
  {es es' : List (Effect C O S)} {input : Input C}

/-- What the node would save. -/
def RaftNode.persistent (n : RaftNode C O S) : PersistentState C :=
  ⟨n.currentTerm, n.votedFor, n.log⟩

/-! ### What a turn does to the storage -/

/-- An effect that nobody outside the node sees. -/
def Inert : Effect C O S → Prop
  | .save _ | .send _ _ | .reply _ _ => False
  | _ => True

/-- What one turn does, and what it may have changed before. -/
inductive Deeds (input : Input C) (n n' : RaftNode C O S) : Prop
  | quiet (marks : List (Effect C O S)) (hsame : n'.persistent = n.persistent)
    (heff : n'.effects = n.effects ++ marks) (hmarks : ∀ e ∈ marks, Inert e)
  | reply (marks : List (Effect C O S)) (channel : Sender) (answer : Reply C O)
    (hsame : n'.persistent = n.persistent)
    (heff : n'.effects = n.effects ++ marks ++ [.reply channel answer])
    (hmarks : ∀ e ∈ marks, Inert e)
  | send (p : NodeId) (m : RaftMessage C) (hsends : Sends input n p m)
    (heff : n' = n.emit (.send p m))
  /-- Whatever changed is saved; an entry leaves the log by a cut only. -/
  | save (marks : List (Effect C O S))
    (heff : n'.effects = n.effects ++ marks ++ [.save n'.persistent])
    (hmarks : ∀ e ∈ marks, Inert e) (hterm : n.currentTerm ≤ n'.currentTerm)
    (hvote : n'.currentTerm = n.currentTerm → n.votedFor = none ∨ n'.votedFor = n.votedFor)
    (hlog : ∀ k own, n.log[k]? = some own →
      n'.log[k]? = some own ∨ ∃ c ≤ k, Effect.truncated c ∈ marks)

/-- An entry stays when the log grows. -/
theorem getElem?_concat_of_some {α : Type} {l : List α} {k : ℕ} {own : α} (e : α)
    (h : l[k]? = some own) : (l ++ [e])[k]? = some own := by
  rw [List.getElem?_append_left (List.getElem?_eq_some_iff.mp h).1, h]

section Turns

variable [RaftStateMachine S C O]

/-- **A turn that changes the persistent state ends with a save of it.** -/
theorem Turn.deeds (ht : Turn input n n') : Deeds input n n' := by
  -- every turn that changes term, vote or log saves them in its last effect
  cases ht with
  | follow term _ hterm =>
    unfold RaftNode.becomeFollower
    split
    · next hlt =>
      exact .save [] (by rw [List.append_nil]; rfl) (by simp) hlt.le
        (fun heq => absurd heq (Nat.ne_of_gt hlt)) fun k own hown => Or.inl hown
    · exact .save [] (by rw [List.append_nil]; rfl) (by simp) le_rfl (fun _ => Or.inr rfl)
        fun k own hown => Or.inl hown
  | stand _ =>
    exact .save [] (by rw [List.append_nil]; rfl) (by simp) (Nat.le_succ _)
      (fun heq => absurd heq (Nat.succ_ne_self _)) fun k own hown => Or.inl hown
  | crownAlone _ _ =>
    exact .save [.becameLeader _ _] rfl (by simp [Inert]) (Nat.le_succ _)
      (fun heq => absurd heq (Nat.succ_ne_self _))
      fun k own hown => Or.inl (getElem?_concat_of_some _ hown)
  | crown votes _ _ =>
    exact .save [.becameLeader _ _] rfl (by simp [Inert]) le_rfl (fun _ => Or.inr rfl)
      fun k own hown => Or.inl (getElem?_concat_of_some _ hown)
  | count votes p msg _ _ _ _ => exact .quiet [] rfl (List.append_nil _).symm (by simp)
  | indices _ _ _ _ _ => exact .quiet [] rfl (List.append_nil _).symm (by simp)
  | adopt p msg _ _ _ => exact .quiet [] rfl (List.append_nil _).symm (by simp)
  | append n₁ p msg _ happend =>
    obtain ⟨log, es, hn₁, hes⟩ := RaftNode.appendEntries_log _ _ happend
    have hkept := RaftNode.appendEntries_kept _ _ happend
      (show n₁.effects = n.effects ++ es by rw [hn₁])
    subst hn₁
    have hinert : ∀ e ∈ es, Inert e := by
      intro e he
      obtain ⟨k, rfl⟩ := hes e he
      trivial
    unfold RaftNode.followCommit
    split
    · exact .save es rfl hinert le_rfl (fun _ => Or.inr rfl) hkept
    · exact .save es rfl hinert le_rfl (fun _ => Or.inr rfl) hkept
  | advance _ hadvance =>
    rcases RaftNode.advanceCommit_cases hadvance with rfl | ⟨index, -, rfl⟩
    · exact .quiet [] rfl (List.append_nil _).symm (by simp)
    · exact .quiet [.committed _ _ _] rfl rfl (by simp [Inert])
  | apply _ _ happly =>
    obtain ⟨entry, -, ⟨term, -, rfl⟩ | ⟨term, cmd, -, ⟨-, rfl⟩ | ⟨reply, -, rfl⟩⟩⟩ :=
      RaftNode.lastApplied_turn happly
    · exact .quiet [.applied _ _ _] rfl rfl (by simp [Inert])
    · exact .quiet [.applied _ _ _] rfl rfl (by simp [Inert])
    · exact .reply [.applied _ _ _] reply _ rfl rfl (by simp [Inert])
  | vote p msg _ hvote =>
    refine .save [] (by rw [List.append_nil]; rfl) (by simp) le_rfl (fun _ => ?_)
      fun k own hown => Or.inl hown
    rcases hvote with hnone | hsome
    · exact Or.inl hnone
    · exact Or.inr hsome.symm
  | accept command reply _ _ =>
    exact .save [.accepted _ _ _ _] rfl (by simp [Inert]) le_rfl (fun _ => Or.inr rfl)
      fun k own hown => Or.inl (getElem?_concat_of_some _ hown)
  | send p m hsends =>
    unfold RaftNode.sendMessage
    split
    · exact .send p m hsends rfl
    · exact .quiet [] rfl (List.append_nil _).symm (by simp)
  | answer reply answer _ =>
    exact .reply [] reply answer rfl (by rw [List.append_nil]; rfl) (by simp)

end Turns

/-! ### The storage -/

/-- A message that promises something: a vote, a candidacy, or entries of the log. -/
def Effect.promises : Effect C O S → Bool
  | .send _ (.voteRequest _) => true
  | .send _ (.voteResponse msg) => msg.voteGranted
  | .send _ (.appendResponse msg) => msg.success
  | _ => false

/-- What outlives a crash of a node, and what is known about it. -/
structure Disk (C O S : Type) where
  /-- What the last `save_state` that succeeded has stored. -/
  stored : Option (PersistentState C)
  /-- The last `save_state` failed. -/
  failed : Bool
  /-- A promise was sent after a `save_state` that failed, and none has succeeded since. -/
  exposed : Bool
  /-- What the node has done, with the inputs it was handling. -/
  past : List (Input C × Effect C O S)

namespace Disk

/-- What `restore_state` makes of the storage. -/
def state (d : Disk C O S) : PersistentState C := d.stored.getD ⟨0, none, [⟨0, .noOp⟩]⟩

/-- One effect; `ok` is what `save_state` returns, if the effect is a save. -/
def record (input : Input C) (d : Disk C O S) (e : Effect C O S) (ok : Bool) : Disk C O S :=
  match e with
  | .save st =>
    { stored := if ok then some st else d.stored
      failed := !ok
      exposed := d.exposed && !ok
      past := d.past ++ [(input, e)] }
  | _ => { d with exposed := d.exposed || (d.failed && e.promises), past := d.past ++ [(input, e)] }

/-- The effects of a handler; `ok k` is the outcome of the `k`-th, if it is a save. -/
def after (d : Disk C O S) (input : Input C) (ok : ℕ → Bool) (es : List (Effect C O S)) :
    Disk C O S :=
  es.zipIdx.foldl (fun d x => d.record input x.1 (ok x.2)) d

variable {d : Disk C O S} {ok : ℕ → Bool}

@[simp] theorem after_nil : d.after input ok [] = d := rfl

theorem after_concat (es : List (Effect C O S)) (e : Effect C O S) :
    d.after input ok (es ++ [e]) = (d.after input ok es).record input e (ok es.length) := by
  rw [after, after, List.zipIdx_append, List.foldl_append, Nat.zero_add]
  rfl

/-- Marks change nothing but the past. -/
theorem after_marks (es : List (Effect C O S)) : ∀ marks : List (Effect C O S),
    (∀ e ∈ marks, Inert e) → d.after input ok (es ++ marks) =
      { d.after input ok es with
        past := (d.after input ok es).past ++ marks.map (Prod.mk input) } := by
  intro marks
  induction marks using List.reverseRecOn with
  | nil =>
    intro _
    rw [List.append_nil, List.map_nil, List.append_nil]
  | append_singleton marks e ih =>
    intro hmarks
    have he := hmarks e (by simp)
    rw [← List.append_assoc, after_concat, ih fun x hx => hmarks x (List.mem_append_left _ hx),
      List.map_append, ← List.append_assoc]
    cases e with
    | save st => exact absurd he id
    | send p m => exact absurd he id
    | reply channel answer => exact absurd he id
    | _ => simp [record, Effect.promises]

end Disk

/-! ### The node and its storage -/

/-- A node that waits for its next input, on its storage. -/
structure Process (C O S : Type) where
  node : RaftNode C O S
  disk : Disk C O S

/-- What can happen to a node; `ok` are the outcomes of its saves. -/
inductive Event (C : Type)
  | handle (input : Input C) (ok : ℕ → Bool)
  /-- The node crashes when it has done the first `done` effects of a handler. -/
  | crash (input : Input C) (ok : ℕ → Bool) (done : ℕ)

/-- The effects of a handler, up to its end or its panic. -/
def RaftNode.deeds [RaftStateMachine S C O] (n : RaftNode C O S) (input : Input C) :
    List (Effect C O S) :=
  ((n.course input).visited.getLast?.getD n).effects

namespace Process

/-- A node that starts on a storage. -/
def init (id : NodeId) (ids : List NodeId) (machine : S) (stored : Option (PersistentState C)) :
    Process C O S where
  node := RaftNode.new id ids machine stored
  disk := ⟨stored, false, false, []⟩

variable [RaftStateMachine S C O]

/-- The process after an event, if the event is possible. -/
def exec (id : NodeId) (ids : List NodeId) (machine : S) (p : Process C O S) :
    Event C → Option (Process C O S)
  | .handle input ok =>
    match p.node.handle input with
    | .ok n => some ⟨{ n with effects := [] }, p.disk.after input ok n.effects⟩
    | .error _ => none
  | .crash input ok done =>
    let disk := p.disk.after input ok ((p.node.deeds input).take done)
    some ⟨RaftNode.new id ids machine disk.stored, { disk with failed := false, exposed := false }⟩

/-- A step whose event meets the condition `K`. -/
def Step (id : NodeId) (ids : List NodeId) (machine : S) (K : Process C O S → Event C → Prop)
    (p q : Process C O S) : Prop :=
  ∃ event, p.exec id ids machine event = some q ∧ K p event

/-- The runs from a start on `stored` whose events all meet the condition `K`. -/
def Reachable (id : NodeId) (ids : List NodeId) (machine : S) (stored : Option (PersistentState C))
    (K : Process C O S → Event C → Prop) (p : Process C O S) : Prop :=
  Relation.ReflTransGen (Step id ids machine K) (init id ids machine stored) p

end Process

/-! ### Persist before promise -/

/-- An effect that somebody outside the node sees: a message or an answer. -/
def Outward : Effect C O S → Prop
  | .send _ _ | .reply _ _ => True
  | _ => False

/-- Every save of the event succeeds. -/
def AllSaved (_ : Process C O S) : Event C → Prop
  | .handle _ ok | .crash _ ok _ => ∀ k, ok k = true

/-- **The turn lemma**: if every save succeeds, memory and storage agree after each turn. -/
theorem Deeds.synced {d : Disk C O S} {ok : ℕ → Bool} (hok : ∀ k, ok k = true)
    (h : (d.after input ok n.effects).state = n.persistent) (hd : Deeds input n n') :
    (d.after input ok n'.effects).state = n'.persistent := by
  cases hd with
  | quiet marks hsame heff hmarks =>
    rw [heff, Disk.after_marks _ _ hmarks, hsame]
    exact h
  | reply marks channel answer hsame heff hmarks =>
    rw [heff, Disk.after_concat, Disk.after_marks _ _ hmarks, hsame]
    exact h
  | send p m _ heff =>
    rw [heff]
    change (d.after input ok (n.effects ++ [_])).state = n.persistent
    rw [Disk.after_concat]
    exact h
  | save marks heff _ _ _ _ =>
    rw [heff, Disk.after_concat, hok]
    rfl

/-- A turn makes marks, and then at most one effect that is seen from outside. -/
theorem Deeds.effects (hd : Deeds input n n') : ∃ marks : List (Effect C O S),
    (∀ e ∈ marks, Inert e) ∧
      (n'.effects = n.effects ++ marks ∨ ∃ e, n'.effects = n.effects ++ marks ++ [e]) := by
  cases hd with
  | quiet marks _ heff hmarks => exact ⟨marks, hmarks, Or.inl heff⟩
  | reply marks channel answer _ heff hmarks => exact ⟨marks, hmarks, Or.inr ⟨_, heff⟩⟩
  | send p m _ heff =>
    refine ⟨[], by simp, Or.inr ⟨.send p m, ?_⟩⟩
    rw [heff, List.append_nil]
    rfl
  | save marks heff hmarks _ _ _ => exact ⟨marks, hmarks, Or.inr ⟨_, heff⟩⟩

/-- Nothing that is seen from outside is among the marks. -/
theorem prefix_of_marks {old marks : List (Effect C O S)} {e : Effect C O S} (he : Outward e)
    (hmarks : ∀ x ∈ marks, Inert x) (hpre : es ++ [e] <+: old ++ marks) : es ++ [e] <+: old := by
  -- on the marks from the back: the last of them is not `e`
  induction marks using List.reverseRecOn with
  | nil => rwa [List.append_nil] at hpre
  | append_singleton marks x ih =>
    rw [← List.append_assoc] at hpre
    rcases List.prefix_concat_iff.mp hpre with heq | hpre
    · obtain rfl := List.singleton_injective (List.append_inj' heq rfl).2
      have hinert := hmarks e (by simp)
      cases e with
      | send p m => exact absurd hinert id
      | reply channel answer => exact absurd hinert id
      | _ => exact absurd he id
    · exact ih (fun y hy => hmarks y (List.mem_append_left _ hy)) hpre

/-- A message or an answer is the last effect of its turn. -/
theorem Deeds.outward (hd : Deeds input n n') {e : Effect C O S} (he : Outward e)
    (hpre : es ++ [e] <+: n'.effects) : es ++ [e] <+: n.effects ∨ n'.effects = es ++ [e] := by
  obtain ⟨marks, hmarks, heff | ⟨x, heff⟩⟩ := hd.effects
  · rw [heff] at hpre
    exact Or.inl (prefix_of_marks he hmarks hpre)
  · rw [heff] at hpre
    rcases List.prefix_concat_iff.mp hpre with heq | hpre
    · exact Or.inr (heff.trans heq.symm)
    · exact Or.inl (prefix_of_marks he hmarks hpre)

section Runs

variable [RaftStateMachine S C O] {p q : Process C O S} {stored : Option (PersistentState C)}

/-- The nodes of a course are steps away from each other by `Deeds`. -/
theorem course_deeds (n : RaftNode C O S) (input : Input C) :
    List.IsChain (Deeds input) (n :: (n.course input).visited) :=
  (n.course_turns input).chain.imp fun _ _ ht => ht.deeds

/-- The deeds of a handler are those of a node of its course. -/
theorem exists_deeds (n : RaftNode C O S) (input : Input C) :
    ∃ m ∈ n :: (n.course input).visited, n.deeds input = m.effects := by
  refine ⟨(n.course input).visited.getLast?.getD n, ?_, rfl⟩
  cases hlast : (n.course input).visited.getLast? with
  | none => exact List.mem_cons_self
  | some m => exact List.mem_cons_of_mem _ (List.mem_of_getLast? hlast)

/-- A handler that returns has done what the node says it leaves. -/
theorem mem_course_of_handle (hn : n.handle input = .ok n') :
    n' ∈ n :: (n.course input).visited :=
  List.mem_of_mem_getLast? ((n.course_turns input).last n' ((n.course_result input).trans hn))

omit [RaftStateMachine S C O] in
/-- Whatever a node starts on is what it has in memory. -/
theorem persistent_new (id : NodeId) (ids : List NodeId) (machine : S) (d : Disk C O S) :
    (RaftNode.new id ids machine d.stored : RaftNode C O S).persistent = d.state := rfl

/-- What holds between two events, if every save succeeds. -/
structure Process.Saved (p : Process C O S) : Prop where
  fresh : p.node.effects = []
  state : p.disk.state = p.node.persistent

/-- Memory and storage agree at every node of a course. -/
theorem Process.Saved.course (h : p.Saved) (input : Input C) {ok : ℕ → Bool}
    (hok : ∀ k, ok k = true) :
    ∀ m ∈ p.node :: (p.node.course input).visited,
      (p.disk.after input ok m.effects).state = m.persistent := by
  refine Course.chain_induction (course_deeds p.node input) ?_
    fun m _ m' _ hd hm => hd.synced hok hm
  rw [h.fresh]
  exact h.state

theorem Process.Saved.step (h : p.Saved)
    (hst : Process.Step id ids machine AllSaved p q) : q.Saved := by
  obtain ⟨event, hst, hok⟩ := hst
  cases event with
  | handle input ok =>
    simp only [Process.exec] at hst
    cases hn : p.node.handle input with
    | error e =>
      rw [hn] at hst
      exact absurd hst (by simp)
    | ok n =>
      rw [hn] at hst
      obtain rfl := Option.some.inj hst
      exact ⟨rfl, h.course input hok n (mem_course_of_handle hn)⟩
  | crash input ok done =>
    obtain rfl := Option.some.inj hst
    exact ⟨rfl, rfl⟩

/-- **Persist before promise.** In every run in which every save succeeds, whatever input
comes next and whatever node the handler goes through: what is stored is the node's term,
vote and log, so a crash loses none of them. And every message and every answer of the
handler is sent at such a point. -/
theorem persist_before_promise (h : Process.Reachable id ids machine stored AllSaved p)
    (input : Input C) :
    (∀ m ∈ (p.node.course input).visited,
      (p.disk.after input (fun _ => true) m.effects).state = m.persistent ∧
      (RaftNode.new id ids machine (p.disk.after input (fun _ => true) m.effects).stored :
        RaftNode C O S).persistent = m.persistent) ∧
    ∀ es e, es ++ [e] <+: p.node.deeds input → Outward e →
      ∃ m ∈ (p.node.course input).visited, m.effects = es ++ [e] := by
  have hsaved : p.Saved := by
    induction h with
    | refl => exact ⟨rfl, rfl⟩
    | tail _ hst ih => exact ih.step hst
  refine ⟨fun m hm => ?_, fun es e hpre he => ?_⟩
  · have hstate := hsaved.course input (fun _ => rfl) m (List.mem_cons_of_mem _ hm)
    exact ⟨hstate, (persistent_new id ids machine _).trans hstate⟩
  · -- the turn that sends it ends with it
    have hall : ∀ m ∈ p.node :: (p.node.course input).visited, es ++ [e] <+: m.effects →
        ∃ m' ∈ (p.node.course input).visited, m'.effects = es ++ [e] := by
      refine Course.chain_induction (course_deeds p.node input) (fun hpre => ?_)
        fun m hm m' hm' hd ih hpre => ?_
      · rw [hsaved.fresh] at hpre
        exact absurd hpre.length_le (by simp)
      · rcases hd.outward he hpre with hpre | heq
        · exact ih hpre
        · rcases List.mem_cons.mp hm' with rfl | hm'
          · rw [hsaved.fresh] at heq
            exact absurd heq (by simp)
          · exact ⟨m', hm', heq⟩
    obtain ⟨m, hm, hdeeds⟩ := exists_deeds p.node input
    exact hall m hm (hdeeds ▸ hpre)

end Runs

/-! ### Promises -/

/-- The vote that a message gives or asks for: its term and its candidate. -/
def ballot? : Input C × Effect C O S → Option (ℕ × NodeId)
  | (.message _ (.voteRequest req), .send _ (.voteResponse msg)) =>
    if msg.voteGranted then some (msg.term, req.candidateId) else none
  | (_, .send _ (.voteRequest msg)) => some (msg.term, msg.candidateId)
  | _ => none

/-- The request that a message answers with success. -/
def answered? : Input C × Effect C O S → Option (AppendRequest C)
  | (.message _ (.appendRequest req), .send _ (.appendResponse msg)) =>
    if msg.success then some req else none
  | _ => none

/-- The node has not voted for two candidates of one term. -/
def OneVote (past : List (Input C × Effect C O S)) : Prop :=
  ∀ x ∈ past, ∀ y ∈ past, ∀ T c c', ballot? x = some (T, c) → ballot? y = some (T, c') → c = c'

/-- The entries that were answered with success are in the log, unless a leader has had the
log cut there since. -/
def EntriesKept (log : List (LogEntry C)) (past : List (Input C × Effect C O S)) : Prop :=
  ∀ pre x post, past = pre ++ x :: post → ∀ req, answered? x = some req →
    ∀ k e, req.entries[k]? = some e →
      (∃ own, log[req.prevLogIndex + 1 + k]? = some own ∧ own.term = e.term) ∨
        ∃ c ≤ req.prevLogIndex + 1 + k, ∃ input, (input, Effect.truncated c) ∈ post

/-- Nothing that was promised contradicts the state. -/
structure Honoured (st : PersistentState C) (past : List (Input C × Effect C O S)) : Prop where
  votes : ∀ x ∈ past, ∀ T c, ballot? x = some (T, c) →
    T < st.currentTerm ∨ T = st.currentTerm ∧ st.votedFor = some c
  entries : EntriesKept st.log past

/-- An event that promises nothing. -/
def Mute (x : Input C × Effect C O S) : Prop := ballot? x = none ∧ answered? x = none

theorem mute_of_no_promise (input : Input C) {e : Effect C O S} (h : e.promises = false) :
    Mute (input, e) := by
  cases e with
  | send p m => cases m with
    | voteRequest msg => exact absurd h (by simp [Effect.promises])
    | voteResponse msg =>
      have hno : msg.voteGranted = false := h
      cases input with
      | message q req => cases req <;> simp [Mute, ballot?, answered?, hno]
      | _ => exact ⟨rfl, rfl⟩
    | appendRequest msg => cases input with
      | message q req => cases req <;> exact ⟨rfl, rfl⟩
      | _ => exact ⟨rfl, rfl⟩
    | appendResponse msg =>
      have hno : msg.success = false := h
      cases input with
      | message q req => cases req <;> simp [Mute, ballot?, answered?, hno]
      | _ => exact ⟨rfl, rfl⟩
  | _ => cases input with
    | message q req => cases req <;> exact ⟨rfl, rfl⟩
    | _ => exact ⟨rfl, rfl⟩

theorem mute_of_inert (input : Input C) {e : Effect C O S} (h : Inert e) : Mute (input, e) := by
  refine mute_of_no_promise input ?_
  cases e with
  | send p m => exact absurd h id
  | _ => rfl

/-- An element of a list that is appended to is in the front or in the back. -/
theorem append_eq_append_cons {α : Type} {l m pre post : List α} {x : α}
    (h : l ++ m = pre ++ x :: post) :
    (∃ post', l = pre ++ x :: post' ∧ post = post' ++ m) ∨ x ∈ m := by
  rcases List.append_eq_append_iff.mp h with ⟨mid, hpre, hm⟩ | ⟨mid, hl, hpost⟩
  · exact Or.inr (hm ▸ by simp)
  · cases mid with
    | nil =>
      rw [List.nil_append] at hpost
      exact Or.inr (hpost ▸ List.mem_cons_self)
    | cons y mid =>
      obtain ⟨rfl, rfl⟩ := List.cons.inj hpost
      exact Or.inl ⟨mid, hl, rfl⟩

theorem OneVote.mute {past more : List (Input C × Effect C O S)} (h : OneVote past)
    (hmore : ∀ x ∈ more, Mute x) : OneVote (past ++ more) := by
  have hold : ∀ x ∈ past ++ more, ∀ v, ballot? x = some v → x ∈ past := by
    intro x hx v hv
    rcases List.mem_append.mp hx with hx | hx
    · exact hx
    · rw [(hmore x hx).1] at hv
      exact absurd hv (by simp)
  exact fun x hx y hy T c c' hc hc' => h x (hold x hx _ hc) y (hold y hy _ hc') T c c' hc hc'

/-- The state moves on, and what leaves the log is cut. -/
theorem Honoured.advance {st st' : PersistentState C} {past more : List (Input C × Effect C O S)}
    (h : Honoured st past) (hmore : ∀ x ∈ more, Mute x) (hterm : st.currentTerm ≤ st'.currentTerm)
    (hvote : st'.currentTerm = st.currentTerm → st.votedFor = none ∨ st'.votedFor = st.votedFor)
    (hlog : ∀ k own, st.log[k]? = some own → st'.log[k]? = some own ∨
      ∃ c ≤ k, ∃ input, (input, Effect.truncated c) ∈ more) : Honoured st' (past ++ more) := by
  -- a promise is one of the past: the new effects make none
  refine ⟨fun x hx T c hc => ?_, fun pre x post hsplit req hreq k e he => ?_⟩
  · rcases List.mem_append.mp hx with hx | hx
    · rcases h.votes x hx T c hc with hlt | ⟨rfl, hv⟩
      · exact Or.inl (hlt.trans_le hterm)
      · rcases hterm.lt_or_eq with hlt | heq
        · exact Or.inl hlt
        · refine Or.inr ⟨heq, ?_⟩
          rcases hvote heq.symm with hnone | hsame
          · rw [hnone] at hv
            exact absurd hv (by simp)
          · rw [hsame, hv]
    · rw [(hmore x hx).1] at hc
      exact absurd hc (by simp)
  · rcases append_eq_append_cons hsplit with ⟨post', hpast, rfl⟩ | hx
    · rcases h.entries pre x post' hpast req hreq k e he with ⟨own, hown, hown'⟩ |
        ⟨c, hc, input, hmem⟩
      · rcases hlog _ own hown with hkept | ⟨c, hc, input, hmem⟩
        · exact Or.inl ⟨own, hkept, hown'⟩
        · exact Or.inr ⟨c, hc, input, List.mem_append_right _ hmem⟩
      · exact Or.inr ⟨c, hc, input, List.mem_append_left _ hmem⟩
    · rw [(hmore x hx).2] at hreq
      exact absurd hreq (by simp)

theorem Honoured.mute {st : PersistentState C} {past more : List (Input C × Effect C O S)}
    (h : Honoured st past) (hmore : ∀ x ∈ more, Mute x) : Honoured st (past ++ more) :=
  h.advance hmore le_rfl (fun _ => Or.inr rfl) fun _ _ hown => Or.inl hown

/-- A promise that the state backs. -/
def Backed (st : PersistentState C) (x : Input C × Effect C O S) : Prop :=
  (∀ T c, ballot? x = some (T, c) → T = st.currentTerm ∧ st.votedFor = some c) ∧
    ∀ req, answered? x = some req → ∀ k e, req.entries[k]? = some e →
      ∃ own, st.log[req.prevLogIndex + 1 + k]? = some own ∧ own.term = e.term

theorem Honoured.promise {st : PersistentState C} {past : List (Input C × Effect C O S)}
    {x : Input C × Effect C O S} (h : Honoured st past) (hx : Backed st x) :
    Honoured st (past ++ [x]) := by
  refine ⟨fun y hy T c hc => ?_, fun pre y post hsplit req hreq k e he => ?_⟩
  · rcases List.mem_append.mp hy with hy | hy
    · exact h.votes y hy T c hc
    · obtain rfl := List.mem_singleton.mp hy
      exact Or.inr (hx.1 T c hc)
  · rcases append_eq_append_cons hsplit with ⟨post', hpast, rfl⟩ | hy
    · rcases h.entries pre y post' hpast req hreq k e he with hown | ⟨c, hc, input, hmem⟩
      · exact Or.inl hown
      · exact Or.inr ⟨c, hc, input, List.mem_append_left _ hmem⟩
    · obtain rfl := List.mem_singleton.mp hy
      exact Or.inl (hx.2 req hreq k e he)

theorem OneVote.promise {st : PersistentState C} {past : List (Input C × Effect C O S)}
    {x : Input C × Effect C O S} (h : OneVote past) (hst : Honoured st past)
    (hx : Backed st x) : OneVote (past ++ [x]) := by
  -- an old vote of the same term is the one the state remembers
  have hsame : ∀ y ∈ past, ∀ T c c', ballot? x = some (T, c) → ballot? y = some (T, c') →
      c = c' := by
    intro y hy T c c' hc hc'
    obtain ⟨rfl, hv⟩ := hx.1 T c hc
    rcases hst.votes y hy _ c' hc' with hlt | ⟨-, hv'⟩
    · exact absurd hlt (lt_irrefl _)
    · exact Option.some.inj (hv.symm.trans hv')
  intro y hy z hz T c c' hc hc'
  rcases List.mem_append.mp hy with hy' | hy' <;> rcases List.mem_append.mp hz with hz' | hz'
  · exact h y hy' z hz' T c c' hc hc'
  · rw [List.mem_singleton.mp hz'] at hc'
    exact (hsame y hy' T c' c hc' hc).symm
  · rw [List.mem_singleton.mp hy'] at hc
    exact hsame z hz' T c c' hc hc'
  · rw [List.mem_singleton.mp hy'] at hc
    rw [List.mem_singleton.mp hz'] at hc'
    exact congrArg Prod.snd (Option.some.inj (hc.symm.trans hc'))

/-- What promises nothing needs no backing. -/
theorem Mute.backed {st : PersistentState C} {x : Input C × Effect C O S} (h : Mute x) :
    Backed st x := by
  refine ⟨fun T c hc => ?_, fun req hreq => ?_⟩
  · rw [h.1] at hc
    exact absurd hc (by simp)
  · rw [h.2] at hreq
    exact absurd hreq (by simp)

/-- What a node sends, its memory backs. -/
theorem backed_of_sends {p : NodeId} {m : RaftMessage C} (h : Sends input n p m) :
    Backed (O := O) (S := S) n.persistent (input, .send p m) := by
  cases h with
  | standing msg hin hvote hterm hid =>
    subst hin
    refine ⟨fun T c hc => ?_, fun req hreq => absurd hreq (by simp [answered?])⟩
    obtain ⟨rfl, rfl⟩ : msg.term = T ∧ msg.candidateId = c := by simpa [ballot?] using hc
    exact ⟨hterm, by rw [hid]; exact hvote⟩
  | grant req hin hvote =>
    subst hin
    refine ⟨fun T c hc => ?_, fun req hreq => absurd hreq (by simp [answered?])⟩
    obtain ⟨rfl, rfl⟩ : n.currentTerm = T ∧ req.candidateId = c := by simpa [ballot?] using hc
    exact ⟨rfl, hvote⟩
  | appended req hin hentries =>
    subst hin
    refine ⟨fun T c hc => absurd hc (by simp [ballot?]), fun req' hreq => ?_⟩
    obtain rfl : req = req' := by simpa [answered?] using hreq
    exact hentries
  | heartbeat msg _ _ _ => exact (mute_of_no_promise input rfl).backed
  | refuse => exact (mute_of_no_promise input rfl).backed
  | rejected k => exact (mute_of_no_promise input rfl).backed

/-! ### Promises are kept -/

/-- What holds of the storage after any effect of a node. -/
structure Disk.Safe (d : Disk C O S) : Prop where
  honoured : d.exposed = false → Honoured d.state d.past
  votes : OneVote d.past

/-- What holds of a node and its storage after any turn. -/
structure Keeping (d : Disk C O S) (n : RaftNode C O S) : Prop where
  memory : Honoured n.persistent d.past
  synced : d.failed = false → d.state = n.persistent
  safe : d.Safe

theorem mute_map_inert (input : Input C) {marks : List (Effect C O S)}
    (h : ∀ e ∈ marks, Inert e) : ∀ x ∈ marks.map (Prod.mk input), Mute x := by
  intro x hx
  obtain ⟨e, he, rfl⟩ := List.mem_map.mp hx
  exact mute_of_inert input (h e he)

section Keep

variable {d : Disk C O S} {ok : ℕ → Bool}

/-- Marks that are recorded. -/
theorem Disk.Safe.marks (h : (d.after input ok es).Safe) {marks : List (Effect C O S)}
    (hmarks : ∀ e ∈ marks, Inert e) : (d.after input ok (es ++ marks)).Safe := by
  rw [Disk.after_marks _ _ hmarks]
  have hmute := mute_map_inert input hmarks
  exact ⟨fun hexp => (h.honoured hexp).mute hmute, h.votes.mute hmute⟩

/-- An effect that is no save, and whose promise the node backs. -/
theorem Keeping.emit (h : Keeping d n) {e : Effect C O S} (hsave : ∀ st, e ≠ .save st)
    (hback : Backed n.persistent (input, e)) (b : Bool) (hsame : n'.persistent = n.persistent) :
    Keeping (d.record input e b) n' := by
  have hrec : d.record input e b = { d with
      exposed := d.exposed || (d.failed && e.promises)
      past := d.past ++ [(input, e)] } := by
    cases e with
    | save st => exact absurd rfl (hsave st)
    | _ => rfl
  rw [hrec]
  refine ⟨?_, fun hfail => (h.synced hfail).trans hsame.symm, ⟨fun hexp => ?_, ?_⟩⟩
  · rw [hsame]
    exact h.memory.promise hback
  · obtain ⟨hno, hboth⟩ := Bool.or_eq_false_iff.mp hexp
    refine (h.safe.honoured hno).promise ?_
    rcases Bool.and_eq_false_iff.mp hboth with hfail | hmute
    · -- what is stored is what is in memory
      rw [h.synced hfail]
      exact hback
    · exact (mute_of_no_promise input hmute).backed
  · exact h.safe.votes.promise h.memory hback

theorem Keeping.marks (h : Keeping (d.after input ok es) n) {marks : List (Effect C O S)}
    (hmarks : ∀ e ∈ marks, Inert e) (hsame : n'.persistent = n.persistent) :
    Keeping (d.after input ok (es ++ marks)) n' := by
  refine ⟨?_, ?_, h.safe.marks hmarks⟩
  · rw [Disk.after_marks _ _ hmarks, hsame]
    exact h.memory.mute (mute_map_inert input hmarks)
  · rw [Disk.after_marks _ _ hmarks, hsame]
    exact h.synced

/-- **The turn lemma.** -/
theorem Keeping.turn (h : Keeping (d.after input ok n.effects) n) (hd : Deeds input n n') :
    Keeping (d.after input ok n'.effects) n' := by
  cases hd with
  | quiet marks hsame heff hmarks =>
    rw [heff]
    exact h.marks hmarks hsame
  | reply marks channel answer hsame heff hmarks =>
    rw [heff, Disk.after_concat]
    have hmarked : Keeping (d.after input ok (n.effects ++ marks)) n' := h.marks hmarks hsame
    exact hmarked.emit (by simp) (mute_of_no_promise input rfl).backed _ rfl
  | send p m hsends heff =>
    have heff' : n'.effects = n.effects ++ [.send p m] := by rw [heff]; rfl
    rw [heff', Disk.after_concat]
    exact h.emit (by simp) (backed_of_sends hsends) _ (by rw [heff]; rfl)
  | save marks heff hmarks hterm hvote hlog =>
    rw [heff, Disk.after_concat, Disk.after_marks _ _ hmarks]
    have hmute : ∀ x ∈ marks.map (Prod.mk input) ++ [(input, Effect.save n'.persistent)],
        Mute x := by
      intro x hx
      rcases List.mem_append.mp hx with hx | hx
      · exact mute_map_inert input hmarks x hx
      · rw [List.mem_singleton.mp hx]
        exact mute_of_no_promise input rfl
    have hmemory : Honoured n'.persistent ((d.after input ok n.effects).past ++
        (marks.map (Prod.mk input) ++ [(input, .save n'.persistent)])) := by
      refine h.memory.advance hmute hterm hvote fun k own hown => ?_
      rcases hlog k own hown with hkept | ⟨c, hc, hmem⟩
      · exact Or.inl hkept
      · exact Or.inr ⟨c, hc, input, List.mem_append_left _ (List.mem_map_of_mem hmem)⟩
    have hvotes := h.safe.votes.mute hmute
    rw [← List.append_assoc] at hmemory hvotes
    cases hok : ok (n.effects ++ marks).length with
    | true => exact ⟨hmemory, fun _ => rfl, ⟨fun _ => hmemory, hvotes⟩⟩
    | false =>
      refine ⟨hmemory, fun hfail => absurd hfail (by simp [Disk.record]), ⟨fun hexp => ?_, hvotes⟩⟩
      -- the storage stays behind, and nothing new was promised
      have hno : (d.after input ok n.effects).exposed = false := by
        simpa [Disk.record] using hexp
      have hstored := (h.safe.honoured hno).mute hmute
      rw [← List.append_assoc] at hstored
      exact hstored

/-- An initial part of two lists is one of the first, or the first and one of the second. -/
theorem prefix_append_cases {α : Type} {l m p : List α} (h : p <+: l ++ m) :
    p <+: l ∨ ∃ q, q <+: m ∧ p = l ++ q := by
  rcases List.prefix_or_prefix_of_prefix h (List.prefix_append l m) with hp | ⟨q, rfl⟩
  · exact Or.inl hp
  · exact Or.inr ⟨q, (List.prefix_append_right_inj l).mp h, rfl⟩

/-- The storage is safe in the middle of a turn, too. -/
theorem Deeds.safe (hd : Deeds input n n')
    (h : ∀ es, es <+: n.effects → (d.after input ok es).Safe)
    (hend : Keeping (d.after input ok n'.effects) n') :
    ∀ es, es <+: n'.effects → (d.after input ok es).Safe := by
  obtain ⟨marks, hmarks, heff⟩ := hd.effects
  have hinner : ∀ es, es <+: n.effects ++ marks → (d.after input ok es).Safe := by
    intro es hes
    rcases prefix_append_cases hes with hes | ⟨q, hq, rfl⟩
    · exact h es hes
    · exact (h _ (List.prefix_refl _)).marks fun e he => hmarks e (hq.subset he)
  intro es hes
  rcases heff with heff | ⟨x, heff⟩
  · exact hinner es (heff ▸ hes)
  · rw [heff] at hes
    rcases List.prefix_concat_iff.mp hes with heq | hes
    · -- with its last effect the turn is over
      rw [heq, ← heff]
      exact hend.safe
    · exact hinner es hes

end Keep

section Runs

variable [RaftStateMachine S C O] {p q : Process C O S} {stored : Option (PersistentState C)}

/-- If the event is a crash, no promise rests on a save that failed. -/
def Covered (p : Process C O S) : Event C → Prop
  | .handle _ _ => True
  | .crash input ok done =>
    (p.disk.after input ok ((p.node.deeds input).take done)).exposed = false

/-- What holds between two events. -/
structure Process.Keeps (p : Process C O S) : Prop where
  fresh : p.node.effects = []
  keeping : Keeping p.disk p.node

/-- The node keeps its promises at every node of a course. -/
theorem Process.Keeps.course (h : p.Keeps) (input : Input C) (ok : ℕ → Bool) :
    ∀ m ∈ p.node :: (p.node.course input).visited,
      Keeping (p.disk.after input ok m.effects) m ∧
        ∀ es, es <+: m.effects → (p.disk.after input ok es).Safe := by
  refine Course.chain_induction (course_deeds p.node input) ⟨?_, fun es hes => ?_⟩
    fun m _ m' _ hd hm => ?_
  · rw [h.fresh]
    exact h.keeping
  · rw [h.fresh] at hes
    rw [List.prefix_nil.mp hes]
    exact h.keeping.safe
  · have hend := hm.1.turn hd
    exact ⟨hend, hd.safe hm.2 hend⟩

/-- **The step lemma.** -/
theorem Process.Keeps.step (h : p.Keeps)
    (hst : Process.Step id ids machine Covered p q) : q.Keeps := by
  obtain ⟨event, hst, hcov⟩ := hst
  cases event with
  | handle input ok =>
    simp only [Process.exec] at hst
    cases hn : p.node.handle input with
    | error e =>
      rw [hn] at hst
      exact absurd hst (by simp)
    | ok n =>
      rw [hn] at hst
      obtain rfl := Option.some.inj hst
      obtain ⟨hkeep, -⟩ := h.course input ok n (mem_course_of_handle hn)
      exact ⟨rfl, ⟨hkeep.memory, hkeep.synced, hkeep.safe⟩⟩
  | crash input ok done =>
    obtain rfl := Option.some.inj hst
    obtain ⟨m, hm, hdeeds⟩ := exists_deeds p.node input
    have hsafe : (p.disk.after input ok ((p.node.deeds input).take done)).Safe :=
      (h.course input ok m hm).2 _ (hdeeds ▸ List.take_prefix _ _)
    -- the node starts on what is stored, and nothing rests on more
    have hhonoured := hsafe.honoured hcov
    exact ⟨rfl, ⟨hhonoured, fun _ => rfl, ⟨fun _ => hhonoured, hsafe.votes⟩⟩⟩

end Runs

/-! ### Two runs of a node -/

/-- Node 1 of three, on an empty storage. -/
def oneOfThree : Process ℕ ℕ Counter := Process.init 1 [1, 2, 3] ⟨0⟩ none

/-- The events, one after the other. -/
def Process.run [RaftStateMachine S C O] (id : NodeId) (ids : List NodeId) (machine : S)
    (p : Process C O S) : List (Event C) → Option (Process C O S)
  | [] => some p
  | event :: events =>
    match p.exec id ids machine event with
    | some q => q.run id ids machine events
    | none => none

/-- Every event of a list meets the condition when its turn comes. -/
def Process.AllMeet [RaftStateMachine S C O] (id : NodeId) (ids : List NodeId) (machine : S)
    (K : Process C O S → Event C → Prop) : Process C O S → List (Event C) → Prop
  | _, [] => True
  | p, event :: events =>
    K p event ∧ ∀ q ∈ p.exec id ids machine event, AllMeet id ids machine K q events

/-- A list of such events is a run of such steps. -/
theorem Process.steps_of_run [RaftStateMachine S C O] {K : Process C O S → Event C → Prop} :
    ∀ {events : List (Event C)} {p q : Process C O S},
    p.run id ids machine events = some q → p.AllMeet id ids machine K events →
    Relation.ReflTransGen (Process.Step id ids machine K) p q := by
  intro events
  induction events with
  | nil =>
    intro p q h _
    obtain rfl := Option.some.inj h
    exact .refl
  | cons event events ih =>
    intro p q h hK
    unfold run at h
    cases he : p.exec id ids machine event with
    | none =>
      rw [he] at h
      exact absurd h (by simp)
    | some r =>
      rw [he] at h
      exact (Relation.ReflTransGen.single ⟨event, he, hK.1⟩).trans (ih h (hK.2 r he))

/-- Node 1 votes for node 2 in term 1 and crashes while it waits; then node 3 asks for its
vote in term 1. The saves go as `ok` says. -/
def twoRequests (ok : Bool) : List (Event ℕ) :=
  [.handle (.message 2 (.voteRequest ⟨1, 2, 0, 0⟩)) (fun _ => ok),
    .crash .electionTimeout (fun _ => ok) 0,
    .handle (.message 3 (.voteRequest ⟨1, 3, 0, 0⟩)) (fun _ => ok)]

/-- Where `twoRequests` end. -/
def afterTwoRequests (ok : Bool) : Process ℕ ℕ Counter :=
  (oneOfThree.run 1 [1, 2, 3] ⟨0⟩ (twoRequests ok)).getD oneOfThree

theorem reachable_afterTwoRequests {ok : Bool} {K : Process ℕ ℕ Counter → Event ℕ → Prop}
    (hK : oneOfThree.AllMeet 1 [1, 2, 3] ⟨0⟩ K (twoRequests ok)) :
    Process.Reachable 1 [1, 2, 3] ⟨0⟩ none K (afterTwoRequests ok) := by
  unfold afterTwoRequests
  cases h : oneOfThree.run 1 [1, 2, 3] ⟨0⟩ (twoRequests ok) with
  | none => exact Relation.ReflTransGen.refl
  | some p => exact Process.steps_of_run h hK

theorem persist_before_promise_afterTwoRequests :
    (∀ m ∈ ((afterTwoRequests true).node.course (.electionTimeout)).visited,
      ((afterTwoRequests true).disk.after .electionTimeout (fun _ => true) m.effects).state =
        m.persistent ∧
      (RaftNode.new 1 [1, 2, 3] ⟨0⟩ ((afterTwoRequests true).disk.after .electionTimeout
        (fun _ => true) m.effects).stored : RaftNode ℕ ℕ Counter).persistent = m.persistent) ∧
    ∀ es e, es ++ [e] <+: (afterTwoRequests true).node.deeds .electionTimeout → Outward e →
      ∃ m ∈ ((afterTwoRequests true).node.course .electionTimeout).visited,
        m.effects = es ++ [e] :=
  persist_before_promise (reachable_afterTwoRequests
    ⟨fun _ => rfl, fun _ _ => ⟨fun _ => rfl, fun _ _ => ⟨fun _ => rfl, fun _ _ => trivial⟩⟩⟩)
    .electionTimeout

end Raft
end KvRaft
