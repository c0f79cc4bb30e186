import KvRaft.Raft.Safety

/-!
# Answers to clients

`pending_applies` maps an index to the channel on which the output of the entry at that
index is owed. The map is keyed by the index alone, and nothing but the answer itself
takes a key out of it: a leader that is deposed keeps its keys. When its successor cuts
the log at or below such a key and commits another entry there, the old client is
answered with the output of the new entry (`answer_of_another_command`).

The cut is the only way this goes wrong. In a run in which no `append_request` cuts a log
at or below a key of `pending_applies`, every answer is the output of the command the
client sent (`client_reply_correct`). The argument is local to a node: as long as nothing
is cut there, the entry that was pushed with a key stays at it (`Keeps`).
-/

namespace KvRaft
namespace Raft

variable {C O S : Type}
variable {ids : List NodeId} {s t : Cluster C O S} {i : NodeId}
  {n n' : RaftNode C O S} {machine : S} {trace : List (NodeId × Effect C O S)}

/-! ### The cut -/

/-- The index at which the loop of `append_request` cuts a log: the first one at which the
log and the entries, counted from `index` on, have entries of different terms. -/
def firstConflict (log : List (LogEntry C)) : ℕ → List (LogEntry C) → Option ℕ
  | _, [] => none
  | index, entry :: entries =>
    match log[index]? with
    | none => none
    | some own =>
      if own.term ≠ entry.term then some index else firstConflict log (index + 1) entries

/-- A request that the node accepts cuts its log above every key of `pending_applies`. -/
def RaftNode.KeepsPending (n : RaftNode C O S) (msg : AppendRequest C) : Prop :=
  n.currentTerm ≤ msg.term → n.log[msg.prevLogIndex]?.map LogEntry.term = some msg.prevLogTerm →
    ∀ cut ∈ firstConflict n.log (msg.prevLogIndex + 1) msg.entries,
      ∀ k ∈ n.pendingApplies.keys, k < cut

/-- The action delivers no request that cuts a log at or below a pending key. -/
def Cluster.KeepsPending (ids : List NodeId) (s : Cluster C O S) : Action C → Prop
  | .run source | .crashIn source _ =>
    match s.offer ids source with
    | some (i, .message _ (.appendRequest msg), u) => (u.node i).KeepsPending msg
    | _ => True
  | _ => True

instance (n : RaftNode C O S) (msg : AppendRequest C) : Decidable (n.KeepsPending msg) := by
  unfold RaftNode.KeepsPending
  infer_instance

instance (s : Cluster C O S) (action : Action C) : Decidable (s.KeepsPending ids action) := by
  unfold Cluster.KeepsPending
  split
  · split <;> infer_instance
  · split <;> infer_instance
  · infer_instance

/-- A step that cuts no log at or below a pending key. -/
def Cluster.StepKeeping [RaftStateMachine S C O] (ids : List NodeId) (machine : S)
    (s t : Cluster C O S) : Prop :=
  ∃ action, s.exec ids machine action = some t ∧ s.KeepsPending ids action

/-- Every action of a list keeps what is pending when its turn comes. -/
def Cluster.AllKeepPending [RaftStateMachine S C O] (ids : List NodeId) (machine : S) :
    Cluster C O S → List (Action C) → Prop
  | _, [] => True
  | s, action :: actions => s.KeepsPending ids action ∧
    ∀ t ∈ s.exec ids machine action, t.AllKeepPending ids machine actions

instance Cluster.decidableAllKeepPending [RaftStateMachine S C O] (ids : List NodeId)
    (machine : S) : ∀ (actions : List (Action C)) (s : Cluster C O S),
    Decidable (s.AllKeepPending ids machine actions)
  | [], _ => .isTrue trivial
  | action :: actions, s =>
    haveI := decidableAllKeepPending ids machine actions
    inferInstanceAs (Decidable (s.KeepsPending ids action ∧
      ∀ t ∈ s.exec ids machine action, t.AllKeepPending ids machine actions))

/-- A list of such actions is a run of such steps. -/
theorem Cluster.stepsKeeping_of_run [RaftStateMachine S C O] : ∀ {actions : List (Action C)}
    {s t : Cluster C O S}, s.run ids machine actions = some t →
    s.AllKeepPending ids machine actions →
    Relation.ReflTransGen (Cluster.StepKeeping ids machine) s t := by
  intro actions
  induction actions with
  | nil =>
    intro s t h _
    obtain rfl := Option.some.inj h
    exact Relation.ReflTransGen.refl
  | cons action actions ih =>
    intro s t h hkeep
    unfold run at h
    obtain ⟨hone, hrest⟩ := hkeep
    cases he : s.exec ids machine action with
    | none => rw [he] at h; exact absurd h (by simp)
    | some u =>
      rw [he] at h
      exact (Relation.ReflTransGen.single ⟨action, he, hone⟩).trans (ih h (hrest u he))

/-! ### Correct answers -/

/-- Every output that was sent to a client is the output of the command the client sent:
the answer follows the application of the very entry that was pushed for this client. -/
def Answered [RaftStateMachine S C O] (trace : List (NodeId × Effect C O S)) : Prop :=
  ∀ pre post i channel output,
    trace = pre ++ (i, Effect.reply channel (.applied output)) :: post →
    ∃ pre' index term command machine,
      pre = pre' ++ [(i, .applied index ⟨term, .command command⟩ machine)] ∧
      (i, Effect.accepted index term command channel) ∈ pre' ∧
      output = (RaftStateMachine.apply machine command).2

/-- The keys of `pending_applies` are indices of entries that were pushed for the clients
they are kept for. -/
def Promises (trace : List (NodeId × Effect C O S)) (i : NodeId) (n : RaftNode C O S) : Prop :=
  ∀ k channel, n.pendingApplies.lookup k = some channel →
    ∃ term command, (i, Effect.accepted k term command channel) ∈ trace ∧
      n.log[k]? = some ⟨term, .command command⟩

/-- An effect that gives no client an output. -/
def NoOutput : Effect C O S → Prop
  | .reply _ (.applied _) => False
  | _ => True

/-- `n'` owes what `n` owes, has the same entries at the keys, and has answered nobody. -/
structure Keeps (n n' : RaftNode C O S) : Prop where
  pending : n'.pendingApplies = n.pendingApplies
  log : ∀ k ∈ n.pendingApplies.keys, ∀ e, n.log[k]? = some e → n'.log[k]? = some e
  effects : ∃ es, n'.effects = n.effects ++ es ∧ ∀ e ∈ es, NoOutput e

theorem Keeps.refl (n : RaftNode C O S) : Keeps n n :=
  ⟨rfl, fun _ _ _ he => he, [], by simp, by simp⟩

theorem Keeps.trans {n₁ n₂ n₃ : RaftNode C O S} (h₁ : Keeps n₁ n₂) (h₂ : Keeps n₂ n₃) :
    Keeps n₁ n₃ := by
  obtain ⟨es, hes, hq⟩ := h₁.effects
  obtain ⟨es', hes', hq'⟩ := h₂.effects
  refine ⟨h₂.pending.trans h₁.pending, fun k hk e he => ?_, es ++ es', ?_, ?_⟩
  · exact h₂.log k (h₁.pending ▸ hk) e (h₁.log k hk e he)
  · rw [hes', hes, List.append_assoc]
  · intro e he
    exact (List.mem_append.mp he).elim (hq e) (hq' e)

/-- A node that pushes entries and emits effects. -/
theorem Keeps.of_push {es : List (Effect C O S)} (hp : n'.pendingApplies = n.pendingApplies)
    (hl : n.log <+: n'.log) (he : n'.effects = n.effects ++ es) (hq : ∀ e ∈ es, NoOutput e) :
    Keeps n n' := by
  refine ⟨hp, fun k _ e hk => ?_, es, he, hq⟩
  obtain ⟨rest, hrest⟩ := hl
  rw [← hrest, List.getElem?_append_left (List.getElem?_eq_some_iff.mp hk).1, hk]

/-- A node that pushes entries and emits nothing. -/
theorem Keeps.of_memory (hp : n'.pendingApplies = n.pendingApplies) (hl : n.log <+: n'.log)
    (he : n'.effects = n.effects) : Keeps n n' := by
  have he' : n'.effects = n.effects ++ [] := by rw [List.append_nil, he]
  exact Keeps.of_push hp hl he' (by simp)

/-- A node that emits an effect and keeps its log. -/
theorem Keeps.of_effect {e : Effect C O S} (hp : n'.pendingApplies = n.pendingApplies)
    (hl : n'.log = n.log) (he : n'.effects = n.effects ++ [e]) (hq : NoOutput e) :
    Keeps n n' := by
  refine Keeps.of_push hp (hl ▸ List.prefix_refl _) he fun x hx => ?_
  rw [List.mem_singleton.mp hx]
  exact hq

/-- What a node has to keep while it runs: `old` is the trace before the handler. -/
structure Faithful [RaftStateMachine S C O] (old : List (NodeId × Effect C O S)) (i : NodeId)
    (n : RaftNode C O S) : Prop where
  answered : Answered (old ++ n.effects.map (Prod.mk i))
  promises : Promises (old ++ n.effects.map (Prod.mk i)) i n

theorem Promises.mono {trace' : List (NodeId × Effect C O S)} (h : Promises trace i n)
    (hsub : ∀ x ∈ trace, x ∈ trace') (hk : Keeps n n') : Promises trace' i n' := by
  intro k channel hlook
  rw [hk.pending] at hlook
  obtain ⟨term, command, hacc, hlog⟩ := h k channel hlook
  have hkey : k ∈ n.pendingApplies.keys :=
    AList.mem_keys.mp (AList.lookup_isSome.mp (by rw [hlook]; rfl))
  exact ⟨term, command, hsub _ hacc, hk.log k hkey _ hlog⟩

section Answers

variable [RaftStateMachine S C O]

/-- An answer of the last mark, or of one before. -/
theorem Answered.concat (h : Answered trace) {x : NodeId × Effect C O S}
    (hx : ∀ i channel output, x = (i, .reply channel (.applied output)) →
      ∃ pre' index term command machine,
        trace = pre' ++ [(i, .applied index ⟨term, .command command⟩ machine)] ∧
        (i, Effect.accepted index term command channel) ∈ pre' ∧
        output = (RaftStateMachine.apply machine command).2) : Answered (trace ++ [x]) := by
  intro pre post i channel output heq
  rcases List.eq_nil_or_concat post with rfl | ⟨post', y, rfl⟩
  · obtain ⟨rfl, hx'⟩ := List.append_inj' heq rfl
    exact hx i channel output (List.singleton_injective hx')
  · have heq' : trace ++ [x] =
        (pre ++ (i, .reply channel (.applied output)) :: post') ++ [y] := by
      rw [heq, List.concat_eq_append, List.append_assoc, List.cons_append]
    obtain ⟨htrace, -⟩ := List.append_inj' heq' rfl
    exact h pre post' i channel output htrace

theorem Answered.append (h : Answered trace) : ∀ es : List (NodeId × Effect C O S),
    (∀ x ∈ es, NoOutput x.2) → Answered (trace ++ es) := by
  intro es
  induction es using List.reverseRecOn with
  | nil =>
    intro _
    rwa [List.append_nil]
  | append_singleton es x ih =>
    intro hes
    rw [← List.append_assoc]
    refine (ih fun y hy => hes y (List.mem_append_left _ hy)).concat ?_
    rintro i channel output rfl
    exact (hes (i, .reply channel (.applied output)) (by simp)).elim

/-- What was answered so far stays answered. -/
theorem Answered.of_initial {trace' : List (NodeId × Effect C O S)} (h : Answered trace')
    (hp : trace <+: trace') : Answered trace := by
  obtain ⟨rest, rfl⟩ := hp
  intro pre post i channel output heq
  refine h pre (post ++ rest) i channel output ?_
  rw [heq, List.append_assoc, List.cons_append]

theorem Faithful.keeps {old : List (NodeId × Effect C O S)} (h : Faithful old i n)
    (hg : Keeps n n') : Faithful old i n' := by
  obtain ⟨es, hes, hq⟩ := hg.effects
  have heq : old ++ n'.effects.map (Prod.mk i) =
      old ++ n.effects.map (Prod.mk i) ++ es.map (Prod.mk i) := by
    rw [hes, List.map_append, List.append_assoc]
  refine ⟨?_, ?_⟩
  · rw [heq]
    refine h.answered.append _ fun x hx => ?_
    obtain ⟨e, he, rfl⟩ := List.mem_map.mp hx
    exact hq e he
  · rw [heq]
    exact h.promises.mono (fun x hx => List.mem_append_left _ hx) hg

end Answers

/-! ### The functions that answer nobody -/

theorem keeps_persistState (n : RaftNode C O S) : Keeps n n.persistState :=
  Keeps.of_effect rfl rfl rfl trivial

theorem keeps_sendMessage (n : RaftNode C O S) (p : NodeId) (m : RaftMessage C) :
    Keeps n (n.sendMessage p m) := by
  unfold RaftNode.sendMessage
  split
  · exact Keeps.of_effect rfl rfl rfl trivial
  · exact Keeps.refl n

theorem keeps_broadcastMessage (n : RaftNode C O S) (m : RaftMessage C) :
    Keeps n (n.broadcastMessage m) := by
  have hloop : ∀ (ps : List NodeId) (n : RaftNode C O S),
      Keeps n (ps.foldl (fun node peerId => node.sendMessage peerId m) n) := by
    intro ps
    induction ps with
    | nil => exact Keeps.refl
    | cons p ps ih => exact fun n => (keeps_sendMessage n p m).trans (ih _)
  exact hloop n.peerIds n

/-- `become_follower` keeps what is pending. -/
theorem keeps_becomeFollower (n : RaftNode C O S) (term : ℕ) :
    Keeps n (n.becomeFollower term) ∧ (n.becomeFollower term).log = n.log := by
  unfold RaftNode.becomeFollower
  by_cases hlt : n.currentTerm < term
  · simp only [if_pos hlt]
    exact ⟨Keeps.of_effect rfl rfl rfl trivial, rfl⟩
  · simp only [if_neg hlt]
    exact ⟨Keeps.of_effect rfl rfl rfl trivial, rfl⟩

theorem keeps_heartbeatTo {p : NodeId} (h : n.heartbeatTo p = .ok n') : Keeps n n' := by
  unfold RaftNode.heartbeatTo at h
  split at h
  · split at h
    · exact absurd h (by simp)
    · split at h
      · exact absurd h (by simp)
      · next x _ _ =>
        cases hat : n.logAt (x - 1) with
        | error e =>
          rw [hat] at h
          exact absurd h (by simp [bind, Except.bind])
        | ok e =>
          simp only [hat, bind, Except.bind] at h
          split at h
          · exact absurd h (by simp)
          · rw [← Except.ok.inj h]
            exact keeps_sendMessage n p _
  · exact absurd h (by simp)

theorem keeps_onHeartbeat (h : n.onHeartbeat = .ok n') : Keeps n n' := by
  have hloop : ∀ (ps : List NodeId) (n : RaftNode C O S),
      ps.foldlM RaftNode.heartbeatTo n = .ok n' → Keeps n n' := by
    intro ps
    induction ps with
    | nil =>
      intro n h
      rw [← Except.ok.inj h]
      exact Keeps.refl n
    | cons p ps ih =>
      intro n h
      rw [List.foldlM_cons] at h
      cases hp : n.heartbeatTo p with
      | error e =>
        rw [hp] at h
        exact absurd h (by simp [bind, Except.bind])
      | ok m =>
        rw [hp] at h
        exact (keeps_heartbeatTo hp).trans (ih m h)
  exact hloop n.peerIds n h

theorem keeps_advanceCommit (h : n.advanceCommit = .ok n') : Keeps n n' := by
  unfold RaftNode.advanceCommit at h
  split at h
  · next nextIndex matchIndex _ =>
    cases hf : n.findCommit matchIndex
        (List.range' (n.commitIndex + 1) (n.log.length - (n.commitIndex + 1))).reverse with
    | error e =>
      simp only [hf, bind, Except.bind] at h
      exact absurd h (by simp)
    | ok found =>
      simp only [hf, bind, Except.bind] at h
      cases found with
      | none =>
        rw [← Except.ok.inj h]
        exact Keeps.refl n
      | some index =>
        rw [← Except.ok.inj h]
        exact Keeps.of_effect rfl rfl rfl trivial
  · rw [← Except.ok.inj h]
    exact Keeps.refl n

theorem firstConflict_of_le {log entries : List (LogEntry C)} {index : ℕ}
    (h : log.length ≤ index) : firstConflict log index entries = none := by
  cases entries with
  | nil => rfl
  | cons e entries => rw [firstConflict, List.getElem?_eq_none h]

/-- **The loop of `append_request`** keeps what is below its cut. -/
theorem keeps_appendEntries : ∀ (entries : List (LogEntry C)) (index : ℕ)
    (n : RaftNode C O S), (∀ cut, firstConflict n.log index entries = some cut →
      ∀ k ∈ n.pendingApplies.keys, k < cut) →
    n.appendEntries index entries = .ok n' → Keeps n n' := by
  intro entries
  induction entries with
  | nil =>
    intro index n _ h
    rw [← Except.ok.inj h]
    exact Keeps.refl n
  | cons e entries ih =>
    intro index n hcut h
    rw [RaftNode.appendEntries] at h
    rw [firstConflict] at hcut
    by_cases hin : index < n.log.length
    · obtain ⟨own, hown⟩ := exists_getElem?_of_lt hin
      rw [if_pos hin, logAt_of_getElem? hown] at h
      rw [hown] at hcut
      by_cases hterm : own.term ≠ e.term
      · simp only [bind, Except.bind, if_pos hterm] at h
        simp only [if_pos hterm] at hcut
        have hlen : (n.log.take index ++ [e]).length = index + 1 := by
          rw [List.length_append, List.length_take, List.length_singleton]
          omega
        -- after the cut the loop only pushes
        have hrest := ih (index + 1)
          (RaftNode.emit { n with log := n.log.take index ++ [e] } (.truncated index))
          (fun cut hc => by
            change firstConflict (n.log.take index ++ [e]) (index + 1) entries = some cut at hc
            rw [firstConflict_of_le hlen.le] at hc
            exact absurd hc (by simp)) h
        have hcutOnly : Keeps n (RaftNode.emit { n with log := n.log.take index ++ [e] }
            (.truncated index)) := by
          refine ⟨rfl, fun k hk x hx => ?_, [.truncated index], rfl, ?_⟩
          · have hlt := hcut index rfl k hk
            change (n.log.take index ++ [e])[k]? = some x
            rw [List.getElem?_append_left (by rw [List.length_take]; omega),
              List.getElem?_take_of_lt hlt, hx]
          · intro x hx
            rw [List.mem_singleton.mp hx]
            trivial
        exact hcutOnly.trans hrest
      · simp only [if_neg hterm] at hcut
        simp only [bind, Except.bind, if_neg hterm] at h
        exact ih (index + 1) n hcut h
    · rw [if_neg hin] at h
      have hlen : (n.log ++ [e]).length ≤ index + 1 := by
        rw [List.length_append, List.length_singleton]
        omega
      have hrest := ih (index + 1) { n with log := n.log ++ [e] } (fun cut hc => by
        rw [firstConflict_of_le hlen] at hc
        exact absurd hc (by simp)) h
      have hpush : Keeps n { n with log := n.log ++ [e] } :=
        Keeps.of_memory rfl (List.prefix_append _ _) rfl
      exact hpush.trans hrest

/-! ### The functions that answer -/

section Handlers

variable [RaftStateMachine S C O] {old : List (NodeId × Effect C O S)}

/-- One turn of the loop of `apply_committed`, for an entry that is answered: the entry is
the one that was pushed for the channel. -/
theorem Faithful.answer (h : Faithful old i n) {k : ℕ} {channel : Sender}
    (hlook : n.pendingApplies.lookup k = some channel) {term : ℕ} {command : C}
    (hentry : n.log[k]? = some ⟨term, .command command⟩) :
    Faithful old i { n with
      lastApplied := k
      stateMachine := (RaftStateMachine.apply n.stateMachine command).1
      pendingApplies := n.pendingApplies.erase k
      effects := n.effects ++ [.applied k ⟨term, .command command⟩ n.stateMachine] ++
        [.reply channel (.applied (RaftStateMachine.apply n.stateMachine command).2)] } := by
  obtain ⟨term', command', hacc, hlog⟩ := h.promises k channel hlook
  obtain ⟨rfl, hcommand⟩ := LogEntry.mk.inj (Option.some.inj (hentry.symm.trans hlog))
  obtain rfl := LogCommand.command.inj hcommand
  have heq : old ++ (n.effects ++
      [Effect.applied k ⟨term, .command command⟩ n.stateMachine] ++
      [Effect.reply channel (.applied (RaftStateMachine.apply n.stateMachine command).2)]).map
        (Prod.mk i) =
      old ++ n.effects.map (Prod.mk i) ++ [(i, .applied k ⟨term, .command command⟩ n.stateMachine)]
        ++ [(i, .reply channel (.applied (RaftStateMachine.apply n.stateMachine command).2))] := by
    simp only [List.map_append, List.map_cons, List.map_nil, List.append_assoc]
  refine ⟨?_, ?_⟩
  · rw [heq]
    refine Answered.concat (h.answered.concat ?_) ?_
    · intro _ _ _ hx
      exact absurd (Prod.mk.inj hx).2 (by simp)
    · -- the reply follows the application of the very command that was promised
      intro j channel' output hx
      obtain ⟨rfl, hreply⟩ := Prod.mk.inj hx
      obtain ⟨rfl, houtput⟩ := Effect.reply.inj hreply
      exact ⟨_, k, term, command, n.stateMachine, rfl, hacc, (Reply.applied.inj houtput).symm⟩
  · rw [heq]
    intro k' channel' hlook'
    dsimp only at hlook'
    by_cases hk : k' = k
    · subst hk
      rw [AList.lookup_erase] at hlook'
      exact absurd hlook' (by simp)
    · rw [AList.lookup_erase_ne hk] at hlook'
      obtain ⟨term', command', hacc', hlog'⟩ := h.promises k' channel' hlook'
      exact ⟨term', command', List.mem_append_left _ (List.mem_append_left _ hacc'), hlog'⟩

/-- **`apply_committed`** answers a client with the output of its own command. -/
theorem Faithful.applyCommittedLoop : ∀ (turns : ℕ) {n : RaftNode C O S}, Faithful old i n →
    RaftNode.applyCommittedLoop turns n = .ok n' → Faithful old i n' := by
  intro turns
  induction turns with
  | zero =>
    intro n h hn
    rw [← Except.ok.inj hn]
    exact h
  | succ turns ih =>
    intro n h hn
    rw [RaftNode.applyCommittedLoop] at hn
    cases hat : RaftNode.logAt { n with lastApplied := n.lastApplied + 1 } (n.lastApplied + 1) with
    | error e =>
      simp only [hat, bind, Except.bind] at hn
      exact absurd hn (by simp)
    | ok entry =>
      simp only [hat, bind, Except.bind] at hn
      have hentry : n.log[n.lastApplied + 1]? = some entry := by
        unfold RaftNode.logAt at hat
        split at hat
        · next e he => rw [he, Except.ok.inj hat]
        · exact absurd hat (by simp)
      -- the mark alone, with whatever it does to the machine
      have hmark : ∀ machine : S, Faithful old i { n with
          lastApplied := n.lastApplied + 1
          stateMachine := machine
          effects := n.effects ++ [.applied (n.lastApplied + 1) entry n.stateMachine] } :=
        fun machine => h.keeps (Keeps.of_effect rfl rfl rfl trivial)
      obtain ⟨term, command⟩ := entry
      cases command with
      | noOp => exact ih (hmark n.stateMachine) hn
      | command cmd =>
        cases hlook : n.pendingApplies.lookup (n.lastApplied + 1) with
        | none =>
          simp only [RaftNode.emit, hlook] at hn
          exact ih (hmark _) hn
        | some channel =>
          simp only [RaftNode.emit, hlook] at hn
          exact ih (h.answer hlook hentry) hn

theorem Faithful.applyCommitted (h : Faithful old i n) (hn : n.applyCommitted = .ok n') :
    Faithful old i n' :=
  h.applyCommittedLoop _ hn

/-- The steps a leader takes after it pushed an entry. -/
theorem Faithful.leaderTail (h : Faithful old i n) (hn : (do
      let self ← n.advanceCommit
      let self ← self.applyCommitted
      self.onHeartbeat) = Except.ok n') : Faithful old i n' := by
  cases h₁ : n.advanceCommit with
  | error e =>
    simp only [h₁, bind, Except.bind] at hn
    exact absurd hn (by simp)
  | ok n₁ =>
    cases h₂ : n₁.applyCommitted with
    | error e =>
      simp only [h₁, h₂, bind, Except.bind] at hn
      exact absurd hn (by simp)
    | ok n₂ =>
      simp only [h₁, h₂, bind, Except.bind] at hn
      exact ((h.keeps (keeps_advanceCommit h₁)).applyCommitted h₂).keeps (keeps_onHeartbeat hn)

theorem Faithful.becomeLeader (h : Faithful old i n) (hn : n.becomeLeader = .ok n') :
    Faithful old i n' := by
  have hpush : Keeps n (crownedNode n).persistState := by
    refine Keeps.of_push rfl (List.prefix_append _ _) (List.append_assoc n.effects [_] [_]) ?_
    intro e he
    rcases List.mem_cons.mp he with rfl | he
    · trivial
    · rw [List.mem_singleton.mp he]
      trivial
  exact (h.keeps hpush).leaderTail hn

theorem Faithful.becomeCandidate (h : Faithful old i n) (hn : n.becomeCandidate = .ok n') :
    Faithful old i n' := by
  have hstand : Faithful old i (standing n) :=
    h.keeps (Keeps.of_memory rfl (List.prefix_refl _) rfl)
  by_cases hterm : u64Max ≤ n.currentTerm
  · rw [RaftNode.becomeCandidate, if_pos hterm] at hn
    exact absurd hn (by simp)
  by_cases hmaj : hasMajority 1 (n.peerIds.length + 1) = true
  · rw [RaftNode.becomeCandidate, if_neg hterm] at hn
    exact hstand.becomeLeader ((if_pos hmaj).symm.trans hn)
  · rw [becomeCandidate_of_peers hterm hmaj] at hn
    cases hlast : (standing n).lastLog with
    | error e =>
      rw [hlast] at hn
      exact absurd hn (by simp [Except.map])
    | ok last =>
      rw [hlast] at hn
      rw [← Except.ok.inj hn]
      exact (hstand.keeps (keeps_persistState _)).keeps (keeps_broadcastMessage _ _)

theorem Faithful.appendResponse (h : Faithful old i n) {p : NodeId} {msg : AppendResponse}
    (hn : n.appendResponse p msg = .ok n') : Faithful old i n' := by
  unfold RaftNode.appendResponse at hn
  split at hn
  · rw [← Except.ok.inj hn]
    exact h
  split at hn
  · rw [← Except.ok.inj hn]
    exact h.keeps (keeps_becomeFollower n msg.term).1
  split at hn
  · -- a leader sets its indices, commits and applies
    have hset : ∀ role, Faithful old i { n with role := role } := fun role => h.keeps
      (Keeps.of_memory rfl (List.prefix_refl _) rfl)
    dsimp only at hn
    generalize (if msg.success = true then _ else _ : Role) = role at hn
    cases h₁ : RaftNode.advanceCommit { n with role := role } with
    | error e =>
      simp only [h₁, bind, Except.bind] at hn
      exact absurd hn (by simp)
    | ok n₁ =>
      simp only [h₁, bind, Except.bind] at hn
      exact ((hset role).keeps (keeps_advanceCommit h₁)).applyCommitted hn
  · rw [← Except.ok.inj hn]
    exact h

/-- The tail of `append_request`, for a request that cuts no pending key. -/
theorem Faithful.appendAtPrev (h : Faithful old i n) {p : NodeId} {msg : AppendRequest C}
    (hkeep : n.log[msg.prevLogIndex]?.map LogEntry.term = some msg.prevLogTerm →
      ∀ cut ∈ firstConflict n.log (msg.prevLogIndex + 1) msg.entries,
        ∀ k ∈ n.pendingApplies.keys, k < cut)
    (hn : n.appendAtPrev p msg = .ok n') : Faithful old i n' := by
  unfold RaftNode.appendAtPrev at hn
  split at hn
  · split at hn
    · exact absurd hn (by simp)
    · rw [← Except.ok.inj hn]
      exact h.keeps (keeps_sendMessage _ _ _)
  · next hlong =>
    obtain ⟨prev, hprev⟩ := exists_getElem?_of_lt (show msg.prevLogIndex < n.log.length by omega)
    simp only [logAt_of_getElem? hprev, bind, Except.bind] at hn
    split at hn
    · rw [← Except.ok.inj hn]
      exact h.keeps (keeps_sendMessage _ _ _)
    · next hterm =>
      push Not at hterm
      cases h₁ : n.appendEntries (msg.prevLogIndex + 1) msg.entries with
      | error e =>
        simp only [h₁] at hn
        exact absurd hn (by simp)
      | ok n₁ =>
        simp only [h₁] at hn
        -- the log is cut above every index that has a client waiting
        have hn₁ : Faithful old i n₁ :=
          h.keeps (keeps_appendEntries _ _ n (hkeep (by rw [hprev, ← hterm]; rfl)) h₁)
        split at hn
        · exact absurd hn (by simp)
        · -- the commit index, the save, the application and the answer
          obtain ⟨n₂, heq, hn₂⟩ : ∃ n₂, (if n₁.commitIndex < msg.leaderCommit then
              ({ n₁ with commitIndex := min msg.leaderCommit (n₁.log.length - 1) } :
                RaftNode C O S) else n₁) = n₂ ∧ Faithful old i n₂ := by
            refine ⟨_, rfl, ?_⟩
            split
            · exact hn₁.keeps (Keeps.of_memory rfl (List.prefix_refl _) rfl)
            · exact hn₁
          rw [heq] at hn
          cases h₃ : n₂.persistState.applyCommitted with
          | error e =>
            simp only [h₃] at hn
            exact absurd hn (by simp)
          | ok n₃ =>
            simp only [h₃] at hn
            rw [← Except.ok.inj hn]
            exact ((hn₂.keeps (keeps_persistState _)).applyCommitted h₃).keeps
              (keeps_sendMessage _ _ _)

/-- **`append_request`** that cuts no pending key. -/
theorem Faithful.appendRequest (h : Faithful old i n) {p : NodeId} {msg : AppendRequest C}
    (hkeep : n.KeepsPending msg) (hn : n.appendRequest p msg = .ok n') : Faithful old i n' := by
  unfold RaftNode.appendRequest at hn
  split at hn
  · rw [← Except.ok.inj hn]
    exact h.keeps (keeps_sendMessage _ _ _)
  · next hterm =>
    -- the role and the term change, the log and what is pending do not
    have hsame : ∀ m : RaftNode C O S, Keeps n m → m.log = n.log → Faithful old i m ∧
        (m.log[msg.prevLogIndex]?.map LogEntry.term = some msg.prevLogTerm →
          ∀ cut ∈ firstConflict m.log (msg.prevLogIndex + 1) msg.entries,
            ∀ k ∈ m.pendingApplies.keys, k < cut) := by
      intro m hm hlog
      rw [hlog, hm.pending]
      exact ⟨h.keeps hm, hkeep (by omega)⟩
    obtain ⟨n₁, heq₁, hk₁, hl₁⟩ : ∃ n₁, (if n.currentTerm < msg.term then
        n.becomeFollower msg.term else n) = n₁ ∧ Keeps n n₁ ∧ n₁.log = n.log := by
      refine ⟨_, rfl, ?_⟩
      split
      · exact keeps_becomeFollower n msg.term
      · exact ⟨Keeps.refl n, rfl⟩
    simp only [heq₁] at hn
    split at hn
    · exact absurd hn (by simp)
    obtain ⟨n₂, heq₂, hk₂, hl₂⟩ : ∃ n₂, (if n₁.role.isCandidate = true ∧
        msg.term = n₁.currentTerm then n₁.becomeFollower msg.term else n₁) = n₂ ∧
        Keeps n n₂ ∧ n₂.log = n.log := by
      refine ⟨_, rfl, ?_⟩
      split
      · obtain ⟨hk, hl⟩ := keeps_becomeFollower n₁ msg.term
        exact ⟨hk₁.trans hk, hl.trans hl₁⟩
      · exact ⟨hk₁, hl₁⟩
    simp only [heq₂] at hn
    split at hn
    · obtain ⟨hf, hcut⟩ := hsame { n₂ with role := .follower (some msg.leaderId) }
        (hk₂.trans (Keeps.of_memory rfl (List.prefix_refl _) rfl)) hl₂
      exact hf.appendAtPrev hcut hn
    · obtain ⟨hf, hcut⟩ := hsame n₂ hk₂ hl₂
      exact hf.appendAtPrev hcut hn

theorem Faithful.voteRequest (h : Faithful old i n) {p : NodeId} {msg : VoteRequest}
    (hn : n.voteRequest p msg = .ok n') : Faithful old i n' := by
  unfold RaftNode.voteRequest at hn
  split at hn
  · rw [← Except.ok.inj hn]
    exact h.keeps (keeps_sendMessage _ _ _)
  · obtain ⟨n₁, heq₁, hf₁⟩ : ∃ n₁, (if n.currentTerm < msg.term then
        n.becomeFollower msg.term else n) = n₁ ∧ Faithful old i n₁ := by
      refine ⟨_, rfl, ?_⟩
      split
      · exact h.keeps (keeps_becomeFollower n msg.term).1
      · exact h
    simp only [heq₁] at hn
    cases hlast : n₁.lastLog with
    | error e =>
      simp only [hlast, bind, Except.bind] at hn
      exact absurd hn (by simp)
    | ok last =>
      simp only [hlast, bind, Except.bind] at hn
      split at hn
      · rw [← Except.ok.inj hn]
        have hvote : Faithful old i { n₁ with votedFor := some msg.candidateId } := hf₁.keeps
          (Keeps.of_memory rfl (List.prefix_refl _) rfl)
        exact (hvote.keeps (keeps_persistState _)).keeps (keeps_sendMessage _ _ _)
      · rw [← Except.ok.inj hn]
        exact hf₁.keeps (keeps_sendMessage _ _ _)

theorem Faithful.voteResponse (h : Faithful old i n) {msg : VoteResponse}
    (hn : n.voteResponse msg = .ok n') : Faithful old i n' := by
  unfold RaftNode.voteResponse at hn
  split at hn
  · rw [← Except.ok.inj hn]
    exact h
  split at hn
  · rw [← Except.ok.inj hn]
    exact h.keeps (keeps_becomeFollower n msg.term).1
  split at hn
  · next votes _ _ =>
    have hcount : Faithful old i { n with role := .candidate (votes + 1) } := h.keeps
      (Keeps.of_memory rfl (List.prefix_refl _) rfl)
    dsimp only at hn
    split at hn
    · exact hcount.becomeLeader hn
    · rw [← Except.ok.inj hn]
      exact hcount
  · rw [← Except.ok.inj hn]
    exact h

/-- An accepted `Apply` makes the promise for the entry it pushes. -/
theorem Faithful.applyCommand (h : Faithful old i n) {command : C} {channel : Sender}
    (hlead : RaftNode.requireLeader n.role = none)
    (hn : n.clientCommand (.apply command channel) = .ok n') : Faithful old i n' := by
  let entry : LogEntry C := ⟨n.currentTerm, .command command⟩
  let m : RaftNode C O S := { n with
    log := n.log ++ [entry]
    pendingApplies := n.pendingApplies.insert n.log.length channel
    effects := n.effects ++ [.accepted n.log.length n.currentTerm command channel] }
  have hm : Faithful old i m := by
    have heq : old ++ m.effects.map (Prod.mk i) = old ++ n.effects.map (Prod.mk i) ++
        [(i, .accepted n.log.length n.currentTerm command channel)] := by
      change old ++ (n.effects ++ [_]).map (Prod.mk i) = _
      rw [List.map_append, List.append_assoc]
      rfl
    refine ⟨?_, ?_⟩
    · rw [heq]
      refine h.answered.concat fun _ _ _ hx => ?_
      exact absurd (Prod.mk.inj hx).2 (by simp)
    · rw [heq]
      intro k channel' hlook
      change (n.pendingApplies.insert n.log.length channel).lookup k = some channel' at hlook
      by_cases hk : k = n.log.length
      · subst hk
        rw [AList.lookup_insert] at hlook
        obtain rfl := Option.some.inj hlook
        refine ⟨n.currentTerm, command, by simp, ?_⟩
        change (n.log ++ [entry])[n.log.length]? = some entry
        rw [List.getElem?_append_right le_rfl, Nat.sub_self]
        rfl
      · rw [AList.lookup_insert_ne hk] at hlook
        obtain ⟨term, command', hacc, hlog⟩ := h.promises k channel' hlook
        refine ⟨term, command', List.mem_append_left _ hacc, ?_⟩
        change (n.log ++ [entry])[k]? = _
        rw [List.getElem?_append_left (List.getElem?_eq_some_iff.mp hlog).1, hlog]
  unfold RaftNode.clientCommand at hn
  simp only [hlead] at hn
  exact (hm.keeps (keeps_persistState m)).leaderTail hn

theorem Faithful.clientCommand (h : Faithful old i n) {command : ClientCommands C}
    (hn : n.clientCommand command = .ok n') : Faithful old i n' := by
  -- all commands but `apply` are answered at once, with no output of the machine
  have hreply : ∀ (channel : Sender) (answer : Reply C O), NoOutput (S := S) (.reply channel answer) →
      Faithful old i (n.emit (.reply channel answer)) :=
    fun _ _ hq => h.keeps (Keeps.of_effect rfl rfl rfl hq)
  cases command with
  | apply command channel =>
    cases hlead : RaftNode.requireLeader n.role with
    | none => exact h.applyCommand hlead hn
    | some err =>
      unfold RaftNode.clientCommand at hn
      simp only [hlead] at hn
      rw [← Except.ok.inj hn]
      exact hreply _ _ trivial
  | isLeader channel =>
    unfold RaftNode.clientCommand at hn
    cases hlead : RaftNode.requireLeader n.role with
    | none =>
      simp only [hlead] at hn
      rw [← Except.ok.inj hn]
      exact hreply _ _ trivial
    | some err =>
      simp only [hlead] at hn
      rw [← Except.ok.inj hn]
      exact hreply _ _ trivial
  | getLog channel =>
    rw [← Except.ok.inj hn]
    exact hreply _ _ trivial
  | getLogEntry index channel =>
    rw [← Except.ok.inj hn]
    exact hreply _ _ trivial
  | getStatus channel =>
    rw [← Except.ok.inj hn]
    exact hreply _ _ trivial

/-- **Every handler answers faithfully**, unless it cuts a pending key. -/
theorem Faithful.handle (h : Faithful old i n) {input : Input C}
    (hkeep : ∀ p msg, input = .message p (.appendRequest msg) → n.KeepsPending msg)
    (hn : n.handle input = .ok n') : Faithful old i n' := by
  cases input with
  | electionTimeout => exact h.becomeCandidate hn
  | heartbeat => exact h.keeps (keeps_onHeartbeat hn)
  | command command => exact h.clientCommand hn
  | message p m =>
    cases m with
    | appendRequest msg => exact h.appendRequest (hkeep p msg rfl) hn
    | appendResponse msg => exact h.appendResponse hn
    | voteRequest msg => exact h.voteRequest hn
    | voteResponse msg => exact h.voteResponse hn

end Handlers

/-! ### Runs -/

/-- What holds of a cluster between two steps. -/
structure Cluster.Faithful [RaftStateMachine S C O] (s : Cluster C O S) : Prop where
  answered : Answered s.trace
  promises : ∀ i, Promises s.trace i (s.node i) ∧ (s.node i).effects = []

section Runs

variable [RaftStateMachine S C O]

omit [RaftStateMachine S C O] in
/-- A node that has just started owes nothing. -/
theorem promises_new (trace : List (NodeId × Effect C O S)) (i j : NodeId)
    (stored : Option (PersistentState C)) :
    Promises trace i (RaftNode.new j ids machine stored : RaftNode C O S) := by
  intro k channel hk
  exact absurd hk (by simp [RaftNode.new])

theorem Cluster.Faithful.init (ids : List NodeId) (machine : S) :
    (Cluster.init ids machine : Cluster C O S).Faithful := by
  refine ⟨fun pre post i channel output heq => ?_, fun i => ⟨promises_new _ _ _ _, rfl⟩⟩
  exact absurd heq (by simp [Cluster.init])

/-- Crashing loses the promises, and answers nobody. -/
theorem Cluster.Faithful.restart (h : s.Faithful) (i : NodeId) :
    (s.restart ids machine i).Faithful := by
  refine ⟨h.answered, fun j => ?_⟩
  change Promises s.trace j (Function.update s.node i _ j) ∧
    (Function.update s.node i _ j).effects = []
  by_cases hj : j = i
  · subst hj
    rw [Function.update_self]
    exact ⟨promises_new _ _ _ _, rfl⟩
  · rw [Function.update_of_ne hj]
    exact h.promises j

/-- The trace of the other nodes does not matter to a promise. -/
theorem Cluster.Faithful.perform (h : s.Faithful) (i : NodeId) (es : List (Effect C O S))
    (hans : Answered (s.trace ++ es.map (Prod.mk i))) : (s.perform i es).Faithful := by
  refine ⟨?_, fun j => ?_⟩
  · rw [perform_trace]
    exact hans
  · rw [perform_trace, perform_node]
    exact ⟨(h.promises j).1.mono (fun x hx => List.mem_append_left _ hx) (Keeps.refl _),
      (h.promises j).2⟩

/-- **The step lemma**: a step that cuts no pending key answers faithfully. -/
theorem Cluster.Faithful.step (h : s.Faithful) (hst : Cluster.StepKeeping ids machine s t) :
    t.Faithful := by
  obtain ⟨action, hst, hkeep⟩ := hst
  -- the cluster an input is taken from, and the node after the handler
  have hrun : ∀ {source : Source C} {i : NodeId} {input : Input C} {u : Cluster C O S}
      {node : RaftNode C O S}, s.offer ids source = some (i, input, u) →
      (∀ p msg, input = .message p (.appendRequest msg) → (u.node i).KeepsPending msg) →
      (u.node i).handle input = .ok node →
      u.Faithful ∧ Raft.Faithful s.trace i node ∧ u.trace = s.trace := by
    intro source i input u node ho hkeep hnode
    have hsame : u.node = s.node ∧ u.trace = s.trace := ⟨offer_node ho, offer_trace ho⟩
    have hu : u.Faithful := by
      refine ⟨by rw [hsame.2]; exact h.answered, fun j => ?_⟩
      rw [hsame.1, hsame.2]
      exact h.promises j
    have heff : (u.node i).effects = [] := (hu.promises i).2
    have hstart : Raft.Faithful s.trace i (u.node i) := by
      refine ⟨?_, ?_⟩
      · rw [heff, List.map_nil, List.append_nil]
        exact h.answered
      · rw [heff, List.map_nil, List.append_nil, ← hsame.2]
        exact (hu.promises i).1
    exact ⟨hu, hstart.handle hkeep hnode, hsame.2⟩
  rcases exec_cases hst with ⟨source, i, input, u, node, rfl, ho, hnode, rfl⟩ | ⟨i, rfl, -, rfl⟩ |
    ⟨source, done, i, input, u, node, rfl, ho, hnode, rfl⟩ | ⟨k, rfl, -, rfl⟩
  · obtain ⟨hu, hf, htrace⟩ := hrun ho
      (fun p msg hin => by
        subst hin
        simpa only [KeepsPending, ho] using hkeep) hnode
    have hp := hu.perform i node.effects (by rw [htrace]; exact hf.answered)
    refine ⟨hp.answered, fun j => ?_⟩
    by_cases hj : j = i
    · subst hj
      rw [settle_node_self, settle_trace, htrace]
      exact ⟨hf.promises, rfl⟩
    · rw [settle_node_of_ne u node hj, ← perform_node i node.effects u]
      exact hp.promises j
  · exact h.restart i
  · obtain ⟨hu, hf, htrace⟩ := hrun ho
      (fun p msg hin => by
        subst hin
        simpa only [KeepsPending, ho] using hkeep) hnode
    refine (hu.perform i (node.effects.take done) (hf.answered.of_initial ?_)).restart i
    rw [htrace]
    exact (List.prefix_append_right_inj _).mpr ((List.take_prefix _ _).map _)
  · exact ⟨h.answered, h.promises⟩

/-- **Client reply correctness, where no pending key is cut.** In every run in which no
delivered `AppendRequest` cuts a log at or below a key of `pending_applies`, every output a
client is sent is the output of its own command. -/
theorem client_reply_correct
    (h : Relation.ReflTransGen (Cluster.StepKeeping ids machine) (Cluster.init ids machine) s) :
    Answered s.trace := by
  have hall : s.Faithful := by
    induction h with
    | refl => exact Cluster.Faithful.init ids machine
    | tail _ hst ih => exact ih.step hst
  exact hall.answered

end Runs

theorem client_reply_correct_afterTwoTerms : Answered afterTwoTerms.trace := by
  have hkeep : (Cluster.init [1, 2, 3] ⟨0⟩ : Cluster ℕ ℕ Counter).AllKeepPending [1, 2, 3] ⟨0⟩
      twoTerms := by decide +kernel
  refine client_reply_correct (Cluster.stepsKeeping_of_run ?_ hkeep)
  unfold afterTwoTerms
  cases h : (Cluster.init [1, 2, 3] ⟨0⟩ : Cluster ℕ ℕ Counter).run [1, 2, 3] ⟨0⟩ twoTerms with
  | some s => rfl
  | none =>
    have hsome : ((Cluster.init [1, 2, 3] ⟨0⟩ : Cluster ℕ ℕ Counter).run [1, 2, 3] ⟨0⟩
      twoTerms).isSome = true := by decide +kernel
    rw [h] at hsome
    exact absurd hsome (by simp)

/-! ### The answer to another command -/

/-- Node 1 leads term 1 and accepts the command 7 at index 2. Node 2 wins term 2, accepts
the command 5 at index 2 and commits it with node 3. Then it brings node 1 up to date. -/
def deposedLeader : List (Action ℕ) :=
  [.run (.electionTimeout 1), .run (.deliver 0), .run (.deliver 1),
    .run (.command 1 (.apply 7 0)), .run (.electionTimeout 2), .run (.deliver 6),
    .run (.deliver 6), .run (.command 2 (.apply 5 1)), .run (.deliver 9), .run (.deliver 9),
    .run (.heartbeat 2), .run (.deliver 10), .run (.deliver 10), .run (.deliver 6),
    .run (.deliver 9), .run (.heartbeat 2), .run (.deliver 9)]

/-- Where `deposedLeader` ends. -/
def afterDeposedLeader : Cluster ℕ ℕ Counter :=
  ((Cluster.init [1, 2, 3] ⟨0⟩).run [1, 2, 3] ⟨0⟩ deposedLeader).getD
    (Cluster.init [1, 2, 3] ⟨0⟩)

/-- **The client that sent 7 is answered with the output of 5.** -/
theorem answer_of_another_command :
    Cluster.Reachable [1, 2, 3] ⟨0⟩ afterDeposedLeader ∧ ¬ Answered afterDeposedLeader.trace := by
  refine ⟨?_, fun h => ?_⟩
  · unfold afterDeposedLeader
    cases h : (Cluster.init [1, 2, 3] ⟨0⟩ : Cluster ℕ ℕ Counter).run [1, 2, 3] ⟨0⟩
        deposedLeader with
    | none => exact Relation.ReflTransGen.refl
    | some s => exact Cluster.steps_of_run h
  · obtain ⟨pre', index, term, command, machine, hpre, hacc, -⟩ :=
      h (afterDeposedLeader.trace.take 45) (afterDeposedLeader.trace.drop 46) 1 0 5
        (by decide +kernel)
    -- the mark before the answer is that of node 2's entry
    have hlast : (afterDeposedLeader.trace.take 45).getLast? =
        some (1, .applied 2 ⟨2, .command 5⟩ ⟨0⟩) := by decide +kernel
    rw [hpre, List.getLast?_concat, Option.some.injEq, Prod.mk.injEq] at hlast
    obtain ⟨rfl, hentry, -⟩ := Effect.applied.inj hlast.2
    obtain ⟨rfl, hcommand⟩ := LogEntry.mk.inj hentry
    obtain rfl := LogCommand.command.inj hcommand
    -- and channel 0 was accepted for node 1's
    have hnone : (1, Effect.accepted 2 2 5 0) ∉ afterDeposedLeader.trace := by decide +kernel
    refine hnone (List.mem_of_mem_take (i := 45) ?_)
    rw [hpre]
    exact List.mem_append_left _ hacc

end Raft
end KvRaft
