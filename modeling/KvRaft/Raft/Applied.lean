import KvRaft.Raft.Turn
import Mathlib.Data.List.Range

/-!
# What a node has applied

Three facts about the loop of `apply_committed`.

* A turn of a handler either applies the entry after `last_applied` or leaves the state
  machine alone (`Turn.applies`).
* The commands that an incarnation of a node has given to its state machine are those of
  its log up to `last_applied`, whatever was cut and rewritten in between
  (`replica_is_fold_of_log`). What was applied is chosen, and so is what the log holds up to
  the commit index; chosen entries of one index agree.
* A client that waits for an index that was applied has been answered, as long as no `NoOp`
  is applied at a pending index (`pending_above_applied`): the branch of the loop for a
  `NoOp` does not look into `pending_applies`, so that client waits for ever
  (`pending_at_applied`).
-/

namespace KvRaft
namespace Raft

open TermLog

variable {C O S : Type}
variable {ids : List NodeId} {s t : Cluster C O S} {i j : NodeId}
  {n n' : RaftNode C O S} {machine : S} {a : Spec C} {es : List (Effect C O S)}
  {input : Input C}

/-! ### Turns -/

/-- An effect that is no turn of the loop of `apply_committed`. -/
def NoApply (e : Effect C O S) : Prop := ∀ k entry m, e ≠ .applied k entry m

/-- The command of an entry, if it has one. -/
def LogEntry.cmd? (entry : LogEntry C) : Option C :=
  match entry.command with
  | .command cmd => some cmd
  | .noOp => none

section Turns

variable [RaftStateMachine S C O]

/-- The machine after an entry. -/
def applyEntry (m : S) (entry : LogEntry C) : S :=
  match entry.cmd? with
  | some cmd => (RaftStateMachine.apply m cmd).1
  | none => m

/-- What a turn does to the state machine. -/
inductive Applies (n n' : RaftNode C O S) : Prop
  /-- The entry after `last_applied` is applied. -/
  | next (entry : LogEntry C) (es : List (Effect C O S))
    (hentry : n.log[n.lastApplied + 1]? = some entry)
    (happlied : n'.lastApplied = n.lastApplied + 1)
    (hmachine : n'.stateMachine = applyEntry n.stateMachine entry)
    (heffects : n'.effects =
      n.effects ++ .applied (n.lastApplied + 1) entry n.stateMachine :: es)
    (hes : ∀ e ∈ es, NoApply e)
  | none (es : List (Effect C O S)) (happlied : n'.lastApplied = n.lastApplied)
    (hmachine : n'.stateMachine = n.stateMachine) (heffects : n'.effects = n.effects ++ es)
    (hes : ∀ e ∈ es, NoApply e)

/-- **A turn applies one entry or none.** -/
theorem Turn.applies (ht : Turn input n n') : Applies n n' := by
  -- only the turn that applies a command touches the state machine
  cases ht with
  | follow term _ _ =>
    refine .none [.save ⟨(n.becomeFollower term).currentTerm, (n.becomeFollower term).votedFor,
      (n.becomeFollower term).log⟩] ?_ ?_ ?_ (by simp [NoApply])
    · unfold RaftNode.becomeFollower
      split <;> rfl
    · unfold RaftNode.becomeFollower
      split <;> rfl
    · unfold RaftNode.becomeFollower
      split <;> rfl
  | stand _ => exact .none [.save _] rfl rfl rfl (by simp [NoApply])
  | crownAlone _ _ =>
    exact .none [.becameLeader _ _, .save _] rfl rfl (List.append_assoc _ _ _) (by simp [NoApply])
  | crown votes _ _ =>
    exact .none [.becameLeader _ _, .save _] rfl rfl (List.append_assoc _ _ _) (by simp [NoApply])
  | count votes p msg _ _ _ _ => exact .none [] rfl rfl (List.append_nil _).symm (by simp)
  | indices _ _ _ _ _ => exact .none [] rfl rfl (List.append_nil _).symm (by simp)
  | adopt p msg _ _ _ => exact .none [] rfl rfl (List.append_nil _).symm (by simp)
  | append n₁ p msg _ happend =>
    obtain ⟨log, es, rfl, hes⟩ := RaftNode.appendEntries_log _ _ happend
    refine .none (es ++ [.save ⟨n.currentTerm, n.votedFor, log⟩]) ?_ ?_ ?_ fun e he => ?_
    · unfold RaftNode.followCommit
      split <;> rfl
    · unfold RaftNode.followCommit
      split <;> rfl
    · unfold RaftNode.followCommit
      split <;> exact List.append_assoc _ _ _
    · rcases List.mem_append.mp he with he | he
      · obtain ⟨k, rfl⟩ := hes e he
        simp [NoApply]
      · obtain rfl := List.mem_singleton.mp he
        simp [NoApply]
  | advance _ hadvance =>
    rcases RaftNode.advanceCommit_cases hadvance with rfl | ⟨index, -, rfl⟩
    · exact .none [] rfl rfl (List.append_nil _).symm (by simp)
    · exact .none [.committed _ _ _] rfl rfl rfl (by simp [NoApply])
  | apply _ _ happly =>
    obtain ⟨entry, hentry, ⟨term, rfl, rfl⟩ | ⟨term, cmd, rfl, ⟨-, rfl⟩ | ⟨reply, -, rfl⟩⟩⟩ :=
      RaftNode.lastApplied_turn happly
    · exact .next _ [] hentry rfl rfl rfl (by simp)
    · exact .next _ [] hentry rfl rfl rfl (by simp)
    · exact .next _ [.reply _ _] hentry rfl rfl (List.append_assoc _ _ _) (by simp [NoApply])
  | vote p msg _ _ => exact .none [.save _] rfl rfl rfl (by simp [NoApply])
  | accept command reply _ _ =>
    exact .none [.accepted _ _ _ _, .save _] rfl rfl (List.append_assoc _ _ _)
      (by simp [NoApply])
  | send p m _ =>
    unfold RaftNode.sendMessage
    split
    · exact .none [.send _ _] rfl rfl rfl (by simp [NoApply])
    · exact .none [] rfl rfl (List.append_nil _).symm (by simp)
  | answer reply answer _ => exact .none [.reply _ _] rfl rfl rfl (by simp [NoApply])

end Turns

/-! ### What an incarnation has applied -/

/-- The index and the entry that node `i` marks as applied. -/
def applied? (i : NodeId) : NodeId × Effect C O S → Option (ℕ × LogEntry C)
  | (j, .applied index entry _) => if j = i then some (index, entry) else none
  | _ => none

/-- What node `i` has applied in a part of the trace, in order. -/
def applications (i : NodeId) (trace : List (NodeId × Effect C O S)) : List (ℕ × LogEntry C) :=
  trace.filterMap (applied? i)

/-- The commands that node `i` has given to `state_machine.apply`, in order. -/
def commandsPassed (i : NodeId) (trace : List (NodeId × Effect C O S)) : List C :=
  (applications i trace).filterMap fun x => x.2.cmd?

theorem applications_append (i : NodeId) (l m : List (NodeId × Effect C O S)) :
    applications i (l ++ m) = applications i l ++ applications i m :=
  List.filterMap_append

theorem applications_none (hes : ∀ e ∈ es, NoApply e) :
    applications i (es.map (Prod.mk j)) = [] := by
  refine List.filterMap_eq_nil_iff.mpr fun x hx => ?_
  obtain ⟨e, he, rfl⟩ := List.mem_map.mp hx
  cases e with
  | applied index entry m => exact absurd rfl (hes _ he index entry m)
  | _ => rfl

/-- What another node does is none of node `i`'s applications. -/
theorem applications_other {es : List (NodeId × Effect C O S)} (hother : ∀ x ∈ es, x.1 ≠ i) :
    applications i es = [] := by
  refine List.filterMap_eq_nil_iff.mpr fun x hx => ?_
  obtain ⟨j, e⟩ := x
  cases e with
  | applied index entry m => exact if_neg (hother _ hx)
  | _ => rfl

theorem mem_applications {trace : List (NodeId × Effect C O S)} {k : ℕ} {entry : LogEntry C}
    (h : (k, entry) ∈ applications i trace) : ∃ m, (i, Effect.applied k entry m) ∈ trace := by
  obtain ⟨⟨j, e⟩, hmem, heq⟩ := List.mem_filterMap.mp h
  cases e with
  | applied index entry' m =>
    by_cases hij : j = i
    · subst hij
      obtain ⟨rfl, rfl⟩ : index = k ∧ entry' = entry := by simpa [applied?] using heq
      exact ⟨m, hmem⟩
    · exact absurd heq (by simp [applied?, hij])
  | _ => exact absurd heq (by simp [applied?])

section Incarnations

variable [RaftStateMachine S C O]

/-- The node has applied `marks`, one index after the other, to a machine that was `machine`
when the node started. -/
structure Fed (machine : S) (n : RaftNode C O S) (marks : List (ℕ × LogEntry C)) : Prop where
  indices : marks.map Prod.fst = List.range' 1 n.lastApplied
  machine : n.stateMachine = (marks.map Prod.snd).foldl applyEntry machine

/-- **The turn lemma.** -/
theorem Fed.turn {old : List (NodeId × Effect C O S)}
    (h : Fed machine n (applications i (old ++ n.effects.map (Prod.mk i))))
    (ht : Turn input n n') :
    Fed machine n' (applications i (old ++ n'.effects.map (Prod.mk i))) := by
  cases ht.applies with
  | next entry es hentry happlied hmachine heffects hes =>
    have hmarks : applications i (old ++ n'.effects.map (Prod.mk i)) =
        applications i (old ++ n.effects.map (Prod.mk i)) ++ [(n.lastApplied + 1, entry)] := by
      rw [heffects, List.map_append, ← List.append_assoc, applications_append]
      congr 1
      change applications i ([(i, .applied _ _ _)] ++ es.map (Prod.mk i)) = _
      rw [applications_append, applications_none hes, List.append_nil]
      simp [applications, applied?]
    rw [hmarks]
    refine ⟨?_, ?_⟩
    · rw [List.map_append, h.indices, happlied, List.range'_1_concat, Nat.add_comm 1]
      rfl
    · rw [List.map_append, List.foldl_append, ← h.machine, hmachine]
      rfl
  | none es happlied hmachine heffects hes =>
    have hmarks : applications i (old ++ n'.effects.map (Prod.mk i)) =
        applications i (old ++ n.effects.map (Prod.mk i)) := by
      rw [heffects, List.map_append, ← List.append_assoc, applications_append,
        applications_none hes, List.append_nil]
    rw [hmarks]
    exact ⟨by rw [happlied, h.indices], by rw [hmachine, h.machine]⟩

/-- Node `i` has started in `s₀` and has not crashed on the way to `s`. -/
structure Cluster.Incarnation (ids : List NodeId) (machine : S) (i : NodeId)
    (s₀ s : Cluster C O S) : Prop where
  reachable : Cluster.Reachable ids machine s₀
  started : s₀.node i = RaftNode.new i ids machine (s₀.storage i)
  within : Relation.ReflTransGen (Cluster.StepWithin ids machine i) s₀ s

theorem Cluster.Incarnation.steps {s₀ : Cluster C O S}
    (h : Cluster.Incarnation ids machine i s₀ s) : Cluster.Reachable ids machine s :=
  h.reachable.trans (h.within.lift id fun _ _ ⟨action, hact, _⟩ => ⟨action, hact⟩)

/-- A node that crashes starts a new incarnation. -/
theorem Cluster.started_of_crashes {action : Action C}
    (hst : s.exec ids machine action = some t) (hcrash : s.Crashes ids i action) :
    t.node i = RaftNode.new i ids machine (t.storage i) := by
  have hrestart : ∀ u : Cluster C O S, (u.restart ids machine i).node i =
      RaftNode.new i ids machine ((u.restart ids machine i).storage i) :=
    fun u => Function.update_self i _ u.node
  rcases Cluster.exec_cases hst with ⟨source, j, input, u, node, rfl, -, -, -⟩ |
    ⟨j, rfl, -, rfl⟩ | ⟨source, done, j, input, u, node, rfl, ho, -, rfl⟩ | ⟨k, rfl, -, -⟩
  · exact absurd hcrash (by simp [Cluster.Crashes])
  · obtain rfl : j = i := hcrash
    exact hrestart s
  · obtain ⟨input', u', ho'⟩ := hcrash
    obtain ⟨rfl, -, -⟩ : j = i ∧ input = input' ∧ u = u' := by simpa [ho] using ho'
    exact hrestart _
  · exact absurd hcrash (by simp [Cluster.Crashes])

/-- Every node of a reachable cluster is in some incarnation. -/
theorem Cluster.Reachable.incarnation (h : Cluster.Reachable ids machine s) (i : NodeId) :
    ∃ s₀, Cluster.Incarnation ids machine i s₀ s := by
  induction h with
  | refl => exact ⟨_, .refl, rfl, .refl⟩
  | @tail s t hs hst ih =>
    obtain ⟨action, hst⟩ := hst
    by_cases hcrash : s.Crashes ids i action
    · exact ⟨t, hs.tail ⟨action, hst⟩, Cluster.started_of_crashes hst hcrash, .refl⟩
    · obtain ⟨s₀, hi⟩ := ih
      exact ⟨s₀, hi.reachable, hi.started, hi.within.tail ⟨action, hst, hcrash⟩⟩

/-- A step that node `i` survives feeds its machine. -/
theorem Fed.step {old : List (NodeId × Effect C O S)} {es : List (NodeId × Effect C O S)}
    (h : Fed machine (s.node i) (applications i es)) (htrace : s.trace = old ++ es)
    (heff : (s.node i).effects = []) (hst : Cluster.StepWithin ids machine i s t) :
    ∃ es', t.trace = old ++ es' ∧ Fed machine (t.node i) (applications i es') := by
  rcases hst.cases with ⟨source, input, u, node, ho, hnode, rfl⟩ | ⟨hsame, new, hnew, hother⟩
  · refine ⟨es ++ node.effects.map (Prod.mk i), ?_, ?_⟩
    · rw [Cluster.settle_trace, Cluster.offer_trace ho, htrace, List.append_assoc]
    · have hfed : Fed machine node (applications i (es ++ node.effects.map (Prod.mk i))) := by
        refine RaftNode.handle_induction (P := fun m => Fed machine m
          (applications i (es ++ m.effects.map (Prod.mk i)))) hnode ?_ fun m m' ht hm => hm.turn ht
        rw [Cluster.offer_node ho, heff, List.map_nil, List.append_nil]
        exact h
      rw [Cluster.settle_node_self]
      exact ⟨hfed.indices, hfed.machine⟩
  · refine ⟨es ++ new, by rw [hnew, htrace, List.append_assoc], ?_⟩
    rw [hsame, applications_append, applications_other hother, List.append_nil]
    exact h

omit [RaftStateMachine S C O] in
/-- What an incarnation has applied is what its log holds. -/
theorem Rel.entry_of_applied (h : Rel ids a s) (hi : i ∈ ids) {k : ℕ} {entry : LogEntry C} {m : S}
    (hmark : (i, Effect.applied k entry m) ∈ s.trace) (hk : k ≤ (s.node i).lastApplied) :
    (s.node i).log[k]? = some entry := by
  obtain ⟨hnode, -⟩ := h.nodes i hi
  have hcommit := hk.trans hnode.applied_le
  have hlt := hcommit.trans_lt hnode.commit_lt
  obtain ⟨T, c, r, hch, hkc, hr⟩ := (h.mid i).trace _ hmark
  -- the entry in the log is committed, so it is chosen as well
  have hown : ((s.node i).log.take ((s.node i).commitIndex + 1))[k]? =
      some (s.node i).log[k] := by
    rw [List.getElem?_take_of_lt (Nat.lt_succ_of_le hcommit), List.getElem?_eq_getElem hlt]
  obtain ⟨T', c', r', hch', hkc', hr'⟩ := hnode.committed.entry hown
  have hagree := (h.mid i).inv.chosen_agree hch hch' hkc hkc'
  rw [hr, hr'] at hagree
  rw [List.getElem?_eq_getElem hlt, hagree]

/-- **The replica's state is the fold of its log.** Every node of a reachable cluster is in
some incarnation. What an incarnation has given to its state machine are the commands of its
log at the indices `1..=last_applied`, in order; and the machine is what they make of the
machine it started with. -/
theorem replica_is_fold_of_log (hnd : ids.Nodup) (hi : i ∈ ids)
    (h : Cluster.Reachable ids machine s) :
    (∃ s₀, Cluster.Incarnation ids machine i s₀ s) ∧
    ∀ s₀, Cluster.Incarnation ids machine i s₀ s → ∃ es, s.trace = s₀.trace ++ es ∧
      (s.node i).lastApplied < (s.node i).log.length ∧
      commandsPassed i es = (((s.node i).log.take ((s.node i).lastApplied + 1)).drop 1).filterMap
        LogEntry.cmd? ∧
      (s.node i).stateMachine =
        (commandsPassed i es).foldl (fun m cmd => (RaftStateMachine.apply m cmd).1) machine := by
  refine ⟨h.incarnation i, fun s₀ hinc => ?_⟩
  -- step by step, the node is fed
  have hfed : ∃ es, s.trace = s₀.trace ++ es ∧
      Fed machine (s.node i) (applications i es) := by
    obtain ⟨hreach, hstart, hwithin⟩ := hinc
    clear h
    induction hwithin with
    | refl =>
      refine ⟨[], (List.append_nil _).symm, ?_⟩
      rw [hstart]
      exact ⟨rfl, rfl⟩
    | @tail t t' hs hst ih =>
      obtain ⟨es, htrace, hes⟩ := ih
      obtain ⟨b, hb⟩ := (Cluster.Incarnation.mk hreach hstart hs).steps.rel hnd
      exact hes.step htrace (hb.nodes i hi).2 hst
  obtain ⟨es, htrace, hfed⟩ := hfed
  obtain ⟨b, hb⟩ := h.rel hnd
  obtain ⟨hnode, -⟩ := hb.nodes i hi
  have hlt := hnode.applied_le.trans_lt hnode.commit_lt
  have hlen : (applications i es).length = (s.node i).lastApplied := by
    have hlen := congrArg List.length hfed.indices
    rwa [List.length_map, List.length_range'] at hlen
  -- the marks agree with the log, one by one
  have hentries : (applications i es).map Prod.snd =
      ((s.node i).log.take ((s.node i).lastApplied + 1)).drop 1 := by
    refine List.ext_getElem? fun k => ?_
    rw [List.getElem?_drop, List.getElem?_map]
    by_cases hk : k < (s.node i).lastApplied
    · obtain ⟨⟨index, entry⟩, hx⟩ := exists_getElem?_of_lt (hlen.symm ▸ hk)
      have hindex : index = k + 1 := by
        have hat := congrArg (fun l => l[k]?) hfed.indices
        simp only [List.getElem?_map, hx, List.getElem?_range' hk] at hat
        have := Option.some.inj hat
        omega
      subst hindex
      obtain ⟨m, hmark⟩ := mem_applications (List.mem_of_getElem? hx)
      have hmark' : (i, Effect.applied (k + 1) entry m) ∈ s.trace := by
        rw [htrace]
        exact List.mem_append_right _ hmark
      rw [hx, List.getElem?_take_of_lt (by omega), Nat.add_comm 1 k,
        hb.entry_of_applied hi hmark' hk]
      rfl
    · rw [List.getElem?_eq_none (by omega), List.getElem?_eq_none (by simp; omega)]
      rfl
  refine ⟨es, htrace, hlt, ?_, ?_⟩
  · rw [← hentries, List.filterMap_map]
    rfl
  · rw [hfed.machine, commandsPassed, List.foldl_filterMap, List.foldl_map]
    rfl

end Incarnations

theorem replica_is_fold_of_log_afterTwoTerms :
    (∃ s₀, Cluster.Incarnation [1, 2, 3] ⟨0⟩ 2 s₀ afterTwoTerms) ∧
    ∀ s₀, Cluster.Incarnation [1, 2, 3] ⟨0⟩ 2 s₀ afterTwoTerms →
      ∃ es, afterTwoTerms.trace = s₀.trace ++ es ∧
      (afterTwoTerms.node 2).lastApplied < (afterTwoTerms.node 2).log.length ∧
      commandsPassed 2 es = (((afterTwoTerms.node 2).log.take
        ((afterTwoTerms.node 2).lastApplied + 1)).drop 1).filterMap LogEntry.cmd? ∧
      (afterTwoTerms.node 2).stateMachine = (commandsPassed 2 es).foldl
        (fun m cmd => (RaftStateMachine.apply m cmd).1) ⟨0⟩ :=
  replica_is_fold_of_log (by decide) (by decide) reachable_afterTwoTerms

/-! ### Clients that wait -/

/-- The entry that a leader starts its term with. -/
def LogEntry.isNoOp (entry : LogEntry C) : Bool := entry.cmd?.isNone

/-- If the loop of `apply_committed` is about to apply a `NoOp`, nobody waits for its
index. -/
def RaftNode.Resolves (n : RaftNode C O S) : Prop :=
  n.lastApplied < n.commitIndex → n.log[n.lastApplied + 1]?.any LogEntry.isNoOp = true →
    n.lastApplied + 1 ∉ n.pendingApplies.keys

/-- The handler of the action applies no `NoOp` at a pending index. -/
def Cluster.Resolves [RaftStateMachine S C O] (ids : List NodeId) (s : Cluster C O S) :
    Action C → Prop
  | .run source =>
    match s.offer ids source with
    | some (i, input, u) => ∀ n ∈ u.node i :: ((u.node i).course input).visited, n.Resolves
    | none => True
  | _ => True

instance RaftNode.decidableResolves (n : RaftNode C O S) : Decidable n.Resolves := by
  unfold RaftNode.Resolves
  infer_instance

instance Cluster.decidableResolves [RaftStateMachine S C O] (s : Cluster C O S) :
    ∀ action : Action C, Decidable (s.Resolves ids action)
  | .run source =>
    decidable_of_iff (∀ p ∈ s.offer ids source,
        ∀ n ∈ p.2.2.node p.1 :: ((p.2.2.node p.1).course p.2.1).visited, n.Resolves) (by
      cases h : s.offer ids source <;> simp [Cluster.Resolves, h])
  | .crash _ | .crashIn _ _ | .lose _ => .isTrue trivial

/-- A step that applies no `NoOp` at a pending index. -/
def Cluster.StepResolving [RaftStateMachine S C O] (ids : List NodeId) (machine : S)
    (s t : Cluster C O S) : Prop :=
  ∃ action, s.exec ids machine action = some t ∧ s.Resolves ids action

/-- Every action of a list resolves what it applies when its turn comes. -/
def Cluster.AllResolve [RaftStateMachine S C O] (ids : List NodeId) (machine : S) :
    Cluster C O S → List (Action C) → Prop
  | _, [] => True
  | s, action :: actions => s.Resolves ids action ∧
    ∀ t ∈ s.exec ids machine action, t.AllResolve ids machine actions

instance Cluster.decidableAllResolve [RaftStateMachine S C O] (ids : List NodeId)
    (machine : S) : ∀ (actions : List (Action C)) (s : Cluster C O S),
    Decidable (s.AllResolve ids machine actions)
  | [], _ => .isTrue trivial
  | action :: actions, s =>
    haveI := decidableAllResolve ids machine actions
    inferInstanceAs (Decidable (s.Resolves ids action ∧
      ∀ t ∈ s.exec ids machine action, t.AllResolve ids machine actions))

/-- A list of such actions is a run of such steps. -/
theorem Cluster.stepsResolving_of_run [RaftStateMachine S C O] : ∀ {actions : List (Action C)}
    {s t : Cluster C O S}, s.run ids machine actions = some t →
    s.AllResolve ids machine actions →
    Relation.ReflTransGen (Cluster.StepResolving ids machine) s t := by
  intro actions
  induction actions with
  | nil =>
    intro s t h _
    obtain rfl := Option.some.inj h
    exact .refl
  | cons action actions ih =>
    intro s t h hall
    obtain ⟨hres, hrest⟩ := hall
    unfold run at h
    cases he : s.exec ids machine action with
    | none =>
      rw [he] at h
      exact absurd h (by simp)
    | some u =>
      rw [he] at h
      exact (Relation.ReflTransGen.single ⟨action, he, hres⟩).trans (ih h (hrest u he))

/-- Nobody waits for an index that a node has applied. -/
def RaftNode.Prompt (n : RaftNode C O S) : Prop :=
  ∀ k ∈ n.pendingApplies.keys, n.lastApplied < k

/-- Nobody waits for an applied index, and an entry that is pushed for a client is not
applied yet. -/
structure Awaited (input : Input C) (n : RaftNode C O S) : Prop where
  prompt : n.Prompt
  long : ∀ command, input = .command command → n.lastApplied < n.log.length

theorem Awaited.same (h : Awaited input n) (happlied : n'.lastApplied = n.lastApplied)
    (hpending : n'.pendingApplies = n.pendingApplies)
    (hlog : (∃ command, input = .command command) → n.log.length ≤ n'.log.length) :
    Awaited input n' := by
  refine ⟨?_, fun command hin => ?_⟩
  · rw [RaftNode.Prompt, happlied, hpending]
    exact h.prompt
  · rw [happlied]
    exact (h.long command hin).trans_le (hlog ⟨command, hin⟩)

section Waiting

variable [RaftStateMachine S C O]

/-- **The turn lemma**: only a `NoOp` leaves somebody waiting. -/
theorem Awaited.turn (h : Awaited input n) (hres : n.Resolves) (ht : Turn input n n') :
    Awaited input n' := by
  cases ht with
  | follow term _ _ =>
    refine h.same ?_ ?_ fun _ => ?_
    · unfold RaftNode.becomeFollower
      split <;> rfl
    · unfold RaftNode.becomeFollower
      split <;> rfl
    · unfold RaftNode.becomeFollower
      split <;> exact le_rfl
  | stand _ => exact h.same rfl rfl fun _ => le_rfl
  | crownAlone hin _ =>
    refine h.same rfl rfl fun ⟨command, hcommand⟩ => ?_
    rw [hin] at hcommand
    exact absurd hcommand (by simp)
  | crown votes _ _ =>
    refine h.same rfl rfl fun _ => ?_
    change n.log.length ≤ (n.log ++ [_]).length
    simp
  | count votes p msg _ _ _ _ => exact h.same rfl rfl fun _ => le_rfl
  | indices _ _ _ _ _ => exact h.same rfl rfl fun _ => le_rfl
  | adopt p msg _ _ _ => exact h.same rfl rfl fun _ => le_rfl
  | append n₁ p msg hin happend =>
    obtain ⟨log, es, rfl, -⟩ := RaftNode.appendEntries_log _ _ happend
    refine h.same ?_ ?_ fun ⟨command, hcommand⟩ => ?_
    · unfold RaftNode.followCommit
      split <;> rfl
    · unfold RaftNode.followCommit
      split <;> rfl
    · rw [hin] at hcommand
      exact absurd hcommand (by simp)
  | advance _ hadvance =>
    rcases RaftNode.advanceCommit_cases hadvance with rfl | ⟨index, -, rfl⟩
    · exact h
    · exact h.same rfl rfl fun _ => le_rfl
  | apply _ hlt happly =>
    obtain ⟨entry, hentry, hcases⟩ := RaftNode.lastApplied_turn happly
    have hlong : n.lastApplied + 1 < n.log.length := (List.getElem?_eq_some_iff.mp hentry).1
    -- a key that is not the applied index is above it
    have hnext : ∀ k ∈ n.pendingApplies.keys, k ≠ n.lastApplied + 1 → n.lastApplied + 1 < k := by
      intro k hk hne
      have := h.prompt k hk
      omega
    rcases hcases with ⟨term, rfl, rfl⟩ | ⟨term, cmd, rfl, ⟨hnone, rfl⟩ | ⟨reply, -, rfl⟩⟩
    · refine ⟨fun k hk => hnext k hk ?_, fun _ _ => hlong⟩
      rintro rfl
      exact hres hlt (by rw [hentry]; rfl) hk
    · refine ⟨fun k hk => hnext k hk ?_, fun _ _ => hlong⟩
      rintro rfl
      exact AList.lookup_eq_none.mp hnone hk
    · refine ⟨fun k hk => ?_, fun _ _ => hlong⟩
      obtain ⟨hne, hk⟩ := AList.mem_erase.mp hk
      exact hnext k hk hne
  | vote p msg _ _ => exact h.same rfl rfl fun _ => le_rfl
  | accept command reply hin _ =>
    have hlt := h.long _ hin
    refine ⟨fun k hk => ?_, fun _ _ => ?_⟩
    · rcases (AList.mem_insert n.pendingApplies).mp hk with rfl | hk
      · exact hlt
      · exact h.prompt k hk
    · change n.lastApplied < (n.log ++ [_]).length
      rw [List.length_append]
      exact hlt.trans_le (Nat.le_add_right _ _)
  | send p m _ =>
    unfold RaftNode.sendMessage
    split
    · exact h.same rfl rfl fun _ => le_rfl
    · exact h
  | answer reply answer _ => exact h.same rfl rfl fun _ => le_rfl

/-- Nobody in the cluster waits for an index that was applied. -/
def Cluster.Prompt (s : Cluster C O S) : Prop := ∀ i, (s.node i).Prompt

omit [RaftStateMachine S C O] in
theorem Cluster.Prompt.update (h : s.Prompt) (hnode : t.node = Function.update s.node i n)
    (hn : n.Prompt) : t.Prompt := by
  intro j
  rw [hnode]
  by_cases hj : j = i
  · subst hj
    rwa [Function.update_self]
  · rw [Function.update_of_ne hj]
    exact h j

omit [RaftStateMachine S C O] in
/-- Nobody waits for a node that has just started. -/
theorem prompt_new (stored : Option (PersistentState C)) :
    (RaftNode.new i ids machine stored : RaftNode C O S).Prompt :=
  fun k hk => absurd hk (by simp [RaftNode.new])

/-- **The step lemma.** -/
theorem Cluster.Prompt.step (h : s.Prompt) (ha : Rel ids a s)
    (hst : Cluster.StepResolving ids machine s t) : t.Prompt := by
  obtain ⟨action, hst, hres⟩ := hst
  rcases Cluster.exec_cases hst with ⟨source, i, input, u, node, rfl, ho, hnode, rfl⟩ |
    ⟨i, rfl, -, rfl⟩ | ⟨source, done, i, input, u, node, rfl, ho, -, rfl⟩ | ⟨k, rfl, -, rfl⟩
  · simp only [Cluster.Resolves, ho] at hres
    have hsame := offer_node ho
    obtain ⟨hi, -⟩ := ha.offered ho
    obtain ⟨hok, -⟩ := ha.nodes i hi
    have hstart : Awaited input (u.node i) := by
      rw [hsame]
      exact ⟨h i, fun _ _ => hok.applied_le.trans_lt hok.commit_lt⟩
    -- turn by turn through the course of the handler
    have hend : Awaited input node :=
      ((u.node i).course_turns input).induction hstart
        (fun m hm m' ht hawait => hawait.turn (hres m hm) ht)
        (((u.node i).course_result input).trans hnode)
    refine h.update (i := i) (n := { node with effects := [] }) ?_ hend.prompt
    change Function.update (u.perform i node.effects).node i _ = _
    rw [perform_node, hsame]
  · exact h.update rfl (prompt_new _)
  · refine h.update (i := i) (n := RaftNode.new i ids machine
      ((u.perform i (node.effects.take done)).storage i)) ?_ (prompt_new _)
    change Function.update (u.perform i (node.effects.take done)).node i _ = _
    rw [perform_node, offer_node ho]
  · exact h

/-- **Accepted commands are resolved, where no `NoOp` is applied at a pending index.** In
every run in which `apply_committed` never applies a `NoOp` at a key of `pending_applies`,
every such key is above `last_applied`. -/
theorem pending_above_applied (hnd : ids.Nodup)
    (h : Relation.ReflTransGen (Cluster.StepResolving ids machine) (Cluster.init ids machine) s) :
    s.Prompt := by
  induction h with
  | refl => exact fun i => prompt_new _
  | @tail s t hs hst ih =>
    have hreach : Cluster.Reachable ids machine s :=
      hs.lift id fun _ _ ⟨action, hact, _⟩ => ⟨action, hact⟩
    obtain ⟨b, hb⟩ := hreach.rel hnd
    exact ih.step hb hst

end Waiting

theorem pending_above_applied_afterTwoTerms : afterTwoTerms.Prompt := by
  have hall : (Cluster.init [1, 2, 3] ⟨0⟩ : Cluster ℕ ℕ Counter).AllResolve [1, 2, 3] ⟨0⟩
      twoTerms := by decide +kernel
  refine pending_above_applied (by decide) (Cluster.stepsResolving_of_run ?_ hall)
  unfold afterTwoTerms
  cases h : (Cluster.init [1, 2, 3] ⟨0⟩ : Cluster ℕ ℕ Counter).run [1, 2, 3] ⟨0⟩ twoTerms with
  | some s => rfl
  | none =>
    have hsome : ((Cluster.init [1, 2, 3] ⟨0⟩ : Cluster ℕ ℕ Counter).run [1, 2, 3] ⟨0⟩
      twoTerms).isSome = true := by decide +kernel
    rw [h] at hsome
    exact absurd hsome (by simp)

/-- Node 1 leads term 1, replicates its `NoOp` to node 2 and accepts the command 7 at
index 2. Node 2 wins term 2 with its `NoOp` at index 2, commits it with node 3 and brings
node 1 up to date. -/
def overtakenLeader : List (Action ℕ) :=
  [.run (.electionTimeout 1), .run (.deliver 0), .run (.deliver 1), .run (.deliver 1),
    .run (.deliver 2), .run (.heartbeat 1), .run (.deliver 2), .run (.command 1 (.apply 7 0)),
    .run (.electionTimeout 2), .run (.deliver 7), .run (.deliver 7), .run (.deliver 8),
    .run (.deliver 8), .run (.heartbeat 2), .run (.deliver 9), .run (.deliver 9),
    .run (.deliver 7), .run (.deliver 8), .run (.heartbeat 2), .run (.deliver 8)]

/-- Where `overtakenLeader` ends. -/
def afterOvertakenLeader : Cluster ℕ ℕ Counter :=
  ((Cluster.init [1, 2, 3] ⟨0⟩).run [1, 2, 3] ⟨0⟩ overtakenLeader).getD
    (Cluster.init [1, 2, 3] ⟨0⟩)

/-- **The client that sent 7 waits for index 2, which node 1 has applied.** -/
theorem pending_at_applied :
    Cluster.Reachable [1, 2, 3] ⟨0⟩ afterOvertakenLeader ∧ ¬ afterOvertakenLeader.Prompt := by
  refine ⟨?_, fun h => ?_⟩
  · unfold afterOvertakenLeader
    cases h : (Cluster.init [1, 2, 3] ⟨0⟩ : Cluster ℕ ℕ Counter).run [1, 2, 3] ⟨0⟩
        overtakenLeader with
    | none => exact Relation.ReflTransGen.refl
    | some s => exact Cluster.steps_of_run h
  · have hkey : 2 ∈ (afterOvertakenLeader.node 1).pendingApplies.keys := by decide +kernel
    have hlt := h 1 2 hkey
    have happlied : (afterOvertakenLeader.node 1).lastApplied = 2 := by decide +kernel
    omega

end Raft
end KvRaft
