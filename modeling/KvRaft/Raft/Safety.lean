import KvRaft.Raft.Reachable

/-!
# Safety of a cluster

The theorems about every run of a cluster: at most one leader a term, log matching,
leader completeness, state machine safety, and that no handler panics. Each reads a
reachable cluster as a term log (`Cluster.Reachable.rel`) and takes the result from
there: the marks of the trace are facts about reigns and chosen prefixes, which the
invariant of term logs relates to each other.
-/

namespace KvRaft
namespace Raft

open TermLog

variable {C O S : Type}
variable {ids : List NodeId} {a a' : Spec C} {s t : Cluster C O S} {i j : NodeId}
  {n n' : RaftNode C O S} {machine : S}

/-! ### The trace -/

namespace Cluster

theorem perform_trace (i : NodeId) (es : List (Effect C O S)) : ∀ s : Cluster C O S,
    (s.perform i es).trace = s.trace ++ es.map (Prod.mk i) := by
  induction es with
  | nil => exact fun s => (List.append_nil _).symm
  | cons e es ih =>
    intro s
    change ((s.performOne i e).perform i es).trace = _
    rw [ih, performOne_trace, List.append_assoc]
    rfl

theorem perform_node (i : NodeId) (es : List (Effect C O S)) : ∀ s : Cluster C O S,
    (s.perform i es).node = s.node := by
  induction es with
  | nil => exact fun _ => rfl
  | cons e es ih =>
    intro s
    change ((s.performOne i e).perform i es).node = _
    rw [ih, performOne_node]

/-- What is in the network after some effects of a node was there or is among them. -/
theorem mem_network_perform (i : NodeId) {env : Envelope C} (es : List (Effect C O S)) :
    ∀ s : Cluster C O S, env ∈ (s.perform i es).network ↔
      env ∈ s.network ∨ env.fromId = i ∧ .send env.toId env.message ∈ es := by
  induction es with
  | nil => simp
  | cons e es ih =>
    intro s
    change env ∈ ((s.performOne i e).perform i es).network ↔ _
    rw [ih, performOne_network, List.mem_append, List.mem_cons, or_assoc]
    refine or_congr_right ?_
    obtain ⟨p, q, m⟩ := env
    cases e <;> simp [sent]
    grind

theorem settle_trace (s : Cluster C O S) (i : NodeId) (node : RaftNode C O S) :
    (s.settle i node).trace = s.trace ++ node.effects.map (Prod.mk i) :=
  perform_trace i node.effects s

theorem settle_node_self (s : Cluster C O S) (i : NodeId) (node : RaftNode C O S) :
    (s.settle i node).node i = { node with effects := [] } :=
  Function.update_self i _ (s.perform i node.effects).node

theorem settle_node_of_ne (s : Cluster C O S) (node : RaftNode C O S) (hj : j ≠ i) :
    (s.settle i node).node j = s.node j := by
  change Function.update (s.perform i node.effects).node i _ j = _
  rw [Function.update_of_ne hj, perform_node]

theorem offer_trace {ids : List NodeId} {s u : Cluster C O S} {source : Source C} {i : NodeId}
    {input : Input C} (h : s.offer ids source = some (i, input, u)) : u.trace = s.trace := by
  rcases offer_cases h with ⟨-, -, -, -, -, rfl⟩ | ⟨-, -, -, -, rfl⟩ | ⟨-, -, -, -, -, rfl⟩ |
    ⟨-, -, -, -, -, -, rfl⟩ <;> rfl

theorem offer_node {ids : List NodeId} {s u : Cluster C O S} {source : Source C} {i : NodeId}
    {input : Input C} (h : s.offer ids source = some (i, input, u)) : u.node = s.node := by
  rcases offer_cases h with ⟨-, -, -, -, -, rfl⟩ | ⟨-, -, -, -, rfl⟩ | ⟨-, -, -, -, -, rfl⟩ |
    ⟨-, -, -, -, -, -, rfl⟩ <;> rfl

variable [RaftStateMachine S C O]

/-- Only members leave marks. -/
theorem Reachable.mem_trace (h : Reachable ids machine s) (hnd : ids.Nodup) :
    ∀ x ∈ s.trace, x.1 ∈ ids := by
  induction h with
  | refl => exact fun x hx => absurd hx (by simp [init])
  | @tail s t hs hst ih =>
    obtain ⟨a, ha⟩ := Reachable.rel (s := s) hs hnd
    -- the new marks are those of the node that was offered an input
    have hnew : ∀ {source : Source C} {i : NodeId} {input : Input C} {u : Cluster C O S},
        s.offer ids source = some (i, input, u) → ∀ es : List (Effect C O S),
        ∀ x ∈ u.trace ++ es.map (Prod.mk i), x.1 ∈ ids := by
      intro source i input u ho es x hx
      rw [offer_trace ho] at hx
      rcases List.mem_append.mp hx with hx | hx
      · exact ih x hx
      · obtain ⟨e, -, rfl⟩ := List.mem_map.mp hx
        exact (ha.offered ho).1
    obtain ⟨action, hst⟩ := hst
    rcases exec_cases hst with ⟨source, i, input, u, node, -, ho, -, rfl⟩ | ⟨i, -, -, rfl⟩ |
      ⟨source, done, i, input, u, node, -, ho, -, rfl⟩ | ⟨k, -, -, rfl⟩
    · rw [settle_trace]
      exact hnew ho _
    · exact ih
    · change ∀ x ∈ (u.perform i (node.effects.take done)).trace, x.1 ∈ ids
      rw [perform_trace]
      exact hnew ho _
    · exact ih

end Cluster

/-! ### A run

Node 1 wins term 1 with the vote of node 2, commits a command and applies it; node 2
learns of it, applies it too and wins term 2. -/

/-- A machine that adds up its commands. -/
structure Counter where
  value : ℕ
  deriving DecidableEq

instance : RaftStateMachine Counter ℕ ℕ :=
  ⟨fun self command => (⟨self.value + command⟩, self.value + command)⟩

def twoTerms : List (Action ℕ) :=
  [.run (.electionTimeout 1), .run (.deliver 0), .run (.deliver 1),
    .run (.command 1 (.apply 7 0)), .run (.deliver 1), .run (.deliver 4), .run (.heartbeat 1),
    .run (.deliver 4), .run (.deliver 5), .run (.heartbeat 1), .run (.deliver 5),
    .run (.electionTimeout 2), .run (.deliver 8), .run (.deliver 8)]

/-- Where `twoTerms` ends. -/
def afterTwoTerms : Cluster ℕ ℕ Counter :=
  ((Cluster.init [1, 2, 3] ⟨0⟩).run [1, 2, 3] ⟨0⟩ twoTerms).getD (Cluster.init [1, 2, 3] ⟨0⟩)

theorem reachable_afterTwoTerms : Cluster.Reachable [1, 2, 3] ⟨0⟩ afterTwoTerms := by
  unfold afterTwoTerms
  cases h : (Cluster.init [1, 2, 3] ⟨0⟩ : Cluster ℕ ℕ Counter).run [1, 2, 3] ⟨0⟩ twoTerms with
  | none => exact Relation.ReflTransGen.refl
  | some s => exact Cluster.steps_of_run h

/-! ### Election safety -/

/-- The two ways to have become leader of a term exclude different leaders. -/
theorem Rel.leader_unique (h : Rel ids a s) (hi : i ∈ ids) (hj : j ∈ ids) {t : ℕ}
    {l l' : List (LogEntry C)} (hl : (i, Effect.becameLeader t l) ∈ s.trace)
    (hl' : (j, Effect.becameLeader t l') ∈ s.trace) : i = j := by
  have hmid := h.mid i
  rcases hmid.trace _ hl with ⟨r, hr, hw, -⟩ | ⟨halone, -⟩
  · rcases hmid.trace _ hl' with ⟨r', hr', hw', -⟩ | ⟨halone, -⟩
    · rw [hr] at hr'
      obtain rfl := Option.some.inj hr'
      exact Option.some.inj (hw.symm.trans hw')
    · exact halone i hi
  · exact (halone j hj).symm

variable [RaftStateMachine S C O]

/-- **Election safety.** In every run at most one node enters `Role::Leader` in a term, and
`append_request` never finds two leaders of one term. -/
theorem election_safety (hnd : ids.Nodup) (h : Cluster.Reachable ids machine s) :
    (∀ i j t l l', (i, Effect.becameLeader t l) ∈ s.trace →
      (j, Effect.becameLeader t l') ∈ s.trace → i = j) ∧
    ∀ source i input u, s.offer ids source = some (i, input, u) →
      (u.node i).handle input ≠ .error .twoLeadersInTheSameTerm := by
  obtain ⟨a, ha⟩ := h.rel hnd
  refine ⟨fun i j t l l' hl hl' => ?_, fun source i input u ho => ?_⟩
  · exact ha.leader_unique (h.mem_trace hnd _ hl) (h.mem_trace hnd _ hl') hl hl'
  · obtain ⟨hi, held, hsync, hin, -⟩ := ha.offered ho
    obtain ⟨n', a', held', hn', -⟩ := hsync.handle hnd hi hin
    rw [hn']
    simp

theorem election_safety_afterTwoTerms :
    (∀ i j t l l', (i, Effect.becameLeader t l) ∈ afterTwoTerms.trace →
      (j, Effect.becameLeader t l') ∈ afterTwoTerms.trace → i = j) ∧
    ∀ source i input u, afterTwoTerms.offer [1, 2, 3] source = some (i, input, u) →
      (u.node i).handle input ≠ .error .twoLeadersInTheSameTerm :=
  election_safety (by decide) reachable_afterTwoTerms

/-! ### Log matching -/

/-- The logs of a cluster, as partial functions of the index: in memory, saved, and
carried by an `AppendRequest` in flight from the index after its `prev_log_index` on. -/
inductive HasLog (ids : List NodeId) (s : Cluster C O S) : (ℕ → Option (LogEntry C)) → Prop
  | memory (i : NodeId) (hi : i ∈ ids) : HasLog ids s fun k => (s.node i).log[k]?
  | storage (i : NodeId) (state : PersistentState C) (h : s.storage i = some state) :
    HasLog ids s fun k => state.log[k]?
  | inFlight (env : Envelope C) (msg : AppendRequest C) (henv : env ∈ s.network)
      (hmsg : env.message = .appendRequest msg) :
    HasLog ids s fun k =>
      if k ≤ msg.prevLogIndex then none else msg.entries[k - (msg.prevLogIndex + 1)]?

omit [RaftStateMachine S C O] in
/-- Every log of a cluster is part of a grounded log. -/
theorem HasLog.grounded {f : ℕ → Option (LogEntry C)} (hf : HasLog ids s f) (h : Rel ids a s) :
    ∃ L, Grounded a L ∧ ∀ k e, f k = some e → L[k]? = some e := by
  cases hf with
  | memory i hi =>
    have hinv := (h.mid i).inv
    have hlog : a.log i = (s.node i).log := (h.nodes i hi).1.disk.log
    exact ⟨_, hlog ▸ hinv.log_grounded i, fun _ _ he => he⟩
  | storage i state hst =>
    have hinv := (h.mid i).inv
    have hlog : a.log i = (s.saved i).log := ((h.mid i).disk i).log
    have hsaved : s.saved i = state := by
      unfold Cluster.saved
      rw [hst]
      rfl
    exact ⟨_, hsaved ▸ hlog ▸ hinv.log_grounded i, fun _ _ he => he⟩
  | inFlight env msg henv hmsg =>
    obtain ⟨-, -, -, hok⟩ := (h.mid env.toId).net env henv
    rw [hmsg] at hok
    obtain ⟨-, r, hr, -, -, ⟨rest, hrest⟩, -⟩ := hok
    refine ⟨r.log, (h.mid env.toId).inv.reign_grounded _ r hr, fun k e he => ?_⟩
    dsimp only at he
    split at he
    · exact absurd he (by simp)
    · next hk =>
      -- the entries are part of the log of the reign
      have hlt := (List.getElem?_eq_some_iff.mp he).1
      have hat : (r.log.drop (msg.prevLogIndex + 1))[k - (msg.prevLogIndex + 1)]? = some e := by
        rw [← hrest, List.getElem?_append_left hlt, he]
      rw [List.getElem?_drop] at hat
      rw [← hat]
      congr 1
      omega

/-- **Log matching.** If two logs of a reachable cluster have entries of one term at one
index, these are equal, and the logs agree on every lower index that both contain. -/
theorem log_matching (hnd : ids.Nodup) (h : Cluster.Reachable ids machine s)
    {f g : ℕ → Option (LogEntry C)} (hf : HasLog ids s f) (hg : HasLog ids s g) {k : ℕ}
    {e e' : LogEntry C} (he : f k = some e) (he' : g k = some e') (hterm : e.term = e'.term) :
    e = e' ∧ ∀ m ≤ k, ∀ x y, f m = some x → g m = some y → x = y := by
  obtain ⟨a, ha⟩ := h.rel hnd
  obtain ⟨L, hL, hfL⟩ := hf.grounded ha
  obtain ⟨M, hM, hgM⟩ := hg.grounded ha
  have htake : L.take (k + 1) = M.take (k + 1) :=
    hL.matching hM (hfL k e he) (hgM k e' he') hterm
  have hagree : ∀ m ≤ k, ∀ x y, f m = some x → g m = some y → x = y := by
    intro m hm x y hx hy
    have heq := getElem?_of_take_eq htake (show m < k + 1 by omega)
    rw [hfL m x hx, hgM m y hy] at heq
    exact Option.some.inj heq
  exact ⟨hagree k le_rfl e e' he he', hagree⟩

theorem log_matching_afterTwoTerms :
    (⟨1, .command 7⟩ : LogEntry ℕ) = ⟨1, .command 7⟩ ∧ ∀ m ≤ 2, ∀ x y,
      (afterTwoTerms.node 1).log[m]? = some x → (afterTwoTerms.node 2).log[m]? = some y →
      x = y :=
  log_matching (by decide) reachable_afterTwoTerms (.memory 1 (by decide))
    (.memory 2 (by decide)) (k := 2)
    (show (afterTwoTerms.node 1).log[2]? = some ⟨1, .command 7⟩ by decide +kernel)
    (show (afterTwoTerms.node 2).log[2]? = some ⟨1, .command 7⟩ by decide +kernel) rfl

/-! ### Leader completeness -/

omit [RaftStateMachine S C O] in
/-- A log with which a later term was won contains what is chosen. -/
theorem agree_of_base (hinv : Inv (quorums ids) a) {T k T' : ℕ} {r r' : Reign NodeId (LogEntry C)}
    (hch : Chosen (quorums ids) a T k r) (hlt : T < T') (hr' : a.reign T' = some r')
    {l : List (LogEntry C)} (hl : r'.base <+: l) : l.take k = r.log.take k ∧ k ≤ l.length := by
  have hb := hinv.base_of_chosen hch T' r' hlt hr'
  have hlen := length_le_of_take_eq hb hch.2.1
  rw [← take_eq_of_initial hl hlen]
  exact ⟨hb, hlen.trans hl.length_le⟩

omit [RaftStateMachine S C O] in
/-- A node that is alone has what is chosen in its log. -/
theorem agree_of_alone (hinv : Inv (quorums ids) a) {T k : ℕ} {r : Reign NodeId (LogEntry C)}
    (hch : Chosen (quorums ids) a T k r) (halone : ∀ j ∈ ids, j = i) (hlt : T ≤ a.term i) :
    (a.log i).take k = r.log.take k ∧ k ≤ (a.log i).length := by
  obtain ⟨P, hP, hack⟩ := hch.2.2.2.2
  obtain ⟨q, hq, -⟩ := (quorums ids).meet hP hP
  obtain rfl := halone q (List.mem_toFinset.mp (hP.1 hq))
  have hkeep : (a.log q).take k = r.log.take k := by
    rcases hinv.log_kept q T r k (Nat.lt_succ_of_le hlt) hch.1 (hack q hq) with
      heq | ⟨t', r', h1, -, hr', hne⟩
    · exact heq
    · exact absurd (hinv.base_of_chosen hch t' r' h1 hr') hne
  exact ⟨hkeep, length_le_of_take_eq hkeep hch.2.1⟩

/-- **Leader completeness.** If `advance_commit` of a leader of term `T` sets its commit
index to `N`, every node that becomes leader in a later term `T'` has the entries
`0..=N` of that leader when it becomes leader, and as long as it is in term `T'`. -/
theorem leader_completeness (hnd : ids.Nodup) (h : Cluster.Reachable ids machine s) {T N : ℕ}
    {l : List (LogEntry C)} (hc : (i, Effect.committed T N l) ∈ s.trace) {T' : ℕ}
    {l' : List (LogEntry C)} (hl' : (j, Effect.becameLeader T' l') ∈ s.trace) (hlt : T < T') :
    (l'.take (N + 1) = l.take (N + 1) ∧ N < l'.length ∧ N < l.length) ∧
    ((s.node j).currentTerm = T' →
      (s.node j).log.take (N + 1) = l.take (N + 1) ∧ N < (s.node j).log.length) := by
  obtain ⟨a, ha⟩ := h.rel hnd
  have hmid := ha.mid j
  have hinv := hmid.inv
  obtain ⟨r, hch, -, htake⟩ := hmid.trace _ hc
  obtain ⟨hnode, -⟩ := ha.nodes j (h.mem_trace hnd _ hl')
  have hlen : N < l.length := length_le_of_take_eq htake hch.2.1
  rw [htake]
  rcases hmid.trace _ hl' with ⟨r', hr', hw', hb', -⟩ | ⟨halone, ht', hl'⟩
  · obtain ⟨hagree, hlen'⟩ := agree_of_base hinv hch hlt hr' hb'
    refine ⟨⟨hagree, hlen', hlen⟩, fun hterm => ?_⟩
    -- in its own term the winner still holds what it won with
    have hdterm : a.term j = (s.node j).currentTerm := hnode.disk.term
    have hdlog : a.log j = (s.node j).log := hnode.disk.log
    obtain ⟨hbase, -⟩ := hinv.reign_own j r' (by rw [hdterm, hterm]; exact hr') hw'
    rw [hdlog] at hbase
    exact agree_of_base hinv hch hlt hr' hbase
  · change T' = a.term j + 1 at ht'
    change l' = a.log j ++ [⟨T', .noOp⟩] at hl'
    obtain ⟨hagree, hlen'⟩ := agree_of_alone (i := j) hinv hch halone (by omega)
    refine ⟨⟨?_, ?_, hlen⟩, fun hterm => ?_⟩
    · rw [hl', List.take_append_of_le_length hlen', hagree]
    · rw [hl', List.length_append]
      omega
    · -- the leadership was lost in a crash: the node is still in the term before
      have hdterm : a.term j = (s.node j).currentTerm := hnode.disk.term
      omega

theorem leader_completeness_afterTwoTerms :
    (([⟨0, .noOp⟩, ⟨1, .noOp⟩, ⟨1, .command 7⟩, ⟨2, .noOp⟩] : List (LogEntry ℕ)).take 3 =
        ([⟨0, .noOp⟩, ⟨1, .noOp⟩, ⟨1, .command 7⟩] : List (LogEntry ℕ)).take 3 ∧ 2 < 4 ∧ 2 < 3) ∧
    ((afterTwoTerms.node 2).currentTerm = 2 →
      (afterTwoTerms.node 2).log.take 3 =
        ([⟨0, .noOp⟩, ⟨1, .noOp⟩, ⟨1, .command 7⟩] : List (LogEntry ℕ)).take 3 ∧
      2 < (afterTwoTerms.node 2).log.length) :=
  leader_completeness (i := 1) (j := 2) (T := 1) (N := 2) (by decide) reachable_afterTwoTerms
    (by decide +kernel)
    (show (2, Effect.becameLeader 2 _) ∈ afterTwoTerms.trace by decide +kernel) (by decide)

/-! ### State machine safety -/

/-- **State machine safety.** In every run, whatever two nodes apply at one index is the
same entry. -/
theorem state_machine_safety (hnd : ids.Nodup) (h : Cluster.Reachable ids machine s) {k : ℕ}
    {e e' : LogEntry C} {m m' : S} (hi : (i, Effect.applied k e m) ∈ s.trace)
    (hj : (j, Effect.applied k e' m') ∈ s.trace) : e = e' := by
  obtain ⟨a, ha⟩ := h.rel hnd
  have hmid := ha.mid i
  obtain ⟨T, n, r, hch, hk, he⟩ := hmid.trace _ hi
  obtain ⟨T', n', r', hch', hk', he'⟩ := hmid.trace _ hj
  have hagree := hmid.inv.chosen_agree hch hch' hk hk'
  rw [he, he'] at hagree
  exact Option.some.inj hagree

theorem state_machine_safety_afterTwoTerms :
    (⟨1, .command 7⟩ : LogEntry ℕ) = ⟨1, .command 7⟩ :=
  state_machine_safety (by decide) reachable_afterTwoTerms
    (show (1, Effect.applied 2 ⟨1, .command 7⟩ ⟨0⟩) ∈ afterTwoTerms.trace by decide +kernel)
    (show (2, Effect.applied 2 ⟨1, .command 7⟩ ⟨0⟩) ∈ afterTwoTerms.trace by decide +kernel)

/-! ### No handler panics -/

/-- The action ends the incarnation of node `i`. -/
def Cluster.Crashes (ids : List NodeId) (s : Cluster C O S) (i : NodeId) : Action C → Prop
  | .crash id => id = i
  | .crashIn source _ => ∃ input u, s.offer ids source = some (i, input, u)
  | _ => False

/-- A step that node `i` survives. -/
def Cluster.StepWithin (ids : List NodeId) (machine : S) (i : NodeId) (s t : Cluster C O S) :
    Prop :=
  ∃ action, s.exec ids machine action = some t ∧ ¬ s.Crashes ids i action

/-- A step that node `i` survives is a turn of its own, or leaves it as it is. -/
theorem Cluster.StepWithin.cases (h : Cluster.StepWithin ids machine i s t) :
    (∃ source input u node, s.offer ids source = some (i, input, u) ∧
      (u.node i).handle input = .ok node ∧ t = u.settle i node) ∨
      t.node i = s.node i ∧ ∃ es, t.trace = s.trace ++ es ∧ ∀ x ∈ es, x.1 ≠ i := by
  obtain ⟨action, hst, hno⟩ := h
  have hmarks : ∀ {j : NodeId}, j ≠ i → ∀ es : List (Effect C O S),
      ∀ x ∈ es.map (Prod.mk j), x.1 ≠ i := by
    intro j hj es x hx
    obtain ⟨e, -, rfl⟩ := List.mem_map.mp hx
    exact hj
  rcases Cluster.exec_cases hst with ⟨source, j, input, u, node, rfl, ho, hnode, rfl⟩ |
    ⟨j, rfl, -, rfl⟩ | ⟨source, done, j, input, u, node, rfl, ho, hnode, rfl⟩ | ⟨k, rfl, -, rfl⟩
  · by_cases hj : j = i
    · subst hj
      exact Or.inl ⟨source, input, u, node, ho, hnode, rfl⟩
    · refine Or.inr ⟨?_, node.effects.map (Prod.mk j), ?_, hmarks hj _⟩
      · rw [Cluster.settle_node_of_ne u node (Ne.symm hj), Cluster.offer_node ho]
      · rw [Cluster.settle_trace, Cluster.offer_trace ho]
  · -- the crash of another node
    have hj : i ≠ j := fun heq => hno heq.symm
    exact Or.inr ⟨Function.update_of_ne hj _ s.node, [], (List.append_nil _).symm, by simp⟩
  · have hj : j ≠ i := by
      rintro rfl
      exact hno ⟨input, u, ho⟩
    refine Or.inr ⟨?_, (node.effects.take done).map (Prod.mk j), ?_, hmarks hj _⟩
    · change Function.update (u.perform j (node.effects.take done)).node j _ i = _
      rw [Function.update_of_ne hj.symm, Cluster.perform_node, Cluster.offer_node ho]
    · change (u.perform j (node.effects.take done)).trace = _
      rw [Cluster.perform_trace, Cluster.offer_trace ho]
  · exact Or.inr ⟨rfl, [], (List.append_nil _).symm, by simp⟩

/-- What a step does to one node: nothing, a turn of its own, or a new start. -/
theorem Cluster.exec_node_cases {action : Action C} (hact : s.exec ids machine action = some t)
    (i : NodeId) :
    t.node i = s.node i ∨
      (∃ source input u node, action = .run source ∧ s.offer ids source = some (i, input, u) ∧
        (u.node i).handle input = .ok node ∧ t = u.settle i node) ∨
      ∃ stored, t.node i = RaftNode.new i ids machine stored := by
  rcases Cluster.exec_cases hact with ⟨source, j, input, u, node, rfl, ho, hnode, rfl⟩ |
    ⟨j, rfl, -, rfl⟩ | ⟨source, done, j, input, u, node, rfl, ho, -, rfl⟩ | ⟨k, rfl, -, rfl⟩
  · by_cases hj : i = j
    · subst hj
      exact Or.inr (Or.inl ⟨source, input, u, node, rfl, ho, hnode, rfl⟩)
    · exact Or.inl (by rw [Cluster.settle_node_of_ne u node hj, Cluster.offer_node ho])
  · by_cases hj : i = j
    · subst hj
      exact Or.inr (Or.inr ⟨s.storage i, Function.update_self _ _ _⟩)
    · exact Or.inl (Function.update_of_ne hj _ s.node)
  · by_cases hj : i = j
    · subst hj
      exact Or.inr (Or.inr ⟨_, Function.update_self _ _ _⟩)
    · refine Or.inl ?_
      change Function.update (u.perform j (node.effects.take done)).node j _ i = _
      rw [Function.update_of_ne hj, Cluster.perform_node, Cluster.offer_node ho]
  · exact Or.inl rfl

/-- A step that node `i` survives decreases neither of its indices. -/
theorem Rel.indices_mono (h : Rel ids a s) (hnd : ids.Nodup)
    (hst : Cluster.StepWithin ids machine i s t) :
    (s.node i).commitIndex ≤ (t.node i).commitIndex ∧
      (s.node i).lastApplied ≤ (t.node i).lastApplied := by
  rcases hst.cases with ⟨source, input, u, node, ho, hnode, rfl⟩ | ⟨hsame, -⟩
  · obtain ⟨hi, held, hsync, hin, hsame⟩ := h.offered ho
    obtain ⟨n', a', held', hn', -, hp⟩ := hsync.handle hnd hi hin
    obtain rfl := Except.ok.inj (hnode.symm.trans hn')
    rw [Cluster.settle_node_self, ← hsame]
    exact ⟨hp.commit, hp.applied⟩
  · rw [hsame]
    exact ⟨le_rfl, le_rfl⟩

/-- **No handler panics, and nothing committed is truncated.** In every reachable cluster
the indices of every node are in bounds, every input that is offered is handled without a
panic and truncates above the commit index only, and as long as a node does not crash its
indices never decrease. -/
theorem no_handler_panics (hnd : ids.Nodup) (h : Cluster.Reachable ids machine s) :
    (∀ i ∈ ids, (s.node i).lastApplied ≤ (s.node i).commitIndex ∧
      (s.node i).commitIndex < (s.node i).log.length ∧
      ∀ nextIndex matchIndex, (s.node i).role = .leader nextIndex matchIndex →
        ∀ p ∈ ids, p ≠ i → ∃ x, nextIndex.lookup p = some x ∧ 1 ≤ x ∧
          x ≤ (s.node i).log.length) ∧
    (∀ source i input u, s.offer ids source = some (i, input, u) →
      ∃ n', (u.node i).handle input = .ok n' ∧
        ∀ k, Effect.truncated k ∈ n'.effects → (s.node i).commitIndex < k) ∧
    (∀ i t, Relation.ReflTransGen (Cluster.StepWithin ids machine i) s t →
      (s.node i).commitIndex ≤ (t.node i).commitIndex ∧
        (s.node i).lastApplied ≤ (t.node i).lastApplied) := by
  obtain ⟨a, ha⟩ := h.rel hnd
  refine ⟨fun i hi => ?_, fun source i input u ho => ?_, fun i t hst => ?_⟩
  · obtain ⟨hnode, -⟩ := ha.nodes i hi
    refine ⟨hnode.applied_le, hnode.commit_lt, fun nextIndex matchIndex hrole p hp hpi => ?_⟩
    have hr := hnode.role
    unfold RoleOk at hr
    rw [hrole] at hr
    exact hr.2.2.1 p (hnode.mem_peers.mpr ⟨hp, hpi⟩)
  · -- the handler runs through, and cuts the log above the commit index only
    obtain ⟨hi, held, hsync, hin, hsame⟩ := ha.offered ho
    obtain ⟨n', a', held', hn', -, hp⟩ := hsync.handle hnd hi hin
    obtain ⟨es, hes, htrunc⟩ := hp.effects
    rw [hsame, (ha.nodes i hi).2, List.nil_append] at hes
    refine ⟨n', hn', fun k hk => ?_⟩
    rw [← hsame]
    exact htrunc k (hes ▸ hk)
  · -- every state on the way is reachable, so the step lemma applies to each step
    induction hst with
    | refl => exact ⟨le_rfl, le_rfl⟩
    | @tail t t' hs ht ih =>
      have hsteps : Cluster.Steps ids machine s t :=
        hs.lift id fun _ _ ⟨action, hact, _⟩ => ⟨action, hact⟩
      obtain ⟨a₁, ha₁, -⟩ := ha.steps hnd hsteps
      obtain ⟨hc, hl⟩ := ha₁.indices_mono hnd ht
      exact ⟨ih.1.trans hc, ih.2.trans hl⟩

theorem no_handler_panics_afterTwoTerms :
    (∀ i ∈ [1, 2, 3], (afterTwoTerms.node i).lastApplied ≤ (afterTwoTerms.node i).commitIndex ∧
      (afterTwoTerms.node i).commitIndex < (afterTwoTerms.node i).log.length ∧
      ∀ nextIndex matchIndex, (afterTwoTerms.node i).role = .leader nextIndex matchIndex →
        ∀ p ∈ [1, 2, 3], p ≠ i → ∃ x, nextIndex.lookup p = some x ∧ 1 ≤ x ∧
          x ≤ (afterTwoTerms.node i).log.length) ∧
    (∀ source i input u, afterTwoTerms.offer [1, 2, 3] source = some (i, input, u) →
      ∃ n', (u.node i).handle input = .ok n' ∧
        ∀ k, Effect.truncated k ∈ n'.effects → (afterTwoTerms.node i).commitIndex < k) ∧
    (∀ i t, Relation.ReflTransGen (Cluster.StepWithin [1, 2, 3] ⟨0⟩ i) afterTwoTerms t →
      (afterTwoTerms.node i).commitIndex ≤ (t.node i).commitIndex ∧
        (afterTwoTerms.node i).lastApplied ≤ (t.node i).lastApplied) :=
  no_handler_panics (by decide) reachable_afterTwoTerms

end Raft
end KvRaft
