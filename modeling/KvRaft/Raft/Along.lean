import KvRaft.Raft.CommitCap

/-!
# Facts about the order of effects

Some properties of a run say what has already happened when an effect happens: an entry
that is saved was pushed by a leader before, an index that is applied comes after those
below it. `Along Q trace` says that each effect of the trace found `Q` true of the effects
before it.

Such a property is carried by what each node knows of the trace so far. `Carries` lists
what has to be shown for one pair `Q`, `P` of them: what a node knows when it starts again
on its storage, that the effects of others leave it its knowledge, and the handlers.
Storages and messages in flight need nothing of their own, for each of them is an effect of
the trace (`Cluster.Reachable.stored`, `Cluster.Reachable.sent_mark`).
-/

namespace KvRaft
namespace Raft

variable {C O S : Type}
variable {ids : List NodeId} {s t : Cluster C O S} {i : NodeId}
  {n n' : RaftNode C O S} {machine : S} {trace : List (NodeId × Effect C O S)}
  {Q Q' : List (NodeId × Effect C O S) → NodeId → Effect C O S → Prop}

/-- Each effect found `Q` true of what was before. -/
def Along (Q : List (NodeId × Effect C O S) → NodeId → Effect C O S → Prop)
    (trace : List (NodeId × Effect C O S)) : Prop :=
  ∀ past i e future, trace = past ++ (i, e) :: future → Q past i e

theorem Along.nil : Along Q [] :=
  fun _ _ _ _ h => absurd h (by simp)

/-- An effect of the trace has a past. -/
theorem Along.at (h : Along Q trace) {e : Effect C O S} (he : (i, e) ∈ trace) :
    ∃ past future, trace = past ++ (i, e) :: future ∧ Q past i e := by
  obtain ⟨past, future, heq⟩ := List.append_of_mem he
  exact ⟨past, future, heq, h past i e future heq⟩

theorem Along.of_initial {trace' : List (NodeId × Effect C O S)} (h : Along Q trace')
    (hp : trace <+: trace') : Along Q trace := by
  obtain ⟨rest, rfl⟩ := hp
  intro past i e future heq
  refine h past i e (future ++ rest) ?_
  rw [heq, List.append_assoc, List.cons_append]

theorem Along.and (h : Along Q trace) (h' : Along Q' trace) :
    Along (fun past i e => Q past i e ∧ Q' past i e) trace :=
  fun past i e future heq => ⟨h past i e future heq, h' past i e future heq⟩

/-- One more effect. -/
theorem Along.concat (h : Along Q trace) {e : Effect C O S} (he : Q trace i e) :
    Along Q (trace ++ [(i, e)]) := by
  intro past j x future heq
  rcases List.eq_nil_or_concat future with rfl | ⟨future, y, rfl⟩
  · obtain ⟨rfl, hlast⟩ := List.append_inj' heq rfl
    obtain ⟨rfl, rfl⟩ := Prod.mk.inj (List.singleton_injective hlast)
    exact he
  · rw [List.concat_eq_append, ← List.cons_append, ← List.append_assoc] at heq
    exact h past j x future (List.append_inj' heq rfl).1

/-- More effects of one node, each with the ones before it. -/
theorem Along.append (h : Along Q trace) {es : List (Effect C O S)}
    (hes : ∀ pre e post, es = pre ++ e :: post → Q (trace ++ pre.map (Prod.mk i)) i e) :
    Along Q (trace ++ es.map (Prod.mk i)) := by
  induction es using List.reverseRecOn with
  | nil => simpa using h
  | append_singleton es e ih =>
    have hbelow := ih fun pre x post heq => hes pre x (post ++ [e]) (by simp [heq])
    rw [List.map_append, ← List.append_assoc]
    exact hbelow.concat (hes es e [] rfl)

/-- What each effect says of those before it holds of every two of them. -/
theorem Along.pairwise {R : NodeId × Effect C O S → NodeId × Effect C O S → Prop}
    (h : Along Q trace) (hR : ∀ past i e, Q past i e → ∀ x ∈ past, R x (i, e)) :
    trace.Pairwise R := by
  induction trace using List.reverseRecOn with
  | nil => exact List.Pairwise.nil
  | append_singleton trace x ih =>
    refine List.pairwise_append.mpr ⟨ih (h.of_initial (List.prefix_append _ _)),
      List.pairwise_singleton R x, fun y hy z hz => ?_⟩
    obtain rfl := List.mem_singleton.mp hz
    exact hR trace _ _ (h trace _ _ [] rfl) y hy

/-! ### Storages and messages are effects -/

/-- What a storage holds was saved. -/
theorem Cluster.perform_stored {state : PersistentState C} {j : NodeId} :
    ∀ {es : List (Effect C O S)}, (s.perform i es).storage j = some state →
      s.storage j = some state ∨ j = i ∧ .save state ∈ es := by
  intro es
  induction es using List.reverseRecOn with
  | nil => exact Or.inl
  | append_singleton es e ih =>
    intro h
    rw [Cluster.perform_append, Cluster.perform_singleton] at h
    have hbelow : (s.perform i es).storage j = some state →
        s.storage j = some state ∨ j = i ∧ .save state ∈ es ++ [e] :=
      fun h => (ih h).imp_right fun ⟨hj, hmem⟩ => ⟨hj, List.mem_append_left _ hmem⟩
    cases e with
    | save st =>
      by_cases hj : j = i
      · subst hj
        obtain rfl : st = state := by
          have hupd : Function.update (s.perform j es).storage j (some st) j = some state := h
          simpa using hupd
        exact Or.inr ⟨rfl, by simp⟩
      · have hupd : Function.update (s.perform i es).storage i (some st) j = some state := h
        rw [Function.update_of_ne hj] at hupd
        exact hbelow hupd
    | _ => exact hbelow h

section Runs

variable [RaftStateMachine S C O]

omit [RaftStateMachine S C O] in
theorem Cluster.offer_storage {u : Cluster C O S} {source : Source C} {input : Input C}
    (h : s.offer ids source = some (i, input, u)) : u.storage = s.storage := by
  rcases Cluster.offer_cases h with ⟨-, -, -, -, -, rfl⟩ | ⟨-, -, -, -, rfl⟩ | ⟨-, -, -, -, -, rfl⟩ |
    ⟨-, -, -, -, -, -, rfl⟩ <;> rfl

/-- **What a storage holds** was saved by its node. -/
theorem Cluster.Reachable.stored (h : Cluster.Reachable ids machine s)
    {state : PersistentState C} (hst : s.storage i = some state) :
    (i, Effect.save state) ∈ s.trace := by
  induction h with
  | refl => exact absurd hst (by simp [Cluster.init])
  | @tail s t _ hstep ih =>
    -- effects of `j` on top of the cluster an input was taken from
    have hperform : ∀ {source : Source C} {j : NodeId} {input : Input C} {u : Cluster C O S}
        {es : List (Effect C O S)}, s.offer ids source = some (j, input, u) →
        (u.perform j es).storage i = some state →
        (i, Effect.save state) ∈ (u.perform j es).trace := by
      intro source j input u es ho hstored
      rw [Cluster.perform_trace, Cluster.offer_trace ho]
      rcases Cluster.perform_stored hstored with hold | ⟨rfl, hmem⟩
      · rw [Cluster.offer_storage ho] at hold
        exact List.mem_append_left _ (ih hold)
      · exact List.mem_append_right _ (List.mem_map.mpr ⟨_, hmem, rfl⟩)
    obtain ⟨action, hstep⟩ := hstep
    rcases Cluster.exec_cases hstep with ⟨source, j, input, u, node, -, ho, -, rfl⟩ |
      ⟨j, -, -, rfl⟩ | ⟨source, done, j, input, u, node, -, ho, -, rfl⟩ | ⟨k, -, -, rfl⟩
    · exact hperform ho hst
    · exact ih hst
    · exact hperform ho hst
    · exact ih hst

/-- **A message in flight** was sent. -/
theorem Cluster.Reachable.sent_mark (h : Cluster.Reachable ids machine s) {env : Envelope C}
    (henv : env ∈ s.network) : (env.fromId, Effect.send env.toId env.message) ∈ s.trace := by
  induction h with
  | refl => exact absurd henv (by simp [Cluster.init])
  | @tail s t _ hstep ih =>
    have hperform : ∀ {source : Source C} {j : NodeId} {input : Input C} {u : Cluster C O S}
        {es : List (Effect C O S)}, s.offer ids source = some (j, input, u) →
        env ∈ (u.perform j es).network →
        (env.fromId, Effect.send env.toId env.message) ∈ (u.perform j es).trace := by
      intro source j input u es ho hmem
      rw [Cluster.perform_trace, Cluster.offer_trace ho]
      rcases (Cluster.mem_network_perform j es u).mp hmem with hold | ⟨rfl, hsent⟩
      · refine List.mem_append_left _ (ih ?_)
        rcases Cluster.offer_cases ho with ⟨-, -, -, -, -, rfl⟩ | ⟨-, -, -, -, rfl⟩ |
          ⟨-, -, -, -, -, rfl⟩ | ⟨k, -, -, -, -, -, rfl⟩
        · exact hold
        · exact hold
        · exact hold
        · exact List.mem_of_mem_eraseIdx hold
      · exact List.mem_append_right _ (List.mem_map.mpr ⟨_, hsent, rfl⟩)
    obtain ⟨action, hstep⟩ := hstep
    rcases Cluster.exec_cases hstep with ⟨source, j, input, u, node, -, ho, -, rfl⟩ |
      ⟨j, -, -, rfl⟩ | ⟨source, done, j, input, u, node, -, ho, -, rfl⟩ | ⟨k, -, -, rfl⟩
    · exact hperform ho henv
    · exact ih henv
    · exact hperform ho henv
    · exact ih (List.mem_of_mem_eraseIdx henv)

/-! ### What carries a property of the order -/

/-- Where every node knows `P` of the trace, its handlers keep to `Q`. -/
structure Carries (ids : List NodeId) (machine : S)
    (Q : List (NodeId × Effect C O S) → NodeId → Effect C O S → Prop)
    (P : List (NodeId × Effect C O S) → NodeId → RaftNode C O S → Prop) : Prop where
  /-- A node starts on nothing or on a state that was saved. -/
  start : ∀ trace i stored, Along Q trace →
    (∀ state, stored = some state → (i, .save state) ∈ trace) →
    P trace i (RaftNode.new i ids machine stored)
  /-- What the others do. -/
  others : ∀ trace i j (es : List (Effect C O S)) n, i ≠ j → P trace i n →
    P (trace ++ es.map (Prod.mk j)) i n
  /-- A handler has emptied its list of effects when the node waits. -/
  waits : ∀ trace i n, P trace i n → P trace i { n with effects := [] }
  handle : ∀ s source i input u node, Cluster.Reachable ids machine s →
    s.offer ids source = some (i, input, u) → Along Q s.trace → P s.trace i (s.node i) →
    (s.node i).effects = [] → (s.node i).handle input = .ok node →
    Along Q (s.trace ++ node.effects.map (Prod.mk i)) ∧
      P (s.trace ++ node.effects.map (Prod.mk i)) i node

/-- **The run lemma.** -/
theorem Carries.reachable {P : List (NodeId × Effect C O S) → NodeId → RaftNode C O S → Prop}
    (hc : Carries ids machine Q P) (h : Cluster.Reachable ids machine s) :
    Along Q s.trace ∧ ∀ i, P s.trace i (s.node i) ∧ (s.node i).effects = [] := by
  induction h with
  | refl =>
    refine ⟨Along.nil, fun i => ⟨hc.start [] i none Along.nil ?_, rfl⟩⟩
    exact fun state h => absurd h (by simp)
  | @tail s t hs hstep ih =>
    obtain ⟨htrace, hnodes⟩ := ih
    -- the trace after a prefix of a handler, and what the other nodes know of it
    have hrun : ∀ {source : Source C} {i : NodeId} {input : Input C} {u : Cluster C O S}
        {node : RaftNode C O S}, s.offer ids source = some (i, input, u) →
        (u.node i).handle input = .ok node →
        Along Q (s.trace ++ node.effects.map (Prod.mk i)) ∧
          P (s.trace ++ node.effects.map (Prod.mk i)) i node := by
      intro source i input u node ho hnode
      rw [Cluster.offer_node ho] at hnode
      exact hc.handle s source i input u node hs ho htrace (hnodes i).1 (hnodes i).2 hnode
    have hothers : ∀ {i j : NodeId} (es : List (Effect C O S)), j ≠ i →
        P (s.trace ++ es.map (Prod.mk i)) j (s.node j) ∧ (s.node j).effects = [] :=
      fun es hji => ⟨hc.others _ _ _ es _ hji (hnodes _).1, (hnodes _).2⟩
    -- a node that starts again
    have hrestart : ∀ {u : Cluster C O S} {i : NodeId}, Along Q u.trace →
        (∀ state, u.storage i = some state → (i, Effect.save state) ∈ u.trace) →
        (∀ j, j ≠ i → P u.trace j (u.node j) ∧ (u.node j).effects = []) →
        Along Q (u.restart ids machine i).trace ∧ ∀ j, P (u.restart ids machine i).trace j
          ((u.restart ids machine i).node j) ∧ ((u.restart ids machine i).node j).effects = [] := by
      intro u i halong hstored hother
      refine ⟨halong, fun j => ?_⟩
      change P u.trace j (Function.update u.node i _ j) ∧
        (Function.update u.node i _ j).effects = []
      by_cases hj : j = i
      · subst hj
        rw [Function.update_self]
        exact ⟨hc.start _ _ _ halong hstored, rfl⟩
      · rw [Function.update_of_ne hj]
        exact hother j hj
    have ht : Cluster.Reachable ids machine t := hs.tail hstep
    obtain ⟨action, hstep⟩ := hstep
    rcases Cluster.exec_cases hstep with ⟨source, i, input, u, node, -, ho, hnode, rfl⟩ |
      ⟨i, -, -, rfl⟩ | ⟨source, done, i, input, u, node, -, ho, hnode, rfl⟩ | ⟨k, -, -, rfl⟩
    · obtain ⟨halong, hown⟩ := hrun ho hnode
      rw [Cluster.settle_trace, Cluster.offer_trace ho]
      refine ⟨halong, fun j => ?_⟩
      by_cases hj : j = i
      · subst hj
        rw [Cluster.settle_node_self]
        exact ⟨hc.waits _ _ _ hown, rfl⟩
      · rw [Cluster.settle_node_of_ne u node hj, Cluster.offer_node ho]
        exact hothers node.effects hj
    · exact hrestart htrace (fun state hst => Cluster.Reachable.stored hs hst) fun j _ => hnodes j
    · obtain ⟨halong, -⟩ := hrun ho hnode
      have hcut : (u.perform i (node.effects.take done)).trace =
          s.trace ++ (node.effects.take done).map (Prod.mk i) := by
        rw [Cluster.perform_trace, Cluster.offer_trace ho]
      refine hrestart ?_ (fun state hst => ?_) fun j hj => ?_
      · rw [hcut]
        exact halong.of_initial
          ((List.prefix_append_right_inj _).mpr ((List.take_prefix _ _).map _))
      · exact ht.stored hst
      · rw [hcut, Cluster.perform_node, Cluster.offer_node ho]
        exact hothers _ hj
    · exact ⟨htrace, hnodes⟩

end Runs

end Raft
end KvRaft
