import KvRaft.Raft.Refinement

/-!
# Every handler is explained by the term log

For each function of `raft.rs`: on a node that the term log explains, it does not panic,
and the node it leaves is explained again. `Run` is what makes this survive crashes: the
relation `Mid` holds after *every prefix* of the effects, each time for a term log
reached by steps of the node. `Synced` adds that the memory of the node agrees with what
it saved.

The two functions that write the log and vote before they save (`append_request`,
`become_leader`) are out of sync in between; the steps of the term log happen at the
save.
-/

namespace KvRaft
namespace Raft

open TermLog

variable {C O S : Type}

/-- Node `i`, running a handler from cluster `s`, has done the effects `es`. -/
structure Run (ids : List NodeId) (a₀ : Spec C) (s : Cluster C O S) (i : NodeId)
    (held : List (Envelope C)) (a : Spec C) (es : List (Effect C O S)) : Prop where
  mid : Mid ids a (s.perform i es) held i
  moves : Moves (quorums ids) i a₀ a
  crash : ∀ k, ∃ a', Moves (quorums ids) i a₀ a' ∧ Mid ids a' (s.perform i (es.take k)) [] i

/-- Node `i` has reached the state `n` of its handler and its memory is what it saved. -/
structure Synced (ids : List NodeId) (a₀ : Spec C) (s : Cluster C O S) (i : NodeId)
    (held : List (Envelope C)) (a : Spec C) (n : RaftNode C O S) : Prop where
  run : Run ids a₀ s i held a n.effects
  node : NodeOk ids a (held ++ (s.perform i n.effects).network)
    (s.perform i n.effects).trace i n

/-- What a handler may change of the progress of a node. -/
structure Progress (n n' : RaftNode C O S) : Prop where
  commit : n.commitIndex ≤ n'.commitIndex
  applied : n.lastApplied ≤ n'.lastApplied
  effects : ∃ es, n'.effects = n.effects ++ es ∧
    ∀ k, Effect.truncated k ∈ es → n.commitIndex < k

/-- `n'` has the term, the log and the role of `n`. -/
structure SameCore (n n' : RaftNode C O S) : Prop where
  term : n'.currentTerm = n.currentTerm
  log : n'.log = n.log
  role : n'.role = n.role
  peers : n'.peerIds = n.peerIds

theorem Progress.refl (n : RaftNode C O S) : Progress n n :=
  ⟨le_rfl, le_rfl, [], by simp, by simp⟩

theorem Progress.trans {n₁ n₂ n₃ : RaftNode C O S} (h₁ : Progress n₁ n₂)
    (h₂ : Progress n₂ n₃) : Progress n₁ n₃ := by
  obtain ⟨es, hes, hk⟩ := h₁.effects
  obtain ⟨es', hes', hk'⟩ := h₂.effects
  refine ⟨h₁.commit.trans h₂.commit, h₁.applied.trans h₂.applied, es ++ es', ?_, ?_⟩
  · rw [hes', hes, List.append_assoc]
  · intro k hmem
    rcases List.mem_append.mp hmem with hmem | hmem
    · exact hk k hmem
    · exact h₁.commit.trans_lt (hk' k hmem)

/-- Progress of a node whose effects only grew by one that truncates nothing. -/
theorem Progress.of_effect {n n' : RaftNode C O S} (hc : n.commitIndex ≤ n'.commitIndex)
    (ha : n.lastApplied ≤ n'.lastApplied) {e : Effect C O S}
    (he : n'.effects = n.effects ++ [e]) (hne : ∀ k, e ≠ .truncated k) : Progress n n' := by
  refine ⟨hc, ha, [e], he, fun k hk => ?_⟩
  exact absurd (List.mem_singleton.mp hk).symm (hne k)

theorem SameCore.refl (n : RaftNode C O S) : SameCore n n := ⟨rfl, rfl, rfl, rfl⟩

theorem SameCore.symm {n n' : RaftNode C O S} (h : SameCore n n') : SameCore n' n :=
  ⟨h.term.symm, h.log.symm, h.role.symm, h.peers.symm⟩

theorem SameCore.trans {n₁ n₂ n₃ : RaftNode C O S} (h₁ : SameCore n₁ n₂)
    (h₂ : SameCore n₂ n₃) : SameCore n₁ n₃ :=
  ⟨h₂.term.trans h₁.term, h₂.log.trans h₁.log, h₂.role.trans h₁.role,
    h₂.peers.trans h₁.peers⟩

variable {ids : List NodeId} {a₀ a a' : Spec C} {s : Cluster C O S} {i : NodeId}
  {held held' : List (Envelope C)} {es : List (Effect C O S)} {n n' : RaftNode C O S}

/-! ### Emitting effects -/

theorem Mid.forget (h : Mid ids a s held i) : Mid ids a s [] i := by
  have h' : Mid ids a s (held ++ []) i := by rwa [List.append_nil]
  exact h'.drop

theorem Run.start (h : Mid ids a s held i) : Run ids a s i held a [] :=
  ⟨h, Relation.ReflTransGen.refl, fun k => ⟨a, Relation.ReflTransGen.refl, by
    rw [List.take_nil]; exact h.forget⟩⟩

/-- One more effect, with the steps of the term log that explain it. -/
theorem Run.emit (h : Run ids a₀ s i held a es) (hm : Moves (quorums ids) i a a')
    {e : Effect C O S} (hmid : Mid ids a' ((s.perform i es).performOne i e) held' i) :
    Run ids a₀ s i held' a' (es ++ [e]) := by
  have hmid' : Mid ids a' (s.perform i (es ++ [e])) held' i := by
    rw [Cluster.perform_append]
    exact hmid
  refine ⟨hmid', h.moves.trans hm, fun k => ?_⟩
  by_cases hk : k ≤ es.length
  · rw [List.take_append_of_le_length hk]
    exact h.crash k
  · rw [List.take_of_length_le (by simp; omega)]
    exact ⟨a', h.moves.trans hm, hmid'.forget⟩

/-- The marks of leaders in the trace are explained. -/
theorem Mid.lead (h : Mid ids a s held i) :
    ∀ t l, (i, Effect.becameLeader t l) ∈ s.trace → Crowned a i t l ∨ Pending ids a i t l :=
  fun _ _ hl => h.trace _ hl

/-- An effect that is neither a save nor a message. -/
def IsMark : Effect C O S → Prop
  | .save _ => False
  | .send _ _ => False
  | _ => True

theorem performOne_network_of_isMark (s : Cluster C O S) {e : Effect C O S} (he : IsMark e) :
    (s.performOne i e).network = s.network := by
  rw [Cluster.performOne_network]
  cases e with
  | save st => exact he.elim
  | send j m => exact he.elim
  | _ => simp [Cluster.sent]

theorem Run.mark (h : Run ids a₀ s i held a es) {e : Effect C O S} (he : IsMark e)
    (hev : EventOk ids a i e) : Run ids a₀ s i held a (es ++ [e]) := by
  have hnet := performOne_network_of_isMark (i := i) (s.perform i es) he
  refine h.emit Relation.ReflTransGen.refl
    (h.mid.effect Relation.ReflTransGen.refl e ?_ ?_ ?_ ?_ hev h.mid.lead)
  · rw [Cluster.performOne_saved_of_not_save]
    · exact h.mid.disk i
    · rintro st rfl
      exact he
  · intro env henv
    rw [hnet] at henv
    exact Or.inl henv
  · rw [hnet]
    exact h.mid.tok
  · rw [hnet]
    exact fun _ _ _ _ => le_rfl

theorem tokens_plain {j : NodeId} {m : RaftMessage C} (hp : Plain m) (c p : NodeId) (t : ℕ)
    (pool : List (Envelope C)) : tokens c p t (pool ++ [⟨i, j, m⟩]) = tokens c p t pool := by
  rw [tokens_append]
  simp [tokens, isToken_of_plain hp]

theorem Run.send (h : Run ids a₀ s i held a es) {j : NodeId} {m : RaftMessage C}
    (hp : Plain m) (hm : MsgOk ids a ⟨i, j, m⟩) :
    Run ids a₀ s i held a (es ++ [.send j m]) := by
  have hpool : ∀ c p t,
      tokens c p t (held ++ ((s.perform i es).performOne i (.send j m)).network) =
        tokens c p t (held ++ (s.perform i es).network) := by
    intro c p t
    rw [Cluster.performOne_send_network, ← List.append_assoc]
    exact tokens_plain hp c p t _
  refine h.emit Relation.ReflTransGen.refl
    (h.mid.effect Relation.ReflTransGen.refl (.send j m) (h.mid.disk i) ?_ ?_ ?_ trivial
      h.mid.lead)
  · intro env henv
    rw [Cluster.performOne_send_network, ← List.append_assoc] at henv
    rcases List.mem_append.mp henv with hold | hnew
    · exact Or.inl hold
    · rw [List.mem_singleton.mp hnew]
      exact Or.inr hm
  · intro c p t
    rw [hpool]
    exact h.mid.tok c p t
  · intro c p t _
    rw [hpool]

/-- What is known about a node survives changes of the network that add no tokens of it
and of the trace that add no leadership of it. -/
theorem NodeOk.world {pool pool' : List (Envelope C)}
    {trace trace' : List (NodeId × Effect C O S)} (h : NodeOk ids a pool trace i n)
    (hpool : ∀ p t, tokens i p t pool' ≤ tokens i p t pool)
    (htrace : ∀ t l, (i, Effect.becameLeader t l) ∈ trace' →
      (i, Effect.becameLeader t l) ∈ trace) : NodeOk ids a pool' trace' i n :=
  h.frame (Nat.succ_ne_self i).symm (Frame.refl (i + 1) a) hpool htrace

/-- `NodeOk` does not look at the effects. -/
theorem NodeOk.of_effects {pool : List (Envelope C)} {trace : List (NodeId × Effect C O S)}
    (h : NodeOk ids a pool trace i n) (es : List (Effect C O S)) :
    NodeOk ids a pool trace i { n with effects := es } :=
  ⟨h.id, h.peers, h.disk, h.applied_le, h.commit_lt, h.committed, h.role⟩

/-- A mark, with whatever it does to the fields of the node. -/
theorem Synced.mark (h : Synced ids a₀ s i held a n) {e : Effect C O S}
    (heff : n'.effects = n.effects ++ [e]) (he : IsMark e)
    (hlead : ∀ t l, e ≠ .becameLeader t l) (hev : EventOk ids a i e)
    (hnode : NodeOk ids a (held ++ (s.perform i n.effects).network)
      (s.perform i n.effects).trace i n') : Synced ids a₀ s i held a n' := by
  have hnet := performOne_network_of_isMark (i := i) (s.perform i n.effects) he
  refine ⟨heff ▸ h.run.mark he hev, ?_⟩
  rw [heff, Cluster.perform_append, Cluster.perform_singleton, hnet]
  refine hnode.world (fun _ _ => le_rfl) fun t l hl => ?_
  rw [Cluster.performOne_trace] at hl
  rcases List.mem_append.mp hl with hl | hl
  · exact hl
  · exact absurd (Prod.mk.inj (List.mem_singleton.mp hl)).2.symm (hlead t l)

/-- A message that is neither a request nor a grant of a vote. -/
theorem Synced.send (h : Synced ids a₀ s i held a n) {j : NodeId} {m : RaftMessage C}
    (hj : j ∈ n.peerIds) (hp : Plain m) (hm : MsgOk ids a ⟨i, j, m⟩) :
    Synced ids a₀ s i held a (n.sendMessage j m) ∧ Progress n (n.sendMessage j m) ∧
      SameCore n (n.sendMessage j m) := by
  have heq : n.sendMessage j m = n.emit (.send j m) := if_pos hj
  rw [heq]
  refine ⟨⟨h.run.send hp hm, ?_⟩, Progress.of_effect le_rfl le_rfl rfl (by simp),
    ⟨rfl, rfl, rfl, rfl⟩⟩
  have hnode : NodeOk ids a (held ++ (s.perform i n.effects).network)
      (s.perform i n.effects).trace i (n.emit (.send j m)) := h.node.of_effects _
  change NodeOk ids a (held ++ (s.perform i (n.effects ++ [.send j m])).network)
    (s.perform i (n.effects ++ [.send j m])).trace i (n.emit (.send j m))
  rw [Cluster.perform_append, Cluster.perform_singleton, Cluster.performOne_send_network,
    ← List.append_assoc]
  refine hnode.world (fun p t => (tokens_plain hp i p t _).le) fun t l hl => ?_
  rw [Cluster.performOne_trace] at hl
  rcases List.mem_append.mp hl with hl | hl
  · exact hl
  · exact absurd (Prod.mk.inj (List.mem_singleton.mp hl)).2 (by simp)

/-- A save, with the steps of the term log that make the saved state durable. -/
theorem Run.save (h : Run ids a₀ s i held a es) (hm : Moves (quorums ids) i a a')
    {st : PersistentState C} (hdisk : DiskOk a' st i)
    (hlead : ∀ t l, (i, Effect.becameLeader t l) ∈ (s.perform i es).trace →
      Crowned a' i t l ∨ Pending ids a' i t l) :
    Run ids a₀ s i held a' (es ++ [.save st]) := by
  refine h.emit hm (h.mid.effect hm (.save st) ?_ (fun env henv => Or.inl henv) h.mid.tok
    (fun _ _ _ _ => le_rfl) trivial hlead)
  rw [Cluster.performOne_saved]
  exact hdisk

/-- After a save the memory is in sync if the term log knows the node. -/
theorem Synced.save (h : Run ids a₀ s i held a n.effects) (hm : Moves (quorums ids) i a a')
    (hlead : ∀ t l, (i, Effect.becameLeader t l) ∈ (s.perform i n.effects).trace →
      Crowned a' i t l ∨ Pending ids a' i t l)
    (hnode : NodeOk ids a' (held ++ (s.perform i n.effects).network)
      (s.perform i n.effects).trace i n) : Synced ids a₀ s i held a' n.persistState := by
  refine ⟨h.save hm hnode.disk hlead, ?_⟩
  have hnode' : NodeOk ids a' (held ++ (s.perform i n.effects).network)
      (s.perform i n.effects).trace i n.persistState := hnode.of_effects _
  change NodeOk ids a' (held ++ (s.perform i (n.effects ++ [.save _])).network)
    (s.perform i (n.effects ++ [.save _])).trace i n.persistState
  rw [Cluster.perform_append, Cluster.perform_singleton]
  refine hnode'.world (fun _ _ => le_rfl) fun t l hl => ?_
  rw [Cluster.performOne_trace] at hl
  rcases List.mem_append.mp hl with hl | hl
  · exact hl
  · exact absurd (Prod.mk.inj (List.mem_singleton.mp hl)).2 (by simp)

/-- A node that is not alone never has an unsaved leadership. -/
theorem Run.crowned_of_other (h : Run ids a₀ s i held a es) (hm : Moves (quorums ids) i a a')
    (hother : ∃ j ∈ ids, j ≠ i) :
    ∀ t l, (i, Effect.becameLeader t l) ∈ (s.perform i es).trace → Crowned a' i t l := by
  intro t l hl
  rcases h.mid.lead t l hl with hcr | ⟨hone, -, -⟩
  · exact hcr.mono hm.frame.le
  · obtain ⟨j, hj, hne⟩ := hother
    exact absurd (hone j hj) hne

theorem Run.lead_of_other (h : Run ids a₀ s i held a es) (hm : Moves (quorums ids) i a a')
    (hother : ∃ j ∈ ids, j ≠ i) :
    ∀ t l, (i, Effect.becameLeader t l) ∈ (s.perform i es).trace →
      Crowned a' i t l ∨ Pending ids a' i t l :=
  fun t l hl => Or.inl (h.crowned_of_other hm hother t l hl)

end Raft
end KvRaft
