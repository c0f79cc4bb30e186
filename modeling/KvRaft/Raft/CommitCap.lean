import KvRaft.Raft.Outcome

/-!
# A follower commits what the request verified

`append_request` caps the new commit index with the end of the follower's own log, which may
lie beyond the last entry the request covers; nothing in that function says that the entries
in between are the leader's. What says it is the way a leader builds its requests: always the
whole of its log from `next_index` on, so its commit index is never beyond what the request
covers (`MsgOk`), and the cap with `leader_commit` is the one that counts.

`Cluster.Sends` is a step in which a node sends a message. The log the sender has then is the
log its handler leaves, because `on_heartbeat` comes last and builds the request of that very
node (`handle_outcome`). From then on it is part of the log of the reign of its term
(`Rel.sent_prefix`), and so is what the follower commits.
-/

namespace KvRaft
namespace Raft

open TermLog

variable {C O S : Type} [RaftStateMachine S C O]
variable {ids : List NodeId} {a a' : Spec C} {s t : Cluster C O S} {i : NodeId}
  {node : RaftNode C O S} {machine : S} {env : Envelope C}

/-! ### Sending -/

/-- In the step from `s` to `t` the sender of `env` handled an input and sent `env`; its
handler left `node`, or would have left it had the node not crashed after the message. -/
def Cluster.Sends (ids : List NodeId) (machine : S) (s : Cluster C O S) (env : Envelope C)
    (node : RaftNode C O S) (t : Cluster C O S) : Prop :=
  ∃ source input u, s.offer ids source = some (env.fromId, input, u) ∧
    (u.node env.fromId).handle input = .ok node ∧
    ((t = u.settle env.fromId node ∧ .send env.toId env.message ∈ node.effects) ∨
      ∃ done, t = (u.perform env.fromId (node.effects.take done)).restart ids machine env.fromId ∧
        .send env.toId env.message ∈ node.effects.take done)

theorem Cluster.Sends.step (h : s.Sends ids machine env node t) :
    Cluster.Step ids machine s t := by
  obtain ⟨source, input, u, ho, hn, ⟨rfl, -⟩ | ⟨done, rfl, -⟩⟩ := h
  · exact ⟨.run source, by simp only [Cluster.exec, ho, hn]⟩
  · exact ⟨.crashIn source done, by simp only [Cluster.exec, ho, hn]⟩

theorem Cluster.Sends.mem (h : s.Sends ids machine env node t) : env ∈ t.network := by
  obtain ⟨source, input, u, ho, hn, ⟨rfl, hmem⟩ | ⟨done, rfl, hmem⟩⟩ := h
  · exact (Cluster.mem_network_perform _ _ u).mpr (Or.inr ⟨rfl, hmem⟩)
  · exact (Cluster.mem_network_perform _ _ u).mpr (Or.inr ⟨rfl, hmem⟩)

/-- What is in the network after a step was there before, or was sent in it. -/
theorem Cluster.Step.network (hst : Cluster.Step ids machine s t) (henv : env ∈ t.network) :
    env ∈ s.network ∨ ∃ node, s.Sends ids machine env node t := by
  have hoffer : ∀ {source : Source C} {i : NodeId} {input : Input C} {u : Cluster C O S},
      s.offer ids source = some (i, input, u) → env ∈ u.network → env ∈ s.network := by
    intro source i input u ho hmem
    rcases Cluster.offer_cases ho with ⟨-, -, -, -, -, rfl⟩ | ⟨-, -, -, -, rfl⟩ |
      ⟨-, -, -, -, -, rfl⟩ | ⟨k, -, -, -, -, -, rfl⟩
    · exact hmem
    · exact hmem
    · exact hmem
    · exact (List.eraseIdx_sublist _ k).subset hmem
  obtain ⟨action, hst⟩ := hst
  rcases Cluster.exec_cases hst with ⟨source, i, input, u, node, -, ho, hnode, rfl⟩ |
    ⟨i, -, -, rfl⟩ | ⟨source, done, i, input, u, node, -, ho, hnode, rfl⟩ | ⟨k, -, -, rfl⟩
  · rcases (Cluster.mem_network_perform i node.effects u).mp henv with hold | ⟨rfl, hsend⟩
    · exact Or.inl (hoffer ho hold)
    · exact Or.inr ⟨node, source, input, u, ho, hnode, Or.inl ⟨rfl, hsend⟩⟩
  · exact Or.inl henv
  · rcases (Cluster.mem_network_perform i (node.effects.take done) u).mp henv with
      hold | ⟨rfl, hsend⟩
    · exact Or.inl (hoffer ho hold)
    · exact Or.inr ⟨node, source, input, u, ho, hnode, Or.inr ⟨done, rfl, hsend⟩⟩
  · exact Or.inl ((List.eraseIdx_sublist _ k).subset henv)

/-- Whatever is in flight was sent on the way. -/
theorem Cluster.Reachable.sent (h : Cluster.Reachable ids machine s) (henv : env ∈ s.network) :
    ∃ s₀ node s₁, Cluster.Reachable ids machine s₀ ∧ s₀.Sends ids machine env node s₁ ∧
      Cluster.Steps ids machine s₁ s := by
  induction h with
  | refl => exact absurd henv List.not_mem_nil
  | @tail s t hs hst ih =>
    rcases Cluster.Step.network hst henv with hold | ⟨node, hsend⟩
    · obtain ⟨s₀, node, s₁, h₀, hsend, hsteps⟩ := ih hold
      exact ⟨s₀, node, s₁, h₀, hsend, hsteps.tail hst⟩
    · exact ⟨s, node, t, hs, hsend, Relation.ReflTransGen.refl⟩

/-! ### The log of the sender -/

/-- **A request is that of the node its handler leaves.** -/
theorem Rel.sent_request (h : Rel ids a s) (hsend : s.Sends ids machine env node t)
    {msg : AppendRequest C} (hmsg : env.message = .appendRequest msg) :
    node.RequestOf env.toId msg := by
  obtain ⟨source, input, u, ho, hn, hcase⟩ := hsend
  have hmem : .send env.toId (.appendRequest msg) ∈ node.effects := by
    rw [← hmsg]
    rcases hcase with ⟨-, hmem⟩ | ⟨done, -, hmem⟩
    · exact hmem
    · exact List.mem_of_mem_take hmem
  obtain ⟨hi, -, -, -, hsame⟩ := h.offered ho
  obtain ⟨es, hes, hrep⟩ := (handle_outcome hn).effects
  -- the node was idle, so the message is one of those its handler added
  rw [hsame, (h.nodes _ hi).2, List.nil_append] at hes
  have hreq : env.toId ∈ node.peerIds ∧ node.RequestOf env.toId msg :=
    hrep (.send env.toId (.appendRequest msg)) (hes ▸ hmem)
  exact hreq.2

/-- The mark of a new leader is in the trace once anything it sent is out. -/
theorem Cluster.Sends.marked (hsend : s.Sends ids machine env node t) {T : ℕ}
    {l : List (LogEntry C)} {es : List (Effect C O S)}
    (hmark : node.effects = .becameLeader T l :: es) :
    (env.fromId, Effect.becameLeader T l) ∈ t.trace := by
  obtain ⟨source, input, u, ho, hn, ⟨rfl, -⟩ | ⟨done, rfl, hmem⟩⟩ := hsend
  · rw [Cluster.settle_trace, hmark]
    exact List.mem_append_right _ (List.mem_map_of_mem List.mem_cons_self)
  · change _ ∈ (u.perform env.fromId (node.effects.take done)).trace
    rw [Cluster.perform_trace]
    refine List.mem_append_right _ (List.mem_map_of_mem ?_)
    -- the mark is the first effect, and at least one was done
    cases done with
    | zero => exact absurd hmem (by simp)
    | succ done =>
      rw [hmark, List.take_succ_cons]
      exact List.mem_cons_self

/-- The log a request was sent from is part of the log of the reign of its term, from the step
in which it was sent on. -/
theorem Rel.sent_prefix (h : Rel ids a s) (h' : Rel ids a' t) (hle : Le a a')
    (hsend : s.Sends ids machine env node t) (henv : MsgOk ids a' env) {msg : AppendRequest C}
    (hmsg : env.message = .appendRequest msg) :
    ∃ r, a'.reign msg.term = some r ∧ node.log <+: r.log ∧
      node.log.length = msg.prevLogIndex + 1 + msg.entries.length := by
  obtain ⟨nextIndex, matchIndex, next, prev, hrole, hnext, hpos, hlen, hprev, hdata⟩ :=
    h.sent_request hsend hmsg
  obtain ⟨hfrom, hto, hne, hok⟩ := henv
  rw [hmsg] at hok
  obtain ⟨-, r, hr, hw, -, hentries, -⟩ := hok
  have hterm : msg.term = node.currentTerm := by rw [hdata]
  have hindex : msg.prevLogIndex + 1 = next := by
    rw [hdata]
    exact Nat.sub_add_cancel hpos
  have hdrop : msg.entries = node.log.drop next := by rw [hdata]
  refine ⟨r, hr, ?_, by rw [hindex, hdrop, List.length_drop]; omega⟩
  obtain ⟨source, input, u, ho, hn, -⟩ := id hsend
  obtain ⟨-, -, -, -, hsame⟩ := h.offered ho
  obtain ⟨hok, hidle⟩ := h.nodes _ hfrom
  -- a node that led before had the log of the reign
  have hled : ∀ next₀ match₀, (s.node env.fromId).role = .leader next₀ match₀ →
      node.currentTerm = (s.node env.fromId).currentTerm →
      (s.node env.fromId).log <+: r.log ∧ ∀ p ∈ (s.node env.fromId).peerIds,
        ∃ x, next₀.lookup p = some x ∧ x ≤ (s.node env.fromId).log.length := by
    intro next₀ match₀ hrole₀ hterm₀
    have hlead := hok.role
    unfold RoleOk at hlead
    rw [hrole₀] at hlead
    obtain ⟨⟨r₀, hr₀, -, hlog₀⟩, -, hbounds, -⟩ := hlead
    obtain ⟨r', hr', -, -, hpre⟩ := hle.reign _ r₀ hr₀
    rw [← hterm₀, ← hterm, hr] at hr'
    obtain rfl := Option.some.inj hr'
    refine ⟨hlog₀ ▸ hpre, fun p hp => ?_⟩
    obtain ⟨x, hx, -, hxlen⟩ := hbounds p hp
    exact ⟨x, hx, hxlen⟩
  cases (handle_outcome hn).leads nextIndex matchIndex hrole with
  | kept es hrole₀ hterm₀ hlog hes =>
    rw [hsame] at hrole₀ hterm₀ hlog
    obtain ⟨hpre, hbounds⟩ := hled _ _ hrole₀ hterm₀
    obtain ⟨x, hx, hxlen⟩ := hbounds env.toId (hok.mem_peers.mpr ⟨hto, hne.symm⟩)
    obtain rfl : x = next := Option.some.inj (hx.symm.trans hnext)
    -- the entries from `next_index` on are in the request, the ones below were in the log
    have hbelow : node.log.take x = r.log.take x := by
      rw [hlog, List.take_append_of_le_length hxlen, take_eq_of_initial hpre hxlen]
    have habove : node.log.drop x <+: r.log.drop x := by
      rw [← hdrop]
      rwa [hindex] at hentries
    have hsplit : node.log.take x ++ node.log.drop x <+: r.log.take x ++ r.log.drop x := by
      rw [hbelow]
      exact (List.prefix_append_right_inj _).mpr habove
    rwa [List.take_append_drop, List.take_append_drop] at hsplit
  | crowned hfrom' hlog hmark hnext' hmatch' =>
    obtain ⟨es, hes⟩ := hmark
    rw [hsame, hidle, List.nil_append] at hes
    rcases (h'.mid 0).trace _ (hsend.marked hes) with ⟨r', hr', -, -, hpre⟩ | ⟨halone, -⟩
    · rw [← hterm, hr] at hr'
      obtain rfl := Option.some.inj hr'
      exact hpre
    · exact absurd (halone _ hto) hne.symm
  | counted p answer next₀ match₀ hin hanswer hrole₀ hterm₀ hlog hmaps =>
    rw [hsame] at hrole₀ hterm₀ hlog
    rw [hlog]
    exact (hled _ _ hrole₀ hterm₀).1

/-! ### The follower -/

/-- What a follower has committed when it raises its commit index is what the request was sent
from. -/
theorem Rel.commits_sent (h : Rel ids a s) (hnd : ids.Nodup) {r : TermLog.Reign NodeId (LogEntry C)}
    {log : List (LogEntry C)} {msg : AppendRequest C} (hmsg : env.message = .appendRequest msg)
    (henv : env ∈ s.network) (hr : a.reign msg.term = some r) (hpre : log <+: r.log)
    (hlen : log.length = msg.prevLogIndex + 1 + msg.entries.length) {k : ℕ} {u : Cluster C O S}
    {n' : RaftNode C O S}
    (ho : s.offer ids (.deliver k) = some (env.toId, .message env.fromId env.message, u))
    (hn : (u.node env.toId).handle (.message env.fromId env.message) = .ok n')
    (hraise : (s.node env.toId).commitIndex < n'.commitIndex) :
    ∀ j ≤ n'.commitIndex, n'.log[j]? = log[j]? := by
  obtain ⟨hi, held, hsync, hin, hsame⟩ := h.offered ho
  obtain ⟨m, a', held', hm, hs', -⟩ := hsync.handle hnd hi hin
  obtain rfl := Except.ok.inj (hn.symm.trans hm)
  have hle : Le a a' := hs'.run.moves.frame.le
  obtain ⟨-, -, -, hok⟩ := (h.mid 0).net env henv
  rw [hmsg] at hok hn
  obtain ⟨-, -, -, -, -, -, hcap, -⟩ := hok
  obtain ⟨hterm, hcommit⟩ := appendRequest_commit hn (by rwa [hsame])
  -- what is committed is the log of the reign, and the request reaches that far
  obtain ⟨r', hr', -, -, hgrown⟩ := hle.reign _ r hr
  have hown : n'.log.take (n'.commitIndex + 1) <+: r'.log :=
    hs'.node.committed.log hs'.run.mid.inv le_rfl (hterm ▸ hr')
  intro j hj
  have hlt := hs'.node.commit_lt
  calc n'.log[j]? = (n'.log.take (n'.commitIndex + 1))[j]? := by
        rw [List.getElem?_take_of_lt (by omega)]
    _ = r'.log[j]? := by
        refine getElem?_of_take_eq (take_eq_of_initial hown le_rfl) ?_
        rw [List.length_take]
        omega
    _ = log[j]? := by
        refine (getElem?_of_take_eq (take_eq_of_initial (hpre.trans hgrown) le_rfl) ?_).symm
        omega

/-- **A follower commits only what the request verified.** In every reachable cluster the
`leader_commit` of every request in flight is at most the last index the request covers; the
request was sent in some step of the run; and when it is delivered and raises the commit index
of the follower, all entries up to that index are those of the log it was sent from. -/
theorem follower_commits_verified (hnd : ids.Nodup) (h : Cluster.Reachable ids machine s)
    (henv : env ∈ s.network) {msg : AppendRequest C} (hmsg : env.message = .appendRequest msg) :
    msg.leaderCommit ≤ msg.prevLogIndex + msg.entries.length ∧
    (∃ s₀ node s₁, Cluster.Reachable ids machine s₀ ∧ s₀.Sends ids machine env node s₁ ∧
      Cluster.Steps ids machine s₁ s) ∧
    ∀ s₀ node s₁, Cluster.Reachable ids machine s₀ → s₀.Sends ids machine env node s₁ →
      Cluster.Steps ids machine s₁ s → ∀ k u n',
        s.offer ids (.deliver k) = some (env.toId, .message env.fromId env.message, u) →
        (u.node env.toId).handle (.message env.fromId env.message) = .ok n' →
        (s.node env.toId).commitIndex < n'.commitIndex →
        ∀ j ≤ n'.commitIndex, n'.log[j]? = node.log[j]? := by
  obtain ⟨a, ha⟩ := h.rel hnd
  refine ⟨?_, h.sent henv, fun s₀ node s₁ h₀ hsend hsteps k u n' ho hn hraise => ?_⟩
  · obtain ⟨-, -, -, hok⟩ := (ha.mid 0).net env henv
    rw [hmsg] at hok
    obtain ⟨-, -, -, -, -, -, hcap, -⟩ := hok
    exact hcap
  · -- the term logs at the send, after it and now
    obtain ⟨a₀, ha₀⟩ := h₀.rel hnd
    obtain ⟨a₁, ha₁, hle₀⟩ := ha₀.step hnd hsend.step
    obtain ⟨a₂, ha₂, hle₁⟩ := ha₁.steps hnd hsteps
    have henv₁ : MsgOk ids a₁ env := (ha₁.mid 0).net env hsend.mem
    obtain ⟨r, hr, hpre, hlen⟩ := ha₀.sent_prefix ha₁ hle₀ hsend henv₁ hmsg
    obtain ⟨r', hr', -, -, hgrown⟩ := hle₁.reign _ r hr
    exact ha₂.commits_sent hnd hmsg henv hr' (hpre.trans hgrown) hlen ho hn hraise

/-- Where `twoTerms` is when the leader tells node 2 that index 2 is committed. -/
def commitInFlight : Cluster ℕ ℕ Counter :=
  ((Cluster.init [1, 2, 3] ⟨0⟩).run [1, 2, 3] ⟨0⟩ (twoTerms.take 10)).getD
    (Cluster.init [1, 2, 3] ⟨0⟩)

theorem reachable_commitInFlight : Cluster.Reachable [1, 2, 3] ⟨0⟩ commitInFlight := by
  unfold commitInFlight
  cases h : (Cluster.init [1, 2, 3] ⟨0⟩ : Cluster ℕ ℕ Counter).run [1, 2, 3] ⟨0⟩
      (twoTerms.take 10) with
  | none => exact Relation.ReflTransGen.refl
  | some s => exact Cluster.steps_of_run h

theorem follower_commits_verified_commitInFlight :
    (2 : ℕ) ≤ 2 + 0 ∧
    (∃ s₀ node s₁, Cluster.Reachable [1, 2, 3] ⟨0⟩ s₀ ∧
      s₀.Sends [1, 2, 3] ⟨0⟩ ⟨1, 2, .appendRequest ⟨1, 1, 2, 1, [], 2⟩⟩ node s₁ ∧
      Cluster.Steps [1, 2, 3] ⟨0⟩ s₁ commitInFlight) ∧
    ∀ s₀ node s₁, Cluster.Reachable [1, 2, 3] ⟨0⟩ s₀ →
      s₀.Sends [1, 2, 3] ⟨0⟩ ⟨1, 2, .appendRequest ⟨1, 1, 2, 1, [], 2⟩⟩ node s₁ →
      Cluster.Steps [1, 2, 3] ⟨0⟩ s₁ commitInFlight → ∀ k u n',
        commitInFlight.offer [1, 2, 3] (.deliver k) =
          some (2, .message 1 (.appendRequest ⟨1, 1, 2, 1, [], 2⟩), u) →
        (u.node 2).handle (.message 1 (.appendRequest ⟨1, 1, 2, 1, [], 2⟩)) = .ok n' →
        (commitInFlight.node 2).commitIndex < n'.commitIndex →
        ∀ j ≤ n'.commitIndex, n'.log[j]? = node.log[j]? :=
  follower_commits_verified (by decide) reachable_commitInFlight
    (show (⟨1, 2, .appendRequest ⟨1, 1, 2, 1, [], 2⟩⟩ : Envelope ℕ) ∈ commitInFlight.network by
      decide +kernel) rfl

end Raft
end KvRaft
