import KvRaft.Raft.Election
import KvRaft.Raft.Replication

/-!
# Every reachable cluster is explained

The step lemma of the cluster: a step from a cluster that is related to a term log leads
to a cluster that is related to a term log with more history (`Rel.step`). What starts a
node again is the case that needs the reign of term `0`: the first entry of every saved
log is chosen there, so a restarted node commits nothing that is not chosen.
-/

namespace KvRaft
namespace Raft

open TermLog

variable {C O S : Type}
variable {ids : List NodeId} {a₀ a a' : Spec C} {s t : Cluster C O S} {i : NodeId}
  {held held' : List (Envelope C)} {n n' : RaftNode C O S} {machine : S}

/-! ### Starting a node -/

/-- Everything that was there from the start is chosen in term `0`. -/
theorem exists_chosen_zero (hstart : Le Spec.start a) (hi : i ∈ ids) :
    ∃ r, Chosen (quorums ids) a 0 1 r ∧ ∀ j, 1 ≤ a.acked j 0 := by
  obtain ⟨r, hr, -, -, hlog⟩ := hstart.reign 0 ⟨none, [⟨0, .noOp⟩], [⟨0, .noOp⟩]⟩ rfl
  have hack : ∀ j, 1 ≤ a.acked j 0 := fun j => hstart.acked j 0
  have hfirst : r.log[0]? = some ⟨0, .noOp⟩ := by
    obtain ⟨rest, hrest⟩ := hlog
    rw [← hrest]
    rfl
  refine ⟨r, ⟨hr, hlog.length_le, ⟨_, hfirst, rfl⟩, Nat.one_pos, ids.toFinset, ⟨?_, ?_⟩,
    fun q _ => hack q⟩, hack⟩
  · exact Finset.Subset.refl _
  · have hpos : 0 < ids.toFinset.card := Finset.card_pos.mpr ⟨i, List.mem_toFinset.mpr hi⟩
    exact Nat.div_lt_self hpos (by decide)

/-- Every saved log has what was there from the start. -/
theorem take_one_of_chosen (hinv : Inv (quorums ids) a) {r : Reign NodeId (LogEntry C)}
    (hch : Chosen (quorums ids) a 0 1 r) (hack : ∀ j, 1 ≤ a.acked j 0) (j : NodeId) :
    (a.log j).take 1 = r.log.take 1 := by
  rcases hinv.log_kept j 0 r 1 (Nat.succ_pos _) hch.1 (hack j) with heq | ⟨t, r', h0, -, hr', hne⟩
  · exact heq
  · exact absurd (hinv.base_of_chosen hch t r' h0 hr') hne

/-- The first entry of every saved log is committed. -/
theorem committed_first (hinv : Inv (quorums ids) a) (hstart : Le Spec.start a) (hi : i ∈ ids) :
    0 < (a.log i).length ∧ CommittedBy (quorums ids) a (a.term i) ((a.log i).take 1) := by
  obtain ⟨r, hch, hack⟩ := exists_chosen_zero hstart hi
  have hkeep := take_one_of_chosen hinv hch hack i
  refine ⟨length_le_of_take_eq hkeep hch.2.1, 0, 1, r, Nat.zero_le _, hch, ?_⟩
  rw [hkeep]

/-- The first entry of every saved log is the `NoOp` of term `0`. -/
theorem log_first (hinv : Inv (quorums ids) a) (hstart : Le Spec.start a) (hi : i ∈ ids)
    (j : NodeId) : (a.log j)[0]? = some ⟨0, .noOp⟩ := by
  obtain ⟨r, hch, hack⟩ := exists_chosen_zero hstart hi
  obtain ⟨r', hr', -, -, rest, hrest⟩ := hstart.reign 0 ⟨none, [⟨0, .noOp⟩], [⟨0, .noOp⟩]⟩ rfl
  obtain rfl := Option.some.inj (hch.1.symm.trans hr')
  rw [getElem?_of_take_eq (take_one_of_chosen hinv hch hack j) Nat.one_pos, ← hrest]
  rfl

/-- A node that starts on what is durable is explained. -/
theorem Mid.new_ok (h : Mid ids a s held i) (hstart : Le Spec.start a) (hi : i ∈ ids)
    {pool : List (Envelope C)} {trace : List (NodeId × Effect C O S)} :
    NodeOk ids a pool trace i (RaftNode.new i ids machine (s.storage i)) := by
  obtain ⟨hpos, hcom⟩ := committed_first h.inv hstart hi
  have hdisk := h.disk i
  refine ⟨rfl, rfl, hdisk, le_rfl, ?_, ?_, ?_⟩
  · change 0 < (s.saved i).log.length
    rw [← hdisk.log]
    exact hpos
  · change CommittedBy (quorums ids) a (s.saved i).currentTerm ((s.saved i).log.take 1)
    rw [← hdisk.log, ← hdisk.term]
    exact hcom
  · intro l hl
    exact absurd hl (by simp)

/-- The relation, from what holds while `i` runs and what holds of `i` itself. -/
theorem Rel.of_mid (hstart : Le Spec.start a) (h : Mid ids a s [] i)
    (hnode : i ∈ ids → NodeOk ids a s.network s.trace i (s.node i) ∧ (s.node i).effects = []) :
    Rel ids a s := by
  have hall : ∀ j ∈ ids, NodeOk ids a s.network s.trace j (s.node j) ∧
      (s.node j).effects = [] := by
    intro j hj
    by_cases hji : j = i
    · subst hji
      exact hnode hj
    · exact h.nodes j hj hji
  exact ⟨hstart, fun k => ⟨h.inv, h.disk, h.net, h.tok, h.trace, fun j hj _ => hall j hj⟩, hall⟩

/-- A crash of `i` at a point where `Mid` holds. -/
theorem Mid.restart (h : Mid ids a s [] i) (hstart : Le Spec.start a) :
    Rel ids a (s.restart ids machine i) := by
  have hmid : Mid ids a (s.restart ids machine i) [] i := by
    refine ⟨h.inv, h.disk, h.net, h.tok, h.trace, fun j hj hne => ?_⟩
    change NodeOk ids a s.network s.trace j (Function.update s.node i _ j) ∧
      (Function.update s.node i _ j).effects = []
    rw [Function.update_of_ne hne]
    exact h.nodes j hj hne
  refine Rel.of_mid hstart hmid fun hi => ?_
  change NodeOk ids a s.network s.trace i (Function.update s.node i _ i) ∧
    (Function.update s.node i _ i).effects = []
  rw [Function.update_self]
  exact ⟨h.new_ok hstart hi, rfl⟩

/-- **The start.** -/
theorem Rel.init (ids : List NodeId) (machine : S) :
    Rel ids (Spec.start : Spec C) (Cluster.init ids machine : Cluster C O S) := by
  have hinv : Inv (quorums ids) (Spec.start : Spec C) :=
    Inv.initial _ fun e he => by rw [List.mem_singleton.mp he]; rfl
  have hdisk : ∀ j, DiskOk (Spec.start : Spec C)
      ((Cluster.init ids machine : Cluster C O S).saved j) j := fun j => ⟨rfl, rfl, rfl⟩
  have hnodes : ∀ j ∈ ids, NodeOk ids (Spec.start : Spec C) [] [] j
      (RaftNode.new j ids machine none : RaftNode C O S) := by
    intro j hj
    obtain ⟨hpos, hcom⟩ := committed_first hinv (Le.refl _) hj
    exact ⟨rfl, rfl, hdisk j, le_rfl, hpos, hcom, fun l hl => absurd hl (by simp)⟩
  exact ⟨Le.refl _, fun i => ⟨hinv, hdisk, by simp [Cluster.init], by simp [Cluster.init, tokens],
    by simp [Cluster.init], fun j hj _ => ⟨hnodes j hj, rfl⟩⟩, fun j hj => ⟨hnodes j hj, rfl⟩⟩

/-! ### Inputs -/

/-- What is known about an input of node `n`, which is handling the messages `held`. -/
def InputOk (ids : List NodeId) (a : Spec C) (held : List (Envelope C)) (i : NodeId)
    (n : RaftNode C O S) : Input C → Prop
  | .electionTimeout => n.currentTerm < u64Max
  | .heartbeat => n.role.isLeader = true
  | .command _ => True
  | .message p m => held = [⟨p, i, m⟩] ∧ MsgOk ids a ⟨p, i, m⟩

/-- **No handler panics**, and each keeps its node in sync. -/
theorem Synced.handle [RaftStateMachine S C O] (h : Synced ids a₀ s i held a n) (hnd : ids.Nodup)
    (hi : i ∈ ids) {input : Input C} (hin : InputOk ids a held i n input) :
    ∃ n' a' held', n.handle input = .ok n' ∧ Synced ids a₀ s i held' a' n' ∧ Progress n n' := by
  cases input with
  | electionTimeout =>
    obtain ⟨n', a', hn', hs', hp'⟩ := h.becomeCandidate hnd hi hin
    exact ⟨n', a', held, hn', hs', hp'⟩
  | heartbeat =>
    obtain ⟨n', hn', hs', hp', -⟩ := h.onHeartbeat hi hin
    exact ⟨n', a, held, hn', hs', hp'⟩
  | command command =>
    obtain ⟨n', a', hn', hs', hp'⟩ := h.clientCommand hnd hi command
    exact ⟨n', a', held, hn', hs', hp'⟩
  | message p m =>
    obtain ⟨rfl, hmsg⟩ := hin
    cases m with
    | appendRequest msg =>
      obtain ⟨n', a', hn', hs', hp'⟩ := h.appendRequest hi hmsg
      exact ⟨n', a', _, hn', hs', hp'⟩
    | appendResponse msg =>
      obtain ⟨n', a', hn', hs', hp'⟩ := h.appendResponse hnd hi hmsg
      exact ⟨n', a', _, hn', hs', hp'⟩
    | voteRequest msg => exact h.voteRequest hi hmsg
    | voteResponse msg => exact h.voteResponse hnd hi hmsg

/-- A node that waits is in sync. -/
theorem Rel.synced (h : Rel ids a s) (hi : i ∈ ids) (hmid : Mid ids a t held i)
    (hnode : t.node = s.node) (hpool : ∀ p u, tokens i p u (held ++ t.network) ≤
      tokens i p u s.network) (htrace : t.trace = s.trace) :
    Synced ids a t i held a (t.node i) := by
  obtain ⟨hok, heff⟩ := h.nodes i hi
  rw [hnode]
  have hrun : Run ids a t i held a (s.node i).effects := by
    rw [heff]
    exact Run.start hmid
  refine ⟨hrun, ?_⟩
  rw [heff, Cluster.perform_nil, htrace]
  exact hok.world hpool fun _ _ hl => hl

/-- **Every input that is offered** finds its node in sync. -/
theorem Rel.offered (h : Rel ids a s) {source : Source C} {input : Input C}
    (ho : s.offer ids source = some (i, input, t)) :
    i ∈ ids ∧ ∃ held, Synced ids a t i held a (t.node i) ∧
      InputOk ids a held i (t.node i) input ∧ t.node = s.node := by
  rcases Cluster.offer_cases ho with ⟨-, rfl, hi, -, hterm, rfl⟩ | ⟨-, rfl, hi, hlead, rfl⟩ |
    ⟨command, -, rfl, hi, -, rfl⟩ | ⟨k, env, -, hk, rfl, rfl, rfl⟩
  · refine ⟨hi, [], h.synced hi (h.mid i) rfl (fun _ _ => le_rfl) rfl, ?_, rfl⟩
    change (t.node i).currentTerm < u64Max
    omega
  · exact ⟨hi, [], h.synced hi (h.mid i) rfl (fun _ _ => le_rfl) rfl, hlead, rfl⟩
  · have hmid : Mid ids a { s with nextReply := s.nextReply + 1 } [] i :=
      (h.mid i).of_pool rfl rfl rfl (fun _ henv => henv) fun _ _ _ => le_rfl
    exact ⟨hi, [], h.synced hi hmid rfl (fun _ _ => le_rfl) rfl, trivial, rfl⟩
  · -- the message is on its way from the network to the node
    have hperm : ([env] ++ s.network.eraseIdx k).Perm s.network := by
      obtain ⟨hlt, rfl⟩ := List.getElem?_eq_some_iff.mp hk
      exact List.getElem_cons_eraseIdx_perm hlt
    have hmsg := (h.mid env.toId).net env (List.mem_of_getElem? hk)
    have hmid : Mid ids a { s with network := s.network.eraseIdx k } [env] env.toId :=
      (h.mid env.toId).of_pool rfl rfl rfl (fun e he => hperm.mem_iff.mp he)
        fun c p u => (hperm.countP_eq _).le
    refine ⟨hmsg.2.1, [env], h.synced hmsg.2.1 hmid rfl ?_ rfl, ⟨rfl, hmsg⟩, rfl⟩
    exact fun p u => (hperm.countP_eq _).le

/-! ### Steps -/

/-- A handler that has finished leaves a related cluster. -/
theorem Synced.settle (h : Synced ids a₀ s i held a n) (hstart : Le Spec.start a) :
    Rel ids a (s.settle i n) := by
  have hmid := h.run.mid.forget
  have hnet : ∀ p u, tokens i p u (s.perform i n.effects).network ≤
      tokens i p u (held ++ (s.perform i n.effects).network) := by
    intro p u
    rw [tokens_append]
    exact Nat.le_add_left _ _
  have hmid' : Mid ids a (s.settle i n) [] i := by
    refine ⟨hmid.inv, hmid.disk, hmid.net, hmid.tok, hmid.trace, fun j hj hne => ?_⟩
    change NodeOk ids a (s.perform i n.effects).network (s.perform i n.effects).trace j
        (Function.update (s.perform i n.effects).node i _ j) ∧
      (Function.update (s.perform i n.effects).node i _ j).effects = []
    rw [Function.update_of_ne hne]
    exact hmid.nodes j hj hne
  refine Rel.of_mid hstart hmid' fun _ => ?_
  change NodeOk ids a (s.perform i n.effects).network (s.perform i n.effects).trace i
      (Function.update (s.perform i n.effects).node i { n with effects := [] } i) ∧
    (Function.update (s.perform i n.effects).node i { n with effects := [] } i).effects = []
  rw [Function.update_self]
  exact ⟨(h.node.of_effects []).world hnet fun _ _ hl => hl, rfl⟩

section Steps

variable [RaftStateMachine S C O]

/-- **The step lemma.** -/
theorem Rel.step (h : Rel ids a s) (hnd : ids.Nodup) (hs : Cluster.Step ids machine s t) :
    ∃ a', Rel ids a' t ∧ Le a a' := by
  obtain ⟨action, hs⟩ := hs
  rcases Cluster.exec_cases hs with ⟨source, i, input, u, node, -, ho, hnode, rfl⟩ |
    ⟨i, -, -, rfl⟩ | ⟨source, done, i, input, u, node, -, ho, hnode, rfl⟩ | ⟨k, -, -, rfl⟩
  · obtain ⟨hi, held, hsync, hin, -⟩ := h.offered ho
    obtain ⟨n', a', held', hn', hs', -⟩ := hsync.handle hnd hi hin
    obtain rfl := Except.ok.inj (hnode.symm.trans hn')
    have hle := hs'.run.moves.frame.le
    exact ⟨a', hs'.settle (h.start.trans hle), hle⟩
  · exact ⟨a, (h.mid i).restart h.start, Le.refl a⟩
  · obtain ⟨hi, held, hsync, hin, -⟩ := h.offered ho
    obtain ⟨n', a', held', hn', hs', -⟩ := hsync.handle hnd hi hin
    obtain rfl := Except.ok.inj (hnode.symm.trans hn')
    -- the term log of the prefix that was done
    obtain ⟨a'', hm, hmid⟩ := hs'.run.crash done
    exact ⟨a'', hmid.restart (h.start.trans hm.frame.le), hm.frame.le⟩
  · have hsub := List.eraseIdx_sublist (l := s.network) (k := k)
    have htok : ∀ c p u, tokens c p u (s.network.eraseIdx k) ≤ tokens c p u s.network :=
      fun c p u => hsub.countP_le
    refine ⟨a, ⟨h.start, fun j => (h.mid j).of_pool rfl rfl rfl
      (fun env henv => hsub.subset henv) htok, fun j hj => ?_⟩, Le.refl a⟩
    exact ⟨(h.nodes j hj).1.world (fun p u => htok j p u) fun _ _ hl => hl, (h.nodes j hj).2⟩

/-- **The run lemma.** -/
theorem Rel.steps (h : Rel ids a s) (hnd : ids.Nodup) (hs : Cluster.Steps ids machine s t) :
    ∃ a', Rel ids a' t ∧ Le a a' := by
  induction hs with
  | refl => exact ⟨a, h, Le.refl a⟩
  | tail _ hstep ih =>
    obtain ⟨a₁, h₁, hle₁⟩ := ih
    obtain ⟨a₂, h₂, hle₂⟩ := h₁.step hnd hstep
    exact ⟨a₂, h₂, hle₁.trans hle₂⟩

theorem Cluster.Reachable.rel (h : Cluster.Reachable ids machine s) (hnd : ids.Nodup) :
    ∃ a, Rel ids a s := by
  obtain ⟨a, ha, -⟩ := (Rel.init ids machine).steps hnd h
  exact ⟨a, ha⟩

end Steps

end Raft
end KvRaft
