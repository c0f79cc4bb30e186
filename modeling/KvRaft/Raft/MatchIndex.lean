import KvRaft.Raft.CommitCap

/-!
# `match_index` tells the truth

What a leader counts rests on answers that were sent earlier, to requests built from a
shorter log, by peers that may have crashed since. It stays true because an answer of term
`T` records an acknowledgement of a prefix of the log of the reign of `T`, and a node that is
still in term `T` has not adopted from a later reign: its log, in memory and saved, keeps the
prefix (`Inv.log_of_acked`). The log of the leader only grows in the meantime.

The map has an entry for every peer from the moment the leader is crowned
(`Cluster.Reachable.matchIndex_total`); index 0, the value it starts with, is the `NoOp` that
all logs share.
-/

namespace KvRaft
namespace Raft

open TermLog

variable {C O S : Type}
variable {ids : List NodeId} {a : Spec C} {s t : Cluster C O S} {l p : NodeId} {machine : S}
  {nextIndex matchIndex : PeerMap}

/-- As long as `p` is in the term of `l`, its log, in memory and saved, agrees with the log of
`l` on the indices up to `index`. -/
def Cluster.AgreesUpTo (s : Cluster C O S) (l p : NodeId) (index : ℕ) : Prop :=
  (s.node p).currentTerm = (s.node l).currentTerm → ∀ k ≤ index,
    (s.node p).log[k]? = (s.node l).log[k]? ∧ (s.saved p).log[k]? = (s.node l).log[k]?

/-- A prefix of the leader's log that a node acknowledged, or the first entry, is in the log
of the node. -/
theorem Rel.agreesUpTo (h : Rel ids a s) (hl : l ∈ ids) (hp : p ∈ ids)
    {r : TermLog.Reign NodeId (LogEntry C)} (hr : a.reign (s.node l).currentTerm = some r)
    (hlog : r.log = (s.node l).log) {index : ℕ}
    (hack : index = 0 ∨ index + 1 ≤ a.acked p (s.node l).currentTerm) :
    index < (s.node l).log.length ∧ s.AgreesUpTo l p index := by
  have hinv := (h.mid p).inv
  have hterm : a.term p = (s.node p).currentTerm := (h.nodes p hp).1.disk.term
  have hdisk : a.log p = (s.node p).log := (h.nodes p hp).1.disk.log
  have hsaved : a.log p = (s.saved p).log := ((h.mid p).disk p).log
  have hfirst : (s.node l).log[0]? = some ⟨0, .noOp⟩ := by
    have hown : a.log l = (s.node l).log := (h.nodes l hl).1.disk.log
    rw [← hown]
    exact log_first hinv h.start hl l
  have hlen : index < (s.node l).log.length := by
    rcases hack with rfl | hack
    · exact (h.nodes l hl).1.log_pos
    · have hle := hinv.acked_len p _ r hr
      rw [hlog] at hle
      omega
  refine ⟨hlen, fun hsame k hk => ?_⟩
  -- the durable log of `p` agrees, and memory and storage both hold it
  have hagree : (a.log p)[k]? = (s.node l).log[k]? := by
    rcases hack with rfl | hack
    · obtain rfl : k = 0 := Nat.le_zero.mp hk
      rw [hfirst]
      exact log_first hinv h.start hl p
    · rw [← hsame, ← hterm] at hr hack
      rw [← hlog]
      exact getElem?_of_take_eq (hinv.log_of_acked hr hack) (Nat.lt_succ_of_le hk)
  exact ⟨hdisk ▸ hagree, hsaved ▸ hagree⟩

variable [RaftStateMachine S C O]

/-- A leader has an entry in `match_index` for every peer. -/
theorem Cluster.Reachable.matchIndex_total (h : Cluster.Reachable ids machine s)
    (hnd : ids.Nodup) : ∀ l ∈ ids, ∀ nextIndex matchIndex,
      (s.node l).role = .leader nextIndex matchIndex → ∀ p ∈ ids, p ≠ l →
        ∃ x, matchIndex.lookup p = some x := by
  induction h with
  | refl => exact fun l _ _ _ hrole => absurd hrole (by simp [Cluster.init, RaftNode.new])
  | @tail s t hs hst ih =>
    intro l hl nextIndex matchIndex hrole p hp hpl
    obtain ⟨a, ha⟩ := Cluster.Reachable.rel (s := s) hs hnd
    obtain ⟨action, hact⟩ := hst
    rcases Cluster.exec_node_cases hact l with hsame | ⟨source, input, u, node, -, ho, hn, rfl⟩ |
      ⟨stored, hnew⟩
    · exact ih l hl _ _ (hsame ▸ hrole) p hp hpl
    · rw [Cluster.settle_node_self] at hrole
      have hpeer : p ∈ (s.node l).peerIds := (ha.nodes l hl).1.mem_peers.mpr ⟨hp, hpl⟩
      have hstart := Cluster.offer_node ho
      cases (handle_outcome hn).leads _ _ hrole with
      | kept es hrole₀ => exact ih l hl _ _ (hstart ▸ hrole₀) p hp hpl
      | crowned _ _ _ _ hmatch => exact ⟨0, by rw [hmatch, hstart, if_pos hpeer]⟩
      | counted q msg next₀ match₀ _ _ hrole₀ _ _ hmaps =>
        obtain ⟨x, hx⟩ := ih l hl _ _ (hstart ▸ hrole₀) p hp hpl
        unfold countAnswer at hmaps
        split at hmaps
        · obtain ⟨-, rfl⟩ := Prod.mk.inj hmaps
          by_cases hpq : p = q
          · exact ⟨_, by rw [hpq, AList.lookup_insert]⟩
          · exact ⟨x, by rw [AList.lookup_insert_ne hpq, hx]⟩
        · obtain ⟨-, rfl⟩ := Prod.mk.inj hmaps
          exact ⟨x, hx⟩
    · rw [hnew] at hrole
      exact absurd hrole (by simp [RaftNode.new])

/-- **`match_index` tells the truth.** In every reachable cluster, what a leader of term `T`
has in `match_index` for a peer is an index of its log, and the peer, if it is in term `T`,
has the entries of the leader up to there, in memory and saved. So is every success answer
of term `T` that is still on its way to the leader. -/
theorem match_index_truthful (hnd : ids.Nodup) (h : Cluster.Reachable ids machine s)
    (hl : l ∈ ids) (hrole : (s.node l).role = .leader nextIndex matchIndex) :
    (∀ p ∈ ids, p ≠ l → ∃ x, matchIndex.lookup p = some x ∧ x < (s.node l).log.length ∧
      s.AgreesUpTo l p x) ∧
    ∀ env ∈ s.network, env.toId = l → ∀ msg, env.message = .appendResponse msg →
      msg.success = true → msg.term = (s.node l).currentTerm →
      msg.matchIndex < (s.node l).log.length ∧ s.AgreesUpTo l env.fromId msg.matchIndex := by
  obtain ⟨a, ha⟩ := h.rel hnd
  have hlead := (ha.nodes l hl).1.role
  unfold RoleOk at hlead
  rw [hrole] at hlead
  obtain ⟨⟨r, hr, -, hlog⟩, -, -, hmatch, -⟩ := hlead
  refine ⟨fun p hp hpl => ?_, fun env henv hto msg hmsg hsuccess hterm => ?_⟩
  · obtain ⟨x, hx⟩ := h.matchIndex_total hnd l hl _ _ hrole p hp hpl
    exact ⟨x, hx, ha.agreesUpTo hl hp hr hlog (hmatch p x hx).2⟩
  · obtain ⟨hfrom, -, -, hok⟩ := (ha.mid l).net env henv
    rw [hmsg] at hok
    obtain ⟨-, -, -, hack⟩ := hok.1 hsuccess
    exact ha.agreesUpTo hl hfrom hr hlog (Or.inr (hterm ▸ hack))

theorem match_index_truthful_commitInFlight :
    ∃ nextIndex matchIndex, (commitInFlight.node 1).role = .leader nextIndex matchIndex ∧
      (∀ p ∈ [1, 2, 3], p ≠ 1 → ∃ x, matchIndex.lookup p = some x ∧
        x < (commitInFlight.node 1).log.length ∧ commitInFlight.AgreesUpTo 1 p x) ∧
      ∀ env ∈ commitInFlight.network, env.toId = 1 → ∀ msg,
        env.message = .appendResponse msg → msg.success = true →
        msg.term = (commitInFlight.node 1).currentTerm →
        msg.matchIndex < (commitInFlight.node 1).log.length ∧
          commitInFlight.AgreesUpTo 1 env.fromId msg.matchIndex := by
  have hlead : (commitInFlight.node 1).role.isLeader = true := by decide +kernel
  cases hrole : (commitInFlight.node 1).role with
  | leader nextIndex matchIndex =>
    exact ⟨nextIndex, matchIndex, rfl,
      match_index_truthful (by decide) reachable_commitInFlight (by decide) hrole⟩
  | follower leader =>
    rw [hrole] at hlead
    exact absurd hlead (by simp [Role.isLeader])
  | candidate votes =>
    rw [hrole] at hlead
    exact absurd hlead (by simp [Role.isLeader])

end Raft
end KvRaft
