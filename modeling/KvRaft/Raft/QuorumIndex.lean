import KvRaft.Raft.Handlers
import KvRaft.Ordered.Rank

/-!
# The commit rule is an order statistic

`advance_commit` looks at one index after the other, from the end of the log down, counts
the peers that reached it, and skips entries of earlier terms. What it finds can be read off
the progress of the members alone: of `n` members a majority reached an index exactly when
the index is at most the `(n / 2 + 1)`-th largest progress, `quorumIndex`.

The skipped entries do not matter for the same reason that makes them worth skipping: the
terms of a log do not decrease. If the entry at `quorumIndex` is of an earlier term, so is
every entry below it, and the scan ends without a find.
-/

namespace KvRaft
namespace Raft

open Ordered

variable {C O S : Type} {n : RaftNode C O S} {nextIndex matchIndex : PeerMap} {q : ℕ}

/-- How far each member of the cluster is known to have come: the leader itself to the end of
its log, the peers as `match_index` says. -/
def progress (n : RaftNode C O S) (matchIndex : PeerMap) : Multiset ℕ :=
  (n.log.length - 1) ::ₘ (matchIndex.entries.map Sigma.snd : List ℕ)

/-- The `(n / 2 + 1)`-th largest progress in a cluster of `n` members. -/
def quorumIndex (n : RaftNode C O S) (matchIndex : PeerMap) : Option ℕ :=
  kthLargest (progress n matchIndex) ((n.peerIds.length + 1) / 2)

/-- A map with the peers as its keys has one value for each. -/
theorem card_progress (hpeers : n.peerIds.Nodup) (hkeys : ∀ p, p ∈ matchIndex ↔ p ∈ n.peerIds) :
    (progress n matchIndex).card = n.peerIds.length + 1 := by
  have hperm : matchIndex.keys.Perm n.peerIds := by
    rw [List.perm_ext_iff_of_nodup matchIndex.keys_nodup hpeers]
    exact fun p => AList.mem_keys.symm.trans (hkeys p)
  have hlen : (matchIndex.entries.map Sigma.snd).length = n.peerIds.length := by
    rw [← hperm.length_eq, List.length_map]
    exact (List.length_map _).symm
  rw [progress, Multiset.card_cons, Multiset.coe_card, hlen]

/-- Some member has come exactly as far as the quorum index. -/
theorem exists_quorumIndex (hpeers : n.peerIds.Nodup)
    (hkeys : ∀ p, p ∈ matchIndex ↔ p ∈ n.peerIds) :
    ∃ q ∈ progress n matchIndex, quorumIndex n matchIndex = some q := by
  refine exists_kthLargest ?_
  rw [card_progress hpeers hkeys]
  omega

/-- **The majority threshold**: inside the log, the leader and the peers that reached an index
are a majority exactly when the index is at most the quorum index. -/
theorem hasMajority_iff_le_quorumIndex (hq : quorumIndex n matchIndex = some q) {index : ℕ}
    (hlt : index < n.log.length) :
    hasMajority ((matchIndex.entries.map Sigma.snd).countP
      (fun matchIdx => decide (index ≤ matchIdx)) + 1) (n.peerIds.length + 1) = true ↔
      index ≤ q := by
  rw [le_kthLargest_iff hq index, progress,
    Multiset.countP_cons_of_pos _ (show index ≤ n.log.length - 1 by omega), Multiset.coe_countP,
    hasMajority, decide_eq_true_eq]

/-- Above an entry of the current term there are only entries of the current term. -/
theorem term_eq_of_le (hterms : (n.log.map LogEntry.term).Pairwise (· ≤ ·))
    (hle : ∀ e ∈ n.log, e.term ≤ n.currentTerm) {k : ℕ} (hk : k ≤ q) (hq : q < n.log.length)
    (hterm : n.log[k]?.map LogEntry.term = some n.currentTerm) :
    n.log[q]?.map LogEntry.term = some n.currentTerm := by
  rw [List.getElem?_eq_getElem hq, Option.map_some, Option.some_inj]
  rw [List.getElem?_eq_getElem (hk.trans_lt hq), Option.map_some, Option.some_inj] at hterm
  refine le_antisymm (hle _ (List.getElem_mem hq)) ?_
  rcases hk.eq_or_lt with rfl | hlt
  · exact hterm.ge
  · have hpair := List.pairwise_iff_getElem.mp hterms k q
      (by rw [List.length_map]; omega) (by rw [List.length_map]; exact hq) hlt
    rw [List.getElem_map, List.getElem_map, hterm] at hpair
    exact hpair

/-- The values of the map are indices of the log, hence so is the quorum index. -/
theorem quorumIndex_lt_length (hq : q ∈ progress n matchIndex) (hpos : 0 < n.log.length)
    (hvalues : ∀ p x, matchIndex.lookup p = some x → x < n.log.length) : q < n.log.length := by
  rcases Multiset.mem_cons.mp hq with rfl | hmem
  · omega
  · obtain ⟨entry, hentry, rfl⟩ := List.mem_map.mp (Multiset.mem_coe.mp hmem)
    exact hvalues entry.fst entry.snd (AList.mem_lookup_iff.mpr hentry)

/-- The scan of `advance_commit` finds the quorum index if it may be committed, and nothing
otherwise. -/
theorem find_committable (hq : quorumIndex n matchIndex = some q) (hlt : q < n.log.length)
    (hterms : (n.log.map LogEntry.term).Pairwise (· ≤ ·))
    (hle : ∀ e ∈ n.log, e.term ≤ n.currentTerm) :
    (List.range' (n.commitIndex + 1) (n.log.length - (n.commitIndex + 1))).reverse.find?
        (committable n matchIndex) =
      if n.commitIndex < q ∧ n.log[q]?.map LogEntry.term = some n.currentTerm then some q
      else none := by
  have hmem : ∀ {k}, k ∈ (List.range' (n.commitIndex + 1)
      (n.log.length - (n.commitIndex + 1))).reverse ↔ n.commitIndex < k ∧ k < n.log.length := by
    intro k
    rw [List.mem_reverse, List.mem_range'_1]
    omega
  by_cases hcommit : n.commitIndex < q ∧ n.log[q]?.map LogEntry.term = some n.currentTerm
  · rw [if_pos hcommit]
    refine find_eq_of_greatest ?_ (hmem.mpr ⟨hcommit.1, hlt⟩) ?_ fun k hk hck => ?_
    · exact List.pairwise_reverse.mpr List.pairwise_lt_range'
    · exact committable_iff.mpr
        ⟨hcommit.2, (hasMajority_iff_le_quorumIndex hq hlt).mpr le_rfl⟩
    · exact (hasMajority_iff_le_quorumIndex hq (hmem.mp hk).2).mp (committable_iff.mp hck).2
  · rw [if_neg hcommit, List.find?_eq_none]
    intro k hk hck
    obtain ⟨hterm, hmaj⟩ := committable_iff.mp hck
    -- a find below the quorum index would make the quorum index itself of the current term
    have hkq : k ≤ q := (hasMajority_iff_le_quorumIndex hq (hmem.mp hk).2).mp hmaj
    exact hcommit ⟨(hmem.mp hk).1.trans_le hkq, term_eq_of_le hterms hle hkq hlt hterm⟩

/-- **`advance_commit` commits the quorum index**: in a leader whose `match_index` has its
peers as keys and indices of the log as values, with terms that do not decrease, the commit
index moves to the `(n / 2 + 1)`-th largest progress if this is an advance to an entry of the
current term, and stays where it is otherwise. -/
theorem advanceCommit_eq_quorumIndex (hrole : n.role = .leader nextIndex matchIndex)
    (hpeers : n.peerIds.Nodup) (hkeys : ∀ p, p ∈ matchIndex ↔ p ∈ n.peerIds)
    (hvalues : ∀ p x, matchIndex.lookup p = some x → x < n.log.length)
    (hterms : (n.log.map LogEntry.term).Pairwise (· ≤ ·))
    (hle : ∀ e ∈ n.log, e.term ≤ n.currentTerm) :
    ∃ q, quorumIndex n matchIndex = some q ∧
      n.advanceCommit = .ok
        (if n.commitIndex < q ∧ n.log[q]?.map LogEntry.term = some n.currentTerm then
          { n with commitIndex := q }.emit (.committed n.currentTerm q n.log)
        else n) := by
  obtain ⟨q, hmem, hq⟩ := exists_quorumIndex hpeers hkeys
  refine ⟨q, hq, ?_⟩
  have hinside : ∀ k ∈ (List.range' (n.commitIndex + 1)
      (n.log.length - (n.commitIndex + 1))).reverse, k < n.log.length := by
    intro k hk
    rw [List.mem_reverse, List.mem_range'_1] at hk
    omega
  have hscan := findCommit_eq matchIndex hinside
  simp only [RaftNode.advanceCommit, hrole, hscan, bind, Except.bind]
  rcases Nat.eq_zero_or_pos n.log.length with hnil | hpos
  · -- without a log there is nothing to scan
    rw [hnil, Nat.zero_sub]
    have hnone : n.log[q]? = none := List.getElem?_eq_none (by omega)
    simp [hnone]
  · rw [find_committable hq (quorumIndex_lt_length hmem hpos hvalues) hterms hle]
    by_cases hcommit : n.commitIndex < q ∧ n.log[q]?.map LogEntry.term = some n.currentTerm
    · rw [if_pos hcommit, if_pos hcommit]
    · rw [if_neg hcommit, if_neg hcommit]

/-- A leader of three members; one peer has the whole log, the other is at index 0. -/
def halfReplicated : RaftNode ℕ ℕ ℕ :=
  { RaftNode.new 1 [1, 2, 3] 0 (some ⟨2, some 1, [⟨0, .noOp⟩, ⟨1, .command 5⟩, ⟨2, .noOp⟩]⟩) with
    role := .leader ∅ (((∅ : PeerMap).insert 2 2).insert 3 0) }

theorem advanceCommit_eq_quorumIndex_halfReplicated :
    ∃ q, quorumIndex halfReplicated (((∅ : PeerMap).insert 2 2).insert 3 0) = some q ∧
      halfReplicated.advanceCommit = .ok
        (if halfReplicated.commitIndex < q ∧
            halfReplicated.log[q]?.map LogEntry.term = some halfReplicated.currentTerm then
          { halfReplicated with commitIndex := q }.emit (.committed 2 q halfReplicated.log)
        else halfReplicated) :=
  advanceCommit_eq_quorumIndex rfl (by decide)
    (fun p => by
      rw [AList.mem_insert, AList.mem_insert]
      simp [halfReplicated, RaftNode.new, or_comm])
    (fun p x hx => by
      by_cases h3 : p = 3
      · rw [h3, AList.lookup_insert] at hx
        exact Option.some.inj hx ▸ by decide
      · rw [AList.lookup_insert_ne h3] at hx
        by_cases h2 : p = 2
        · rw [h2, AList.lookup_insert] at hx
          exact Option.some.inj hx ▸ by decide
        · rw [AList.lookup_insert_ne h2] at hx
          exact absurd hx (by simp))
    (by decide) (by decide)

end Raft
end KvRaft
