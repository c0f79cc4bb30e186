import KvRaft.Raft.Safety

/-!
# The terms of a log are ordered

A log is spliced from a kept prefix, an overlap of equal terms and a suffix of another
node's log, so nothing in `append_request` itself says that its terms do not decrease. They
do not because every log that occurs is, entry by entry, a prefix of the log of some reign
(`Grounded`), and reigns only append entries of their own term to a log of earlier terms.

A request carries a piece of the log of the reign of its term, the entry at
`prev_log_index` included, so the same holds of what is in flight.
-/

namespace KvRaft
namespace Raft

open TermLog

variable {C O S : Type}
variable {ids : List NodeId} {a a' : Spec C} {s t : Cluster C O S} {i : NodeId} {machine : S}

/-- What the comparison of a vote and the commit rule rely on: a log starts with the `NoOp`
of term `0`, its terms do not decrease, and none is beyond the current term. -/
structure TermsOrdered (term : ℕ) (log : List (LogEntry C)) : Prop where
  first : log[0]? = some ⟨0, .noOp⟩
  sorted : (log.map LogEntry.term).Pairwise (· ≤ ·)
  le : ∀ e ∈ log, e.term ≤ term

theorem terms_of_sorted {l : List (LogEntry C)} (h : TermLog.Sorted l) :
    (l.map LogEntry.term).Pairwise (· ≤ ·) :=
  List.pairwise_map.mpr h

/-- What is durable in a term log is ordered. -/
theorem DiskOk.termsOrdered {st : PersistentState C} (h : DiskOk a st i)
    (hinv : Inv (quorums ids) a) (hstart : Le Spec.start a) (hi : i ∈ ids) :
    TermsOrdered st.currentTerm st.log := by
  rw [← h.term, ← h.log]
  refine ⟨log_first hinv hstart hi i, ?_, hinv.log_term i⟩
  exact terms_of_sorted ((hinv.log_grounded i).sorted hinv.reign_sorted)

/-- The entry at `prev_log_index` and the entries of a request are a piece of the log of the
reign of its term. -/
theorem MsgOk.within_reign {p q : NodeId} {msg : AppendRequest C}
    (h : MsgOk ids a ⟨p, q, .appendRequest msg⟩) :
    ∃ r e, a.reign msg.term = some r ∧ e.term = msg.prevLogTerm ∧
      e :: msg.entries <:+: r.log := by
  obtain ⟨-, -, -, -, r, hr, -, ⟨e, he, heterm⟩, hentries, -⟩ := h
  refine ⟨r, e, hr, heterm, ?_⟩
  -- the piece starts at `prev_log_index`
  have hpiece : e :: msg.entries <+: r.log.drop msg.prevLogIndex := by
    obtain ⟨hlt, hget⟩ := List.getElem?_eq_some_iff.mp he
    rw [List.drop_eq_getElem_cons hlt]
    change r.log[msg.prevLogIndex] = e at hget
    rw [hget]
    exact List.cons_prefix_cons.mpr ⟨rfl, hentries⟩
  exact hpiece.isInfix.trans (List.drop_suffix _ _).isInfix

theorem Rel.request_terms (h : Rel ids a s) {env : Envelope C} (henv : env ∈ s.network)
    {msg : AppendRequest C} (hmsg : env.message = .appendRequest msg) :
    (msg.prevLogTerm :: msg.entries.map LogEntry.term).Pairwise (· ≤ ·) ∧
      ∀ t ∈ msg.prevLogTerm :: msg.entries.map LogEntry.term, t ≤ msg.term := by
  have hok := (h.mid 0).net env henv
  obtain ⟨p, q, message⟩ := env
  obtain rfl : message = .appendRequest msg := hmsg
  obtain ⟨r, e, hr, heterm, hwithin⟩ := hok.within_reign
  have hterms : msg.prevLogTerm :: msg.entries.map LogEntry.term =
      (e :: msg.entries).map LogEntry.term := by
    rw [List.map_cons, heterm]
  rw [hterms]
  refine ⟨?_, fun t ht => ?_⟩
  · exact (terms_of_sorted ((h.mid 0).inv.reign_sorted _ r hr)).sublist (hwithin.sublist.map _)
  · obtain ⟨x, hx, rfl⟩ := List.mem_map.mp ht
    exact (h.mid 0).inv.reign_term _ r hr x (hwithin.subset hx)

variable [RaftStateMachine S C O]

/-- **Log terms are ordered.** In every reachable cluster the log of every node, in memory
and saved, starts with the `NoOp` of term `0` and has terms that do not decrease and do not
exceed the current term; so has what every request in flight carries, with respect to the
term of the request; and in whatever way the run goes on, no current term decreases. -/
theorem log_terms_ordered (hnd : ids.Nodup) (h : Cluster.Reachable ids machine s) :
    (∀ i ∈ ids, TermsOrdered (s.node i).currentTerm (s.node i).log ∧
      TermsOrdered (s.saved i).currentTerm (s.saved i).log) ∧
    (∀ env ∈ s.network, ∀ msg, env.message = .appendRequest msg →
      (msg.prevLogTerm :: msg.entries.map LogEntry.term).Pairwise (· ≤ ·) ∧
        ∀ t ∈ msg.prevLogTerm :: msg.entries.map LogEntry.term, t ≤ msg.term) ∧
    ∀ t, Cluster.Steps ids machine s t → ∀ i ∈ ids,
      (s.node i).currentTerm ≤ (t.node i).currentTerm ∧
        (s.saved i).currentTerm ≤ (t.saved i).currentTerm := by
  obtain ⟨a, ha⟩ := h.rel hnd
  refine ⟨fun i hi => ⟨?_, ?_⟩, fun env henv msg hmsg => ha.request_terms henv hmsg,
    fun t hst i hi => ?_⟩
  · exact (ha.nodes i hi).1.disk.termsOrdered (ha.mid i).inv ha.start hi
  · exact ((ha.mid i).disk i).termsOrdered (ha.mid i).inv ha.start hi
  · -- memory and storage both hold the term of the term log, which only grows
    obtain ⟨a', ha', hle⟩ := ha.steps hnd hst
    refine ⟨?_, ?_⟩
    · have hs : a.term i = (s.node i).currentTerm := (ha.nodes i hi).1.disk.term
      have ht : a'.term i = (t.node i).currentTerm := (ha'.nodes i hi).1.disk.term
      exact hs ▸ ht ▸ hle.term i
    · have hs := ((ha.mid i).disk i).term
      have ht := ((ha'.mid i).disk i).term
      exact hs ▸ ht ▸ hle.term i

theorem log_terms_ordered_afterTwoTerms :
    (∀ i ∈ [1, 2, 3], TermsOrdered (afterTwoTerms.node i).currentTerm (afterTwoTerms.node i).log ∧
      TermsOrdered (afterTwoTerms.saved i).currentTerm (afterTwoTerms.saved i).log) ∧
    (∀ env ∈ afterTwoTerms.network, ∀ msg, env.message = .appendRequest msg →
      (msg.prevLogTerm :: msg.entries.map LogEntry.term).Pairwise (· ≤ ·) ∧
        ∀ t ∈ msg.prevLogTerm :: msg.entries.map LogEntry.term, t ≤ msg.term) ∧
    ∀ t, Cluster.Steps [1, 2, 3] ⟨0⟩ afterTwoTerms t → ∀ i ∈ [1, 2, 3],
      (afterTwoTerms.node i).currentTerm ≤ (t.node i).currentTerm ∧
        (afterTwoTerms.saved i).currentTerm ≤ (t.saved i).currentTerm :=
  log_terms_ordered (by decide) reachable_afterTwoTerms

end Raft
end KvRaft
