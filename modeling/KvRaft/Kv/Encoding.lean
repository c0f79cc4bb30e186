import KvRaft.Kv.BranchSpec

/-!
# Pages decode to what was encoded

A page built from a list of pairs, or of branch entries, reads back as that list. The only
condition is room: a header, and for every pair an entry and its data, for every branch
entry a record and its key. Nothing is asked of the order of the keys, of the bytes the
buffer held before, or of the assertions compiled in.
-/

namespace KvRaft.Kv

open Bytes Ordered

variable {env : Env} {page : Bytes}

/-- What a reader of a leaf that lists `es` returns. -/
structure LeafDecodes (page : Bytes) (reader : LeafPage) (es : List LeafEntry) : Prop where
  kind : NodeKind.parse page = .ok .leaf
  fromPage : LeafPage.fromPage page = .ok reader
  kvPairs : reader.kvPairs = .ok es
  /-- Keys in order are found by the search. -/
  getValue : Sorted es → ∀ k, ∃ o, reader.getValue k = .ok o ∧ ∀ v, o = some v ↔ (k, v) ∈ es

/-- What a reader of a branch with the entries `es` returns. -/
structure BranchDecodes (page : Bytes) (reader : BranchPage) (es : List BranchEntry) :
    Prop where
  kind : NodeKind.parse page = .ok .branch
  fromPage : BranchPage.fromPage page = .ok reader
  entries : reader.branchEntries = .ok es

/-- In a list without a key twice, the map says what is in the list. -/
theorem contents_eq_some_iff {es : List LeafEntry} (hes : Sorted es) (k : Key) (v : Value) :
    contents es k = some v ↔ (k, v) ∈ es :=
  ⟨mem_of_contents, fun h => contents_of_mem_of_nodup hes.nodup_keys h⟩

theorem LeafLists.decodes {ms : List LeafEntryMetadata} {es : List LeafEntry}
    (h : LeafLists page ms es) :
    LeafDecodes page ⟨readPod LeafHeader page 0, ms, page⟩ es where
  kind := h.parse
  fromPage := h.fromPage
  kvPairs := h.kvPairs _
  getValue := fun hsorted k =>
    ⟨contents es k, (h.leaf hsorted).getValue _ k, contents_eq_some_iff hsorted k⟩

theorem BranchHolds.decodes {ms : List BranchEntryMetadata} {es : List BranchEntry}
    (h : BranchHolds page ms es) :
    BranchDecodes page ⟨readPod BranchHeader page 0, ms, page⟩ es where
  kind := h.parse
  fromPage := h.fromPage
  entries := h.branchEntries _

/-- **Node pages decode to what was encoded**, whatever the buffer held before: a leaf to
the list of its pairs, a branch to the list of its entries with the empty key for
entry 0. -/
theorem built_pages_decode (env : Env) (page : Bytes) (hsmall : page.length < 2 ^ 63) :
    (∀ es : List LeafEntry,
      24 + (es.map fun e => 32 + e.1.length + e.2.length).sum ≤ page.length →
      ∃ page' reader, LeafBuilder.buildEntriesAtBuf env es page = .ok page' ∧
        LeafDecodes page' reader es) ∧
    ∀ es : List BranchEntry, es ≠ [] →
      24 + 40 * es.length + (es.tail.map fun e => e.1.length).sum ≤ page.length →
      ∃ page' reader, BranchBuilder.buildEntriesAtBuf env es page = .ok page' ∧
        BranchDecodes page' reader (withoutFirstKey es) := by
  refine ⟨fun es hfit => ?_, fun es _ hfit => ?_⟩
  · obtain ⟨page', hrun, -, ms, hlists⟩ := buildEntriesAtBuf_ok env hsmall hfit
    exact ⟨page', _, hrun, hlists.decodes⟩
  · rw [Nat.add_assoc, ← branchSize_withoutFirstKey] at hfit
    obtain ⟨page', hrun, -, ms, hholds⟩ := buildBranchAtBuf_ok env hsmall hfit
    exact ⟨page', _, hrun, hholds.decodes⟩

/-- Two pairs, the second without a value, fill a buffer of old bytes to the last one. -/
theorem built_pages_decode_exact :
    ∃ page' reader, LeafBuilder.buildEntriesAtBuf ⟨fun _ => 0, true⟩ [([3], [1, 2]), ([5, 5], [])]
        (List.replicate 93 255) = .ok page' ∧
      LeafDecodes page' reader [([3], [1, 2]), ([5, 5], [])] :=
  (built_pages_decode ⟨fun _ => 0, true⟩ (List.replicate 93 255) (by decide)).1 _ (by decide)

end KvRaft.Kv
