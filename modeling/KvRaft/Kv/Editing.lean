import KvRaft.Kv.Encoding

/-!
# Editing in place is rebuilding

Each kind of page has two implementations of an insertion: the mutator shifts records and
writes data in the bytes of the page, the builder reads the page into a list and inserts
there. On a well formed page that has room, both come to the same list, and the page
edited is well formed again: `LeafHolds` for a leaf, `BranchWellFormed` for a branch, where
the separators are in order and the key of entry 0 is anything.

On a branch this carries over to the search for a child, which skips entry 0 as the
insertion does, but counts the positions it skipped differently (`Routes`).
-/

namespace KvRaft.Kv

open Bytes Ordered

variable {env : Env} {page : Bytes}

/-! ### Leaves -/

/-- **Editing a leaf in place is rebuilding it**: with the pair new, written over the old
pair, or appended with the old pair left behind. -/
theorem leaf_insert_eq_rebuild {ms : List LeafEntryMetadata} {kvs : List LeafEntry}
    (h : LeafHolds page ms kvs) (key : Key) (value : Value)
    (hfit : LeafPageMutator.fits page key value = .ok true) :
    ∃ page' ms' builder, LeafPageMutator.insert page key value = .ok page' ∧
      LeafBuilder.fromPage page = .ok builder ∧
      LeafHolds page' ms' (builder.insert key value).kvPairs ∧
      LeafBuilder.fromPage page' = .ok (builder.insert key value) ∧
      page'.length = page.length := by
  obtain ⟨page', hrun, hlength, ms', hpage'⟩ := h.insert hfit
  rw [← LeafBuilder.insert_kvPairs] at hpage'
  exact ⟨page', ms', ⟨kvs⟩, hrun, h.builder, hpage', hpage'.builder, hlength⟩

/-- A first pair, in a page that has just been made. -/
theorem leaf_insert_eq_rebuild_first :
    ∃ page page', getEmptyLeafPage ⟨fun _ => 0, true⟩ 4096 = .ok page ∧
      LeafPageMutator.insert page [1] [2, 3] = .ok page' ∧
      LeafBuilder.fromPage page' = .ok ⟨[([1], [2, 3])]⟩ := by
  obtain ⟨page, hmade, -, hholds, hend⟩ :=
    getEmptyLeafPage_ok ⟨fun _ => 0, true⟩ (by decide : 24 ≤ 4096) (by decide)
  obtain ⟨page', ms', builder, hrun, hbuilder, -, hbuilt, -⟩ :=
    leaf_insert_eq_rebuild hholds [1] [2, 3] (by rw [hholds.fits, hend]; decide)
  rw [hholds.builder, Except.ok.injEq] at hbuilder
  subst hbuilder
  exact ⟨page, page', hmade, hrun, hbuilt⟩

/-! ### Branches -/

/-- A branch with at least one entry, whose separators are in order. -/
structure BranchWellFormed (page : Bytes) (cells : List BranchEntry) : Prop where
  ok : BranchOk page cells
  nonempty : cells ≠ []
  sorted : Sorted cells.tail

/-- Entry `i` is the last one whose separator is at most `k`, or entry 0 if there is none. -/
structure Routes (cells : List BranchEntry) (k : Key) (i : ℕ) : Prop where
  bound : i < cells.length
  below : ∀ cell, cells[i]? = some cell → i = 0 ∨ cell.1 ≤ k
  above : ∀ j cell, i < j → cells[j]? = some cell → k < cell.1

/-- The child found for a key is that of the entry the key belongs to. -/
def Searched (page : Bytes) (cells : List BranchEntry) : Prop :=
  ∀ k, ∃ i reader cell, Routes cells k i ∧ cells[i]? = some cell ∧
    BranchPage.fromPage page = .ok reader ∧ reader.childPageIdForKey k = .ok cell.2.1

/-- The separators up to a key are a prefix of the separators in order. -/
theorem routes_childIndex {cells : List BranchEntry} (hne : cells ≠ [])
    (hsorted : Sorted cells.tail) (k : Key) : Routes cells k (childIndex k cells) := by
  obtain ⟨head, tail, rfl⟩ := List.exists_cons_of_ne_nil hne
  rw [List.tail_cons] at hsorted
  induction tail generalizing head with
  | nil =>
    refine ⟨Nat.zero_lt_one, fun cell _ => Or.inl rfl, fun j cell hj hcell => ?_⟩
    rw [List.getElem?_eq_none (by rw [List.length_singleton]; exact hj)] at hcell
    exact absurd hcell (Option.some_ne_none cell).symm
  | cons next rest ih =>
    obtain ⟨hnext, hrest⟩ := sorted_cons.mp hsorted
    by_cases hle : next.1 ≤ k
    · -- the search goes on behind `next`, which takes the place of entry 0
      have hroutes := ih next (List.cons_ne_nil _ _) hrest
      rw [childIndex_cons_cons_of_le hle]
      refine ⟨Nat.succ_lt_succ hroutes.bound, fun cell hcell => Or.inr ?_,
        fun j cell hj hcell => ?_⟩
      · rw [List.getElem?_cons_succ] at hcell
        rcases hroutes.below cell hcell with hzero | hbelow
        · rw [hzero, List.getElem?_cons_zero, Option.some.injEq] at hcell
          exact hcell ▸ hle
        · exact hbelow
      · obtain ⟨j, rfl⟩ : ∃ j', j = j' + 1 := ⟨j - 1, by omega⟩
        rw [List.getElem?_cons_succ] at hcell
        exact hroutes.above j cell (by omega) hcell
    · -- every separator from `next` on is larger
      rw [childIndex_cons_cons_of_lt (not_le.mp hle)]
      refine ⟨Nat.zero_lt_succ _, fun cell _ => Or.inl rfl, fun j cell hj hcell => ?_⟩
      obtain ⟨j, rfl⟩ : ∃ j', j = j' + 1 := ⟨j - 1, by omega⟩
      rw [List.getElem?_cons_succ] at hcell
      rcases List.mem_cons.mp (List.mem_of_getElem? hcell) with rfl | hcell
      · exact not_le.mp hle
      · exact (not_le.mp hle).trans (hnext cell hcell)

theorem BranchWellFormed.searched {cells : List BranchEntry} (h : BranchWellFormed page cells) :
    Searched page cells := by
  intro k
  obtain ⟨ms, hholds⟩ := h.ok
  have hroutes := routes_childIndex h.nonempty h.sorted k
  obtain ⟨cell, hcell⟩ : ∃ cell, cells[childIndex k cells]? = some cell :=
    ⟨_, List.getElem?_eq_getElem hroutes.bound⟩
  exact ⟨_, _, cell, hroutes, hcell, hholds.fromPage,
    hholds.childPageIdForKey _ (by rw [hcell]; rfl)⟩

/-- Inserting into a builder sets the child of the separator, past entry 0. -/
theorem BranchBuilder.insert_eq_upsert (head : BranchEntry) (tail : List BranchEntry) (key : Key)
    (child : Child) :
    BranchBuilder.insert ⟨head :: tail⟩ key child.1 child.2 =
      .ok ⟨head :: upsert key child tail⟩ := by
  have hsearch := binarySearch_bound key (tail.map Prod.fst)
  rw [BranchBuilder.insert, upsert]
  dsimp only
  rw [assert_true (by simp), ok_bind, List.tail_cons]
  rcases hcase : binarySearch key (tail.map Prod.fst) with i | i
  · rfl
  · rw [hcase] at hsearch
    dsimp only at hsearch ⊢
    rw [List.getElem?_map, Option.map_eq_some_iff] at hsearch
    obtain ⟨cell, hcell, hkey⟩ := hsearch
    rw [setChild_succ, setChild, List.modify_eq_set_getElem?, hcell]
    simp [hkey, pure_eq_ok]

/-- Replacing a child leaves the separators in order. -/
theorem sorted_setChild {cells : List BranchEntry} (h : Sorted cells) (i : ℕ) (child : Child) :
    Sorted (setChild cells i child) := by
  rw [Sorted, ← List.pairwise_map (f := Prod.fst) (R := (· < ·)), map_fst_setChild]
  exact List.pairwise_map.mpr h

/-- The bytes of a page after a child has been replaced: only its id and checksum differ. -/
theorem BranchHolds.setChildAtIndex_eq {ms : List BranchEntryMetadata} {cells : List BranchEntry}
    (h : BranchHolds page ms cells) {i : ℕ} (hi : i < cells.length) (child : Child) :
    BranchPageMutator.setChildAtIndex page i child.1 child.2 =
      .ok (splice page (24 + i * 40 + 16) (Pod.encode child.1 ++ Pod.encode child.2)) := by
  have hroom := h.room
  have hbound := h.bound
  rw [h.length] at hi
  have hslots : readPods BranchEntryMetadata page 24 ms.length = ms := h.holds.filled.slots
  have hrecord : readPod BranchEntryMetadata page (24 + i * 40) = ms[i] := by
    have hget := @getElem?_readPods BranchEntryMetadata _ page 24 _ _ hi
    rw [hslots, List.getElem?_eq_getElem hi, Option.some.injEq] at hget
    exact hget.symm
  -- the record written begins with the sizes that are there
  have hfront : slice page (24 + i * 40) 16 =
      Pod.encode ms[i].keySize ++ Pod.encode ms[i].keyOffset := by
    have himage : slice page (24 + i * 40) 40 = Pod.encode ms[i] := by
      rw [← hrecord, readPod, Pod.encode_decode _ (length_slice (by
        rw [size_branchEntryMetadata]; omega))]
      rfl
    have htake : slice page (24 + i * 40) 16 = (slice page (24 + i * 40) 40).take 16 := by
      rw [slice, slice, List.take_take]
      rfl
    have hlength : (Pod.encode ms[i].keySize ++ Pod.encode ms[i].keyOffset).length = 16 := by
      rw [List.length_append, Pod.length_encode, Pod.length_encode]
      rfl
    have hfields : Pod.encode ms[i] = (Pod.encode ms[i].keySize ++ Pod.encode ms[i].keyOffset) ++
        (Pod.encode ms[i].childPageId ++ Pod.encode ms[i].childPageChecksum) := by
      rw [List.append_assoc]
      rfl
    rw [htake, himage, hfields, ← hlength, List.take_left]
  have hdata : (Pod.encode child.1 ++ Pod.encode child.2).length = 24 := by
    rw [List.length_append, Pod.length_encode, Pod.length_encode]
    rfl
  rw [BranchPageMutator.setChildAtIndex, BranchPageMutator.entriesMut, h.mutatorEntries, ok_bind,
    index_of_getElem? (List.getElem?_eq_getElem hi), ok_bind, setAt_of_lt hi, ok_bind,
    size_branchHeader,
    writePods_set hslots (by rw [size_branchEntryMetadata]; omega) hi, writePod,
    size_branchEntryMetadata]
  have hencode : Pod.encode { ms[i] with childPageId := child.1, childPageChecksum := child.2 } =
      slice page (24 + i * 40) 16 ++ (Pod.encode child.1 ++ Pod.encode child.2) := by
    rw [hfront, List.append_assoc]
    rfl
  have hprefix : (slice page (24 + i * 40) 16).length = 16 := length_slice (by omega)
  rw [hencode, ← splice_splice_append (by omega), splice_slice (by omega), hprefix]
  rfl

theorem BranchWellFormed.setChild {cells : List BranchEntry} (h : BranchWellFormed page cells)
    {i : ℕ} (hi : i < cells.length) (child : Child) :
    ∃ page', BranchPageMutator.setChildAtIndex page i child.1 child.2 = .ok page' ∧
      BranchWellFormed page' (Ordered.setChild cells i child) ∧ page'.length = page.length := by
  obtain ⟨ms, hholds⟩ := h.ok
  obtain ⟨page', hrun, hlength, hok⟩ := hholds.setChildAtIndex hi child
  obtain ⟨head, tail, rfl⟩ := List.exists_cons_of_ne_nil h.nonempty
  refine ⟨page', hrun, ⟨hok, ?_, ?_⟩, hlength⟩
  · cases i <;> exact List.cons_ne_nil _ _
  · cases i with
    | zero => exact h.sorted
    | succ i => exact sorted_setChild h.sorted i child

/-- Inserting a separator that fits sets its child, past entry 0. -/
theorem BranchWellFormed.insert {head : BranchEntry} {tail : List BranchEntry}
    (h : BranchWellFormed page (head :: tail)) (env : Env) {key : Key}
    (hfit : BranchPageMutator.fits page key = .ok true) (child : Child) :
    ∃ page', BranchPageMutator.insert env page key child.1 child.2 = .ok page' ∧
      BranchWellFormed page' (head :: upsert key child tail) ∧ page'.length = page.length := by
  obtain ⟨ms, hholds⟩ := h.ok
  have hsorted : Sorted (upsert key child tail) := sorted_upsert h.sorted key child
  have hsearch := binarySearch_bound key (tail.map Prod.fst)
  rcases hcase : binarySearch key (tail.map Prod.fst) with i | i
  · -- a new separator
    rw [hcase] at hsearch
    have hi : i < (head :: tail).length := by
      rw [List.length_map] at hsearch
      exact Nat.lt_succ_of_le hsearch
    obtain ⟨page', hrun, hlength, hok⟩ := hholds.insert env hi hcase hfit child
    have hcells : (head :: tail).insertIdx (i + 1) (key, child) = head :: upsert key child tail := by
      rw [List.insertIdx_succ_cons, upsert, hcase]
    rw [hcells] at hok
    exact ⟨page', hrun, ⟨hok, List.cons_ne_nil _ _, hsorted⟩, hlength⟩
  · -- a separator that is there
    rw [hcase] at hsearch
    dsimp only at hsearch
    rw [List.getElem?_map, Option.map_eq_some_iff] at hsearch
    obtain ⟨cell, hcell, hkey⟩ := hsearch
    obtain ⟨hi, -⟩ := List.getElem?_eq_some_iff.mp hcell
    obtain ⟨page', hrun, hok, hlength⟩ := h.setChild (i := i + 1) (Nat.succ_lt_succ hi) child
    have hcells : Ordered.setChild (head :: tail) (i + 1) child = head :: upsert key child tail := by
      rw [setChild_succ, Ordered.setChild, List.modify_eq_set_getElem?, hcell, upsert, hcase]
      simp [hkey]
    rw [hcells] at hok
    refine ⟨page', ?_, hok, hlength⟩
    rw [BranchPageMutator.insert, hholds.fromPage, ok_bind, BranchPage.searchEntryIndex,
      hholds.separators h.nonempty, ok_bind, List.tail_cons, hcase]
    exact hrun

/-- **Editing a branch in place is rebuilding it.** Inserting a separator that fits makes
the page the builder would make; replacing a child writes the id and the checksum of its
entry and not a byte else; and the child found for a key is that of the last entry whose
separator is at most the key. -/
theorem branch_edit_eq_rebuild (env : Env) {cells : List BranchEntry}
    (h : BranchWellFormed page cells) :
    (∀ key (child : Child), BranchPageMutator.fits page key = .ok true →
      ∃ page' builder builder',
        BranchPageMutator.insert env page key child.1 child.2 = .ok page' ∧
        BranchBuilder.fromPage page = .ok builder ∧
        builder.insert key child.1 child.2 = .ok builder' ∧
        BranchWellFormed page' builder'.branchEntries ∧
        BranchBuilder.fromPage page' = .ok builder' ∧
        Searched page' builder'.branchEntries) ∧
    ∀ i < cells.length, ∀ child : Child,
      ∃ page', BranchPageMutator.setChildAtIndex page i child.1 child.2 = .ok page' ∧
        page' = splice page (24 + i * 40 + 16) (Pod.encode child.1 ++ Pod.encode child.2) ∧
        BranchWellFormed page' (setChild cells i child) ∧
        BranchBuilder.fromPage page' = .ok ⟨setChild cells i child⟩ ∧
        Searched page' (setChild cells i child) := by
  obtain ⟨ms, hholds⟩ := h.ok
  refine ⟨fun key child hfit => ?_, fun i hi child => ?_⟩
  · obtain ⟨head, tail, rfl⟩ := List.exists_cons_of_ne_nil h.nonempty
    obtain ⟨page', hrun, hpage', -⟩ := h.insert env hfit child
    obtain ⟨ms', hholds'⟩ := hpage'.ok
    exact ⟨page', ⟨head :: tail⟩, _, hrun, hholds.builder,
      BranchBuilder.insert_eq_upsert head tail key child, hpage', hholds'.builder,
      hpage'.searched⟩
  · -- only the two child fields of the entry are written
    obtain ⟨page', hrun, hpage', -⟩ := h.setChild hi child
    obtain ⟨ms', hholds'⟩ := hpage'.ok
    have hbytes := hholds.setChildAtIndex_eq hi child
    rw [hrun, Except.ok.injEq] at hbytes
    exact ⟨page', hrun, hbytes, hpage', hholds'.builder, hpage'.searched⟩

/-- A separator in front of the one of a root that has just been made, and its left child
replaced. -/
theorem branch_edit_eq_rebuild_root :
    ∃ page page' page'', (BranchBuilder.newRoot 1 0 [5] 2 0).buildPageAtBuf ⟨fun _ => 0, true⟩
        (List.replicate 150 0) = .ok page ∧
      BranchPageMutator.insert ⟨fun _ => 0, true⟩ page [4] 3 7 = .ok page' ∧
      BranchBuilder.fromPage page' = .ok ⟨[([], 1, 0), ([4], 3, 7), ([5], 2, 0)]⟩ ∧
      BranchPageMutator.setChildAtIndex page 0 4 9 = .ok page'' ∧
      BranchBuilder.fromPage page'' = .ok ⟨[([], 4, 9), ([5], 2, 0)]⟩ := by
  obtain ⟨page, hmade, -, hok⟩ := @buildBranchAtBuf_ok ⟨fun _ => 0, true⟩
    (BranchBuilder.newRoot 1 0 [5] 2 0).branchEntries (List.replicate 150 0)
    (by rw [List.length_replicate]; decide) (by rw [List.length_replicate]; decide)
  have hpage : BranchWellFormed page [([], 1, 0), ([5], 2, 0)] :=
    ⟨hok, List.cons_ne_nil _ _, List.pairwise_singleton _ _⟩
  have hfit : BranchPageMutator.fits page [4] = .ok true := by
    have heval : (do BranchPageMutator.fits (← BranchBuilder.buildEntriesAtBuf ⟨fun _ => 0, true⟩
        (BranchBuilder.newRoot 1 0 [5] 2 0).branchEntries (List.replicate 150 0)) [4]) =
        .ok true := by decide +kernel
    rw [hmade] at heval
    exact heval
  obtain ⟨hinsert, hset⟩ := branch_edit_eq_rebuild ⟨fun _ => 0, true⟩ hpage
  obtain ⟨page', builder, builder', hrun, hbuilder, hinserted, -, hbuilt, -⟩ :=
    hinsert [4] (3, 7) hfit
  obtain ⟨page'', hrun', -, -, hbuilt', -⟩ := hset 0 (by decide) (4, 9)
  obtain ⟨ms, hholds⟩ := hok
  rw [hholds.builder, Except.ok.injEq] at hbuilder
  subst hbuilder
  have hlist : builder' = ⟨[([], 1, 0), ([4], 3, 7), ([5], 2, 0)]⟩ :=
    (Except.ok.inj hinserted).symm
  subst hlist
  exact ⟨page, page', page'', hmade, hrun, hbuilt, hrun', hbuilt'⟩

end KvRaft.Kv
