import KvRaft.Kv.BranchNode
import KvRaft.Kv.LeafSpec

/-!
# What branch pages mean

`BranchOk page cells`: the page is a branch with the entries `cells`. The order of the
separators is no part of it: that is a fact about the tree the branch belongs to
(`Forest`), and the lemmas that need a position found by a search take the result of the
search on the list as a hypothesis.

As for the leaves, one lemma for each function says what it does to the list of entries:
`setChild` for a child replaced, `List.insertIdx` for a separator inserted, the two halves
of the list for a split.
-/

namespace KvRaft.Kv

open Bytes Ordered

/-- A branch page as a slotted page: the range of an entry is its key. -/
def branchLayout : Layout BranchHeader BranchEntryMetadata where
  count h := h.numEntries.toNat
  dataEnd h := h.keyDataEndOffset.toNat
  offset m := m.keyOffset.toNat
  size m := m.keySize.toNat

/-- The entry of a page that a record describes. -/
def branchEntry (page : Bytes) (m : BranchEntryMetadata) : BranchEntry :=
  (slice page m.keyOffset.toNat m.keySize.toNat, m.childPageId, m.childPageChecksum)

/-- A branch page with the records `ms`, which describe the entries `cells`. -/
structure BranchHolds (page : Bytes) (ms : List BranchEntryMetadata)
    (cells : List BranchEntry) : Prop where
  kind : (readPod BranchHeader page 0).nodeType = NodeKind.branch.toU64
  holds : Holds branchLayout page ms
  entries : ms.map (branchEntry page) = cells
  small : page.length < 2 ^ 63

/-- The page is a branch with the entries `cells`. -/
def BranchOk (page : Bytes) (cells : List BranchEntry) : Prop :=
  ∃ ms, BranchHolds page ms cells

section reading

variable {page : Bytes} {ms : List BranchEntryMetadata} {cells : List BranchEntry}

theorem BranchHolds.length (h : BranchHolds page ms cells) : cells.length = ms.length := by
  rw [← h.entries, List.length_map]

theorem BranchHolds.room (h : BranchHolds page ms cells) :
    24 + ms.length * 40 ≤ (readPod BranchHeader page 0).keyDataEndOffset.toNat :=
  h.holds.filled.room

theorem BranchHolds.bound (h : BranchHolds page ms cells) :
    (readPod BranchHeader page 0).keyDataEndOffset.toNat ≤ page.length :=
  h.holds.filled.bound

theorem BranchHolds.numEntries (h : BranchHolds page ms cells) :
    (readPod BranchHeader page 0).numEntries.toNat = ms.length :=
  h.holds.count

theorem BranchHolds.header (h : BranchHolds page ms cells) :
    refFromPrefix BranchHeader page = .ok (readPod BranchHeader page 0) := by
  have hroom := h.room
  have hbound := h.bound
  exact refFromPrefix_of_le (by rw [size_branchHeader]; omega)

theorem BranchHolds.records (h : BranchHolds page ms cells) :
    refFromPrefixWithElems BranchEntryMetadata page (Pod.size BranchHeader)
      (readPod BranchHeader page 0).numEntries.toNat = .ok ms := by
  have hroom := h.room
  have hbound := h.bound
  rw [h.numEntries, refFromPrefixWithElems_of_le (by
    rw [size_branchHeader, size_branchEntryMetadata]; omega)]
  exact congrArg Except.ok h.holds.filled.slots

theorem BranchHolds.fromPage (h : BranchHolds page ms cells) :
    BranchPage.fromPage page = .ok ⟨readPod BranchHeader page 0, ms, page⟩ := by
  rw [BranchPage.fromPage, h.header, ok_bind, h.records]
  rfl

theorem BranchHolds.range (h : BranchHolds page ms cells) {m : BranchEntryMetadata}
    (hm : m ∈ ms) :
    (readPod BranchHeader page 0).keyDataEndOffset.toNat ≤ m.keyOffset.toNat ∧
      m.keyOffset.toNat + m.keySize.toNat ≤ page.length :=
  h.holds.filled.range m hm

theorem BranchHolds.entryKey (h : BranchHolds page ms cells) {m : BranchEntryMetadata}
    (hm : m ∈ ms) (hdr : BranchHeader) :
    BranchPage.entryKey ⟨hdr, ms, page⟩ m = .ok (branchEntry page m).1 := by
  have hrange := h.range hm
  exact slicePage_of_le (by change _ ≤ page.length; omega)

theorem BranchHolds.branchEntries (h : BranchHolds page ms cells) (hdr : BranchHeader) :
    BranchPage.branchEntries ⟨hdr, ms, page⟩ = .ok cells := by
  rw [← h.entries]
  refine mapM_ok fun m hm => ?_
  rw [h.entryKey hm, ok_bind]
  rfl

theorem BranchHolds.separators (h : BranchHolds page ms cells) (hne : cells ≠ [])
    (hdr : BranchHeader) :
    BranchPage.separators ⟨hdr, ms, page⟩ = .ok (cells.tail.map Prod.fst) := by
  have hlen : 1 ≤ ms.length := by
    rw [← h.length]
    exact List.length_pos_iff.mpr hne
  rw [BranchPage.separators]
  dsimp only
  rw [assert_true hlen, ok_bind, ← h.entries, ← List.map_tail, List.map_map]
  exact mapM_ok fun m hm => h.entryKey (List.mem_of_mem_tail hm) hdr

theorem partitionPoint_map {α β : Type} (p : β → Bool) (f : α → β) (l : List α) :
    partitionPoint p (l.map f) = partitionPoint (fun a => p (f a)) l := by
  rw [partitionPoint, partitionPoint, List.takeWhile_map, List.length_map]
  rfl

/-- The position of the child for a key. -/
theorem BranchHolds.childIndexForKey (h : BranchHolds page ms cells) (hne : cells ≠ [])
    (hdr : BranchHeader) (key : Key) :
    BranchPage.childIndexForKey ⟨hdr, ms, page⟩ key = .ok (childIndex key cells) := by
  rw [BranchPage.childIndexForKey, h.separators hne, ok_bind, partitionPoint_map]
  rfl

theorem BranchHolds.childPageIdAtIndex (h : BranchHolds page ms cells) (hdr : BranchHeader)
    {i : ℕ} {child : Child} (hchild : (cells[i]?).map Prod.snd = some child) :
    BranchPage.childPageIdAtIndex ⟨hdr, ms, page⟩ i = .ok child.1 := by
  rw [← h.entries, List.getElem?_map, Option.map_map, Option.map_eq_some_iff] at hchild
  obtain ⟨m, hm, hchild⟩ := hchild
  rw [BranchPage.childPageIdAtIndex]
  dsimp only
  rw [index_of_getElem? hm, ok_bind, ← hchild]
  rfl

/-- The child for a key. -/
theorem BranchHolds.childPageIdForKey (h : BranchHolds page ms cells) (hdr : BranchHeader)
    {key : Key} {child : Child}
    (hchild : (cells[childIndex key cells]?).map Prod.snd = some child) :
    BranchPage.childPageIdForKey ⟨hdr, ms, page⟩ key = .ok child.1 := by
  have hne : cells ≠ [] := by
    rintro rfl
    simp at hchild
  rw [BranchPage.childPageIdForKey, h.childIndexForKey hne, ok_bind,
    h.childPageIdAtIndex hdr hchild]

theorem BranchHolds.childPageForKey (h : BranchHolds page ms cells) {key : Key} {child : Child}
    (hchild : (cells[childIndex key cells]?).map Prod.snd = some child) :
    BranchPageMutator.childPageForKey page key = .ok (childIndex key cells, child.1) := by
  have hne : cells ≠ [] := by
    rintro rfl
    simp at hchild
  rw [BranchPageMutator.childPageForKey, h.fromPage, ok_bind, h.childIndexForKey hne, ok_bind,
    h.childPageIdAtIndex _ hchild]
  rfl

theorem BranchHolds.mutatorEntries (h : BranchHolds page ms cells) :
    BranchPageMutator.entries page = .ok ms := by
  rw [BranchPageMutator.entries, h.header, ok_bind, h.records]

/-- A separator fits when it and one more entry fit between the entries and the keys. -/
theorem BranchHolds.fits (h : BranchHolds page ms cells) (key : Key) :
    BranchPageMutator.fits page key =
      .ok (decide (24 + (ms.length + 1) * 40 + key.length ≤
        (readPod BranchHeader page 0).keyDataEndOffset.toNat)) := by
  have hroom := h.room
  have hbound := h.bound
  have hsmall := h.small
  rw [BranchPageMutator.fits, BranchPageMutator.header, h.header, ok_bind, h.numEntries,
    size_branchHeader, size_branchEntryMetadata]
  dsimp only
  split
  · rw [decide_eq_false (by omega)]
    rfl
  · rw [usize_of_lt (by omega), ok_bind]
    refine congrArg Except.ok (decide_eq_decide.mpr ?_)
    omega

theorem BranchHolds.parse (h : BranchHolds page ms cells) :
    NodeKind.parse page = .ok .branch := by
  have hroom := h.room
  have hbound := h.bound
  exact nodeKind_parse (by omega) h.kind

/-- The builder of a page holds its entries. -/
theorem BranchHolds.builder (h : BranchHolds page ms cells) :
    BranchBuilder.fromPage page = .ok ⟨cells⟩ := by
  rw [BranchBuilder.fromPage, h.fromPage, ok_bind, h.branchEntries]
  rfl

end reading

/-! ### Editing in place -/

section editing

variable {page : Bytes} {ms : List BranchEntryMetadata} {cells : List BranchEntry} {key : Key}
  {offset : ℕ} {child : Child}

/-- The record of an entry whose key is at `offset`. -/
def recordAt (key : Key) (child : Child) (offset : ℕ) : BranchEntryMetadata :=
  BranchEntryMetadata.new key.length offset child.1 child.2

/-- A key that lies inside a page. -/
structure KeyInside (page : Bytes) (key : Key) (offset : ℕ) : Prop where
  bound : offset + key.length ≤ page.length
  small : page.length < 2 ^ 63

theorem KeyInside.record_size (h : KeyInside page key offset) (child : Child) :
    branchLayout.size (recordAt key child offset) = key.length :=
  UInt64.toNat_ofNat_of_lt' (by have := h.bound; have := h.small; change _ < 2 ^ 64; omega)

theorem KeyInside.record_offset (h : KeyInside page key offset) (child : Child) :
    branchLayout.offset (recordAt key child offset) = offset :=
  UInt64.toNat_ofNat_of_lt' (by have := h.bound; have := h.small; change _ < 2 ^ 64; omega)

/-- **One entry written.** On the page with the key of one record written over nothing that
`rest` refers to, the other records describe the entries they described. -/
theorem BranchHolds.overwrite (h : BranchHolds page ms cells) {hdr : BranchHeader}
    {m : BranchEntryMetadata} {rest ms' : List BranchEntryMetadata} (hrest : rest.Sublist ms)
    (how : Overwrite branchLayout page key hdr m rest ms')
    (hkind : hdr.nodeType = NodeKind.branch.toU64) {cells' : List BranchEntry}
    (hentries : ∀ f : BranchEntryMetadata → BranchEntry,
      (∀ a ∈ rest, f a = branchEntry page a) →
      f m = (key, m.childPageId, m.childPageChecksum) → ms'.map f = cells') :
    BranchHolds (rewrite page m.keyOffset.toNat key hdr ms') ms' cells' := by
  have hfit : Fits BranchHeader page m.keyOffset.toNat key ms' (branchLayout.dataEnd hdr) :=
    how.fits
  refine ⟨?_, h.holds.overwrite hrest how, hentries _ ?_ ?_, ?_⟩
  · rw [readPod_rewrite hfit, hkind]
  · intro a ha
    have hkeySlice := h.holds.slice_overwrite hrest how ha (j := 0) (n := a.keySize.toNat)
      (by change 0 + _ ≤ a.keySize.toNat; omega)
    rw [Nat.add_zero] at hkeySlice
    exact Prod.ext_iff.mpr ⟨hkeySlice, rfl⟩
  · have hsize : m.keySize.toNat = key.length := how.size
    have hkeySlice := slice_rewrite_data (h := hdr) hfit (j := 0) (n := key.length) (by omega)
    rw [Nat.add_zero] at hkeySlice
    rw [branchEntry, hsize]
    refine Prod.ext_iff.mpr ⟨hkeySlice.trans ?_, rfl⟩
    simp [slice]
  · rw [length_rewrite hfit]
    exact h.small

/-- Data written behind the records leaves the front of the page as it is. -/
theorem BranchHolds.front_splice (h : BranchHolds page ms cells) (offset : ℕ) (data : Bytes)
    (hlow : 24 + ms.length * 40 ≤ offset) (hhigh : offset + data.length ≤ page.length) :
    readPod BranchHeader (splice page offset data) 0 = readPod BranchHeader page 0 ∧
      readPods BranchEntryMetadata (splice page offset data) 24 ms.length = ms := by
  have hslots := h.holds.filled.slots
  rw [size_branchHeader] at hslots
  refine ⟨readPod_splice hhigh (Or.inl (by rw [size_branchHeader]; omega)), ?_⟩
  rw [readPods_splice hhigh (Or.inl (by rw [size_branchEntryMetadata]; omega)), hslots]

/-- The records of a page whose header and records are known. -/
theorem records_of_front {hdr : BranchHeader} {n : ℕ} {ms : List BranchEntryMetadata}
    (hhdr : readPod BranchHeader page 0 = hdr) (hn : hdr.numEntries.toNat = n)
    (hroom : 24 + n * 40 ≤ page.length)
    (hms : readPods BranchEntryMetadata page 24 n = ms) :
    BranchPageMutator.entries page = .ok ms := by
  rw [BranchPageMutator.entries, refFromPrefix_of_le (by rw [size_branchHeader]; omega),
    ok_bind, hhdr, hn, size_branchHeader, refFromPrefixWithElems_of_le (by
      rw [size_branchEntryMetadata]; omega), hms]

/-- **Replacing a child.** The key of its entry is where it was. -/
theorem BranchHolds.setChildAtIndex (h : BranchHolds page ms cells) {i : ℕ}
    (hi : i < cells.length) (child : Child) :
    ∃ page', BranchPageMutator.setChildAtIndex page i child.1 child.2 = .ok page' ∧
      page'.length = page.length ∧ BranchOk page' (setChild cells i child) := by
  have hroom := h.room
  have hbound := h.bound
  rw [h.length] at hi
  let m : BranchEntryMetadata :=
    { ms[i] with childPageId := child.1, childPageChecksum := child.2 }
  let hdr := readPod BranchHeader page 0
  have hrange := h.range (List.getElem_mem hi)
  have hkeyLength : (slice page m.keyOffset.toNat m.keySize.toNat).length = m.keySize.toNat :=
    length_slice hrange.2
  have hlen : (ms.set i m).length = ms.length := List.length_set
  have hfits : Fits BranchHeader page m.keyOffset.toNat
      (slice page m.keyOffset.toNat m.keySize.toNat) (ms.set i m) (branchLayout.dataEnd hdr) :=
    ⟨by rw [hlen]; exact hroom, hrange.1, by rw [hkeyLength]; exact hrange.2⟩
  -- no key moves: the page is its own rewriting, with the key of the entry over itself
  have hrun : BranchPageMutator.setChildAtIndex page i child.1 child.2 =
      .ok (rewrite page m.keyOffset.toNat (slice page m.keyOffset.toNat m.keySize.toNat) hdr
        (ms.set i m)) := by
    have hsame : writePod page 0 hdr = page :=
      writePod_readPod (by rw [size_branchHeader]; omega)
    rw [BranchPageMutator.setChildAtIndex, BranchPageMutator.entriesMut, h.mutatorEntries,
      ok_bind, index_of_getElem? (List.getElem?_eq_getElem hi), ok_bind, setAt_of_lt hi, ok_bind,
      rewrite, splice_slice hrange.2, hsame]
    rfl
  have hapart : ∀ a ∈ ms.eraseIdx i, branchLayout.Apart ms[i] a :=
    (List.pairwise_cons.mp (h.holds.filled.apart.perm
      (List.getElem_cons_eraseIdx_perm hi).symm Layout.Apart.symm)).1
  refine ⟨_, hrun, length_rewrite hfits, ms.set i m, ?_⟩
  refine h.overwrite (List.eraseIdx_sublist ms i) ⟨List.set_perm_cons_eraseIdx hi _, ?_, ?_,
    hfits, le_rfl, fun a ha => (hapart a ha).symm⟩ h.kind ?_
  · exact hkeyLength.symm
  · rw [hlen]
    exact h.numEntries
  · intro f hold hnew
    have hget : cells[i]? = some (branchEntry page ms[i]) := by
      rw [← h.entries, List.getElem?_map, List.getElem?_eq_getElem hi]
      rfl
    rw [List.eraseIdx_eq_take_drop_succ] at hold
    have hfront : (ms.take i).map f = (ms.take i).map (branchEntry page) :=
      List.map_congr_left fun a ha => hold a (List.mem_append_left _ ha)
    have hback : (ms.drop (i + 1)).map f = (ms.drop (i + 1)).map (branchEntry page) :=
      List.map_congr_left fun a ha => hold a (List.mem_append_right _ ha)
    rw [setChild, List.modify_eq_set_getElem?, hget, Option.map_eq_map, Option.map_some,
      Option.getD_some, List.set_eq_take_append_cons_drop, if_pos hi, List.set_eq_take_append_cons_drop,
      if_pos (by rwa [h.length]), List.map_append, List.map_cons, hfront, hback, hnew,
      List.map_take, List.map_drop, h.entries]
    rfl

/-- A new entry at position `i`, with its key in front of the keys there are. -/
theorem BranchHolds.insertNewEntry (h : BranchHolds page ms cells) {i : ℕ}
    (hi : i ≤ cells.length) (child : Child)
    (hfit : 24 + (ms.length + 1) * 40 + key.length ≤
      (readPod BranchHeader page 0).keyDataEndOffset.toNat) :
    ∃ page', BranchPageMutator.insertNewEntry page i key child.1 child.2 = .ok page' ∧
      page'.length = page.length ∧ BranchOk page' (cells.insertIdx i (key, child)) := by
  have hbound := h.bound
  have hsmall := h.small
  rw [h.length] at hi
  generalize hoffset :
    (readPod BranchHeader page 0).keyDataEndOffset.toNat - key.length = offset
  have hin : KeyInside page key offset := ⟨by omega, h.small⟩
  let hdr : BranchHeader := { readPod BranchHeader page 0 with
    numEntries := .ofNat (ms.length + 1), keyDataEndOffset := .ofNat offset }
  have hcount : hdr.numEntries.toNat = ms.length + 1 :=
    UInt64.toNat_ofNat_of_lt' (by change _ < 2 ^ 64; omega)
  have hend : hdr.keyDataEndOffset.toNat = offset :=
    UInt64.toNat_ofNat_of_lt' (by change _ < 2 ^ 64; omega)
  let ms' := ms.insertIdx i (recordAt key child offset)
  have hlen : ms'.length = ms.length + 1 := List.length_insertIdx_of_le_length hi _
  have hfits : Fits BranchHeader page offset key ms' (branchLayout.dataEnd hdr) :=
    ⟨by change 24 + ms'.length * 40 ≤ hdr.keyDataEndOffset.toNat; omega, hend.le, by omega⟩
  -- as for a leaf: key, header, then the records moved up by one
  have hrun : BranchPageMutator.insertNewEntry page i key child.1 child.2 =
      .ok (rewrite page offset key hdr ms') := by
    obtain ⟨hhdr, hms⟩ := h.front_splice offset key (by omega) (by omega)
    have hlength : (splice page offset key).length = page.length := length_splice (by omega)
    have hlength' : (writePod (splice page offset key) 0 hdr).length = page.length := by
      rw [length_writePod hdr (by rw [size_branchHeader]; omega), hlength]
    have hentries : BranchPageMutator.entries (writePod (splice page offset key) 0 hdr) =
        .ok (ms ++ [readPod BranchEntryMetadata (writePod (splice page offset key) 0 hdr)
          (24 + ms.length * 40)]) := by
      refine records_of_front (readPod_writePod hdr (by rw [size_branchHeader]; omega)) hcount
        (by omega) ?_
      have hencode : (Pod.encode hdr).length = 24 := Pod.length_encode hdr
      rw [readPods_succ, writePod, readPods_splice (by omega) (Or.inr (by omega)), hms]
      rfl
    rw [BranchPageMutator.insertNewEntry, h.mutatorEntries, ok_bind, BranchPageMutator.appendKey,
      BranchPageMutator.header, h.header, ok_bind, checkedSub_of_le (by omega), ok_bind, hoffset,
      writeDataAtOffset_of_le (by omega), ok_bind, pure_eq_ok, ok_bind]
    dsimp only
    rw [BranchPageMutator.headerMut, refFromPrefix_of_le (by rw [size_branchHeader]; omega),
      ok_bind, hhdr, pure_eq_ok, ok_bind]
    change BranchPageMutator.insertMetadata (writePod (splice page offset key) 0 hdr) i
      ms.length (recordAt key child offset) = _
    rw [BranchPageMutator.insertMetadata, BranchPageMutator.entriesMut, hentries, ok_bind,
      copyWithin_setAt hi]
    rfl
  have hoffset' : (recordAt key child offset).keyOffset.toNat = offset := hin.record_offset child
  have hkind : hdr.nodeType = NodeKind.branch.toU64 := h.kind
  refine ⟨_, hrun, length_rewrite hfits, ms', ?_⟩
  rw [← hoffset']
  refine h.overwrite (List.Sublist.refl ms) ⟨List.perm_insertIdx _ _ hi, hin.record_size child,
    ?_, ?_, ?_, ?_⟩ hkind ?_
  · change hdr.numEntries.toNat = _
    rw [hcount, hlen]
  · rw [hin.record_offset]
    exact hfits
  · change hdr.keyDataEndOffset.toNat ≤ (readPod BranchHeader page 0).keyDataEndOffset.toNat
    omega
  · -- the new key is in front of all the keys
    intro m hm
    have hrange := h.range hm
    refine Layout.apart_iff.mpr (Or.inr (Or.inr (Or.inr ?_)))
    rw [hin.record_offset, hin.record_size]
    change _ ≤ m.keyOffset.toNat
    omega
  · intro f hold hnew
    rw [List.map_insertIdx, hnew, ← h.entries, List.map_congr_left hold]
    rfl

/-- **Inserting a separator that fits** and is not there puts it where it belongs. -/
theorem BranchHolds.insert (h : BranchHolds page ms cells) (env : Env) {i : ℕ}
    (hi : i < cells.length) (hsearch : binarySearch key (cells.tail.map Prod.fst) = .error i)
    (hfit : BranchPageMutator.fits page key = .ok true) (child : Child) :
    ∃ page', BranchPageMutator.insert env page key child.1 child.2 = .ok page' ∧
      page'.length = page.length ∧ BranchOk page' (cells.insertIdx (i + 1) (key, child)) := by
  have hne : cells ≠ [] := List.length_pos_iff.mp (by omega)
  obtain ⟨page', hrun, hlength, hok⟩ :=
    h.insertNewEntry (i := i + 1) (by omega) child
      (by rwa [h.fits, Except.ok.injEq, decide_eq_true_eq] at hfit)
  refine ⟨page', ?_, hlength, hok⟩
  rw [BranchPageMutator.insert, h.fromPage, ok_bind, BranchPage.searchEntryIndex,
    h.separators hne, ok_bind, hsearch]
  dsimp only
  rw [pure_eq_ok, ok_bind]
  dsimp only
  rw [hfit, hrun]
  split <;> rfl

end editing

/-! ### Building -/

section building

variable {env : Env}

/-- The entries as they are written: the key of entry 0 is left out. -/
def withoutFirstKey : List BranchEntry → List BranchEntry
  | [] => []
  | (_, child) :: rest => ([], child) :: rest

/-- The bytes the entries of a branch take: a record and a key each. -/
def branchSize (es : List BranchEntry) : ℕ :=
  (es.map fun e => 40 + e.1.length).sum

@[simp] theorem branchSize_nil : branchSize [] = 0 := rfl

@[simp]
theorem branchSize_cons (e : BranchEntry) (es : List BranchEntry) :
    branchSize (e :: es) = 40 + e.1.length + branchSize es := rfl

theorem branchSize_withoutFirstKey (es : List BranchEntry) :
    branchSize (withoutFirstKey es) =
      40 * es.length + (es.tail.map fun e => e.1.length).sum := by
  have hsum : ∀ l : List BranchEntry,
      branchSize l = 40 * l.length + (l.map fun e => e.1.length).sum := by
    intro l
    induction l with
    | nil => rfl
    | cons e l ih =>
      rw [branchSize_cons, ih, List.length_cons, List.map_cons, List.sum_cons]
      omega
  cases es with
  | nil => rfl
  | cons e es =>
    rw [withoutFirstKey, hsum]
    simp

/-- Past entry 0, the loop does not look at the index. -/
theorem buildBranchEntries_succ (env : Env) (es : List BranchEntry) (i j : ℕ) (page : Bytes)
    (writeCursor c : ℕ) :
    BranchBuilder.buildEntries env es (i + 1) page writeCursor c =
      BranchBuilder.buildEntries env es (j + 1) page writeCursor c := by
  induction es generalizing i j page writeCursor c with
  | nil => rfl
  | cons e es ih =>
    rw [BranchBuilder.buildEntries, BranchBuilder.buildEntries, if_neg (Nat.succ_ne_zero i),
      if_neg (Nat.succ_ne_zero j)]
    simp only [ih (i + 1) (j + 1)]

/-- Entry 0 is written as an entry with the empty key is. -/
theorem buildBranchEntries_zero (env : Env) (es : List BranchEntry) (page : Bytes)
    (writeCursor c : ℕ) :
    BranchBuilder.buildEntries env es 0 page writeCursor c =
      BranchBuilder.buildEntries env (withoutFirstKey es) 1 page writeCursor c := by
  cases es with
  | nil => rfl
  | cons e es =>
    rw [withoutFirstKey, BranchBuilder.buildEntries, BranchBuilder.buildEntries, if_pos rfl,
      if_neg one_ne_zero]
    simp only [Nat.zero_add, buildBranchEntries_succ env es 0 1]

/-- Where the entries have room, the loop writes them, with their keys in front of those
there are, with or without assertions. -/
theorem buildBranchEntries_ok (env : Env) {es : List BranchEntry} {page : Bytes}
    {ms : List BranchEntryMetadata} {c : ℕ} (hpage : Filled branchLayout page ms c)
    (hsmall : page.length < 2 ^ 63) (hfit : 24 + ms.length * 40 + branchSize es ≤ c) :
    ∃ page' c', BranchBuilder.buildEntries env es 1 page (24 + ms.length * 40) c =
        .ok (page', c') ∧
      ∃ ms', Filled branchLayout page' (ms ++ ms') c' ∧ page'.length = page.length ∧
        (∀ o n, c ≤ o → slice page' o n = slice page o n) ∧
        ms'.map (branchEntry page') = es := by
  induction es generalizing page ms c with
  | nil => exact ⟨page, c, rfl, [], by simpa using hpage, rfl, fun _ _ _ => rfl, rfl⟩
  | cons e es ih =>
    obtain ⟨key, child⟩ := e
    rw [branchSize_cons] at hfit
    dsimp only at hfit
    have hbound := hpage.bound
    have hlengthKey : (splice page (c - key.length) key).length = page.length :=
      length_splice (by omega)
    -- the page of the next round has one slot more
    have hin : KeyInside page key (c - key.length) := ⟨by omega, hsmall⟩
    have hnext : Room branchLayout ms c key (recordAt key child (c - key.length)) := by
      refine ⟨hin.record_size child, ?_, ?_⟩
      · rw [hin.record_offset]
        omega
      · rw [hin.record_offset, size_branchHeader, size_branchEntryMetadata]
        omega
    have hpush := hpage.push hnext
    rw [hin.record_offset] at hpush
    have hlength := length_push hpage hnext
    have hmore : (ms ++ [recordAt key child (c - key.length)]).length = ms.length + 1 := by simp
    have hcursor : 24 + ms.length * 40 + 40 =
        24 + (ms ++ [recordAt key child (c - key.length)]).length * 40 := by
      rw [hmore]
      omega
    have hwritten : writePod (splice page (c - key.length) key) (24 + ms.length * 40)
        (recordAt key child (c - key.length)) =
        push branchLayout page ms.length key (recordAt key child (c - key.length)) := by
      rw [push, hin.record_offset, size_branchHeader, size_branchEntryMetadata]
    have hrun : BranchBuilder.buildEntries env ((key, child) :: es) 1 page
          (24 + ms.length * 40) c =
        BranchBuilder.buildEntries env es 1
          (push branchLayout page ms.length key (recordAt key child (c - key.length)))
          (24 + (ms ++ [recordAt key child (c - key.length)]).length * 40) (c - key.length) := by
      rw [BranchBuilder.buildEntries, if_neg one_ne_zero]
      dsimp only
      rw [debugAssert_true (by omega), ok_bind,
        debugAssert_true (by rw [size_branchEntryMetadata]; omega), ok_bind,
        checkedSub_of_le (by omega), ok_bind, writeDataAtOffset_of_le (by omega), ok_bind,
        writeToPrefix_of_le (by rw [size_branchEntryMetadata]; omega), ok_bind, ← hwritten,
        ← hcursor, buildBranchEntries_succ env es 1 0]
      rfl
    rw [hrun]
    obtain ⟨page', c', hrest, ms', hfilled, hlength', hkeep, hentries⟩ :=
      ih hpush (by rwa [hlength]) (by rw [hmore]; omega)
    refine ⟨page', c', hrest, recordAt key child (c - key.length) :: ms', ?_,
      hlength'.trans hlength, ?_, ?_⟩
    · rwa [List.append_assoc, List.singleton_append] at hfilled
    · intro o n ho
      rw [hkeep o n (by omega), slice_push hpage hnext ho]
    · -- the key of the first entry is behind everything written later
      have hsizeKey : (recordAt key child (c - key.length)).keySize.toNat = key.length :=
        hin.record_size child
      have hoffsetKey : (recordAt key child (c - key.length)).keyOffset.toNat = c - key.length :=
        hin.record_offset child
      have hkeySlice := slice_push_data hpage hnext (j := 0) (n := key.length) (by omega)
      rw [hin.record_offset, Nat.add_zero] at hkeySlice
      rw [List.map_cons, hentries, branchEntry, hsizeKey, hoffsetKey, hkeep _ _ le_rfl, hkeySlice]
      simp [slice, recordAt, BranchEntryMetadata.new]

/-- Where they have none, an assertion fails. -/
theorem buildBranchEntries_panics (henv : env.debugAssertions = true) {es : List BranchEntry}
    {page : Bytes} {writeCursor c : ℕ} (hc : writeCursor ≤ c) (hbound : c ≤ page.length)
    (hover : c < writeCursor + branchSize es) :
    BranchBuilder.buildEntries env es 1 page writeCursor c = .error .panic := by
  induction es generalizing page writeCursor c with
  | nil => simp at hover; omega
  | cons e es ih =>
    obtain ⟨key, child⟩ := e
    rw [branchSize_cons] at hover
    dsimp only at hover
    rw [BranchBuilder.buildEntries, if_neg one_ne_zero]
    dsimp only
    -- one of the two assertions fails, at this entry or at a later one
    by_cases hsize : key.length ≤ c
    · by_cases hroom : writeCursor + Pod.size BranchEntryMetadata ≤ c - key.length
      · rw [size_branchEntryMetadata] at hroom
        have hlengthKey : (splice page (c - key.length) key).length = page.length :=
          length_splice (by omega)
        have hrecord : (writePod (splice page (c - key.length) key) writeCursor
            (recordAt key child (c - key.length))).length = page.length := by
          rw [length_writePod _ (by rw [size_branchEntryMetadata]; omega), hlengthKey]
        rw [debugAssert_true hsize, ok_bind,
          debugAssert_true (by rw [size_branchEntryMetadata]; omega), ok_bind,
          checkedSub_of_le (by omega), ok_bind, writeDataAtOffset_of_le (by omega), ok_bind,
          writeToPrefix_of_le (by rw [size_branchEntryMetadata]; omega), ok_bind,
          buildBranchEntries_succ env es 1 0]
        exact ih (by rw [size_branchEntryMetadata]; omega) (by
          change _ ≤ (writePod _ _ (recordAt key child _)).length
          omega) (by rw [size_branchEntryMetadata]; omega)
      · rw [debugAssert_true hsize, ok_bind, debugAssert_false henv hroom]
        rfl
    · rw [debugAssert_false henv hsize]
      rfl

/-- **Building a branch** whose entries have room makes a branch with these entries. -/
theorem buildBranchAtBuf_ok (env : Env) {es : List BranchEntry} {page : Bytes}
    (hsmall : page.length < 2 ^ 63)
    (hfit : 24 + branchSize (withoutFirstKey es) ≤ page.length) :
    ∃ page', BranchBuilder.buildEntriesAtBuf env es page = .ok page' ∧
      page'.length = page.length ∧ BranchOk page' (withoutFirstKey es) := by
  -- Entries are pushed to the empty page one by one; the header that closes it is written last,
  -- where no entry lies.
  have hempty : Filled branchLayout page [] page.length :=
    Filled.empty _ _ (by rw [size_branchHeader]; omega)
  obtain ⟨page', c, hrun, ms, hfilled, hlength, -, hentries⟩ :=
    buildBranchEntries_ok env hempty hsmall (by rw [List.length_nil]; omega)
  rw [List.nil_append] at hfilled
  have hroom := hfilled.room
  have hbound := hfilled.bound
  rw [size_branchHeader, size_branchEntryMetadata] at hroom
  have hes : es.length = ms.length := by
    have hlen := congrArg List.length hentries
    rw [List.length_map] at hlen
    rw [hlen]
    cases es <;> rfl
  generalize hhdr : BranchHeader.new es.length c = hdr
  have hcount : branchLayout.count hdr = ms.length := by
    rw [← hes, ← hhdr]
    exact UInt64.toNat_ofNat_of_lt' (by change _ < 2 ^ 64; omega)
  have hend : branchLayout.dataEnd hdr = c := by
    rw [← hhdr]
    exact UInt64.toNat_ofNat_of_lt' (by change _ < 2 ^ 64; omega)
  have hkind : hdr.nodeType = NodeKind.branch.toU64 := by
    rw [← hhdr]
    rfl
  have hlength' := length_close hfilled hdr
  refine ⟨writePod page' 0 hdr, ?_, hlength'.trans hlength, ms, ?_, hfilled.close hcount hend,
    ?_, ?_⟩
  · rw [List.length_nil] at hrun
    rw [BranchBuilder.buildEntriesAtBuf, buildBranchEntries_zero, size_branchHeader, hrun, ok_bind]
    dsimp only
    rw [writeToPrefix_of_le (by rw [size_branchHeader]; omega), hhdr]
  · rw [readPod_writePod hdr (by rw [size_branchHeader]; omega), hkind]
  · rw [← hentries]
    refine List.map_congr_left fun m hm => ?_
    have hrange : c ≤ m.keyOffset.toNat := (hfilled.range m hm).1
    rw [branchEntry, branchEntry, slice_close hfilled hdr hrange]
  · rw [hlength', hlength]
    exact hsmall

/-- Entries without room fail an assertion. -/
theorem buildBranchAtBuf_panics (henv : env.debugAssertions = true) {es : List BranchEntry}
    {page : Bytes} (hlow : 24 ≤ page.length)
    (hover : page.length < 24 + branchSize (withoutFirstKey es)) :
    BranchBuilder.buildEntriesAtBuf env es page = .error .panic := by
  rw [BranchBuilder.buildEntriesAtBuf, buildBranchEntries_zero, size_branchHeader,
    buildBranchEntries_panics henv hlow le_rfl hover]
  rfl

/-- Whatever is built, in any build: a panic or a page of the same length. -/
theorem buildBranchEntries_length (env : Env) (es : List BranchEntry) (i : ℕ) (page : Bytes)
    (writeCursor keyDataCursor : ℕ) :
    Returns Panics (BranchBuilder.buildEntries env es i page writeCursor keyDataCursor) fun r =>
      r.1.length = page.length := by
  induction es generalizing i page writeCursor keyDataCursor with
  | nil => exact rfl
  | cons e rest ih =>
    obtain ⟨entryKey, childPageId, childPageChecksum⟩ := e
    rw [BranchBuilder.buildEntries]
    simp only [returns_bind]
    refine (debugAssert_panics env _).mono fun _ _ => ?_
    refine (debugAssert_panics env _).mono fun _ _ => ?_
    refine (checkedSub_panics _ _).mono fun keyCursor _ => ?_
    refine (writeDataAtOffset_length page _ _).mono fun page₁ h₁ => ?_
    refine (writeToPrefix_length page₁ writeCursor _).mono fun page₂ h₂ => ?_
    refine (ih (i + 1) page₂ _ _).mono fun r h => ?_
    rw [h, h₂, h₁]

theorem buildBranchAtBuf_length (env : Env) (es : List BranchEntry) (page : Bytes) :
    Returns Panics (BranchBuilder.buildEntriesAtBuf env es page) fun page' =>
      page'.length = page.length := by
  rw [BranchBuilder.buildEntriesAtBuf, returns_bind]
  refine (buildBranchEntries_length env es 0 page _ _).mono fun r h => ?_
  exact (writeToPrefix_length r.1 0 _).mono fun page' h' => h'.trans h

/-- **Building a branch**, where that is guarded, makes a branch with these entries. A build
with debug assertions makes a page only where it has room. -/
theorem buildBranchAtBuf_returns {X : Fault → Prop} {G : Prop} {es : List BranchEntry}
    {page : Bytes} (hlow : 24 ≤ page.length) (hsmall : page.length < 2 ^ 63)
    (h : Guarded env X G (24 + branchSize (withoutFirstKey es) ≤ page.length)) :
    Returns X (BranchBuilder.buildEntriesAtBuf env es page) fun page' =>
      page'.length = page.length ∧ (G → BranchOk page' (withoutFirstKey es)) ∧
        (env.debugAssertions = true → 24 + branchSize (withoutFirstKey es) ≤ page.length) := by
  by_cases hfit : 24 + branchSize (withoutFirstKey es) ≤ page.length
  · obtain ⟨page', hrun, hlength, hok⟩ := buildBranchAtBuf_ok env hsmall hfit
    rw [hrun]
    exact ⟨hlength, fun _ => hok, fun _ => hfit⟩
  · obtain ⟨hpanic, hdebug⟩ := h.resolve_left hfit
    by_cases henv : env.debugAssertions = true
    · rw [buildBranchAtBuf_panics henv hlow (by omega)]
      exact hpanic
    · refine ((buildBranchAtBuf_length env es page).faults ?_).mono fun page' hlength =>
        ⟨hlength, fun hG => absurd (hdebug hG) henv, fun h => absurd h henv⟩
      rintro e rfl
      exact hpanic

/-- A separator that is not there is inserted where it belongs. -/
theorem BranchBuilder.insert_ok {cells : List BranchEntry} (hne : cells ≠ []) {key : Key} {i : ℕ}
    (hsearch : binarySearch key (cells.tail.map Prod.fst) = .error i) (child : Child) :
    BranchBuilder.insert ⟨cells⟩ key child.1 child.2 =
      .ok ⟨cells.insertIdx (i + 1) (key, child)⟩ := by
  have hlen : 1 ≤ cells.length := List.length_pos_iff.mpr hne
  rw [BranchBuilder.insert]
  dsimp only
  rw [assert_true hlen, ok_bind, hsearch]
  rfl

/-- **Splitting a branch** whose halves have room makes two branches with the entries of the
halves, the separator being the key of the first entry of the right one. -/
theorem buildSplitBranches_ok (env : Env) {cells : List BranchEntry} {left right : Bytes}
    (hlen : 2 ≤ cells.length) (hsmall : left.length < 2 ^ 63) (hright : right.length = left.length)
    (hfitLeft : 24 + branchSize (withoutFirstKey (cells.take (cells.length / 2))) ≤ left.length)
    (hfitRight : 24 + branchSize (withoutFirstKey (cells.drop (cells.length / 2))) ≤
      left.length) :
    ∃ sep left' right', BranchBuilder.buildSplitPages env ⟨cells⟩ left right =
        .ok (sep, left', right') ∧
      ((cells.drop (cells.length / 2)).head?).map Prod.fst = some sep ∧
      left'.length = left.length ∧ right'.length = left.length ∧
      BranchOk left' (withoutFirstKey (cells.take (cells.length / 2))) ∧
      BranchOk right' (withoutFirstKey (cells.drop (cells.length / 2))) := by
  have hmid : cells.length / 2 < cells.length := by omega
  have hdrop : cells.drop (cells.length / 2) =
      cells[cells.length / 2] :: cells.drop (cells.length / 2 + 1) :=
    List.drop_eq_getElem_cons hmid
  obtain ⟨left', hrunLeft, hlengthLeft, hokLeft⟩ := buildBranchAtBuf_ok env hsmall hfitLeft
  obtain ⟨right', hrunRight, hlengthRight, hokRight⟩ :=
    buildBranchAtBuf_ok env (by rwa [hright] : right.length < 2 ^ 63) (by rwa [hright])
  refine ⟨cells[cells.length / 2].1, left', right', ?_, by rw [hdrop]; rfl, hlengthLeft,
    hlengthRight.trans hright, hokLeft, hokRight⟩
  rw [BranchBuilder.buildSplitPages]
  dsimp only
  rw [debugAssert_true hlen, ok_bind, index_of_getElem? (by rw [hdrop]; rfl), ok_bind, hrunLeft,
    ok_bind, hrunRight]
  rfl

/-- **Splitting a branch**, where that is guarded, makes two branches, the separator being
the key of the first entry of the right one. -/
theorem buildSplitBranches_returns {X : Fault → Prop} {G : Prop} {cells : List BranchEntry}
    (hlen : 2 ≤ cells.length) {left right : Bytes} (hleft : 24 ≤ left.length)
    (hleft' : left.length < 2 ^ 63) (hright : right.length = left.length)
    (h : Guarded env X G
      (24 + branchSize (withoutFirstKey (cells.take (cells.length / 2))) ≤ left.length ∧
        24 + branchSize (withoutFirstKey (cells.drop (cells.length / 2))) ≤ left.length)) :
    Returns X (BranchBuilder.buildSplitPages env ⟨cells⟩ left right) fun r =>
      ((cells.drop (cells.length / 2)).head?).map Prod.fst = some r.1 ∧
      ∃ l a r', cells = l ++ a :: r' ∧ l ≠ [] ∧ a.1 = r.1 ∧ r.2.1.length = left.length ∧
        r.2.2.length = left.length ∧
        (G → BranchOk r.2.1 (withoutFirstKey l) ∧ BranchOk r.2.2 (withoutFirstKey (a :: r'))) ∧
        (env.debugAssertions = true →
          24 + branchSize (withoutFirstKey (cells.take (cells.length / 2))) ≤ left.length ∧
          24 + branchSize (withoutFirstKey (cells.drop (cells.length / 2))) ≤ left.length) := by
  have hmid : cells.length / 2 < cells.length := by omega
  have hdrop : cells.drop (cells.length / 2) =
      cells[cells.length / 2] :: cells.drop (cells.length / 2 + 1) :=
    List.drop_eq_getElem_cons hmid
  have hsplit : cells = cells.take (cells.length / 2) ++ cells.drop (cells.length / 2) :=
    (List.take_append_drop _ _).symm
  rw [BranchBuilder.buildSplitPages]
  dsimp only
  rw [debugAssert_true hlen, ok_bind, index_of_getElem? (by rw [hdrop]; rfl), ok_bind,
    returns_bind]
  refine (buildBranchAtBuf_returns hleft hleft' (h.imp And.left)).mono ?_
  rintro left' ⟨hlengthLeft, hokLeft, hfitLeft⟩
  rw [returns_bind]
  refine (buildBranchAtBuf_returns (by omega) (by omega)
    (h.imp fun hroom => hright.symm ▸ hroom.2)).mono ?_
  rintro right' ⟨hlengthRight, hokRight, hfitRight⟩
  rw [hright] at hfitRight
  rw [hdrop] at hokRight hsplit hfitRight ⊢
  refine ⟨rfl, _, _, _, hsplit, ?_, rfl, hlengthLeft, hlengthRight.trans hright, fun hG =>
    ⟨hokLeft hG, hokRight hG⟩, fun henv => ⟨hfitLeft henv, hfitRight henv⟩⟩
  rw [← List.length_pos_iff, List.length_take]
  omega

end building

end KvRaft.Kv
