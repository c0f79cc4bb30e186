import KvRaft.Kv.LeafNode
import Mathlib.Data.List.Perm.Basic

/-!
# What leaf pages mean

`LeafOk page kvs`: the page is a leaf with the pairs `kvs`, in increasing order of their
keys. Its entries are a slotted page (`Holds`) in which the value of a pair follows its
key, so that a pair is one range of data.

One lemma for each function of the leaf code says what it does on such a page:

* reading returns the pairs, searching the position in their list, `getValue` the value
  of their map;
* inserting a pair that fits is `upsert` on the pairs, in each of its three ways: over
  the old pair, over its entry with the pair appended, or with a new entry;
* building stops with a failed assertion or makes leaves of the pairs.
-/

namespace KvRaft.Kv

open Bytes Ordered

/-- A leaf page as a slotted page: the range of an entry is its key and its value. -/
def leafLayout : Layout LeafHeader LeafEntryMetadata where
  count h := h.numPairs.toNat
  dataEnd h := h.kvPairsEndOffset.toNat
  offset m := m.keyOffset.toNat
  size m := m.keySize.toNat + m.valueSize.toNat

/-- The pair an entry of a page refers to. -/
def leafPair (page : Bytes) (m : LeafEntryMetadata) : LeafEntry :=
  (slice page m.keyOffset.toNat m.keySize.toNat,
    slice page m.valueOffset.toNat m.valueSize.toNat)

/-- A page with the type of a leaf, whose entries `ms` refer to the pairs `kvs`, in whatever
order. -/
structure LeafLists (page : Bytes) (ms : List LeafEntryMetadata) (kvs : List LeafEntry) :
    Prop where
  kind : (readPod LeafHeader page 0).nodeType = NodeKind.leaf.toU64
  holds : Holds leafLayout page ms
  value : ∀ m ∈ ms, m.valueOffset.toNat = m.keyOffset.toNat + m.keySize.toNat
  pairs : ms.map (leafPair page) = kvs
  small : page.length < 2 ^ 63

/-- A leaf page with the entries `ms`, which refer to the pairs `kvs`. -/
structure LeafHolds (page : Bytes) (ms : List LeafEntryMetadata) (kvs : List LeafEntry) :
    Prop where
  kind : (readPod LeafHeader page 0).nodeType = NodeKind.leaf.toU64
  holds : Holds leafLayout page ms
  value : ∀ m ∈ ms, m.valueOffset.toNat = m.keyOffset.toNat + m.keySize.toNat
  pairs : ms.map (leafPair page) = kvs
  sorted : Sorted kvs
  small : page.length < 2 ^ 63

/-- The page is a leaf with the pairs `kvs`. -/
def LeafOk (page : Bytes) (kvs : List LeafEntry) : Prop :=
  ∃ ms, LeafHolds page ms kvs

section reading

variable {page : Bytes} {ms : List LeafEntryMetadata} {kvs : List LeafEntry}

theorem LeafHolds.lists (h : LeafHolds page ms kvs) : LeafLists page ms kvs :=
  ⟨h.kind, h.holds, h.value, h.pairs, h.small⟩

/-- Pairs in order make it a leaf. -/
theorem LeafLists.leaf (h : LeafLists page ms kvs) (hsorted : Sorted kvs) :
    LeafHolds page ms kvs :=
  ⟨h.kind, h.holds, h.value, h.pairs, hsorted, h.small⟩

theorem LeafLists.room (h : LeafLists page ms kvs) :
    24 + ms.length * 32 ≤ (readPod LeafHeader page 0).kvPairsEndOffset.toNat :=
  h.holds.filled.room

theorem LeafLists.bound (h : LeafLists page ms kvs) :
    (readPod LeafHeader page 0).kvPairsEndOffset.toNat ≤ page.length :=
  h.holds.filled.bound

theorem LeafLists.header (h : LeafLists page ms kvs) :
    refFromPrefix LeafHeader page = .ok (readPod LeafHeader page 0) := by
  have hroom := h.room
  have hbound := h.bound
  exact refFromPrefix_of_le (by rw [size_leafHeader]; omega)

/-- The entries of a page are where its range of data begins at the latest. -/
theorem LeafLists.entries (h : LeafLists page ms kvs) :
    refFromPrefixWithElems LeafEntryMetadata page (Pod.size LeafHeader)
      (readPod LeafHeader page 0).numPairs.toNat = .ok ms := by
  have hroom := h.room
  have hbound := h.bound
  have hcount : (readPod LeafHeader page 0).numPairs.toNat = ms.length := h.holds.count
  rw [hcount, refFromPrefixWithElems_of_le (by
    rw [size_leafHeader, size_leafEntryMetadata]; omega)]
  exact congrArg Except.ok h.holds.filled.slots

theorem LeafLists.fromPage (h : LeafLists page ms kvs) :
    LeafPage.fromPage page = .ok ⟨readPod LeafHeader page 0, ms, page⟩ := by
  rw [LeafPage.fromPage, h.header, ok_bind, h.entries]
  rfl

/-- The range of an entry lies in the data. -/
theorem LeafLists.range (h : LeafLists page ms kvs) {m : LeafEntryMetadata} (hm : m ∈ ms) :
    (readPod LeafHeader page 0).kvPairsEndOffset.toNat ≤ m.keyOffset.toNat ∧
      m.keyOffset.toNat + (m.keySize.toNat + m.valueSize.toNat) ≤ page.length :=
  h.holds.filled.range m hm

theorem LeafLists.entryKey (h : LeafLists page ms kvs) {m : LeafEntryMetadata} (hm : m ∈ ms)
    (hdr : LeafHeader) :
    LeafPage.entryKey ⟨hdr, ms, page⟩ m = .ok (leafPair page m).1 := by
  have hrange := h.range hm
  exact slicePage_of_le (by change _ ≤ page.length; omega)

theorem LeafLists.entryValue (h : LeafLists page ms kvs) {m : LeafEntryMetadata} (hm : m ∈ ms)
    (hdr : LeafHeader) :
    LeafPage.entryValue ⟨hdr, ms, page⟩ m = .ok (leafPair page m).2 := by
  have hrange := h.range hm
  have hvalue := h.value m hm
  exact slicePage_of_le (by change _ ≤ page.length; omega)

theorem LeafLists.kvPairs (h : LeafLists page ms kvs) (hdr : LeafHeader) :
    LeafPage.kvPairs ⟨hdr, ms, page⟩ = .ok kvs := by
  rw [← h.pairs]
  refine mapM_ok fun m hm => ?_
  rw [h.entryKey hm, ok_bind, h.entryValue hm]
  rfl

theorem LeafHolds.length (h : LeafHolds page ms kvs) : kvs.length = ms.length := by
  rw [← h.pairs, List.length_map]

theorem LeafHolds.room (h : LeafHolds page ms kvs) :
    24 + ms.length * 32 ≤ (readPod LeafHeader page 0).kvPairsEndOffset.toNat :=
  h.lists.room

theorem LeafHolds.bound (h : LeafHolds page ms kvs) :
    (readPod LeafHeader page 0).kvPairsEndOffset.toNat ≤ page.length :=
  h.lists.bound

theorem LeafHolds.numPairs (h : LeafHolds page ms kvs) :
    (readPod LeafHeader page 0).numPairs.toNat = ms.length :=
  h.holds.count

theorem LeafHolds.header (h : LeafHolds page ms kvs) :
    refFromPrefix LeafHeader page = .ok (readPod LeafHeader page 0) :=
  h.lists.header

theorem LeafHolds.entries (h : LeafHolds page ms kvs) :
    refFromPrefixWithElems LeafEntryMetadata page (Pod.size LeafHeader)
      (readPod LeafHeader page 0).numPairs.toNat = .ok ms :=
  h.lists.entries

theorem LeafHolds.fromPage (h : LeafHolds page ms kvs) :
    LeafPage.fromPage page = .ok ⟨readPod LeafHeader page 0, ms, page⟩ :=
  h.lists.fromPage

theorem LeafHolds.range (h : LeafHolds page ms kvs) {m : LeafEntryMetadata} (hm : m ∈ ms) :
    (readPod LeafHeader page 0).kvPairsEndOffset.toNat ≤ m.keyOffset.toNat ∧
      m.keyOffset.toNat + (m.keySize.toNat + m.valueSize.toNat) ≤ page.length :=
  h.lists.range hm

theorem LeafHolds.entryKey (h : LeafHolds page ms kvs) {m : LeafEntryMetadata} (hm : m ∈ ms)
    (hdr : LeafHeader) :
    LeafPage.entryKey ⟨hdr, ms, page⟩ m = .ok (leafPair page m).1 :=
  h.lists.entryKey hm hdr

theorem LeafHolds.entryValue (h : LeafHolds page ms kvs) {m : LeafEntryMetadata} (hm : m ∈ ms)
    (hdr : LeafHeader) :
    LeafPage.entryValue ⟨hdr, ms, page⟩ m = .ok (leafPair page m).2 :=
  h.lists.entryValue hm hdr

theorem LeafHolds.kvPairs (h : LeafHolds page ms kvs) (hdr : LeafHeader) :
    LeafPage.kvPairs ⟨hdr, ms, page⟩ = .ok kvs :=
  h.lists.kvPairs hdr

theorem LeafHolds.searchEntryIndex (h : LeafHolds page ms kvs) (hdr : LeafHeader) (key : Key) :
    LeafPage.searchEntryIndex ⟨hdr, ms, page⟩ key =
      .ok (binarySearch key (kvs.map Prod.fst)) := by
  have hkeys : ms.mapM (LeafPage.entryKey ⟨hdr, ms, page⟩) = .ok (kvs.map Prod.fst) := by
    rw [← h.pairs, List.map_map]
    exact mapM_ok fun m hm => h.entryKey hm hdr
  rw [LeafPage.searchEntryIndex, hkeys]
  rfl

/-- Reading a key of a leaf reads its map. -/
theorem LeafHolds.getValue (h : LeafHolds page ms kvs) (hdr : LeafHeader) (key : Key) :
    LeafPage.getValue ⟨hdr, ms, page⟩ key = .ok (contents kvs key) := by
  rw [LeafPage.getValue, h.searchEntryIndex, ok_bind, contents_eq_of_binarySearch h.sorted]
  have hbound := binarySearch_bound key (kvs.map Prod.fst)
  rcases hsearch : binarySearch key (kvs.map Prod.fst) with i | i
  · rfl
  · rw [hsearch, ← h.pairs, List.map_map] at hbound
    dsimp only at hbound
    rw [List.getElem?_map, Option.map_eq_some_iff] at hbound
    obtain ⟨m, hm, -⟩ := hbound
    have hmem : m ∈ ms := List.mem_of_getElem? hm
    dsimp only
    rw [index_of_getElem? hm, ok_bind, h.entryValue hmem, ok_bind, ← h.pairs,
      List.getElem?_map, hm]
    rfl

theorem LeafHolds.mutatorEntries (h : LeafHolds page ms kvs) :
    LeafPageMutator.entries page = .ok ms := by
  rw [LeafPageMutator.entries, h.header, ok_bind, h.entries]

/-- A pair fits when it and one more entry fit between the entries and the data. -/
theorem LeafHolds.fits (h : LeafHolds page ms kvs) (key : Key) (value : Value) :
    LeafPageMutator.fits page key value =
      .ok (decide (24 + (ms.length + 1) * 32 + (key.length + value.length) ≤
        (readPod LeafHeader page 0).kvPairsEndOffset.toNat)) := by
  have hroom := h.room
  have hbound := h.bound
  have hsmall := h.small
  rw [LeafPageMutator.fits, LeafPageMutator.header, h.header, ok_bind, h.numPairs,
    size_leafHeader, size_leafEntryMetadata]
  dsimp only
  split
  · rw [decide_eq_false (by omega)]
    rfl
  · rw [usize_of_lt (by omega), ok_bind]
    refine congrArg Except.ok (decide_eq_decide.mpr ?_)
    omega

end reading

/-- The kind of a page is the first field of its header. -/
theorem nodeKind_parse {page : Bytes} (h : 24 ≤ page.length) {kind : NodeKind}
    (hkind : (readPod LeafHeader page 0).nodeType = kind.toU64) :
    NodeKind.parse page = .ok kind := by
  have hread : readPod UInt64 page 0 = (readPod LeafHeader page 0).nodeType := by
    change Pod.decode (slice page 0 8) = Pod.decode ((slice page 0 24).take 8)
    rw [slice, slice, List.take_take]
    rfl
  rw [NodeKind.parse, refFromPrefix_of_le (by change 8 ≤ _; omega), ok_bind, hread, hkind]
  cases kind <;> rfl

theorem LeafLists.parse {page : Bytes} {ms : List LeafEntryMetadata} {kvs : List LeafEntry}
    (h : LeafLists page ms kvs) : NodeKind.parse page = .ok .leaf := by
  have hroom := h.room
  have hbound := h.bound
  exact nodeKind_parse (by omega) h.kind

theorem LeafHolds.parse {page : Bytes} {ms : List LeafEntryMetadata} {kvs : List LeafEntry}
    (h : LeafHolds page ms kvs) : NodeKind.parse page = .ok .leaf :=
  h.lists.parse

/-! ### Editing in place -/

section editing

variable {page : Bytes} {ms : List LeafEntryMetadata} {kvs : List LeafEntry} {key : Key}
  {value : Value} {offset : ℕ}

/-- The entry of a pair written at `offset`. -/
def entryAt (key : Key) (value : Value) (offset : ℕ) : LeafEntryMetadata :=
  LeafEntryMetadata.new key.length offset value.length (offset + key.length)

/-- A pair that lies inside a page. -/
structure Inside (page : Bytes) (key : Key) (value : Value) (offset : ℕ) : Prop where
  bound : offset + (key.length + value.length) ≤ page.length
  small : page.length < 2 ^ 63

theorem Inside.entryAt (h : Inside page key value offset) :
    (entryAt key value offset).keySize.toNat = key.length ∧
      (entryAt key value offset).keyOffset.toNat = offset ∧
      (entryAt key value offset).valueSize.toNat = value.length ∧
      (entryAt key value offset).valueOffset.toNat = offset + key.length := by
  obtain ⟨hbound, hsmall⟩ := h
  have hround : ∀ n, n ≤ page.length → (UInt64.ofNat n).toNat = n := fun n hn =>
    UInt64.toNat_ofNat_of_lt' (hn.trans_lt (hsmall.trans (by decide)))
  exact ⟨hround _ (by omega), hround _ (by omega), hround _ (by omega), hround _ (by omega)⟩

theorem Inside.entry_offset (h : Inside page key value offset) :
    leafLayout.offset (KvRaft.Kv.entryAt key value offset) = offset := h.entryAt.2.1

theorem Inside.entry_size (h : Inside page key value offset) :
    leafLayout.size (KvRaft.Kv.entryAt key value offset) = key.length + value.length := by
  obtain ⟨hks, -, hvs, -⟩ := h.entryAt
  change _ + _ = _
  rw [hks, hvs]

theorem Inside.writeKv (h : Inside page key value offset) :
    LeafPageMutator.writeKv page key value offset (offset + key.length) =
      .ok (splice page offset (key ++ value)) := by
  obtain ⟨hbound, -⟩ := h
  have hkey : offset + key.length ≤ page.length := by omega
  rw [LeafPageMutator.writeKv, writeDataAtOffset_of_le hkey, ok_bind,
    writeDataAtOffset_of_le (by rw [length_splice hkey]; omega),
    splice_splice_append (by omega)]

/-- **One pair written.** On the page with a pair written over nothing that `rest` refers
to, the entries kept refer to the pairs they referred to and the new one to the pair. -/
theorem LeafHolds.overwrite (h : LeafHolds page ms kvs) (hin : Inside page key value offset)
    {hdr : LeafHeader} {rest ms' : List LeafEntryMetadata} (hrest : rest.Sublist ms)
    (how : Overwrite leafLayout page (key ++ value) hdr (entryAt key value offset) rest ms')
    (hkind : hdr.nodeType = NodeKind.leaf.toU64) {kvs' : List LeafEntry} (hsorted : Sorted kvs')
    (hpairs : ∀ f : LeafEntryMetadata → LeafEntry, (∀ m ∈ rest, f m = leafPair page m) →
      f (entryAt key value offset) = (key, value) → ms'.map f = kvs') :
    LeafHolds (rewrite page offset (key ++ value) hdr ms') ms' kvs' := by
  obtain ⟨hks, hko, hvs, hvo⟩ := hin.entryAt
  have hoffset := hin.entry_offset
  have hfit := how.fits
  rw [hoffset] at hfit
  have hholds := h.holds.overwrite hrest how
  rw [hoffset] at hholds
  refine ⟨?_, hholds, ?_, hpairs _ ?_ ?_, hsorted, ?_⟩
  · rw [readPod_rewrite hfit, hkind]
  · intro m hm
    rcases List.mem_cons.mp (how.perm.mem_iff.mp hm) with rfl | hm
    · omega
    · exact h.value m (hrest.subset hm)
  · intro m hm
    -- a pair that stays: its bytes are where they were
    have hvalue := h.value m (hrest.subset hm)
    have hkeySlice := h.holds.slice_overwrite hrest how hm (j := 0) (n := m.keySize.toNat)
      (by change 0 + _ ≤ m.keySize.toNat + m.valueSize.toNat; omega)
    have hvalueSlice := h.holds.slice_overwrite hrest how hm (j := m.keySize.toNat)
      (n := m.valueSize.toNat) le_rfl
    rw [hoffset] at hkeySlice hvalueSlice
    rw [Nat.add_zero] at hkeySlice
    refine Prod.ext_iff.mpr ⟨hkeySlice, ?_⟩
    rw [leafPair, leafPair, hvalue]
    exact hvalueSlice
  · -- the pair that was written
    have hkeySlice := slice_rewrite_data (h := hdr) hfit (j := 0) (n := key.length)
      (by rw [List.length_append]; omega)
    have hvalueSlice := slice_rewrite_data (h := hdr) hfit (j := key.length)
      (n := value.length) (by rw [List.length_append])
    rw [leafPair, hks, hko, hvs, hvo, hvalueSlice]
    rw [Nat.add_zero] at hkeySlice
    rw [hkeySlice]
    simp [slice]
  · rw [length_rewrite hfit]
    exact h.small

/-- Where a pair that fits is appended. -/
theorem LeafHolds.appendKv (h : LeafHolds page ms kvs)
    (hfit : key.length + value.length ≤
      (readPod LeafHeader page 0).kvPairsEndOffset.toNat) :
    LeafPageMutator.appendKv page key value =
      .ok (splice page ((readPod LeafHeader page 0).kvPairsEndOffset.toNat -
          key.length - value.length) (key ++ value),
        (readPod LeafHeader page 0).kvPairsEndOffset.toNat - key.length - value.length,
        (readPod LeafHeader page 0).kvPairsEndOffset.toNat - key.length - value.length +
          key.length) := by
  have hbound := h.bound
  have hin : Inside page key value
      ((readPod LeafHeader page 0).kvPairsEndOffset.toNat - key.length - value.length) :=
    ⟨by omega, h.small⟩
  rw [LeafPageMutator.appendKv, LeafPageMutator.header, h.header, ok_bind,
    checkedSub_of_le (by omega), ok_bind, checkedSub_of_le (by omega), ok_bind]
  dsimp only
  rw [hin.writeKv]
  rfl

/-- Data written behind the entries leaves the front of the page as it is. -/
theorem LeafHolds.front_splice (h : LeafHolds page ms kvs) (offset : ℕ) (data : Bytes)
    (hlow : 24 + ms.length * 32 ≤ offset) (hhigh : offset + data.length ≤ page.length) :
    readPod LeafHeader (splice page offset data) 0 = readPod LeafHeader page 0 ∧
      readPods LeafEntryMetadata (splice page offset data) 24 ms.length = ms := by
  have hslots := h.holds.filled.slots
  rw [size_leafHeader] at hslots
  refine ⟨readPod_splice hhigh (Or.inl (by rw [size_leafHeader]; omega)), ?_⟩
  rw [readPods_splice hhigh (Or.inl (by rw [size_leafEntryMetadata]; omega)), hslots]

/-- The entries of a page whose header and entries are known. -/
theorem entries_of_front {hdr : LeafHeader} {n : ℕ} {ms : List LeafEntryMetadata}
    (hhdr : readPod LeafHeader page 0 = hdr) (hn : hdr.numPairs.toNat = n)
    (hroom : 24 + n * 32 ≤ page.length)
    (hms : readPods LeafEntryMetadata page 24 n = ms) :
    LeafPageMutator.entries page = .ok ms := by
  rw [LeafPageMutator.entries, refFromPrefix_of_le (by rw [size_leafHeader]; omega), ok_bind,
    hhdr, hn, size_leafHeader, refFromPrefixWithElems_of_le (by
      rw [size_leafEntryMetadata]; omega), hms]

/-- A new entry at position `i`, with its pair appended. -/
theorem LeafHolds.insertNewKv (h : LeafHolds page ms kvs) {i : ℕ} (hi : i ≤ ms.length)
    (hfit : 24 + (ms.length + 1) * 32 + (key.length + value.length) ≤
      (readPod LeafHeader page 0).kvPairsEndOffset.toNat)
    (hsorted : Sorted (kvs.insertIdx i (key, value))) :
    ∃ page', LeafPageMutator.insertNewKv page i key value = .ok page' ∧
      page'.length = page.length ∧ LeafOk page' (kvs.insertIdx i (key, value)) ∧
      (readPod LeafHeader page' 0).kvPairsEndOffset.toNat =
        (readPod LeafHeader page 0).kvPairsEndOffset.toNat - key.length - value.length := by
  have hbound := h.bound
  have hsmall := h.small
  generalize hoffset :
    (readPod LeafHeader page 0).kvPairsEndOffset.toNat - key.length - value.length = offset
  have hin : Inside page key value offset := ⟨by omega, h.small⟩
  obtain ⟨hks, hko, hvs, -⟩ := hin.entryAt
  let hdr : LeafHeader := { readPod LeafHeader page 0 with
    numPairs := .ofNat (ms.length + 1), kvPairsEndOffset := .ofNat offset }
  have hcount : hdr.numPairs.toNat = ms.length + 1 :=
    UInt64.toNat_ofNat_of_lt' (by change _ < 2 ^ 64; omega)
  have hend : hdr.kvPairsEndOffset.toNat = offset :=
    UInt64.toNat_ofNat_of_lt' (by change _ < 2 ^ 64; omega)
  let ms' := ms.insertIdx i (entryAt key value offset)
  have hlen : ms'.length = ms.length + 1 := List.length_insertIdx_of_le_length hi _
  have hdata : (key ++ value).length = key.length + value.length := List.length_append
  have hfits : Fits LeafHeader page offset (key ++ value) ms' (leafLayout.dataEnd hdr) :=
    ⟨by change 24 + ms'.length * 32 ≤ hdr.kvPairsEndOffset.toNat; omega, hend.le, by omega⟩
  -- The data goes in front of the rest, then the header is written, and the entries are moved
  -- up by one: what comes out is the page rewritten in one piece.
  have hrun : LeafPageMutator.insertNewKv page i key value =
      .ok (rewrite page offset (key ++ value) hdr ms') := by
    obtain ⟨hhdr, hms⟩ := h.front_splice offset (key ++ value) (by omega) (by omega)
    have hlength : (splice page offset (key ++ value)).length = page.length :=
      length_splice (by omega)
    have hlength' : (writePod (splice page offset (key ++ value)) 0 hdr).length = page.length := by
      rw [length_writePod hdr (by rw [size_leafHeader]; omega), hlength]
    have hentries : LeafPageMutator.entries (writePod (splice page offset (key ++ value)) 0 hdr) =
        .ok (ms ++ [readPod LeafEntryMetadata (writePod (splice page offset (key ++ value)) 0 hdr)
          (24 + ms.length * 32)]) := by
      refine entries_of_front (readPod_writePod hdr (by rw [size_leafHeader]; omega)) hcount
        (by omega) ?_
      have hencode : (Pod.encode hdr).length = 24 := Pod.length_encode hdr
      rw [readPods_succ, writePod, readPods_splice (by omega) (Or.inr (by omega)), hms]
      rfl
    rw [LeafPageMutator.insertNewKv, h.mutatorEntries, ok_bind, h.appendKv (by omega), ok_bind,
      hoffset]
    dsimp only
    rw [LeafPageMutator.headerMut, refFromPrefix_of_le (by rw [size_leafHeader]; omega), ok_bind,
      hhdr, pure_eq_ok, ok_bind]
    change LeafPageMutator.insertMetadata (writePod (splice page offset (key ++ value)) 0 hdr) i
      ms.length (entryAt key value offset) = _
    rw [LeafPageMutator.insertMetadata, LeafPageMutator.entriesMut, hentries, ok_bind,
      copyWithin_setAt hi]
    rfl
  refine ⟨_, hrun, length_rewrite hfits, ⟨ms', ?_⟩, ?_⟩
  on_goal 2 => rw [readPod_rewrite hfits, hend]
  have hkind : hdr.nodeType = NodeKind.leaf.toU64 := h.kind
  refine h.overwrite hin (List.Sublist.refl ms) ⟨List.perm_insertIdx _ _ hi, ?_, ?_, ?_, ?_, ?_⟩
    hkind hsorted ?_
  · rw [hin.entry_size, hdata]
  · change hdr.numPairs.toNat = _
    rw [hcount, hlen]
  · rw [hin.entry_offset]
    exact hfits
  · change hdr.kvPairsEndOffset.toNat ≤ (readPod LeafHeader page 0).kvPairsEndOffset.toNat
    omega
  · -- the new pair is in front of all the data
    intro m hm
    have hrange := h.range hm
    refine Layout.apart_iff.mpr (Or.inr (Or.inr (Or.inr ?_)))
    rw [hin.entry_offset, hin.entry_size]
    change _ ≤ m.keyOffset.toNat
    omega
  · intro f hold hnew
    rw [List.map_insertIdx, hnew, ← h.pairs, List.map_congr_left hold]

/-- The pairs of a page one of whose entries is replaced. -/
theorem LeafHolds.map_set (h : LeafHolds page ms kvs) {i : ℕ} {m' : LeafEntryMetadata}
    {f : LeafEntryMetadata → LeafEntry} (hold : ∀ m ∈ ms.eraseIdx i, f m = leafPair page m)
    (hnew : f m' = (key, value)) : (ms.set i m').map f = kvs.set i (key, value) := by
  rw [List.eraseIdx_eq_take_drop_succ] at hold
  have hfront : (ms.take i).map f = (ms.take i).map (leafPair page) :=
    List.map_congr_left fun m hm => hold m (List.mem_append_left _ hm)
  have hback : (ms.drop (i + 1)).map f = (ms.drop (i + 1)).map (leafPair page) :=
    List.map_congr_left fun m hm => hold m (List.mem_append_right _ hm)
  by_cases hi : i < ms.length
  · have hi' : i < kvs.length := by rwa [h.length]
    rw [List.set_eq_take_append_cons_drop, if_pos hi, List.set_eq_take_append_cons_drop,
      if_pos hi', List.map_append, List.map_cons, hfront, hback, hnew, List.map_take,
      List.map_drop, h.pairs]
  · have hmap : ms.map f = kvs := by
      rw [← h.pairs, ← List.take_of_length_le (not_lt.mp hi), hfront]
    rw [List.set_eq_of_length_le (not_lt.mp hi), List.set_eq_of_length_le (by
      rw [h.length]; exact not_lt.mp hi), hmap]

/-- The entry at position `i` replaced, its pair written over the old one where it fits
there, and appended otherwise. -/
theorem LeafHolds.insertExistingKv (h : LeafHolds page ms kvs) {i : ℕ} (hi : i < ms.length)
    (hfit : 24 + (ms.length + 1) * 32 + (key.length + value.length) ≤
      (readPod LeafHeader page 0).kvPairsEndOffset.toNat)
    (hsorted : Sorted (kvs.set i (key, value))) :
    ∃ page', LeafPageMutator.insertExistingKv page i key value = .ok page' ∧
      page'.length = page.length ∧ LeafOk page' (kvs.set i (key, value)) := by
  have hroom := h.room
  have hbound := h.bound
  have hsmall := h.small
  have hdata : (key ++ value).length = key.length + value.length := List.length_append
  have hmem : ms[i] ∈ ms := List.getElem_mem hi
  have hrange := h.range hmem
  have hsize : ms[i].kvSize = .ok (ms[i].keySize.toNat + ms[i].valueSize.toNat) :=
    usize_of_lt (by omega)
  have hlen : ∀ m', (ms.set i m').length = ms.length := fun m' => List.length_set
  -- the other pairs do not touch the bytes of the old one, so its range may be written over
  have hapart : ∀ m ∈ ms.eraseIdx i, leafLayout.Apart ms[i] m :=
    (List.pairwise_cons.mp (h.holds.filled.apart.perm
      (List.getElem_cons_eraseIdx_perm hi).symm Layout.Apart.symm)).1
  rw [LeafPageMutator.insertExistingKv, h.mutatorEntries, ok_bind,
    index_of_getElem? (List.getElem?_eq_getElem hi), ok_bind, hsize, ok_bind]
  dsimp only
  split
  · -- over the old pair: the header stays as it is
    rename_i hle
    generalize hoffset : ms[i].keyOffset.toNat = offset at hrange
    have hin : Inside page key value offset := ⟨by omega, h.small⟩
    let hdr := readPod LeafHeader page 0
    let ms' := ms.set i (entryAt key value offset)
    have hfits : Fits LeafHeader page offset (key ++ value) ms' (leafLayout.dataEnd hdr) :=
      ⟨by rw [hlen]; exact hroom, hrange.1, by omega⟩
    obtain ⟨hhdr, hms⟩ := h.front_splice offset (key ++ value) (by omega) (by omega)
    have hlength : (splice page offset (key ++ value)).length = page.length :=
      length_splice (by omega)
    have hentries : LeafPageMutator.entries (splice page offset (key ++ value)) = .ok ms :=
      entries_of_front hhdr h.numPairs (by omega) hms
    have hsame : writePod (splice page offset (key ++ value)) 0 hdr =
        splice page offset (key ++ value) := by
      calc writePod (splice page offset (key ++ value)) 0 hdr
          = writePod (splice page offset (key ++ value)) 0
              (readPod LeafHeader (splice page offset (key ++ value)) 0) := by rw [hhdr]
        _ = splice page offset (key ++ value) :=
            writePod_readPod (by rw [size_leafHeader]; omega)
    refine ⟨rewrite page offset (key ++ value) hdr ms', ?_, length_rewrite hfits, ms', ?_⟩
    · rw [hin.writeKv, ok_bind, pure_eq_ok, ok_bind]
      dsimp only
      rw [LeafPageMutator.entriesMut, hentries, ok_bind, setAt_of_lt hi, ok_bind, rewrite, hsame]
      rfl
    · refine h.overwrite hin (List.eraseIdx_sublist ms i)
        ⟨List.set_perm_cons_eraseIdx hi _, ?_, ?_, ?_, le_rfl, ?_⟩ h.kind hsorted
        fun f => h.map_set
      · rw [hin.entry_size, hdata]
      · rw [hlen]
        exact h.numPairs
      · rw [hin.entry_offset]
        exact hfits
      · -- the new range is inside the old one
        intro m hm
        have hold := Layout.apart_iff.mp (hapart m hm)
        rw [Layout.apart_iff, hin.entry_offset, hin.entry_size]
        simp only [leafLayout] at hold ⊢
        omega
  · -- appended: the data begins with the new pair
    generalize hoffset : (readPod LeafHeader page 0).kvPairsEndOffset.toNat - key.length -
      value.length = offset
    have hin : Inside page key value offset := ⟨by omega, h.small⟩
    let hdr : LeafHeader := { readPod LeafHeader page 0 with kvPairsEndOffset := .ofNat offset }
    have hend : hdr.kvPairsEndOffset.toNat = offset :=
      UInt64.toNat_ofNat_of_lt' (by change _ < 2 ^ 64; omega)
    let ms' := ms.set i (entryAt key value offset)
    have hfits : Fits LeafHeader page offset (key ++ value) ms' (leafLayout.dataEnd hdr) :=
      ⟨by rw [hlen]; change 24 + ms.length * 32 ≤ hdr.kvPairsEndOffset.toNat; omega,
        hend.le, by omega⟩
    obtain ⟨hhdr, hms⟩ := h.front_splice offset (key ++ value) (by omega) (by omega)
    have hlength : (splice page offset (key ++ value)).length = page.length :=
      length_splice (by omega)
    have hlength' : (writePod (splice page offset (key ++ value)) 0 hdr).length =
        page.length := by
      rw [length_writePod hdr (by rw [size_leafHeader]; omega), hlength]
    have hentries :
        LeafPageMutator.entries (writePod (splice page offset (key ++ value)) 0 hdr) = .ok ms := by
      refine entries_of_front (readPod_writePod hdr (by rw [size_leafHeader]; omega))
        h.numPairs (by omega) ?_
      have hencode : (Pod.encode hdr).length = 24 := Pod.length_encode hdr
      rw [writePod, readPods_splice (by omega) (Or.inr (by omega)), hms]
    refine ⟨rewrite page offset (key ++ value) hdr ms', ?_, length_rewrite hfits, ms', ?_⟩
    · rw [h.appendKv (by omega), ok_bind, hoffset]
      dsimp only
      rw [LeafPageMutator.headerMut, refFromPrefix_of_le (by rw [size_leafHeader]; omega),
        ok_bind, hhdr, pure_eq_ok, ok_bind, pure_eq_ok, ok_bind]
      change LeafPageMutator.entriesMut (writePod (splice page offset (key ++ value)) 0 hdr) _ = _
      rw [LeafPageMutator.entriesMut, hentries, ok_bind, setAt_of_lt hi, ok_bind]
      rfl
    · refine h.overwrite hin (List.eraseIdx_sublist ms i)
        ⟨List.set_perm_cons_eraseIdx hi _, ?_, ?_, ?_, ?_, ?_⟩
        (show hdr.nodeType = NodeKind.leaf.toU64 from h.kind) hsorted fun f => h.map_set
      · rw [hin.entry_size, hdata]
      · rw [hlen]
        exact h.numPairs
      · rw [hin.entry_offset]
        exact hfits
      · change hdr.kvPairsEndOffset.toNat ≤ (readPod LeafHeader page 0).kvPairsEndOffset.toNat
        omega
      · intro m hm
        -- the new range is in front of all the data
        have hfar := h.range ((List.eraseIdx_sublist ms i).subset hm)
        refine Layout.apart_iff.mpr (Or.inr (Or.inr (Or.inr ?_)))
        rw [hin.entry_offset, hin.entry_size]
        change _ ≤ m.keyOffset.toNat
        omega

/-- A pair with a new key takes its bytes from the room there is. -/
theorem LeafHolds.insert_new (h : LeafHolds page ms kvs) (hkey : key ∉ kvs.map Prod.fst)
    (hfit : 24 + (ms.length + 1) * 32 + (key.length + value.length) ≤
      (readPod LeafHeader page 0).kvPairsEndOffset.toNat) :
    ∃ page' ms', LeafPageMutator.insert page key value = .ok page' ∧
      page'.length = page.length ∧ LeafHolds page' ms' (upsert key value kvs) ∧
      (readPod LeafHeader page' 0).kvPairsEndOffset.toNat =
        (readPod LeafHeader page 0).kvPairsEndOffset.toNat - key.length - value.length := by
  have hsorted := sorted_upsert h.sorted key value
  have hsearch := binarySearch_bound key (kvs.map Prod.fst)
  rcases hcase : binarySearch key (kvs.map Prod.fst) with i | i
  · rw [hcase] at hsearch
    rw [upsert, hcase] at hsorted ⊢
    obtain ⟨page', hrun, hlength, ⟨ms', hpage'⟩, hend⟩ :=
      h.insertNewKv (by rw [← h.length]; simpa using hsearch) hfit hsorted
    refine ⟨page', ms', ?_, hlength, hpage', hend⟩
    rw [LeafPageMutator.insert, h.fromPage, ok_bind, h.searchEntryIndex, ok_bind, hcase]
    exact hrun
  · rw [hcase] at hsearch
    exact absurd (List.mem_of_getElem? hsearch) hkey

/-- **Inserting a pair that fits** sets the value of its key. -/
theorem LeafHolds.insert (h : LeafHolds page ms kvs)
    (hfit : LeafPageMutator.fits page key value = .ok true) :
    ∃ page', LeafPageMutator.insert page key value = .ok page' ∧
      page'.length = page.length ∧ LeafOk page' (upsert key value kvs) := by
  rw [h.fits, Except.ok.injEq, decide_eq_true_eq] at hfit
  have hsorted := sorted_upsert h.sorted key value
  have hsearch := binarySearch_bound key (kvs.map Prod.fst)
  rw [LeafPageMutator.insert, h.fromPage, ok_bind, h.searchEntryIndex, ok_bind]
  rw [upsert] at hsorted ⊢
  rcases hcase : binarySearch key (kvs.map Prod.fst) with i | i
  · rw [hcase] at hsearch hsorted
    have hi : i ≤ ms.length := by
      rw [← h.length]
      simpa using hsearch
    obtain ⟨page', hrun, hlength, hok, -⟩ := h.insertNewKv hi hfit hsorted
    exact ⟨page', hrun, hlength, hok⟩
  · rw [hcase] at hsearch hsorted
    have hi : i < ms.length := by
      rw [← h.length]
      simpa using (List.getElem?_eq_some_iff.mp hsearch).1
    exact h.insertExistingKv hi hfit hsorted

end editing

/-! ### Building -/

section building

variable {env : Env}

/-- A fault of the code that is no error. -/
def Panics (e : Fault) : Prop := e = .panic

@[simp] theorem panics_panic : Panics .panic := rfl

/-- What lets a page be built: it has room for its entries; or a failed assertion is an
allowed end, and the build has debug assertions if the page has to be right (`G`). -/
def Guarded (env : Env) (X : Fault → Prop) (G room : Prop) : Prop :=
  room ∨ X .panic ∧ (G → env.debugAssertions = true)

/-- The debug assertions guard everything. -/
theorem guarded_debug (henv : env.debugAssertions = true) (G room : Prop) :
    Guarded env Panics G room :=
  Or.inr ⟨rfl, fun _ => henv⟩

theorem guarded_of_or {room : Prop} (h : env.debugAssertions = true ∨ room) (G : Prop) :
    Guarded env Panics G room :=
  h.symm.imp_right fun henv => ⟨rfl, fun _ => henv⟩

theorem Guarded.imp {X : Fault → Prop} {G room room' : Prop} (h : Guarded env X G room)
    (hroom : room → room') : Guarded env X G room' :=
  h.imp_left hroom

theorem debugAssert_false (henv : env.debugAssertions = true) {p : Prop} [Decidable p]
    (h : ¬p) : debugAssert env p = .error .panic := by
  rw [debugAssert, if_pos henv, assert, if_neg h]

/-- One round of the loop: a pair written in front of the data, its entry after the
entries. -/
theorem push_pair {page : Bytes} {ms : List LeafEntryMetadata} {c : ℕ} {key : Key}
    {value : Value} (hsize : key.length + value.length ≤ c) (hbound : c ≤ page.length)
    (hsmall : page.length < 2 ^ 63) :
    writePod (splice (splice page (c - value.length) value) (c - value.length - key.length) key)
        (24 + ms.length * 32) (entryAt key value (c - value.length - key.length)) =
      push leafLayout page ms.length (key ++ value)
        (entryAt key value (c - value.length - key.length)) := by
  have hin : Inside page key value (c - value.length - key.length) := ⟨by omega, hsmall⟩
  have hend : c - value.length - key.length + key.length = c - value.length := by omega
  have hkey : splice page (c - value.length - key.length) (key ++ value) =
      splice (splice page (c - value.length) value) (c - value.length - key.length) key := by
    rw [← splice_splice_append (by omega), hend,
      splice_comm (by omega) (by omega) (by omega)]
  rw [push, hin.entry_offset, hkey, size_leafHeader, size_leafEntryMetadata]

/-- The bytes the pairs of a leaf take: an entry and its data each. -/
def leafSize (es : List LeafEntry) : ℕ :=
  (es.map fun e => 32 + e.1.length + e.2.length).sum

@[simp] theorem leafSize_nil : leafSize [] = 0 := rfl

@[simp]
theorem leafSize_cons (e : LeafEntry) (es : List LeafEntry) :
    leafSize (e :: es) = 32 + e.1.length + e.2.length + leafSize es := rfl

theorem leafSize_append (l r : List LeafEntry) : leafSize (l ++ r) = leafSize l + leafSize r := by
  rw [leafSize, List.map_append, List.sum_append]
  rfl

/-- A pair takes its bytes. -/
theorem le_leafSize {e : LeafEntry} {es : List LeafEntry} (h : e ∈ es) :
    32 + e.1.length + e.2.length ≤ leafSize es := by
  obtain ⟨before, after, rfl⟩ := List.append_of_mem h
  rw [leafSize_append, leafSize_cons]
  omega

/-- The pairs of a leaf have room in its page. -/
theorem LeafHolds.leafSize_le {page : Bytes} {ms : List LeafEntryMetadata} {kvs : List LeafEntry}
    (h : LeafHolds page ms kvs) : 24 + leafSize kvs ≤ page.length := by
  have hroom := h.room
  have hpacked := h.holds.filled.packed
  -- each pair is as long as its range of data
  have hsize : leafSize kvs = ms.length * 32 + (ms.map leafLayout.size).sum := by
    rw [← h.pairs, leafSize, List.map_map]
    have hlength : ∀ m ∈ ms, ((fun e : LeafEntry => 32 + e.1.length + e.2.length) ∘ leafPair page) m =
        32 + leafLayout.size m := fun m hm => by
      have hrange := h.range hm
      have hvalue := h.value m hm
      have hkey : (leafPair page m).1.length = m.keySize.toNat := length_slice (by omega)
      have hval : (leafPair page m).2.length = m.valueSize.toNat := length_slice (by omega)
      change 32 + (leafPair page m).1.length + (leafPair page m).2.length =
        32 + (m.keySize.toNat + m.valueSize.toNat)
      rw [hkey, hval, Nat.add_assoc]
    rw [List.map_congr_left hlength, List.sum_map_add, List.map_const', List.sum_replicate_nat]
  change (readPod LeafHeader page 0).kvPairsEndOffset.toNat + _ ≤ _ at hpacked
  omega

/-- Where the pairs have room, the loop writes them in front of the data there is, with or
without assertions. -/
theorem buildEntries_ok (env : Env) {es : List LeafEntry} {page : Bytes}
    {ms : List LeafEntryMetadata} {c : ℕ} (hpage : Filled leafLayout page ms c)
    (hsmall : page.length < 2 ^ 63) (hfit : 24 + ms.length * 32 + leafSize es ≤ c) :
    ∃ page' c', LeafBuilder.buildEntries env es page (24 + ms.length * 32) c = .ok (page', c') ∧
      ∃ ms', Filled leafLayout page' (ms ++ ms') c' ∧ page'.length = page.length ∧
        (∀ o n, c ≤ o → slice page' o n = slice page o n) ∧
        ms'.map (leafPair page') = es ∧
        ∀ m ∈ ms', m.valueOffset.toNat = m.keyOffset.toNat + m.keySize.toNat := by
  induction es generalizing page ms c with
  | nil =>
    exact ⟨page, c, rfl, [], by simpa using hpage, rfl, fun _ _ _ => rfl, rfl, by simp⟩
  | cons e es ih =>
    obtain ⟨key, value⟩ := e
    rw [leafSize_cons] at hfit
    dsimp only at hfit
    have hsize : key.length + value.length ≤ c := by omega
    have hbound := hpage.bound
    have hvalue : (splice page (c - value.length) value).length = page.length :=
      length_splice (by omega)
    have hkey : (splice (splice page (c - value.length) value) (c - value.length - key.length)
        key).length = page.length := by
      rw [length_splice (by omega), hvalue]
    -- the page of the next round has one slot more
    have hin : Inside page key value (c - value.length - key.length) := ⟨by omega, hsmall⟩
    have hnext : Room leafLayout ms c (key ++ value)
        (entryAt key value (c - value.length - key.length)) := by
      refine ⟨?_, ?_, ?_⟩
      · rw [hin.entry_size, List.length_append]
      · rw [hin.entry_offset, List.length_append]
        omega
      · rw [hin.entry_offset, size_leafHeader, size_leafEntryMetadata]
        omega
    have hpush := hpage.push hnext
    rw [hin.entry_offset] at hpush
    have hlength := length_push hpage hnext
    have hmore : (ms ++ [entryAt key value (c - value.length - key.length)]).length =
        ms.length + 1 := by simp
    have hcursor : 24 + ms.length * 32 + 32 =
        24 + (ms ++ [entryAt key value (c - value.length - key.length)]).length * 32 := by
      rw [hmore]
      omega
    have hrun : LeafBuilder.buildEntries env ((key, value) :: es) page (24 + ms.length * 32) c =
        LeafBuilder.buildEntries env es
          (push leafLayout page ms.length (key ++ value)
            (entryAt key value (c - value.length - key.length)))
          (24 + (ms ++ [entryAt key value (c - value.length - key.length)]).length * 32)
          (c - value.length - key.length) := by
      rw [LeafBuilder.buildEntries]
      dsimp only
      rw [debugAssert_true hsize, ok_bind,
        debugAssert_true (by rw [size_leafEntryMetadata]; omega), ok_bind,
        checkedSub_of_le (by omega), ok_bind, writeDataAtOffset_of_le (by omega), ok_bind,
        checkedSub_of_le (by omega), ok_bind, writeDataAtOffset_of_le (by omega), ok_bind,
        writeToPrefix_of_le (by rw [size_leafEntryMetadata]; omega), ok_bind,
        ← push_pair hsize hbound hsmall, ← hcursor]
      rfl
    rw [hrun]
    obtain ⟨page', c', hrest, ms', hfilled, hlength', hkeep, hpairs, hvalues⟩ :=
      ih hpush (by rwa [hlength]) (by rw [hmore]; omega)
    refine ⟨page', c', hrest, entryAt key value (c - value.length - key.length) :: ms', ?_,
      hlength'.trans hlength, ?_, ?_, ?_⟩
    · rwa [List.append_assoc, List.singleton_append] at hfilled
    · intro o n ho
      rw [hkeep o n (by omega), slice_push hpage hnext ho]
    · -- what the first entry refers to is behind everything written later
      obtain ⟨hks, hko, hvs, hvo⟩ := hin.entryAt
      have hkeySlice := slice_push_data hpage hnext (j := 0) (n := key.length)
        (by rw [List.length_append]; omega)
      have hvalueSlice := slice_push_data hpage hnext (j := key.length) (n := value.length)
        (by rw [List.length_append])
      rw [hin.entry_offset] at hkeySlice hvalueSlice
      rw [Nat.add_zero] at hkeySlice
      rw [List.map_cons, hpairs, leafPair, hks, hko, hvs, hvo, hkeep _ _ le_rfl,
        hkeep _ _ (by omega), hkeySlice, hvalueSlice]
      simp [slice]
    · intro m hm
      rcases List.mem_cons.mp hm with rfl | hm
      · obtain ⟨hks, hko, hvs, hvo⟩ := hin.entryAt
        omega
      · exact hvalues m hm

/-- Where they have none, an assertion fails. -/
theorem buildEntries_panics (henv : env.debugAssertions = true) {es : List LeafEntry}
    {page : Bytes} {writeCursor c : ℕ} (hc : writeCursor ≤ c) (hbound : c ≤ page.length)
    (hover : c < writeCursor + leafSize es) :
    LeafBuilder.buildEntries env es page writeCursor c = .error .panic := by
  induction es generalizing page writeCursor c with
  | nil => simp at hover; omega
  | cons e es ih =>
    obtain ⟨key, value⟩ := e
    rw [leafSize_cons] at hover
    dsimp only at hover
    rw [LeafBuilder.buildEntries]
    dsimp only
    -- one of the two assertions fails, at this pair or at a later one
    by_cases hsize : key.length + value.length ≤ c
    · by_cases hroom : writeCursor + Pod.size LeafEntryMetadata ≤ c - key.length - value.length
      · rw [size_leafEntryMetadata] at hroom
        have hvalue : (splice page (c - value.length) value).length = page.length :=
          length_splice (by omega)
        have hkey : (splice (splice page (c - value.length) value)
            (c - value.length - key.length) key).length = page.length := by
          rw [length_splice (by omega), hvalue]
        have hentry : (writePod (splice (splice page (c - value.length) value)
            (c - value.length - key.length) key) writeCursor
            (entryAt key value (c - value.length - key.length))).length = page.length := by
          rw [length_writePod _ (by rw [size_leafEntryMetadata]; omega), hkey]
        rw [debugAssert_true hsize, ok_bind,
          debugAssert_true (by rw [size_leafEntryMetadata]; omega), ok_bind,
          checkedSub_of_le (by omega), ok_bind, writeDataAtOffset_of_le (by omega), ok_bind,
          checkedSub_of_le (by omega), ok_bind, writeDataAtOffset_of_le (by omega), ok_bind,
          writeToPrefix_of_le (by rw [size_leafEntryMetadata]; omega), ok_bind]
        exact ih (by rw [size_leafEntryMetadata]; omega) (by
          change _ ≤ (writePod _ _ (entryAt key value _)).length
          omega) (by rw [size_leafEntryMetadata]; omega)
      · rw [debugAssert_true hsize, ok_bind, debugAssert_false henv hroom]
        rfl
    · rw [debugAssert_false henv hsize]
      rfl

/-- **Building a leaf** from pairs that have room makes a page that lists these pairs. -/
theorem buildEntriesAtBuf_ok (env : Env) {es : List LeafEntry} {page : Bytes}
    (hsmall : page.length < 2 ^ 63) (hfit : 24 + leafSize es ≤ page.length) :
    ∃ page', LeafBuilder.buildEntriesAtBuf env es page = .ok page' ∧
      page'.length = page.length ∧ ∃ ms, LeafLists page' ms es := by
  have hempty : Filled leafLayout page [] page.length :=
    Filled.empty _ _ (by rw [size_leafHeader]; omega)
  obtain ⟨page', c, hrun, ms, hfilled, hlength, -, hpairs, hvalues⟩ :=
    buildEntries_ok env hempty hsmall (by rw [List.length_nil]; omega)
  rw [List.nil_append] at hfilled
  have hroom := hfilled.room
  have hbound := hfilled.bound
  rw [size_leafHeader, size_leafEntryMetadata] at hroom
  have hes : es.length = ms.length := by rw [← hpairs, List.length_map]
  generalize hhdr : LeafHeader.new NodeKind.leaf.toU64.toNat es.length c = hdr
  have hcount : leafLayout.count hdr = ms.length := by
    rw [← hes, ← hhdr]
    exact UInt64.toNat_ofNat_of_lt' (by change _ < 2 ^ 64; omega)
  have hend : leafLayout.dataEnd hdr = c := by
    rw [← hhdr]
    exact UInt64.toNat_ofNat_of_lt' (by change _ < 2 ^ 64; omega)
  have hkind : hdr.nodeType = NodeKind.leaf.toU64 := by
    rw [← hhdr]
    rfl
  have hlength' := length_close hfilled hdr
  refine ⟨writePod page' 0 hdr, ?_, hlength'.trans hlength, ms, ?_, hfilled.close hcount hend,
    hvalues, ?_, ?_⟩
  · rw [List.length_nil] at hrun
    rw [LeafBuilder.buildEntriesAtBuf, size_leafHeader]
    rw [hrun, ok_bind]
    dsimp only
    rw [writeToPrefix_of_le (by rw [size_leafHeader]; omega), hhdr]
  · rw [readPod_writePod hdr (by rw [size_leafHeader]; omega), hkind]
  · rw [← hpairs]
    refine List.map_congr_left fun m hm => ?_
    have hrange := hfilled.range m hm
    have hvalue := hvalues m hm
    change c ≤ m.keyOffset.toNat ∧ _ at hrange
    rw [leafPair, leafPair, slice_close hfilled hdr hrange.1,
      slice_close hfilled hdr (by omega)]
  · rw [hlength', hlength]
    exact hsmall

/-- Pairs without room fail an assertion. -/
theorem buildEntriesAtBuf_panics (henv : env.debugAssertions = true) {es : List LeafEntry}
    {page : Bytes} (hlow : 24 ≤ page.length) (hover : page.length < 24 + leafSize es) :
    LeafBuilder.buildEntriesAtBuf env es page = .error .panic := by
  rw [LeafBuilder.buildEntriesAtBuf, size_leafHeader,
    buildEntries_panics henv hlow le_rfl hover]
  rfl

/-! Whatever is built, in any build: a panic or a page of the same length. -/

theorem debugAssert_panics (env : Env) (p : Prop) [Decidable p] :
    Returns Panics (debugAssert env p) fun _ => True := by
  rw [debugAssert, assert]
  split <;> [split; skip] <;> trivial

theorem checkedSub_panics (a b : ℕ) : Returns Panics (checkedSub a b) fun _ => True := by
  rw [checkedSub]
  split <;> trivial

theorem writeDataAtOffset_length (page data : Bytes) (offset : ℕ) :
    Returns Panics (writeDataAtOffset page data offset) fun page' =>
      page'.length = page.length := by
  rw [writeDataAtOffset]
  split
  · rename_i h
    exact length_splice h
  · exact panics_panic

theorem writeToPrefix_length {α : Type} [Pod α] (page : Bytes) (offset : ℕ) (a : α) :
    Returns Panics (writeToPrefix page offset a) fun page' => page'.length = page.length := by
  rw [writeToPrefix]
  split
  · rename_i h
    exact length_writePod _ h
  · exact panics_panic

theorem buildEntries_length (env : Env) (es : List LeafEntry) (page : Bytes)
    (writeCursor kvDataCursor : ℕ) :
    Returns Panics (LeafBuilder.buildEntries env es page writeCursor kvDataCursor) fun r =>
      r.1.length = page.length := by
  induction es generalizing page writeCursor kvDataCursor with
  | nil => exact rfl
  | cons e rest ih =>
    obtain ⟨key, value⟩ := e
    rw [LeafBuilder.buildEntries]
    simp only [returns_bind]
    refine (debugAssert_panics env _).mono fun _ _ => ?_
    refine (debugAssert_panics env _).mono fun _ _ => ?_
    refine (checkedSub_panics _ _).mono fun valueCursor _ => ?_
    refine (writeDataAtOffset_length page value _).mono fun page₁ h₁ => ?_
    refine (checkedSub_panics _ _).mono fun keyCursor _ => ?_
    refine (writeDataAtOffset_length page₁ key _).mono fun page₂ h₂ => ?_
    refine (writeToPrefix_length page₂ writeCursor _).mono fun page₃ h₃ => ?_
    refine (ih page₃ _ _).mono fun r h => ?_
    rw [h, h₃, h₂, h₁]

theorem buildEntriesAtBuf_length (env : Env) (es : List LeafEntry) (page : Bytes) :
    Returns Panics (LeafBuilder.buildEntriesAtBuf env es page) fun page' =>
      page'.length = page.length := by
  rw [LeafBuilder.buildEntriesAtBuf, returns_bind]
  refine (buildEntries_length env es page _ _).mono fun r h => ?_
  exact (writeToPrefix_length r.1 0 _).mono fun page' h' => h'.trans h

/-- **Building a leaf** from pairs in order, where that is guarded, makes a leaf with these
pairs. A build with debug assertions makes a page only where it has room. -/
theorem buildEntriesAtBuf_returns {X : Fault → Prop} {G : Prop} {es : List LeafEntry}
    (hsorted : Sorted es) {page : Bytes} (hlow : 24 ≤ page.length)
    (hsmall : page.length < 2 ^ 63)
    (h : Guarded env X G (24 + leafSize es ≤ page.length)) :
    Returns X (LeafBuilder.buildEntriesAtBuf env es page) fun page' =>
      page'.length = page.length ∧ (G → LeafOk page' es) ∧
        (env.debugAssertions = true → 24 + leafSize es ≤ page.length) := by
  by_cases hfit : 24 + leafSize es ≤ page.length
  · obtain ⟨page', hrun, hlength, ms, hlists⟩ := buildEntriesAtBuf_ok env hsmall hfit
    rw [hrun]
    exact ⟨hlength, fun _ => ⟨ms, hlists.leaf hsorted⟩, fun _ => hfit⟩
  · obtain ⟨hpanic, hdebug⟩ := h.resolve_left hfit
    by_cases henv : env.debugAssertions = true
    · rw [buildEntriesAtBuf_panics henv hlow (by omega)]
      exact hpanic
    · refine ((buildEntriesAtBuf_length env es page).faults ?_).mono fun page' hlength =>
        ⟨hlength, fun hG => absurd (hdebug hG) henv, fun h => absurd h henv⟩
      rintro e rfl
      exact hpanic

/-- The builder of a page holds its pairs. -/
theorem LeafLists.builder {page : Bytes} {ms : List LeafEntryMetadata} {kvs : List LeafEntry}
    (h : LeafLists page ms kvs) : LeafBuilder.fromPage page = .ok ⟨kvs⟩ := by
  rw [LeafBuilder.fromPage, h.fromPage, ok_bind, h.kvPairs]
  rfl

theorem LeafHolds.builder {page : Bytes} {ms : List LeafEntryMetadata} {kvs : List LeafEntry}
    (h : LeafHolds page ms kvs) : LeafBuilder.fromPage page = .ok ⟨kvs⟩ :=
  h.lists.builder

/-- Inserting into a builder sets the value of the key. -/
theorem LeafBuilder.insert_kvPairs (kvs : List LeafEntry) (key : Key) (value : Value) :
    (LeafBuilder.insert ⟨kvs⟩ key value).kvPairs = upsert key value kvs := by
  rw [LeafBuilder.insert, upsert]
  dsimp only
  have hsearch := binarySearch_bound key (kvs.map Prod.fst)
  rcases hcase : binarySearch key (kvs.map Prod.fst) with i | i
  · rfl
  · rw [hcase] at hsearch
    dsimp only at hsearch
    rw [List.getElem?_map, Option.map_eq_some_iff] at hsearch
    obtain ⟨pair, hpair, hkey⟩ := hsearch
    obtain ⟨hi, hget⟩ := List.getElem?_eq_some_iff.mp hpair
    dsimp only
    rw [List.modify_eq_set_getElem?, hpair]
    simp [hkey]

theorem LeafBuilder.insert_eq (kvs : List LeafEntry) (key : Key) (value : Value) :
    LeafBuilder.insert ⟨kvs⟩ key value = ⟨upsert key value kvs⟩ :=
  congrArg LeafBuilder.mk (LeafBuilder.insert_kvPairs kvs key value)

/-- **Splitting a leaf** whose halves have room makes two pages that list the halves, the
separator being the first key of the right one. -/
theorem buildSplitPages_ok (env : Env) {kvs : List LeafEntry} {left right : Bytes}
    (hlen : 2 ≤ kvs.length) (hsmall : left.length < 2 ^ 63) (hright : right.length = left.length)
    (hfitLeft : 24 + leafSize (kvs.take (kvs.length / 2)) ≤ left.length)
    (hfitRight : 24 + leafSize (kvs.drop (kvs.length / 2)) ≤ left.length) :
    ∃ sep left' right', LeafBuilder.buildSplitPages env ⟨kvs⟩ left right =
        .ok (sep, left', right') ∧
      ((kvs.drop (kvs.length / 2)).head?).map Prod.fst = some sep ∧
      left'.length = left.length ∧ right'.length = left.length ∧
      (∃ ms, LeafLists left' ms (kvs.take (kvs.length / 2))) ∧
      ∃ ms, LeafLists right' ms (kvs.drop (kvs.length / 2)) := by
  have hmid : kvs.length / 2 < kvs.length := by omega
  have hdrop : kvs.drop (kvs.length / 2) =
      kvs[kvs.length / 2] :: kvs.drop (kvs.length / 2 + 1) := List.drop_eq_getElem_cons hmid
  obtain ⟨left', hrunLeft, hlengthLeft, hlistsLeft⟩ := buildEntriesAtBuf_ok env hsmall hfitLeft
  obtain ⟨right', hrunRight, hlengthRight, hlistsRight⟩ :=
    buildEntriesAtBuf_ok env (by rwa [hright] : right.length < 2 ^ 63) (by rwa [hright])
  refine ⟨kvs[kvs.length / 2].1, left', right', ?_, by rw [hdrop]; rfl, hlengthLeft,
    hlengthRight.trans hright, hlistsLeft, hlistsRight⟩
  rw [LeafBuilder.buildSplitPages]
  dsimp only
  rw [assert_true hlen, ok_bind, index_of_getElem? (by rw [hdrop]; rfl), ok_bind, hrunLeft,
    ok_bind, hrunRight]
  rfl

/-- **Splitting a leaf**, where that is guarded, makes two leaves, the keys from the
separator on in the right one. -/
theorem buildSplitPages_returns {X : Fault → Prop} {G : Prop} {kvs : List LeafEntry}
    (hsorted : Sorted kvs) {left right : Bytes} (hleft : 24 ≤ left.length)
    (hleft' : left.length < 2 ^ 63) (hright : right.length = left.length)
    (h : Guarded env X G (2 ≤ kvs.length ∧
      24 + leafSize (kvs.take (kvs.length / 2)) ≤ left.length ∧
      24 + leafSize (kvs.drop (kvs.length / 2)) ≤ left.length)) :
    Returns X (LeafBuilder.buildSplitPages env ⟨kvs⟩ left right) fun r =>
      ((kvs.drop (kvs.length / 2)).head?).map Prod.fst = some r.1 ∧
      ∃ l a r', kvs = l ++ a :: r' ∧ l ≠ [] ∧ a.1 = r.1 ∧ r.2.1.length = left.length ∧
        r.2.2.length = left.length ∧ (G → LeafOk r.2.1 l ∧ LeafOk r.2.2 (a :: r')) ∧
        (env.debugAssertions = true → 2 ≤ kvs.length ∧
          24 + leafSize (kvs.take (kvs.length / 2)) ≤ left.length ∧
          24 + leafSize (kvs.drop (kvs.length / 2)) ≤ left.length) := by
  rw [LeafBuilder.buildSplitPages, returns_bind]
  dsimp only
  rw [assert]
  split
  · rename_i hlen
    rw [returns_ok]
    have hmid : kvs.length / 2 < kvs.length := by omega
    have hdrop : kvs.drop (kvs.length / 2) =
        kvs[kvs.length / 2] :: kvs.drop (kvs.length / 2 + 1) := List.drop_eq_getElem_cons hmid
    have hsplit : kvs = kvs.take (kvs.length / 2) ++ kvs.drop (kvs.length / 2) :=
      (List.take_append_drop _ _).symm
    have hpair := hsorted
    rw [hsplit] at hpair
    obtain ⟨hsortedLeft, hsortedRight, -⟩ := List.pairwise_append.mp hpair
    rw [index_of_getElem? (by rw [hdrop]; rfl), ok_bind, returns_bind]
    refine (buildEntriesAtBuf_returns hsortedLeft hleft hleft'
      (h.imp fun hroom => hroom.2.1)).mono ?_
    rintro left' ⟨hlengthLeft, hokLeft, hfitLeft⟩
    rw [returns_bind]
    refine (buildEntriesAtBuf_returns hsortedRight (by omega) (by omega)
      (h.imp fun hroom => hright.symm ▸ hroom.2.2)).mono ?_
    rintro right' ⟨hlengthRight, hokRight, hfitRight⟩
    rw [hright] at hfitRight
    rw [hdrop] at hokRight hsplit hfitRight ⊢
    refine ⟨rfl, _, _, _, hsplit, ?_, rfl, hlengthLeft, hlengthRight.trans hright, fun hG =>
      ⟨hokLeft hG, hokRight hG⟩, fun henv => ⟨hlen, hfitLeft henv, hfitRight henv⟩⟩
    rw [← List.length_pos_iff, List.length_take]
    omega
  · rename_i hlen
    -- fewer than two pairs: the assertion of the split fails
    exact (h.resolve_left fun hroom => hlen hroom.1).1

/-- The empty leaf, all of whose room is left. -/
theorem getEmptyLeafPage_ok (env : Env) {pageSize : ℕ} (hlow : 24 ≤ pageSize)
    (hsmall : pageSize < 2 ^ 63) :
    ∃ page, getEmptyLeafPage env pageSize = .ok page ∧ page.length = pageSize ∧
      LeafHolds page [] [] ∧
      (readPod LeafHeader page 0).kvPairsEndOffset.toNat = pageSize := by
  have hlen : (List.replicate pageSize (0 : UInt8)).length = pageSize := List.length_replicate
  have hempty : Filled leafLayout (List.replicate pageSize (0 : UInt8)) []
      (List.replicate pageSize (0 : UInt8)).length := Filled.empty _ _ (by rwa [hlen])
  rw [hlen] at hempty
  let hdr := LeafHeader.new NodeKind.leaf.toU64.toNat 0 pageSize
  have hend : leafLayout.dataEnd hdr = pageSize :=
    UInt64.toNat_ofNat_of_lt' (by change _ < 2 ^ 64; omega)
  have hlength := length_close hempty hdr
  have hread : readPod LeafHeader (writePod (List.replicate pageSize 0) 0 hdr) 0 = hdr :=
    readPod_writePod hdr (by rw [size_leafHeader, hlen]; omega)
  refine ⟨writePod (List.replicate pageSize 0) 0 hdr, ?_, hlength.trans hlen, ⟨?_,
    hempty.close rfl hend, by simp, rfl, sorted_nil, ?_⟩, ?_⟩
  · rw [getEmptyLeafPage, zeroed_of_lt hsmall, ok_bind, LeafBuilder.buildPageAtBuf,
      LeafBuilder.buildEntriesAtBuf, LeafBuilder.empty, LeafBuilder.buildEntries, pure_eq_ok,
      ok_bind]
    dsimp only
    rw [writeToPrefix_of_le (by rw [size_leafHeader, hlen]; omega), hlen]
    rfl
  · rw [hread]
    rfl
  · rw [hlength, hlen]
    exact hsmall
  · rw [hread]
    exact hend

end building

end KvRaft.Kv
