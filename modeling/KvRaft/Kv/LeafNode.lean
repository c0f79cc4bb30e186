import KvRaft.Kv.Page
import KvRaft.Ordered.Search

/-!
# Leaf pages

The code of the leaf nodes: reading a page (`LeafPage`), collecting its pairs and writing
them to fresh pages (`LeafBuilder`), and editing a page in place (`LeafPageMutator`). A
builder is the list of its pairs and a mutator is the bytes it edits.

A binary search over the entries is `binarySearch` of the keys they refer to; it panics
here if any of the keys lies outside the page.
-/

namespace KvRaft.Kv

open Bytes Ordered

inductive NodeKind
  | leaf
  | branch
  deriving DecidableEq, Repr

/-- The discriminant. -/
def NodeKind.toU64 : NodeKind → UInt64
  | .leaf => 0
  | .branch => 1

def NodeKind.parse (page : Bytes) : Except Fault NodeKind := do
  let value ← refFromPrefix UInt64 page
  if value = NodeKind.leaf.toU64 then
    pure .leaf
  else if value = NodeKind.branch.toU64 then
    pure .branch
  else
    throw (.error (.databaseError s!"invalid node type {value.toNat}"))

structure LeafHeader where
  nodeType : UInt64
  numPairs : UInt64
  kvPairsEndOffset : UInt64
  deriving DecidableEq, Repr

structure LeafEntryMetadata where
  keySize : UInt64
  keyOffset : UInt64
  valueSize : UInt64
  valueOffset : UInt64
  deriving DecidableEq, Repr

/-- The fields, in the order of their bytes. -/
def LeafHeader.fields : LeafHeader ≃ UInt64 × UInt64 × UInt64 where
  toFun h := (h.nodeType, h.numPairs, h.kvPairsEndOffset)
  invFun t := ⟨t.1, t.2.1, t.2.2⟩
  left_inv _ := rfl
  right_inv _ := rfl

/-- The fields, in the order of their bytes. -/
def LeafEntryMetadata.fields : LeafEntryMetadata ≃ UInt64 × UInt64 × UInt64 × UInt64 where
  toFun m := (m.keySize, m.keyOffset, m.valueSize, m.valueOffset)
  invFun t := ⟨t.1, t.2.1, t.2.2.1, t.2.2.2⟩
  left_inv _ := rfl
  right_inv _ := rfl

instance : Pod LeafHeader := Pod.ofEquiv LeafHeader.fields

instance : Pod LeafEntryMetadata := Pod.ofEquiv LeafEntryMetadata.fields

@[simp] theorem size_leafHeader : Pod.size LeafHeader = 24 := rfl

@[simp] theorem size_leafEntryMetadata : Pod.size LeafEntryMetadata = 32 := rfl

def LeafHeader.new (nodeType numPairs kvPairsEndOffset : ℕ) : LeafHeader :=
  ⟨.ofNat nodeType, .ofNat numPairs, .ofNat kvPairsEndOffset⟩

def LeafEntryMetadata.new (keySize keyOffset valueSize valueOffset : ℕ) : LeafEntryMetadata :=
  ⟨.ofNat keySize, .ofNat keyOffset, .ofNat valueSize, .ofNat valueOffset⟩

def LeafEntryMetadata.kvSize (m : LeafEntryMetadata) : Except Fault ℕ :=
  usize (m.keySize.toNat + m.valueSize.toNat)

/-- A pair of a leaf: its key and its value. -/
abbrev LeafEntry := Key × Value

/-! ### Reading -/

structure LeafPage where
  header : LeafHeader
  entries : List LeafEntryMetadata
  page : Bytes

namespace LeafPage

def fromPage (page : Bytes) : Except Fault LeafPage := do
  let header ← refFromPrefix LeafHeader page
  let entries ← refFromPrefixWithElems LeafEntryMetadata page (Pod.size LeafHeader)
    header.numPairs.toNat
  pure ⟨header, entries, page⟩

/-- The key an entry refers to. -/
def entryKey (self : LeafPage) (entry : LeafEntryMetadata) : Except Fault Key :=
  slicePage self.page entry.keyOffset.toNat entry.keySize.toNat

/-- The value an entry refers to. -/
def entryValue (self : LeafPage) (entry : LeafEntryMetadata) : Except Fault Value :=
  slicePage self.page entry.valueOffset.toNat entry.valueSize.toNat

/-- The iterator over the pairs. -/
def kvPairs (self : LeafPage) : Except Fault (List LeafEntry) :=
  self.entries.mapM fun entry => do
    pure (← self.entryKey entry, ← self.entryValue entry)

def searchEntryIndex (self : LeafPage) (key : Key) : Except Fault (Except ℕ ℕ) := do
  let keys ← self.entries.mapM self.entryKey
  pure (binarySearch key keys)

def getValue (self : LeafPage) (key : Key) : Except Fault (Option Value) := do
  match ← self.searchEntryIndex key with
  | .ok i =>
    let entry ← index self.entries i
    let value ← self.entryValue entry
    pure (some value)
  | .error _ => pure none

end LeafPage

/-! ### Building -/

structure LeafBuilder where
  kvPairs : List LeafEntry

namespace LeafBuilder

def empty : LeafBuilder := ⟨[]⟩

def fromPage (oldPage : Bytes) : Except Fault LeafBuilder := do
  let page ← LeafPage.fromPage oldPage
  pure ⟨← page.kvPairs⟩

def insert (self : LeafBuilder) (key : Key) (value : Value) : LeafBuilder :=
  match binarySearch key (self.kvPairs.map Prod.fst) with
  | .ok i => ⟨self.kvPairs.modify i fun pair => (pair.1, value)⟩
  | .error i => ⟨self.kvPairs.insertIdx i (key, value)⟩

/-- The loop over the pairs: the metadata grows up from `writeCursor`, the data grows
down from `kvDataCursor`. -/
def buildEntries (env : Env) :
    List LeafEntry → (page : Bytes) → (writeCursor kvDataCursor : ℕ) → Except Fault (Bytes × ℕ)
  | [], page, _, kvDataCursor => pure (page, kvDataCursor)
  | (key, value) :: rest, page, writeCursor, kvDataCursor => do
    let metadataEnd := writeCursor + Pod.size LeafEntryMetadata
    debugAssert env (key.length + value.length ≤ kvDataCursor)
    debugAssert env (metadataEnd ≤ kvDataCursor - key.length - value.length)
    let kvDataCursor ← checkedSub kvDataCursor value.length
    let page ← writeDataAtOffset page value kvDataCursor
    let kvDataCursor ← checkedSub kvDataCursor key.length
    let page ← writeDataAtOffset page key kvDataCursor
    let metadata := LeafEntryMetadata.new key.length kvDataCursor value.length
      (kvDataCursor + key.length)
    let page ← writeToPrefix page writeCursor metadata
    buildEntries env rest page metadataEnd kvDataCursor

def buildEntriesAtBuf (env : Env) (entries : List LeafEntry) (page : Bytes) :
    Except Fault Bytes := do
  let (page, kvDataCursor) ← buildEntries env entries page (Pod.size LeafHeader) page.length
  writeToPrefix page 0 (LeafHeader.new NodeKind.leaf.toU64.toNat entries.length kvDataCursor)

/-- The separator, the left page and the right page. -/
def buildSplitPages (env : Env) (self : LeafBuilder) (leftPage rightPage : Bytes) :
    Except Fault (Key × Bytes × Bytes) := do
  assert (2 ≤ self.kvPairs.length)
  let mid := self.kvPairs.length / 2
  let leftEntries := self.kvPairs.take mid
  let rightEntries := self.kvPairs.drop mid
  let first ← index rightEntries 0
  let leftPage ← buildEntriesAtBuf env leftEntries leftPage
  let rightPage ← buildEntriesAtBuf env rightEntries rightPage
  pure (first.1, leftPage, rightPage)

def buildPageAtBuf (env : Env) (self : LeafBuilder) (page : Bytes) : Except Fault Bytes :=
  buildEntriesAtBuf env self.kvPairs page

end LeafBuilder

/-! ### Editing in place -/

namespace LeafPageMutator

def header (page : Bytes) : Except Fault LeafHeader :=
  refFromPrefix LeafHeader page

/-- Change the header through a mutable view of it. -/
def headerMut (page : Bytes) (f : LeafHeader → LeafHeader) : Except Fault Bytes := do
  let header ← refFromPrefix LeafHeader page
  pure (writePod page 0 (f header))

def entries (page : Bytes) : Except Fault (List LeafEntryMetadata) := do
  let header ← refFromPrefix LeafHeader page
  refFromPrefixWithElems LeafEntryMetadata page (Pod.size LeafHeader) header.numPairs.toNat

/-- Change the entries through a mutable view of them. -/
def entriesMut (page : Bytes)
    (f : List LeafEntryMetadata → Except Fault (List LeafEntryMetadata)) :
    Except Fault Bytes := do
  let entries ← f (← entries page)
  pure (writePods page (Pod.size LeafHeader) entries)

def fits (page : Bytes) (key : Key) (value : Value) : Except Fault Bool := do
  let header ← header page
  let kvSize := key.length + value.length
  if header.kvPairsEndOffset.toNat < kvSize then
    pure false
  else
    let keyOffset := header.kvPairsEndOffset.toNat - kvSize
    let metadataEndOffset ← usize (Pod.size LeafHeader +
      (header.numPairs.toNat + 1) * Pod.size LeafEntryMetadata)
    pure (metadataEndOffset ≤ keyOffset)

def writeKv (page : Bytes) (key : Key) (value : Value) (keyOffset valueOffset : ℕ) :
    Except Fault Bytes := do
  let page ← writeDataAtOffset page key keyOffset
  writeDataAtOffset page value valueOffset

/-- The page with the pair written in front of the data, and where the pair is. -/
def appendKv (page : Bytes) (key : Key) (value : Value) : Except Fault (Bytes × ℕ × ℕ) := do
  let header ← header page
  let keyOffset ← checkedSub header.kvPairsEndOffset.toNat key.length
  let keyOffset ← checkedSub keyOffset value.length
  let valueOffset := keyOffset + key.length
  let page ← writeKv page key value keyOffset valueOffset
  pure (page, keyOffset, valueOffset)

def insertMetadata (page : Bytes) (insertIndex oldNumPairs : ℕ) (newEntry : LeafEntryMetadata) :
    Except Fault Bytes :=
  entriesMut page fun entries => do
    let entries ← copyWithin entries insertIndex oldNumPairs (insertIndex + 1)
    setAt entries insertIndex newEntry

def insertExistingKv (page : Bytes) (entryIndex : ℕ) (key : Key) (value : Value) :
    Except Fault Bytes := do
  let oldEntry ← index (← entries page) entryIndex
  let oldKvSize ← oldEntry.kvSize
  let newKvSize := key.length + value.length
  let (page, keyOffset, valueOffset) ←
    if newKvSize ≤ oldKvSize then do
      let keyOffset := oldEntry.keyOffset.toNat
      let valueOffset := keyOffset + key.length
      let page ← writeKv page key value keyOffset valueOffset
      pure (page, keyOffset, valueOffset)
    else do
      let (page, keyOffset, valueOffset) ← appendKv page key value
      let page ← headerMut page fun header => { header with kvPairsEndOffset := .ofNat keyOffset }
      pure (page, keyOffset, valueOffset)
  entriesMut page fun entries =>
    setAt entries entryIndex
      (LeafEntryMetadata.new key.length keyOffset value.length valueOffset)

def insertNewKv (page : Bytes) (insertIndex : ℕ) (key : Key) (value : Value) :
    Except Fault Bytes := do
  let oldNumPairs := (← entries page).length
  let newNumPairs := oldNumPairs + 1
  let (page, keyOffset, valueOffset) ← appendKv page key value
  let newEntry := LeafEntryMetadata.new key.length keyOffset value.length valueOffset
  let page ← headerMut page fun header =>
    { header with numPairs := .ofNat newNumPairs, kvPairsEndOffset := .ofNat keyOffset }
  insertMetadata page insertIndex oldNumPairs newEntry

def insert (page : Bytes) (key : Key) (value : Value) : Except Fault Bytes := do
  let reader ← LeafPage.fromPage page
  match ← reader.searchEntryIndex key with
  | .ok entryIndex => insertExistingKv page entryIndex key value
  | .error insertIndex => insertNewKv page insertIndex key value

end LeafPageMutator

def getEmptyLeafPage (env : Env) (pageSize : ℕ) : Except Fault Bytes := do
  let page ← zeroed pageSize
  LeafBuilder.empty.buildPageAtBuf env page

end KvRaft.Kv
