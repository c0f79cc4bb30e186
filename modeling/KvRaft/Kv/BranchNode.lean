import KvRaft.Kv.LeafNode
import KvRaft.Ordered.Forest

/-!
# Branch pages

The code of the branch nodes, in the same three parts as that of the leaves. An entry of a
branch has a key, the id of a child page and the checksum of that page. Entry 0 is the
leftmost child; its key is ignored by every search and written as the empty key.
-/

namespace KvRaft.Kv

open Bytes Ordered

structure BranchHeader where
  nodeType : UInt64
  numEntries : UInt64
  keyDataEndOffset : UInt64
  deriving DecidableEq, Repr

structure BranchEntryMetadata where
  keySize : UInt64
  keyOffset : UInt64
  childPageId : PageId
  childPageChecksum : Checksum
  deriving DecidableEq, Repr

/-- The fields, in the order of their bytes. -/
def BranchHeader.fields : BranchHeader ≃ UInt64 × UInt64 × UInt64 where
  toFun h := (h.nodeType, h.numEntries, h.keyDataEndOffset)
  invFun t := ⟨t.1, t.2.1, t.2.2⟩
  left_inv _ := rfl
  right_inv _ := rfl

/-- The fields, in the order of their bytes. -/
def BranchEntryMetadata.fields :
    BranchEntryMetadata ≃ UInt64 × UInt64 × PageId × Checksum where
  toFun m := (m.keySize, m.keyOffset, m.childPageId, m.childPageChecksum)
  invFun t := ⟨t.1, t.2.1, t.2.2.1, t.2.2.2⟩
  left_inv _ := rfl
  right_inv _ := rfl

instance : Pod BranchHeader := Pod.ofEquiv BranchHeader.fields

instance : Pod BranchEntryMetadata := Pod.ofEquiv BranchEntryMetadata.fields

@[simp] theorem size_branchHeader : Pod.size BranchHeader = 24 := rfl

@[simp] theorem size_branchEntryMetadata : Pod.size BranchEntryMetadata = 40 := rfl

def BranchHeader.new (numEntries keyDataEndOffset : ℕ) : BranchHeader :=
  ⟨NodeKind.branch.toU64, .ofNat numEntries, .ofNat keyDataEndOffset⟩

def BranchEntryMetadata.new (keySize keyOffset : ℕ) (childPageId : PageId)
    (childPageChecksum : Checksum) : BranchEntryMetadata :=
  ⟨.ofNat keySize, .ofNat keyOffset, childPageId, childPageChecksum⟩

/-- A child page: its id and the checksum its content must have. -/
abbrev Child := PageId × Checksum

/-- An entry of a branch: its key and its child. -/
abbrev BranchEntry := Key × Child

/-! ### Reading -/

structure BranchPage where
  header : BranchHeader
  entries : List BranchEntryMetadata
  page : Bytes

namespace BranchPage

def fromPage (page : Bytes) : Except Fault BranchPage := do
  let header ← refFromPrefix BranchHeader page
  let entries ← refFromPrefixWithElems BranchEntryMetadata page (Pod.size BranchHeader)
    header.numEntries.toNat
  pure ⟨header, entries, page⟩

def entryKey (self : BranchPage) (entry : BranchEntryMetadata) : Except Fault Key :=
  slicePage self.page entry.keyOffset.toNat entry.keySize.toNat

/-- The iterator over the entries. -/
def branchEntries (self : BranchPage) : Except Fault (List BranchEntry) :=
  self.entries.mapM fun entry => do
    pure (← self.entryKey entry, entry.childPageId, entry.childPageChecksum)

/-- The keys of `self.entries[1..]`. -/
def separators (self : BranchPage) : Except Fault (List Key) := do
  assert (1 ≤ self.entries.length)
  self.entries.tail.mapM self.entryKey

def searchEntryIndex (self : BranchPage) (key : Key) : Except Fault (Except ℕ ℕ) := do
  match binarySearch key (← self.separators) with
  | .ok i => pure (.ok (i + 1))
  | .error i => pure (.error (i + 1))

def childIndexForKey (self : BranchPage) (key : Key) : Except Fault ℕ := do
  pure (partitionPoint (· ≤ key) (← self.separators))

def childPageIdAtIndex (self : BranchPage) (i : ℕ) : Except Fault PageId := do
  let entry ← index self.entries i
  pure entry.childPageId

def childPageIdForKey (self : BranchPage) (key : Key) : Except Fault PageId := do
  let i ← self.childIndexForKey key
  self.childPageIdAtIndex i

end BranchPage

/-! ### Building -/

structure BranchBuilder where
  branchEntries : List BranchEntry

namespace BranchBuilder

def fromPage (oldPage : Bytes) : Except Fault BranchBuilder := do
  let page ← BranchPage.fromPage oldPage
  pure ⟨← page.branchEntries⟩

def newRoot (leftPageId : PageId) (leftPageChecksum : Checksum) (separatorKey : Key)
    (rightPageId : PageId) (rightPageChecksum : Checksum) : BranchBuilder :=
  ⟨[([], leftPageId, leftPageChecksum), (separatorKey, rightPageId, rightPageChecksum)]⟩

def insert (self : BranchBuilder) (key : Key) (childPageId : PageId)
    (childPageChecksum : Checksum) : Except Fault BranchBuilder := do
  assert (1 ≤ self.branchEntries.length)
  match binarySearch key (self.branchEntries.tail.map Prod.fst) with
  | .ok i => pure ⟨setChild self.branchEntries (i + 1) (childPageId, childPageChecksum)⟩
  | .error i =>
    pure ⟨self.branchEntries.insertIdx (i + 1) (key, childPageId, childPageChecksum)⟩

/-- The loop over the entries: the metadata grows up from `writeCursor`, the keys grow down
from `keyDataCursor`. The key of the entry at index 0 is written as the empty key. -/
def buildEntries (env : Env) : List BranchEntry → (i : ℕ) → (page : Bytes) →
    (writeCursor keyDataCursor : ℕ) → Except Fault (Bytes × ℕ)
  | [], _, page, _, keyDataCursor => pure (page, keyDataCursor)
  | (entryKey, childPageId, childPageChecksum) :: rest, i, page, writeCursor,
      keyDataCursor => do
    let key := if i = 0 then [] else entryKey
    let metadataEnd := writeCursor + Pod.size BranchEntryMetadata
    debugAssert env (key.length ≤ keyDataCursor)
    debugAssert env (metadataEnd ≤ keyDataCursor - key.length)
    let keyDataCursor ← checkedSub keyDataCursor key.length
    let page ← writeDataAtOffset page key keyDataCursor
    let metadata :=
      BranchEntryMetadata.new key.length keyDataCursor childPageId childPageChecksum
    let page ← writeToPrefix page writeCursor metadata
    buildEntries env rest (i + 1) page metadataEnd keyDataCursor

def buildEntriesAtBuf (env : Env) (entries : List BranchEntry) (page : Bytes) :
    Except Fault Bytes := do
  let (page, keyDataCursor) ←
    buildEntries env entries 0 page (Pod.size BranchHeader) page.length
  writeToPrefix page 0 (BranchHeader.new entries.length keyDataCursor)

/-- The separator, the left page and the right page. -/
def buildSplitPages (env : Env) (self : BranchBuilder) (leftPage rightPage : Bytes) :
    Except Fault (Key × Bytes × Bytes) := do
  debugAssert env (2 ≤ self.branchEntries.length)
  let mid := self.branchEntries.length / 2
  let leftEntries := self.branchEntries.take mid
  let rightEntries := self.branchEntries.drop mid
  let first ← index rightEntries 0
  let leftPage ← buildEntriesAtBuf env leftEntries leftPage
  let rightPage ← buildEntriesAtBuf env rightEntries rightPage
  pure (first.1, leftPage, rightPage)

def buildPageAtBuf (env : Env) (self : BranchBuilder) (page : Bytes) : Except Fault Bytes :=
  buildEntriesAtBuf env self.branchEntries page

end BranchBuilder

/-! ### Editing in place -/

namespace BranchPageMutator

def header (page : Bytes) : Except Fault BranchHeader :=
  refFromPrefix BranchHeader page

/-- Change the header through a mutable view of it. -/
def headerMut (page : Bytes) (f : BranchHeader → BranchHeader) : Except Fault Bytes := do
  let header ← refFromPrefix BranchHeader page
  pure (writePod page 0 (f header))

def entries (page : Bytes) : Except Fault (List BranchEntryMetadata) := do
  let header ← refFromPrefix BranchHeader page
  refFromPrefixWithElems BranchEntryMetadata page (Pod.size BranchHeader)
    header.numEntries.toNat

/-- Change the entries through a mutable view of them. -/
def entriesMut (page : Bytes)
    (f : List BranchEntryMetadata → Except Fault (List BranchEntryMetadata)) :
    Except Fault Bytes := do
  let entries ← f (← entries page)
  pure (writePods page (Pod.size BranchHeader) entries)

def fits (page : Bytes) (key : Key) : Except Fault Bool := do
  let header ← header page
  if header.keyDataEndOffset.toNat < key.length then
    pure false
  else
    let keyOffset := header.keyDataEndOffset.toNat - key.length
    let metadataEndOffset ← usize (Pod.size BranchHeader +
      (header.numEntries.toNat + 1) * Pod.size BranchEntryMetadata)
    pure (metadataEndOffset ≤ keyOffset)

/-- The index and the id of the child for a key. -/
def childPageForKey (page : Bytes) (key : Key) : Except Fault (ℕ × PageId) := do
  let reader ← BranchPage.fromPage page
  let childIndex ← reader.childIndexForKey key
  pure (childIndex, ← reader.childPageIdAtIndex childIndex)

def setChildAtIndex (page : Bytes) (i : ℕ) (childPageId : PageId)
    (childPageChecksum : Checksum) : Except Fault Bytes :=
  entriesMut page fun entries => do
    let entry ← index entries i
    setAt entries i { entry with childPageId, childPageChecksum }

/-- The page with the key written in front of the keys there are, and where it is. -/
def appendKey (page : Bytes) (key : Key) : Except Fault (Bytes × ℕ) := do
  let header ← header page
  let keyOffset ← checkedSub header.keyDataEndOffset.toNat key.length
  let page ← writeDataAtOffset page key keyOffset
  pure (page, keyOffset)

def insertMetadata (page : Bytes) (insertIndex oldNumEntries : ℕ)
    (newEntry : BranchEntryMetadata) : Except Fault Bytes :=
  entriesMut page fun entries => do
    let entries ← copyWithin entries insertIndex oldNumEntries (insertIndex + 1)
    setAt entries insertIndex newEntry

def insertNewEntry (page : Bytes) (insertIndex : ℕ) (key : Key) (childPageId : PageId)
    (childPageChecksum : Checksum) : Except Fault Bytes := do
  let oldNumEntries := (← entries page).length
  let newNumEntries := oldNumEntries + 1
  let (page, keyOffset) ← appendKey page key
  let newEntry := BranchEntryMetadata.new key.length keyOffset childPageId childPageChecksum
  let page ← headerMut page fun header =>
    { header with numEntries := .ofNat newNumEntries, keyDataEndOffset := .ofNat keyOffset }
  insertMetadata page insertIndex oldNumEntries newEntry

def insert (env : Env) (page : Bytes) (key : Key) (childPageId : PageId)
    (childPageChecksum : Checksum) : Except Fault Bytes := do
  let reader ← BranchPage.fromPage page
  match ← reader.searchEntryIndex key with
  | .ok entryIndex => setChildAtIndex page entryIndex childPageId childPageChecksum
  | .error insertIndex =>
    if env.debugAssertions then
      let fits ← fits page key
      assert fits
    insertNewEntry page insertIndex key childPageId childPageChecksum

end BranchPageMutator

end KvRaft.Kv
