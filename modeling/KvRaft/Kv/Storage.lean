import KvRaft.Kv.LeafNode

/-!
# The store below the tree

The file, the page cache, the page allocator, the tracker of readers and the header with
its two commit slots, and what each operation on them does.

* A file is its length, the bytes that have reached it for good, and the writes issued
  since the last `sync_data`. Reading sees all of them; a crash keeps some of the writes
  (`FileHandler.crash`). Growing a file is durable at once.
* The cache is modelled by what a lookup may return: the bytes last inserted under a page
  id, or nothing. Whether the `n`-th lookup finds a page evicted is up to `evicts`.
* The tracker is the ordered map of the code, as a sorted list.

Operations that can fail return the state beside the result: a failed one may have changed
it (`allocatePageId` counts on even if the file cannot grow).
-/

namespace KvRaft.Kv

open Bytes Ordered

/-! ### The file -/

structure FileHandler where
  len : ℕ
  durable : ℕ → UInt8
  /-- The writes since the last sync, oldest first: an offset and the bytes written. -/
  pending : List (ℕ × Bytes)

/-- The bytes of a file after a write. -/
def overwrite (bytes : ℕ → UInt8) (write : ℕ × Bytes) : ℕ → UInt8 :=
  fun i => if write.1 ≤ i then (write.2[i - write.1]?).getD (bytes i) else bytes i

/-- `n` bytes of a file. -/
def readRange (bytes : ℕ → UInt8) (offset n : ℕ) : Bytes :=
  (List.range n).map fun i => bytes (offset + i)

namespace FileHandler

/-- What a read sees. -/
def contents (self : FileHandler) : ℕ → UInt8 :=
  self.pending.foldl overwrite self.durable

/-- The empty file that `open_new` leaves. -/
def empty : FileHandler := ⟨0, fun _ => 0, []⟩

def readAt (env : Env) (self : FileHandler) (offset n : ℕ) : Except Fault Bytes := do
  debugAssert env (offset ≤ self.len)
  if offset + n ≤ self.len then
    pure (readRange self.contents offset n)
  else
    throw (.error (.ioError .unexpectedEof))

def writeAt (env : Env) (self : FileHandler) (offset : ℕ) (src : Bytes) :
    Except Fault FileHandler := do
  debugAssert env (offset ≤ self.len)
  pure { self with
    len := max self.len (offset + src.length)
    pending := self.pending ++ [(offset, src)] }

def writeAtPage (env : Env) (self : FileHandler) (pageId : PageId) (pageSize : ℕ)
    (src : Bytes) : Except Fault FileHandler := do
  let offset ← usize (pageId.toNat * pageSize)
  self.writeAt env offset src

def syncData (self : FileHandler) : FileHandler :=
  { self with durable := self.contents, pending := [] }

/-- `File::set_len` -/
def setLen (self : FileHandler) (len : ℕ) : Except Fault FileHandler :=
  if len < 2 ^ 63 then .ok { self with len } else .error (.error (.ioError .invalidInput))

/-- The file, and the number of pages it has room for. -/
def preallocatePages (self : FileHandler) (additionalPages pageSize : ℕ) :
    Except Fault (FileHandler × ℕ) := do
  let newFileLen ← usize (self.len + pageSize * additionalPages)
  let file ← self.setLen newFileLen
  pure (file, newFileLen / pageSize)

/-- The file after a crash that `survivors` of the pending writes survive. -/
def crash (self : FileHandler) (survivors : List (ℕ × Bytes)) : FileHandler :=
  { self with durable := survivors.foldl overwrite self.durable, pending := [] }

end FileHandler

/-! ### The cache -/

structure PageCache where
  entries : PageId → Option Bytes
  evicts : ℕ → PageId → Bool
  lookups : ℕ

namespace PageCache

def new (evicts : ℕ → PageId → Bool) : PageCache := ⟨fun _ => none, evicts, 0⟩

def get (self : PageCache) (pageId : PageId) : Option Bytes × PageCache :=
  (if self.evicts self.lookups pageId then none else self.entries pageId,
    { self with lookups := self.lookups + 1 })

def insert (self : PageCache) (pageId : PageId) (data : Bytes) : PageCache :=
  { self with entries := Function.update self.entries pageId (some data) }

def remove (self : PageCache) (pageId : PageId) : PageCache :=
  { self with entries := Function.update self.entries pageId none }

end PageCache

structure PageIo where
  fileHandler : FileHandler
  pageCache : PageCache
  pageSize : ℕ

namespace PageIo

def new (fileHandler : FileHandler) (pageSize : ℕ) (evicts : ℕ → PageId → Bool) : PageIo :=
  ⟨fileHandler, PageCache.new evicts, pageSize⟩

/-- The page as it is in the file. The id may come from a page that nobody has checked. -/
def readFile (env : Env) (self : PageIo) (pageId : PageId) : Except Fault Bytes := do
  let buffer ← zeroed self.pageSize
  let offset ← mulU64 env pageId.toNat self.pageSize
  self.fileHandler.readAt env offset buffer.length

def readPage (env : Env) (self : PageIo) (pageId : PageId) : Except Fault Bytes × PageIo :=
  let (cached, pageCache) := self.pageCache.get pageId
  match cached with
  | some data => (.ok data, { self with pageCache })
  | none =>
    match self.readFile env pageId with
    | .ok data => (.ok data, { self with pageCache := pageCache.insert pageId data })
    | .error e => (.error e, { self with pageCache })

def writePage (env : Env) (self : PageIo) (pageId : PageId) (data : Bytes) :
    Except Fault Unit × PageIo :=
  if data.length ≠ self.pageSize then
    (.error (.error (.databaseError
      s!"page {pageId.toNat} has size {data.length}, expected {self.pageSize}")), self)
  else
    match self.fileHandler.writeAtPage env pageId self.pageSize data with
    | .ok fileHandler =>
      (.ok (), { self with fileHandler, pageCache := self.pageCache.insert pageId data })
    | .error e => (.error e, self)

def removePage (self : PageIo) (pageId : PageId) : PageIo :=
  { self with pageCache := self.pageCache.remove pageId }

def syncData (self : PageIo) : PageIo :=
  { self with fileHandler := self.fileHandler.syncData }

end PageIo

/-! ### The tracker of readers -/

/-- The number of active readers for each transaction id, in increasing order of the
ids. -/
abbrev TransactionReaderCount := List (TransactionId × ℕ)

namespace ReadTracker

def beginRead (readers : TransactionReaderCount) (transaction : TransactionId) :
    TransactionReaderCount :=
  match Ordered.contents readers transaction with
  | some count => upsert transaction (count + 1) readers
  | none => upsert transaction 1 readers

def oldestActiveTransaction (readers : TransactionReaderCount) : Option TransactionId :=
  readers.head?.map Prod.fst

/-- `ReadGuard::drop` -/
def drop (readers : TransactionReaderCount) (transaction : TransactionId) :
    TransactionReaderCount :=
  match Ordered.contents readers transaction with
  | some count =>
    if count - 1 = 0 then readers.filter fun entry => entry.1 ≠ transaction
    else upsert transaction (count - 1) readers
  | none => readers

end ReadTracker

/-! ### The allocator -/

/-- Disk space is reserved in batches of this many pages. -/
def pageAllocationBatch : ℕ := 1024

structure FreedPage where
  pageId : PageId
  transactionId : TransactionId
  deriving DecidableEq, Repr

structure PageAllocatorState where
  pendingFreePages : List FreedPage
  nextPageId : PageId
  reservedPageCount : ℕ

namespace PageAllocator

def new (fileHandler : FileHandler) (pageSize : ℕ) (nextPageId : PageId) :
    PageAllocatorState :=
  ⟨[], nextPageId, fileHandler.len / pageSize⟩

/-- The freed page that may be used again, if there is one, and the queue without it. -/
def reusable (state : PageAllocatorState) (readers : TransactionReaderCount) :
    Option (FreedPage × List FreedPage) :=
  match state.pendingFreePages with
  | [] => none
  | freedPage :: rest =>
    let oldestActiveTx := (ReadTracker.oldestActiveTransaction readers).getD (.ofNat (2 ^ 64 - 1))
    if freedPage.transactionId < oldestActiveTx then some (freedPage, rest) else none

def allocatePageId (state : PageAllocatorState) (readers : TransactionReaderCount)
    (fileHandler : FileHandler) (pageSize : ℕ) :
    Except Fault PageId × PageAllocatorState × FileHandler :=
  match reusable state readers with
  | some (freedPage, rest) =>
    (.ok freedPage.pageId, { state with pendingFreePages := rest }, fileHandler)
  | none =>
    let result := state.nextPageId
    if result.toNat + 1 = 2 ^ 64 then
      (.error .panic, state, fileHandler)
    else
      let state := { state with nextPageId := result + 1 }
      if state.reservedPageCount < state.nextPageId.toNat then
        match fileHandler.preallocatePages pageAllocationBatch pageSize with
        | .ok (fileHandler, reservedPageCount) =>
          (.ok result, { state with reservedPageCount }, fileHandler)
        | .error e => (.error e, state, fileHandler)
      else
        (.ok result, state, fileHandler)

def freePage (state : PageAllocatorState) (pageId : PageId) (transactionId : TransactionId) :
    PageAllocatorState :=
  { state with pendingFreePages := state.pendingFreePages ++ [⟨pageId, transactionId⟩] }

end PageAllocator

/-! ### The header -/

structure CommitSlot where
  rootPageId : PageId
  rootPageChecksum : Checksum
  transactionId : TransactionId
  nextPageId : PageId
  deriving DecidableEq, Repr

/-- `b"PIND0S:)"` -/
def headerMagic : Vector UInt8 8 := #v[80, 73, 78, 68, 48, 83, 58, 41]

structure DbHeader where
  magic : Vector UInt8 8
  activeSlot : UInt64
  pageSize : UInt64
  commitSlots : CommitSlot × CommitSlot
  deriving DecidableEq, Repr

/-- The fields, in the order of their bytes. -/
def CommitSlot.fields : CommitSlot ≃ PageId × Checksum × TransactionId × PageId where
  toFun s := (s.rootPageId, s.rootPageChecksum, s.transactionId, s.nextPageId)
  invFun t := ⟨t.1, t.2.1, t.2.2.1, t.2.2.2⟩
  left_inv _ := rfl
  right_inv _ := rfl

instance : Pod CommitSlot := Pod.ofEquiv CommitSlot.fields

/-- The fields, in the order of their bytes. -/
def DbHeader.fields :
    DbHeader ≃ Vector UInt8 8 × UInt64 × UInt64 × CommitSlot × CommitSlot where
  toFun h := (h.magic, h.activeSlot, h.pageSize, h.commitSlots)
  invFun t := ⟨t.1, t.2.1, t.2.2.1, t.2.2.2⟩
  left_inv _ := rfl
  right_inv _ := rfl

instance : Pod DbHeader := Pod.ofEquiv DbHeader.fields

@[simp] theorem size_dbHeader : Pod.size DbHeader = 104 := rfl

namespace DbHeader

def parse (bytes : Bytes) : Except Fault DbHeader := do
  if bytes.length < Pod.size DbHeader then
    throw (.error (.zerocopyError "Zerocopy size error"))
  let header := readPod DbHeader bytes 0
  if header.magic ≠ headerMagic then
    throw (.error (.databaseError "invalid database header magic"))
  if 1 < header.activeSlot then
    throw (.error (.databaseError "invalid active commit slot"))
  pure header

def initial (pageSize : ℕ) (rootPageChecksum : Checksum) : DbHeader :=
  let nextPageId := initialRootPageId + 1
  let slot : CommitSlot := ⟨initialRootPageId, rootPageChecksum, 0, nextPageId⟩
  { magic := headerMagic
    activeSlot := 0
    pageSize := .ofNat pageSize
    commitSlots := (slot, slot) }

def encodePage (self : DbHeader) : Except Fault Bytes := do
  let page ← zeroed self.pageSize.toNat
  writeDataAtOffset page (Pod.encode self) 0

/-- `commit_slots[i]`, for the two indices there are. -/
def slot (self : DbHeader) (i : UInt64) : CommitSlot :=
  if i = 0 then self.commitSlots.1 else self.commitSlots.2

def setSlot (self : DbHeader) (i : UInt64) (slot : CommitSlot) : DbHeader :=
  { self with commitSlots :=
      if i = 0 then (slot, self.commitSlots.2) else (self.commitSlots.1, slot) }

def inactiveSlotIndex (self : DbHeader) : UInt64 := self.activeSlot ^^^ 1

def currentSlot (self : DbHeader) : CommitSlot := self.slot self.activeSlot

def inactiveSlot (self : DbHeader) : CommitSlot := self.slot self.inactiveSlotIndex

def switchToInactiveSlot (self : DbHeader) : DbHeader :=
  { self with activeSlot := self.activeSlot ^^^ 1 }

def withCommit (self : DbHeader) (rootPageId : PageId) (rootPageChecksum : Checksum)
    (transactionId : TransactionId) (nextPageId : PageId) : DbHeader :=
  (self.setSlot self.inactiveSlotIndex
    ⟨rootPageId, rootPageChecksum, transactionId, nextPageId⟩).switchToInactiveSlot

end DbHeader

/-- The header in memory and the snapshot readers start from. -/
structure CommitState where
  header : DbHeader
  snapshot : PageId × TransactionId

def CommitState.new (header : DbHeader) : CommitState :=
  ⟨header, header.currentSlot.rootPageId, header.currentSlot.transactionId⟩

/-- The state behind a database: what transactions share. -/
structure DatabaseState where
  pageIo : PageIo
  allocator : PageAllocatorState
  readTracker : TransactionReaderCount
  commit : CommitState

end KvRaft.Kv
