import KvRaft.Kv.Tree

/-!
# The database

The public calls: opening a database, read transactions, write transactions. Those that
work on an open database are programs over its operations; opening one is a function of
the file.

A commit writes the dirty pages in the order in which the hash map of the tracker returns
them. The order is an argument of `commit`, any permutation of the dirty pages.
-/

namespace KvRaft.Kv

/-! ### Committing -/

/-- `CommitState::publish` -/
def publish (rootPageId : PageId) (rootPageChecksum : Checksum)
    (transactionId : TransactionId) : Call Unit := do
  let header ← loadHeader
  let next ← nextPageId
  let newHeader := header.withCommit rootPageId rootPageChecksum transactionId next
  let page ← newHeader.encodePage
  writePage headerPageId page
  syncData
  swap newHeader

/-- The loop that writes the dirty pages. -/
def writePages : List (PageId × DirtyPageSlot) → Call Unit
  | [] => pure ()
  | (pageId, .available data) :: rest => do
    writePage pageId data
    writePages rest
  | (_, .checkedOut) :: _ => .fault .panic

/-- The loop that frees the pages the transaction has replaced. -/
def freePages (transaction : TransactionId) : List PageId → Call Unit
  | [] => pure ()
  | pageId :: rest => do
    freePage pageId transaction
    freePages transaction rest

namespace WriteTransaction

/-- The commit of a transaction whose dirty pages are enumerated as `pages`. -/
def commit (self : WriteTransaction) (pages : List (PageId × DirtyPageSlot)) : Call Unit := do
  if self.failed then
    .fault (.error .transactionFailed)
  else
    writePages pages
    publish self.rootPage self.rootPageChecksum self.transaction
    freePages self.transaction self.freedPages

/-- The transaction after the insertion. -/
def insert (env : Env) (self : WriteTransaction) (key : Key) (value : Value) :
    Call WriteTransaction := do
  if self.failed then
    .fault (.error .transactionFailed)
  else
    let ((), tx) ← (Tree.insert env key value).run self
    pure tx

/-- What is left of a transaction after an insertion that returned an error. -/
def invalidate (self : WriteTransaction) : WriteTransaction :=
  { self with failed := true }

end WriteTransaction

structure ReadTransaction where
  rootPageId : PageId
  /-- The transaction id of its read guard. -/
  transaction : TransactionId
  deriving DecidableEq, Repr

namespace ReadTransaction

def read (self : ReadTransaction) (key : Key) : Call (Option Value) :=
  Tree.get maxDepth self.rootPageId key

def drop (self : ReadTransaction) : Call Unit :=
  deregister self.transaction

end ReadTransaction

namespace Database

def beginRead : Call ReadTransaction := do
  let (rootPageId, transactionId) ← loadSnapshot
  register transactionId
  pure ⟨rootPageId, transactionId⟩

/-- The part of `begin_write` after the writer lock is taken. -/
def beginWrite (pageSize : ℕ) : Call WriteTransaction := do
  let header ← loadHeader
  let tx ← WriteTransaction.new pageSize header.currentSlot
  pure tx

/-! ### Opening -/

def validatePageSize (pageSize : ℕ) : Except Fault Unit :=
  if pageSize < minPageSize then
    .error (.error (.databaseError
      s!"page size must be at least {minPageSize}, got {pageSize}"))
  else
    .ok ()

def fromParts (pageIo : PageIo) (header : DbHeader) : DatabaseState where
  pageIo := pageIo
  allocator := PageAllocator.new pageIo.fileHandler pageIo.pageSize
    header.currentSlot.nextPageId
  readTracker := []
  commit := CommitState.new header

/-- The header and the store of a new file. -/
def newFile (env : Env) (pageIo : PageIo) : Except Fault (DbHeader × PageIo) := do
  let emptyLeaf ← getEmptyLeafPage env pageIo.pageSize
  let header := DbHeader.initial pageIo.pageSize (env.checksumPage emptyLeaf)
  let nextPageId := header.currentSlot.nextPageId
  let (fileHandler, _) ←
    pageIo.fileHandler.preallocatePages nextPageId.toNat pageIo.pageSize
  let pageIo := { pageIo with fileHandler }
  let page ← header.encodePage
  let (result, pageIo) := pageIo.writePage env headerPageId page
  result
  let (result, pageIo) := pageIo.writePage env initialRootPageId emptyLeaf
  result
  pure (header, pageIo)

def openNew (env : Env) (pageSize : ℕ) (evicts : ℕ → PageId → Bool) :
    Except Fault DatabaseState := do
  validatePageSize pageSize
  let pageIo := PageIo.new FileHandler.empty pageSize evicts
  let (header, pageIo) ← newFile env pageIo
  pure (fromParts pageIo header)

def readHeader (env : Env) (fileHandler : FileHandler) : Except Fault DbHeader := do
  if fileHandler.len < Pod.size DbHeader then
    throw (.error (.databaseError "Database file size is less than header size"))
  let headerPage ← fileHandler.readAt env headerPageId.toNat (Pod.size DbHeader)
  let header ← DbHeader.parse headerPage
  validatePageSize header.pageSize.toNat
  pure header

/-- The only operation of the code that verifies a file: it has nothing but the pages. -/
def readOnly (env : Env) : Handler signature Fault PageIo
  | .readPage pageId, pageIo => pageIo.readPage env pageId
  | .writePage _ _, pageIo => (.error .panic, pageIo)
  | .removePage _, pageIo => (.error .panic, pageIo)
  | .syncData, pageIo => (.error .panic, pageIo)
  | .allocatePageId, pageIo => (.error .panic, pageIo)
  | .nextPageId, pageIo => (.error .panic, pageIo)
  | .freePage _ _, pageIo => (.error .panic, pageIo)
  | .loadSnapshot, pageIo => (.error .panic, pageIo)
  | .register _, pageIo => (.error .panic, pageIo)
  | .deregister _, pageIo => (.error .panic, pageIo)
  | .loadHeader, pageIo => (.error .panic, pageIo)
  | .swap _, pageIo => (.error .panic, pageIo)

/-- `Tree::verify_pages` for the tree of a slot. -/
def verifySlot (env : Env) (pageIo : PageIo) (slot : CommitSlot) :
    Except Fault Unit × PageIo :=
  (Tree.verifyPages env maxDepth slot.rootPageId slot.rootPageChecksum).run
    (readOnly env) pageIo

def recoverHeader (env : Env) (pageIo : PageIo) (header : DbHeader) :
    Except Fault (DbHeader × PageIo) := do
  if pageIo.fileHandler.len < header.pageSize.toNat then
    throw (.error (.databaseError "Database file size is less than page size"))
  match verifySlot env pageIo header.currentSlot with
  | (.ok (), pageIo) => pure (header, pageIo)
  | (.error (.error (.databaseError _)), pageIo) =>
    let (result, pageIo) := verifySlot env pageIo header.inactiveSlot
    result
    pure (header.switchToInactiveSlot, pageIo)
  | (.error e, _) => throw e

def openExisting (env : Env) (fileHandler : FileHandler) (evicts : ℕ → PageId → Bool) :
    Except Fault DatabaseState := do
  let header ← readHeader env fileHandler
  let pageIo := PageIo.new fileHandler header.pageSize.toNat evicts
  let (header, pageIo) ← recoverHeader env pageIo header
  pure (fromParts pageIo header)

end Database

end KvRaft.Kv
