import KvRaft.Effect.Program
import KvRaft.Kv.Storage

/-!
# The operations on a database

The sections of the code that run under a lock, one operation each: what a transaction
does to the state it shares with the others is a sequence of these. `execute` says what
each of them does. Everything else is code over them (`Call`).
-/

namespace KvRaft.Kv

/-- The atomic operations. -/
inductive Op
  /-- `PageIO::read_page` -/
  | readPage (pageId : PageId)
  /-- `PageIO::write_page` -/
  | writePage (pageId : PageId) (data : Bytes)
  /-- `PageIO::remove_page` -/
  | removePage (pageId : PageId)
  | syncData
  | allocatePageId
  | nextPageId
  | freePage (pageId : PageId) (transaction : TransactionId)
  /-- Reading `CommitState::snapshot`. -/
  | loadSnapshot
  /-- `ReadTracker::begin_read` -/
  | register (transaction : TransactionId)
  /-- `ReadGuard::drop` -/
  | deregister (transaction : TransactionId)
  /-- Reading `CommitState::header`. -/
  | loadHeader
  /-- The end of `CommitState::publish`: the header in memory and the snapshot. -/
  | swap (header : DbHeader)

/-- The type of what an operation answers. -/
@[reducible]
def Op.Answer : Op → Type
  | .readPage _ => Bytes
  | .allocatePageId => PageId
  | .nextPageId => PageId
  | .loadSnapshot => PageId × TransactionId
  | .loadHeader => DbHeader
  | _ => Unit

abbrev signature : Signature := ⟨Op, Op.Answer⟩

/-- Code over the operations. -/
abbrev Call (α : Type) : Type := Program signature Fault α

/-- What an operation does and answers. -/
def execute (env : Env) : Handler signature Fault DatabaseState
  | .readPage pageId, s =>
    let (result, pageIo) := s.pageIo.readPage env pageId
    (result, { s with pageIo })
  | .writePage pageId data, s =>
    let (result, pageIo) := s.pageIo.writePage env pageId data
    (result, { s with pageIo })
  | .removePage pageId, s => (.ok (), { s with pageIo := s.pageIo.removePage pageId })
  | .syncData, s => (.ok (), { s with pageIo := s.pageIo.syncData })
  | .allocatePageId, s =>
    let (result, allocator, fileHandler) := PageAllocator.allocatePageId s.allocator
      s.readTracker s.pageIo.fileHandler s.pageIo.pageSize
    (result, { s with allocator, pageIo := { s.pageIo with fileHandler } })
  | .nextPageId, s => (.ok s.allocator.nextPageId, s)
  | .freePage pageId transaction, s =>
    (.ok (), { s with allocator := PageAllocator.freePage s.allocator pageId transaction })
  | .loadSnapshot, s => (.ok s.commit.snapshot, s)
  | .register transaction, s =>
    (.ok (), { s with readTracker := ReadTracker.beginRead s.readTracker transaction })
  | .deregister transaction, s =>
    (.ok (), { s with readTracker := ReadTracker.drop s.readTracker transaction })
  | .loadHeader, s => (.ok s.commit.header, s)
  | .swap header, s =>
    (.ok (), { s with commit := CommitState.new header })

/-! ### The operations as calls -/

def readPage (pageId : PageId) : Call Bytes := Program.op (S := signature) (.readPage pageId)

def writePage (pageId : PageId) (data : Bytes) : Call Unit :=
  Program.op (S := signature) (.writePage pageId data)

def removePage (pageId : PageId) : Call Unit := Program.op (S := signature) (.removePage pageId)

def syncData : Call Unit := Program.op (S := signature) .syncData

def allocatePageId : Call PageId := Program.op (S := signature) .allocatePageId

def nextPageId : Call PageId := Program.op (S := signature) .nextPageId

def freePage (pageId : PageId) (transaction : TransactionId) : Call Unit :=
  Program.op (S := signature) (.freePage pageId transaction)

def loadSnapshot : Call (PageId × TransactionId) := Program.op (S := signature) .loadSnapshot

def register (transaction : TransactionId) : Call Unit :=
  Program.op (S := signature) (.register transaction)

def deregister (transaction : TransactionId) : Call Unit :=
  Program.op (S := signature) (.deregister transaction)

def loadHeader : Call DbHeader := Program.op (S := signature) .loadHeader

def swap (header : DbHeader) : Call Unit := Program.op (S := signature) (.swap header)

end KvRaft.Kv
