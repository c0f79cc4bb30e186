import KvRaft.Kv.Database
import KvRaft.Kv.TreeSpec

/-!
# What a write transaction relies on

The protocol between a write transaction and the rest of the database. The transaction
works on a `Work`: the version it started from, what is known of the pages, the page ids
allocated to it, and how far its commit is.

* While it is `building`, it may read pages of its base version and allocate pages; it is
  promised page ids that are neither pages of the base version nor its own already.
* While it is `writing` a version, it may write the pages allocated to it, and no others.
* It may write the header for the version once all pages of the version are written, and
  then only sync, swap the snapshot and free pages of the old version that are not pages
  of the new one.

That the code of the transactions keeps to this is proved without looking at the
allocator, the file or the readers (`InsertSpec`, `CommitSpec`); that these keep their side
is proved without looking at the tree (`Ownership`).
-/

namespace KvRaft.Kv

open Bytes Ordered

/-- A version of the database: what a commit slot says, and the tree it leads to. -/
structure Version where
  slot : CommitSlot
  depth : ℕ
  map : Key → Option Value
  pages : List PageId

/-- The root page of a version and its checksum. -/
def Version.root (v : Version) : Child := (v.slot.rootPageId, v.slot.rootPageChecksum)

/-- All pages of the version are as they should be. -/
structure Version.Stands (env : Env) (view : View) (v : Version) : Prop where
  tree : TreeAt env view v.depth ⊥ ⊤ v.root v.map v.pages
  nodup : v.pages.Nodup
  header : headerPageId ∉ v.pages

/-- How far the commit of a transaction is. -/
inductive Phase
  | building
  | writing (v : Version)
  | issued (v : Version)
  | synced (v : Version)
  | published (old : Version) (released : List PageId)

/-- What a write transaction knows of the database. -/
structure Work where
  pageSize : ℕ
  header : DbHeader
  base : Version
  next : PageId
  view : View
  used : Set PageId
  phase : Phase

namespace Work

/-- The header that commits a version. -/
def headerFor (w : Work) (v : Version) : DbHeader :=
  w.header.withCommit v.slot.rootPageId v.slot.rootPageChecksum v.slot.transactionId
    v.slot.nextPageId

def setPage (w : Work) (pageId : PageId) (data : Bytes) : Work :=
  { w with view := Function.update w.view pageId (some data) }

/-- The version is the base of the next transaction; its pages have no owner any more. -/
def swapTo (w : Work) (v : Version) : Work :=
  { w with
    header := w.headerFor v
    base := v
    used := ∅
    phase := .published w.base [] }

end Work

/-- The header page of a file. -/
def headerPage (header : DbHeader) : Bytes :=
  splice (List.replicate header.pageSize.toNat 0) 0 (Pod.encode header)

/-- What a transaction must see to before an operation. -/
def WriterPre (env : Env) (w : Work) : Op → Prop
  | .readPage pageId => w.phase = .building ∧ pageId ∈ w.base.pages
  | .allocatePageId => w.phase = .building
  | .removePage pageId => pageId ∈ w.used
  | .loadHeader => True
  | .nextPageId => True
  | .writePage pageId data => ∃ v, w.phase = .writing v ∧
      if pageId = headerPageId then
        data = headerPage (w.headerFor v) ∧ v.Stands env w.view
      else
        pageId ∈ w.used ∧ data.length = w.pageSize
  | .syncData => ∃ v, w.phase = .issued v
  | .swap header => ∃ v, w.phase = .synced v ∧ header = w.headerFor v
  | .freePage pageId transaction => ∃ old released, w.phase = .published old released ∧
      pageId ∈ old.pages ∧ pageId ∉ w.base.pages ∧ pageId ∉ released ∧
      transaction = w.base.slot.transactionId
  | _ => False

/-- What a transaction may rely on after an operation. -/
def WriterPost (w : Work) : (o : Op) → o.Answer → Work → Prop
  | .readPage pageId, data, w' => w' = w ∧ w.view pageId = some data
  | .allocatePageId, pageId, w' =>
    pageId ≠ headerPageId ∧ pageId ∉ w.used ∧ pageId ∉ w.base.pages ∧
      ∃ next, w' = { w with used := insert pageId w.used, next }
  | .removePage _, _, w' => w' = w
  | .loadHeader, header, w' => header = w.header ∧ w' = w
  | .nextPageId, pageId, w' => pageId = w.next ∧ w' = w
  | .writePage pageId data, _, w' =>
    match w.phase with
    | .writing v =>
      w' = if pageId = headerPageId then { w with phase := .issued v } else w.setPage pageId data
    | _ => True
  | .syncData, _, w' =>
    match w.phase with
    | .issued v => w' = { w with phase := .synced v }
    | _ => True
  | .swap _, _, w' =>
    match w.phase with
    | .synced v => w' = w.swapTo v
    | _ => True
  | .freePage pageId _, _, w' =>
    match w.phase with
    | .published old released => w' = { w with phase := .published old (pageId :: released) }
    | _ => True
  | _, _, _ => True

/-- The protocol of a write transaction. -/
def writer (env : Env) : Protocol signature Work where
  pre := WriterPre env
  post := WriterPost

end KvRaft.Kv
