import KvRaft.Kv.Operation
import KvRaft.Kv.BranchNode

/-!
# The pages of a write transaction

A write transaction edits copies of the committed pages (`cowPage`) and fresh pages
(`allocatePage`). The copies and fresh pages are its dirty pages; one that is being edited
is checked out and comes back when the code that edits it is done with it
(`returnPage`, the drop of a `DirtyPage`).

The transaction is the state of a `WriteCall`. If a call fails its state is lost; all
that is left to do with a failed transaction, and all `WriteTransaction::insert` keeps of
it, is to refuse every later call.
-/

namespace KvRaft.Kv

open Ordered

structure PageMut where
  id : PageId
  data : Bytes

inductive DirtyPageSlot
  | available (data : Bytes)
  | checkedOut
  deriving DecidableEq, Repr

structure WriteTransaction where
  /-- The page size of the database. -/
  pageSize : ℕ
  transaction : TransactionId
  rootPage : PageId
  rootPageChecksum : Checksum
  /-- The map from the ids of the dirty pages, by increasing id. -/
  dirtyPages : List (PageId × DirtyPageSlot)
  freedPages : List PageId
  failed : Bool

/-- Code of a write transaction. -/
abbrev WriteCall (α : Type) : Type := StateT WriteTransaction (Program signature Fault) α

/-- The call ends without a value. -/
def stop {α : Type} (e : Fault) : WriteCall α :=
  fun _ => .fault e

namespace WriteTransaction

def new (pageSize : ℕ) (commitSlot : CommitSlot) : Except Fault WriteTransaction := do
  let transaction ← usize (commitSlot.transactionId.toNat + 1)
  pure {
    pageSize
    transaction := .ofNat transaction
    rootPage := commitSlot.rootPageId
    rootPageChecksum := commitSlot.rootPageChecksum
    dirtyPages := []
    freedPages := []
    failed := false }

/-- The slot of a dirty page. -/
def slot (self : WriteTransaction) (pageId : PageId) : Option DirtyPageSlot :=
  contents self.dirtyPages pageId

def setSlot (self : WriteTransaction) (pageId : PageId) (slot : DirtyPageSlot) :
    WriteTransaction :=
  { self with dirtyPages := upsert pageId slot self.dirtyPages }

end WriteTransaction

/-! ### `DirtyPageTracker` -/

/-- Checks a fresh page in and out at once. -/
def addPage (page : PageMut) : WriteCall PageMut := do
  let tx ← get
  match tx.slot page.id with
  | some _ => stop .panic
  | none =>
    set (tx.setSlot page.id .checkedOut)
    pure page

def checkOut (pageId : PageId) : WriteCall PageMut := do
  let tx ← get
  match tx.slot pageId with
  | some (.available data) =>
    set (tx.setSlot pageId .checkedOut)
    pure ⟨pageId, data⟩
  | _ => stop .panic

def returnPage (page : PageMut) : WriteCall Unit := do
  let tx ← get
  match tx.slot page.id with
  | some .checkedOut => set (tx.setSlot page.id (.available page.data))
  | _ => stop .panic

/-! ### `WriteTransaction` -/

/-- `PageManager::allocate_page` -/
def allocateZeroed : WriteCall PageMut := do
  let pageId ← allocatePageId
  removePage pageId
  let data ← zeroed (← get).pageSize
  pure ⟨pageId, data⟩

def allocatePage : WriteCall PageMut := do
  addPage (← allocateZeroed)

/-- `dst.copy_from_slice(src)` -/
def copyPageFrom (page : PageMut) (src : Bytes) : Except Fault PageMut := do
  assert (page.data.length = src.length)
  pure { page with data := src }

def cowPage (pageId : PageId) : WriteCall PageMut := do
  if ((← get).slot pageId).isSome then
    checkOut pageId
  else
    let oldPage ← readPage pageId
    let page ← allocateZeroed
    let page ← copyPageFrom page oldPage
    modify fun tx => { tx with freedPages := tx.freedPages ++ [pageId] }
    addPage page

def setRootPage (pageId : PageId) (checksum : Checksum) : WriteCall Unit :=
  modify fun tx => { tx with rootPage := pageId, rootPageChecksum := checksum }

end KvRaft.Kv
