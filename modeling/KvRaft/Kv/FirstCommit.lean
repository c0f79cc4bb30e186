import KvRaft.Kv.OpenSpec

/-!
# The first transaction

The specifications of the calls say what a call that returns `Ok` has done. Here is a call
that does return `Ok`: inserting a pair into a tree that is one leaf, where the pair has
room (`insert_leaf`). A new database takes any pair that fits into a page, and commits it
(`first_commit`).
-/

namespace KvRaft.Kv

open Bytes Ordered

/-! ### Calls that return -/

/-- The call returns `a`, and leaves the transaction `tx'` and the database `db'`. -/
def Evaluates {α : Type} (env : Env) (call : WriteCall α) (tx : WriteTransaction)
    (db : DatabaseState) (a : α) (tx' : WriteTransaction) (db' : DatabaseState) : Prop :=
  (call.run tx).run (execute env) db = (.ok (a, tx'), db')

/-- The call fails with `e`, and leaves the database `db'`. -/
def Fails {α : Type} (env : Env) (call : WriteCall α) (tx : WriteTransaction)
    (db : DatabaseState) (e : Fault) (db' : DatabaseState) : Prop :=
  (call.run tx).run (execute env) db = (.error e, db')

section

variable {env : Env} {α β : Type} {tx tx₁ tx₂ : WriteTransaction} {db db₁ db₂ : DatabaseState}
  {a : α} {b : β} {e : Fault}

theorem Evaluates.bind {call : WriteCall α} {f : α → WriteCall β}
    (h : Evaluates env call tx db a tx₁ db₁) (hf : Evaluates env (f a) tx₁ db₁ b tx₂ db₂) :
    Evaluates env (call >>= f) tx db b tx₂ db₂ := by
  rw [Evaluates, StateT.run_bind, Program.run_bind_ok h]
  exact hf

theorem Evaluates.fails {call : WriteCall α} {f : α → WriteCall β}
    (h : Evaluates env call tx db a tx₁ db₁) (hf : Fails env (f a) tx₁ db₁ e db₂) :
    Fails env (call >>= f) tx db e db₂ := by
  rw [Fails, StateT.run_bind, Program.run_bind_ok h]
  exact hf

/-- What comes after a failure is not run. -/
theorem Fails.bind {call : WriteCall α} {f : α → WriteCall β} (h : Fails env call tx db e db₁) :
    Fails env (call >>= f) tx db e db₁ := by
  rw [Fails, StateT.run_bind, Program.run_bind, h]

theorem evaluates_call {call : Call α} (h : call.run (execute env) db = (.ok a, db₁)) :
    Evaluates env (liftM call) tx db a tx db₁ := by
  change (call >>= fun a => pure (a, tx)).run (execute env) db = _
  rw [Program.run_bind_ok h]
  rfl

theorem evaluates_op {o : Op} {a : o.Answer} (h : execute env o db = (.ok a, db₁)) :
    Evaluates env (liftM (Program.op (F := Fault) (S := signature) o)) tx db a tx db₁ :=
  evaluates_call ((Program.run_op _ _ _).trans h)

theorem evaluates_except {r : Except Fault α} (h : r = .ok a) :
    Evaluates env (liftM r) tx db a tx db := by
  subst h
  rfl

theorem fails_except {r : Except Fault α} (h : r = .error e) : Fails env (liftM r) tx db e db := by
  subst h
  rfl

theorem evaluates_get : Evaluates env get tx db tx tx db := rfl

theorem evaluates_pure : Evaluates env (pure a) tx db a tx db := rfl

theorem evaluates_set : Evaluates env (set tx₁) tx db ⟨⟩ tx₁ db := rfl

theorem evaluates_modify {f : WriteTransaction → WriteTransaction} :
    Evaluates env (modify f) tx db ⟨⟩ (f tx) db := rfl

/-! ### Pages -/

/-- Allocating a page. -/
theorem allocateZeroed_evaluates {pageId : PageId}
    (halloc : execute env .allocatePageId db = (.ok pageId, db₁)) (hsmall : tx.pageSize < 2 ^ 63) :
    Evaluates env allocateZeroed tx db ⟨pageId, List.replicate tx.pageSize 0⟩ tx
      { db₁ with pageIo := db₁.pageIo.removePage pageId } := by
  rw [allocateZeroed]
  refine Evaluates.bind (evaluates_op halloc) ?_
  refine Evaluates.bind (evaluates_op (o := .removePage pageId) rfl) ?_
  refine Evaluates.bind evaluates_get ?_
  exact Evaluates.bind (evaluates_except (zeroed_of_lt hsmall)) evaluates_pure

theorem addPage_evaluates {page : PageMut} (hslot : tx.slot page.id = none) :
    Evaluates env (addPage page) tx db page (tx.setSlot page.id .checkedOut) db := by
  rw [addPage]
  refine Evaluates.bind evaluates_get ?_
  rw [hslot]
  exact Evaluates.bind evaluates_set evaluates_pure

/-- The transaction after it has copied a page. -/
def WriteTransaction.copied (tx : WriteTransaction) (pageId copy : PageId) : WriteTransaction :=
  ({ tx with freedPages := tx.freedPages ++ [pageId] }).setSlot copy .checkedOut

/-- Copying a page of the database. -/
theorem cowPage_evaluates {pageId copy : PageId} {data : Bytes} (hslot : tx.slot pageId = none)
    (hread : execute env (.readPage pageId) db = (.ok data, db₁))
    (halloc : execute env .allocatePageId db₁ = (.ok copy, db₂)) (hcopy : tx.slot copy = none)
    (hlength : data.length = tx.pageSize) (hsmall : tx.pageSize < 2 ^ 63) :
    Evaluates env (cowPage pageId) tx db ⟨copy, data⟩ (tx.copied pageId copy)
      { db₂ with pageIo := db₂.pageIo.removePage copy } := by
  rw [cowPage]
  refine Evaluates.bind evaluates_get ?_
  rw [hslot, Option.isSome_none, if_neg Bool.false_ne_true]
  refine Evaluates.bind (evaluates_op hread) ?_
  refine Evaluates.bind (allocateZeroed_evaluates halloc hsmall) ?_
  refine Evaluates.bind (evaluates_except (a := ⟨copy, data⟩) ?_) ?_
  · rw [copyPageFrom, assert_true (by rw [List.length_replicate, hlength])]
    rfl
  exact Evaluates.bind evaluates_modify (addPage_evaluates hcopy)

/-- Taking a dirty page. -/
theorem cowPage_dirty {pageId : PageId} {data : Bytes}
    (hslot : tx.slot pageId = some (.available data)) :
    Evaluates env (cowPage pageId) tx db ⟨pageId, data⟩ (tx.setSlot pageId .checkedOut) db := by
  rw [cowPage]
  refine Evaluates.bind evaluates_get ?_
  rw [hslot, Option.isSome_some, if_pos rfl, checkOut]
  refine Evaluates.bind evaluates_get ?_
  rw [hslot]
  exact Evaluates.bind evaluates_set evaluates_pure

/-! ### A tree that is one leaf -/

/-- Inserting into a leaf that has been taken for editing and has room for the pair. -/
theorem insert_taken_leaf {page : PageMut} {ms : List LeafEntryMetadata} {kvs : List LeafEntry}
    {key : Key} {value : Value} (hcow : Evaluates env (cowPage tx.rootPage) tx db page tx₁ db₁)
    (hout : tx₁.slot page.id = some .checkedOut) (hleaf : LeafHolds page.data ms kvs)
    (hfit : LeafPageMutator.fits page.data key value = .ok true) :
    ∃ data' : Bytes, LeafPageMutator.insert page.data key value = .ok data' ∧
      data'.length = page.data.length ∧ Evaluates env (Tree.insert env key value) tx db ()
      { tx₁.setSlot page.id (.available data') with
        rootPage := page.id
        rootPageChecksum := env.checksumPage data' } db₁ := by
  obtain ⟨data', hinsert, hlength', -⟩ := hleaf.insert hfit
  refine ⟨data', hinsert, hlength', ?_⟩
  have hdepth : maxDepth = (2 ^ 64 - 1) + 1 := rfl
  rw [Tree.insert, hdepth]
  refine Evaluates.bind evaluates_get ?_
  suffices hrecursive : Evaluates env (Tree.insertRecursive env (2 ^ 64 - 1 + 1) tx.rootPage key value)
      tx db ⟨page.id, env.checksumPage data', none⟩ (tx₁.setSlot page.id (.available data')) db₁ from
    Evaluates.bind hrecursive evaluates_modify
  -- the root is the leaf: taken out, written in place and handed back, with no split to pass on
  rw [Tree.insertRecursive]
  refine Evaluates.bind hcow ?_
  refine Evaluates.bind (evaluates_except hleaf.parse) ?_
  refine Evaluates.bind (evaluates_except hfit) ?_
  rw [if_pos rfl]
  refine Evaluates.bind (evaluates_except hinsert) ?_
  rw [Tree.replace]
  refine Evaluates.bind (a := ()) ?_ evaluates_pure
  rw [returnPage]
  refine Evaluates.bind evaluates_get ?_
  dsimp only
  rw [hout]
  exact evaluates_set

/-- **Inserting into a leaf** that has room for the pair. -/
theorem insert_leaf {copy : PageId} {data : Bytes} {ms : List LeafEntryMetadata}
    {kvs : List LeafEntry} {key : Key} {value : Value} (hdirty : tx.dirtyPages = [])
    (hread : execute env (.readPage tx.rootPage) db = (.ok data, db₁))
    (halloc : execute env .allocatePageId db₁ = (.ok copy, db₂))
    (hlength : data.length = tx.pageSize) (hleaf : LeafHolds data ms kvs)
    (hfit : LeafPageMutator.fits data key value = .ok true) :
    ∃ data' : Bytes, LeafPageMutator.insert data key value = .ok data' ∧
      data'.length = data.length ∧ Evaluates env (Tree.insert env key value) tx db ()
      { tx with
        rootPage := copy
        rootPageChecksum := env.checksumPage data'
        dirtyPages := [(copy, .available data')]
        freedPages := tx.freedPages ++ [tx.rootPage] }
      { db₂ with pageIo := db₂.pageIo.removePage copy } := by
  have hslot : ∀ id, tx.slot id = none := fun id => by
    rw [WriteTransaction.slot, hdirty, contents_nil]
  have hcow := cowPage_evaluates (hslot tx.rootPage) hread halloc (hslot copy) hlength
    (hlength ▸ hleaf.small)
  have hcopied : (tx.copied tx.rootPage copy).dirtyPages = [(copy, .checkedOut)] := by
    rw [WriteTransaction.copied, WriteTransaction.setSlot, hdirty]
    rfl
  have hout : (tx.copied tx.rootPage copy).slot copy = some .checkedOut := by
    rw [WriteTransaction.slot, hcopied, contents_cons_self]
  obtain ⟨data', hinsert, hlength', hevaluates⟩ := insert_taken_leaf hcow hout hleaf hfit
  have hreturned : (tx.copied tx.rootPage copy).setSlot copy (.available data') =
      { tx with
        dirtyPages := [(copy, .available data')]
        freedPages := tx.freedPages ++ [tx.rootPage] } := by
    rw [WriteTransaction.setSlot, hcopied, upsert_cons, if_neg (lt_irrefl _), if_pos rfl]
    rfl
  rw [hreturned] at hevaluates
  exact ⟨data', hinsert, hlength', hevaluates⟩

/-- **A leaf that cannot be split.** Without room for the pair, and without another pair to
split it at, the insertion panics. -/
theorem insert_taken_leaf_panics {page : PageMut} {right : PageId} {ms : List LeafEntryMetadata}
    {kvs : List LeafEntry} {key : Key} {value : Value}
    (hcow : Evaluates env (cowPage tx.rootPage) tx db page tx₁ db₁)
    (hleaf : LeafHolds page.data ms kvs)
    (hfit : LeafPageMutator.fits page.data key value = .ok false)
    (hshort : (upsert key value kvs).length < 2)
    (halloc : execute env .allocatePageId db₁ = (.ok right, db₂)) (hright : tx₁.slot right = none)
    (hsmall : tx₁.pageSize < 2 ^ 63) :
    Fails env (Tree.insert env key value) tx db .panic
      { db₂ with pageIo := db₂.pageIo.removePage right } := by
  have hdepth : maxDepth = (2 ^ 64 - 1) + 1 := rfl
  rw [Tree.insert, hdepth]
  refine Evaluates.fails evaluates_get (Fails.bind ?_)
  rw [Tree.insertRecursive]
  refine Evaluates.fails hcow ?_
  refine Evaluates.fails (evaluates_except hleaf.parse) ?_
  refine Evaluates.fails (evaluates_except hfit) ?_
  rw [if_neg Bool.false_ne_true, Tree.splitLeaf, allocatePage]
  refine Evaluates.fails ((allocateZeroed_evaluates halloc hsmall).bind (addPage_evaluates hright)) ?_
  refine Evaluates.fails (evaluates_except (zeroed_of_lt hleaf.small)) ?_
  refine Evaluates.fails (evaluates_except hleaf.builder) (Fails.bind (fails_except ?_))
  rw [LeafBuilder.insert_eq, LeafBuilder.buildSplitPages, assert, if_neg (by dsimp only; omega)]
  rfl

/-! ### Committing it -/

/-- The header page of a header whose page is large enough for it. -/
theorem encodePage_of_le (header : DbHeader) (hlarge : Pod.size DbHeader ≤ header.pageSize.toNat)
    (hsmall : header.pageSize.toNat < 2 ^ 63) :
    header.encodePage = .ok (headerPage header) ∧
      (headerPage header).length = header.pageSize.toNat := by
  have hlength : (List.replicate header.pageSize.toNat (0 : UInt8)).length =
      header.pageSize.toNat := List.length_replicate
  have hencode : (Pod.encode header).length = Pod.size DbHeader := Pod.length_encode header
  constructor
  · rw [DbHeader.encodePage, zeroed_of_lt hsmall, ok_bind,
      writeDataAtOffset_of_le (by rw [hencode, hlength]; omega)]
    rfl
  · rw [headerPage, length_splice (by rw [hencode, hlength]; omega), hlength]

theorem run_writePage (env : Env) (db : DatabaseState) (pageId : PageId) {data : Bytes}
    (hlength : data.length = db.pageIo.pageSize)
    (hsmall : pageId.toNat * db.pageIo.pageSize < 2 ^ 64)
    (hinside : pageId.toNat * db.pageIo.pageSize ≤ db.pageIo.fileHandler.len) :
    ∃ pageIo, (writePage pageId data).run (execute env) db = (.ok (), { db with pageIo }) ∧
      pageIo.pageSize = db.pageIo.pageSize := by
  obtain ⟨pageIo, hwrite⟩ : ∃ pageIo, db.pageIo.writePage env pageId data = (.ok (), pageIo) :=
    writePage_of_le hlength hsmall hinside
  obtain ⟨-, ⟨hsize, -⟩, -⟩ := writePage_ok hwrite
  refine ⟨pageIo, (Program.run_op _ _ _).trans ?_, hsize⟩
  rw [execute, hwrite]

/-- **Committing** a transaction with one dirty page. -/
theorem commit_one {copy root : PageId} {data : Bytes}
    (hdirty : tx.dirtyPages = [(copy, .available data)]) (hfreed : tx.freedPages = [root])
    (hfailed : tx.failed = false) (hlength : data.length = db.pageIo.pageSize)
    (hheader : db.commit.header.pageSize.toNat = db.pageIo.pageSize)
    (hlarge : minPageSize ≤ db.pageIo.pageSize) (hpageSize : db.pageIo.pageSize < 2 ^ 63)
    (hsmall : copy.toNat * db.pageIo.pageSize < 2 ^ 64)
    (hinside : copy.toNat * db.pageIo.pageSize ≤ db.pageIo.fileHandler.len) :
    ∃ db', (tx.commit tx.dirtyPages).run (execute env) db = (.ok (), db') ∧
      db'.allocator = PageAllocator.freePage db.allocator root tx.transaction ∧
      db'.readTracker = db.readTracker ∧
      db'.commit.header.currentSlot.transactionId = tx.transaction := by
  obtain ⟨pageIo, hwrite, hsize⟩ := run_writePage env db copy hlength hsmall hinside
  have hpages : (writePages tx.dirtyPages).run (execute env) db = (.ok (), { db with pageIo }) := by
    rw [hdirty, writePages, Program.run_bind_ok hwrite]
    rfl
  -- the header
  obtain ⟨header, heq⟩ : ∃ header, header = db.commit.header.withCommit tx.rootPage
      tx.rootPageChecksum tx.transaction db.allocator.nextPageId := ⟨_, rfl⟩
  have hsizes : header.pageSize.toNat = db.pageIo.pageSize := by
    rw [heq]
    exact hheader
  have hzero : headerPageId.toNat = 0 := rfl
  have hbytes : Pod.size DbHeader ≤ header.pageSize.toNat := by
    rw [size_dbHeader, hsizes]
    exact le_trans (by decide) hlarge
  obtain ⟨hencode, hencoded⟩ := encodePage_of_le header hbytes (hsizes ▸ hpageSize)
  obtain ⟨pageIo₂, hwrite₂, -⟩ := run_writePage env { db with pageIo }
    headerPageId (hencoded.trans (hsizes.trans hsize.symm))
    (by rw [hzero, Nat.zero_mul]; decide) (by rw [hzero, Nat.zero_mul]; exact Nat.zero_le _)
  let published : DatabaseState := {
    pageIo := pageIo₂.syncData
    allocator := db.allocator
    readTracker := db.readTracker
    commit := CommitState.new header }
  have hpublish : (publish tx.rootPage tx.rootPageChecksum tx.transaction).run (execute env)
      { db with pageIo } = (.ok (), published) := by
    have hload : loadHeader.run (execute env) { db with pageIo } =
        (.ok db.commit.header, { db with pageIo }) := Program.run_op _ _ _
    have hnext : nextPageId.run (execute env) { db with pageIo } =
        (.ok db.allocator.nextPageId, { db with pageIo }) := Program.run_op _ _ _
    have hsync : syncData.run (execute env) { db with pageIo := pageIo₂ } =
        (.ok (), { db with pageIo := pageIo₂.syncData }) := Program.run_op _ _ _
    rw [publish, Program.run_bind_ok hload, Program.run_bind_ok hnext]
    dsimp only
    rw [← heq, Program.liftM_eq, hencode, Program.ofExcept_ok, Program.ret_bind,
      Program.run_bind_ok hwrite₂, Program.run_bind_ok hsync]
    exact Program.run_op _ _ _
  refine ⟨{ published with
    allocator := PageAllocator.freePage db.allocator root tx.transaction }, ?_, rfl, rfl, ?_⟩
  on_goal 2 =>
    change header.currentSlot.transactionId = _
    rw [heq, currentSlot_withCommit]
  have hfree : (freePage root tx.transaction).run (execute env) published = (.ok (), { published with
    allocator := PageAllocator.freePage db.allocator root tx.transaction }) := Program.run_op _ _ _
  rw [WriteTransaction.commit, hfailed, if_neg Bool.false_ne_true, Program.run_bind_ok hpages,
    Program.run_bind_ok hpublish, hfreed, freePages, Program.run_bind_ok hfree]
  rfl

/-! ### The first transaction of a new database -/

/-- A write transaction begins unless the transaction ids have come to their end. -/
theorem beginWrite_of_lt (env : Env) (db : DatabaseState)
    (h : db.commit.header.currentSlot.transactionId.toNat + 1 < 2 ^ 64) :
    (Database.beginWrite db.pageIo.pageSize).run (execute env) db =
      (.ok ⟨db.pageIo.pageSize, .ofNat (db.commit.header.currentSlot.transactionId.toNat + 1),
        db.commit.header.currentSlot.rootPageId, db.commit.header.currentSlot.rootPageChecksum,
        [], [], false⟩, db) := by
  have hload : loadHeader.run (execute env) db = (.ok db.commit.header, db) :=
    Program.run_op _ _ _
  rw [Database.beginWrite, Program.run_bind_ok hload, WriteTransaction.new, usize_of_lt h]
  rfl

/-- A database can be created with any page size that leaves room for a few pages. -/
theorem openNew_of_le (env : Env) {pageSize : ℕ} (evicts : ℕ → PageId → Bool)
    (hlarge : minPageSize ≤ pageSize) (hsmall : pageSize * 2 < 2 ^ 63) :
    ∃ db, Database.openNew env pageSize evicts = .ok db := by
  have hpage63 : pageSize < 2 ^ 63 := by omega
  obtain ⟨page, hpage, hlength, -⟩ :=
    getEmptyLeafPage_ok env (le_trans (by decide) hlarge) hpage63
  obtain ⟨header, heq⟩ : ∃ header, header = DbHeader.initial pageSize (env.checksumPage page) :=
    ⟨_, rfl⟩
  have hsize : header.pageSize.toNat = pageSize := by
    rw [heq]
    exact UInt64.toNat_ofNat_of_lt' (by change _ < 2 ^ 64; omega)
  have hnext : header.currentSlot.nextPageId.toNat = 2 := by
    rw [heq]
    rfl
  obtain ⟨hencode, hencoded⟩ := encodePage_of_le header
    (by rw [size_dbHeader, hsize]; exact le_trans (by decide) hlarge) (hsize ▸ hpage63)
  -- The file grows by two pages, of which the header is the first and the empty leaf the second;
  -- neither write can fail, since both lie inside it.
  have hgrow : FileHandler.empty.preallocatePages header.currentSlot.nextPageId.toNat pageSize =
      .ok (⟨pageSize * 2, fun _ => 0, []⟩, pageSize * 2 / pageSize) := by
    have hlen : FileHandler.empty.len + pageSize * 2 = pageSize * 2 := Nat.zero_add _
    rw [hnext, FileHandler.preallocatePages, hlen, usize_of_lt (by omega), ok_bind,
      FileHandler.setLen, if_pos hsmall]
    rfl
  have hzero : headerPageId.toNat = 0 := rfl
  have hone : initialRootPageId.toNat = 1 := rfl
  obtain ⟨pageIo₁, hfirst⟩ : ∃ pageIo₁, PageIo.writePage env ⟨⟨pageSize * 2, fun _ => 0, []⟩,
      PageCache.new evicts, pageSize⟩ headerPageId (headerPage header) = (.ok (), pageIo₁) :=
    writePage_of_le (hencoded.trans hsize) (by rw [hzero, Nat.zero_mul]; decide)
      (by rw [hzero, Nat.zero_mul]; exact Nat.zero_le _)
  obtain ⟨-, ⟨hsize₁, -⟩, -, hfile₁⟩ := writePage_ok hfirst
  obtain ⟨pageIo₂, hsecond⟩ : ∃ pageIo₂, pageIo₁.writePage env initialRootPageId page =
      (.ok (), pageIo₂) := by
    refine writePage_of_le ?_ ?_ ?_
    · rw [hsize₁, hlength]
    · rw [hsize₁, hone]
      dsimp only
      omega
    · rw [hsize₁, hone, hfile₁, Nat.one_mul]
      exact le_trans (Nat.le_mul_of_pos_right _ two_pos) (le_max_left _ _)
  have hnew : Database.newFile env (PageIo.new FileHandler.empty pageSize evicts) =
      .ok (header, pageIo₂) := by
    rw [Database.newFile, PageIo.new, hpage, ok_bind]
    dsimp only
    rw [← heq, hgrow, ok_bind]
    dsimp only
    rw [hencode, ok_bind, hfirst]
    dsimp only
    rw [ok_bind, hsecond]
    rfl
  refine ⟨Database.fromParts pageIo₂ header, ?_⟩
  rw [Database.openNew, Database.validatePageSize, if_neg (not_lt.mpr hlarge), ok_bind]
  dsimp only
  rw [hnew]
  rfl

/-- The first transaction of a new database whose root page is `page`. -/
def firstTransaction (env : Env) (pageSize : ℕ) (page : Bytes) : WriteTransaction :=
  ⟨pageSize, 1, initialRootPageId, env.checksumPage page, [], [], false⟩

/-- What the first transaction of a new database finds: it begins, it can read the root, and
the first page it allocates makes the file grow. -/
structure FirstSteps (env : Env) (pageSize : ℕ) (page : Bytes) (db db₁ db₂ : DatabaseState) :
    Prop where
  begin : (Database.beginWrite db.pageIo.pageSize).run (execute env) db =
    (.ok (firstTransaction env pageSize page), db)
  read : execute env (.readPage initialRootPageId) db = (.ok page, db₁)
  allocate : execute env .allocatePageId db₁ = (.ok 2, db₂)
  allocator : db₂.allocator = ⟨[], 3, pageSize * 1026 / pageSize⟩
  readers : db₂.readTracker = []
  commit : db₂.commit = db.commit
  size : db₂.pageIo.pageSize = pageSize
  len : db₂.pageIo.fileHandler.len = pageSize * 1026

theorem first_steps {pageSize : ℕ} {page : Bytes} (h : Fresh env pageSize page db)
    (hsmall : pageSize * 1026 < 2 ^ 63) : ∃ db₁ db₂, FirstSteps env pageSize page db db₁ db₂ := by
  obtain ⟨header, heq⟩ : ∃ header, header = DbHeader.initial pageSize (env.checksumPage page) :=
    ⟨_, rfl⟩
  have hparts := h.parts
  rw [← heq] at hparts
  have hslot : header.currentSlot = ⟨initialRootPageId, env.checksumPage page, 0, 2⟩ := by
    rw [heq]
    rfl
  have hcommit : db.commit = CommitState.new header := by
    rw [hparts]
    rfl
  have hlen : db.pageIo.fileHandler.len = 2 * pageSize := by rw [h.file]
  have hpos : 0 < pageSize := lt_of_lt_of_le (by decide) h.large
  have halloc : db.allocator = ⟨[], 2, 2⟩ := by
    rw [hparts, Database.fromParts, PageAllocator.new, hslot]
    dsimp only
    rw [hlen, h.size, Nat.mul_div_cancel _ hpos]
  have htracker : db.readTracker = [] := by
    rw [hparts]
    rfl
  -- the transaction
  have hbegin : (Database.beginWrite db.pageIo.pageSize).run (execute env) db =
      (.ok (firstTransaction env pageSize page), db) := by
    have hcurrent : db.commit.header.currentSlot = header.currentSlot := by
      rw [hcommit]
      rfl
    have hlt : header.currentSlot.transactionId.toNat + 1 < 2 ^ 64 := by
      rw [hslot]
      change (0 : TransactionId).toNat + 1 < 2 ^ 64
      decide
    rw [beginWrite_of_lt env db (by rwa [hcurrent]), hcurrent, hslot, h.size]
    rfl
  -- reading the root and allocating a page for its copy
  obtain ⟨pageIo, hread, ⟨hsize, -⟩, hfile⟩ := h.reads.readPage env (h.size ▸ h.small)
  have hreadOp : execute env (.readPage initialRootPageId) db = (.ok page, { db with pageIo }) := by
    rw [execute, hread]
  have hgrow : pageIo.fileHandler.preallocatePages pageAllocationBatch pageIo.pageSize =
      .ok ({ pageIo.fileHandler with len := pageSize * 1026 }, pageSize * 1026 / pageSize) := by
    have hlen' : pageIo.fileHandler.len + pageIo.pageSize * pageAllocationBatch =
        pageSize * 1026 := by
      rw [hfile, hlen, hsize, h.size, pageAllocationBatch]
      omega
    rw [FileHandler.preallocatePages, hlen', usize_of_lt (by omega), ok_bind, FileHandler.setLen,
      if_pos hsmall, hsize, h.size]
    rfl
  let db₂ : DatabaseState := {
    pageIo := { pageIo with fileHandler := { pageIo.fileHandler with len := pageSize * 1026 } }
    allocator := ⟨[], 3, pageSize * 1026 / pageSize⟩
    readTracker := []
    commit := db.commit }
  have hallocOp : execute env .allocatePageId { db with pageIo } = (.ok 2, db₂) := by
    rw [execute, PageAllocator.allocatePageId]
    dsimp only
    rw [halloc, PageAllocator.reusable]
    dsimp only
    rw [if_neg (by decide), if_pos (by decide), hgrow, htracker]
    rfl
  exact ⟨_, db₂, hbegin, hreadOp, hallocOp, rfl, rfl, rfl, hsize.trans h.size, rfl⟩

/-- **The first insertion** into a new database succeeds if its pair fits into a page: the
copy of the root takes the pair. -/
theorem first_insert {pageSize : ℕ} {page : Bytes} (h : Fresh env pageSize page db)
    {db₁ db₂ : DatabaseState} (hfirst : FirstSteps env pageSize page db db₁ db₂) {key : Key}
    {value : Value} (hfit : 56 + (key.length + value.length) ≤ pageSize) :
    ∃ data : Bytes, LeafPageMutator.insert page key value = .ok data ∧ data.length = pageSize ∧
      ((firstTransaction env pageSize page).insert env key value).run (execute env) db =
        (.ok ⟨pageSize, 1, 2, env.checksumPage data, [(2, .available data)], [initialRootPageId],
          false⟩, { db₂ with pageIo := db₂.pageIo.removePage 2 }) := by
  have hlength : page.length = (firstTransaction env pageSize page).pageSize :=
    h.reads.length.trans h.size
  have hfits : LeafPageMutator.fits page key value = .ok true := by
    rw [h.leaf.fits, h.room]
    refine congrArg Except.ok (decide_eq_true ?_)
    rw [List.length_nil]
    omega
  have hdirty : (firstTransaction env pageSize page).dirtyPages = [] := rfl
  obtain ⟨data, hdata, hsame, hinsert⟩ := insert_leaf hdirty hfirst.read hfirst.allocate hlength
    h.leaf hfits
  refine ⟨data, hdata, hsame.trans hlength, ?_⟩
  rw [WriteTransaction.insert]
  change (if false = true then _ else _ : Call WriteTransaction).run (execute env) db = _
  rw [if_neg Bool.false_ne_true, Program.run_bind_ok hinsert]
  rfl

/-- The leaf it leaves. -/
theorem first_leaf {pageSize : ℕ} {page data : Bytes} (h : Fresh env pageSize page db) {key : Key}
    {value : Value} (hfit : 56 + (key.length + value.length) ≤ pageSize)
    (hdata : LeafPageMutator.insert page key value = .ok data) :
    ∃ ms, LeafHolds data ms [(key, value)] ∧
      (readPod LeafHeader data 0).kvPairsEndOffset.toNat = pageSize - key.length - value.length := by
  have hroom : 24 + (([] : List LeafEntryMetadata).length + 1) * 32 +
      (key.length + value.length) ≤ (readPod LeafHeader page 0).kvPairsEndOffset.toNat := by
    rw [h.room, List.length_nil]
    omega
  obtain ⟨data', ms, hdata', -, hholds, hend⟩ := h.leaf.insert_new List.not_mem_nil hroom
  rw [hdata, Except.ok.injEq] at hdata'
  subst hdata'
  rw [h.room] at hend
  exact ⟨ms, hholds, hend⟩

/-- A transaction that inserts one pair into a new database and is committed. -/
structure FirstCommit (env : Env) (db : DatabaseState) (key : Key) (value : Value)
    (tx tx' : WriteTransaction) (db₁ db₂ : DatabaseState) : Prop where
  begin : (Database.beginWrite db.pageIo.pageSize).run (execute env) db = (.ok tx, db)
  insert : (tx.insert env key value).run (execute env) db = (.ok tx', db₁)
  commit : (tx'.commit tx'.dirtyPages).run (execute env) db₁ = (.ok (), db₂)
  dirty : tx'.dirtyPages.map Prod.fst = [2]
  next : db₁.allocator.nextPageId = 3
  unfreed : db₁.allocator.pendingFreePages = []
  freed : db₂.allocator.pendingFreePages = [⟨initialRootPageId, 1⟩]
  readers : db₂.readTracker = []
  transaction : db₂.commit.header.currentSlot.transactionId = 1

/-- **The first transaction** of a new database succeeds if its pair fits into a page. -/
theorem first_commit {pageSize : ℕ} {page : Bytes} (h : Fresh env pageSize page db)
    (hsmall : pageSize * 1026 < 2 ^ 63) {key : Key} {value : Value}
    (hfit : 56 + (key.length + value.length) ≤ pageSize) :
    ∃ tx tx' db₁ db₂, FirstCommit env db key value tx tx' db₁ db₂ := by
  obtain ⟨db₁, db₂, hfirst⟩ := first_steps h hsmall
  obtain ⟨data, -, hlength, hinsert⟩ := first_insert h hfirst hfit
  let tx' : WriteTransaction := ⟨pageSize, 1, 2, env.checksumPage data, [(2, .available data)],
    [initialRootPageId], false⟩
  let db₃ : DatabaseState := { db₂ with pageIo := db₂.pageIo.removePage 2 }
  have hsize : db₃.pageIo.pageSize = pageSize := hfirst.size
  have htwo : (2 : PageId).toNat = 2 := rfl
  have hheader : db₃.commit.header.pageSize.toNat = pageSize := by
    change db₂.commit.header.pageSize.toNat = _
    rw [hfirst.commit, h.parts]
    exact UInt64.toNat_ofNat_of_lt' (by have := h.small; change _ < 2 ^ 64; omega)
  -- page 2 is the only dirty page, and the old root the only one freed
  obtain ⟨db₄, hcommitted, hfreed, htracker, htransaction⟩ : ∃ db₄, (tx'.commit tx'.dirtyPages).run
      (execute env) db₃ = (.ok (), db₄) ∧ db₄.allocator =
        PageAllocator.freePage db₃.allocator initialRootPageId tx'.transaction ∧
      db₄.readTracker = db₃.readTracker ∧
      db₄.commit.header.currentSlot.transactionId = tx'.transaction :=
    commit_one rfl rfl rfl (hlength.trans hsize.symm) (hheader.trans hsize.symm)
      (hsize ▸ h.large) (hsize ▸ h.small) (by rw [hsize, htwo]; omega) (by
        have hlen : db₃.pageIo.fileHandler.len = pageSize * 1026 := hfirst.len
        rw [hsize, htwo, hlen]
        omega)
  have hallocator : db₃.allocator = ⟨[], 3, pageSize * 1026 / pageSize⟩ := hfirst.allocator
  refine ⟨_, tx', db₃, db₄, hfirst.begin, hinsert, hcommitted, rfl, ?_, ?_, ?_,
    htracker.trans hfirst.readers, htransaction⟩
  · rw [hallocator]
  · rw [hallocator]
  · rw [hfreed, hallocator]
    rfl

end

end KvRaft.Kv
