import KvRaft.Kv.Session

/-!
# Every tree verifies

`Tree::verify_pages` follows the checksums from the root through all levels. It succeeds

* after every insertion, on the pages as the write transaction sees them (`overlaid`), for
  the root and the checksum it has recorded;
* after every commit, on the file alone, for the active slot.

Nothing is assumed of the checksum.
-/

namespace KvRaft.Kv

open Ordered

/-- Operations as a write transaction sees them: its dirty pages lie over the pages of the
database. -/
def overlaid (env : Env) (tx : WriteTransaction) : Handler signature Fault DatabaseState
  | .readPage pageId, s =>
    match tx.slot pageId with
    | some (.available data) => (.ok data, s)
    | some .checkedOut => (.error .panic, s)
    | none => execute env (.readPage pageId) s
  | o, s => execute env o s

section

variable {env : Env} {db : DatabaseState} {w : Work} {readers : List Version}

/-- Reading through the dirty pages. -/
theorem overlaid_honours (env : Env) (tx : WriteTransaction) (w : Work) (readers : List Version) :
    (overlaid env tx).Honours (reading (overlay tx w.view)) (fun _ _ => False)
      fun db _ => Owned env db w readers [] := by
  rintro db n o h ⟨id, rfl, page, hview⟩
  have hknown := hview
  rw [overlay] at hview
  rw [overlaid]
  cases hslot : tx.slot id with
  | some slot =>
    rw [hslot] at hview
    cases slot with
    | available data => exact ⟨n + 1, ⟨by rw [overlay, hslot], rfl⟩, h⟩
    | checkedOut => exact absurd hview (by simp)
  | none =>
    rw [hslot] at hview
    obtain ⟨db', hread, howned, -⟩ := h.readPage hview
    dsimp only
    rw [hread]
    exact ⟨n + 1, ⟨hknown, rfl⟩, howned⟩

/-- The tree of an open transaction verifies. -/
theorem Owned.verify_overlaid (h : Owned env db w readers []) {tx : WriteTransaction}
    {m : Key → Option Value} (hok : TxOk env w tx m) :
    ((Tree.verifyPages env maxDepth tx.rootPage tx.rootPageChecksum).run (overlaid env tx) db).1 =
      .ok () := by
  obtain ⟨d, ps, hT, hspans⟩ := hok.tree
  obtain ⟨⟨⟩, db', n, hrun, -⟩ := (verifyPages_sat (n := 0)
    (hT.depth_lt_maxDepth hspans.nodup) hT).run_ok (overlaid_honours env tx w readers) h
  rw [hrun]

/-- Looking up a key in it returns what its map holds. -/
theorem Owned.get_overlaid (h : Owned env db w readers []) {tx : WriteTransaction}
    {m : Key → Option Value} (hok : TxOk env w tx m) (key : Key) :
    ((Tree.get maxDepth tx.rootPage key).run (overlaid env tx) db).1 = .ok (m key) := by
  obtain ⟨d, ps, hT, hspans⟩ := hok.tree
  obtain ⟨value, db', n, hrun, ⟨rfl, -⟩, -⟩ := (get_sat (n := 0)
    (hT.depth_lt_maxDepth hspans.nodup) hT bot_le (WithTop.coe_lt_top key)).run_ok
    (overlaid_honours env tx w readers) h
  rw [hrun]

/-- A file whose pages can be read as the view says. -/
theorem readOnly_honours (env : Env) (view : View) {pageSize : ℕ} (hsmall : pageSize < 2 ^ 63)
    (file : FileHandler) :
    (Database.readOnly env).Honours (reading view) (fun _ _ => False) fun pageIo _ =>
      pageIo.pageSize = pageSize ∧ pageIo.fileHandler = file ∧
        ∀ id data, view id = some data → Reads pageIo id data := by
  rintro pageIo n o ⟨rfl, rfl, hreads⟩ ⟨id, rfl, page, hview⟩
  obtain ⟨pageIo', hread, hkeeps, hfile⟩ := (hreads id page hview).readPage env hsmall
  rw [Database.readOnly, hread]
  exact ⟨n + 1, ⟨hview, rfl⟩, hkeeps.1, hfile, fun id data hview =>
    hkeeps.2 id data (Set.notMem_empty id) (hreads id data hview)⟩

/-- What can be read can be read from the file. -/
theorem Reads.uncached {pageIo : PageIo} {id : PageId} {data : Bytes} (h : Reads pageIo id data)
    (evicts : ℕ → PageId → Bool) :
    Reads (PageIo.new pageIo.fileHandler pageIo.pageSize evicts) id data :=
  { h with cached := fun d hd => absurd hd (by simp [PageIo.new, PageCache.new]) }

/-- The tree of the current version verifies on the file. -/
theorem Owned.verify_file (h : Owned env db w readers []) (evicts : ℕ → PageId → Bool) :
    (Database.verifySlot env (PageIo.new db.pageIo.fileHandler db.pageIo.pageSize evicts)
      db.commit.header.currentSlot).1 = .ok () := by
  have hslot : db.commit.header.currentSlot = w.base.slot := by
    rw [h.commit, ← h.slot]
    rfl
  obtain ⟨⟨⟩, pageIo, n, hrun, -⟩ := (verifyPages_sat (n := 0)
    (h.stands.tree.depth_lt_maxDepth h.stands.nodup) h.stands.tree).run_ok
    (readOnly_honours env w.view (h.pageSize ▸ h.small) db.pageIo.fileHandler)
    (s := PageIo.new db.pageIo.fileHandler db.pageIo.pageSize evicts)
    ⟨rfl, rfl, fun id data hview => (h.reads id data hview).uncached evicts⟩
  rw [Database.verifySlot, hslot]
  exact congrArg Prod.fst hrun

/-- **Every tree verifies**: the tree of the open write transaction on the pages as the
transaction sees them, and the committed tree on the file. -/
theorem trees_verify (henv : env.debugAssertions = true) {pageSize : ℕ}
    {evicts : ℕ → PageId → Bool} (hnew : Database.openNew env pageSize evicts = .ok db)
    {s : Session} (hrun : Session.Run env (.start db) s) :
    (∀ tx inserts, s.writer = some (tx, inserts) →
      ((Tree.verifyPages env maxDepth tx.rootPage tx.rootPageChecksum).run
        (overlaid env tx) s.db).1 = .ok ()) ∧
    ∀ evicts', (Database.verifySlot env
      (PageIo.new s.db.pageIo.fileHandler s.db.pageIo.pageSize evicts')
      s.db.commit.header.currentSlot).1 = .ok () := by
  obtain ⟨w, rs, h⟩ := hrun.follows henv hnew
  exact ⟨fun tx inserts hwriter => h.owned.verify_overlaid (h.writer tx inserts hwriter).ok,
    h.owned.verify_file⟩

theorem trees_verify_afterFirstInsert : ∃ db s tx,
    Database.openNew .debug 4096 (fun _ _ => false) = .ok db ∧
      Session.Run .debug (.start db) s ∧ s.writer = some (tx, [([1], [2])]) ∧
      ((Tree.verifyPages .debug maxDepth tx.rootPage tx.rootPageChecksum).run
        (overlaid .debug tx) s.db).1 = .ok () := by
  obtain ⟨db, tx, _, _, hnew, hrun, -⟩ := first_run
  exact ⟨db, _, tx, hnew, hrun, rfl, (trees_verify rfl hnew hrun).1 _ _ rfl⟩

end

end KvRaft.Kv
