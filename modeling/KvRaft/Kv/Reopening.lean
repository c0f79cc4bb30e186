import KvRaft.Kv.Persistence
import KvRaft.Kv.Usage

/-!
# The version in the file

What a database finds in its file when it is opened again without a crash (`OnFile`). All that
has been written is there, so it is the version of the last header page that was written whole.
That need not be the version in memory: a commit may have failed after its header was written.

Then the next transactions start from a version that is not the one in the file. They do not
touch its pages either: it is built of pages of the version in memory, which are not freed
before the next commit, and of pages that went to the transaction that failed, which nobody
gets again while the process runs (`Apart`). And a commit that succeeds puts its own header
in the place of the other.
-/

namespace KvRaft.Kv

open Bytes Ordered

/-- The version the file holds, and what the allocator knows of it. -/
structure OnFile (env : Env) (db : DatabaseState) (v : Version) : Prop where
  bears : ∃ header, Bears env db.pageIo.pageSize db.pageIo.fileHandler.len
    db.pageIo.fileHandler.contents header v
  memory : Sound db.pageIo.pageSize db.commit.header
  len : db.pageIo.fileHandler.len < 2 ^ 64 + db.pageIo.pageSize
  next : v.slot.nextPageId ≤ db.allocator.nextPageId
  queue : ∀ e ∈ db.allocator.pendingFreePages, e.pageId ∉ v.pages

/-- Until the header is written the transaction has no page of the version in the file; from
then on that is its own version. -/
def Apart (w : Work) (v : Version) : Prop :=
  match w.phase with
  | .building => ∀ id ∈ v.pages, id ∉ w.used
  | .writing _ => ∀ id ∈ v.pages, id ∉ w.used
  | .issued u => v = u
  | .synced u => v = u
  | .published _ _ => v = w.base

section

variable {env : Env} {db db' : DatabaseState} {w w' : Work} {readers : List Version}
  {v u : Version} {id : PageId} {data : Bytes}

/-! ### The file -/

/-- The file may grow, and pages that the version does not have may change. -/
theorem Bears.congr {pageSize len len' : ℕ} {bytes bytes' : ℕ → UInt8} {header : DbHeader}
    (h : Bears env pageSize len bytes header v) (hlen : len ≤ len')
    (hheader : block pageSize bytes' headerPageId = block pageSize bytes headerPageId)
    (hblock : ∀ id ∈ v.pages, block pageSize bytes' id = block pageSize bytes id) :
    Bears env pageSize len' bytes' header v :=
  { h with
    disk := hheader.trans h.disk
    stands := h.stands.congr fun id hid => by
      obtain ⟨hne, hinside⟩ := inside_of_stands h.stands hid
      rw [fileView_of_inside hne hinside, fileView_of_inside hne (hinside.trans hlen), hblock id hid] }

theorem OnFile.onlyCache (h : OnFile env db v) (hcache : OnlyCache db db') : OnFile env db' v := by
  obtain ⟨pageCache, rfl⟩ := hcache
  exact { h with }

/-- A page that the version does not have is written, or a part of it. -/
theorem OnFile.write (h : OnFile env db v) (hid : id ≠ headerPageId) (hv : id ∉ v.pages)
    (hlength : data.length ≤ db.pageIo.pageSize) (hsmall : id.toNat * db.pageIo.pageSize < 2 ^ 64)
    {pageIo : PageIo} (hsize : pageIo.pageSize = db.pageIo.pageSize)
    (hfile : pageIo.fileHandler = { db.pageIo.fileHandler with
      len := max db.pageIo.fileHandler.len (id.toNat * db.pageIo.pageSize + data.length)
      pending := db.pageIo.fileHandler.pending ++ [(id.toNat * db.pageIo.pageSize, data)] }) :
    OnFile env { db with pageIo } v := by
  obtain ⟨header, hbears⟩ := h.bears
  have hlen := h.len
  refine { h with bears := ⟨header, ?_⟩, memory := ?_, len := ?_ }
  · dsimp only
    rw [hsize, hfile, contents_writeAt]
    exact hbears.congr (le_max_left _ _) (block_overwrite_of_ne hlength hid.symm)
      fun id' hid' => block_overwrite_of_ne hlength fun heq => hv (heq ▸ hid')
  · dsimp only
    rw [hsize]
    exact h.memory
  · dsimp only
    rw [hsize, hfile]
    exact max_lt hlen (by omega)

/-- **The header of a planned version** is in the file. -/
theorem Owned.onFile (h : Owned env db w readers []) (hplanned : Planned w u)
    (hstands : u.Stands env w.view) (hsound : Sound w.pageSize w.header)
    (hlen : db.pageIo.fileHandler.len < 2 ^ 64 + w.pageSize)
    (hblock : block w.pageSize db.pageIo.fileHandler.contents headerPageId =
      headerPage (w.headerFor u)) : OnFile env db u where
  bears := by
    rw [h.pageSize]
    exact ⟨w.headerFor u, {
      sound := hsound.withCommit _ _ _ _
      slot := currentSlot_withCommit _ _ _ _ _
      disk := hblock
      stands := hstands.congr fun id hid => by
        obtain ⟨page, hpage⟩ := hstands.tree.known hid
        rw [hpage]
        exact h.fileView hpage
      below := fun id hid => by
        rw [hplanned.next]
        exact (hplanned.pages id hid).elim (h.base id) fun hused => (h.used id hused).below }⟩
  memory := by
    rw [h.pageSize, h.commit]
    exact hsound
  len := by
    rw [h.pageSize]
    exact hlen
  next := by
    rw [hplanned.next, h.next]
  queue e he hid := (hplanned.pages _ hid).elim (h.waiting e he).base (h.waiting e he).used

/-! ### The operations -/

theorem OnFile.sound (h : OnFile env db v) (howned : Owned env db w readers []) :
    Sound w.pageSize w.header := by
  have hmemory := h.memory
  rw [howned.pageSize, howned.commit] at hmemory
  exact hmemory

/-- The pages the allocator takes from are not those of the version. -/
theorem OnFile.notMem_of_allocated (h : OnFile env db v) (hbelow : ∀ id ∈ v.pages, id < v.slot.nextPageId)
    {db' : DatabaseState} (hexec : execute env .allocatePageId db = (.ok id, db')) :
    id ∉ v.pages := by
  rcases allocate_inv env db with ⟨e, rest, hreusable, hop⟩ | ⟨fault, next, -, -, hop⟩ |
    ⟨-, len, reservedPageCount, -, hop⟩ <;> rw [hop, Prod.mk.injEq] at hexec
  · obtain rfl := Except.ok.inj hexec.1
    exact h.queue e ((reusable_eq_some hreusable).1 ▸ List.mem_cons_self)
  · exact absurd hexec.1 (by simp)
  · obtain rfl := Except.ok.inj hexec.1
    exact fun hid => absurd ((hbelow _ hid).trans_le h.next) (lt_irrefl _)

/-- Allocating, whether it succeeds or not. -/
theorem OnFile.allocate (h : OnFile env db v) :
    OnFile env (execute env .allocatePageId db).2 v := by
  have hcount : ∀ {next : PageId}, next = db.allocator.nextPageId ∨
      db.allocator.nextPageId.toNat + 1 ≠ 2 ^ 64 ∧ next = db.allocator.nextPageId + 1 →
      v.slot.nextPageId ≤ next := by
    rintro next (rfl | ⟨hoverflow, rfl⟩)
    · exact h.next
    · exact h.next.trans (lt_add_one_of_no_overflow hoverflow).le
  rcases allocate_inv env db with ⟨e, rest, hreusable, hop⟩ | ⟨fault, next, hnext, -, hop⟩ |
    ⟨hoverflow, len, reservedPageCount, hgrows, hop⟩ <;> rw [hop]
  · have hrest : ∀ e' ∈ rest, e' ∈ db.allocator.pendingFreePages := fun e' he' =>
      (reusable_eq_some hreusable).1 ▸ List.mem_cons_of_mem _ he'
    exact { h with queue := fun e' he' => h.queue e' (hrest e' he') }
  · exact { h with next := hcount hnext }
  · obtain ⟨header, hbears⟩ := h.bears
    refine { h with bears := ⟨header, ?_⟩, len := ?_, next := hcount (Or.inr ⟨hoverflow, rfl⟩) }
    · exact hbears.congr hgrows.le rfl fun id _ => rfl
    · have hlen := h.len
      dsimp only
      rcases hgrows with ⟨rfl, -⟩ | ⟨-, hsmall, -⟩
      · exact hlen
      · omega

/-- **Every operation of a write transaction** that succeeds keeps the version in the file, or
puts its own there. -/
theorem OnFile.perform (h : OnFile env db v) (howned : Owned env db w readers [])
    (hapart : Apart w v) {o : Op} (hpre : WriterPre env w o) {a : o.Answer}
    (hexec : execute env o db = (.ok a, db')) (hpost : WriterPost w o a w')
    (howned' : Owned env db' w' readers []) : ∃ v', OnFile env db' v' ∧ Apart w' v' := by
  cases o with
  | readPage id =>
    obtain ⟨rfl, -⟩ := hpost
    have hcache := onlyCache_execute env id db
    rw [hexec] at hcache
    exact ⟨v, h.onlyCache hcache, hapart⟩
  | writePage id data =>
    obtain ⟨u, hphase, hpre⟩ := hpre
    simp only [WriterPost, hphase] at hpost
    simp only [Apart, hphase] at hapart
    rcases hwrite : db.pageIo.writePage env id data with ⟨result, pageIo⟩
    rw [execute, hwrite, Prod.mk.injEq] at hexec
    obtain ⟨rfl, rfl⟩ := hexec
    obtain ⟨hlength, hkeeps, hreads, hfile⟩ := writePage_ok hwrite
    have hsmall := hreads.small
    rw [hkeeps.1] at hsmall
    by_cases hid : id = headerPageId
    · -- the header of the new version
      subst hid
      rw [if_pos rfl] at hpre hpost
      subst hpost
      obtain ⟨hplanned, hstands⟩ := howned'.phase
      have hsound := h.sound howned
      have hlen := h.len
      rw [howned.pageSize] at hlength hfile hlen hsmall
      refine ⟨u, howned'.onFile hplanned hstands hsound ?_ ?_, rfl⟩
      · dsimp only
        rw [hfile]
        exact max_lt hlen (by omega)
      · dsimp only
        rw [hfile, contents_writeAt, block_overwrite hlength, if_pos rfl]
        exact hpre.1
    · -- a page of the new version
      rw [if_neg hid] at hpre hpost
      subst hpost
      have hv : id ∉ v.pages := fun hmem => hapart id hmem hpre.1
      refine ⟨v, h.write hid hv hlength.le hsmall hkeeps.1 hfile, ?_⟩
      simp only [Apart, Work.setPage, hphase]
      exact hapart
  | removePage id =>
    obtain rfl : w' = w := hpost
    obtain rfl := (Prod.mk.inj hexec).2
    exact ⟨v, h.onlyCache ⟨_, rfl⟩, hapart⟩
  | syncData =>
    obtain ⟨u, hphase⟩ := hpre
    simp only [WriterPost, hphase] at hpost
    simp only [Apart, hphase] at hapart
    obtain rfl := (Prod.mk.inj hexec).2
    subst hpost
    exact ⟨v, { h with }, hapart⟩
  | allocatePageId =>
    obtain ⟨-, -, -, next, rfl⟩ := hpost
    have hphase : w.phase = .building := hpre
    simp only [Apart, hphase] at hapart
    obtain ⟨header, hbears⟩ := h.bears
    have hnew := h.notMem_of_allocated hbears.below hexec
    have hfile := h.allocate
    rw [hexec] at hfile
    refine ⟨v, hfile, ?_⟩
    simp only [Apart, hphase]
    intro id hid hused
    rcases Set.mem_insert_iff.mp hused with rfl | hused
    · exact hnew hid
    · exact hapart id hid hused
  | nextPageId =>
    obtain ⟨-, rfl⟩ := hpost
    obtain rfl := (Prod.mk.inj hexec).2
    exact ⟨v, h, hapart⟩
  | freePage id transaction =>
    obtain ⟨old, released, hphase, -, hbase, -, -⟩ := hpre
    simp only [WriterPost, hphase] at hpost
    simp only [Apart, hphase] at hapart
    obtain rfl := (Prod.mk.inj hexec).2
    subst hpost
    -- the version in the file is the one that has been published
    refine ⟨v, { h with queue := fun e he => ?_ }, hapart⟩
    rcases List.mem_append.mp he with he | he
    · exact h.queue e he
    · rw [List.mem_singleton.mp he, hapart]
      exact hbase
  | loadHeader =>
    obtain ⟨-, rfl⟩ := hpost
    obtain rfl := (Prod.mk.inj hexec).2
    exact ⟨v, h, hapart⟩
  | swap header =>
    obtain ⟨u, hphase, rfl⟩ := hpre
    simp only [WriterPost, hphase] at hpost
    simp only [Apart, hphase] at hapart
    obtain rfl := (Prod.mk.inj hexec).2
    subst hpost
    refine ⟨v, { h with memory := ?_ }, hapart⟩
    dsimp only
    rw [howned.pageSize]
    exact (h.sound howned).withCommit _ _ _ _
  | loadSnapshot => exact hpre.elim
  | register transaction => exact hpre.elim
  | deregister transaction => exact hpre.elim

/-! ### Operations that fail -/

/-- An operation that is refused leaves the version in the file. -/
theorem OnFile.refused (h : OnFile env db v) {o : Op} {e : Fault}
    (hexec : execute env o db = (.error e, db')) : OnFile env db' v := by
  cases o with
  | readPage id =>
    have hcache := onlyCache_execute env id db
    rw [hexec] at hcache
    exact h.onlyCache hcache
  | writePage id data =>
    rcases hwrite : db.pageIo.writePage env id data with ⟨result, pageIo⟩
    rw [execute, hwrite, Prod.mk.injEq] at hexec
    obtain ⟨rfl, rfl⟩ := hexec
    obtain rfl := writePage_error hwrite
    exact h
  | allocatePageId =>
    have hfile := h.allocate
    rw [hexec] at hfile
    exact hfile
  | _ => exact absurd (Prod.mk.inj hexec).1 (by simp)

/-- A page is written whole, or not at all. -/
def WholeWrite (pageSize k : ℕ) : Prop := k = 0 ∨ pageSize ≤ k

/-- **A write that fails** leaves the version in the file, or the header of the new version,
whose pages are all there. -/
theorem OnFile.failedWrite (h : OnFile env db v) (howned : Owned env db w readers [])
    (hapart : Apart w v) (hpre : WriterPre env w (.writePage id data)) {k : ℕ}
    (hwhole : WholeWrite db.pageIo.pageSize k)
    (hafter : afterIoError env k db (.writePage id data) = some db') : ∃ v', OnFile env db' v' := by
  obtain ⟨u, hphase, hpre⟩ := hpre
  simp only [Apart, hphase] at hapart
  rw [afterIoError] at hafter
  split at hafter
  · exact absurd hafter (by simp)
  rename_i hlength
  rw [not_not] at hlength
  split at hafter
  on_goal 2 => exact absurd hafter (by simp)
  rename_i fileHandler hwrite
  obtain rfl := Option.some.inj hafter
  obtain ⟨hsmall, hfile⟩ := writeAtPage_inv hwrite
  have hpart : (data.take k).length ≤ db.pageIo.pageSize := by
    rw [List.length_take, hlength]
    exact min_le_right _ _
  by_cases hid : id = headerPageId
  · subst hid
    rw [if_pos rfl] at hpre
    rcases hwhole with rfl | hall
    · -- nothing has been written
      obtain ⟨header, hbears⟩ := h.bears
      refine ⟨v, { h with bears := ⟨header, ?_⟩, len := ?_ }⟩
      · dsimp only
        rw [hfile, contents_writeAt, List.take_zero]
        have hsame : ∀ id', block db.pageIo.pageSize (overwrite db.pageIo.fileHandler.contents
            (headerPageId.toNat * db.pageIo.pageSize, [])) id' =
            block db.pageIo.pageSize db.pageIo.fileHandler.contents id' := fun id' =>
          readRange_overwrite_of_disjoint (by simp [headerPageId])
        exact hbears.congr (le_max_left _ _) (hsame _) fun id' _ => hsame id'
      · have hlen := h.len
        dsimp only
        rw [hfile]
        exact max_lt hlen (by omega)
    · -- the whole header has been
      rw [List.take_of_length_le (hlength.trans_le hall)] at hwrite hfile hpart
      have hkeeps := keeps_partialWrite hpart hwrite
      have howned' := howned.keepsHeader hkeeps
      have hplanned := howned.phase
      rw [hphase] at hplanned
      have hlen := h.len
      rw [howned.pageSize] at hlength hfile hlen hsmall
      refine ⟨u, howned'.onFile hplanned hpre.2 (h.sound howned) ?_ ?_⟩
      · dsimp only
        rw [hfile]
        exact max_lt hlen (by omega)
      · dsimp only
        rw [hfile, contents_writeAt, block_overwrite hlength, if_pos rfl]
        exact hpre.1
  · rw [if_neg hid] at hpre
    exact ⟨v, h.write hid (fun hmem => hapart id hmem hpre.1) hpart hsmall rfl hfile⟩

theorem OnFile.ioError (h : OnFile env db v) (howned : Owned env db w readers [])
    (hapart : Apart w v) {o : Op} (hpre : WriterPre env w o) {k : ℕ}
    (hwhole : WholeWrite db.pageIo.pageSize k) (hafter : afterIoError env k db o = some db') :
    ∃ v', OnFile env db' v' := by
  cases o with
  | readPage id => exact ⟨v, h.onlyCache (onlyCache_afterIoError hafter)⟩
  | writePage id data => exact h.failedWrite howned hapart hpre hwhole hafter
  | syncData =>
    obtain rfl := Option.some.inj hafter
    exact ⟨v, h⟩
  | allocatePageId =>
    rw [afterIoError] at hafter
    dsimp only at hafter
    split at hafter
    · exact absurd hafter (by simp)
    split at hafter
    · exact absurd hafter (by simp)
    rename_i hoverflow
    split at hafter
    on_goal 2 => exact absurd hafter (by simp)
    obtain rfl := Option.some.inj hafter
    exact ⟨v, { h with next := h.next.trans (lt_add_one_of_no_overflow hoverflow).le }⟩
  | removePage id => exact absurd hafter (by simp [afterIoError])
  | nextPageId => exact absurd hafter (by simp [afterIoError])
  | freePage id transaction => exact absurd hafter (by simp [afterIoError])
  | loadSnapshot => exact hpre.elim
  | register transaction => exact hpre.elim
  | deregister transaction => exact hpre.elim
  | loadHeader => exact absurd hafter (by simp [afterIoError])
  | swap header => exact absurd hafter (by simp [afterIoError])

/-! ### Opening again -/

/-- **Opening the file again** opens the version in it. -/
theorem OnFile.reopen (h : OnFile env db v) (howned : Owned env db w readers [])
    (evicts : ℕ → PageId → Bool) :
    ∃ db' w', Database.openExisting env db.pageIo.fileHandler.syncData evicts = .ok db' ∧
      Owned env db' w' [] [] ∧ OnFile env db' v := by
  obtain ⟨header, hbears⟩ := h.bears
  have hlarge : minPageSize ≤ db.pageIo.pageSize := howned.pageSize ▸ howned.large
  have hsmall : db.pageIo.pageSize < 2 ^ 63 := howned.pageSize ▸ howned.small
  obtain ⟨db', hopen, hfile, -, howned'⟩ := hbears.opens hlarge hsmall h.len evicts
  have hsize : db'.pageIo.pageSize = db.pageIo.pageSize := howned'.pageSize
  refine ⟨db', _, hopen, howned', ⟨header, ?_⟩, ?_, ?_, ?_, fun e he => (howned'.waiting e he).base⟩
  · rw [hsize, hfile]
    exact hbears
  · rw [hsize, howned'.commit]
    exact hbears.sound
  · rw [hsize, hfile]
    exact h.len
  · rw [← howned'.next]
    exact le_rfl

/-- The file of a new database holds the empty map. -/
theorem Fresh.onFile {pageSize : ℕ} {page : Bytes} (h : Fresh env pageSize page db) :
    OnFile env db (.initial env page) := by
  have hstored := h.stored (G := fun _ => False)
  have hdurable := hstored.durable
  have hdisk := hdurable.disk.resolve_right fun ⟨_, _, _, _, _, _, _, hfalse⟩ => hfalse
  exact {
    bears := by
      refine ⟨DbHeader.initial pageSize (env.checksumPage page), ?_⟩
      rw [h.size]
      exact ⟨hdurable.sound, rfl, hdisk, hdurable.stands, hdurable.placed.below⟩
    memory := by
      rw [h.size, h.parts]
      exact hdurable.sound
    len := Nat.lt_add_right _ hstored.small
    next := by
      rw [h.parts]
      exact le_rfl
    queue := by
      rw [h.parts]
      exact fun e he => absurd he List.not_mem_nil }

end

end KvRaft.Kv
