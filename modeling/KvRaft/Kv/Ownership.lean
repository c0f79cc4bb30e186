import KvRaft.Kv.CommitSpec
import KvRaft.Kv.StorageSpec

/-!
# Who owns which page

The other side of the protocol of a write transaction (`writer`): what the allocator, the
file, the cache and the tracker of readers have to do with the version a transaction works
on and the versions that are being read. `Owned env db w readers starting` says that

* what the work `w` knows of the pages is what reading them returns;
* a page that is waiting to be used again is no page of the current version, and was freed
  by a transaction no later than it;
* if it is a page of a version that is being read, it was freed after that version was
  committed, and the reader is in the tracker. So the allocator does not hand it out.

`starting` are the versions that are being read by a reader the tracker does not know of
yet: one that is between its two steps (`Database.beginRead`).

Every operation the protocol allows keeps this, also when it fails (`Owned.perform`).
-/

namespace KvRaft.Kv

open Bytes Ordered

/-- The read transaction of a version. -/
def Version.reader (v : Version) : ReadTransaction := ⟨v.slot.rootPageId, v.slot.transactionId⟩

/-- A version that is being read while pages are waiting to be used again. -/
structure Shared (env : Env) (w : Work) (queue : List FreedPage) (v : Version) : Prop where
  stands : v.Stands env w.view
  le : v.slot.transactionId ≤ w.base.slot.transactionId
  current : v.slot.transactionId = w.base.slot.transactionId → v.pages ⊆ w.base.pages
  unused : ∀ id ∈ v.pages, id ∉ w.used
  below : ∀ id ∈ v.pages, id < w.next
  queued : ∀ e ∈ queue, e.pageId ∈ v.pages → v.slot.transactionId < e.transactionId

/-- A page that is waiting to be used again. -/
structure Waiting (w : Work) (e : FreedPage) : Prop where
  header : e.pageId ≠ headerPageId
  below : e.pageId < w.next
  base : e.pageId ∉ w.base.pages
  used : e.pageId ∉ w.used
  le : e.transactionId ≤ w.base.slot.transactionId

/-- A page allocated to the transaction. -/
structure Allocated (w : Work) (id : PageId) : Prop where
  header : id ≠ headerPageId
  below : id < w.next
  base : id ∉ w.base.pages

/-- The version a commit is about to publish. -/
structure Planned (w : Work) (v : Version) : Prop where
  later : w.base.slot.transactionId < v.slot.transactionId
  next : v.slot.nextPageId = w.next
  pages : ∀ id ∈ v.pages, id ∈ w.base.pages ∨ id ∈ w.used

/-- What holds in each phase of a transaction. -/
def PhaseOk (env : Env) (w : Work) (queue : List FreedPage) : Phase → Prop
  | .building => True
  | .writing v => Planned w v
  | .issued v => Planned w v ∧ v.Stands env w.view
  | .synced v => Planned w v ∧ v.Stands env w.view
  | .published old released =>
    w.used = ∅ ∧ old.slot.transactionId < w.base.slot.transactionId ∧
      (∀ id ∈ old.pages, id ≠ headerPageId ∧ id < w.next) ∧
      ∀ e ∈ queue, e.pageId ∈ old.pages → e.pageId ∈ released

/-- The state of the database fits the work of the writer and the versions that are being
read. -/
structure Owned (env : Env) (db : DatabaseState) (w : Work) (readers starting : List Version) :
    Prop where
  pageSize : db.pageIo.pageSize = w.pageSize
  large : minPageSize ≤ w.pageSize
  small : w.pageSize < 2 ^ 63
  commit : db.commit = CommitState.new w.header
  slot : w.header.currentSlot = w.base.slot
  next : w.next = db.allocator.nextPageId
  hidden : w.view headerPageId = none
  reads : ∀ id data, w.view id = some data → Reads db.pageIo id data
  stands : w.base.Stands env w.view
  base : ∀ id ∈ w.base.pages, id < w.next
  used : ∀ id ∈ w.used, Allocated w id
  waiting : ∀ e ∈ db.allocator.pendingFreePages, Waiting w e
  nodup : (db.allocator.pendingFreePages.map FreedPage.pageId).Nodup
  shared : ∀ v ∈ readers ++ starting, Shared env w db.allocator.pendingFreePages v
  tracked : Tracks db.readTracker (readers.map fun v => v.slot.transactionId)
  phase : PhaseOk env w db.allocator.pendingFreePages w.phase

/-- Nothing has changed but the cache and the tracker of readers. -/
structure SameStore (db db' : DatabaseState) : Prop where
  fileHandler : db'.pageIo.fileHandler = db.pageIo.fileHandler
  pageSize : db'.pageIo.pageSize = db.pageIo.pageSize
  allocator : db'.allocator = db.allocator
  commit : db'.commit = db.commit

theorem SameStore.refl (db : DatabaseState) : SameStore db db := ⟨rfl, rfl, rfl, rfl⟩

theorem SameStore.trans {db db₁ db₂ : DatabaseState} (h₁ : SameStore db db₁)
    (h₂ : SameStore db₁ db₂) : SameStore db db₂ where
  fileHandler := h₂.fileHandler.trans h₁.fileHandler
  pageSize := h₂.pageSize.trans h₁.pageSize
  allocator := h₂.allocator.trans h₁.allocator
  commit := h₂.commit.trans h₁.commit

section

variable {env : Env} {db : DatabaseState} {w : Work} {readers starting : List Version}

/-! ### Versions -/

/-- Pages outside of the version do not matter. -/
theorem Version.Stands.congr {v : Version} {view view' : View} (h : v.Stands env view)
    (hview : ∀ id ∈ v.pages, view' id = view id) : v.Stands env view' :=
  { h with tree := h.tree.congr hview }

theorem Version.Stands.setPage {v : Version} (h : v.Stands env w.view) {id : PageId}
    (hid : id ∉ v.pages) (data : Option Bytes) :
    v.Stands env (Function.update w.view id data) :=
  h.congr fun x hx => Function.update_of_ne (fun heq => hid (by rwa [← heq])) _ _

/-! ### Operations on the file and the cache -/

/-- Nothing but the pages has changed, and they have not either. -/
theorem Owned.keeps (h : Owned env db w readers starting) {pageIo : PageIo}
    (hkeeps : db.pageIo.Keeps ∅ pageIo) : Owned env { db with pageIo } w readers starting :=
  { h with
    pageSize := hkeeps.1.trans h.pageSize
    reads := fun id data hview => hkeeps.2 id data (Set.notMem_empty id) (h.reads id data hview) }

/-- Reading a page that is known. -/
theorem Owned.readPage (h : Owned env db w readers starting) {id : PageId} {data : Bytes}
    (hview : w.view id = some data) :
    ∃ db', execute env (.readPage id) db = (.ok data, db') ∧
      Owned env db' w readers starting ∧ SameStore db db' := by
  obtain ⟨pageIo, hread, hkeeps, hfile⟩ :=
    (h.reads id data hview).readPage env (by rw [h.pageSize]; exact h.small)
  refine ⟨{ db with pageIo }, ?_, h.keeps hkeeps, hfile, hkeeps.1, rfl, rfl⟩
  rw [execute, hread]

/-- What is known of a page allocated to the transaction may change with it. -/
theorem Owned.setView (h : Owned env db w readers starting) {v : Version}
    (hphase : w.phase = .writing v) {id : PageId} (hid : id ∈ w.used) {data : Option Bytes}
    {pageIo : PageIo} (hkeeps : db.pageIo.Keeps {id} pageIo)
    (hdata : ∀ d, data = some d → Reads pageIo id d) :
    Owned env { db with pageIo } { w with view := Function.update w.view id data } readers
      starting :=
  { h with
    pageSize := hkeeps.1.trans h.pageSize
    hidden := by
      dsimp only
      rw [Function.update_of_ne (h.used id hid).header.symm]
      exact h.hidden
    -- only the page written changes, and no version has it
    reads := fun x d hview => by
      dsimp only at hview ⊢
      by_cases hx : x = id
      · subst hx
        rw [Function.update_self] at hview
        exact hdata d hview
      · rw [Function.update_of_ne hx] at hview
        exact hkeeps.2 x d hx (h.reads x d hview)
    stands := h.stands.setPage (h.used id hid).base data
    used := fun x hx => { h.used x hx with }
    waiting := fun e he => { h.waiting e he with }
    shared := fun v hv =>
      { h.shared v hv with
        stands := (h.shared v hv).stands.setPage (fun hmem => (h.shared v hv).unused id hmem hid)
          data }
    phase := by
      have hphase' := h.phase
      dsimp only
      rw [hphase] at hphase' ⊢
      exact { hphase' with } }

/-- Writing a page of the new version. -/
theorem Owned.writePage (h : Owned env db w readers starting) {v : Version}
    (hphase : w.phase = .writing v) {id : PageId} (hid : id ∈ w.used) {data : Bytes}
    {db' : DatabaseState} (hexec : execute env (.writePage id data) db = (.ok (), db')) :
    Owned env db' (w.setPage id data) readers starting := by
  rcases hwrite : db.pageIo.writePage env id data with ⟨result, pageIo⟩
  rw [execute, hwrite, Prod.mk.injEq] at hexec
  obtain ⟨rfl, rfl⟩ := hexec
  obtain ⟨-, hkeeps, hreads, -⟩ := writePage_ok hwrite
  exact h.setView hphase hid hkeeps fun d hd => Option.some.inj hd ▸ hreads

/-- Writing the header, once the new version is written. -/
theorem Owned.writeHeader (h : Owned env db w readers starting) {v : Version}
    (hphase : w.phase = .writing v) (hstands : v.Stands env w.view) {data : Bytes}
    {db' : DatabaseState} (hexec : execute env (.writePage headerPageId data) db = (.ok (), db')) :
    Owned env db' { w with phase := .issued v } readers starting := by
  rcases hwrite : db.pageIo.writePage env headerPageId data with ⟨result, pageIo⟩
  rw [execute, hwrite, Prod.mk.injEq] at hexec
  obtain ⟨rfl, rfl⟩ := hexec
  obtain ⟨-, hkeeps, -, -⟩ := writePage_ok hwrite
  have hplanned := h.phase
  rw [hphase] at hplanned
  exact { h with
    pageSize := hkeeps.1.trans h.pageSize
    reads := fun id d hview => by
      refine hkeeps.2 id d (fun heq => ?_) (h.reads id d hview)
      rw [Set.mem_singleton_iff] at heq
      subst heq
      rw [h.hidden] at hview
      exact absurd hview (by simp)
    used := fun id hid => { h.used id hid with }
    waiting := fun e he => { h.waiting e he with }
    shared := fun v hv => { h.shared v hv with }
    phase := ⟨{ hplanned with }, hstands⟩ }

/-! ### Allocating and freeing -/

/-- The versions of readers the tracker does not know of are as late as the page that is
about to be used again. -/
def Safe (db : DatabaseState) (starting : List Version) : Prop :=
  ∀ e rest, PageAllocator.reusable db.allocator db.readTracker = some (e, rest) →
    ∀ v ∈ starting, e.transactionId ≤ v.slot.transactionId

theorem reusable_eq_some {state : PageAllocatorState} {tracker : TransactionReaderCount}
    {e : FreedPage} {rest : List FreedPage}
    (h : PageAllocator.reusable state tracker = some (e, rest)) :
    state.pendingFreePages = e :: rest ∧ e.transactionId <
      (ReadTracker.oldestActiveTransaction tracker).getD (.ofNat (2 ^ 64 - 1)) := by
  rw [PageAllocator.reusable] at h
  split at h
  · exact absurd h (by simp)
  · rename_i e' rest' hqueue
    dsimp only at h
    split at h
    · rename_i hlt
      rw [Option.some.injEq, Prod.mk.injEq] at h
      obtain ⟨rfl, rfl⟩ := h
      exact ⟨hqueue, hlt⟩
    · exact absurd h (by simp)

/-- The file has room for one more page: it was reserved, or a batch of pages is. -/
def Grows (pageIo : PageIo) (allocator : PageAllocatorState) (len reservedPageCount : ℕ) : Prop :=
  (len = pageIo.fileHandler.len ∧ reservedPageCount = allocator.reservedPageCount ∧
    (allocator.nextPageId + 1).toNat ≤ reservedPageCount) ∨
  (len = pageIo.fileHandler.len + pageIo.pageSize * pageAllocationBatch ∧ len < 2 ^ 63 ∧
    reservedPageCount = len / pageIo.pageSize)

theorem Grows.le {pageIo : PageIo} {allocator : PageAllocatorState} {len reservedPageCount : ℕ}
    (h : Grows pageIo allocator len reservedPageCount) : pageIo.fileHandler.len ≤ len := by
  rcases h with ⟨rfl, -⟩ | ⟨rfl, -⟩
  · exact le_rfl
  · exact Nat.le_add_right _ _

/-- The page ids have come to their end, or the file cannot grow by another batch of pages. -/
def Exhausted (db : DatabaseState) : Prop :=
  db.allocator.nextPageId.toNat + 1 = 2 ^ 64 ∨
    2 ^ 63 ≤ db.pageIo.fileHandler.len + db.pageIo.pageSize * pageAllocationBatch

theorem preallocatePages_inv {file file' : FileHandler} {additionalPages pageSize count : ℕ}
    (h : file.preallocatePages additionalPages pageSize = .ok (file', count)) :
    file' = { file with len := file.len + pageSize * additionalPages } ∧
      count = (file.len + pageSize * additionalPages) / pageSize ∧
      file.len + pageSize * additionalPages < 2 ^ 63 := by
  rw [FileHandler.preallocatePages, bind_eq_ok] at h
  obtain ⟨newFileLen, husize, h⟩ := h
  rw [usize] at husize
  split at husize
  on_goal 2 => exact absurd husize (by simp)
  obtain rfl := Except.ok.inj husize
  rw [FileHandler.setLen] at h
  split at h
  on_goal 2 => exact absurd h (by simp)
  next hsmall =>
  obtain ⟨rfl, rfl⟩ := Prod.mk.inj (Except.ok.inj h)
  exact ⟨rfl, rfl, hsmall⟩

/-- What `allocate_page_id` does: it takes the first freed page, or it counts on. It fails
where the ids come to their end, or the file cannot grow. -/
theorem allocate_inv (env : Env) (db : DatabaseState) :
    (∃ e rest, PageAllocator.reusable db.allocator db.readTracker = some (e, rest) ∧
      execute env .allocatePageId db =
        (.ok e.pageId, { db with allocator := { db.allocator with pendingFreePages := rest } })) ∨
    (∃ fault next, (next = db.allocator.nextPageId ∨
        db.allocator.nextPageId.toNat + 1 ≠ 2 ^ 64 ∧ next = db.allocator.nextPageId + 1) ∧
      Exhausted { db with allocator := { db.allocator with nextPageId := next } } ∧
      execute env .allocatePageId db =
        (.error fault, { db with allocator := { db.allocator with nextPageId := next } })) ∨
    (db.allocator.nextPageId.toNat + 1 ≠ 2 ^ 64 ∧ ∃ len reservedPageCount,
      Grows db.pageIo db.allocator len reservedPageCount ∧
      execute env .allocatePageId db = (.ok db.allocator.nextPageId, { db with
        pageIo := { db.pageIo with fileHandler := { db.pageIo.fileHandler with len } }
        allocator := { db.allocator with
          nextPageId := db.allocator.nextPageId + 1
          reservedPageCount } })) := by
  rw [execute, PageAllocator.allocatePageId]
  cases hreusable : PageAllocator.reusable db.allocator db.readTracker with
  | some entry => exact Or.inl ⟨entry.1, entry.2, rfl, rfl⟩
  | none =>
    dsimp only
    -- no page can be reused: the next id, if there is one and the file has room for it
    by_cases hoverflow : db.allocator.nextPageId.toNat + 1 = 2 ^ 64
    · rw [if_pos hoverflow]
      exact Or.inr (Or.inl ⟨_, _, Or.inl rfl, Or.inl hoverflow, rfl⟩)
    rw [if_neg hoverflow]
    by_cases hreserved : db.allocator.reservedPageCount < (db.allocator.nextPageId + 1).toNat
    · -- the file has to grow
      rw [if_pos hreserved]
      rcases hgrow : db.pageIo.fileHandler.preallocatePages pageAllocationBatch
        db.pageIo.pageSize with e | ⟨fileHandler, reservedPageCount⟩
      · refine Or.inr (Or.inl ⟨_, _, Or.inr ⟨hoverflow, rfl⟩, Or.inr ?_, rfl⟩)
        by_contra hlt
        dsimp only at hlt
        have hlt' := not_le.mp hlt
        rw [FileHandler.preallocatePages, usize_of_lt (by omega), ok_bind, FileHandler.setLen,
          if_pos hlt'] at hgrow
        exact absurd hgrow (by simp)
      · obtain ⟨rfl, rfl, hsmall⟩ := preallocatePages_inv hgrow
        exact Or.inr (Or.inr ⟨hoverflow, _, _, Or.inr ⟨rfl, hsmall, rfl⟩, rfl⟩)
    · rw [if_neg hreserved]
      exact Or.inr (Or.inr ⟨hoverflow, _, _, Or.inl ⟨rfl, rfl, not_lt.mp hreserved⟩, rfl⟩)

/-- A page that is used again is no page of any version that is being read. -/
theorem Owned.notMem_of_reusable (h : Owned env db w readers starting) (hsafe : Safe db starting)
    {e : FreedPage} {rest : List FreedPage}
    (hreusable : PageAllocator.reusable db.allocator db.readTracker = some (e, rest)) :
    ∀ v ∈ readers ++ starting, e.pageId ∉ v.pages := by
  intro v hv hmem
  obtain ⟨hqueue, hlt⟩ := reusable_eq_some hreusable
  have hqueued := (h.shared v hv).queued e (by rw [hqueue]; exact List.mem_cons_self) hmem
  rcases List.mem_append.mp hv with hv | hv
  · -- the reader is in the tracker
    have hle := h.tracked.oldest_le (List.mem_map_of_mem hv) (.ofNat (2 ^ 64 - 1))
    exact absurd (hqueued.trans (hlt.trans_le hle)) (lt_irrefl _)
  · exact absurd (hqueued.trans_le (hsafe e rest hreusable v hv)) (lt_irrefl _)

/-- A page that is no page of any version goes to the transaction. -/
theorem Owned.takes (h : Owned env db w readers starting) (hphase : w.phase = .building)
    {id : PageId} (hid : Allocated w id)
    (hwaiting : ∀ e ∈ db.allocator.pendingFreePages, e.pageId ≠ id)
    (hshared : ∀ v ∈ readers ++ starting, id ∉ v.pages) :
    Owned env db { w with used := insert id w.used } readers starting :=
  { h with
    used := fun x hx => by
      rcases Set.mem_insert_iff.mp hx with rfl | hx
      · exact { hid with }
      · exact { h.used x hx with }
    waiting := fun e he => { h.waiting e he with
      used := fun hid => (Set.mem_insert_iff.mp hid).elim (hwaiting e he) (h.waiting e he).used }
    shared := fun v hv => { h.shared v hv with
      unused := fun x hx hin => by
        rcases Set.mem_insert_iff.mp hin with rfl | hin
        · exact hshared v hv hx
        · exact (h.shared v hv).unused x hx hin }
    phase := by
      dsimp only
      rw [hphase]
      trivial }

/-- A freed page is used again. -/
theorem Owned.reuse (h : Owned env db w readers starting) (hphase : w.phase = .building)
    (hsafe : Safe db starting) {e : FreedPage} {rest : List FreedPage}
    (hreusable : PageAllocator.reusable db.allocator db.readTracker = some (e, rest)) :
    e.pageId ∉ w.used ∧ Allocated w e.pageId ∧
      Owned env { db with allocator := { db.allocator with pendingFreePages := rest } }
        { w with used := insert e.pageId w.used } readers starting := by
  obtain ⟨hqueue, -⟩ := reusable_eq_some hreusable
  have hmem : ∀ e' ∈ rest, e' ∈ db.allocator.pendingFreePages := fun e' he' => by
    rw [hqueue]
    exact List.mem_cons_of_mem e he'
  have hfirst := h.waiting e (by rw [hqueue]; exact List.mem_cons_self)
  have hnodup := h.nodup
  rw [hqueue, List.map_cons, List.nodup_cons] at hnodup
  have hrest : Owned env { db with allocator := { db.allocator with pendingFreePages := rest } }
      w readers starting :=
    { h with
      waiting := fun e' he' => h.waiting e' (hmem e' he')
      nodup := hnodup.2
      shared := fun v hv => { h.shared v hv with
        queued := fun e' he' => (h.shared v hv).queued e' (hmem e' he') }
      phase := by
        rw [hphase]
        trivial }
  have hallocated : Allocated w e.pageId := ⟨hfirst.header, hfirst.below, hfirst.base⟩
  exact ⟨hfirst.used, hallocated, hrest.takes hphase hallocated
    (fun e' he' heq => hnodup.1 (heq ▸ List.mem_map_of_mem he'))
    (h.notMem_of_reusable hsafe hreusable)⟩

/-- The allocator counts on. -/
theorem Owned.advance (h : Owned env db w readers starting) (hphase : w.phase = .building)
    {next : PageId} (hnext : w.next ≤ next) (allocator : PageAllocatorState)
    (hallocator : allocator.nextPageId = next)
    (hqueue : allocator.pendingFreePages = db.allocator.pendingFreePages) :
    Owned env { db with allocator } { w with next } readers starting :=
  { h with
    next := hallocator.symm
    base := fun id hid => (h.base id hid).trans_le hnext
    used := fun id hid => { h.used id hid with below := (h.used id hid).below.trans_le hnext }
    waiting := fun e he => by
      have hold := h.waiting e (by rwa [← hqueue])
      exact { hold with below := hold.below.trans_le hnext }
    nodup := by
      dsimp only
      rw [hqueue]
      exact h.nodup
    shared := fun v hv => { h.shared v hv with
      below := fun id hid => ((h.shared v hv).below id hid).trans_le hnext
      queued := fun e he => (h.shared v hv).queued e (by rwa [← hqueue]) }
    phase := by
      dsimp only
      rw [hphase]
      trivial }

theorem lt_add_one_of_no_overflow {id : PageId} (h : id.toNat + 1 ≠ 2 ^ 64) : id < id + 1 := by
  have hlt := id.toNat_lt
  rw [UInt64.lt_iff_toNat_lt, UInt64.toNat_add, UInt64.toNat_one, Nat.mod_eq_of_lt (by omega)]
  omega

/-- The pages of a version are numbered from one on, so some id is beyond them. -/
theorem Owned.next_ne (h : Owned env db w readers starting) : w.next ≠ headerPageId := by
  intro heq
  have hlt := h.base _ h.stands.tree.root_mem
  rw [heq, UInt64.lt_iff_toNat_lt] at hlt
  exact absurd hlt (by simp [headerPageId])

/-- The next page id is used. -/
theorem Owned.fresh (h : Owned env db w readers starting) (hphase : w.phase = .building)
    (hoverflow : w.next.toNat + 1 ≠ 2 ^ 64) (allocator : PageAllocatorState)
    (hallocator : allocator.nextPageId = w.next + 1)
    (hqueue : allocator.pendingFreePages = db.allocator.pendingFreePages) :
    w.next ∉ w.used ∧ Allocated { w with next := w.next + 1 } w.next ∧
      Owned env { db with allocator }
        { w with used := insert w.next w.used, next := w.next + 1 } readers starting := by
  have hlt := lt_add_one_of_no_overflow hoverflow
  have hallocated : Allocated { w with next := w.next + 1 } w.next :=
    ⟨h.next_ne, hlt, fun hmem => lt_irrefl _ (h.base _ hmem)⟩
  refine ⟨fun hmem => lt_irrefl _ (h.used _ hmem).below, hallocated,
    (h.advance hphase hlt.le allocator hallocator hqueue).takes hphase hallocated (fun e he heq => ?_)
      fun v hv hmem => lt_irrefl _ ((h.shared v hv).below _ hmem)⟩
  dsimp only at he
  rw [hqueue] at he
  exact lt_irrefl _ (heq ▸ (h.waiting e he).below)

/-- **Allocating a page id.** It may fail, and then it may have counted on. -/
theorem Owned.allocate (h : Owned env db w readers starting) (hphase : w.phase = .building)
    (hsafe : Safe db starting) :
    match execute env .allocatePageId db with
    | (.ok id, db') => ∃ w', WriterPost w .allocatePageId id w' ∧
        Owned env db' w' readers starting
    | (.error _, db') => ∃ next, Owned env db' { w with next } readers starting := by
  rcases allocate_inv env db with ⟨e, rest, hreusable, hexec⟩ | ⟨fault, next, hnext, -, hexec⟩ |
    ⟨hoverflow, len, reservedPageCount, hgrows, hexec⟩
  · rw [hexec]
    obtain ⟨hused, hallocated, howned⟩ := h.reuse hphase hsafe hreusable
    exact ⟨_, ⟨hallocated.header, hused, hallocated.base, w.next, rfl⟩, howned⟩
  · rw [hexec]
    have hle : w.next ≤ next := by
      rw [h.next]
      rcases hnext with rfl | ⟨hoverflow, rfl⟩
      · exact le_rfl
      · exact (lt_add_one_of_no_overflow hoverflow).le
    exact ⟨next, h.advance hphase hle { db.allocator with nextPageId := next } rfl rfl⟩
  · rw [hexec]
    have hkeeps : db.pageIo.Keeps ∅
        { db.pageIo with fileHandler := { db.pageIo.fileHandler with len } } :=
      keeps_grow hgrows.le rfl
    have hfresh := (h.keeps hkeeps).fresh hphase (by rwa [h.next])
      { db.allocator with nextPageId := db.allocator.nextPageId + 1, reservedPageCount }
      (by rw [h.next]) rfl
    rw [h.next] at hfresh
    obtain ⟨hused, hallocated, howned⟩ := hfresh
    exact ⟨_, ⟨hallocated.header, hused, hallocated.base, _, rfl⟩, howned⟩

/-- Freeing a page that the current version has no use for. -/
theorem Owned.freePage (h : Owned env db w readers starting) {old : Version}
    {released : List PageId} (hphase : w.phase = .published old released) {id : PageId}
    (hold : id ∈ old.pages) (hbase : id ∉ w.base.pages) (hreleased : id ∉ released) :
    Owned env
      { db with allocator := PageAllocator.freePage db.allocator id w.base.slot.transactionId }
      { w with phase := .published old (id :: released) } readers starting := by
  have hpublished := h.phase
  rw [hphase] at hpublished
  obtain ⟨hused, hlater, holds, hqueue⟩ := hpublished
  have hmem : ∀ {e : FreedPage}, e ∈ (PageAllocator.freePage db.allocator id
      w.base.slot.transactionId).pendingFreePages →
      e ∈ db.allocator.pendingFreePages ∨ e = ⟨id, w.base.slot.transactionId⟩ := fun he =>
    (List.mem_append.mp he).imp_right List.mem_singleton.mp
  exact { h with
    used := fun x hx => { h.used x hx with }
    waiting := fun e he => by
      rcases hmem he with he | rfl
      · exact { h.waiting e he with }
      · exact ⟨(holds id hold).1, (holds id hold).2, hbase, by rw [hused]; exact Set.notMem_empty _,
          le_rfl⟩
    nodup := by
      rw [PageAllocator.freePage, List.map_append, List.nodup_append]
      refine ⟨h.nodup, List.nodup_singleton _, fun a ha b hb => ?_⟩
      obtain ⟨e, he, rfl⟩ := List.mem_map.mp ha
      rw [List.map_singleton, List.mem_singleton] at hb
      intro heq
      -- a page of the old version is queued once, by the commit that replaced it
      have hid : e.pageId = id := heq.trans hb
      exact hreleased (hid ▸ hqueue e he (hid ▸ hold))
    shared := fun v hv => { h.shared v hv with
      queued := fun e he hin => by
        rcases hmem he with he | rfl
        · exact (h.shared v hv).queued e he hin
        · -- a version that has the page is an old one
          refine lt_of_le_of_ne (h.shared v hv).le fun heq => ?_
          exact hbase ((h.shared v hv).current heq hin) }
    phase := by
      refine ⟨hused, hlater, holds, fun e he hin => ?_⟩
      rcases hmem he with he | rfl
      · exact List.mem_cons_of_mem _ (hqueue e he hin)
      · exact List.mem_cons_self }

/-! ### Publishing -/

@[simp]
theorem currentSlot_withCommit (header : DbHeader) (root : PageId) (checksum : Checksum)
    (transaction : TransactionId) (next : PageId) :
    (header.withCommit root checksum transaction next).currentSlot =
      ⟨root, checksum, transaction, next⟩ := by
  rw [DbHeader.withCommit, DbHeader.switchToInactiveSlot, DbHeader.currentSlot, DbHeader.slot,
    DbHeader.setSlot, DbHeader.inactiveSlotIndex]
  dsimp only
  by_cases hzero : header.activeSlot ^^^ 1 = 0
  · rw [if_pos hzero, if_pos hzero]
  · rw [if_neg hzero, if_neg hzero]

/-- **The snapshot moves.** -/
theorem Owned.swap (h : Owned env db w readers starting) {v : Version}
    (hphase : w.phase = .synced v) :
    Owned env { db with commit := CommitState.new (w.headerFor v) } (w.swapTo v) readers
      starting := by
  have hsynced := h.phase
  rw [hphase] at hsynced
  obtain ⟨hplanned, hstands⟩ := hsynced
  -- a page of the new version is one of the old or one that this transaction allocated
  have hbelow : ∀ id ∈ v.pages, id ≠ headerPageId ∧ id < w.next := fun id hid =>
    ⟨fun heq => hstands.header (heq ▸ hid), (hplanned.pages id hid).elim (h.base id)
      fun hused => (h.used id hused).below⟩
  exact { h with
    commit := rfl
    slot := currentSlot_withCommit _ _ _ _ _
    stands := hstands
    base := fun id hid => (hbelow id hid).2
    used := fun id hid => absurd hid (Set.notMem_empty id)
    waiting := fun e he => { h.waiting e he with
      base := fun hid => (hplanned.pages _ hid).elim (h.waiting e he).base (h.waiting e he).used
      used := Set.notMem_empty _
      le := (h.waiting e he).le.trans hplanned.later.le }
    shared := fun v' hv' => { h.shared v' hv' with
      le := (h.shared v' hv').le.trans hplanned.later.le
      current := fun heq => absurd ((h.shared v' hv').le.trans_lt hplanned.later)
        (heq ▸ lt_irrefl _)
      unused := fun id _ => Set.notMem_empty id }
    phase := ⟨rfl, hplanned.later, fun id hid =>
      ⟨fun heq => h.stands.header (heq ▸ hid), h.base id hid⟩,
      fun e he hid => absurd hid (h.waiting e he).base⟩ }

/-! ### Any operation -/

/-- The transaction has not published its version. -/
def Unpublished (w : Work) : Prop := ∀ old released, w.phase ≠ .published old released

/-- **Every operation keeps the ownership**: one that succeeds does what a write transaction
relies on, one that fails may have cost a page id, and does so before anything is
published. -/
theorem Owned.perform (h : Owned env db w readers starting) {o : Op} (hpre : WriterPre env w o)
    (hsafe : o = .allocatePageId → Safe db starting) :
    match execute env o db with
    | (.ok a, db') => ∃ w', WriterPost w o a w' ∧ Owned env db' w' readers starting
    | (.error _, db') => Unpublished w ∧ ∃ next, Owned env db' { w with next } readers starting := by
  -- The operation succeeds and the work moves on as the writer says, or it fails and at most the
  -- allocator has moved, before anything is published.
  cases o with
  | readPage id =>
    obtain ⟨-, hid⟩ := hpre
    obtain ⟨data, hview⟩ := h.stands.tree.known hid
    obtain ⟨db', hread, howned, -⟩ := h.readPage hview
    rw [hread]
    exact ⟨w, ⟨rfl, hview⟩, howned⟩
  | writePage id data =>
    obtain ⟨v, hphase, hpre⟩ := hpre
    rcases hwrite : execute env (.writePage id data) db with ⟨e | ⟨⟩, db'⟩
    · refine ⟨fun old released heq => ?_, w.next, ?_⟩
      · rw [hphase] at heq
        exact absurd heq (by simp)
      · rcases hpage : db.pageIo.writePage env id data with ⟨result, pageIo⟩
        rw [Kv.execute, hpage, Prod.mk.injEq] at hwrite
        obtain ⟨rfl, rfl⟩ := hwrite
        obtain rfl := writePage_error hpage
        exact h
    · by_cases hid : id = headerPageId
      · subst hid
        rw [if_pos rfl] at hpre
        refine ⟨_, ?_, h.writeHeader hphase hpre.2 hwrite⟩
        simp only [WriterPost, hphase, if_pos]
      · rw [if_neg hid] at hpre
        refine ⟨_, ?_, h.writePage hphase hpre.1 hwrite⟩
        simp only [WriterPost, hphase, if_neg hid]
  | removePage id => exact ⟨w, rfl, h.keeps keeps_removePage⟩
  | syncData =>
    obtain ⟨v, hphase⟩ := hpre
    have hissued := h.phase
    rw [hphase] at hissued
    refine ⟨{ w with phase := .synced v }, ?_, ?_⟩
    · simp only [WriterPost, hphase]
    · have hsynced : Owned env { db with pageIo := db.pageIo.syncData } w readers starting :=
        h.keeps keeps_syncData
      exact { hsynced with
        used := fun id hid => { h.used id hid with }
        waiting := fun e he => { h.waiting e he with }
        shared := fun v hv => { h.shared v hv with }
        phase := ⟨{ hissued.1 with }, hissued.2⟩ }
  | allocatePageId =>
    have hallocate := h.allocate hpre (hsafe rfl)
    rcases hres : execute env .allocatePageId db with ⟨e | id, db'⟩
    · rw [hres] at hallocate
      refine ⟨fun old released heq => ?_, hallocate⟩
      rw [show w.phase = .building from hpre] at heq
      exact absurd heq (by simp)
    · rw [hres] at hallocate
      exact hallocate
  | nextPageId => exact ⟨w, ⟨h.next.symm, rfl⟩, h⟩
  | freePage id transaction =>
    obtain ⟨old, released, hphase, hold, hbase, hreleased, rfl⟩ := hpre
    refine ⟨_, ?_, h.freePage hphase hold hbase hreleased⟩
    simp only [WriterPost, hphase]
  | loadHeader =>
    refine ⟨w, ⟨?_, rfl⟩, h⟩
    rw [h.commit]
    rfl
  | swap header =>
    obtain ⟨v, hphase, rfl⟩ := hpre
    refine ⟨_, ?_, h.swap hphase⟩
    simp only [WriterPost, hphase]
  | loadSnapshot => exact hpre.elim
  | register transaction => exact hpre.elim
  | deregister transaction => exact hpre.elim

end

end KvRaft.Kv
