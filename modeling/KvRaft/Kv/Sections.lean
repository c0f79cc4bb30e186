import KvRaft.Effect.Expansion
import KvRaft.Kv.Failure

/-!
# The sections of an operation

`PageIO` has no lock of its own. Reading a page is up to three sections, each atomic: the
lookup in the cache, the read of the file if the page was not there, and the insertion of
what was read; writing one is two, the write to the file and the insertion into the cache.
Other threads come in between.

`Op.sections` is the code of an operation over the sections. Run alone it does what the
operation does (`sections_run`), so everything proved of the operations holds of the
sections of one thread. Between the threads there are two protocols, for the sections of a
write transaction (`sectionWriter`) and for those of a reader (`sectionReader`):

* what a reader has read and is about to insert is still what the page holds;
* while a page is in the file and not yet in the cache, it is no page of any version
  (`WriteStage.wrote`), so nobody asks for it.
-/

namespace KvRaft.Kv

open Ordered

/-- The sections that are atomic. -/
inductive Section
  /-- `PageCache::get` -/
  | lookup (pageId : PageId)
  /-- `FileHandler::read_at`, with the buffer and the offset of `PageIO::read_page` -/
  | readFile (pageId : PageId)
  /-- The check of the size in `PageIO::write_page`, and `FileHandler::write_at_page` -/
  | writeFile (pageId : PageId) (data : Bytes)
  /-- `PageCache::insert` -/
  | fill (pageId : PageId) (data : Bytes)
  /-- An operation that is one section. -/
  | whole (o : Op)

/-- The type of what a section answers. -/
@[reducible]
def Section.Answer : Section → Type
  | .lookup _ => Option Bytes
  | .readFile _ => Bytes
  | .whole o => o.Answer
  | _ => Unit

abbrev sections : Signature := ⟨Section, Section.Answer⟩

/-- Code over the sections. -/
abbrev Thread (α : Type) : Type := Program sections Fault α

/-- The first half of `PageIO::write_page`. -/
def PageIo.writeFile (env : Env) (self : PageIo) (pageId : PageId) (data : Bytes) :
    Except Fault Unit × PageIo :=
  if data.length ≠ self.pageSize then
    (.error (.error (.databaseError
      s!"page {pageId.toNat} has size {data.length}, expected {self.pageSize}")), self)
  else
    match self.fileHandler.writeAtPage env pageId self.pageSize data with
    | .ok fileHandler => (.ok (), { self with fileHandler })
    | .error e => (.error e, self)

/-- What a section does and answers. -/
def executeSection (env : Env) : Handler sections Fault DatabaseState
  | .lookup pageId, s =>
    let (cached, pageCache) := s.pageIo.pageCache.get pageId
    (.ok cached, { s with pageIo := { s.pageIo with pageCache } })
  | .readFile pageId, s => (s.pageIo.readFile env pageId, s)
  | .writeFile pageId data, s =>
    let (result, pageIo) := s.pageIo.writeFile env pageId data
    (result, { s with pageIo })
  | .fill pageId data, s =>
    (.ok (), { s with pageIo := { s.pageIo with
      pageCache := s.pageIo.pageCache.insert pageId data } })
  | .whole o, s => execute env o s

/-- The sections of an operation, in order. -/
def Op.sections : (o : Op) → Thread o.Answer
  | .readPage pageId =>
    .perform (.lookup pageId) fun cached =>
      match cached with
      | some data => .ret data
      | none =>
        .perform (.readFile pageId) fun data => .perform (.fill pageId data) fun _ => .ret data
  | .writePage pageId data =>
    .perform (.writeFile pageId data) fun _ => .perform (.fill pageId data) fun _ => .ret ()
  | .removePage pageId => .perform (.whole (.removePage pageId)) .ret
  | .syncData => .perform (.whole .syncData) .ret
  | .allocatePageId => .perform (.whole .allocatePageId) .ret
  | .nextPageId => .perform (.whole .nextPageId) .ret
  | .freePage pageId transaction => .perform (.whole (.freePage pageId transaction)) .ret
  | .loadSnapshot => .perform (.whole .loadSnapshot) .ret
  | .register transaction => .perform (.whole (.register transaction)) .ret
  | .deregister transaction => .perform (.whole (.deregister transaction)) .ret
  | .loadHeader => .perform (.whole .loadHeader) .ret
  | .swap header => .perform (.whole (.swap header)) .ret

/-- The sections of a call. -/
def Call.sections {α : Type} (call : Call α) : Thread α := call.expand Op.sections

section

variable {env : Env}

theorem PageIo.writePage_ok {pageIo pageIo' : PageIo} {id : PageId} {data : Bytes}
    (h : pageIo.writeFile env id data = (.ok (), pageIo')) : pageIo.writePage env id data =
      (.ok (), { pageIo' with pageCache := pageIo'.pageCache.insert id data }) := by
  by_cases hlength : data.length = pageIo.pageSize
  · have hnot := not_not.mpr hlength
    rw [writeFile, if_neg hnot] at h
    rw [writePage, if_neg hnot]
    rcases hwrite : FileHandler.writeAtPage env pageIo.fileHandler id pageIo.pageSize data with
      e | fileHandler <;> rw [hwrite] at h
    · exact absurd (Prod.mk.inj h).1 (by simp)
    · obtain ⟨-, rfl⟩ := Prod.mk.inj h
      rfl
  · rw [writeFile, if_pos hlength] at h
    exact absurd (Prod.mk.inj h).1 (by simp)

theorem PageIo.writePage_error {pageIo pageIo' : PageIo} {id : PageId} {data : Bytes} {e : Fault}
    (h : pageIo.writeFile env id data = (.error e, pageIo')) :
    pageIo' = pageIo ∧ pageIo.writePage env id data = (.error e, pageIo) := by
  by_cases hlength : data.length = pageIo.pageSize
  · have hnot := not_not.mpr hlength
    rw [writeFile, if_neg hnot] at h
    rw [writePage, if_neg hnot]
    rcases hwrite : FileHandler.writeAtPage env pageIo.fileHandler id pageIo.pageSize data with
      e' | fileHandler <;> rw [hwrite] at h
    · obtain ⟨he, rfl⟩ := Prod.mk.inj h
      obtain rfl := Except.error.inj he
      exact ⟨rfl, rfl⟩
    · exact absurd (Prod.mk.inj h).1 (by simp)
  · rw [writeFile, if_pos hlength] at h
    rw [writePage, if_pos hlength]
    obtain ⟨he, rfl⟩ := Prod.mk.inj h
    rw [he]
    exact ⟨rfl, rfl⟩

/-- **The first half of a page write**: the page is in the file. -/
theorem PageIo.writeFile_ok {pageIo pageIo' : PageIo} {id : PageId} {data : Bytes}
    (h : pageIo.writeFile env id data = (.ok (), pageIo')) :
    (∃ fileHandler, pageIo' = { pageIo with fileHandler }) ∧ pageIo.Keeps {id} pageIo' ∧
      Reads { pageIo' with pageCache := pageIo'.pageCache.remove id } id data := by
  obtain ⟨hlength, -, hreads, -⟩ := Kv.writePage_ok (writePage_ok h)
  rw [writeFile, if_neg (not_not.mpr hlength)] at h
  split at h
  · rename_i fileHandler hwrite
    obtain ⟨-, rfl⟩ := Prod.mk.inj h
    refine ⟨⟨fileHandler, rfl⟩, keeps_partialWrite hlength.le hwrite, hreads.cache fun d hd => ?_⟩
    rw [PageCache.entries_remove, Function.update_self] at hd
    exact absurd hd (by simp)
  · exact absurd (Prod.mk.inj h).1 (by simp)

/-- How far a write transaction is: between two operations, or with a page in the file that
is not in the cache yet. -/
inductive WriteStage
  | clean (w : Work)
  | wrote (w : Work) (pageId : PageId) (data : Bytes)

/-- Nothing is known of the page. -/
def Work.hide (w : Work) (pageId : PageId) : Work :=
  { w with view := Function.update w.view pageId none }

/-- What the other threads may know of the work. -/
def WriteStage.work : WriteStage → Work
  | .clean w => w
  | .wrote w pageId _ => w.hide pageId

/-- What a transaction must see to before a section. -/
def SectionPre (env : Env) : WriteStage → Section → Prop
  | .clean w, .lookup pageId => WriterPre env w (.readPage pageId)
  | .clean w, .readFile pageId => WriterPre env w (.readPage pageId)
  | .clean w, .fill pageId data => w.view pageId = some data
  | .clean w, .writeFile pageId data => WriterPre env w (.writePage pageId data)
  | .clean w, .whole o => WriterPre env w o
  | .wrote _ pageId data, .fill pageId' data' => pageId' = pageId ∧ data' = data
  | .wrote _ _ _, _ => False

/-- What a transaction may rely on after a section. -/
def SectionPost : WriteStage → (o : Section) → o.Answer → WriteStage → Prop
  | .clean w, .lookup pageId, cached, g' =>
    g' = .clean w ∧ ∀ data, cached = some data → w.view pageId = some data
  | .clean w, .readFile pageId, data, g' => g' = .clean w ∧ w.view pageId = some data
  | .clean w, .fill _ _, _, g' => g' = .clean w
  | .clean w, .writeFile pageId data, _, g' => g' = .wrote w pageId data
  | .clean w, .whole o, a, g' => ∃ w', WriterPost w o a w' ∧ g' = .clean w'
  | .wrote w pageId data, .fill _ _, _, g' =>
    ∃ w', WriterPost w (.writePage pageId data) () w' ∧ g' = .clean w'
  | _, _, _, _ => True

/-- The protocol of the sections of a write transaction. -/
def sectionWriter (env : Env) : Protocol sections WriteStage where
  pre := SectionPre env
  post := SectionPost

/-- The protocol of the sections of a reader of known pages. -/
def sectionReader (known : View) : Protocol sections Unit where
  pre _ o :=
    match o with
    | .lookup pageId => ∃ page, known pageId = some page
    | .readFile pageId => ∃ page, known pageId = some page
    | .fill pageId data => known pageId = some data
    | _ => False
  post _ o a _ :=
    match o, a with
    | .lookup pageId, cached => ∀ data, cached = some data → known pageId = some data
    | .readFile pageId, data => known pageId = some data
    | _, _ => True

/-- The sections of the operations of a write transaction keep to their protocol. -/
theorem writer_sections_sat (env : Env) {X : Fault → Prop} (w : Work) (o : Op)
    (hpre : WriterPre env w o) : o.sections.Sat (sectionWriter env) X (.clean w) fun a g =>
      ∃ w', WriterPost w o a w' ∧ g = .clean w' := by
  cases o with
  | readPage id =>
    refine ⟨hpre, ?_⟩
    rintro (_ | data) g ⟨rfl, hcached⟩
    · -- the page was not in the cache
      refine ⟨hpre, ?_⟩
      rintro data g ⟨rfl, hview⟩
      refine ⟨hview, ?_⟩
      rintro ⟨⟩ g hg
      exact ⟨w, ⟨rfl, hview⟩, hg⟩
    · exact ⟨w, ⟨rfl, hcached data rfl⟩, rfl⟩
  | writePage id data =>
    refine ⟨hpre, ?_⟩
    rintro ⟨⟩ g rfl
    refine ⟨⟨rfl, rfl⟩, ?_⟩
    rintro ⟨⟩ g hg
    exact hg
  | _ => exact ⟨hpre, fun _ _ hpost => hpost⟩

/-- So do those of the operations of a reader. -/
theorem reader_sections_sat {X : Fault → Prop} {known : View} (n : ℕ) (o : Op)
    (hpre : (reading known).pre n o) : o.sections.Sat (sectionReader known) X () fun a g =>
      ∃ n', (reading known).post n o a n' ∧ g = () := by
  obtain ⟨id, rfl, hknown⟩ := hpre
  refine ⟨hknown, ?_⟩
  rintro (_ | data) ⟨⟩ hcached
  · refine ⟨hknown, ?_⟩
    rintro data ⟨⟩ hdata
    refine ⟨hdata, ?_⟩
    rintro ⟨⟩ ⟨⟩ -
    exact ⟨n + 1, ⟨hdata, rfl⟩, rfl⟩
  · exact ⟨n + 1, ⟨hcached data rfl, rfl⟩, rfl⟩

/-! ### Who owns which page between two sections -/

/-- What a section leaves behind if its input or output fails, after `k` bytes if it writes;
`none` if it does not come to any input or output. -/
def sectionIoError (env : Env) (k : ℕ) (s : DatabaseState) : Section → Option DatabaseState
  | .readFile pageId =>
    match s.pageIo.readFile env pageId with
    | .error .panic => none
    | _ => some s
  | .writeFile pageId data => afterIoError env k s (.writePage pageId data)
  | .whole o => afterIoError env k s o
  | _ => none

/-- What a section may come to: it does what it should, or its input or output fails. -/
inductive Performs (env : Env) (o : Section) (db : DatabaseState) :
    Except Fault o.Answer → DatabaseState → Prop
  | done {result : Except Fault o.Answer} {db' : DatabaseState}
      (hexec : executeSection env o db = (result, db')) : Performs env o db result db'
  | ioError {k : ℕ} {db' : DatabaseState} (hfail : sectionIoError env k db o = some db') :
      Performs env o db (.error (.error (.ioError .other))) db'

/-- The page is in the file; what the cache has for it is overwritten next. -/
def WriteStage.InFile (env : Env) (pageIo : PageIo) : WriteStage → Prop
  | .clean _ => True
  | .wrote w pageId data => WriterPre env w (.writePage pageId data) ∧
      w.view headerPageId = none ∧
      Reads { pageIo with pageCache := pageIo.pageCache.remove pageId } pageId data

/-- The database fits the stage of the writer and the versions that are being read. -/
structure Amid (env : Env) (db : DatabaseState) (g : WriteStage) (readers starting : List Version) :
    Prop where
  owned : Owned env db g.work readers starting
  inFile : g.InFile env db.pageIo

section

variable {db db' : DatabaseState} {w : Work} {g : WriteStage} {readers starting : List Version}

/-- The cache does not matter for the page that is only in the file. -/
theorem WriteStage.InFile.cache {pageIo : PageIo} (h : g.InFile env pageIo) (pageCache : PageCache) :
    g.InFile env { pageIo with pageCache } := by
  cases g with
  | clean w => trivial
  | wrote w id data =>
    obtain ⟨hpre, hhidden, hreads⟩ := h
    refine ⟨hpre, hhidden, hreads.cache fun d hd => ?_⟩
    rw [PageCache.entries_remove, Function.update_self] at hd
    exact absurd hd (by simp)

/-- The cache has changed, and no page with it. -/
theorem Amid.cache (h : Amid env db g readers starting) {pageCache : PageCache}
    (hkeeps : db.pageIo.Keeps ∅ { db.pageIo with pageCache }) :
    Amid env { db with pageIo := { db.pageIo with pageCache } } g readers starting :=
  ⟨h.owned.keeps hkeeps, h.inFile.cache pageCache⟩

/-- A lookup in the cache. -/
theorem Amid.lookup (h : Amid env db g readers starting) (id : PageId) :
    ∃ cached db', executeSection env (.lookup id) db = (.ok cached, db') ∧
      Amid env db' g readers starting ∧ db.pageIo.Keeps ∅ db'.pageIo ∧
      ∀ page, Reads db.pageIo id page → ∀ data, cached = some data → data = page := by
  have hkeeps : db.pageIo.Keeps ∅
      { db.pageIo with pageCache := (db.pageIo.pageCache.get id).2 } :=
    ⟨rfl, fun _ d _ hreads => hreads.cache fun d' hd' => Or.inl hd'⟩
  refine ⟨_, _, rfl, h.cache hkeeps, hkeeps, ?_⟩
  intro page hreads data hcached
  refine hreads.cached data ?_
  change (if _ then none else db.pageIo.pageCache.entries id) = some data at hcached
  split at hcached
  · exact absurd hcached (by simp)
  · exact hcached

/-- A known page is read from the file. -/
theorem Amid.readFile (h : Amid env db g readers starting) {id : PageId} {page : Bytes}
    (hreads : Reads db.pageIo id page) : executeSection env (.readFile id) db = (.ok page, db) := by
  rw [executeSection, hreads.readFile env (h.owned.pageSize ▸ h.owned.small)]

/-- A known page enters the cache. -/
theorem Amid.fill (h : Amid env db g readers starting) {id : PageId} {page : Bytes}
    (hreads : Reads db.pageIo id page) :
    ∃ db', executeSection env (.fill id page) db = (.ok (), db') ∧
      Amid env db' g readers starting ∧ db.pageIo.Keeps ∅ db'.pageIo :=
  ⟨_, rfl, h.cache (hreads.fill db.pageIo.pageCache.lookups), hreads.fill _⟩

/-- **A section of a reader**, of pages that are known. -/
theorem Amid.reads (h : Amid env db g readers starting) {known : View}
    (hknown : ∀ id page, known id = some page → Reads db.pageIo id page) {o : Section}
    (hpre : (sectionReader known).pre () o) :
    ∃ a db', executeSection env o db = (.ok a, db') ∧ (sectionReader known).post () o a () ∧
      Amid env db' g readers starting ∧ db.pageIo.Keeps ∅ db'.pageIo := by
  cases o with
  | lookup id =>
    obtain ⟨page, hpage⟩ := hpre
    obtain ⟨cached, db', hexec, hamid, hkeeps, hcached⟩ := h.lookup id
    refine ⟨cached, db', hexec, fun data hdata => ?_, hamid, hkeeps⟩
    rw [hcached page (hknown id page hpage) data hdata]
    exact hpage
  | readFile id =>
    obtain ⟨page, hpage⟩ := hpre
    exact ⟨page, db, h.readFile (hknown id page hpage), hpage, h, rfl, fun _ _ _ hreads => hreads⟩
  | fill id data =>
    obtain ⟨db', hexec, hamid, hkeeps⟩ := h.fill (hknown id data hpre)
    exact ⟨(), db', hexec, trivial, hamid, hkeeps⟩
  | writeFile id data => exact hpre.elim
  | whole o => exact hpre.elim

/-- A section of a reader that fails has failed to read the file, and has done nothing. -/
theorem Amid.reads_error (h : Amid env db g readers starting) {known : View}
    (hknown : ∀ id page, known id = some page → Reads db.pageIo id page) {o : Section}
    (hpre : (sectionReader known).pre () o) {e : Fault} (hperforms : Performs env o db (.error e) db') :
    e = .error (.ioError .other) ∧ db' = db := by
  cases hperforms with
  | done hexec =>
    obtain ⟨a, db₁, hok, -⟩ := h.reads hknown hpre
    exact absurd (Prod.mk.inj (hok.symm.trans hexec)).1 (by simp)
  | ioError hfail =>
    refine ⟨rfl, ?_⟩
    cases o with
    | readFile id =>
      rw [sectionIoError] at hfail
      split at hfail
      · exact absurd hfail (by simp)
      · exact (Option.some.inj hfail).symm
    | lookup id => exact absurd hfail (by simp [sectionIoError])
    | fill id data => exact absurd hfail (by simp [sectionIoError])
    | writeFile id data => exact hpre.elim
    | whole o => exact hpre.elim

/-! ### The sections of the writer -/

/-- A page that is hidden anyway. -/
theorem Work.hide_header (h : w.view headerPageId = none) : w.hide headerPageId = w := by
  rw [Work.hide, ← h, Function.update_eq_self]

/-- The version a commit writes has been issued. -/
theorem Owned.issue (h : Owned env db w readers starting) {v : Version}
    (hphase : w.phase = .writing v) (hstands : v.Stands env w.view) :
    Owned env db { w with phase := .issued v } readers starting := by
  have hplanned := h.phase
  rw [hphase] at hplanned
  exact { h with
    used := fun id hid => { h.used id hid with }
    waiting := fun e he => { h.waiting e he with }
    shared := fun v hv => { h.shared v hv with }
    phase := ⟨{ hplanned with }, hstands⟩ }

/-- The first half of a page write. -/
theorem Amid.writeFile (h : Amid env db (.clean w) readers starting) {id : PageId} {data : Bytes}
    (hpre : WriterPre env w (.writePage id data))
    (hexec : executeSection env (.writeFile id data) db = (.ok (), db')) :
    Amid env db' (.wrote w id data) readers starting := by
  obtain ⟨v, hphase, hid⟩ := hpre
  rcases hwrite : db.pageIo.writeFile env id data with ⟨result, pageIo⟩
  rw [executeSection, hwrite, Prod.mk.injEq] at hexec
  obtain ⟨rfl, rfl⟩ := hexec
  obtain ⟨-, hkeeps, hreads⟩ := PageIo.writeFile_ok hwrite
  refine ⟨?_, ⟨v, hphase, hid⟩, h.owned.hidden, hreads⟩
  change Owned env _ (w.hide id) readers starting
  by_cases hheader : id = headerPageId
  · subst hheader
    rw [w.hide_header h.owned.hidden]
    exact h.owned.keepsHeader hkeeps
  · rw [if_neg hheader] at hid
    exact h.owned.setView hphase hid.1 hkeeps fun d hd => absurd hd (by simp)

/-- The second half. -/
theorem Amid.fillWritten {id : PageId} {data : Bytes}
    (h : Amid env db (.wrote w id data) readers starting) :
    ∃ w' db', executeSection env (.fill id data) db = (.ok (), db') ∧
      WriterPost w (.writePage id data) () w' ∧ Amid env db' (.clean w') readers starting := by
  obtain ⟨howned, ⟨v, hphase, hid⟩, hhidden, hreads⟩ := h
  have hkeeps : db.pageIo.Keeps {id}
      { db.pageIo with pageCache := db.pageIo.pageCache.insert id data } := by
    refine ⟨rfl, fun x d hx hreads => hreads.cache fun d' hd' => Or.inl ?_⟩
    rw [PageCache.entries_insert, Function.update_of_ne hx] at hd'
    exact hd'
  have hfilled : Reads { db.pageIo with pageCache := db.pageIo.pageCache.insert id data } id data :=
    hreads.cache fun d hd => by
      rw [PageCache.entries_insert, Function.update_self, Option.some.injEq] at hd
      exact Or.inr hd.symm
  change Owned env db (w.hide id) readers starting at howned
  by_cases hheader : id = headerPageId
  · subst hheader
    rw [if_pos rfl] at hid
    refine ⟨{ w with phase := .issued v }, _, rfl, by simp only [WriterPost, hphase, if_pos],
      ?_, trivial⟩
    rw [w.hide_header hhidden] at howned
    exact (howned.keepsHeader hkeeps).issue hphase hid.2
  · rw [if_neg hheader] at hid
    refine ⟨w.setPage id data, _, rfl, by simp only [WriterPost, hphase, if_neg hheader], ?_, trivial⟩
    have hdata : ∀ d, some data = some d →
        Reads { db.pageIo with pageCache := db.pageIo.pageCache.insert id data } id d := fun d hd =>
      Option.some.inj hd ▸ hfilled
    have hset := Owned.setView howned hphase hid.1 hkeeps hdata
    rw [Work.hide] at hset
    dsimp only at hset
    rw [Function.update_idem] at hset
    exact hset

/-! ### The pages a section leaves alone -/

theorem PageIo.Keeps.refl (S : Set PageId) (pageIo : PageIo) : pageIo.Keeps S pageIo :=
  ⟨rfl, fun _ _ _ hreads => hreads⟩

theorem PageIo.Keeps.mono {S T : Set PageId} {pageIo pageIo' : PageIo} (h : pageIo.Keeps S pageIo')
    (hsub : S ⊆ T) : pageIo.Keeps T pageIo' :=
  ⟨h.1, fun id data hid => h.2 id data fun hmem => hid (hsub hmem)⟩

/-- An operation leaves the pages alone that it does not write. -/
theorem execute_keeps {o : Op} {result : Except Fault o.Answer}
    (hexec : execute env o db = (result, db')) :
    db.pageIo.Keeps {id | id ∈ o.written} db'.pageIo := by
  cases o with
  | readPage id =>
    obtain ⟨-, rfl⟩ := Prod.mk.inj hexec
    exact (keeps_readPage env db.pageIo id).1.mono (Set.empty_subset _)
  | writePage id data =>
    rcases hwrite : db.pageIo.writePage env id data with ⟨written, pageIo⟩
    rw [execute, hwrite, Prod.mk.injEq] at hexec
    obtain ⟨-, rfl⟩ := hexec
    cases written with
    | error e =>
      obtain rfl := Kv.writePage_error hwrite
      exact .refl _ _
    | ok => exact (Kv.writePage_ok hwrite).2.1.mono fun x hx => List.mem_singleton.mpr hx
  | removePage id =>
    obtain ⟨-, rfl⟩ := Prod.mk.inj hexec
    exact keeps_removePage.mono (Set.empty_subset _)
  | syncData =>
    obtain ⟨-, rfl⟩ := Prod.mk.inj hexec
    exact keeps_syncData.mono (Set.empty_subset _)
  | allocatePageId =>
    rcases allocate_inv env db with ⟨e, rest, -, hallocate⟩ | ⟨fault, next, -, -, hallocate⟩ |
      ⟨-, len, reservedPageCount, hgrows, hallocate⟩
    · obtain ⟨-, rfl⟩ := Prod.mk.inj (hallocate.symm.trans hexec)
      exact .refl _ _
    · obtain ⟨-, rfl⟩ := Prod.mk.inj (hallocate.symm.trans hexec)
      exact .refl _ _
    · obtain ⟨-, rfl⟩ := Prod.mk.inj (hallocate.symm.trans hexec)
      have hkeeps : db.pageIo.Keeps ∅
          { db.pageIo with fileHandler := { db.pageIo.fileHandler with len } } :=
        keeps_grow hgrows.le rfl
      exact hkeeps.mono (Set.empty_subset _)
  | _ =>
    obtain ⟨-, rfl⟩ := Prod.mk.inj hexec
    exact .refl _ _

/-- So does one whose input or output fails. -/
theorem afterIoError_keeps {o : Op} {k : ℕ} (hafter : afterIoError env k db o = some db') :
    db.pageIo.Keeps {id | id ∈ o.written} db'.pageIo := by
  cases o with
  | readPage id =>
    obtain ⟨pageIo, rfl, hkeeps⟩ := keeps_failedRead hafter
    exact hkeeps.mono (Set.empty_subset _)
  | writePage id data =>
    rw [afterIoError] at hafter
    split at hafter
    · exact absurd hafter (by simp)
    rename_i hlength
    split at hafter
    on_goal 2 => exact absurd hafter (by simp)
    rename_i fileHandler hwrite
    obtain rfl := Option.some.inj hafter
    exact (keeps_partialWrite (by rw [List.length_take]; omega) hwrite).mono fun x hx =>
      List.mem_singleton.mpr hx
  | syncData =>
    obtain rfl := Option.some.inj hafter
    exact .refl _ _
  | allocatePageId =>
    rw [afterIoError] at hafter
    dsimp only at hafter
    split at hafter
    · exact absurd hafter (by simp)
    split at hafter
    · exact absurd hafter (by simp)
    split at hafter
    on_goal 2 => exact absurd hafter (by simp)
    obtain rfl := Option.some.inj hafter
    exact .refl _ _
  | _ => exact absurd hafter (by simp [afterIoError])

/-- The pages a section of a write transaction changes are its own, or the header page. -/
theorem Amid.keeps (h : Amid env db g readers starting) {o : Section} (hpre : SectionPre env g o)
    {result : Except Fault o.Answer} (hperforms : Performs env o db result db') :
    ∃ S : Set PageId, db.pageIo.Keeps S db'.pageIo ∧
      ∀ id ∈ S, id = headerPageId ∨ id ∈ g.work.used := by
  have hown : ∀ {w : Work} {op : Op}, WriterPre env w op →
      ∀ id ∈ {id | id ∈ op.written}, id = headerPageId ∨ id ∈ w.used := by
    intro w op hop id hid
    cases op with
    | writePage id' data =>
      obtain ⟨v, -, hused⟩ := hop
      obtain rfl := List.mem_singleton.mp hid
      by_cases hheader : id = headerPageId
      · exact Or.inl hheader
      · rw [if_neg hheader] at hused
        exact Or.inr hused.1
    | _ => exact absurd hid List.not_mem_nil
  cases g with
  | wrote w id data =>
    cases o with
    | fill id' data' =>
      obtain ⟨rfl, rfl⟩ := hpre
      refine ⟨{id'}, ?_, fun x hx => hown h.inFile.1 x (List.mem_singleton.mpr hx)⟩
      cases hperforms with
      | done hexec =>
        obtain ⟨-, rfl⟩ := Prod.mk.inj hexec
        refine ⟨rfl, fun x d hx hreads => hreads.cache fun d' hd' => Or.inl ?_⟩
        rw [PageCache.entries_insert, Function.update_of_ne hx] at hd'
        exact hd'
      | ioError hfail => exact absurd hfail (by simp [sectionIoError])
    | _ => exact hpre.elim
  | clean w =>
    cases o with
    | lookup id =>
      refine ⟨∅, ?_, fun x hx => absurd hx (Set.notMem_empty x)⟩
      cases hperforms with
      | done hexec =>
        obtain ⟨-, rfl⟩ := Prod.mk.inj hexec
        exact ⟨rfl, fun _ d _ hreads => hreads.cache fun d' hd' => Or.inl hd'⟩
      | ioError hfail => exact absurd hfail (by simp [sectionIoError])
    | readFile id =>
      refine ⟨∅, ?_, fun x hx => absurd hx (Set.notMem_empty x)⟩
      cases hperforms with
      | done hexec =>
        obtain ⟨-, rfl⟩ := Prod.mk.inj hexec
        exact .refl _ _
      | ioError hfail =>
        rw [sectionIoError] at hfail
        split at hfail
        · exact absurd hfail (by simp)
        · obtain rfl := Option.some.inj hfail
          exact .refl _ _
    | fill id data =>
      refine ⟨∅, ?_, fun x hx => absurd hx (Set.notMem_empty x)⟩
      cases hperforms with
      | done hexec =>
        obtain ⟨-, rfl⟩ := Prod.mk.inj hexec
        exact (h.owned.reads id data hpre).fill _
      | ioError hfail => exact absurd hfail (by simp [sectionIoError])
    | writeFile id data =>
      have hwritePage : WriterPre env w (.writePage id data) := hpre
      refine ⟨_, ?_, hown hwritePage⟩
      cases hperforms with
      | done hexec =>
        rcases hwrite : db.pageIo.writeFile env id data with ⟨written, pageIo⟩
        rw [executeSection, hwrite, Prod.mk.injEq] at hexec
        obtain ⟨-, rfl⟩ := hexec
        cases written with
        | error e =>
          obtain ⟨rfl, -⟩ := PageIo.writePage_error hwrite
          exact .refl _ _
        | ok => exact (PageIo.writeFile_ok hwrite).2.1.mono fun x hx => List.mem_singleton.mpr hx
      | ioError hfail => exact afterIoError_keeps hfail
    | whole op =>
      have hop : WriterPre env w op := hpre
      refine ⟨_, ?_, hown hop⟩
      cases hperforms with
      | done hexec => exact execute_keeps hexec
      | ioError hfail => exact afterIoError_keeps hfail

/-- **A section of a write transaction that succeeds.** -/
theorem Amid.perform_ok (h : Amid env db g readers starting) {o : Section}
    (hpre : SectionPre env g o) (hsafe : o = .whole .allocatePageId → Safe db starting)
    {a : o.Answer} (hperforms : Performs env o db (.ok a) db') :
    ∃ g', SectionPost g o a g' ∧ Amid env db' g' readers starting := by
  obtain ⟨hexec⟩ := hperforms
  cases g with
  | wrote w id data =>
    cases o with
    | fill id' data' =>
      obtain ⟨rfl, rfl⟩ := hpre
      obtain ⟨w', db₁, hfill, hpost, hamid⟩ := h.fillWritten
      rw [hfill, Prod.mk.injEq] at hexec
      obtain ⟨-, rfl⟩ := hexec
      exact ⟨.clean w', ⟨w', hpost, rfl⟩, hamid⟩
    | _ => exact hpre.elim
  | clean w =>
    cases o with
    | lookup id =>
      obtain ⟨page, hview⟩ := h.owned.stands.tree.known hpre.2
      obtain ⟨cached, db₁, hlookup, hamid, -, hcached⟩ := h.lookup id
      rw [hlookup, Prod.mk.injEq, Except.ok.injEq] at hexec
      obtain ⟨rfl, rfl⟩ := hexec
      refine ⟨.clean w, ⟨rfl, fun data hdata => ?_⟩, hamid⟩
      rw [hcached page (h.owned.reads id page hview) data hdata]
      exact hview
    | readFile id =>
      obtain ⟨page, hview⟩ := h.owned.stands.tree.known hpre.2
      rw [h.readFile (h.owned.reads id page hview), Prod.mk.injEq, Except.ok.injEq] at hexec
      obtain ⟨rfl, rfl⟩ := hexec
      exact ⟨.clean w, ⟨rfl, hview⟩, h⟩
    | fill id data =>
      obtain ⟨db₁, hfill, hamid, -⟩ := h.fill (h.owned.reads id data hpre)
      rw [hfill, Prod.mk.injEq] at hexec
      obtain ⟨-, rfl⟩ := hexec
      exact ⟨.clean w, rfl, hamid⟩
    | writeFile id data => exact ⟨.wrote w id data, rfl, h.writeFile hpre hexec⟩
    | whole o =>
      have hstep := h.owned.perform hpre fun ho => hsafe (congrArg _ ho)
      rw [show execute env o db = _ from hexec] at hstep
      obtain ⟨w', hpost, howned⟩ := hstep
      exact ⟨.clean w', ⟨w', hpost, rfl⟩, howned, trivial⟩

/-- **A section of a write transaction that fails** costs a page id or what is known of a page
of the transaction, before anything is published. -/
theorem Amid.perform_error (h : Amid env db g readers starting) {o : Section}
    (hpre : SectionPre env g o) (hsafe : o = .whole .allocatePageId → Safe db starting)
    {e : Fault} (hperforms : Performs env o db (.error e) db') :
    Unpublished g.work ∧
      ∃ view next, Owned env db' { g.work with view, next } readers starting := by
  cases g with
  | wrote w id data =>
    -- the cache does not fail
    cases o with
    | fill id' data' =>
      cases hperforms with
      | done hexec => exact absurd (Prod.mk.inj hexec).1 (by simp)
      | ioError hfail => exact absurd hfail (by simp [sectionIoError])
    | _ => exact hpre.elim
  | clean w =>
    have hunpublished : w.phase = .building → Unpublished w := fun hphase old released heq =>
      absurd (hphase.symm.trans heq) (by simp)
    cases o with
    | lookup id =>
      cases hperforms with
      | done hexec => exact absurd (Prod.mk.inj hexec).1 (by simp)
      | ioError hfail => exact absurd hfail (by simp [sectionIoError])
    | fill id data =>
      cases hperforms with
      | done hexec => exact absurd (Prod.mk.inj hexec).1 (by simp)
      | ioError hfail => exact absurd hfail (by simp [sectionIoError])
    | readFile id =>
      refine ⟨hunpublished hpre.1, w.view, w.next, ?_⟩
      suffices hsame : db' = db from hsame ▸ h.owned
      cases hperforms with
      | done hexec => exact (Prod.mk.inj hexec).2.symm
      | ioError hfail =>
        rw [sectionIoError] at hfail
        split at hfail
        · exact absurd hfail (by simp)
        · exact (Option.some.inj hfail).symm
    | writeFile id data =>
      have hwritePage : WriterPre env w (.writePage id data) := hpre
      cases hperforms with
      | done hexec =>
        obtain ⟨v, hphase, -⟩ := hwritePage
        refine ⟨fun old released heq => absurd (hphase.symm.trans heq) (by simp), w.view, w.next, ?_⟩
        rcases hwrite : db.pageIo.writeFile env id data with ⟨result, pageIo⟩
        rw [executeSection, hwrite, Prod.mk.injEq] at hexec
        obtain ⟨rfl, rfl⟩ := hexec
        obtain ⟨rfl, -⟩ := PageIo.writePage_error hwrite
        exact h.owned
      | ioError hfail => exact h.owned.ioError hwritePage hfail
    | whole o =>
      cases hperforms with
      | done hexec =>
        have hstep := h.owned.perform hpre fun ho => hsafe (congrArg _ ho)
        rw [show execute env o db = _ from hexec] at hstep
        obtain ⟨hnot, next, howned⟩ := hstep
        exact ⟨hnot, w.view, next, howned⟩
      | ioError hfail => exact h.owned.ioError hpre hfail

end

end

end KvRaft.Kv
