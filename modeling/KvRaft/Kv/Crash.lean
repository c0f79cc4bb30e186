import KvRaft.Kv.Persistence

/-!
# Crashes

A file that is used by one process after the other. A process begins, reads and drops read
transactions, and runs one write transaction at a time, the calls of which are taken apart
into their operations. At any moment it may crash: any of the pages written since the last
sync have then reached the file, and any have not, each as a whole; a file that has grown
stays so. The next process opens the file.

Whenever the process crashes, `open_existing` succeeds, and finds the map of the last commit
that returned, or of a commit built on it whose header had been written (`crash_recovers`).
It takes that no two pages of the history have the same checksum.
-/

namespace KvRaft.Kv

open Bytes Ordered

/-- The transactions a version is made of, each with its insertions. -/
abbrev Commits := List (List (Key × Value))

/-- The map they leave. -/
def Commits.map (commits : Commits) : Key → Option Value := lastInsert commits.flatten

/-- The write transaction of a process, with its insertions. -/
inductive Process
  | idle
  | between (tx : WriteTransaction) (inserts : List (Key × Value))
  /-- In an insertion, the last one of the list: what is left of the call. -/
  | inserting (rest : Call WriteTransaction) (inserts : List (Key × Value))
  /-- In the commit. -/
  | committing (rest : Call Unit) (inserts : List (Key × Value))

/-- A file in use. -/
structure Life where
  db : DatabaseState
  process : Process
  readers : List ReadTransaction
  /-- The transactions of the current version. -/
  current : Commits
  /-- The same for the last commit that returned. -/
  acked : Commits
  /-- The same for every commit whose header has been written. -/
  issued : List Commits
  /-- The contents of all pages so far. -/
  pages : List Bytes

/-- The header page is written. -/
def Op.IsHeaderWrite : Op → Prop
  | .writePage pageId _ => pageId = headerPageId
  | _ => False

instance (o : Op) : Decidable o.IsHeaderWrite := by
  cases o <;> unfold Op.IsHeaderWrite <;> infer_instance

/-- A reader that begins now sees the map of the transactions. -/
def Shows (env : Env) (db : DatabaseState) (commits : Commits) : Prop :=
  ∃ r db₁, Database.beginRead.run (execute env) db = (.ok r, db₁) ∧
    ∀ key, ∃ db₂, (r.read key).run (execute env) db₁ = (.ok (commits.map key), db₂)

namespace Life

/-- A new database whose first pages have reached the file. -/
def start (db : DatabaseState) : Life where
  db := { db with pageIo := db.pageIo.syncData }
  process := .idle
  readers := []
  current := []
  acked := []
  issued := []
  pages := db.firstPages

/-- The last commit that returned, or one built on it whose header has been written. -/
def MayHold (s : Life) (commits : Commits) : Prop :=
  commits = s.acked ∨ commits ∈ s.issued ∧ s.acked <+: commits

/-- The file after a crash. -/
def fileAfter (s : Life) (survivors : List (ℕ × Bytes)) : FileHandler :=
  s.db.pageIo.fileHandler.crash survivors

/-- What a process may do, and its end. -/
inductive Step (env : Env) : Life → Life → Prop
  | beginRead {s : Life} {r : ReadTransaction} {db' : DatabaseState}
      (hrun : Database.beginRead.run (execute env) s.db = (.ok r, db')) :
      Step env s { s with db := db', readers := r :: s.readers }
  /-- A page read of a `read`. -/
  | readPage {s : Life} {pageId : PageId} :
      Step env s { s with db := (execute env (.readPage pageId) s.db).2 }
  | dropReader {s : Life} {before after : List ReadTransaction} {r : ReadTransaction}
      {db' : DatabaseState} (hreaders : s.readers = before ++ r :: after)
      (hrun : r.drop.run (execute env) s.db = (.ok (), db')) :
      Step env s { s with db := db', readers := before ++ after }
  | beginWrite {s : Life} {tx : WriteTransaction} {db' : DatabaseState}
      (hprocess : s.process = .idle)
      (hrun : (Database.beginWrite s.db.pageIo.pageSize).run (execute env) s.db = (.ok tx, db')) :
      Step env s { s with db := db', process := .between tx [] }
  /-- An insertion is called. -/
  | insert {s : Life} {tx : WriteTransaction} {inserts : List (Key × Value)} {key : Key}
      {value : Value} (hprocess : s.process = .between tx inserts) :
      Step env s { s with
        process := .inserting (tx.insert env key value) (inserts ++ [(key, value)]) }
  /-- An operation of the insertion. -/
  | performInsert {s : Life} {o : Op} {k : o.Answer → Call WriteTransaction}
      {inserts : List (Key × Value)} {a : o.Answer} {db' : DatabaseState}
      (hprocess : s.process = .inserting (.perform o k) inserts)
      (hexec : execute env o s.db = (.ok a, db')) :
      Step env s { s with
        db := db'
        process := .inserting (k a) inserts
        pages := o.data ++ s.pages }
  /-- The insertion returns. -/
  | inserted {s : Life} {tx : WriteTransaction} {inserts : List (Key × Value)}
      (hprocess : s.process = .inserting (.ret tx) inserts) :
      Step env s { s with process := .between tx inserts }
  /-- The commit is called; the dirty pages come in any order. -/
  | commit {s : Life} {tx : WriteTransaction} {inserts : List (Key × Value)}
      {pages : List (PageId × DirtyPageSlot)} (hprocess : s.process = .between tx inserts)
      (hpages : pages.Perm tx.dirtyPages) :
      Step env s { s with process := .committing (tx.commit pages) inserts }
  /-- An operation of the commit. -/
  | performCommit {s : Life} {o : Op} {k : o.Answer → Call Unit}
      {inserts : List (Key × Value)} {a : o.Answer} {db' : DatabaseState}
      (hprocess : s.process = .committing (.perform o k) inserts)
      (hexec : execute env o s.db = (.ok a, db')) :
      Step env s { s with
        db := db'
        process := .committing (k a) inserts
        issued := if o.IsHeaderWrite then (s.current ++ [inserts]) :: s.issued else s.issued
        pages := o.data ++ s.pages }
  /-- The commit returns. -/
  | committed {s : Life} {inserts : List (Key × Value)}
      (hprocess : s.process = .committing (.ret ()) inserts) :
      Step env s { s with
        process := .idle
        current := s.current ++ [inserts]
        acked := s.current ++ [inserts] }
  | dropWriter {s : Life} {tx : WriteTransaction} {inserts : List (Key × Value)}
      (hprocess : s.process = .between tx inserts) : Step env s { s with process := .idle }
  /-- A crash, and the next process. Which of the commits it may have found it has found is
  told by the map. -/
  | crash {s : Life} {survivors : List (ℕ × Bytes)} {evicts : ℕ → PageId → Bool}
      {db' : DatabaseState} {commits : Commits}
      (hsurvivors : survivors.Sublist s.db.pageIo.fileHandler.pending)
      (hopen : Database.openExisting env (s.fileAfter survivors) evicts = .ok db')
      (hcommits : s.MayHold commits) (hshows : Shows env db' commits) :
      Step env s { s with db := db', process := .idle, readers := [], current := commits }

/-- The file in use for some time. -/
def Run (env : Env) : Life → Life → Prop := Relation.ReflTransGen (Step env)

end Life

/-! ### What a process keeps -/

/-- How far the commit of the transactions `commits` is, on the version of `base`. -/
def CommitsTo (mayHold : Commits → Prop) (base commits : Commits) (w : Work) : Prop :=
  match w.phase with
  | .building => False
  | .writing v => w.base.map = base.map ∧ v.map = commits.map
  | .issued v => w.base.map = base.map ∧ v.map = commits.map ∧ mayHold commits
  | .synced v => v.map = commits.map ∧ mayHold commits
  | .published _ _ => w.base.map = commits.map ∧ mayHold commits

/-- The process keeps to the protocol of a write transaction. -/
def Process.Fits (env : Env) (mayHold : Commits → Prop) (current : Commits) (w : Work) :
    Process → Prop
  | .idle => w.phase = .building ∧ w.base.map = current.map
  | .between tx inserts =>
    w.base.map = current.map ∧ Working env w tx (Commits.map (current ++ [inserts]))
  | .inserting rest inserts =>
    w.phase = .building ∧ w.base.map = current.map ∧
      rest.Sat (writer env) (fun _ => True) w fun tx w' =>
        Working env w' tx (Commits.map (current ++ [inserts]))
  | .committing rest inserts =>
    CommitsTo mayHold current (current ++ [inserts]) w ∧
      rest.Sat (writer env) (fun _ => True) w fun _ w' =>
        ∃ old released, w'.phase = .published old released

/-- How the life of a file follows the work on it. -/
structure Life.Fits (env : Env) (s : Life) (w : Work) (readers : List Version) : Prop where
  owned : Owned env s.db w readers []
  readers : s.readers = readers.map Version.reader
  stored : Stored env s.pages (fun u => ∃ commits, s.MayHold commits ∧ u.map = commits.map) s.db w
  current : s.MayHold s.current
  process : s.process.Fits env s.MayHold s.current w

section

variable {env : Env} {w w' : Work} {base commits : Commits} {mayHold : Commits → Prop}

/-- One more insertion. -/
theorem Commits.map_insert (base : Commits) (inserts : List (Key × Value)) (key : Key)
    (value : Value) : Commits.map (base ++ [inserts ++ [(key, value)]]) =
      assign (Commits.map (base ++ [inserts])) key value := by
  rw [Commits.map, Commits.map, List.flatten_append, List.flatten_append, List.flatten_singleton,
    List.flatten_singleton, ← List.append_assoc, lastInsert_append]

theorem Commits.map_nil (base : Commits) : Commits.map (base ++ [[]]) = base.map := by
  rw [Commits.map, List.flatten_append, List.flatten_singleton, List.append_nil]
  rfl

/-- While a transaction is being built, nothing it does ends that. -/
theorem building_post (hphase : w.phase = .building) {o : Op} (hpre : WriterPre env w o)
    {a : o.Answer} (hpost : WriterPost w o a w') : w'.phase = .building ∧ w'.base = w.base := by
  cases o with
  | readPage id =>
    obtain ⟨rfl, -⟩ := hpost
    exact ⟨hphase, rfl⟩
  | writePage id data =>
    obtain ⟨v, hwriting, -⟩ := hpre
    exact absurd (hphase.symm.trans hwriting) (by simp)
  | removePage id =>
    obtain rfl : w' = w := hpost
    exact ⟨hphase, rfl⟩
  | syncData =>
    obtain ⟨v, hissued⟩ := hpre
    exact absurd (hphase.symm.trans hissued) (by simp)
  | allocatePageId =>
    obtain ⟨-, -, -, next, rfl⟩ := hpost
    exact ⟨hphase, rfl⟩
  | nextPageId =>
    obtain ⟨-, rfl⟩ := hpost
    exact ⟨hphase, rfl⟩
  | freePage id transaction =>
    obtain ⟨old, released, hpublished, -⟩ := hpre
    exact absurd (hphase.symm.trans hpublished) (by simp)
  | loadHeader =>
    obtain ⟨-, rfl⟩ := hpost
    exact ⟨hphase, rfl⟩
  | swap header =>
    obtain ⟨v, hsynced, -⟩ := hpre
    exact absurd (hphase.symm.trans hsynced) (by simp)
  | loadSnapshot => exact hpre.elim
  | register transaction => exact hpre.elim
  | deregister transaction => exact hpre.elim

/-- **Every operation of a commit brings it further.** -/
theorem CommitsTo.post (h : CommitsTo mayHold base commits w) {o : Op} (hpre : WriterPre env w o)
    {a : o.Answer} (hpost : WriterPost w o a w') {mayHold' : Commits → Prop}
    (hold : mayHold commits → mayHold' commits) (hheader : o.IsHeaderWrite → mayHold' commits) :
    CommitsTo mayHold' base commits w' := by
  -- as long as the phase stays, only what may be on disk changes
  have hsame : CommitsTo mayHold' base commits w := by
    rw [CommitsTo] at h ⊢
    split
    · rename_i hphase
      rwa [hphase] at h
    · rename_i v hphase
      rwa [hphase] at h
    · rename_i v hphase
      rw [hphase] at h
      exact ⟨h.1, h.2.1, hold h.2.2⟩
    · rename_i v hphase
      rw [hphase] at h
      exact ⟨h.1, hold h.2⟩
    · rename_i old released hphase
      rw [hphase] at h
      exact ⟨h.1, hold h.2⟩
  rw [CommitsTo] at hsame
  cases o with
  | readPage id =>
    rw [hpre.1] at hsame
    exact hsame.elim
  | writePage id data =>
    obtain ⟨v, hphase, -⟩ := hpre
    rw [hphase] at hsame
    simp only [WriterPost, hphase] at hpost
    split at hpost
    · rename_i hid
      subst hpost
      exact ⟨hsame.1, hsame.2, hheader hid⟩
    · subst hpost
      rw [CommitsTo, Work.setPage, hphase]
      exact hsame
  | removePage id =>
    obtain rfl : w' = w := hpost
    exact hsame
  | syncData =>
    obtain ⟨v, hphase⟩ := hpre
    rw [hphase] at hsame
    simp only [WriterPost, hphase] at hpost
    subst hpost
    exact hsame.2
  | allocatePageId =>
    rw [show w.phase = .building from hpre] at hsame
    exact hsame.elim
  | nextPageId =>
    obtain ⟨-, rfl⟩ := hpost
    exact hsame
  | freePage id transaction =>
    obtain ⟨old, released, hphase, -⟩ := hpre
    rw [hphase] at hsame
    simp only [WriterPost, hphase] at hpost
    subst hpost
    exact hsame
  | loadHeader =>
    obtain ⟨-, rfl⟩ := hpost
    exact hsame
  | swap header =>
    obtain ⟨v, hphase, -⟩ := hpre
    rw [hphase] at hsame
    simp only [WriterPost, hphase] at hpost
    subst hpost
    exact hsame
  | loadSnapshot => exact hpre.elim
  | register transaction => exact hpre.elim
  | deregister transaction => exact hpre.elim

namespace Life

variable {s s' : Life} {readers : List Version}

/-- The commits before the one that is running are still there if its header is. -/
theorem MayHold.next (h : s.MayHold s.current) {inserts : List (Key × Value)} :
    s.acked <+: s.current ++ [inserts] := by
  rcases h with heq | ⟨-, hprefix⟩
  · rw [← heq]
    exact List.prefix_append _ _
  · exact hprefix.trans (List.prefix_append _ _)

/-- More headers have been written. -/
theorem MayHold.mono (h : s.MayHold commits) {issued : List Commits} (hissued : s.issued ⊆ issued) :
    MayHold { s with issued } commits :=
  h.imp_right fun ⟨hmem, hprefix⟩ => ⟨hissued hmem, hprefix⟩

/-- An operation of an insertion. -/
theorem Fits.performInsert (h : Fits env s w readers) {o : Op}
    {k : o.Answer → Call WriteTransaction} {inserts : List (Key × Value)} {a : o.Answer}
    {db' : DatabaseState} (hprocess : s.process = .inserting (.perform o k) inserts)
    (hexec : execute env o s.db = (.ok a, db')) :
    ∃ w', Fits env { s with
      db := db'
      process := .inserting (k a) inserts
      pages := o.data ++ s.pages } w' readers := by
  have hfits := h.process
  rw [hprocess] at hfits
  obtain ⟨hphase, hmap, hpre, hrest⟩ := hfits
  have hstep := h.owned.perform hpre fun _ e rest _ v hv => absurd hv List.not_mem_nil
  rw [hexec] at hstep
  obtain ⟨w', hpost, howned⟩ := hstep
  obtain ⟨hphase', hbase⟩ := building_post hphase hpre hpost
  exact ⟨w', howned, h.readers, h.stored.perform h.owned hpre hexec hpost howned, h.current,
    hphase', hbase ▸ hmap, hrest a w' hpost⟩

/-- An operation of a commit. -/
theorem Fits.performCommit (h : Fits env s w readers) {o : Op} {k : o.Answer → Call Unit}
    {inserts : List (Key × Value)} {a : o.Answer} {db' : DatabaseState}
    (hprocess : s.process = .committing (.perform o k) inserts)
    (hexec : execute env o s.db = (.ok a, db')) :
    ∃ w', Fits env { s with
      db := db'
      process := .committing (k a) inserts
      issued := if o.IsHeaderWrite then (s.current ++ [inserts]) :: s.issued else s.issued
      pages := o.data ++ s.pages } w' readers := by
  have hfits := h.process
  rw [hprocess] at hfits
  obtain ⟨hcommits, hpre, hrest⟩ := hfits
  have hstep := h.owned.perform hpre fun _ e rest _ v hv => absurd hv List.not_mem_nil
  rw [hexec] at hstep
  obtain ⟨w', hpost, howned⟩ := hstep
  obtain ⟨issued, hissued⟩ : ∃ issued, issued = if o.IsHeaderWrite then
      (s.current ++ [inserts]) :: s.issued else s.issued := ⟨_, rfl⟩
  rw [← hissued]
  -- what may be on disk only grows, by the inserts of this commit when its header is written
  have hsubset : s.issued ⊆ issued := by
    rw [hissued]
    split
    · exact List.subset_cons_self _ _
    · exact List.Subset.refl _
  refine ⟨w', howned, h.readers, ?_, h.current.mono hsubset, ?_, hrest a w' hpost⟩
  · refine (h.stored.perform h.owned hpre hexec hpost howned).mono (List.Subset.refl _) ?_
    rintro u ⟨commits, hmay, hmap⟩
    exact ⟨commits, hmay.mono hsubset, hmap⟩
  · refine hcommits.post hpre hpost (fun hmay => hmay.mono hsubset) fun hheader => Or.inr ⟨?_, ?_⟩
    · rw [hissued, if_pos hheader]
      exact List.mem_cons_self
    · exact h.current.next

/-- The commit has returned. -/
theorem Fits.committed (h : Fits env s w readers) {inserts : List (Key × Value)}
    (hprocess : s.process = .committing (.ret ()) inserts) :
    Fits env { s with
      process := .idle
      current := s.current ++ [inserts]
      acked := s.current ++ [inserts] } w.restart readers := by
  have hfits := h.process
  rw [hprocess] at hfits
  obtain ⟨hcommits, old, released, hphase⟩ := hfits
  rw [CommitsTo, hphase] at hcommits
  refine ⟨h.owned.restart, h.readers, h.stored.restart ?_ ?_ ?_, Or.inl rfl, rfl, hcommits.1⟩
  · rw [hphase]
    trivial
  · rw [Work.lasting, hphase]
  · intro u hunsynced
    rw [hphase] at hunsynced
    exact hunsynced.elim

/-- Whatever the phase, what a crash may leave is a commit that may be found. -/
theorem Fits.found (h : Fits env s w readers) {u : Version}
    (hu : u = w.lasting.2 ∨
      Found (fun u => ∃ commits, s.MayHold commits ∧ u.map = commits.map) w u) :
    ∃ commits, s.MayHold commits ∧ u.map = commits.map := by
  have hcurrent : ∀ {v : Version}, v.map = s.current.map →
      ∃ commits, s.MayHold commits ∧ v.map = commits.map := fun hmap =>
    ⟨s.current, h.current, hmap⟩
  have hfits := h.process
  have hlasting : w.phase = .building → w.lasting.2 = w.base := fun hphase => by
    rw [Work.lasting, hphase]
  have hnone : w.phase = .building → w.phase ≠ .issued u := fun hphase hissued =>
    absurd (hphase.symm.trans hissued) (by simp)
  -- what survives is the version on disk, one that an earlier crash may have left, or the one
  -- whose header is on its way
  rcases hu with rfl | ⟨-, hu⟩ | hissued
  · cases hprocess : s.process with
    | idle =>
      rw [hprocess] at hfits
      exact hcurrent (hlasting hfits.1 ▸ hfits.2)
    | between tx inserts =>
      rw [hprocess] at hfits
      exact hcurrent (hlasting hfits.2.ok.inv.phase ▸ hfits.1)
    | inserting rest inserts =>
      rw [hprocess] at hfits
      exact hcurrent (hlasting hfits.1 ▸ hfits.2.1)
    | committing rest inserts =>
      rw [hprocess] at hfits
      obtain ⟨hcommits, -⟩ := hfits
      rw [CommitsTo] at hcommits
      rw [Work.lasting]
      split at hcommits
      · exact hcommits.elim
      · rename_i v hphase
        rw [hphase]
        exact hcurrent hcommits.1
      · rename_i v hphase
        rw [hphase]
        exact hcurrent hcommits.1
      · rename_i v hphase
        rw [hphase]
        exact ⟨_, hcommits.2, hcommits.1⟩
      · rename_i old released hphase
        rw [hphase]
        exact ⟨_, hcommits.2, hcommits.1⟩
  · exact hu
  · -- the header of the commit that is running has been written
    cases hprocess : s.process with
    | idle =>
      rw [hprocess] at hfits
      exact absurd hissued (hnone hfits.1)
    | between tx inserts =>
      rw [hprocess] at hfits
      exact absurd hissued (hnone hfits.2.ok.inv.phase)
    | inserting rest inserts =>
      rw [hprocess] at hfits
      exact absurd hissued (hnone hfits.1)
    | committing rest inserts =>
      rw [hprocess] at hfits
      obtain ⟨hcommits, -⟩ := hfits
      rw [CommitsTo, hissued] at hcommits
      exact ⟨_, hcommits.2.2, hcommits.2.1⟩

/-- A reader that begins reads the current version. -/
theorem beginRead_base {db : DatabaseState} (howned : Owned env db w readers []) :
    ∃ db₁, Database.beginRead.run (execute env) db = (.ok w.base.reader, db₁) ∧
      ∀ key, ∃ db₂, (w.base.reader.read key).run (execute env) db₁ =
        (.ok (w.base.map key), db₂) := by
  obtain ⟨db₁, hbegin, howned₁, -⟩ := howned.beginRead
  refine ⟨db₁, hbegin, fun key => ?_⟩
  obtain ⟨db₂, hrun, -⟩ := howned₁.read (List.mem_append_left _ List.mem_cons_self) key
  exact ⟨db₂, hrun⟩

theorem shows_base {db : DatabaseState} (howned : Owned env db w readers [])
    (hmap : w.base.map = commits.map) : Shows env db commits := by
  obtain ⟨db₁, hbegin, hread⟩ := beginRead_base howned
  exact ⟨_, db₁, hbegin, hmap ▸ hread⟩

theorem map_of_shows {db : DatabaseState} (howned : Owned env db w readers [])
    (hshows : Shows env db commits) : w.base.map = commits.map := by
  obtain ⟨db₁, hbegin, hread⟩ := beginRead_base howned
  obtain ⟨r, db₁', hbegin', hread'⟩ := hshows
  rw [hbegin, Prod.mk.injEq, Except.ok.injEq] at hbegin'
  obtain ⟨rfl, rfl⟩ := hbegin'
  funext key
  obtain ⟨db₂, hrun⟩ := hread key
  obtain ⟨db₂', hrun'⟩ := hread' key
  exact Except.ok.inj (Prod.mk.inj (hrun.symm.trans hrun')).1

/-- **After a crash** the file opens, on a commit it may hold. -/
theorem Fits.recovers (h : Fits env s w readers) (hdistinct : Distinct env s.pages)
    {survivors : List (ℕ × Bytes)}
    (hsurvivors : survivors.Sublist s.db.pageIo.fileHandler.pending) (evicts : ℕ → PageId → Bool) :
    ∃ db' w' commits, Database.openExisting env (s.fileAfter survivors) evicts = .ok db' ∧
      s.MayHold commits ∧ w'.phase = .building ∧ w'.base.map = commits.map ∧
      Owned env db' w' [] [] ∧
      Stored env s.pages (fun u => ∃ commits, s.MayHold commits ∧ u.map = commits.map) db' w' := by
  obtain ⟨db', w', hopen, hphase, howned, hstored, hfound⟩ :=
    h.stored.recovers h.owned hdistinct hsurvivors evicts
  obtain ⟨commits, hmay, hmap⟩ := h.found hfound
  exact ⟨db', w', commits, hopen, hmay, hphase, hmap, howned,
    hstored.mono (List.Subset.refl _) fun u hu => h.found (Or.inr hu)⟩

/-- **Every step keeps it.** -/
theorem Fits.step (henv : env.debugAssertions = true) (h : Fits env s w readers)
    (hdistinct : Distinct env s.pages) (hstep : Step env s s') :
    ∃ w' readers', Fits env s' w' readers' := by
  cases hstep with
  | beginRead hrun =>
    obtain ⟨db', hbegin, howned, hsame⟩ := h.owned.beginRead
    rw [hbegin, Prod.mk.injEq, Except.ok.injEq] at hrun
    obtain ⟨rfl, rfl⟩ := hrun
    refine ⟨w, _, howned, ?_, h.stored.congr hsame.fileHandler (by rw [hsame.allocator]),
      h.current, h.process⟩
    rw [List.map_cons, ← h.readers]
  | readPage =>
    exact ⟨w, readers, h.owned.keeps (keeps_readPage env _ _).1, h.readers,
      h.stored.congr (keeps_readPage env _ _).2 rfl, h.current, h.process⟩
  | dropReader hreaders hrun =>
    rw [h.readers] at hreaders
    obtain ⟨before, rest, rfl, rfl, hrest⟩ := List.map_eq_append_iff.mp hreaders
    obtain ⟨v, after, rfl, rfl, rfl⟩ := List.map_eq_cons_iff.mp hrest
    obtain ⟨db', hdrop, howned, hsame⟩ := h.owned.dropReader
    rw [hdrop, Prod.mk.injEq] at hrun
    obtain ⟨-, rfl⟩ := hrun
    exact ⟨w, _, howned, List.map_append.symm,
      h.stored.congr hsame.fileHandler (by rw [hsame.allocator]), h.current, h.process⟩
  | beginWrite hprocess hrun =>
    have hfits := h.process
    rw [hprocess] at hfits
    obtain ⟨hphase, hmap⟩ := hfits
    obtain ⟨rfl, hworking⟩ := h.owned.beginWrite hrun
    refine ⟨_, readers, h.owned.restart, h.readers, h.stored.restart ?_ ?_ fun _ _ hu => hu,
      h.current, hmap, ?_⟩
    · rw [hphase]
      trivial
    · rw [Work.lasting, hphase]
    · rw [Commits.map_nil, ← hmap]
      exact hworking
  | insert hprocess =>
    have hfits := h.process
    rw [hprocess] at hfits
    obtain ⟨hmap, hworking⟩ := hfits
    refine ⟨w, readers, h.owned, h.readers, h.stored, h.current, hworking.ok.inv.phase, hmap, ?_⟩
    refine ((hworking.insert_sat henv _ _).faults fun _ _ => trivial).mono ?_
    rintro tx' w' ⟨hworking', -⟩
    rw [Commits.map_insert]
    exact hworking'
  | performInsert hprocess hexec =>
    obtain ⟨w', h'⟩ := h.performInsert hprocess hexec
    exact ⟨w', readers, h'⟩
  | inserted hprocess =>
    have hfits := h.process
    rw [hprocess] at hfits
    exact ⟨w, readers, h.owned, h.readers, h.stored, h.current, hfits.2⟩
  | commit hprocess hpages =>
    have hfits := h.process
    rw [hprocess] at hfits
    obtain ⟨hmap, hworking⟩ := hfits
    obtain ⟨v, hbuilds, hmap'⟩ := hworking.ok.builds
    refine ⟨_, readers, h.owned.plan hworking hbuilds, h.readers,
      h.stored.plan hworking.ok.inv.phase v, h.current, ⟨hmap, hmap'⟩, ?_⟩
    refine (commit_sat hbuilds hworking.ok.inv h.owned.stands.header hworking.failed hpages
      (Or.inr trivial)).mono ?_
    rintro _ w' rfl
    exact ⟨_, _, rfl⟩
  | performCommit hprocess hexec =>
    obtain ⟨w', h'⟩ := h.performCommit hprocess hexec
    exact ⟨w', readers, h'⟩
  | committed hprocess => exact ⟨_, readers, h.committed hprocess⟩
  | dropWriter hprocess =>
    have hfits := h.process
    rw [hprocess] at hfits
    exact ⟨w, readers, h.owned, h.readers, h.stored, h.current, hfits.2.ok.inv.phase, hfits.1⟩
  | crash hsurvivors hopen hcommits hshows =>
    obtain ⟨db', w', -, hopen', -, hphase, -, howned, hstored⟩ :=
      h.recovers hdistinct hsurvivors _
    rw [hopen', Except.ok.injEq] at hopen
    subst hopen
    exact ⟨w', [], howned, rfl, hstored, hcommits, hphase, map_of_shows howned hshows⟩

/-- The pages of a file in use only become more. -/
theorem Step.pages (h : Step env s s') : s.pages ⊆ s'.pages := by
  cases h with
  | performInsert => exact List.subset_append_right _ _
  | performCommit => exact List.subset_append_right _ _
  | _ => exact List.Subset.refl _

theorem fits_fresh {pageSize : ℕ} {page : Bytes} {db : DatabaseState}
    (h : Fresh env pageSize page db) :
    Fits env (start db) (.opened pageSize (DbHeader.initial pageSize (env.checksumPage page))
      (.initial env page) (.initial page)) [] where
  owned := h.owned.keeps keeps_syncData
  readers := rfl
  stored := h.stored
  current := Or.inl rfl
  process := ⟨rfl, rfl⟩

/-- **Along any run from a new database** in which no two pages have the same checksum. -/
theorem Run.fits (henv : env.debugAssertions = true) {pageSize : ℕ}
    {evicts : ℕ → PageId → Bool} {db : DatabaseState}
    (hnew : Database.openNew env pageSize evicts = .ok db) (hrun : Run env (start db) s)
    (hdistinct : Distinct env s.pages) : ∃ w readers, Fits env s w readers := by
  induction hrun with
  | refl =>
    obtain ⟨page, hfresh⟩ := openNew_ok hnew
    exact ⟨_, [], fits_fresh hfresh⟩
  | tail _ hstep ih =>
    have hbefore : Distinct env _ := fun page hpage page' hpage' =>
      hdistinct page (hstep.pages hpage) page' (hstep.pages hpage')
    obtain ⟨w, readers, h⟩ := ih hbefore
    exact h.step henv hbefore hstep

end Life

/-- **Crash atomicity and durability.** Whenever the process crashes, and whatever has
reached the file, `open_existing` succeeds, and its readers see the map of the last commit
that returned or of one built on it whose header had been written. -/
theorem crash_recovers (henv : env.debugAssertions = true) {pageSize : ℕ}
    {evicts : ℕ → PageId → Bool} {db : DatabaseState}
    (hnew : Database.openNew env pageSize evicts = .ok db) {s : Life}
    (hrun : Life.Run env (.start db) s) (hdistinct : Distinct env s.pages)
    {survivors : List (ℕ × Bytes)}
    (hsurvivors : survivors.Sublist s.db.pageIo.fileHandler.pending)
    (evicts' : ℕ → PageId → Bool) :
    ∃ db' commits, Database.openExisting env (s.fileAfter survivors) evicts' = .ok db' ∧
      s.MayHold commits ∧ Shows env db' commits := by
  obtain ⟨w, readers, h⟩ := hrun.fits henv hnew hdistinct
  obtain ⟨db', w', commits, hopen, hmay, -, hmap, howned, -⟩ :=
    h.recovers hdistinct hsurvivors evicts'
  exact ⟨db', commits, hopen, hmay, Life.shows_base howned hmap⟩

end

/-! ### A crash in the first commit -/

/-- A build with debug assertions, and a checksum that sums up the first three words of a
page. -/
def Env.summing : Env where
  checksumPage page :=
    let header := readPod LeafHeader page 0
    BitVec.ofNat 128
      (header.nodeType.toNat + header.numPairs.toNat + header.kvPairsEndOffset.toNat)
  debugAssertions := true

/-- The first three words of a header page. -/
theorem readPod_headerPage {header : DbHeader} (hsound : Sound minPageSize header) :
    readPod LeafHeader (headerPage header) 0 =
      ⟨.ofNat (ofLE headerMagic.toList), header.activeSlot, header.pageSize⟩ := by
  have hfits : 0 + (Pod.encode header).length ≤
      (List.replicate header.pageSize.toNat (0 : UInt8)).length := by
    rw [List.length_replicate, hsound.pageSize, Pod.length_encode]
    decide
  -- the first 24 bytes of the page: magic, active slot and page size
  have hfront : slice (headerPage header) 0 24 = headerMagic.toList ++
      (Pod.encode header.activeSlot ++ Pod.encode header.pageSize) := by
    have hinside := slice_splice_inside hfits (show 0 + 24 ≤ _ by rw [Pod.length_encode]; decide)
    have hencode : Pod.encode header = (header.magic.toList ++
        (Pod.encode header.activeSlot ++ Pod.encode header.pageSize)) ++
          Pod.encode header.commitSlots := by
      rw [List.append_assoc, List.append_assoc]
      rfl
    have hlength : (header.magic.toList ++
        (Pod.encode header.activeSlot ++ Pod.encode header.pageSize)).length = 24 := by
      rw [List.length_append, List.length_append, Pod.length_encode, Pod.length_encode,
        Vector.length_toList]
      rfl
    rw [Nat.add_zero] at hinside
    rw [headerPage, hinside, hencode, slice, List.drop_zero, ← hlength, List.take_left, hsound.magic]
  have hmagic : headerMagic.toList.length = 8 := rfl
  have hactive : (Pod.encode header.activeSlot).length = 8 := Pod.length_encode _
  rw [readPod, size_leafHeader, hfront]
  change LeafHeader.mk (Pod.decode (List.take 8 _)) (Pod.decode (List.take 8 (List.drop 8 _)))
    (Pod.decode (List.drop 8 (List.drop 8 _))) = _
  rw [List.take_left' hmagic, List.drop_left' hmagic, List.take_left' hactive,
    List.drop_left' hactive, Pod.decode_encode, Pod.decode_encode]
  rfl

theorem checksum_headerPage {header : DbHeader} (hsound : Sound minPageSize header) :
    Env.summing.checksumPage (headerPage header) = BitVec.ofNat 128
      ((UInt64.ofNat (ofLE headerMagic.toList)).toNat + header.activeSlot.toNat + minPageSize) := by
  rw [Env.summing]
  dsimp only
  rw [readPod_headerPage hsound, hsound.pageSize]

theorem checksum_zeros : Env.summing.checksumPage (List.replicate minPageSize 0) = 0 := by
  have hzeros : slice (List.replicate minPageSize 0) 0 24 = List.replicate 24 (0 : UInt8) := by
    rw [slice, List.drop_zero, List.take_replicate]
    rfl
  rw [Env.summing]
  dsimp only
  rw [readPod, size_leafHeader, hzeros]
  rfl

theorem checksum_leaf {page : Bytes} {db : DatabaseState}
    (h : Fresh .summing minPageSize page db) :
    Env.summing.checksumPage page = BitVec.ofNat 128 4096 := by
  have hcount : (readPod LeafHeader page 0).numPairs.toNat = 0 := h.leaf.holds.count
  rw [Env.summing]
  dsimp only
  rw [h.leaf.kind, hcount, h.room]
  rfl

/-- The pages of the first commit have different checksums. -/
theorem distinct_summing {page : Bytes} {db : DatabaseState}
    (h : Fresh .summing minPageSize page db) {header header' : DbHeader}
    (hsound : Sound minPageSize header) (hactive : header.activeSlot = 0)
    (hsound' : Sound minPageSize header') (hactive' : header'.activeSlot = 1) :
    Distinct .summing
      [headerPage header', List.replicate minPageSize 0, headerPage header, page] := by
  have hheader := checksum_headerPage hsound
  have hheader' := checksum_headerPage hsound'
  rw [hactive] at hheader
  rw [hactive'] at hheader'
  have hleaf := checksum_leaf h
  have hzeros := checksum_zeros
  intro a ha b hb hab
  simp only [List.mem_cons, List.not_mem_nil, or_false] at ha hb
  rcases ha with rfl | rfl | rfl | rfl <;> rcases hb with rfl | rfl | rfl | rfl <;>
    first
    | rfl
    | (simp only [hheader, hheader', hleaf, hzeros] at hab
       exact absurd hab (by decide))

/-- The commit of a transaction with nothing done, up to the header. -/
theorem commit_ops {tx : WriteTransaction} (hfailed : tx.failed = false) :
    tx.commit [] = .perform .loadHeader fun header => .perform .nextPageId fun next =>
      liftM (header.withCommit tx.rootPage tx.rootPageChecksum tx.transaction next).encodePage >>=
        fun page => .perform (.writePage headerPageId page) fun _ => .perform .syncData fun _ =>
          .perform (.swap (header.withCommit tx.rootPage tx.rootPageChecksum tx.transaction next))
            fun _ => freePages tx.transaction tx.freedPages := by
  rw [WriteTransaction.commit, hfailed, if_neg Bool.false_ne_true, publish]
  simp only [bind_assoc]
  rfl

theorem crash_recovers_firstCommit : ∃ db s survivors db' commits,
    Database.openNew .summing minPageSize (fun _ _ => false) = .ok db ∧
      Life.Run .summing (.start db) s ∧ s.acked = [] ∧ s.issued = [[[]]] ∧ survivors ≠ [] ∧
      Database.openExisting .summing (s.fileAfter survivors) (fun _ _ => false) = .ok db' ∧
      s.MayHold commits ∧ Shows .summing db' commits := by
  obtain ⟨db, hnew⟩ := openNew_of_le .summing (fun _ _ => false) (le_refl minPageSize) (by decide)
  obtain ⟨page, hfresh⟩ := openNew_ok hnew
  obtain ⟨header, heq⟩ : ∃ header,
      header = DbHeader.initial minPageSize (Env.summing.checksumPage page) := ⟨_, rfl⟩
  have hstored : Stored .summing db.firstPages (fun _ => False) (Life.start db).db _ := hfresh.stored
  have hsound : Sound minPageSize header := heq ▸ hstored.sound
  have hcommit : (Life.start db).db.commit.header = header := by
    rw [Life.start, hfresh.parts, heq]
    rfl
  -- a transaction is begun, and its commit is called
  have hfirst : header.currentSlot.transactionId.toNat + 1 < 2 ^ 64 := by
    rw [heq]
    change (0 : TransactionId).toNat + 1 < 2 ^ 64
    decide
  obtain ⟨tx, hbegin, hfailed, hdirty⟩ : ∃ tx : WriteTransaction,
      (Database.beginWrite (Life.start db).db.pageIo.pageSize).run (execute .summing)
        (Life.start db).db = (.ok tx, (Life.start db).db) ∧
      tx.failed = false ∧ tx.dirtyPages = [] :=
    ⟨_, beginWrite_of_lt .summing (Life.start db).db (by rwa [hcommit]), rfl, rfl⟩
  have hrun : Life.Run .summing (.start db) { Life.start db with
      process := .committing (tx.commit []) [] } :=
    .tail (.single (.beginWrite rfl hbegin)) (.commit rfl (by rw [hdirty]))
  rw [commit_ops hfailed] at hrun
  -- the header is written
  obtain ⟨header', hheader'⟩ : ∃ header', header' = header.withCommit tx.rootPage
      tx.rootPageChecksum tx.transaction (Life.start db).db.allocator.nextPageId := ⟨_, rfl⟩
  have hsound' : Sound minPageSize header' := hheader' ▸ hsound.withCommit _ _ _ _
  have hactive' : header'.activeSlot = 1 := by
    rw [hheader', heq]
    change (0 : UInt64) ^^^ 1 = 1
    decide
  obtain ⟨hencode, hlength⟩ := encodePage_of_le header' (by rw [hsound'.pageSize]; decide)
    (by rw [hsound'.pageSize]; decide)
  rw [hsound'.pageSize] at hlength
  have hzero : headerPageId.toNat = 0 := rfl
  obtain ⟨pageIo, hwrite⟩ : ∃ pageIo, (Life.start db).db.pageIo.writePage .summing headerPageId
      (headerPage header') = (.ok (), pageIo) :=
    writePage_of_le (hlength.trans hfresh.size.symm) (by rw [hzero, Nat.zero_mul]; decide)
      (by rw [hzero, Nat.zero_mul]; exact Nat.zero_le _)
  have hexec : execute .summing (.writePage headerPageId (headerPage header')) (Life.start db).db =
      (.ok (), { (Life.start db).db with pageIo }) := by
    rw [execute, hwrite]
  have hload := hrun.tail (.performCommit rfl (show execute .summing .loadHeader _ = _ from rfl))
  have hnext := hload.tail (.performCommit rfl (show execute .summing .nextPageId _ = _ from rfl))
  dsimp only at hnext
  rw [hcommit, ← hheader', hencode] at hnext
  have hissued := hnext.tail (.performCommit rfl hexec)
  obtain ⟨-, -, -, hfile⟩ := writePage_ok hwrite
  have hpages : db.firstPages = [List.replicate minPageSize 0, headerPage header, page] := by
    rw [DatabaseState.firstPages, hfresh.file, hfresh.size, heq]
    rfl
  obtain ⟨db', commits, hopen, hmay, hshows⟩ := crash_recovers rfl hnew hissued
    (by
      change Distinct .summing (headerPage header' :: db.firstPages)
      rw [hpages]
      exact distinct_summing hfresh hsound (by rw [heq]; rfl) hsound' hactive')
    (List.Sublist.refl _) fun _ _ => false
  refine ⟨db, _, _, db', commits, hnew, hissued, rfl, rfl, ?_, hopen, hmay, hshows⟩
  rw [hfile]
  exact List.append_ne_nil_of_right_ne_nil _ (List.cons_ne_nil _ _)

end KvRaft.Kv
