import KvRaft.Kv.Interleaving

/-!
# Input and output that fails

A device on which any read of a page, extension of the file, write of a page or sync may
fail (`faulty`): a write may have come to the file in part, an extension that fails has
cost a page id, a sync that fails has done nothing the process can see. Which operations
fail is up to a list, any list.

A transaction that has met an error changes nothing (`failed_transaction_changes_nothing`):

* once an insertion has returned an error, the transaction refuses every call;
* when a commit returns an error, the version before it is still the current one, for the
  readers there are and for the transactions to come;
* no page of that version or of a version that is being read has been written to.
-/

namespace KvRaft.Kv

open Ordered

/-! ### The device -/

/-- The pages an operation writes to. -/
def Op.written : Op → List PageId
  | .writePage pageId _ => [pageId]
  | _ => []

/-- What an operation leaves behind if its input or output fails, after `k` bytes if it
writes; `none` if it does not come to any input or output. -/
def afterIoError (env : Env) (k : ℕ) (s : DatabaseState) : Op → Option DatabaseState
  | .readPage pageId =>
    match s.pageIo.pageCache.get pageId with
    | (some _, _) => none
    | (none, pageCache) =>
      match s.pageIo.readFile env pageId with
      | .error .panic => none
      | _ => some { s with pageIo := { s.pageIo with pageCache } }
  | .writePage pageId data =>
    if data.length ≠ s.pageIo.pageSize then
      none
    else
      match s.pageIo.fileHandler.writeAtPage env pageId s.pageIo.pageSize (data.take k) with
      | .ok fileHandler => some { s with pageIo := { s.pageIo with fileHandler } }
      | .error _ => none
  | .syncData => some s
  | .allocatePageId =>
    match PageAllocator.reusable s.allocator s.readTracker with
    | some _ => none
    | none =>
      let next := s.allocator.nextPageId
      if next.toNat + 1 = 2 ^ 64 then
        none
      else if s.allocator.reservedPageCount < (next + 1).toNat then
        some { s with allocator := { s.allocator with nextPageId := next + 1 } }
      else
        none
  | _ => none

/-- A database on a device that fails. -/
structure Device where
  db : DatabaseState
  /-- Which of the operations to come fail, and after how many bytes. -/
  failures : List (Option ℕ)
  /-- The pages that have been written to. -/
  written : List PageId

/-- Operations on a device that fails. -/
def faulty (env : Env) : Handler signature Fault Device := fun o s =>
  match s.failures.head?.join.bind fun k => afterIoError env k s.db o with
  | some db =>
    (.error (.error (.ioError .other)), ⟨db, s.failures.tail, o.written ++ s.written⟩)
  | none =>
    let (result, db) := execute env o s.db
    (result, ⟨db, s.failures.tail, o.written ++ s.written⟩)

section

variable {env : Env} {db db' : DatabaseState} {w : Work} {readers starting : List Version}

/-- What an operation on the device does: it fails, or it does what it should. -/
theorem faulty_cases (env : Env) (o : Op) (s : Device) :
    (∃ k db', afterIoError env k s.db o = some db' ∧ faulty env o s =
      (.error (.error (.ioError .other)), ⟨db', s.failures.tail, o.written ++ s.written⟩)) ∨
    faulty env o s = ((execute env o s.db).1,
      ⟨(execute env o s.db).2, s.failures.tail, o.written ++ s.written⟩) := by
  rw [faulty]
  cases hfail : s.failures.head?.join.bind fun k => afterIoError env k s.db o with
  | none => exact Or.inr rfl
  | some db' =>
    obtain ⟨k, -, hafter⟩ := Option.bind_eq_some_iff.mp hfail
    exact Or.inl ⟨k, db', hafter, rfl⟩

/-- Code that comes to no input or output. -/
def Quiet {α : Type} : Call α → Prop
  | .ret _ => True
  | .fault _ => True
  | .perform o k => (∀ env k db, afterIoError env k db o = none) ∧ ∀ a, Quiet (k a)

/-- Where nothing can fail, the device is the database. -/
theorem run_faulty_eq {α : Type} (env : Env) (p : Call α) (s : Device) (h : s.failures = [] ∨ Quiet p) :
    (p.run (faulty env) s).1 = (p.run (execute env) s.db).1 ∧
      (p.run (faulty env) s).2.db = (p.run (execute env) s.db).2 := by
  induction p generalizing s with
  | ret a => exact ⟨rfl, rfl⟩
  | fault e => exact ⟨rfl, rfl⟩
  | perform o k ih =>
    have hstep : faulty env o s = ((execute env o s.db).1,
        ⟨(execute env o s.db).2, s.failures.tail, o.written ++ s.written⟩) := by
      rw [faulty]
      rcases h with h | ⟨h, -⟩
      · rw [h]
        rfl
      · cases s.failures.head?.join with
        | none => rfl
        | some k => rw [Option.bind_some, h]
    rw [Program.run, Program.run, hstep]
    rcases execute env o s.db with ⟨e | a, db'⟩
    · exact ⟨rfl, rfl⟩
    · refine ih a _ (h.imp (fun h => ?_) fun h => h.2 a)
      rw [h]
      rfl

/-! ### Who owns which page after a failure -/

/-- A part of a page is written. -/
theorem keeps_partialWrite {pageIo : PageIo} {pageId : PageId} {part : Bytes}
    {fileHandler : FileHandler} (hlength : part.length ≤ pageIo.pageSize)
    (hwrite : pageIo.fileHandler.writeAtPage env pageId pageIo.pageSize part = .ok fileHandler) :
    pageIo.Keeps {pageId} { pageIo with fileHandler } := by
  obtain ⟨-, rfl⟩ := writeAtPage_inv hwrite
  exact ⟨rfl, fun id data hid hreads => hreads.write hid hlength (le_max_left _ _)⟩

/-- A page that could not be read. -/
theorem keeps_failedRead {k : ℕ} {pageId : PageId}
    (hafter : afterIoError env k db (.readPage pageId) = some db') :
    ∃ pageIo, db' = { db with pageIo } ∧ db.pageIo.Keeps ∅ pageIo := by
  rw [afterIoError, PageCache.get] at hafter
  dsimp only at hafter
  split at hafter
  · exact absurd hafter (by simp)
  split at hafter
  · exact absurd hafter (by simp)
  obtain rfl := Option.some.inj hafter
  rename_i heq _ _
  obtain ⟨-, rfl⟩ := Prod.mk.inj heq
  exact ⟨_, rfl, rfl, fun id d _ hreads => hreads.cache fun d' hd' => Or.inl hd'⟩

/-- Nothing but the header page has changed. -/
theorem Owned.keepsHeader (h : Owned env db w readers starting) {pageIo : PageIo}
    (hkeeps : db.pageIo.Keeps {headerPageId} pageIo) :
    Owned env { db with pageIo } w readers starting :=
  { h with
    pageSize := hkeeps.1.trans h.pageSize
    reads := fun id data hview => by
      refine hkeeps.2 id data (fun heq => ?_) (h.reads id data hview)
      rw [Set.mem_singleton_iff] at heq
      subst heq
      rw [h.hidden] at hview
      exact absurd hview (by simp) }

/-- **A failure costs a page id or the content of a page of the transaction**, and comes
before anything is published. -/
theorem Owned.ioError (h : Owned env db w readers starting) {o : Op} (hpre : WriterPre env w o)
    {k : ℕ} (hafter : afterIoError env k db o = some db') :
    Unpublished w ∧ ∃ view next, Owned env db' { w with view, next } readers starting := by
  cases o with
  | readPage id =>
    obtain ⟨hphase, -⟩ := hpre
    refine ⟨fun old released heq => absurd (hphase.symm.trans heq) (by simp), w.view, w.next, ?_⟩
    obtain ⟨pageIo, rfl, hkeeps⟩ := keeps_failedRead hafter
    exact h.keeps hkeeps
  | writePage id data =>
    obtain ⟨v, hphase, hid⟩ := hpre
    refine ⟨fun old released heq => absurd (hphase.symm.trans heq) (by simp), ?_⟩
    rw [afterIoError] at hafter
    split at hafter
    · exact absurd hafter (by simp)
    rename_i hlength
    split at hafter
    on_goal 2 => exact absurd hafter (by simp)
    rename_i fileHandler hwrite
    obtain rfl := Option.some.inj hafter
    have hkeeps := keeps_partialWrite (by rw [List.length_take]; omega) hwrite
    by_cases hheader : id = headerPageId
    · subst hheader
      exact ⟨w.view, w.next, h.keepsHeader hkeeps⟩
    · rw [if_neg hheader] at hid
      -- after a failed write nothing is known of the page, which no version reads
      have hunknown : ∀ d, (none : Option Bytes) = some d →
          Reads { db.pageIo with fileHandler } id d := fun d hd => absurd hd (by simp)
      exact ⟨_, w.next, h.setView hphase hid.1 hkeeps hunknown⟩
  | syncData =>
    obtain ⟨v, hphase⟩ := hpre
    obtain rfl := Option.some.inj hafter
    exact ⟨fun old released heq => absurd (hphase.symm.trans heq) (by simp), w.view, w.next, h⟩
  | allocatePageId =>
    have hphase : w.phase = .building := hpre
    refine ⟨fun old released heq => absurd (hphase.symm.trans heq) (by simp), w.view,
      w.next + 1, ?_⟩
    rw [afterIoError, ← h.next] at hafter
    dsimp only at hafter
    split at hafter
    · exact absurd hafter (by simp)
    split at hafter
    · exact absurd hafter (by simp)
    rename_i hoverflow
    split at hafter
    on_goal 2 => exact absurd hafter (by simp)
    obtain rfl := Option.some.inj hafter
    exact h.advance hphase (lt_add_one_of_no_overflow hoverflow).le _ rfl rfl
  | removePage id => exact absurd hafter (by simp [afterIoError])
  | nextPageId => exact absurd hafter (by simp [afterIoError])
  | freePage id transaction => exact absurd hafter (by simp [afterIoError])
  | loadSnapshot => exact hpre.elim
  | register transaction => exact hpre.elim
  | deregister transaction => exact hpre.elim
  | loadHeader => exact absurd hafter (by simp [afterIoError])
  | swap header => exact absurd hafter (by simp [afterIoError])

/-! ### The protocols on the device -/

/-- None of the pages is a page of one of the versions. -/
def Spares (versions : List Version) (written : List PageId) : Prop :=
  ∀ id ∈ written, ∀ v ∈ versions, id ∉ v.pages

/-- A transaction writes to its own pages and the header only. -/
theorem Owned.spares (h : Owned env db w readers []) {o : Op} (hpre : WriterPre env w o) :
    (o.written ≠ [] → Unpublished w) ∧ Spares (w.base :: readers) o.written := by
  cases o with
  | writePage id data =>
    obtain ⟨v, hphase, hid⟩ := hpre
    refine ⟨fun _ old released heq => absurd (hphase.symm.trans heq) (by simp),
      fun id' hmem v' hv' hin => ?_⟩
    obtain rfl := List.mem_singleton.mp hmem
    by_cases hheader : id' = headerPageId
    · subst hheader
      rcases List.mem_cons.mp hv' with rfl | hv'
      · exact h.stands.header hin
      · exact (h.shared v' (List.mem_append_left [] hv')).stands.header hin
    · rw [if_neg hheader] at hid
      rcases List.mem_cons.mp hv' with rfl | hv'
      · exact (h.used id' hid.1).base hin
      · exact (h.shared v' (List.mem_append_left [] hv')).unused id' hin hid.1
  | _ => exact ⟨fun hne => absurd rfl hne, fun id hid => absurd hid List.not_mem_nil⟩

/-- **The device answers what a write transaction relies on**, or fails and goes on from the
version the transaction started from. -/
theorem faulty_honours (env : Env) (base : Version) (readers : List Version) :
    (faulty env).Honours (writer env)
      (fun _ s => Aborted env base readers s.db ∧ Spares (base :: readers) s.written) fun s w =>
      (Owned env s.db w readers [] ∧ WorksOn base w) ∧ Spares (base :: readers) s.written := by
  rintro s w o ⟨⟨h, hbase⟩, hspares⟩ hpre
  obtain ⟨hunpublished, hown⟩ := h.spares hpre
  have hwritten : Spares (base :: readers) (o.written ++ s.written) := by
    intro id hid v hv
    rcases List.mem_append.mp hid with hid | hid
    · rw [← hbase (hunpublished (List.ne_nil_of_mem hid))] at hv
      exact hown id hid v hv
    · exact hspares id hid v hv
  rcases faulty_cases env o s with ⟨k, db', hafter, hop⟩ | hop
  · rw [hop]
    obtain ⟨hunpublished, view, next, howned⟩ := h.ioError hpre hafter
    exact ⟨⟨_, howned, hbase hunpublished⟩, hwritten⟩
  · rw [hop]
    have hstep := writer_honours env base readers s.db w o ⟨h, hbase⟩ hpre
    rcases hexec : execute env o s.db with ⟨e | a, db'⟩
    · rw [hexec] at hstep
      exact ⟨hstep, hwritten⟩
    · rw [hexec] at hstep
      obtain ⟨w', hpost, howned⟩ := hstep
      exact ⟨w', hpost, howned, hwritten⟩

/-- The device answers what a reader relies on, or fails. -/
theorem faulty_reading_honours (env : Env) (w : Work) (readers : List Version) :
    (faulty env).Honours (reading w.view)
      (fun e s => e = .error (.ioError .other) ∧ Owned env s.db w readers [])
      fun s _ => Owned env s.db w readers [] := by
  rintro s n o h ⟨id, rfl, page, hview⟩
  rcases faulty_cases env (.readPage id) s with ⟨k, db', hafter, hop⟩ | hop
  · rw [hop]
    obtain ⟨pageIo, rfl, hkeeps⟩ := keeps_failedRead hafter
    exact ⟨rfl, h.keeps hkeeps⟩
  · rw [hop]
    obtain ⟨db', hread, howned, -⟩ := h.readPage hview
    rw [hread]
    exact ⟨n + 1, ⟨hview, rfl⟩, howned⟩

/-- **Reading** a key of a version returns what its map holds, or fails. -/
theorem Owned.read_faulty (h : Owned env db w readers []) {v : Version} (hv : v ∈ readers)
    (key : Key) (failures : List (Option ℕ)) :
    match (v.reader.read key).run (faulty env) ⟨db, failures, []⟩ with
    | (.ok value, d) => value = v.map key ∧ Owned env d.db w readers []
    | (.error e, d) => e = .error (.ioError .other) ∧ Owned env d.db w readers [] := by
  have hstands := (h.shared v (List.mem_append_left [] hv)).stands
  have hresult := (get_sat (X := fun _ => False) (n := 0)
    (hstands.tree.depth_lt_maxDepth hstands.nodup) hstands.tree bot_le
    (WithTop.coe_lt_top key)).run (faulty_reading_honours env w readers)
    (s := ⟨db, failures, []⟩) h
  have hroot : v.reader.rootPageId = v.root.1 := rfl
  rw [ReadTransaction.read, hroot]
  rcases hrun : (Tree.get maxDepth v.root.1 key).run (faulty env) ⟨db, failures, []⟩ with
    ⟨e | a, d⟩
  · rw [hrun] at hresult
    exact hresult.resolve_left fun hfalse => hfalse.1
  · rw [hrun] at hresult
    obtain ⟨n, ⟨rfl, -⟩, howned⟩ := hresult
    exact ⟨rfl, howned⟩

/-- **Inserting** on the device. -/
theorem Owned.insert_faulty (henv : env.debugAssertions = true) {d : Device}
    (h : Owned env d.db w readers []) (hspares : Spares (w.base :: readers) d.written)
    {tx : WriteTransaction} {m : Key → Option Value} (hworking : Working env w tx m) (key : Key)
    (value : Value) :
    match (tx.insert env key value).run (faulty env) d with
    | (.ok tx', d') => Spares (w.base :: readers) d'.written ∧ ∃ w', Owned env d'.db w' readers [] ∧
        Working env w' tx' (assign m key value) ∧ w'.base = w.base
    | (.error e, d') => Spares (w.base :: readers) d'.written ∧
        (e = .panic ∨ Aborted env w.base readers d'.db) := by
  have hresult := (hworking.insert_sat henv key value).run (faulty_honours env w.base readers)
    ⟨⟨h, fun _ => rfl⟩, hspares⟩
  rcases hrun : (tx.insert env key value).run (faulty env) d with ⟨e | tx', d'⟩
  · rw [hrun] at hresult
    rcases hresult with ⟨hpanic, w', -, hspares'⟩ | ⟨haborted, hspares'⟩
    · exact ⟨hspares', Or.inl hpanic⟩
    · exact ⟨hspares', Or.inr haborted⟩
  · rw [hrun] at hresult
    obtain ⟨w', ⟨hworking', hbase⟩, ⟨howned, -⟩, hspares'⟩ := hresult
    exact ⟨hspares', w', howned, hworking', hbase⟩

/-- **Committing** on the device. -/
theorem Owned.commit_faulty {d : Device} (h : Owned env d.db w readers [])
    (hspares : Spares (w.base :: readers) d.written) {tx : WriteTransaction}
    {m : Key → Option Value} (hworking : Working env w tx m)
    {pages : List (PageId × DirtyPageSlot)} (hperm : pages.Perm tx.dirtyPages) :
    match (tx.commit pages).run (faulty env) d with
    | (.ok (), d') => Spares (w.base :: readers) d'.written ∧
        ∃ w', Owned env d'.db w' readers [] ∧ w'.base.map = m
    | (.error e, d') => Spares (w.base :: readers) d'.written ∧
        (e = .panic ∨ Aborted env w.base readers d'.db) := by
  obtain ⟨v, hbuilds, hmap⟩ := hworking.ok.builds
  have hsat := commit_sat hbuilds hworking.ok.inv h.stands.header hworking.failed hperm
    (encodable_panics w.header)
  have hresult := hsat.run (faulty_honours env w.base readers)
    ⟨⟨h.plan hworking hbuilds, fun _ => rfl⟩, hspares⟩
  rcases hrun : (tx.commit pages).run (faulty env) d with ⟨e | ⟨⟩, d'⟩
  · rw [hrun] at hresult
    rcases hresult with ⟨hpanic, w', -, hspares'⟩ | ⟨haborted, hspares'⟩
    · exact ⟨hspares', Or.inl hpanic⟩
    · exact ⟨hspares', Or.inr haborted⟩
  · rw [hrun] at hresult
    obtain ⟨w', rfl, ⟨howned, -⟩, hspares'⟩ := hresult
    exact ⟨hspares', _, howned, hmap⟩

/-- A transaction in which an insertion has returned an error refuses every call. -/
theorem refuses_of_failed {tx : WriteTransaction} (hfailed : tx.failed = true) (d : Device) :
    (∀ key value, (tx.insert env key value).run (faulty env) d =
      (.error (.error .transactionFailed), d)) ∧
    ∀ pages, (tx.commit pages).run (faulty env) d = (.error (.error .transactionFailed), d) := by
  constructor
  · intro key value
    rw [WriteTransaction.insert, hfailed, if_pos rfl]
    rfl
  · intro pages
    rw [WriteTransaction.commit, hfailed, if_pos rfl]
    rfl

end

/-! ### Using the device -/

/-- The call ends with `result` and leaves `db'` on a device that fails here and there. -/
def Ends {α : Type} (env : Env) (call : Call α) (db : DatabaseState) (result : Except Fault α)
    (db' : DatabaseState) : Prop :=
  ∃ failures d, call.run (faulty env) ⟨db, failures, []⟩ = (result, d) ∧ d.db = db'

theorem Ends.of_quiet {α : Type} {env : Env} {call : Call α} {db db' : DatabaseState}
    {result : Except Fault α} (h : Ends env call db result db') (hquiet : Quiet call) :
    call.run (execute env) db = (result, db') := by
  obtain ⟨failures, d, hrun, rfl⟩ := h
  obtain ⟨hresult, hdb⟩ := run_faulty_eq env call ⟨db, failures, []⟩ (Or.inr hquiet)
  rw [hrun] at hresult hdb
  exact Prod.ext hresult.symm hdb.symm

/-- A session on a device that fails. -/
structure Trial where
  session : Session
  /-- Whether an insertion of the open write transaction has returned an error. -/
  erred : Bool

namespace Trial

/-- A database that has just been opened. -/
def start (db : DatabaseState) : Trial := ⟨.start db, false⟩

/-- A public call that does not panic. -/
inductive Step (env : Env) : Trial → Trial → Prop
  | beginRead {s : Session} {erred : Bool} {r : ReadTransaction} {db' : DatabaseState}
      (hrun : Ends env Database.beginRead s.db (.ok r) db') :
      Step env ⟨s, erred⟩ ⟨{ s with db := db', readers := (r, s.committed) :: s.readers }, erred⟩
  | read {s : Session} {erred : Bool} {r : ReadTransaction} {snapshot : List (Key × Value)}
      {key : Key} {result : Except Fault (Option Value)} {db' : DatabaseState}
      (hreader : (r, snapshot) ∈ s.readers) (hrun : Ends env (r.read key) s.db result db') :
      Step env ⟨s, erred⟩ ⟨{ s with db := db' }, erred⟩
  /-- The drop of a read transaction. -/
  | dropReader {s : Session} {erred : Bool}
      {before after : List (ReadTransaction × List (Key × Value))} {r : ReadTransaction}
      {snapshot : List (Key × Value)} {db' : DatabaseState}
      (hreader : s.readers = before ++ (r, snapshot) :: after)
      (hrun : Ends env r.drop s.db (.ok ()) db') :
      Step env ⟨s, erred⟩ ⟨{ s with db := db', readers := before ++ after }, erred⟩
  | beginWrite {s : Session} {erred : Bool} {tx : WriteTransaction} {db' : DatabaseState}
      (hwriter : s.writer = none)
      (hrun : Ends env (Database.beginWrite s.db.pageIo.pageSize) s.db (.ok tx) db') :
      Step env ⟨s, erred⟩ ⟨{ s with db := db', writer := some (tx, []) }, false⟩
  | insert {s : Session} {erred : Bool} {tx tx' : WriteTransaction}
      {inserts : List (Key × Value)} {key : Key} {value : Value} {db' : DatabaseState}
      (hwriter : s.writer = some (tx, inserts))
      (hrun : Ends env (tx.insert env key value) s.db (.ok tx') db') :
      Step env ⟨s, erred⟩
        ⟨{ s with db := db', writer := some (tx', inserts ++ [(key, value)]) }, erred⟩
  /-- An insertion that returns an error. -/
  | insertFails {s : Session} {erred : Bool} {tx : WriteTransaction}
      {inserts : List (Key × Value)} {key : Key} {value : Value} {e : Error} {db' : DatabaseState}
      (hwriter : s.writer = some (tx, inserts))
      (hrun : Ends env (tx.insert env key value) s.db (.error (.error e)) db') :
      Step env ⟨s, erred⟩ ⟨{ s with db := db', writer := some (tx.invalidate, inserts) }, true⟩
  | commit {s : Session} {erred : Bool} {tx : WriteTransaction} {inserts : List (Key × Value)}
      {pages : List (PageId × DirtyPageSlot)} {db' : DatabaseState}
      (hwriter : s.writer = some (tx, inserts)) (hpages : pages.Perm tx.dirtyPages)
      (hrun : Ends env (tx.commit pages) s.db (.ok ()) db') :
      Step env ⟨s, erred⟩
        ⟨{ s with db := db', writer := none, committed := s.committed ++ inserts }, erred⟩
  /-- A commit that returns an error: the transaction is gone. -/
  | commitFails {s : Session} {erred : Bool} {tx : WriteTransaction}
      {inserts : List (Key × Value)} {pages : List (PageId × DirtyPageSlot)} {e : Error}
      {db' : DatabaseState} (hwriter : s.writer = some (tx, inserts))
      (hpages : pages.Perm tx.dirtyPages)
      (hrun : Ends env (tx.commit pages) s.db (.error (.error e)) db') :
      Step env ⟨s, erred⟩ ⟨{ s with db := db', writer := none }, erred⟩
  | dropWriter {s : Session} {erred : Bool} {tx : WriteTransaction} {inserts : List (Key × Value)}
      (hwriter : s.writer = some (tx, inserts)) :
      Step env ⟨s, erred⟩ ⟨{ s with writer := none }, erred⟩

/-- Any number of public calls. -/
def Run (env : Env) : Trial → Trial → Prop := Relation.ReflTransGen (Step env)

/-- How a session on the device follows the work on its database. -/
structure Follows (env : Env) (s : Trial) (w : Work) (rs : List (Version × List (Key × Value))) :
    Prop where
  reading : Session.Follows env { s.session with writer := none } w rs
  writer : ∀ tx inserts, s.session.writer = some (tx, inserts) →
    if s.erred then tx.failed = true
    else Working env w tx (lastInsert (s.session.committed ++ inserts))

theorem quiet_beginRead : Quiet Database.beginRead :=
  ⟨fun _ _ _ => rfl, fun _ => ⟨fun _ _ _ => rfl, fun _ => trivial⟩⟩

theorem quiet_drop (r : ReadTransaction) : Quiet r.drop := ⟨fun _ _ _ => rfl, fun _ => trivial⟩

theorem quiet_beginWrite (pageSize : ℕ) : Quiet (Database.beginWrite pageSize) := by
  refine ⟨fun _ _ _ => rfl, fun header => ?_⟩
  change Quiet (Program.ofExcept (WriteTransaction.new pageSize header.currentSlot))
  cases WriteTransaction.new pageSize header.currentSlot <;> trivial

section

variable {env : Env} {s s' : Trial} {w : Work} {rs : List (Version × List (Key × Value))}

/-- Nothing has been written at the beginning of a call. -/
theorem spares_nil (versions : List Version) : Spares versions [] :=
  fun _ hid => absurd hid List.not_mem_nil

/-- The database goes on from the version it was at. -/
theorem Follows.aborted {s : Session} {erred : Bool} (h : Follows env ⟨s, erred⟩ w rs)
    {db' : DatabaseState} (haborted : Aborted env w.base (rs.map Prod.fst) db') :
    ∃ w', Session.Follows env { s with db := db', writer := none } w' rs := by
  obtain ⟨w', howned, hbase⟩ := haborted
  exact ⟨w', howned, h.reading.readers, h.reading.snapshots, hbase ▸ h.reading.committed,
    fun tx inserts heq => absurd heq (by simp)⟩

theorem Follows.read {s : Session} {erred : Bool} (h : Follows env ⟨s, erred⟩ w rs)
    {r : ReadTransaction} {snapshot : List (Key × Value)} {key : Key}
    {result : Except Fault (Option Value)} {db' : DatabaseState}
    (hreader : (r, snapshot) ∈ s.readers) (hrun : Ends env (r.read key) s.db result db') :
    Session.Follows env { s with db := db', writer := none } w rs := by
  obtain ⟨failures, d, hrun, rfl⟩ := hrun
  obtain ⟨v, hv, rfl, -⟩ := h.reading.reader hreader
  have hread := h.reading.owned.read_faulty hv key failures
  rw [hrun] at hread
  cases result with
  | ok value => exact { h.reading with owned := hread.2 }
  | error e => exact { h.reading with owned := hread.2 }

theorem Follows.insert (henv : env.debugAssertions = true) {s : Session} {erred : Bool}
    (h : Follows env ⟨s, erred⟩ w rs) {tx tx' : WriteTransaction} {inserts : List (Key × Value)}
    {key : Key} {value : Value} {db' : DatabaseState} (hwriter : s.writer = some (tx, inserts))
    (hrun : Ends env (tx.insert env key value) s.db (.ok tx') db') :
    ∃ w', Follows env ⟨{ s with db := db', writer := some (tx', inserts ++ [(key, value)]) }, erred⟩
      w' rs := by
  obtain ⟨failures, d, hrun, rfl⟩ := hrun
  have hworking := h.writer tx inserts hwriter
  split at hworking
  · rw [(refuses_of_failed hworking _).1] at hrun
    exact absurd (Prod.mk.inj hrun).1 (by simp)
  · rename_i herred
    have hresult := h.reading.owned.insert_faulty henv (d := ⟨s.db, failures, []⟩)
      (spares_nil _) hworking key value
    rw [hrun] at hresult
    obtain ⟨-, w', howned, hworking', hbase⟩ := hresult
    refine ⟨w', ⟨howned, h.reading.readers, h.reading.snapshots, hbase ▸ h.reading.committed,
      fun tx inserts heq => absurd heq (by simp)⟩, fun tx inserts heq => ?_⟩
    obtain ⟨rfl, rfl⟩ := Prod.mk.inj (Option.some.inj heq)
    rw [if_neg herred, ← List.append_assoc, lastInsert_append]
    exact hworking'

theorem Follows.commit {s : Session} {erred : Bool} (h : Follows env ⟨s, erred⟩ w rs)
    {tx : WriteTransaction} {inserts : List (Key × Value)}
    {pages : List (PageId × DirtyPageSlot)} {db' : DatabaseState}
    (hwriter : s.writer = some (tx, inserts)) (hpages : pages.Perm tx.dirtyPages)
    (hrun : Ends env (tx.commit pages) s.db (.ok ()) db') :
    ∃ w', Follows env
      ⟨{ s with db := db', writer := none, committed := s.committed ++ inserts }, erred⟩ w' rs := by
  obtain ⟨failures, d, hrun, rfl⟩ := hrun
  have hworking := h.writer tx inserts hwriter
  split at hworking
  · rw [(refuses_of_failed hworking _).2] at hrun
    exact absurd (Prod.mk.inj hrun).1 (by simp)
  · have hresult := h.reading.owned.commit_faulty (d := ⟨s.db, failures, []⟩)
      (spares_nil _) hworking hpages
    rw [hrun] at hresult
    obtain ⟨-, w', howned, hmap⟩ := hresult
    exact ⟨w', ⟨howned, h.reading.readers, h.reading.snapshots, hmap,
      fun tx inserts heq => absurd heq (by simp)⟩, fun tx inserts heq => absurd heq (by simp)⟩

theorem Follows.insertFails (henv : env.debugAssertions = true) {s : Session} {erred : Bool}
    (h : Follows env ⟨s, erred⟩ w rs) {tx : WriteTransaction} {inserts : List (Key × Value)}
    {key : Key} {value : Value} {e : Error} {db' : DatabaseState}
    (hwriter : s.writer = some (tx, inserts))
    (hrun : Ends env (tx.insert env key value) s.db (.error (.error e)) db') :
    ∃ w', Session.Follows env { s with db := db', writer := none } w' rs := by
  obtain ⟨failures, d, hrun, rfl⟩ := hrun
  have hworking := h.writer tx inserts hwriter
  split at hworking
  · rw [(refuses_of_failed hworking _).1, Prod.mk.injEq] at hrun
    obtain ⟨-, rfl⟩ := hrun
    exact ⟨w, h.reading⟩
  · have hresult := h.reading.owned.insert_faulty henv (d := ⟨s.db, failures, []⟩)
      (spares_nil _) hworking key value
    rw [hrun] at hresult
    exact h.aborted (hresult.2.resolve_left (by simp))

theorem Follows.commitFails {s : Session} {erred : Bool} (h : Follows env ⟨s, erred⟩ w rs)
    {tx : WriteTransaction} {inserts : List (Key × Value)}
    {pages : List (PageId × DirtyPageSlot)} {e : Error} {db' : DatabaseState}
    (hwriter : s.writer = some (tx, inserts)) (hpages : pages.Perm tx.dirtyPages)
    (hrun : Ends env (tx.commit pages) s.db (.error (.error e)) db') :
    ∃ w', Session.Follows env { s with db := db', writer := none } w' rs := by
  obtain ⟨failures, d, hrun, rfl⟩ := hrun
  have hworking := h.writer tx inserts hwriter
  split at hworking
  · rw [(refuses_of_failed hworking _).2, Prod.mk.injEq] at hrun
    obtain ⟨-, rfl⟩ := hrun
    exact ⟨w, h.reading⟩
  · have hresult := h.reading.owned.commit_faulty (d := ⟨s.db, failures, []⟩)
      (spares_nil _) hworking hpages
    rw [hrun] at hresult
    exact h.aborted (hresult.2.resolve_left (by simp))

/-- **Every call keeps it.** -/
theorem Follows.step (henv : env.debugAssertions = true) (h : Follows env s w rs)
    (hstep : Step env s s') : ∃ w' rs', Follows env s' w' rs' := by
  -- a failed insertion leaves a transaction that is marked so, a failed commit leaves none
  cases hstep with
  | beginRead hrun =>
    exact ⟨w, _, (h.reading.beginRead (hrun.of_quiet quiet_beginRead)).1, h.writer⟩
  | read hreader hrun =>
    exact ⟨w, rs, h.read hreader hrun, h.writer⟩
  | dropReader hreader hrun =>
    obtain ⟨rs', hreading, -⟩ := h.reading.dropReader hreader (hrun.of_quiet (quiet_drop _))
    exact ⟨w, rs', hreading, h.writer⟩
  | beginWrite hwriter hrun =>
    have hbegin := hrun.of_quiet (quiet_beginWrite _)
    obtain ⟨rfl, hreading⟩ := h.reading.beginWrite hbegin
    exact ⟨_, rs, hreading.dropWriter, hreading.writer⟩
  | insert hwriter hrun =>
    obtain ⟨w', h'⟩ := h.insert henv hwriter hrun
    exact ⟨w', rs, h'⟩
  | insertFails hwriter hrun =>
    obtain ⟨w', hreading⟩ := h.insertFails henv hwriter hrun
    refine ⟨w', rs, hreading, fun tx inserts heq => ?_⟩
    obtain ⟨rfl, rfl⟩ := Prod.mk.inj (Option.some.inj heq)
    rfl
  | commit hwriter hpages hrun =>
    obtain ⟨w', h'⟩ := h.commit hwriter hpages hrun
    exact ⟨w', rs, h'⟩
  | commitFails hwriter hpages hrun =>
    obtain ⟨w', hreading⟩ := h.commitFails hwriter hpages hrun
    exact ⟨w', rs, hreading, fun tx inserts heq => absurd heq (by simp)⟩
  | dropWriter hwriter =>
    exact ⟨w, rs, h.reading, fun tx inserts heq => absurd heq (by simp)⟩

theorem follows_fresh {pageSize : ℕ} {page : Bytes} {db : DatabaseState}
    (h : Fresh env pageSize page db) :
    Follows env (start db) (.opened pageSize (DbHeader.initial pageSize (env.checksumPage page))
      (.initial env page) (.initial page)) [] :=
  ⟨(Session.follows_fresh h).dropWriter, fun tx inserts heq => absurd heq (by simp [start,
    Session.start])⟩

/-- **Along any run from a new database.** -/
theorem Run.follows (henv : env.debugAssertions = true) {pageSize : ℕ}
    {evicts : ℕ → PageId → Bool} {db : DatabaseState}
    (hnew : Database.openNew env pageSize evicts = .ok db) (hrun : Run env (start db) s) :
    ∃ w rs, Follows env s w rs := by
  induction hrun with
  | refl =>
    obtain ⟨page, hfresh⟩ := openNew_ok hnew
    exact ⟨_, [], follows_fresh hfresh⟩
  | tail _ hstep ih =>
    obtain ⟨w, rs, h⟩ := ih
    exact h.step henv hstep

end

end Trial

/-! ### What a failed transaction does -/

/-- Whatever fails, reading a key with `r` returns what `m` holds or an error of the device;
it returns what `m` holds if nothing fails. -/
def Answers (env : Env) (db : DatabaseState) (r : ReadTransaction) (m : Key → Option Value) :
    Prop :=
  ∀ key, ((r.read key).run (execute env) db).1 = .ok (m key) ∧
    ∀ failures, ((r.read key).run (faulty env) ⟨db, failures, []⟩).1 = .ok (m key) ∨
      ((r.read key).run (faulty env) ⟨db, failures, []⟩).1 = .error (.error (.ioError .other))

/-- None of the pages is in the tree of the root. -/
def OutsideTree (env : Env) (db : DatabaseState) (root : PageId) (written : List PageId) : Prop :=
  ∃ t : Node, ((Tree.decode maxDepth root).run (execute env) db).1 = .ok t ∧
    ∀ id ∈ written, id ∉ t.pageIds

/-- What errors leave as it was. -/
structure Trial.Unharmed (env : Env) (s : Trial) : Prop where
  /-- A transaction an insertion of which has returned an error refuses every call. -/
  refuses : s.erred = true → ∀ tx inserts, s.session.writer = some (tx, inserts) → ∀ d : Device,
    (∀ key value, (tx.insert env key value).run (faulty env) d =
      (.error (.error .transactionFailed), d)) ∧
    ∀ pages, (tx.commit pages).run (faulty env) d = (.error (.error .transactionFailed), d)
  /-- The read transactions return what was committed when they began. -/
  readers : ∀ r snapshot, (r, snapshot) ∈ s.session.readers →
    Answers env s.session.db r (lastInsert snapshot)
  /-- One that is begun now returns what the successful commits have inserted. -/
  later : ∃ r db', Database.beginRead.run (execute env) s.session.db = (.ok r, db') ∧
    Answers env db' r (lastInsert s.session.committed)
  /-- So does the open write transaction, with its own insertions. -/
  writer : s.erred = false → ∀ tx inserts, s.session.writer = some (tx, inserts) → ∀ key,
    ((Tree.get maxDepth tx.rootPage key).run (overlaid env tx) s.session.db).1 =
      .ok (lastInsert (s.session.committed ++ inserts) key)
  /-- Its calls, whatever fails in them, write to no page of the current tree or the tree of
  a read transaction. -/
  spared : ∀ tx inserts, s.session.writer = some (tx, inserts) → ∀ root,
    (root = s.session.db.commit.snapshot.1 ∨ ∃ r ∈ s.session.readers, root = r.1.rootPageId) →
    ∀ failures,
      (∀ key value, OutsideTree env s.session.db root
        ((tx.insert env key value).run (faulty env) ⟨s.session.db, failures, []⟩).2.written) ∧
      ∀ pages, pages.Perm tx.dirtyPages → OutsideTree env s.session.db root
        ((tx.commit pages).run (faulty env) ⟨s.session.db, failures, []⟩).2.written

section

variable {env : Env} {db : DatabaseState} {w : Work} {readers : List Version}

theorem Owned.answers (h : Owned env db w readers []) {v : Version} (hv : v ∈ readers) :
    Answers env db v.reader v.map := by
  intro key
  obtain ⟨db', hrun, -⟩ := h.read (List.mem_append_left [] hv) key
  refine ⟨by rw [hrun], fun failures => ?_⟩
  have hread := h.read_faulty hv key failures
  rcases hrun : (v.reader.read key).run (faulty env) ⟨db, failures, []⟩ with ⟨e | value, d⟩
  · rw [hrun] at hread
    exact Or.inr (congrArg Except.error hread.1)
  · rw [hrun] at hread
    exact Or.inl (congrArg Except.ok hread.1)

/-- The pages a call of the open write transaction has written to are in no tree that is in
use. -/
theorem Owned.outside (h : Owned env db w readers []) {root : PageId}
    (hroot : root = db.commit.snapshot.1 ∨ ∃ v ∈ readers, root = v.slot.rootPageId)
    {written : List PageId} (hspares : Spares (w.base :: readers) written) :
    OutsideTree env db root written := by
  rcases hroot with rfl | ⟨v, hv, rfl⟩
  · obtain ⟨t, hdecode, hids⟩ := h.decode_current
    exact ⟨t, hdecode, fun id hid => hids ▸ hspares id hid _ List.mem_cons_self⟩
  · obtain ⟨t, hdecode, hids⟩ := h.decode (h.shared v (List.mem_append_left [] hv)).stands
    exact ⟨t, hdecode, fun id hid => hids ▸ hspares id hid v (List.mem_cons_of_mem _ hv)⟩

/-- What the calls of the open write transaction write to. -/
theorem Trial.Follows.spares (henv : env.debugAssertions = true) {s : Trial}
    {rs : List (Version × List (Key × Value))} (h : Trial.Follows env s w rs)
    {tx : WriteTransaction} {inserts : List (Key × Value)}
    (hwriter : s.session.writer = some (tx, inserts)) (failures : List (Option ℕ)) :
    (∀ key value, Spares (w.base :: rs.map Prod.fst)
      ((tx.insert env key value).run (faulty env) ⟨s.session.db, failures, []⟩).2.written) ∧
    ∀ pages, pages.Perm tx.dirtyPages → Spares (w.base :: rs.map Prod.fst)
      ((tx.commit pages).run (faulty env) ⟨s.session.db, failures, []⟩).2.written := by
  have hworking := h.writer tx inserts hwriter
  split at hworking
  · constructor
    · intro key value
      -- after an error the transaction refuses every call, and so writes nothing
      rw [(refuses_of_failed hworking _).1]
      exact Trial.spares_nil _
    · intro pages _
      rw [(refuses_of_failed hworking _).2]
      exact Trial.spares_nil _
  · constructor
    · intro key value
      have hresult := h.reading.owned.insert_faulty henv (d := ⟨s.session.db, failures, []⟩)
        (Trial.spares_nil _) hworking key value
      rcases hrun : (tx.insert env key value).run (faulty env) ⟨s.session.db, failures, []⟩ with
        ⟨e | tx', d⟩ <;>
      · rw [hrun] at hresult
        exact hresult.1
    · intro pages hpages
      have hresult := h.reading.owned.commit_faulty (d := ⟨s.session.db, failures, []⟩)
        (Trial.spares_nil _) hworking hpages
      rcases hrun : (tx.commit pages).run (faulty env) ⟨s.session.db, failures, []⟩ with
        ⟨e | ⟨⟩, d⟩ <;>
      · rw [hrun] at hresult
        exact hresult.1

/-- **A failed transaction changes nothing.** -/
theorem failed_transaction_changes_nothing (henv : env.debugAssertions = true) {pageSize : ℕ}
    {evicts : ℕ → PageId → Bool} (hnew : Database.openNew env pageSize evicts = .ok db)
    {s : Trial} (hrun : Trial.Run env (.start db) s) : s.Unharmed env := by
  obtain ⟨w, rs, h⟩ := hrun.follows henv hnew
  have howned := h.reading.owned
  refine ⟨fun herred tx inserts hwriter d => ?_, fun r snapshot hr => ?_, ?_,
    fun herred tx inserts hwriter key => ?_, fun tx inserts hwriter root hroot failures => ?_⟩
  · -- a transaction that failed refuses to go on
    have hfailed := h.writer tx inserts hwriter
    rw [if_pos herred] at hfailed
    exact refuses_of_failed hfailed d
  · -- the readers there are
    obtain ⟨v, hv, rfl, hmap⟩ := h.reading.reader hr
    exact hmap ▸ howned.answers hv
  · -- a reader begun now
    obtain ⟨db', hbegin, howned', -⟩ := howned.beginRead
    have hanswers := howned'.answers List.mem_cons_self
    rw [h.reading.committed] at hanswers
    exact ⟨_, db', hbegin, hanswers⟩
  · -- the writer reads its own inserts
    have hworking := h.writer tx inserts hwriter
    rw [if_neg (by simp [herred])] at hworking
    exact howned.get_overlaid hworking.ok key
  · -- no page below a root that is in use is written, whatever fails
    have hroot' : root = s.session.db.commit.snapshot.1 ∨
        ∃ v ∈ rs.map Prod.fst, root = v.slot.rootPageId := by
      refine hroot.imp_right ?_
      rintro ⟨r, hr, rfl⟩
      obtain ⟨v, hv, heq, -⟩ := h.reading.reader hr
      exact ⟨v, hv, by rw [← heq]; rfl⟩
    obtain ⟨hinsert, hcommit⟩ := h.spares henv hwriter failures
    exact ⟨fun key value => howned.outside hroot' (hinsert key value),
      fun pages hpages => howned.outside hroot' (hcommit pages hpages)⟩

/-! ### A commit that fails -/

theorem Ends.of_run {α : Type} {call : Call α} {db' : DatabaseState} {result : Except Fault α}
    (h : call.run (execute env) db = (result, db')) : Ends env call db result db' := by
  obtain ⟨hresult, hdb⟩ := run_faulty_eq env call ⟨db, [], []⟩ (Or.inl rfl)
  rw [h] at hresult hdb
  exact ⟨[], _, Prod.ext hresult rfl, hdb⟩

/-- A page that could be written can also fail to be. -/
theorem afterIoError_writePage {id : PageId} {data : Bytes} {db' : DatabaseState}
    (h : execute env (.writePage id data) db = (.ok (), db')) :
    ∃ db'', afterIoError env 0 db (.writePage id data) = some db'' := by
  rcases hwrite : db.pageIo.writePage env id data with ⟨result, pageIo⟩
  rw [execute, hwrite] at h
  obtain rfl := (Prod.mk.inj h).1
  rw [PageIo.writePage] at hwrite
  split at hwrite
  · exact absurd (Prod.mk.inj hwrite).1 (by simp)
  rename_i hlength
  split at hwrite
  on_goal 2 => exact absurd (Prod.mk.inj hwrite).1 (by simp)
  rename_i fileHandler hfile
  rw [FileHandler.writeAtPage, bind_eq_ok] at hfile
  obtain ⟨offset, hoffset, hfile⟩ := hfile
  rw [FileHandler.writeAt, bind_eq_ok] at hfile
  obtain ⟨⟨⟩, hassert, -⟩ := hfile
  rw [afterIoError, if_neg hlength, FileHandler.writeAtPage, hoffset, ok_bind, FileHandler.writeAt,
    hassert, ok_bind]
  exact ⟨_, rfl⟩

/-- A commit whose first write fails. -/
theorem commit_fails {tx : WriteTransaction} {id : PageId} {slot : DirtyPageSlot}
    {rest : List (PageId × DirtyPageSlot)} {db' : DatabaseState} (hfailed : tx.failed = false)
    (hcommit : (tx.commit ((id, slot) :: rest)).run (execute env) db = (.ok (), db')) :
    ∃ db'', Ends env (tx.commit ((id, slot) :: rest)) db
      (.error (.error (.ioError .other))) db'' := by
  rw [WriteTransaction.commit, hfailed, if_neg Bool.false_ne_true] at hcommit ⊢
  cases slot with
  | checkedOut => exact absurd (Prod.mk.inj hcommit).1 (by simp)
  | available data =>
    obtain ⟨⟨⟩, db₁, hwrite, -⟩ := Program.run_perform_ok hcommit
    obtain ⟨db'', hafter⟩ := afterIoError_writePage hwrite
    refine ⟨db'', [some 0], ⟨db'', [], [id]⟩, ?_, rfl⟩
    have hop : faulty env (.writePage id data) ⟨db, [some 0], []⟩ =
        (.error (.error (.ioError .other)), ⟨db'', [], [id]⟩) := by
      rw [faulty]
      change (match (afterIoError env 0 db (.writePage id data)) with
        | some db' => _
        | none => _) = _
      rw [hafter]
      rfl
    change (Program.perform (Op.writePage id data) _).run (faulty env) _ = _
    rw [Program.run, hop]

theorem failed_transaction_changes_nothing_firstCommit : ∃ db s tx db',
    Database.openNew .debug 4096 (fun _ _ => false) = .ok db ∧
      Trial.Run .debug (.start db) s ∧ s.session.writer = some (tx, [([1], [2])]) ∧
      Ends .debug (tx.commit tx.dirtyPages) s.session.db (.error (.error (.ioError .other))) db' ∧
      Trial.Unharmed .debug ⟨{ s.session with db := db', writer := none }, s.erred⟩ := by
  obtain ⟨db, _, tx, tx', db₁, db₂, hnew, -, h⟩ := exists_firstCommit
  have hbegin : Trial.Step .debug (.start db) ⟨⟨db, some (tx, []), [], [], []⟩, false⟩ :=
    .beginWrite rfl (.of_run h.begin)
  have hpair : Trial.Step .debug ⟨⟨db, some (tx, []), [], [], []⟩, false⟩
      ⟨⟨db₁, some (tx', [] ++ [([1], [2])]), [], [], []⟩, false⟩ := .insert rfl (.of_run h.insert)
  have hrun : Trial.Run .debug (.start db)
      ⟨⟨db₁, some (tx', [([1], [2])]), [], [], []⟩, false⟩ := .tail (.single hbegin) hpair
  have hfailed : tx'.failed = false := by
    by_contra hfailed
    have hcommit := h.commit
    rw [WriteTransaction.commit, if_pos (by simpa using hfailed)] at hcommit
    exact absurd (Prod.mk.inj hcommit).1 (by simp)
  obtain ⟨⟨id, slot⟩, rest, hdirty, -⟩ := List.map_eq_cons_iff.mp h.dirty
  have hcommit := h.commit
  rw [hdirty] at hcommit
  -- the commit fails at the write of its first dirty page
  obtain ⟨db', hfails⟩ := commit_fails hfailed hcommit
  rw [← hdirty] at hfails
  exact ⟨db, _, tx', db', hnew, hrun, rfl, hfails,
    failed_transaction_changes_nothing rfl hnew
      (hrun.tail (.commitFails rfl (List.Perm.refl _) hfails))⟩

end

end KvRaft.Kv
