import KvRaft.Kv.Crash
import KvRaft.Kv.Sections

/-!
# Many threads

One thread holds the lock of the writers and runs the calls of write transactions; any
number of others begin read transactions, run any number of `read`s on each of them, and
drop them. The sections of all calls come in any order (`Concurrent.Step`), input and output
may fail in any of them, and a panic of the writer poisons its lock.

A commit takes effect in the section that moves the snapshot, and a read transaction in the
one that loads it. Between these points every transaction is atomic
(`concurrent_snapshots`):

* a read returns the value of the last insertion in the transactions that were committed
  when its snapshot was loaded, or the error of a file that could not be read;
* a commit that has returned has taken effect, one that has failed has not.

The condition on the runs is that of `reader_pages_kept`: no page that was freed after the
snapshot of a reader between its two sections is used again (`Concurrent.Covered`).
-/

namespace KvRaft.Kv

open Ordered

/-! ### Threads and their sections -/

/-- A thread comes to its next section, and goes on or ends. -/
inductive Advances (env : Env) {α : Type} :
    Thread α → DatabaseState → Thread α ⊕ Except Fault α → DatabaseState → Prop
  | goesOn {o : Section} {k : o.Answer → Thread α} {a : o.Answer} {db db' : DatabaseState}
      (hperforms : Performs env o db (.ok a) db') :
      Advances env (.perform o k) db (.inl (k a)) db'
  | fails {o : Section} {k : o.Answer → Thread α} {e : Fault} {db db' : DatabaseState}
      (hperforms : Performs env o db (.error e) db') :
      Advances env (.perform o k) db (.inr (.error e)) db'
  | returns {a : α} {db : DatabaseState} : Advances env (.ret a) db (.inr (.ok a)) db
  | stops {e : Fault} {db : DatabaseState} : Advances env (.fault e) db (.inr (.error e)) db

/-- The next section of a thread. -/
def Thread.next {α : Type} : Thread α → Option Section
  | .perform o _ => some o
  | _ => none

/-- The section that moves the snapshot. -/
def Section.publishes : Section → Bool
  | .whole (.swap _) => true
  | _ => false

/-- A call of `read` that has not returned. -/
structure PendingRead where
  key : Key
  rest : Thread (Option Value)

/-- A read transaction in use. -/
structure Reader where
  transaction : ReadTransaction
  /-- The transactions that were committed when its snapshot was loaded. -/
  snapshot : Commits
  calls : List PendingRead

/-- What the thread with the lock of the writers does. -/
inductive Writing
  | idle
  | holding (tx : WriteTransaction) (inserts : List (Key × Value))
  | inserting (tx : WriteTransaction) (inserts : List (Key × Value)) (pair : Key × Value)
    (rest : Thread WriteTransaction)
  | committing (inserts : List (Key × Value)) (rest : Thread Unit)
  /-- The lock is poisoned. -/
  | poisoned

/-- The next section of the writer. -/
def Writing.next : Writing → Option Section
  | .inserting _ _ _ rest => rest.next
  | .committing _ rest => rest.next
  | _ => none

/-- Where a call leaves the writer that has ended with a fault. -/
def Writing.fallback (left : Writing) : Fault → Writing
  | .error _ => left
  | _ => .poisoned

/-- The end of a `read`. -/
structure ReadAnswer where
  snapshot : Commits
  key : Key
  result : Except Fault (Option Value)

/-- A database that is used by many threads. -/
structure Concurrent where
  db : DatabaseState
  writer : Writing
  /-- The read transactions whose snapshot is loaded and not registered yet. -/
  starting : List Reader
  readers : List Reader
  /-- The transactions whose snapshot has been published, in their order. -/
  committed : Commits
  /-- The transactions whose commit has returned. -/
  acknowledged : Commits
  /-- The `read`s that have ended, latest first. -/
  answers : List ReadAnswer

namespace Concurrent

/-- A database nobody uses. -/
def start (db : DatabaseState) : Concurrent := ⟨db, .idle, [], [], [], [], []⟩

/-- What one of the threads does next. -/
inductive Step (env : Env) : Concurrent → Concurrent → Prop
  /-- The first section of `begin_read`. -/
  | load {s : Concurrent} {root : PageId} {transaction : TransactionId} {db' : DatabaseState}
      (hexec : executeSection env (.whole .loadSnapshot) s.db = (.ok (root, transaction), db')) :
      Step env s { s with
        db := db'
        starting := ⟨⟨root, transaction⟩, s.committed, []⟩ :: s.starting }
  /-- The second section of `begin_read`. -/
  | register {s : Concurrent} {before after : List Reader} {r : Reader} {db' : DatabaseState}
      (hstarting : s.starting = before ++ r :: after)
      (hexec : executeSection env (.whole (.register r.transaction.transaction)) s.db =
        (.ok (), db')) :
      Step env s { s with db := db', starting := before ++ after, readers := r :: s.readers }
  /-- A `read` is called. -/
  | read {s : Concurrent} {before after : List Reader} {r : Reader} {key : Key}
      (hreaders : s.readers = before ++ r :: after) :
      Step env s { s with readers := before ++
        { r with calls := ⟨key, (r.transaction.read key).sections⟩ :: r.calls } :: after }
  /-- A section of a `read`. -/
  | readSection {s : Concurrent} {before after : List Reader} {r : Reader}
      {earlier later : List PendingRead} {key : Key} {rest rest' : Thread (Option Value)}
      {db' : DatabaseState} (hreaders : s.readers = before ++ r :: after)
      (hcalls : r.calls = earlier ++ ⟨key, rest⟩ :: later)
      (hadvances : Advances env rest s.db (.inl rest') db') :
      Step env s { s with
        db := db'
        readers := before ++ { r with calls := earlier ++ ⟨key, rest'⟩ :: later } :: after }
  /-- A `read` ends. -/
  | readEnd {s : Concurrent} {before after : List Reader} {r : Reader}
      {earlier later : List PendingRead} {key : Key} {rest : Thread (Option Value)}
      {result : Except Fault (Option Value)} {db' : DatabaseState}
      (hreaders : s.readers = before ++ r :: after)
      (hcalls : r.calls = earlier ++ ⟨key, rest⟩ :: later)
      (hadvances : Advances env rest s.db (.inr result) db') :
      Step env s { s with
        db := db'
        readers := before ++ { r with calls := earlier ++ later } :: after
        answers := ⟨r.snapshot, key, result⟩ :: s.answers }
  /-- A read transaction is dropped; its `read`s have ended. -/
  | dropReader {s : Concurrent} {before after : List Reader} {r : Reader} {db' : DatabaseState}
      (hreaders : s.readers = before ++ r :: after) (hcalls : r.calls = [])
      (hexec : executeSection env (.whole (.deregister r.transaction.transaction)) s.db =
        (.ok (), db')) :
      Step env s { s with db := db', readers := before ++ after }
  /-- `begin_write`, which loads the header. -/
  | beginWrite {s : Concurrent} {tx : WriteTransaction} {db' : DatabaseState}
      (hwriter : s.writer = .idle)
      (hrun : (Database.beginWrite s.db.pageIo.pageSize).run (execute env) s.db = (.ok tx, db')) :
      Step env s { s with db := db', writer := .holding tx [] }
  | insert {s : Concurrent} {tx : WriteTransaction} {inserts : List (Key × Value)} {key : Key}
      {value : Value} (hwriter : s.writer = .holding tx inserts) :
      Step env s { s with
        writer := .inserting tx inserts (key, value) (tx.insert env key value).sections }
  | insertSection {s : Concurrent} {tx : WriteTransaction} {inserts : List (Key × Value)}
      {pair : Key × Value} {rest rest' : Thread WriteTransaction} {db' : DatabaseState}
      (hwriter : s.writer = .inserting tx inserts pair rest)
      (hadvances : Advances env rest s.db (.inl rest') db') :
      Step env s { s with db := db', writer := .inserting tx inserts pair rest' }
  | insertOk {s : Concurrent} {tx tx' : WriteTransaction} {inserts : List (Key × Value)}
      {pair : Key × Value} {rest : Thread WriteTransaction} {db' : DatabaseState}
      (hwriter : s.writer = .inserting tx inserts pair rest)
      (hadvances : Advances env rest s.db (.inr (.ok tx')) db') :
      Step env s { s with db := db', writer := .holding tx' (inserts ++ [pair]) }
  | insertError {s : Concurrent} {tx : WriteTransaction} {inserts : List (Key × Value)}
      {pair : Key × Value} {rest : Thread WriteTransaction} {e : Fault} {db' : DatabaseState}
      (hwriter : s.writer = .inserting tx inserts pair rest)
      (hadvances : Advances env rest s.db (.inr (.error e)) db') :
      Step env s { s with
        db := db'
        writer := (Writing.holding tx.invalidate inserts).fallback e }
  /-- A commit is called; the dirty pages come in any order. -/
  | commit {s : Concurrent} {tx : WriteTransaction} {inserts : List (Key × Value)}
      {pages : List (PageId × DirtyPageSlot)} (hwriter : s.writer = .holding tx inserts)
      (hpages : pages.Perm tx.dirtyPages) :
      Step env s { s with writer := .committing inserts (tx.commit pages).sections }
  | commitSection {s : Concurrent} {inserts : List (Key × Value)} {o : Section}
      {k : o.Answer → Thread Unit} {a : o.Answer} {db' : DatabaseState}
      (hwriter : s.writer = .committing inserts (.perform o k))
      (hperforms : Performs env o s.db (.ok a) db') :
      Step env s { s with
        db := db'
        writer := .committing inserts (k a)
        committed := if o.publishes then s.committed ++ [inserts] else s.committed }
  | commitOk {s : Concurrent} {inserts : List (Key × Value)}
      (hwriter : s.writer = .committing inserts (.ret ())) :
      Step env s { s with writer := .idle, acknowledged := s.acknowledged ++ [inserts] }
  | commitError {s : Concurrent} {inserts : List (Key × Value)} {rest : Thread Unit} {e : Fault}
      {db' : DatabaseState} (hwriter : s.writer = .committing inserts rest)
      (hadvances : Advances env rest s.db (.inr (.error e)) db') :
      Step env s { s with db := db', writer := Writing.idle.fallback e }
  | dropWriter {s : Concurrent} {tx : WriteTransaction} {inserts : List (Key × Value)}
      (hwriter : s.writer = .holding tx inserts) : Step env s { s with writer := .idle }

/-- Any number of steps, each in a state that meets the condition `K`. -/
def Run (env : Env) (K : Concurrent → Prop) : Concurrent → Concurrent → Prop :=
  Relation.ReflTransGen fun s s' => K s ∧ Step env s s'

/-- If a freed page is about to be used again, it was freed by a transaction no later than
the snapshot of any reader that has loaded it and has not registered. -/
def Covered (s : Concurrent) : Prop :=
  s.writer.next = some (.whole .allocatePageId) → ∀ e rest,
    PageAllocator.reusable s.db.allocator s.db.readTracker = some (e, rest) →
      ∀ r ∈ s.starting, e.transactionId ≤ r.transaction.transaction

end Concurrent

/-! ### What the threads keep -/

/-- The work before the page that is being written. -/
def WriteStage.before : WriteStage → Work
  | .clean w => w
  | .wrote w _ _ => w

theorem WriteStage.work_base (g : WriteStage) : g.work.base = g.before.base := by
  cases g <;> rfl

theorem WriteStage.work_header (g : WriteStage) : g.work.header = g.before.header := by
  cases g <;> rfl

theorem WriteStage.work_pageSize (g : WriteStage) : g.work.pageSize = g.before.pageSize := by
  cases g <;> rfl

theorem WriteStage.work_phase (g : WriteStage) : g.work.phase = g.before.phase := by
  cases g <;> rfl

/-- A call of `read` on a version keeps to the protocol of the readers, over the pages of the
version. -/
def PendingRead.Fits (pageIo : PageIo) (v : Version) (call : PendingRead) : Prop :=
  ∃ known : View, (∀ id page, known id = some page → id ∈ v.pages ∧ Reads pageIo id page) ∧
    call.rest.Sat (sectionReader known) (fun _ => False) () fun value _ => value = v.map call.key

/-- A read transaction reads a version. -/
structure Reader.Fits (pageIo : PageIo) (r : Reader) (v : Version) : Prop where
  transaction : r.transaction = v.reader
  map : v.map = r.snapshot.map
  calls : ∀ call ∈ r.calls, call.Fits pageIo v

/-- What is left of a transaction between two calls. -/
def HoldsOn (env : Env) (tx : WriteTransaction) (commits : Commits) (g : WriteStage) : Prop :=
  ∃ w, g = .clean w ∧ (tx.failed = true ∨ Working env w tx commits.map)

/-- The commits that have taken effect while a transaction is committed. -/
structure Publishing (acknowledged committed : Commits) (inserts : List (Key × Value)) (w : Work) :
    Prop where
  commits : CommitsTo (fun _ => True) acknowledged (acknowledged ++ [inserts]) w
  unpublished : Unpublished w → committed = acknowledged
  published : ∀ old released, w.phase = .published old released →
    committed = acknowledged ++ [inserts]

/-- The writer keeps to its protocol. -/
def Writing.Fits (env : Env) (acknowledged committed : Commits) (g : WriteStage) : Writing → Prop
  | .idle => committed = acknowledged ∧ ∃ w, g = .clean w
  | .poisoned => committed = acknowledged
  | .holding tx inserts =>
    committed = acknowledged ∧ g.before.phase = .building ∧
      HoldsOn env tx (committed ++ [inserts]) g
  | .inserting _ inserts pair rest =>
    committed = acknowledged ∧ g.before.phase = .building ∧
      rest.Sat (sectionWriter env) (fun _ => True) g fun tx' g' =>
        HoldsOn env tx' (committed ++ [inserts ++ [pair]]) g'
  | .committing inserts rest =>
    (committed = acknowledged ∧ ∃ e, rest = .fault e) ∨
      Publishing acknowledged committed inserts g.before ∧
        rest.Sat (sectionWriter env) (fun _ => False) g fun _ g' =>
          ∃ w, g' = .clean w ∧ ∃ old released, w.phase = .published old released

/-- How the threads follow the work on their database: each reader reads a version. -/
structure Concurrent.Fits (env : Env) (s : Concurrent) (g : WriteStage)
    (rs ss : List (Reader × Version)) : Prop where
  amid : Amid env s.db g (rs.map Prod.snd) (ss.map Prod.snd)
  readers : s.readers = rs.map Prod.fst
  starting : s.starting = ss.map Prod.fst
  fit : ∀ p ∈ rs ++ ss, p.1.Fits s.db.pageIo p.2
  snapshots : ∀ p ∈ rs ++ ss, p.1.snapshot <+: s.committed
  base : g.before.base.map = s.committed.map
  header : g.before.header.pageSize.toNat = g.before.pageSize
  writer : s.writer.Fits env s.acknowledged s.committed g
  answers : ∀ x ∈ s.answers, x.snapshot <+: s.committed ∧
    (x.result = .ok (x.snapshot.map x.key) ∨ x.result = .error (.error (.ioError .other)))

section

variable {env : Env} {w w' : Work} {g g' : WriteStage}

/-- What an operation does to the phase and the version of the writer: it moves the snapshot,
or leaves both as they are but for the way to it. -/
theorem writerPost_cases {o : Op} (hpre : WriterPre env w o) {a : o.Answer}
    (hpost : WriterPost w o a w') :
    (∃ header v, o = .swap header ∧ w.phase = .synced v ∧ w' = w.swapTo v) ∨
      ((∀ header, o ≠ .swap header) ∧ (w'.base = w.base ∧ w'.header = w.header ∧
        w'.pageSize = w.pageSize) ∧ (Unpublished w' ↔ Unpublished w)) := by
  have hunpublished : ∀ {w : Work} {p : Phase}, w.phase = p →
      (∀ old released, p ≠ .published old released) → Unpublished w := fun hp hne old released heq =>
    hne old released (hp.symm.trans heq)
  cases o with
  | readPage id =>
    obtain ⟨rfl, -⟩ := hpost
    exact Or.inr ⟨by simp, ⟨rfl, rfl, rfl⟩, Iff.rfl⟩
  | writePage id data =>
    obtain ⟨v, hphase, -⟩ := hpre
    have hwas : Unpublished w := hunpublished hphase (by simp)
    simp only [WriterPost, hphase] at hpost
    split at hpost
    · subst hpost
      exact Or.inr ⟨by simp, ⟨rfl, rfl, rfl⟩, iff_of_true (hunpublished rfl (by simp)) hwas⟩
    · subst hpost
      exact Or.inr ⟨by simp, ⟨rfl, rfl, rfl⟩, Iff.rfl⟩
  | removePage id =>
    obtain rfl : w' = w := hpost
    exact Or.inr ⟨by simp, ⟨rfl, rfl, rfl⟩, Iff.rfl⟩
  | syncData =>
    obtain ⟨v, hphase⟩ := hpre
    simp only [WriterPost, hphase] at hpost
    subst hpost
    exact Or.inr ⟨by simp, ⟨rfl, rfl, rfl⟩, iff_of_true (hunpublished rfl (by simp))
      (hunpublished hphase (by simp))⟩
  | allocatePageId =>
    obtain ⟨-, -, -, next, rfl⟩ := hpost
    exact Or.inr ⟨by simp, ⟨rfl, rfl, rfl⟩, Iff.rfl⟩
  | nextPageId =>
    obtain ⟨-, rfl⟩ := hpost
    exact Or.inr ⟨by simp, ⟨rfl, rfl, rfl⟩, Iff.rfl⟩
  | freePage id transaction =>
    obtain ⟨old, released, hphase, -⟩ := hpre
    simp only [WriterPost, hphase] at hpost
    subst hpost
    exact Or.inr ⟨by simp, ⟨rfl, rfl, rfl⟩, iff_of_false (fun h => h _ _ rfl) fun h => h _ _ hphase⟩
  | loadHeader =>
    obtain ⟨-, rfl⟩ := hpost
    exact Or.inr ⟨by simp, ⟨rfl, rfl, rfl⟩, Iff.rfl⟩
  | swap header =>
    obtain ⟨v, hphase, -⟩ := hpre
    simp only [WriterPost, hphase] at hpost
    exact Or.inl ⟨header, v, rfl, hphase, hpost⟩
  | loadSnapshot => exact hpre.elim
  | register transaction => exact hpre.elim
  | deregister transaction => exact hpre.elim

/-- **What a section does to the work** is what an operation does, or nothing. -/
theorem sectionPost_cases {db : DatabaseState} {readers starting : List Version}
    (h : Amid env db g readers starting) {o : Section} (hpre : SectionPre env g o) {a : o.Answer}
    (hpost : SectionPost g o a g') :
    g'.before = g.before ∧ o.publishes = false ∨
      ∃ op, ∃ answer : op.Answer, WriterPre env g.before op ∧
        WriterPost g.before op answer g'.before ∧
        (o.publishes = true ↔ ∃ header, op = .swap header) := by
  cases g with
  | wrote w id data =>
    cases o with
    | fill id' data' =>
      obtain ⟨w', hwrite, rfl⟩ := hpost
      refine Or.inr ⟨.writePage id data, (), h.inFile.1, hwrite, ?_⟩
      simp [Section.publishes]
    | _ => exact hpre.elim
  | clean w =>
    cases o with
    | lookup id =>
      obtain ⟨rfl, -⟩ := hpost
      exact Or.inl ⟨rfl, rfl⟩
    | readFile id =>
      obtain ⟨rfl, -⟩ := hpost
      exact Or.inl ⟨rfl, rfl⟩
    | fill id data =>
      obtain rfl : g' = .clean w := hpost
      exact Or.inl ⟨rfl, rfl⟩
    | writeFile id data =>
      obtain rfl : g' = .wrote w id data := hpost
      exact Or.inl ⟨rfl, rfl⟩
    | whole op =>
      obtain ⟨w', hwriter, rfl⟩ := hpost
      refine Or.inr ⟨op, a, hpre, hwriter, ?_⟩
      cases op <;> simp [Section.publishes]

/-- A section moves the snapshot, or leaves the version of the writer as it is. -/
theorem sectionPost_work {db : DatabaseState} {readers starting : List Version}
    (h : Amid env db g readers starting) {o : Section} (hpre : SectionPre env g o) {a : o.Answer}
    (hpost : SectionPost g o a g') :
    (o.publishes = true ∧ ∃ v, g.before.phase = .synced v ∧ g'.before = g.before.swapTo v) ∨
      (o.publishes = false ∧ (g'.before.base = g.before.base ∧ g'.before.header = g.before.header ∧
        g'.before.pageSize = g.before.pageSize) ∧
        (Unpublished g'.before ↔ Unpublished g.before)) := by
  rcases sectionPost_cases h hpre hpost with ⟨hsame, hno⟩ | ⟨op, answer, hop, hopPost, hiff⟩
  · rw [hsame]
    exact Or.inr ⟨hno, ⟨rfl, rfl, rfl⟩, Iff.rfl⟩
  · rcases writerPost_cases hop hopPost with ⟨header, v, hswap, hphase, hwork⟩ | ⟨hno, hsame, hun⟩
    · exact Or.inl ⟨hiff.mpr ⟨header, hswap⟩, v, hphase, hwork⟩
    · refine Or.inr ⟨?_, hsame, hun⟩
      rw [Bool.eq_false_iff]
      intro hpublishes
      obtain ⟨header, hswap⟩ := hiff.mp hpublishes
      exact hno header hswap

/-! ### Readers -/

/-- What a call knows of its pages stays true as long as they are left alone. -/
theorem PendingRead.Fits.mono {pageIo pageIo' : PageIo} {v : Version} {call : PendingRead}
    (h : call.Fits pageIo v)
    (hpages : ∀ id ∈ v.pages, ∀ page, Reads pageIo id page → Reads pageIo' id page) :
    call.Fits pageIo' v := by
  obtain ⟨known, hknown, hsat⟩ := h
  refine ⟨known, fun id page hpage => ?_, hsat⟩
  obtain ⟨hid, hreads⟩ := hknown id page hpage
  exact ⟨hid, hpages id hid page hreads⟩

theorem Reader.Fits.mono {pageIo pageIo' : PageIo} {r : Reader} {v : Version} (h : r.Fits pageIo v)
    (hpages : ∀ id ∈ v.pages, ∀ page, Reads pageIo id page → Reads pageIo' id page) :
    r.Fits pageIo' v :=
  { h with calls := fun call hcall => (h.calls call hcall).mono hpages }

/-- A call of `read` on a version that is being read. -/
theorem Owned.pendingRead {db : DatabaseState} {readers starting : List Version}
    (h : Owned env db w readers starting) {v : Version} (hv : v ∈ readers ++ starting) (key : Key) :
    PendingRead.Fits db.pageIo v ⟨key, (v.reader.read key).sections⟩ := by
  let known : View := fun id => if id ∈ v.pages then w.view id else none
  have hstands := (h.shared v hv).stands
  have hknown : v.Stands env known := hstands.congr fun id hid => if_pos hid
  refine ⟨known, fun id page hpage => ?_, ?_⟩
  · by_cases hid : id ∈ v.pages
    · rw [show known id = w.view id from if_pos hid] at hpage
      exact ⟨hid, h.reads id page hpage⟩
    · rw [show known id = none from if_neg hid] at hpage
      exact absurd hpage (by simp)
  · have hget := get_sat (X := fun _ => False) (n := 0)
      (hknown.tree.depth_lt_maxDepth hknown.nodup) hknown.tree bot_le (WithTop.coe_lt_top key)
    refine (Program.Sat.expand (φ := fun _ => ()) reader_sections_sat hget).mono ?_
    rintro value - ⟨n, ⟨hvalue, -⟩, -⟩
    exact hvalue

namespace Concurrent

variable {s s' : Concurrent} {rs ss : List (Reader × Version)}

/-- The pages of the versions in use are left alone. -/
theorem Fits.keeps (h : Fits env s g rs ss) {S : Set PageId} {pageIo : PageIo}
    (hkeeps : s.db.pageIo.Keeps S pageIo) (hS : ∀ id ∈ S, id = headerPageId ∨ id ∈ g.work.used) :
    ∀ p ∈ rs ++ ss, p.1.Fits pageIo p.2 := by
  intro p hp
  have hv : p.2 ∈ rs.map Prod.snd ++ ss.map Prod.snd := by
    rw [← List.map_append]
    exact List.mem_map_of_mem hp
  have hshared := h.amid.owned.shared p.2 hv
  refine (h.fit p hp).mono fun id hid page hreads => hkeeps.2 id page (fun hmem => ?_) hreads
  rcases hS id hmem with rfl | hused
  · exact hshared.stands.header hid
  · exact hshared.unused id hid hused

/-- A reader in use is one of those that fit. -/
theorem split_readers {before after : List Reader} {r : Reader}
    (h : before ++ r :: after = rs.map Prod.fst) :
    ∃ bs v as, rs = bs ++ (r, v) :: as ∧ before = bs.map Prod.fst ∧ after = as.map Prod.fst := by
  obtain ⟨bs, rest, rfl, rfl, hrest⟩ := List.map_eq_append_iff.mp h.symm
  obtain ⟨⟨r, v⟩, as, rfl, rfl, rfl⟩ := List.map_eq_cons_iff.mp hrest
  exact ⟨bs, v, as, rfl, rfl, rfl⟩

/-- One reader goes on. -/
theorem Fits.replace {bs as : List (Reader × Version)} {r : Reader} {v : Version}
    (h : Fits env s g (bs ++ (r, v) :: as) ss) (r' : Reader) {db' : DatabaseState}
    (hamid : Amid env db' g ((bs ++ (r, v) :: as).map Prod.snd) (ss.map Prod.snd))
    (hkeeps : s.db.pageIo.Keeps ∅ db'.pageIo) (hsnapshot : r'.snapshot = r.snapshot)
    (hr : r.Fits db'.pageIo v → r'.Fits db'.pageIo v) :
    Fits env { s with db := db', readers := bs.map Prod.fst ++ r' :: as.map Prod.fst } g
      (bs ++ (r', v) :: as) ss := by
  have hfits := h.keeps hkeeps fun id hid => absurd hid (Set.notMem_empty id)
  have hmem : ∀ {p}, p ∈ (bs ++ (r', v) :: as) ++ ss → p = (r', v) ∨
      p ∈ (bs ++ (r, v) :: as) ++ ss := by
    intro p hp
    simp only [List.mem_append, List.mem_cons] at hp ⊢
    tauto
  have hthis : (r, v) ∈ (bs ++ (r, v) :: as) ++ ss := by simp
  exact { h with
    amid := by
      rw [List.map_append, List.map_cons] at hamid ⊢
      exact hamid
    readers := by rw [List.map_append, List.map_cons]
    fit := fun p hp => by
      rcases hmem hp with rfl | hp
      · exact hr (hfits _ hthis)
      · exact hfits p hp
    snapshots := fun p hp => by
      rcases hmem hp with rfl | hp
      · exact hsnapshot ▸ h.snapshots _ hthis
      · exact h.snapshots p hp }

/-- Loading the snapshot begins to read the version that is current. -/
theorem Fits.load (h : Fits env s g rs ss) {root : PageId} {transaction : TransactionId}
    {db' : DatabaseState}
    (hexec : executeSection env (.whole .loadSnapshot) s.db = (.ok (root, transaction), db')) :
    Fits env { s with
      db := db'
      starting := ⟨⟨root, transaction⟩, s.committed, []⟩ :: s.starting } g rs
      ((⟨⟨root, transaction⟩, s.committed, []⟩, g.work.base) :: ss) := by
  obtain ⟨hload, howned⟩ := h.amid.owned.load
  obtain ⟨hsnapshot, rfl⟩ := Prod.mk.inj (hload.symm.trans hexec)
  obtain ⟨rfl, rfl⟩ := Prod.mk.inj (Except.ok.inj hsnapshot)
  have hmem : ∀ {p}, p ∈ rs ++ (⟨g.work.base.reader, s.committed, []⟩, g.work.base) :: ss →
      p = (⟨g.work.base.reader, s.committed, []⟩, g.work.base) ∨ p ∈ rs ++ ss := by
    intro p hp
    simp only [List.mem_append, List.mem_cons] at hp ⊢
    tauto
  exact { h with
    amid := ⟨howned, h.amid.inFile⟩
    starting := by rw [List.map_cons, ← h.starting]
    fit := fun p hp => by
      rcases hmem hp with rfl | hp
      · exact ⟨rfl, by rw [WriteStage.work_base, h.base], fun call hcall => absurd hcall List.not_mem_nil⟩
      · exact h.fit p hp
    snapshots := fun p hp => by
      rcases hmem hp with rfl | hp
      · exact List.prefix_refl _
      · exact h.snapshots p hp }

/-- The reader that has loaded its snapshot enters the tracker. -/
theorem Fits.register (h : Fits env s g rs ss) {before after : List Reader} {r : Reader}
    {db' : DatabaseState} (hstarting : s.starting = before ++ r :: after)
    (hexec : executeSection env (.whole (.register r.transaction.transaction)) s.db =
      (.ok (), db')) :
    ∃ rs' ss', Fits env { s with
      db := db', starting := before ++ after, readers := r :: s.readers } g rs' ss' := by
  rw [h.starting] at hstarting
  obtain ⟨bs, v, as, rfl, rfl, rfl⟩ := split_readers hstarting.symm
  have hthis : (r, v) ∈ rs ++ (bs ++ (r, v) :: as) := by simp
  have howned := h.amid.owned
  rw [List.map_append, List.map_cons] at howned
  obtain ⟨db₁, hregister, howned', -⟩ := howned.register
  rw [(h.fit _ hthis).transaction] at hexec
  obtain ⟨-, rfl⟩ := Prod.mk.inj (hregister.symm.trans hexec)
  have hmem : ∀ {p}, p ∈ ((r, v) :: rs) ++ (bs ++ as) → p ∈ rs ++ (bs ++ (r, v) :: as) := by
    intro p hp
    simp only [List.mem_append, List.mem_cons] at hp ⊢
    tauto
  have hpageIo : db₁.pageIo = s.db.pageIo := by
    obtain ⟨-, rfl⟩ := Prod.mk.inj hregister
    rfl
  refine ⟨(r, v) :: rs, bs ++ as, { h with
    amid := ⟨?_, hpageIo ▸ h.amid.inFile⟩
    readers := by rw [List.map_cons, ← h.readers]
    starting := List.map_append.symm
    fit := fun p hp => hpageIo ▸ h.fit p (hmem hp)
    snapshots := fun p hp => h.snapshots p (hmem hp) }⟩
  rw [List.map_append, List.map_cons]
  exact howned'

/-- A `read` is called. -/
theorem Fits.read (h : Fits env s g rs ss) {before after : List Reader} {r : Reader} {key : Key}
    (hreaders : s.readers = before ++ r :: after) :
    ∃ rs', Fits env { s with readers := before ++
      { r with calls := ⟨key, (r.transaction.read key).sections⟩ :: r.calls } :: after } g rs' ss := by
  rw [h.readers] at hreaders
  obtain ⟨bs, v, as, rfl, rfl, rfl⟩ := split_readers hreaders.symm
  refine ⟨_, h.replace { r with
    calls := ⟨key, (r.transaction.read key).sections⟩ :: r.calls } h.amid
    ⟨rfl, fun _ _ _ hreads => hreads⟩ rfl fun hr => { hr with calls := fun call hcall => ?_ }⟩
  rcases List.mem_cons.mp hcall with rfl | hcall
  · rw [hr.transaction]
    exact h.amid.owned.pendingRead (by simp) key
  · exact hr.calls call hcall

/-- A section of a `read`. -/
theorem Fits.readSection (h : Fits env s g rs ss) {before after : List Reader} {r : Reader}
    {earlier later : List PendingRead} {key : Key} {rest rest' : Thread (Option Value)}
    {db' : DatabaseState} (hreaders : s.readers = before ++ r :: after)
    (hcalls : r.calls = earlier ++ ⟨key, rest⟩ :: later)
    (hadvances : Advances env rest s.db (.inl rest') db') :
    ∃ rs', Fits env { s with
      db := db'
      readers := before ++ { r with calls := earlier ++ ⟨key, rest'⟩ :: later } :: after } g rs'
        ss := by
  rw [h.readers] at hreaders
  obtain ⟨bs, v, as, rfl, rfl, rfl⟩ := split_readers hreaders.symm
  have hthis := h.fit (r, v) (by simp)
  obtain ⟨known, hknown, hsat⟩ := hthis.calls ⟨key, rest⟩ (by rw [hcalls]; simp)
  cases hadvances with
  | goesOn hperforms =>
    obtain ⟨hpre, hrest⟩ := hsat
    obtain ⟨hexec⟩ := hperforms
    obtain ⟨a, db₁, hexec', hpost, hamid, hkeeps⟩ := h.amid.reads (fun id page hpage =>
      (hknown id page hpage).2) hpre
    obtain ⟨ha, rfl⟩ := Prod.mk.inj (hexec'.symm.trans hexec)
    obtain rfl := Except.ok.inj ha
    refine ⟨_, h.replace _ hamid hkeeps rfl fun hr => { hr with calls := fun call hcall => ?_ }⟩
    have hold : ∀ call ∈ earlier ++ later, call ∈ r.calls := by
      intro call hcall
      rw [hcalls]
      simp only [List.mem_append, List.mem_cons] at hcall ⊢
      tauto
    rcases List.mem_append.mp hcall with hcall | hcall
    · exact hr.calls call (hold call (List.mem_append_left _ hcall))
    rcases List.mem_cons.mp hcall with rfl | hcall
    · refine ⟨known, fun id page hpage => ?_, hrest a () hpost⟩
      obtain ⟨hid, hreads⟩ := hknown id page hpage
      exact ⟨hid, hkeeps.2 id page (Set.notMem_empty id) hreads⟩
    · exact hr.calls call (hold call (List.mem_append_right _ hcall))

/-- A `read` ends. -/
theorem Fits.readEnd (h : Fits env s g rs ss) {before after : List Reader} {r : Reader}
    {earlier later : List PendingRead} {key : Key} {rest : Thread (Option Value)}
    {result : Except Fault (Option Value)} {db' : DatabaseState}
    (hreaders : s.readers = before ++ r :: after)
    (hcalls : r.calls = earlier ++ ⟨key, rest⟩ :: later)
    (hadvances : Advances env rest s.db (.inr result) db') :
    ∃ rs', Fits env { s with
      db := db'
      readers := before ++ { r with calls := earlier ++ later } :: after
      answers := ⟨r.snapshot, key, result⟩ :: s.answers } g rs' ss := by
  rw [h.readers] at hreaders
  obtain ⟨bs, v, as, rfl, rfl, rfl⟩ := split_readers hreaders.symm
  have hthis := h.fit (r, v) (by simp)
  have hbegins := h.snapshots (r, v) (by simp)
  obtain ⟨known, hknown, hsat⟩ := hthis.calls ⟨key, rest⟩ (by rw [hcalls]; simp)
  -- a call that ends has done nothing more, and has the value of its key if it has one
  obtain ⟨rfl, hresult⟩ : db' = s.db ∧ (result = .ok (r.snapshot.map key) ∨
      result = .error (.error (.ioError .other))) := by
    cases hadvances with
    | fails hperforms =>
      obtain ⟨rfl, rfl⟩ := h.amid.reads_error (fun id page hpage => (hknown id page hpage).2) hsat.1
        hperforms
      exact ⟨rfl, Or.inr rfl⟩
    | returns => exact ⟨rfl, Or.inl (by rw [show _ = v.map key from hsat, hthis.map])⟩
    | stops => exact hsat.elim
  have hfits := h.replace { r with calls := earlier ++ later } h.amid
    ⟨rfl, fun _ _ _ hreads => hreads⟩ rfl fun hr => { hr with calls := fun call hcall => hr.calls call (by
      rw [hcalls]
      simp only [List.mem_append, List.mem_cons] at hcall ⊢
      tauto) }
  refine ⟨_, { hfits with answers := fun x hx => ?_ }⟩
  rcases List.mem_cons.mp hx with rfl | hx
  · exact ⟨hbegins, hresult⟩
  · exact h.answers x hx

/-- A read transaction is dropped. -/
theorem Fits.dropReader (h : Fits env s g rs ss) {before after : List Reader} {r : Reader}
    {db' : DatabaseState} (hreaders : s.readers = before ++ r :: after)
    (hexec : executeSection env (.whole (.deregister r.transaction.transaction)) s.db =
      (.ok (), db')) :
    ∃ rs', Fits env { s with db := db', readers := before ++ after } g rs' ss := by
  rw [h.readers] at hreaders
  obtain ⟨bs, v, as, rfl, rfl, rfl⟩ := split_readers hreaders.symm
  have howned := h.amid.owned
  rw [List.map_append, List.map_cons] at howned
  obtain ⟨db₁, hdrop, howned', -⟩ := howned.dropReader
  rw [(h.fit (r, v) (by simp)).transaction] at hexec
  have hrun : v.reader.drop.run (execute env) s.db = (.ok (), db') :=
    (Program.run_op _ _ _).trans hexec
  obtain ⟨-, rfl⟩ := Prod.mk.inj (hdrop.symm.trans hrun)
  have hpageIo : db₁.pageIo = s.db.pageIo := by
    obtain ⟨-, rfl⟩ := Prod.mk.inj hexec
    rfl
  have hmem : ∀ {p}, p ∈ (bs ++ as) ++ ss → p ∈ (bs ++ (r, v) :: as) ++ ss := by
    intro p hp
    simp only [List.mem_append, List.mem_cons] at hp ⊢
    tauto
  refine ⟨bs ++ as, { h with
    amid := ⟨?_, hpageIo ▸ h.amid.inFile⟩
    readers := List.map_append.symm
    fit := fun p hp => hpageIo ▸ h.fit p (hmem hp)
    snapshots := fun p hp => h.snapshots p (hmem hp) }⟩
  rw [List.map_append]
  exact howned'

/-! ### The writer -/

theorem Fits.safe (h : Fits env s g rs ss) (hcovered : s.Covered)
    (hnext : s.writer.next = some (.whole .allocatePageId)) : Safe s.db (ss.map Prod.snd) := by
  intro e rest hreusable v hv
  obtain ⟨p, hp, rfl⟩ := List.mem_map.mp hv
  have hle := hcovered hnext e rest hreusable p.1 (by rw [h.starting]; exact List.mem_map_of_mem hp)
  rwa [(h.fit p (List.mem_append_right _ hp)).transaction] at hle

/-- A section of the writer that succeeds. -/
theorem Fits.perform_ok (h : Fits env s g rs ss) (hcovered : s.Covered) {o : Section}
    (hnext : s.writer.next = some o) (hpre : SectionPre env g o) {a : o.Answer}
    {db' : DatabaseState} (hperforms : Performs env o s.db (.ok a) db') :
    ∃ g', SectionPost g o a g' ∧ ∀ committed writer, s.committed <+: committed →
      g'.before.base.map = Commits.map committed → writer.Fits env s.acknowledged committed g' →
        Fits env { s with db := db', writer, committed } g' rs ss := by
  obtain ⟨g', hpost, hamid⟩ := h.amid.perform_ok hpre (fun ho => h.safe hcovered (ho ▸ hnext))
    hperforms
  obtain ⟨S, hkeeps, hS⟩ := h.amid.keeps hpre hperforms
  refine ⟨g', hpost, fun committed writer hbegins hbase hwriter => { h with
    amid := hamid
    fit := h.keeps hkeeps hS
    snapshots := fun p hp => (h.snapshots p hp).trans hbegins
    base := hbase
    header := ?_
    writer := hwriter
    answers := fun x hx => ⟨(h.answers x hx).1.trans hbegins, (h.answers x hx).2⟩ }⟩
  rcases sectionPost_work h.amid hpre hpost with ⟨-, v, -, hwork⟩ | ⟨-, ⟨-, hheader, hsize⟩, -⟩
  · rw [hwork]
    exact h.header
  · rw [hheader, hsize]
    exact h.header

/-- A section of the writer that fails, before anything is published. -/
theorem Fits.perform_error (h : Fits env s g rs ss) (hcovered : s.Covered) {o : Section}
    (hnext : s.writer.next = some o) (hpre : SectionPre env g o) {e : Fault}
    {db' : DatabaseState} (hperforms : Performs env o s.db (.error e) db') :
    Unpublished g.before ∧ ∃ w', w'.phase = g.before.phase ∧ ∀ writer,
      writer.Fits env s.acknowledged s.committed (.clean w') →
        Fits env { s with db := db', writer } (.clean w') rs ss := by
  obtain ⟨hunpublished, view, next, howned⟩ := h.amid.perform_error hpre
    (fun ho => h.safe hcovered (ho ▸ hnext)) hperforms
  obtain ⟨S, hkeeps, hS⟩ := h.amid.keeps hpre hperforms
  refine ⟨by rwa [Unpublished, ← g.work_phase], { g.work with view, next }, g.work_phase,
    fun writer hwriter =>
    { h with
      amid := ⟨howned, trivial⟩
      fit := h.keeps hkeeps hS
      base := ?_
      header := ?_
      writer := hwriter }⟩
  · rw [← h.base, ← g.work_base]
    rfl
  · rw [WriteStage.before, g.work_header, g.work_pageSize]
    exact h.header

/-- Between two calls a page that is only in the file is a page of nobody. -/
theorem Fits.drop (h : Fits env s g rs ss) :
    ∀ writer, writer.Fits env s.acknowledged s.committed (.clean g.work) →
      Fits env { s with writer } (.clean g.work) rs ss := fun writer hwriter =>
  { h with
    amid := ⟨h.amid.owned, trivial⟩
    base := by
      rw [← h.base, ← g.work_base]
      rfl
    header := by
      rw [WriteStage.before, g.work_header, g.work_pageSize]
      exact h.header
    writer := hwriter }

theorem Fits.beginWrite (h : Fits env s g rs ss) {tx : WriteTransaction} {db' : DatabaseState}
    (hwriter : s.writer = .idle)
    (hrun : (Database.beginWrite s.db.pageIo.pageSize).run (execute env) s.db = (.ok tx, db')) :
    ∃ g', Fits env { s with db := db', writer := .holding tx [] } g' rs ss := by
  have hfits := h.writer
  rw [hwriter] at hfits
  obtain ⟨hcommitted, w, rfl⟩ := hfits
  obtain ⟨rfl, hworking⟩ := Owned.beginWrite h.amid.owned hrun
  have hbase : w.base.map = s.committed.map := h.base
  refine ⟨.clean w.restart, { h with
    amid := ⟨Owned.restart h.amid.owned, trivial⟩
    writer := ⟨hcommitted, rfl, w.restart, rfl, Or.inr ?_⟩ }⟩
  rw [Commits.map_nil, ← hbase]
  exact hworking

/-- The code of an insertion keeps to the protocol of the sections. -/
theorem Fits.insert (henv : env.debugAssertions = true) (h : Fits env s g rs ss)
    {tx : WriteTransaction} {inserts : List (Key × Value)} {key : Key} {value : Value}
    (hwriter : s.writer = .holding tx inserts) :
    Fits env { s with
      writer := .inserting tx inserts (key, value) (tx.insert env key value).sections } g rs ss := by
  have hfits := h.writer
  rw [hwriter] at hfits
  obtain ⟨hcommitted, hphase, w, rfl, hholds⟩ := hfits
  refine { h with writer := ⟨hcommitted, hphase, ?_⟩ }
  rcases hholds with hfailed | hworking
  · rw [WriteTransaction.insert, hfailed, if_pos rfl]
    trivial
  · have hsat : (tx.insert env key value).Sat (Kv.writer env) (fun _ => True) w _ :=
      (hworking.insert_sat henv key value).faults fun _ _ => trivial
    refine (hsat.expand (writer_sections_sat env)).mono ?_
    rintro tx' g' ⟨w', ⟨hworking', -⟩, rfl⟩
    refine ⟨w', rfl, Or.inr ?_⟩
    rw [Commits.map_insert]
    exact hworking'

/-- A section of an insertion. -/
theorem Fits.insertSection (h : Fits env s g rs ss) (hcovered : s.Covered) {tx : WriteTransaction}
    {inserts : List (Key × Value)} {pair : Key × Value} {rest rest' : Thread WriteTransaction}
    {db' : DatabaseState} (hwriter : s.writer = .inserting tx inserts pair rest)
    (hadvances : Advances env rest s.db (.inl rest') db') :
    ∃ g', Fits env { s with db := db', writer := .inserting tx inserts pair rest' } g' rs ss := by
  have hfits := h.writer
  rw [hwriter] at hfits
  obtain ⟨hcommitted, hphase, hsat⟩ := hfits
  cases hadvances with
  | goesOn hperforms =>
    obtain ⟨hpre, hrest⟩ := hsat
    obtain ⟨g', hpost, hgoes⟩ := h.perform_ok hcovered (by rw [hwriter]; rfl) hpre hperforms
    obtain ⟨hphase', hbase⟩ : g'.before.phase = .building ∧ g'.before.base = g.before.base := by
      rcases sectionPost_cases h.amid hpre hpost with ⟨hsame, -⟩ | ⟨op, answer, hop, hopPost, -⟩
      · rw [hsame]
        exact ⟨hphase, rfl⟩
      · exact building_post hphase hop hopPost
    exact ⟨g', hgoes s.committed _ (List.prefix_refl _) (by rw [hbase, h.base])
      ⟨hcommitted, hphase', hrest _ g' hpost⟩⟩

/-- An insertion returns. -/
theorem Fits.insertOk (h : Fits env s g rs ss) {tx tx' : WriteTransaction}
    {inserts : List (Key × Value)} {pair : Key × Value} {rest : Thread WriteTransaction}
    {db' : DatabaseState} (hwriter : s.writer = .inserting tx inserts pair rest)
    (hadvances : Advances env rest s.db (.inr (.ok tx')) db') :
    Fits env { s with db := db', writer := .holding tx' (inserts ++ [pair]) } g rs ss := by
  have hfits := h.writer
  rw [hwriter] at hfits
  obtain ⟨hcommitted, hphase, hsat⟩ := hfits
  cases hadvances with
  | returns => exact { h with writer := ⟨hcommitted, hphase, hsat⟩ }

/-- An insertion fails: the transaction is left to refuse every call. -/
theorem Fits.insertError (h : Fits env s g rs ss) (hcovered : s.Covered) {tx : WriteTransaction}
    {inserts : List (Key × Value)} {pair : Key × Value} {rest : Thread WriteTransaction} {e : Fault}
    {db' : DatabaseState} (hwriter : s.writer = .inserting tx inserts pair rest)
    (hadvances : Advances env rest s.db (.inr (.error e)) db') :
    ∃ g', Fits env { s with
      db := db', writer := (Writing.holding tx.invalidate inserts).fallback e } g' rs ss := by
  have hfits := h.writer
  rw [hwriter] at hfits
  obtain ⟨hcommitted, hphase, hsat⟩ := hfits
  have hleft : ∀ w', w'.phase = .building → ((Writing.holding tx.invalidate inserts).fallback e).Fits
      env s.acknowledged s.committed (.clean w') := by
    intro w' hbuilding
    cases e with
    | error e => exact ⟨hcommitted, hbuilding, w', rfl, Or.inl rfl⟩
    | _ => exact hcommitted
  cases hadvances with
  | fails hperforms =>
    obtain ⟨-, w', hphase', hgoes⟩ := h.perform_error hcovered (by rw [hwriter]; rfl) hsat.1 hperforms
    exact ⟨.clean w', hgoes _ (hleft w' (hphase'.trans hphase))⟩
  | stops => exact ⟨.clean g.work, h.drop _ (hleft g.work (g.work_phase.trans hphase))⟩

/-- The code of a commit keeps to the protocol of the sections, once the version it is to write
is known. -/
theorem Fits.commit (h : Fits env s g rs ss) {tx : WriteTransaction}
    {inserts : List (Key × Value)} {pages : List (PageId × DirtyPageSlot)}
    (hwriter : s.writer = .holding tx inserts) (hpages : pages.Perm tx.dirtyPages) :
    ∃ g', Fits env { s with writer := .committing inserts (tx.commit pages).sections } g' rs ss := by
  have hfits := h.writer
  rw [hwriter] at hfits
  obtain ⟨hcommitted, hphase, w, rfl, hholds⟩ := hfits
  rcases hholds with hfailed | hworking
  · refine ⟨.clean w, { h with writer := Or.inl ⟨hcommitted, .error .transactionFailed, ?_⟩ }⟩
    rw [WriteTransaction.commit, hfailed, if_pos rfl]
    rfl
  · obtain ⟨v, hbuilds, hmap⟩ := hworking.ok.builds
    have howned : Owned env s.db w (rs.map Prod.snd) (ss.map Prod.snd) := h.amid.owned
    -- the header page takes the header, since its page size is that of the database
    have hencodable : Encodable (fun _ => False) w.header := by
      have hheader : w.header.pageSize.toNat = w.pageSize := h.header
      rw [Encodable, hheader]
      exact Or.inl ⟨le_trans (by decide) howned.large, howned.small⟩
    have hsat := commit_sat hbuilds hworking.ok.inv howned.stands.header hworking.failed hpages
      hencodable
    refine ⟨.clean { w with phase := .writing v }, { h with
      amid := ⟨howned.plan hworking hbuilds, trivial⟩
      writer := Or.inr ⟨⟨⟨?_, ?_⟩, fun _ => hcommitted, fun old released heq => ?_⟩, ?_⟩ }⟩
    · rw [← hcommitted]
      exact h.base
    · rw [← hcommitted]
      exact hmap
    · exact absurd heq (by simp [WriteStage.before])
    · refine (hsat.expand (writer_sections_sat env)).mono ?_
      rintro - g' ⟨w', rfl, rfl⟩
      exact ⟨_, rfl, _, _, rfl⟩

/-- **A section of a commit**: the one that moves the snapshot commits the transaction. -/
theorem Fits.commitSection (h : Fits env s g rs ss) (hcovered : s.Covered)
    {inserts : List (Key × Value)} {o : Section} {k : o.Answer → Thread Unit} {a : o.Answer}
    {db' : DatabaseState} (hwriter : s.writer = .committing inserts (.perform o k))
    (hperforms : Performs env o s.db (.ok a) db') :
    ∃ g', Fits env { s with
      db := db'
      writer := .committing inserts (k a)
      committed := if o.publishes then s.committed ++ [inserts] else s.committed } g' rs ss := by
  have hfits := h.writer
  rw [hwriter] at hfits
  rcases hfits with ⟨-, e, hfault⟩ | ⟨hpublishing, hpre, hrest⟩
  · exact absurd hfault (by simp)
  obtain ⟨g', hpost, hgoes⟩ := h.perform_ok hcovered (by rw [hwriter]; rfl) hpre hperforms
  have hcommits : CommitsTo (fun _ => True) s.acknowledged (s.acknowledged ++ [inserts])
      g'.before := by
    rcases sectionPost_cases h.amid hpre hpost with ⟨hsame, -⟩ | ⟨op, answer, hop, hopPost, -⟩
    · rw [hsame]
      exact hpublishing.commits
    · exact hpublishing.commits.post hop hopPost (fun _ => trivial) fun _ => trivial
  refine ⟨g', ?_⟩
  rcases sectionPost_work h.amid hpre hpost with ⟨hyes, v, hsynced, hwork⟩ | ⟨hno, ⟨hbase, -⟩, hun⟩
  · have hcommitted : s.committed = s.acknowledged := hpublishing.unpublished fun old released heq =>
      absurd (hsynced.symm.trans heq) (by simp)
    rw [hyes, if_pos rfl]
    refine hgoes _ _ (List.prefix_append _ _) ?_ (Or.inr ⟨⟨hcommits, fun hnot => ?_, fun _ _ _ => ?_⟩,
      hrest a g' hpost⟩)
    · rw [CommitsTo, hwork] at hcommits
      rw [hwork, hcommitted]
      exact hcommits.1
    · rw [hwork] at hnot
      exact absurd rfl (hnot _ _)
    · rw [hcommitted]
  · rw [hno, if_neg Bool.false_ne_true]
    refine hgoes _ _ (List.prefix_refl _) (by rw [hbase, h.base]) (Or.inr ⟨⟨hcommits,
      fun hnot => hpublishing.unpublished (hun.mp hnot), fun old released heq => ?_⟩,
      hrest a g' hpost⟩)
    by_contra hne
    refine (hun.mpr fun old' released' heq' => hne ?_) old released heq
    exact hpublishing.published old' released' heq'

/-- A commit returns: it has been published. -/
theorem Fits.commitOk (h : Fits env s g rs ss) {inserts : List (Key × Value)}
    (hwriter : s.writer = .committing inserts (.ret ())) :
    Fits env { s with writer := .idle, acknowledged := s.acknowledged ++ [inserts] } g rs ss := by
  have hfits := h.writer
  rw [hwriter] at hfits
  rcases hfits with ⟨-, e, hfault⟩ | ⟨hpublishing, w, rfl, old, released, hphase⟩
  · exact absurd hfault (by simp)
  · exact { h with writer := ⟨hpublishing.published old released hphase, w, rfl⟩ }

/-- A commit fails: it has not been published. -/
theorem Fits.commitError (h : Fits env s g rs ss) (hcovered : s.Covered)
    {inserts : List (Key × Value)} {rest : Thread Unit} {e : Fault} {db' : DatabaseState}
    (hwriter : s.writer = .committing inserts rest)
    (hadvances : Advances env rest s.db (.inr (.error e)) db') :
    ∃ g', Fits env { s with db := db', writer := Writing.idle.fallback e } g' rs ss := by
  have hfits := h.writer
  rw [hwriter] at hfits
  have hleft : s.committed = s.acknowledged → ∀ w',
      (Writing.idle.fallback e).Fits env s.acknowledged s.committed (.clean w') := by
    intro hcommitted w'
    cases e with
    | error e => exact ⟨hcommitted, w', rfl⟩
    | _ => exact hcommitted
  cases hadvances with
  | fails hperforms =>
    rcases hfits with ⟨-, e, hfault⟩ | ⟨hpublishing, hpre, -⟩
    · exact absurd hfault (by simp)
    · obtain ⟨hun, w', -, hgoes⟩ := h.perform_error hcovered (by rw [hwriter]; rfl) hpre hperforms
      exact ⟨.clean w', hgoes _ (hleft (hpublishing.unpublished hun) w')⟩
  | stops =>
    rcases hfits with ⟨hcommitted, -⟩ | ⟨-, hsat⟩
    · exact ⟨.clean g.work, h.drop _ (hleft hcommitted g.work)⟩
    · exact hsat.elim

/-- **Every step keeps it.** -/
theorem Fits.step (henv : env.debugAssertions = true) (h : Fits env s g rs ss)
    (hcovered : s.Covered) (hstep : Step env s s') : ∃ g' rs' ss', Fits env s' g' rs' ss' := by
  cases hstep with
  | load hexec => exact ⟨g, rs, _, h.load hexec⟩
  | register hstarting hexec =>
    obtain ⟨rs', ss', h'⟩ := h.register hstarting hexec
    exact ⟨g, rs', ss', h'⟩
  | read hreaders =>
    obtain ⟨rs', h'⟩ := h.read hreaders
    exact ⟨g, rs', ss, h'⟩
  | readSection hreaders hcalls hadvances =>
    obtain ⟨rs', h'⟩ := h.readSection hreaders hcalls hadvances
    exact ⟨g, rs', ss, h'⟩
  | readEnd hreaders hcalls hadvances =>
    obtain ⟨rs', h'⟩ := h.readEnd hreaders hcalls hadvances
    exact ⟨g, rs', ss, h'⟩
  | dropReader hreaders hcalls hexec =>
    obtain ⟨rs', h'⟩ := h.dropReader hreaders hexec
    exact ⟨g, rs', ss, h'⟩
  | beginWrite hwriter hrun =>
    obtain ⟨g', h'⟩ := h.beginWrite hwriter hrun
    exact ⟨g', rs, ss, h'⟩
  | insert hwriter => exact ⟨g, rs, ss, h.insert henv hwriter⟩
  | insertSection hwriter hadvances =>
    obtain ⟨g', h'⟩ := h.insertSection hcovered hwriter hadvances
    exact ⟨g', rs, ss, h'⟩
  | insertOk hwriter hadvances => exact ⟨g, rs, ss, h.insertOk hwriter hadvances⟩
  | insertError hwriter hadvances =>
    obtain ⟨g', h'⟩ := h.insertError hcovered hwriter hadvances
    exact ⟨g', rs, ss, h'⟩
  | commit hwriter hpages =>
    obtain ⟨g', h'⟩ := h.commit hwriter hpages
    exact ⟨g', rs, ss, h'⟩
  | commitSection hwriter hperforms =>
    obtain ⟨g', h'⟩ := h.commitSection hcovered hwriter hperforms
    exact ⟨g', rs, ss, h'⟩
  | commitOk hwriter => exact ⟨g, rs, ss, h.commitOk hwriter⟩
  | commitError hwriter hadvances =>
    obtain ⟨g', h'⟩ := h.commitError hcovered hwriter hadvances
    exact ⟨g', rs, ss, h'⟩
  | dropWriter hwriter =>
    have hfits := h.writer
    rw [hwriter] at hfits
    obtain ⟨hcommitted, -, w, hg, -⟩ := hfits
    exact ⟨g, rs, ss, { h with writer := ⟨hcommitted, w, hg⟩ }⟩

theorem fits_fresh {pageSize : ℕ} {page : Bytes} {db : DatabaseState}
    (h : Fresh env pageSize page db) :
    Fits env (start db) (.clean (.opened pageSize (DbHeader.initial pageSize (env.checksumPage page))
      (.initial env page) (.initial page))) [] [] where
  amid := ⟨h.owned, trivial⟩
  readers := rfl
  starting := rfl
  fit := fun p hp => absurd hp List.not_mem_nil
  snapshots := fun p hp => absurd hp List.not_mem_nil
  base := rfl
  header := UInt64.toNat_ofNat_of_lt' (h.small.trans (by decide))
  writer := ⟨rfl, _, rfl⟩
  answers := fun x hx => absurd hx List.not_mem_nil

/-- **Along any run from a new database** whose steps are covered. -/
theorem Run.fits (henv : env.debugAssertions = true) {pageSize : ℕ} {evicts : ℕ → PageId → Bool}
    {db : DatabaseState} (hnew : Database.openNew env pageSize evicts = .ok db)
    (hrun : Run env Covered (start db) s) : ∃ g rs ss, Fits env s g rs ss := by
  induction hrun with
  | refl =>
    obtain ⟨page, hfresh⟩ := openNew_ok hnew
    exact ⟨_, [], [], fits_fresh hfresh⟩
  | tail _ hstep ih =>
    obtain ⟨g, rs, ss, h⟩ := ih
    exact h.step henv hstep.1 hstep.2

/-- The commits that have returned are the ones that have taken effect, but for one that is
about to return. -/
theorem Fits.acknowledged (h : Fits env s g rs ss) : s.committed = s.acknowledged ∨
    ∃ inserts rest, s.writer = .committing inserts rest ∧
      s.committed = s.acknowledged ++ [inserts] := by
  have hfits := h.writer
  cases hwriter : s.writer with
  | idle =>
    rw [hwriter] at hfits
    exact Or.inl hfits.1
  | holding tx inserts =>
    rw [hwriter] at hfits
    exact Or.inl hfits.1
  | inserting tx inserts pair rest =>
    rw [hwriter] at hfits
    exact Or.inl hfits.1
  | poisoned =>
    rw [hwriter] at hfits
    exact Or.inl hfits
  | committing inserts rest =>
    rw [hwriter] at hfits
    rcases hfits with ⟨hcommitted, -⟩ | ⟨hpublishing, -⟩
    · exact Or.inl hcommitted
    by_cases hun : Unpublished g.before
    · exact Or.inl (hpublishing.unpublished hun)
    · simp only [Unpublished, not_forall, not_not] at hun
      obtain ⟨old, released, hphase⟩ := hun
      exact Or.inr ⟨inserts, rest, rfl, hpublishing.published old released hphase⟩

end Concurrent

namespace Concurrent

variable {s : Concurrent} {K : Concurrent → Prop}

end Concurrent

end

end KvRaft.Kv
