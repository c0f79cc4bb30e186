import KvRaft.Effect.Trace
import KvRaft.Kv.Failure

/-!
# Using a device that fails

The public calls in any order, whatever they end with, on a device on which any input or output
may fail. A `Usage` is a database with its open transactions; `Usage.Call` is a public call, with
the failures that come up in it and a trace of what it does to the shared state. Where a call
of a write transaction panics, the transaction is gone.

Beside the transactions a usage remembers the page ids that `allocate_page_id` has returned to
the open write transaction.
-/

namespace KvRaft.Kv

open Ordered

/-- An operation that has been performed on the device. -/
abbrev Event : Type := KvRaft.Event signature Fault Device

namespace Event

/-- The page id that `allocate_page_id` has returned. -/
def allocated : Event → Option PageId
  | ⟨_, .allocatePageId, .ok pageId, _⟩ => some pageId
  | _ => none

end Event

/-- A call on the device: its result, the database after it, and the trace. -/
def Traces {α : Type} (env : Env) (call : Call α) (db : DatabaseState) (failures : List (Option ℕ))
    (result : Except Fault α) (db' : DatabaseState) (log : List Event) : Prop :=
  ∃ d, call.run (faulty env).traced (⟨db, failures, []⟩, []) = (result, d, log) ∧ d.db = db'

/-- A database that has just been opened, with a new file or an existing one. -/
def JustOpened (env : Env) (db : DatabaseState) : Prop :=
  (∃ pageSize evicts, Database.openNew env pageSize evicts = .ok db) ∨
    ∃ fileHandler evicts, Database.openExisting env fileHandler evicts = .ok db

/-- A database in use. -/
structure Usage where
  db : DatabaseState
  /-- The open write transaction. -/
  writer : Option WriteTransaction
  /-- The open read transactions. -/
  readers : List ReadTransaction
  /-- The page ids returned to the open write transaction. -/
  allocated : List PageId

namespace Usage

/-- A database that has just been opened. -/
def start (db : DatabaseState) : Usage := ⟨db, none, [], []⟩

/-- What an insertion leaves of a write transaction. -/
def afterInsert (tx : WriteTransaction) : Except Fault WriteTransaction → Option WriteTransaction
  | .ok tx' => some tx'
  | .error (.error _) => some tx.invalidate
  | .error _ => none

/-- A public call. -/
inductive Call (env : Env) (s : Usage) : List (Option ℕ) → List Event → Usage → Prop
  | beginRead {failures : List (Option ℕ)} {log : List Event} {r : ReadTransaction}
    {db' : DatabaseState}
    (hrun : Traces env Database.beginRead s.db failures (.ok r) db' log) :
    Call env s failures log { s with db := db', readers := r :: s.readers }
  | read {failures : List (Option ℕ)} {log : List Event} {r : ReadTransaction} {key : Key}
    {result : Except Fault (Option Value)} {db' : DatabaseState} (hreader : r ∈ s.readers)
    (hrun : Traces env (r.read key) s.db failures result db' log) :
    Call env s failures log { s with db := db' }
  /-- The drop of a read transaction. -/
  | dropReader {failures : List (Option ℕ)} {log : List Event} {r : ReadTransaction}
    {db' : DatabaseState} (hreader : r ∈ s.readers)
    (hrun : Traces env r.drop s.db failures (.ok ()) db' log) :
    Call env s failures log { s with db := db', readers := s.readers.erase r }
  | beginWrite {failures : List (Option ℕ)} {log : List Event} {tx : WriteTransaction}
    {db' : DatabaseState} (hwriter : s.writer = none)
    (hrun : Traces env (Database.beginWrite s.db.pageIo.pageSize) s.db failures (.ok tx) db' log) :
    Call env s failures log { s with db := db', writer := some tx, allocated := [] }
  | insert {failures : List (Option ℕ)} {log : List Event} {tx : WriteTransaction} {key : Key}
    {value : Value} {result : Except Fault WriteTransaction} {db' : DatabaseState}
    (hwriter : s.writer = some tx)
    (hrun : Traces env (tx.insert env key value) s.db failures result db' log) :
    Call env s failures log { s with
      db := db'
      writer := afterInsert tx result
      allocated := s.allocated ++ log.filterMap Event.allocated }
  /-- The commit of the open write transaction, whose dirty pages come in any order. -/
  | commit {failures : List (Option ℕ)} {log : List Event} {tx : WriteTransaction}
    {pages : List (PageId × DirtyPageSlot)} {result : Except Fault Unit} {db' : DatabaseState}
    (hwriter : s.writer = some tx) (hpages : pages.Perm tx.dirtyPages)
    (hrun : Traces env (tx.commit pages) s.db failures result db' log) :
    Call env s failures log { s with
      db := db'
      writer := none
      allocated := s.allocated ++ log.filterMap Event.allocated }
  | dropWriter {failures : List (Option ℕ)} {tx : WriteTransaction}
    (hwriter : s.writer = some tx) : Call env s failures [] { s with writer := none }

/-- Any number of public calls. -/
def Run (env : Env) : Usage → Usage → Prop :=
  Relation.ReflTransGen fun s t => ∃ failures log, s.Call env failures log t

end Usage

/-! ### Calls that allocate nothing -/

section

variable {env : Env} {db db' : DatabaseState} {failures : List (Option ℕ)} {log : List Event}

theorem Traces.ends {α : Type} {call : Call α} {result : Except Fault α}
    (h : Traces env call db failures result db' log) : Ends env call db result db' := by
  obtain ⟨d, hrun, rfl⟩ := h
  obtain ⟨hresult, hd⟩ := Program.run_traced (faulty env) call ⟨db, failures, []⟩ []
  rw [hrun] at hresult hd
  exact ⟨failures, d, Prod.ext hresult.symm hd.symm, rfl⟩

/-- A call on a device that does not fail. -/
theorem Traces.of_run {α : Type} {call : Call α} {result : Except Fault α}
    (h : call.run (execute env) db = (result, db')) : ∃ log, Traces env call db [] result db' log := by
  obtain ⟨hresult, hdb⟩ := run_faulty_eq env call ⟨db, [], []⟩ (Or.inl rfl)
  obtain ⟨hresult', hd⟩ := Program.run_traced (faulty env) call ⟨db, [], []⟩ []
  rw [hresult, h] at hresult'
  rw [← hd, h] at hdb
  exact ⟨_, _, Prod.ext hresult' rfl, hdb⟩

/-- Nothing has changed but the cache. -/
def OnlyCache (db db' : DatabaseState) : Prop :=
  ∃ pageCache, db' = { db with pageIo := { db.pageIo with pageCache } }

theorem OnlyCache.refl (db : DatabaseState) : OnlyCache db db := ⟨db.pageIo.pageCache, rfl⟩

theorem OnlyCache.trans {db₁ db₂ db₃ : DatabaseState} (h : OnlyCache db₁ db₂)
    (h' : OnlyCache db₂ db₃) : OnlyCache db₁ db₃ := by
  obtain ⟨pageCache, rfl⟩ := h
  obtain ⟨pageCache', rfl⟩ := h'
  exact ⟨pageCache', rfl⟩

/-- Reading a page fills the cache. -/
theorem onlyCache_execute (env : Env) (pageId : PageId) (db : DatabaseState) :
    OnlyCache db (execute env (.readPage pageId) db).2 := by
  rw [execute, PageIo.readPage]
  dsimp only
  split
  · exact ⟨_, rfl⟩
  · split <;> exact ⟨_, rfl⟩

/-- So does an attempt to. -/
theorem onlyCache_afterIoError {k : ℕ} {pageId : PageId}
    (hafter : afterIoError env k db (.readPage pageId) = some db') : OnlyCache db db' := by
  rw [afterIoError] at hafter
  split at hafter
  · exact absurd hafter (by simp)
  · next pageCache _ =>
    split at hafter
    · exact absurd hafter (by simp)
    · exact ⟨pageCache, (Option.some.inj hafter).symm⟩

theorem onlyCache_readPage (env : Env) (pageId : PageId) (d : Device) :
    OnlyCache d.db (faulty env (.readPage pageId) d).2.db := by
  rcases faulty_cases env (.readPage pageId) d with ⟨k, db', hafter, hop⟩ | hop
  · rw [hop]
    exact onlyCache_afterIoError hafter
  · rw [hop]
    exact onlyCache_execute env pageId d.db

/-- The protocol of code that reads pages. -/
def browsing : Protocol signature Unit where
  pre _ o := ∃ pageId, o = .readPage pageId
  post _ _ _ _ := True

theorem get_browsing (depth : ℕ) (nodePageId : PageId) (key : Key) :
    (Tree.get depth nodePageId key).Sat browsing (fun _ => True) () fun _ _ => True := by
  induction depth generalizing nodePageId with
  | zero => exact trivial
  | succ depth ih =>
    rw [Tree.get, Program.sat_bind]
    refine ⟨⟨nodePageId, rfl⟩, fun page _ _ => ?_⟩
    rw [Program.sat_ret, Program.sat_bind, Program.liftM_eq, Program.sat_ofExcept]
    cases NodePage.fromPage page with
    | error e => exact trivial
    | ok node =>
      rw [returns_ok]
      cases node with
      | leaf leafPage =>
        dsimp only
        rw [Program.liftM_eq, Program.sat_ofExcept]
        cases leafPage.getValue key <;> exact trivial
      | branch branchPage =>
        dsimp only
        rw [Program.sat_bind, Program.liftM_eq, Program.sat_ofExcept]
        cases branchPage.childPageIdForKey key with
        | error e => exact trivial
        | ok child => exact ih child

theorem browsing_honours (env : Env) (db : DatabaseState) :
    (faulty env).Honours browsing (fun _ d => OnlyCache db d.db) fun d _ => OnlyCache db d.db := by
  rintro d ⟨⟩ o h ⟨pageId, rfl⟩
  have hread := h.trans (onlyCache_readPage env pageId d)
  rcases hop : faulty env (.readPage pageId) d with ⟨e | page, d'⟩
  · rw [hop] at hread
    exact hread
  · rw [hop] at hread
    exact ⟨(), trivial, hread⟩

/-- **Reading** a key performs nothing but reads of pages. -/
theorem Traces.read {r : ReadTransaction} {key : Key} {result : Except Fault (Option Value)}
    (h : Traces env (r.read key) db failures result db' log) :
    OnlyCache db db' ∧ ∀ event ∈ log,
      OnlyCache db event.before.db ∧ ∃ pageId, event.op = .readPage pageId := by
  obtain ⟨d, hrun, rfl⟩ := h
  have hhonours := (browsing_honours env db).events
    (E := fun event => OnlyCache db event.before.db ∧ ∃ pageId : PageId, event.op = Op.readPage pageId)
    fun o hR (hpre : ∃ pageId, o = Op.readPage pageId) => ⟨hR, hpre⟩
  have hresult := (get_browsing maxDepth r.rootPageId key).run hhonours
    (s := (⟨db, failures, []⟩, [])) ⟨.refl db, fun event hevent => absurd hevent List.not_mem_nil⟩
  change (Tree.get maxDepth r.rootPageId key).run _ _ = _ at hrun
  rw [hrun] at hresult
  cases result with
  | ok value =>
    obtain ⟨-, -, h⟩ := hresult
    exact h
  | error e => exact hresult.elim (fun h => h.2.elim fun _ h => h) fun h => h

theorem faulty_of_quiet {o : Op} {d : Device} (hquiet : ∀ k, afterIoError env k d.db o = none) :
    faulty env o d = ((execute env o d.db).1,
      ⟨(execute env o d.db).2, d.failures.tail, o.written ++ d.written⟩) := by
  rcases faulty_cases env o d with ⟨k, db', hafter, -⟩ | hop
  · exact absurd ((hquiet k).symm.trans hafter) (by simp)
  · exact hop

/-- The protocol of code that looks at the state in memory, and at last may change the
tracker. The ghost tells whether it has. -/
def glancing : Protocol signature Bool where
  pre changed
    | .loadSnapshot => changed = false
    | .loadHeader => changed = false
    | .register _ => changed = false
    | .deregister _ => changed = false
    | _ => False
  post _ o _ changed' :=
    match o with
    | .loadSnapshot => changed' = false
    | .loadHeader => changed' = false
    | _ => changed' = true

theorem glancing_honours (env : Env) (db : DatabaseState) :
    (faulty env).Honours glancing (fun _ _ => True) fun d changed => changed = false → d.db = db := by
  intro d changed o h hpre
  cases o with
  | loadSnapshot =>
    rw [faulty_of_quiet fun _ => rfl]
    exact ⟨false, rfl, fun _ => h hpre⟩
  | loadHeader =>
    rw [faulty_of_quiet fun _ => rfl]
    exact ⟨false, rfl, fun _ => h hpre⟩
  | register transaction =>
    rw [faulty_of_quiet fun _ => rfl]
    exact ⟨true, rfl, fun heq => absurd heq (by simp)⟩
  | deregister transaction =>
    rw [faulty_of_quiet fun _ => rfl]
    exact ⟨true, rfl, fun heq => absurd heq (by simp)⟩
  | _ => exact hpre.elim

/-- The operations are performed on the database as it was, and allocate nothing. -/
def Calm (db : DatabaseState) (log : List Event) : Prop :=
  ∀ event ∈ log, event.before.db = db ∧ event.op ≠ .allocatePageId

theorem Traces.calm {α : Type} {call : Call α} {result : Except Fault α}
    (h : Traces env call db failures result db' log)
    (hsat : call.Sat glancing (fun _ => True) false fun _ _ => True) : Calm db log := by
  obtain ⟨d, hrun, -⟩ := h
  have hhonours := (glancing_honours env db).events
    (E := fun event => event.before.db = db ∧ event.op ≠ Op.allocatePageId) (by
      intro d changed o hR hpre
      cases o with
      | loadSnapshot => exact ⟨hR hpre, by simp⟩
      | loadHeader => exact ⟨hR hpre, by simp⟩
      | register transaction => exact ⟨hR hpre, by simp⟩
      | deregister transaction => exact ⟨hR hpre, by simp⟩
      | _ => exact hpre.elim)
  have hresult := hsat.run hhonours (s := (⟨db, failures, []⟩, []))
    ⟨fun _ => rfl, fun event hevent => absurd hevent List.not_mem_nil⟩
  rw [hrun] at hresult
  cases result with
  | ok a =>
    obtain ⟨_, -, h⟩ := hresult
    exact h.2
  | error e => exact hresult.elim (fun h => h.2.elim fun _ h => h.2) fun h => h.2

theorem Traces.beginRead {r : ReadTransaction}
    (h : Traces env Database.beginRead db failures (.ok r) db' log) :
    Database.beginRead.run (execute env) db = (.ok r, db') ∧ Calm db log :=
  ⟨h.ends.of_quiet Trial.quiet_beginRead,
    h.calm ⟨rfl, fun _ _ hpost => ⟨hpost, fun _ _ _ => trivial⟩⟩⟩

theorem Traces.drop {r : ReadTransaction} (h : Traces env r.drop db failures (.ok ()) db' log) :
    r.drop.run (execute env) db = (.ok (), db') ∧ Calm db log :=
  ⟨h.ends.of_quiet (Trial.quiet_drop r), h.calm ⟨rfl, fun _ _ _ => trivial⟩⟩

theorem Traces.beginWrite {pageSize : ℕ} {tx : WriteTransaction}
    (h : Traces env (Database.beginWrite pageSize) db failures (.ok tx) db' log) :
    (Database.beginWrite pageSize).run (execute env) db = (.ok tx, db') ∧ Calm db log := by
  refine ⟨h.ends.of_quiet (Trial.quiet_beginWrite pageSize), h.calm ⟨rfl, fun header _ _ => ?_⟩⟩
  change Program.Sat _ _ (Program.ofExcept (WriteTransaction.new pageSize header.currentSlot)) _ _
  cases WriteTransaction.new pageSize header.currentSlot <;> exact trivial

/-- What an insertion of a transaction that has failed leaves. -/
theorem Traces.insert_refused {tx : WriteTransaction} {key : Key} {value : Value}
    {result : Except Fault WriteTransaction} {db' : DatabaseState} (hfailed : tx.failed = true)
    (hrun : Traces env (tx.insert env key value) db failures result db' log) :
    result = .error (.error .transactionFailed) ∧ db' = db ∧ log = [] := by
  obtain ⟨d, hrun, rfl⟩ := hrun
  rw [WriteTransaction.insert, hfailed, if_pos rfl] at hrun
  obtain ⟨rfl, hd⟩ := Prod.mk.inj hrun
  obtain ⟨rfl, rfl⟩ := Prod.mk.inj hd
  exact ⟨rfl, rfl, rfl⟩

theorem Traces.commit_refused {tx : WriteTransaction} {pages : List (PageId × DirtyPageSlot)}
    {result : Except Fault Unit} {db' : DatabaseState} (hfailed : tx.failed = true)
    (hrun : Traces env (tx.commit pages) db failures result db' log) :
    result = .error (.error .transactionFailed) ∧ db' = db ∧ log = [] := by
  obtain ⟨d, hrun, rfl⟩ := hrun
  rw [WriteTransaction.commit, hfailed, if_pos rfl] at hrun
  obtain ⟨rfl, hd⟩ := Prod.mk.inj hrun
  obtain ⟨rfl, rfl⟩ := Prod.mk.inj hd
  exact ⟨rfl, rfl, rfl⟩

end

end KvRaft.Kv
