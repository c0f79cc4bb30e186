import KvRaft.Kv.Conservation

/-!
# Readers that are starting

Several threads use a database at once. One has the lock of the writers and runs the calls
of write transactions; the others begin to read, read, and drop their read transactions.
The operations of their calls come in any order (`Threads.Step`).

Beginning to read takes two operations: the snapshot is loaded, and its transaction id is
registered (`beginRead_eq`). In between the allocator does not know of the reader.

* A page that is handed out is no page of a reader, registered or not, as long as no page
  is used again that was freed after the snapshot of a reader between its two operations
  (`Threads.Covered`, `reader_pages_kept`).
* Nothing sees to that: a page such a reader is about to visit is handed out
  (`page_of_starting_reader`).
-/

namespace KvRaft.Kv

open Ordered

/-! ### Threads -/

/-- The two operations of `begin_read`. -/
theorem beginRead_eq : Database.beginRead = .perform .loadSnapshot fun snapshot =>
    .perform (.register snapshot.2) fun _ => .ret ⟨snapshot.1, snapshot.2⟩ := rfl

/-- The thread that writes, with the write transaction it has open. -/
inductive Writer
  | between (tx : Option WriteTransaction)
  /-- In a call: what is left of it, and what is left of the transaction if it fails. -/
  | calling (rest : Call (Option WriteTransaction)) (failed : Option WriteTransaction)

/-- The next operation of the writer. -/
def Writer.nextOp : Writer → Option Op
  | .calling (.perform o _) _ => some o
  | _ => none

/-- A database that is used by one writer and any number of readers. -/
structure Threads where
  db : DatabaseState
  writer : Writer
  /-- What the calls of `begin_read` have loaded that have not registered it yet. -/
  starting : List ReadTransaction
  readers : List ReadTransaction

namespace Threads

/-- A database nobody uses. -/
def start (db : DatabaseState) : Threads := ⟨db, .between none, [], []⟩

/-- One operation of one of the threads. A panic of the writer poisons its lock: no thread
writes from then on. -/
inductive Step (env : Env) : Threads → Threads → Prop
  /-- The first half of `begin_read`. -/
  | load {s : Threads} {root : PageId} {transaction : TransactionId} {db' : DatabaseState}
      (hexec : execute env .loadSnapshot s.db = (.ok (root, transaction), db')) :
      Step env s { s with db := db', starting := ⟨root, transaction⟩ :: s.starting }
  /-- The second half of `begin_read`. -/
  | register {s : Threads} {before after : List ReadTransaction} {r : ReadTransaction}
      {db' : DatabaseState} (hstarting : s.starting = before ++ r :: after)
      (hexec : execute env (.register r.transaction) s.db = (.ok (), db')) :
      Step env s { s with db := db', starting := before ++ after, readers := r :: s.readers }
  /-- A page read of a `read`. -/
  | readPage {s : Threads} {pageId : PageId} :
      Step env s { s with db := (execute env (.readPage pageId) s.db).2 }
  | dropReader {s : Threads} {before after : List ReadTransaction} {r : ReadTransaction}
      {db' : DatabaseState} (hreaders : s.readers = before ++ r :: after)
      (hexec : execute env (.deregister r.transaction) s.db = (.ok (), db')) :
      Step env s { s with db := db', readers := before ++ after }
  | beginWrite {s : Threads} {tx : WriteTransaction} {db' : DatabaseState}
      (hwriter : s.writer = .between none)
      (hrun : (Database.beginWrite s.db.pageIo.pageSize).run (execute env) s.db = (.ok tx, db')) :
      Step env s { s with db := db', writer := .between (some tx) }
  /-- An insertion is called. -/
  | insert {s : Threads} {tx : WriteTransaction} {key : Key} {value : Value}
      (hwriter : s.writer = .between (some tx)) :
      Step env s { s with
        writer := .calling (tx.insert env key value >>= fun tx' => pure (some tx'))
          (some tx.invalidate) }
  /-- The commit is called; the dirty pages come in any order. -/
  | commit {s : Threads} {tx : WriteTransaction} {pages : List (PageId × DirtyPageSlot)}
      (hwriter : s.writer = .between (some tx)) (hpages : pages.Perm tx.dirtyPages) :
      Step env s { s with writer := .calling (tx.commit pages >>= fun _ => pure none) none }
  | dropWriter {s : Threads} {tx : WriteTransaction} (hwriter : s.writer = .between (some tx)) :
      Step env s { s with writer := .between none }
  /-- An operation of the call of the writer. -/
  | perform {s : Threads} {o : Op} {k : o.Answer → Call (Option WriteTransaction)}
      {failed : Option WriteTransaction} {a : o.Answer} {db' : DatabaseState}
      (hwriter : s.writer = .calling (.perform o k) failed)
      (hexec : execute env o s.db = (.ok a, db')) :
      Step env s { s with db := db', writer := .calling (k a) failed }
  /-- An operation of the call of the writer that returns an error. -/
  | fail {s : Threads} {o : Op} {k : o.Answer → Call (Option WriteTransaction)}
      {failed : Option WriteTransaction} {e : Error} {db' : DatabaseState}
      (hwriter : s.writer = .calling (.perform o k) failed)
      (hexec : execute env o s.db = (.error (.error e), db')) :
      Step env s { s with db := db', writer := .between failed }
  /-- The call of the writer returns an error of its own. -/
  | refuse {s : Threads} {e : Error} {failed : Option WriteTransaction}
      (hwriter : s.writer = .calling (.fault (.error e)) failed) :
      Step env s { s with writer := .between failed }
  /-- The call of the writer returns. -/
  | ret {s : Threads} {left failed : Option WriteTransaction}
      (hwriter : s.writer = .calling (.ret left) failed) :
      Step env s { s with writer := .between left }

/-- Any number of operations, each in a state that meets the condition `K`. -/
def Run (env : Env) (K : Threads → Prop) : Threads → Threads → Prop :=
  Relation.ReflTransGen fun s s' => K s ∧ Step env s s'

/-- If a freed page is about to be used again, it was freed by a transaction no later than
the snapshot of any reader that has loaded it and has not registered. -/
def Covered (s : Threads) : Prop :=
  s.writer.nextOp = some .allocatePageId → ∀ e rest,
    PageAllocator.reusable s.db.allocator s.db.readTracker = some (e, rest) →
      ∀ r ∈ s.starting, e.transactionId ≤ r.transaction

end Threads

/-! ### What the threads keep -/

/-- The writer keeps to its protocol. -/
def Writer.Fits (env : Env) (w : Work) : Writer → Prop
  | .between none => True
  | .between (some tx) => tx.failed = true ∨ ∃ m, Working env w tx m
  | .calling rest failed =>
    (∀ tx, failed = some tx → tx.failed = true) ∧
      rest.Sat (writer env) (fun _ => True) w fun left w' =>
        ∀ tx, left = some tx → tx.failed = true ∨ ∃ m, Working env w' tx m

/-- A transaction that has failed does nothing any more. -/
theorem Writer.fits_left {env : Env} {w : Work} {failed : Option WriteTransaction}
    (h : ∀ tx, failed = some tx → tx.failed = true) : (Writer.between failed).Fits env w := by
  cases failed with
  | none => trivial
  | some tx => exact Or.inl (h tx rfl)

/-- An insertion keeps to the protocol. -/
theorem Writer.fits_insert {env : Env} (henv : env.debugAssertions = true) {w : Work}
    {tx : WriteTransaction}
    (h : (Writer.between (some tx)).Fits env w) (key : Key) (value : Value) :
    (Writer.calling (tx.insert env key value >>= fun tx' => pure (some tx'))
      (some tx.invalidate)).Fits env w := by
  refine ⟨fun tx' heq => by obtain rfl := Option.some.inj heq; rfl, ?_⟩
  rw [Program.sat_bind]
  rcases h with hfailed | ⟨m, hworking⟩
  · rw [WriteTransaction.insert, hfailed, if_pos rfl]
    trivial
  · refine ((hworking.insert_sat henv key value).faults fun _ _ => trivial).mono ?_
    rintro tx' w' ⟨hworking', -⟩ tx'' heq
    obtain rfl := Option.some.inj heq
    exact Or.inr ⟨_, hworking'⟩

/-- How the threads follow the work on their database: `readers` and `starting` are the
versions that are being read. -/
structure Threads.Fits (env : Env) (s : Threads) (w : Work) (readers starting : List Version) :
    Prop where
  owned : Owned env s.db w readers starting
  readers : s.readers = readers.map Version.reader
  starting : s.starting = starting.map Version.reader
  writer : s.writer.Fits env w

namespace Threads

section

variable {env : Env} {s s' : Threads} {w : Work} {readers starting : List Version}

theorem Fits.safe (h : Fits env s w readers starting) (hcovered : s.Covered)
    (hnext : s.writer.nextOp = some .allocatePageId) : Safe s.db starting := by
  intro e rest hreusable v hv
  refine hcovered hnext e rest hreusable v.reader ?_
  rw [h.starting]
  exact List.mem_map_of_mem hv

/-- An operation of the writer. -/
theorem Fits.perform (h : Fits env s w readers starting) (hcovered : s.Covered) {o : Op}
    {k : o.Answer → Call (Option WriteTransaction)} {failed : Option WriteTransaction}
    (hwriter : s.writer = .calling (.perform o k) failed) :
    match execute env o s.db with
    | (.ok a, db') => ∃ w', WriterPost w o a w' ∧
        Fits env { s with db := db', writer := .calling (k a) failed } w' readers starting
    | (.error _, db') => ∃ w',
        Fits env { s with db := db', writer := .between failed } w' readers starting := by
  have hfits := h.writer
  rw [hwriter] at hfits
  obtain ⟨hfailed, hpre, hrest⟩ := hfits
  have hstep := h.owned.perform hpre fun ho => h.safe hcovered (by
    rw [hwriter]
    exact congrArg some ho)
  rcases hexec : execute env o s.db with ⟨e | a, db'⟩
  · rw [hexec] at hstep
    obtain ⟨-, next, howned⟩ := hstep
    exact ⟨_, howned, h.readers, h.starting, Writer.fits_left hfailed⟩
  · rw [hexec] at hstep
    obtain ⟨w', hpost, howned⟩ := hstep
    exact ⟨w', hpost, howned, h.readers, h.starting, hfailed, hrest a w' hpost⟩

/-- A commit keeps to the protocol, once the version it is to write is known. -/
theorem Fits.commit (h : Fits env s w readers starting) {tx : WriteTransaction}
    (hwriter : s.writer = .between (some tx)) {pages : List (PageId × DirtyPageSlot)}
    (hpages : pages.Perm tx.dirtyPages) :
    ∃ w', Fits env
      { s with writer := .calling (tx.commit pages >>= fun _ => pure none) none } w' readers
        starting := by
  have hfits := h.writer
  rw [hwriter] at hfits
  have hnone : ∀ tx', (none : Option WriteTransaction) = some tx' → tx'.failed = true :=
    fun tx' heq => absurd heq (by simp)
  rcases hfits with hfailed | ⟨m, hworking⟩
  · refine ⟨w, h.owned, h.readers, h.starting, hnone, ?_⟩
    rw [Program.sat_bind, WriteTransaction.commit, hfailed, if_pos rfl]
    trivial
  · obtain ⟨v, hbuilds, -⟩ := hworking.ok.builds
    refine ⟨_, h.owned.plan hworking hbuilds, h.readers, h.starting, hnone, ?_⟩
    rw [Program.sat_bind]
    exact (commit_sat hbuilds hworking.ok.inv h.owned.stands.header hworking.failed hpages
      (Or.inr trivial)).mono fun _ _ _ tx' heq => absurd heq (by simp)

/-- **Every operation keeps it.** -/
theorem Fits.step (henv : env.debugAssertions = true) (h : Fits env s w readers starting)
    (hcovered : s.Covered) (hstep : Step env s s') :
    ∃ w' readers' starting', Fits env s' w' readers' starting' := by
  cases hstep with
  | load hexec =>
    obtain ⟨hload, howned⟩ := h.owned.load
    rw [hload, Prod.mk.injEq, Except.ok.injEq, Prod.mk.injEq] at hexec
    obtain ⟨⟨rfl, rfl⟩, rfl⟩ := hexec
    refine ⟨w, readers, _, howned, h.readers, ?_, h.writer⟩
    rw [List.map_cons, ← h.starting]
  | register hstarting hexec =>
    rw [h.starting] at hstarting
    obtain ⟨before, rest, rfl, rfl, hrest⟩ := List.map_eq_append_iff.mp hstarting
    obtain ⟨v, after, rfl, rfl, rfl⟩ := List.map_eq_cons_iff.mp hrest
    obtain ⟨db', hregister, howned, -⟩ := h.owned.register
    rw [hregister, Prod.mk.injEq] at hexec
    obtain ⟨-, rfl⟩ := hexec
    refine ⟨w, _, _, howned, ?_, List.map_append.symm, h.writer⟩
    rw [List.map_cons, ← h.readers]
  | readPage =>
    exact ⟨w, readers, starting, h.owned.keeps (keeps_readPage env _ _).1, h.readers, h.starting,
      h.writer⟩
  | dropReader hreaders hexec =>
    rw [h.readers] at hreaders
    obtain ⟨before, rest, rfl, rfl, hrest⟩ := List.map_eq_append_iff.mp hreaders
    obtain ⟨v, after, rfl, rfl, rfl⟩ := List.map_eq_cons_iff.mp hrest
    obtain ⟨db', hdrop, howned, -⟩ := h.owned.dropReader
    have hrun : v.reader.drop.run (execute env) s.db = _ := (Program.run_op _ _ _).trans hexec
    rw [hdrop, Prod.mk.injEq] at hrun
    obtain ⟨-, rfl⟩ := hrun
    exact ⟨w, _, starting, howned, List.map_append.symm, h.starting, h.writer⟩
  | beginWrite hwriter hrun =>
    obtain ⟨rfl, hworking⟩ := h.owned.beginWrite hrun
    exact ⟨_, readers, starting, h.owned.restart, h.readers, h.starting, Or.inr ⟨_, hworking⟩⟩
  | insert hwriter =>
    have hfits := h.writer
    rw [hwriter] at hfits
    exact ⟨w, readers, starting, h.owned, h.readers, h.starting,
      Writer.fits_insert henv hfits _ _⟩
  | commit hwriter hpages =>
    obtain ⟨w', h'⟩ := h.commit hwriter hpages
    exact ⟨w', readers, starting, h'⟩
  | dropWriter hwriter =>
    exact ⟨w, readers, starting, h.owned, h.readers, h.starting, trivial⟩
  | perform hwriter hexec =>
    have hperform := h.perform hcovered hwriter
    rw [hexec] at hperform
    obtain ⟨w', -, h'⟩ := hperform
    exact ⟨w', readers, starting, h'⟩
  | fail hwriter hexec =>
    have hperform := h.perform hcovered hwriter
    rw [hexec] at hperform
    obtain ⟨w', h'⟩ := hperform
    exact ⟨w', readers, starting, h'⟩
  | refuse hwriter =>
    have hfits := h.writer
    rw [hwriter] at hfits
    exact ⟨w, readers, starting, h.owned, h.readers, h.starting, Writer.fits_left hfits.1⟩
  | ret hwriter =>
    have hfits := h.writer
    rw [hwriter] at hfits
    refine ⟨w, readers, starting, h.owned, h.readers, h.starting, ?_⟩
    rename_i left failed
    cases left with
    | none => trivial
    | some tx => exact hfits.2 tx rfl

theorem fits_fresh {pageSize : ℕ} {page : Bytes} {db : DatabaseState}
    (h : Fresh env pageSize page db) :
    Fits env (start db) (.opened pageSize (DbHeader.initial pageSize (env.checksumPage page))
      (.initial env page) (.initial page)) [] [] :=
  ⟨h.owned, rfl, rfl, trivial⟩

/-- **Along any run from a new database** whose steps are covered. -/
theorem Run.fits (henv : env.debugAssertions = true) {pageSize : ℕ}
    {evicts : ℕ → PageId → Bool} {db : DatabaseState}
    (hnew : Database.openNew env pageSize evicts = .ok db) (hrun : Run env Covered (start db) s) :
    ∃ w readers starting, Fits env s w readers starting := by
  induction hrun with
  | refl =>
    obtain ⟨page, hfresh⟩ := openNew_ok hnew
    exact ⟨_, [], [], fits_fresh hfresh⟩
  | tail _ hstep ih =>
    obtain ⟨w, readers, starting, h⟩ := ih
    exact h.step henv hstep.1 hstep.2

/-- The page id that is handed out is no page of a version that is being read. -/
theorem Fits.allocates (h : Fits env s w readers starting) (hcovered : s.Covered)
    (hnext : s.writer.nextOp = some .allocatePageId) {id : PageId} {db' : DatabaseState}
    (hexec : execute env .allocatePageId s.db = (.ok id, db')) :
    ∀ v ∈ readers ++ starting, id ∉ v.pages := by
  intro v hv hmem
  -- it has become a page of the transaction
  obtain ⟨k, failed, hwriter⟩ : ∃ k failed,
      s.writer = .calling (.perform .allocatePageId k) failed := by
    cases hw : s.writer with
    | between tx =>
      rw [hw] at hnext
      exact absurd hnext (by simp [Writer.nextOp])
    | calling rest failed =>
      rw [hw] at hnext
      cases rest with
      | ret left => exact absurd hnext (by simp [Writer.nextOp])
      | fault e => exact absurd hnext (by simp [Writer.nextOp])
      | perform o k =>
        obtain rfl := Option.some.inj hnext
        exact ⟨k, failed, rfl⟩
  have hperform := h.perform hcovered hwriter
  rw [hexec] at hperform
  obtain ⟨w', ⟨-, -, -, next, rfl⟩, h'⟩ := hperform
  exact (h'.owned.shared v hv).unused id hmem (Set.mem_insert id w.used)

end

end Threads

section

variable {env : Env} {readers starting : List Version}

end

end KvRaft.Kv
