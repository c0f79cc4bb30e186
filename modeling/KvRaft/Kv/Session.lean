import KvRaft.Kv.FirstCommit
import Mathlib.Logic.Relation

/-!
# Using a database

The public calls in any order, one after the other: read transactions are begun, read and
dropped, any number of them at once; one write transaction at a time is begun, takes
insertions, and is committed or dropped. A call that panics or returns an error ends the
history, so every call of a `Session` has returned `Ok`.

Beside the database and the open transactions a session remembers what has been inserted:
by the committed transactions in their order, by the open write transaction, and, for each
read transaction, by the transactions that were committed when it began.

* A read transaction returns the last value inserted by the transactions that were
  committed when it began, whatever happened since (`snapshot_isolation`).
* So does one that is begun now (`tree_is_map`).
-/

namespace KvRaft.Kv

open Ordered

/-- The value of the last insertion of a key. -/
def lastInsert (inserts : List (Key × Value)) (key : Key) : Option Value :=
  (inserts.filter fun pair => pair.1 = key).getLast?.map Prod.snd

@[simp] theorem lastInsert_nil : lastInsert [] = fun _ => none := rfl

/-- One more insertion sets the value of its key. -/
theorem lastInsert_append (inserts : List (Key × Value)) (key : Key) (value : Value) :
    lastInsert (inserts ++ [(key, value)]) = assign (lastInsert inserts) key value := by
  funext x
  rw [lastInsert, List.filter_append]
  by_cases hx : key = x
  · subst hx
    rw [assign_self]
    simp
  · rw [assign_of_ne (Ne.symm hx), lastInsert]
    simp [hx]

/-- A database in use, and what has been inserted. -/
structure Session where
  db : DatabaseState
  /-- The open write transaction, with its insertions. -/
  writer : Option (WriteTransaction × List (Key × Value))
  /-- The open read transactions, each with the insertions committed when it began. -/
  readers : List (ReadTransaction × List (Key × Value))
  /-- The insertions of the committed transactions. -/
  committed : List (Key × Value)
  /-- The dirty pages of the write transactions that were dropped. -/
  dropped : List PageId

namespace Session

/-- A database that has just been opened. -/
def start (db : DatabaseState) : Session := ⟨db, none, [], [], []⟩

/-- A public call that returns `Ok`. -/
inductive Step (env : Env) : Session → Session → Prop
  | beginRead {s : Session} {r : ReadTransaction} {db' : DatabaseState}
      (hrun : Database.beginRead.run (execute env) s.db = (.ok r, db')) :
      Step env s { s with db := db', readers := (r, s.committed) :: s.readers }
  | read {s : Session} {r : ReadTransaction} {snapshot : List (Key × Value)} {key : Key}
      {value : Option Value} {db' : DatabaseState} (hreader : (r, snapshot) ∈ s.readers)
      (hrun : (r.read key).run (execute env) s.db = (.ok value, db')) :
      Step env s { s with db := db' }
  /-- The drop of a read transaction. -/
  | dropReader {s : Session} {before after : List (ReadTransaction × List (Key × Value))}
      {r : ReadTransaction} {snapshot : List (Key × Value)} {db' : DatabaseState}
      (hreader : s.readers = before ++ (r, snapshot) :: after)
      (hrun : r.drop.run (execute env) s.db = (.ok (), db')) :
      Step env s { s with db := db', readers := before ++ after }
  | beginWrite {s : Session} {tx : WriteTransaction} {db' : DatabaseState}
      (hwriter : s.writer = none)
      (hrun : (Database.beginWrite s.db.pageIo.pageSize).run (execute env) s.db = (.ok tx, db')) :
      Step env s { s with db := db', writer := some (tx, []) }
  | insert {s : Session} {tx tx' : WriteTransaction} {inserts : List (Key × Value)} {key : Key}
      {value : Value} {db' : DatabaseState} (hwriter : s.writer = some (tx, inserts))
      (hrun : (tx.insert env key value).run (execute env) s.db = (.ok tx', db')) :
      Step env s { s with db := db', writer := some (tx', inserts ++ [(key, value)]) }
  /-- The commit of the open write transaction, whose dirty pages come in any order. -/
  | commit {s : Session} {tx : WriteTransaction} {inserts : List (Key × Value)}
      {pages : List (PageId × DirtyPageSlot)} {db' : DatabaseState}
      (hwriter : s.writer = some (tx, inserts)) (hpages : pages.Perm tx.dirtyPages)
      (hrun : (tx.commit pages).run (execute env) s.db = (.ok (), db')) :
      Step env s { s with db := db', writer := none, committed := s.committed ++ inserts }
  /-- The drop of a write transaction that is not committed. -/
  | dropWriter {s : Session} {tx : WriteTransaction} {inserts : List (Key × Value)}
      (hwriter : s.writer = some (tx, inserts)) :
      Step env s { s with
        writer := none
        dropped := s.dropped ++ tx.dirtyPages.map Prod.fst }

/-- Any number of public calls. -/
def Run (env : Env) : Session → Session → Prop := Relation.ReflTransGen (Step env)

/-- A public call. If it is an insertion, the tree has room for the pair, or the debug
assertions are there to see that it has none. -/
def Roomy (env : Env) (s s' : Session) : Prop :=
  Step env s s' ∧ ∀ tx tx' inserts key value, s.writer = some (tx, inserts) →
    s'.writer = some (tx', inserts ++ [(key, value)]) →
    env.debugAssertions = true ∨
      Accepts (seenPages env s.db tx) tx.pageSize tx.rootPage key value

/-- Any number of them. -/
def RoomyRun (env : Env) : Session → Session → Prop := Relation.ReflTransGen (Roomy env)

theorem Step.roomy {env : Env} (henv : env.debugAssertions = true) {s s' : Session} (h : Step env s s') :
    Roomy env s s' :=
  ⟨h, fun _ _ _ _ _ _ _ => Or.inl henv⟩

/-- How a session follows the work on its database: `rs` are the versions that are being
read, each with the insertions it holds. -/
structure Follows (env : Env) (s : Session) (w : Work) (rs : List (Version × List (Key × Value))) :
    Prop where
  owned : Owned env s.db w (rs.map Prod.fst) []
  readers : s.readers = rs.map fun r => (r.1.reader, r.2)
  snapshots : ∀ r ∈ rs, r.1.map = lastInsert r.2
  committed : w.base.map = lastInsert s.committed
  writer : ∀ tx inserts, s.writer = some (tx, inserts) →
    Working env w tx (lastInsert (s.committed ++ inserts))

section

variable {env : Env} {s s' : Session} {w : Work} {rs : List (Version × List (Key × Value))}

/-- A read transaction reads one of the versions. -/
theorem Follows.reader (h : Follows env s w rs) {r : ReadTransaction}
    {snapshot : List (Key × Value)} (hr : (r, snapshot) ∈ s.readers) :
    ∃ v, v ∈ rs.map Prod.fst ∧ v.reader = r ∧ v.map = lastInsert snapshot := by
  rw [h.readers] at hr
  obtain ⟨a, ha, heq⟩ := List.mem_map.mp hr
  rw [Prod.mk.injEq] at heq
  obtain ⟨rfl, rfl⟩ := heq
  exact ⟨a.1, List.mem_map_of_mem ha, rfl, h.snapshots a ha⟩

theorem Follows.beginRead (h : Follows env s w rs) {r : ReadTransaction} {db' : DatabaseState}
    (hrun : Database.beginRead.run (execute env) s.db = (.ok r, db')) :
    Follows env { s with db := db', readers := (r, s.committed) :: s.readers } w
      ((w.base, s.committed) :: rs) ∧ SameStore s.db db' := by
  obtain ⟨db', hrun', howned, hsame⟩ := h.owned.beginRead
  rw [hrun', Prod.mk.injEq, Except.ok.injEq] at hrun
  obtain ⟨rfl, rfl⟩ := hrun
  refine ⟨⟨howned, ?_, fun r hr => ?_, h.committed, h.writer⟩, hsame⟩
  · rw [List.map_cons, ← h.readers]
  · rcases List.mem_cons.mp hr with rfl | hr
    · exact h.committed
    · exact h.snapshots r hr

theorem Follows.read (h : Follows env s w rs) {r : ReadTransaction}
    {snapshot : List (Key × Value)} {key : Key} {value : Option Value} {db' : DatabaseState}
    (hreader : (r, snapshot) ∈ s.readers)
    (hrun : (r.read key).run (execute env) s.db = (.ok value, db')) :
    Follows env { s with db := db' } w rs ∧ SameStore s.db db' := by
  obtain ⟨v, hv, rfl, -⟩ := h.reader hreader
  obtain ⟨db', hrun', howned, hsame⟩ := h.owned.read (List.mem_append_left [] hv) key
  rw [hrun', Prod.mk.injEq] at hrun
  obtain ⟨-, rfl⟩ := hrun
  exact ⟨{ h with owned := howned }, hsame⟩

theorem Follows.dropReader (h : Follows env s w rs)
    {before after : List (ReadTransaction × List (Key × Value))} {r : ReadTransaction}
    {snapshot : List (Key × Value)} {db' : DatabaseState}
    (hreader : s.readers = before ++ (r, snapshot) :: after)
    (hrun : r.drop.run (execute env) s.db = (.ok (), db')) :
    ∃ rs', Follows env { s with db := db', readers := before ++ after } w rs' ∧
      SameStore s.db db' := by
  rw [h.readers] at hreader
  obtain ⟨before, rest, rfl, rfl, hrest⟩ := List.map_eq_append_iff.mp hreader
  obtain ⟨a, after, rfl, ha, rfl⟩ := List.map_eq_cons_iff.mp hrest
  rw [Prod.mk.injEq] at ha
  obtain ⟨rfl, rfl⟩ := ha
  have howned := h.owned
  rw [List.map_append, List.map_cons] at howned
  obtain ⟨db', hrun', howned, hsame⟩ := howned.dropReader
  rw [hrun', Prod.mk.injEq] at hrun
  obtain ⟨-, rfl⟩ := hrun
  refine ⟨before ++ after, ⟨?_, List.map_append.symm, fun r hr => h.snapshots r ?_,
    h.committed, h.writer⟩, hsame⟩
  · rw [List.map_append]
    exact howned
  · simp only [List.mem_append, List.mem_cons] at hr ⊢
    tauto

theorem Follows.beginWrite (h : Follows env s w rs) {tx : WriteTransaction} {db' : DatabaseState}
    (hrun : (Database.beginWrite s.db.pageIo.pageSize).run (execute env) s.db = (.ok tx, db')) :
    db' = s.db ∧ Follows env { s with db := db', writer := some (tx, []) } w.restart rs := by
  obtain ⟨rfl, hworking⟩ := h.owned.beginWrite hrun
  refine ⟨rfl, h.owned.restart, h.readers, h.snapshots, h.committed, fun tx inserts heq => ?_⟩
  obtain ⟨rfl, rfl⟩ := Prod.mk.inj (Option.some.inj heq)
  rw [List.append_nil, ← h.committed]
  exact hworking

theorem Follows.insert {tx tx' : WriteTransaction} {key : Key} {value : Value}
    (hguarded : Guarded env Panics True
      (Accepts (seenPages env s.db tx) tx.pageSize tx.rootPage key value))
    (h : Follows env s w rs) {K : DatabaseState → Work → Prop} (hK : Stable env K) (hk : K s.db w)
    {inserts : List (Key × Value)} {db' : DatabaseState} (hwriter : s.writer = some (tx, inserts))
    (hrun : (tx.insert env key value).run (execute env) s.db = (.ok tx', db')) :
    ∃ w', Follows env { s with db := db', writer := some (tx', inserts ++ [(key, value)]) } w' rs ∧
      K db' w' := by
  have hresult := h.owned.insert_run hK hk (h.writer _ _ hwriter) key value hguarded
  rw [hrun] at hresult
  obtain ⟨w', howned, hk', hworking, hbase⟩ := hresult
  refine ⟨w', ⟨howned, h.readers, h.snapshots, hbase ▸ h.committed, fun tx inserts heq => ?_⟩, hk'⟩
  obtain ⟨rfl, rfl⟩ := Prod.mk.inj (Option.some.inj heq)
  rw [← List.append_assoc, lastInsert_append]
  exact hworking

theorem Follows.commit (h : Follows env s w rs) {K : DatabaseState → Work → Prop}
    (hK : Stable env K) {tx : WriteTransaction} {inserts : List (Key × Value)}
    {pages : List (PageId × DirtyPageSlot)} {db' : DatabaseState}
    (hwriter : s.writer = some (tx, inserts))
    (hk : ∀ v, Builds env w tx v → K s.db { w with phase := .writing v })
    (hpages : pages.Perm tx.dirtyPages)
    (hrun : (tx.commit pages).run (execute env) s.db = (.ok (), db')) :
    ∃ v, Builds env w tx v ∧ K db' (w.publishes tx v) ∧
      Follows env { s with db := db', writer := none, committed := s.committed ++ inserts }
        (w.publishes tx v) rs := by
  have hworking := h.writer _ _ hwriter
  obtain ⟨v, hbuilds, hmap⟩ := hworking.ok.builds
  have hresult := h.owned.commit_run hK hworking hbuilds (hk v hbuilds) hpages
  rw [hrun] at hresult
  exact ⟨v, hbuilds, hresult.2, hresult.1, h.readers, h.snapshots, hmap, fun tx inserts heq =>
    absurd heq (by simp)⟩

theorem Follows.dropWriter (h : Follows env s w rs) {dropped : List PageId} :
    Follows env { s with writer := none, dropped } w rs :=
  { h with writer := fun tx inserts heq => absurd heq (by simp) }

/-- **Every call keeps it**, if an insertion finds room. -/
theorem Follows.step (h : Follows env s w rs) (hstep : Roomy env s s') :
    ∃ w' rs', Follows env s' w' rs' := by
  obtain ⟨hstep, hroom⟩ := hstep
  cases hstep with
  | beginRead hrun => exact ⟨w, _, (h.beginRead hrun).1⟩
  | read hreader hrun => exact ⟨w, rs, (h.read hreader hrun).1⟩
  | dropReader hreader hrun =>
    obtain ⟨rs', h', -⟩ := h.dropReader hreader hrun
    exact ⟨w, rs', h'⟩
  | beginWrite hwriter hrun => exact ⟨_, rs, (h.beginWrite hrun).2⟩
  | insert hwriter hrun =>
    obtain ⟨w', h', -⟩ := h.insert (guarded_of_or (hroom _ _ _ _ _ hwriter rfl) True)
      (stable_true env) trivial hwriter hrun
    exact ⟨w', rs, h'⟩
  | commit hwriter hpages hrun =>
    obtain ⟨v, -, -, h'⟩ := h.commit (stable_true env) hwriter (fun _ _ => trivial) hpages hrun
    exact ⟨_, rs, h'⟩
  | dropWriter hwriter => exact ⟨w, rs, h.dropWriter⟩

theorem follows_fresh {pageSize : ℕ} {page : Bytes} {db : DatabaseState}
    (h : Fresh env pageSize page db) :
    Follows env (start db) (.opened pageSize (DbHeader.initial pageSize (env.checksumPage page))
      (.initial env page) (.initial page)) [] where
  owned := h.owned
  readers := rfl
  snapshots r hr := absurd hr List.not_mem_nil
  committed := rfl
  writer tx inserts heq := absurd heq (by simp [start])

/-- **Along any run from a new database** whose insertions find room. -/
theorem RoomyRun.follows {pageSize : ℕ} {evicts : ℕ → PageId → Bool} {db : DatabaseState}
    (hnew : Database.openNew env pageSize evicts = .ok db) (hrun : RoomyRun env (start db) s) :
    ∃ w rs, Follows env s w rs := by
  induction hrun with
  | refl =>
    obtain ⟨page, hfresh⟩ := openNew_ok hnew
    exact ⟨_, [], follows_fresh hfresh⟩
  | tail _ hstep ih =>
    obtain ⟨w, rs, h⟩ := ih
    exact h.step hstep

/-- **Along any run from a new database**, with debug assertions. -/
theorem Run.follows (henv : env.debugAssertions = true) {pageSize : ℕ}
    {evicts : ℕ → PageId → Bool} {db : DatabaseState}
    (hnew : Database.openNew env pageSize evicts = .ok db) (hrun : Run env (start db) s) :
    ∃ w rs, Follows env s w rs :=
  RoomyRun.follows hnew (Relation.ReflTransGen.mono (fun _ _ hstep => hstep.roomy henv) _ _ hrun)

end

end Session

/-! ### A first run -/

/-- A build with debug assertions in which every page has the same checksum. -/
def Env.debug : Env := ⟨fun _ => 0, true⟩

/-- A new database with pages of 4096 bytes, and its first transaction with one pair. -/
theorem exists_firstCommit : ∃ db page tx tx' db₁ db₂,
    Database.openNew .debug 4096 (fun _ _ => false) = .ok db ∧ Fresh .debug 4096 page db ∧
      FirstCommit .debug db [1] [2] tx tx' db₁ db₂ := by
  obtain ⟨db, hnew⟩ := openNew_of_le .debug (fun _ _ => false) (le_refl minPageSize) (by decide)
  obtain ⟨page, hfresh⟩ := openNew_ok hnew
  have hfit : 56 + (([1] : Key).length + ([2] : Value).length) ≤ minPageSize := by decide
  obtain ⟨tx, tx', db₁, db₂, hfirst⟩ := first_commit hfresh (by decide) hfit
  exact ⟨db, page, tx, tx', db₁, db₂, hnew, hfresh, hfirst⟩

/-- One pair is inserted into a new database. The transaction is committed; or it is dropped
instead. -/
theorem first_run : ∃ db tx db₁ db₂,
    Database.openNew .debug 4096 (fun _ _ => false) = .ok db ∧
      Session.Run .debug (.start db) ⟨db₁, some (tx, [([1], [2])]), [], [], []⟩ ∧
      Session.Run .debug (.start db) ⟨db₂, none, [], [([1], [2])], []⟩ ∧
      Session.Run .debug (.start db) ⟨db₁, none, [], [], [2]⟩ ∧
      db₁.allocator.nextPageId = 3 ∧ db₁.allocator.pendingFreePages = [] := by
  obtain ⟨db, _, tx, tx', db₁, db₂, hnew, -, h⟩ := exists_firstCommit
  have hbegin : Session.Step .debug (.start db) ⟨db, some (tx, []), [], [], []⟩ :=
    .beginWrite rfl h.begin
  have hpair : Session.Step .debug ⟨db, some (tx, []), [], [], []⟩
      ⟨db₁, some (tx', [] ++ [([1], [2])]), [], [], []⟩ := .insert rfl h.insert
  have hinsert : Session.Run .debug (.start db) ⟨db₁, some (tx', [([1], [2])]), [], [], []⟩ :=
    .tail (.single hbegin) hpair
  have hdrop : Session.Run .debug (.start db)
      ⟨db₁, none, [], [], [] ++ tx'.dirtyPages.map Prod.fst⟩ :=
    .tail hinsert (.dropWriter rfl)
  rw [h.dirty] at hdrop
  exact ⟨db, tx', db₁, db₂, hnew, hinsert, .tail hinsert (.commit rfl (List.Perm.refl _) h.commit),
    hdrop, h.next, h.unfreed⟩

section

variable {env : Env} {pageSize : ℕ} {evicts : ℕ → PageId → Bool} {db : DatabaseState}
  {s : Session}

/-- **The tree is a map.** After any history, a read transaction that is begun returns for
every key the value of its last insertion in the committed transactions. -/
theorem tree_is_map (henv : env.debugAssertions = true)
    (hnew : Database.openNew env pageSize evicts = .ok db)
    (hrun : Session.Run env (.start db) s) :
    ∃ r db₁, Database.beginRead.run (execute env) s.db = (.ok r, db₁) ∧
      ∀ key, ∃ db₂, (r.read key).run (execute env) db₁ = (.ok (lastInsert s.committed key), db₂) := by
  obtain ⟨w, rs, h⟩ := hrun.follows henv hnew
  rw [← h.committed]
  exact h.owned.serves

theorem tree_is_map_afterFirstCommit : ∃ db s,
    Database.openNew .debug 4096 (fun _ _ => false) = .ok db ∧
      Session.Run .debug (.start db) s ∧ ∃ r db₁ db₂,
        Database.beginRead.run (execute .debug) s.db = (.ok r, db₁) ∧
        (r.read [1]).run (execute .debug) db₁ = (.ok (some [2]), db₂) := by
  obtain ⟨db, _, _, db₂, hnew, -, hrun, -⟩ := first_run
  obtain ⟨r, db₁, hbegin, hread⟩ := tree_is_map rfl hnew hrun
  obtain ⟨db₂, hread⟩ := hread [1]
  exact ⟨db, _, hnew, hrun, r, db₁, db₂, hbegin, hread⟩

/-- **Snapshot isolation.** A read transaction returns for every key the value of its last
insertion in the transactions that were committed when it began. -/
theorem snapshot_isolation (henv : env.debugAssertions = true)
    (hnew : Database.openNew env pageSize evicts = .ok db)
    (hrun : Session.Run env (.start db) s) {r : ReadTransaction}
    {snapshot : List (Key × Value)} (hreader : (r, snapshot) ∈ s.readers) (key : Key) :
    ∃ db', (r.read key).run (execute env) s.db = (.ok (lastInsert snapshot key), db') := by
  obtain ⟨w, rs, h⟩ := hrun.follows henv hnew
  obtain ⟨v, hv, rfl, hmap⟩ := h.reader hreader
  obtain ⟨db', hread, -⟩ := h.owned.read (List.mem_append_left [] hv) key
  rw [hmap] at hread
  exact ⟨db', hread⟩

theorem snapshot_isolation_afterFirstCommit : ∃ db s r,
    Database.openNew .debug 4096 (fun _ _ => false) = .ok db ∧
      Session.Run .debug (.start db) s ∧ (r, [([1], [2])]) ∈ s.readers ∧
      ∃ db', (r.read [1]).run (execute .debug) s.db = (.ok (some [2]), db') := by
  obtain ⟨db, _, _, db₂, hnew, -, hrun, -⟩ := first_run
  obtain ⟨w, rs, h⟩ := hrun.follows rfl hnew
  obtain ⟨db₃, hbegin, -⟩ := h.owned.beginRead
  have hread := hrun.tail (.beginRead hbegin)
  exact ⟨db, _, w.base.reader, hnew, hread, List.mem_cons_self,
    snapshot_isolation rfl hnew hread List.mem_cons_self [1]⟩

end

end KvRaft.Kv
