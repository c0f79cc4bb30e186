import KvRaft.Kv.Overwrite
import KvRaft.Kv.Reopening

/-!
# The pages the allocator hands out

A database that is used, closed and opened again, any number of times (`Usage.Lifetime`). Any
input or output may fail, as long as each page is written whole or not at all. The allocator
never hands out a page in use (`allocated_unused`): a page id it returns is not that of the
header, and of no page of the current tree or of a tree that is being read; and no write
transaction gets the same page id twice. So the checks of `DirtyPageTracker` never fail: an
insertion that has room, and any commit, ends in a panic only if one of its operations does.

The invariant of a lifetime is the ownership of the pages (`Owned`), the version in the file
(`OnFile`), and that the pages of the open write transaction are those it has been given
(`Living`). A transaction that fails keeps its page ids to itself: the allocator has counted
past them or taken them off the queue, and it does not get them back.
-/

namespace KvRaft.Kv

open Ordered

/-! ### The property -/

/-- No page of the header, of the current tree or of a tree that is being read has the id. -/
structure Unused (env : Env) (readers : List ReadTransaction) (db : DatabaseState) (id : PageId) :
    Prop where
  header : id ≠ headerPageId
  current : OutsideTree env db db.commit.header.currentSlot.rootPageId [id]
  read : ∀ r ∈ readers, OutsideTree env db r.rootPageId [id]

/-- The pages that have been handed out along a trace were not in use. -/
def SparedAll (env : Env) (readers : List ReadTransaction) (log : List Event) : Prop :=
  ∀ event ∈ log, ∀ id ∈ event.allocated, Unused env readers event.before.db id

namespace Usage

/-- A public call in which each page is written whole or not at all; or the database is closed
and opened again. Then all transactions are gone. -/
inductive Passes (env : Env) (s : Usage) : Usage → Prop
  | call {failures : List (Option ℕ)} {log : List Event} {t : Usage}
    (hwhole : ∀ k, some k ∈ failures → WholeWrite s.db.pageIo.pageSize k)
    (hcall : s.Call env failures log t) : Passes env s t
  | reopen {evicts : ℕ → PageId → Bool} {db : DatabaseState}
    (hopen : Database.openExisting env s.db.pageIo.fileHandler.syncData evicts = .ok db) :
    Passes env s (.start db)

/-- Any number of these. -/
def Lifetime (env : Env) : Usage → Usage → Prop := Relation.ReflTransGen (Passes env)

/-- What holds of the calls that may come next. -/
structure Sparing (env : Env) (s : Usage) : Prop where
  unused : ∀ failures log t, (∀ k, some k ∈ failures → WholeWrite s.db.pageIo.pageSize k) →
    s.Call env failures log t → SparedAll env s.readers log ∧
      log.filterMap Event.allocated <:+ t.allocated ∧ t.allocated.Nodup
  /-- An insertion that has room ends as its operations do, or refuses. -/
  insert : ∀ tx key value failures e db' log, s.writer = some tx →
    Accepts (seenPages env s.db tx) tx.pageSize tx.rootPage key value →
    Traces env (tx.insert env key value) s.db failures (.error e) db' log →
    e = .error .transactionFailed ∨ ∃ event ∈ log, event.result = .error e
  /-- So does a commit. -/
  commit : ∀ tx pages failures e db' log, s.writer = some tx → pages.Perm tx.dirtyPages →
    Traces env (tx.commit pages) s.db failures (.error e) db' log →
    e = .error .transactionFailed ∨ ∃ event ∈ log, event.result = .error e

end Usage

/-! ### One operation -/

section

variable {env : Env} {db : DatabaseState} {w w' : Work} {versions : List Version} {id : PageId}
  {d d' : Device} {o : Op}

/-- An operation of the device, performed. -/
def Event.of (env : Env) (o : Op) (d : Device) : Event := ⟨d, o, (faulty env o d).1, (faulty env o d).2⟩

theorem Event.allocated_eq_none {event : Event} (h : event.op ≠ .allocatePageId) :
    event.allocated = none := by
  obtain ⟨before, o, result, after⟩ := event
  cases o with
  | allocatePageId => exact absurd rfl h
  | _ => rfl

/-- The page ids that an operation of the device returns are those of the allocator. -/
theorem allocated_eq_some (h : id ∈ (Event.of env o d).allocated) :
    o = .allocatePageId ∧ ∃ db', execute env .allocatePageId d.db = (.ok id, db') := by
  by_cases ho : o = .allocatePageId
  on_goal 2 =>
    rw [Event.allocated_eq_none ho] at h
    exact absurd h (by simp)
  subst ho
  refine ⟨rfl, (execute env .allocatePageId d.db).2, ?_⟩
  rcases faulty_cases env .allocatePageId d with ⟨k, db', -, hop⟩ | hop
  · rw [Event.of, hop] at h
    exact absurd h (by simp [Event.allocated])
  · rw [Event.of, hop] at h
    rcases hexec : execute env .allocatePageId d.db with ⟨e | pageId, db'⟩
    · rw [hexec] at h
      exact absurd h (by simp [Event.allocated])
    · rw [hexec] at h
      obtain rfl := Option.some.inj h
      rfl

/-- **A page that is allocated** is not in use. -/
theorem Owned.unused (h : Owned env db w versions []) (hpre : WriterPre env w .allocatePageId)
    {db' : DatabaseState} (hexec : execute env .allocatePageId db = (.ok id, db')) :
    Unused env (versions.map Version.reader) db id := by
  have hstep := h.perform hpre fun _ e rest _ v hv => absurd hv List.not_mem_nil
  rw [hexec] at hstep
  obtain ⟨w', ⟨hheader, -, hbase, next, rfl⟩, howned⟩ := hstep
  have hspares : Spares (w.base :: versions) [id] := by
    intro id' hid' v hv
    rw [List.mem_singleton.mp hid']
    rcases List.mem_cons.mp hv with rfl | hv
    · exact hbase
    · have hshared := howned.shared v (List.mem_append_left [] hv)
      exact fun hin => hshared.unused id hin (Set.mem_insert id w.used)
  have hroot : db.commit.header.currentSlot.rootPageId = db.commit.snapshot.1 := by
    rw [h.commit]
    rfl
  refine ⟨hheader, h.outside (Or.inl hroot) hspares, fun r hr => ?_⟩
  obtain ⟨v, hv, rfl⟩ := List.mem_map.mp hr
  exact h.outside (Or.inr ⟨v, hv, rfl⟩) hspares

theorem faulty_ok {a : o.Answer} (h : faulty env o d = (.ok a, d')) :
    execute env o d.db = (.ok a, d'.db) ∧ d'.failures = d.failures.tail := by
  rcases faulty_cases env o d with ⟨k, db', -, hop⟩ | hop
  · rw [hop] at h
    exact absurd (Prod.mk.inj h).1 (by simp)
  · rw [hop, Prod.mk.injEq] at h
    obtain ⟨hresult, rfl⟩ := h
    exact ⟨Prod.ext hresult rfl, rfl⟩

theorem faulty_error {e : Fault} (h : faulty env o d = (.error e, d')) :
    (∃ k, some k ∈ d.failures ∧ afterIoError env k d.db o = some d'.db) ∨
      execute env o d.db = (.error e, d'.db) := by
  rw [faulty] at h
  cases hfail : d.failures.head?.join.bind fun k => afterIoError env k d.db o with
  | none =>
    rw [hfail, Prod.mk.injEq] at h
    obtain ⟨hresult, rfl⟩ := h
    exact Or.inr (Prod.ext hresult rfl)
  | some db' =>
    rw [hfail, Prod.mk.injEq] at h
    obtain ⟨-, rfl⟩ := h
    obtain ⟨k, hhead, hafter⟩ := Option.bind_eq_some_iff.mp hfail
    exact Or.inl ⟨k, List.mem_of_mem_head? (Option.join_eq_some_iff.mp hhead), hafter⟩

theorem execute_pageSize (env : Env) (o : Op) (db : DatabaseState) :
    (execute env o db).2.pageIo.pageSize = db.pageIo.pageSize := by
  cases o with
  | readPage id =>
    obtain ⟨pageCache, hdb⟩ := onlyCache_execute env id db
    rw [hdb]
  | writePage id data =>
    rcases hwrite : db.pageIo.writePage env id data with ⟨e | ⟨⟩, pageIo⟩
    · rw [execute, hwrite, writePage_error hwrite]
    · rw [execute, hwrite]
      exact (writePage_ok hwrite).2.1.1
  | _ => rfl

/-- An operation that leaves a transaction building has left it its pages, unless it is an
allocation. -/
theorem WriterPost.building (hpre : WriterPre env w o) {a : o.Answer} (hpost : WriterPost w o a w')
    (hbuilding : w'.phase = .building) (ho : o ≠ .allocatePageId) :
    w.phase = .building ∧ w'.used = w.used := by
  cases o with
  | readPage id => exact ⟨hpre.1, congrArg Work.used hpost.1⟩
  | allocatePageId => exact absurd rfl ho
  | removePage id =>
    obtain rfl : w' = w := hpost
    exact ⟨hbuilding, rfl⟩
  | nextPageId =>
    obtain ⟨-, rfl⟩ := hpost
    exact ⟨hbuilding, rfl⟩
  | loadHeader =>
    obtain ⟨-, rfl⟩ := hpost
    exact ⟨hbuilding, rfl⟩
  | writePage id data =>
    obtain ⟨v, hphase, -⟩ := hpre
    simp only [WriterPost, hphase] at hpost
    split at hpost
    · subst hpost
      exact absurd hbuilding (by simp)
    · subst hpost
      exact absurd (hphase.symm.trans hbuilding) (by simp)
  | syncData =>
    obtain ⟨v, hphase⟩ := hpre
    simp only [WriterPost, hphase] at hpost
    subst hpost
    exact absurd hbuilding (by simp)
  | swap header =>
    obtain ⟨v, hphase, -⟩ := hpre
    simp only [WriterPost, hphase] at hpost
    subst hpost
    exact absurd hbuilding (by simp [Work.swapTo])
  | freePage id transaction =>
    obtain ⟨old, released, hphase, -⟩ := hpre
    simp only [WriterPost, hphase] at hpost
    subst hpost
    exact absurd hbuilding (by simp)
  | loadSnapshot => exact hpre.elim
  | register transaction => exact hpre.elim
  | deregister transaction => exact hpre.elim

end

/-! ### One call -/

/-- What is left of a call that has been stopped: the version in the file, and what the trace
tells. `given` are the page ids the transaction has been given before the call. -/
structure Leaves (env : Env) (readers : List ReadTransaction) (given : List PageId)
    (db : DatabaseState) (log : List Event) : Prop where
  file : ∃ v, OnFile env db v
  spared : SparedAll env readers log
  nodup : (given ++ log.filterMap Event.allocated).Nodup

/-- The accounts of a transaction in the middle of a call. -/
structure Accounts (env : Env) (pageSize : ℕ) (readers : List ReadTransaction)
    (given : List PageId) (s : Device × List Event) (w : Work) : Prop where
  file : ∃ v, OnFile env s.1.db v ∧ Apart w v
  size : s.1.db.pageIo.pageSize = pageSize
  whole : ∀ k, some k ∈ s.1.failures → WholeWrite pageSize k
  spared : SparedAll env readers s.2
  nodup : (given ++ s.2.filterMap Event.allocated).Nodup
  used : w.phase = .building → ∀ id, id ∈ w.used ↔ id ∈ given ++ s.2.filterMap Event.allocated

section

variable {env : Env} {pageSize : ℕ} {given : List PageId} {versions : List Version}
  {w w' : Work} {d d' : Device} {log : List Event} {o : Op} {base : Version}

theorem Accounts.leaves {readers : List ReadTransaction} {s : Device × List Event}
    (h : Accounts env pageSize readers given s w) : Leaves env readers given s.1.db s.2 := by
  obtain ⟨v, hfile, -⟩ := h.file
  exact ⟨⟨v, hfile⟩, h.spared, h.nodup⟩

/-- The trace after one more operation. -/
theorem Accounts.spared_snoc (h : Accounts env pageSize (versions.map Version.reader) given (d, log) w)
    (howned : Owned env d.db w versions []) (hpre : WriterPre env w o) :
    SparedAll env (versions.map Version.reader)
      (log ++ [Event.of env o d]) := by
  intro event hevent id hid
  rcases List.mem_append.mp hevent with hevent | hevent
  · exact h.spared event hevent id hid
  · obtain rfl := List.mem_singleton.mp hevent
    obtain ⟨rfl, db', hexec⟩ := allocated_eq_some hid
    exact howned.unused hpre hexec

/-- **An operation that succeeds** keeps the accounts. -/
theorem Accounts.perform
    (h : Accounts env pageSize (versions.map Version.reader) given (d, log) w)
    (howned : Owned env d.db w versions []) (hpre : WriterPre env w o) {a : o.Answer}
    (hop : faulty env o d = (.ok a, d')) (hpost : WriterPost w o a w')
    (howned' : Owned env d'.db w' versions []) :
    Accounts env pageSize (versions.map Version.reader) given
      (d', log ++ [Event.of env o d]) w' := by
  obtain ⟨hexec, hfailures⟩ := faulty_ok hop
  obtain ⟨v, hfile, hapart⟩ := h.file
  have hsize := execute_pageSize env o d.db
  rw [hexec] at hsize
  have hwhole : ∀ k, some k ∈ d'.failures → WholeWrite pageSize k := fun k hk =>
    h.whole k (List.mem_of_mem_tail (hfailures ▸ hk))
  have hfile' := hfile.perform howned hapart hpre hexec hpost howned'
  have hspared := h.spared_snoc howned hpre
  by_cases ho : o = .allocatePageId
  · subst ho
    obtain ⟨-, hfresh, -, next, rfl⟩ := hpost
    have hphase : w.phase = .building := hpre
    have hused := h.used hphase
    have hgiven : given ++ (log ++ [Event.of env .allocatePageId d]).filterMap Event.allocated =
        given ++ log.filterMap Event.allocated ++ [a] := by
      rw [Event.of, hop, List.filterMap_append, List.append_assoc]
      rfl
    refine ⟨hfile', hsize.trans h.size, hwhole, hspared, ?_, fun _ id => ?_⟩
    · rw [hgiven]
      refine List.nodup_append.mpr ⟨h.nodup, List.nodup_singleton a, fun id hid id' hid' => ?_⟩
      rw [List.mem_singleton.mp hid']
      rintro rfl
      exact hfresh ((hused id).mpr hid)
    · rw [hgiven, List.mem_append, List.mem_singleton, ← hused id]
      exact Set.mem_insert_iff.trans or_comm
  · have hnone : (Event.of env o d).allocated = none := by
      by_contra hne
      obtain ⟨id, hid⟩ := Option.ne_none_iff_exists'.mp hne
      exact ho (allocated_eq_some hid).1
    have hgiven : (log ++ [Event.of env o d]).filterMap
        Event.allocated = log.filterMap Event.allocated := by
      rw [List.filterMap_append, List.filterMap_cons_none hnone, List.filterMap_nil,
        List.append_nil]
    refine ⟨hfile', hsize.trans h.size, hwhole, hspared, ?_, fun hbuilding id => ?_⟩
    · rw [hgiven]
      exact h.nodup
    · obtain ⟨hphase, hsame⟩ := hpost.building hpre hbuilding ho
      rw [hgiven, hsame]
      exact h.used hphase id

/-- **An operation that fails** leaves the version in the file, and hands out nothing. -/
theorem Accounts.stop
    (h : Accounts env pageSize (versions.map Version.reader) given (d, log) w)
    (howned : Owned env d.db w versions []) (hpre : WriterPre env w o) {e : Fault}
    (hop : faulty env o d = (.error e, d')) :
    Leaves env (versions.map Version.reader) given d'.db (log ++ [Event.of env o d]) := by
  obtain ⟨v, hfile, hapart⟩ := h.file
  have hnone : (Event.of env o d).allocated = none := by
    rw [Event.of, hop]
    cases o <;> rfl
  refine ⟨?_, h.spared_snoc howned hpre, ?_⟩
  · rcases faulty_error hop with ⟨k, hk, hafter⟩ | hexec
    · exact hfile.ioError howned hapart hpre (h.size.symm ▸ h.whole k hk) hafter
    · exact ⟨v, hfile.refused hexec⟩
  · rw [List.filterMap_append, List.filterMap_cons_none hnone, List.filterMap_nil, List.append_nil]
    exact h.nodup

/-- **The device keeps the accounts** of a transaction, whatever fails. -/
theorem accounts_honours (env : Env) (base : Version) (versions : List Version) (pageSize : ℕ)
    (given : List PageId) :
    (faulty env).traced.Honours (writer env)
      (fun _ s => (Aborted env base versions s.1.db ∧ Spares (base :: versions) s.1.written) ∧
        Leaves env (versions.map Version.reader) given s.1.db s.2)
      fun s w => ((Owned env s.1.db w versions [] ∧ WorksOn base w) ∧
        Spares (base :: versions) s.1.written) ∧
        Accounts env pageSize (versions.map Version.reader) given s w := by
  refine (faulty_honours env base versions).traced.keeps ?_ ?_
  · rintro ⟨d, log⟩ w o a ⟨d', log'⟩ w' ⟨⟨howned, -⟩, -⟩ haccounts hpre hop hpost ⟨⟨howned', -⟩, -⟩
    rw [Handler.traced, Prod.mk.injEq, Prod.mk.injEq] at hop
    obtain ⟨hresult, rfl, rfl⟩ := hop
    exact haccounts.perform howned hpre (Prod.ext hresult rfl) hpost howned'
  · rintro ⟨d, log⟩ w o e ⟨d', log'⟩ ⟨⟨howned, -⟩, -⟩ haccounts hpre hop
    rw [Handler.traced, Prod.mk.injEq, Prod.mk.injEq] at hop
    obtain ⟨hresult, rfl, rfl⟩ := hop
    exact haccounts.stop howned hpre (Prod.ext hresult rfl)

/-- **A call of a write transaction**, whatever it ends with. -/
theorem Traces.accounts {α : Type} {call : Call α} {X : Fault → Prop} {Q : α → Work → Prop}
    {db db' : DatabaseState} {failures : List (Option ℕ)} {result : Except Fault α} {v : Version}
    (hrun : Traces env call db failures result db' log) (hsat : call.Sat (writer env) X w Q)
    (howned : Owned env db w versions []) (hfile : OnFile env db v) (hapart : Apart w v)
    (hwhole : ∀ k, some k ∈ failures → WholeWrite db.pageIo.pageSize k) (hnodup : given.Nodup)
    (hused : w.phase = .building → ∀ id, id ∈ w.used ↔ id ∈ given) :
    ∃ w', Owned env db' w' versions [] ∧ Leaves env (versions.map Version.reader) given db' log ∧
      ∀ a, result = .ok a → Q a w' ∧ (∃ v', OnFile env db' v' ∧ Apart w' v') ∧
        (w'.phase = .building →
          ∀ id, id ∈ w'.used ↔ id ∈ given ++ log.filterMap Event.allocated) := by
  obtain ⟨d, hrun, rfl⟩ := hrun
  have hstart : Accounts env db.pageIo.pageSize (versions.map Version.reader) given
      (⟨db, failures, []⟩, []) w :=
    ⟨⟨v, hfile, hapart⟩, rfl, hwhole, fun event hevent => absurd hevent List.not_mem_nil,
      (List.append_nil given).symm ▸ hnodup, (List.append_nil given).symm ▸ hused⟩
  have hresult := hsat.run (accounts_honours env w.base versions db.pageIo.pageSize given)
    (s := (⟨db, failures, []⟩, [])) ⟨⟨⟨howned, fun _ => rfl⟩, Trial.spares_nil _⟩, hstart⟩
  rw [hrun] at hresult
  cases result with
  | ok a =>
    obtain ⟨w', hQ, ⟨⟨howned', -⟩, -⟩, haccounts⟩ := hresult
    refine ⟨w', howned', haccounts.leaves, fun a' heq => ?_⟩
    obtain rfl := Except.ok.inj heq
    exact ⟨hQ, haccounts.file, haccounts.used⟩
  | error e =>
    rcases hresult with ⟨-, w', ⟨⟨howned', -⟩, -⟩, haccounts⟩ | ⟨⟨⟨w', howned', -⟩, -⟩, hleaves⟩
    · exact ⟨w', howned', haccounts.leaves, fun a heq => absurd heq (by simp)⟩
    · exact ⟨w', howned', hleaves, fun a heq => absurd heq (by simp)⟩

end

/-! ### Along a lifetime -/

/-- **The invariant** of a lifetime, between two calls. -/
structure Living (env : Env) (s : Usage) (w : Work) (versions : List Version) : Prop where
  owned : Owned env s.db w versions []
  readers : s.readers = versions.map Version.reader
  file : ∃ v, OnFile env s.db v ∧ Apart w v
  building : w.phase = .building
  /-- The pages of the open write transaction are those it has been given. -/
  writer : ∀ tx, s.writer = some tx → tx.failed = false →
    (∃ m, Working env w tx m) ∧ ∀ id, id ∈ w.used ↔ id ∈ s.allocated
  nodup : s.allocated.Nodup

section

variable {env : Env} {s t : Usage} {w : Work} {versions : List Version}
  {failures : List (Option ℕ)} {log : List Event} {db db' : DatabaseState}

/-- A trace without allocations. -/
theorem unallocated (h : ∀ event ∈ log, event.op ≠ .allocatePageId) (env : Env)
    (readers : List ReadTransaction) :
    SparedAll env readers log ∧ log.filterMap Event.allocated = [] := by
  constructor
  · intro event hevent id hid
    rw [Event.allocated_eq_none (h event hevent)] at hid
    exact absurd hid (by simp)
  · exact List.filterMap_eq_nil_iff.mpr fun event hevent => Event.allocated_eq_none (h event hevent)

theorem apart_restart (w : Work) (v : Version) : Apart w.restart v :=
  fun id _ => Set.notMem_empty id

/-- Where no write transaction is at work. -/
theorem living_idle {writer : Option WriteTransaction} {readers : List ReadTransaction}
    {allocated : List PageId} (howned : Owned env db w versions [])
    (hreaders : readers = versions.map Version.reader) (hfile : ∃ v, OnFile env db v)
    (hnodup : allocated.Nodup) (hwriter : ∀ tx, writer = some tx → tx.failed = true) :
    Living env ⟨db, writer, readers, allocated⟩ w.restart versions where
  owned := howned.restart
  readers := hreaders
  file := hfile.imp fun v hv => ⟨hv, apart_restart w v⟩
  building := rfl
  writer tx heq hfailed := absurd (hwriter tx heq) (by simp [hfailed])
  nodup := hnodup

/-- What remains is that of another state with the same store. -/
theorem OnFile.sameStore {v : Version} (h : OnFile env db v) (hsame : SameStore db db') :
    OnFile env db' v where
  bears := by
    rw [hsame.pageSize, hsame.fileHandler]
    exact h.bears
  memory := by
    rw [hsame.pageSize, hsame.commit]
    exact h.memory
  len := by
    rw [hsame.pageSize, hsame.fileHandler]
    exact h.len
  next := hsame.allocator ▸ h.next
  queue := hsame.allocator ▸ h.queue

/-- **An insertion**, whatever it ends with. -/
theorem Living.insert (henv : env.debugAssertions = true) (h : Living env s w versions)
    {tx : WriteTransaction} {key : Key} {value : Value} {result : Except Fault WriteTransaction}
    (hwriter : s.writer = some tx) (hfailed : tx.failed = false)
    (hrun : Traces env (tx.insert env key value) s.db failures result db' log)
    (hwhole : ∀ k, some k ∈ failures → WholeWrite s.db.pageIo.pageSize k) :
    SparedAll env s.readers log ∧ ∃ w', Living env
      ⟨db', Usage.afterInsert tx result, s.readers, s.allocated ++ log.filterMap Event.allocated⟩
      w' versions := by
  obtain ⟨⟨m, hworking⟩, hused⟩ := h.writer tx hwriter hfailed
  obtain ⟨v, hfile, hapart⟩ := h.file
  obtain ⟨w', howned, hleaves, hok⟩ := hrun.accounts (hworking.insert_sat henv key value) h.owned
    hfile hapart hwhole h.nodup fun _ => hused
  refine ⟨h.readers ▸ hleaves.spared, ?_⟩
  cases result with
  | ok tx' =>
    obtain ⟨⟨hworking', -⟩, hfile', hused'⟩ := hok tx' rfl
    have hbuilding := hworking'.ok.inv.phase
    refine ⟨w', howned, h.readers, hfile', hbuilding, fun tx'' heq _ => ?_, hleaves.nodup⟩
    obtain rfl := Option.some.inj heq
    exact ⟨⟨_, hworking'⟩, hused' hbuilding⟩
  | error e =>
    refine ⟨w'.restart, living_idle howned h.readers hleaves.file hleaves.nodup fun tx' heq => ?_⟩
    cases e with
    | error e =>
      obtain rfl := Option.some.inj heq
      rfl
    | _ => exact absurd heq (by simp [Usage.afterInsert])

/-- **A commit**, whatever it ends with. -/
theorem Living.commit (h : Living env s w versions) {tx : WriteTransaction}
    {pages : List (PageId × DirtyPageSlot)} {result : Except Fault Unit}
    (hwriter : s.writer = some tx) (hpages : pages.Perm tx.dirtyPages) (hfailed : tx.failed = false)
    (hrun : Traces env (tx.commit pages) s.db failures result db' log)
    (hwhole : ∀ k, some k ∈ failures → WholeWrite s.db.pageIo.pageSize k) :
    SparedAll env s.readers log ∧ ∃ w', Living env
      ⟨db', none, s.readers, s.allocated ++ log.filterMap Event.allocated⟩ w' versions := by
  obtain ⟨⟨m, hworking⟩, -⟩ := h.writer tx hwriter hfailed
  obtain ⟨v, hfile, hapart⟩ := h.file
  rw [Apart, h.building] at hapart
  obtain ⟨u, hbuilds, -⟩ := hworking.ok.builds
  have hsat := commit_sat hbuilds hworking.ok.inv h.owned.stands.header hworking.failed hpages
    (encodable_panics w.header)
  obtain ⟨w', howned, hleaves, -⟩ := hrun.accounts hsat (h.owned.plan hworking hbuilds) hfile hapart
    hwhole h.nodup fun heq => absurd heq (by simp)
  exact ⟨h.readers ▸ hleaves.spared, w'.restart,
    living_idle howned h.readers hleaves.file hleaves.nodup fun tx' heq => absurd heq (by simp)⟩

/-- The read transaction that is dropped is one of those that are open. -/
theorem Living.dropReader (h : Living env s w versions) {r : ReadTransaction}
    (hreader : r ∈ s.readers) (hrun : r.drop.run (execute env) s.db = (.ok (), db')) :
    ∃ versions', Living env { s with db := db', readers := s.readers.erase r } w versions' := by
  obtain ⟨l₁, l₂, -, hsplit, herase⟩ := List.exists_erase_eq hreader
  rw [h.readers] at hsplit
  obtain ⟨before, rest, rfl, hbefore, hrest⟩ := List.map_eq_append_iff.mp hsplit
  obtain ⟨v, after, rfl, rfl, hafter⟩ := List.map_eq_cons_iff.mp hrest
  obtain ⟨db'', hrun', howned, hsame⟩ := h.owned.dropReader
  obtain rfl := (Prod.mk.inj (hrun.symm.trans hrun')).2
  refine ⟨before ++ after, { h with owned := howned, readers := ?_, file := ?_ }⟩
  · rw [herase, List.map_append, hbefore, hafter]
  · exact h.file.imp fun v hv => ⟨hv.1.sameStore hsame, hv.2⟩

/-- **Every call** keeps the invariant, and hands out no page in use. -/
theorem Living.call (henv : env.debugAssertions = true) (h : Living env s w versions)
    (hwhole : ∀ k, some k ∈ failures → WholeWrite s.db.pageIo.pageSize k)
    (hcall : s.Call env failures log t) :
    SparedAll env s.readers log ∧ log.filterMap Event.allocated <:+ t.allocated ∧
      ∃ w' versions', Living env t w' versions' := by
  cases hcall with
  | beginRead hrun =>
    obtain ⟨hbegin, hcalm⟩ := hrun.beginRead
    obtain ⟨hspared, hnone⟩ := unallocated (fun event hevent => (hcalm event hevent).2) env s.readers
    refine ⟨hspared, hnone ▸ List.nil_suffix, w, w.base :: versions, ?_⟩
    obtain ⟨db'', hbegin', howned, hsame⟩ := h.owned.beginRead
    obtain ⟨hr, rfl⟩ := Prod.mk.inj (hbegin.symm.trans hbegin')
    obtain rfl := Except.ok.inj hr
    exact { h with
      owned := howned
      readers := congrArg (List.cons _) h.readers
      file := h.file.imp fun v hv => ⟨hv.1.sameStore hsame, hv.2⟩ }
  | @read _ r key result db' hreader hrun =>
    obtain ⟨hcache, hevents⟩ := hrun.read
    obtain ⟨hspared, hnone⟩ := unallocated (fun event hevent heq => by
      obtain ⟨-, pageId, hop⟩ := hevents event hevent
      exact absurd (heq.symm.trans hop) (by simp)) env s.readers
    refine ⟨hspared, hnone ▸ List.nil_suffix, w, versions, { h with owned := ?_, file := ?_ }⟩
    · rw [h.readers] at hreader
      obtain ⟨v, hv, rfl⟩ := List.mem_map.mp hreader
      obtain ⟨failures', d, hread, rfl⟩ := hrun.ends
      have hresult := h.owned.read_faulty hv key failures'
      rw [hread] at hresult
      cases result with
      | ok value => exact hresult.2
      | error e => exact hresult.2
    · exact h.file.imp fun v hv => ⟨hv.1.onlyCache hcache, hv.2⟩
  | dropReader hreader hrun =>
    obtain ⟨hdrop, hcalm⟩ := hrun.drop
    obtain ⟨hspared, hnone⟩ := unallocated (fun event hevent => (hcalm event hevent).2) env s.readers
    exact ⟨hspared, hnone ▸ List.nil_suffix, w, h.dropReader hreader hdrop⟩
  | beginWrite hwriter hrun =>
    obtain ⟨hbegin, hcalm⟩ := hrun.beginWrite
    obtain ⟨hspared, hnone⟩ := unallocated (fun event hevent => (hcalm event hevent).2) env s.readers
    obtain ⟨rfl, hworking⟩ := h.owned.beginWrite hbegin
    refine ⟨hspared, hnone ▸ List.nil_suffix, w.restart, versions, ?_⟩
    refine ⟨h.owned.restart, h.readers, h.file.imp fun v hv => ⟨hv.1, apart_restart w v⟩, rfl,
      fun tx heq _ => ?_, List.nodup_nil⟩
    obtain rfl := Option.some.inj heq
    exact ⟨⟨_, hworking⟩, fun id => iff_of_false (Set.notMem_empty id) List.not_mem_nil⟩
  | @insert _ tx key value result db' hwriter hrun =>
    cases hfailed : tx.failed with
    | true =>
      obtain ⟨rfl, rfl, rfl⟩ := hrun.insert_refused hfailed
      refine ⟨fun event hevent => absurd hevent List.not_mem_nil, List.suffix_append _ _,
        w.restart, versions, ?_⟩
      refine living_idle h.owned h.readers (h.file.imp fun v hv => hv.1) ?_ fun tx' heq => ?_
      · rw [List.filterMap_nil, List.append_nil]
        exact h.nodup
      · obtain rfl := Option.some.inj heq
        rfl
    | false =>
      obtain ⟨hspared, w', hliving⟩ := h.insert henv hwriter hfailed hrun hwhole
      exact ⟨hspared, List.suffix_append _ _, w', versions, hliving⟩
  | @commit _ tx pages result db' hwriter hpages hrun =>
    cases hfailed : tx.failed with
    | true =>
      obtain ⟨rfl, rfl, rfl⟩ := hrun.commit_refused hfailed
      refine ⟨fun event hevent => absurd hevent List.not_mem_nil, List.suffix_append _ _,
        w.restart, versions, ?_⟩
      refine living_idle h.owned h.readers (h.file.imp fun v hv => hv.1) ?_ fun tx' heq => ?_
      · rw [List.filterMap_nil, List.append_nil]
        exact h.nodup
      · exact absurd heq (by simp)
    | false =>
      obtain ⟨hspared, w', hliving⟩ := h.commit hwriter hpages hfailed hrun hwhole
      exact ⟨hspared, List.suffix_append _ _, w', versions, hliving⟩
  | dropWriter hwriter =>
    refine ⟨fun event hevent => absurd hevent List.not_mem_nil, List.nil_suffix, w, versions, ?_⟩
    exact { h with writer := fun tx heq => absurd heq (by simp) }

/-- **Opening the file again** starts from the version in it. -/
theorem Living.reopen (h : Living env s w versions) {evicts : ℕ → PageId → Bool}
    (hopen : Database.openExisting env s.db.pageIo.fileHandler.syncData evicts = .ok db) :
    ∃ w', Living env (.start db) w' [] := by
  obtain ⟨v, hfile, -⟩ := h.file
  obtain ⟨db', w', hopen', howned, hfile'⟩ := hfile.reopen h.owned evicts
  obtain rfl := Except.ok.inj (hopen.symm.trans hopen')
  exact ⟨w'.restart, living_idle howned rfl ⟨v, hfile'⟩ List.nodup_nil fun tx heq =>
    absurd heq (by simp)⟩

/-- A new database. -/
theorem living_start {pageSize : ℕ} {evicts : ℕ → PageId → Bool}
    (hnew : Database.openNew env pageSize evicts = .ok db) : ∃ w, Living env (.start db) w [] := by
  obtain ⟨page, hfresh⟩ := openNew_ok hnew
  exact ⟨_, living_idle hfresh.owned rfl ⟨_, hfresh.onFile⟩ List.nodup_nil fun tx heq =>
    absurd heq (by simp)⟩

theorem Usage.Lifetime.living (henv : env.debugAssertions = true) {pageSize : ℕ}
    {evicts : ℕ → PageId → Bool} (hnew : Database.openNew env pageSize evicts = .ok db)
    (hrun : Usage.Lifetime env (.start db) s) : ∃ w versions, Living env s w versions := by
  induction hrun with
  | refl =>
    obtain ⟨w, h⟩ := living_start hnew
    exact ⟨w, [], h⟩
  | tail _ hstep ih =>
    obtain ⟨w, versions, h⟩ := ih
    cases hstep with
    | call hwhole hcall => exact (h.call henv hwhole hcall).2.2
    | reopen hopen =>
      obtain ⟨w', h'⟩ := h.reopen hopen
      exact ⟨w', [], h'⟩

/-! ### What a panic is -/

/-- Code that ends in no fault of its own ends in the fault of an operation. -/
theorem Traces.stops {α : Type} {call : Call α} {Q : α → Work → Prop} {e : Fault}
    (hrun : Traces env call db failures (.error e) db' log)
    (hsat : call.Sat (writer env) (fun _ => False) w Q) (howned : Owned env db w versions []) :
    ∃ event ∈ log, event.result = .error e := by
  obtain ⟨d, hrun, rfl⟩ := hrun
  have hresult := hsat.run (faulty_honours env w.base versions).stops
    (s := (⟨db, failures, []⟩, [])) ⟨⟨howned, fun _ => rfl⟩, Trial.spares_nil _⟩
  rw [hrun] at hresult
  exact (hresult.resolve_left fun h => h.1).2

theorem Living.insert_stops (h : Living env s w versions) {tx : WriteTransaction} {key : Key}
    {value : Value} {e : Fault} (hwriter : s.writer = some tx)
    (hroom : Accepts (seenPages env s.db tx) tx.pageSize tx.rootPage key value)
    (hrun : Traces env (tx.insert env key value) s.db failures (.error e) db' log) :
    e = .error .transactionFailed ∨ ∃ event ∈ log, event.result = .error e := by
  cases hfailed : tx.failed with
  | true => exact Or.inl (Except.error.inj (hrun.insert_refused hfailed).1)
  | false =>
    obtain ⟨⟨m, hworking⟩, -⟩ := h.writer tx hwriter hfailed
    -- there is room, so no assertion about sizes fails
    have hsat := hworking.insert_guarded_sat (X := fun _ => False) (G := True)
      (Or.inl (h.owned.sized hworking.ok.inv)) (fun _ _ => h.owned.seen) key value (Or.inl hroom)
    exact Or.inr (hrun.stops hsat h.owned)

theorem Living.commit_stops (h : Living env s w versions) {tx : WriteTransaction}
    {pages : List (PageId × DirtyPageSlot)} {e : Fault} (hwriter : s.writer = some tx)
    (hpages : pages.Perm tx.dirtyPages)
    (hrun : Traces env (tx.commit pages) s.db failures (.error e) db' log) :
    e = .error .transactionFailed ∨ ∃ event ∈ log, event.result = .error e := by
  cases hfailed : tx.failed with
  | true => exact Or.inl (Except.error.inj (hrun.commit_refused hfailed).1)
  | false =>
    obtain ⟨⟨m, hworking⟩, -⟩ := h.writer tx hwriter hfailed
    obtain ⟨v, hfile, -⟩ := h.file
    obtain ⟨u, hbuilds, -⟩ := hworking.ok.builds
    -- the header page takes the header, since its page size is that of the database
    have hencodable : Encodable (fun _ => False) w.header := by
      refine Or.inl ?_
      rw [(hfile.sound h.owned).pageSize]
      exact ⟨le_trans (by decide) h.owned.large, h.owned.small⟩
    have hsat := commit_sat hbuilds hworking.ok.inv h.owned.stands.header hworking.failed hpages
      hencodable
    exact Or.inr (hrun.stops hsat (h.owned.plan hworking hbuilds))

/-- **The allocator never hands out a page in use**, in any lifetime of a database: not that of
the header, no page of the current tree or of one that is being read, and none that the write
transaction has got already. The checks of its dirty pages do not fail: with room for the pair an
insertion ends as its operations do, and so does a commit. -/
theorem allocated_unused (henv : env.debugAssertions = true) {pageSize : ℕ}
    {evicts : ℕ → PageId → Bool} (hnew : Database.openNew env pageSize evicts = .ok db)
    (hrun : Usage.Lifetime env (.start db) s) : s.Sparing env := by
  obtain ⟨w, versions, h⟩ := hrun.living henv hnew
  refine ⟨fun failures log t hwhole hcall => ?_,
    fun tx key value failures e db' log hwriter hroom hinsert =>
      h.insert_stops hwriter hroom hinsert,
    fun tx pages failures e db' log hwriter hpages hcommit =>
      h.commit_stops hwriter hpages hcommit⟩
  obtain ⟨hspared, hsuffix, w', versions', h'⟩ := h.call henv hwhole hcall
  exact ⟨hspared, hsuffix, h'.nodup⟩

/-- The first transaction has been given the page two. -/
theorem allocated_unused_firstInsert : ∃ db s tx,
    Database.openNew .debug 4096 (fun _ _ => false) = .ok db ∧
      Usage.Lifetime .debug (.start db) s ∧ s.writer = some tx ∧
      tx.dirtyPages.map Prod.fst = [2] ∧ s.Sparing .debug := by
  obtain ⟨db, _, tx, tx', db₁, db₂, hnew, -, h⟩ := exists_firstCommit
  obtain ⟨log, hbegin⟩ := Traces.of_run h.begin
  obtain ⟨log₁, hinsert⟩ := Traces.of_run h.insert
  have hwhole : ∀ {pageSize : ℕ}, ∀ k, some k ∈ ([] : List (Option ℕ)) → WholeWrite pageSize k :=
    fun k hk => absurd hk List.not_mem_nil
  have hrun : Usage.Lifetime .debug (.start db) _ :=
    (Relation.ReflTransGen.single (.call hwhole (.beginWrite rfl hbegin))).tail
      (.call hwhole (.insert rfl hinsert))
  exact ⟨db, _, tx', hnew, hrun, rfl, h.dirty, allocated_unused rfl hnew hrun⟩

end

end KvRaft.Kv
