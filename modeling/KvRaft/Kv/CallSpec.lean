import KvRaft.Kv.Ownership

/-!
# The public calls

What each public call on an open database does, from the protocols its code keeps to and
the ownership the database keeps: `begin_read`, `read` and the drop of a read transaction;
`begin_write`, `insert` and `commit` of a write transaction. A call of a write transaction
that fails leaves a database on which the version it started from is still the current one
(`Aborted`).
-/

namespace KvRaft.Kv

open Ordered

section

variable {env : Env} {db db' : DatabaseState} {w : Work} {readers starting : List Version}

/-! ### Read transactions -/

/-- The database answers what a reader may rely on. -/
theorem reading_honours (env : Env) (db : DatabaseState) (w : Work)
    (readers starting : List Version) :
    (execute env).Honours (reading w.view) (fun _ _ => False)
      fun db' _ => Owned env db' w readers starting ∧ SameStore db db' := by
  rintro db₁ n o ⟨h, hsame⟩ ⟨id, rfl, page, hview⟩
  obtain ⟨db₂, hread, howned, hsame'⟩ := h.readPage hview
  rw [hread]
  exact ⟨n + 1, ⟨hview, rfl⟩, howned, hsame.trans hsame'⟩

/-- **Reading** a key of a version returns what its map holds. -/
theorem Owned.read (h : Owned env db w readers starting) {v : Version}
    (hv : v ∈ readers ++ starting) (key : Key) :
    ∃ db', (v.reader.read key).run (execute env) db = (.ok (v.map key), db') ∧
      Owned env db' w readers starting ∧ SameStore db db' := by
  have hstands := (h.shared v hv).stands
  obtain ⟨r, db', n, hrun, ⟨rfl, -⟩, howned⟩ :=
    (get_sat (X := fun _ => False) (n := 0) (hstands.tree.depth_lt_maxDepth hstands.nodup)
      hstands.tree bot_le (WithTop.coe_lt_top key)).run_ok
      (reading_honours env db w readers starting) ⟨h, .refl db⟩
  exact ⟨db', hrun, howned⟩

/-- The current version may be read as well. -/
theorem Owned.sharedBase (h : Owned env db w readers starting) :
    Shared env w db.allocator.pendingFreePages w.base where
  stands := h.stands
  le := le_rfl
  current _ := List.Subset.refl _
  unused id hid hused := (h.used id hused).base hid
  below := h.base
  queued e he hmem := absurd hmem (h.waiting e he).base

/-- A reader has loaded the snapshot. -/
theorem Owned.load (h : Owned env db w readers starting) :
    execute env .loadSnapshot db = (.ok (w.base.reader.rootPageId, w.base.reader.transaction), db) ∧
      Owned env db w readers (w.base :: starting) := by
  refine ⟨?_, { h with shared := fun v hv => ?_ }⟩
  · rw [execute, h.commit, CommitState.new, h.slot]
    rfl
  · rcases List.mem_append.mp hv with hv | hv
    · exact h.shared v (List.mem_append_left _ hv)
    · rcases List.mem_cons.mp hv with rfl | hv
      · exact h.sharedBase
      · exact h.shared v (List.mem_append_right _ hv)

/-- A reader that has loaded a snapshot enters the tracker. -/
theorem Owned.register {before after : List Version} {v : Version}
    (h : Owned env db w readers (before ++ v :: after)) :
    ∃ db', execute env (.register v.reader.transaction) db = (.ok (), db') ∧
      Owned env db' w (v :: readers) (before ++ after) ∧ SameStore db db' := by
  refine ⟨_, rfl, { h with shared := fun v' hv' => h.shared v' ?_, tracked := ?_ },
    ⟨rfl, rfl, rfl, rfl⟩⟩
  · simp only [List.cons_append, List.mem_cons, List.mem_append] at hv' ⊢
    tauto
  · rw [List.map_cons]
    exact h.tracked.beginRead _

/-- **Beginning to read** the current version. -/
theorem Owned.beginRead (h : Owned env db w readers starting) :
    ∃ db', Database.beginRead.run (execute env) db = (.ok w.base.reader, db') ∧
      Owned env db' w (w.base :: readers) starting ∧ SameStore db db' := by
  obtain ⟨hload, hloaded⟩ := h.load
  obtain ⟨db', hregister, howned⟩ := Owned.register (show Owned env db w readers
    ([] ++ w.base :: starting) from hloaded)
  refine ⟨db', ?_, howned⟩
  have hrunLoad : loadSnapshot.run (execute env) db = _ := (Program.run_op _ _ _).trans hload
  have hrunRegister : (Kv.register w.base.reader.transaction).run (execute env) db = _ :=
    (Program.run_op _ _ _).trans hregister
  rw [Database.beginRead, Program.run_bind_ok hrunLoad]
  dsimp only
  rw [Program.run_bind_ok hrunRegister]
  rfl

/-- A read transaction that is begun now returns for every key what the map holds. -/
def Serves (env : Env) (db : DatabaseState) (m : Key → Option Value) : Prop :=
  ∃ r db₁, Database.beginRead.run (execute env) db = (.ok r, db₁) ∧
    ∀ key, ∃ db₂, (r.read key).run (execute env) db₁ = (.ok (m key), db₂)

/-- The database serves its current version. -/
theorem Owned.serves (h : Owned env db w readers starting) : Serves env db w.base.map := by
  obtain ⟨db₁, hbegin, howned, -⟩ := h.beginRead
  refine ⟨w.base.reader, db₁, hbegin, fun key => ?_⟩
  obtain ⟨db₂, hread, -⟩ := howned.read (v := w.base)
    (List.mem_append_left starting List.mem_cons_self) key
  exact ⟨db₂, hread⟩

/-- **A reader is dropped.** -/
theorem Owned.dropReader {before after : List Version} {v : Version}
    (h : Owned env db w (before ++ v :: after) starting) :
    ∃ db', v.reader.drop.run (execute env) db = (.ok (), db') ∧
      Owned env db' w (before ++ after) starting ∧ SameStore db db' := by
  refine ⟨_, Program.run_op _ _ _, { h with shared := fun v' hv' => h.shared v' ?_, tracked := ?_ },
    ⟨rfl, rfl, rfl, rfl⟩⟩
  · simp only [List.mem_cons, List.mem_append] at hv' ⊢
    tauto
  · refine (h.tracked.perm ?_).drop
    exact (List.perm_middle.map fun v : Version => v.slot.transactionId).symm

/-! ### Write transactions -/

/-- Until a transaction has published its version, its base version is the current one. -/
def WorksOn (base : Version) (w : Work) : Prop := Unpublished w → w.base = base

/-- The database goes on from `base`. -/
def Aborted (env : Env) (base : Version) (readers : List Version) (db : DatabaseState) : Prop :=
  ∃ w, Owned env db w readers [] ∧ w.base = base

theorem WorksOn.post {base : Version} (h : WorksOn base w) {o : Op} (hpre : WriterPre env w o)
    {a : o.Answer} {w' : Work} (hpost : WriterPost w o a w') : WorksOn base w' := by
  intro hunpublished
  -- the base is exchanged by the swap of the header alone, and that publishes the version
  cases o with
  | readPage id =>
    obtain ⟨rfl, -⟩ := hpost
    exact h hunpublished
  | writePage id data =>
    obtain ⟨v, hphase, -⟩ := hpre
    have hbase : w.base = base := h fun old released heq => by
      rw [hphase] at heq
      exact absurd heq (by simp)
    simp only [WriterPost, hphase] at hpost
    split at hpost <;> (subst hpost; exact hbase)
  | removePage id =>
    obtain rfl : w' = w := hpost
    exact h hunpublished
  | syncData =>
    obtain ⟨v, hphase⟩ := hpre
    simp only [WriterPost, hphase] at hpost
    subst hpost
    exact h fun old released heq => by
      rw [hphase] at heq
      exact absurd heq (by simp)
  | allocatePageId =>
    obtain ⟨-, -, -, next, rfl⟩ := hpost
    exact h hunpublished
  | nextPageId =>
    obtain ⟨-, rfl⟩ := hpost
    exact h hunpublished
  | freePage id transaction =>
    obtain ⟨old, released, hphase, -⟩ := hpre
    simp only [WriterPost, hphase] at hpost
    subst hpost
    exact absurd rfl (hunpublished _ _)
  | loadHeader =>
    obtain ⟨-, rfl⟩ := hpost
    exact h hunpublished
  | swap header =>
    obtain ⟨v, hphase, -⟩ := hpre
    simp only [WriterPost, hphase] at hpost
    subst hpost
    exact absurd rfl (hunpublished _ _)
  | loadSnapshot => exact hpre.elim
  | register transaction => exact hpre.elim
  | deregister transaction => exact hpre.elim

/-- **The database answers what a write transaction relies on**, or fails and goes on from
the version the transaction started from. -/
theorem writer_honours (env : Env) (base : Version) (readers : List Version) :
    (execute env).Honours (writer env) (fun _ db => Aborted env base readers db)
      fun db w => Owned env db w readers [] ∧ WorksOn base w := by
  rintro db w o ⟨h, hbase⟩ hpre
  have hstep := h.perform hpre fun _ e rest _ v hv => absurd hv List.not_mem_nil
  rcases hres : execute env o db with ⟨e | a, db'⟩
  · rw [hres] at hstep
    obtain ⟨hunpublished, next, howned⟩ := hstep
    exact ⟨_, howned, hbase hunpublished⟩
  · rw [hres] at hstep
    obtain ⟨w', hpost, howned⟩ := hstep
    exact ⟨w', hpost, howned, hbase.post hpre hpost⟩

/-- A property of the database and the work that the operations of a write transaction keep,
next to the ownership. -/
def Stable (env : Env) (K : DatabaseState → Work → Prop) : Prop :=
  ∀ {db w readers o a db' w'}, Owned env db w readers [] → K db w → WriterPre env w o →
    execute env o db = (.ok a, db') → WriterPost w o a w' → Owned env db' w' readers [] → K db' w'

theorem stable_true (env : Env) : Stable env fun _ _ => True :=
  fun _ _ _ _ _ _ => trivial

theorem Stable.honours {K : DatabaseState → Work → Prop} (hK : Stable env K) (base : Version)
    (readers : List Version) :
    (execute env).Honours (writer env) (fun _ db => Aborted env base readers db)
      fun db w => (Owned env db w readers [] ∧ WorksOn base w) ∧ K db w :=
  (writer_honours env base readers).and fun hR hk hpre hop hpost hR' =>
    hK hR.1 hk hpre hop hpost hR'.1

/-- The work of the next transaction. -/
def Work.restart (w : Work) : Work := { w with used := ∅, phase := .building }

theorem Owned.restart (h : Owned env db w readers starting) :
    Owned env db w.restart readers starting :=
  { h with
    used := fun id hid => absurd hid (Set.notMem_empty id)
    waiting := fun e he => { h.waiting e he with used := Set.notMem_empty _ }
    shared := fun v hv => { h.shared v hv with unused := fun id _ => Set.notMem_empty id }
    phase := trivial }

/-- A transaction that holds the map `m`, between two calls. -/
structure Working (env : Env) (w : Work) (tx : WriteTransaction) (m : Key → Option Value) :
    Prop where
  ok : TxOk env w tx m
  later : w.base.slot.transactionId < tx.transaction
  failed : tx.failed = false

/-- The write transaction that begins is the next one after the current version. -/
theorem beginWrite_inv {pageSize : ℕ} {tx : WriteTransaction}
    (hrun : (Database.beginWrite pageSize).run (execute env) db = (.ok tx, db')) :
    db' = db ∧ db.commit.header.currentSlot.transactionId < tx.transaction ∧
      tx = ⟨pageSize, .ofNat (db.commit.header.currentSlot.transactionId.toNat + 1),
        db.commit.header.currentSlot.rootPageId, db.commit.header.currentSlot.rootPageChecksum,
        [], [], false⟩ := by
  have hload : loadHeader.run (execute env) db = (.ok db.commit.header, db) :=
    Program.run_op _ _ _
  rw [Database.beginWrite, Program.run_bind_ok hload, WriteTransaction.new, usize] at hrun
  split at hrun
  on_goal 2 => exact absurd (Prod.mk.inj hrun).1 (by simp)
  rename_i hsmall
  obtain ⟨htx, rfl⟩ := Prod.mk.inj hrun
  rw [Except.ok.injEq] at htx
  subst htx
  refine ⟨rfl, ?_, rfl⟩
  rw [UInt64.lt_iff_toNat_lt, UInt64.toNat_ofNat_of_lt' hsmall]
  exact Nat.lt_succ_self _

/-- **Beginning to write** on the current version. -/
theorem Owned.beginWrite (h : Owned env db w readers starting) {tx : WriteTransaction}
    (hrun : (Database.beginWrite db.pageIo.pageSize).run (execute env) db = (.ok tx, db')) :
    db' = db ∧ Working env w.restart tx w.base.map := by
  obtain ⟨rfl, hlater, rfl⟩ := beginWrite_inv hrun
  have hslot : db'.commit.header.currentSlot = w.base.slot := by
    rw [h.commit, ← h.slot]
    rfl
  rw [hslot] at hlater ⊢
  exact ⟨rfl, begin_ok rfl rfl h.stands h.pageSize h.large h.small rfl rfl rfl, hlater, rfl⟩

/-- The code of an insertion keeps to the protocol, where it is guarded. With debug assertions
it returns only where there is room. -/
theorem Working.insert_guarded_sat {X : Fault → Prop} {G : Prop} {tx : WriteTransaction}
    {m : Key → Option Value} (h : Working env w tx m) (hsized : Sized w tx ∨ X .panic) {view : View}
    (hview : ∀ id data, overlay tx w.view id = some data → view id = some data) (key : Key)
    (value : Value)
    (hguarded : Guarded env X G (Accepts view tx.pageSize tx.rootPage key value)) :
    (tx.insert env key value).Sat (writer env) X w fun tx' w' =>
      ((G → Working env w' tx' (assign m key value)) ∧ w'.base = w.base) ∧
        (env.debugAssertions = true → Accepts view tx.pageSize tx.rootPage key value) := by
  rw [WriteTransaction.insert, h.failed, if_neg Bool.false_ne_true, Program.sat_bind]
  refine (Kv.insert_guarded_sat h.ok hsized hview key value hguarded).mono ?_
  rintro ⟨⟨⟩, tx'⟩ w' ⟨⟨hok, hgoes⟩, hroom⟩
  dsimp only at hok hgoes
  have hbase : w'.base = w.base := by
    rw [hgoes.work]
  refine ⟨⟨fun hG => ⟨hok hG, ?_, ?_⟩, hbase⟩, hroom⟩
  · rw [hbase, hgoes.config]
    exact h.later
  · rw [hgoes.config]
    exact h.failed

/-- With debug assertions it is. -/
theorem Working.insert_sat (henv : env.debugAssertions = true) {tx : WriteTransaction}
    {m : Key → Option Value} (h : Working env w tx m) (key : Key) (value : Value) :
    (tx.insert env key value).Sat (writer env) Panics w fun tx' w' =>
      Working env w' tx' (assign m key value) ∧ w'.base = w.base :=
  (h.insert_guarded_sat (X := Panics) (G := True) (Or.inr rfl) (fun _ _ h => h) key value
    (guarded_debug henv _ _)).mono fun _ _ h => ⟨h.1.1 trivial, h.1.2⟩

/-- The pages in the file. -/
def storedPages (env : Env) (db : DatabaseState) : View := fun id =>
  (db.pageIo.readFile env id).toOption

/-- The pages as a transaction sees them: its dirty pages over those in the file. -/
def seenPages (env : Env) (db : DatabaseState) (tx : WriteTransaction) : View :=
  overlay tx (storedPages env db)

/-- What is known of the pages is what the transaction sees. -/
theorem Owned.seen (h : Owned env db w readers starting) {tx : WriteTransaction} {id : PageId}
    {data : Bytes} (hdata : overlay tx w.view id = some data) :
    seenPages env db tx id = some data := by
  rw [seenPages, overlay]
  rw [overlay] at hdata
  cases hslot : tx.slot id with
  | some slot =>
    rw [hslot] at hdata
    cases slot <;> exact hdata
  | none =>
    rw [hslot] at hdata
    dsimp only at hdata ⊢
    rw [storedPages, (h.reads id data hdata).readFile env (h.pageSize ▸ h.small)]
    rfl

/-- **Inserting**, where it is guarded, sets the value of the key in the map of the
transaction, or fails and leaves the database as it was. -/
theorem Owned.insert_run (h : Owned env db w readers []) {K : DatabaseState → Work → Prop}
    (hK : Stable env K) (hk : K db w) {tx : WriteTransaction} {m : Key → Option Value}
    (hworking : Working env w tx m) (key : Key) (value : Value)
    (hguarded : Guarded env Panics True
      (Accepts (seenPages env db tx) tx.pageSize tx.rootPage key value)) :
    match (tx.insert env key value).run (execute env) db with
    | (.ok tx', db') => ∃ w', Owned env db' w' readers [] ∧ K db' w' ∧
        Working env w' tx' (assign m key value) ∧ w'.base = w.base
    | (.error e, db') => e = .panic ∨ Aborted env w.base readers db' := by
  have hresult := (hworking.insert_guarded_sat (Or.inr panics_panic) (fun _ _ => h.seen) key value
    hguarded).run (hK.honours w.base readers) ⟨⟨h, fun _ => rfl⟩, hk⟩
  rcases hrun : (tx.insert env key value).run (execute env) db with ⟨e | tx', db'⟩
  · rw [hrun] at hresult
    rcases hresult with ⟨hpanic, -⟩ | haborted
    · exact Or.inl hpanic
    · exact Or.inr haborted
  · rw [hrun] at hresult
    obtain ⟨w', ⟨⟨hworking', hbase⟩, -⟩, ⟨howned, -⟩, hk'⟩ := hresult
    exact ⟨w', howned, hk', hworking' trivial, hbase⟩

/-- The version a transaction has built may be written. -/
theorem Owned.plan (h : Owned env db w readers starting) {tx : WriteTransaction}
    {m : Key → Option Value} (hworking : Working env w tx m) {v : Version}
    (hbuilds : Builds env w tx v) :
    Owned env db { w with phase := .writing v } readers starting :=
  { h with
    used := fun id hid => { h.used id hid with }
    waiting := fun e he => { h.waiting e he with }
    shared := fun v hv => { h.shared v hv with }
    phase := {
      later := by
        rw [hbuilds.slot]
        exact hworking.later
      next := by rw [hbuilds.slot]
      pages := fun id hid =>
        ((hbuilds.spans.held id hid).owned hworking.ok.inv).symm } }

/-- The work after the version `v` has been published. -/
def Work.publishes (w : Work) (tx : WriteTransaction) (v : Version) : Work :=
  { ({ w with view := overlay tx w.view } : Work).swapTo v with
    phase := .published w.base tx.freedPages.reverse }

/-- **Committing** makes the version the transaction has built the current one, or fails
and leaves the version as it was. -/
theorem Owned.commit_run (h : Owned env db w readers []) {K : DatabaseState → Work → Prop}
    (hK : Stable env K) {tx : WriteTransaction} {m : Key → Option Value}
    (hworking : Working env w tx m) {v : Version} (hbuilds : Builds env w tx v)
    (hk : K db { w with phase := .writing v }) {pages : List (PageId × DirtyPageSlot)}
    (hperm : pages.Perm tx.dirtyPages) :
    match (tx.commit pages).run (execute env) db with
    | (.ok (), db') => Owned env db' (w.publishes tx v) readers [] ∧ K db' (w.publishes tx v)
    | (.error e, db') => e = .panic ∨ Aborted env w.base readers db' := by
  have hsat := commit_sat hbuilds hworking.ok.inv h.stands.header hworking.failed hperm
    (encodable_panics w.header)
  have hresult := hsat.run (hK.honours w.base readers)
    ⟨⟨h.plan hworking hbuilds, fun _ => rfl⟩, hk⟩
  rcases hrun : (tx.commit pages).run (execute env) db with ⟨e | ⟨⟩, db'⟩
  · rw [hrun] at hresult
    rcases hresult with ⟨hpanic, -⟩ | haborted
    · exact Or.inl hpanic
    · exact Or.inr haborted
  · rw [hrun] at hresult
    obtain ⟨w', rfl, ⟨howned, -⟩, hk'⟩ := hresult
    exact ⟨howned, hk'⟩

end

end KvRaft.Kv
