import KvRaft.Kv.Recovery

/-!
# What has reached the file

The part of the ownership that outlives the process. `Stored env pages G db w` says what
the file holds for good while a transaction is at its work `w`, and what the writes since
the last sync may turn it into.

* Until the header of the new version is synced, the file carries the version the
  transaction started from. What is written meanwhile are pages that are not its own, and
  the header of the new version, which keeps it in the other slot.
* From then on it carries the new version.

So whichever of these writes survive a crash, `open_existing` recovers one of the two; or
one of the versions in `G`, whose header is in the file from before (`Stored.recovers`).
-/

namespace KvRaft.Kv

open Bytes Ordered

/-- What an operation writes. -/
def Op.data : Op → List Bytes
  | .writePage _ data => [data]
  | _ => []

/-- No header has been synced since the transaction began. -/
def Phase.Unsynced : Phase → Prop
  | .building => True
  | .writing _ => True
  | .issued _ => True
  | _ => False

/-- Nothing has been written since the last sync. -/
def Phase.Settled : Phase → Prop
  | .writing _ => False
  | .issued _ => False
  | _ => True

/-- The version that is in the file for certain, and the header that says so. -/
def Work.lasting (w : Work) : DbHeader × Version :=
  match w.phase with
  | .synced v => (w.headerFor v, v)
  | _ => (w.header, w.base)

/-- A write since the last sync. -/
def Pends (pages : List Bytes) (w : Work) (write : ℕ × Bytes) : Prop :=
  ∃ id data, write = (id.toNat * w.pageSize, data) ∧ data.length = w.pageSize ∧ data ∈ pages ∧
    (id ∈ w.used ∨
      ∃ v, w.phase = .issued v ∧ id = headerPageId ∧ data = headerPage (w.headerFor v))

/-- What has reached the file, and what may. -/
structure Stored (env : Env) (pages : List Bytes) (G : Version → Prop) (db : DatabaseState)
    (w : Work) : Prop where
  sound : Sound w.pageSize w.header
  small : db.pageIo.fileHandler.len < 2 ^ 64
  room : w.next.toNat * w.pageSize ≤ db.pageIo.fileHandler.len
  reserved : db.allocator.reservedPageCount * w.pageSize ≤ db.pageIo.fileHandler.len
  durable : Carries env pages (fun u => w.phase.Unsynced ∧ G u) w.pageSize
    db.pageIo.fileHandler.len db.pageIo.fileHandler.durable w.lasting.1 w.lasting.2
  pending : ∀ write ∈ db.pageIo.fileHandler.pending, Pends pages w write
  issued : ∀ v, w.phase = .issued v →
    block w.pageSize db.pageIo.fileHandler.contents headerPageId = headerPage (w.headerFor v)
  settled : w.phase.Settled → db.pageIo.fileHandler.pending = []

section

variable {env : Env} {pages : List Bytes} {G : Version → Prop} {db db' : DatabaseState}
  {w w' : Work} {readers : List Version}

/-- Where nothing is pending. -/
theorem stored_of_settled (hphase : w.phase.Settled)
    (hpending : db.pageIo.fileHandler.pending = []) (hsound : Sound w.pageSize w.header)
    (hsmall : db.pageIo.fileHandler.len < 2 ^ 64)
    (hroom : w.next.toNat * w.pageSize ≤ db.pageIo.fileHandler.len)
    (hreserved : db.allocator.reservedPageCount * w.pageSize ≤ db.pageIo.fileHandler.len)
    (hdurable : Carries env pages (fun u => w.phase.Unsynced ∧ G u) w.pageSize
      db.pageIo.fileHandler.len db.pageIo.fileHandler.durable w.lasting.1 w.lasting.2) :
    Stored env pages G db w where
  sound := hsound
  small := hsmall
  room := hroom
  reserved := hreserved
  durable := hdurable
  pending write hwrite := by
    rw [hpending] at hwrite
    exact absurd hwrite List.not_mem_nil
  issued v hv := by
    rw [hv] at hphase
    exact hphase.elim
  settled _ := hpending

theorem Stored.mono (h : Stored env pages G db w) {pages' : List Bytes} {G' : Version → Prop}
    (hpages : pages ⊆ pages') (hG : ∀ u, G u → G' u) : Stored env pages' G' db w :=
  { h with
    durable := h.durable.mono hpages fun u hu => ⟨hu.1, hG u hu.2⟩
    pending := fun write hwrite => by
      obtain ⟨id, data, heq, hlength, hdata, hid⟩ := h.pending write hwrite
      exact ⟨id, data, heq, hlength, hpages hdata, hid⟩ }

/-- Only the file and the reserved pages matter. -/
theorem Stored.congr (h : Stored env pages G db w)
    (hfile : db'.pageIo.fileHandler = db.pageIo.fileHandler)
    (hreserved : db'.allocator.reservedPageCount = db.allocator.reservedPageCount) :
    Stored env pages G db' w where
  sound := h.sound
  small := hfile ▸ h.small
  room := hfile ▸ h.room
  reserved := by
    rw [hfile, hreserved]
    exact h.reserved
  durable := by
    rw [hfile]
    exact h.durable
  pending := hfile ▸ h.pending
  issued := hfile ▸ h.issued
  settled := hfile ▸ h.settled

/-! ### The pages at hand -/

/-- Writing pages at hand leaves pages at hand. -/
theorem block_foldl_mem {pageSize : ℕ} {writes : List (ℕ × Bytes)} {bytes : ℕ → UInt8}
    (hwrites : ∀ write ∈ writes, ∃ (id : PageId) (data : Bytes),
      write = (id.toNat * pageSize, data) ∧ data.length = pageSize ∧ data ∈ pages)
    (hbytes : ∀ id, block pageSize bytes id ∈ pages) (id : PageId) :
    block pageSize (writes.foldl overwrite bytes) id ∈ pages := by
  induction writes generalizing bytes with
  | nil => exact hbytes id
  | cons write rest ih =>
    obtain ⟨id', data, rfl, hlength, hdata⟩ := hwrites write List.mem_cons_self
    refine ih (fun write hwrite => hwrites write (List.mem_cons_of_mem _ hwrite)) fun id => ?_
    rw [block_overwrite hlength]
    split
    · exact hdata
    · exact hbytes id

theorem Stored.contents_mem (h : Stored env pages G db w) (id : PageId) :
    block w.pageSize db.pageIo.fileHandler.contents id ∈ pages := by
  refine block_foldl_mem (fun write hwrite => ?_) h.durable.contents id
  obtain ⟨id, data, heq, hlength, hdata, -⟩ := h.pending write hwrite
  exact ⟨id, data, heq, hlength, hdata⟩

/-- What is known of a page is in the file as the process sees it. -/
theorem Owned.fileView (howned : Owned env db w readers []) {id : PageId} {data : Bytes}
    (hview : w.view id = some data) :
    Kv.fileView w.pageSize db.pageIo.fileHandler.len db.pageIo.fileHandler.contents id =
      some data := by
  have hreads := howned.reads id data hview
  have hid : id ≠ headerPageId := fun heq => by
    rw [heq, howned.hidden] at hview
    exact absurd hview (by simp)
  rw [← howned.pageSize, fileView_of_inside hid hreads.inside]
  exact congrArg some hreads.content

/-- What is known of a page is at hand. -/
theorem Stored.known (h : Stored env pages G db w) (howned : Owned env db w readers [])
    {id : PageId} {data : Bytes} (hview : w.view id = some data) : data ∈ pages := by
  obtain ⟨-, -, hblock⟩ := fileView_eq_some (howned.fileView hview)
  exact hblock ▸ h.contents_mem id

/-- The new version has room. -/
theorem Planned.placed {v : Version} (hplanned : Planned w v) (h : Stored env pages G db w)
    (howned : Owned env db w readers []) :
    Placed w.pageSize db.pageIo.fileHandler.len v where
  below id hid := by
    rw [hplanned.next]
    exact (hplanned.pages id hid).elim (howned.base id) fun hused => (howned.used id hused).below
  room := by
    rw [hplanned.next]
    exact h.room

/-! ### The operations -/

theorem Stored.inside (h : Stored env pages G db w) {id : PageId} (hid : id < w.next) :
    id.toNat * w.pageSize + w.pageSize ≤ db.pageIo.fileHandler.len := by
  calc id.toNat * w.pageSize + w.pageSize = (id.toNat + 1) * w.pageSize := (Nat.succ_mul _ _).symm
    _ ≤ w.next.toNat * w.pageSize := Nat.mul_le_mul_right _ (UInt64.lt_iff_toNat_lt.mp hid)
    _ ≤ db.pageIo.fileHandler.len := h.room

/-- A page in the file is written. -/
theorem Stored.writePage_file (h : Stored env pages G db w) (howned : Owned env db w readers [])
    {id : PageId} (hid : id < w.next) {data : Bytes}
    (hexec : execute env (.writePage id data) db = (.ok (), db')) :
    data.length = w.pageSize ∧ db'.allocator = db.allocator ∧
      db'.pageIo.fileHandler = { db.pageIo.fileHandler with
        pending := db.pageIo.fileHandler.pending ++ [(id.toNat * w.pageSize, data)] } := by
  rcases hwrite : db.pageIo.writePage env id data with ⟨result, pageIo⟩
  rw [execute, hwrite, Prod.mk.injEq] at hexec
  obtain ⟨rfl, rfl⟩ := hexec
  obtain ⟨hlength, -, -, hfile⟩ := writePage_ok hwrite
  rw [howned.pageSize] at hlength hfile
  refine ⟨hlength, rfl, ?_⟩
  dsimp only
  rw [hfile, hlength, max_eq_left (h.inside hid)]

/-- Writing a page of the new version. -/
theorem Stored.writePage (h : Stored env pages G db w) (howned : Owned env db w readers [])
    {v : Version} (hphase : w.phase = .writing v) {id : PageId} (hid : id ∈ w.used) {data : Bytes}
    (hexec : execute env (.writePage id data) db = (.ok (), db')) :
    Stored env (data :: pages) G db' (w.setPage id data) := by
  obtain ⟨hlength, hallocator, hfile⟩ :=
    h.writePage_file howned (howned.used id hid).below hexec
  have hold : Stored env (data :: pages) G db w :=
    h.mono (List.subset_cons_self _ _) fun _ hu => hu
  exact {
    sound := h.sound
    small := by
      rw [hfile]
      exact h.small
    room := by
      rw [hfile]
      exact h.room
    reserved := by
      rw [hfile, hallocator]
      exact h.reserved
    durable := by
      rw [hfile]
      exact hold.durable
    pending := fun write hwrite => by
      rw [hfile] at hwrite
      rcases List.mem_append.mp hwrite with hwrite | hwrite
      · exact hold.pending write hwrite
      · rw [List.mem_singleton] at hwrite
        exact ⟨id, data, hwrite, hlength, List.mem_cons_self, Or.inl hid⟩
    issued := fun v' hv' => absurd (hphase.symm.trans hv') (by simp)
    settled := fun hsettled => by
      change w.phase.Settled at hsettled
      rw [hphase] at hsettled
      exact hsettled.elim }

/-- Writing the header of the new version. -/
theorem Stored.writeHeader (h : Stored env pages G db w) (howned : Owned env db w readers [])
    {v : Version} (hphase : w.phase = .writing v) {data : Bytes}
    (hdata : data = headerPage (w.headerFor v))
    (hexec : execute env (.writePage headerPageId data) db = (.ok (), db')) :
    Stored env (data :: pages) G db' { w with phase := .issued v } := by
  have hzero : headerPageId < w.next := by
    rw [UInt64.lt_iff_toNat_lt]
    exact Nat.pos_of_ne_zero fun heq => howned.next_ne (UInt64.toNat_inj.mp heq)
  obtain ⟨hlength, hallocator, hfile⟩ := h.writePage_file howned hzero hexec
  have hold : Stored env (data :: pages) G db w :=
    h.mono (List.subset_cons_self _ _) fun _ hu => hu
  have hlasting : w.lasting = (w.header, w.base) := by
    rw [Work.lasting, hphase]
  have hunsynced : w.phase.Unsynced := by
    rw [hphase]
    trivial
  exact {
    sound := h.sound
    small := by
      rw [hfile]
      exact h.small
    room := by
      rw [hfile]
      exact h.room
    reserved := by
      rw [hfile, hallocator]
      exact h.reserved
    durable := by
      have hdurable := hold.durable
      rw [hlasting] at hdurable
      rw [hfile]
      exact hdurable.mono (List.Subset.refl _) fun u hu => ⟨trivial, hu.2⟩
    pending := fun write hwrite => by
      rw [hfile] at hwrite
      -- the writes before it were those of pages, since no header was issued
      rcases List.mem_append.mp hwrite with hwrite | hwrite
      · obtain ⟨id, data', heq, hlength', hdata', hid | ⟨v', hv', -⟩⟩ := hold.pending write hwrite
        · exact ⟨id, data', heq, hlength', hdata', Or.inl hid⟩
        · exact absurd (hphase.symm.trans hv') (by simp)
      · rw [List.mem_singleton] at hwrite
        exact ⟨headerPageId, data, hwrite, hlength, List.mem_cons_self,
          Or.inr ⟨v, rfl, rfl, hdata⟩⟩
    issued := fun v' hv' => by
      obtain rfl : v = v' := Phase.issued.inj hv'
      rw [hfile, contents_writeAt, block_overwrite hlength, if_pos rfl]
      exact hdata
    settled := fun hsettled => hsettled.elim }

/-- **Syncing** makes the new version the one the file carries. -/
theorem Stored.syncData (h : Stored env pages G db w) (howned : Owned env db w readers [])
    {v : Version} (hphase : w.phase = .issued v) :
    Stored env pages G { db with pageIo := db.pageIo.syncData }
      { w with phase := .synced v } := by
  have hissued := howned.phase
  rw [hphase] at hissued
  obtain ⟨hplanned, hstands⟩ := hissued
  have hplaced := hplanned.placed h howned
  refine stored_of_settled trivial rfl h.sound h.small h.room h.reserved ?_
  exact {
    sound := h.sound.withCommit _ _ _ _
    slot := currentSlot_withCommit _ _ _ _ _
    placed := hplaced
    stands := hstands.congr fun id hid => by
      obtain ⟨data, hview⟩ := hstands.tree.known hid
      rw [hview]
      exact howned.fileView hview
    contents := h.contents_mem
    disk := Or.inl (h.issued v hphase) }

/-- Allocating may let the file grow. -/
theorem Stored.allocate (h : Stored env pages G db w) (howned : Owned env db w readers [])
    (hphase : w.phase = .building) {id : PageId}
    (hexec : execute env .allocatePageId db = (.ok id, db')) {used : Set PageId} {next : PageId}
    (hnext : next = db'.allocator.nextPageId) :
    Stored env pages G db' { w with used, next } := by
  have hsettled : w.phase.Settled := by
    rw [hphase]
    trivial
  have hpending := h.settled hsettled
  rcases allocate_inv env db with ⟨e, rest, -, hop⟩ | ⟨fault, next', -, -, hop⟩ |
    ⟨hoverflow, len, reservedPageCount, hgrows, hop⟩ <;> rw [hop, Prod.mk.injEq] at hexec
  · obtain ⟨-, rfl⟩ := hexec
    subst hnext
    refine stored_of_settled hsettled hpending h.sound h.small ?_ h.reserved h.durable
    change db.allocator.nextPageId.toNat * w.pageSize ≤ _
    rw [← howned.next]
    exact h.room
  · exact absurd hexec.1 (by simp)
  · obtain ⟨-, rfl⟩ := hexec
    subst hnext
    have hle := hgrows.le
    have hsucc : (db.allocator.nextPageId + 1).toNat = w.next.toNat + 1 := by
      have hlt := w.next.toNat_lt
      rw [← howned.next] at hoverflow ⊢
      rw [UInt64.toNat_add, UInt64.toNat_one, Nat.mod_eq_of_lt (by omega)]
    obtain ⟨hsmall, hroom, hreserved⟩ : len < 2 ^ 64 ∧ (w.next.toNat + 1) * w.pageSize ≤ len ∧
        reservedPageCount * w.pageSize ≤ len := by
      -- either the file had room for the next id, or it has grown by a batch
      rcases hgrows with ⟨rfl, rfl, henough⟩ | ⟨hlen, hsmall, rfl⟩
      · rw [hsucc] at henough
        exact ⟨h.small, (Nat.mul_le_mul_right _ henough).trans h.reserved, h.reserved⟩
      · rw [howned.pageSize] at hlen ⊢
        refine ⟨by omega, ?_, Nat.div_mul_le_self _ _⟩
        have hroom := h.room
        rw [hlen, Nat.succ_mul, pageAllocationBatch]
        omega
    refine stored_of_settled hsettled hpending h.sound hsmall ?_ hreserved (h.durable.grow hle)
    change (db.allocator.nextPageId + 1).toNat * w.pageSize ≤ len
    rw [hsucc]
    exact hroom

/-- The snapshot moves: the version that is in the file becomes the current one. -/
theorem Stored.swap (h : Stored env pages G db w) {v : Version} (hphase : w.phase = .synced v)
    {commit : CommitState} : Stored env pages G { db with commit } (w.swapTo v) := by
  have hdurable := h.durable
  rw [Work.lasting, hphase] at hdurable
  exact stored_of_settled trivial (h.settled (by rw [hphase]; trivial))
    (h.sound.withCommit _ _ _ _) h.small h.room h.reserved hdurable

/-- **Every operation of a write transaction keeps it.** -/
theorem Stored.perform (h : Stored env pages G db w) (howned : Owned env db w readers []) {o : Op}
    (hpre : WriterPre env w o) {a : o.Answer} (hexec : execute env o db = (.ok a, db'))
    (hpost : WriterPost w o a w') (howned' : Owned env db' w' readers []) :
    Stored env (o.data ++ pages) G db' w' := by
  cases o with
  | readPage id =>
    obtain ⟨rfl, -⟩ := hpost
    obtain ⟨-, rfl⟩ := Prod.mk.inj hexec
    exact h.congr (keeps_readPage env _ _).2 rfl
  | writePage id data =>
    obtain ⟨v, hphase, hid⟩ := hpre
    simp only [WriterPost, hphase] at hpost
    by_cases hheader : id = headerPageId
    · subst hheader
      rw [if_pos rfl] at hid hpost
      subst hpost
      exact h.writeHeader howned hphase hid.1 hexec
    · rw [if_neg hheader] at hid hpost
      subst hpost
      exact h.writePage howned hphase hid.1 hexec
  | removePage id =>
    obtain rfl : w' = w := hpost
    obtain ⟨-, rfl⟩ := Prod.mk.inj hexec
    exact h.congr rfl rfl
  | syncData =>
    obtain ⟨v, hphase⟩ := hpre
    simp only [WriterPost, hphase] at hpost
    subst hpost
    obtain ⟨-, rfl⟩ := Prod.mk.inj hexec
    exact h.syncData howned hphase
  | allocatePageId =>
    obtain ⟨-, -, -, next, rfl⟩ := hpost
    exact h.allocate howned hpre hexec howned'.next
  | nextPageId =>
    obtain ⟨-, rfl⟩ := hpost
    obtain ⟨-, rfl⟩ := Prod.mk.inj hexec
    exact h
  | freePage id transaction =>
    obtain ⟨old, released, hphase, -⟩ := hpre
    simp only [WriterPost, hphase] at hpost
    subst hpost
    obtain ⟨-, rfl⟩ := Prod.mk.inj hexec
    have hdurable := h.durable
    rw [Work.lasting, hphase] at hdurable
    exact stored_of_settled trivial (h.settled (by rw [hphase]; trivial)) h.sound h.small h.room
      h.reserved hdurable
  | loadHeader =>
    obtain ⟨-, rfl⟩ := hpost
    obtain ⟨-, rfl⟩ := Prod.mk.inj hexec
    exact h
  | swap header =>
    obtain ⟨v, hphase, -⟩ := hpre
    simp only [WriterPost, hphase] at hpost
    subst hpost
    obtain ⟨-, rfl⟩ := Prod.mk.inj hexec
    exact h.swap hphase
  | loadSnapshot => exact hpre.elim
  | register transaction => exact hpre.elim
  | deregister transaction => exact hpre.elim

/-! ### Between transactions -/

/-- The next transaction begins. -/
theorem Stored.restart (h : Stored env pages G db w) (hsettled : w.phase.Settled)
    (hlasting : w.lasting = (w.header, w.base)) {G' : Version → Prop}
    (hG : ∀ u, w.phase.Unsynced → G u → G' u) : Stored env pages G' db w.restart := by
  have hdurable := h.durable
  rw [hlasting] at hdurable
  exact stored_of_settled trivial (h.settled hsettled) h.sound h.small h.room h.reserved
    (hdurable.mono (List.Subset.refl _) fun u hu => ⟨trivial, hG u hu.1 hu.2⟩)

/-- A commit begins. -/
theorem Stored.plan (h : Stored env pages G db w) (hphase : w.phase = .building) (v : Version) :
    Stored env pages G db { w with phase := .writing v } := by
  have hpending := h.settled (by rw [hphase]; trivial)
  have hdurable := h.durable
  rw [Work.lasting, hphase] at hdurable
  exact {
    sound := h.sound
    small := h.small
    room := h.room
    reserved := h.reserved
    durable := hdurable
    pending := fun write hwrite => by
      rw [hpending] at hwrite
      exact absurd hwrite List.not_mem_nil
    issued := fun v' hv' => absurd hv' (by simp)
    settled := fun hsettled => hsettled.elim }

/-- The pages a new database has written, and the page the rest of the file is made of. -/
def DatabaseState.firstPages (db : DatabaseState) : List Bytes :=
  List.replicate db.pageIo.pageSize 0 :: db.pageIo.fileHandler.pending.map Prod.snd

/-- **A new database** whose first pages have reached the file. -/
theorem Fresh.stored {pageSize : ℕ} {page : Bytes} (h : Fresh env pageSize page db) :
    Stored env db.firstPages G { db with pageIo := db.pageIo.syncData }
      (.opened pageSize (DbHeader.initial pageSize (env.checksumPage page))
        (.initial env page) (.initial page)) := by
  obtain ⟨header, heq⟩ : ∃ header, header = DbHeader.initial pageSize (env.checksumPage page) :=
    ⟨_, rfl⟩
  have hsound : Sound pageSize header := by
    subst heq
    refine ⟨rfl, Or.inl rfl, UInt64.toNat_ofNat_of_lt' ?_⟩
    have hsmall := h.small
    change _ < 2 ^ 64
    omega
  have hone : initialRootPageId.toNat = 1 := rfl
  have hzero : headerPageId.toNat = 0 := rfl
  have hlength := headerPage_length h.large hsound
  have hpage : page.length = pageSize := h.reads.length.trans h.size
  have hroom : (Version.initial env page).slot.nextPageId.toNat * pageSize =
      db.pageIo.fileHandler.len := by
    rw [h.file]
    rfl
  have hsmall : db.pageIo.fileHandler.len < 2 ^ 64 := by
    have := h.small
    rw [h.file]
    dsimp only
    omega
  -- the two pages, and nothing else
  have hcontents : db.pageIo.fileHandler.contents = overwrite (overwrite (fun _ => 0)
      (headerPageId.toNat * pageSize, headerPage header))
      (initialRootPageId.toNat * pageSize, page) := by
    rw [h.file, FileHandler.contents, hzero, hone, Nat.zero_mul, Nat.one_mul, heq]
    rfl
  have hblock : ∀ id, block pageSize db.pageIo.fileHandler.contents id =
      if id = initialRootPageId then page else if id = headerPageId then headerPage header
      else List.replicate pageSize 0 := fun id => by
    rw [hcontents, block_overwrite hpage, block_overwrite hlength, block, readRange,
      List.map_const', List.length_range]
  have hpages : db.firstPages = [List.replicate pageSize 0, headerPage header, page] := by
    rw [DatabaseState.firstPages, h.file, h.size, heq]
    rfl
  rw [← heq, hpages]
  refine stored_of_settled trivial rfl hsound hsmall hroom.le ?_ ?_
  · rw [h.parts, Database.fromParts, PageAllocator.new]
    dsimp only [Work.opened, PageIo.syncData, FileHandler.syncData]
    rw [h.size]
    exact Nat.div_mul_le_self _ _
  · have hplaced : Placed pageSize db.pageIo.fileHandler.len (Version.initial env page) := by
      refine ⟨fun id hid => ?_, hroom.le⟩
      rw [Version.initial, List.mem_singleton] at hid
      subst hid
      change initialRootPageId < initialRootPageId + 1
      decide
    have hstands : (Version.initial env page).Stands env (.initial page) :=
      initial_stands ⟨[], h.leaf⟩
    exact {
      sound := hsound
      slot := by rw [heq]; rfl
      placed := hplaced
      stands := hstands.congr fun id hid => by
        have hinside := hplaced.inside hid
        rw [Version.initial, List.mem_singleton] at hid
        subst hid
        rw [View.initial, Function.update_self]
        refine (fileView_of_inside (by decide) hinside).trans (congrArg some ?_)
        exact (hblock _).trans (if_pos rfl)
      contents := fun id => by
        change block pageSize db.pageIo.fileHandler.contents id ∈ _
        rw [hblock]
        split
        · simp
        · split <;> simp
      disk := Or.inl ((hblock _).trans rfl) }

/-! ### A crash -/

/-- The versions `open_existing` may find besides the one the file carries for certain. -/
def Found (G : Version → Prop) (w : Work) (u : Version) : Prop :=
  w.phase.Unsynced ∧ G u ∨ w.phase = .issued u

/-- A write since the last sync reaches the file. -/
theorem Stored.survives (h : Stored env pages G db w) (howned : Owned env db w readers [])
    {bytes : ℕ → UInt8} {header : DbHeader} {write : ℕ × Bytes} (hwrite : Pends pages w write)
    (hcarries : Carries env pages (Found G w) w.pageSize db.pageIo.fileHandler.len bytes header
      w.base) :
    ∃ header, Carries env pages (Found G w) w.pageSize db.pageIo.fileHandler.len
      (overwrite bytes write) header w.base := by
  obtain ⟨id, data, rfl, hlength, hdata, hused | ⟨v, hphase, rfl, rfl⟩⟩ := hwrite
  · have hallocated := howned.used id hused
    exact ⟨header, hcarries.writePage hlength hdata hallocated.header hallocated.base⟩
  · have hissued := howned.phase
    rw [hphase] at hissued
    obtain ⟨hplanned, hstands⟩ := hissued
    have hinactive : (w.headerFor v).inactiveSlot = w.base.slot := by
      rw [Work.headerFor, h.sound.inactive_withCommit, howned.slot]
    have hwanted : Wanted env pages v w.view :=
      ⟨hstands, fun _ _ _ hview => h.known howned hview⟩
    exact ⟨_, hcarries.writeHeader (h.sound.withCommit _ _ _ _) hinactive hwanted
      (hplanned.placed h howned) (currentSlot_withCommit _ _ _ _ _) (Or.inr hphase) hlength hdata⟩

/-- **Whatever survives a crash**, the file carries the version it is said to carry. -/
theorem Stored.crash (h : Stored env pages G db w) (howned : Owned env db w readers [])
    {survivors : List (ℕ × Bytes)} (hsurvivors : survivors.Sublist db.pageIo.fileHandler.pending) :
    ∃ header, Carries env pages (Found G w) w.pageSize db.pageIo.fileHandler.len
      (survivors.foldl overwrite db.pageIo.fileHandler.durable) header w.lasting.2 := by
  have hdurable : Carries env pages (Found G w) _ _ _ _ _ :=
    h.durable.mono (List.Subset.refl _) fun u hu => Or.inl hu
  by_cases hsettled : w.phase.Settled
  · rw [h.settled hsettled, List.sublist_nil] at hsurvivors
    subst hsurvivors
    exact ⟨_, hdurable⟩
  · have hlasting : w.lasting = (w.header, w.base) := by
      rw [Work.lasting]
      split
      · rename_i hphase
        rw [hphase] at hsettled
        exact absurd trivial hsettled
      · rfl
    rw [hlasting] at hdurable ⊢
    have hpends : ∀ write ∈ survivors, Pends pages w write := fun write hwrite =>
      h.pending write (hsurvivors.subset hwrite)
    clear hsurvivors hlasting
    generalize db.pageIo.fileHandler.durable = bytes at hdurable ⊢
    generalize w.header = header at hdurable
    dsimp only at hdurable ⊢
    -- one surviving write at a time, in the order they were made
    induction survivors generalizing bytes header with
    | nil => exact ⟨header, hdurable⟩
    | cons write rest ih =>
      obtain ⟨header', hstep⟩ := h.survives howned (hpends write List.mem_cons_self) hdurable
      exact ih (fun write hwrite => hpends write (List.mem_cons_of_mem _ hwrite)) _ _ hstep

/-- **Opening the file after a crash** recovers the version it carries, or one that was on
its way. -/
theorem Stored.recovers (h : Stored env pages G db w) (howned : Owned env db w readers [])
    (hdistinct : Distinct env pages) {survivors : List (ℕ × Bytes)}
    (hsurvivors : survivors.Sublist db.pageIo.fileHandler.pending) (evicts : ℕ → PageId → Bool) :
    ∃ db' w', Database.openExisting env (db.pageIo.fileHandler.crash survivors) evicts = .ok db' ∧
      w'.phase = .building ∧ Owned env db' w' [] [] ∧ Stored env pages (Found G w) db' w' ∧
      (w'.base = w.lasting.2 ∨ Found G w w'.base) := by
  obtain ⟨header, hcarries⟩ := h.crash howned hsurvivors
  obtain ⟨db', header', v, hopen, hfile, hreserved, howned', hcarries', hfound⟩ :=
    openExisting_recovers howned.large howned.small h.small hdistinct hcarries evicts
  refine ⟨db', _, hopen, rfl, howned', stored_of_settled trivial ?_ hcarries'.sound ?_ ?_ ?_ ?_,
    hfound⟩
  · rw [hfile]
  · rw [hfile]
    exact h.small
  · rw [hfile]
    exact hcarries'.placed.room
  · rw [hfile, hreserved]
    exact Nat.div_mul_le_self _ _
  · rw [hfile]
    exact hcarries'.mono (List.Subset.refl _) fun u hu => ⟨trivial, hu⟩

end

end KvRaft.Kv
