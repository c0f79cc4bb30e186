import KvRaft.Kv.Verified

/-!
# Opening a file after a crash

What `open_existing` makes of a file that may hold anything in place of some of its pages
(`openExisting_recovers`). The header has to be a header that was written, and the pages of
one of its two versions have to be there. If that is the version of the active slot, it is
the one that is opened. If it is that of the inactive slot, nothing is known of the pages
of the active one, but what they should be: either all of them are, and it is opened, or
`Tree::verify_pages` finds out and the other is opened. That no two different pages at hand
have the same checksum is what it takes.
-/

namespace KvRaft.Kv

open Bytes Ordered

/-! ### The pages of a file -/

/-- The bytes of a page. -/
def block (pageSize : ℕ) (bytes : ℕ → UInt8) (id : PageId) : Bytes :=
  readRange bytes (id.toNat * pageSize) pageSize

/-- The pages of a file but the header. -/
def fileView (pageSize len : ℕ) (bytes : ℕ → UInt8) : View := fun id =>
  if id ≠ headerPageId ∧ id.toNat * pageSize + pageSize ≤ len then some (block pageSize bytes id)
  else none

section

variable {env : Env} {pageSize len : ℕ} {bytes : ℕ → UInt8} {id : PageId} {page : Bytes}

theorem fileView_header : fileView pageSize len bytes headerPageId = none := if_neg fun h => h.1 rfl

theorem fileView_of_inside (hid : id ≠ headerPageId)
    (hinside : id.toNat * pageSize + pageSize ≤ len) :
    fileView pageSize len bytes id = some (block pageSize bytes id) := if_pos ⟨hid, hinside⟩

theorem fileView_eq_some (h : fileView pageSize len bytes id = some page) :
    id ≠ headerPageId ∧ id.toNat * pageSize + pageSize ≤ len ∧ block pageSize bytes id = page := by
  rw [fileView] at h
  split at h
  · rename_i hid
    exact ⟨hid.1, hid.2, Option.some.inj h⟩
  · exact absurd h (by simp)

/-- The file of a process that has just been started reads as its pages are. -/
theorem reads_fileView (hlen : len < 2 ^ 64 + pageSize) (evicts : ℕ → PageId → Bool)
    (h : fileView pageSize len bytes id = some page) :
    Reads (PageIo.new ⟨len, bytes, []⟩ pageSize evicts) id page := by
  obtain ⟨-, hinside, hblock⟩ := fileView_eq_some h
  exact {
    inside := hinside
    small := by
      change id.toNat * pageSize < 2 ^ 64
      omega
    content := hblock
    cached := fun d hd => absurd hd (by simp [PageIo.new, PageCache.new]) }

/-! ### The header -/

/-- A header as the code writes it. -/
structure Sound (pageSize : ℕ) (header : DbHeader) : Prop where
  magic : header.magic = headerMagic
  active : header.activeSlot = 0 ∨ header.activeSlot = 1
  pageSize : header.pageSize.toNat = pageSize

variable {header : DbHeader}

theorem headerPage_length (hlarge : minPageSize ≤ pageSize)
    (hsound : Sound pageSize header) : (headerPage header).length = pageSize := by
  have hsize : Pod.size DbHeader ≤ pageSize := le_trans (by decide) hlarge
  rw [headerPage, length_splice, List.length_replicate, hsound.pageSize]
  rw [List.length_replicate, hsound.pageSize, Pod.length_encode]
  omega

theorem Sound.switch (h : Sound pageSize header) : Sound pageSize header.switchToInactiveSlot where
  magic := h.magic
  active := by
    change header.activeSlot ^^^ 1 = 0 ∨ header.activeSlot ^^^ 1 = 1
    rcases h.active with hactive | hactive
    · exact Or.inr (by rw [hactive]; rfl)
    · exact Or.inl (by rw [hactive]; rfl)
  pageSize := h.pageSize

theorem Sound.withCommit (h : Sound pageSize header) (root : PageId) (checksum : Checksum)
    (transaction : TransactionId) (next : PageId) :
    Sound pageSize (header.withCommit root checksum transaction next) :=
  Sound.switch { h with }

theorem flip_flip (i : UInt64) : i ^^^ 1 ^^^ 1 = i := by
  rw [UInt64.xor_assoc, UInt64.xor_self, UInt64.xor_zero]

/-- Switching swaps the slots. -/
theorem inactive_switch (header : DbHeader) :
    header.switchToInactiveSlot.inactiveSlot = header.currentSlot :=
  congrArg header.slot (flip_flip header.activeSlot)

theorem current_switch (header : DbHeader) :
    header.switchToInactiveSlot.currentSlot = header.inactiveSlot := rfl

theorem switch_switch (header : DbHeader) :
    header.switchToInactiveSlot.switchToInactiveSlot = header :=
  congrArg (fun activeSlot => { header with activeSlot }) (flip_flip header.activeSlot)

/-- A commit keeps the slot of the version it is built on. -/
theorem Sound.inactive_withCommit (h : Sound pageSize header) (root : PageId)
    (checksum : Checksum) (transaction : TransactionId) (next : PageId) :
    (header.withCommit root checksum transaction next).inactiveSlot = header.currentSlot := by
  rw [DbHeader.withCommit, inactive_switch, DbHeader.currentSlot, DbHeader.currentSlot,
    DbHeader.setSlot, DbHeader.inactiveSlotIndex]
  change DbHeader.slot _ header.activeSlot = _
  rw [DbHeader.slot, DbHeader.slot]
  rcases h.active with hactive | hactive <;> rw [hactive] <;> rfl

theorem slice_readRange (bytes : ℕ → UInt8) {n m : ℕ} (h : n ≤ m) :
    slice (readRange bytes 0 m) 0 n = readRange bytes 0 n := by
  rw [slice, List.drop_zero, readRange, ← List.map_take, List.take_range, min_eq_left h]
  rfl

/-- **Reading the header** of a file. -/
theorem readHeader_of_block (hlarge : minPageSize ≤ pageSize) (hlen : pageSize ≤ len)
    (hsound : Sound pageSize header)
    (hblock : block pageSize bytes headerPageId = headerPage header) :
    Database.readHeader env ⟨len, bytes, []⟩ = .ok header := by
  have hbytes : Pod.size DbHeader ≤ pageSize := le_trans (by decide) hlarge
  have hzero : headerPageId.toNat = 0 := rfl
  have hencode : readRange bytes 0 (Pod.size DbHeader) = Pod.encode header := by
    rw [block, hzero, Nat.zero_mul] at hblock
    rw [← slice_readRange bytes hbytes, hblock, headerPage, ← Pod.length_encode header]
    refine slice_splice_self ?_
    rw [List.length_replicate, hsound.pageSize, Pod.length_encode]
    omega
  have hread : (⟨len, bytes, []⟩ : FileHandler).readAt env headerPageId.toNat
      (Pod.size DbHeader) = .ok (Pod.encode header) := by
    rw [FileHandler.readAt, hzero, debugAssert_true (Nat.zero_le _), ok_bind,
      if_pos (by dsimp only; omega)]
    exact congrArg Except.ok hencode
  have hparse : DbHeader.parse (Pod.encode header) = .ok header := by
    have hpod : readPod DbHeader (Pod.encode header) 0 = header := by
      have hself : slice (Pod.encode header) 0 (Pod.size DbHeader) = Pod.encode header := by
        rw [slice, List.drop_zero, List.take_of_length_le (by rw [Pod.length_encode])]
      rw [readPod, hself, Pod.decode_encode]
    have hactive : ¬ (1 : UInt64) < header.activeSlot := by
      rcases hsound.active with hactive | hactive <;> rw [hactive] <;> decide
    rw [DbHeader.parse, if_neg (by rw [Pod.length_encode]; exact lt_irrefl _)]
    dsimp only
    rw [hpod]
    rw [if_neg (not_not.mpr hsound.magic), if_neg hactive]
    rfl
  rw [Database.readHeader, if_neg (by dsimp only; omega)]
  simp only [hread, ok_bind, hparse, hsound.pageSize, Database.validatePageSize,
    if_neg (not_lt.mpr hlarge)]
  rfl

/-! ### The versions of a header -/

/-- The pages of a version are numbered below its next page id, which the file has room
for. -/
structure Placed (pageSize len : ℕ) (v : Version) : Prop where
  below : ∀ id ∈ v.pages, id < v.slot.nextPageId
  room : v.slot.nextPageId.toNat * pageSize ≤ len

theorem Placed.inside {v : Version} (h : Placed pageSize len v) (hid : id ∈ v.pages) :
    id.toNat * pageSize + pageSize ≤ len := by
  have hlt := UInt64.lt_iff_toNat_lt.mp (h.below id hid)
  calc id.toNat * pageSize + pageSize = (id.toNat + 1) * pageSize := (Nat.succ_mul _ _).symm
    _ ≤ v.slot.nextPageId.toNat * pageSize := Nat.mul_le_mul_right pageSize hlt
    _ ≤ len := h.room

/-- No two different pages have the same checksum. -/
def Distinct (env : Env) (pages : List Bytes) : Prop :=
  ∀ page ∈ pages, ∀ page' ∈ pages, env.checksumPage page = env.checksumPage page' → page = page'

/-- What the pages of a version should be. -/
structure Wanted (env : Env) (pages : List Bytes) (v : Version) (want : View) : Prop where
  stands : v.Stands env want
  known : ∀ id ∈ v.pages, ∀ page, want id = some page → page ∈ pages

/-! ### Verifying the slots -/

/-- A process that has a file open and has not written to it. -/
def Unwritten (pageSize len : ℕ) (bytes : ℕ → UInt8) (pageIo : PageIo) : Prop :=
  pageIo.pageSize = pageSize ∧ pageIo.fileHandler = ⟨len, bytes, []⟩ ∧
    ∀ id data, fileView pageSize len bytes id = some data → Reads pageIo id data

theorem unwritten_new (hlen : len < 2 ^ 64 + pageSize) (evicts : ℕ → PageId → Bool) :
    Unwritten pageSize len bytes (PageIo.new ⟨len, bytes, []⟩ pageSize evicts) :=
  ⟨rfl, rfl, fun _ _ hview => reads_fileView hlen evicts hview⟩

variable {v : Version} {pageIo : PageIo}

/-- The tree of a version verifies if its pages are there. -/
theorem verifySlot_of_stands (hsmall : pageSize < 2 ^ 63)
    (hpageIo : Unwritten pageSize len bytes pageIo)
    (hstands : v.Stands env (fileView pageSize len bytes)) :
    ∃ pageIo', Database.verifySlot env pageIo v.slot = (.ok (), pageIo') ∧
      Unwritten pageSize len bytes pageIo' := by
  obtain ⟨⟨⟩, pageIo', n, hrun, -, hpageIo'⟩ := (verifyPages_sat (n := 0)
    (hstands.tree.depth_lt_maxDepth hstands.nodup) hstands.tree).run_ok
    (readOnly_honours env (fileView pageSize len bytes) hsmall ⟨len, bytes, []⟩) hpageIo
  exact ⟨pageIo', hrun, hpageIo'⟩

/-- If only those pages are at hand that have different checksums, the tree of a version
verifies only if its pages are there, and `verify_pages` says so if they are not. -/
theorem verifySlot_of_wanted (hsmall : pageSize < 2 ^ 63)
    (hpageIo : Unwritten pageSize len bytes pageIo) {pages : List Bytes} {want : View}
    (hwanted : Wanted env pages v want) (hplaced : Placed pageSize len v)
    (hdistinct : Distinct env pages) (hcontents : ∀ id, block pageSize bytes id ∈ pages) :
    ∃ pageIo', Unwritten pageSize len bytes pageIo' ∧
      ((Database.verifySlot env pageIo v.slot = (.ok (), pageIo') ∧
          v.Stands env (fileView pageSize len bytes)) ∨
        ∃ msg, Database.verifySlot env pageIo v.slot =
          (.error (.error (.databaseError msg)), pageIo')) := by
  have hthere : ∀ id ∈ v.pages,
      fileView pageSize len bytes id = some (block pageSize bytes id) := fun id hid =>
    fileView_of_inside (fun heq => hwanted.stands.header (heq ▸ hid)) (hplaced.inside hid)
  -- two pages that were written and have one checksum are the same page
  have hcollision : ∀ id ∈ v.pages, ∀ page page', fileView pageSize len bytes id = some page →
      want id = some page' → env.checksumPage page = env.checksumPage page' → page = page' := by
    intro id hid page page' hpage hwant hck
    rw [hthere id hid, Option.some.injEq] at hpage
    exact hdistinct page (hpage ▸ hcontents id) page' (hwanted.known id hid page' hwant) hck
  have hresult := (verifyPages_exact (n := 0) (fun id hid => ⟨_, hthere id hid⟩) hcollision
    (hwanted.stands.tree.depth_lt_maxDepth hwanted.stands.nodup)
    ⟨_, _, _, _, hwanted.stands.tree, List.Subset.refl _⟩).run
    (readOnly_honours env (fileView pageSize len bytes) hsmall ⟨len, bytes, []⟩) hpageIo
  rcases hrun : (Tree.verifyPages env maxDepth v.root.1 v.root.2).run (Database.readOnly env)
    pageIo with ⟨e | ⟨⟩, pageIo'⟩
  · rw [hrun] at hresult
    rcases hresult with ⟨⟨msg, rfl⟩, n, hpageIo'⟩ | hfalse
    · exact ⟨pageIo', hpageIo', Or.inr ⟨msg, hrun⟩⟩
    · exact hfalse.elim
  · rw [hrun] at hresult
    obtain ⟨n, hexact, hpageIo'⟩ := hresult
    exact ⟨pageIo', hpageIo', Or.inl ⟨hrun, hwanted.stands.congr
      (hexact _ _ _ _ hwanted.stands.tree (List.Subset.refl _))⟩⟩

/-! ### Opening -/

/-- **What the file carries**: the version `v` for certain, in the slot `header` has active.
The header in the file may have the other slot active, then that one is of a version in
`G`, of whose pages any may be missing. `pages` are the pages at hand. -/
structure Carries (env : Env) (pages : List Bytes) (G : Version → Prop) (pageSize len : ℕ)
    (bytes : ℕ → UInt8) (header : DbHeader) (v : Version) : Prop where
  sound : Sound pageSize header
  slot : header.currentSlot = v.slot
  placed : Placed pageSize len v
  stands : v.Stands env (fileView pageSize len bytes)
  contents : ∀ id, block pageSize bytes id ∈ pages
  disk : block pageSize bytes headerPageId = headerPage header ∨
    block pageSize bytes headerPageId = headerPage header.switchToInactiveSlot ∧
      ∃ u want, Wanted env pages u want ∧ Placed pageSize len u ∧
        header.inactiveSlot = u.slot ∧ G u

variable {pages : List Bytes} {G : Version → Prop}

theorem Carries.mono (h : Carries env pages G pageSize len bytes header v) {pages' : List Bytes}
    {G' : Version → Prop} (hpages : pages ⊆ pages') (hG : ∀ u, G u → G' u) :
    Carries env pages' G' pageSize len bytes header v :=
  { h with
    contents := fun id => hpages (h.contents id)
    disk := h.disk.imp_right fun ⟨hdisk, u, want, hwanted, hplaced, hslot, hu⟩ =>
      ⟨hdisk, u, want, { hwanted with
        known := fun id hid page hpage => hpages (hwanted.known id hid page hpage) },
        hplaced, hslot, hG u hu⟩ }

/-- The file may grow. -/
theorem Carries.grow (h : Carries env pages G pageSize len bytes header v) {len' : ℕ}
    (hlen : len ≤ len') : Carries env pages G pageSize len' bytes header v :=
  { h with
    placed := { h.placed with room := h.placed.room.trans hlen }
    stands := h.stands.congr fun id hid => by
      have hheader : id ≠ headerPageId := fun heq => h.stands.header (heq ▸ hid)
      rw [fileView_of_inside hheader (h.placed.inside hid),
        fileView_of_inside hheader ((h.placed.inside hid).trans hlen)]
    disk := h.disk.imp_right fun ⟨hdisk, u, want, hwanted, hplaced, hu⟩ =>
      ⟨hdisk, u, want, hwanted, { hplaced with room := hplaced.room.trans hlen }, hu⟩ }

/-- The process that has opened the version of a slot. -/
theorem fromParts_unwritten (hlarge : minPageSize ≤ pageSize) (hsmall : pageSize < 2 ^ 63)
    (hpageIo : Unwritten pageSize len bytes pageIo) (hslot : header.currentSlot = v.slot)
    (hstands : v.Stands env (fileView pageSize len bytes))
    (hbelow : ∀ id ∈ v.pages, id < v.slot.nextPageId) :
    Owned env (Database.fromParts pageIo header)
      (.opened pageSize header v (fileView pageSize len bytes)) [] [] := by
  obtain ⟨rfl, -, hreads⟩ := hpageIo
  exact fromParts_owned hlarge hsmall hslot fileView_header hreads hstands hbelow

/-- The file holds the header, and the pages of the version of its active slot. -/
structure Bears (env : Env) (pageSize len : ℕ) (bytes : ℕ → UInt8) (header : DbHeader)
    (v : Version) : Prop where
  sound : Sound pageSize header
  slot : header.currentSlot = v.slot
  disk : block pageSize bytes headerPageId = headerPage header
  stands : v.Stands env (fileView pageSize len bytes)
  below : ∀ id ∈ v.pages, id < v.slot.nextPageId

/-- The pages of a version that stands are in the file, and the header page is. -/
theorem inside_of_stands (h : v.Stands env (fileView pageSize len bytes)) {id : PageId}
    (hid : id ∈ v.pages) : id ≠ headerPageId ∧ id.toNat * pageSize + pageSize ≤ len := by
  obtain ⟨page, hpage⟩ := h.tree.known hid
  obtain ⟨hheader, hinside, -⟩ := fileView_eq_some hpage
  exact ⟨hheader, hinside⟩

/-- The header page holds a header that reads back: opening comes down to the recovery. -/
theorem openExisting_of_block {disk : DbHeader} (hlarge : minPageSize ≤ pageSize)
    (hinside : pageSize ≤ len) (hsound : Sound pageSize disk)
    (hdisk : block pageSize bytes headerPageId = headerPage disk) (evicts : ℕ → PageId → Bool) :
    Database.openExisting env ⟨len, bytes, []⟩ evicts = (do
      let (header, pageIo) ←
        Database.recoverHeader env (PageIo.new ⟨len, bytes, []⟩ pageSize evicts) disk
      pure (Database.fromParts pageIo header)) := by
  rw [Database.openExisting, readHeader_of_block hlarge hinside hsound hdisk, ok_bind,
    hsound.pageSize]

/-- **Opening a file** that bears a version opens that version. -/
theorem Bears.opens (h : Bears env pageSize len bytes header v) (hlarge : minPageSize ≤ pageSize)
    (hsmall : pageSize < 2 ^ 63) (hlen : len < 2 ^ 64 + pageSize) (evicts : ℕ → PageId → Bool) :
    ∃ db, Database.openExisting env ⟨len, bytes, []⟩ evicts = .ok db ∧
      db.pageIo.fileHandler = ⟨len, bytes, []⟩ ∧
      db.allocator.reservedPageCount = len / pageSize ∧
      Owned env db (.opened pageSize header v (fileView pageSize len bytes)) [] [] := by
  have hinside : pageSize ≤ len :=
    (Nat.le_add_left _ _).trans (inside_of_stands h.stands h.stands.tree.root_mem).2
  obtain ⟨pageIo, hverify, hpageIo⟩ :=
    verifySlot_of_stands hsmall (unwritten_new hlen evicts) h.stands
  refine ⟨Database.fromParts pageIo header, ?_, hpageIo.2.1, ?_,
    fromParts_unwritten hlarge hsmall hpageIo h.slot h.stands h.below⟩
  · rw [openExisting_of_block hlarge hinside h.sound h.disk, Database.recoverHeader,
      if_neg (by rw [h.sound.pageSize]; exact not_lt.mpr hinside), h.slot, hverify]
    rfl
  · rw [Database.fromParts, PageAllocator.new]
    dsimp only
    rw [hpageIo.1, hpageIo.2.1]

/-- **Opening a file** recovers the version it carries for certain, or the other one. -/
theorem openExisting_recovers (hlarge : minPageSize ≤ pageSize) (hsmall : pageSize < 2 ^ 63)
    (hlen : len < 2 ^ 64) (hdistinct : Distinct env pages)
    (h : Carries env pages G pageSize len bytes header v) (evicts : ℕ → PageId → Bool) :
    ∃ db header' v', Database.openExisting env ⟨len, bytes, []⟩ evicts = .ok db ∧
      db.pageIo.fileHandler = ⟨len, bytes, []⟩ ∧
      db.allocator.reservedPageCount = len / pageSize ∧
      Owned env db (.opened pageSize header' v' (fileView pageSize len bytes)) [] [] ∧
      Carries env pages G pageSize len bytes header' v' ∧ (v' = v ∨ G v') := by
  have hinside : pageSize ≤ len :=
    (Nat.le_add_left _ _).trans (inside_of_stands h.stands h.stands.tree.root_mem).2
  have hreserved : ∀ {pageIo disk}, Unwritten pageSize len bytes pageIo →
      (Database.fromParts pageIo disk).allocator.reservedPageCount = len / pageSize :=
    fun hpageIo => by
      rw [Database.fromParts, PageAllocator.new]
      dsimp only
      rw [hpageIo.1, hpageIo.2.1]
  have hlen' : len < 2 ^ 64 + pageSize := Nat.lt_add_right _ hlen
  have hnew : Unwritten pageSize len bytes (PageIo.new ⟨len, bytes, []⟩ pageSize evicts) :=
    unwritten_new hlen' evicts
  rcases h.disk with hdisk | ⟨hdisk, u, want, hwanted, hplaced, hslot, hu⟩
  · -- the version is that of the active slot
    have hbears : Bears env pageSize len bytes header v :=
      ⟨h.sound, h.slot, hdisk, h.stands, h.placed.below⟩
    obtain ⟨db, hdb, hfile, hcount, howned⟩ := hbears.opens hlarge hsmall hlen' evicts
    exact ⟨db, header, v, hdb, hfile, hcount, howned, h, Or.inl rfl⟩
  · -- the active slot is that of a version whose pages may be missing
    have hsound := h.sound.switch
    obtain ⟨pageIo, hpageIo, ⟨hverify, hstands⟩ | ⟨msg, hverify⟩⟩ :=
      verifySlot_of_wanted hsmall hnew hwanted hplaced hdistinct h.contents
    · refine ⟨Database.fromParts pageIo header.switchToInactiveSlot, _, u, ?_, hpageIo.2.1,
        hreserved hpageIo, fromParts_unwritten hlarge hsmall hpageIo hslot hstands hplaced.below, ?_, Or.inr hu⟩
      · rw [openExisting_of_block hlarge hinside hsound hdisk, Database.recoverHeader,
          if_neg (by rw [hsound.pageSize]; exact not_lt.mpr hinside), current_switch, hslot, hverify]
        rfl
      · exact ⟨hsound, hslot, hplaced, hstands, h.contents, Or.inl hdisk⟩
    · obtain ⟨pageIo', hverify', hpageIo'⟩ := verifySlot_of_stands hsmall hpageIo h.stands
      refine ⟨Database.fromParts pageIo' header, header, v, ?_, hpageIo'.2.1,
        hreserved hpageIo', fromParts_unwritten hlarge hsmall hpageIo' h.slot h.stands h.placed.below, h, Or.inl rfl⟩
      rw [openExisting_of_block hlarge hinside hsound hdisk, Database.recoverHeader,
        if_neg (by rw [hsound.pageSize]; exact not_lt.mpr hinside), current_switch, hslot, hverify]
      dsimp only
      rw [inactive_switch, h.slot, hverify', switch_switch]
      rfl

/-! ### Writing to the file -/

/-- A page of a file after another page has been written, or a part of one. -/
theorem block_overwrite_of_ne {data : Bytes} (hlength : data.length ≤ pageSize) {id' : PageId}
    (hne : id' ≠ id) :
    block pageSize (overwrite bytes (id.toNat * pageSize, data)) id' = block pageSize bytes id' := by
  refine readRange_overwrite_of_disjoint ?_
  have hdisjoint := pages_disjoint (fun heq => hne (UInt64.toNat_inj.mp heq)) pageSize
  omega

/-- A page of a file after a page has been written. -/
theorem block_overwrite {data : Bytes} (hlength : data.length = pageSize) (id' : PageId) :
    block pageSize (overwrite bytes (id.toNat * pageSize, data)) id' =
      if id' = id then data else block pageSize bytes id' := by
  split
  · next heq =>
    subst heq hlength
    exact readRange_overwrite_self
  · next hne => exact block_overwrite_of_ne hlength.le hne

theorem fileView_overwrite {data : Bytes} (hlength : data.length ≤ pageSize) {id' : PageId}
    (hne : id' ≠ id) :
    fileView pageSize len (overwrite bytes (id.toNat * pageSize, data)) id' =
      fileView pageSize len bytes id' := by
  rw [fileView, fileView, block_overwrite_of_ne hlength hne]

/-- A page that is no page of the version is written. -/
theorem Carries.writePage (h : Carries env pages G pageSize len bytes header v) {data : Bytes}
    (hlength : data.length = pageSize) (hdata : data ∈ pages) (hid : id ≠ headerPageId)
    (hv : id ∉ v.pages) :
    Carries env pages G pageSize len (overwrite bytes (id.toNat * pageSize, data)) header v :=
  { h with
    stands := h.stands.congr fun id' hid' =>
      fileView_overwrite hlength.le fun heq => hv (heq ▸ hid')
    contents := fun id' => by
      rw [block_overwrite hlength]
      split
      · exact hdata
      · exact h.contents id'
    disk := by
      rw [block_overwrite hlength, if_neg hid.symm]
      exact h.disk }

/-- The header of the next version is written. -/
theorem Carries.writeHeader (h : Carries env pages G pageSize len bytes header v)
    {header' : DbHeader} (hsound : Sound pageSize header')
    (hinactive : header'.inactiveSlot = v.slot) {u : Version} {want : View}
    (hwanted : Wanted env pages u want) (hplaced : Placed pageSize len u)
    (hcurrent : header'.currentSlot = u.slot) (hu : G u)
    (hlength : (headerPage header').length = pageSize) (hdata : headerPage header' ∈ pages) :
    Carries env pages G pageSize len
      (overwrite bytes (headerPageId.toNat * pageSize, headerPage header'))
      header'.switchToInactiveSlot v where
  sound := hsound.switch
  slot := hinactive
  placed := h.placed
  stands := h.stands.congr fun id hid =>
    fileView_overwrite hlength.le fun heq => h.stands.header (heq ▸ hid)
  contents id := by
    rw [block_overwrite hlength]
    split
    · exact hdata
    · exact h.contents id
  disk := by
    refine Or.inr ⟨?_, u, want, hwanted, hplaced, (inactive_switch header').trans hcurrent, hu⟩
    rw [block_overwrite hlength, if_pos rfl, switch_switch]

end

end KvRaft.Kv
