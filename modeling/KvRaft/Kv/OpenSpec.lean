import KvRaft.Kv.CallSpec

/-!
# Opening

A database that has just been opened on a file owns the pages of its current version and
nothing else (`fromParts_owned`). A new database holds the empty map (`openNew_owned`).
-/

namespace KvRaft.Kv

open Bytes Ordered

/-- The work on a database that has just been opened. -/
def Work.opened (pageSize : ℕ) (header : DbHeader) (v : Version) (view : View) : Work where
  pageSize := pageSize
  header := header
  base := v
  next := v.slot.nextPageId
  view := view
  used := ∅
  phase := .building

section

variable {env : Env} {pageSize : ℕ} {evicts : ℕ → PageId → Bool} {db : DatabaseState}

/-- Nothing is waiting to be used again, and nobody reads. -/
theorem fromParts_owned {pageIo : PageIo} {header : DbHeader} {v : Version} {view : View}
    (hlarge : minPageSize ≤ pageIo.pageSize) (hsmall : pageIo.pageSize < 2 ^ 63)
    (hslot : header.currentSlot = v.slot) (hhidden : view headerPageId = none)
    (hreads : ∀ id data, view id = some data → Reads pageIo id data)
    (hstands : v.Stands env view) (hbelow : ∀ id ∈ v.pages, id < v.slot.nextPageId) :
    Owned env (Database.fromParts pageIo header) (.opened pageIo.pageSize header v view) [] [] where
  pageSize := rfl
  large := hlarge
  small := hsmall
  commit := rfl
  slot := hslot
  next := by
    rw [Database.fromParts, PageAllocator.new, hslot]
    rfl
  hidden := hhidden
  reads := hreads
  stands := hstands
  base := hbelow
  used id hid := absurd hid (Set.notMem_empty id)
  waiting e he := absurd he List.not_mem_nil
  nodup := List.nodup_nil
  shared v hv := absurd hv List.not_mem_nil
  tracked := tracks_nil
  phase := trivial

/-- The version of a new database: one empty leaf. -/
def Version.initial (env : Env) (page : Bytes) : Version where
  slot := ⟨initialRootPageId, env.checksumPage page, 0, initialRootPageId + 1⟩
  depth := 0
  map := fun _ => none
  pages := [initialRootPageId]

/-- What a new database is known to hold. -/
def View.initial (page : Bytes) : View :=
  Function.update (fun _ => none) initialRootPageId (some page)

theorem initial_stands {page : Bytes} (hleaf : LeafOk page []) :
    (Version.initial env page).Stands env (View.initial page) where
  tree := by
    refine ⟨page, [], Function.update_self _ _ _, rfl, hleaf,
      fun a ha => absurd ha List.not_mem_nil, fun _ => ⟨rfl, rfl⟩, ?_, rfl⟩
    funext k
    rfl
  nodup := List.nodup_singleton _
  header := by
    rw [Version.initial, List.mem_singleton]
    decide

/-- What `open_new` leaves. -/
structure Fresh (env : Env) (pageSize : ℕ) (page : Bytes) (db : DatabaseState) : Prop where
  leaf : LeafHolds page [] []
  room : (readPod LeafHeader page 0).kvPairsEndOffset.toNat = pageSize
  large : minPageSize ≤ pageSize
  small : pageSize < 2 ^ 63
  parts : db = Database.fromParts db.pageIo (DbHeader.initial pageSize (env.checksumPage page))
  size : db.pageIo.pageSize = pageSize
  reads : Reads db.pageIo initialRootPageId page
  file : db.pageIo.fileHandler = ⟨2 * pageSize, fun _ => 0,
    [(0, headerPage (DbHeader.initial pageSize (env.checksumPage page))), (pageSize, page)]⟩

theorem openNew_ok (h : Database.openNew env pageSize evicts = .ok db) :
    ∃ page, Fresh env pageSize page db := by
  rw [Database.openNew, Database.validatePageSize] at h
  split at h
  · exact absurd h (by simp)
  rename_i hlarge
  rw [not_lt] at hlarge
  rw [ok_bind, bind_eq_ok] at h
  obtain ⟨⟨header, pageIo⟩, hnew, hdb⟩ := h
  dsimp only at hdb
  rw [pure_eq_ok, Except.ok.injEq] at hdb
  have hsmall : pageSize < 2 ^ 63 := by
    by_contra hnot
    rw [Database.newFile, getEmptyLeafPage, zeroed, PageIo.new, if_neg hnot] at hnew
    exact absurd hnew (by simp)
  obtain ⟨page, hpage, hlength, hleaf, hroom⟩ :=
    getEmptyLeafPage_ok env (le_trans (by decide) hlarge) hsmall
  rw [Database.newFile, PageIo.new, hpage, ok_bind, bind_eq_ok] at hnew
  obtain ⟨⟨fileHandler, reserved⟩, hgrow, hnew⟩ := hnew
  rw [bind_eq_ok] at hnew
  obtain ⟨first, hencode, hnew⟩ := hnew
  obtain rfl : first = headerPage (DbHeader.initial pageSize (env.checksumPage page)) := by
    have hreturns := encodePage_returns (encodable_panics (DbHeader.initial pageSize (env.checksumPage page)))
    rw [hencode, returns_ok] at hreturns
    exact hreturns
  -- the file has room for the two pages
  have hfile : fileHandler = ⟨2 * pageSize, fun _ => 0, []⟩ := by
    rw [FileHandler.preallocatePages, bind_eq_ok] at hgrow
    obtain ⟨len, hlen, hgrow⟩ := hgrow
    rw [bind_eq_ok] at hgrow
    obtain ⟨file, hset, hgrow⟩ := hgrow
    rw [usize] at hlen
    split at hlen
    on_goal 2 => exact absurd hlen (by simp)
    rw [FileHandler.setLen] at hset
    split at hset
    on_goal 2 => exact absurd hset (by simp)
    rw [Except.ok.injEq] at hlen hset
    rw [pure_eq_ok, Except.ok.injEq, Prod.mk.injEq] at hgrow
    obtain ⟨rfl, -⟩ := hgrow
    subst hset hlen
    have htwo : (DbHeader.initial pageSize (env.checksumPage page)).currentSlot.nextPageId.toNat
        = 2 := rfl
    rw [FileHandler.empty, htwo]
    dsimp only
    congr 1
    rw [Nat.zero_add, Nat.mul_comm]
  subst hfile
  rcases hfirst : PageIo.writePage env ⟨⟨2 * pageSize, fun _ => 0, []⟩, PageCache.new evicts,
    pageSize⟩ headerPageId (headerPage (DbHeader.initial pageSize (env.checksumPage page))) with
    ⟨e | ⟨⟩, pageIo₁⟩
  · rw [hfirst] at hnew
    exact absurd hnew (by simp)
  rw [hfirst] at hnew
  dsimp only at hnew
  rw [ok_bind] at hnew
  obtain ⟨hheaderLength, ⟨hsize₁, -⟩, -, hfile₁⟩ := writePage_ok hfirst
  rcases hsecond : pageIo₁.writePage env initialRootPageId page with ⟨e | ⟨⟩, pageIo₂⟩
  · rw [hsecond] at hnew
    exact absurd hnew (by simp)
  rw [hsecond] at hnew
  dsimp only at hnew
  rw [ok_bind, pure_eq_ok, Except.ok.injEq, Prod.mk.injEq] at hnew
  obtain ⟨rfl, rfl⟩ := hnew
  obtain ⟨-, ⟨hsize₂, -⟩, hreads, hfile₂⟩ := writePage_ok hsecond
  dsimp only at hheaderLength hsize₁
  have hone : initialRootPageId.toNat = 1 := rfl
  have hzero : headerPageId.toNat = 0 := rfl
  subst hdb
  refine ⟨page, hleaf, hroom, hlarge, hsmall, rfl, hsize₂.trans hsize₁, hreads, ?_⟩
  rw [Database.fromParts, hfile₂, hfile₁, hsize₁, hone, hzero, hheaderLength, hlength]
  simp only [FileHandler.mk.injEq, List.nil_append, List.cons_append, Nat.zero_mul, Nat.one_mul,
    and_true]
  omega

/-- **A new database** holds the empty map. -/
theorem Fresh.owned {page : Bytes} (h : Fresh env pageSize page db) :
    Owned env db (.opened pageSize (DbHeader.initial pageSize (env.checksumPage page))
      (.initial env page) (.initial page)) [] [] := by
  rw [h.parts, ← h.size]
  refine fromParts_owned ?_ ?_ rfl ?_ (fun id data hview => ?_) (initial_stands ⟨[], h.leaf⟩)
    fun id hid => ?_
  · rw [h.size]
    exact h.large
  · rw [h.size]
    exact h.small
  · exact Function.update_of_ne (by decide) _ _
  · by_cases hid : id = initialRootPageId
    · subst hid
      rw [View.initial, Function.update_self, Option.some.injEq] at hview
      exact hview ▸ h.reads
    · rw [View.initial, Function.update_of_ne hid] at hview
      exact absurd hview (by simp)
  · rw [Version.initial, List.mem_singleton] at hid
    subst hid
    change initialRootPageId < initialRootPageId + 1
    decide

end

end KvRaft.Kv
