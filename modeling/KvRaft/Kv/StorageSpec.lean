import KvRaft.Kv.Operation
import Mathlib.Order.Bounds.Defs

/-!
# The store below the tree, in terms of pages

What the operations of `Storage` do to what reading a page returns. `Reads pageIo id data`
says that the page is in the file, and that neither the file nor the cache has anything
else for it than `data`. Every operation leaves the pages alone that it does not write
(`PageIo.Keeps`), whatever the cache evicts.

The tracker of readers counts the read transactions of each id (`Tracks`), and the oldest
active transaction is older than none of them.
-/

namespace KvRaft.Kv

open Bytes Ordered

/-! ### Bytes of a file -/

theorem readRange_length (bytes : ℕ → UInt8) (offset n : ℕ) :
    (readRange bytes offset n).length = n := by
  rw [readRange, List.length_map, List.length_range]

/-- A write changes nothing outside of its range. -/
theorem readRange_overwrite_of_disjoint {bytes : ℕ → UInt8} {offset n start : ℕ} {data : Bytes}
    (h : offset + n ≤ start ∨ start + data.length ≤ offset) :
    readRange (overwrite bytes (start, data)) offset n = readRange bytes offset n := by
  refine List.map_congr_left fun i hi => ?_
  rw [List.mem_range] at hi
  rw [overwrite]
  split
  · have hnone : data[offset + i - start]? = none := List.getElem?_eq_none (by omega)
    rw [hnone]
    rfl
  · rfl

/-- What has been written is read back. -/
theorem readRange_overwrite_self {bytes : ℕ → UInt8} {offset : ℕ} {data : Bytes} :
    readRange (overwrite bytes (offset, data)) offset data.length = data := by
  refine List.ext_getElem? fun i => ?_
  rw [readRange, List.getElem?_map]
  by_cases hi : i < data.length
  · rw [List.getElem?_range hi, Option.map_some, overwrite, if_pos (Nat.le_add_right offset i)]
    dsimp only
    rw [Nat.add_sub_cancel_left, List.getElem?_eq_getElem hi, Option.getD_some]
  · rw [List.getElem?_eq_none (by rw [List.length_range]; omega),
      List.getElem?_eq_none (by omega)]
    rfl

/-- The ranges of two pages are disjoint. -/
theorem pages_disjoint {a b : ℕ} (h : a ≠ b) (pageSize : ℕ) :
    a * pageSize + pageSize ≤ b * pageSize ∨ b * pageSize + pageSize ≤ a * pageSize := by
  rcases Nat.lt_or_gt_of_ne h with hlt | hgt
  · exact Or.inl (by rw [← Nat.succ_mul]; exact Nat.mul_le_mul_right pageSize hlt)
  · exact Or.inr (by rw [← Nat.succ_mul]; exact Nat.mul_le_mul_right pageSize hgt)

theorem contents_writeAt {file : FileHandler} {offset : ℕ} {data : Bytes} {len : ℕ} :
    ({ file with len, pending := file.pending ++ [(offset, data)] } : FileHandler).contents =
      overwrite file.contents (offset, data) := by
  rw [FileHandler.contents, List.foldl_append]
  rfl

/-! ### Pages -/

/-- The page is in the file, and reading it returns `data`. -/
structure Reads (pageIo : PageIo) (pageId : PageId) (data : Bytes) : Prop where
  inside : pageId.toNat * pageIo.pageSize + pageIo.pageSize ≤ pageIo.fileHandler.len
  small : pageId.toNat * pageIo.pageSize < 2 ^ 64
  content : readRange pageIo.fileHandler.contents (pageId.toNat * pageIo.pageSize)
    pageIo.pageSize = data
  cached : ∀ d, pageIo.pageCache.entries pageId = some d → d = data

/-- Reading any page but those in `S` returns what it returned before. -/
def PageIo.Keeps (S : Set PageId) (pageIo pageIo' : PageIo) : Prop :=
  pageIo'.pageSize = pageIo.pageSize ∧
    ∀ pageId data, pageId ∉ S → Reads pageIo pageId data → Reads pageIo' pageId data

section

variable {env : Env} {pageIo : PageIo} {pageId : PageId} {data : Bytes}

theorem Reads.length (h : Reads pageIo pageId data) : data.length = pageIo.pageSize := by
  rw [← h.content, readRange_length]

theorem Reads.unique {data' : Bytes} (h : Reads pageIo pageId data)
    (h' : Reads pageIo pageId data') : data = data' :=
  h.content.symm.trans h'.content

/-- The cache may forget. -/
theorem Reads.cache (h : Reads pageIo pageId data) {pageCache : PageCache}
    (hcache : ∀ d, pageCache.entries pageId = some d →
      pageIo.pageCache.entries pageId = some d ∨ d = data) :
    Reads { pageIo with pageCache } pageId data :=
  { h with cached := fun d hd => (hcache d hd).elim (h.cached d) id }

/-- The file may grow. -/
theorem Reads.grow (h : Reads pageIo pageId data) {fileHandler : FileHandler}
    (hlen : pageIo.fileHandler.len ≤ fileHandler.len)
    (hcontents : fileHandler.contents = pageIo.fileHandler.contents) :
    Reads { pageIo with fileHandler } pageId data where
  inside := h.inside.trans hlen
  small := h.small
  content := by
    dsimp only
    rw [hcontents]
    exact h.content
  cached := h.cached

/-- Another page may be written, or a part of it. -/
theorem Reads.write (h : Reads pageIo pageId data) {other : PageId} (hne : pageId ≠ other)
    {part : Bytes} (hpart : part.length ≤ pageIo.pageSize) {len : ℕ}
    (hlen : pageIo.fileHandler.len ≤ len) :
    Reads { pageIo with
      fileHandler := { pageIo.fileHandler with
        len
        pending := pageIo.fileHandler.pending ++ [(other.toNat * pageIo.pageSize, part)] } }
      pageId data where
  inside := h.inside.trans hlen
  small := h.small
  content := by
    dsimp only
    rw [contents_writeAt, readRange_overwrite_of_disjoint, h.content]
    rcases pages_disjoint (fun heq => hne (UInt64.toNat_inj.mp heq)) pageIo.pageSize with h | h
    · exact Or.inl h
    · exact Or.inr (by omega)
  cached := h.cached

@[simp]
theorem PageCache.entries_insert (pageCache : PageCache) :
    (pageCache.insert pageId data).entries =
      Function.update pageCache.entries pageId (some data) := rfl

@[simp]
theorem PageCache.entries_remove (pageCache : PageCache) :
    (pageCache.remove pageId).entries = Function.update pageCache.entries pageId none := rfl

/-- What reading a page returns may be put into the cache. -/
theorem Reads.fill (h : Reads pageIo pageId data) (lookups : ℕ) :
    pageIo.Keeps ∅ { pageIo with
      pageCache := ({ pageIo.pageCache with lookups } : PageCache).insert pageId data } := by
  refine ⟨rfl, fun id d _ hreads => hreads.cache fun d' hd' => ?_⟩
  rw [PageCache.entries_insert] at hd'
  by_cases hid : id = pageId
  · subst hid
    rw [Function.update_self, Option.some.injEq] at hd'
    exact Or.inr (hd'.symm.trans (h.unique hreads))
  · rw [Function.update_of_ne hid] at hd'
    exact Or.inl hd'

theorem Reads.readFile (h : Reads pageIo pageId data) (env : Env)
    (hsmall : pageIo.pageSize < 2 ^ 63) : pageIo.readFile env pageId = .ok data := by
  rw [PageIo.readFile, zeroed_of_lt hsmall, ok_bind, mulU64_of_lt env h.small, ok_bind,
    List.length_replicate, FileHandler.readAt, debugAssert_true (by have := h.inside; omega),
    ok_bind, if_pos h.inside, h.content]
  rfl

/-- **Reading a page.** -/
theorem Reads.readPage (h : Reads pageIo pageId data) (env : Env) (hsmall : pageIo.pageSize < 2 ^ 63) :
    ∃ pageIo', pageIo.readPage env pageId = (.ok data, pageIo') ∧
      pageIo.Keeps ∅ pageIo' ∧ pageIo'.fileHandler = pageIo.fileHandler := by
  have hfile := h.readFile env hsmall
  rw [PageIo.readPage, PageCache.get]
  dsimp only
  split
  · rename_i d hd
    have hentry : pageIo.pageCache.entries pageId = some d := by
      split at hd
      · exact absurd hd (by simp)
      · exact hd
    rw [h.cached d hentry]
    exact ⟨_, rfl, ⟨rfl, fun id d _ hreads => hreads.cache fun d' hd' => Or.inl hd'⟩, rfl⟩
  · rw [hfile]
    exact ⟨_, rfl, h.fill _, rfl⟩

/-- Whatever page is read, no page changes. -/
theorem keeps_readPage (env : Env) (pageIo : PageIo) (pageId : PageId) :
    pageIo.Keeps ∅ (pageIo.readPage env pageId).2 ∧
      (pageIo.readPage env pageId).2.fileHandler = pageIo.fileHandler := by
  rw [PageIo.readPage, PageCache.get]
  dsimp only
  split
  · exact ⟨⟨rfl, fun id d _ hreads => hreads.cache fun d' hd' => Or.inl hd'⟩, rfl⟩
  split
  · rename_i data hfile
    refine ⟨⟨rfl, fun id d _ hreads => hreads.cache fun d' hd' => ?_⟩, rfl⟩
    rw [PageCache.entries_insert] at hd'
    by_cases hid : id = pageId
    · subst hid
      rw [Function.update_self, Option.some.injEq] at hd'
      subst hd'
      refine Or.inr ?_
      -- the file still holds what could be read before
      rw [PageIo.readFile, bind_eq_ok] at hfile
      obtain ⟨buffer, hbuffer, hfile⟩ := hfile
      rw [zeroed] at hbuffer
      split at hbuffer
      on_goal 2 => exact absurd hbuffer (by simp)
      rw [Except.ok.injEq] at hbuffer
      subst hbuffer
      rw [mulU64_of_lt env hreads.small, ok_bind, List.length_replicate, FileHandler.readAt,
        debugAssert_true (by have := hreads.inside; omega), ok_bind, if_pos hreads.inside,
        pure_eq_ok, Except.ok.injEq] at hfile
      exact hfile.symm.trans hreads.content
    · rw [Function.update_of_ne hid] at hd'
      exact Or.inl hd'
  · exact ⟨⟨rfl, fun id d _ hreads => hreads.cache fun d' hd' => Or.inl hd'⟩, rfl⟩

/-- The entry of a page may be dropped from the cache. -/
theorem keeps_removePage : pageIo.Keeps ∅ (pageIo.removePage pageId) := by
  refine ⟨rfl, fun id d _ hreads => hreads.cache fun d' hd' => ?_⟩
  rw [PageCache.entries_remove] at hd'
  by_cases hid : id = pageId
  · subst hid
    rw [Function.update_self] at hd'
    exact absurd hd' (by simp)
  · rw [Function.update_of_ne hid] at hd'
    exact Or.inl hd'

theorem keeps_syncData : pageIo.Keeps ∅ pageIo.syncData :=
  ⟨rfl, fun _ _ _ hreads => hreads.grow le_rfl rfl⟩

theorem keeps_grow {fileHandler : FileHandler} (hlen : pageIo.fileHandler.len ≤ fileHandler.len)
    (hcontents : fileHandler.contents = pageIo.fileHandler.contents) :
    pageIo.Keeps ∅ { pageIo with fileHandler } :=
  ⟨rfl, fun _ _ _ hreads => hreads.grow hlen hcontents⟩

/-- A write to a page that the file takes. -/
theorem writeAtPage_inv {file file' : FileHandler} {pageSize : ℕ}
    (h : file.writeAtPage env pageId pageSize data = .ok file') :
    pageId.toNat * pageSize < 2 ^ 64 ∧ file' = { file with
      len := max file.len (pageId.toNat * pageSize + data.length)
      pending := file.pending ++ [(pageId.toNat * pageSize, data)] } := by
  rw [FileHandler.writeAtPage, usize] at h
  split at h
  on_goal 2 => exact absurd h (by simp)
  next hsmall =>
  rw [ok_bind, FileHandler.writeAt, bind_eq_ok] at h
  obtain ⟨-, -, h⟩ := h
  exact ⟨hsmall, (Except.ok.inj h).symm⟩

/-- **Writing a page** changes what reading that page returns, and nothing else. -/
theorem writePage_ok {pageIo' : PageIo}
    (h : pageIo.writePage env pageId data = (.ok (), pageIo')) :
    data.length = pageIo.pageSize ∧ pageIo.Keeps {pageId} pageIo' ∧ Reads pageIo' pageId data ∧
      pageIo'.fileHandler = { pageIo.fileHandler with
        len := max pageIo.fileHandler.len (pageId.toNat * pageIo.pageSize + data.length)
        pending := pageIo.fileHandler.pending ++ [(pageId.toNat * pageIo.pageSize, data)] } := by
  rw [PageIo.writePage] at h
  split at h
  · exact absurd h (by simp)
  rename_i hlength
  rw [not_not] at hlength
  split at h
  on_goal 2 => exact absurd h (by simp)
  rename_i fileHandler hwrite
  obtain ⟨hsmall, rfl⟩ := writeAtPage_inv hwrite
  rw [Prod.mk.injEq] at h
  obtain rfl := h.2
  refine ⟨hlength, ⟨rfl, fun id d hid hreads => ?_⟩, ?_, rfl⟩
  · refine (hreads.write hid hlength.le (le_max_left _ _)).cache fun d' hd' => ?_
    rw [PageCache.entries_insert, Function.update_of_ne hid] at hd'
    exact Or.inl hd'
  · exact {
      inside := by
        rw [hlength]
        exact le_max_right _ _
      small := hsmall
      content := by
        dsimp only
        rw [contents_writeAt, ← hlength, readRange_overwrite_self]
      cached := fun d hd => by
        rw [PageCache.entries_insert, Function.update_self, Option.some.injEq] at hd
        exact hd.symm }

/-- A page of the right size can be written in the file, or at its end. -/
theorem writePage_of_le (hlength : data.length = pageIo.pageSize)
    (hsmall : pageId.toNat * pageIo.pageSize < 2 ^ 64)
    (hinside : pageId.toNat * pageIo.pageSize ≤ pageIo.fileHandler.len) :
    ∃ pageIo', pageIo.writePage env pageId data = (.ok (), pageIo') := by
  rw [PageIo.writePage, if_neg (not_not.mpr hlength), FileHandler.writeAtPage,
    usize_of_lt hsmall, ok_bind, FileHandler.writeAt, debugAssert_true hinside, ok_bind]
  exact ⟨_, rfl⟩

/-- A write that is refused leaves everything as it was. -/
theorem writePage_error {e : Fault} {pageIo' : PageIo}
    (h : pageIo.writePage env pageId data = (.error e, pageIo')) : pageIo' = pageIo := by
  rw [PageIo.writePage] at h
  split at h
  · exact (Prod.mk.inj h).2.symm
  · split at h
    · exact absurd h (by simp)
    · exact (Prod.mk.inj h).2.symm

end

/-! ### The tracker of readers -/

/-- The tracker counts the transactions of a list of readers. -/
structure Tracks (tracker : TransactionReaderCount) (readers : List TransactionId) : Prop where
  sorted : Sorted tracker
  count : ∀ t, contents tracker t = if t ∈ readers then some (readers.count t) else none

section

variable {tracker : TransactionReaderCount} {readers : List TransactionId} {t : TransactionId}

theorem tracks_nil : Tracks [] [] := ⟨sorted_nil, fun _ => rfl⟩

theorem Tracks.perm (h : Tracks tracker readers) {readers' : List TransactionId}
    (hp : readers'.Perm readers) : Tracks tracker readers' where
  sorted := h.sorted
  count t := by
    rw [h.count t, hp.count_eq]
    simp only [hp.mem_iff]

/-- One more reader. -/
theorem Tracks.beginRead (h : Tracks tracker readers) (t : TransactionId) :
    Tracks (ReadTracker.beginRead tracker t) (t :: readers) := by
  have hupsert : ReadTracker.beginRead tracker t = upsert t (readers.count t + 1) tracker := by
    rw [ReadTracker.beginRead, h.count t]
    by_cases hmem : t ∈ readers
    · rw [if_pos hmem]
    · rw [if_neg hmem, List.count_eq_zero_of_not_mem hmem]
  rw [hupsert]
  refine ⟨sorted_upsert h.sorted _ _, fun x => ?_⟩
  rw [contents_upsert h.sorted]
  by_cases hx : x = t
  · subst hx
    rw [assign_self, if_pos List.mem_cons_self, List.count_cons_self]
  · rw [assign_of_ne hx, h.count x, List.count_cons_of_ne (Ne.symm hx)]
    simp only [List.mem_cons, hx, false_or]

/-- One reader less. -/
theorem Tracks.drop (h : Tracks tracker (t :: readers)) :
    Tracks (ReadTracker.drop tracker t) readers := by
  have hcount : contents tracker t = some (readers.count t + 1) := by
    rw [h.count t, if_pos List.mem_cons_self, List.count_cons_self]
  rw [ReadTracker.drop, hcount]
  dsimp only
  rw [Nat.add_sub_cancel]
  split
  · -- the last one of this id
    rename_i hzero
    have hnotMem : t ∉ readers := List.count_eq_zero.mp hzero
    refine ⟨h.sorted.filter _, fun x => ?_⟩
    by_cases hx : x = t
    · subst hx
      rw [if_neg hnotMem]
      refine contents_eq_none_of_notMem fun hmem => ?_
      obtain ⟨a, ha, rfl⟩ := List.mem_map.mp hmem
      simpa using (List.mem_filter.mp ha).2
    · rw [contents_filter fun a ha => by simpa [ha] using hx, h.count x,
        List.count_cons_of_ne (Ne.symm hx)]
      simp only [List.mem_cons, hx, false_or]
  · rename_i hpos
    have hmem : t ∈ readers := by
      rw [← List.count_pos_iff]
      omega
    refine ⟨sorted_upsert h.sorted _ _, fun x => ?_⟩
    rw [contents_upsert h.sorted]
    by_cases hx : x = t
    · subst hx
      rw [assign_self, if_pos hmem]
    · rw [assign_of_ne hx, h.count x, List.count_cons_of_ne (Ne.symm hx)]
      simp only [List.mem_cons, hx, false_or]

/-- The oldest active transaction is not younger than any reader. -/
theorem Tracks.oldest_le (h : Tracks tracker readers) (ht : t ∈ readers) (default : TransactionId) :
    (ReadTracker.oldestActiveTransaction tracker).getD default ≤ t := by
  have hmem : (t, readers.count t) ∈ tracker :=
    mem_of_contents (by rw [h.count t, if_pos ht])
  cases tracker with
  | nil => exact absurd hmem List.not_mem_nil
  | cons a rest =>
    change a.1 ≤ t
    rcases List.mem_cons.mp hmem with heq | hmem
    · rw [← heq]
    · exact ((sorted_cons.mp h.sorted).1 _ hmem).le

/-- **The oldest active transaction** is the smallest id of a reader, if there is one. -/
theorem Tracks.oldest_eq_some (h : Tracks tracker readers) :
    ReadTracker.oldestActiveTransaction tracker = some t ↔ IsLeast {x | x ∈ readers} t := by
  cases tracker with
  | nil =>
    -- no key, so no reader
    refine ⟨fun hnone => absurd hnone (by simp [ReadTracker.oldestActiveTransaction]),
      fun ⟨hmem, _⟩ => ?_⟩
    have hcount := h.count t
    rw [if_pos (show t ∈ readers from hmem)] at hcount
    exact absurd hcount (by simp)
  | cons first rest =>
    -- the first key counts a reader, and no reader is older
    have hleast : IsLeast {x | x ∈ readers} first.1 := by
      refine ⟨?_, fun x hx => h.oldest_le hx 0⟩
      by_contra hnot
      have hcount := h.count first.1
      rw [if_neg (show first.1 ∉ readers from hnot), contents_cons_self] at hcount
      exact absurd hcount (by simp)
    change some first.1 = some t ↔ _
    rw [Option.some.injEq]
    exact ⟨fun heq => heq ▸ hleast, fun hother => hleast.unique hother⟩

end

end KvRaft.Kv
