import KvRaft.Bytes.Slice
import Mathlib.Order.Interval.Finset.Nat

/-!
# Slotted pages

A slotted page is a buffer with a header and an array of slots at its front and the data
of the slots at its back. A slot says where its data is; the header says how many slots
there are and where the data begins. Slots are added at the end of the array, their data
in front of the data there is, until the two meet.

`Holds L page ms` says that a page holds the slots `ms`: the array reads back, it ends
before the data, and every slot has a range of its own in the data. `Filled L page ms c`
says the same but for the header, with the beginning `c` of the data in its place. What
two ways of writing do to a page:

* `rewrite` writes one range of data, the header and the whole array (`Holds.rewrite`);
  every range of data apart from the one written is kept (`slice_rewrite_of_apart`).
* `Filled.push` writes the data of one more slot and the slot, `Filled.close` the header:
  a page built from the first slot on.

However a page came about, the data of its slots is no longer than the room behind the
beginning of the data (`Filled.packed`).
-/

namespace KvRaft.Bytes

variable {H M : Type} [Pod H] [Pod M]

/-- What the header and the slots say about a page. -/
structure Layout (H M : Type) where
  /-- The number of slots. -/
  count : H → ℕ
  /-- The offset of the first byte of data. -/
  dataEnd : H → ℕ
  offset : M → ℕ
  size : M → ℕ

/-- Slots whose ranges have no byte in common. -/
def Layout.Apart (L : Layout H M) (a b : M) : Prop :=
  ∀ i, ¬((L.offset a ≤ i ∧ i < L.offset a + L.size a) ∧
    L.offset b ≤ i ∧ i < L.offset b + L.size b)

/-- The slots of a page are `ms` and their data lies from `c` on, in ranges that do not
meet. -/
structure Filled (L : Layout H M) (page : Bytes) (ms : List M) (c : ℕ) : Prop where
  slots : readPods M page (Pod.size H) ms.length = ms
  room : Pod.size H + ms.length * Pod.size M ≤ c
  bound : c ≤ page.length
  range : ∀ m ∈ ms, c ≤ L.offset m ∧ L.offset m + L.size m ≤ page.length
  apart : ms.Pairwise L.Apart

/-- The page holds the slots `ms`, and its header says so. -/
structure Holds (L : Layout H M) (page : Bytes) (ms : List M) : Prop where
  count : L.count (readPod H page 0) = ms.length
  filled : Filled L page ms (L.dataEnd (readPod H page 0))

/-- The page with `data` written at `offset`, and a header and slots written at its front. -/
def rewrite (page : Bytes) (offset : ℕ) (data : Bytes) (h : H) (ms : List M) : Bytes :=
  writePods (writePod (splice page offset data) 0 h) (Pod.size H) ms

section rewrite

variable {L : Layout H M} {page : Bytes} {offset : ℕ} {data : Bytes} {h : H} {ms : List M}

/-- The front of the page has room for the header and the slots, and the data is behind. -/
structure Fits (H : Type) {M : Type} [Pod H] [Pod M] (page : Bytes) (offset : ℕ)
    (data : Bytes) (ms : List M) (limit : ℕ) : Prop where
  front : Pod.size H + ms.length * Pod.size M ≤ limit
  back : limit ≤ offset
  bound : offset + data.length ≤ page.length

theorem length_rewrite {limit : ℕ} (hfit : Fits H page offset data ms limit) :
    (rewrite page offset data h ms).length = page.length := by
  obtain ⟨hfront, hback, hbound⟩ := hfit
  have hdata := length_splice hbound
  have hheader : (writePod (splice page offset data) 0 h).length = page.length := by
    rw [length_writePod h (by omega), hdata]
  rw [rewrite, length_writePods ms (by omega), hheader]

/-- The front of the page does not reach into the data. -/
theorem slice_rewrite {limit : ℕ} (hfit : Fits H page offset data ms limit) {o n : ℕ}
    (ho : limit ≤ o) :
    slice (rewrite page offset data h ms) o n = slice (splice page offset data) o n := by
  obtain ⟨hfront, hback, hbound⟩ := hfit
  have hdata := length_splice hbound
  have hheader : (writePod (splice page offset data) 0 h).length = page.length := by
    rw [length_writePod h (by omega), hdata]
  rw [rewrite, writePods,
    slice_splice_of_disjoint (by rw [length_flatMap_encode]; omega)
      (by rw [length_flatMap_encode]; omega),
    writePod, slice_splice_of_disjoint (by rw [Pod.length_encode]; omega)
      (by rw [Pod.length_encode]; omega)]

/-- Data apart from the range written is kept. -/
theorem slice_rewrite_of_apart {limit : ℕ} (hfit : Fits H page offset data ms limit)
    {o n : ℕ} (ho : limit ≤ o) (hapart : o + n ≤ offset ∨ offset + data.length ≤ o) :
    slice (rewrite page offset data h ms) o n = slice page o n := by
  rw [slice_rewrite hfit ho, slice_splice_of_disjoint hfit.bound hapart]

/-- The data written reads back. -/
theorem slice_rewrite_data {limit : ℕ} (hfit : Fits H page offset data ms limit)
    {j n : ℕ} (hj : j + n ≤ data.length) :
    slice (rewrite page offset data h ms) (offset + j) n = slice data j n := by
  rw [slice_rewrite hfit (by have := hfit.back; omega), slice_splice_inside hfit.bound hj]

theorem readPod_rewrite {limit : ℕ} (hfit : Fits H page offset data ms limit) :
    readPod H (rewrite page offset data h ms) 0 = h := by
  obtain ⟨hfront, hback, hbound⟩ := hfit
  have hdata := length_splice hbound
  have hheader : (writePod (splice page offset data) 0 h).length = page.length := by
    rw [length_writePod h (by omega), hdata]
  rw [rewrite, writePods, readPod_splice (by rw [length_flatMap_encode]; omega) (by omega),
    readPod_writePod h (by omega)]

theorem readPods_rewrite {limit : ℕ} (hfit : Fits H page offset data ms limit) :
    readPods M (rewrite page offset data h ms) (Pod.size H) ms.length = ms := by
  obtain ⟨hfront, hback, hbound⟩ := hfit
  have hdata := length_splice hbound
  have hheader : (writePod (splice page offset data) 0 h).length = page.length := by
    rw [length_writePod h (by omega), hdata]
  rw [rewrite, readPods_writePods ms (by omega)]

/-- A page rewritten holds the slots written. -/
theorem Holds.rewrite (hfit : Fits H page offset data ms (L.dataEnd h))
    (hcount : L.count h = ms.length)
    (hrange : ∀ m ∈ ms, L.dataEnd h ≤ L.offset m ∧ L.offset m + L.size m ≤ page.length)
    (hapart : ms.Pairwise L.Apart) : Holds L (rewrite page offset data h ms) ms where
  count := by rw [readPod_rewrite hfit, hcount]
  filled := {
    slots := readPods_rewrite hfit
    room := by rw [readPod_rewrite hfit]; exact hfit.front
    bound := by
      have hback := hfit.back
      have hbound := hfit.bound
      rw [readPod_rewrite hfit, length_rewrite hfit]
      omega
    range := by rw [readPod_rewrite hfit, length_rewrite hfit]; exact hrange
    apart := hapart }

omit [Pod H] [Pod M] in
theorem Layout.Apart.symm {a b : M} (h : L.Apart a b) : L.Apart b a :=
  fun i hi => h i hi.symm

omit [Pod H] [Pod M] in
/-- An empty range meets none; of two others that do not meet, one is in front. -/
theorem Layout.apart_iff {a b : M} :
    L.Apart a b ↔ L.size a = 0 ∨ L.size b = 0 ∨
      L.offset a + L.size a ≤ L.offset b ∨ L.offset b + L.size b ≤ L.offset a := by
  refine ⟨fun h => ?_, fun h i hi => by omega⟩
  have hmax := h (max (L.offset a) (L.offset b))
  omega

omit [Pod H] [Pod M] in
/-- Ranges that do not meet cover as many bytes as they are long. -/
theorem exists_cover {ms : List M} (hapart : ms.Pairwise L.Apart) :
    ∃ cover : Finset ℕ, cover.card = (ms.map L.size).sum ∧
      ∀ i ∈ cover, ∃ m ∈ ms, L.offset m ≤ i ∧ i < L.offset m + L.size m := by
  induction ms with
  | nil => exact ⟨∅, rfl, fun i hi => absurd hi (Finset.notMem_empty i)⟩
  | cons m ms ih =>
    rw [List.pairwise_cons] at hapart
    obtain ⟨cover, hcard, hcover⟩ := ih hapart.2
    -- the range of `m` meets none of the ranges covered so far
    have hdisjoint : Disjoint (Finset.Ico (L.offset m) (L.offset m + L.size m)) cover := by
      rw [Finset.disjoint_left]
      intro i hi hmem
      obtain ⟨a, ha, hrange⟩ := hcover i hmem
      exact hapart.1 a ha i ⟨Finset.mem_Ico.mp hi, hrange⟩
    refine ⟨Finset.Ico (L.offset m) (L.offset m + L.size m) ∪ cover, ?_, fun i hi => ?_⟩
    · rw [Finset.card_union_of_disjoint hdisjoint, Nat.card_Ico, Nat.add_sub_cancel_left, hcard,
        List.map_cons, List.sum_cons]
    · rcases Finset.mem_union.mp hi with hi | hi
      · exact ⟨m, List.mem_cons_self, Finset.mem_Ico.mp hi⟩
      · obtain ⟨a, ha, hrange⟩ := hcover i hi
        exact ⟨a, List.mem_cons_of_mem m ha, hrange⟩

/-- **The data of the slots has room** behind its beginning. -/
theorem Filled.packed {c : ℕ} (h : Filled L page ms c) :
    c + (ms.map L.size).sum ≤ page.length := by
  obtain ⟨cover, hcard, hcover⟩ := exists_cover h.apart
  have hsub : cover ⊆ Finset.Ico c page.length := by
    intro i hi
    obtain ⟨m, hm, hrange⟩ := hcover i hi
    have hbounds := h.range m hm
    rw [Finset.mem_Ico]
    omega
  have hle := Finset.card_le_card hsub
  rw [hcard, Nat.card_Ico] at hle
  have hbound := h.bound
  omega

/-- One slot written: the slots `rest` of the page are kept, `m` is new. -/
structure Overwrite (L : Layout H M) (page : Bytes) (data : Bytes) (h : H) (m : M)
    (rest ms : List M) : Prop where
  perm : ms.Perm (m :: rest)
  size : L.size m = data.length
  count : L.count h = ms.length
  fits : Fits H page (L.offset m) data ms (L.dataEnd h)
  dataEnd : L.dataEnd h ≤ L.dataEnd (readPod H page 0)
  apart : ∀ a ∈ rest, L.Apart a m

theorem Holds.overwrite {old rest : List M} (hpage : Holds L page old) {m : M}
    (hrest : rest.Sublist old) (how : Overwrite L page data h m rest ms) :
    Holds L (Bytes.rewrite page (L.offset m) data h ms) ms := by
  obtain ⟨hperm, hsize, hcount, hfit, hend, hapart⟩ := how
  refine Holds.rewrite hfit hcount (fun a ha => ?_) ?_
  · rcases List.mem_cons.mp (hperm.mem_iff.mp ha) with rfl | ha
    · have hbound := hfit.bound
      exact ⟨hfit.back, by omega⟩
    · have hrange := hpage.filled.range a (hrest.subset ha)
      exact ⟨by omega, hrange.2⟩
  · have hpairs : (m :: rest).Pairwise L.Apart :=
      List.pairwise_cons.mpr ⟨fun a ha => (hapart a ha).symm, hpage.filled.apart.sublist hrest⟩
    exact hpairs.perm hperm.symm Layout.Apart.symm

/-- The slots kept keep their data. -/
theorem Holds.slice_overwrite {old rest : List M} (hpage : Holds L page old) {m : M}
    (hrest : rest.Sublist old) (how : Overwrite L page data h m rest ms) {a : M} (ha : a ∈ rest)
    {j n : ℕ} (hj : j + n ≤ L.size a) :
    slice (Bytes.rewrite page (L.offset m) data h ms) (L.offset a + j) n =
      slice page (L.offset a + j) n := by
  have hrange := hpage.filled.range a (hrest.subset ha)
  have hend := how.dataEnd
  have hsize := how.size
  rcases Layout.apart_iff.mp (how.apart a ha) with hempty | hempty | hbefore | hafter
  · obtain rfl : n = 0 := by omega
    rw [slice_zero, slice_zero]
  · have hdata : data = [] := List.length_eq_zero_iff.mp (by omega)
    rw [slice_rewrite how.fits (by omega), hdata, splice_nil]
  · exact slice_rewrite_of_apart how.fits (by omega) (Or.inl (by omega))
  · exact slice_rewrite_of_apart how.fits (by omega) (Or.inr (by omega))

end rewrite

section build

variable {L : Layout H M} {page : Bytes} {ms : List M} {c : ℕ}

/-- A page with no slot. -/
theorem Filled.empty (L : Layout H M) (page : Bytes) (h : Pod.size H ≤ page.length) :
    Filled L page [] page.length where
  slots := rfl
  room := by simpa using h
  bound := le_rfl
  range := by simp
  apart := List.Pairwise.nil

/-- The page with the data of one more slot, and the slot, written. -/
def push (L : Layout H M) (page : Bytes) (i : ℕ) (data : Bytes) (m : M) : Bytes :=
  writePod (splice page (L.offset m) data) (Pod.size H + i * Pod.size M) m

/-- There is room for one more slot, right in front of the data there is. -/
structure Room (L : Layout H M) (ms : List M) (c : ℕ) (data : Bytes) (m : M) : Prop where
  size : L.size m = data.length
  next : L.offset m + data.length = c
  room : Pod.size H + (ms.length + 1) * Pod.size M ≤ L.offset m

/-- Data from `c` on is kept. -/
theorem slice_push (hpage : Filled L page ms c) {data : Bytes} {m : M}
    (hroom : Room L ms c data m) {o n : ℕ} (ho : c ≤ o) :
    slice (push L page ms.length data m) o n = slice page o n := by
  obtain ⟨-, hnext, hroom⟩ := hroom
  have hbound := hpage.bound
  rw [Nat.succ_mul] at hroom
  have hdata : (splice page (L.offset m) data).length = page.length := length_splice (by omega)
  rw [push, writePod, slice_splice_of_disjoint (by rw [Pod.length_encode]; omega)
      (by rw [Pod.length_encode]; omega),
    slice_splice_of_disjoint (by omega) (by omega)]

theorem length_push (hpage : Filled L page ms c) {data : Bytes} {m : M}
    (hroom : Room L ms c data m) : (push L page ms.length data m).length = page.length := by
  obtain ⟨-, hnext, hroom⟩ := hroom
  have hbound := hpage.bound
  rw [Nat.succ_mul] at hroom
  have hdata : (splice page (L.offset m) data).length = page.length := length_splice (by omega)
  rw [push, length_writePod m (by omega), hdata]

/-- The data written reads back. -/
theorem slice_push_data (hpage : Filled L page ms c) {data : Bytes} {m : M}
    (hroom : Room L ms c data m) {j n : ℕ} (hj : j + n ≤ data.length) :
    slice (push L page ms.length data m) (L.offset m + j) n = slice data j n := by
  obtain ⟨-, hnext, hroom⟩ := hroom
  have hbound := hpage.bound
  rw [Nat.succ_mul] at hroom
  have hdata : (splice page (L.offset m) data).length = page.length := length_splice (by omega)
  rw [push, writePod, slice_splice_of_disjoint (by rw [Pod.length_encode]; omega)
      (by rw [Pod.length_encode]; omega), slice_splice_inside (by omega) hj]

/-- One more slot. -/
theorem Filled.push (hpage : Filled L page ms c) {data : Bytes} {m : M}
    (hroom : Room L ms c data m) :
    Filled L (push L page ms.length data m) (ms ++ [m]) (L.offset m) := by
  have hlength := length_push hpage hroom
  obtain ⟨hsize, hnext, hroom⟩ := hroom
  have hbound := hpage.bound
  have hroom' := hroom
  rw [Nat.succ_mul] at hroom'
  have hdata : (splice page (L.offset m) data).length = page.length := length_splice (by omega)
  refine ⟨?_, ?_, ?_, ?_, ?_⟩
  · -- the slots before it are in front of the slot written, its data is behind
    have hold : readPods M (Bytes.push L page ms.length data m) (Pod.size H) ms.length = ms := by
      rw [Bytes.push, writePod, readPods_splice (by rw [Pod.length_encode]; omega) (by omega),
        readPods_splice (by omega) (by omega), hpage.slots]
    have hnew : readPod M (Bytes.push L page ms.length data m)
        (Pod.size H + ms.length * Pod.size M) = m := by
      rw [Bytes.push, readPod_writePod m (by omega)]
    rw [List.length_append, List.length_singleton, readPods_succ, hnew, hold]
  · simpa using hroom
  · rw [hlength]
    omega
  · rw [hlength]
    intro a ha
    rcases List.mem_append.mp ha with ha | ha
    · have hrange := hpage.range a ha
      exact ⟨by omega, hrange.2⟩
    · rw [List.mem_singleton] at ha
      subst ha
      exact ⟨le_rfl, by omega⟩
  · refine List.pairwise_append.mpr ⟨hpage.apart, List.pairwise_singleton _ _, ?_⟩
    intro a ha b hb
    rw [List.mem_singleton] at hb
    subst hb
    have hrange := hpage.range a ha
    exact Layout.apart_iff.mpr (by omega)

/-- Data is kept when the header is written. -/
theorem slice_close (hpage : Filled L page ms c) (h : H) {o n : ℕ} (ho : c ≤ o) :
    slice (writePod page 0 h) o n = slice page o n := by
  have hroom := hpage.room
  have hbound := hpage.bound
  rw [writePod, slice_splice_of_disjoint (by rw [Pod.length_encode]; omega)
    (by rw [Pod.length_encode]; omega)]

theorem length_close (hpage : Filled L page ms c) (h : H) :
    (writePod page 0 h).length = page.length := by
  have hroom := hpage.room
  have hbound := hpage.bound
  exact length_writePod h (by omega)

/-- The header makes it a page. -/
theorem Filled.close (hpage : Filled L page ms c) {h : H} (hcount : L.count h = ms.length)
    (hend : L.dataEnd h = c) : Holds L (writePod page 0 h) ms := by
  have hroom := hpage.room
  have hbound := hpage.bound
  have hread : readPod H (writePod page 0 h) 0 = h := readPod_writePod h (by omega)
  have hlength := length_close hpage h
  refine ⟨by rw [hread, hcount], ?_⟩
  rw [hread, hend]
  refine ⟨?_, hpage.room, by rw [hlength]; exact hbound, by rw [hlength]; exact hpage.range,
    hpage.apart⟩
  rw [writePod, readPods_splice (by rw [Pod.length_encode]; omega)
    (by rw [Pod.length_encode]; omega), hpage.slots]

end build

end KvRaft.Bytes
