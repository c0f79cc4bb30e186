import Mathlib.Data.List.Basic
import Mathlib.Data.List.GetD
import Mathlib.Data.List.Lex
import Mathlib.Data.UInt
import Mathlib.Order.Lattice
import Mathlib.Tactic.NormNum
import Mathlib.Tactic.Ring

/-!
# Byte buffers and values of a fixed width

A buffer is a list of bytes. Two operations are enough for everything that edits one in
place: `slice`, the bytes of a range, and `splice`, the buffer with the bytes of a range
replaced. They satisfy the laws of an array of cells, with ranges in place of indices:

* a range just written reads back (`slice_splice_self`),
* so does every range inside it (`slice_splice_inside`),
* a range that does not meet it is unchanged (`slice_splice_of_disjoint`).

`Pod` is the class of the values with an image of a fixed number of bytes. `readPod` and
`writePod` are `slice` and `splice` at such an image, `readPods` and `writePods` at an
array of them.
-/

namespace KvRaft

/-- A buffer. -/
abbrev Bytes := List UInt8

/-- Bytes are ordered as numbers, so that buffers are ordered lexicographically. -/
instance instLinearOrderByte : LinearOrder UInt8 where
  le_refl := UInt8.le_refl
  le_trans _ _ _ := UInt8.le_trans
  le_antisymm _ _ := UInt8.le_antisymm
  le_total := UInt8.le_total
  lt_iff_le_not_ge a b := by
    rw [UInt8.lt_iff_toNat_lt, UInt8.le_iff_toNat_le, UInt8.le_iff_toNat_le]
    omega
  toDecidableLE := inferInstance
  toDecidableEq := inferInstance
  toDecidableLT := inferInstance

namespace Bytes

/-! ### Ranges -/

/-- The `n` bytes from `offset` on. -/
def slice (bs : Bytes) (offset n : ℕ) : Bytes :=
  (bs.drop offset).take n

/-- The buffer with `data` in place of the bytes from `offset` on. -/
def splice (bs : Bytes) (offset : ℕ) (data : Bytes) : Bytes :=
  bs.take offset ++ data ++ bs.drop (offset + data.length)

theorem length_slice {bs : Bytes} {offset n : ℕ} (h : offset + n ≤ bs.length) :
    (slice bs offset n).length = n := by
  simp only [slice, List.length_take, List.length_drop]
  omega

@[simp]
theorem slice_zero (bs : Bytes) (offset : ℕ) : slice bs offset 0 = [] := by
  simp [slice]

theorem getElem?_slice (bs : Bytes) (offset n i : ℕ) :
    (slice bs offset n)[i]? = if i < n then bs[offset + i]? else none := by
  simp only [slice, List.getElem?_take, List.getElem?_drop]

theorem length_splice {bs : Bytes} {offset : ℕ} {data : Bytes}
    (h : offset + data.length ≤ bs.length) : (splice bs offset data).length = bs.length := by
  simp only [splice, List.length_append, List.length_take, List.length_drop]
  omega

/-- Inside the range written the buffer holds the data, elsewhere what it held before. -/
theorem getElem?_splice {bs : Bytes} {offset : ℕ} {data : Bytes}
    (h : offset + data.length ≤ bs.length) (i : ℕ) :
    (splice bs offset data)[i]? =
      if offset ≤ i ∧ i < offset + data.length then data[i - offset]? else bs[i]? := by
  have htake : (bs.take offset).length = offset := by
    rw [List.length_take]
    omega
  simp only [splice]
  by_cases hlow : i < offset
  · rw [List.getElem?_append_left (by simp only [List.length_append]; omega),
      List.getElem?_append_left (by omega), List.getElem?_take, if_pos hlow, if_neg (by omega)]
  · by_cases hhigh : i < offset + data.length
    · rw [List.getElem?_append_left (by simp only [List.length_append]; omega),
        List.getElem?_append_right (by omega), htake, if_pos ⟨by omega, hhigh⟩]
    · rw [List.getElem?_append_right (by simp only [List.length_append]; omega),
        List.getElem?_drop, if_neg (by omega)]
      congr 1
      simp only [List.length_append]
      omega

/-- A range just written reads back. -/
theorem slice_splice_self {bs : Bytes} {offset : ℕ} {data : Bytes}
    (h : offset + data.length ≤ bs.length) :
    slice (splice bs offset data) offset data.length = data := by
  ext1 i
  rw [getElem?_slice, getElem?_splice h]
  split
  · rw [if_pos (by omega), Nat.add_sub_cancel_left]
  · rw [List.getElem?_eq_none (by omega)]

/-- A range inside the range just written reads the data. -/
theorem slice_splice_inside {bs : Bytes} {offset : ℕ} {data : Bytes}
    (h : offset + data.length ≤ bs.length) {j n : ℕ} (hj : j + n ≤ data.length) :
    slice (splice bs offset data) (offset + j) n = slice data j n := by
  ext1 i
  simp only [getElem?_slice, getElem?_splice h]
  split
  · rw [if_pos (by omega)]
    congr 1
    omega
  · rfl

/-- A range that does not meet the range written is unchanged. -/
theorem slice_splice_of_disjoint {bs : Bytes} {offset : ℕ} {data : Bytes}
    (h : offset + data.length ≤ bs.length) {j n : ℕ}
    (hj : j + n ≤ offset ∨ offset + data.length ≤ j) :
    slice (splice bs offset data) j n = slice bs j n := by
  ext1 i
  simp only [getElem?_slice, getElem?_splice h]
  split
  · rw [if_neg (by omega)]
  · rfl

/-- A range of a range. -/
theorem slice_slice (bs : Bytes) {offset n j k : ℕ} (h : j + k ≤ n) :
    slice (slice bs offset n) j k = slice bs (offset + j) k := by
  ext1 i
  simp only [getElem?_slice]
  split
  · rw [if_pos (by omega), Nat.add_assoc]
  · rfl

/-- Two adjacent ranges make one. -/
theorem slice_add (bs : Bytes) (offset n m : ℕ) :
    slice bs offset (n + m) = slice bs offset n ++ slice bs (offset + n) m := by
  simp only [slice, ← List.drop_drop]
  rw [List.take_add]

/-- Writing what a range holds changes nothing. -/
theorem splice_slice {bs : Bytes} {offset n : ℕ} (h : offset + n ≤ bs.length) :
    splice bs offset (slice bs offset n) = bs := by
  have hlen : (slice bs offset n).length = n := length_slice h
  ext1 i
  rw [getElem?_splice (by rw [hlen]; exact h), hlen, getElem?_slice]
  split
  · rw [if_pos (by omega)]
    congr 1
    omega
  · rfl

@[simp]
theorem splice_nil (bs : Bytes) (offset : ℕ) : splice bs offset [] = bs := by
  simp [splice]

/-- Writing two adjacent ranges is writing one. -/
theorem splice_splice_append {bs : Bytes} {offset : ℕ} {data more : Bytes}
    (h : offset + data.length + more.length ≤ bs.length) :
    splice (splice bs offset data) (offset + data.length) more =
      splice bs offset (data ++ more) := by
  have hdata : offset + data.length ≤ bs.length := by omega
  ext1 i
  rw [getElem?_splice (by rw [length_splice hdata]; exact h), getElem?_splice hdata,
    getElem?_splice (by rw [List.length_append]; omega), List.length_append]
  by_cases hlow : offset + data.length ≤ i ∧ i < offset + data.length + more.length
  · rw [if_pos hlow, if_pos (by omega), List.getElem?_append_right (by omega)]
    congr 1
    omega
  · rw [if_neg hlow]
    by_cases hin : offset ≤ i ∧ i < offset + data.length
    · rw [if_pos hin, if_pos (by omega), List.getElem?_append_left (by omega)]
    · rw [if_neg hin, if_neg (by omega)]

/-- Writing to a copy of a range and putting it back is writing to the buffer. -/
theorem splice_splice_slice {bs : Bytes} {offset n j : ℕ} {data : Bytes}
    (h : offset + n ≤ bs.length) (hj : j + data.length ≤ n) :
    splice bs offset (splice (slice bs offset n) j data) = splice bs (offset + j) data := by
  have hslice : (slice bs offset n).length = n := length_slice h
  have hinner : (splice (slice bs offset n) j data).length = n := by
    rw [length_splice (by omega), hslice]
  ext1 i
  rw [getElem?_splice (by omega), getElem?_splice (by omega), hinner,
    getElem?_splice (by omega), getElem?_slice]
  by_cases hin : offset + j ≤ i ∧ i < offset + j + data.length
  · rw [if_pos (by omega), if_pos (by omega), if_pos hin, Nat.sub_sub]
  · rw [if_neg hin]
    split
    · rw [if_neg (by omega), if_pos (by omega)]
      congr 1
      omega
    · rfl

/-- Two writes to ranges that do not meet commute. -/
theorem splice_comm {bs : Bytes} {o₁ o₂ : ℕ} {d₁ d₂ : Bytes} (h₁ : o₁ + d₁.length ≤ bs.length)
    (h₂ : o₂ + d₂.length ≤ bs.length)
    (hdisj : o₁ + d₁.length ≤ o₂ ∨ o₂ + d₂.length ≤ o₁) :
    splice (splice bs o₁ d₁) o₂ d₂ = splice (splice bs o₂ d₂) o₁ d₁ := by
  ext1 i
  rw [getElem?_splice (by rw [length_splice h₁]; exact h₂), getElem?_splice h₁,
    getElem?_splice (by rw [length_splice h₂]; exact h₁), getElem?_splice h₂]
  split
  · rw [if_neg (by omega)]
  · rfl

end Bytes

/-! ### Values of a fixed width -/

/-- Values that are the same thing as a fixed number of bytes. -/
class Pod (α : Type) where
  size : ℕ
  encode : α → Bytes
  decode : Bytes → α
  length_encode : ∀ a, (encode a).length = size
  decode_encode : ∀ a, decode (encode a) = a
  encode_decode : ∀ bs, bs.length = size → encode (decode bs) = bs

attribute [simp] Pod.length_encode Pod.decode_encode

/-- The `w` little-endian bytes of a number; bits above `8 * w` are dropped. -/
def toLE : ℕ → ℕ → Bytes
  | 0, _ => []
  | w + 1, n => UInt8.ofNat n :: toLE w (n / 256)

/-- The number with the given little-endian bytes. -/
def ofLE : Bytes → ℕ
  | [] => 0
  | b :: bs => b.toNat + 256 * ofLE bs

@[simp]
theorem length_toLE (w n : ℕ) : (toLE w n).length = w := by
  induction w generalizing n with
  | zero => rfl
  | succ w ih => simp only [toLE, List.length_cons, ih]

theorem ofLE_toLE {w n : ℕ} (h : n < 256 ^ w) : ofLE (toLE w n) = n := by
  induction w generalizing n with
  | zero =>
    rw [Nat.pow_zero] at h
    simp only [toLE, ofLE]
    omega
  | succ w ih =>
    have hquot : n / 256 < 256 ^ w := by
      rw [Nat.div_lt_iff_lt_mul (by decide), ← Nat.pow_succ]
      exact h
    have hbyte : (UInt8.ofNat n).toNat = n % 256 := by simp
    rw [toLE, ofLE, ih hquot, hbyte]
    exact Nat.mod_add_div n 256

theorem ofLE_lt (bs : Bytes) : ofLE bs < 256 ^ bs.length := by
  induction bs with
  | nil => simp [ofLE]
  | cons b bs ih =>
    have hb : b.toNat < 256 := b.toNat_lt
    rw [ofLE, List.length_cons, Nat.pow_succ]
    omega

theorem toLE_ofLE (bs : Bytes) : toLE bs.length (ofLE bs) = bs := by
  induction bs with
  | nil => rfl
  | cons b bs ih =>
    have hb : b.toNat < 256 := b.toNat_lt
    have hquot : (b.toNat + 256 * ofLE bs) / 256 = ofLE bs := by omega
    have hbyte : UInt8.ofNat (b.toNat + 256 * ofLE bs) = b := by
      rw [← UInt8.toNat_inj, UInt8.toNat_ofNat']
      omega
    rw [ofLE, List.length_cons, toLE, hquot, hbyte, ih]

namespace Pod

/-- A `u64`, least significant byte first. -/
instance : Pod UInt64 where
  size := 8
  encode v := toLE 8 v.toNat
  decode bs := UInt64.ofNat (ofLE bs)
  length_encode v := length_toLE 8 v.toNat
  decode_encode v := by
    have hlt : v.toNat < 256 ^ 8 := v.toNat_lt
    rw [ofLE_toLE hlt, UInt64.ofNat_toNat]
  encode_decode bs h := by
    have hlt : ofLE bs < 2 ^ 64 := by
      have hle := ofLE_lt bs
      rwa [h, show (256 : ℕ) ^ 8 = 2 ^ 64 by norm_num] at hle
    rw [UInt64.toNat_ofNat_of_lt' hlt, ← h, toLE_ofLE]

/-- A `u128`, least significant byte first. -/
instance : Pod (BitVec 128) where
  size := 16
  encode v := toLE 16 v.toNat
  decode bs := BitVec.ofNat 128 (ofLE bs)
  length_encode v := length_toLE 16 v.toNat
  decode_encode v := by
    have hlt : v.toNat < 256 ^ 16 := v.isLt
    rw [ofLE_toLE hlt, BitVec.ofNat_toNat, BitVec.setWidth_eq]
  encode_decode bs h := by
    have hlt : ofLE bs < 2 ^ 128 := by
      have hle := ofLE_lt bs
      rwa [h, show (256 : ℕ) ^ 16 = 2 ^ 128 by norm_num] at hle
    rw [BitVec.toNat_ofNat, Nat.mod_eq_of_lt hlt, ← h, toLE_ofLE]

/-- An array of bytes. -/
instance (n : ℕ) : Pod (Vector UInt8 n) where
  size := n
  encode v := v.toList
  decode bs := Vector.ofFn fun i => bs.getD i 0
  length_encode v := by simp
  decode_encode v := by
    ext i hi
    simp [List.getD_eq_getElem?_getD]
  encode_decode bs h := by
    refine List.ext_getElem (by simp [h]) fun i hi hi' => ?_
    simp [List.getD_eq_getElem?_getD, hi']

/-- Two values one after the other. -/
instance {α β : Type} [Pod α] [Pod β] : Pod (α × β) where
  size := size α + size β
  encode ab := encode ab.1 ++ encode ab.2
  decode bs := (decode (bs.take (size α)), decode (bs.drop (size α)))
  length_encode ab := by simp
  decode_encode ab := by
    have hlen := length_encode ab.1
    rw [← hlen, List.take_left, List.drop_left, decode_encode, decode_encode]
  encode_decode bs h := by
    rw [encode_decode (bs.take (size α)) (by rw [List.length_take]; omega),
      encode_decode (bs.drop (size α)) (by rw [List.length_drop]; omega), List.take_append_drop]

/-- The image of a record is that of the tuple of its fields. -/
@[reducible]
def ofEquiv {α β : Type} [Pod α] (e : β ≃ α) : Pod β where
  size := size α
  encode b := encode (e b)
  decode bs := e.symm (decode bs)
  length_encode b := length_encode (e b)
  decode_encode b := by rw [decode_encode, e.symm_apply_apply]
  encode_decode bs h := by rw [e.apply_symm_apply, encode_decode bs h]

end Pod

namespace Bytes

variable {α β : Type} [Pod α] [Pod β]

/-- The value at an offset. -/
def readPod (α : Type) [Pod α] (bs : Bytes) (offset : ℕ) : α :=
  Pod.decode (slice bs offset (Pod.size α))

/-- The buffer with a value written at an offset. -/
def writePod (bs : Bytes) (offset : ℕ) (a : α) : Bytes :=
  splice bs offset (Pod.encode a)

/-- The `n` values one after the other from an offset on. -/
def readPods (α : Type) [Pod α] (bs : Bytes) (offset n : ℕ) : List α :=
  (List.range n).map fun i => readPod α bs (offset + i * Pod.size α)

/-- The buffer with values written one after the other from an offset on. -/
def writePods (bs : Bytes) (offset : ℕ) (as : List α) : Bytes :=
  splice bs offset (as.flatMap Pod.encode)

@[simp]
theorem length_flatMap_encode (as : List α) :
    (as.flatMap Pod.encode).length = as.length * Pod.size α := by
  induction as with
  | nil => simp
  | cons a as ih =>
    rw [List.flatMap_cons, List.length_append, ih, Pod.length_encode, List.length_cons]
    ring

@[simp]
theorem length_readPods (bs : Bytes) (offset n : ℕ) :
    (readPods α bs offset n).length = n := by
  simp [readPods]

theorem getElem?_readPods {bs : Bytes} {offset n i : ℕ} (h : i < n) :
    (readPods α bs offset n)[i]? = some (readPod α bs (offset + i * Pod.size α)) := by
  simp [readPods, h]

theorem readPods_succ (bs : Bytes) (offset n : ℕ) :
    readPods α bs offset (n + 1) =
      readPods α bs offset n ++ [readPod α bs (offset + n * Pod.size α)] := by
  rw [readPods, List.range_succ, List.map_append, List.map_singleton, readPods]

/-- A value just written reads back. -/
theorem readPod_writePod {bs : Bytes} {offset : ℕ} (a : α)
    (h : offset + Pod.size α ≤ bs.length) : readPod α (writePod bs offset a) offset = a := by
  have hself : slice (splice bs offset (Pod.encode a)) offset (Pod.encode a).length =
      Pod.encode a := slice_splice_self (by rwa [Pod.length_encode])
  rw [Pod.length_encode] at hself
  rw [readPod, writePod, hself, Pod.decode_encode]

/-- Writing the value read changes nothing. -/
theorem writePod_readPod {bs : Bytes} {offset : ℕ} (h : offset + Pod.size α ≤ bs.length) :
    writePod bs offset (readPod α bs offset) = bs := by
  rw [writePod, readPod, Pod.encode_decode _ (length_slice h), splice_slice h]

theorem length_writePod {bs : Bytes} {offset : ℕ} (a : α)
    (h : offset + Pod.size α ≤ bs.length) : (writePod bs offset a).length = bs.length :=
  length_splice (by rwa [Pod.length_encode])

theorem length_writePods {bs : Bytes} {offset : ℕ} (as : List α)
    (h : offset + as.length * Pod.size α ≤ bs.length) :
    (writePods bs offset as).length = bs.length :=
  length_splice (by rwa [length_flatMap_encode])

/-- A value outside the range written is unchanged. -/
theorem readPod_splice {bs : Bytes} {offset : ℕ} {data : Bytes}
    (h : offset + data.length ≤ bs.length) {j : ℕ}
    (hj : j + Pod.size α ≤ offset ∨ offset + data.length ≤ j) :
    readPod α (splice bs offset data) j = readPod α bs j := by
  rw [readPod, readPod, slice_splice_of_disjoint h hj]

/-- The `i`-th value of an array is in its place in the image of the array. -/
theorem slice_flatMap_encode (as : List α) (i : ℕ) (h : i < as.length) :
    slice (as.flatMap Pod.encode) (i * Pod.size α) (Pod.size α) = Pod.encode as[i] := by
  induction as generalizing i with
  | nil => simp at h
  | cons a as ih =>
    have hlen := Pod.length_encode a
    rw [List.flatMap_cons]
    cases i with
    | zero =>
      rw [Nat.zero_mul, slice, List.drop_zero, ← hlen, List.take_left, List.getElem_cons_zero]
    | succ i =>
      have hshift : (i + 1) * Pod.size α = (Pod.encode a).length + i * Pod.size α := by
        rw [hlen]
        ring
      rw [hshift, slice, ← List.drop_drop, List.drop_left]
      exact ih i (by simpa using h)

/-- An array just written reads back. -/
theorem readPods_writePods {bs : Bytes} {offset : ℕ} (as : List α)
    (h : offset + as.length * Pod.size α ≤ bs.length) :
    readPods α (writePods bs offset as) offset as.length = as := by
  have hfit : offset + (as.flatMap Pod.encode).length ≤ bs.length := by
    rwa [length_flatMap_encode]
  refine List.ext_getElem (by simp) fun i hi hi' => ?_
  have hinside : i * Pod.size α + Pod.size α ≤ (as.flatMap Pod.encode).length := by
    rw [length_flatMap_encode, ← Nat.succ_mul]
    exact Nat.mul_le_mul_right _ hi'
  simp only [readPods, List.getElem_map, List.getElem_range, readPod, writePods]
  rw [slice_splice_inside hfit hinside, slice_flatMap_encode as i hi', Pod.decode_encode]

/-- The image of an array read from a buffer is the range it was read from. -/
theorem flatMap_encode_readPods {bs : Bytes} {offset n : ℕ}
    (h : offset + n * Pod.size α ≤ bs.length) :
    (readPods α bs offset n).flatMap Pod.encode = slice bs offset (n * Pod.size α) := by
  induction n with
  | zero => simp [readPods]
  | succ n ih =>
    rw [Nat.succ_mul] at h
    rw [readPods_succ, List.flatMap_append, ih (by omega), Nat.succ_mul, slice_add,
      List.flatMap_singleton, readPod, Pod.encode_decode _ (length_slice (by omega))]

/-- Changing a value of an array changes its place in the image. -/
theorem flatMap_encode_set (as : List α) {i : ℕ} (h : i < as.length) (a : α) :
    (as.set i a).flatMap Pod.encode =
      splice (as.flatMap Pod.encode) (i * Pod.size α) (Pod.encode a) := by
  induction as generalizing i with
  | nil => exact absurd h (Nat.not_lt_zero i)
  | cons b as ih =>
    have hlen := Pod.length_encode b
    cases i with
    | zero =>
      rw [List.set_cons_zero, List.flatMap_cons, List.flatMap_cons, Nat.zero_mul, splice,
        Pod.length_encode, Nat.zero_add, ← hlen, List.drop_left]
      rfl
    | succ i =>
      have hshift : (i + 1) * Pod.size α = (Pod.encode b).length + i * Pod.size α := by
        rw [hlen]
        ring
      rw [List.set_cons_succ, List.flatMap_cons, List.flatMap_cons, ih (by simpa using h), hshift,
        splice, splice, List.take_length_add_append, Nat.add_assoc, List.drop_length_add_append]
      simp only [List.append_assoc]

/-- Writing an array back with one value changed is writing that value. -/
theorem writePods_set {bs : Bytes} {offset i : ℕ} {as : List α}
    (hread : readPods α bs offset as.length = as)
    (h : offset + as.length * Pod.size α ≤ bs.length) (hi : i < as.length) (a : α) :
    writePods bs offset (as.set i a) = writePod bs (offset + i * Pod.size α) a := by
  have himage : as.flatMap Pod.encode = slice bs offset (as.length * Pod.size α) := by
    conv_lhs => rw [← hread]
    exact flatMap_encode_readPods h
  have hinside : i * Pod.size α + Pod.size α ≤ as.length * Pod.size α := by
    rw [← Nat.succ_mul]
    exact Nat.mul_le_mul_right _ hi
  rw [writePods, flatMap_encode_set as hi, himage,
    splice_splice_slice h (by rwa [Pod.length_encode]), writePod]

/-- An array outside the range written is unchanged. -/
theorem readPods_splice {bs : Bytes} {offset : ℕ} {data : Bytes}
    (h : offset + data.length ≤ bs.length) {j n : ℕ}
    (hj : j + n * Pod.size α ≤ offset ∨ offset + data.length ≤ j) :
    readPods α (splice bs offset data) j n = readPods α bs j n := by
  refine List.map_congr_left fun i hi => ?_
  have hin : i * Pod.size α + Pod.size α ≤ n * Pod.size α := by
    rw [← Nat.succ_mul]
    exact Nat.mul_le_mul_right _ (List.mem_range.mp hi)
  exact readPod_splice h (by omega)

end Bytes

end KvRaft
