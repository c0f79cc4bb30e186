import KvRaft.Bytes.Slotted
import KvRaft.Effect.Result

/-!
# Pages and what can go wrong with them

The types every part of the store shares, and the access to the bytes of a page the way
the code does it: slicing and copying panic outside the page, casting a prefix of it to a
record returns an error.

`usize` and `u64` values read from a page are numbers (`UInt64.toNat`, on a 64-bit
target). Sums of such values are taken in `ℕ`; where an overflow would matter because no
bounds check follows, `usize` makes it the panic it is with overflow checks on.
-/

namespace KvRaft.Kv

open Bytes

abbrev PageId := UInt64
abbrev TransactionId := UInt64
abbrev Checksum := BitVec 128
abbrev Key := Bytes
abbrev Value := Bytes

/-- Transaction ids are ordered as numbers. -/
instance instLinearOrderTxId : LinearOrder UInt64 where
  le_refl := UInt64.le_refl
  le_trans _ _ _ := UInt64.le_trans
  le_antisymm _ _ := UInt64.le_antisymm
  le_total := UInt64.le_total
  lt_iff_le_not_ge a b := by
    rw [UInt64.lt_iff_toNat_lt, UInt64.le_iff_toNat_le, UInt64.le_iff_toNat_le]
    omega
  toDecidableLE := inferInstance
  toDecidableEq := inferInstance
  toDecidableLT := inferInstance

def headerPageId : PageId := 0
def initialRootPageId : PageId := 1
def minPageSize : ℕ := 4096

/-- What the build and the libraries fix: the hash of a page (XXH3, 128 bits) and whether
debug assertions are compiled in, and with them the checks of `u64` products. -/
structure Env where
  checksumPage : Bytes → Checksum
  debugAssertions : Bool

inductive IoErrorKind
  | unexpectedEof
  | invalidInput
  | other
  deriving DecidableEq, Repr

inductive Error
  | databaseError (msg : String)
  | ioError (kind : IoErrorKind)
  | zerocopyError (msg : String)
  | transactionFailed
  deriving DecidableEq, Repr

/-- How a call ends without a value. `outOfFuel` is no behaviour of the code: it stands for
a recursion that has not come to its end. -/
inductive Fault
  | error (e : Error)
  | panic
  | outOfFuel
  deriving DecidableEq, Repr

/-! ### Bytes of a page -/

/-- `assert!` -/
def assert (p : Prop) [Decidable p] : Except Fault Unit :=
  if p then .ok () else .error .panic

/-- `debug_assert!` -/
def debugAssert (env : Env) (p : Prop) [Decidable p] : Except Fault Unit :=
  if env.debugAssertions then assert p else .ok ()

/-- A `usize` result, with overflow checks. -/
def usize (n : ℕ) : Except Fault ℕ :=
  if n < 2 ^ 64 then .ok n else .error .panic

/-- `a * b` on `u64`, which wraps around without overflow checks. -/
def mulU64 (env : Env) (a b : ℕ) : Except Fault ℕ :=
  if a * b < 2 ^ 64 then .ok (a * b)
  else if env.debugAssertions then .error .panic else .ok (a * b % 2 ^ 64)

/-- `a - b` on `usize`. -/
def checkedSub (a b : ℕ) : Except Fault ℕ :=
  if b ≤ a then .ok (a - b) else .error .panic

/-- `vec![0; n]`: no allocation is larger than `isize::MAX` bytes. -/
def zeroed (n : ℕ) : Except Fault Bytes :=
  if n < 2 ^ 63 then .ok (List.replicate n 0) else .error .panic

/-- `page[offset..offset + n]` -/
def slicePage (page : Bytes) (offset n : ℕ) : Except Fault Bytes :=
  if offset + n ≤ page.length then .ok (slice page offset n) else .error .panic

def writeDataAtOffset (page data : Bytes) (offset : ℕ) : Except Fault Bytes :=
  if offset + data.length ≤ page.length then .ok (splice page offset data) else .error .panic

/-- `T::ref_from_prefix(page)?` -/
def refFromPrefix (α : Type) [Pod α] (page : Bytes) : Except Fault α :=
  if Pod.size α ≤ page.length then .ok (readPod α page 0)
  else .error (.error (.zerocopyError "Zerocopy conversion error"))

/-- `<[T]>::ref_from_prefix_with_elems(&page[offset..], n)?` -/
def refFromPrefixWithElems (α : Type) [Pod α] (page : Bytes) (offset n : ℕ) :
    Except Fault (List α) :=
  if offset + n * Pod.size α ≤ page.length then .ok (readPods α page offset n)
  else .error (.error (.zerocopyError "Zerocopy conversion error"))

/-- `a.write_to_prefix(&mut page[offset..]).unwrap()` -/
def writeToPrefix {α : Type} [Pod α] (page : Bytes) (offset : ℕ) (a : α) :
    Except Fault Bytes :=
  if offset + Pod.size α ≤ page.length then .ok (writePod page offset a) else .error .panic

/-- `xs[i] = a` -/
def setAt {α : Type} (xs : List α) (i : ℕ) (a : α) : Except Fault (List α) :=
  if i < xs.length then .ok (xs.set i a) else .error .panic

/-- `xs[i]` -/
def index {α : Type} (xs : List α) (i : ℕ) : Except Fault α :=
  match xs[i]? with
  | some a => .ok a
  | none => .error .panic

/-- `xs.copy_within(start..stop, dest)` -/
def copyWithin {α : Type} (xs : List α) (start stop dest : ℕ) : Except Fault (List α) :=
  if start ≤ stop ∧ stop ≤ xs.length ∧ dest + (stop - start) ≤ xs.length then
    .ok (xs.take dest ++ (xs.take stop).drop start ++ xs.drop (dest + (stop - start)))
  else .error .panic

section

variable {α : Type} {page : Bytes} {offset n : ℕ}

@[simp]
theorem assert_true {p : Prop} [Decidable p] (h : p) : assert p = .ok () := if_pos h

@[simp]
theorem debugAssert_true {env : Env} {p : Prop} [Decidable p] (h : p) :
    debugAssert env p = .ok () := by
  simp [debugAssert, assert_true h]

theorem zeroed_of_lt (h : n < 2 ^ 63) : zeroed n = .ok (List.replicate n 0) := if_pos h

theorem usize_of_lt (h : n < 2 ^ 64) : usize n = .ok n := if_pos h

theorem mulU64_of_lt {a b : ℕ} (env : Env) (h : a * b < 2 ^ 64) : mulU64 env a b = .ok (a * b) :=
  if_pos h

theorem checkedSub_of_le {a b : ℕ} (h : b ≤ a) : checkedSub a b = .ok (a - b) := if_pos h

theorem slicePage_of_le (h : offset + n ≤ page.length) :
    slicePage page offset n = .ok (slice page offset n) := if_pos h

theorem writeDataAtOffset_of_le {data : Bytes} (h : offset + data.length ≤ page.length) :
    writeDataAtOffset page data offset = .ok (splice page offset data) := if_pos h

theorem refFromPrefix_of_le [Pod α] (h : Pod.size α ≤ page.length) :
    refFromPrefix α page = .ok (readPod α page 0) := if_pos h

theorem refFromPrefixWithElems_of_le [Pod α] (h : offset + n * Pod.size α ≤ page.length) :
    refFromPrefixWithElems α page offset n = .ok (readPods α page offset n) := if_pos h

theorem writeToPrefix_of_le [Pod α] {a : α} (h : offset + Pod.size α ≤ page.length) :
    writeToPrefix page offset a = .ok (writePod page offset a) := if_pos h

theorem setAt_of_lt {xs : List α} {i : ℕ} {a : α} (h : i < xs.length) :
    setAt xs i a = .ok (xs.set i a) := if_pos h

theorem index_of_getElem? {xs : List α} {i : ℕ} {a : α} (h : xs[i]? = some a) :
    index xs i = .ok a := by
  rw [index, h]

/-- Shifting the tail of an array by one and writing the gap is an insertion. The last
element, `a`, is the one the shift overwrites. -/
theorem copyWithin_setAt {xs : List α} {a b : α} {i : ℕ} (hi : i ≤ xs.length) :
    (do setAt (← copyWithin (xs ++ [a]) i xs.length (i + 1)) i b) =
      .ok (xs.insertIdx i b) := by
  have hcopy : copyWithin (xs ++ [a]) i xs.length (i + 1) =
      .ok ((xs ++ [a]).take (i + 1) ++ xs.drop i) := by
    rw [copyWithin, if_pos ⟨hi, by simp, by simp; omega⟩]
    have hend : i + 1 + (xs.length - i) = (xs ++ [a]).length := by
      rw [List.length_append, List.length_singleton]
      omega
    rw [hend, List.drop_length, List.take_left, List.append_nil]
  have hlen : i < ((xs ++ [a]).take (i + 1) ++ xs.drop i).length := by
    simp only [List.length_append, List.length_take, List.length_drop, List.length_singleton]
    omega
  rw [hcopy]
  change setAt ((xs ++ [a]).take (i + 1) ++ xs.drop i) i b = _
  rw [setAt_of_lt hlen]
  congr 1
  -- place by place: in front of `i` nothing has moved, behind it everything by one
  refine List.ext_getElem? fun j => ?_
  have hfront : ((xs ++ [a]).take (i + 1)).length = i + 1 := by
    simp only [List.length_take, List.length_append, List.length_singleton]
    omega
  rw [List.getElem?_insertIdx, List.getElem?_set]
  rcases lt_trichotomy j i with hlt | rfl | hgt
  · rw [if_neg (by omega), if_pos hlt, List.getElem?_append_left (by omega),
      List.getElem?_take, if_pos (by omega), List.getElem?_append_left (by omega)]
  · rw [if_pos rfl, if_pos hlen, if_neg (lt_irrefl j), if_pos rfl, if_pos hi]
  · rw [if_neg (by omega), if_neg (by omega), if_neg (by omega),
      List.getElem?_append_right (by omega), hfront, List.getElem?_drop]
    congr 1
    omega

end

end KvRaft.Kv
