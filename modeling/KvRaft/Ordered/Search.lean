import Mathlib.Data.List.Basic
import Mathlib.Data.List.InsertIdx
import Mathlib.Logic.Function.Basic
import Mathlib.Order.Lattice

/-!
# Searching and updating sorted lists

The list of pairs of a leaf of a search tree, over any linear order of keys. A binary
search is described by what it returns on a sorted list, the position of the key or the
position where it belongs; `upsert` is the update of a sorted list it serves.

The meaning of a sorted list of pairs is a partial map, its `contents`. Three facts tie the
positions to the map: a search finds what the map holds (`contents_eq_of_binarySearch`),
`upsert` changes the map at its key only (`contents_upsert`), and cutting the list in two
cuts the map at the first key of the right part (`contents_append`).
-/

namespace KvRaft.Ordered

variable {α K V : Type} [LinearOrder K]

/-! ### Binary search -/

/-- The number of elements that satisfy `p`, where these come first. -/
def partitionPoint (p : α → Bool) (l : List α) : ℕ :=
  (l.takeWhile p).length

/-- Where a key is in a sorted list, or else where it belongs. -/
def binarySearch (k : K) (keys : List K) : Except ℕ ℕ :=
  let i := partitionPoint (· < k) keys
  if keys[i]? = some k then .ok i else .error i

theorem partitionPoint_cons (p : α → Bool) (a : α) (l : List α) :
    partitionPoint p (a :: l) = if p a then partitionPoint p l + 1 else 0 := by
  simp only [partitionPoint, List.takeWhile_cons]
  split <;> rfl

theorem partitionPoint_le (p : α → Bool) (l : List α) : partitionPoint p l ≤ l.length :=
  (List.takeWhile_prefix p).length_le

/-- Past a smaller key, the search goes on in the rest. -/
theorem binarySearch_cons_of_lt {k k' : K} (h : k' < k) (keys : List K) :
    binarySearch k (k' :: keys) =
      match binarySearch k keys with
      | .ok i => .ok (i + 1)
      | .error i => .error (i + 1) := by
  simp only [binarySearch, partitionPoint_cons, h, decide_true, if_true, List.getElem?_cons_succ]
  split <;> rfl

/-- In front of a greater key is where the key belongs. -/
theorem binarySearch_cons_of_gt {k k' : K} (h : k < k') (keys : List K) :
    binarySearch k (k' :: keys) = .error 0 := by
  have hlt : ¬ k' < k := not_lt_of_gt h
  have hne : k' ≠ k := ne_of_gt h
  simp [binarySearch, partitionPoint_cons, hlt, hne]

theorem binarySearch_cons_self (k : K) (keys : List K) :
    binarySearch k (k :: keys) = .ok 0 := by
  simp [binarySearch, partitionPoint_cons]

@[simp]
theorem binarySearch_nil (k : K) : binarySearch k [] = .error 0 := rfl

/-- What a search returns is a position in the list. -/
theorem binarySearch_bound (k : K) (keys : List K) :
    match binarySearch k keys with
    | .ok i => keys[i]? = some k
    | .error i => i ≤ keys.length := by
  simp only [binarySearch]
  split
  · rename_i i h
    split at h <;> simp_all
  · rename_i i h
    split at h
    · cases h
    · injection h with h
      rw [← h]
      exact partitionPoint_le _ _

/-! ### The map of a sorted list -/

/-- Pairs in strictly increasing order of their keys. -/
def Sorted (l : List (K × V)) : Prop :=
  l.Pairwise fun a b => a.1 < b.1

/-- The map of a list of pairs. -/
def contents (l : List (K × V)) (k : K) : Option V :=
  l.lookup k

@[simp] theorem contents_nil (k : K) : contents ([] : List (K × V)) k = none := rfl

@[simp] theorem sorted_nil : Sorted ([] : List (K × V)) := List.Pairwise.nil

theorem sorted_cons {a : K × V} {l : List (K × V)} :
    Sorted (a :: l) ↔ (∀ b ∈ l, a.1 < b.1) ∧ Sorted l :=
  List.pairwise_cons

/-- The map that is `f` below `k` and `g` from `k` on. -/
def glue (k : K) (f g : K → V) : K → V :=
  fun x => if x < k then f x else g x

theorem glue_of_lt {k x : K} (h : x < k) (f g : K → V) : glue k f g x = f x := if_pos h

theorem glue_of_le {k x : K} (h : k ≤ x) (f g : K → V) : glue k f g x = g x :=
  if_neg (not_lt_of_ge h)

/-- Three maps cut at two points in increasing order. -/
theorem glue_assoc {k₁ k₂ : K} (h : k₁ < k₂) (f g e : K → V) :
    glue k₂ (glue k₁ f g) e = glue k₁ f (glue k₂ g e) := by
  funext x
  simp only [glue]
  by_cases h₁ : x < k₁
  · simp [h₁, h₁.trans h]
  · simp [h₁]

/-- The map with the value of `k` set. -/
def assign (f : K → Option V) (k : K) (v : V) : K → Option V :=
  Function.update f k (some v)

@[simp]
theorem assign_self (f : K → Option V) (k : K) (v : V) : assign f k v k = some v :=
  Function.update_self ..

theorem assign_of_ne {k x : K} (h : x ≠ k) (f : K → Option V) (v : V) :
    assign f k v x = f x :=
  Function.update_of_ne h ..

theorem assign_glue_of_lt {k x : K} (h : x < k) (f g : K → Option V) (v : V) :
    assign (glue k f g) x v = glue k (assign f x v) g := by
  funext y
  by_cases hy : y = x
  · subst hy
    simp [glue, h]
  · simp [glue, assign_of_ne hy]

theorem assign_glue_of_le {k x : K} (h : k ≤ x) (f g : K → Option V) (v : V) :
    assign (glue k f g) x v = glue k f (assign g x v) := by
  funext y
  by_cases hy : y = x
  · subst hy
    simp [glue, not_lt_of_ge h]
  · simp [glue, assign_of_ne hy]

theorem contents_cons_self (k : K) (v : V) (l : List (K × V)) :
    contents ((k, v) :: l) k = some v := by
  simp [contents]

theorem contents_cons_of_ne {k x : K} (h : x ≠ k) (v : V) (l : List (K × V)) :
    contents ((k, v) :: l) x = contents l x := by
  have hne : (x == k) = false := by simpa using h
  rw [contents, List.lookup_cons, hne]
  rfl

/-- The map is defined at the keys of the list only. -/
theorem contents_eq_none_of_notMem {l : List (K × V)} {k : K} (h : k ∉ l.map Prod.fst) :
    contents l k = none := by
  rw [contents, List.lookup_eq_none_iff]
  intro a ha
  have hne : k ≠ a.1 := fun heq => h (heq ▸ List.mem_map_of_mem ha)
  simpa using hne

/-- The map of a list whose keys are distinct holds every pair. -/
theorem contents_of_mem_of_nodup {l : List (K × V)} (hl : (l.map Prod.fst).Nodup) {a : K × V}
    (ha : a ∈ l) : contents l a.1 = some a.2 := by
  induction l with
  | nil => exact absurd ha List.not_mem_nil
  | cons b l ih =>
    obtain ⟨hnotMem, hnodup⟩ := List.nodup_cons.mp hl
    rcases List.mem_cons.mp ha with rfl | ha
    · exact contents_cons_self _ _ _
    · have hne : a.1 ≠ b.1 := fun heq => hnotMem (heq ▸ List.mem_map_of_mem ha)
      rw [contents_cons_of_ne hne, ih hnodup ha]

/-- The keys of a sorted list are distinct. -/
theorem Sorted.nodup_keys {l : List (K × V)} (hl : Sorted l) : (l.map Prod.fst).Nodup :=
  (List.pairwise_map.mpr hl).imp ne_of_lt

theorem mem_of_contents {l : List (K × V)} {k : K} {v : V} (h : contents l k = some v) :
    (k, v) ∈ l := by
  induction l with
  | nil => exact absurd h (by simp)
  | cons a l ih =>
    obtain ⟨a, w⟩ := a
    by_cases hk : k = a
    · subst hk
      rw [contents_cons_self, Option.some.injEq] at h
      subst h
      exact List.mem_cons_self
    · rw [contents_cons_of_ne hk] at h
      exact List.mem_cons_of_mem _ (ih h)

/-- The order of the pairs does not matter where the keys are distinct. -/
theorem contents_perm {l l' : List (K × V)} (hl : (l.map Prod.fst).Nodup) (h : l'.Perm l) (k : K) :
    contents l' k = contents l k := by
  have hl' : (l'.map Prod.fst).Nodup := (h.map Prod.fst).nodup_iff.mpr hl
  cases hk : contents l k with
  | some v => exact contents_of_mem_of_nodup hl' (h.mem_iff.mpr (mem_of_contents hk))
  | none =>
    by_contra hne
    obtain ⟨v, hv⟩ := Option.ne_none_iff_exists'.mp hne
    have hmem := contents_of_mem_of_nodup hl (h.mem_iff.mp (mem_of_contents hv))
    rw [hk] at hmem
    exact absurd hmem (by simp)

/-- Pairs of other keys do not matter. -/
theorem contents_filter {l : List (K × V)} {p : K × V → Bool} {k : K}
    (h : ∀ a : K × V, a.1 = k → p a = true) : contents (l.filter p) k = contents l k := by
  induction l with
  | nil => rfl
  | cons a l ih =>
    obtain ⟨a, w⟩ := a
    by_cases hk : k = a
    · subst hk
      rw [List.filter_cons_of_pos (h _ rfl), contents_cons_self, contents_cons_self]
    · rw [contents_cons_of_ne hk, List.filter_cons]
      split
      · rw [contents_cons_of_ne hk, ih]
      · exact ih

/-- The first key of a sorted list is where the map begins. -/
theorem contents_eq_none_of_lt {l : List (K × V)} {k : K} (h : ∀ a ∈ l, k < a.1) :
    contents l k = none := by
  rw [contents, List.lookup_eq_none_iff]
  intro a ha
  simpa using (h a ha).ne

/-- A search finds the value the map holds. -/
theorem contents_eq_of_binarySearch {l : List (K × V)} (hl : Sorted l) (k : K) :
    contents l k =
      match binarySearch k (l.map Prod.fst) with
      | .ok i => (l[i]?).map Prod.snd
      | .error _ => none := by
  induction l with
  | nil => rfl
  | cons a l ih =>
    obtain ⟨a, v⟩ := a
    obtain ⟨hhead, htail⟩ := sorted_cons.mp hl
    rw [List.map_cons, contents, List.lookup_cons]
    rcases lt_trichotomy a k with hlt | heq | hgt
    · have hne : (k == a) = false := by simpa using hlt.ne'
      rw [binarySearch_cons_of_lt hlt, hne]
      change contents l k = _
      rw [ih htail]
      rcases binarySearch k (l.map Prod.fst) with i | i <;> rfl
    · subst heq
      rw [binarySearch_cons_self]
      simp
    · have hne : (k == a) = false := by simpa using hgt.ne
      rw [binarySearch_cons_of_gt hgt, hne]
      exact contents_eq_none_of_lt fun b hb => hgt.trans (hhead b hb)

/-- The list with the value of `k` set, at its place in the order. -/
def upsert (k : K) (v : V) (l : List (K × V)) : List (K × V) :=
  match binarySearch k (l.map Prod.fst) with
  | .ok i => l.set i (k, v)
  | .error i => l.insertIdx i (k, v)

theorem upsert_cons (k : K) (v : V) (a : K × V) (l : List (K × V)) :
    upsert k v (a :: l) =
      if a.1 < k then a :: upsert k v l
      else if a.1 = k then (k, v) :: l
      else (k, v) :: a :: l := by
  rcases lt_trichotomy a.1 k with hlt | heq | hgt
  · rw [if_pos hlt]
    simp only [upsert, List.map_cons, binarySearch_cons_of_lt hlt]
    rcases binarySearch k (l.map Prod.fst) with i | i <;> rfl
  · rw [if_neg heq.not_lt, if_pos heq]
    simp only [upsert, List.map_cons, heq, binarySearch_cons_self]
    rfl
  · rw [if_neg (not_lt_of_gt hgt), if_neg hgt.ne']
    simp only [upsert, List.map_cons, binarySearch_cons_of_gt hgt]
    rfl

/-- Keys of the updated list are old keys or the new one. -/
theorem mem_upsert {k : K} {v : V} {l : List (K × V)} {a : K × V} (h : a ∈ upsert k v l) :
    a = (k, v) ∨ a ∈ l := by
  simp only [upsert] at h
  rcases hsearch : binarySearch k (l.map Prod.fst) with i | i
  · rw [hsearch] at h
    exact List.mem_cons.mp (List.insertIdx_subset_cons _ _ _ h)
  · rw [hsearch] at h
    exact (List.mem_or_eq_of_mem_set h).symm

theorem upsert_ne_nil (k : K) (v : V) (l : List (K × V)) : upsert k v l ≠ [] := by
  cases l with
  | nil => exact List.cons_ne_nil _ _
  | cons a l =>
    rw [upsert_cons]
    split
    · exact List.cons_ne_nil _ _
    · split <;> exact List.cons_ne_nil _ _

theorem sorted_upsert {l : List (K × V)} (hl : Sorted l) (k : K) (v : V) :
    Sorted (upsert k v l) := by
  induction l with
  | nil => exact List.pairwise_singleton _ _
  | cons a l ih =>
    obtain ⟨hhead, htail⟩ := sorted_cons.mp hl
    rw [upsert_cons]
    split
    · rename_i hlt
      refine sorted_cons.mpr ⟨fun b hb => ?_, ih htail⟩
      rcases mem_upsert hb with rfl | hb
      · exact hlt
      · exact hhead b hb
    · rename_i hge
      split
      · rename_i heq
        subst heq
        exact sorted_cons.mpr ⟨hhead, htail⟩
      · rename_i hne
        have hgt : k < a.1 := lt_of_le_of_ne (not_lt.mp hge) (Ne.symm hne)
        refine sorted_cons.mpr ⟨fun b hb => ?_, hl⟩
        rcases List.mem_cons.mp hb with rfl | hb
        · exact hgt
        · exact hgt.trans (hhead b hb)

/-- The map changes at the key and nowhere else. -/
theorem contents_upsert {l : List (K × V)} (hl : Sorted l) (k : K) (v : V) :
    contents (upsert k v l) = assign (contents l) k v := by
  funext x
  induction l with
  | nil =>
    by_cases hx : x = k
    · subst hx
      simp [contents, upsert]
    · simp [contents, upsert, hx, assign_of_ne hx]
  | cons a l ih =>
    obtain ⟨a, w⟩ := a
    obtain ⟨hhead, htail⟩ := sorted_cons.mp hl
    by_cases hx : x = k
    · subst hx
      rw [upsert_cons, assign_self]
      split
      · rename_i hlt
        have hne : (x == a) = false := by simpa using (ne_of_gt hlt)
        have hrest := ih htail
        rw [assign_self] at hrest
        rw [contents, List.lookup_cons, hne]
        exact hrest
      · split <;> simp [contents]
    · rw [upsert_cons, assign_of_ne hx]
      have hrest := ih htail
      rw [assign_of_ne hx] at hrest
      have hxk : (x == k) = false := by simpa using hx
      split
      · rw [contents, contents, List.lookup_cons, List.lookup_cons]
        split
        · rfl
        · exact hrest
      · split
        · rename_i heq
          dsimp only at heq
          subst heq
          rw [contents, contents, List.lookup_cons, List.lookup_cons, hxk]
        · rw [contents, List.lookup_cons, hxk]
          rfl

/-- Setting the value of a key that is there replaces its pair. -/
theorem upsert_of_contents {l : List (K × V)} (hl : Sorted l) {k : K} {old : V}
    (h : contents l k = some old) (v : V) :
    ∃ before after, l = before ++ (k, old) :: after ∧
      upsert k v l = before ++ (k, v) :: after := by
  induction l with
  | nil => exact absurd h (by simp)
  | cons a l ih =>
    obtain ⟨a, w⟩ := a
    obtain ⟨hhead, htail⟩ := sorted_cons.mp hl
    by_cases hk : k = a
    · subst hk
      rw [contents_cons_self, Option.some.injEq] at h
      subst h
      refine ⟨[], l, rfl, ?_⟩
      rw [upsert_cons, if_neg (lt_irrefl _), if_pos rfl]
      rfl
    · rw [contents_cons_of_ne hk] at h
      -- the key comes later, so it is greater
      have hlt : a < k := hhead _ (mem_of_contents h)
      obtain ⟨before, after, rfl, hupsert⟩ := ih htail h
      refine ⟨(a, w) :: before, after, rfl, ?_⟩
      rw [upsert_cons, if_pos hlt, hupsert]
      rfl

/-- Cutting a sorted list cuts its map at the first key of the right part. -/
theorem contents_append {l r : List (K × V)} {a : K × V} (h : Sorted (l ++ a :: r)) :
    contents (l ++ a :: r) = glue a.1 (contents l) (contents (a :: r)) := by
  obtain ⟨-, hr, hlr⟩ := List.pairwise_append.mp h
  funext x
  rw [contents, List.lookup_append]
  by_cases hx : x < a.1
  · have hnone : contents (a :: r) x = none := by
      refine contents_eq_none_of_lt fun b hb => ?_
      rcases List.mem_cons.mp hb with rfl | hb
      · exact hx
      · exact hx.trans ((List.pairwise_cons.mp hr).1 b hb)
    rw [glue_of_lt hx]
    rw [contents] at hnone
    rw [hnone, Option.or_none]
    rfl
  · have hnone : contents l x = none := by
      rw [contents, List.lookup_eq_none_iff]
      intro b hb
      have hlt : b.1 < x := (hlr b hb a (List.mem_cons_self ..)).trans_le (not_lt.mp hx)
      simpa using hlt.ne'
    rw [glue_of_le (not_lt.mp hx)]
    rw [contents] at hnone
    rw [hnone, Option.none_or]
    rfl

end KvRaft.Ordered
