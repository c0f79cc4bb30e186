import Mathlib.Data.Multiset.Sort
import Mathlib.Order.Lattice

/-!
# Order statistics of a multiset

The `k`-th largest element of a finite multiset, and the one law a counting argument needs:
an element lies at or below it exactly when more than `k` elements lie at or above the
element (`le_kthLargest_iff`). A search that counts for one threshold after the other, from
the greatest down, therefore stops at an order statistic (`find_eq_of_greatest`).
-/

namespace KvRaft.Ordered

variable {α : Type} [LinearOrder α]

/-- The element at place `k` when the elements are written from the greatest to the least,
repeated ones as often as they occur. Place `0` is the greatest. -/
def kthLargest (s : Multiset α) (k : ℕ) : Option α :=
  (s.sort (· ≥ ·))[k]?

/-- Below a small head everything is small. -/
theorem countP_eq_zero_of_head_lt {l : List α} {a x : α} (hl : (a :: l).Pairwise (· ≥ ·))
    (hx : ¬ x ≤ a) : (a :: l).countP (fun b => decide (x ≤ b)) = 0 := by
  rw [List.countP_eq_zero]
  intro b hb
  rw [decide_eq_true_eq]
  rcases List.mem_cons.mp hb with rfl | hb
  · exact hx
  · have hab : b ≤ a := (List.pairwise_cons.mp hl).1 b hb
    exact fun hxb => hx (hxb.trans hab)

/-- In a list written from the greatest down, the elements at or above a threshold are the
first ones, so their number tells where they end. -/
theorem le_iff_lt_countP {l : List α} (hl : l.Pairwise (· ≥ ·)) {k : ℕ} {y : α}
    (hy : l[k]? = some y) (x : α) :
    x ≤ y ↔ k < l.countP (fun b => decide (x ≤ b)) := by
  induction l generalizing k with
  | nil => exact absurd hy (by simp)
  | cons a l ih =>
    have htail := (List.pairwise_cons.mp hl).2
    have hya : y ≤ a := by
      rcases List.mem_cons.mp (List.mem_of_getElem? hy) with rfl | hmem
      · exact le_rfl
      · exact (List.pairwise_cons.mp hl).1 y hmem
    by_cases hx : x ≤ a
    · rw [List.countP_cons_of_pos (by simpa using hx)]
      cases k with
      | zero =>
        obtain rfl : a = y := Option.some.inj hy
        exact ⟨fun _ => Nat.succ_pos _, fun _ => hx⟩
      | succ k => exact (ih htail hy).trans (Nat.add_lt_add_iff_right).symm
    · -- the head is already too small, hence so is everything
      rw [countP_eq_zero_of_head_lt hl hx]
      exact ⟨fun hxy => absurd (hxy.trans hya) hx, fun hk => absurd hk (Nat.not_lt_zero k)⟩

theorem exists_kthLargest {s : Multiset α} {k : ℕ} (hk : k < s.card) :
    ∃ y ∈ s, kthLargest s k = some y := by
  have hlen : k < (s.sort (· ≥ ·)).length := by rwa [Multiset.length_sort]
  exact ⟨_, (Multiset.mem_sort _).mp (List.getElem_mem hlen), List.getElem?_eq_getElem hlen⟩

/-- **The threshold law**: at or below the `k`-th largest are the values that more than `k`
elements reach. -/
theorem le_kthLargest_iff {s : Multiset α} {k : ℕ} {y : α} (hy : kthLargest s k = some y)
    (x : α) : x ≤ y ↔ k < s.countP (x ≤ ·) := by
  have hcount : s.countP (x ≤ ·) = (s.sort (· ≥ ·)).countP (fun b => decide (x ≤ b)) := by
    conv_lhs => rw [← Multiset.sort_eq s (· ≥ ·)]
    exact Multiset.coe_countP _ _
  rw [hcount]
  exact le_iff_lt_countP (Multiset.pairwise_sort s (· ≥ ·)) hy x

/-- A search from the greatest element down finds the greatest of those it looks for. -/
theorem find_eq_of_greatest {l : List α} (hl : l.Pairwise (· > ·)) {p : α → Bool} {q : α}
    (hmem : q ∈ l) (hq : p q = true) (hmax : ∀ k ∈ l, p k = true → k ≤ q) :
    l.find? p = some q := by
  induction l with
  | nil => exact absurd hmem (by simp)
  | cons a l ih =>
    obtain ⟨hhead, htail⟩ := List.pairwise_cons.mp hl
    rcases List.mem_cons.mp hmem with rfl | hmem
    · exact List.find?_cons_of_pos hq
    · -- the head is greater than `q`, so it is not among those looked for
      have ha : ¬ p a = true := fun ha =>
        absurd (hmax a (by simp) ha) (not_le_of_gt (hhead q hmem))
      rw [List.find?_cons_of_neg ha]
      exact ih htail hmem fun k hk => hmax k (List.mem_cons_of_mem _ hk)

end KvRaft.Ordered
