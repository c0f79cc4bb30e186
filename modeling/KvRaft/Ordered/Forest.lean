import KvRaft.Ordered.Search
import Mathlib.Order.WithBot

/-!
# The children of a branch of a search tree

A branch of a search tree is a list of children with separators between them: every child
but the first carries the key from which on it is responsible, up to the key of the next
child. `Forest T lo hi cells m ps` says that the children satisfy `T` on the intervals the
separators cut `[lo, hi)` into, that together they hold the map `m`, and that together they
are made of the pages `ps`. What a child is does not matter: `T` is any predicate on an
interval, a child, a map and a list of pages. The key of the first cell is ignored.

* `Forest.route` finds the child responsible for a key and says what replacing it, by one
  child or by two, does to the whole.
* `Forest.split` cuts the list of children in two.
-/

namespace KvRaft.Ordered

variable {K V C P : Type} [LinearOrder K]

/-- A property of what is responsible for an interval: the child, its map and its pages. -/
abbrev Subtree (K V C P : Type) : Type :=
  WithBot K → WithTop K → C → (K → Option V) → List P → Prop

/-- The children of a branch, each responsible from its key up to the next one. -/
def Forest (T : Subtree K V C P) :
    WithBot K → WithTop K → List (K × C) → (K → Option V) → List P → Prop
  | _, _, [], _, _ => False
  | lo, hi, [a], m, ps => T lo hi a.2 m ps
  | lo, hi, a :: b :: rest, m, ps =>
    ∃ m₁ m₂ ps₁ ps₂, T lo b.1 a.2 m₁ ps₁ ∧ lo < b.1 ∧ (b.1 : WithTop K) < hi ∧
      Forest T b.1 hi (b :: rest) m₂ ps₂ ∧ m = glue b.1 m₁ m₂ ∧ ps = ps₁ ++ ps₂

/-- The position of the child responsible for a key. -/
def childIndex (k : K) (cells : List (K × C)) : ℕ :=
  partitionPoint (fun a => a.1 ≤ k) cells.tail

/-- The list with the child at a position replaced. -/
def setChild (cells : List (K × C)) (i : ℕ) (c : C) : List (K × C) :=
  cells.modify i fun a => (a.1, c)

variable {T T' : Subtree K V C P} {lo : WithBot K} {hi : WithTop K}
  {cells : List (K × C)} {m : K → Option V} {ps : List P}

theorem Forest.ne_nil (h : Forest T lo hi cells m ps) : cells ≠ [] := by
  rintro rfl
  exact h

/-- Children that stay as they are on their own pages. -/
theorem Forest.mono (h : Forest T lo hi cells m ps)
    (hT : ∀ lo hi c m qs, qs ⊆ ps → T lo hi c m qs → T' lo hi c m qs) :
    Forest T' lo hi cells m ps := by
  induction cells generalizing lo m ps with
  | nil => exact h
  | cons a rest ih =>
    cases rest with
    | nil => exact hT _ _ _ _ _ (List.Subset.refl ps) h
    | cons b rest =>
      obtain ⟨m₁, m₂, ps₁, ps₂, h₁, hlo, hhi, h₂, hm, rfl⟩ := h
      refine ⟨m₁, m₂, ps₁, ps₂, ?_, hlo, hhi, ?_, hm, rfl⟩
      · exact hT _ _ _ _ _ (List.subset_append_left ps₁ ps₂) h₁
      · exact ih h₂ fun lo hi c m qs hqs =>
          hT lo hi c m qs (List.Subset.trans hqs (List.subset_append_right ps₁ ps₂))

/-- The first key is ignored. -/
theorem Forest.head_congr {k k' : K} {c : C} {rest : List (K × C)}
    (h : Forest T lo hi ((k, c) :: rest) m ps) : Forest T lo hi ((k', c) :: rest) m ps := by
  cases rest with
  | nil => exact h
  | cons b rest => exact h

/-- Every child satisfies the predicate on some of the pages. -/
theorem Forest.child (h : Forest T lo hi cells m ps) {a : K × C} (ha : a ∈ cells) :
    ∃ lo' hi' m' qs, T lo' hi' a.2 m' qs ∧ qs.Sublist ps := by
  induction cells generalizing lo m ps with
  | nil => exact absurd ha List.not_mem_nil
  | cons b rest ih =>
    cases rest with
    | nil =>
      rw [List.mem_singleton] at ha
      subst ha
      exact ⟨lo, hi, m, ps, h, List.Sublist.refl ps⟩
    | cons b' rest =>
      obtain ⟨m₁, m₂, ps₁, ps₂, h₁, -, -, h₂, -, rfl⟩ := h
      rcases List.mem_cons.mp ha with rfl | ha
      · exact ⟨lo, b'.1, m₁, ps₁, h₁, List.sublist_append_left ps₁ ps₂⟩
      · obtain ⟨lo', hi', m', qs, hT, hqs⟩ := ih h₂ ha
        exact ⟨lo', hi', m', qs, hT, hqs.trans (List.sublist_append_right ps₁ ps₂)⟩

/-- Every page belongs to a child. -/
theorem Forest.page (h : Forest T lo hi cells m ps) {p : P} (hp : p ∈ ps) :
    ∃ a ∈ cells, ∃ lo' hi' m' qs, T lo' hi' a.2 m' qs ∧ qs.Sublist ps ∧ p ∈ qs := by
  induction cells generalizing lo m ps with
  | nil => exact h.elim
  | cons a rest ih =>
    cases rest with
    | nil => exact ⟨a, List.mem_singleton_self a, lo, hi, m, ps, h, List.Sublist.refl ps, hp⟩
    | cons b rest =>
      obtain ⟨m₁, m₂, ps₁, ps₂, h₁, -, -, h₂, -, rfl⟩ := h
      rcases List.mem_append.mp hp with hp | hp
      · exact ⟨a, List.mem_cons_self, lo, b.1, m₁, ps₁, h₁, List.sublist_append_left ps₁ ps₂, hp⟩
      · obtain ⟨a', ha', lo', hi', m', qs, hT, hqs, hmem⟩ := ih h₂ hp
        exact ⟨a', List.mem_cons_of_mem a ha', lo', hi', m', qs, hT,
          hqs.trans (List.sublist_append_right ps₁ ps₂), hmem⟩

/-- Where a key is routed to, and what becomes of the forest when that child is replaced
by one child, or by two with a separator between them, that hold its map with the value
of the key set. -/
structure Focus (T : Subtree K V C P) (lo : WithBot K) (hi : WithTop K)
    (cells : List (K × C)) (m : K → Option V) (ps : List P) (k : K)
    (lo' : WithBot K) (hi' : WithTop K) (c : C) (m' : K → Option V)
    (before own after : List P) : Prop where
  child : (cells[childIndex k cells]?).map Prod.snd = some c
  tree : T lo' hi' c m' own
  inside : lo ≤ lo'
  le : lo' ≤ k
  lt : (k : WithTop K) < hi'
  pages : ps = before ++ own ++ after
  lookup : m k = m' k
  /-- A separator inside the interval of the child belongs right after it. -/
  place : ∀ sep : K, lo' < sep → (sep : WithTop K) < hi' →
    ∀ c₁, binarySearch sep ((setChild cells (childIndex k cells) c₁).tail.map Prod.fst) =
      .error (childIndex k cells)
  replace : ∀ (T' : Subtree K V C P),
    (∀ lo hi c m qs, qs ⊆ before ++ after → T lo hi c m qs → T' lo hi c m qs) →
    ∀ (v : V) c₁ qs, T' lo' hi' c₁ (assign m' k v) qs →
      Forest T' lo hi (setChild cells (childIndex k cells) c₁)
        (assign m k v) (before ++ qs ++ after)
  divide : ∀ (T' : Subtree K V C P),
    (∀ lo hi c m qs, qs ⊆ before ++ after → T lo hi c m qs → T' lo hi c m qs) →
    ∀ (v : V) (sep : K) c₁ c₂ m₁ m₂ qs₁ qs₂,
      T' lo' sep c₁ m₁ qs₁ → T' sep hi' c₂ m₂ qs₂ → lo' < sep → (sep : WithTop K) < hi' →
      glue sep m₁ m₂ = assign m' k v →
      Forest T' lo hi
        ((setChild cells (childIndex k cells) c₁).insertIdx (childIndex k cells + 1) (sep, c₂))
        (assign m k v) (before ++ (qs₁ ++ qs₂) ++ after)

omit [LinearOrder K] in
@[simp]
theorem setChild_zero (a : K × C) (rest : List (K × C)) (c : C) :
    setChild (a :: rest) 0 c = (a.1, c) :: rest := rfl

omit [LinearOrder K] in
@[simp]
theorem setChild_succ (a : K × C) (rest : List (K × C)) (i : ℕ) (c : C) :
    setChild (a :: rest) (i + 1) c = a :: setChild rest i c := rfl

omit [LinearOrder K] in
theorem setChild_cons_fst (b : K × C) (rest : List (K × C)) (i : ℕ) (c : C) :
    ∃ c' rest', setChild (b :: rest) i c = (b.1, c') :: rest' := by
  cases i with
  | zero => exact ⟨c, rest, rfl⟩
  | succ i => exact ⟨b.2, setChild rest i c, rfl⟩

omit [LinearOrder K] in
/-- Replacing a child leaves the keys. -/
theorem map_fst_setChild (cells : List (K × C)) (i : ℕ) (c : C) :
    (setChild cells i c).map Prod.fst = cells.map Prod.fst := by
  induction cells generalizing i with
  | nil => rw [setChild, List.modify_nil]
  | cons b rest ih =>
    cases i with
    | zero => rfl
    | succ i => rw [setChild_succ, List.map_cons, List.map_cons, ih]

theorem childIndex_cons_cons_of_lt {k : K} {a b : K × C} {rest : List (K × C)}
    (h : k < b.1) : childIndex k (a :: b :: rest) = 0 := by
  simp [childIndex, partitionPoint_cons, not_le_of_gt h]

theorem childIndex_cons_cons_of_le {k : K} {a b : K × C} {rest : List (K × C)}
    (h : b.1 ≤ k) : childIndex k (a :: b :: rest) = childIndex k (b :: rest) + 1 := by
  simp [childIndex, partitionPoint_cons, h]

/-- **Routing.** A key of the interval belongs to exactly the child at `childIndex`. -/
theorem Forest.route (h : Forest T lo hi cells m ps) {k : K} (hlo : lo ≤ k)
    (hhi : (k : WithTop K) < hi) :
    ∃ lo' hi' c m' before own after, Focus T lo hi cells m ps k lo' hi' c m' before own after := by
  -- on the list of children: the key belongs to the first one or to the forest behind it
  induction cells generalizing lo m ps with
  | nil => exact h.elim
  | cons a rest ih =>
    cases rest with
    | nil =>
      refine ⟨lo, hi, a.2, m, [], ps, [], ?_⟩
      have hindex : childIndex k [a] = 0 := rfl
      exact {
        child := rfl
        tree := h
        inside := le_rfl
        le := hlo
        lt := hhi
        pages := by simp
        lookup := rfl
        place := fun sep _ _ c₁ => rfl
        replace := fun T' _ v c₁ qs hT' => by simpa [hindex, Forest] using hT'
        divide := fun T' _ v sep c₁ c₂ m₁ m₂ qs₁ qs₂ h₁ h₂ hlow hhigh hglue => by
          refine ⟨m₁, m₂, qs₁, qs₂, h₁, hlow, hhigh, h₂, hglue.symm, by simp⟩ }
    | cons b rest =>
      obtain ⟨m₁, m₂, ps₁, ps₂, h₁, hlob, hbhi, h₂, rfl, rfl⟩ := h
      rcases lt_or_ge k b.1 with hkb | hbk
      · -- the first child: the rest of the forest is carried along
        have hindex : childIndex k (a :: b :: rest) = 0 := childIndex_cons_cons_of_lt hkb
        refine ⟨lo, b.1, a.2, m₁, [], ps₁, ps₂, ?_⟩
        have hrest : ∀ T' : Subtree K V C P,
            (∀ lo hi c m qs, qs ⊆ [] ++ ps₂ → T lo hi c m qs → T' lo hi c m qs) →
            Forest T' b.1 hi (b :: rest) m₂ ps₂ := fun T' hT' => h₂.mono hT'
        exact {
          child := by rw [hindex]; rfl
          tree := h₁
          inside := le_rfl
          le := hlo
          lt := WithTop.coe_lt_coe.mpr hkb
          pages := by simp
          lookup := glue_of_lt hkb _ _
          place := fun sep _ hsep c₁ => by
            rw [hindex]
            exact binarySearch_cons_of_gt (WithTop.coe_lt_coe.mp hsep) _
          replace := fun T' hT' v c₁ qs hc => by
            rw [hindex, assign_glue_of_lt hkb]
            exact ⟨_, m₂, qs, ps₂, hc, hlob, hbhi, hrest T' hT', rfl, by simp⟩
          divide := fun T' hT' v sep c₁ c₂ n₁ n₂ qs₁ qs₂ hc₁ hc₂ hlow hhigh hglue => by
            rw [hindex, assign_glue_of_lt hkb, ← hglue, glue_assoc (WithTop.coe_lt_coe.mp hhigh)]
            refine ⟨n₁, glue b.1 n₂ m₂, qs₁, qs₂ ++ ps₂, hc₁, hlow, hhigh.trans hbhi, ?_, rfl,
              by simp⟩
            exact ⟨n₂, m₂, qs₂, ps₂, hc₂, WithBot.coe_lt_coe.mpr (WithTop.coe_lt_coe.mp hhigh),
              hbhi, hrest T' hT', rfl, rfl⟩ }
      · -- one of the others: the first child is carried along
        have hindex : childIndex k (a :: b :: rest) = childIndex k (b :: rest) + 1 :=
          childIndex_cons_cons_of_le hbk
        obtain ⟨lo', hi', c, m', before, own, after, F⟩ := ih h₂ (WithBot.coe_le_coe.mpr hbk)
        refine ⟨lo', hi', c, m', ps₁ ++ before, own, after, ?_⟩
        exact {
          child := by rw [hindex]; exact F.child
          tree := F.tree
          inside := hlob.le.trans F.inside
          le := F.le
          lt := F.lt
          pages := by rw [F.pages]; simp
          lookup := (glue_of_le hbk _ _).trans F.lookup
          place := fun sep hlow hhigh c₁ => by
            have hb : b.1 < sep := WithBot.coe_lt_coe.mp (F.inside.trans_lt hlow)
            have hplace := F.place sep hlow hhigh c₁
            obtain ⟨c', rest', hset⟩ := setChild_cons_fst b rest (childIndex k (b :: rest)) c₁
            rw [hset, List.tail_cons] at hplace
            rw [hindex, setChild_succ, hset, List.tail_cons, List.map_cons,
              binarySearch_cons_of_lt hb, hplace]
          replace := fun T' hT' v c₁ qs hc => by
            have hfirst : T' lo b.1 a.2 m₁ ps₁ := hT' _ _ _ _ _ (by simp) h₁
            have hrest := F.replace T' (fun lo hi c m qs hqs =>
              hT' lo hi c m qs (List.Subset.trans hqs (by simp))) v c₁ qs hc
            obtain ⟨c', rest', hset⟩ := setChild_cons_fst b rest (childIndex k (b :: rest)) c₁
            rw [hindex, setChild_succ, assign_glue_of_le hbk]
            rw [hset] at hrest ⊢
            exact ⟨m₁, _, ps₁, _, hfirst, hlob, hbhi, hrest, rfl, by simp⟩
          divide := fun T' hT' v sep c₁ c₂ n₁ n₂ qs₁ qs₂ hc₁ hc₂ hlow hhigh hglue => by
            have hfirst : T' lo b.1 a.2 m₁ ps₁ := hT' _ _ _ _ _ (by simp) h₁
            have hrest := F.divide T' (fun lo hi c m qs hqs =>
              hT' lo hi c m qs (List.Subset.trans hqs (by simp))) v sep c₁ c₂ n₁ n₂ qs₁ qs₂
              hc₁ hc₂ hlow hhigh hglue
            obtain ⟨c', rest', hset⟩ := setChild_cons_fst b rest (childIndex k (b :: rest)) c₁
            rw [hindex, setChild_succ, assign_glue_of_le hbk, List.insertIdx_succ_cons]
            rw [hset, List.insertIdx_succ_cons] at hrest ⊢
            exact ⟨m₁, _, ps₁, _, hfirst, hlob, hbhi, hrest, rfl, by simp⟩ }

/-- **Cutting in two.** Both parts of the list of children are forests, on the two sides
of the key of the second one. -/
theorem Forest.split {l r : List (K × C)} {b : K × C} (hl : l ≠ [])
    (h : Forest T lo hi (l ++ b :: r) m ps) :
    ∃ m₁ m₂ ps₁ ps₂, Forest T lo b.1 l m₁ ps₁ ∧ Forest T b.1 hi (b :: r) m₂ ps₂ ∧
      m = glue b.1 m₁ m₂ ∧ ps = ps₁ ++ ps₂ ∧ lo < b.1 ∧ (b.1 : WithTop K) < hi := by
  induction l generalizing lo m ps with
  | nil => exact absurd rfl hl
  | cons a l ih =>
    cases l with
    | nil =>
      obtain ⟨m₁, m₂, ps₁, ps₂, h₁, hlo, hhi, h₂, hm, hps⟩ := h
      exact ⟨m₁, m₂, ps₁, ps₂, h₁, h₂, hm, hps, hlo, hhi⟩
    | cons a' l =>
      obtain ⟨m₁, m₂, ps₁, ps₂, h₁, hlo, -, h₂, rfl, rfl⟩ := h
      obtain ⟨n₁, n₂, qs₁, qs₂, hn₁, hn₂, rfl, rfl, hlt, hhi⟩ := ih (by simp) h₂
      have hkeys : a'.1 < b.1 := WithBot.coe_lt_coe.mp hlt
      refine ⟨glue a'.1 m₁ n₁, n₂, ps₁ ++ qs₁, qs₂, ?_, hn₂, (glue_assoc hkeys _ _ _).symm,
        (List.append_assoc ..).symm, hlo.trans hlt, hhi⟩
      exact ⟨m₁, n₁, ps₁, qs₁, h₁, hlo, WithTop.coe_lt_coe.mpr hkeys, hn₁, rfl, rfl⟩

/-- Two children with a separator between them. -/
theorem Forest.pair {k sep : K} {c₁ c₂ : C} {m₁ m₂ : K → Option V} {ps₁ ps₂ : List P}
    (h₁ : T lo sep c₁ m₁ ps₁) (h₂ : T sep hi c₂ m₂ ps₂) (hlo : lo < sep)
    (hhi : (sep : WithTop K) < hi) :
    Forest T lo hi [(k, c₁), (sep, c₂)] (glue sep m₁ m₂) (ps₁ ++ ps₂) :=
  ⟨m₁, m₂, ps₁, ps₂, h₁, hlo, hhi, h₂, rfl, rfl⟩

end KvRaft.Ordered
