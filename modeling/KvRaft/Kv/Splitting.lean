import KvRaft.Kv.Editing

/-!
# What splits keep

A node without room is divided by the number of its entries, whatever their sizes. In a
build without assertions nothing checks that a half has room: where the metadata and the
data meet, one is written over the other.

* A leaf split keeps the pairs where both halves have room (`split_keeps_pairs`). Three
  pairs, of which the two large ones go to one page, are enough to lose one
  (`split_loses_pairs`).
* A new root, and the pages of a branch split, decode to their entries where they have
  room (`separators_decode`). A key can take more of a leaf than a branch with two
  entries leaves for a separator (`separator_overwritten`).

Pages are followed from the page they were made as (`LeafReached`, `BranchReached`): an
insertion edits them in place where there is room, and builds two pages otherwise. The
lists of which pages were built are what a condition on the history is about.
-/

namespace KvRaft.Kv

open Bytes Ordered

/-- A build without debug assertions in which every page has the same checksum. -/
def Env.release : Env := ⟨fun _ => 0, false⟩

/-! ### Leaves -/

/-- A page has room for the pairs. -/
def LeafRoom (pageSize : ℕ) (es : List LeafEntry) : Prop :=
  24 + leafSize es ≤ pageSize

/-- Both halves of a list of pairs are in `C`. -/
def LeafHalves (C : List LeafEntry → Prop) (kvs : List LeafEntry) : Prop :=
  C (kvs.take (kvs.length / 2)) ∧ C (kvs.drop (kvs.length / 2))

/-- The leaves that insertions make of an empty leaf, if every page that is built has its
pairs in `C`. -/
inductive LeafReached (env : Env) (pageSize : ℕ) (C : List LeafEntry → Prop) : Bytes → Prop
  | empty {page : Bytes} (hempty : getEmptyLeafPage env pageSize = .ok page) :
      LeafReached env pageSize C page
  | insert {page page' : Bytes} {key : Key} {value : Value}
      (hpage : LeafReached env pageSize C page)
      (hfit : LeafPageMutator.fits page key value = .ok true)
      (hrun : LeafPageMutator.insert page key value = .ok page') :
      LeafReached env pageSize C page'
  | split {page left right sep page' right' : Bytes} {key : Key} {value : Value}
      {builder : LeafBuilder} (hpage : LeafReached env pageSize C page)
      (hfull : LeafPageMutator.fits page key value = .ok false)
      (hbuilder : LeafBuilder.fromPage page = .ok builder)
      (hhalves : LeafHalves C (builder.insert key value).kvPairs)
      (hleft : left.length = pageSize) (hright : right.length = pageSize)
      (hrun : (builder.insert key value).buildSplitPages env left right =
        .ok (sep, page', right')) (half : Bytes) (hhalf : half = page' ∨ half = right') :
      LeafReached env pageSize C half

/-- The split of a leaf for a new pair makes two pages whose pairs are those of the leaf
and the new one, in order; the separator is the first key of the right page. -/
def KeepsPairs (env : Env) (page : Bytes) (key : Key) (value : Value) : Prop :=
  ∀ left right : Bytes, left.length = page.length → right.length = page.length →
    ∃ builder sep left' right' l r, LeafBuilder.fromPage page = .ok builder ∧
      (builder.insert key value).buildSplitPages env left right = .ok (sep, left', right') ∧
      LeafBuilder.fromPage left' = .ok l ∧ LeafBuilder.fromPage right' = .ok r ∧
      (l.kvPairs ++ r.kvPairs).Perm ((key, value) :: builder.kvPairs) ∧
      Sorted (l.kvPairs ++ r.kvPairs) ∧ r.kvPairs.head?.map Prod.fst = some sep

theorem length_upsert_pos {K V : Type} [LinearOrder K] {l : List (K × V)} (hne : l ≠ []) {k : K}
    {v : V} (hk : k ∉ l.map Prod.fst) : 2 ≤ (upsert k v l).length := by
  have hsearch := binarySearch_bound k (l.map Prod.fst)
  have hpos := List.length_pos_iff.mpr hne
  rw [upsert]
  rcases hcase : binarySearch k (l.map Prod.fst) with i | i
  · rw [hcase, List.length_map] at hsearch
    dsimp only
    rw [List.length_insertIdx_of_le_length hsearch]
    omega
  · rw [hcase] at hsearch
    exact absurd (List.mem_of_getElem? hsearch) hk

/-- A new key is one entry more. -/
theorem upsert_perm {K V : Type} [LinearOrder K] {l : List (K × V)} {k : K} {v : V}
    (hk : k ∉ l.map Prod.fst) : (upsert k v l).Perm ((k, v) :: l) := by
  have hsearch := binarySearch_bound k (l.map Prod.fst)
  rw [upsert]
  rcases hcase : binarySearch k (l.map Prod.fst) with i | i
  · rw [hcase, List.length_map] at hsearch
    exact List.perm_insertIdx _ _ hsearch
  · rw [hcase] at hsearch
    exact absurd (List.mem_of_getElem? hsearch) hk

section leaves

variable {env : Env} {pageSize : ℕ} {page : Bytes}

/-- **Along a history without an overflow**, a leaf is well formed. -/
theorem LeafReached.leaf (hlarge : 24 ≤ pageSize) (hsmall : pageSize < 2 ^ 63)
    (h : LeafReached env pageSize (LeafRoom pageSize) page) :
    page.length = pageSize ∧ ∃ kvs, LeafOk page kvs := by
  induction h with
  | empty hempty =>
    obtain ⟨page, hmade, hlength, hholds, -⟩ := getEmptyLeafPage_ok env hlarge hsmall
    rw [hempty, Except.ok.injEq] at hmade
    subst hmade
    exact ⟨hlength, [], [], hholds⟩
  | insert _ hfit hrun ih =>
    obtain ⟨hlength, kvs, ms, hholds⟩ := ih
    obtain ⟨page', hrun', hlength', hok⟩ := hholds.insert hfit
    rw [hrun, Except.ok.injEq] at hrun'
    subst hrun'
    exact ⟨hlength'.trans hlength, _, hok⟩
  | @split page left right sep page' right' key value builder _ _ hbuilder hhalves hleft hright
      hrun half hhalf ih =>
    obtain ⟨hlength, kvs, ms, hholds⟩ := ih
    rw [hholds.builder, Except.ok.injEq] at hbuilder
    subst hbuilder
    rw [LeafBuilder.insert_kvPairs] at hhalves
    rw [LeafBuilder.insert_eq] at hrun
    have hsorted := sorted_upsert hholds.sorted key value
    -- a split has two entries at least, or an assertion fails
    by_cases hlen : 2 ≤ (upsert key value kvs).length
    · obtain ⟨sep', left', right'', hsplit, -, hlengthLeft, hlengthRight, ⟨msLeft, hlistsLeft⟩,
        msRight, hlistsRight⟩ := buildSplitPages_ok env hlen (by rwa [hleft])
          (hright.trans hleft.symm) (by rw [hleft]; exact hhalves.1)
          (by rw [hleft]; exact hhalves.2)
      rw [hrun, Except.ok.injEq, Prod.mk.injEq, Prod.mk.injEq] at hsplit
      obtain ⟨-, rfl, rfl⟩ := hsplit
      rcases hhalf with rfl | rfl
      · exact ⟨hlengthLeft.trans hleft, _, msLeft,
          hlistsLeft.leaf (hsorted.sublist (List.take_sublist _ _))⟩
      · exact ⟨hlengthRight.trans hleft, _, msRight,
          hlistsRight.leaf (hsorted.sublist (List.drop_sublist _ _))⟩
    · rw [LeafBuilder.buildSplitPages] at hrun
      dsimp only at hrun
      rw [assert, if_neg hlen] at hrun
      exact absurd hrun (by simp)

/-- **A leaf split keeps the pairs** if both halves have room, and every page of the
history of the leaf had. -/
theorem split_keeps_pairs (env : Env) (hlarge : minPageSize ≤ pageSize)
    (hsmall : pageSize < 2 ^ 63) (hreached : LeafReached env pageSize (LeafRoom pageSize) page)
    {builder : LeafBuilder} (hbuilder : LeafBuilder.fromPage page = .ok builder) {key : Key}
    (value : Value) (hothers : builder.kvPairs ≠ []) (hnew : key ∉ builder.kvPairs.map Prod.fst)
    (hroom : LeafHalves (LeafRoom pageSize) (builder.insert key value).kvPairs) :
    KeepsPairs env page key value := by
  obtain ⟨hlength, kvs, ms, hholds⟩ := hreached.leaf (le_trans (by decide) hlarge) hsmall
  rw [hholds.builder, Except.ok.injEq] at hbuilder
  subst hbuilder
  rw [LeafBuilder.insert_kvPairs] at hroom
  intro left right hleft hright
  obtain ⟨sep, left', right', hsplit, hsep, -, -, ⟨msLeft, hlistsLeft⟩, msRight, hlistsRight⟩ :=
    buildSplitPages_ok env (length_upsert_pos hothers hnew) (by rwa [hleft, hlength])
      (hright.trans hleft.symm) (by rw [hleft, hlength]; exact hroom.1)
      (by rw [hleft, hlength]; exact hroom.2)
  refine ⟨⟨kvs⟩, sep, left', right', ⟨_⟩, ⟨_⟩, hholds.builder, ?_, hlistsLeft.builder,
    hlistsRight.builder, ?_, ?_, hsep⟩
  · rw [LeafBuilder.insert_eq, hsplit]
  · rw [List.take_append_drop]
    exact upsert_perm hnew
  · rw [List.take_append_drop]
    exact sorted_upsert hholds.sorted key value

/-! ### Leaves that lose a pair -/

/-- What the data of the pairs takes, the loop takes from the cursor. -/
theorem buildEntries_cursor {es : List LeafEntry} {page' : Bytes} {writeCursor c c' : ℕ}
    (h : LeafBuilder.buildEntries env es page writeCursor c = .ok (page', c')) :
    c' + (es.map fun e => e.1.length + e.2.length).sum = c := by
  induction es generalizing page writeCursor c with
  | nil =>
    rw [LeafBuilder.buildEntries, pure_eq_ok, Except.ok.injEq, Prod.mk.injEq] at h
    simp [h.2]
  | cons e es ih =>
    obtain ⟨key, value⟩ := e
    rw [LeafBuilder.buildEntries] at h
    dsimp only at h
    obtain ⟨_, -, h⟩ := bind_eq_ok.mp h
    obtain ⟨_, -, h⟩ := bind_eq_ok.mp h
    obtain ⟨c₁, hvalue, h⟩ := bind_eq_ok.mp h
    obtain ⟨_, -, h⟩ := bind_eq_ok.mp h
    obtain ⟨c₂, hkey, h⟩ := bind_eq_ok.mp h
    obtain ⟨_, -, h⟩ := bind_eq_ok.mp h
    obtain ⟨_, -, h⟩ := bind_eq_ok.mp h
    -- the cursor comes down by the value and then by the key, each step checked not to pass zero
    have hrest := ih h
    have hsub : ∀ {a b d}, checkedSub a b = .ok d → d + b = a := by
      intro a b d hd
      rw [checkedSub] at hd
      split at hd
      · rw [Except.ok.injEq] at hd
        omega
      · exact absurd hd (by simp)
    have h₁ := hsub hvalue
    have h₂ := hsub hkey
    rw [List.map_cons, List.sum_cons]
    dsimp only
    omega

/-- A page that was built is as long as the data of its pairs at least. -/
theorem buildEntriesAtBuf_data {es : List LeafEntry} {page' : Bytes}
    (h : LeafBuilder.buildEntriesAtBuf env es page = .ok page') :
    (es.map fun e => e.1.length + e.2.length).sum ≤ page.length := by
  rw [LeafBuilder.buildEntriesAtBuf] at h
  obtain ⟨⟨page₁, c⟩, hrun, -⟩ := bind_eq_ok.mp h
  have hcursor := buildEntries_cursor hrun
  omega

/-- The pages of a split are built from the halves. -/
theorem buildSplitPages_halves {kvs : List LeafEntry} {left right left' right' : Bytes} {sep : Key}
    (h : LeafBuilder.buildSplitPages env ⟨kvs⟩ left right = .ok (sep, left', right')) :
    LeafBuilder.buildEntriesAtBuf env (kvs.take (kvs.length / 2)) left = .ok left' ∧
      LeafBuilder.buildEntriesAtBuf env (kvs.drop (kvs.length / 2)) right = .ok right' := by
  rw [LeafBuilder.buildSplitPages] at h
  dsimp only at h
  obtain ⟨-, -, h⟩ := bind_eq_ok.mp h
  obtain ⟨first, -, h⟩ := bind_eq_ok.mp h
  obtain ⟨left₁, hleft, h⟩ := bind_eq_ok.mp h
  obtain ⟨right₁, hright, h⟩ := bind_eq_ok.mp h
  rw [pure_eq_ok, Except.ok.injEq, Prod.mk.injEq, Prod.mk.injEq] at h
  obtain ⟨-, rfl, rfl⟩ := h
  exact ⟨hleft, hright⟩

/-- One more pair with a new key goes to a leaf that has been reached. -/
theorem LeafReached.grow {C : List LeafEntry → Prop} (h : LeafReached env pageSize C page)
    {ms : List LeafEntryMetadata} {kvs : List LeafEntry} (hholds : LeafHolds page ms kvs)
    {key : Key} (hkey : key ∉ kvs.map Prod.fst) {value : Value}
    (hfit : 24 + (ms.length + 1) * 32 + (key.length + value.length) ≤
      (readPod LeafHeader page 0).kvPairsEndOffset.toNat) :
    ∃ page' ms', LeafReached env pageSize C page' ∧ page'.length = page.length ∧
      LeafHolds page' ms' (upsert key value kvs) ∧
      (readPod LeafHeader page' 0).kvPairsEndOffset.toNat =
        (readPod LeafHeader page 0).kvPairsEndOffset.toNat - key.length - value.length := by
  obtain ⟨page', ms', hrun, hlength, hholds', hend⟩ := hholds.insert_new hkey hfit
  refine ⟨page', ms', .insert h ?_ hrun, hlength, hholds', hend⟩
  rw [hholds.fits]
  exact congrArg Except.ok (decide_eq_true hfit)

/-- A leaf with one pair. -/
theorem leafReached_single (env : Env) (C : List LeafEntry → Prop) (hlarge : 24 ≤ pageSize)
    (hsmall : pageSize < 2 ^ 63) {key : Key} {value : Value}
    (hfit : 56 + (key.length + value.length) ≤ pageSize) :
    ∃ page ms, LeafReached env pageSize C page ∧ page.length = pageSize ∧
      LeafHolds page ms [(key, value)] ∧
      (readPod LeafHeader page 0).kvPairsEndOffset.toNat =
        pageSize - key.length - value.length := by
  obtain ⟨page, hmade, hlength, hholds, hend⟩ := getEmptyLeafPage_ok env hlarge hsmall
  obtain ⟨page', ms', hreached, hlength', hholds', hend'⟩ :=
    @LeafReached.grow _ _ _ _ (LeafReached.empty (C := C) hmade) _ _ hholds key (by simp) value
      (by rw [hend, List.length_nil]; omega)
  exact ⟨page', ms', hreached, hlength'.trans hlength, hholds', hend'.trans (by rw [hend])⟩

end leaves

/-- Two large pairs in pages of their own. -/
theorem split_keeps_pairs_large :
    ∃ page builder, LeafReached .release 4096 (LeafRoom 4096) page ∧
      LeafBuilder.fromPage page = .ok builder ∧
      LeafPageMutator.fits page [2] (List.replicate 3000 0) = .ok false ∧
      KeepsPairs .release page [2] (List.replicate 3000 0) := by
  have hlarge : (List.replicate 3000 (0 : UInt8)).length = 3000 := List.length_replicate
  obtain ⟨page, ms, hreached, -, hholds, hend⟩ := @leafReached_single 4096 .release (LeafRoom 4096)
    (by decide) (by decide) [1] (List.replicate 3000 0) (by rw [hlarge]; decide)
  refine ⟨page, _, hreached, hholds.builder, ?_, ?_⟩
  · have hms : ms.length = 1 := hholds.length.symm
    rw [hholds.fits, hend, hlarge, hms]
    exact congrArg Except.ok (decide_eq_false (by decide))
  · refine split_keeps_pairs .release le_rfl (by decide) hreached hholds.builder _
      (List.cons_ne_nil _ _) (by decide) ?_
    have hinsert : LeafBuilder.insert ⟨[([1], List.replicate 3000 0)]⟩ [2] (List.replicate 3000 0) =
        ⟨[([1], List.replicate 3000 0), ([2], List.replicate 3000 0)]⟩ := rfl
    rw [hinsert]
    simp only [LeafHalves, LeafRoom, List.length_cons, List.length_nil, Nat.reduceAdd,
      Nat.reduceDiv, List.take_succ_cons, List.take_zero, List.drop_succ_cons, List.drop_zero,
      leafSize_cons, leafSize_nil, hlarge]
    decide

/-- **A leaf split can lose a pair.** Of three pairs the two large ones go to one page, where
they have no room. -/
theorem split_loses_pairs :
    ∃ page builder, LeafReached .release 4096 (fun _ => True) page ∧
      LeafBuilder.fromPage page = .ok builder ∧ builder.kvPairs ≠ [] ∧
      ([3] : Key) ∉ builder.kvPairs.map Prod.fst ∧
      24 + 32 + ([3] : Key).length + (List.replicate 4039 (0 : UInt8)).length ≤ 4096 ∧
      LeafPageMutator.fits page [3] (List.replicate 4039 0) = .ok false ∧
      ¬KeepsPairs .release page [3] (List.replicate 4039 0) := by
  have hmiddle : (List.replicate 2000 (0 : UInt8)).length = 2000 := List.length_replicate
  have hlarge : (List.replicate 4039 (0 : UInt8)).length = 4039 := List.length_replicate
  obtain ⟨page, ms, hreached, hlength, hholds, hend⟩ := @leafReached_single 4096 .release (fun _ => True)
    (by decide) (by decide) [1] [0] (by decide)
  have hms : ms.length = 1 := hholds.length.symm
  -- A page with a short pair and one of 2000 bytes: the third pair alone fits an empty page, but
  -- it shares the right half with the second.
  obtain ⟨page', ms', hreached', hlength', hholds', hend'⟩ := @LeafReached.grow _ _ _ _ hreached
    _ _ hholds [2] (by simp) (List.replicate 2000 0) (by rw [hend, hms, hmiddle]; decide)
  have hkvs : upsert [2] (List.replicate 2000 0) [(([1] : Key), ([0] : Value))] =
      [([1], [0]), ([2], List.replicate 2000 0)] := rfl
  rw [hkvs] at hholds'
  have hms' : ms'.length = 2 := hholds'.length.symm
  refine ⟨page', _, hreached', hholds'.builder, List.cons_ne_nil _ _, by decide,
    by rw [hlarge]; decide, ?_, ?_⟩
  · rw [hholds'.fits, hend', hend, hms', hmiddle, hlarge]
    exact congrArg Except.ok (decide_eq_false (by decide))
  · intro hkeeps
    obtain ⟨builder, sep, left', right', l, r, hbuilder, hsplit, -⟩ :=
      hkeeps page' page' rfl rfl
    rw [hholds'.builder, Except.ok.injEq] at hbuilder
    subst hbuilder
    have hinsert : LeafBuilder.insert ⟨[([1], [0]), ([2], List.replicate 2000 0)]⟩ [3]
        (List.replicate 4039 0) =
        ⟨[([1], [0]), ([2], List.replicate 2000 0), ([3], List.replicate 4039 0)]⟩ := rfl
    rw [hinsert] at hsplit
    -- the right half holds more data than the page has bytes
    have hdata := buildEntriesAtBuf_data (buildSplitPages_halves hsplit).2
    simp only [List.length_cons, List.length_nil, Nat.reduceAdd, Nat.reduceDiv,
      List.drop_succ_cons, List.drop_zero, List.map_cons, List.map_nil, List.sum_cons,
      List.sum_nil, hmiddle, hlarge] at hdata
    omega

/-! ### Branches -/

/-- A page has room for the entries as they are written. -/
def BranchRoom (pageSize : ℕ) (cells : List BranchEntry) : Prop :=
  24 + branchSize (withoutFirstKey cells) ≤ pageSize

/-- Both halves of a list of entries are in `C`. -/
def BranchHalves (C : List BranchEntry → Prop) (cells : List BranchEntry) : Prop :=
  C (cells.take (cells.length / 2)) ∧ C (cells.drop (cells.length / 2))

/-- The branches that insertions make of new roots, if every page that is built has its
entries in `C`. -/
inductive BranchReached (env : Env) (pageSize : ℕ) (C : List BranchEntry → Prop) : Bytes → Prop
  | root {buffer page : Bytes} {left right : Child} {sep : Key}
      (hbuffer : buffer.length = pageSize)
      (hroom : C (BranchBuilder.newRoot left.1 left.2 sep right.1 right.2).branchEntries)
      (hrun : (BranchBuilder.newRoot left.1 left.2 sep right.1 right.2).buildPageAtBuf env buffer =
        .ok page) :
      BranchReached env pageSize C page
  | setChild {page page' : Bytes} {i : ℕ} {child : Child}
      (hpage : BranchReached env pageSize C page)
      (hrun : BranchPageMutator.setChildAtIndex page i child.1 child.2 = .ok page') :
      BranchReached env pageSize C page'
  | insert {page page' : Bytes} {key : Key} {child : Child}
      (hpage : BranchReached env pageSize C page)
      (hfit : BranchPageMutator.fits page key = .ok true)
      (hrun : BranchPageMutator.insert env page key child.1 child.2 = .ok page') :
      BranchReached env pageSize C page'
  | split {page left right sep page' right' : Bytes} {key : Key} {child : Child}
      {builder builder' : BranchBuilder} (hpage : BranchReached env pageSize C page)
      (hfull : BranchPageMutator.fits page key = .ok false)
      (hbuilder : BranchBuilder.fromPage page = .ok builder)
      (hinsert : builder.insert key child.1 child.2 = .ok builder')
      (hhalves : BranchHalves C builder'.branchEntries)
      (hleft : left.length = pageSize) (hright : right.length = pageSize)
      (hrun : builder'.buildSplitPages env left right = .ok (sep, page', right')) (half : Bytes)
      (hhalf : half = page' ∨ half = right') :
      BranchReached env pageSize C half

/-- A new root over two pages decodes to them, with the separator in between. -/
def RootDecodes (env : Env) (pageSize : ℕ) (left : Child) (sep : Key) (right : Child) : Prop :=
  ∀ buffer : Bytes, buffer.length = pageSize → ∃ page reader,
    (BranchBuilder.newRoot left.1 left.2 sep right.1 right.2).buildPageAtBuf env buffer =
        .ok page ∧
      BranchDecodes page reader [([], left), (sep, right)]

/-- The split of a branch for a new separator makes two pages that decode to the halves of
its entries, without the keys of their entries 0. -/
def KeepsEntries (env : Env) (page : Bytes) (key : Key) (child : Child) : Prop :=
  ∀ left right : Bytes, left.length = page.length → right.length = page.length →
    ∃ builder builder' sep left' right' l r, BranchBuilder.fromPage page = .ok builder ∧
      builder.insert key child.1 child.2 = .ok builder' ∧
      builder'.buildSplitPages env left right = .ok (sep, left', right') ∧
      BranchDecodes left' l (withoutFirstKey
        (builder'.branchEntries.take (builder'.branchEntries.length / 2))) ∧
      BranchDecodes right' r (withoutFirstKey
        (builder'.branchEntries.drop (builder'.branchEntries.length / 2))) ∧
      (builder'.branchEntries.drop (builder'.branchEntries.length / 2)).head?.map Prod.fst =
        some sep

section branches

variable {env : Env} {pageSize : ℕ} {page : Bytes}

theorem withoutFirstKey_ne_nil {cells : List BranchEntry} (h : cells ≠ []) :
    withoutFirstKey cells ≠ [] := by
  cases cells with
  | nil => exact absurd rfl h
  | cons a cells => exact List.cons_ne_nil _ _

theorem tail_withoutFirstKey (cells : List BranchEntry) :
    (withoutFirstKey cells).tail = cells.tail := by
  cases cells <;> rfl

/-- The two halves of a list in which there is a separator. -/
theorem branch_halves {head : BranchEntry} {tail : List BranchEntry} (hne : tail ≠ [])
    (hsorted : Sorted tail) :
    2 ≤ (head :: tail).length ∧ (head :: tail).take ((head :: tail).length / 2) ≠ [] ∧
      (head :: tail).drop ((head :: tail).length / 2) ≠ [] ∧
      Sorted ((head :: tail).take ((head :: tail).length / 2)).tail ∧
      Sorted ((head :: tail).drop ((head :: tail).length / 2)).tail := by
  have hpos := List.length_pos_iff.mpr hne
  have hlen : (head :: tail).length = tail.length + 1 := List.length_cons
  refine ⟨by omega, ?_, ?_, ?_, ?_⟩
  · rw [← List.length_pos_iff, List.length_take]
    omega
  · rw [← List.length_pos_iff, List.length_drop]
    omega
  · exact hsorted.sublist (List.take_sublist _ _).tail
  · exact hsorted.sublist (List.drop_sublist _ _).tail

/-- **Along a history without an overflow**, a branch is well formed. -/
theorem BranchReached.branch (hsmall : pageSize < 2 ^ 63)
    (h : BranchReached env pageSize (BranchRoom pageSize) page) :
    page.length = pageSize ∧ ∃ cells, BranchWellFormed page cells := by
  induction h with
  | @root buffer page left right sep hbuffer hroom hrun =>
    obtain ⟨page', hrun', hlength, hok⟩ := @buildBranchAtBuf_ok env
      (BranchBuilder.newRoot left.1 left.2 sep right.1 right.2).branchEntries buffer
      (by rwa [hbuffer]) (by rw [hbuffer]; exact hroom)
    rw [BranchBuilder.buildPageAtBuf, hrun', Except.ok.injEq] at hrun
    subst hrun
    exact ⟨hlength.trans hbuffer, _, hok, List.cons_ne_nil _ _, List.pairwise_singleton _ _⟩
  | @setChild page page' i child _ hrun ih =>
    obtain ⟨hlength, cells, hpage⟩ := ih
    obtain ⟨ms, hholds⟩ := hpage.ok
    by_cases hi : i < cells.length
    · obtain ⟨page₁, hrun₁, hpage₁, hlength₁⟩ := hpage.setChild hi child
      rw [hrun, Except.ok.injEq] at hrun₁
      subst hrun₁
      exact ⟨hlength₁.trans hlength, _, hpage₁⟩
    · -- there is no such entry
      rw [BranchPageMutator.setChildAtIndex, BranchPageMutator.entriesMut,
        hholds.mutatorEntries, ok_bind, index, List.getElem?_eq_none (by
          rw [← hholds.length]; omega)] at hrun
      exact absurd hrun (by simp)
  | @insert page page' key child _ hfit hrun ih =>
    obtain ⟨hlength, cells, hpage⟩ := ih
    obtain ⟨head, tail, rfl⟩ := List.exists_cons_of_ne_nil hpage.nonempty
    obtain ⟨page₁, hrun₁, hpage₁, hlength₁⟩ := hpage.insert env hfit child
    rw [hrun, Except.ok.injEq] at hrun₁
    subst hrun₁
    exact ⟨hlength₁.trans hlength, _, hpage₁⟩
  | @split page left right sep page' right' key child builder builder' _ _ hbuilder hinsert
      hhalves hleft hright hrun half hhalf ih =>
    obtain ⟨hlength, cells, hpage⟩ := ih
    obtain ⟨ms, hholds⟩ := hpage.ok
    obtain ⟨head, tail, rfl⟩ := List.exists_cons_of_ne_nil hpage.nonempty
    rw [hholds.builder, Except.ok.injEq] at hbuilder
    subst hbuilder
    rw [BranchBuilder.insert_eq_upsert, Except.ok.injEq] at hinsert
    subst hinsert
    obtain ⟨hlen, hneLeft, hneRight, hsortedLeft, hsortedRight⟩ :=
      @branch_halves head _ (upsert_ne_nil key child tail)
        (sorted_upsert hpage.sorted key child)
    obtain ⟨sep', left', right'', hsplit, -, hlengthLeft, hlengthRight, hokLeft, hokRight⟩ :=
      buildSplitBranches_ok env hlen (by rwa [hleft]) (hright.trans hleft.symm)
        (by rw [hleft]; exact hhalves.1) (by rw [hleft]; exact hhalves.2)
    rw [hrun, Except.ok.injEq, Prod.mk.injEq, Prod.mk.injEq] at hsplit
    obtain ⟨-, rfl, rfl⟩ := hsplit
    rcases hhalf with rfl | rfl
    · exact ⟨hlengthLeft.trans hleft, _, hokLeft, withoutFirstKey_ne_nil hneLeft,
        by rw [tail_withoutFirstKey]; exact hsortedLeft⟩
    · exact ⟨hlengthRight.trans hleft, _, hokRight, withoutFirstKey_ne_nil hneRight,
        by rw [tail_withoutFirstKey]; exact hsortedRight⟩

/-- **Separators decode** where the pages built with them have room: in a new root, and in
the pages of a split of any branch whose history had room. -/
theorem separators_decode (env : Env) (hsmall : pageSize < 2 ^ 63) :
    (∀ (left : Child) (sep : Key) (right : Child),
      BranchRoom pageSize (BranchBuilder.newRoot left.1 left.2 sep right.1 right.2).branchEntries →
      RootDecodes env pageSize left sep right) ∧
    ∀ page, BranchReached env pageSize (BranchRoom pageSize) page →
      ∀ builder, BranchBuilder.fromPage page = .ok builder →
      ∀ key (child : Child) builder', builder.insert key child.1 child.2 = .ok builder' →
      BranchHalves (BranchRoom pageSize) builder'.branchEntries →
      KeepsEntries env page key child := by
  refine ⟨fun left sep right hroom buffer hbuffer => ?_,
    fun page hreached builder hbuilder key child builder' hinsert hroom left right hleft hright =>
      ?_⟩
  · -- a new root over the two halves of an old one
    obtain ⟨page, hrun, -, ms, hholds⟩ := @buildBranchAtBuf_ok env
      (BranchBuilder.newRoot left.1 left.2 sep right.1 right.2).branchEntries buffer
      (by rwa [hbuffer]) (by rw [hbuffer]; exact hroom)
    exact ⟨page, _, hrun, hholds.decodes⟩
  · -- a branch page that was reached and now splits
    obtain ⟨hlength, cells, hpage⟩ := hreached.branch hsmall
    obtain ⟨ms, hholds⟩ := hpage.ok
    obtain ⟨head, tail, rfl⟩ := List.exists_cons_of_ne_nil hpage.nonempty
    have hsame := hbuilder
    rw [hholds.builder, Except.ok.injEq] at hsame
    subst hsame
    have hupsert := hinsert
    rw [BranchBuilder.insert_eq_upsert, Except.ok.injEq] at hupsert
    subst hupsert
    obtain ⟨hlen, -⟩ := @branch_halves head _ (upsert_ne_nil key child tail)
      (sorted_upsert hpage.sorted key child)
    obtain ⟨sep, left', right', hsplit, hsep, -, -, ⟨msLeft, hholdsLeft⟩, msRight,
      hholdsRight⟩ := buildSplitBranches_ok env hlen (by rwa [hleft, hlength])
        (hright.trans hleft.symm) (by rw [hleft, hlength]; exact hroom.1)
        (by rw [hleft, hlength]; exact hroom.2)
    exact ⟨_, _, sep, left', right', _, _, hbuilder, hinsert, hsplit, hholdsLeft.decodes,
      hholdsRight.decodes, hsep⟩

end branches

/-! ### A separator without room -/

/-- In a new root, the record of the separator stands whatever it is written over. -/
theorem root_record (left right : Child) {key : Key} {buffer page : Bytes}
    (hkey : key.length ≤ buffer.length) (hlarge : 104 ≤ buffer.length)
    (hrun : (BranchBuilder.newRoot left.1 left.2 key right.1 right.2).buildPageAtBuf .release
      buffer = .ok page) :
    page.length = buffer.length ∧ (readPod BranchHeader page 0).numEntries = 2 ∧
      slice page 64 40 = Pod.encode (recordAt key right (buffer.length - key.length)) := by
  obtain ⟨p₁, hp₁⟩ : ∃ p₁, p₁ = writePod buffer 24 (recordAt [] left buffer.length) := ⟨_, rfl⟩
  obtain ⟨p₂, hp₂⟩ : ∃ p₂, p₂ = splice p₁ (buffer.length - key.length) key := ⟨_, rfl⟩
  obtain ⟨p₃, hp₃⟩ : ∃ p₃, p₃ =
      writePod p₂ 64 (recordAt key right (buffer.length - key.length)) := ⟨_, rfl⟩
  have hlen₁ : p₁.length = buffer.length := by
    rw [hp₁, length_writePod _ (by rw [size_branchEntryMetadata]; omega)]
  have hlen₂ : p₂.length = buffer.length := by
    rw [hp₂, length_splice (by omega), hlen₁]
  have hlen₃ : p₃.length = buffer.length := by
    rw [hp₃, length_writePod _ (by rw [size_branchEntryMetadata]; omega), hlen₂]
  -- The builder run step by step: the empty key of the first entry, the key of the second at the
  -- end of the page, its record at 64, and the header last.
  have hmade : (BranchBuilder.newRoot left.1 left.2 key right.1 right.2).buildPageAtBuf
      .release buffer = .ok (writePod p₃ 0 (BranchHeader.new 2 (buffer.length - key.length))) := by
    have hassert : ∀ (p : Prop) [Decidable p], debugAssert .release p = .ok () := fun _ _ => rfl
    have hfirst : writeToPrefix buffer 24 (BranchEntryMetadata.new 0 buffer.length left.1 left.2) =
        .ok p₁ := by
      rw [writeToPrefix_of_le (by rw [size_branchEntryMetadata]; omega), hp₁]
      rfl
    have hsecond : writeToPrefix p₂ 64 (BranchEntryMetadata.new key.length
        (buffer.length - key.length) right.1 right.2) = .ok p₃ := by
      rw [writeToPrefix_of_le (by rw [size_branchEntryMetadata]; omega), hp₃]
      rfl
    rw [BranchBuilder.buildPageAtBuf, BranchBuilder.newRoot, BranchBuilder.buildEntriesAtBuf,
      BranchBuilder.buildEntries, if_pos rfl]
    dsimp only
    rw [hassert, ok_bind, hassert, ok_bind, List.length_nil, checkedSub_of_le (Nat.zero_le _),
      ok_bind, Nat.sub_zero, writeDataAtOffset_of_le (by rw [List.length_nil]; omega), ok_bind,
      splice_nil, size_branchHeader, hfirst, ok_bind, BranchBuilder.buildEntries,
      if_neg (by decide)]
    dsimp only
    rw [hassert, ok_bind, hassert, ok_bind, checkedSub_of_le hkey, ok_bind,
      writeDataAtOffset_of_le (by omega), ok_bind, ← hp₂, size_branchEntryMetadata, hsecond,
      ok_bind, BranchBuilder.buildEntries, pure_eq_ok, ok_bind]
    dsimp only
    rw [writeToPrefix_of_le (by rw [size_branchHeader]; omega)]
    rfl
  rw [hrun, Except.ok.injEq] at hmade
  subst hmade
  refine ⟨?_, ?_, ?_⟩
  · rw [length_writePod _ (by rw [size_branchHeader]; omega), hlen₃]
  · rw [readPod_writePod _ (by rw [size_branchHeader]; omega)]
    rfl
  · -- the header is 24 bytes long and does not reach the record
    rw [writePod, slice_splice_of_disjoint (by rw [Pod.length_encode, size_branchHeader]; omega)
      (by rw [Pod.length_encode, size_branchHeader]; omega), hp₃]
    have hself := @slice_splice_self p₂ 64
      (Pod.encode (recordAt key right (buffer.length - key.length))) (by
        rw [Pod.length_encode, size_branchEntryMetadata]; omega)
    rwa [Pod.length_encode, size_branchEntryMetadata] at hself

/-- A key with less room in a root than in a leaf. -/
def longKey : Key := List.replicate 4036 1

theorem length_longKey : longKey.length = 4036 := List.length_replicate

/-- The key lies where its record does. -/
theorem not_rootDecodes_longKey (left right : Child) :
    ¬RootDecodes .release 4096 left longKey right := by
  intro h
  have hbuffer : (List.replicate 4096 (0 : UInt8)).length = 4096 := List.length_replicate
  obtain ⟨page, reader, hrun, -, hpage, hentries⟩ := h _ hbuffer
  obtain ⟨hlength, hcount, hrecord⟩ := root_record left right
    (by rw [hbuffer, length_longKey]; decide) (by rw [hbuffer]; decide) hrun
  rw [hbuffer, length_longKey] at hrecord
  rw [hbuffer] at hlength
  -- the second record says that the key begins in front of the record
  have hread : readPod BranchEntryMetadata page 64 = recordAt longKey right 60 := by
    rw [readPod, size_branchEntryMetadata, hrecord, Pod.decode_encode]
  have hreader : reader = ⟨readPod BranchHeader page 0, [readPod BranchEntryMetadata page 24,
      recordAt longKey right 60], page⟩ := by
    rw [BranchPage.fromPage, refFromPrefix_of_le (by rw [hlength, size_branchHeader]; decide),
      ok_bind, hcount, refFromPrefixWithElems_of_le (by
        rw [hlength, size_branchHeader, size_branchEntryMetadata]; decide), ok_bind, pure_eq_ok,
      Except.ok.injEq] at hpage
    rw [← hpage, ← hread]
    rfl
  rw [hreader, BranchPage.branchEntries] at hentries
  dsimp only at hentries
  rw [List.mapM_cons, List.mapM_cons, List.mapM_nil] at hentries
  obtain ⟨first, -, hentries⟩ := bind_eq_ok.mp hentries
  obtain ⟨others, hothers, hentries⟩ := bind_eq_ok.mp hentries
  obtain ⟨second, hsecond, hothers⟩ := bind_eq_ok.mp hothers
  obtain ⟨key, hkey, hsecond⟩ := bind_eq_ok.mp hsecond
  have hsame : key = longKey := by
    rw [pure_eq_ok, Except.ok.injEq] at hsecond hentries
    rw [pure_eq_ok, ok_bind, pure_eq_ok, Except.ok.injEq] at hothers
    rw [← hothers, ← hsecond] at hentries
    exact congrArg Prod.fst (List.cons.inj (List.cons.inj hentries).2).1
  have hin : KeyInside page longKey 60 :=
    ⟨by rw [hlength, length_longKey], by rw [hlength]; decide⟩
  have hslice : slice page 60 4036 = longKey := by
    have hsize : (recordAt longKey right 60).keySize.toNat = longKey.length :=
      hin.record_size right
    have hoffset : (recordAt longKey right 60).keyOffset.toNat = 60 := hin.record_offset right
    rw [BranchPage.entryKey, hoffset, hsize, length_longKey,
      slicePage_of_le (by rw [hlength]), Except.ok.injEq, hsame] at hkey
    exact hkey
  -- and so the key's fifth byte is the first byte of its own size
  have hfifth : slice page 64 1 = [1] := by
    have hinner := @slice_slice page 60 4036 4 1 (by decide)
    rw [hslice] at hinner
    rw [← hinner, slice, longKey, List.drop_replicate, List.take_replicate]
    rfl
  have hsize : slice page 64 1 = [196] := by
    have hinner := @slice_slice page 64 40 0 1 (by decide)
    rw [hrecord] at hinner
    rw [← hinner]
    have hencode : Pod.encode (recordAt longKey right 60) =
        toLE 8 (UInt64.ofNat longKey.length).toNat ++ (toLE 8 (UInt64.ofNat 60).toNat ++
          (Pod.encode right.1 ++ Pod.encode right.2)) := rfl
    rw [hencode, length_longKey]
    rfl
  rw [hfifth] at hsize
  exact absurd hsize (by decide)

/-- **A separator can be overwritten.** A leaf takes a key, and its split keeps the pairs, but
the new root does not decode to the separator. -/
theorem separator_overwritten :
    ∃ page builder, LeafReached .release 4096 (LeafRoom 4096) page ∧
      LeafBuilder.fromPage page = .ok builder ∧
      24 + 32 + longKey.length + ([] : Value).length ≤ 4096 ∧
      LeafPageMutator.fits page longKey [] = .ok false ∧
      LeafHalves (LeafRoom 4096) (builder.insert longKey []).kvPairs ∧
      (∀ left right : Bytes, left.length = 4096 → right.length = 4096 → ∃ left' right',
        (builder.insert longKey []).buildSplitPages .release left right =
          .ok (longKey, left', right')) ∧
      ∀ left right : Child, ¬RootDecodes .release 4096 left longKey right := by
  have hkey := length_longKey
  -- Two leaves of one pair each are well within the page, and the key of the second is longer
  -- than what a branch page keeps free for the record and the key of its second entry.
  obtain ⟨page, ms, hreached, -, hholds, hend⟩ := @leafReached_single 4096 .release (LeafRoom 4096)
    (by decide) (by decide) [0] [0] (by decide)
  have hms : ms.length = 1 := hholds.length.symm
  have hinsert : LeafBuilder.insert ⟨[([0], [0])]⟩ longKey [] = ⟨[([0], [0]), (longKey, [])]⟩ := rfl
  have hhalves : LeafHalves (LeafRoom 4096) [([0], [0]), (longKey, [])] := by
    simp only [LeafHalves, LeafRoom, List.length_cons, List.length_nil, Nat.reduceAdd,
      Nat.reduceDiv, List.take_succ_cons, List.take_zero, List.drop_succ_cons, List.drop_zero,
      leafSize_cons, leafSize_nil, hkey]
    decide
  refine ⟨page, _, hreached, hholds.builder, by rw [hkey]; decide, ?_, by rwa [hinsert],
    fun left right hleft hright => ?_, not_rootDecodes_longKey⟩
  · rw [hholds.fits, hend, hms, hkey]
    exact congrArg Except.ok (decide_eq_false (by decide))
  · obtain ⟨sep, left', right', hsplit, hsep, -⟩ := @buildSplitPages_ok .release
      [([0], [0]), (longKey, [])] left right (by decide)
      (by rw [hleft]; decide) (hright.trans hleft.symm) (by rw [hleft]; exact hhalves.1)
      (by rw [hleft]; exact hhalves.2)
    obtain rfl : longKey = sep := Option.some.inj hsep
    exact ⟨left', right', by rw [hinsert, hsplit]⟩

/-- A root that takes a third child, in pages of their own. -/
theorem separators_decode_root :
    RootDecodes .release 4096 (1, 0) [5] (2, 0) ∧ ∃ page, BranchReached .release 4096
      (BranchRoom 4096) page ∧ KeepsEntries .release page [7] (3, 0) := by
  obtain ⟨hroots, hbranches⟩ := @separators_decode 4096 .release (by decide)
  have hroom : BranchRoom 4096 (BranchBuilder.newRoot 1 0 [5] 2 0).branchEntries := by
    rw [BranchRoom]
    decide
  have hbuffer : (List.replicate 4096 (0 : UInt8)).length = 4096 := List.length_replicate
  have hroot := hroots (1, 0) [5] (2, 0) hroom
  obtain ⟨page, reader, hrun, hdecodes⟩ := hroot _ hbuffer
  have hreached : BranchReached .release 4096 (BranchRoom 4096) page :=
    @BranchReached.root _ _ _ _ _ (1, 0) (2, 0) _ hbuffer hroom hrun
  have hbuilder : BranchBuilder.fromPage page = .ok ⟨[([], 1, 0), ([5], 2, 0)]⟩ := by
    rw [BranchBuilder.fromPage, hdecodes.fromPage, ok_bind, hdecodes.entries]
    rfl
  refine ⟨hroot, page, hreached, hbranches page hreached _ hbuilder [7] (3, 0)
    ⟨[([], 1, 0), ([5], 2, 0), ([7], 3, 0)]⟩ rfl ⟨?_, ?_⟩⟩ <;>
  · rw [BranchRoom]
    decide

end KvRaft.Kv
