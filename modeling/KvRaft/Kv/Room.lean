import KvRaft.Kv.Splitting
import KvRaft.Kv.TreeSpec

/-!
# Room for a pair

Whether an insertion finds room, read off the pages before it. On its way down the code
asks each node whether the pair, or the separator of a split below, fits into the page; if
it does not, the entries of the page and the new one are divided between two pages, and
nothing asks whether each half has room in its page.

`HasRoom` follows the code through the pages: every page that would be built has room for
its entries, and the page of the pair or of the separator is split, if it is, at `sep`.
`Accepts` adds the new root. It is a matter of the leaf of the key, and of the branches above
it if that leaf is split (`hasRoom_iff`).
-/

namespace KvRaft.Kv

open Bytes Ordered

/-- A leaf takes a pair: in place, or by a split at `sep` into two pages with room. -/
inductive LeafTakes (pageSize : ℕ) (page : Bytes) (key : Key) (value : Value) :
    Option Key → Prop
  | inPlace (hfits : LeafPageMutator.fits page key value = .ok true) :
      LeafTakes pageSize page key value none
  | split {builder : LeafBuilder} {sep : Key}
      (hfits : LeafPageMutator.fits page key value = .ok false)
      (hbuilder : LeafBuilder.fromPage page = .ok builder)
      (htwo : 2 ≤ (builder.insert key value).kvPairs.length)
      (hhalves : LeafHalves (LeafRoom pageSize) (builder.insert key value).kvPairs)
      (hsep : (((builder.insert key value).kvPairs.drop
        ((builder.insert key value).kvPairs.length / 2)).head?).map Prod.fst = some sep) :
      LeafTakes pageSize page key value (some sep)

/-- A branch takes what the split of a child asks of it: nothing; a separator in place; or a
separator by a split into two pages with room. The id and the checksum of the new child take
as much room as any others. -/
inductive BranchTakes (pageSize : ℕ) (page : Bytes) : Option Key → Option Key → Prop
  | unsplit : BranchTakes pageSize page none none
  | inPlace {sep : Key} (hfits : BranchPageMutator.fits page sep = .ok true) :
      BranchTakes pageSize page (some sep) none
  | split {sep sep' : Key} {builder builder' : BranchBuilder}
      (hfits : BranchPageMutator.fits page sep = .ok false)
      (hbuilder : BranchBuilder.fromPage page = .ok builder)
      (hinsert : builder.insert sep 0 0 = .ok builder')
      (hhalves : BranchHalves (BranchRoom pageSize) builder'.branchEntries)
      (hsep : ((builder'.branchEntries.drop (builder'.branchEntries.length / 2)).head?).map
        Prod.fst = some sep') :
      BranchTakes pageSize page (some sep) (some sep')

/-- The pages from `pageId` down have room for the pair, and the page is split at `sep`. -/
inductive HasRoom (view : View) (pageSize : ℕ) (key : Key) (value : Value) :
    (pageId : PageId) → Option Key → Prop
  | leaf {pageId : PageId} {page : Bytes} {sep : Option Key} (hpage : view pageId = some page)
      (hkind : NodeKind.parse page = .ok .leaf)
      (htakes : LeafTakes pageSize page key value sep) :
      HasRoom view pageSize key value pageId sep
  | branch {pageId childPageId : PageId} {childIndex : ℕ} {page : Bytes}
      {childSep sep : Option Key} (hpage : view pageId = some page)
      (hkind : NodeKind.parse page = .ok .branch)
      (hchild : BranchPageMutator.childPageForKey page key = .ok (childIndex, childPageId))
      (hbelow : HasRoom view pageSize key value childPageId childSep)
      (htakes : BranchTakes pageSize page childSep sep) :
      HasRoom view pageSize key value pageId sep

/-- The leaf that the pages from `pageId` down lead a key to. -/
inductive LeafFor (view : View) (key : Key) : PageId → Bytes → Prop
  | leaf {pageId : PageId} {page : Bytes} (hpage : view pageId = some page)
      (hkind : NodeKind.parse page = .ok .leaf) : LeafFor view key pageId page
  | branch {pageId childPageId : PageId} {childIndex : ℕ} {page leaf : Bytes}
      (hpage : view pageId = some page) (hkind : NodeKind.parse page = .ok .branch)
      (hchild : BranchPageMutator.childPageForKey page key = .ok (childIndex, childPageId))
      (hbelow : LeafFor view key childPageId leaf) : LeafFor view key pageId leaf

/-- The branches from `pageId` down have room for what a split of the leaf of the key asks of
them. The first separator is that of the leaf, the second that of `pageId`. -/
inductive BranchesTake (view : View) (pageSize : ℕ) (key : Key) :
    PageId → Option Key → Option Key → Prop
  | leaf {pageId : PageId} {page : Bytes} {sep : Option Key} (hpage : view pageId = some page)
      (hkind : NodeKind.parse page = .ok .leaf) : BranchesTake view pageSize key pageId sep sep
  | branch {pageId childPageId : PageId} {childIndex : ℕ} {page : Bytes}
      {leafSep childSep sep : Option Key} (hpage : view pageId = some page)
      (hkind : NodeKind.parse page = .ok .branch)
      (hchild : BranchPageMutator.childPageForKey page key = .ok (childIndex, childPageId))
      (hbelow : BranchesTake view pageSize key childPageId leafSep childSep)
      (htakes : BranchTakes pageSize page childSep sep) :
      BranchesTake view pageSize key pageId leafSep sep

/-- A new root has room for the separator of the old one. -/
def RootTakes (pageSize : ℕ) (sep : Option Key) : Prop :=
  ∀ key ∈ sep, BranchRoom pageSize (BranchBuilder.newRoot 0 0 key 0 0).branchEntries

/-- The tree below a root has room for the pair. -/
def Accepts (view : View) (pageSize : ℕ) (rootPage : PageId) (key : Key) (value : Value) : Prop :=
  ∃ sep, HasRoom view pageSize key value rootPage sep ∧ RootTakes pageSize sep

section

variable {view : View} {pageSize : ℕ} {page : Bytes} {key : Key} {value : Value}
  {pageId : PageId} {sep : Option Key}

/-! ### What the nodes say -/

theorem leaf_not_branch {page' : Bytes} (hleaf : view pageId = some page)
    (hkind : NodeKind.parse page = .ok .leaf) (hbranch : view pageId = some page')
    (hkind' : NodeKind.parse page' = .ok .branch) : False := by
  rw [hleaf, Option.some.injEq] at hbranch
  subst hbranch
  rw [hkind] at hkind'
  exact absurd hkind' (by simp)

theorem HasRoom.of_leaf (h : HasRoom view pageSize key value pageId sep)
    (hpage : view pageId = some page) (hkind : NodeKind.parse page = .ok .leaf) :
    LeafTakes pageSize page key value sep := by
  cases h with
  | leaf hpage' _ htakes =>
    rw [hpage, Option.some.injEq] at hpage'
    exact hpage' ▸ htakes
  | branch hpage' hkind' _ _ _ =>
    exact (leaf_not_branch hpage hkind hpage' hkind').elim

theorem HasRoom.of_branch (h : HasRoom view pageSize key value pageId sep)
    (hpage : view pageId = some page) (hkind : NodeKind.parse page = .ok .branch) {childIndex : ℕ}
    {childPageId : PageId}
    (hchild : BranchPageMutator.childPageForKey page key = .ok (childIndex, childPageId)) :
    ∃ childSep, HasRoom view pageSize key value childPageId childSep ∧
      BranchTakes pageSize page childSep sep := by
  cases h with
  | leaf hpage' hkind' _ =>
    exact (leaf_not_branch hpage' hkind' hpage hkind).elim
  | branch hpage' _ hchild' hbelow htakes =>
    rw [hpage, Option.some.injEq] at hpage'
    subst hpage'
    rw [hchild, Except.ok.injEq, Prod.mk.injEq] at hchild'
    exact ⟨_, hchild'.2 ▸ hbelow, htakes⟩

/-- A leaf with room for the pair is edited in place. -/
theorem leafTakes_of_fits (hfits : LeafPageMutator.fits page key value = .ok true) :
    LeafTakes pageSize page key value sep ↔ sep = none := by
  constructor
  · rintro (_ | ⟨hfits', -⟩)
    · rfl
    · rw [hfits] at hfits'
      exact absurd hfits' (by simp)
  · rintro rfl
    exact .inPlace hfits

/-- The middle of two entries or more. -/
theorem exists_middle {V : Type} {l : List (Key × V)} (h : 2 ≤ l.length) :
    ∃ sep, ((l.drop (l.length / 2)).head?).map Prod.fst = some sep := by
  have hmid : l.length / 2 < l.length := by omega
  rw [List.head?_drop, List.getElem?_eq_getElem hmid]
  exact ⟨_, rfl⟩

/-- A leaf without room for the pair is split in the middle. -/
theorem leafTakes_of_not_fits {kvs : List LeafEntry}
    (hfits : LeafPageMutator.fits page key value = .ok false)
    (hbuilder : LeafBuilder.fromPage page = .ok ⟨kvs⟩) :
    LeafTakes pageSize page key value sep ↔
      (2 ≤ (upsert key value kvs).length ∧
        LeafHalves (LeafRoom pageSize) (upsert key value kvs)) ∧
      (((upsert key value kvs).drop ((upsert key value kvs).length / 2)).head?).map Prod.fst =
        sep := by
  have hkvs := LeafBuilder.insert_kvPairs kvs key value
  constructor
  · intro h
    -- the record says the page is full, so the pair cannot have gone in place
    cases h with
    | inPlace hfits' =>
      rw [hfits] at hfits'
      exact absurd hfits' (by simp)
    | split _ hbuilder' htwo hhalves hsep =>
      rw [hbuilder, Except.ok.injEq] at hbuilder'
      subst hbuilder'
      rw [hkvs] at htwo hhalves hsep
      exact ⟨⟨htwo, hhalves⟩, hsep⟩
  · rintro ⟨⟨htwo, hhalves⟩, hsep⟩
    obtain ⟨sepKey, hmiddle⟩ := exists_middle htwo
    rw [hmiddle] at hsep
    subst hsep
    rw [← hkvs] at htwo hhalves hmiddle
    exact .split hfits hbuilder htwo hhalves hmiddle

/-- A branch none of whose children was split stays. -/
theorem branchTakes_none : BranchTakes pageSize page none sep ↔ sep = none := by
  constructor
  · rintro ⟨⟩
    rfl
  · rintro rfl
    exact .unsplit

/-- A branch with room for the separator is edited in place. -/
theorem branchTakes_of_fits {key : Key} (hfits : BranchPageMutator.fits page key = .ok true) :
    BranchTakes pageSize page (some key) sep ↔ sep = none := by
  constructor
  · intro h
    cases h with
    | inPlace _ => rfl
    | split hfits' _ _ _ _ =>
      rw [hfits] at hfits'
      exact absurd hfits' (by simp)
  · rintro rfl
    exact .inPlace hfits

/-! ### The leaf of a key -/

/-- A key has one leaf. -/
theorem LeafFor.unique {leaf leaf' : Bytes} (h : LeafFor view key pageId leaf)
    (h' : LeafFor view key pageId leaf') : leaf = leaf' := by
  induction h with
  | leaf hpage hkind =>
    cases h' with
    | leaf hpage' _ =>
      rw [hpage, Option.some.injEq] at hpage'
      exact hpage'
    | branch hpage' hkind' _ _ =>
      exact (leaf_not_branch hpage hkind hpage' hkind').elim
  | branch hpage hkind hchild _ ih =>
    cases h' with
    | leaf hpage' hkind' =>
      exact (leaf_not_branch hpage' hkind' hpage hkind).elim
    | branch hpage' _ hchild' hbelow' =>
      rw [hpage, Option.some.injEq] at hpage'
      subst hpage'
      rw [hchild, Except.ok.injEq, Prod.mk.injEq] at hchild'
      obtain ⟨-, rfl⟩ := hchild'
      exact ih hbelow'

/-- The pages have room if the leaf takes the pair and the branches above it what a split of
the leaf asks of them. -/
theorem hasRoom_iff {leaf : Bytes} (hleaf : LeafFor view key pageId leaf) :
    HasRoom view pageSize key value pageId sep ↔
      ∃ leafSep, LeafTakes pageSize leaf key value leafSep ∧
        BranchesTake view pageSize key pageId leafSep sep := by
  -- Down the path to the leaf of the key: every page above sees only the separator that the page
  -- below it handed up.
  induction hleaf generalizing sep with
  | leaf hpage hkind =>
    constructor
    · intro h
      exact ⟨sep, h.of_leaf hpage hkind, .leaf hpage hkind⟩
    · rintro ⟨leafSep, htakes, habove⟩
      cases habove with
      | leaf _ _ => exact .leaf hpage hkind htakes
      | branch hpage' hkind' _ _ _ =>
        -- a page is not read as a leaf by one and as a branch by the other
        exact (leaf_not_branch hpage hkind hpage' hkind').elim
  | branch hpage hkind hchild _ ih =>
    constructor
    · intro h
      obtain ⟨childSep, hbelow, htakes⟩ := h.of_branch hpage hkind hchild
      obtain ⟨leafSep, hleaf, habove⟩ := ih.mp hbelow
      exact ⟨leafSep, hleaf, .branch hpage hkind hchild habove htakes⟩
    · rintro ⟨leafSep, hleaf, habove⟩
      cases habove with
      | leaf hpage' hkind' =>
        exact (leaf_not_branch hpage' hkind' hpage hkind).elim
      | branch hpage' _ hchild' hbelow htakes =>
        rw [hpage, Option.some.injEq] at hpage'
        subst hpage'
        rw [hchild, Except.ok.injEq, Prod.mk.injEq] at hchild'
        obtain ⟨-, rfl⟩ := hchild'
        exact .branch hpage hkind hchild (ih.mpr ⟨leafSep, hleaf, hbelow⟩) htakes

/-- Nothing is asked of the branches if the leaf is not split. -/
theorem LeafFor.branchesTake_none {leaf : Bytes} (h : LeafFor view key pageId leaf) :
    BranchesTake view pageSize key pageId none none := by
  induction h with
  | leaf hpage hkind => exact .leaf hpage hkind
  | branch hpage hkind hchild _ ih => exact .branch hpage hkind hchild ih .unsplit

/-- A tree leads every key of its interval to the leaf that holds its value. -/
theorem TreeAt.leafFor {env : Env} {known : View} {d : ℕ} {lo : WithBot Key} {hi : WithTop Key}
    {c : Child} {m : Key → Option Value} {ps : List PageId} (h : TreeAt env known d lo hi c m ps)
    (hknown : ∀ id data, known id = some data → view id = some data) (hlo : lo ≤ key)
    (hhi : (key : WithTop Key) < hi) :
    ∃ id ∈ ps, ∃ leaf kvs, known id = some leaf ∧ LeafOk leaf kvs ∧ contents kvs key = m key ∧
      LeafFor view key c.1 leaf := by
  induction d generalizing lo hi c m ps with
  | zero =>
    obtain ⟨page, kvs, hpage, -, hleaf, -, -, rfl, rfl⟩ := h
    obtain ⟨ms, hholds⟩ := hleaf
    exact ⟨c.1, List.mem_singleton_self _, page, kvs, hpage, ⟨ms, hholds⟩, rfl,
      .leaf (hknown _ _ hpage) hholds.parse⟩
  | succ d ih =>
    obtain ⟨page, cells, qs, hpage, -, ⟨ms, hbranch⟩, hforest, -, rfl⟩ := h
    obtain ⟨lo', hi', c', m', before, own, after, hfocus⟩ := hforest.route hlo hhi
    obtain ⟨id, hid, leaf, kvs, hleaf, hok, hvalue, hfor⟩ := ih hfocus.tree hfocus.le hfocus.lt
    refine ⟨id, List.mem_cons_of_mem _ ?_, leaf, kvs, hleaf, hok, ?_, ?_⟩
    · rw [hfocus.pages]
      exact List.mem_append_left _ (List.mem_append_right _ hid)
    · rw [hvalue, hfocus.lookup]
    · exact .branch (hknown _ _ hpage) hbranch.parse (hbranch.childPageForKey hfocus.child) hfor

/-! ### Entries of branches

The keys alone decide how much room the entries of a branch take. -/

theorem branchRoom_congr {cells cells' : List BranchEntry}
    (h : cells.map Prod.fst = cells'.map Prod.fst) :
    BranchRoom pageSize cells ↔ BranchRoom pageSize cells' := by
  have hlength : cells.length = cells'.length := by
    simpa only [List.length_map] using congrArg List.length h
  have htail : cells.tail.map Prod.fst = cells'.tail.map Prod.fst := by
    rw [List.map_tail, h, List.map_tail]
  have hkeys : ∀ l : List BranchEntry,
      (l.map fun e => e.1.length) = (l.map Prod.fst).map List.length := fun l => by
    rw [List.map_map]
    rfl
  rw [BranchRoom, BranchRoom, branchSize_withoutFirstKey, branchSize_withoutFirstKey, hkeys,
    hkeys, hlength, htail]

theorem branchHalves_congr {cells cells' : List BranchEntry}
    (h : cells.map Prod.fst = cells'.map Prod.fst) :
    BranchHalves (BranchRoom pageSize) cells ↔ BranchHalves (BranchRoom pageSize) cells' := by
  have hlength : cells.length = cells'.length := by
    simpa only [List.length_map] using congrArg List.length h
  rw [BranchHalves, BranchHalves, hlength]
  refine and_congr (branchRoom_congr ?_) (branchRoom_congr ?_)
  · rw [List.map_take, h, List.map_take]
  · rw [List.map_drop, h, List.map_drop]

/-- A branch without room for the separator is split in the middle. -/
theorem branchTakes_of_not_fits {key : Key} {cells cells' : List BranchEntry} {i : ℕ}
    (hfits : BranchPageMutator.fits page key = .ok false)
    (hbuilder : BranchBuilder.fromPage page = .ok ⟨cells⟩) (hi : i < cells.length)
    (hsearch : binarySearch key (cells.tail.map Prod.fst) = .error i)
    (hkeys : cells'.map Prod.fst = cells.map Prod.fst) (child : Child) :
    BranchTakes pageSize page (some key) sep ↔
      BranchHalves (BranchRoom pageSize) (cells'.insertIdx (i + 1) (key, child)) ∧
      (((cells'.insertIdx (i + 1) (key, child)).drop
        ((cells'.insertIdx (i + 1) (key, child)).length / 2)).head?).map Prod.fst = sep := by
  have hne : cells ≠ [] := List.length_pos_iff.mp (by omega)
  -- The halves are measured in keys, and the two lists of entries differ in children only.
  have hsame : (cells.insertIdx (i + 1) (key, 0, 0)).map Prod.fst =
      (cells'.insertIdx (i + 1) (key, child)).map Prod.fst := by
    rw [List.map_insertIdx, List.map_insertIdx, hkeys]
  have hlength : (cells.insertIdx (i + 1) (key, 0, 0)).length =
      (cells'.insertIdx (i + 1) (key, child)).length := by
    simpa only [List.length_map] using congrArg List.length hsame
  have hmiddle : (((cells.insertIdx (i + 1) (key, 0, 0)).drop
        ((cells.insertIdx (i + 1) (key, 0, 0)).length / 2)).head?).map Prod.fst =
      (((cells'.insertIdx (i + 1) (key, child)).drop
        ((cells'.insertIdx (i + 1) (key, child)).length / 2)).head?).map Prod.fst := by
    rw [← List.head?_map, ← List.head?_map, List.map_drop, List.map_drop, hsame, hlength]
  have hinsert := BranchBuilder.insert_ok hne hsearch (0, 0)
  rw [← hmiddle, ← branchHalves_congr hsame]
  constructor
  · intro h
    cases h with
    | inPlace hfits' =>
      rw [hfits] at hfits'
      exact absurd hfits' (by simp)
    | split _ hbuilder' hinsert' hhalves hsep =>
      rw [hbuilder, Except.ok.injEq] at hbuilder'
      subst hbuilder'
      rw [hinsert, Except.ok.injEq] at hinsert'
      subst hinsert'
      exact ⟨hhalves, hsep⟩
  · rintro ⟨hhalves, hsep⟩
    obtain ⟨sepKey, hsome⟩ : ∃ sepKey, sep = some sepKey := by
      obtain ⟨sepKey, h⟩ := exists_middle (l := cells.insertIdx (i + 1) (key, 0, 0)) (by
        rw [List.length_insertIdx_of_le_length (by omega)]
        omega)
      exact ⟨sepKey, hsep.symm.trans h⟩
    subst hsome
    exact .split hfits hbuilder hinsert hhalves hsep

/-- Replacing a child does not change what fits. -/
theorem BranchHolds.fits_setChildAtIndex {ms ms' : List BranchEntryMetadata}
    {cells : List BranchEntry} (h : BranchHolds page ms cells) {i : ℕ} (hi : i < cells.length)
    {child : Child} {page' : Bytes}
    (hrun : BranchPageMutator.setChildAtIndex page i child.1 child.2 = .ok page')
    (h' : BranchHolds page' ms' (setChild cells i child)) (key : Key) :
    BranchPageMutator.fits page' key = BranchPageMutator.fits page key := by
  have hroom := h.room
  have hbound := h.bound
  have hlength := h.length
  have hcount : ms'.length = ms.length := by
    rw [← h'.length, ← h.length, setChild, List.length_modify]
  rw [h.setChildAtIndex_eq hi, Except.ok.injEq] at hrun
  have hheader : readPod BranchHeader page' 0 = readPod BranchHeader page 0 := by
    rw [← hrun, readPod_splice]
    · rw [List.length_append, Pod.length_encode, Pod.length_encode]
      change 24 + i * 40 + 16 + (8 + 16) ≤ _
      omega
    · exact Or.inl (by rw [size_branchHeader]; omega)
  rw [h'.fits, h.fits, hcount, hheader]

/-- A new root has room whatever its children are. -/
theorem rootTakes_iff {key : Key} (left right : Child) :
    RootTakes pageSize (some key) ↔
      BranchRoom pageSize (BranchBuilder.newRoot left.1 left.2 key right.1 right.2).branchEntries := by
  have hsame : (BranchBuilder.newRoot 0 0 key 0 0).branchEntries.map Prod.fst =
      (BranchBuilder.newRoot left.1 left.2 key right.1 right.2).branchEntries.map Prod.fst := rfl
  rw [← branchRoom_congr hsame, RootTakes]
  simp

end

end KvRaft.Kv
