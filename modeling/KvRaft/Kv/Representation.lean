import KvRaft.Kv.Verified

/-!
# The shape of the tree

`Node` is a tree of pages as a value, and `Tree.decode` reads it from the pages: what every
reader of the pages would see that goes everywhere. A tree is well formed
(`Node.WellFormed`) if all leaves are at the same depth, the keys of each leaf increase, the
separators of each branch increase and divide the keys of its children, no branch is
without a child, no leaf but that of the empty tree is without a key, and no page occurs
twice.

Whatever has been inserted, the tree of a write transaction is well formed
(`representation_invariant`), and looking up a key in it visits as many pages as the tree
is high.
-/

namespace KvRaft.Kv

open Ordered

/-- A tree of pages. The key of the first child of a branch means nothing. -/
inductive Node
  | leaf (id : PageId) (pairs : List (Key × Value))
  | branch (id : PageId) (children : List (Key × Node))

namespace Node

/-- The page of the root. -/
def id : Node → PageId
  | .leaf id _ => id
  | .branch id _ => id

mutual

/-- All nodes of a tree, the root first. -/
def nodes : Node → List Node
  | .leaf id pairs => [.leaf id pairs]
  | .branch id children => .branch id children :: childNodes children

/-- All nodes below a branch. -/
def childNodes : List (Key × Node) → List Node
  | [] => []
  | (_, child) :: rest => child.nodes ++ childNodes rest

end

mutual

/-- The depths of the leaves. -/
def leafDepths : Node → List ℕ
  | .leaf _ _ => [0]
  | .branch _ children => (childLeafDepths children).map (· + 1)

/-- The depths of the leaves below a branch, from its children. -/
def childLeafDepths : List (Key × Node) → List ℕ
  | [] => []
  | (_, child) :: rest => child.leafDepths ++ childLeafDepths rest

end

/-- The pages of a tree. -/
def pageIds (t : Node) : List PageId := t.nodes.map id

/-- The number of levels. -/
def height (t : Node) : ℕ := (t.leafDepths.foldr max 0) + 1

/-- The keys a node holds itself. -/
def ownKeys : Node → List Key
  | .leaf _ pairs => pairs.map Prod.fst
  | .branch _ _ => []

/-- The keys stored in a tree. -/
def keys (t : Node) : List Key := t.nodes.flatMap ownKeys

/-- The children of a branch: there is one, the separators increase, and they divide the
keys stored below. -/
structure Divided (children : List (Key × Node)) : Prop where
  ne_nil : children ≠ []
  separators : (children.tail.map Prod.fst).Pairwise (· < ·)
  lower : ∀ i a, children[i]? = some a → 1 ≤ i → ∀ k ∈ a.2.keys, a.1 ≤ k
  upper : ∀ i a b, children[i]? = some a → children[i + 1]? = some b → ∀ k ∈ a.2.keys, k < b.1

structure WellFormed (t : Node) : Prop where
  /-- All leaves are at the same depth. -/
  level : ∀ a ∈ t.leafDepths, ∀ b ∈ t.leafDepths, a = b
  /-- The keys of a leaf increase. -/
  sorted : ∀ id pairs, .leaf id pairs ∈ t.nodes → Sorted pairs
  /-- Only the leaf of the empty tree is empty. -/
  nonempty : ∀ id, .leaf id [] ∈ t.nodes → t = .leaf id []
  divided : ∀ id children, .branch id children ∈ t.nodes → Divided children
  /-- No page occurs twice. -/
  distinct : t.pageIds.Nodup

end Node

namespace Tree

/-- The loop over the entries of a branch. -/
def decodeEntries (decode : PageId → Call Node) : List BranchEntry → Call (List (Key × Node))
  | [] => pure []
  | entry :: rest => do
    let child ← decode entry.2.1
    let children ← decodeEntries decode rest
    pure ((entry.1, child) :: children)

/-- The tree below a page. -/
def decode : ℕ → PageId → Call Node
  | 0, _ => .fault .outOfFuel
  | depth + 1, pageId => do
    let page ← readPage pageId
    match ← NodePage.fromPage page with
    | .leaf leafPage =>
      let pairs ← leafPage.kvPairs
      pure (.leaf pageId pairs)
    | .branch branchPage =>
      let entries ← branchPage.branchEntries
      let children ← decodeEntries (decode depth) entries
      pure (.branch pageId children)

end Tree

/-- A handler that counts the pages it reads. -/
def counted {σ : Type} (H : Handler signature Fault σ) : Handler signature Fault (σ × ℕ)
  | o, (s, n) =>
    let (result, s') := H o s
    (result, s', match o with
      | .readPage _ => n + 1
      | _ => n)

/-! ### Trees of pages are well formed -/

/-- The tree has the depth, the pages and the keys that the pages say. -/
structure Node.Represents (d : ℕ) (lo : WithBot Key) (hi : WithTop Key) (ps : List PageId)
    (t : Node) : Prop where
  deep : t.leafDepths ≠ []
  level : ∀ n ∈ t.leafDepths, n = d
  ids : t.pageIds = ps
  range : ∀ k ∈ t.keys, lo ≤ (k : WithBot Key) ∧ (k : WithTop Key) < hi
  sorted : ∀ id pairs, .leaf id pairs ∈ t.nodes → Sorted pairs
  nonempty : ∀ id, .leaf id [] ∈ t.nodes → lo = ⊥ ∧ hi = ⊤ ∧ t = .leaf id []
  divided : ∀ id children, .branch id children ∈ t.nodes → Divided children

/-- The same for the children of a branch. -/
structure Node.ChildrenRepresent (d : ℕ) (lo : WithBot Key) (hi : WithTop Key)
    (ps : List PageId) (children : List (Key × Node)) : Prop where
  ne_nil : children ≠ []
  deep : childLeafDepths children ≠ []
  level : ∀ n ∈ childLeafDepths children, n = d
  ids : (childNodes children).map Node.id = ps
  range : ∀ k ∈ (childNodes children).flatMap ownKeys,
    lo ≤ (k : WithBot Key) ∧ (k : WithTop Key) < hi
  bounds : ∀ a ∈ children.tail, lo < (a.1 : WithBot Key) ∧ (a.1 : WithTop Key) < hi
  separators : (children.tail.map Prod.fst).Pairwise (· < ·)
  lower : ∀ i a, children[i]? = some a → 1 ≤ i → ∀ k ∈ a.2.keys, a.1 ≤ k
  upper : ∀ i a b, children[i]? = some a → children[i + 1]? = some b → ∀ k ∈ a.2.keys, k < b.1
  sorted : ∀ id pairs, .leaf id pairs ∈ childNodes children → Sorted pairs
  nonempty : ∀ id, .leaf id [] ∈ childNodes children → lo = ⊥ ∧ hi = ⊤ ∧ children.length = 1
  divided : ∀ id children', .branch id children' ∈ childNodes children → Divided children'

section

open Node

variable {env : Env} {view : View} {X : Fault → Prop} {d : ℕ} {lo : WithBot Key}
  {hi : WithTop Key} {m : Key → Option Value} {ps : List PageId}

/-- One child. -/
theorem Node.ChildrenRepresent.single {key : Key} {t : Node} (h : Represents d lo hi ps t) :
    ChildrenRepresent d lo hi ps [(key, t)] := by
  have hnodes : childNodes [(key, t)] = t.nodes := by
    rw [childNodes, childNodes, List.append_nil]
  have hdepths : childLeafDepths [(key, t)] = t.leafDepths := by
    rw [childLeafDepths, childLeafDepths, List.append_nil]
  exact {
    ne_nil := List.cons_ne_nil _ _
    deep := by rw [hdepths]; exact h.deep
    level := by rw [hdepths]; exact h.level
    ids := by rw [hnodes, ← h.ids, pageIds]
    range := by rw [hnodes]; exact h.range
    bounds := fun a ha => absurd ha List.not_mem_nil
    separators := List.Pairwise.nil
    lower := fun i a ha hi => by
      rw [List.getElem?_eq_none (by simpa using hi)] at ha
      exact absurd ha (by simp)
    upper := fun i a b _ hb => absurd hb (by simp)
    sorted := by rw [hnodes]; exact h.sorted
    nonempty := fun id hid => by
      rw [hnodes] at hid
      exact ⟨(h.nonempty id hid).1, (h.nonempty id hid).2.1, rfl⟩
    divided := by rw [hnodes]; exact h.divided }

/-- A child in front of the others. -/
theorem Node.ChildrenRepresent.cons {key : Key} {t : Node} {b : Key × Node}
    {rest : List (Key × Node)} {ps₁ ps₂ : List PageId} (h : Represents d lo b.1 ps₁ t)
    (hlo : lo < (b.1 : WithBot Key)) (hhi : (b.1 : WithTop Key) < hi)
    (hrest : ChildrenRepresent d b.1 hi ps₂ (b :: rest)) :
    ChildrenRepresent d lo hi (ps₁ ++ ps₂) ((key, t) :: b :: rest) := by
  have hnodes : childNodes ((key, t) :: b :: rest) = t.nodes ++ childNodes (b :: rest) := by
    rw [childNodes]
  have hdepths : childLeafDepths ((key, t) :: b :: rest) =
      t.leafDepths ++ childLeafDepths (b :: rest) := by
    rw [childLeafDepths]
  have hbounds : ∀ a ∈ rest, b.1 < a.1 ∧ (a.1 : WithTop Key) < hi := fun a ha =>
    ⟨WithBot.coe_lt_coe.mp (hrest.bounds a ha).1, (hrest.bounds a ha).2⟩
  exact {
    ne_nil := List.cons_ne_nil _ _
    deep := by
      rw [hdepths]
      exact List.append_ne_nil_of_left_ne_nil h.deep _
    level := fun n hn => by
      rw [hdepths, List.mem_append] at hn
      exact hn.elim (h.level n) (hrest.level n)
    ids := by rw [hnodes, List.map_append, hrest.ids, ← h.ids, pageIds]
    range := fun k hk => by
      rw [hnodes, List.flatMap_append, List.mem_append] at hk
      rcases hk with hk | hk
      · exact ⟨(h.range k hk).1, (h.range k hk).2.trans hhi⟩
      · exact ⟨hlo.le.trans (hrest.range k hk).1, (hrest.range k hk).2⟩
    bounds := fun a ha => by
      rcases List.mem_cons.mp ha with rfl | ha
      · exact ⟨hlo, hhi⟩
      · exact ⟨hlo.trans (WithBot.coe_lt_coe.mpr (hbounds a ha).1), (hbounds a ha).2⟩
    separators := by
      rw [List.tail_cons, List.map_cons, List.pairwise_cons]
      refine ⟨fun s hs => ?_, hrest.separators⟩
      obtain ⟨a, ha, rfl⟩ := List.mem_map.mp hs
      exact (hbounds a ha).1
    lower := fun i a ha hpos k hk => by
      obtain ⟨i, rfl⟩ := Nat.exists_eq_succ_of_ne_zero (by omega : i ≠ 0)
      rw [List.getElem?_cons_succ] at ha
      rcases Nat.eq_zero_or_pos i with rfl | hi'
      · -- the second child starts at its separator
        rw [List.getElem?_cons_zero, Option.some.injEq] at ha
        subst ha
        refine WithBot.coe_le_coe.mp (hrest.range k ?_).1
        rw [childNodes, List.flatMap_append]
        exact List.mem_append_left _ hk
      · exact hrest.lower i a ha hi' k hk
    upper := fun i a c ha hc k hk => by
      rw [List.getElem?_cons_succ] at hc
      cases i with
      | zero =>
        rw [List.getElem?_cons_zero, Option.some.injEq] at ha hc
        subst ha hc
        exact WithTop.coe_lt_coe.mp (h.range k hk).2
      | succ i =>
        rw [List.getElem?_cons_succ] at ha
        exact hrest.upper i a c ha hc k hk
    sorted := fun id pairs hid => by
      rw [hnodes, List.mem_append] at hid
      exact hid.elim (h.sorted id pairs) (hrest.sorted id pairs)
    nonempty := fun id hid => by
      rw [hnodes, List.mem_append] at hid
      -- an empty leaf is the whole tree, so it has no sibling
      rcases hid with hid | hid
      · exact absurd (h.nonempty id hid).2.1 WithTop.coe_ne_top
      · exact absurd (hrest.nonempty id hid).1 WithBot.coe_ne_bot
    divided := fun id children hid => by
      rw [hnodes, List.mem_append] at hid
      exact hid.elim (h.divided id children) (hrest.divided id children) }

/-- A branch over children. -/
theorem Node.ChildrenRepresent.branch {id : PageId} {children : List (Key × Node)}
    (h : ChildrenRepresent d lo hi ps children) (hwide : children.length = 1 → lo ≠ ⊥ ∨ hi ≠ ⊤) :
    Represents (d + 1) lo hi (id :: ps) (.branch id children) := by
  have hnodes : (Node.branch id children).nodes = .branch id children :: childNodes children := by
    rw [nodes]
  have hdepths : (Node.branch id children).leafDepths = (childLeafDepths children).map (· + 1) := by
    rw [leafDepths]
  exact {
    deep := by
      rw [hdepths]
      exact fun hnil => h.deep (List.map_eq_nil_iff.mp hnil)
    level := fun n hn => by
      rw [hdepths, List.mem_map] at hn
      obtain ⟨n, hn, rfl⟩ := hn
      rw [h.level n hn]
    ids := by
      rw [pageIds, hnodes, List.map_cons, h.ids]
      rfl
    range := fun k hk => by
      rw [keys, hnodes, List.flatMap_cons] at hk
      exact h.range k hk
    sorted := fun id' pairs hid => by
      rw [hnodes, List.mem_cons] at hid
      exact hid.elim (fun heq => absurd heq (by simp)) (h.sorted id' pairs)
    nonempty := fun id' hid => by
      rw [hnodes, List.mem_cons] at hid
      rcases hid with heq | hid
      · exact absurd heq (by simp)
      · obtain ⟨hlo, hhi, hone⟩ := h.nonempty id' hid
        exact (hwide hone).elim (fun hne => absurd hlo hne) fun hne => absurd hhi hne
    divided := fun id' children' hid => by
      rw [hnodes, List.mem_cons] at hid
      rcases hid with heq | hid
      · rw [Node.branch.injEq] at heq
        obtain ⟨-, rfl⟩ := heq
        exact ⟨h.ne_nil, h.separators, h.lower, h.upper⟩
      · exact h.divided id' children' hid }

/-- A leaf. -/
theorem Node.represents_leaf {id : PageId} {pairs : List (Key × Value)} (hsorted : Sorted pairs)
    (hrange : ∀ a ∈ pairs, lo ≤ (a.1 : WithBot Key) ∧ (a.1 : WithTop Key) < hi)
    (hempty : pairs = [] → lo = ⊥ ∧ hi = ⊤) : Represents 0 lo hi [id] (.leaf id pairs) where
  deep := List.cons_ne_nil _ _
  level n hn := List.mem_singleton.mp hn
  ids := rfl
  range k hk := by
    rw [keys, nodes, List.flatMap_singleton, ownKeys] at hk
    obtain ⟨a, ha, rfl⟩ := List.mem_map.mp hk
    exact hrange a ha
  sorted id' pairs' hid := by
    rw [nodes, List.mem_singleton, Node.leaf.injEq] at hid
    rw [hid.2]
    exact hsorted
  nonempty id' hid := by
    rw [nodes, List.mem_singleton, Node.leaf.injEq] at hid
    obtain ⟨rfl, rfl⟩ := hid
    exact ⟨(hempty rfl).1, (hempty rfl).2, rfl⟩
  divided id' children hid := by
    rw [nodes, List.mem_singleton] at hid
    exact absurd hid (by simp)

/-- The page is the root of the tree, and decoding finds it. -/
def Decodes (view : View) (d : ℕ) (c : Child) (t : Node) : Prop :=
  ∀ (X : Fault → Prop) (fuel n : ℕ), d < fuel →
    (Tree.decode fuel c.1).Sat (reading view) X n fun r _ => r = t

/-- The children of a branch are decoded one by one. -/
theorem forest_represents {T : Subtree Key Value Child PageId}
    (hT : ∀ lo hi c m qs, T lo hi c m qs → ∃ t, Represents d lo hi qs t ∧ Decodes view d c t)
    {cells : List BranchEntry} (h : Forest T lo hi cells m ps) :
    ∃ children, ChildrenRepresent d lo hi ps children ∧
      children.map Prod.fst = cells.map Prod.fst ∧
      ∀ (X : Fault → Prop) (fuel n : ℕ), d < fuel →
        (Tree.decodeEntries (Tree.decode fuel) cells).Sat (reading view) X n
          fun r _ => r = children := by
  induction cells generalizing lo m ps with
  | nil => exact h.elim
  | cons a rest ih =>
    -- decoding a list of children decodes the first and then the others
    have hdecode : ∀ {t : Node} {children : List (Key × Node)}, Decodes view d a.2 t →
        (∀ (X : Fault → Prop) (fuel n : ℕ), d < fuel →
          (Tree.decodeEntries (Tree.decode fuel) rest).Sat (reading view) X n
            fun r _ => r = children) →
        ∀ (X : Fault → Prop) (fuel n : ℕ), d < fuel →
          (Tree.decodeEntries (Tree.decode fuel) (a :: rest)).Sat (reading view) X n
            fun r _ => r = (a.1, t) :: children := by
      intro t children hfirst hothers X fuel n hfuel
      rw [Tree.decodeEntries, Program.sat_bind]
      refine (hfirst X fuel n hfuel).mono ?_
      rintro r n' rfl
      rw [Program.sat_bind]
      refine (hothers X fuel n' hfuel).mono ?_
      rintro r' n'' rfl
      rfl
    cases rest with
    | nil =>
      obtain ⟨t, hrep, hdec⟩ := hT _ _ _ _ _ h
      exact ⟨[(a.1, t)], .single hrep, rfl, hdecode hdec fun X fuel n _ => rfl⟩
    | cons b rest =>
      obtain ⟨m₁, m₂, ps₁, ps₂, h₁, hlo, hhi, h₂, -, rfl⟩ := h
      obtain ⟨t, hrep, hdec⟩ := hT _ _ _ _ _ h₁
      obtain ⟨children, hchildren, hkeys, hdecs⟩ := ih h₂
      obtain ⟨b', rest', rfl⟩ := List.exists_cons_of_ne_nil hchildren.ne_nil
      refine ⟨(a.1, t) :: b' :: rest', ?_, by rw [List.map_cons, hkeys]; rfl,
        hdecode hdec hdecs⟩
      have hkey : b'.1 = b.1 := (List.cons.inj hkeys).1
      rw [← hkey] at hrep hlo hhi hchildren
      exact .cons hrep hlo hhi hchildren

/-- **A tree of pages** is decoded to a tree as the pages say. -/
theorem TreeAt.represents {c : Child} (h : TreeAt env view d lo hi c m ps) :
    ∃ t, Represents d lo hi ps t ∧ Decodes view d c t := by
  induction d generalizing lo hi c m ps with
  | zero =>
    obtain ⟨page, kvs, hpage, -, ⟨ms, hleaf⟩, hrange, hempty, -, rfl⟩ := h
    refine ⟨.leaf c.1 kvs, represents_leaf hleaf.sorted hrange hempty, fun X fuel n hfuel => ?_⟩
    obtain ⟨fuel, rfl⟩ := Nat.exists_eq_succ_of_ne_zero (by omega : fuel ≠ 0)
    rw [Tree.decode, Program.sat_bind]
    refine readPage_sat hpage ?_
    rw [Program.liftM_eq, leaf_fromPage hleaf, Program.ofExcept_ok, Program.ret_bind]
    dsimp only
    rw [Program.liftM_eq, hleaf.kvPairs, Program.ofExcept_ok, Program.ret_bind]
    rfl
  | succ d ih =>
    obtain ⟨page, cells, qs, hpage, -, ⟨ms, hbranch⟩, hforest, hwide, rfl⟩ := h
    obtain ⟨children, hchildren, hkeys, hdecs⟩ := forest_represents (fun _ _ _ _ _ hT => ih hT)
      hforest
    have hlength : children.length = cells.length := by
      simpa using congrArg List.length hkeys
    refine ⟨.branch c.1 children, hchildren.branch (by rwa [hlength]), fun X fuel n hfuel => ?_⟩
    obtain ⟨fuel, rfl⟩ := Nat.exists_eq_succ_of_ne_zero (by omega : fuel ≠ 0)
    rw [Tree.decode, Program.sat_bind]
    refine readPage_sat hpage ?_
    rw [Program.liftM_eq, branch_fromPage hbranch, Program.ofExcept_ok, Program.ret_bind]
    dsimp only
    rw [Program.liftM_eq, hbranch.branchEntries, Program.ofExcept_ok, Program.ret_bind,
      Program.sat_bind]
    refine (hdecs X fuel _ (by omega)).mono ?_
    rintro r n' rfl
    rfl

/-- A tree without repeated pages that is responsible for all keys is well formed. -/
theorem Node.Represents.wellFormed {t : Node} (h : Represents d ⊥ ⊤ ps t) (hnodup : ps.Nodup) :
    t.WellFormed ∧ t.height = d + 1 := by
  refine ⟨⟨fun a ha b hb => (h.level a ha).trans (h.level b hb).symm, h.sorted,
    fun id hid => (h.nonempty id hid).2.2, h.divided, by rwa [h.ids]⟩, ?_⟩
  -- the depths are all `d`, and there is one
  have hfold : ∀ l : List ℕ, (∀ n ∈ l, n = d) → l ≠ [] → l.foldr max 0 = d := by
    intro l
    induction l with
    | nil => exact fun _ hne => absurd rfl hne
    | cons n l ih =>
      intro hl _
      rw [List.foldr_cons, hl n List.mem_cons_self]
      by_cases hnil : l = []
      · rw [hnil, List.foldr_nil, Nat.max_zero]
      · rw [ih (fun n hn => hl n (List.mem_cons_of_mem _ hn)) hnil, Nat.max_self]
  rw [height, hfold _ h.level h.deep]

end

/-! ### After any history -/

section

variable {env : Env} {db : DatabaseState} {w : Work} {readers : List Version}

/-- The counter agrees with the pages a reader counts. -/
theorem counted_honours (env : Env) (tx : WriteTransaction) (w : Work) (readers : List Version) :
    (counted (overlaid env tx)).Honours (reading (overlay tx w.view)) (fun _ _ => False)
      fun s n => Owned env s.1 w readers [] ∧ s.2 = n := by
  rintro ⟨db, count⟩ n o ⟨h, rfl⟩ ⟨id, rfl, page, hview⟩
  have hstep := overlaid_honours env tx w readers db count (.readPage id) h ⟨id, rfl, page, hview⟩
  rw [counted]
  rcases hres : overlaid env tx (.readPage id) db with ⟨e | data, db'⟩
  · rw [hres] at hstep
    exact hstep
  · rw [hres] at hstep
    obtain ⟨n', hpost, howned⟩ := hstep
    obtain ⟨hdata, rfl⟩ : overlay tx w.view id = some data ∧ n' = count + 1 := hpost
    exact ⟨count + 1, ⟨hdata, rfl⟩, howned, rfl⟩

/-- The tree of an open transaction is well formed, and looking up a key visits one page on
each level. -/
theorem Owned.represents (h : Owned env db w readers []) {tx : WriteTransaction}
    {m : Key → Option Value} (hok : TxOk env w tx m) :
    ∃ t : Node, ((Tree.decode maxDepth tx.rootPage).run (overlaid env tx) db).1 = .ok t ∧
      t.WellFormed ∧ ∀ key, ∃ db', (Tree.get maxDepth tx.rootPage key).run
        (counted (overlaid env tx)) (db, 0) = (.ok (m key), db', t.height) := by
  obtain ⟨d, ps, hT, hspans⟩ := hok.tree
  obtain ⟨t, hrep, hdecodes⟩ := hT.represents
  obtain ⟨hwf, hheight⟩ := hrep.wellFormed hspans.nodup
  have hdepth := hT.depth_lt_maxDepth hspans.nodup
  refine ⟨t, ?_, hwf, fun key => ?_⟩
  · obtain ⟨t', db', n, hrun, rfl, -⟩ := (hdecodes (fun _ => False) maxDepth 0 hdepth).run_ok
      (overlaid_honours env tx w readers) h
    rw [hrun]
  · obtain ⟨value, ⟨db', count⟩, n, hrun, ⟨rfl, rfl⟩, -, hcount⟩ := (get_sat (n := 0) hdepth hT
      bot_le (WithTop.coe_lt_top key)).run_ok (counted_honours env tx w readers)
      (s := (db, 0)) ⟨h, rfl⟩
    refine ⟨db', ?_⟩
    rw [hrun, hheight]
    dsimp only at hcount
    rw [hcount, Nat.zero_add]

/-- The tree of a version can be decoded; its pages are those of the version. -/
theorem Owned.decode {starting : List Version} (h : Owned env db w readers starting) {v : Version}
    (hv : v.Stands env w.view) :
    ∃ t : Node, ((Tree.decode maxDepth v.slot.rootPageId).run (execute env) db).1 = .ok t ∧
      t.pageIds = v.pages := by
  obtain ⟨t, hrep, hdecodes⟩ := hv.tree.represents
  obtain ⟨t', db', n, hrun, rfl, -⟩ := (hdecodes (fun _ => False) maxDepth 0
    (hv.tree.depth_lt_maxDepth hv.nodup)).run_ok
    (reading_honours env db w readers starting) ⟨h, .refl db⟩
  refine ⟨t', ?_, hrep.ids⟩
  change ((Tree.decode maxDepth v.root.1).run (execute env) db).1 = .ok t'
  rw [hrun]

/-- **The representation invariant.** Whatever has been inserted, the tree of the write
transaction is well formed, and looking up a key in it visits as many pages as it has
levels. -/
theorem representation_invariant (henv : env.debugAssertions = true) {pageSize : ℕ}
    {evicts : ℕ → PageId → Bool} (hnew : Database.openNew env pageSize evicts = .ok db)
    {s : Session} (hrun : Session.Run env (.start db) s) {tx : WriteTransaction}
    {inserts : List (Key × Value)} (hwriter : s.writer = some (tx, inserts)) :
    ∃ t : Node, ((Tree.decode maxDepth tx.rootPage).run (overlaid env tx) s.db).1 = .ok t ∧
      t.WellFormed ∧ ∀ key, ∃ db', (Tree.get maxDepth tx.rootPage key).run
        (counted (overlaid env tx)) (s.db, 0) =
          (.ok (lastInsert (s.committed ++ inserts) key), db', t.height) := by
  obtain ⟨w, rs, h⟩ := hrun.follows henv hnew
  exact h.owned.represents (h.writer tx inserts hwriter).ok

theorem representation_invariant_afterFirstInsert : ∃ db s tx, ∃ t : Node,
    Database.openNew .debug 4096 (fun _ _ => false) = .ok db ∧
      Session.Run .debug (.start db) s ∧ s.writer = some (tx, [([1], [2])]) ∧
      ((Tree.decode maxDepth tx.rootPage).run (overlaid .debug tx) s.db).1 = .ok t ∧
      t.WellFormed := by
  obtain ⟨db, tx, _, _, hnew, hrun, -⟩ := first_run
  obtain ⟨t, hdecode, hformed, -⟩ := representation_invariant rfl hnew hrun rfl
  exact ⟨db, _, tx, t, hnew, hrun, rfl, hdecode, hformed⟩

end

end KvRaft.Kv
