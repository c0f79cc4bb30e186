import KvRaft.Kv.Room
import KvRaft.Kv.TransactionSpec

/-!
# Inserting

`WriteTransaction::insert` on a transaction whose tree holds the map `m` leaves a tree that
holds `m` with the value of the key set, keeps to the protocol of a write transaction, and
ends with a failed assertion otherwise (`insert_sat`). Without debug assertions this takes
room in the pages that are built; with room there is no failed assertion either, in any build
(`insert_guarded_sat`).

The recursion turns the tree below a page into one that holds the new map, or into two
trees with a separator in between (`Shape`); the node above replaces its child by what it
gets (`updateBranch_sat`), and the root grows a level when it gets two (`growRoot_sat`).
-/

namespace KvRaft.Kv

open Bytes Ordered

/-! ### The recursion -/

/-- A subtree that is as `T` says, if that matters. -/
def Under (G : Prop) (T : Subtree Key Value Child PageId) : Subtree Key Value Child PageId :=
  fun lo hi c m ps => G → T lo hi c m ps

/-- What an insertion makes of a subtree: a tree that holds the new map, or two of them
with a separator in between. -/
def Shape (T : Subtree Key Value Child PageId) (lo : WithBot Key) (hi : WithTop Key)
    (m : Key → Option Value) (r : InsertionResult) (ps : List PageId) : Prop :=
  match r.split with
  | none => T lo hi (r.replacementPageId, r.replacementPageChecksum) m ps
  | some s => ∃ m₁ m₂ ps₁ ps₂,
    T lo s.separatorKey (r.replacementPageId, r.replacementPageChecksum) m₁ ps₁ ∧
      T s.separatorKey hi (s.rightPageId, s.rightPageChecksum) m₂ ps₂ ∧
      lo < s.separatorKey ∧ (s.separatorKey : WithTop Key) < hi ∧
      glue s.separatorKey m₁ m₂ = m ∧ ps = ps₁ ++ ps₂

/-- The separator of a split. -/
def InsertionResult.separator (r : InsertionResult) : Option Key :=
  r.split.map PageSplit.separatorKey

/-- The insertion has made of the subtree with the pages `T` one that holds `m`, if that
matters (`G`). Where there was room, `takes` says at which separator it is split; with debug
assertions there was. -/
def Inserted (env : Env) (G : Prop) (takes : Option Key → Prop) (w : Work)
    (tx : WriteTransaction) (T : List PageId) (d : ℕ) (lo : WithBot Key) (hi : WithTop Key)
    (m : Key → Option Value) (r : InsertionResult × WriteTransaction) (w' : Work) : Prop :=
  ∃ ps, Closed w tx T w' r.2 ps ∧
    Shape (Under G (TreeAt env (overlay r.2 w'.view) d)) lo hi m r.1 ps ∧
    (∀ sep, takes sep → r.1.separator = sep) ∧
    (env.debugAssertions = true → takes r.1.separator)

section

variable {env : Env} {X : Fault → Prop} {G : Prop} {takes : Option Key → Prop} {w w₁ : Work}
  {tx tx₁ : WriteTransaction} {T rest : List PageId} {page : PageMut} {d : ℕ} {lo : WithBot Key}
  {hi : WithTop Key} {m : Key → Option Value}

/-- The order in which the pages of a tree are listed does not matter to a transaction. -/
theorem Closed.perm {w' : Work} {tx' : WriteTransaction} {ps ps' : List PageId}
    (h : Closed w tx T w' tx' ps) (hp : ps.Perm ps') : Closed w tx T w' tx' ps' where
  inv := h.inv
  moves := h.moves.reshape fun _ => hp.mem_iff.symm
  held x hx := h.held x (hp.mem_iff.mpr hx)
  nodup := hp.nodup_iff.mp h.nodup

/-- A leaf edited in place. -/
theorem replaceLeaf_sat {kvs : List LeafEntry} (h : Opened w tx T w₁ tx₁ page [])
    (hok : LeafOk page.data kvs) (hne : kvs ≠ [])
    (hrange : ∀ a ∈ kvs, lo ≤ (a.1 : WithBot Key) ∧ (a.1 : WithTop Key) < hi)
    (htakes : ∀ sep, takes sep ↔ sep = none) :
    ((Tree.replace env page).run tx₁).Sat (writer env) X w₁
      (Inserted env G takes w tx T 0 lo hi (contents kvs)) := by
  refine h.replace.mono ?_
  rintro ⟨r, tx'⟩ w' ⟨hr, hclosed, hpage, -⟩
  dsimp only at hr hclosed hpage
  subst hr
  exact ⟨_, hclosed, fun _ => ⟨page.data, kvs, hpage, rfl, hok, hrange, fun hnil =>
    absurd hnil hne, rfl, rfl⟩, fun sep hsep => ((htakes sep).mp hsep).symm,
    fun _ => (htakes _).mpr rfl⟩

/-- A leaf without room for the pair. -/
theorem splitLeaf_sat {kvs : List LeafEntry} {key : Key} {value : Value}
    (h : Opened w tx T w₁ tx₁ page []) (hok : LeafOk page.data kvs)
    (hrange : ∀ a ∈ upsert key value kvs,
      lo ≤ (a.1 : WithBot Key) ∧ (a.1 : WithTop Key) < hi)
    (hguarded : Guarded env X G (∃ sep, takes sep))
    (htakes : ∀ sep, takes sep ↔ (2 ≤ (upsert key value kvs).length ∧
        LeafHalves (LeafRoom tx₁.pageSize) (upsert key value kvs)) ∧
      (((upsert key value kvs).drop ((upsert key value kvs).length / 2)).head?).map Prod.fst =
        sep) :
    ((Tree.splitLeaf env page key value).run tx₁).Sat (writer env) X w₁
      (Inserted env G takes w tx T 0 lo hi (contents (upsert key value kvs))) := by
  obtain ⟨ms, hleaf⟩ := hok
  have hsorted := sorted_upsert hleaf.sorted key value
  have hlength : page.data.length = tx₁.pageSize := h.length.trans h.moves.pageSize.symm
  have hlarge := h.inv.large
  have hsmall := h.inv.small
  rw [Tree.splitLeaf]
  simp only [run_bind_sat, run_except_sat, run_pure_sat]
  refine (allocatePage_sat h.inv).mono ?_
  rintro ⟨right, tx₂⟩ w₂ ⟨hright, hfresh, hbase⟩
  dsimp only at hright hfresh hbase ⊢
  rw [zeroed_of_lt (hlength ▸ hsmall), returns_ok, hleaf.builder, returns_ok]
  rw [LeafBuilder.insert_eq]
  have hscratch : (List.replicate page.data.length (0 : UInt8)).length = page.data.length :=
    List.length_replicate
  refine (buildSplitPages_returns hsorted (by rw [hscratch, hlength]; exact hlarge)
    (by rw [hscratch, hlength]; exact hsmall)
    (by rw [hscratch, hright.length, hlength]) (G := G) ?_).mono ?_
  · rw [hscratch, hlength]
    refine hguarded.imp ?_
    rintro ⟨sep, hsep⟩
    exact ((htakes sep).mp hsep).1
  rintro ⟨separatorKey, left', right'⟩
    ⟨hmiddle, l, a, r, hkvs, hl, hsep, hlenL, hlenR, hok, hroom⟩
  dsimp only at hmiddle hsep hlenL hlenR hok hroom ⊢
  rw [hscratch, hlength] at hroom
  rw [hscratch] at hlenL hlenR
  rw [copyPageFrom, assert_true hlenL.symm, ok_bind, returns_pure]
  refine (h.split hright hfresh hbase hlenL (by rw [hlenR, hright.length, hlength])).mono ?_
  rintro ⟨⟨⟩, tx₃⟩ w₃ hreturn
  dsimp only at hreturn ⊢
  refine hreturn.mono ?_
  rintro ⟨⟨⟩, tx₄⟩ w₄ ⟨hclosed, hleft, hright', -⟩
  dsimp only at hclosed hleft hright'
  -- the keys of the right leaf start with the separator
  have hmiddle' : (∀ sep, takes sep → some separatorKey = sep) ∧
      (env.debugAssertions = true → takes (some separatorKey)) :=
    ⟨fun sep h => hmiddle.symm.trans ((htakes sep).mp h).2, fun henv =>
      (htakes _).mpr ⟨hroom henv, hmiddle⟩⟩
  rw [hkvs] at hsorted hrange ⊢
  obtain ⟨hsortedL, hsortedR, hbelow⟩ := List.pairwise_append.mp hsorted
  obtain ⟨b, hb⟩ := List.exists_mem_of_ne_nil l hl
  have hlow : lo < (a.1 : WithBot Key) :=
    (hrange b (List.mem_append_left _ hb)).1.trans_lt
      (WithBot.coe_lt_coe.mpr (hbelow b hb a List.mem_cons_self))
  have hhigh : (a.1 : WithTop Key) < hi :=
    (hrange a (List.mem_append_right _ List.mem_cons_self)).2
  subst hsep
  refine ⟨_, hclosed, ⟨contents l, contents (a :: r), [page.id], [right.id],
    fun hG => ⟨left', l, hleft, rfl, (hok hG).1, ?_, fun hnil => absurd hnil hl, rfl, rfl⟩,
    fun hG => ⟨right', a :: r, hright', rfl, (hok hG).2, ?_, fun hnil => absurd hnil (by simp), rfl,
      rfl⟩,
    hlow, hhigh, (contents_append hsorted).symm, rfl⟩, hmiddle'⟩
  · intro x hx
    exact ⟨(hrange x (List.mem_append_left _ hx)).1,
      WithTop.coe_lt_coe.mpr (hbelow x hx a List.mem_cons_self)⟩
  · intro x hx
    refine ⟨WithBot.coe_le_coe.mpr ?_, (hrange x (List.mem_append_right _ hx)).2⟩
    rcases List.mem_cons.mp hx with rfl | hx
    · exact le_rfl
    · exact ((List.pairwise_cons.mp hsortedR).1 x hx).le

/-- A branch edited in place. -/
theorem replaceBranch_sat {cells : List BranchEntry} (h : Opened w tx T w₁ tx₁ page rest)
    (hok : BranchOk page.data cells)
    (hforest : Forest (Under G (TreeAt env (overlay tx₁ w₁.view) d)) lo hi cells m rest)
    (hwide : cells.length = 1 → lo ≠ ⊥ ∨ hi ≠ ⊤) (htakes : ∀ sep, takes sep → sep = none)
    (hback : env.debugAssertions = true → takes none) :
    ((Tree.replace env page).run tx₁).Sat (writer env) X w₁
      (Inserted env G takes w tx T (d + 1) lo hi m) := by
  refine h.replace.mono ?_
  rintro ⟨r, tx'⟩ w' ⟨hr, hclosed, hpage, hrest⟩
  dsimp only at hr hclosed hpage hrest
  subst hr
  refine ⟨_, hclosed, fun hG => ⟨page.data, cells, rest, hpage, rfl, hok, ?_, hwide, rfl⟩,
    fun sep hsep => (htakes sep hsep).symm, hback⟩
  exact hforest.mono fun _ _ _ _ qs hqs hT => (hT hG).congr fun x hx => hrest x (hqs hx)

/-- A branch without room for the separator of its child. -/
theorem splitBranch_sat {cells cells' : List BranchEntry} {childSplit : PageSplit}
    (h : Opened w tx T w₁ tx₁ page rest) (hok : BranchOk page.data cells)
    (hinsert : BranchBuilder.insert ⟨cells⟩ childSplit.separatorKey childSplit.rightPageId
      childSplit.rightPageChecksum = .ok ⟨cells'⟩) (htwo : 2 ≤ cells'.length)
    (hforest : Forest (Under G (TreeAt env (overlay tx₁ w₁.view) d)) lo hi cells' m rest)
    (hguarded : Guarded env X G (BranchHalves (BranchRoom tx₁.pageSize) cells'))
    (htakes : ∀ sep, takes sep →
      ((cells'.drop (cells'.length / 2)).head?).map Prod.fst = sep)
    (hback : env.debugAssertions = true → ∀ sep,
      BranchHalves (BranchRoom tx₁.pageSize) cells' ∧
        ((cells'.drop (cells'.length / 2)).head?).map Prod.fst = sep → takes sep) :
    ((Tree.splitBranch env page childSplit).run tx₁).Sat (writer env) X w₁
      (Inserted env G takes w tx T (d + 1) lo hi m) := by
  obtain ⟨ms, hbranch⟩ := hok
  have hlength : page.data.length = tx₁.pageSize := h.length.trans h.moves.pageSize.symm
  have hlarge := h.inv.large
  have hsmall := h.inv.small
  rw [Tree.splitBranch]
  simp only [run_bind_sat, run_except_sat, run_pure_sat]
  refine (allocatePage_sat h.inv).mono ?_
  rintro ⟨right, tx₂⟩ w₂ ⟨hright, hfresh, hbase⟩
  dsimp only at hright hfresh hbase ⊢
  rw [zeroed_of_lt (hlength ▸ hsmall), returns_ok, hbranch.builder, returns_ok, hinsert,
    returns_ok]
  have hscratch : (List.replicate page.data.length (0 : UInt8)).length = page.data.length :=
    List.length_replicate
  refine (buildSplitBranches_returns htwo (by rw [hscratch, hlength]; exact hlarge)
    (by rw [hscratch, hlength]; exact hsmall)
    (by rw [hscratch, hright.length, hlength]) (G := G) ?_).mono ?_
  · rw [hscratch, hlength]
    exact hguarded
  rintro ⟨separatorKey, left', right'⟩
    ⟨hmiddle, l, a, r, hcells, hl, hsep, hlenL, hlenR, hok, hroom⟩
  dsimp only at hmiddle hsep hlenL hlenR hok hroom ⊢
  rw [hscratch, hlength] at hroom
  rw [hscratch] at hlenL hlenR
  rw [copyPageFrom, assert_true hlenL.symm, ok_bind, returns_pure]
  refine (h.split hright hfresh hbase hlenL (by rw [hlenR, hright.length, hlength])).mono ?_
  rintro ⟨⟨⟩, tx₃⟩ w₃ hreturn
  dsimp only at hreturn ⊢
  refine hreturn.mono ?_
  rintro ⟨⟨⟩, tx₄⟩ w₄ ⟨hclosed, hleft, hright', hrest⟩
  dsimp only at hclosed hleft hright' hrest
  have hmiddle' : (∀ sep, takes sep → some separatorKey = sep) ∧
      (env.debugAssertions = true → takes (some separatorKey)) :=
    ⟨fun sep h => hmiddle.symm.trans (htakes sep h), fun henv =>
      hback henv _ ⟨hroom henv, hmiddle⟩⟩
  -- the children are divided at the key of the first entry of the right page
  rw [hcells] at hforest
  obtain ⟨m₁, m₂, ps₁, ps₂, hforestL, hforestR, hm, hps, hlow, hhigh⟩ := hforest.split hl
  subst hsep hps
  have hforestL' : G → Forest (TreeAt env (overlay tx₄ w₄.view) d) lo a.1 (withoutFirstKey l) m₁
      ps₁ := by
    intro hG
    obtain ⟨b, l', rfl⟩ := List.exists_cons_of_ne_nil hl
    exact (hforestL.mono fun _ _ _ _ qs hqs hT => (hT hG).congr fun x hx =>
      hrest x (List.mem_append_left _ (hqs hx))).head_congr
  have hforestR' : G → Forest (TreeAt env (overlay tx₄ w₄.view) d) a.1 hi
      (withoutFirstKey (a :: r)) m₂ ps₂ := fun hG =>
    (hforestR.mono fun _ _ _ _ qs hqs hT => (hT hG).congr fun x hx =>
      hrest x (List.mem_append_right _ (hqs hx))).head_congr
  refine ⟨(page.id :: ps₁) ++ (right.id :: ps₂), hclosed.perm ?_, ⟨m₁, m₂, page.id :: ps₁,
    right.id :: ps₂,
    fun hG => ⟨left', _, ps₁, hleft, rfl, (hok hG).1, hforestL' hG,
      fun _ => Or.inr (WithTop.coe_ne_top), rfl⟩,
    fun hG => ⟨right', _, ps₂, hright', rfl, (hok hG).2, hforestR' hG,
      fun _ => Or.inl (WithBot.coe_ne_bot), rfl⟩,
    hlow, hhigh, hm.symm, rfl⟩, hmiddle'⟩
  exact (List.perm_middle.symm).cons page.id

/-- **What a branch does with the result of its child.** The child at the focus has been
replaced by one page or by two. -/
theorem updateBranch_sat {view : View} {cells : List BranchEntry}
    {qs before own after own' : List PageId} {key : Key} {value : Value} {lo' : WithBot Key}
    {hi' : WithTop Key} {c : Child} {m' : Key → Option Value} {result : InsertionResult}
    (h : Opened w tx T w₁ tx₁ page (before ++ own' ++ after)) (hok : BranchOk page.data cells)
    (hfocus : Focus (TreeAt env view d) lo hi cells m qs key lo' hi' c m' before own after)
    (hwide : cells.length = 1 → lo ≠ ⊥ ∨ hi ≠ ⊤)
    (hview : ∀ x ∈ before ++ after, overlay tx₁ w₁.view x = view x)
    (hshape : Shape (Under G (TreeAt env (overlay tx₁ w₁.view) d)) lo' hi' (assign m' key value)
      result own')
    (hguarded : Guarded env X G (∃ sep, BranchTakes tx₁.pageSize page.data result.separator sep))
    (htakes : ∀ sep, takes sep → BranchTakes tx₁.pageSize page.data result.separator sep)
    (hback : env.debugAssertions = true → ∀ sep,
      BranchTakes tx₁.pageSize page.data result.separator sep → takes sep) :
    ((Tree.updateBranch env page (childIndex key cells) result).run tx₁).Sat (writer env) X
      w₁ (Inserted env G takes w tx T (d + 1) lo hi (assign m key value)) := by
  obtain ⟨ms, hbranch⟩ := hok
  have hindex : childIndex key cells < cells.length := by
    have hchild := hfocus.child
    rw [Option.map_eq_some_iff] at hchild
    obtain ⟨a, ha, -⟩ := hchild
    exact (List.getElem?_eq_some_iff.mp ha).1
  have hothers : ∀ lo hi c m qs, qs ⊆ before ++ after → TreeAt env view d lo hi c m qs →
      Under G (TreeAt env (overlay tx₁ w₁.view) d) lo hi c m qs := fun _ _ _ _ qs hqs hT _ =>
    hT.congr fun x hx => hview x (hqs hx)
  obtain ⟨data, hset, hlength, ms', hbranch'⟩ := hbranch.setChildAtIndex hindex
    (result.replacementPageId, result.replacementPageChecksum)
  have hfits := hbranch.fits_setChildAtIndex hindex hset hbranch'
  rw [Tree.updateBranch]
  simp only [run_bind_sat, run_except_sat]
  rw [hset, returns_ok]
  rcases result with ⟨replacementPageId, replacementPageChecksum, split⟩
  cases split with
  | none =>
    -- one page in place of the child
    exact replaceBranch_sat (h.edit hlength) ⟨ms', hbranch'⟩
      (hfocus.replace _ hothers value _ own' hshape)
      (by rw [setChild, List.length_modify]; exact hwide)
      (fun sep hsep => branchTakes_none.mp (htakes sep hsep)) fun henv => hback henv _ .unsplit
  | some childSplit =>
    -- two pages in place of the child
    obtain ⟨m₁, m₂, ps₁, ps₂, hleft, hright, hlow, hhigh, hglue, rfl⟩ := hshape
    dsimp only at hleft hright hlow hhigh hglue hset hbranch' hfits ⊢
    have hplace := hfocus.place childSplit.separatorKey hlow hhigh
    have hforest := hfocus.divide _ hothers value childSplit.separatorKey _ _ m₁ m₂ ps₁ ps₂
      hleft hright hlow hhigh hglue
    rw [hfits, hbranch.fits, run_bind_sat, run_except_sat, returns_ok]
    split
    · rename_i hfit
      have hfit' : BranchPageMutator.fits page.data childSplit.separatorKey = .ok true :=
        (hbranch.fits _).trans (congrArg Except.ok hfit)
      obtain ⟨data', hrun, hlength', hok'⟩ := hbranch'.insert env (i := childIndex key cells)
        (by rw [setChild, List.length_modify]; exact hindex) (hplace _) ((hfits _).trans hfit')
        (childSplit.rightPageId, childSplit.rightPageChecksum)
      rw [run_bind_sat, run_except_sat]
      dsimp only at hrun ⊢
      rw [hrun, returns_ok]
      refine replaceBranch_sat (h.edit (hlength'.trans hlength)) hok' hforest (fun hone => ?_)
        (fun sep hsep => (branchTakes_of_fits hfit').mp (htakes sep hsep)) fun henv =>
          hback henv _ (.inPlace hfit')
      -- there are two children at least
      rw [List.length_insertIdx_of_le_length (by rw [setChild, List.length_modify]; omega),
        setChild, List.length_modify] at hone
      omega
    · rename_i hfit
      have hfit' : BranchPageMutator.fits page.data childSplit.separatorKey = .ok false :=
        (hbranch.fits _).trans (congrArg Except.ok (by simpa using hfit))
      have hne : setChild cells (childIndex key cells)
          (replacementPageId, replacementPageChecksum) ≠ [] := by
        rw [← List.length_pos_iff, setChild, List.length_modify]
        omega
      have hkeys : ∀ c₁, (setChild cells (childIndex key cells) c₁).map Prod.fst =
          cells.map Prod.fst := map_fst_setChild cells _
      have hsearch : binarySearch childSplit.separatorKey (cells.tail.map Prod.fst) =
          .error (childIndex key cells) := by
        rw [List.map_tail, ← hkeys (0, 0), ← List.map_tail]
        exact hplace _
      have hsplit : ∀ sep, BranchTakes tx₁.pageSize page.data (some childSplit.separatorKey) sep ↔ _ :=
        fun sep => branchTakes_of_not_fits hfit' hbranch.builder hindex hsearch
          (hkeys (replacementPageId, replacementPageChecksum))
          (childSplit.rightPageId, childSplit.rightPageChecksum)
      refine splitBranch_sat (h.edit hlength) ⟨ms', hbranch'⟩
        (BranchBuilder.insert_ok hne (hplace _)
          (childSplit.rightPageId, childSplit.rightPageChecksum)) ?_ hforest
        (hguarded.imp ?_)
        (fun sep hsep => ((hsplit sep).mp (htakes sep hsep)).2) fun henv sep hsep =>
          hback henv sep ((hsplit sep).mpr hsep)
      · rw [List.length_insertIdx_of_le_length (by rw [setChild, List.length_modify]; omega),
          setChild, List.length_modify]
        omega
      · rintro ⟨sep, hsep⟩
        exact ((hsplit sep).mp hsep).1

/-- **Inserting below a page** makes of the tree with the map `m` one in which the value of
the key is set, or two such trees with a separator in between. -/
theorem insertRecursive_sat {view : View} {key : Key} {value : Value} {fuel : ℕ} {c : Child}
    (hfuel : d < fuel) (hinv : TxInv w tx) (hsized : Sized w tx ∨ X .panic)
    (hT : TreeAt env (overlay tx w.view) d lo hi c m T) (hheld : ∀ x ∈ T, Held w tx x)
    (hnodup : T.Nodup) (hlo : lo ≤ key) (hhi : (key : WithTop Key) < hi)
    (hview : ∀ x ∈ T, overlay tx w.view x = view x)
    (hguarded : Guarded env X G (∃ sep, HasRoom view tx.pageSize key value c.1 sep)) :
    ((Tree.insertRecursive env fuel c.1 key value).run tx).Sat (writer env) X w
      (Inserted env G (HasRoom view tx.pageSize key value c.1) w tx T d lo hi
        (assign m key value)) := by
  induction fuel generalizing d lo hi c m T w tx with
  | zero => omega
  | succ fuel ih =>
    rw [Tree.insertRecursive]
    simp only [run_bind_sat, run_except_sat]
    cases d with
    | zero =>
      obtain ⟨data, kvs, hpage, -, hok, hrange, -, rfl, rfl⟩ := hT
      refine (cow_opened hinv hsized hheld hnodup).mono ?_
      rintro ⟨page, tx₁⟩ w₁ ⟨hopen, hdata, -⟩
      dsimp only at hopen hdata ⊢
      rw [hpage, Option.some.injEq] at hdata
      subst hdata
      obtain ⟨ms, hleaf⟩ := hok
      rw [hleaf.parse, returns_ok]
      dsimp only
      have hsize : tx₁.pageSize = tx.pageSize := hopen.moves.pageSize
      have hknown : view c.1 = some page.data := (hview _ List.mem_cons_self).symm.trans hpage
      have hleafTakes : ∀ sep, HasRoom view tx.pageSize key value c.1 sep ↔
          LeafTakes tx.pageSize page.data key value sep := fun sep =>
        ⟨fun hroom => hroom.of_leaf hknown hleaf.parse, fun htakes => .leaf hknown hleaf.parse htakes⟩
      -- the new pair lies between the bounds as well
      have hrange' : ∀ a ∈ upsert key value kvs,
          lo ≤ (a.1 : WithBot Key) ∧ (a.1 : WithTop Key) < hi := by
        intro a ha
        rcases mem_upsert ha with rfl | ha
        · exact ⟨hlo, hhi⟩
        · exact hrange a ha
      rw [← contents_upsert hleaf.sorted, run_bind_sat, run_except_sat, hleaf.fits, returns_ok]
      split
      · rename_i hfit
        have hfit' : LeafPageMutator.fits page.data key value = .ok true :=
          (hleaf.fits key value).trans (congrArg Except.ok hfit)
        obtain ⟨data, hrun, hlength, hok'⟩ := hleaf.insert hfit'
        rw [run_bind_sat, run_except_sat, hrun, returns_ok]
        exact replaceLeaf_sat (hopen.edit hlength) hok' (upsert_ne_nil key value kvs) hrange'
          fun sep => (hleafTakes sep).trans (leafTakes_of_fits hfit')
      · rename_i hfit
        have hfit' : LeafPageMutator.fits page.data key value = .ok false :=
          (hleaf.fits key value).trans (congrArg Except.ok (by simpa using hfit))
        refine splitLeaf_sat hopen ⟨ms, hleaf⟩ hrange' hguarded fun sep => ?_
        rw [hsize]
        exact (hleafTakes sep).trans (leafTakes_of_not_fits hfit' hleaf.builder)
    | succ d =>
      obtain ⟨data, cells, qs, hpage, -, hok, hforest, hwide, rfl⟩ := hT
      refine (cow_opened hinv hsized hheld hnodup).mono ?_
      rintro ⟨page, tx₁⟩ w₁ ⟨hopen, hdata, hsame⟩
      dsimp only at hopen hdata hsame ⊢
      rw [hpage, Option.some.injEq] at hdata
      subst hdata
      obtain ⟨ms, hbranch⟩ := hok
      obtain ⟨lo', hi', c', m', before, own, after, hfocus⟩ := hforest.route hlo hhi
      obtain rfl := hfocus.pages
      rw [hbranch.parse, returns_ok]
      dsimp only
      have hchildPage := hbranch.childPageForKey hfocus.child
      rw [run_bind_sat, run_except_sat, hchildPage, returns_ok]
      dsimp only
      rw [run_bind_sat]
      have hsize : tx₁.pageSize = tx.pageSize := hopen.moves.pageSize
      have hknown : view c.1 = some page.data := (hview _ List.mem_cons_self).symm.trans hpage
      have hbranchTakes : ∀ sep, HasRoom view tx.pageSize key value c.1 sep →
          ∃ childSep, HasRoom view tx.pageSize key value c'.1 childSep ∧
            BranchTakes tx.pageSize page.data childSep sep := fun sep hroom =>
        hroom.of_branch hknown hbranch.parse hchildPage
      have hown : ∀ x ∈ own, x ∈ before ++ own ++ after := fun x hx => by simp [hx]
      have hchild : TreeAt env (overlay tx₁ w₁.view) d lo' hi' c' m' own :=
        hfocus.tree.congr fun x hx => hsame x (hown x hx)
      have hnodupOwn : own.Nodup := (List.nodup_cons.mp hopen.nodup).2.sublist (by simp)
      refine (ih (by omega) hopen.inv (hsized.imp_left fun h => h.moves hopen.moves) hchild
        (fun x hx => hopen.held x (hown x hx)) hnodupOwn hfocus.le hfocus.lt
        (fun x hx => (hsame x (hown x hx)).trans (hview x (List.mem_cons_of_mem _ (hown x hx))))
        (hguarded.imp ?_)).mono ?_
      · rintro ⟨sep, hroom⟩
        obtain ⟨childSep, hbelow, -⟩ := hbranchTakes sep hroom
        exact ⟨childSep, hsize.symm ▸ hbelow⟩
      rintro ⟨result, tx₂⟩ w₂ ⟨own', hclosed, hshape, hseparator, hbelow⟩
      dsimp only at hclosed hshape hseparator hbelow ⊢
      rw [hsize] at hseparator hbelow
      obtain ⟨hopen', hframe⟩ := hopen.step hclosed
      have hsize₂ : tx₂.pageSize = tx.pageSize := hclosed.moves.pageSize.trans hsize
      have htakes : ∀ sep, HasRoom view tx.pageSize key value c.1 sep →
          BranchTakes tx₂.pageSize page.data result.separator sep := by
        intro sep hroom
        obtain ⟨childSep, hbelow, htakes⟩ := hbranchTakes sep hroom
        rw [hseparator childSep hbelow, hsize₂]
        exact htakes
      refine updateBranch_sat hopen' ⟨ms, hbranch⟩ hfocus hwide (fun x hx => ?_) hshape
        (hguarded.imp (Exists.imp htakes)) htakes fun henv sep hsep =>
          .branch hknown hbranch.parse hchildPage (hbelow henv) (hsize₂ ▸ hsep)
      rw [hframe x hx]
      exact hsame x (by rcases List.mem_append.mp hx with hx | hx <;> simp [hx])

end

/-! ### The root -/

/-- The pages `ps` are at rest, and they are all there is: the pages allocated to the
transaction are among them, and so are the pages of its base version that it does not
free. -/
structure Spans (w : Work) (tx : WriteTransaction) (ps : List PageId) : Prop where
  held : ∀ x ∈ ps, Held w tx x
  nodup : ps.Nodup
  used : ∀ id ∈ w.used, id ∈ ps
  base : ∀ id ∈ w.base.pages, id ∈ ps ∨ id ∈ tx.freedPages

/-- The tree of a transaction that is being built holds the map `m`. -/
structure TxOk (env : Env) (w : Work) (tx : WriteTransaction) (m : Key → Option Value) :
    Prop where
  inv : TxInv w tx
  tree : ∃ d ps, TreeAt env (overlay tx w.view) d ⊥ ⊤ (tx.rootPage, tx.rootPageChecksum) m ps ∧
    Spans w tx ps

/-- What a call has done to a transaction and to what it relies on. -/
structure Goes (w : Work) (tx : WriteTransaction) (w' : Work) (tx' : WriteTransaction) :
    Prop where
  work : w' = { w with used := w'.used, next := w'.next }
  config : tx' = { tx with
    rootPage := tx'.rootPage
    rootPageChecksum := tx'.rootPageChecksum
    dirtyPages := tx'.dirtyPages
    freedPages := tx'.freedPages }

section

variable {env : Env} {X : Fault → Prop} {G : Prop} {w w₁ : Work} {tx tx₁ : WriteTransaction}
  {T rest ps : List PageId} {page : PageMut} {m : Key → Option Value}

/-- The transaction with another root. -/
def WriteTransaction.withRoot (tx : WriteTransaction) (c : Child) : WriteTransaction :=
  { tx with rootPage := c.1, rootPageChecksum := c.2 }

theorem TxInv.withRoot (h : TxInv w tx) (c : Child) : TxInv w (tx.withRoot c) :=
  { h with }

theorem Moves.withRoot {A A' : Set PageId} (h : Moves w tx w₁ tx₁ A A') (c : Child) :
    Moves w (tx.withRoot c) w₁ (tx₁.withRoot c) A A' :=
  { h with
    config := by
      rw [h.config]
      rfl }

/-- The pages do not depend on which of them is the root. -/
theorem Opened.withRoot (h : Opened w tx T w₁ tx₁ page rest) (c : Child) :
    Opened w (tx.withRoot c) T w₁ (tx₁.withRoot c) page rest :=
  { h with
    inv := h.inv.withRoot c
    moves := h.moves.withRoot c }

theorem Closed.withRoot (h : Closed w tx T w₁ tx₁ ps) (c : Child) :
    Closed w (tx.withRoot c) T w₁ (tx₁.withRoot c) ps :=
  { h with
    inv := h.inv.withRoot c
    moves := h.moves.withRoot c }

theorem Spans.withRoot (h : Spans w tx T) (c : Child) : Spans w (tx.withRoot c) T :=
  { h with }

/-- If the pages were all there is, they still are. -/
theorem Closed.spans (h : Closed w tx T w₁ tx₁ ps) (hspans : Spans w tx T) :
    Spans w₁ tx₁ ps where
  held := h.held
  nodup := h.nodup
  used id hid := by
    have hfreed : id ∉ tx₁.freedPages := fun hin => h.inv.apart id hid (h.inv.freed id hin)
    rcases h.moves.grown id hid with hold | hps | hin
    · exact (h.moves.kept id (hspans.used id hold)).resolve_right hfreed
    · exact hps
    · exact absurd hin hfreed
  base id hid := by
    rw [h.moves.base] at hid
    rcases hspans.base id hid with hT | hin
    · exact h.moves.kept id hT
    · exact Or.inr (h.moves.released hin)

/-- A tree at rest below the root set. -/
theorem Closed.txOk {c : Child} (h : Closed w (tx.withRoot c) T w₁ tx₁ ps)
    (hspans : Spans w tx T) {d : ℕ}
    (hT : Under G (TreeAt env (overlay tx₁ w₁.view) d) ⊥ ⊤ c m ps) :
    (G → TxOk env w₁ tx₁ m) ∧ Goes w tx w₁ tx₁ := by
  have hconfig := h.moves.config
  have hroot : (tx₁.rootPage, tx₁.rootPageChecksum) = c := by
    rw [hconfig]
    rfl
  refine ⟨fun hG => ⟨h.inv, d, ps, hroot ▸ hT hG, h.spans (hspans.withRoot c)⟩, h.moves.work, ?_⟩
  rw [hconfig]
  rfl

/-- A fresh page joins a tree that is at rest. -/
theorem Closed.grow (h : Closed w tx T w₁ tx₁ ps) {w₂ : Work} {tx₂ : WriteTransaction}
    (hpage : CheckedOut w₁ tx₁ w₂ tx₂ ∅ page) (hfresh : page.id ∉ w₁.used)
    (hbase : page.id ∉ w₁.base.pages) :
    Opened w tx T w₂ tx₂ page ps ∧
      ∀ x ∈ ps, overlay tx₂ w₂.view x = overlay tx₁ w₁.view x := by
  have hrest : ∀ x ∈ ps, Held w₂ tx₂ x ∧ tx₂.slot x = tx₁.slot x := fun x hx =>
    hpage.moves.held h.inv hpage.inv (Set.notMem_empty x) (h.held x hx)
  refine ⟨⟨hpage.inv, ?_, hpage.slot, ?_, fun x hx => (hrest x hx).1, ?_⟩,
    fun x hx => hpage.moves.overlay (hrest x hx).2⟩
  · refine (h.moves.trans hpage.moves (Set.empty_subset _)).reshape fun x => ?_
    simp only [Set.mem_ofPred_eq, List.mem_cons, Set.mem_union, Set.sdiff_empty,
      Set.mem_singleton_iff]
    tauto
  · rw [hpage.length, h.moves.pageSize]
  · refine List.nodup_cons.mpr ⟨fun hx => ?_, h.nodup⟩
    exact ((h.held _ hx).owned h.inv).elim hfresh hbase

/-- **A new root** over the two pages the old one was split into. -/
theorem growRoot_sat {d : ℕ} {result : InsertionResult} {split : PageSplit}
    (hsplit : result.split = some split) (hclosed : Closed w tx T w₁ tx₁ ps)
    (hspans : Spans w tx T)
    (hshape : Shape (Under G (TreeAt env (overlay tx₁ w₁.view) d)) ⊥ ⊤ m result ps)
    (hguarded : Guarded env X G (RootTakes tx₁.pageSize result.separator)) :
    ((Tree.growRoot env result split).run tx₁).Sat (writer env) X w₁ fun r w' =>
      ((G → TxOk env w' r.2 m) ∧ Goes w tx w' r.2) ∧
        (env.debugAssertions = true → RootTakes tx₁.pageSize result.separator) := by
  rw [Shape, hsplit] at hshape
  obtain ⟨m₁, m₂, ps₁, ps₂, hleft, hright, hlow, hhigh, hglue, rfl⟩ := hshape
  rw [Tree.growRoot]
  simp only [setRootPage, run_bind_sat, run_except_sat, run_modify_sat]
  refine (allocatePage_sat hclosed.inv).mono ?_
  rintro ⟨page, tx₂⟩ w₂ ⟨hpage, hfresh, hbase⟩
  dsimp only at hpage hfresh hbase ⊢
  obtain ⟨hopen, hsame⟩ := hclosed.grow hpage hfresh hbase
  have hlength : page.data.length = tx₁.pageSize := hpage.length
  have hlarge := hclosed.inv.large
  have hsmall := hclosed.inv.small
  have hseparator : result.separator = some split.separatorKey := by
    rw [InsertionResult.separator, hsplit]
    rfl
  have htakes := @rootTakes_iff tx₁.pageSize split.separatorKey
    (result.replacementPageId, result.replacementPageChecksum)
    (split.rightPageId, split.rightPageChecksum)
  rw [hseparator, htakes] at hguarded
  rw [hseparator, htakes]
  refine (buildBranchAtBuf_returns (by omega) (by omega) (G := G) (hlength ▸ hguarded)).mono ?_
  rintro data ⟨hdata, hok, hroom⟩
  rw [hlength] at hroom
  refine ((hopen.edit hdata).withRoot (page.id, env.checksumPage data)).return.mono ?_
  rintro ⟨⟨⟩, tx₃⟩ w₃ ⟨hclosed', hroot, hrest⟩
  dsimp only at hclosed' hroot hrest ⊢
  -- the new root is a fresh page, so the two subtrees below it are read as before
  have hview : ∀ x ∈ ps₁ ++ ps₂, overlay tx₃ w₃.view x = overlay tx₁ w₁.view x := fun x hx =>
    (hrest x hx).trans (hsame x hx)
  have hforest : G → Forest (TreeAt env (overlay tx₃ w₃.view) d) ⊥ ⊤
      (withoutFirstKey (BranchBuilder.newRoot result.replacementPageId
        result.replacementPageChecksum split.separatorKey split.rightPageId
        split.rightPageChecksum).branchEntries) m (ps₁ ++ ps₂) := by
    intro hG
    rw [← hglue]
    exact Forest.pair
      ((hleft hG).congr fun x hx => hview x (List.mem_append_left _ hx))
      ((hright hG).congr fun x hx => hview x (List.mem_append_right _ hx)) hlow hhigh
  exact ⟨hclosed'.txOk hspans (d := d + 1) fun hG => ⟨data, _, _, hroot, rfl, hok hG, hforest hG,
    fun hone => absurd hone (by simp [withoutFirstKey, BranchBuilder.newRoot]), rfl⟩, hroom⟩

/-- **Inserting**, where that is guarded, sets the value of the key in the map of the
transaction. With debug assertions it returns only where there is room. -/
theorem insert_guarded_sat (hok : TxOk env w tx m) (hsized : Sized w tx ∨ X .panic) {view : View}
    (hview : ∀ id data, overlay tx w.view id = some data → view id = some data) (key : Key)
    (value : Value)
    (hguarded : Guarded env X G (Accepts view tx.pageSize tx.rootPage key value)) :
    ((Tree.insert env key value).run tx).Sat (writer env) X w fun r w' =>
      ((G → TxOk env w' r.2 (assign m key value)) ∧ Goes w tx w' r.2) ∧
        (env.debugAssertions = true → Accepts view tx.pageSize tx.rootPage key value) := by
  obtain ⟨hinv, d, ps, hT, hspans⟩ := hok
  rw [Tree.insert]
  simp only [run_bind_sat, run_get_sat]
  have hsame : ∀ x ∈ ps, overlay tx w.view x = view x := fun x hx => by
    obtain ⟨page, hpage⟩ := hT.known hx
    rw [hpage, hview x page hpage]
  refine (insertRecursive_sat (c := (tx.rootPage, tx.rootPageChecksum))
    (hT.depth_lt_maxDepth hspans.nodup) hinv hsized hT hspans.held hspans.nodup bot_le
    (WithTop.coe_lt_top key) hsame
    (hguarded.imp (Exists.imp fun _ h => h.1))).mono ?_
  rintro ⟨result, tx₁⟩ w₁ ⟨qs, hclosed, hshape, hseparator, hroom⟩
  dsimp only at hclosed hshape hseparator hroom ⊢
  have hsize : tx₁.pageSize = tx.pageSize := hclosed.moves.pageSize
  -- a split that reached the root grows the tree by one level, else the root is replaced
  cases hsplit : result.split with
  | some split =>
    refine (growRoot_sat hsplit hclosed hspans hshape (hguarded.imp ?_)).mono fun r w' h =>
      ⟨h.1, fun henv => ⟨_, hroom henv, hsize ▸ h.2 henv⟩⟩
    rintro ⟨sep, hroom, hroot⟩
    rw [hseparator sep hroom, hsize]
    exact hroot
  | none =>
    rw [Shape, hsplit] at hshape
    simp only [setRootPage, run_modify_sat]
    refine ⟨(hclosed.withRoot (result.replacementPageId, result.replacementPageChecksum)).txOk hspans
      hshape, fun henv => ⟨_, hroom henv, ?_⟩⟩
    rw [InsertionResult.separator, hsplit]
    exact fun key hkey => absurd hkey (by simp)

/-- **Inserting** with debug assertions sets the value of the key in the map of the
transaction, or ends with a failed one. -/
theorem insert_sat (henv : env.debugAssertions = true) (hok : TxOk env w tx m) (key : Key)
    (value : Value) :
    ((Tree.insert env key value).run tx).Sat (writer env) Panics w fun r w' =>
      TxOk env w' r.2 (assign m key value) ∧ Goes w tx w' r.2 :=
  (insert_guarded_sat (X := Panics) (G := True) hok (Or.inr rfl) (fun _ _ h => h) key value
    (guarded_debug henv _ _)).mono fun _ _ h => ⟨h.1.1 trivial, h.1.2⟩

end

end KvRaft.Kv
