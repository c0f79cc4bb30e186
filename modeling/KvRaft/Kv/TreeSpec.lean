import KvRaft.Kv.BranchSpec
import KvRaft.Kv.Tree
import Mathlib.Data.Finset.Card
import Mathlib.Data.Finset.Range

/-!
# What a tree of pages means

`TreeAt env view d lo hi (id, ck) m ps`: in the pages `view`, the page `id` is the root of
a tree of depth `d` whose keys lie in `[lo, hi)`. Its content is the map `m`, its pages are
`ps`, and every page in it has the checksum its parent stores for it, the root the
checksum `ck`. Only what is responsible for all keys may be an empty leaf, and then it is
no child of a branch.

A tree depends on its own pages only (`TreeAt.congr`). On a tree

* `Tree::get` returns what the map holds, and gets there (`get_sat`),
* `Tree::verify_pages` succeeds (`verifyPages_sat`), and on a file that may hold anything
  in place of the pages of a tree it finds out (`verifyPages_exact`), as long as no two
  different pages at hand have the same checksum.
-/

namespace KvRaft.Kv

open Ordered

/-- What reading a page returns, where there is something known about it. -/
abbrev View := PageId → Option Bytes

/-- The tree below a page. -/
def TreeAt (env : Env) (view : View) : ℕ → Subtree Key Value Child PageId
  | 0, lo, hi, c, m, ps =>
    ∃ page kvs, view c.1 = some page ∧ env.checksumPage page = c.2 ∧ LeafOk page kvs ∧
      (∀ a ∈ kvs, lo ≤ (a.1 : WithBot Key) ∧ (a.1 : WithTop Key) < hi) ∧
      (kvs = [] → lo = ⊥ ∧ hi = ⊤) ∧ m = contents kvs ∧ ps = [c.1]
  | d + 1, lo, hi, c, m, ps =>
    ∃ page cells qs, view c.1 = some page ∧ env.checksumPage page = c.2 ∧
      BranchOk page cells ∧ Forest (TreeAt env view d) lo hi cells m qs ∧
      (cells.length = 1 → lo ≠ ⊥ ∨ hi ≠ ⊤) ∧ ps = c.1 :: qs

section

variable {env : Env} {view view' : View} {d : ℕ} {lo : WithBot Key} {hi : WithTop Key}
  {c : Child} {m : Key → Option Value} {ps : List PageId}

/-- The root is one of the pages. -/
theorem TreeAt.root_mem (h : TreeAt env view d lo hi c m ps) : c.1 ∈ ps := by
  cases d with
  | zero =>
    obtain ⟨page, kvs, -, -, -, -, -, -, rfl⟩ := h
    exact List.mem_singleton_self _
  | succ d =>
    obtain ⟨page, cells, qs, -, -, -, -, -, rfl⟩ := h
    exact List.mem_cons_self

/-- **Frame.** Pages outside the tree do not matter. -/
theorem TreeAt.congr (h : TreeAt env view d lo hi c m ps)
    (hview : ∀ id ∈ ps, view' id = view id) : TreeAt env view' d lo hi c m ps := by
  induction d generalizing lo hi c m ps with
  | zero =>
    obtain ⟨page, kvs, hpage, hck, hleaf, hrange, hempty, hm, rfl⟩ := h
    exact ⟨page, kvs, (hview _ (List.mem_singleton_self _)).trans hpage, hck, hleaf, hrange,
      hempty, hm, rfl⟩
  | succ d ih =>
    obtain ⟨page, cells, qs, hpage, hck, hbranch, hforest, hwide, rfl⟩ := h
    refine ⟨page, cells, qs, (hview _ List.mem_cons_self).trans hpage, hck, hbranch, ?_, hwide, rfl⟩
    exact hforest.mono fun lo hi c m rs hrs hT =>
      ih hT fun id hid => hview id (List.mem_cons_of_mem _ (hrs hid))

/-- Every page of the tree is known. -/
theorem TreeAt.known (h : TreeAt env view d lo hi c m ps) {id : PageId} (hid : id ∈ ps) :
    ∃ page, view id = some page := by
  induction d generalizing lo hi c m ps with
  | zero =>
    obtain ⟨page, kvs, hpage, -, -, -, -, -, rfl⟩ := h
    rw [List.mem_singleton] at hid
    subst hid
    exact ⟨page, hpage⟩
  | succ d ih =>
    obtain ⟨page, cells, qs, hpage, -, -, hforest, -, rfl⟩ := h
    rcases List.mem_cons.mp hid with rfl | hid
    · exact ⟨page, hpage⟩
    · obtain ⟨a, -, lo', hi', m', rs, hT, -, hid⟩ := hforest.page hid
      exact ih hT hid

/-- A path from the root to a leaf has a page on every level. -/
theorem TreeAt.depth_lt (h : TreeAt env view d lo hi c m ps) : d < ps.length := by
  induction d generalizing lo hi c m ps with
  | zero =>
    obtain ⟨page, kvs, -, -, -, -, -, -, rfl⟩ := h
    exact Nat.one_pos
  | succ d ih =>
    obtain ⟨page, cells, qs, -, -, -, hforest, -, rfl⟩ := h
    obtain ⟨a, ha⟩ := List.exists_mem_of_ne_nil _ hforest.ne_nil
    obtain ⟨lo', hi', m', rs, hT, hsub⟩ := hforest.child ha
    have hd := ih hT
    have hlen := hsub.length_le
    rw [List.length_cons]
    omega

/-- Distinct pages are no more than there are page ids. -/
theorem length_le_maxDepth {ps : List PageId} (h : ps.Nodup) : ps.length ≤ maxDepth := by
  have hsub : ps.toFinset.image UInt64.toNat ⊆ Finset.range (2 ^ 64) := by
    intro n hn
    obtain ⟨id, -, rfl⟩ := Finset.mem_image.mp hn
    exact Finset.mem_range.mpr id.toNat_lt
  have hcard := Finset.card_le_card hsub
  rwa [Finset.card_image_of_injective _ (fun a b => UInt64.toNat_inj.mp),
    List.toFinset_card_of_nodup h, Finset.card_range] at hcard

theorem TreeAt.depth_lt_maxDepth (h : TreeAt env view d lo hi c m ps) (hnodup : ps.Nodup) :
    d < maxDepth :=
  h.depth_lt.trans_le (length_le_maxDepth hnodup)

end

/-! ### Reading -/

/-- Code that reads known pages and does nothing else. The ghost counts the pages. -/
def reading (view : View) : Protocol signature ℕ where
  pre _ o := ∃ id, o = .readPage id ∧ ∃ page, view id = some page
  post n o a n' :=
    match o, a with
    | .readPage id, page => view id = some page ∧ n' = n + 1
    | _, _ => True

section

variable {env : Env} {view : View} {X : Fault → Prop} {n : ℕ}

theorem readPage_sat {id : PageId} {page : Bytes} (h : view id = some page)
    {Q : Bytes → ℕ → Prop} (hQ : Q page (n + 1)) : (readPage id).Sat (reading view) X n Q := by
  refine ⟨⟨id, rfl, page, h⟩, fun page' n' hpost => ?_⟩
  obtain ⟨hpage, rfl⟩ : view id = some page' ∧ n' = n + 1 := hpost
  rw [h, Option.some.injEq] at hpage
  subst hpage
  exact hQ

theorem leaf_fromPage {page : Bytes} {ms : List LeafEntryMetadata} {kvs : List LeafEntry}
    (h : LeafHolds page ms kvs) :
    NodePage.fromPage page = .ok (.leaf ⟨Bytes.readPod LeafHeader page 0, ms, page⟩) := by
  rw [NodePage.fromPage, h.parse, ok_bind]
  dsimp only
  rw [h.fromPage]
  rfl

theorem branch_fromPage {page : Bytes} {ms : List BranchEntryMetadata}
    {cells : List BranchEntry} (h : BranchHolds page ms cells) :
    NodePage.fromPage page = .ok (.branch ⟨Bytes.readPod BranchHeader page 0, ms, page⟩) := by
  rw [NodePage.fromPage, h.parse, ok_bind]
  dsimp only
  rw [h.fromPage]
  rfl

/-- **Reading a key** of a tree returns the value of its map, and visits one page on each
level. -/
theorem get_sat {fuel d : ℕ} (hfuel : d < fuel) {lo : WithBot Key} {hi : WithTop Key} {c : Child}
    {m : Key → Option Value} {ps : List PageId} (h : TreeAt env view d lo hi c m ps)
    {key : Key} (hlo : lo ≤ key) (hhi : (key : WithTop Key) < hi) :
    (Tree.get fuel c.1 key).Sat (reading view) X n fun r n' => r = m key ∧ n' = n + d + 1 := by
  induction fuel generalizing d lo hi c m ps n with
  | zero => omega
  | succ fuel ih =>
    rw [Tree.get, Program.sat_bind]
    cases d with
    | zero =>
      obtain ⟨page, kvs, hpage, -, ⟨ms, hleaf⟩, -, -, rfl, -⟩ := h
      refine readPage_sat hpage ?_
      rw [Program.liftM_eq, leaf_fromPage hleaf, Program.ofExcept_ok, Program.ret_bind]
      dsimp only
      rw [Program.liftM_eq, hleaf.getValue, Program.ofExcept_ok]
      exact ⟨rfl, rfl⟩
    | succ d =>
      -- one page is read on each level, and the child taken is the one that holds the key
      obtain ⟨page, cells, qs, hpage, -, ⟨ms, hbranch⟩, hforest, -⟩ := h
      refine readPage_sat hpage ?_
      obtain ⟨lo', hi', c', m', before, own, after, hfocus⟩ := hforest.route hlo hhi
      rw [Program.liftM_eq, branch_fromPage hbranch, Program.ofExcept_ok, Program.ret_bind]
      dsimp only
      rw [Program.liftM_eq, hbranch.childPageIdForKey _ hfocus.child, Program.ofExcept_ok,
        Program.ret_bind, hfocus.lookup]
      refine (ih (by omega) hfocus.tree hfocus.le hfocus.lt).mono fun r n' ⟨hr, hn⟩ => ⟨hr, ?_⟩
      omega

/-- The loop over the entries of a branch. -/
theorem forEntries_sat {verify : PageId → Checksum → Call Unit} {Q : BranchEntry → Prop}
    {page : Bytes} {hdr : BranchHeader} {all : List BranchEntryMetadata} :
    ∀ (ms : List BranchEntryMetadata) {n : ℕ},
    (∀ m ∈ ms, BranchPage.entryKey ⟨hdr, all, page⟩ m = .ok (branchEntry page m).1) →
    (∀ m ∈ ms, ∀ n, (verify m.childPageId m.childPageChecksum).Sat (reading view) X n
      fun _ _ => Q (branchEntry page m)) →
    (Tree.forEntries verify ⟨hdr, all, page⟩ ms).Sat (reading view) X n
      fun _ _ => ∀ m ∈ ms, Q (branchEntry page m)
  | [], _, _, _ => fun _ ha => absurd ha List.not_mem_nil
  | m :: rest, n, hkey, h => by
    rw [Tree.forEntries, Program.liftM_eq, hkey m List.mem_cons_self, Program.ofExcept_ok,
      Program.ret_bind, Program.sat_bind]
    refine (h m List.mem_cons_self n).mono fun _ n' hfirst => ?_
    refine (forEntries_sat rest (fun b hb => hkey b (List.mem_cons_of_mem m hb))
      fun b hb => h b (List.mem_cons_of_mem m hb)).mono fun _ _ hothers b hb => ?_
    rcases List.mem_cons.mp hb with rfl | hb
    · exact hfirst
    · exact hothers b hb

/-- The loop over the entries of a branch whose entries are known. -/
theorem BranchHolds.forEntries_sat {verify : PageId → Checksum → Call Unit}
    {Q : BranchEntry → Prop} {page : Bytes} {ms : List BranchEntryMetadata}
    {cells : List BranchEntry} (h : BranchHolds page ms cells) (hdr : BranchHeader)
    (hverify : ∀ a ∈ cells, ∀ n, (verify a.2.1 a.2.2).Sat (reading view) X n fun _ _ => Q a) :
    (Tree.forEntries verify ⟨hdr, ms, page⟩ ms).Sat (reading view) X n
      fun _ _ => ∀ a ∈ cells, Q a := by
  refine (Kv.forEntries_sat (Q := Q) ms (fun m hm => h.entryKey hm hdr) fun m hm n => ?_).mono
    fun _ _ hall a ha => ?_
  · exact hverify _ (by rw [← h.entries]; exact List.mem_map_of_mem hm) n
  · rw [← h.entries] at ha
    obtain ⟨m, hm, rfl⟩ := List.mem_map.mp ha
    exact hall m hm

/-- **Verifying a tree** succeeds. -/
theorem verifyPages_sat {fuel d : ℕ} (hfuel : d < fuel) {lo : WithBot Key} {hi : WithTop Key}
    {c : Child} {m : Key → Option Value} {ps : List PageId} (h : TreeAt env view d lo hi c m ps) :
    (Tree.verifyPages env fuel c.1 c.2).Sat (reading view) X n fun _ _ => True := by
  induction fuel generalizing d lo hi c m ps n with
  | zero => omega
  | succ fuel ih =>
    rw [Tree.verifyPages, Program.sat_bind]
    cases d with
    | zero =>
      obtain ⟨page, kvs, hpage, hck, ⟨ms, hleaf⟩, -⟩ := h
      refine readPage_sat hpage ?_
      rw [if_neg (not_not.mpr hck)]
      rw [Program.liftM_eq, leaf_fromPage hleaf, Program.ofExcept_ok, Program.ret_bind]
      trivial
    | succ d =>
      obtain ⟨page, cells, qs, hpage, hck, ⟨ms, hbranch⟩, hforest, -⟩ := h
      refine readPage_sat hpage ?_
      rw [if_neg (not_not.mpr hck)]
      rw [Program.liftM_eq, branch_fromPage hbranch, Program.ofExcept_ok, Program.ret_bind]
      dsimp only
      have hchildren : ∀ a ∈ cells, ∀ n, (Tree.verifyPages env fuel a.2.1 a.2.2).Sat (reading view)
          X n fun _ _ => True := by
        intro a ha n
        obtain ⟨lo', hi', m', rs, hT, -⟩ := hforest.child ha
        exact ih (by omega) hT
      exact (hbranch.forEntries_sat _ hchildren).mono fun _ _ _ => trivial

/-- A branch has one list of entries. -/
theorem BranchOk.unique {page : Bytes} {cells cells' : List BranchEntry}
    (h : BranchOk page cells) (h' : BranchOk page cells') : cells = cells' := by
  obtain ⟨ms, h⟩ := h
  obtain ⟨ms', h'⟩ := h'
  have hms : ms = ms' := by
    have hentries := h.mutatorEntries
    rw [h'.mutatorEntries, Except.ok.injEq] at hentries
    exact hentries.symm
  rw [← h.entries, ← h'.entries, hms]

/-- What `verify_pages` answers about a page it does not expect. -/
def IsDatabaseError (e : Fault) : Prop := ∃ msg, e = .error (.databaseError msg)

/-- **Verifying a file** that may hold anything in place of the pages of a tree either
fails with a database error or finds exactly these pages, if no page of the file has the
checksum of a different page of the tree. -/
theorem verifyPages_exact {want : View} {R : List PageId}
    (hknown : ∀ id ∈ R, ∃ page, view id = some page)
    (hcollision : ∀ id ∈ R, ∀ page page', view id = some page → want id = some page' →
      env.checksumPage page = env.checksumPage page' → page = page')
    {fuel d : ℕ} (hfuel : d < fuel) {c : Child}
    (h : ∃ lo hi m ps, TreeAt env want d lo hi c m ps ∧ ps ⊆ R) :
    (Tree.verifyPages env fuel c.1 c.2).Sat (reading view) IsDatabaseError n fun _ _ =>
      ∀ lo hi m ps, TreeAt env want d lo hi c m ps → ps ⊆ R → ∀ id ∈ ps, view id = want id := by
  induction fuel generalizing d c n with
  | zero => omega
  | succ fuel ih =>
    obtain ⟨lo, hi, m, ps, hT, hR⟩ := h
    obtain ⟨page, hpage⟩ := hknown c.1 (hR hT.root_mem)
    rw [Tree.verifyPages, Program.sat_bind]
    refine readPage_sat hpage ?_
    split
    · exact ⟨_, rfl⟩
    · rename_i hck
      rw [not_not] at hck
      -- the page has the checksum of the page of the tree, so it is that page
      have hroot : ∀ page', want c.1 = some page' → env.checksumPage page' = c.2 →
          page' = page := fun page' hwant hck' =>
        (hcollision c.1 (hR hT.root_mem) page page' hpage hwant (hck.trans hck'.symm)).symm
      cases d with
      | zero =>
        obtain ⟨page', kvs, hpage', hck', ⟨ms, hleaf⟩, -, -, -, rfl⟩ := hT
        obtain rfl := hroot page' hpage' hck'
        rw [Program.liftM_eq, leaf_fromPage hleaf, Program.ofExcept_ok, Program.ret_bind]
        intro lo hi m ps hT' _ id hid
        obtain ⟨page'', kvs', hpage'', -, -, -, -, -, rfl⟩ := hT'
        rw [List.mem_singleton] at hid
        rw [hid, hpage, hpage']
      | succ d =>
        obtain ⟨page', cells, qs, hpage', hck', ⟨ms, hbranch⟩, hforest, -, rfl⟩ := hT
        obtain rfl := hroot page' hpage' hck'
        rw [Program.liftM_eq, branch_fromPage hbranch, Program.ofExcept_ok, Program.ret_bind]
        dsimp only
        have hchildren : ∀ a ∈ cells, ∀ n,
            (Tree.verifyPages env fuel a.2.1 a.2.2).Sat (reading view) IsDatabaseError n
              fun _ _ => ∀ lo hi m ps, TreeAt env want d lo hi a.2 m ps → ps ⊆ R →
                ∀ id ∈ ps, view id = want id := by
          intro a ha n
          obtain ⟨lo', hi', m', rs, hT, hsub⟩ := hforest.child ha
          exact ih (by omega) ⟨lo', hi', m', rs, hT, fun id hid =>
            hR (List.mem_cons_of_mem _ (hsub.subset hid))⟩
        refine (hbranch.forEntries_sat _ hchildren).mono fun _ _ hall => ?_
        intro lo' hi' m' ps' hT' hR' id hid
        obtain ⟨page'', cells', qs', hpage'', -, hbranch', hforest', -, rfl⟩ := hT'
        have hpages : page' = page'' := by
          rw [hpage', Option.some.injEq] at hpage''
          exact hpage''
        subst hpages
        rcases List.mem_cons.mp hid with rfl | hid
        · rw [hpage, hpage']
        · obtain ⟨a, ha, lo₁, hi₁, m₁, rs, hT₁, hrs, hmem⟩ := hforest'.page hid
          rw [BranchOk.unique hbranch' ⟨ms, hbranch⟩] at ha
          exact hall a ha lo₁ hi₁ m₁ rs hT₁
            (fun x hx => hR' (List.mem_cons_of_mem _ (hrs.subset hx))) id hmem

end

end KvRaft.Kv
