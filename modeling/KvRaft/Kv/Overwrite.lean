import KvRaft.Kv.Verified

/-!
# Overwriting a value

Inserting a key that is there replaces its value. The code asks for room for one more entry
all the same (`LeafPageMutator::fits`), and a leaf that has grown by overwrites is full of
bytes that no entry refers to. Then the leaf is split, and that takes two pairs.

* A pair that is alone in its leaf is overwritten exactly where the leaf has room for one
  more entry.
* A pair whose value does not grow leaves room in both halves of its leaf, so that its leaf
  may be split if there is another pair, and the branches above it have room for the
  separator.

`Overwritable` says so. Where it holds the value is replaced, unless the pages run out
(`overwrite_works`). Two values of 3000 bytes for one key do not get there
(`overwrite_panics`).
-/

namespace KvRaft.Kv

open Bytes Ordered

section

variable {env : Env} {db db' : DatabaseState} {w : Work} {readers : List Version}
  {tx : WriteTransaction} {m : Key → Option Value} {key : Key} {value : Value}

/-! ### Running out of pages -/

/-- Allocating fails where there are no more pages. -/
theorem exhausted_of_allocate {e : Fault}
    (h : execute env .allocatePageId db = (.error e, db')) : Exhausted db' := by
  rcases allocate_inv env db with ⟨e', rest, -, hexec⟩ | ⟨fault, next, -, hexhausted, hexec⟩ |
    ⟨-, len, reservedPageCount, -, hexec⟩ <;> rw [hexec, Prod.mk.injEq] at h
  · exact absurd h.1 (by simp)
  · exact h.2 ▸ hexhausted
  · exact absurd h.1 (by simp)

/-- **Nothing else fails** while a transaction is being built, and then the database goes on
from the version the transaction started from. -/
theorem building_honours (env : Env) (base : Version) (readers : List Version) :
    (execute env).Honours (writer env) (fun _ db => Exhausted db ∧ Aborted env base readers db)
      fun db w => Owned env db w readers [] ∧ w.phase = .building ∧ w.base = base := by
  rintro db w o ⟨h, hphase, hbase⟩ hpre
  have hstep := h.perform hpre fun _ e rest _ v hv => absurd hv List.not_mem_nil
  -- the operations of a commit are not for this phase
  have hcommit : ∀ phase, w.phase = phase → phase ≠ .building → False := fun phase heq hne =>
    hne (heq.symm.trans hphase)
  cases o with
  | readPage id =>
    obtain ⟨-, hid⟩ := hpre
    obtain ⟨data, hview⟩ := h.stands.tree.known hid
    obtain ⟨db', hread, howned, -⟩ := h.readPage hview
    rw [hread]
    exact ⟨w, ⟨rfl, hview⟩, howned, hphase, hbase⟩
  | allocatePageId =>
    rcases hres : execute env .allocatePageId db with ⟨e | id, db'⟩
    · rw [hres] at hstep
      obtain ⟨-, next, howned⟩ := hstep
      exact ⟨exhausted_of_allocate hres, _, howned, hbase⟩
    · rw [hres] at hstep
      obtain ⟨w', hpost, howned⟩ := hstep
      refine ⟨w', hpost, howned, ?_⟩
      obtain ⟨-, -, -, next, rfl⟩ := hpost
      exact ⟨hphase, hbase⟩
  | removePage id => exact ⟨w, rfl, h.keeps keeps_removePage, hphase, hbase⟩
  | loadHeader =>
    obtain ⟨w', hpost, howned⟩ := hstep
    obtain rfl : w' = w := hpost.2
    exact ⟨w', hpost, howned, hphase, hbase⟩
  | nextPageId =>
    obtain ⟨w', hpost, howned⟩ := hstep
    obtain rfl : w' = w := hpost.2
    exact ⟨w', hpost, howned, hphase, hbase⟩
  | writePage id data =>
    obtain ⟨v, heq, -⟩ := hpre
    exact (hcommit _ heq (by simp)).elim
  | syncData =>
    obtain ⟨v, heq⟩ := hpre
    exact (hcommit _ heq (by simp)).elim
  | swap header =>
    obtain ⟨v, heq, -⟩ := hpre
    exact (hcommit _ heq (by simp)).elim
  | freePage id transaction =>
    obtain ⟨old, released, heq, -⟩ := hpre
    exact (hcommit _ heq (by simp)).elim
  | loadSnapshot => exact hpre.elim
  | register transaction => exact hpre.elim
  | deregister transaction => exact hpre.elim

theorem Owned.sized (h : Owned env db w readers []) (hinv : TxInv w tx) : Sized w tx :=
  fun id _ data hdata => by
    rw [(h.reads id data hdata).length, h.pageSize, hinv.pageSize]

/-- **Inserting**, where it is guarded, fails for nothing but what guards it and a lack of
pages. With debug assertions it returns only where there is room. -/
theorem Owned.insert_guarded_run (h : Owned env db w readers []) (hworking : Working env w tx m)
    {X : Fault → Prop} {G : Prop} (key : Key) (value : Value)
    (hguarded : Guarded env X G (Accepts (seenPages env db tx) tx.pageSize tx.rootPage key value)) :
    match (tx.insert env key value).run (execute env) db with
    | (.ok tx', db') => (∃ w', Owned env db' w' readers [] ∧
        (G → Working env w' tx' (assign m key value)) ∧ w'.base = w.base) ∧
        (env.debugAssertions = true →
          Accepts (seenPages env db tx) tx.pageSize tx.rootPage key value)
    | (.error e, db') => X e ∨ Exhausted db' ∧ Aborted env w.base readers db' := by
  have hresult := (hworking.insert_guarded_sat (Or.inl (h.sized hworking.ok.inv))
    (fun _ _ => h.seen) key value hguarded).run (building_honours env w.base readers)
    ⟨h, hworking.ok.inv.phase, rfl⟩
  rcases hrun : (tx.insert env key value).run (execute env) db with ⟨e | tx', db'⟩
  · rw [hrun] at hresult
    exact hresult.imp_left And.left
  · rw [hrun] at hresult
    obtain ⟨w', ⟨⟨hworking', hbase⟩, hroom⟩, howned, -⟩ := hresult
    exact ⟨⟨w', howned, hworking', hbase⟩, hroom⟩

/-! ### The leaf of a key -/

/-- A page of the tree is as long as all pages. -/
theorem Held.length (hsized : Sized w tx) {id : PageId} (h : Held w tx id) {data : Bytes}
    (hdata : overlay tx w.view id = some data) : data.length = tx.pageSize := by
  rw [overlay] at hdata
  rcases h with ⟨data', hslot, hlength⟩ | ⟨hslot, hbase, -⟩
  · rw [hslot] at hdata
    obtain rfl := Option.some.inj hdata
    exact hlength
  · rw [hslot] at hdata
    exact hsized id hbase data hdata

/-- The tree of the transaction leads a key to the leaf that holds its value. -/
theorem Owned.leafFor (h : Owned env db w readers []) (hworking : Working env w tx m) (key : Key) :
    ∃ page ms kvs, LeafFor (seenPages env db tx) key tx.rootPage page ∧ LeafHolds page ms kvs ∧
      page.length = tx.pageSize ∧ contents kvs key = m key := by
  obtain ⟨hinv, d, ps, hT, hspans⟩ := hworking.ok
  obtain ⟨id, hid, page, kvs, hpage, ⟨ms, hleaf⟩, hvalue, hfor⟩ :=
    hT.leafFor (fun _ _ => h.seen) bot_le (WithTop.coe_lt_top key)
  exact ⟨page, ms, kvs, hfor, hleaf, (hspans.held id hid).length (h.sized hinv) hpage, hvalue⟩

/-! ### Room to overwrite -/

/-- The leaf of the key holds nothing else. -/
def AloneInLeaf (view : View) (rootPage : PageId) (key : Key) : Prop :=
  ∃ page old, LeafFor view key rootPage page ∧ LeafBuilder.fromPage page = .ok ⟨[(key, old)]⟩

/-- The leaf of the key has room for one more entry; or it holds another pair, and there is
room above it for the key in its middle. -/
def Overwritable (view : View) (pageSize : ℕ) (rootPage : PageId) (key : Key) (value : Value) :
    Prop :=
  ∃ page, LeafFor view key rootPage page ∧
    (LeafPageMutator.fits page key value = .ok true ∨
      ∃ kvs leafSep sep, LeafBuilder.fromPage page = .ok ⟨kvs⟩ ∧ 2 ≤ kvs.length ∧
        ((kvs.drop (kvs.length / 2)).head?).map Prod.fst = some leafSep ∧
        BranchesTake view pageSize key rootPage (some leafSep) sep ∧ RootTakes pageSize sep)

/-- What a leaf takes in place of a pair that is alone or does not grow. -/
theorem LeafHolds.leafTakes_overwrite {page : Bytes} {ms : List LeafEntryMetadata}
    {kvs : List LeafEntry} (h : LeafHolds page ms kvs) {old : Value}
    (hold : contents kvs key = some old) (hcase : kvs.length = 1 ∨ value.length ≤ old.length)
    (hfits : LeafPageMutator.fits page key value = .ok false) (sep : Option Key) :
    LeafTakes page.length page key value sep ↔
      2 ≤ kvs.length ∧ ((kvs.drop (kvs.length / 2)).head?).map Prod.fst = sep := by
  obtain ⟨before, after, rfl, hupsert⟩ := upsert_of_contents h.sorted hold value
  have hsize := h.leafSize_le
  have hlength : (before ++ (key, value) :: after).length =
      (before ++ (key, old) :: after).length := by simp
  have hkeys : (before ++ (key, value) :: after).map Prod.fst =
      (before ++ (key, old) :: after).map Prod.fst := by simp
  have hmiddle : ∀ l l' : List LeafEntry, l.length = l'.length → l.map Prod.fst = l'.map Prod.fst →
      ((l.drop (l.length / 2)).head?).map Prod.fst =
        ((l'.drop (l'.length / 2)).head?).map Prod.fst := fun l l' hl hmap => by
    rw [← List.head?_map, ← List.head?_map, List.map_drop, List.map_drop, hmap, hl]
  rw [leafTakes_of_not_fits hfits h.builder, hupsert, hlength, ← hlength,
    hmiddle _ _ hlength hkeys, hlength]
  refine and_congr_left fun _ => ⟨And.left, fun htwo => ⟨htwo, ?_⟩⟩
  -- there is another pair, so the value does not grow, and the halves are no larger than the leaf
  have hsmaller : value.length ≤ old.length := hcase.resolve_left (by omega)
  have hroom : 24 + leafSize (before ++ (key, value) :: after) ≤ page.length := by
    rw [leafSize_append, leafSize_cons] at hsize ⊢
    dsimp only at hsize ⊢
    omega
  have hhalves := leafSize_append ((before ++ (key, value) :: after).take
    ((before ++ (key, value) :: after).length / 2)) ((before ++ (key, value) :: after).drop
    ((before ++ (key, value) :: after).length / 2))
  rw [List.take_append_drop] at hhalves
  constructor
  · rw [LeafRoom]
    omega
  · rw [LeafRoom]
    omega

/-- **The condition is exact**: there is room to overwrite just where there is room for the
pair. -/
theorem Owned.accepts_iff_overwritable (h : Owned env db w readers [])
    (hworking : Working env w tx m) {old : Value} (hold : m key = some old)
    (hcase : AloneInLeaf (seenPages env db tx) tx.rootPage key ∨ value.length ≤ old.length) :
    Accepts (seenPages env db tx) tx.pageSize tx.rootPage key value ↔
      Overwritable (seenPages env db tx) tx.pageSize tx.rootPage key value := by
  obtain ⟨page, ms, kvs, hfor, hleaf, hlength, hvalue⟩ := h.leafFor hworking key
  have hcase' : kvs.length = 1 ∨ value.length ≤ old.length := by
    refine hcase.imp_left ?_
    rintro ⟨page', old', hfor', hbuilder⟩
    obtain rfl := hfor.unique hfor'
    rw [hleaf.builder, Except.ok.injEq, LeafBuilder.mk.injEq] at hbuilder
    rw [hbuilder]
    rfl
  have hfits := hleaf.fits key value
  by_cases hfit : 24 + (ms.length + 1) * 32 + (key.length + value.length) ≤
      (readPod LeafHeader page 0).kvPairsEndOffset.toNat
  · -- the pair is written in place
    rw [decide_eq_true hfit] at hfits
    refine iff_of_true ⟨none, (hasRoom_iff hfor).mpr ⟨none, .inPlace hfits,
      hfor.branchesTake_none⟩, fun k hk => absurd hk (by simp)⟩ ⟨page, hfor, Or.inl hfits⟩
  rw [decide_eq_false hfit] at hfits
  -- The leaf is rebuilt: one pair alone is too short to split, and a value that is not longer
  -- keeps the halves inside the page.
  have htakes := hleaf.leafTakes_overwrite (hvalue.trans hold) hcase' hfits
  rw [hlength] at htakes
  constructor
  · rintro ⟨sep, hroom, hroot⟩
    obtain ⟨leafSep, hleafTakes, habove⟩ := (hasRoom_iff hfor).mp hroom
    obtain ⟨htwo, hmiddle⟩ := (htakes leafSep).mp hleafTakes
    obtain ⟨sepKey, hsome⟩ := exists_middle htwo
    rw [hsome] at hmiddle
    subst hmiddle
    exact ⟨page, hfor, Or.inr ⟨kvs, sepKey, sep, hleaf.builder, htwo, hsome, habove, hroot⟩⟩
  · rintro ⟨page', hfor', hcases⟩
    obtain rfl := hfor.unique hfor'
    rcases hcases with hfits' | ⟨kvs', leafSep, sep, hbuilder, htwo, hmiddle, habove, hroot⟩
    · rw [hfits] at hfits'
      exact absurd hfits' (by simp)
    · rw [hleaf.builder, Except.ok.injEq, LeafBuilder.mk.injEq] at hbuilder
      subst hbuilder
      exact ⟨sep, (hasRoom_iff hfor).mpr ⟨some leafSep, (htakes _).mpr ⟨htwo, hmiddle⟩, habove⟩,
        hroot⟩

/-! ### Overwriting -/

/-- What a lookup in the tree of an open transaction returns. -/
def lookup (env : Env) (db : DatabaseState) (tx : WriteTransaction) (key : Key) :
    Except Fault (Option Value) :=
  ((Tree.get maxDepth tx.rootPage key).run (overlaid env tx) db).1

/-- The insertion returns `Ok`. Then the key has the value and the other keys keep theirs, for
the transaction and, once it is committed, for the readers that begin. -/
def Overwrites (env : Env) (db : DatabaseState) (tx : WriteTransaction) (key : Key)
    (value : Value) : Prop :=
  ∃ tx' db', (tx.insert env key value).run (execute env) db = (.ok tx', db') ∧
    lookup env db' tx' key = .ok (some value) ∧
    (∀ k, k ≠ key → lookup env db' tx' k = lookup env db tx k) ∧
    ∀ pages db₂, pages.Perm tx'.dirtyPages →
      (tx'.commit pages).run (execute env) db' = (.ok (), db₂) →
        ∃ m, Serves env db₂ m ∧ ∀ k, lookup env db' tx' k = .ok (m k)

/-- A commit that returns `Ok` serves what the transaction holds. -/
theorem Owned.serves_commit (h : Owned env db w readers []) (hworking : Working env w tx m)
    {pages : List (PageId × DirtyPageSlot)} (hpages : pages.Perm tx.dirtyPages)
    (hrun : (tx.commit pages).run (execute env) db = (.ok (), db')) : Serves env db' m := by
  obtain ⟨v, hbuilds, rfl⟩ := hworking.ok.builds
  have hresult := h.commit_run (stable_true env) hworking hbuilds trivial hpages
  rw [hrun] at hresult
  exact hresult.1.serves

/-- Where there is room, inserting a pair sets the value of its key, or the pages run out. -/
theorem Owned.overwrites (h : Owned env db w readers []) (hworking : Working env w tx m)
    (hroom : Accepts (seenPages env db tx) tx.pageSize tx.rootPage key value) :
    Overwrites env db tx key value ∨
      ∃ e db', (tx.insert env key value).run (execute env) db = (.error e, db') ∧
        Exhausted db' := by
  have hresult := h.insert_guarded_run (X := fun _ => False) (G := True) hworking key value
    (Or.inl hroom)
  rcases hrun : (tx.insert env key value).run (execute env) db with ⟨e | tx', db'⟩
  · rw [hrun] at hresult
    exact Or.inr ⟨e, db', rfl, (hresult.resolve_left id).1⟩
  rw [hrun] at hresult
  obtain ⟨⟨w', howned, hworking', -⟩, -⟩ := hresult
  have hafter := howned.get_overlaid (hworking' trivial).ok
  refine Or.inl ⟨tx', db', hrun, ?_, fun k hk => ?_, fun pages db₂ hpages hcommit => ?_⟩
  · rw [lookup, hafter, assign_self]
  · rw [lookup, hafter, assign_of_ne hk, lookup, h.get_overlaid hworking.ok]
  · exact ⟨_, howned.serves_commit (hworking' trivial) hpages hcommit, hafter⟩

end

/-- **Overwriting a value.** After any history whose insertions have found room, a pair that
is alone in its leaf or whose value does not grow is overwritten where there is room to, unless
the pages run out; with debug assertions, just there. -/
theorem overwrite_works {env : Env} {pageSize : ℕ} {evicts : ℕ → PageId → Bool}
    {db : DatabaseState} (hnew : Database.openNew env pageSize evicts = .ok db) {s : Session}
    (hrun : Session.RoomyRun env (.start db) s) {tx : WriteTransaction}
    {inserts : List (Key × Value)} (hwriter : s.writer = some (tx, inserts)) {key : Key}
    {old value : Value} (hold : lookup env s.db tx key = .ok (some old))
    (hcase : AloneInLeaf (seenPages env s.db tx) tx.rootPage key ∨ value.length ≤ old.length) :
    (Overwritable (seenPages env s.db tx) tx.pageSize tx.rootPage key value →
      Overwrites env s.db tx key value ∨
        ∃ e db', (tx.insert env key value).run (execute env) s.db = (.error e, db') ∧
          Exhausted db') ∧
    (env.debugAssertions = true → Overwrites env s.db tx key value →
      Overwritable (seenPages env s.db tx) tx.pageSize tx.rootPage key value) := by
  obtain ⟨w, rs, h⟩ := hrun.follows hnew
  have hworking := h.writer tx inserts hwriter
  rw [lookup, h.owned.get_overlaid hworking.ok, Except.ok.injEq] at hold
  rw [← h.owned.accepts_iff_overwritable hworking hold hcase]
  refine ⟨h.owned.overwrites hworking, fun henv => ?_⟩
  rintro ⟨tx', db', hinsert, -⟩
  have hresult := h.owned.insert_guarded_run (X := Panics) (G := True) hworking key value
    (guarded_debug henv _ _)
  rw [hinsert] at hresult
  exact hresult.2 henv

/-! ### One pair -/

/-- The write transaction that has inserted one pair into a new database with pages of 4096
bytes. -/
structure OnePair (key : Key) (value : Value) (db : DatabaseState) (tx : WriteTransaction)
    (data : Bytes) (ms : List LeafEntryMetadata) (db₁ : DatabaseState) : Prop where
  new : Database.openNew .debug 4096 (fun _ _ => false) = .ok db
  run : Session.Run .debug (.start db) ⟨db₁, some (tx, [(key, value)]), [], [], []⟩
  leaf : LeafHolds data ms [(key, value)]
  room : (readPod LeafHeader data 0).kvPairsEndOffset.toNat = 4096 - key.length - value.length
  eq : tx = ⟨4096, 1, 2, 0, [(2, .available data)], [initialRootPageId], false⟩
  allocator : db₁.allocator = ⟨[], 3, 1026⟩
  size : db₁.pageIo.pageSize = 4096
  len : db₁.pageIo.fileHandler.len = 4096 * 1026

theorem exists_onePair (key : Key) (value : Value)
    (hfit : 56 + (key.length + value.length) ≤ 4096) :
    ∃ db tx data ms db₁, OnePair key value db tx data ms db₁ := by
  obtain ⟨db, hnew⟩ := openNew_of_le .debug (fun _ _ => false) (le_refl minPageSize) (by decide)
  obtain ⟨page, hfresh⟩ := openNew_ok hnew
  obtain ⟨db₁, db₂, hfirst⟩ := first_steps hfresh (by decide)
  obtain ⟨data, hdata, -, hinsert⟩ := first_insert hfresh hfirst hfit
  obtain ⟨ms, hleaf, hroom⟩ := first_leaf hfresh hfit hdata
  have hbegin : Session.Step .debug (.start db)
      ⟨db, some (firstTransaction .debug minPageSize page, []), [], [], []⟩ :=
    .beginWrite rfl hfirst.begin
  let tx : WriteTransaction := ⟨4096, 1, 2, 0, [(2, .available data)], [initialRootPageId], false⟩
  let db₃ : DatabaseState := { db₂ with pageIo := db₂.pageIo.removePage 2 }
  have hpair : Session.Step .debug
      ⟨db, some (firstTransaction .debug minPageSize page, []), [], [], []⟩
      ⟨db₃, some (tx, [] ++ [(key, value)]), [], [], []⟩ := .insert rfl hinsert
  exact ⟨db, tx, data, ms, db₃, hnew, .tail (.single hbegin) hpair, hleaf, hroom, rfl,
    hfirst.allocator, hfirst.size, hfirst.len⟩

section

variable {key : Key} {value : Value} {db db₁ : DatabaseState} {tx : WriteTransaction}
  {data : Bytes} {ms : List LeafEntryMetadata}

theorem OnePair.roomy (h : OnePair key value db tx data ms db₁) :
    Session.RoomyRun .debug (.start db) ⟨db₁, some (tx, [(key, value)]), [], [], []⟩ :=
  Relation.ReflTransGen.mono (fun _ _ hstep => hstep.roomy rfl) _ _ h.run

theorem OnePair.pageSize (h : OnePair key value db tx data ms db₁) : tx.pageSize = 4096 := by
  rw [h.eq]

/-- The pair is there. -/
theorem OnePair.lookup (h : OnePair key value db tx data ms db₁) :
    Kv.lookup .debug db₁ tx key = .ok (some value) := by
  obtain ⟨w, rs, hfollows⟩ := h.roomy.follows h.new
  have hheld : lastInsert ([] ++ [(key, value)]) key = some value := by
    rw [lastInsert_append, assign_self]
  rw [Kv.lookup, hfollows.owned.get_overlaid (hfollows.writer _ _ rfl).ok]
  exact congrArg Except.ok hheld

/-- It is alone in its leaf. -/
theorem OnePair.leafFor (h : OnePair key value db tx data ms db₁) :
    LeafFor (seenPages .debug db₁ tx) key tx.rootPage data := by
  refine .leaf ?_ h.leaf.parse
  rw [h.eq, seenPages, overlay, WriteTransaction.slot, contents_cons_self]

theorem OnePair.cow (h : OnePair key value db tx data ms db₁) :
    Evaluates .debug (cowPage tx.rootPage) tx db₁ ⟨2, data⟩
      { tx with dirtyPages := [(2, .checkedOut)] } db₁ := by
  have hslot : tx.slot tx.rootPage = some (.available data) := by
    rw [h.eq, WriteTransaction.slot, contents_cons_self]
  have hcow : Evaluates .debug (cowPage tx.rootPage) tx db₁ ⟨tx.rootPage, data⟩
      (tx.setSlot tx.rootPage .checkedOut) db₁ := cowPage_dirty hslot
  rw [h.eq] at hcow ⊢
  exact hcow

/-- The leaf asks for one more entry, whatever the key. -/
theorem OnePair.fits (h : OnePair key value db tx data ms db₁) (value' : Value) :
    LeafPageMutator.fits data key value' = .ok (decide (24 + 2 * 32 + (key.length + value'.length) ≤
      4096 - key.length - value.length)) := by
  have hlength : ms.length = 1 := h.leaf.length.symm
  rw [h.leaf.fits, h.room, hlength]

/-- Where it has room for that, the new value is written. -/
theorem OnePair.insert (h : OnePair key value db tx data ms db₁) {value' : Value}
    (hfits : LeafPageMutator.fits data key value' = .ok true) :
    ∃ tx', (tx.insert .debug key value').run (execute .debug) db₁ = (.ok tx', db₁) := by
  obtain ⟨tx', hinsert⟩ : ∃ tx', Evaluates .debug (Tree.insert .debug key value') tx db₁ () tx' db₁ := by
    obtain ⟨data', -, -, hinsert⟩ := insert_taken_leaf h.cow (by
      rw [WriteTransaction.slot, contents_cons_self]) h.leaf hfits
    exact ⟨_, hinsert⟩
  refine ⟨tx', ?_⟩
  rw [WriteTransaction.insert, if_neg (by rw [h.eq]; exact Bool.false_ne_true),
    Program.run_bind_ok hinsert]
  rfl

/-- Where it has none, the insertion panics, though there are more pages. -/
theorem OnePair.insert_panics (h : OnePair key value db tx data ms db₁) {value' : Value}
    (hfits : LeafPageMutator.fits data key value' = .ok false) :
    ∃ db₂, (tx.insert .debug key value').run (execute .debug) db₁ = (.error .panic, db₂) ∧
      ¬Exhausted db₂ := by
  have hsmall : tx.pageSize < 2 ^ 63 := by
    rw [h.pageSize]
    decide
  let db₂ : DatabaseState := { db₁ with allocator := ⟨[], 4, 1026⟩ }
  have halloc : execute .debug .allocatePageId db₁ = (.ok 3, db₂) := by
    rw [execute, PageAllocator.allocatePageId, h.allocator]
    rfl
  -- the builder overwrites the only pair and is left with one entry, which it asserts against
  have hshort : (upsert key value' [(key, value)]).length < 2 := by
    rw [upsert_cons, if_neg (lt_irrefl _), if_pos rfl]
    exact Nat.lt_succ_self 1
  have hpanics := insert_taken_leaf_panics h.cow h.leaf hfits hshort halloc (by
    rw [WriteTransaction.slot, contents_cons_of_ne (by decide), contents_nil]) hsmall
  refine ⟨{ db₂ with pageIo := db₂.pageIo.removePage 3 }, ?_, ?_⟩
  · rw [WriteTransaction.insert, if_neg (by rw [h.eq]; exact Bool.false_ne_true), Program.run_bind,
      hpanics]
  · -- neither the ids nor the offsets of the file are used up
    rintro (hids | hlen)
    · change (4 : PageId).toNat + 1 = 2 ^ 64 at hids
      exact absurd hids (by decide)
    · change 2 ^ 63 ≤ db₁.pageIo.fileHandler.len + db₁.pageIo.pageSize * 1024 at hlen
      rw [h.len, h.size] at hlen
      omega

end

/-- One byte is written over another. -/
theorem overwrite_works_once : ∃ db db₁ tx, Database.openNew .debug 4096 (fun _ _ => false) = .ok db ∧
    Session.RoomyRun .debug (.start db) ⟨db₁, some (tx, [([1], [2])]), [], [], []⟩ ∧
    Overwritable (seenPages .debug db₁ tx) tx.pageSize tx.rootPage [1] [3] ∧
    Overwrites .debug db₁ tx [1] [3] := by
  obtain ⟨db, tx, data, ms, db₁, h⟩ := exists_onePair [1] [2] (by decide)
  have hfits := h.fits [3]
  rw [decide_eq_true (by decide)] at hfits
  have hroom : Overwritable (seenPages .debug db₁ tx) tx.pageSize tx.rootPage [1] [3] :=
    ⟨data, h.leafFor, Or.inl hfits⟩
  refine ⟨db, db₁, tx, h.new, h.roomy, hroom, ?_⟩
  refine ((overwrite_works h.new h.roomy rfl h.lookup (Or.inr (le_refl 1))).1 hroom).resolve_right ?_
  rintro ⟨e, db', hrun, -⟩
  obtain ⟨tx', hinsert⟩ := h.insert hfits
  rw [hinsert] at hrun
  exact absurd (Prod.mk.inj hrun).1 (by simp)

/-- **A value is not written over itself.** A new database takes a pair of 3001 bytes, which is
then alone in its leaf. Inserting it again panics, though there are more pages. -/
theorem overwrite_panics : ∃ db db₁ db₂ tx,
    Database.openNew .debug 4096 (fun _ _ => false) = .ok db ∧
    Session.RoomyRun .debug (.start db)
      ⟨db₁, some (tx, [([1], List.replicate 3000 0)]), [], [], []⟩ ∧
    lookup .debug db₁ tx [1] = .ok (some (List.replicate 3000 0)) ∧
    24 + 32 + ([1] : Key).length + (List.replicate 3000 0 : Value).length ≤ tx.pageSize ∧
    AloneInLeaf (seenPages .debug db₁ tx) tx.rootPage [1] ∧
    (tx.insert .debug [1] (List.replicate 3000 0)).run (execute .debug) db₁ =
      (.error .panic, db₂) ∧
    ¬Exhausted db₂ ∧ ¬Overwrites .debug db₁ tx [1] (List.replicate 3000 0) := by
  have hlength : (List.replicate 3000 0 : Value).length = 3000 := List.length_replicate
  obtain ⟨db, tx, data, ms, db₁, h⟩ := exists_onePair [1] (List.replicate 3000 0)
    (by rw [hlength]; decide)
  have hfits := h.fits (List.replicate 3000 0)
  rw [hlength, decide_eq_false (by decide)] at hfits
  obtain ⟨db₂, hpanics, hmore⟩ := h.insert_panics hfits
  refine ⟨db, db₁, db₂, tx, h.new, h.roomy, h.lookup, ?_,
    ⟨data, _, h.leafFor, h.leaf.builder⟩, hpanics, hmore, ?_⟩
  · rw [hlength, h.pageSize]
    decide
  · rintro ⟨tx', db', hinsert, -⟩
    rw [hpanics] at hinsert
    exact absurd (Prod.mk.inj hinsert).1 (by simp)

end KvRaft.Kv
