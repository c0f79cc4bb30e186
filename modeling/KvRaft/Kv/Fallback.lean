import KvRaft.Kv.Recovery

/-!
# When opening a file falls back

`recover_header` goes on to the inactive slot when `Tree::verify_pages` fails with a
database error, and with no other. This is an exact account of which files that is.

A page id leads to some bytes of the file (`filePages`), or to nothing. `Intact` says that
all pages below a root are there, have the checksums stored for them and can be parsed;
`Detected` says that the first page of the walk that is not like that is there and has a
wrong checksum or no node type. They are the two results of `verify_pages` that
`recover_header` knows what to do with (`Mirrors.verifyPages`). A page id past the end of
the file, a node whose entries do not fit its page or a key that lies outside of it is
neither, and then `open_existing` does not return a database, whatever the other slot has
(`openExisting_falls_back_iff`).
-/

namespace KvRaft.Kv

open Bytes

/-! ### What a page id leads to -/

/-- What reading a page from a file gives. -/
def filePages (env : Env) (file : FileHandler) (pageSize : ℕ) (id : PageId) : Except Fault Bytes :=
  PageIo.readFile env (PageIo.new file pageSize fun _ _ => false) id

/-- The key of an entry lies in its page. -/
def KeyReads (branchPage : BranchPage) (entry : BranchEntryMetadata) : Prop :=
  ∃ key, branchPage.entryKey entry = .ok key

/-- The child of an entry. -/
def BranchEntryMetadata.child (entry : BranchEntryMetadata) : Child :=
  (entry.childPageId, entry.childPageChecksum)

/-- All pages below a root, on so many levels at most, are as they have to be. -/
inductive Intact (env : Env) (read : PageId → Except Fault Bytes) : ℕ → Child → Prop
  | leaf {depth : ℕ} {c : Child} {page : Bytes} {leafPage : LeafPage}
      (hread : read c.1 = .ok page) (hck : env.checksumPage page = c.2)
      (hnode : NodePage.fromPage page = .ok (.leaf leafPage)) : Intact env read (depth + 1) c
  | branch {depth : ℕ} {c : Child} {page : Bytes} {branchPage : BranchPage}
      (hread : read c.1 = .ok page) (hck : env.checksumPage page = c.2)
      (hnode : NodePage.fromPage page = .ok (.branch branchPage))
      (hkeys : ∀ entry ∈ branchPage.entries, KeyReads branchPage entry)
      (hchildren : ∀ entry ∈ branchPage.entries, Intact env read depth entry.child) :
      Intact env read (depth + 1) c

/-- The first page below a root that is not as it has to be has a wrong checksum or no node
type. -/
inductive Detected (env : Env) (read : PageId → Except Fault Bytes) : ℕ → Child → Prop
  | checksum {depth : ℕ} {c : Child} {page : Bytes} (hread : read c.1 = .ok page)
      (hck : env.checksumPage page ≠ c.2) : Detected env read (depth + 1) c
  | nodeType {depth : ℕ} {c : Child} {page : Bytes} {msg : String}
      (hread : read c.1 = .ok page) (hck : env.checksumPage page = c.2)
      (hnode : NodeKind.parse page = .error (.error (.databaseError msg))) :
      Detected env read (depth + 1) c
  | child {depth : ℕ} {c : Child} {page : Bytes} {branchPage : BranchPage}
      {before after : List BranchEntryMetadata} {entry : BranchEntryMetadata}
      (hread : read c.1 = .ok page) (hck : env.checksumPage page = c.2)
      (hnode : NodePage.fromPage page = .ok (.branch branchPage))
      (hentries : branchPage.entries = before ++ entry :: after)
      (hbefore : ∀ e ∈ before, KeyReads branchPage e)
      (hintact : ∀ e ∈ before, Intact env read depth e.child)
      (hkey : KeyReads branchPage entry)
      (hchild : Detected env read depth entry.child) : Detected env read (depth + 1) c

section

variable {env : Env} {file : FileHandler} {pageSize depth : ℕ} {pageIo : PageIo} {id : PageId}
  {page : Bytes} {c : Child}

/-- A page id that does not overflow leads to its bytes, or past the end of the file. -/
theorem filePages_eq (hsmall : pageSize < 2 ^ 63) (hoffset : id.toNat * pageSize < 2 ^ 64)
    (hlen : id.toNat * pageSize ≤ file.len) :
    filePages env file pageSize id =
      if id.toNat * pageSize + pageSize ≤ file.len then
        .ok (readRange file.contents (id.toNat * pageSize) pageSize)
      else .error (.error (.ioError .unexpectedEof)) := by
  rw [filePages, PageIo.readFile, PageIo.new, zeroed_of_lt hsmall, ok_bind,
    mulU64_of_lt env hoffset, ok_bind, List.length_replicate, FileHandler.readAt,
    debugAssert_true hlen, ok_bind]
  rfl

/-! ### Which faults are database errors -/

/-- A fault that `recover_header` does not fall back on. -/
def Final (e : Fault) : Prop := ¬ IsDatabaseError e

theorem final_panic : Final .panic := by
  rintro ⟨msg, h⟩
  exact absurd h (by simp)

theorem final_zerocopyError (msg : String) : Final (.error (.zerocopyError msg)) := by
  rintro ⟨msg, h⟩
  exact absurd h (by simp)

/-- Reading from a file does not fail with a database error. -/
theorem filePages_final : Returns Final (filePages env file pageSize id) fun _ => True := by
  rw [filePages, PageIo.readFile, returns_bind]
  -- every step of a read fails with a panic or an I/O error, never with a database error
  have hzeroed : Returns Final (zeroed pageSize) fun _ => True := by
    rw [zeroed]
    split
    · exact trivial
    · exact final_panic
  refine hzeroed.mono fun buffer _ => ?_
  rw [returns_bind]
  have hoffset : Returns Final (mulU64 env id.toNat pageSize) fun _ => True := by
    rw [mulU64]
    split
    · exact trivial
    split
    · exact final_panic
    · exact trivial
  refine hoffset.mono fun offset _ => ?_
  rw [FileHandler.readAt, returns_bind]
  have hassert : Returns Final (debugAssert env
      (offset ≤ (PageIo.new file pageSize fun _ _ => false).fileHandler.len)) fun _ => True := by
    rw [debugAssert, assert]
    split
    · split
      · exact trivial
      · exact final_panic
    · exact trivial
  refine hassert.mono fun _ _ => ?_
  split
  · exact trivial
  · rintro ⟨msg, h⟩
    exact absurd h (by simp)

theorem entryKey_final (branchPage : BranchPage) (entry : BranchEntryMetadata) :
    Returns Final (branchPage.entryKey entry) fun _ => True := by
  rw [BranchPage.entryKey, slicePage]
  split
  · exact trivial
  · exact final_panic

theorem refFromPrefix_final (α : Type) [Pod α] (page : Bytes) :
    Returns Final (refFromPrefix α page) fun _ => True := by
  rw [refFromPrefix]
  split
  · exact trivial
  · exact final_zerocopyError _

theorem refFromPrefixWithElems_final (α : Type) [Pod α] (page : Bytes) (offset n : ℕ) :
    Returns Final (refFromPrefixWithElems α page offset n) fun _ => True := by
  rw [refFromPrefixWithElems]
  split
  · exact trivial
  · exact final_zerocopyError _

/-- Parsing a node fails with a database error when its type is unknown, and then alone. -/
theorem nodePage_final (hnode : ∀ msg, NodeKind.parse page ≠ .error (.error (.databaseError msg))) :
    Returns Final (NodePage.fromPage page) fun _ => True := by
  rw [NodePage.fromPage]
  cases hkind : NodeKind.parse page with
  | error e =>
    rintro ⟨msg, rfl⟩
    exact hnode msg hkind
  | ok kind =>
    rw [ok_bind]
    cases kind with
    | leaf =>
      dsimp only
      rw [returns_bind, LeafPage.fromPage, returns_bind]
      refine (refFromPrefix_final _ _).mono fun header _ => ?_
      rw [returns_bind]
      exact (refFromPrefixWithElems_final _ _ _ _).mono fun _ _ => trivial
    | branch =>
      dsimp only
      rw [returns_bind, BranchPage.fromPage, returns_bind]
      refine (refFromPrefix_final _ _).mono fun header _ => ?_
      rw [returns_bind]
      exact (refFromPrefixWithElems_final _ _ _ _).mono fun _ _ => trivial

/-! ### Verifying a tree -/

/-- A process whose cache has nothing that is not in the file. -/
structure Mirrors (env : Env) (file : FileHandler) (pageSize : ℕ) (pageIo : PageIo) : Prop where
  size : pageIo.pageSize = pageSize
  handler : pageIo.fileHandler = file
  cached : ∀ id data, pageIo.pageCache.entries id = some data →
    filePages env file pageSize id = .ok data

theorem mirrors_new (evicts : ℕ → PageId → Bool) :
    Mirrors env file pageSize (PageIo.new file pageSize evicts) :=
  ⟨rfl, rfl, fun id data h => absurd h (by simp [PageIo.new, PageCache.new])⟩

/-- Reading a page, from the cache or from the file. -/
theorem Mirrors.readPage (h : Mirrors env file pageSize pageIo) (id : PageId) :
    ∃ pageIo', pageIo.readPage env id = (filePages env file pageSize id, pageIo') ∧
      Mirrors env file pageSize pageIo' := by
  obtain ⟨hsize, hfile, hcached⟩ := h
  have hread : pageIo.readFile env id = filePages env file pageSize id := by
    rw [filePages, PageIo.readFile, PageIo.readFile, hsize, hfile]
    rfl
  rw [PageIo.readPage, PageCache.get]
  dsimp only
  split
  · next data hdata =>
    -- a page in the cache is the page of the file, so its age does not matter
    have hentry : pageIo.pageCache.entries id = some data := by
      split at hdata
      · exact absurd hdata (by simp)
      · exact hdata
    rw [hcached id data hentry]
    exact ⟨_, rfl, hsize, hfile, hcached⟩
  · rw [hread]
    cases hpage : filePages env file pageSize id with
    | error e => exact ⟨_, rfl, hsize, hfile, hcached⟩
    | ok data =>
      refine ⟨_, rfl, hsize, hfile, fun id' data' h' => ?_⟩
      rw [PageCache.entries_insert] at h'
      by_cases hid : id' = id
      · subst hid
        rw [Function.update_self, Option.some.injEq] at h'
        rw [hpage, h']
      · rw [Function.update_of_ne hid] at h'
        exact hcached id' data' h'

/-- What a result means. -/
structure Verdict (r : Except Fault Unit) (intact detected : Prop) : Prop where
  ok : r = .ok () ↔ intact
  detected : (∃ e, r = .error e ∧ IsDatabaseError e) ↔ detected

theorem Verdict.final {intact detected : Prop} {e : Fault} (he : Final e) (hi : ¬ intact)
    (hd : ¬ detected) : Verdict (.error e) intact detected where
  ok := ⟨fun h => absurd h (by simp), fun h => absurd h hi⟩
  detected := by
    refine ⟨?_, fun h => absurd h hd⟩
    rintro ⟨e', h, he'⟩
    obtain rfl := Except.error.inj h
    exact absurd he' he

/-- A result is not both. -/
theorem Verdict.not_both {r : Except Fault Unit} {intact detected : Prop}
    (h : Verdict r intact detected) (hi : intact) (hd : detected) : False := by
  obtain ⟨e, he, -⟩ := h.detected.mpr hd
  rw [h.ok.mpr hi] at he
  exact absurd he (by simp)

/-- **The loop over the entries of a branch**, for a `verify` that does its work. -/
theorem Mirrors.forEntries {verify : PageId → Checksum → Call Unit} {branchPage : BranchPage}
    {P D : Child → Prop}
    (hverify : ∀ (c : Child) {pageIo : PageIo}, Mirrors env file pageSize pageIo →
      ∃ r pageIo', (verify c.1 c.2).run (Database.readOnly env) pageIo = (r, pageIo') ∧
        Mirrors env file pageSize pageIo' ∧ Verdict r (P c) (D c)) :
    ∀ (entries : List BranchEntryMetadata) {pageIo : PageIo}, Mirrors env file pageSize pageIo →
      ∃ r pageIo', (Tree.forEntries verify branchPage entries).run (Database.readOnly env) pageIo =
          (r, pageIo') ∧ Mirrors env file pageSize pageIo' ∧
        Verdict r (∀ e ∈ entries, KeyReads branchPage e ∧ P e.child)
          (∃ before entry after, entries = before ++ entry :: after ∧
            (∀ e ∈ before, KeyReads branchPage e ∧ P e.child) ∧
            KeyReads branchPage entry ∧ D entry.child)
  | [], pageIo, h => by
    refine ⟨.ok (), pageIo, rfl, h, ⟨fun _ e he => absurd he List.not_mem_nil, fun _ => rfl⟩, ?_⟩
    refine ⟨fun ⟨e, he, _⟩ => absurd he (by simp), ?_⟩
    rintro ⟨before, entry, after, hnil, -⟩
    exact absurd hnil (by simp)
  | entry :: rest, pageIo, h => by
    -- what stops at the first entry stops there
    have hstop : ∀ {before after : List BranchEntryMetadata} {e : BranchEntryMetadata},
        entry :: rest = before ++ e :: after → (before = [] ∧ e = entry ∧ after = rest) ∨
          ∃ before', before = entry :: before' ∧ rest = before' ++ e :: after := by
      intro before after e hsplit
      cases before with
      | nil =>
        obtain ⟨rfl, rfl⟩ := List.cons.inj hsplit
        exact Or.inl ⟨rfl, rfl, rfl⟩
      | cons b before =>
        obtain ⟨rfl, hrest⟩ := List.cons.inj hsplit
        exact Or.inr ⟨before, rfl, hrest⟩
    rw [Tree.forEntries, Program.liftM_eq]
    have hfinal := entryKey_final branchPage entry
    cases hkey : branchPage.entryKey entry with
    | error e =>
      rw [hkey] at hfinal
      have hno : ¬ KeyReads branchPage entry := by
        rintro ⟨key, hk⟩
        rw [hkey] at hk
        exact absurd hk (by simp)
      refine ⟨.error e, pageIo, rfl, h, .final hfinal (fun hall => hno (hall entry
        List.mem_cons_self).1) ?_⟩
      rintro ⟨before, e', after, hsplit, hbefore, hinside, -⟩
      rcases hstop hsplit with ⟨-, rfl, -⟩ | ⟨before', rfl, -⟩
      · exact hno hinside
      · exact hno (hbefore entry List.mem_cons_self).1
    | ok key =>
      rw [Program.ofExcept_ok, Program.ret_bind, Program.run_bind]
      obtain ⟨r, pageIo₁, hrun, h₁, hv⟩ := hverify entry.child h
      change (verify entry.childPageId entry.childPageChecksum).run _ _ = _ at hrun
      rw [hrun]
      cases r with
      | error e =>
        have hno : ¬ P entry.child := fun hP => absurd (hv.ok.mpr hP) (by simp)
        refine ⟨.error e, pageIo₁, rfl, h₁, ⟨fun hr => absurd hr (by simp), fun hall =>
          absurd (hall entry List.mem_cons_self).2 hno⟩, ?_⟩
        rw [hv.detected]
        refine ⟨fun hD => ⟨[], entry, rest, rfl, by simp, ⟨key, hkey⟩, hD⟩, ?_⟩
        rintro ⟨before, e', after, hsplit, hbefore, -, hD⟩
        rcases hstop hsplit with ⟨-, rfl, -⟩ | ⟨before', rfl, -⟩
        · exact hD
        · exact absurd (hbefore entry List.mem_cons_self).2 hno
      | ok u =>
        have hP : P entry.child := hv.ok.mp rfl
        obtain ⟨r₂, pageIo₂, hrun₂, h₂, hv₂⟩ := Mirrors.forEntries hverify rest h₁
        refine ⟨r₂, pageIo₂, hrun₂, h₂, ?_, ?_⟩
        · rw [hv₂.ok]
          refine ⟨fun hall e he => ?_, fun hall e he => hall e (List.mem_cons_of_mem entry he)⟩
          rcases List.mem_cons.mp he with rfl | he
          · exact ⟨⟨key, hkey⟩, hP⟩
          · exact hall e he
        · rw [hv₂.detected]
          constructor
          · rintro ⟨before, e', after, hsplit, hbefore, hinside, hD⟩
            refine ⟨entry :: before, e', after, by rw [hsplit]; rfl, fun e he => ?_, hinside, hD⟩
            rcases List.mem_cons.mp he with rfl | he
            · exact ⟨⟨key, hkey⟩, hP⟩
            · exact hbefore e he
          · rintro ⟨before, e', after, hsplit, hbefore, hinside, hD⟩
            rcases hstop hsplit with ⟨-, rfl, -⟩ | ⟨before', rfl, hrest⟩
            · exact (hv.not_both hP hD).elim
            · exact ⟨before', e', after, hrest,
                fun e he => hbefore e (List.mem_cons_of_mem entry he), hinside, hD⟩

/-- A call that starts by reading a page goes on with the page of the file. -/
theorem Mirrors.run_readPage (h : Mirrors env file pageSize pageIo) (id : PageId) :
    ∃ pageIo', (∀ k : Bytes → Call Unit,
        (Kv.readPage id >>= k).run (Database.readOnly env) pageIo =
          match filePages env file pageSize id with
          | .ok page => (k page).run (Database.readOnly env) pageIo'
          | .error e => (.error e, pageIo')) ∧ Mirrors env file pageSize pageIo' := by
  obtain ⟨pageIo', hread, h'⟩ := h.readPage id
  refine ⟨pageIo', fun k => ?_, h'⟩
  rw [Program.run_bind, Kv.readPage, Program.run_op, Database.readOnly, hread]
  cases filePages env file pageSize id <;> rfl

/-- **Verifying the tree below a root**, whatever the file holds. -/
theorem Mirrors.verifyPages : ∀ (depth : ℕ) (c : Child) {pageIo : PageIo},
    Mirrors env file pageSize pageIo →
    ∃ r pageIo', (Tree.verifyPages env depth c.1 c.2).run (Database.readOnly env) pageIo =
        (r, pageIo') ∧ Mirrors env file pageSize pageIo' ∧
      Verdict r (Intact env (filePages env file pageSize) depth c)
        (Detected env (filePages env file pageSize) depth c)
  | 0, c, pageIo, h => by
    refine ⟨.error .outOfFuel, pageIo, rfl, h, .final ?_ nofun nofun⟩
    rintro ⟨msg, h⟩
    exact absurd h (by simp)
  | depth + 1, c, pageIo, h => by
    -- Whatever the cache holds, the walk sees the pages of the file; the cases below follow the
    -- walk: unreadable page, wrong checksum, unknown kind, leaf, branch.
    obtain ⟨pageIo₁, hrun, h₁⟩ := h.run_readPage c.1
    rw [Tree.verifyPages, hrun]
    have hfinal := @filePages_final env file pageSize c.1
    cases hpage : filePages env file pageSize c.1 with
    | error e =>
      rw [hpage] at hfinal
      refine ⟨.error e, pageIo₁, rfl, h₁, .final hfinal ?_ ?_⟩
      · intro hi
        cases hi <;> simp_all
      · intro hd
        cases hd <;> simp_all
    | ok page =>
      dsimp only
      by_cases hck : env.checksumPage page ≠ c.2
      · rw [if_pos hck]
        refine ⟨_, pageIo₁, rfl, h₁, ⟨fun hr => absurd hr (by simp), fun hi => ?_⟩,
          fun _ => .checksum hpage hck, fun _ => ⟨_, rfl, _, rfl⟩⟩
        cases hi <;> simp_all
      · rw [if_neg hck]
        rw [not_not] at hck
        rw [Program.liftM_eq]
        cases hnode : NodePage.fromPage page with
        | error e =>
          refine ⟨.error e, pageIo₁, rfl, h₁, ⟨fun hr => absurd hr (by simp), fun hi => ?_⟩, ?_⟩
          · cases hi <;> simp_all
          · constructor
            · rintro ⟨e', he', hdb⟩
              obtain rfl := Except.error.inj he'
              -- a page whose kind is known does not fail with a database error
              by_contra hno
              refine absurd hdb ?_
              have := @nodePage_final page fun msg hmsg => hno (.nodeType hpage hck hmsg)
              rwa [hnode] at this
            · intro hd
              cases hd with
              | checksum hread' hck' => simp_all
              | @nodeType _ _ _ msg hread' _ hkind =>
                refine ⟨e, rfl, msg, ?_⟩
                rw [hpage, Except.ok.injEq] at hread'
                subst hread'
                rw [NodePage.fromPage, hkind, error_bind, Except.error.injEq] at hnode
                exact hnode.symm
              | child hread' _ hnode' => simp_all
        | ok node =>
          rw [Program.ofExcept_ok, Program.ret_bind]
          cases node with
          | leaf leafPage =>
            refine ⟨.ok (), pageIo₁, rfl, h₁, ⟨fun _ => .leaf hpage hck hnode, fun _ => rfl⟩, ?_⟩
            constructor
            · rintro ⟨e, he, -⟩
              exact absurd he (by simp)
            intro hd
            cases hd with
            | checksum hread' hck' => simp_all
            | nodeType hread' _ hkind =>
              rw [hpage, Except.ok.injEq] at hread'
              subst hread'
              rw [NodePage.fromPage, hkind, error_bind] at hnode
              exact absurd hnode (by simp)
            | child hread' _ hnode' => simp_all
          | branch branchPage =>
            obtain ⟨r, pageIo₂, hloop, h₂, hv⟩ := @Mirrors.forEntries _ _ _ _ branchPage _ _
              (fun c _ h => Mirrors.verifyPages depth c h) branchPage.entries _ h₁
            refine ⟨r, pageIo₂, hloop, h₂, ?_, ?_⟩
            · rw [hv.ok]
              refine ⟨fun hall => .branch hpage hck hnode (fun e he => (hall e he).1)
                fun e he => (hall e he).2, fun hi => ?_⟩
              cases hi with
              | leaf hread' _ hnode' => simp_all
              | branch hread' _ hnode' hkeys hchildren =>
                rw [hpage, Except.ok.injEq] at hread'
                subst hread'
                rw [hnode, Except.ok.injEq, NodePage.branch.injEq] at hnode'
                subst hnode'
                exact fun e he => ⟨hkeys e he, hchildren e he⟩
            · rw [hv.detected]
              constructor
              · rintro ⟨before, entry, after, hsplit, hbefore, hkey, hD⟩
                exact .child hpage hck hnode hsplit (fun e he => (hbefore e he).1)
                  (fun e he => (hbefore e he).2) hkey hD
              · intro hd
                cases hd with
                | checksum hread' hck' => simp_all
                | nodeType hread' _ hkind =>
                  rw [hpage, Except.ok.injEq] at hread'
                  subst hread'
                  rw [NodePage.fromPage, hkind, error_bind] at hnode
                  exact absurd hnode (by simp)
                | child hread' _ hnode' hsplit hbefore hintact hkey hchild =>
                  rw [hpage, Except.ok.injEq] at hread'
                  subst hread'
                  rw [hnode, Except.ok.injEq, NodePage.branch.injEq] at hnode'
                  subst hnode'
                  exact ⟨_, _, _, hsplit, fun e he => ⟨hbefore e he, hintact e he⟩, hkey, hchild⟩

/-! ### Opening a file -/

/-- The root of a slot, and its checksum. -/
def CommitSlot.child (slot : CommitSlot) : Child := (slot.rootPageId, slot.rootPageChecksum)

/-- The tree of a slot verifies, in a process that has just opened the file. -/
def Verifies (env : Env) (file : FileHandler) (pageSize : ℕ) (slot : CommitSlot) : Prop :=
  (Database.verifySlot env (PageIo.new file pageSize fun _ _ => false) slot).1 = .ok ()

theorem Mirrors.verifySlot (h : Mirrors env file pageSize pageIo) (slot : CommitSlot) :
    ∃ r pageIo', Database.verifySlot env pageIo slot = (r, pageIo') ∧
      Mirrors env file pageSize pageIo' ∧
      Verdict r (Intact env (filePages env file pageSize) maxDepth slot.child)
        (Detected env (filePages env file pageSize) maxDepth slot.child) :=
  h.verifyPages maxDepth slot.child

theorem verifies_iff (slot : CommitSlot) :
    Verifies env file pageSize slot ↔
      Intact env (filePages env file pageSize) maxDepth slot.child := by
  have hnew : Mirrors env file pageSize (PageIo.new file pageSize fun _ _ => false) :=
    mirrors_new _
  obtain ⟨r, pageIo', hrun, -, hv⟩ := hnew.verifySlot slot
  rw [Verifies, hrun]
  exact hv.ok

/-- What opening a file comes to after its header has been read. -/
theorem openExisting_eq {header : DbHeader} (hheader : Database.readHeader env file = .ok header)
    (hsize : header.pageSize.toNat ≤ file.len) (evicts : ℕ → PageId → Bool) :
    Database.openExisting env file evicts =
      match Database.verifySlot env (PageIo.new file header.pageSize.toNat evicts)
        header.currentSlot with
      | (.ok (), pageIo) => .ok (Database.fromParts pageIo header)
      | (.error (.error (.databaseError _)), pageIo) =>
        match Database.verifySlot env pageIo header.inactiveSlot with
        | (.ok (), pageIo) => .ok (Database.fromParts pageIo header.switchToInactiveSlot)
        | (.error e, _) => .error e
      | (.error e, _) => .error e := by
  rw [Database.openExisting, hheader, ok_bind]
  unfold Database.recoverHeader
  have hlen : ¬ (PageIo.new file header.pageSize.toNat evicts).fileHandler.len <
      header.pageSize.toNat := not_lt.mpr hsize
  dsimp only
  rw [if_neg hlen]
  rcases Database.verifySlot env (PageIo.new file header.pageSize.toNat evicts)
    header.currentSlot with ⟨e | ⟨⟩, pageIo⟩
  · -- only a database error of the current slot leads to the other one
    cases e with
    | error err =>
      cases err with
      | databaseError msg =>
        dsimp only
        rcases Database.verifySlot env pageIo header.inactiveSlot with ⟨e | ⟨⟩, pageIo'⟩ <;> rfl
      | _ => rfl
    | _ => rfl
  · rfl

/-- **When opening a file falls back.** Given that the tree of the inactive slot verifies,
the file opens, with the snapshot of the active slot if that verifies and that of the
inactive slot otherwise, exactly if the tree of the active slot is intact or what is wrong
with it first is a checksum or a node type. -/
theorem openExisting_falls_back_iff {header : DbHeader}
    (hheader : Database.readHeader env file = .ok header)
    (hsize : header.pageSize.toNat ≤ file.len)
    (hinactive : Verifies env file header.pageSize.toNat header.inactiveSlot)
    (evicts : ℕ → PageId → Bool) :
    (∃ db header', Database.openExisting env file evicts = .ok db ∧
        db.commit = CommitState.new header' ∧
        (Verifies env file header.pageSize.toNat header.currentSlot → header' = header) ∧
        (¬ Verifies env file header.pageSize.toNat header.currentSlot →
          header' = header.switchToInactiveSlot)) ↔
      Intact env (filePages env file header.pageSize.toNat) maxDepth header.currentSlot.child ∨
      Detected env (filePages env file header.pageSize.toNat) maxDepth header.currentSlot.child := by
  rw [openExisting_eq hheader hsize, verifies_iff header.currentSlot]
  have hnew : Mirrors env file header.pageSize.toNat
      (PageIo.new file header.pageSize.toNat evicts) := mirrors_new evicts
  obtain ⟨r, pageIo, hrun, hmirrors, hv⟩ := hnew.verifySlot header.currentSlot
  simp only [hrun]
  constructor
  · rintro ⟨db, header', hopen, -⟩
    -- a run that returns has taken one of the two ways
    rcases r with e | ⟨⟩
    · by_cases he : IsDatabaseError e
      · exact Or.inr (hv.detected.mp ⟨e, rfl, he⟩)
      · exfalso
        cases e with
        | error err =>
          cases err with
          | databaseError msg => exact he ⟨msg, rfl⟩
          | _ => exact absurd hopen (by simp)
        | _ => exact absurd hopen (by simp)
    · exact Or.inl (hv.ok.mp rfl)
  · rintro (hi | hd)
    · obtain rfl := hv.ok.mpr hi
      exact ⟨_, header, rfl, rfl, fun _ => rfl, fun hno => absurd hi hno⟩
    · obtain ⟨e, rfl, msg, rfl⟩ := hv.detected.mpr hd
      obtain ⟨r', pageIo', hrun', -, hv'⟩ := hmirrors.verifySlot header.inactiveSlot
      obtain rfl := hv'.ok.mpr ((verifies_iff header.inactiveSlot).mp hinactive)
      have hno : ¬ Intact env (filePages env file header.pageSize.toNat) maxDepth
          header.currentSlot.child := fun hi => hv.not_both hi hd
      simp only [hrun']
      exact ⟨_, header.switchToInactiveSlot, rfl, rfl, fun hi => absurd hi hno, fun _ => rfl⟩

end

/-! ### A root past the end of the file -/

/-- The active slot has a root behind the two pages of the file. -/
def lostHeader : DbHeader where
  magic := headerMagic
  activeSlot := 1
  pageSize := 4096
  commitSlots := (⟨1, 0, 0, 2⟩, ⟨2, 0, 1, 3⟩)

/-- A file of two pages: that header, and a page of zeros, which is an empty leaf. -/
def lostFile : FileHandler := ⟨8192, fun i => ((headerPage lostHeader)[i]?).getD 0, []⟩

/-- Every page has the checksum 0. -/
def blindEnv (debugAssertions : Bool) : Env := ⟨fun _ => 0, debugAssertions⟩

theorem sound_lostHeader : Sound 4096 lostHeader := ⟨rfl, Or.inr rfl, rfl⟩

theorem readHeader_lostFile (debugAssertions : Bool) :
    Database.readHeader (blindEnv debugAssertions) lostFile = .ok lostHeader := by
  have hlength := headerPage_length (by decide) sound_lostHeader
  refine readHeader_of_block (by decide) (by decide) sound_lostHeader ?_
  refine List.ext_getElem? fun i => ?_
  rw [block, readRange]
  by_cases hi : i < 4096
  · rw [List.getElem?_map, List.getElem?_range hi, Option.map_some,
      show headerPageId.toNat * 4096 + i = i from by rw [headerPageId]; simp,
      List.getElem?_eq_getElem (by omega)]
    rfl
  · rw [List.getElem?_eq_none (by simp; omega), List.getElem?_eq_none (by omega)]

/-- A page of zeros is an empty leaf. -/
theorem fromPage_zeros :
    ∃ leafPage, NodePage.fromPage (List.replicate 4096 0) = .ok (.leaf leafPage) := by
  have hzero : ∀ (α : Type) [Pod α], Pod.size α ≤ 4096 →
      readPod α (List.replicate 4096 0) 0 = Pod.decode (List.replicate (Pod.size α) 0) := by
    intro α _ hsize
    rw [readPod, slice, List.drop_zero, List.take_replicate, min_eq_left hsize]
  have hkind : NodeKind.parse (List.replicate 4096 0) = .ok .leaf := by
    rw [NodeKind.parse, refFromPrefix, if_pos (by rw [List.length_replicate]; decide), ok_bind,
      hzero UInt64 (by decide)]
    decide
  have hpairs : (readPod LeafHeader (List.replicate 4096 0) 0).numPairs.toNat = 0 := by
    rw [hzero LeafHeader (by decide)]
    decide
  rw [NodePage.fromPage, hkind, ok_bind]
  dsimp only
  rw [LeafPage.fromPage, refFromPrefix, if_pos (by rw [List.length_replicate]; decide), ok_bind,
    hpairs, refFromPrefixWithElems, if_pos (by rw [List.length_replicate]; decide)]
  exact ⟨_, rfl⟩

theorem verifies_lostFile (debugAssertions : Bool) :
    Verifies (blindEnv debugAssertions) lostFile lostHeader.pageSize.toNat
      lostHeader.inactiveSlot := by
  have hlength := headerPage_length (by decide) sound_lostHeader
  have hread : filePages (blindEnv debugAssertions) lostFile lostHeader.pageSize.toNat 1 =
      .ok (List.replicate 4096 0) := by
    rw [filePages_eq (by decide) (by decide) (by decide), if_pos (by decide)]
    refine congrArg Except.ok (List.ext_getElem? fun i => ?_)
    rw [readRange]
    by_cases hi : i < 4096
    · rw [List.getElem?_map, List.getElem?_range (by exact hi), Option.map_some,
        List.getElem?_replicate, if_pos hi]
      change some (((headerPage lostHeader)[1 * 4096 + i]?).getD 0) = some 0
      rw [List.getElem?_eq_none (by omega)]
      rfl
    · rw [List.getElem?_eq_none (by simp; change 4096 ≤ i; omega),
        List.getElem?_eq_none (by rw [List.length_replicate]; omega)]
  obtain ⟨leafPage, hleaf⟩ := fromPage_zeros
  exact (verifies_iff _).mpr (.leaf hread rfl hleaf)

/-- **A root past the end of the file** is no reason to fall back: the header parses and the
inactive slot verifies, and opening the file fails with what the file system answers. -/
theorem lost_root_not_recovered :
    lostHeader.pageSize.toNat ≤ lostFile.len ∧ ∀ debugAssertions evicts,
      Database.readHeader (blindEnv debugAssertions) lostFile = .ok lostHeader ∧
      Verifies (blindEnv debugAssertions) lostFile lostHeader.pageSize.toNat
        lostHeader.inactiveSlot ∧
      Database.openExisting (blindEnv debugAssertions) lostFile evicts =
        .error (.error (.ioError .unexpectedEof)) := by
  have hsize : lostHeader.pageSize.toNat ≤ lostFile.len := by decide
  refine ⟨hsize, fun debugAssertions evicts => ?_⟩
  have hheader := readHeader_lostFile debugAssertions
  refine ⟨hheader, verifies_lostFile debugAssertions, ?_⟩
  -- the root of the current slot lies past the end of the file
  have hread : filePages (blindEnv debugAssertions) lostFile lostHeader.pageSize.toNat 2 =
      .error (.error (.ioError .unexpectedEof)) := by
    rw [filePages_eq (by decide) (by decide) (by decide), if_neg (by decide)]
  have hnew : Mirrors (blindEnv debugAssertions) lostFile lostHeader.pageSize.toNat
      (PageIo.new lostFile lostHeader.pageSize.toNat evicts) := mirrors_new evicts
  obtain ⟨pageIo, hpage, -⟩ := hnew.readPage 2
  have hrun : Database.verifySlot (blindEnv debugAssertions)
      (PageIo.new lostFile lostHeader.pageSize.toNat evicts) lostHeader.currentSlot =
      (.error (.error (.ioError .unexpectedEof)), pageIo) := by
    obtain ⟨depth, hdepth⟩ : ∃ depth, maxDepth = depth + 1 := ⟨2 ^ 64 - 1, rfl⟩
    rw [Database.verifySlot, hdepth, Tree.verifyPages, Program.run_bind, Kv.readPage,
      Program.run_op, Database.readOnly]
    have hroot : lostHeader.currentSlot.rootPageId = 2 := by decide
    rw [hroot, hpage, hread]
  rw [openExisting_eq hheader hsize, hrun]

theorem openExisting_falls_back_iff_lostFile :
    (∃ db header', Database.openExisting (blindEnv false) lostFile (fun _ _ => false) = .ok db ∧
        db.commit = CommitState.new header' ∧
        (Verifies (blindEnv false) lostFile lostHeader.pageSize.toNat lostHeader.currentSlot →
          header' = lostHeader) ∧
        (¬ Verifies (blindEnv false) lostFile lostHeader.pageSize.toNat lostHeader.currentSlot →
          header' = lostHeader.switchToInactiveSlot)) ↔
      Intact (blindEnv false) (filePages (blindEnv false) lostFile lostHeader.pageSize.toNat)
        maxDepth lostHeader.currentSlot.child ∨
      Detected (blindEnv false) (filePages (blindEnv false) lostFile lostHeader.pageSize.toNat)
        maxDepth lostHeader.currentSlot.child :=
  openExisting_falls_back_iff (readHeader_lostFile false) (by decide) (verifies_lostFile false) _

end KvRaft.Kv
