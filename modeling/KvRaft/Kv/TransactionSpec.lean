import KvRaft.Kv.Work

/-!
# The pages of a transaction

What a write transaction does to its pages. The tree of a transaction lies partly in its
dirty pages and partly in the pages of its base version (`overlay`). Inserting copies the
pages on one path, edits them, and may add pages; everything else stays.

`Moves` says what happens to the pages: from the pages `T` to the pages `T'`, with nothing
outside `T` changed, everything in `T'` that is not in `T` freshly allocated, and nothing
lost: a page of `T` that is not in `T'` is freed by the commit. It composes
(`Moves.trans`), and that is how an insertion is followed from page to page:

* `Opened`: the node at the root of a subtree is checked out, the rest is at rest;
* `Closed`: the whole subtree is at rest again.
-/

namespace KvRaft.Kv

open Bytes Ordered

/-! ### The pages of a transaction -/

/-- What the transaction sees: its dirty pages, but for those checked out, and below them
the pages of the database. -/
def overlay (tx : WriteTransaction) (view : View) : View := fun id =>
  match tx.slot id with
  | some (.available data) => some data
  | some .checkedOut => none
  | none => view id

/-- A page of the tree of the transaction, at rest. -/
def Held (w : Work) (tx : WriteTransaction) (id : PageId) : Prop :=
  (∃ data, tx.slot id = some (.available data) ∧ data.length = tx.pageSize) ∨
    tx.slot id = none ∧ id ∈ w.base.pages ∧ id ∉ tx.freedPages

/-- What holds of a transaction at every moment of an insertion. -/
structure TxInv (w : Work) (tx : WriteTransaction) : Prop where
  phase : w.phase = .building
  pageSize : tx.pageSize = w.pageSize
  large : 24 ≤ tx.pageSize
  small : tx.pageSize < 2 ^ 63
  sorted : Sorted tx.dirtyPages
  slots : ∀ id, (tx.slot id).isSome → id ∈ w.used
  apart : ∀ id ∈ w.used, id ∉ w.base.pages
  freed : ∀ id ∈ tx.freedPages, id ∈ w.base.pages
  nodup : tx.freedPages.Nodup
  header : headerPageId ∉ w.used

/-- From the pages `T` to the pages `T'`. -/
structure Moves (w : Work) (tx : WriteTransaction) (w' : Work) (tx' : WriteTransaction)
    (T T' : Set PageId) : Prop where
  work : w' = { w with used := w'.used, next := w'.next }
  config : tx' = { tx with dirtyPages := tx'.dirtyPages, freedPages := tx'.freedPages }
  used : w.used ⊆ w'.used
  /-- A dirty page stays dirty. -/
  dirty : ∀ id, (tx.slot id).isSome → (tx'.slot id).isSome
  /-- Only pages of `T` and pages allocated meanwhile change. -/
  frame : ∀ id, id ∉ T → id ∈ w.used ∨ id ∉ w'.used → tx'.slot id = tx.slot id
  freed : ∀ id ∈ tx'.freedPages, id ∈ tx.freedPages ∨ id ∈ T ∧ tx.slot id = none
  pages : ∀ id ∈ T', id ∈ T ∨ id ∈ w'.used ∧ id ∉ w.used ∧ (tx'.slot id).isSome
  /-- What is freed stays freed. -/
  released : tx.freedPages ⊆ tx'.freedPages
  /-- No page of `T` is lost. -/
  kept : ∀ id ∈ T, id ∈ T' ∨ id ∈ tx'.freedPages
  /-- No page allocated meanwhile is lost. -/
  grown : ∀ id ∈ w'.used, id ∈ w.used ∨ id ∈ T' ∨ id ∈ tx'.freedPages

section

variable {w w₁ w₂ : Work} {tx tx₁ tx₂ : WriteTransaction} {T T₁ A A' : Set PageId}

theorem Moves.refl (w : Work) (tx : WriteTransaction) (T : Set PageId) :
    Moves w tx w tx T T where
  work := rfl
  config := rfl
  used := subset_rfl
  dirty _ h := h
  frame _ _ _ := rfl
  freed _ h := Or.inl h
  pages _ h := Or.inl h
  released := List.Subset.refl _
  kept _ h := Or.inl h
  grown _ h := Or.inl h

theorem Moves.view (h : Moves w tx w₁ tx₁ T T₁) : w₁.view = w.view := by
  rw [h.work]

theorem Moves.base (h : Moves w tx w₁ tx₁ T T₁) : w₁.base = w.base := by
  rw [h.work]

theorem Moves.pageSize (h : Moves w tx w₁ tx₁ T T₁) : tx₁.pageSize = tx.pageSize := by
  rw [h.config]

/-- When some pages move, none of the others is lost either. -/
theorem Moves.keeps (h : Moves w tx w₁ tx₁ A A') {id : PageId} (hid : id ∈ T) :
    id ∈ T \ A ∪ A' ∨ id ∈ tx₁.freedPages := by
  by_cases hA : id ∈ A
  · exact (h.kept id hA).imp_left Or.inr
  · exact Or.inl (Or.inl ⟨hid, hA⟩)

/-- **Composition.** Some of the pages reached move on. -/
theorem Moves.trans (h₁ : Moves w tx w₁ tx₁ T T₁) (h₂ : Moves w₁ tx₁ w₂ tx₂ A A')
    (hA : A ⊆ T₁) : Moves w tx w₂ tx₂ T (T₁ \ A ∪ A') where
  work := by
    rw [h₂.work, h₁.work]
  config := by
    rw [h₂.config, h₁.config]
  used := h₁.used.trans h₂.used
  dirty id h := h₂.dirty id (h₁.dirty id h)
  frame id hid hused := by
    have hold : id ∈ w.used ∨ id ∉ w₁.used :=
      hused.imp_right fun hnot hin => hnot (h₂.used hin)
    have hnew : id ∈ w₁.used ∨ id ∉ w₂.used := hused.imp_left fun hin => h₁.used hin
    -- a page reached that is not one of the first pages is freshly allocated
    have hidA : id ∉ A := by
      intro hin
      rcases h₁.pages id (hA hin) with hT | ⟨hin₁, hnot, -⟩
      · exact hid hT
      · rcases hold with hin' | hnot₁
        · exact hnot hin'
        · exact hnot₁ hin₁
    rw [h₂.frame id hidA hnew, h₁.frame id hid hold]
  freed id hid := by
    rcases h₂.freed id hid with hid | ⟨hidA, hnone⟩
    · exact h₁.freed id hid
    · rcases h₁.pages id (hA hidA) with hT | ⟨-, -, hsome⟩
      · refine Or.inr ⟨hT, ?_⟩
        by_contra hne
        have hsome := h₁.dirty id (Option.isSome_iff_ne_none.mpr hne)
        rw [hnone] at hsome
        exact absurd hsome (by simp)
      · rw [hnone] at hsome
        exact absurd hsome (by simp)
  pages id hid := by
    have hreached : id ∈ T₁ → id ∈ T ∨ id ∈ w₂.used ∧ id ∉ w.used ∧ (tx₂.slot id).isSome :=
      fun hid => (h₁.pages id hid).imp_right fun ⟨hin, hnot, hsome⟩ =>
        ⟨h₂.used hin, hnot, h₂.dirty id hsome⟩
    rcases hid with ⟨hid, -⟩ | hid
    · exact hreached hid
    · rcases h₂.pages id hid with hid | ⟨hin, hnot, hsome⟩
      · exact hreached (hA hid)
      · exact Or.inr ⟨hin, fun h => hnot (h₁.used h), hsome⟩
  released := List.Subset.trans h₁.released h₂.released
  kept id hid := by
    rcases h₁.kept id hid with hid | hid
    · exact h₂.keeps hid
    · exact Or.inr (h₂.released hid)
  grown id hid := by
    rcases h₂.grown id hid with hid | hid | hid
    · rcases h₁.grown id hid with hid | hid | hid
      · exact Or.inl hid
      · exact Or.inr (h₂.keeps hid)
      · exact Or.inr (Or.inr (h₂.released hid))
    · exact Or.inr (Or.inl (Or.inr hid))
    · exact Or.inr (Or.inr hid)

/-- The same pages, described in another way. -/
theorem Moves.reshape (h : Moves w tx w₁ tx₁ T T₁) (hA : ∀ id, id ∈ A ↔ id ∈ T₁) :
    Moves w tx w₁ tx₁ T A :=
  Set.ext hA ▸ h

/-- Pages of the tree are owned by the transaction or by its base. -/
theorem Held.owned {id : PageId} (h : Held w tx id) (hinv : TxInv w tx) :
    id ∈ w.used ∨ id ∈ w.base.pages := by
  rcases h with ⟨data, hslot, -⟩ | ⟨-, hbase, -⟩
  · exact Or.inl (hinv.slots id (by rw [hslot]; rfl))
  · exact Or.inr hbase

/-- A page of the tree outside the pages moved is still there. -/
theorem Moves.held (h : Moves w tx w₁ tx₁ T T₁) (hinv : TxInv w tx) (hinv₁ : TxInv w₁ tx₁)
    {id : PageId} (hid : id ∉ T) (hheld : Held w tx id) :
    Held w₁ tx₁ id ∧ tx₁.slot id = tx.slot id := by
  have hused : id ∈ w.used ∨ id ∉ w₁.used := by
    rcases hheld with ⟨data, hslot, -⟩ | ⟨-, hbase, -⟩
    · exact Or.inl (hinv.slots id (by rw [hslot]; rfl))
    · refine Or.inr fun hin => hinv₁.apart id hin ?_
      rwa [h.base]
  have hslot := h.frame id hid hused
  refine ⟨?_, hslot⟩
  rcases hheld with ⟨data, hsome, hlen⟩ | ⟨hnone, hbase, hfreed⟩
  · exact Or.inl ⟨data, hslot.trans hsome, hlen.trans h.pageSize.symm⟩
  · refine Or.inr ⟨hslot.trans hnone, by rwa [h.base], fun hin => ?_⟩
    rcases h.freed id hin with hin | ⟨hT, -⟩
    · exact hfreed hin
    · exact hid hT

/-- The tree does not see pages outside of it move. -/
theorem Moves.overlay (h : Moves w tx w₁ tx₁ T T₁) {id : PageId}
    (hslot : tx₁.slot id = tx.slot id) : overlay tx₁ w₁.view id = overlay tx w.view id := by
  rw [Kv.overlay, Kv.overlay, hslot, h.view]

/-! ### Slots -/

theorem slot_setSlot (hsorted : Sorted tx.dirtyPages) (id : PageId) (s : DirtyPageSlot) :
    (tx.setSlot id s).slot = assign tx.slot id s :=
  contents_upsert hsorted id s

theorem TxInv.setSlot (h : TxInv w tx) {id : PageId} (hid : id ∈ w.used) (s : DirtyPageSlot) :
    TxInv w (tx.setSlot id s) where
  phase := h.phase
  pageSize := h.pageSize
  large := h.large
  small := h.small
  sorted := sorted_upsert h.sorted id s
  slots id' h' := by
    by_cases heq : id' = id
    · rw [heq]
      exact hid
    · rw [slot_setSlot h.sorted, assign_of_ne heq] at h'
      exact h.slots id' h'
  apart := h.apart
  freed := h.freed
  nodup := h.nodup
  header := h.header

/-- Setting the slot of a page moves that page. -/
theorem TxInv.moves_setSlot (h : TxInv w tx) (id : PageId) (s : DirtyPageSlot) :
    Moves w tx w (tx.setSlot id s) {id} {id} where
  work := rfl
  config := rfl
  used := subset_rfl
  dirty id' h' := by
    rw [slot_setSlot h.sorted]
    by_cases heq : id' = id
    · rw [heq, assign_self]
      rfl
    · rwa [assign_of_ne heq]
  frame id' hid _ := by
    rw [slot_setSlot h.sorted, assign_of_ne hid]
  freed _ h := Or.inl h
  pages _ h := Or.inl h
  released := List.Subset.refl _
  kept _ h := Or.inl h
  grown _ h := Or.inl h

end

/-! ### Calls of a transaction

`Program.Sat` for the steps of a `WriteCall`. -/

section

variable {Γ : Type} {P : Protocol signature Γ} {X : Fault → Prop} {α β : Type} {g : Γ}
  {tx : WriteTransaction}

@[simp]
theorem run_bind_sat {call : WriteCall α} {f : α → WriteCall β}
    {Q : β × WriteTransaction → Γ → Prop} :
    ((call >>= f).run tx).Sat P X g Q ↔
      (call.run tx).Sat P X g fun r g' => ((f r.1).run r.2).Sat P X g' Q := by
  rw [StateT.run_bind, Program.sat_bind]

@[simp]
theorem run_pure_sat {a : α} {Q : α × WriteTransaction → Γ → Prop} :
    ((pure a : WriteCall α).run tx).Sat P X g Q ↔ Q (a, tx) g := Iff.rfl

@[simp]
theorem run_get_sat {Q : WriteTransaction × WriteTransaction → Γ → Prop} :
    ((get : WriteCall WriteTransaction).run tx).Sat P X g Q ↔ Q (tx, tx) g := Iff.rfl

@[simp]
theorem run_set_sat {tx' : WriteTransaction} {Q : PUnit × WriteTransaction → Γ → Prop} :
    ((set tx' : WriteCall PUnit).run tx).Sat P X g Q ↔ Q (⟨⟩, tx') g := Iff.rfl

@[simp]
theorem run_modify_sat {f : WriteTransaction → WriteTransaction}
    {Q : PUnit × WriteTransaction → Γ → Prop} :
    ((modify f : WriteCall PUnit).run tx).Sat P X g Q ↔ Q (⟨⟩, f tx) g := Iff.rfl

@[simp]
theorem run_stop_sat {e : Fault} {Q : α × WriteTransaction → Γ → Prop} :
    ((stop e : WriteCall α).run tx).Sat P X g Q ↔ X e := Iff.rfl

/-- Operations leave the transaction as it is. -/
@[simp]
theorem run_call_sat {call : Call α} {Q : α × WriteTransaction → Γ → Prop} :
    ((liftM call : WriteCall α).run tx).Sat P X g Q ↔
      call.Sat P X g fun a g' => Q (a, tx) g' := by
  change (call >>= fun a => pure (a, tx)).Sat P X g Q ↔ _
  rw [Program.sat_bind]
  rfl

/-- So does code that performs none. -/
@[simp]
theorem run_except_sat {r : Except Fault α} {Q : α × WriteTransaction → Γ → Prop} :
    ((liftM r : WriteCall α).run tx).Sat P X g Q ↔ Returns X r fun a => Q (a, tx) g := by
  change (Program.ofExcept r >>= fun a => pure (a, tx)).Sat P X g Q ↔ _
  rw [Program.sat_bind, Program.sat_ofExcept]
  rfl

end

/-! ### Checking pages in and out -/

section

variable {env : Env} {X : Fault → Prop} {w : Work} {tx : WriteTransaction}

/-- Allocating gives a zeroed page with a fresh id. -/
theorem allocateZeroed_sat (hinv : TxInv w tx) :
    (allocateZeroed.run tx).Sat (writer env) X w fun r w' =>
      r.2 = tx ∧ r.1.id ≠ headerPageId ∧ r.1.id ∉ w.used ∧ r.1.id ∉ w.base.pages ∧
        r.1.data = List.replicate tx.pageSize 0 ∧
        ∃ next, w' = { w with used := insert r.1.id w.used, next } := by
  rw [allocateZeroed]
  simp only [run_bind_sat, run_call_sat, run_get_sat, run_except_sat, run_pure_sat]
  refine ⟨hinv.phase, fun pageId w' hpost => ?_⟩
  obtain ⟨hheader, hfresh, hbase, next, rfl⟩ := hpost
  refine ⟨Set.mem_insert pageId w.used, fun _ w' hpost => ?_⟩
  obtain rfl : w' = _ := hpost
  change Returns _ _ _
  rw [zeroed_of_lt hinv.small]
  exact ⟨trivial, hheader, hfresh, hbase, rfl, next, rfl⟩

/-- Adding a fresh page to the dirty pages checks it out. -/
theorem addPage_sat (hinv : TxInv w tx) {page : PageMut} (hheader : page.id ≠ headerPageId)
    (hfresh : page.id ∉ w.used) (hbase : page.id ∉ w.base.pages) (next : PageId) :
    ((addPage page).run tx).Sat (writer env) X
      { w with used := insert page.id w.used, next } fun r w' =>
        w' = { w with used := insert page.id w.used, next } ∧ r.1 = page ∧
        r.2 = tx.setSlot page.id .checkedOut ∧ TxInv w' r.2 ∧ Moves w tx w' r.2 ∅ {page.id} := by
  -- a fresh id has no slot yet
  have hnone : tx.slot page.id = none := by
    by_contra hne
    exact hfresh (hinv.slots _ (Option.isSome_iff_ne_none.mpr hne))
  have hinv' : TxInv { w with used := insert page.id w.used, next } tx :=
    { hinv with
      slots := fun id h => Set.mem_insert_of_mem _ (hinv.slots id h)
      apart := fun id h => by
        rcases Set.mem_insert_iff.mp h with rfl | h
        · exact hbase
        · exact hinv.apart id h
      header := fun h => (Set.mem_insert_iff.mp h).elim (fun heq => hheader heq.symm)
        hinv.header }
  rw [addPage]
  simp only [run_bind_sat, run_get_sat, hnone, run_set_sat, run_pure_sat]
  refine ⟨trivial, trivial, trivial, hinv'.setSlot (Set.mem_insert _ _) _, ?_⟩
  exact {
    work := rfl
    config := rfl
    used := Set.subset_insert _ _
    dirty := fun id h => (hinv'.moves_setSlot page.id .checkedOut).dirty id h
    frame := fun id _ hid => by
      rw [slot_setSlot hinv.sorted, assign_of_ne]
      rintro rfl
      rcases hid with hid | hid
      · exact hfresh hid
      · exact hid (Set.mem_insert _ _)
    freed := fun _ h => Or.inl h
    pages := fun id hid => by
      rw [Set.mem_singleton_iff] at hid
      subst hid
      refine Or.inr ⟨Set.mem_insert _ _, hfresh, ?_⟩
      rw [slot_setSlot hinv.sorted, assign_self]
      rfl
    released := List.Subset.refl _
    kept := fun id hid => absurd hid (Set.notMem_empty id)
    grown := fun id hid => (Set.mem_insert_iff.mp hid).elim (fun heq => Or.inr (Or.inl heq))
      Or.inl }

/-- What is known of a page that has just been checked out. -/
structure CheckedOut (w : Work) (tx : WriteTransaction) (w' : Work) (tx' : WriteTransaction)
    (T : Set PageId) (page : PageMut) : Prop where
  inv : TxInv w' tx'
  moves : Moves w tx w' tx' T {page.id}
  slot : tx'.slot page.id = some .checkedOut
  length : page.data.length = tx.pageSize

/-- A fresh page. -/
theorem allocatePage_sat (hinv : TxInv w tx) :
    (allocatePage.run tx).Sat (writer env) X w fun r w' =>
      CheckedOut w tx w' r.2 ∅ r.1 ∧ r.1.id ∉ w.used ∧ r.1.id ∉ w.base.pages := by
  rw [allocatePage]
  simp only [run_bind_sat]
  refine (allocateZeroed_sat hinv).mono ?_
  rintro ⟨page, tx'⟩ w' ⟨htx, hheader, hfresh, hbase, hdata, next, rfl⟩
  dsimp only at htx hheader hfresh hbase hdata ⊢
  subst htx
  refine (addPage_sat hinv hheader hfresh hbase next).mono ?_
  rintro ⟨page', tx''⟩ w' ⟨-, hpage, htx, hinv', hmoves⟩
  dsimp only at hpage htx hinv' hmoves ⊢
  subst hpage htx
  refine ⟨⟨hinv', hmoves, ?_, ?_⟩, hfresh, hbase⟩
  · rw [slot_setSlot hinv.sorted, assign_self]
  · rw [hdata, List.length_replicate]

/-- The pages of the base version are as long as the pages of the transaction. -/
def Sized (w : Work) (tx : WriteTransaction) : Prop :=
  ∀ id ∈ w.base.pages, ∀ data, w.view id = some data → data.length = tx.pageSize

theorem Sized.moves (h : Sized w tx) {w' : Work} {tx' : WriteTransaction} {A A' : Set PageId}
    (hmoves : Moves w tx w' tx' A A') : Sized w' tx' := by
  rw [Sized, hmoves.base, hmoves.view, hmoves.pageSize]
  exact h

/-- A page of the tree for editing: the page itself if it is dirty, a copy otherwise. -/
theorem cowPage_sat (hinv : TxInv w tx) (hsized : Sized w tx ∨ X .panic) {id : PageId}
    (hheld : Held w tx id) :
    ((cowPage id).run tx).Sat (writer env) X w fun r w' =>
      CheckedOut w tx w' r.2 {id} r.1 ∧ overlay tx w.view id = some r.1.data ∧
        (r.1.id = id ∨ r.1.id ∉ w.used ∧ r.1.id ∉ w.base.pages ∧ id ∈ r.2.freedPages) := by
  rw [cowPage]
  simp only [run_bind_sat, run_get_sat]
  rcases hheld with ⟨data, hslot, hlength⟩ | ⟨hslot, hbase, hfreed⟩
  · -- a dirty page at rest
    rw [hslot]
    simp only [Option.isSome_some, if_true, checkOut, run_bind_sat, run_get_sat, hslot,
      run_set_sat, run_pure_sat]
    have hused : id ∈ w.used := hinv.slots id (by rw [hslot]; rfl)
    refine ⟨⟨hinv.setSlot hused _, hinv.moves_setSlot id _, ?_, hlength⟩, ?_, Or.inl trivial⟩
    · rw [slot_setSlot hinv.sorted, assign_self]
    · rw [overlay, hslot]
  · -- a page of the base version: it is copied, and freed by the commit
    rw [hslot]
    simp only [Option.isSome_none, Bool.false_eq_true, if_false, run_bind_sat, run_call_sat,
      run_except_sat, run_modify_sat]
    refine ⟨⟨hinv.phase, hbase⟩, fun oldPage w' hpost => ?_⟩
    obtain ⟨rfl, hview⟩ := hpost
    refine (allocateZeroed_sat hinv).mono ?_
    rintro ⟨page, tx'⟩ w' ⟨htx, hheader, hfresh, hnew, hdata, next, rfl⟩
    dsimp only at htx hheader hfresh hnew hdata ⊢
    subst htx
    have hlength : page.data.length = tx'.pageSize := by
      rw [hdata, List.length_replicate]
    rw [copyPageFrom, returns_bind, assert]
    split
    · rename_i hlen
      rw [returns_ok, returns_pure]
      -- the old page joins the freed ones, among which it was not
      have hinv' : TxInv w' { tx' with freedPages := tx'.freedPages ++ [id] } :=
        { hinv with
          freed := fun id' h => by
            rcases List.mem_append.mp h with h | h
            · exact hinv.freed id' h
            · rw [List.mem_singleton.mp h]
              exact hbase
          nodup := List.nodup_append.mpr ⟨hinv.nodup, List.nodup_singleton id,
            fun a ha b hb => by
              rw [List.mem_singleton.mp hb]
              rintro rfl
              exact hfreed ha⟩ }
      have hpage : (⟨page.id, oldPage⟩ : PageMut).id ≠ headerPageId := hheader
      refine (addPage_sat hinv' hpage hfresh hnew next).mono ?_
      rintro ⟨page', tx''⟩ w'' ⟨-, hpage, htx, hinv'', hmoves⟩
      dsimp only at hpage htx hinv'' hmoves ⊢
      subst hpage htx
      refine ⟨⟨hinv'', ?_, ?_, ?_⟩, ?_, Or.inr ⟨hfresh, hnew, ?_⟩⟩
      · exact {
          work := hmoves.work
          config := rfl
          used := hmoves.used
          dirty := hmoves.dirty
          frame := fun id' _ hid' => hmoves.frame id' (Set.notMem_empty _) hid'
          freed := fun id' h => by
            rcases List.mem_append.mp h with h | h
            · exact Or.inl h
            · exact Or.inr ⟨List.mem_singleton.mp h, by rwa [List.mem_singleton.mp h]⟩
          pages := fun id' hid' => (hmoves.pages id' hid').imp_left fun h =>
            absurd h (Set.notMem_empty _)
          released := List.subset_append_left _ _
          kept := fun id' hid' => by
            rw [Set.mem_singleton_iff] at hid'
            subst hid'
            exact Or.inr (List.mem_append_right _ (List.mem_singleton_self _))
          grown := hmoves.grown }
      · dsimp only
        rw [slot_setSlot hinv'.sorted, assign_self]
      · exact hlen.symm.trans hlength
      · rw [overlay, hslot]
        exact hview
      · exact List.mem_append_right _ (List.mem_singleton_self id)
    · rename_i hlen
      exact hsized.resolve_left fun hsized =>
        hlen (hlength.trans (hsized id hbase oldPage hview).symm)

/-- Returning a page puts it at rest. -/
theorem returnPage_sat (hinv : TxInv w tx) {page : PageMut}
    (hslot : tx.slot page.id = some .checkedOut) (hlength : page.data.length = tx.pageSize) :
    ((returnPage page).run tx).Sat (writer env) X w fun r w' =>
      w' = w ∧ TxInv w r.2 ∧ Moves w tx w r.2 {page.id} {page.id} ∧
        r.2.slot = assign tx.slot page.id (.available page.data) ∧ Held w r.2 page.id := by
  rw [returnPage]
  simp only [run_bind_sat, run_get_sat, hslot, run_set_sat]
  have hset := slot_setSlot hinv.sorted page.id (.available page.data)
  have hused : page.id ∈ w.used := hinv.slots _ (by rw [hslot]; rfl)
  exact ⟨trivial, hinv.setSlot hused _, hinv.moves_setSlot _ _, hset,
    Or.inl ⟨page.data, by rw [hset, assign_self], hlength⟩⟩

end

/-! ### One node on the way -/

/-- A node is checked out as `page`, and the rest of the pages the tree `T` has become are
at rest. -/
structure Opened (w : Work) (tx : WriteTransaction) (T : List PageId) (w' : Work)
    (tx' : WriteTransaction) (page : PageMut) (rest : List PageId) : Prop where
  inv : TxInv w' tx'
  moves : Moves w tx w' tx' {x | x ∈ T} {x | x ∈ page.id :: rest}
  slot : tx'.slot page.id = some .checkedOut
  length : page.data.length = tx.pageSize
  held : ∀ x ∈ rest, Held w' tx' x
  nodup : (page.id :: rest).Nodup

/-- All pages the tree `T` has become are at rest. -/
structure Closed (w : Work) (tx : WriteTransaction) (T : List PageId) (w' : Work)
    (tx' : WriteTransaction) (ps : List PageId) : Prop where
  inv : TxInv w' tx'
  moves : Moves w tx w' tx' {x | x ∈ T} {x | x ∈ ps}
  held : ∀ x ∈ ps, Held w' tx' x
  nodup : ps.Nodup

section

variable {env : Env} {X : Fault → Prop} {w w₁ : Work} {tx tx₁ : WriteTransaction}
  {T rest : List PageId} {page : PageMut}

/-- The code has edited the page. -/
theorem Opened.edit (h : Opened w tx T w₁ tx₁ page rest) {data : Bytes}
    (hlength : data.length = page.data.length) :
    Opened w tx T w₁ tx₁ { page with data } rest :=
  { h with length := hlength.trans h.length }

/-- The page goes back. -/
theorem Opened.return (h : Opened w tx T w₁ tx₁ page rest) :
    ((returnPage page).run tx₁).Sat (writer env) X w₁ fun r w' =>
      Closed w tx T w' r.2 (page.id :: rest) ∧
        overlay r.2 w'.view page.id = some page.data ∧
        ∀ x ∈ rest, overlay r.2 w'.view x = overlay tx₁ w₁.view x := by
  have hsize : page.data.length = tx₁.pageSize := h.length.trans h.moves.pageSize.symm
  refine (returnPage_sat h.inv h.slot hsize).mono ?_
  rintro ⟨⟨⟩, tx'⟩ w' ⟨rfl, hinv, hmoves, hset, hheld⟩
  dsimp only at hinv hmoves hset hheld ⊢
  have hother : ∀ x ∈ rest, x ≠ page.id := fun x hx heq =>
    (List.nodup_cons.mp h.nodup).1 (heq ▸ hx)
  refine ⟨⟨hinv, ?_, ?_, h.nodup⟩, ?_, ?_⟩
  · refine (h.moves.trans hmoves ?_).reshape fun x => ?_
    · rintro x rfl
      exact List.mem_cons_self
    · rw [Set.sdiff_union_of_subset]
      rintro x rfl
      exact List.mem_cons_self
  · intro x hx
    rcases List.mem_cons.mp hx with rfl | hx
    · exact hheld
    · exact (hmoves.held h.inv hinv (hother x hx) (h.held x hx)).1
  · rw [overlay, hset, assign_self]
  · intro x hx
    rw [overlay, overlay, hset, assign_of_ne (hother x hx)]

/-- A node edited in place. -/
theorem Opened.replace (h : Opened w tx T w₁ tx₁ page rest) :
    ((Tree.replace env page).run tx₁).Sat (writer env) X w₁ fun r w' =>
      r.1 = ⟨page.id, env.checksumPage page.data, none⟩ ∧
        Closed w tx T w' r.2 (page.id :: rest) ∧
        overlay r.2 w'.view page.id = some page.data ∧
        ∀ x ∈ rest, overlay r.2 w'.view x = overlay tx₁ w₁.view x := by
  rw [Tree.replace]
  simp only [run_bind_sat, run_pure_sat]
  refine h.return.mono ?_
  rintro ⟨⟨⟩, tx'⟩ w' hclosed
  exact ⟨trivial, hclosed⟩

/-- A fresh page joins the node. -/
theorem Opened.allocate (h : Opened w tx T w₁ tx₁ page rest) {w₂ : Work}
    {tx₂ : WriteTransaction} {right : PageMut} (hright : CheckedOut w₁ tx₁ w₂ tx₂ ∅ right)
    (hfresh : right.id ∉ w₁.used) (hbase : right.id ∉ w₁.base.pages) {right' : PageMut}
    (hid : right'.id = right.id) (hlength : right'.data.length = right.data.length) :
    ((returnPage right').run tx₂).Sat (writer env) X w₂ fun r w' =>
      Opened w tx T w' r.2 page (right.id :: rest) ∧
        overlay r.2 w'.view right.id = some right'.data ∧
        ∀ x ∈ rest, overlay r.2 w'.view x = overlay tx₁ w₁.view x := by
  have hnotRest : ∀ x ∈ rest, x ≠ right.id := by
    rintro x hx rfl
    exact ((h.held _ hx).owned h.inv).elim hfresh hbase
  have hused : page.id ∈ w₁.used := h.inv.slots _ (by rw [h.slot]; rfl)
  have hnotPage : page.id ≠ right.id := fun heq => hfresh (heq ▸ hused)
  have hslotPage : tx₂.slot page.id = some .checkedOut := by
    rw [hright.moves.frame _ (Set.notMem_empty _) (Or.inl hused), h.slot]
  have hslot : tx₂.slot right'.id = some .checkedOut := by
    rw [hid]
    exact hright.slot
  have hsize : right'.data.length = tx₂.pageSize := by
    rw [hlength, hright.length, hright.moves.pageSize]
  refine (returnPage_sat hright.inv hslot hsize).mono ?_
  rintro ⟨⟨⟩, tx'⟩ w' ⟨rfl, hinv, hmoves, hset, hheld⟩
  dsimp only at hinv hmoves hset hheld ⊢
  rw [hid] at hmoves hset hheld
  -- the pages there were are where they were after both steps
  have hrest : ∀ x ∈ rest, Held w' tx' x ∧ tx'.slot x = tx₁.slot x := by
    intro x hx
    obtain ⟨hheld₂, hslot₂⟩ := hright.moves.held h.inv hright.inv (Set.notMem_empty x) (h.held x hx)
    obtain ⟨hheld₃, hslot₃⟩ := hmoves.held hright.inv hinv (hnotRest x hx) hheld₂
    exact ⟨hheld₃, hslot₃.trans hslot₂⟩
  have hall : Moves w₁ tx₁ w' tx' ∅ {right.id} :=
    (hright.moves.trans hmoves subset_rfl).reshape fun x => by simp
  refine ⟨⟨hinv, ?_, ?_, ?_, ?_, ?_⟩, ?_, fun x hx => hall.overlay (hrest x hx).2⟩
  · refine (h.moves.trans hall (Set.empty_subset _)).reshape fun x => ?_
    simp only [Set.mem_ofPred_eq, List.mem_cons, Set.mem_union, Set.sdiff_empty,
      Set.mem_singleton_iff]
    tauto
  · rw [hset, assign_of_ne hnotPage, hslotPage]
  · exact h.length
  · intro x hx
    rcases List.mem_cons.mp hx with rfl | hx
    · exact hheld
    · exact (hrest x hx).1
  · obtain ⟨hnotMem, hnodup⟩ := List.nodup_cons.mp h.nodup
    refine List.nodup_cons.mpr ⟨?_, List.nodup_cons.mpr ⟨fun hx => hnotRest _ hx rfl, hnodup⟩⟩
    rw [List.mem_cons, not_or]
    exact ⟨hnotPage, hnotMem⟩
  · rw [overlay, hset, assign_self]

/-- The tree below a child moves, the rest of the node stays. -/
theorem Opened.step {before own after own' : List PageId} {w₂ : Work} {tx₂ : WriteTransaction}
    (h : Opened w tx T w₁ tx₁ page (before ++ own ++ after))
    (hchild : Closed w₁ tx₁ own w₂ tx₂ own') :
    Opened w tx T w₂ tx₂ page (before ++ own' ++ after) ∧
      ∀ x ∈ before ++ after, overlay tx₂ w₂.view x = overlay tx₁ w₁.view x := by
  obtain ⟨hnotMem, hnodup⟩ := List.nodup_cons.mp h.nodup
  have hapart : ∀ x ∈ before ++ after, x ∉ own := by
    intro x hx hown
    rw [List.append_assoc, List.nodup_append, List.nodup_append] at hnodup
    rcases List.mem_append.mp hx with hx | hx
    · exact hnodup.2.2 x hx x (List.mem_append_left _ hown) rfl
    · exact hnodup.2.1.2.2 x hown x hx rfl
  have hmem : ∀ x ∈ before ++ after, x ∈ before ++ own ++ after := fun x hx => by
    rcases List.mem_append.mp hx with hx | hx <;> simp [hx]
  have hrest : ∀ x ∈ before ++ after, Held w₂ tx₂ x ∧ tx₂.slot x = tx₁.slot x := fun x hx =>
    hchild.moves.held h.inv hchild.inv (hapart x hx) (h.held x (hmem x hx))
  have hused : page.id ∈ w₁.used := h.inv.slots _ (by rw [h.slot]; rfl)
  have hnotOwn : page.id ∉ own := fun hx => hnotMem (by simp [hx])
  -- a new page of the child is a page of nothing else
  have hnew : ∀ x ∈ own', x ≠ page.id ∧ x ∉ before ++ after := by
    intro x hx
    rcases hchild.moves.pages x hx with hown | ⟨hin, hnot, -⟩
    · exact ⟨fun heq => hnotOwn (heq ▸ hown), fun hx' => hapart x hx' hown⟩
    · refine ⟨fun heq => hnot (heq ▸ hused), fun hx' => ?_⟩
      rcases (h.held x (hmem x hx')).owned h.inv with hin' | hbase
      · exact hnot hin'
      · exact hchild.inv.apart x hin (hchild.moves.base ▸ hbase)
  refine ⟨⟨hchild.inv, ?_, ?_, h.length, ?_, ?_⟩, fun x hx => hchild.moves.overlay (hrest x hx).2⟩
  · refine (h.moves.trans hchild.moves fun x hx => ?_).reshape fun x => ?_
    · exact List.mem_cons_of_mem _ (List.mem_append_left _ (List.mem_append_right _ hx))
    · have hbefore : x ∈ before → x ∉ own := fun hx => hapart x (List.mem_append_left _ hx)
      have hafter : x ∈ after → x ∉ own := fun hx => hapart x (List.mem_append_right _ hx)
      have hpage : x = page.id → x ∉ own := fun heq => heq ▸ hnotOwn
      simp only [Set.mem_ofPred_eq, List.mem_cons, List.mem_append, Set.mem_union, Set.mem_sdiff]
      tauto
  · rw [hchild.moves.frame _ hnotOwn (Or.inl hused), h.slot]
  · intro x hx
    rw [List.append_assoc, List.mem_append, List.mem_append] at hx
    rcases hx with hx | hx | hx
    · exact (hrest x (List.mem_append_left _ hx)).1
    · exact hchild.held x hx
    · exact (hrest x (List.mem_append_right _ hx)).1
  · have hothers : (before ++ after).Nodup := hnodup.sublist (by simp)
    refine List.nodup_cons.mpr ⟨?_, ?_⟩
    · intro hx
      rw [List.append_assoc, List.mem_append, List.mem_append] at hx
      rcases hx with hx | hx | hx
      · exact hnotMem (by simp [hx])
      · exact (hnew _ hx).1 rfl
      · exact hnotMem (by simp [hx])
    · rw [(List.perm_append_comm.append_right after).nodup_iff, List.append_assoc,
        List.nodup_append]
      exact ⟨hchild.nodup, hothers, fun a ha b hb heq => (hnew a ha).2 (heq ▸ hb)⟩

/-- Opening the root of a tree. -/
theorem cow_opened (hinv : TxInv w tx) (hsized : Sized w tx ∨ X .panic) {id : PageId} {qs : List PageId}
    (hheld : ∀ x ∈ id :: qs, Held w tx x) (hnodup : (id :: qs).Nodup) :
    ((cowPage id).run tx).Sat (writer env) X w fun r w' =>
      Opened w tx (id :: qs) w' r.2 r.1 qs ∧ overlay tx w.view id = some r.1.data ∧
        ∀ x ∈ qs, overlay r.2 w'.view x = overlay tx w.view x := by
  refine (cowPage_sat hinv hsized (hheld id List.mem_cons_self)).mono ?_
  rintro ⟨page, tx'⟩ w' ⟨hout, hdata, hid⟩
  dsimp only at hout hdata hid ⊢
  obtain ⟨hnotMem, hnodupRest⟩ := List.nodup_cons.mp hnodup
  have hne : ∀ x ∈ qs, x ∉ ({id} : Set PageId) := fun x hx heq => hnotMem (heq ▸ hx)
  have hrest : ∀ x ∈ qs, Held w' tx' x ∧ tx'.slot x = tx.slot x := fun x hx =>
    hout.moves.held hinv hout.inv (hne x hx) (hheld x (List.mem_cons_of_mem _ hx))
  refine ⟨⟨hout.inv, ?_, hout.slot, hout.length, fun x hx => (hrest x hx).1, ?_⟩, hdata,
    fun x hx => hout.moves.overlay (hrest x hx).2⟩
  · have hsub : ({id} : Set PageId) ⊆ {x | x ∈ id :: qs} := by
      rintro x rfl
      exact List.mem_cons_self
    refine ((Moves.refl w tx {x | x ∈ id :: qs}).trans hout.moves hsub).reshape fun x => ?_
    have hother : x ∈ qs → x ≠ id := fun hx heq => hnotMem (heq ▸ hx)
    simp only [Set.mem_ofPred_eq, List.mem_cons, Set.mem_union, Set.mem_sdiff,
      Set.mem_singleton_iff]
    tauto
  · refine List.nodup_cons.mpr ⟨fun hx => ?_, hnodupRest⟩
    rcases hid with heq | ⟨hfresh, hbase, -⟩
    · exact hnotMem (heq ▸ hx)
    · exact ((hheld _ (List.mem_cons_of_mem _ hx)).owned hinv).elim hfresh hbase

/-- A node that was split: its part goes back, and so does the fresh page. -/
theorem Opened.split (h : Opened w tx T w₁ tx₁ page rest) {w₂ : Work}
    {tx₂ : WriteTransaction} {right : PageMut} (hright : CheckedOut w₁ tx₁ w₂ tx₂ ∅ right)
    (hfresh : right.id ∉ w₁.used) (hbase : right.id ∉ w₁.base.pages) {left' right' : Bytes}
    (hleft' : left'.length = page.data.length) (hright' : right'.length = right.data.length) :
    ((returnPage { right with data := right' }).run tx₂).Sat (writer env) X w₂ fun r w' =>
      ((returnPage { page with data := left' }).run r.2).Sat (writer env) X w' fun r w' =>
        Closed w tx T w' r.2 (page.id :: right.id :: rest) ∧
          overlay r.2 w'.view page.id = some left' ∧
          overlay r.2 w'.view right.id = some right' ∧
          ∀ x ∈ rest, overlay r.2 w'.view x = overlay tx₁ w₁.view x := by
  have hid : ({ right with data := right' } : PageMut).id = right.id := rfl
  refine (h.allocate hright hfresh hbase hid hright').mono ?_
  rintro ⟨⟨⟩, tx'⟩ w' ⟨hopen, hdata, hrest⟩
  dsimp only at hopen hdata hrest ⊢
  refine (hopen.edit hleft').return.mono ?_
  rintro ⟨⟨⟩, tx''⟩ w'' ⟨hclosed, hpage, hothers⟩
  dsimp only at hclosed hpage hothers ⊢
  refine ⟨hclosed, hpage, ?_, fun x hx => ?_⟩
  · rw [hothers _ List.mem_cons_self, hdata]
  · rw [hothers x (List.mem_cons_of_mem _ hx), hrest x hx]

end

end KvRaft.Kv
