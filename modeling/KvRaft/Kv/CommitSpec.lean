import KvRaft.Kv.InsertSpec

/-!
# Beginning and committing

A write transaction begins with the tree of its base version (`begin_ok`). Its commit
writes every dirty page, the header, waits for the disk, moves the snapshot, and frees
what the new version has no use for (`commit_sat`). The version it commits is the one the
transaction has built: its map, its pages, and a slot with its root (`Builds`).
-/

namespace KvRaft.Kv

open Bytes Ordered

section

variable {env : Env} {w : Work} {tx : WriteTransaction} {m : Key → Option Value}
  {X : Fault → Prop}

/-! ### Beginning -/

/-- A transaction with nothing done holds the map of its base version. -/
theorem begin_ok (hphase : w.phase = .building) (hused : w.used = ∅)
    (hstands : w.base.Stands env w.view) (hsize : tx.pageSize = w.pageSize)
    (hlarge : minPageSize ≤ w.pageSize) (hsmall : w.pageSize < 2 ^ 63)
    (hroot : (tx.rootPage, tx.rootPageChecksum) = w.base.root) (hdirty : tx.dirtyPages = [])
    (hfreed : tx.freedPages = []) : TxOk env w tx w.base.map := by
  have hslot : ∀ id, tx.slot id = none := fun id => by
    rw [WriteTransaction.slot, hdirty, contents_nil]
  have hview : overlay tx w.view = w.view := by
    funext id
    rw [overlay, hslot]
  refine ⟨?_, w.base.depth, w.base.pages, ?_, ?_⟩
  · exact {
      phase := hphase
      pageSize := hsize
      large := by rw [minPageSize] at hlarge; omega
      small := by omega
      sorted := by rw [hdirty]; exact sorted_nil
      slots := fun id h => by rw [hslot] at h; exact absurd h (by simp)
      apart := fun id h => by rw [hused] at h; exact absurd h (Set.notMem_empty id)
      freed := fun id h => by rw [hfreed] at h; exact absurd h List.not_mem_nil
      nodup := by rw [hfreed]; exact List.nodup_nil
      header := by rw [hused]; exact Set.notMem_empty _ }
  · rw [hview, hroot]
    exact hstands.tree
  · exact {
      held := fun id hid => Or.inr ⟨hslot id, hid, by rw [hfreed]; exact List.not_mem_nil⟩
      nodup := hstands.nodup
      used := fun id h => by rw [hused] at h; exact absurd h (Set.notMem_empty id)
      base := fun id h => Or.inl h }

/-! ### Writing the dirty pages -/

/-- The version the transaction has built. -/
structure Builds (env : Env) (w : Work) (tx : WriteTransaction) (v : Version) : Prop where
  slot : v.slot = ⟨tx.rootPage, tx.rootPageChecksum, tx.transaction, w.next⟩
  tree : TreeAt env (overlay tx w.view) v.depth ⊥ ⊤ v.root v.map v.pages
  spans : Spans w tx v.pages

/-- The version holds the map of the transaction. -/
theorem TxOk.builds (h : TxOk env w tx m) : ∃ v, Builds env w tx v ∧ v.map = m := by
  obtain ⟨d, ps, hT, hspans⟩ := h.tree
  exact ⟨⟨⟨tx.rootPage, tx.rootPageChecksum, tx.transaction, w.next⟩, d, m, ps⟩,
    ⟨rfl, hT, hspans⟩, rfl⟩

/-- Between two insertions no page is checked out. -/
theorem Builds.available {v : Version} (h : Builds env w tx v) (hinv : TxInv w tx) {id : PageId}
    {slot : DirtyPageSlot} (hid : (id, slot) ∈ tx.dirtyPages) :
    ∃ data, slot = .available data ∧ data.length = w.pageSize ∧ id ∈ w.used := by
  have hslot : tx.slot id = some slot := contents_of_mem_of_nodup hinv.sorted.nodup_keys hid
  have hused : id ∈ w.used := hinv.slots id (by rw [hslot]; rfl)
  rcases h.spans.held id (h.spans.used id hused) with ⟨data, hdata, hlen⟩ | ⟨hnone, -⟩
  · rw [hslot, Option.some.injEq] at hdata
    exact ⟨data, hdata, hlen.trans hinv.pageSize, hused⟩
  · rw [hslot] at hnone
    exact absurd hnone (by simp)

/-- What is known of the pages after some dirty pages have been written. -/
def written (view : View) (pages : List (PageId × DirtyPageSlot)) : View := fun id =>
  match contents pages id with
  | some (.available data) => some data
  | _ => view id

/-- Writing the dirty pages one by one. -/
theorem writePages_sat {v : Version} (hphase : w.phase = .writing v) (hheader : headerPageId ∉ w.used)
    {pages : List (PageId × DirtyPageSlot)} (hkeys : (pages.map Prod.fst).Nodup)
    (hpages : ∀ a ∈ pages, ∃ data, a.2 = .available data ∧ data.length = w.pageSize ∧
      a.1 ∈ w.used) :
    (writePages pages).Sat (writer env) X w fun _ w' =>
      w' = { w with view := written w.view pages } := by
  induction pages generalizing w with
  | nil => exact rfl
  | cons a rest ih =>
    obtain ⟨id, slot⟩ := a
    obtain ⟨data, hslot, hlength, hused⟩ := hpages _ List.mem_cons_self
    dsimp only at hslot hused
    subst hslot
    have hid : id ≠ headerPageId := fun heq => hheader (heq ▸ hused)
    obtain ⟨hnotMem, hkeys'⟩ := List.nodup_cons.mp hkeys
    rw [writePages, Program.sat_bind]
    refine ⟨⟨v, hphase, ?_⟩, fun _ w' hpost => ?_⟩
    · rw [if_neg hid]
      exact ⟨hused, hlength⟩
    · have hw' : w' = w.setPage id data := by
        have hpost' : WriterPost w (.writePage id data) () w' := hpost
        simpa only [WriterPost, hphase, if_neg hid] using hpost'
      subst hw'
      rw [Program.sat_ret]
      refine (ih (w := w.setPage id data) hphase hheader hkeys' fun b hb => hpages b (List.mem_cons_of_mem _ hb)).mono ?_
      rintro _ w' rfl
      -- the pages that follow are other pages
      have hview : written (w.setPage id data).view rest =
          written w.view ((id, .available data) :: rest) := by
        funext x
        simp only [written, Work.setPage]
        by_cases hx : x = id
        · subst hx
          have hnone : contents rest x = none := contents_eq_none_of_notMem hnotMem
          rw [hnone, contents_cons_self, Function.update_self]
        · rw [contents_cons_of_ne hx, Function.update_of_ne hx]
      rw [hview]
      rfl

/-- Once all dirty pages are written, the pages are what the transaction sees. -/
theorem Builds.written {v : Version} (h : Builds env w tx v) (hinv : TxInv w tx)
    {pages : List (PageId × DirtyPageSlot)} (hperm : pages.Perm tx.dirtyPages) :
    written w.view pages = overlay tx w.view := by
  funext id
  rw [Kv.written, overlay, contents_perm hinv.sorted.nodup_keys hperm]
  change (match tx.slot id with
    | some (.available data) => some data
    | _ => w.view id) = _
  cases hslot : tx.slot id with
  | none => rfl
  | some slot =>
    obtain ⟨data, rfl, -⟩ := h.available hinv (mem_of_contents hslot)
    rfl

/-- Pages that are freed are no pages of the new version. -/
theorem Builds.notMem_of_freed {v : Version} (h : Builds env w tx v) (hinv : TxInv w tx)
    {id : PageId} (hid : id ∈ tx.freedPages) : id ∉ v.pages := by
  intro hv
  rcases h.spans.held id hv with ⟨data, hslot, -⟩ | ⟨-, -, hnot⟩
  · exact hinv.apart id (hinv.slots id (by rw [hslot]; rfl)) (hinv.freed id hid)
  · exact hnot hid

/-! ### Publishing -/

/-- A page of the size in the header takes the header, or a panic is an allowed end. -/
def Encodable (X : Fault → Prop) (header : DbHeader) : Prop :=
  Pod.size DbHeader ≤ header.pageSize.toNat ∧ header.pageSize.toNat < 2 ^ 63 ∨ X .panic

theorem encodable_panics (header : DbHeader) : Encodable Panics header := Or.inr panics_panic

theorem encodePage_returns {header : DbHeader} (h : Encodable X header) :
    Returns X header.encodePage fun page => page = headerPage header := by
  rw [DbHeader.encodePage, returns_bind, zeroed]
  split
  · next hsmall =>
    rw [returns_ok, writeDataAtOffset]
    split
    · rfl
    · next hroom =>
      refine h.resolve_left fun hsize => hroom ?_
      rw [Pod.length_encode, List.length_replicate, Nat.zero_add]
      exact hsize.1
  · next hlarge => exact h.resolve_left fun hsize => hlarge hsize.2

/-- Publishing a version all of whose pages are written. -/
theorem publish_sat {v : Version} (hphase : w.phase = .writing v) (hstands : v.Stands env w.view)
    (hnext : v.slot.nextPageId = w.next) (hencodable : Encodable X w.header) :
    (publish v.slot.rootPageId v.slot.rootPageChecksum v.slot.transactionId).Sat (writer env)
      X w fun _ w' => w' = w.swapTo v := by
  rw [publish]
  simp only [Program.sat_bind]
  refine ⟨trivial, fun header w₁ hpost => ?_⟩
  obtain ⟨rfl, hw₁⟩ : header = w.header ∧ w₁ = w := hpost
  subst w₁
  refine ⟨trivial, fun next w₁ hpost => ?_⟩
  obtain ⟨rfl, hw₁⟩ : next = w.next ∧ w₁ = w := hpost
  subst w₁
  rw [Program.sat_ret, Program.liftM_eq, Program.sat_ofExcept]
  have hcommit : Encodable X (w.header.withCommit v.slot.rootPageId v.slot.rootPageChecksum
      v.slot.transactionId w.next) := hencodable
  refine (encodePage_returns hcommit).mono ?_
  rintro page rfl
  have hheader : w.header.withCommit v.slot.rootPageId v.slot.rootPageChecksum
      v.slot.transactionId w.next = w.headerFor v := by
    rw [Work.headerFor, hnext]
  rw [hheader]
  -- the header page, the disk, and the snapshot
  refine ⟨⟨v, hphase, ?_⟩, fun _ w₁ hpost => ?_⟩
  · rw [if_pos rfl]
    exact ⟨rfl, hstands⟩
  have hw₁ : w₁ = { w with phase := .issued v } := by
    have hpost' : WriterPost w (.writePage headerPageId (headerPage (w.headerFor v))) () w₁ := hpost
    simpa only [WriterPost, hphase, if_pos] using hpost'
  subst hw₁
  refine ⟨⟨v, rfl⟩, fun _ w₁ hpost => ?_⟩
  obtain rfl : w₁ = { w with phase := .synced v } := hpost
  refine ⟨⟨v, rfl, rfl⟩, fun _ w₁ hpost => ?_⟩
  exact (hpost : w₁ = _)

/-- Freeing pages the published version has no use for. -/
theorem freePages_sat (env : Env) {old : Version} {released : List PageId}
    (hphase : w.phase = .published old released) {pages : List PageId} (hnodup : pages.Nodup)
    (hpages : ∀ id ∈ pages, id ∈ old.pages ∧ id ∉ w.base.pages ∧ id ∉ released) :
    (freePages w.base.slot.transactionId pages).Sat (writer env) X w fun _ w' =>
      w' = { w with phase := .published old (pages.reverse ++ released) } := by
  induction pages generalizing w released with
  | nil =>
    change w = { w with phase := .published old ([] ++ released) }
    rw [List.nil_append, ← hphase]
  | cons id rest ih =>
    -- each page is queued once, so the rest of the list is still to be released
    obtain ⟨hnotMem, hnodup'⟩ := List.nodup_cons.mp hnodup
    obtain ⟨hold, hbase, hreleased⟩ := hpages id List.mem_cons_self
    rw [freePages, Program.sat_bind]
    refine ⟨⟨old, released, hphase, hold, hbase, hreleased, rfl⟩, fun _ w₁ hpost => ?_⟩
    have hw₁ : w₁ = { w with phase := .published old (id :: released) } := by
      have hpost' : WriterPost w (.freePage id w.base.slot.transactionId) () w₁ := hpost
      simpa only [WriterPost, hphase] using hpost'
    subst hw₁
    rw [Program.sat_ret]
    refine (ih (w := { w with phase := .published old (id :: released) }) rfl hnodup'
      fun x hx => ?_).mono ?_
    · obtain ⟨hold, hbase, hreleased⟩ := hpages x (List.mem_cons_of_mem _ hx)
      refine ⟨hold, hbase, fun hmem => ?_⟩
      rcases List.mem_cons.mp hmem with rfl | hmem
      · exact hnotMem hx
      · exact hreleased hmem
    · rintro _ w' rfl
      rw [List.reverse_cons, List.append_assoc]
      rfl

/-- **Committing** makes the version the transaction has built the current one. -/
theorem commit_sat {v : Version} (hbuilds : Builds env w tx v) (hinv : TxInv w tx)
    (hheader : headerPageId ∉ w.base.pages) (hfailed : tx.failed = false)
    {pages : List (PageId × DirtyPageSlot)} (hperm : pages.Perm tx.dirtyPages)
    (hencodable : Encodable X w.header) :
    (tx.commit pages).Sat (writer env) X { w with phase := .writing v } fun _ w' =>
      w' = { ({ w with view := overlay tx w.view } : Work).swapTo v with
        phase := .published w.base tx.freedPages.reverse } := by
  have hslot := hbuilds.slot
  rw [WriteTransaction.commit, hfailed, if_neg Bool.false_ne_true]
  simp only [Program.sat_bind]
  -- the three parts of a commit, in the order of the source: pages, header, freed pages
  refine (writePages_sat (w := { w with phase := .writing v }) rfl hinv.header
    ((hperm.map Prod.fst).nodup_iff.mpr hinv.sorted.nodup_keys) fun a ha => ?_).mono ?_
  · exact hbuilds.available hinv (hperm.mem_iff.mp ha)
  rintro _ w₁ rfl
  rw [hbuilds.written hinv hperm]
  have hstands : v.Stands env (overlay tx w.view) := {
    tree := hbuilds.tree
    nodup := hbuilds.spans.nodup
    header := fun hmem =>
      ((hbuilds.spans.held _ hmem).owned hinv).elim hinv.header hheader }
  have hpublish := publish_sat (w := { w with view := overlay tx w.view, phase := .writing v })
    rfl hstands (by rw [hslot]) hencodable
  rw [hslot] at hpublish
  refine hpublish.mono ?_
  rintro _ w₂ rfl
  have hfree := freePages_sat env (X := X)
    (w := ({ w with view := overlay tx w.view, phase := .writing v } : Work).swapTo v) rfl
    hinv.nodup fun id hid =>
      ⟨hinv.freed id hid, hbuilds.notMem_of_freed hinv hid, List.not_mem_nil⟩
  have htransaction : (({ w with view := overlay tx w.view, phase := .writing v } :
      Work).swapTo v).base.slot.transactionId = tx.transaction := by
    rw [Work.swapTo, hslot]
  rw [htransaction] at hfree
  refine hfree.mono ?_
  rintro _ w₃ rfl
  rw [List.append_nil]
  rfl

end

end KvRaft.Kv
