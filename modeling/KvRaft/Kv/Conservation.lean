import KvRaft.Kv.Representation

/-!
# Where the pages are

Every page id below the next one is somewhere: in the current tree, waiting to be used
again, or in the hands of the write transaction. A commit gives the pages it has replaced
back (`Replaced`), so between transactions nothing is missing but what the transactions
dropped without a commit had been given: nothing in the code gives these pages back. The
ownership already says that no page is in two places; `Conserved` says that none is in no
place.
-/

namespace KvRaft.Kv

open Ordered

/-- The ids of the pages that are waiting to be used again. -/
def DatabaseState.pendingIds (db : DatabaseState) : List PageId :=
  db.allocator.pendingFreePages.map FreedPage.pageId

/-- The version a commit is writing. -/
def Phase.version : Phase → Option Version
  | .writing v => some v
  | .issued v => some v
  | .synced v => some v
  | _ => none

/-- A page of the version before the current one that has not been freed yet. -/
def Replaced : Phase → PageId → Prop
  | .published old released, id => id ∈ old.pages ∧ id ∉ released
  | _, _ => False

/-- Every page is somewhere, `lost` are the ones that are nowhere else. -/
structure Conserved (lost : List PageId) (db : DatabaseState) (w : Work) : Prop where
  placed : ∀ id, id ≠ headerPageId → id < w.next →
    id ∈ w.base.pages ∨ id ∈ db.pendingIds ∨ id ∈ w.used ∨ id ∈ lost ∨ Replaced w.phase id
  below : ∀ id ∈ lost, id < w.next
  nowhere : ∀ id ∈ lost, id ∉ w.base.pages ∧ id ∉ db.pendingIds ∧ id ∉ w.used ∧
    ¬ Replaced w.phase id
  /-- The commit writes all pages that were allocated. -/
  spent : ∀ v, w.phase.version = some v → ∀ id ∈ w.used, id ∈ v.pages

section

variable {env : Env} {db db' : DatabaseState} {w w' : Work} {lost : List PageId}

/-- Only the allocator matters. -/
theorem Conserved.congr (h : Conserved lost db w) (hallocator : db'.allocator = db.allocator) :
    Conserved lost db' w := by
  have hpending : db'.pendingIds = db.pendingIds := by
    rw [DatabaseState.pendingIds, hallocator]
    rfl
  exact ⟨by rw [hpending]; exact h.placed, h.below, by rw [hpending]; exact h.nowhere, h.spent⟩

/-- The phase matters only as far as it says what is replaced and what is written. -/
theorem Conserved.phase (h : Conserved lost db w) {phase : Phase} {view : View}
    (hold : ∀ id, ¬ Replaced w.phase id) (hnew : ∀ id, ¬ Replaced phase id)
    (hspent : ∀ v, phase.version = some v → ∀ id ∈ w.used, id ∈ v.pages) :
    Conserved lost db { w with phase, view } where
  placed id hheader hbelow := by
    rcases h.placed id hheader hbelow with hid | hid | hid | hid | hid
    · exact Or.inl hid
    · exact Or.inr (Or.inl hid)
    · exact Or.inr (Or.inr (Or.inl hid))
    · exact Or.inr (Or.inr (Or.inr (Or.inl hid)))
    · exact absurd hid (hold id)
  below := h.below
  nowhere id hid :=
    ⟨(h.nowhere id hid).1, (h.nowhere id hid).2.1, (h.nowhere id hid).2.2.1, hnew id⟩
  spent := hspent

/-- What `allocate_page_id` hands out: the first page of the queue, or the next page id. -/
theorem allocate_cases {id : PageId} (h : execute env .allocatePageId db = (.ok id, db')) :
    (db.pendingIds = id :: db'.pendingIds ∧
      db'.allocator.nextPageId = db.allocator.nextPageId) ∨
    (db'.pendingIds = db.pendingIds ∧ id = db.allocator.nextPageId ∧
      db'.allocator.nextPageId = db.allocator.nextPageId + 1 ∧
      db.allocator.nextPageId.toNat + 1 ≠ 2 ^ 64) := by
  rcases allocate_inv env db with ⟨e, rest, hreusable, hexec⟩ | ⟨fault, next, -, -, hexec⟩ |
    ⟨hoverflow, len, reservedPageCount, -, hexec⟩ <;> rw [hexec, Prod.mk.injEq] at h
  · obtain ⟨hid, rfl⟩ := h
    obtain rfl := Except.ok.inj hid
    refine Or.inl ⟨?_, rfl⟩
    rw [DatabaseState.pendingIds, (reusable_eq_some hreusable).1, List.map_cons]
    rfl
  · exact absurd h.1 (by simp)
  · obtain ⟨hid, rfl⟩ := h
    exact Or.inr ⟨rfl, (Except.ok.inj hid).symm, rfl, hoverflow⟩

/-- Allocating takes a page from the queue, or one that did not exist. -/
theorem Conserved.allocate {readers : List Version} (howned : Owned env db w readers [])
    (h : Conserved lost db w) (hphase : w.phase = .building) {id next : PageId}
    (hexec : execute env .allocatePageId db = (.ok id, db'))
    (hnext : next = db'.allocator.nextPageId) :
    Conserved lost db' { w with used := insert id w.used, next } := by
  have hnone : ∀ x, ¬ Replaced w.phase x := fun x => by
    rw [hphase]
    exact not_false
  subst hnext
  -- either the head of the queue is handed out again, or the next id, which no version has used
  rcases allocate_cases hexec with ⟨hqueue, hsame⟩ | ⟨hqueue, hid, hsucc, hoverflow⟩
  · rw [hsame, ← howned.next]
    refine ⟨fun x hheader hbelow => ?_, h.below, fun x hx => ?_, fun v hv => ?_⟩
    · rcases h.placed x hheader hbelow with hx | hx | hx | hx | hx
      · exact Or.inl hx
      · rw [hqueue, List.mem_cons] at hx
        rcases hx with rfl | hx
        · exact Or.inr (Or.inr (Or.inl (Set.mem_insert _ _)))
        · exact Or.inr (Or.inl hx)
      · exact Or.inr (Or.inr (Or.inl (Set.mem_insert_of_mem _ hx)))
      · exact Or.inr (Or.inr (Or.inr (Or.inl hx)))
      · exact absurd hx (hnone x)
    · obtain ⟨hbase, hpending, hused, hreplaced⟩ := h.nowhere x hx
      rw [hqueue, List.mem_cons, not_or] at hpending
      exact ⟨hbase, hpending.2, fun hin => (Set.mem_insert_iff.mp hin).elim hpending.1 hused,
        hreplaced⟩
    · rw [hphase] at hv
      exact absurd hv (by simp [Phase.version])
  · rw [hsucc, ← howned.next]
    rw [← howned.next] at hid hoverflow
    have hlt := lt_add_one_of_no_overflow hoverflow
    refine ⟨fun x hheader hbelow => ?_, fun x hx => (h.below x hx).trans hlt, fun x hx => ?_,
      fun v hv => ?_⟩
    · by_cases hx : x = id
      · exact Or.inr (Or.inr (Or.inl (hx ▸ Set.mem_insert _ _)))
      · have hbelow' : x < w.next := by
          rw [UInt64.lt_iff_toNat_lt, UInt64.toNat_add, UInt64.toNat_one] at hbelow
          have hne : x.toNat ≠ w.next.toNat := fun heq =>
            hx ((UInt64.toNat_inj.mp heq).trans hid.symm)
          have hsmall := w.next.toNat_lt
          rw [Nat.mod_eq_of_lt (by omega)] at hbelow
          rw [UInt64.lt_iff_toNat_lt]
          omega
        rw [hqueue]
        rcases h.placed x hheader hbelow' with hx | hx | hx | hx | hx
        · exact Or.inl hx
        · exact Or.inr (Or.inl hx)
        · exact Or.inr (Or.inr (Or.inl (Set.mem_insert_of_mem _ hx)))
        · exact Or.inr (Or.inr (Or.inr (Or.inl hx)))
        · exact absurd hx (hnone x)
    · obtain ⟨hbase, hpending, hused, hreplaced⟩ := h.nowhere x hx
      rw [hqueue]
      refine ⟨hbase, hpending, fun hin => ?_, hreplaced⟩
      rcases Set.mem_insert_iff.mp hin with rfl | hin
      · exact lt_irrefl _ (hid ▸ h.below _ hx)
      · exact hused hin
    · rw [hphase] at hv
      exact absurd hv (by simp [Phase.version])

/-- The pages of the version before are replaced, all others are where they were. -/
theorem Conserved.swap {readers : List Version} (howned : Owned env db w readers [])
    (h : Conserved lost db w) {v : Version} (hphase : w.phase = .synced v) {commit : CommitState} :
    Conserved lost { db with commit } (w.swapTo v) := by
  have hplanned := howned.phase
  rw [hphase] at hplanned
  have hspent := h.spent v (by rw [hphase]; rfl)
  refine ⟨fun id hheader hbelow => ?_, h.below, fun id hid => ?_, fun v' hv' => ?_⟩
  · rcases h.placed id hheader hbelow with hid | hid | hid | hid | hid
    · exact Or.inr (Or.inr (Or.inr (Or.inr ⟨hid, List.not_mem_nil⟩)))
    · exact Or.inr (Or.inl hid)
    · exact Or.inl (hspent id hid)
    · exact Or.inr (Or.inr (Or.inr (Or.inl hid)))
    · rw [hphase] at hid
      exact hid.elim
  · obtain ⟨hbase, hpending, hused, -⟩ := h.nowhere id hid
    exact ⟨fun hin => (hplanned.1.pages id hin).elim hbase hused, hpending, Set.notMem_empty id,
      fun hin => hbase hin.1⟩
  · exact absurd hv' (by simp [Work.swapTo, Phase.version])

/-- A replaced page goes to the queue. -/
theorem Conserved.freePage (h : Conserved lost db w) {old : Version} {released : List PageId}
    (hphase : w.phase = .published old released) {id : PageId} (hold : id ∈ old.pages)
    (hreleased : id ∉ released) (transaction : TransactionId) :
    Conserved lost
      { db with allocator := PageAllocator.freePage db.allocator id transaction }
      { w with phase := .published old (id :: released) } := by
  have hpending : ({ db with allocator := PageAllocator.freePage db.allocator id transaction } :
      DatabaseState).pendingIds = db.pendingIds ++ [id] := by
    rw [DatabaseState.pendingIds, PageAllocator.freePage, List.map_append]
    rfl
  have hreplaced : Replaced w.phase id := by
    rw [hphase]
    exact ⟨hold, hreleased⟩
  refine ⟨fun x hheader hbelow => ?_, h.below, fun x hx => ?_, fun v hv => ?_⟩
  · rw [hpending, List.mem_append, List.mem_singleton]
    rcases h.placed x hheader hbelow with hx | hx | hx | hx | hx
    · exact Or.inl hx
    · exact Or.inr (Or.inl (Or.inl hx))
    · exact Or.inr (Or.inr (Or.inl hx))
    · exact Or.inr (Or.inr (Or.inr (Or.inl hx)))
    · rw [hphase] at hx
      -- the page that is freed now is queued; the other replaced pages are still to be freed
      by_cases heq : x = id
      · exact Or.inr (Or.inl (Or.inr heq))
      · exact Or.inr (Or.inr (Or.inr (Or.inr ⟨hx.1, fun hin =>
          (List.mem_cons.mp hin).elim heq hx.2⟩)))
  · obtain ⟨hbase, hnot, hused, hnotReplaced⟩ := h.nowhere x hx
    rw [hpending, List.mem_append, List.mem_singleton, not_or]
    refine ⟨hbase, ⟨hnot, fun heq => hnotReplaced (heq ▸ hreplaced)⟩, hused, fun hin => ?_⟩
    rw [hphase] at hnotReplaced
    exact hnotReplaced ⟨hin.1, fun hmem => hin.2 (List.mem_cons_of_mem _ hmem)⟩
  · exact absurd hv (by simp [Phase.version])

/-- **No operation loses a page.** -/
theorem conserved_stable (env : Env) (lost : List PageId) : Stable env (Conserved lost) := by
  intro db w readers o a db' w' howned h hpre hexec hpost howned'
  -- Only an allocation, a release and the swap of the header move a page from one place to
  -- another; every other operation leaves the places as they are.
  cases o with
  | readPage id =>
    obtain ⟨rfl, -⟩ := hpost
    obtain ⟨-, rfl⟩ := Prod.mk.inj hexec
    exact h.congr rfl
  | writePage id data =>
    obtain ⟨v, hphase, -⟩ := hpre
    obtain ⟨-, rfl⟩ := Prod.mk.inj hexec
    have hnone : ∀ id, ¬ Replaced w.phase id := fun id => by
      rw [hphase]
      exact not_false
    have hspent := h.spent v (by rw [hphase]; rfl)
    simp only [WriterPost, hphase] at hpost
    suffices h' : Conserved lost db w' from h'.congr rfl
    split at hpost
    · subst hpost
      exact h.phase hnone (fun _ => not_false) fun v' hv' => Option.some.inj hv' ▸ hspent
    · subst hpost
      refine h.phase hnone hnone fun v' hv' => ?_
      rw [hphase] at hv'
      exact Option.some.inj hv' ▸ hspent
  | removePage id =>
    obtain rfl : w' = w := hpost
    obtain ⟨-, rfl⟩ := Prod.mk.inj hexec
    exact h.congr rfl
  | syncData =>
    obtain ⟨v, hphase⟩ := hpre
    obtain ⟨-, rfl⟩ := Prod.mk.inj hexec
    have hspent := h.spent v (by rw [hphase]; rfl)
    simp only [WriterPost, hphase] at hpost
    subst hpost
    suffices h' : Conserved lost db _ from h'.congr rfl
    refine h.phase (fun id => ?_) (fun _ => not_false) fun v' hv' => Option.some.inj hv' ▸ hspent
    rw [hphase]
    exact not_false
  | allocatePageId =>
    obtain ⟨-, -, -, next, rfl⟩ := hpost
    exact h.allocate howned hpre hexec howned'.next
  | nextPageId =>
    obtain ⟨-, rfl⟩ := hpost
    obtain ⟨-, rfl⟩ := Prod.mk.inj hexec
    exact h
  | freePage id transaction =>
    obtain ⟨old, released, hphase, hold, -, hreleased, -⟩ := hpre
    obtain ⟨-, rfl⟩ := Prod.mk.inj hexec
    simp only [WriterPost, hphase] at hpost
    subst hpost
    exact h.freePage hphase hold hreleased transaction
  | loadHeader =>
    obtain ⟨-, rfl⟩ := hpost
    obtain ⟨-, rfl⟩ := Prod.mk.inj hexec
    exact h
  | swap header =>
    obtain ⟨v, hphase, -⟩ := hpre
    obtain ⟨-, rfl⟩ := Prod.mk.inj hexec
    simp only [WriterPost, hphase] at hpost
    subst hpost
    exact h.swap howned hphase
  | loadSnapshot => exact hpre.elim
  | register transaction => exact hpre.elim
  | deregister transaction => exact hpre.elim

/-- Publishing frees every page the new version has no use for. -/
theorem Builds.restart_conserved {tx : WriteTransaction} {v : Version}
    (hbuilds : Builds env w tx v) (h : Conserved lost db (w.publishes tx v)) :
    Conserved lost db (w.publishes tx v).restart := by
  refine ⟨fun id hheader hbelow => ?_, h.below, fun id hid => ?_, fun v' hv' => ?_⟩
  · rcases h.placed id hheader hbelow with hid | hid | hid | hid | ⟨hold, hnot⟩
    · exact Or.inl hid
    · exact Or.inr (Or.inl hid)
    · exact absurd hid (Set.notMem_empty id)
    · exact Or.inr (Or.inr (Or.inr (Or.inl hid)))
    · rw [List.mem_reverse] at hnot
      exact Or.inl ((hbuilds.spans.base id hold).resolve_right hnot)
  · obtain ⟨hbase, hpending, hused, -⟩ := h.nowhere id hid
    exact ⟨hbase, hpending, hused, not_false⟩
  · exact absurd hv' (by simp [Work.restart, Phase.version])

/-- The dirty pages of a transaction are the pages that were allocated to it. -/
theorem TxOk.mem_used {tx : WriteTransaction} {m : Key → Option Value} (h : TxOk env w tx m)
    {id : PageId} : id ∈ w.used ↔ id ∈ tx.dirtyPages.map Prod.fst := by
  refine ⟨fun hid => ?_, fun hid => ?_⟩
  · obtain ⟨d, ps, -, hspans⟩ := h.tree
    rcases hspans.held id (hspans.used id hid) with ⟨data, hslot, -⟩ | ⟨-, hbase, -⟩
    · exact List.mem_map_of_mem (mem_of_contents hslot)
    · exact absurd hbase (h.inv.apart id hid)
  · obtain ⟨a, ha, rfl⟩ := List.mem_map.mp hid
    refine h.inv.slots a.1 ?_
    rw [WriteTransaction.slot, contents_of_mem_of_nodup h.inv.sorted.nodup_keys ha]
    rfl

/-- The pages of a transaction that is dropped are lost. -/
theorem Conserved.dropped {readers : List Version} (howned : Owned env db w readers [])
    (h : Conserved lost db w) {tx : WriteTransaction} {m : Key → Option Value}
    (hok : TxOk env w tx m) :
    Conserved (lost ++ tx.dirtyPages.map Prod.fst) db w.restart := by
  have hnone : ∀ id, ¬ Replaced w.phase id := fun id => by
    rw [hok.inv.phase]
    exact not_false
  refine ⟨fun id hheader hbelow => ?_, fun id hid => ?_, fun id hid => ?_, fun v' hv' => ?_⟩
  · rw [List.mem_append, ← hok.mem_used]
    rcases h.placed id hheader hbelow with hid | hid | hid | hid | hid
    · exact Or.inl hid
    · exact Or.inr (Or.inl hid)
    · exact Or.inr (Or.inr (Or.inr (Or.inl (Or.inr hid))))
    · exact Or.inr (Or.inr (Or.inr (Or.inl (Or.inl hid))))
    · exact absurd hid (hnone id)
  · rw [List.mem_append, ← hok.mem_used] at hid
    exact hid.elim (h.below id) fun hid => (howned.used id hid).below
  · rw [List.mem_append, ← hok.mem_used] at hid
    rcases hid with hid | hid
    · obtain ⟨hbase, hpending, -⟩ := h.nowhere id hid
      exact ⟨hbase, hpending, Set.notMem_empty id, not_false⟩
    · refine ⟨(howned.used id hid).base, fun hin => ?_, Set.notMem_empty id, not_false⟩
      obtain ⟨e, he, rfl⟩ := List.mem_map.mp hin
      exact (howned.waiting e he).used hid
  · exact absurd hv' (by simp [Work.restart, Phase.version])

end

/-! ### Sessions -/

namespace Session

/-- A session in which no page is lost but those of dropped transactions. -/
structure Conserves (env : Env) (s : Session) (w : Work)
    (rs : List (Version × List (Key × Value))) : Prop where
  follows : Follows env s w rs
  conserved : Conserved s.dropped s.db w
  building : w.phase = .building
  idle : s.writer = none → w.used = ∅

section

variable {env : Env} {s s' : Session} {w : Work} {rs : List (Version × List (Key × Value))}

theorem Follows.restart (h : Follows env s w rs) (hwriter : s.writer = none) :
    Follows env s w.restart rs where
  owned := h.owned.restart
  readers := h.readers
  snapshots := h.snapshots
  committed := h.committed
  writer tx inserts heq := absurd heq (by simp [hwriter])

/-- **Every call keeps it.** -/
theorem Conserves.step (henv : env.debugAssertions = true) (h : Conserves env s w rs)
    (hstep : Step env s s') : ∃ w' rs', Conserves env s' w' rs' := by
  cases hstep with
  | beginRead hrun =>
    obtain ⟨hfollows, hsame⟩ := h.follows.beginRead hrun
    exact ⟨w, _, hfollows, h.conserved.congr hsame.allocator, h.building, h.idle⟩
  | read hreader hrun =>
    obtain ⟨hfollows, hsame⟩ := h.follows.read hreader hrun
    exact ⟨w, rs, hfollows, h.conserved.congr hsame.allocator, h.building, h.idle⟩
  | dropReader hreader hrun =>
    obtain ⟨rs', hfollows, hsame⟩ := h.follows.dropReader hreader hrun
    exact ⟨w, rs', hfollows, h.conserved.congr hsame.allocator, h.building, h.idle⟩
  | beginWrite hwriter hrun =>
    obtain ⟨rfl, hfollows⟩ := h.follows.beginWrite hrun
    -- there is nothing to give up
    have hrestart : w.restart = w := by
      rw [Work.restart, ← h.idle hwriter, ← h.building]
    rw [hrestart] at hfollows
    exact ⟨w, rs, hfollows, h.conserved, h.building, fun heq => absurd heq (by simp)⟩
  | insert hwriter hrun =>
    obtain ⟨w', hfollows, hconserved⟩ := h.follows.insert (guarded_debug henv _ _)
      (conserved_stable env s.dropped) h.conserved hwriter hrun
    exact ⟨w', rs, hfollows, hconserved, (hfollows.writer _ _ rfl).ok.inv.phase,
      fun heq => absurd heq (by simp)⟩
  | commit hwriter hpages hrun =>
    have hnone : ∀ id, ¬ Replaced w.phase id := fun id => by
      rw [h.building]
      exact not_false
    obtain ⟨v, hbuilds, hconserved, hfollows⟩ := h.follows.commit
      (conserved_stable env s.dropped) hwriter (fun v hbuilds => h.conserved.phase hnone
        (fun _ => not_false) fun v' hv' => Option.some.inj hv' ▸ hbuilds.spans.used) hpages hrun
    exact ⟨_, rs, hfollows.restart rfl, hbuilds.restart_conserved hconserved, rfl, fun _ => rfl⟩
  | dropWriter hwriter =>
    have hworking := h.follows.writer _ _ hwriter
    exact ⟨w.restart, rs, h.follows.dropWriter.restart rfl,
      h.conserved.dropped h.follows.owned hworking.ok, rfl, fun _ => rfl⟩

end

end Session

section

variable {env : Env} {db : DatabaseState} {w : Work} {readers : List Version}

/-- The current tree can be decoded; its pages are those of the current version. -/
theorem Owned.decode_current (h : Owned env db w readers []) :
    ∃ t : Node, ((Tree.decode maxDepth db.commit.snapshot.1).run (execute env) db).1 = .ok t ∧
      t.pageIds = w.base.pages := by
  have hroot : db.commit.snapshot.1 = w.base.slot.rootPageId := by
    rw [h.commit, CommitState.new, h.slot]
  rw [hroot]
  exact h.decode h.stands

end

end KvRaft.Kv
