import KvRaft.Kv.Usage

/-!
# The front of the free queue

`allocate_page_id` looks at the front of the queue only, and compares it with the smallest
transaction id in the tracker. That is as good as looking at all queued pages and all read
transactions (`front_of_queue_suffices`), since the queue is sorted by transaction id and the
tracker's first key is the smallest id of a read transaction (`Orderly`).

Neither depends on what is in the pages. A commit queues its pages under the id of its
transaction, which is later than that of the header it replaces, and all queued pages are as
old as the header in memory at most (`Queued`). A commit that fails leaves the header, so the next
transaction has the same id, and the queue. That an insertion does nothing to the queue but
allocate is read off its code (`Mild`).
-/

namespace KvRaft.Kv

open Ordered

/-! ### The property -/

/-- The queue is sorted, and the tracker knows the oldest of the readers. -/
structure Orderly (db : DatabaseState) (readers : List ReadTransaction) : Prop where
  sorted : db.allocator.pendingFreePages.Pairwise fun a b => a.transactionId ≤ b.transactionId
  oldest : ∀ t, ReadTracker.oldestActiveTransaction db.readTracker = some t ↔
    IsLeast {x | x ∈ readers.map ReadTransaction.transaction} t

/-- An allocation takes nothing from the queue; if it returns a page id, that is the next one. -/
def Event.TakesFresh (event : Event) : Prop :=
  event.after.db.allocator.pendingFreePages = event.before.db.allocator.pendingFreePages ∧
    ∀ pageId ∈ event.allocated, pageId = event.before.db.allocator.nextPageId

/-- What holds when an operation is performed while there are these readers. -/
structure FrontSuffices (readers : List ReadTransaction) (event : Event) : Prop where
  orderly : Orderly event.before.db readers
  fresh : event.op = .allocatePageId → (event.TakesFresh ↔
    ∀ page ∈ event.before.db.allocator.pendingFreePages,
      ∃ r ∈ readers, r.transaction ≤ page.transactionId)

/-! ### What a call may do to the queue -/

/-- The protocol of a call of the write transaction `t`, before and after it has published its
version: it allocates before, and frees pages after. -/
def queueing (t : TransactionId) : Protocol signature Bool where
  pre published
    | .allocatePageId => published = false
    | .freePage _ transaction => published = true ∧ transaction = t
    | .swap header => header.currentSlot.transactionId = t
    | .register _ => False
    | .deregister _ => False
    | _ => True
  post published o _ published' :=
    match o with
    | .swap _ => published' = true
    | _ => published' = published

/-- The queue, the header and the tracker while the write transaction `t` is at work. -/
structure Queued (readers : List ReadTransaction) (t : TransactionId) (db : DatabaseState)
    (published : Bool) : Prop where
  tracked : Tracks db.readTracker (readers.map ReadTransaction.transaction)
  sorted : db.allocator.pendingFreePages.Pairwise fun a b => a.transactionId ≤ b.transactionId
  le : ∀ page ∈ db.allocator.pendingFreePages,
    page.transactionId ≤ db.commit.header.currentSlot.transactionId
  later : published = false → db.commit.header.currentSlot.transactionId < t
  current : published = true → db.commit.header.currentSlot.transactionId = t

/-- Nothing has happened to the queue, the header and the tracker. -/
structure SameQueue (db db' : DatabaseState) : Prop where
  queue : db'.allocator.pendingFreePages = db.allocator.pendingFreePages
  header : db'.commit.header = db.commit.header
  tracker : db'.readTracker = db.readTracker

section

variable {env : Env} {readers : List ReadTransaction} {t : TransactionId}
  {db db' : DatabaseState} {published : Bool}

theorem Queued.orderly (h : Queued readers t db published) : Orderly db readers :=
  ⟨h.sorted, fun _ => h.tracked.oldest_eq_some⟩

theorem Queued.congr (h : Queued readers t db published) (hsame : SameQueue db db') :
    Queued readers t db' published where
  tracked := hsame.tracker ▸ h.tracked
  sorted := hsame.queue ▸ h.sorted
  le page hpage := by
    rw [hsame.header]
    exact h.le page (hsame.queue ▸ hpage)
  later := hsame.header ▸ h.later
  current := hsame.header ▸ h.current

/-- Input or output that fails costs a page id at most. -/
theorem sameQueue_afterIoError {o : Op} {k : ℕ} (hafter : afterIoError env k db o = some db') :
    SameQueue db db' := by
  cases o with
  | readPage pageId =>
    obtain ⟨pageIo, rfl, -⟩ := keeps_failedRead hafter
    exact ⟨rfl, rfl, rfl⟩
  | writePage pageId data =>
    rw [afterIoError] at hafter
    split at hafter
    · exact absurd hafter (by simp)
    split at hafter
    · obtain rfl := Option.some.inj hafter
      exact ⟨rfl, rfl, rfl⟩
    · exact absurd hafter (by simp)
  | syncData =>
    obtain rfl := Option.some.inj hafter
    exact ⟨rfl, rfl, rfl⟩
  | allocatePageId =>
    rw [afterIoError] at hafter
    split at hafter
    · exact absurd hafter (by simp)
    dsimp only at hafter
    split at hafter
    · exact absurd hafter (by simp)
    split at hafter
    · obtain rfl := Option.some.inj hafter
      exact ⟨rfl, rfl, rfl⟩
    · exact absurd hafter (by simp)
  | removePage pageId => exact absurd hafter (by simp [afterIoError])
  | nextPageId => exact absurd hafter (by simp [afterIoError])
  | freePage pageId transaction => exact absurd hafter (by simp [afterIoError])
  | loadSnapshot => exact absurd hafter (by simp [afterIoError])
  | register transaction => exact absurd hafter (by simp [afterIoError])
  | deregister transaction => exact absurd hafter (by simp [afterIoError])
  | loadHeader => exact absurd hafter (by simp [afterIoError])
  | swap header => exact absurd hafter (by simp [afterIoError])

/-- The pages that are left are those behind the front. -/
theorem Queued.allocate (h : Queued readers t db published) :
    Queued readers t (execute env .allocatePageId db).2 published := by
  rcases allocate_inv env db with ⟨page, rest, hreusable, hexec⟩ | ⟨fault, next, -, -, hexec⟩ |
    ⟨-, len, reservedPageCount, -, hexec⟩ <;> rw [hexec]
  · have hqueue := (reusable_eq_some hreusable).1
    have hsorted := h.sorted
    rw [hqueue] at hsorted
    exact { h with
      sorted := hsorted.of_cons
      le := fun page' hpage' => h.le page' (hqueue ▸ List.mem_cons_of_mem _ hpage') }
  · exact h.congr ⟨rfl, rfl, rfl⟩
  · exact h.congr ⟨rfl, rfl, rfl⟩

/-- A page that is freed is queued behind pages that are not younger. -/
theorem Queued.freePage (h : Queued readers t db true) (pageId : PageId) :
    Queued readers t (execute env (.freePage pageId t) db).2 true := by
  have hcurrent := h.current rfl
  have hle : ∀ page ∈ db.allocator.pendingFreePages, page.transactionId ≤ t := fun page hpage =>
    hcurrent ▸ h.le page hpage
  refine { h with sorted := ?_, le := fun page hpage => ?_ }
  · refine List.pairwise_append.mpr ⟨h.sorted, List.pairwise_singleton _ _, fun page hpage new hnew => ?_⟩
    rw [List.mem_singleton.mp hnew]
    exact hle page hpage
  · rcases List.mem_append.mp hpage with hpage | hpage
    · exact h.le page hpage
    · rw [List.mem_singleton.mp hpage]
      exact hcurrent.ge

/-- The header of a later version takes the place of the old one. -/
theorem Queued.swap (h : Queued readers t db published) {header : DbHeader}
    (hheader : header.currentSlot.transactionId = t) :
    Queued readers t (execute env (.swap header) db).2 true where
  tracked := h.tracked
  sorted := h.sorted
  le page hpage := by
    refine (h.le page hpage).trans ?_
    change _ ≤ header.currentSlot.transactionId
    rw [hheader]
    cases published with
    | false => exact (h.later rfl).le
    | true => exact (h.current rfl).le
  later heq := absurd heq (by simp)
  current _ := hheader

/-- **The device honours the protocol**, whatever fails. -/
theorem queueing_honours (env : Env) (readers : List ReadTransaction) (t : TransactionId) :
    (faulty env).Honours (queueing t)
      (fun _ d => ∃ published, Queued readers t d.db published)
      fun d published => Queued readers t d.db published := by
  intro d published o h hpre
  rcases faulty_cases env o d with ⟨k, db', hafter, hop⟩ | hop
  · rw [hop]
    exact ⟨published, h.congr (sameQueue_afterIoError hafter)⟩
  · -- the state after the operation, whether it has succeeded or not
    have hafter : ∃ published', Queued readers t (execute env o d.db).2 published' ∧
        ∀ a, (queueing t).post published o a published' := by
      cases o with
      | allocatePageId => exact ⟨published, h.allocate, fun _ => rfl⟩
      | freePage pageId transaction =>
        obtain ⟨rfl, rfl⟩ := hpre
        exact ⟨true, h.freePage pageId, fun _ => rfl⟩
      | swap header => exact ⟨true, h.swap hpre, fun _ => rfl⟩
      | register transaction => exact hpre.elim
      | deregister transaction => exact hpre.elim
      | readPage pageId => exact ⟨published, h.congr ⟨rfl, rfl, rfl⟩, fun _ => rfl⟩
      | writePage pageId data => exact ⟨published, h.congr ⟨rfl, rfl, rfl⟩, fun _ => rfl⟩
      | removePage pageId => exact ⟨published, h.congr ⟨rfl, rfl, rfl⟩, fun _ => rfl⟩
      | syncData => exact ⟨published, h.congr ⟨rfl, rfl, rfl⟩, fun _ => rfl⟩
      | nextPageId => exact ⟨published, h, fun _ => rfl⟩
      | loadSnapshot => exact ⟨published, h, fun _ => rfl⟩
      | loadHeader => exact ⟨published, h, fun _ => rfl⟩
    obtain ⟨published', hqueued, hpost⟩ := hafter
    rw [hop]
    cases hresult : (execute env o d.db).1 with
    | error e => exact ⟨published', hqueued⟩
    | ok a => exact ⟨published', hpost a, hqueued⟩

end

/-! ### What the calls do -/

/-- Code of an insertion: it does nothing to the queue but allocate, and the transaction keeps
its id. -/
def Mild {α : Type} (call : WriteCall α) : Prop :=
  ∀ tx t, (call.run tx).Sat (queueing t) (fun _ => True) false fun r published =>
    published = false ∧ r.2.transaction = tx.transaction

section

variable {α β : Type}

theorem Mild.bind {call : WriteCall α} {f : α → WriteCall β} (h : Mild call) (hf : ∀ a, Mild (f a)) :
    Mild (call >>= f) := by
  intro tx t
  rw [run_bind_sat]
  refine (h tx t).mono ?_
  rintro ⟨a, tx'⟩ published ⟨rfl, htx'⟩
  refine (hf a tx' t).mono ?_
  rintro ⟨b, tx''⟩ published ⟨rfl, htx''⟩
  exact ⟨rfl, htx''.trans htx'⟩

theorem mild_pure (a : α) : Mild (pure a) := fun _ _ => ⟨rfl, rfl⟩

theorem mild_stop (e : Fault) : Mild (stop e : WriteCall α) := fun _ _ => trivial

theorem mild_get : Mild (get : WriteCall WriteTransaction) := fun _ _ => ⟨rfl, rfl⟩

theorem mild_modify {f : WriteTransaction → WriteTransaction}
    (hf : ∀ tx, (f tx).transaction = tx.transaction) : Mild (modify f : WriteCall PUnit) :=
  fun tx _ => ⟨rfl, hf tx⟩

theorem mild_except (r : Except Fault α) : Mild (liftM r : WriteCall α) := by
  intro tx t
  rw [run_except_sat]
  cases r with
  | error e => exact trivial
  | ok a => exact ⟨rfl, rfl⟩

theorem mild_readPage (pageId : PageId) : Mild (liftM (readPage pageId) : WriteCall Bytes) := by
  intro tx t
  rw [run_call_sat]
  exact ⟨trivial, fun _ _ hpost => ⟨hpost, rfl⟩⟩

theorem mild_allocateZeroed : Mild allocateZeroed := by
  refine Mild.bind (fun tx t => ?_) fun pageId => Mild.bind (fun tx t => ?_) fun _ =>
    mild_get.bind fun tx => (mild_except _).bind fun data => mild_pure _
  · rw [run_call_sat]
    exact ⟨rfl, fun _ _ hpost => ⟨hpost, rfl⟩⟩
  · rw [run_call_sat]
    exact ⟨trivial, fun _ _ hpost => ⟨hpost, rfl⟩⟩

theorem mild_addPage (page : PageMut) : Mild (addPage page) := by
  intro tx t
  rw [addPage, run_bind_sat, run_get_sat]
  dsimp only
  split
  · exact trivial
  · exact ⟨rfl, rfl⟩

theorem mild_allocatePage : Mild allocatePage := mild_allocateZeroed.bind mild_addPage

theorem mild_returnPage (page : PageMut) : Mild (returnPage page) := by
  intro tx t
  rw [returnPage, run_bind_sat, run_get_sat]
  dsimp only
  split
  · exact ⟨rfl, rfl⟩
  · exact trivial

theorem mild_cowPage (pageId : PageId) : Mild (cowPage pageId) := by
  rw [cowPage]
  refine mild_get.bind fun tx => ?_
  split
  · intro tx t
    rw [checkOut, run_bind_sat, run_get_sat]
    dsimp only
    split
    · exact ⟨rfl, rfl⟩
    · exact trivial
  · refine (mild_readPage pageId).bind fun oldPage => mild_allocateZeroed.bind fun page => ?_
    refine (mild_except _).bind fun page => Mild.bind ?_ fun _ => mild_addPage page
    exact mild_modify fun _ => rfl

theorem mild_replace (env : Env) (page : PageMut) : Mild (Tree.replace env page) :=
  (mild_returnPage page).bind fun _ => mild_pure _

theorem mild_splitLeaf (env : Env) (page : PageMut) (key : Key) (value : Value) :
    Mild (Tree.splitLeaf env page key value) := by
  refine mild_allocatePage.bind fun rightPage => (mild_except _).bind fun leftScratch =>
    (mild_except _).bind fun builder => (mild_except _).bind fun built =>
      (mild_except _).bind fun page => ?_
  exact (mild_returnPage _).bind fun _ => (mild_returnPage _).bind fun _ => mild_pure _

theorem mild_splitBranch (env : Env) (page : PageMut) (childSplit : PageSplit) :
    Mild (Tree.splitBranch env page childSplit) := by
  refine mild_allocatePage.bind fun rightPage => (mild_except _).bind fun leftScratch =>
    (mild_except _).bind fun builder => (mild_except _).bind fun builder =>
      (mild_except _).bind fun built => (mild_except _).bind fun page => ?_
  exact (mild_returnPage _).bind fun _ => (mild_returnPage _).bind fun _ => mild_pure _

theorem mild_updateBranch (env : Env) (page : PageMut) (childIndex : ℕ) (result : InsertionResult) :
    Mild (Tree.updateBranch env page childIndex result) := by
  refine (mild_except _).bind fun data => ?_
  cases result.split with
  | none => exact mild_replace env _
  | some childSplit =>
    refine (mild_except _).bind fun fits => ?_
    split
    · exact (mild_except _).bind fun data => mild_replace env _
    · exact mild_splitBranch env _ childSplit

theorem mild_insertRecursive (env : Env) (depth : ℕ) (nodePageId : PageId) (key : Key)
    (value : Value) : Mild (Tree.insertRecursive env depth nodePageId key value) := by
  induction depth generalizing nodePageId with
  | zero => exact mild_stop _
  | succ depth ih =>
    refine (mild_cowPage nodePageId).bind fun page => (mild_except _).bind fun kind => ?_
    cases kind with
    | leaf =>
      refine (mild_except _).bind fun fits => ?_
      split
      · exact (mild_except _).bind fun data => mild_replace env _
      · exact mild_splitLeaf env page key value
    | branch =>
      refine (mild_except _).bind fun child => (ih child.2).bind fun result => ?_
      exact mild_updateBranch env page child.1 result

theorem mild_insert (env : Env) (key : Key) (value : Value) : Mild (Tree.insert env key value) := by
  refine mild_get.bind fun tx =>
    (mild_insertRecursive env maxDepth tx.rootPage key value).bind fun result => ?_
  cases result.split with
  | none => exact mild_modify fun _ => rfl
  | some split =>
    refine mild_allocatePage.bind fun page => (mild_except _).bind fun data => ?_
    refine Mild.bind ?_ fun _ => mild_returnPage _
    exact mild_modify fun _ => rfl

end

/-- **An insertion** does nothing to the queue but allocate. -/
theorem insert_queueing (env : Env) (tx : WriteTransaction) (key : Key) (value : Value) :
    (tx.insert env key value).Sat (queueing tx.transaction) (fun _ => True) false
      fun tx' published => published = false ∧ tx'.transaction = tx.transaction := by
  rw [WriteTransaction.insert]
  split
  · exact trivial
  · rw [Program.sat_bind]
    exact mild_insert env key value tx tx.transaction

theorem writePages_queueing (t : TransactionId) (pages : List (PageId × DirtyPageSlot)) :
    (writePages pages).Sat (queueing t) (fun _ => True) false fun _ published =>
      published = false := by
  induction pages with
  | nil => exact rfl
  | cons page rest ih =>
    obtain ⟨pageId, slot⟩ := page
    cases slot with
    | checkedOut => exact trivial
    | available data =>
      refine ⟨trivial, fun _ published hpost => ?_⟩
      obtain rfl : published = false := hpost
      exact ih

theorem freePages_queueing (t : TransactionId) (pages : List PageId) :
    (freePages t pages).Sat (queueing t) (fun _ => True) true fun _ _ => True := by
  induction pages with
  | nil => exact trivial
  | cons pageId rest ih =>
    refine ⟨⟨rfl, rfl⟩, fun _ published hpost => ?_⟩
    obtain rfl : published = true := hpost
    exact ih

/-- **A commit** publishes its version, and then frees pages under its id. -/
theorem commit_queueing (tx : WriteTransaction) (pages : List (PageId × DirtyPageSlot)) :
    (tx.commit pages).Sat (queueing tx.transaction) (fun _ => True) false fun _ _ => True := by
  rw [WriteTransaction.commit]
  split
  · exact trivial
  rw [Program.sat_bind]
  refine (writePages_queueing _ pages).mono ?_
  rintro _ published rfl
  rw [Program.sat_bind, publish]
  simp only [Program.sat_bind]
  refine ⟨trivial, fun header published hpost => ?_⟩
  obtain rfl : published = false := hpost
  refine ⟨trivial, fun next published hpost => ?_⟩
  obtain rfl : published = false := hpost
  rw [Program.sat_ret, Program.liftM_eq, Program.sat_ofExcept]
  cases DbHeader.encodePage _ with
  | error e => exact trivial
  | ok page =>
    refine ⟨trivial, fun _ published hpost => ?_⟩
    obtain rfl : published = false := hpost
    refine ⟨trivial, fun _ published hpost => ?_⟩
    obtain rfl : published = false := hpost
    refine ⟨congrArg CommitSlot.transactionId (currentSlot_withCommit _ _ _ _ _), fun _ published hpost => ?_⟩
    obtain rfl : published = true := hpost
    exact freePages_queueing _ _

/-! ### What the front of the queue decides -/

section

variable {env : Env} {readers : List ReadTransaction} {t : TransactionId} {d : Device}
  {published : Bool}

theorem reusable_eq_none {state : PageAllocatorState} {tracker : TransactionReaderCount}
    (h : PageAllocator.reusable state tracker = none) {page : FreedPage} {rest : List FreedPage}
    (hqueue : state.pendingFreePages = page :: rest) :
    (ReadTracker.oldestActiveTransaction tracker).getD (.ofNat (2 ^ 64 - 1)) ≤
      page.transactionId := by
  rw [PageAllocator.reusable, hqueue] at h
  dsimp only at h
  split at h
  · exact absurd h (by simp)
  · next hlt => exact not_lt.mp hlt

/-- Where the front cannot be used again, no queued page can. -/
theorem Queued.blocked (h : Queued readers t d.db false)
    (hnone : PageAllocator.reusable d.db.allocator d.db.readTracker = none) :
    ∀ page ∈ d.db.allocator.pendingFreePages, ∃ r ∈ readers, r.transaction ≤ page.transactionId := by
  intro page hpage
  cases hqueue : d.db.allocator.pendingFreePages with
  | nil =>
    rw [hqueue] at hpage
    exact absurd hpage List.not_mem_nil
  | cons front rest =>
    have hblocked := reusable_eq_none hnone hqueue
    have hfront : front.transactionId ≤ page.transactionId := by
      have hsorted := h.sorted
      rw [hqueue] at hpage hsorted
      rcases List.mem_cons.mp hpage with rfl | hpage
      · exact le_rfl
      · exact (List.pairwise_cons.mp hsorted).1 page hpage
    cases holdest : ReadTracker.oldestActiveTransaction d.db.readTracker with
    | some oldest =>
      -- some reader is as old as the front
      rw [holdest] at hblocked
      obtain ⟨r, hr, hid⟩ := List.mem_map.mp (h.tracked.oldest_eq_some.mp holdest).1
      exact ⟨r, hr, hid ▸ hblocked.trans hfront⟩
    | none =>
      -- without readers every queued page is old enough: its id is below that of the transaction
      rw [holdest] at hblocked
      have hle := h.le front (hqueue ▸ List.mem_cons_self)
      have hlt := UInt64.lt_iff_toNat_lt.mp (hblocked.trans_lt (hle.trans_lt (h.later rfl)))
      have hmax := t.toNat_lt
      change 2 ^ 64 - 1 < t.toNat at hlt
      omega

/-- **At every operation** the front of the queue speaks for the queue. -/
theorem Queued.front (h : Queued readers t d.db published) (o : Op)
    (hpre : (queueing t).pre published o) :
    FrontSuffices readers ⟨d, o, (faulty env o d).1, (faulty env o d).2⟩ := by
  refine ⟨h.orderly, fun ho => ?_⟩
  dsimp only at ho
  subst ho
  obtain rfl : published = false := hpre
  cases hreusable : PageAllocator.reusable d.db.allocator d.db.readTracker with
  | some taken =>
    obtain ⟨page, rest⟩ := taken
    obtain ⟨hqueue, hlt⟩ := reusable_eq_some hreusable
    have hafter : (faulty env .allocatePageId d).2.db.allocator.pendingFreePages = rest := by
      rcases faulty_cases env .allocatePageId d with ⟨k, db', hafter, -⟩ | hop
      · rw [afterIoError, hreusable] at hafter
        exact absurd hafter (by simp)
      · rw [hop, execute, PageAllocator.allocatePageId, hreusable]
    constructor
    · rintro ⟨hsame, -⟩
      have hlength := congrArg List.length (hafter.symm.trans hsame)
      dsimp only at hlength
      rw [hqueue, List.length_cons] at hlength
      omega
    · intro hblocked
      obtain ⟨r, hr, hle⟩ := hblocked page (hqueue ▸ List.mem_cons_self)
      have holdest := h.tracked.oldest_le (List.mem_map_of_mem hr) (.ofNat (2 ^ 64 - 1))
      exact absurd (hlt.trans_le (holdest.trans hle)) (lt_irrefl _)
  | none =>
    refine iff_of_true ?_ (h.blocked hreusable)
    rcases faulty_cases env .allocatePageId d with ⟨k, db', hafter, hop⟩ | hop
    · rw [hop]
      exact ⟨(sameQueue_afterIoError hafter).queue, fun pageId hid => absurd hid (by simp [Event.allocated])⟩
    · rw [hop]
      rcases allocate_inv env d.db with ⟨page, rest, hsome, -⟩ | ⟨fault, next, -, -, hexec⟩ |
        ⟨-, len, reservedPageCount, -, hexec⟩
      · exact absurd (hreusable.symm.trans hsome) (by simp)
      · rw [hexec]
        exact ⟨rfl, fun pageId hid => absurd hid (by simp [Event.allocated])⟩
      · rw [hexec]
        exact ⟨rfl, fun pageId hid => (Option.some.inj hid).symm⟩

/-- What a call of the write transaction `t` has done to the queue, and what the front of the
queue has decided on the way. -/
theorem Traces.queued {α : Type} {call : Call α} {Q : α → Bool → Prop} {db db' : DatabaseState}
    {failures : List (Option ℕ)} {result : Except Fault α} {log : List Event}
    (hrun : Traces env call db failures result db' log)
    (hsat : call.Sat (queueing t) (fun _ => True) false Q) (h : Queued readers t db false) :
    (∀ event ∈ log, FrontSuffices readers event) ∧ ∃ published, Queued readers t db' published ∧
      ∀ a, result = .ok a → Q a published := by
  obtain ⟨d', hrun, rfl⟩ := hrun
  have hhonours := (queueing_honours env readers t).events fun o hR hpre => hR.front o hpre
  have hresult := hsat.run hhonours (s := (⟨db, failures, []⟩, []))
    ⟨h, fun event hevent => absurd hevent List.not_mem_nil⟩
  rw [hrun] at hresult
  cases result with
  | ok a =>
    obtain ⟨published, hQ, hqueued, hevents⟩ := hresult
    refine ⟨hevents, published, hqueued, fun a' heq => ?_⟩
    obtain rfl := Except.ok.inj heq
    exact hQ
  | error e =>
    have hlost : (∃ published, Queued readers t d'.db published) ∧
        ∀ event ∈ log, FrontSuffices readers event :=
      hresult.elim (fun h => ⟨⟨h.2.choose, h.2.choose_spec.1⟩, h.2.choose_spec.2⟩) id
    obtain ⟨⟨published, hqueued⟩, hevents⟩ := hlost
    exact ⟨hevents, published, hqueued, fun a heq => absurd heq (by simp)⟩

end

/-! ### Along a run -/

/-- The queue between the calls. -/
structure Usage.Rests (s : Usage) : Prop where
  queued : Queued s.readers s.db.commit.header.currentSlot.transactionId s.db true
  /-- The open write transaction is later than the version it started from. -/
  writer : ∀ tx, s.writer = some tx → tx.failed = false →
    s.db.commit.header.currentSlot.transactionId < tx.transaction

section

variable {env : Env} {db : DatabaseState} {readers : List ReadTransaction} {t : TransactionId}
  {published : Bool} {s s' : Usage} {failures : List (Option ℕ)} {log : List Event}

/-- Between the calls it does not matter whose version it is. -/
theorem Queued.settle (h : Queued readers t db published) :
    Queued readers db.commit.header.currentSlot.transactionId db true :=
  { h with later := fun heq => absurd heq (by simp), current := fun _ => rfl }

theorem Usage.Rests.start (h : Usage.Rests s) {tx : WriteTransaction} (hwriter : s.writer = some tx)
    (hfailed : tx.failed = false) : Queued s.readers tx.transaction s.db false :=
  { h.queued with
    later := fun _ => h.writer tx hwriter hfailed
    current := fun heq => absurd heq (by simp) }

theorem Calm.front (h : Calm db log) (horderly : Orderly db readers) :
    ∀ event ∈ log, FrontSuffices readers event := by
  intro event hevent
  obtain ⟨hdb, hop⟩ := h event hevent
  exact ⟨hdb ▸ horderly, fun heq => absurd heq hop⟩

/-- **A call** keeps the queue in order, and at each of its operations the front decides. -/
theorem Usage.Rests.call (h : s.Rests) (hcall : s.Call env failures log s') :
    s'.Rests ∧ ∀ event ∈ log, FrontSuffices s.readers event := by
  cases hcall with
  | beginRead hrun =>
    obtain ⟨hbegin, hcalm⟩ := hrun.beginRead
    refine ⟨?_, hcalm.front h.queued.orderly⟩
    rw [beginRead_eq] at hbegin
    obtain ⟨rfl, rfl⟩ : _ ∧ _ := by simpa [Program.run, execute] using hbegin
    exact ⟨{ h.queued with tracked := h.queued.tracked.beginRead _ }, h.writer⟩
  | read hreader hrun =>
    obtain ⟨⟨pageCache, rfl⟩, hevents⟩ := hrun.read
    refine ⟨⟨h.queued.congr ⟨rfl, rfl, rfl⟩, h.writer⟩, fun event hevent => ?_⟩
    obtain ⟨⟨pageCache', hbefore⟩, pageId, hop⟩ := hevents event hevent
    have hsame : SameQueue s.db event.before.db := hbefore ▸ ⟨rfl, rfl, rfl⟩
    exact ⟨(h.queued.congr hsame).orderly, fun heq => absurd (heq.symm.trans hop) (by simp)⟩
  | dropReader hreader hrun =>
    obtain ⟨hdrop, hcalm⟩ := hrun.drop
    refine ⟨?_, hcalm.front h.queued.orderly⟩
    obtain rfl := (Prod.mk.inj hdrop).2
    have hperm := (List.perm_cons_erase hreader).map ReadTransaction.transaction
    exact ⟨{ h.queued with tracked := (h.queued.tracked.perm hperm.symm).drop }, h.writer⟩
  | beginWrite hwriter hrun =>
    obtain ⟨hbegin, hcalm⟩ := hrun.beginWrite
    obtain ⟨rfl, hlater, rfl⟩ := beginWrite_inv hbegin
    refine ⟨⟨h.queued, fun tx heq _ => ?_⟩, hcalm.front h.queued.orderly⟩
    obtain rfl := Option.some.inj heq
    exact hlater
  | @insert _ tx key value result db' hwriter hrun =>
    cases hfailed : tx.failed with
    | true =>
      obtain ⟨rfl, rfl, rfl⟩ := hrun.insert_refused hfailed
      refine ⟨⟨h.queued, fun tx' heq hfailed' => ?_⟩, fun event hevent => absurd hevent List.not_mem_nil⟩
      obtain rfl := Option.some.inj heq
      exact absurd hfailed' (by simp [WriteTransaction.invalidate])
    | false =>
      obtain ⟨hevents, published, hqueued, hresult⟩ :=
        hrun.queued (insert_queueing env tx key value) (h.start hwriter hfailed)
      refine ⟨⟨hqueued.settle, fun tx' heq hfailed' => ?_⟩, hevents⟩
      cases result with
      | ok tx'' =>
        obtain ⟨hpublished, htransaction⟩ := hresult tx'' rfl
        obtain rfl := Option.some.inj heq
        exact htransaction ▸ hqueued.later hpublished
      | error e =>
        cases e with
        | error e =>
          obtain rfl := Option.some.inj heq
          exact absurd hfailed' (by simp [WriteTransaction.invalidate])
        | _ => exact absurd heq (by simp [Usage.afterInsert])
  | @commit _ tx pages result db' hwriter hpages hrun =>
    cases hfailed : tx.failed with
    | true =>
      obtain ⟨rfl, rfl, rfl⟩ := hrun.commit_refused hfailed
      exact ⟨⟨h.queued, fun tx' heq => absurd heq (by simp)⟩,
        fun event hevent => absurd hevent List.not_mem_nil⟩
    | false =>
      obtain ⟨hevents, published, hqueued, -⟩ :=
        hrun.queued (commit_queueing tx pages) (h.start hwriter hfailed)
      exact ⟨⟨hqueued.settle, fun tx' heq => absurd heq (by simp)⟩, hevents⟩
  | dropWriter hwriter =>
    exact ⟨⟨h.queued, fun tx' heq => absurd heq (by simp)⟩,
      fun event hevent => absurd hevent List.not_mem_nil⟩

theorem JustOpened.parts (h : JustOpened env db) :
    ∃ pageIo header, db = Database.fromParts pageIo header := by
  rcases h with ⟨pageSize, evicts, h⟩ | ⟨fileHandler, evicts, h⟩
  · rw [Database.openNew, bind_eq_ok] at h
    obtain ⟨_, -, h⟩ := h
    rw [bind_eq_ok] at h
    obtain ⟨⟨header, pageIo⟩, -, h⟩ := h
    exact ⟨pageIo, header, (Except.ok.inj h).symm⟩
  · rw [Database.openExisting, bind_eq_ok] at h
    obtain ⟨_, -, h⟩ := h
    rw [bind_eq_ok] at h
    obtain ⟨⟨header, pageIo⟩, -, h⟩ := h
    exact ⟨pageIo, header, (Except.ok.inj h).symm⟩

theorem JustOpened.rests (h : JustOpened env db) : (Usage.start db).Rests := by
  obtain ⟨pageIo, header, rfl⟩ := h.parts
  refine ⟨⟨tracks_nil, List.Pairwise.nil, fun page hpage => absurd hpage List.not_mem_nil,
    fun heq => absurd heq (by simp), fun _ => rfl⟩, fun tx heq => absurd heq (by simp [Usage.start])⟩

theorem Usage.Run.rests (hopened : JustOpened env db) (hrun : Usage.Run env (.start db) s) :
    s.Rests := by
  induction hrun with
  | refl => exact hopened.rests
  | tail _ hstep ih =>
    obtain ⟨failures, log, hcall⟩ := hstep
    exact (ih.call hcall).1

/-- **The front of the queue suffices.** In every run of a database that has been opened the
queue is sorted and the tracker knows the oldest reader, between the calls and at every
operation of a call; and an allocation takes a fresh page id exactly when each queued page is
too young for some reader. -/
theorem front_of_queue_suffices (hopened : JustOpened env db) (hrun : Usage.Run env (.start db) s) :
    Orderly s.db s.readers ∧ ∀ failures log s', s.Call env failures log s' →
      ∀ event ∈ log, FrontSuffices s.readers event := by
  have hrests := hrun.rests hopened
  exact ⟨hrests.queued.orderly, fun failures log s' hcall => (hrests.call hcall).2⟩

/-- A reader begins after the first commit has queued the old root. -/
theorem front_of_queue_suffices_blocked : ∃ db s,
    Database.openNew .debug 4096 (fun _ _ => false) = .ok db ∧ Usage.Run .debug (.start db) s ∧
      s.db.allocator.pendingFreePages = [⟨initialRootPageId, 1⟩] ∧
      s.readers.map ReadTransaction.transaction = [1] ∧ Orderly s.db s.readers ∧
      ∀ failures log s', s.Call .debug failures log s' →
        ∀ event ∈ log, FrontSuffices s.readers event := by
  obtain ⟨db, _, tx, tx', db₁, db₂, hnew, -, h⟩ := exists_firstCommit
  obtain ⟨log, hbegin⟩ := Traces.of_run h.begin
  obtain ⟨log₁, hinsert⟩ := Traces.of_run h.insert
  obtain ⟨log₂, hcommit⟩ := Traces.of_run h.commit
  have hread : Database.beginRead.run (execute .debug) db₂ = (.ok _, _) := rfl
  obtain ⟨log₃, hread⟩ := Traces.of_run hread
  have hrun : Usage.Run .debug (.start db) _ :=
    (((Relation.ReflTransGen.single ⟨_, _, .beginWrite rfl hbegin⟩).tail
      ⟨_, _, .insert rfl hinsert⟩).tail ⟨_, _, .commit rfl (List.Perm.refl _) hcommit⟩).tail
      ⟨_, _, .beginRead hread⟩
  -- the snapshot has the id of the commit
  have hsession : Session.Run .debug (.start db) _ :=
    (((Relation.ReflTransGen.single (.beginWrite rfl h.begin)).tail
      (.insert rfl h.insert)).tail (.commit rfl (List.Perm.refl _) h.commit))
  obtain ⟨w, rs, hfollows⟩ := hsession.follows rfl hnew
  have hid : db₂.commit.snapshot.2 = 1 := by
    rw [← h.transaction, show db₂.commit = _ from hfollows.owned.commit]
    rfl
  exact ⟨db, _, hnew, hrun, h.freed, congrArg (fun id => [id]) hid,
    front_of_queue_suffices (Or.inl ⟨4096, fun _ _ => false, hnew⟩) hrun⟩

end

end KvRaft.Kv
