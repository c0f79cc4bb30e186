import KvRaft.Kv.Failure

/-!
# The pages a file has room for

`allocate_page_id` counts `next_page_id` on before the file grows, and leaves it so when
`preallocate_pages` fails. While the file cannot grow, the counter runs ahead of
`reserved_page_count`, by a page for each call. The growth that succeeds at last adds one batch,
however far ahead the counter is: after a whole batch of failures the page id it is made for
lies past the end of the file.

A `Reservation` is a run of the allocator and what has happened in it. Between the allocations
read transactions come and go, and pages that are in use are freed. The page ids returned are
inside the file if and only if no growth has succeeded right after 1024 that failed
(`allocated_inside_iff`): up to there the counter is ahead of the reservation by the failures
since the last growth (`Reservation.Covers`).
-/

namespace KvRaft.Kv

open Relation (ReflTransGen)

/-- Whether an allocation comes to `preallocate_pages`. -/
def PageAllocator.grows (state : PageAllocatorState) (readers : TransactionReaderCount) : Bool :=
  match reusable state readers with
  | some _ => false
  | none => decide (state.nextPageId.toNat + 1 ≠ 2 ^ 64 ∧
      state.reservedPageCount < (state.nextPageId + 1).toNat)

/-- A run of the allocator, and what has happened in it. -/
structure Reservation where
  db : DatabaseState
  /-- The page ids from here on were free when the run began. -/
  first : PageId
  /-- The page ids returned, each with the length the file had then. -/
  returned : List (PageId × ℕ)
  /-- Which calls of `preallocate_pages` have succeeded, the latest first. -/
  growths : List Bool

namespace Reservation

def pageSize (r : Reservation) : ℕ := r.db.pageIo.pageSize

def file (r : Reservation) : FileHandler := r.db.pageIo.fileHandler

def queue (r : Reservation) : List FreedPage := r.db.allocator.pendingFreePages

def next (r : Reservation) : ℕ := r.db.allocator.nextPageId.toNat

def reserved (r : Reservation) : ℕ := r.db.allocator.reservedPageCount

/-- A call of `allocate_page_id`; `fails` says whether the device lets the file grow. -/
def allocate (env : Env) (fails : Bool) (r : Reservation) : Reservation :=
  let (result, device) := faulty env .allocatePageId
    ⟨r.db, [if fails then some 0 else none], []⟩
  { r with
    db := device.db
    returned := match result with
      | .ok pageId => (pageId, device.db.pageIo.fileHandler.len) :: r.returned
      | .error _ => r.returned
    growths :=
      if PageAllocator.grows r.db.allocator r.db.readTracker then result.isOk :: r.growths
      else r.growths }

/-- An allocation, or what happens to the queue and to the readers between two of them. -/
inductive Step (env : Env) (r : Reservation) : Reservation → Prop
  | allocate (fails : Bool) : Step env r (r.allocate env fails)
  | free (pageId : PageId) (transaction : TransactionId)
    (hknown : pageId < r.first ∨ pageId ∈ r.returned.map Prod.fst) :
    Step env r { r with db := (execute env (.freePage pageId transaction) r.db).2 }
  | register (transaction : TransactionId) :
    Step env r { r with db := (execute env (.register transaction) r.db).2 }
  | deregister (transaction : TransactionId) :
    Step env r { r with db := (execute env (.deregister transaction) r.db).2 }

/-- Where a run begins. -/
structure Ready (r : Reservation) : Prop where
  pageSize : 0 < r.pageSize
  reserved : r.reserved = r.file.len / r.pageSize
  next : r.next ≤ r.reserved
  queue : ∀ page ∈ r.queue, page.pageId.toNat < r.next
  first : r.first.toNat = r.next
  returned : r.returned = []
  growths : r.growths = []

/-- Every page returned was inside the file, and can be read and written. -/
structure Inside (env : Env) (r : Reservation) : Prop where
  fits : ∀ pageId len, (pageId, len) ∈ r.returned → (pageId.toNat + 1) * r.pageSize ≤ len
  reads : ∀ pageId len, (pageId, len) ∈ r.returned →
    ∃ data, r.file.readAt env (pageId.toNat * r.pageSize) r.pageSize = .ok data
  writes : ∀ pageId len src, (pageId, len) ∈ r.returned →
    ∃ file, r.file.writeAt env (pageId.toNat * r.pageSize) src = .ok file

/-! ### What an allocation does -/

/-- The database after its allocator has counted on, with a file of `len` bytes. -/
def countOn (db : DatabaseState) (len reservedPageCount : ℕ) : DatabaseState :=
  { db with
    pageIo := { db.pageIo with fileHandler := { db.pageIo.fileHandler with len } }
    allocator := { db.allocator with
      nextPageId := db.allocator.nextPageId + 1
      reservedPageCount } }

/-- What an allocation does to a run. -/
inductive Allocates (r : Reservation) : Reservation → Prop
  | reused (page : FreedPage) (rest : List FreedPage) (hqueue : r.queue = page :: rest) :
    Allocates r { r with
      db := { r.db with allocator := { r.db.allocator with pendingFreePages := rest } }
      returned := (page.pageId, r.file.len) :: r.returned }
  /-- There are no more page ids. -/
  | exhausted : Allocates r r
  | taken (hoverflow : r.next + 1 ≠ 2 ^ 64) (hroom : r.next < r.reserved) : Allocates r { r with
      db := countOn r.db r.file.len r.reserved
      returned := (r.db.allocator.nextPageId, r.file.len) :: r.returned }
  | grown (len : ℕ) (hoverflow : r.next + 1 ≠ 2 ^ 64) (hfull : r.reserved ≤ r.next)
    (hlen : len = r.file.len + r.pageSize * pageAllocationBatch) : Allocates r { r with
      db := countOn r.db len (len / r.pageSize)
      returned := (r.db.allocator.nextPageId, len) :: r.returned
      growths := true :: r.growths }
  /-- The page id is lost. -/
  | refused (hoverflow : r.next + 1 ≠ 2 ^ 64) (hfull : r.reserved ≤ r.next) : Allocates r { r with
      db := countOn r.db r.file.len r.reserved
      growths := false :: r.growths }

variable {env : Env} {r t : Reservation}

theorem next_add_one (hoverflow : r.next + 1 ≠ 2 ^ 64) :
    (r.db.allocator.nextPageId + 1).toNat = r.next + 1 := by
  have hlt := r.db.allocator.nextPageId.toNat_lt
  rw [UInt64.toNat_add]
  exact Nat.mod_eq_of_lt (lt_of_le_of_ne hlt hoverflow)

/-- **The inversion lemma** for an allocation. -/
theorem allocates (env : Env) (fails : Bool) (r : Reservation) :
    Allocates r (r.allocate env fails) := by
  rcases faulty_cases env .allocatePageId ⟨r.db, [if fails then some 0 else none], []⟩ with
    ⟨k, db', hafter, hop⟩ | hop
  · -- the device fails, which it can where the file has to grow
    rw [allocate, hop]
    rw [afterIoError] at hafter
    split at hafter
    · exact absurd hafter (by simp)
    next hnone =>
    dsimp only at hafter
    split at hafter
    · exact absurd hafter (by simp)
    next hoverflow =>
    split at hafter
    on_goal 2 => exact absurd hafter (by simp)
    next hfull =>
    obtain rfl := Option.some.inj hafter
    have hgrows : PageAllocator.grows r.db.allocator r.db.readTracker = true := by
      rw [PageAllocator.grows, hnone]
      exact decide_eq_true ⟨hoverflow, hfull⟩
    dsimp only
    rw [if_pos hgrows]
    rw [next_add_one hoverflow] at hfull
    exact Allocates.refused hoverflow (Nat.lt_succ_iff.mp hfull)
  · rw [allocate, hop]
    dsimp only
    rw [execute, PageAllocator.allocatePageId, PageAllocator.grows]
    cases hreusable : PageAllocator.reusable r.db.allocator r.db.readTracker with
    | some taken =>
      obtain ⟨page, rest⟩ := taken
      exact Allocates.reused page rest (reusable_eq_some hreusable).1
    | none =>
      dsimp only
      by_cases hoverflow : r.db.allocator.nextPageId.toNat + 1 = 2 ^ 64
      · rw [if_pos hoverflow, if_neg (by simp [hoverflow])]
        exact Allocates.exhausted
      rw [if_neg hoverflow]
      by_cases hfull : r.db.allocator.reservedPageCount < (r.db.allocator.nextPageId + 1).toNat
      · rw [if_pos hfull, if_pos (decide_eq_true ⟨hoverflow, hfull⟩)]
        rw [next_add_one hoverflow] at hfull
        -- the file can still be too long to grow
        rcases hgrow : r.db.pageIo.fileHandler.preallocatePages pageAllocationBatch
          r.db.pageIo.pageSize with e | ⟨fileHandler, reservedPageCount⟩
        · exact Allocates.refused hoverflow (Nat.lt_succ_iff.mp hfull)
        · obtain ⟨rfl, rfl, -⟩ := preallocatePages_inv hgrow
          exact Allocates.grown _ hoverflow (Nat.lt_succ_iff.mp hfull) rfl
      · rw [if_neg hfull, if_neg fun hgrows => hfull (of_decide_eq_true hgrows).2]
        rw [next_add_one hoverflow] at hfull
        exact Allocates.taken hoverflow (not_le.mp fun hle => hfull (Nat.lt_succ_iff.mpr hle))

/-! ### Up to where the file reaches -/

/-- The calls of `preallocate_pages` that have failed since the last that succeeded. -/
def failed (r : Reservation) : ℕ := (r.growths.takeWhile (!·)).length

/-- **The invariant**, as long as no growth has succeeded after too many that failed. -/
structure Covers (r : Reservation) : Prop where
  pageSize : 0 < r.pageSize
  reserved : r.reserved = r.file.len / r.pageSize
  next : r.next ≤ r.reserved + r.failed
  ahead : r.failed ≠ 0 → r.next = r.reserved + r.failed
  queue : ∀ page ∈ r.queue, page.pageId.toNat < r.reserved
  first : r.first.toNat ≤ r.reserved
  returned : ∀ pageId len, (pageId, len) ∈ r.returned →
    (pageId.toNat + 1) * r.pageSize ≤ len ∧ len ≤ r.file.len
  growths : ¬ true :: List.replicate pageAllocationBatch false <:+: r.growths

/-- A growth has succeeded after too many that failed, and the page it was made for is not in
the file. -/
structure Overruns (r : Reservation) : Prop where
  returned : ∃ pageId len, (pageId, len) ∈ r.returned ∧ len < (pageId.toNat + 1) * r.pageSize
  growths : true :: List.replicate pageAllocationBatch false <:+: r.growths

theorem replicate_prefix_iff {k : ℕ} {bs : List Bool} :
    List.replicate k false <+: bs ↔ k ≤ (bs.takeWhile (!·)).length := by
  induction k generalizing bs with
  | zero => simp
  | succ k ih =>
    cases bs with
    | nil => simp
    | cons b bs =>
      rw [List.replicate_succ, List.cons_prefix_cons, ih]
      cases b <;> simp

theorem lt_div_iff_fits {pageId len pageSize : ℕ} (hpos : 0 < pageSize) :
    pageId < len / pageSize ↔ (pageId + 1) * pageSize ≤ len :=
  Nat.le_div_iff_mul_le hpos

theorem Covers.inside (h : r.Covers) (env : Env) : r.Inside env := by
  have hfits : ∀ pageId len, (pageId, len) ∈ r.returned →
      pageId.toNat * r.pageSize + r.pageSize ≤ r.file.len := by
    intro pageId len hmem
    obtain ⟨hfits, hle⟩ := h.returned pageId len hmem
    rw [Nat.succ_mul] at hfits
    exact hfits.trans hle
  refine ⟨fun pageId len hmem => (h.returned pageId len hmem).1, fun pageId len hmem => ?_,
    fun pageId len src hmem => ?_⟩
  · have hle := hfits pageId len hmem
    rw [FileHandler.readAt, debugAssert_true (by omega), ok_bind, if_pos hle]
    exact ⟨_, rfl⟩
  · have hle := hfits pageId len hmem
    rw [FileHandler.writeAt, debugAssert_true (by omega), ok_bind]
    exact ⟨_, rfl⟩

theorem Overruns.not_inside (h : r.Overruns) (env : Env) : ¬ r.Inside env := by
  intro hinside
  obtain ⟨pageId, len, hmem, hlt⟩ := h.returned
  exact absurd (hinside.fits pageId len hmem) (not_le.mpr hlt)

theorem Ready.covers (h : r.Ready) : r.Covers where
  pageSize := h.pageSize
  reserved := h.reserved
  next := h.next.trans (Nat.le_add_right _ _)
  ahead hne := absurd (by rw [failed, h.growths]; rfl) hne
  queue page hpage := (h.queue page hpage).trans_le h.next
  first := h.first.le.trans h.next
  returned pageId len hmem := absurd (h.returned ▸ hmem) List.not_mem_nil
  growths hinfix := by
    rw [h.growths, List.infix_nil] at hinfix
    exact absurd hinfix (by simp)

theorem Covers.ahead_of_full (h : r.Covers) (hfull : r.reserved ≤ r.next) :
    r.next = r.reserved + r.failed := by
  have hle := h.next
  by_cases hne : r.failed = 0
  · omega
  · exact h.ahead hne

/-- **An allocation** keeps the invariant, or it is the one that leaves the file. -/
theorem Covers.allocate (h : r.Covers) (hstep : Allocates r t) : t.Covers ∨ t.Overruns := by
  have hbatch : (r.file.len + r.pageSize * pageAllocationBatch) / r.pageSize =
      r.reserved + pageAllocationBatch := by
    rw [Nat.add_mul_div_left _ _ h.pageSize, h.reserved]
  have hmore : r.reserved ≤ (r.file.len + r.pageSize * pageAllocationBatch) / r.pageSize :=
    hbatch ▸ Nat.le_add_right _ _
  cases hstep with
  | reused page rest hqueue =>
    left
    have hpage := h.queue page (hqueue ▸ List.mem_cons_self)
    rw [h.reserved, lt_div_iff_fits h.pageSize] at hpage
    refine { h with queue := fun page' hmem => ?_, returned := fun pageId len hmem => ?_ }
    · exact h.queue page' (hqueue ▸ List.mem_cons_of_mem _ hmem)
    · rcases List.mem_cons.mp hmem with heq | hmem
      · obtain ⟨rfl, rfl⟩ := Prod.mk.inj heq
        exact ⟨hpage, le_rfl⟩
      · exact h.returned pageId len hmem
  | exhausted => exact Or.inl h
  | taken hoverflow hroom =>
    left
    have hnone : r.failed = 0 := by
      by_contra hne
      have hahead := h.ahead hne
      omega
    have hpage := hroom
    rw [h.reserved, lt_div_iff_fits h.pageSize] at hpage
    have hnext : (countOn r.db r.file.len r.reserved).allocator.nextPageId.toNat = r.next + 1 :=
      next_add_one hoverflow
    refine { h with next := ?_, ahead := fun hne => absurd hnone hne, returned := ?_ }
    · exact (hnext.trans_le hroom).trans (Nat.le_add_right _ _)
    · intro pageId len hmem
      rcases List.mem_cons.mp hmem with heq | hmem
      · obtain ⟨rfl, rfl⟩ := Prod.mk.inj heq
        exact ⟨hpage, le_rfl⟩
      · exact h.returned pageId len hmem
  | grown len hoverflow hfull hlen =>
    subst hlen
    have hahead := h.ahead_of_full hfull
    have hnext : (countOn r.db (r.file.len + r.pageSize * pageAllocationBatch)
        ((r.file.len + r.pageSize * pageAllocationBatch) / r.pageSize)).allocator.nextPageId.toNat =
        r.next + 1 := next_add_one hoverflow
    by_cases hfew : r.failed < pageAllocationBatch
    · left
      have hpage : r.next < (r.file.len + r.pageSize * pageAllocationBatch) / r.pageSize := by
        rw [hbatch]
        omega
      refine ⟨h.pageSize, rfl, ?_, fun hne => absurd rfl hne, fun page hmem => ?_, ?_, ?_, ?_⟩
      · exact (hnext.trans_le hpage).trans (Nat.le_add_right _ _)
      · exact (h.queue page hmem).trans_le hmore
      · exact h.first.trans hmore
      · intro pageId len hmem
        rcases List.mem_cons.mp hmem with heq | hmem
        · obtain ⟨rfl, rfl⟩ := Prod.mk.inj heq
          exact ⟨(lt_div_iff_fits h.pageSize).mp hpage, le_rfl⟩
        · obtain ⟨hfits, hle⟩ := h.returned pageId len hmem
          exact ⟨hfits, hle.trans (Nat.le_add_right _ _)⟩
      · -- the success ends a run of failures that is too short
        intro hinfix
        rcases List.infix_cons_iff.mp hinfix with hprefix | hinfix
        · have hle := replicate_prefix_iff.mp (List.cons_prefix_cons.mp hprefix).2
          exact absurd hle (not_le.mpr hfew)
        · exact h.growths hinfix
    · right
      have hmany := not_lt.mp hfew
      refine ⟨⟨_, _, List.mem_cons_self, ?_⟩, ?_⟩
      · have hout : ¬ r.next < (r.file.len + r.pageSize * pageAllocationBatch) / r.pageSize := by
          rw [hbatch]
          omega
        exact not_le.mp fun hle => hout ((lt_div_iff_fits h.pageSize).mpr hle)
      · exact List.infix_cons_iff.mpr (Or.inl (List.cons_prefix_cons.mpr
          ⟨rfl, replicate_prefix_iff.mpr hmany⟩))
  | refused hoverflow hfull =>
    left
    have hnext : (countOn r.db r.file.len r.reserved).allocator.nextPageId.toNat = r.next + 1 :=
      next_add_one hoverflow
    have hahead := h.ahead_of_full hfull
    have hahead' : (countOn r.db r.file.len r.reserved).allocator.nextPageId.toNat =
        r.reserved + (r.failed + 1) := by
      rw [hnext, hahead, Nat.add_assoc]
    refine { h with next := hahead'.le, ahead := fun _ => hahead', growths := fun hinfix => ?_ }
    rcases List.infix_cons_iff.mp hinfix with hprefix | hinfix
    · exact absurd (List.cons_prefix_cons.mp hprefix).1 (by simp)
    · exact h.growths hinfix

theorem Overruns.allocate (h : r.Overruns) (hstep : Allocates r t) : t.Overruns := by
  obtain ⟨⟨pageId, len, hmem, hlt⟩, hinfix⟩ := h
  cases hstep with
  | reused page rest hqueue =>
    exact ⟨⟨pageId, len, List.mem_cons_of_mem _ hmem, hlt⟩, hinfix⟩
  | exhausted => exact ⟨⟨pageId, len, hmem, hlt⟩, hinfix⟩
  | taken hoverflow hroom =>
    exact ⟨⟨pageId, len, List.mem_cons_of_mem _ hmem, hlt⟩, hinfix⟩
  | grown len' hoverflow hfull hlen =>
    exact ⟨⟨pageId, len, List.mem_cons_of_mem _ hmem, hlt⟩, hinfix.trans (List.infix_cons (List.infix_refl _))⟩
  | refused hoverflow hfull =>
    exact ⟨⟨pageId, len, hmem, hlt⟩, hinfix.trans (List.infix_cons (List.infix_refl _))⟩

/-- A page that is freed was in the file before. -/
theorem Covers.known (h : r.Covers) {pageId : PageId}
    (hknown : pageId < r.first ∨ pageId ∈ r.returned.map Prod.fst) :
    pageId.toNat < r.reserved := by
  rcases hknown with hlt | hmem
  · exact lt_of_lt_of_le hlt h.first
  · obtain ⟨⟨_, len⟩, hreturned, rfl⟩ := List.mem_map.mp hmem
    obtain ⟨hfits, hle⟩ := h.returned _ len hreturned
    rw [h.reserved, lt_div_iff_fits h.pageSize]
    exact hfits.trans hle

/-- **Along a run**: the pages are in the file, until a growth succeeds too late. -/
theorem Step.covers (h : r.Covers ∨ r.Overruns) (hstep : Step env r t) :
    t.Covers ∨ t.Overruns := by
  rcases h with h | h
  · cases hstep with
    | allocate fails => exact h.allocate (allocates env fails r)
    | free pageId transaction hknown =>
      refine Or.inl { h with queue := fun page hmem => ?_ }
      rcases List.mem_append.mp hmem with hmem | hmem
      · exact h.queue page hmem
      · obtain rfl := List.mem_singleton.mp hmem
        exact h.known hknown
    | register transaction => exact Or.inl { h with }
    | deregister transaction => exact Or.inl { h with }
  · cases hstep with
    | allocate fails => exact Or.inr (h.allocate (allocates env fails r))
    | free pageId transaction hknown => exact Or.inr { h with }
    | register transaction => exact Or.inr { h with }
    | deregister transaction => exact Or.inr { h with }

end Reservation

open Reservation

/-- **The pages an allocator returns are inside the file, exactly** as long as no growth of the
file succeeds right after a whole batch (1024) of growths that failed. -/
theorem allocated_inside_iff {env : Env} {r t : Reservation} (hready : r.Ready)
    (hrun : ReflTransGen (Step env) r t) :
    t.Inside env ↔ ¬ true :: List.replicate pageAllocationBatch false <:+: t.growths := by
  have hcases : t.Covers ∨ t.Overruns := by
    induction hrun with
    | refl => exact Or.inl hready.covers
    | tail _ hstep ih => exact hstep.covers ih
  rcases hcases with h | h
  · exact ⟨fun _ => h.growths, fun _ => h.inside env⟩
  · exact ⟨fun hinside => absurd hinside (h.not_inside env), fun hnot => absurd h.growths hnot⟩

/-! ### Two runs

The file has two pages, the header and the root, and both are in use. In the first run one
growth fails before the one that succeeds, in the second 1025 do. -/

def twoPages : Reservation where
  db :=
    { pageIo := PageIo.new ⟨8192, fun _ => 0, []⟩ 4096 fun _ _ => false
      allocator := PageAllocator.new ⟨8192, fun _ => 0, []⟩ 4096 2
      readTracker := []
      commit := CommitState.new (DbHeader.initial 4096 0) }
  first := 2
  returned := []
  growths := []

theorem ready_twoPages : twoPages.Ready where
  pageSize := by decide
  reserved := rfl
  next := by decide
  queue page hmem := absurd hmem List.not_mem_nil
  first := rfl
  returned := rfl
  growths := rfl

theorem allocated_inside_iff_lateGrowth :
    ((twoPages.allocate .debug true).allocate .debug false).returned = [(3, 4202496)] ∧
      ((twoPages.allocate .debug true).allocate .debug false).Inside .debug := by
  refine ⟨by decide +kernel, (allocated_inside_iff ready_twoPages
    (.tail (.single (.allocate true)) (.allocate false))).mpr fun hinfix => ?_⟩
  have hgrowths : ((twoPages.allocate .debug true).allocate .debug false).growths =
      [true, false] := by decide +kernel
  have hlength := hinfix.length_le
  rw [hgrowths, List.length_cons, List.length_replicate] at hlength
  exact absurd hlength (by decide)

/-- After `k` allocations that could not let the file grow. -/
def lost (k : ℕ) : Reservation :=
  { twoPages with
    db := { twoPages.db with allocator := ⟨[], .ofNat (2 + k), 2⟩ }
    growths := List.replicate k false }

theorem toNat_next {k : ℕ} (hk : k ≤ 2 ^ 32) : (UInt64.ofNat (2 + k)).toNat = 2 + k := by
  refine UInt64.toNat_ofNat_of_lt' ?_
  rw [UInt64.size]
  omega

theorem next_add_one_lost (k : ℕ) :
    UInt64.ofNat (2 + k) + 1 = UInt64.ofNat (2 + (k + 1)) := by
  rw [← Nat.add_assoc, UInt64.ofNat_add (2 + k) 1]
  rfl

theorem allocate_lost {k : ℕ} (hk : k < 2 ^ 32) :
    (lost k).allocate .debug true = lost (k + 1) := by
  have hoverflow : ¬ (UInt64.ofNat (2 + k)).toNat + 1 = 2 ^ 64 := by
    rw [toNat_next hk.le]
    omega
  have hfull : 2 < (UInt64.ofNat (2 + k) + 1).toNat := by
    rw [next_add_one_lost, toNat_next hk]
    omega
  have hgrows : PageAllocator.grows (lost k).db.allocator (lost k).db.readTracker = true :=
    decide_eq_true ⟨hoverflow, hfull⟩
  have hafter : afterIoError .debug 0 (lost k).db .allocatePageId = some (lost (k + 1)).db := by
    change (if (UInt64.ofNat (2 + k)).toNat + 1 = 2 ^ 64 then none
      else if 2 < (UInt64.ofNat (2 + k) + 1).toNat then
        some { (lost k).db with allocator := ⟨[], UInt64.ofNat (2 + k) + 1, 2⟩ }
      else none) = _
    rw [if_neg hoverflow, if_pos hfull, next_add_one_lost]
    rfl
  have hop : faulty .debug .allocatePageId ⟨(lost k).db, [if true then some 0 else none], []⟩ =
      (.error (.error (.ioError .other)), ⟨(lost (k + 1)).db, [], []⟩) := by
    have hfails : ([if true then some 0 else none].head?.join.bind fun j =>
        afterIoError .debug j (lost k).db .allocatePageId) = some (lost (k + 1)).db := hafter
    rw [faulty, hfails]
    rfl
  rw [allocate, hop]
  dsimp only
  rw [if_pos hgrows]
  rfl

theorem iterate_allocate_lost {k : ℕ} (hk : k ≤ 2 ^ 32) :
    (allocate .debug true)^[k] twoPages = lost k := by
  induction k with
  | zero => rfl
  | succ k ih =>
    rw [Function.iterate_succ_apply', ih (by omega), allocate_lost (by omega)]

/-- The file grows at last. -/
def overrun : Reservation := ((allocate .debug true)^[1025] twoPages).allocate .debug false

theorem overrun_eq : overrun = (lost 1025).allocate .debug false := by
  rw [overrun, iterate_allocate_lost (by decide)]

theorem run_lost (k : ℕ) :
    ReflTransGen (Step .debug) twoPages ((allocate .debug true)^[k] twoPages) := by
  induction k with
  | zero => exact .refl
  | succ k ih =>
    rw [Function.iterate_succ_apply']
    exact ih.tail (.allocate true)

/-- **A page past the end of the file.** It begins 4096 bytes behind the end, and writing it
fires the assertion of `write_at`. -/
theorem allocated_past_the_end : twoPages.Ready ∧ ReflTransGen (Step .debug) twoPages overrun ∧
    overrun.returned = [(1027, 4202496)] ∧ overrun.file.len = 4202496 ∧
    overrun.file.writeAt .debug (1027 * 4096) [] = .error .panic ∧ ¬ overrun.Inside .debug := by
  refine ⟨ready_twoPages, (run_lost 1025).tail (.allocate false), ?_⟩
  rw [overrun_eq]
  have hreturned : ((lost 1025).allocate .debug false).returned = [(1027, 4202496)] := by
    decide +kernel
  refine ⟨hreturned, by decide +kernel, by rfl, fun hinside => ?_⟩
  have hfits := hinside.fits 1027 4202496 (by rw [hreturned]; exact List.mem_singleton_self _)
  exact absurd hfits (by decide)

end KvRaft.Kv
