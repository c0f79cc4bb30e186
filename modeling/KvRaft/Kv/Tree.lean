import KvRaft.Kv.Transaction

/-!
# The tree

`Tree::verify_pages`, `Tree::get` and `Tree::insert`. Each of them follows the ids in the
pages from a root, and nothing in the pages bounds how far: the recursions take the number
of levels they may descend as an argument, and stop with `outOfFuel` below. The callers
give them `maxDepth`, the number of page ids, which no path without a repetition exceeds.
-/

namespace KvRaft.Kv

/-- The number of page ids. -/
def maxDepth : ℕ := 2 ^ 64

structure PageSplit where
  separatorKey : Key
  rightPageId : PageId
  rightPageChecksum : Checksum

structure InsertionResult where
  replacementPageId : PageId
  replacementPageChecksum : Checksum
  split : Option PageSplit

inductive NodePage
  | leaf (page : LeafPage)
  | branch (page : BranchPage)

def NodePage.fromPage (page : Bytes) : Except Fault NodePage := do
  match ← NodeKind.parse page with
  | .leaf => pure (.leaf (← LeafPage.fromPage page))
  | .branch => pure (.branch (← BranchPage.fromPage page))

namespace Tree

/-- The loop over the entries of a branch. The iterator slices the key of an entry when the
loop gets there, after the children before it are verified. -/
def forEntries (verify : PageId → Checksum → Call Unit) (branchPage : BranchPage) :
    List BranchEntryMetadata → Call Unit
  | [] => pure ()
  | entry :: rest => do
    let _ ← branchPage.entryKey entry
    verify entry.childPageId entry.childPageChecksum
    forEntries verify branchPage rest

def verifyPages (env : Env) : ℕ → PageId → (expectedChecksum : Checksum) → Call Unit
  | 0, _, _ => .fault .outOfFuel
  | depth + 1, pageId, expectedChecksum => do
    let page ← readPage pageId
    if env.checksumPage page ≠ expectedChecksum then
      .fault (.error (.databaseError s!"Checksum mismatch for page {pageId.toNat}"))
    else
      match ← NodePage.fromPage page with
      | .leaf _ => pure ()
      | .branch branchPage =>
        forEntries (verifyPages env depth) branchPage branchPage.entries

def get : ℕ → (nodePageId : PageId) → Key → Call (Option Value)
  | 0, _, _ => .fault .outOfFuel
  | depth + 1, nodePageId, key => do
    let nodePage ← readPage nodePageId
    match ← NodePage.fromPage nodePage with
    | .leaf leafPage =>
      let value ← leafPage.getValue key
      pure value
    | .branch branchPage =>
      let nodePageId ← branchPage.childPageIdForKey key
      get depth nodePageId key

/-- The leaf has no room: its pairs and the new one go to the page and a fresh one. -/
def splitLeaf (env : Env) (page : PageMut) (key : Key) (value : Value) :
    WriteCall InsertionResult := do
  let rightPage ← allocatePage
  let leftScratch ← zeroed page.data.length
  let leafBuilder ← LeafBuilder.fromPage page.data
  let (separatorKey, left, right) ←
    LeafBuilder.buildSplitPages env (leafBuilder.insert key value) leftScratch rightPage.data
  let rightPage := { rightPage with data := right }
  let page ← copyPageFrom page left
  returnPage rightPage
  returnPage page
  pure {
    replacementPageId := page.id
    replacementPageChecksum := env.checksumPage page.data
    split := some {
      separatorKey
      rightPageId := rightPage.id
      rightPageChecksum := env.checksumPage rightPage.data } }

/-- The branch has no room for the separator of its child: its entries and the new one go
to the page and a fresh one. -/
def splitBranch (env : Env) (page : PageMut) (childSplit : PageSplit) :
    WriteCall InsertionResult := do
  let rightPage ← allocatePage
  let leftScratch ← zeroed page.data.length
  let branchBuilder ← BranchBuilder.fromPage page.data
  let branchBuilder ← branchBuilder.insert childSplit.separatorKey childSplit.rightPageId
    childSplit.rightPageChecksum
  let (separatorKey, left, right) ←
    BranchBuilder.buildSplitPages env branchBuilder leftScratch rightPage.data
  let rightPage := { rightPage with data := right }
  let page ← copyPageFrom page left
  returnPage rightPage
  returnPage page
  pure {
    replacementPageId := page.id
    replacementPageChecksum := env.checksumPage page.data
    split := some {
      separatorKey
      rightPageId := rightPage.id
      rightPageChecksum := env.checksumPage rightPage.data } }

/-- A node edited in place. -/
def replace (env : Env) (page : PageMut) : WriteCall InsertionResult := do
  returnPage page
  pure {
    replacementPageId := page.id
    replacementPageChecksum := env.checksumPage page.data
    split := none }

/-- What the branch does with the result of the insertion into its child. -/
def updateBranch (env : Env) (page : PageMut) (childIndex : ℕ) (result : InsertionResult) :
    WriteCall InsertionResult := do
  let data ← BranchPageMutator.setChildAtIndex page.data childIndex result.replacementPageId
    result.replacementPageChecksum
  let page := { page with data }
  match result.split with
  | none => replace env page
  | some childSplit =>
    if ← BranchPageMutator.fits page.data childSplit.separatorKey then
      let data ← BranchPageMutator.insert env page.data childSplit.separatorKey
        childSplit.rightPageId childSplit.rightPageChecksum
      replace env { page with data }
    else
      splitBranch env page childSplit

def insertRecursive (env : Env) :
    ℕ → (nodePageId : PageId) → Key → Value → WriteCall InsertionResult
  | 0, _, _, _ => stop .outOfFuel
  | depth + 1, nodePageId, key, value => do
    let page ← cowPage nodePageId
    match ← NodeKind.parse page.data with
    | .leaf =>
      if ← LeafPageMutator.fits page.data key value then
        let data ← LeafPageMutator.insert page.data key value
        replace env { page with data }
      else
        splitLeaf env page key value
    | .branch =>
      let (childIndex, childPageId) ← BranchPageMutator.childPageForKey page.data key
      let result ← insertRecursive env depth childPageId key value
      updateBranch env page childIndex result

/-- The root was split: a new root over the two pages. -/
def growRoot (env : Env) (result : InsertionResult) (split : PageSplit) : WriteCall Unit := do
  let branchBuilder := BranchBuilder.newRoot result.replacementPageId
    result.replacementPageChecksum split.separatorKey split.rightPageId split.rightPageChecksum
  let newRootPage ← allocatePage
  let data ← branchBuilder.buildPageAtBuf env newRootPage.data
  setRootPage newRootPage.id (env.checksumPage data)
  returnPage { newRootPage with data }

def insert (env : Env) (key : Key) (value : Value) : WriteCall Unit := do
  let result ← insertRecursive env maxDepth (← MonadState.get).rootPage key value
  match result.split with
  | some split => growRoot env result split
  | none => setRootPage result.replacementPageId result.replacementPageChecksum

end Tree

end KvRaft.Kv
