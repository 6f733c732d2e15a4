import TransactionManager.Storage.BTreeNode

/-!
# Programs over a buffer pool

What the index and the tables do with their pool and their heap files, as a sequence of calls whose
results the program goes on with. A frame that `FetchPage` or `NewPage` returned is changed in
place as long as it is pinned; `modify` stands for such a change. `PageStore` is the pool as its
callers would like it to be: every page is there, holds what was last written into it, and no
frame is ever short.
-/

namespace TransactionManager.Storage
open TransactionManager.Types Function

/-- A sequential program over the pool. `FetchPage` and `NewPage` may fail. -/
inductive PageProg (α : Type) where
  | pure (a : α)
  | fetchPage (tableID : GoString) (pageID : Nat) (go : Option Page → PageProg α)
  | newPage (tableID : GoString) (go : Option (Nat × Page) → PageProg α)
  | modify (tableID : GoString) (pageID : Nat) (page : Page) (go : PageProg α)
  | unpinPage (tableID : GoString) (pageID : Nat) (dirty : Bool) (go : PageProg α)
  | lastPageID (tableID : GoString) (go : Nat → PageProg α)

namespace PageProg
variable {α β : Type}

def bind : PageProg α → (α → PageProg β) → PageProg β
  | .pure a, f => f a
  | .fetchPage t pid go, f => .fetchPage t pid fun r => (go r).bind f
  | .newPage t go, f => .newPage t fun r => (go r).bind f
  | .modify t pid page go, f => .modify t pid page (go.bind f)
  | .unpinPage t pid dirty go, f => .unpinPage t pid dirty (go.bind f)
  | .lastPageID t go, f => .lastPageID t fun r => (go r).bind f

instance : Monad PageProg where
  pure := .pure
  bind := .bind

def fetch (t : GoString) (pid : Nat) : PageProg (Option Page) := .fetchPage t pid .pure

def new (t : GoString) : PageProg (Option (Nat × Page)) := .newPage t .pure

def write (t : GoString) (pid : Nat) (page : Page) : PageProg Unit := .modify t pid page (.pure ())

def unpin (t : GoString) (pid : Nat) (dirty : Bool) : PageProg Unit := .unpinPage t pid dirty (.pure ())

def last (t : GoString) : PageProg Nat := .lastPageID t .pure

end PageProg

/-- Block `2 ^ 51` would begin at an offset that is no `int64`, so `AllocatePage` fails before it. -/
def maxPages : Nat := 2 ^ 51

/-- A reliable page store. Page 0 of a heap file is its meta page, which is no page to fetch. -/
structure PageStore where
  last : GoString → Nat := fun _ => 0
  page : GoString → Nat → Page := fun _ id => { id }

namespace PageStore

def fetch (s : PageStore) (t : GoString) (pid : Nat) : Option Page :=
  if pid = 0 ∨ s.last t < pid then none else some (s.page t pid)

/-- The page now holds this. -/
def put (s : PageStore) (t : GoString) (pid : Nat) (page : Page) : PageStore :=
  { s with page := update s.page t (update (s.page t) pid page) }

/-- An empty page at the end of the heap file. -/
def new (s : PageStore) (t : GoString) : Option (Nat × Page) × PageStore :=
  let pid := s.last t + 1
  if pid < maxPages then
    (some (pid, { id := pid }), { s.put t pid { id := pid } with last := update s.last t pid })
  else (none, s)

end PageStore

namespace PageProg
variable {α β : Type}

/-- The program on a reliable page store. -/
def run : PageProg α → PageStore → α × PageStore
  | .pure a, s => (a, s)
  | .fetchPage t pid go, s => (go (s.fetch t pid)).run s
  | .newPage t go, s => (go (s.new t).1).run (s.new t).2
  | .modify t pid page go, s => go.run (s.put t pid page)
  | .unpinPage _ _ _ go, s => go.run s
  | .lastPageID t go, s => (go (s.last t)).run s

variable (s : PageStore)

theorem run_bind (x : PageProg α) (f : α → PageProg β) : (x >>= f).run s = (f (x.run s).1).run (x.run s).2 := by
  induction x generalizing s with
  | pure a => rfl
  | fetchPage t pid go ih => exact ih _ s
  | newPage t go ih => exact ih _ _
  | modify _ _ _ _ ih => exact ih _
  | unpinPage _ _ _ _ ih => exact ih _
  | lastPageID t go ih => exact ih _ s

@[simp] theorem run_pure (a : α) : (Pure.pure a : PageProg α).run s = (a, s) := rfl

@[simp] theorem run_fetch (t : GoString) (pid : Nat) : (fetch t pid).run s = (s.fetch t pid, s) := rfl

@[simp] theorem run_new (t : GoString) : (new t).run s = s.new t := rfl

@[simp] theorem run_unpin (t : GoString) (pid : Nat) (dirty : Bool) : (unpin t pid dirty).run s = ((), s) := rfl

@[simp] theorem run_last (t : GoString) : (last t).run s = (s.last t, s) := rfl

end PageProg

/-!
## The B+ tree index

`BTree` of `internal/storage/btree.go` as programs over the pool. A descent and a walk along the
leaves are loops without a bound in the source; here they have as many rounds as the heap file has
pages, and `diverges` stands for a loop that is still running then.
-/

def bTreeOrder : Nat := 100

/-- How a call fails. `diverges` is no result of the source. -/
inductive BTreeError where
  | fetch
  | alloc
  | node (e : NodeError)
  | rootPage (pageID : Nat)
  | diverges
  deriving DecidableEq

structure BTree where
  tableID : GoString
  rootID : Nat := 1
  deriving DecidableEq

/-- The bytes a node may take. -/
def Page.payload (p : Page) : List UInt8 := p.data.slice pageHeaderSize maxDataBytes

/-- The bytes of `writeNode`: the area is zeroed first. -/
def Page.setPayload (p : Page) (enc : List UInt8) : Page :=
  { p with
    data := (p.data.blit pageHeaderSize (List.replicate maxDataBytes 0)).blit pageHeaderSize enc }

namespace BTree
open PageProg

/-- `readNode`: the page stays pinned. -/
def readNode (t : GoString) (pid : Nat) : PageProg (Except BTreeError (BTreeNode × Page)) := do
  match ← fetch t pid with
  | none => return .error .fetch
  | some page =>
    match BTreeNode.decode pid page.payload with
    | .error e =>
      unpin t pid false
      return .error (.node e)
    | .ok n => return .ok (n, page)

/-- `allocNode`: the page stays pinned. -/
def allocNode (t : GoString) (nodeType : UInt8) : PageProg (Except BTreeError (BTreeNode × Page)) := do
  match ← new t with
  | none => return .error .alloc
  | some (pid, page) => return .ok ({ nodeType, pageID := pid }, page)

/-- `flushNode` with `writeNode`. -/
def flushNode (t : GoString) (n : BTreeNode) (page : Page) : PageProg (Except BTreeError Unit) := do
  match n.encode with
  | .error e =>
    unpin t n.pageID false
    return .error (.node e)
  | .ok enc =>
    write t n.pageID (page.setPayload enc)
    unpin t n.pageID true
    return .ok ()

def initRoot (t : GoString) : PageProg (Except BTreeError Unit) := do
  match ← new t with
  | none => return .error .alloc
  | some (pid, page) =>
    if pid ≠ 1 then
      unpin t pid false
      return .error (.rootPage pid)
    else flushNode t { nodeType := leafNode, pageID := 1 } page

/-- `NewBTree`: page 1 is taken for the root of whatever the heap file has. -/
def newBTree (t : GoString) : PageProg (Except BTreeError BTree) := do
  if (← last t) = 0 then
    match ← initRoot t with
    | .error e => return .error e
    | .ok () => return .ok { tableID := t }
  else return .ok { tableID := t }

/-- The loop of `leafSearch` between `lo` and `hi`. -/
def leafSearchLoop (keys : List GoString) (key : GoString) : Nat → Nat → Nat → Nat × Bool
  | 0, lo, _ => (lo, false)
  | fuel + 1, lo, hi =>
    if lo < hi then
      let mid := (lo + hi) / 2
      if keys.getD mid [] = key then (mid, true)
      else if keys.getD mid [] < key then leafSearchLoop keys key fuel (mid + 1) hi
      else leafSearchLoop keys key fuel lo mid
    else (lo, false)

/-- `leafSearch`. The distance of `lo` and `hi` shrinks in every round. -/
def leafSearch (keys : List GoString) (key : GoString) : Nat × Bool := leafSearchLoop keys key keys.length 0 keys.length

def internalChildIdx (keys : List GoString) (key : GoString) : Nat := keys.findIdx (key < ·)

def internalFindChild (keys : List GoString) (children : List Nat) (key : GoString) : Nat :=
  children.getD (internalChildIdx keys key) 0

/-- `search` from a page on. A page that cannot be read is taken for a key that is not there. -/
def searchFrom (t : GoString) (key : GoString) : Nat → Nat → PageProg (Except BTreeError (Option RowLocation))
  | 0, _ => return .error .diverges
  | fuel + 1, pid => do
    match ← readNode t pid with
    | .error _ => return .ok none
    | .ok (n, _) =>
      unpin t pid false
      if n.nodeType = leafNode then
        let (idx, found) := leafSearch n.keys key
        return .ok (if found then n.values[idx]? else none)
      else searchFrom t key fuel (internalFindChild n.keys n.children key)

/-- The end of a split in `insertRec`: first the new right node is written, then the old one. -/
def flushHalves (t : GoString) (left right : BTreeNode) (page rightPage : Page) (splitKey : GoString) :
    PageProg (Except BTreeError (GoString × Nat)) := do
  match ← flushNode t right rightPage with
  | .error e =>
    unpin t left.pageID false
    return .error e
  | .ok () =>
    match ← flushNode t left page with
    | .error e => return .error e
    | .ok () => return .ok (splitKey, right.pageID)

/-- `insertRec` for a leaf that got its entry: it is written, or split if it is too full. -/
def flushLeaf (t : GoString) (n : BTreeNode) (page : Page) : PageProg (Except BTreeError (GoString × Nat)) := do
  if n.keys.length ≤ bTreeOrder then
    match ← flushNode t n page with
    | .error e => return .error e
    | .ok () => return .ok ([], 0)
  else
    let mid := n.keys.length / 2
    match ← allocNode t leafNode with
    | .error e =>
      unpin t n.pageID false
      return .error e
    | .ok (right, rightPage) =>
      let right := { right with
        keys := n.keys.drop mid, values := n.values.drop mid, rightSibling := n.rightSibling }
      let left := { n with
        keys := n.keys.take mid, values := n.values.take mid, rightSibling := right.pageID }
      flushHalves t left right page rightPage (n.keys.getD mid [])

/-- `insertRec` for a leaf. -/
def insertLeaf (t : GoString) (key : GoString) (loc : RowLocation) (n : BTreeNode) (page : Page) :
    PageProg (Except BTreeError (GoString × Nat)) := do
  let (idx, found) := leafSearch n.keys key
  if found then
    match ← flushNode t { n with values := n.values.set idx loc } page with
    | .error e => return .error e
    | .ok () => return .ok ([], 0)
  else flushLeaf t { n with keys := n.keys.insertIdx idx key, values := n.values.insertIdx idx loc } page

/-- `insertRec` for an internal node that got a child: it is written, or split if it is too full. -/
def flushInternal (t : GoString) (n : BTreeNode) (page : Page) : PageProg (Except BTreeError (GoString × Nat)) := do
  if n.keys.length ≤ bTreeOrder then
    match ← flushNode t n page with
    | .error e => return .error e
    | .ok () => return .ok ([], 0)
  else
    let mid := n.keys.length / 2
    match ← allocNode t internalNode with
    | .error e =>
      unpin t n.pageID false
      return .error e
    | .ok (right, rightPage) =>
      let right := { right with keys := n.keys.drop (mid + 1), children := n.children.drop (mid + 1) }
      let left := { n with keys := n.keys.take mid, children := n.children.take (mid + 1) }
      flushHalves t left right page rightPage (n.keys.getD mid [])

/-- `insertRec`: the key and the page of a new right sibling, page 0 for none. -/
def insertRec (t : GoString) (key : GoString) (loc : RowLocation) :
    Nat → Nat → PageProg (Except BTreeError (GoString × Nat))
  | 0, _ => return .error .diverges
  | fuel + 1, pid => do
    match ← readNode t pid with
    | .error e => return .error e
    | .ok (n, page) =>
      if n.nodeType = leafNode then insertLeaf t key loc n page
      else
        let childIdx := internalChildIdx n.keys key
        unpin t pid false
        match ← insertRec t key loc fuel (n.children.getD childIdx 0) with
        | .error e => return .error e
        | .ok (splitKey, newRight) =>
          if newRight = 0 then return .ok ([], 0)
          else
            match ← readNode t pid with
            | .error e => return .error e
            | .ok (n, page) =>
              flushInternal t { n with
                keys := n.keys.insertIdx childIdx splitKey
                children := n.children.insertIdx (childIdx + 1) newRight } page

/-- `Insert`: a root that was split gets a new root above it. -/
def insert (bt : BTree) (key : GoString) (loc : RowLocation) : PageProg (Except BTreeError Unit × BTree) := do
  let t := bt.tableID
  match ← insertRec t key loc ((← last t) + 1) bt.rootID with
  | .error e => return (.error e, bt)
  | .ok (newKey, newRight) =>
    if newRight = 0 then return (.ok (), bt)
    else
      match ← allocNode t internalNode with
      | .error e => return (.error e, bt)
      | .ok (root, page) =>
        match ← flushNode t { root with keys := [newKey], children := [bt.rootID, newRight] } page with
        | .error e => return (.error e, bt)
        | .ok () => return (.ok (), { bt with rootID := root.pageID })

def deleteRec (t : GoString) (key : GoString) : Nat → Nat → PageProg (Except BTreeError Bool)
  | 0, _ => return .error .diverges
  | fuel + 1, pid => do
    match ← readNode t pid with
    | .error _ => return .ok false
    | .ok (n, page) =>
      if n.nodeType = leafNode then
        let (idx, found) := leafSearch n.keys key
        if found then
          let n := { n with keys := n.keys.eraseIdx idx, values := n.values.eraseIdx idx }
          match ← flushNode t n page with
          | .error _ => return .ok false
          | .ok () => return .ok true
        else
          unpin t pid false
          return .ok false
      else
        unpin t pid false
        deleteRec t key fuel (n.children.getD (internalChildIdx n.keys key) 0)

/-- `findLeafPage` from a page on. -/
def findLeafPage (t : GoString) (fromKey : GoString) : Nat → Nat → PageProg (Except BTreeError Nat)
  | 0, _ => return .error .diverges
  | fuel + 1, pid => do
    match ← readNode t pid with
    | .error _ => return .ok 0
    | .ok (n, _) =>
      unpin t pid false
      if n.nodeType = leafNode then return .ok pid
      else
        findLeafPage t fromKey fuel
          (if fromKey = [] then n.children.getD 0 0 else internalFindChild n.keys n.children fromKey)

/-- The inner loop of `RangeAsc` over the entries of a leaf: what it adds, and whether it returns. -/
def rangeLeaf (lo hi : GoString) : List (GoString × RowLocation) → List (GoString × RowLocation) × Bool
  | [] => ([], false)
  | e :: rest =>
    if lo ≠ [] ∧ e.1 < lo then rangeLeaf lo hi rest
    else if hi ≠ [] ∧ hi < e.1 then ([], true)
    else
      let (more, done) := rangeLeaf lo hi rest
      (e :: more, done)

/-- The loop of `RangeAsc` over the leaves. -/
def rangeLoop (t : GoString) (lo hi : GoString) :
    Nat → Nat → PageProg (Except BTreeError (List (GoString × RowLocation)))
  | 0, pid => return if pid = 0 then .ok [] else .error .diverges
  | fuel + 1, pid => do
    if pid = 0 then return .ok []
    else
      match ← readNode t pid with
      | .error _ => return .ok []
      | .ok (n, _) =>
        unpin t pid false
        let (entries, done) := rangeLeaf lo hi (n.keys.zip n.values)
        if done then return .ok entries
        else
          match ← rangeLoop t lo hi fuel n.rightSibling with
          | .error e => return .error e
          | .ok more => return .ok (entries ++ more)

def search (bt : BTree) (key : GoString) : PageProg (Except BTreeError (Option RowLocation)) := do
  searchFrom bt.tableID key ((← last bt.tableID) + 1) bt.rootID

def delete (bt : BTree) (key : GoString) : PageProg (Except BTreeError Bool) := do
  deleteRec bt.tableID key ((← last bt.tableID) + 1) bt.rootID

def rangeAsc (bt : BTree) (lo hi : GoString) : PageProg (Except BTreeError (List (GoString × RowLocation))) := do
  let fuel := (← last bt.tableID) + 1
  match ← findLeafPage bt.tableID lo fuel bt.rootID with
  | .error e => return .error e
  | .ok pid => rangeLoop bt.tableID lo hi fuel pid

def allKeys (bt : BTree) : PageProg (Except BTreeError (List GoString)) := do
  return (← bt.rangeAsc [] []).map (·.map (·.1))

def count (bt : BTree) : PageProg (Except BTreeError Nat) := do
  return (← bt.rangeAsc [] []).map (·.length)

end BTree

end TransactionManager.Storage
