import TransactionManager.Txn.TwoPLStep
import TransactionManager.Txn.Undo
import TransactionManager.Lock.Strict

/-!
# Table scans and gap locks under 2PL

`TwoPLScan`, `LockForRangeScan` and `LockForInsert` of `internal/txn/gap_lock.go` beside
`TwoPLRead`, `TwoPLWrite`, `CreateSavepoint`, `RollbackToSavepoint`, `Commit` and `Abort`. A
transaction makes one call at a time. A call asks for its locks one after another, through the
interleaved lock manager of `LockRun`, and then does its work in one step; the listing of the
keys and the acquisition of the locks on them are separate steps. The lock table and the held
sets are those of the `LockRun`; a lock call has the number of its transaction. The history is
kept newest first.
-/

namespace TransactionManager.Txn
open TransactionManager.Types Lock Storage Lib Wal

/-- `storage.FilterFunc`; the nil filter takes every row. -/
abbrev RowFilter := GoString → RowData → Bool

/-- The arguments of an `AcquireLockCtx` call. -/
abbrev LockRequest := ResourceID × Mode

def gapInfinitySentinel : GoString := [255, 255, 255, 255]

/-- `isGapSafeKey`. A rune from 0x20 to 0x7E is one byte. -/
def isGapSafeKey (k : GoString) : Bool := k.all fun b => 0x20 ≤ b && b ≤ 0x7E

/-- `inRange`; an empty bound is no bound. -/
def inRange (lo hi k : GoString) : Bool := (lo = [] || lo ≤ k) && (hi = [] || k ≤ hi)

/-- The loop of `LockForRangeScan` over the sorted keys, with `prev` at its end. -/
def rangeLocks (table lo hi : GoString) : GoString → List GoString → List LockRequest × GoString
  | prev, [] => ([], prev)
  | prev, k :: ks =>
    if inRange lo hi k then
      let (locks, last) := rangeLocks table lo hi k ks
      ((.gap table prev k, .s) :: (.row table k, .s) :: locks, last)
    else rangeLocks table lo hi (if lo ≠ [] ∧ k < lo then k else prev) ks

def trailingGapHi (hi : GoString) (sortedKeys : List GoString) : GoString :=
  if hi = [] then gapInfinitySentinel
  else (sortedKeys.find? (hi < ·)).getD gapInfinitySentinel

/-- The locks of `LockForRangeScan` after its listing of the keys. -/
def lockForRangeScan (table lo hi : GoString) (sortedKeys : List GoString) : List LockRequest :=
  let (locks, prev) := rangeLocks table lo hi [] sortedKeys
  locks ++ [(.gap table prev (trailingGapHi hi sortedKeys), .s)]

/-- The loop of `LockForInsert` over the sorted keys: `prev` and `next`. -/
def insertionPoint (key : GoString) : GoString → List GoString → GoString × GoString
  | prev, [] => (prev, [])
  | prev, k :: ks =>
    if k < key then insertionPoint key k ks
    else if key < k then (prev, k)
    else insertionPoint key prev ks

/-- The gap that `LockForInsert` computes. -/
def insertionGap (table key : GoString) (sortedKeys : List GoString) : ResourceID :=
  let (prev, next) := insertionPoint key [] sortedKeys
  .gap table prev (if next = [] then gapInfinitySentinel else next)

/-- The locks of `LockForInsert` after its listing of the keys. -/
def lockForInsert (row : RowRef) (sortedKeys : List GoString) : List LockRequest :=
  [(insertionGap row.1 row.2 sortedKeys, .x), (.row row.1 row.2, .x)]

inductive TableOp where
  | read (row : RowRef)
  | write (row : RowRef) (values : RowData) (op : UndoOpType)
  | scan (table : GoString) (filter : RowFilter)
  | lockForRangeScan (table lo hi : GoString)
  | lockForInsert (row : RowRef)

/-- What a call does once it has its locks. `ranged` is the end of `LockForRangeScan`, which `TwoPLScan` goes on from,
and `insertable` that of `LockForInsert`. -/
inductive ScanTask where
  | read (row : RowRef)
  | write (row : RowRef) (values : RowData) (op : UndoOpType)
  | scan (table : GoString) (filter : RowFilter)
  | listRange (table lo hi : GoString) (filter : Option RowFilter)
  | ranged (table lo hi : GoString) (filter : Option RowFilter)
  | listInsert (row : RowRef)
  | insertable (row : RowRef)

/-- Where the call of a transaction stands: between two lock requests, in one, or in the stages of
`RollbackToSavepoint`, `Commit` and `Abort`. -/
inductive ScanCall where
  | locking (done todo : List LockRequest) (task : ScanTask)
  | acquiring (done : List LockRequest) (r : ResourceID) (mode : Mode) (todo : List LockRequest) (task : ScanTask)
  | rollback (rest : List UndoEntry) (lastCLR position : Nat)
  | undo (txn : Transaction) (rest : List UndoEntry) (lastCLR : Nat)
  | release (abortPrevLSN : Option Nat)
  | releasing (abortPrevLSN : Option Nat)

/-- The first lock requests of a call. -/
def TableOp.entry (isolation : IsolationLevel) : TableOp → ScanCall
  | .read row =>
    if isolation = .readUncommitted then .locking [] [] (.read row)
    else .locking [] [(.table row.1, .is), (.row row.1 row.2, .s)] (.read row)
  | .write row values op =>
    .locking [] [(.table row.1, .ix), (.row row.1 row.2, .x)] (.write row values op)
  | .scan table filter =>
    match isolation with
    | .serializable => .locking [] [(.table table, .is)] (.listRange table [] [] (some filter))
    | .repeatableRead => .locking [] [(.table table, .s)] (.scan table filter)
    | .readCommitted => .locking [] [(.table table, .is)] (.scan table filter)
    | .readUncommitted => .locking [] [] (.scan table filter)
  | .lockForRangeScan table lo hi => .locking [] [(.table table, .is)] (.listRange table lo hi none)
  | .lockForInsert row => .locking [] [(.table row.1, .ix)] (.listInsert row)

/-- What a transaction did. A read has the row it returned and a scan the rows; `undo` is an entry undone
by a partial rollback; a commit has the catalog at that moment. -/
inductive ScanEvent where
  | read (t : Nat) (row : RowRef) (value : Option RowData)
  | write (t : Nat) (row : RowRef) (op : UndoOpType) (values : RowData)
  | scan (t : Nat) (isolation : IsolationLevel) (table : GoString) (filter : RowFilter)
      (rows : List (GoString × RowData))
  | ranged (t : Nat) (table lo hi : GoString)
  | insertable (t : Nat) (row : RowRef)
  | undo (t : Nat) (row : RowRef)
  | commit (t : Nat) (catalog : Storage.Catalog)
  | abort (t : Nat)

/-- A step inside the lock manager. -/
inductive LockMove where
  | request
  | enter
  | granted
  | giveUp
  | releaseAll (order : List ResourceID)
  | nextResource
  | release
  | reap
  | forget
  deriving DecidableEq

/-- One step of a transaction's call. -/
inductive ScanAction where
  | begin (isoLevel : IsolationLevel)
  | call (t : Nat) (o : TableOp)
  | lock (t : Nat) (move : LockMove)
  | run (t : Nat)
  | savepoint (t : Nat) (name : GoString)
  | rollback (t : Nat) (name : GoString)
  | undo (t : Nat)
  | commit (t : Nat)
  | abort (t : Nat)
  | finish (t : Nat)

/-- The lock manager's step, when the call is at a place from which it is taken. -/
def ScanCall.lockAction (t : Nat) : ScanCall → LockMove → Option LockAction
  | .locking _ ((r, mode) :: _) _, .request => some (.acquire t t r mode)
  | .acquiring .., .enter => some (.enter t)
  | .acquiring .., .granted => some (.granted t)
  | .acquiring .., .giveUp => some (.giveUp t)
  | .release _, .releaseAll order => some (.releaseAll t t order)
  | .releasing _, .nextResource => some (.nextResource t)
  | .releasing _, .release => some (.release t)
  | .releasing _, .reap => some (.reap t)
  | .releasing _, .forget => some (.forget t)
  | _, _ => none

/-- Where the call goes on; `returned` when the lock call is over. A request that gives up ends the call with an
error. -/
def ScanCall.moved (returned : Bool) : ScanCall → LockMove → Option ScanCall
  | .locking done ((r, mode) :: todo) task, .request => some (.acquiring done r mode todo task)
  | .acquiring .., .giveUp => none
  | .acquiring done r mode todo task, _ =>
    if returned then some (.locking (done ++ [(r, mode)]) todo task)
    else some (.acquiring done r mode todo task)
  | .release prev, _ => some (.releasing prev)
  | call, _ => some call

/-- The manager with the lock table, the calls in flight, by transaction, and the history. -/
structure ScanRun where
  mgr : Manager
  locks : LockRun := {}
  calls : GoMap Nat ScanCall := ∅
  hist : List ScanEvent := []

namespace ScanRun

def start (seed : Storage.Catalog) (maxActive : Nat) (wal : Option Log) : ScanRun where
  mgr := { catalog := seed, maxActive, wal }

def goto (s : ScanRun) (t : Nat) (call : Option ScanCall) : ScanRun :=
  { s with calls := match call with
      | some call => s.calls.set t call
      | none => s.calls.delete t }

def setMgr (s : ScanRun) (m : Manager) : ScanRun := { s with mgr := m }

def setLocks (s : ScanRun) (l : LockRun) : ScanRun := { s with locks := l }

def record (s : ScanRun) (e : ScanEvent) : ScanRun := { s with hist := e :: s.hist }

/-- The work of a call that has its locks; a missing table ends it with an error. -/
def runTask (s : ScanRun) (t : Nat) (txn : Transaction) : ScanTask → ScanRun
  | .read row =>
    match s.mgr.catalog.lookup row.1 with
    | some tbl => (s.record (.read t row (tbl.getRow row.2))).goto t none
    | none => s.goto t none
  | .write row values op =>
    match s.mgr.twoPLWrite txn row values op with
    | (true, m) => ((s.setMgr m).record (.write t row op values)).goto t none
    | (false, m) => (s.setMgr m).goto t none
  | .scan table filter =>
    match s.mgr.catalog.lookup table with
    | some tbl => (s.record (.scan t txn.isolation table filter (tbl.scan filter))).goto t none
    | none => s.goto t none
  | .listRange table lo hi filter =>
    match s.mgr.catalog.lookup table with
    | some tbl => s.goto t (some (.locking [] (Txn.lockForRangeScan table lo hi tbl.sortedKeys)
        (.ranged table lo hi filter)))
    | none => s.goto t none
  | .ranged table lo hi filter =>
    (s.record (.ranged t table lo hi)).goto t (filter.map fun filter => .locking [] [] (.scan table filter))
  | .listInsert row =>
    match s.mgr.catalog.lookup row.1 with
    | some tbl =>
      if isGapSafeKey row.2 then
        s.goto t (some (.locking [] (Txn.lockForInsert row tbl.sortedKeys) (.insertable row)))
      else s.goto t none
    | none => s.goto t none
  | .insertable row => (s.record (.insertable t row)).goto t none

def next (s : ScanRun) : ScanAction → Option ScanRun
  | .begin isoLevel => some (s.setMgr (s.mgr.begin .twoPL isoLevel).2)
  | .call t o =>
    match s.mgr.txns.get t, s.calls.get t with
    | some txn, none => some (s.goto t (some (o.entry txn.isolation)))
    | _, _ => none
  | .lock t move =>
    match s.calls.get t with
    | some call =>
      match call.lockAction t move with
      | some a =>
        match s.locks.next a with
        | some l => some ((s.setLocks l).goto t (call.moved (l.calls.get t).isNone move))
        | none => none
      | none => none
    | none => none
  | .run t =>
    match s.mgr.txns.get t, s.calls.get t with
    | some txn, some (.locking _ [] task) => some (s.runTask t txn task)
    | _, _ => none
  | .savepoint t name =>
    match s.mgr.txns.get t, s.calls.get t with
    | some txn, none =>
      let savepoints := txn.savepoints ++ [⟨name, txn.undoLog.length⟩]
      some (s.setMgr (s.mgr.putTxn { txn with savepoints }))
    | _, _ => none
  | .rollback t name =>
    match s.mgr.txns.get t, s.calls.get t with
    | some txn, none =>
      match txn.savepoints.reverse.find? fun sp => sp.name = name with
      | none => some s
      | some sp =>
        let entries := txn.undoLog.drop sp.undoPosition
        some (s.goto t (some (.rollback entries.reverse LSNInvalid sp.undoPosition)))
    | _, _ => none
  | .undo t =>
    match s.calls.get t with
    | some (.rollback (e :: more) lastCLR position) =>
      let (clr, m) := s.mgr.undoEntry t e more lastCLR
      some (((s.setMgr m).record (.undo t (e.table, e.key))).goto t (some (.rollback more clr position)))
    | some (.rollback [] _ position) =>
      match s.mgr.txns.get t with
      | some txn =>
        let m := s.mgr.putTxn { txn with undoLog := txn.undoLog.take position }
        some ((s.setMgr m).goto t none)
      | none => none
    | some (.undo txn (e :: more) lastCLR) =>
      let (clr, m) := s.mgr.undoEntry t e more lastCLR
      some ((s.setMgr m).goto t (some (.undo txn more clr)))
    | some (.undo txn [] lastCLR) =>
      let prev := if lastCLR = LSNInvalid then txn.lastWALLSN else lastCLR
      some (s.goto t (some (.release (some prev))))
    | _ => none
  | .commit t =>
    match s.mgr.txns.get t, s.calls.get t with
    | some txn, none =>
      let (_, m) := s.mgr.logAppend (commitRecord t txn.lastWALLSN)
      some (((s.setMgr (m.markCommitted t)).record (.commit t m.catalog)).goto t (some (.release none)))
    | _, _ => none
  | .abort t =>
    match s.mgr.txns.get t, s.calls.get t with
    | some txn, none =>
      some (((s.setMgr (s.mgr.markAborted t)).record (.abort t)).goto t
        (some (.undo txn txn.undoLog.reverse LSNInvalid)))
    | _, _ => none
  | .finish t =>
    match s.calls.get t, s.locks.calls.get t with
    | some (.releasing none), none => some (s.goto t none)
    | some (.releasing (some prev)), none =>
      some ((s.setMgr ((s.mgr.logAppend (abortRecord t prev)).2)).goto t none)
    | _, _ => none

end ScanRun

/-!
## What one step of a run with scans does

The inversion of `ScanRun.next`, one constructor for each way a step can go.
-/

structure Manager.Wrote (m : Manager) (txn : Transaction) (w : RowWrite) (m' : Manager) : Prop where
  table : (m.catalog.lookup w.row.1).isSome
  catalog : m'.catalog = w.apply m.catalog
  nextID : m'.nextID = m.nextID
  txns : ∃ last lsn, m'.txns = m.txns.set txn.id { txn with
    lastWALLSN := last
    undoLog := txn.undoLog ++ [m.entryOf w lsn] }

theorem Manager.twoPLWrite_wrote (m : Manager) (txn : Transaction) (w : RowWrite) :
    m.twoPLWrite txn w.row w.values w.op = (false, m) ∨
      ∃ m', m.twoPLWrite txn w.row w.values w.op = (true, m') ∧ m.Wrote txn w m' := by
  unfold twoPLWrite
  cases found : m.catalog.lookup w.row.1 with
  | none => exact .inl rfl
  | some t =>
    simp only
    split
    case h_2 => exact .inl rfl
    rename_i before after _ _
    refine .inr ⟨_, rfl, ?_⟩
    have books := m.sameBooks_logAppend (Wal.writeRecord txn.id txn.lastWALLSN w.op.code w.row.1 w.row.2 before after)
    refine ⟨by rw [found]; rfl, congrArg (applyOp · w.row w.values w.op) (m.catalog_logAppend _),
      books.nextID, if m.wal.isSome then m.nextLSN else txn.lastWALLSN, m.nextLSN, ?_⟩
    simp only [logWrite, putTxn, fst_logAppend, books.txns, entryOf, row_of_lookup found]

inductive ScanStep (s : ScanRun) : ScanAction → ScanRun → Prop where
  | refused : ScanStep s a s
  | begun (begun : s.mgr.Begun isoLevel m) : ScanStep s (.begin isoLevel) (s.setMgr m)
  | called (active : s.mgr.txns.get t = some txn) (idle : s.calls.get t = none) :
      ScanStep s (.call t o) (s.goto t (some (o.entry txn.isolation)))
  | locked (here : s.calls.get t = some call) (asks : call.lockAction t move = some a)
      (taken : s.locks.next a = some l) :
      ScanStep s (.lock t move) ((s.setLocks l).goto t (call.moved (l.calls.get t).isNone move))
  | read (active : s.mgr.txns.get t = some txn) (here : s.calls.get t = some (.locking done [] (.read row)))
      (found : s.mgr.catalog.lookup row.1 = some tbl) :
      ScanStep s (.run t) ((s.record (.read t row (tbl.getRow row.2))).goto t none)
  | wrote (active : s.mgr.txns.get t = some txn)
      (here : s.calls.get t = some (.locking done [] (.write w.row w.values w.op))) (written : s.mgr.Wrote txn w m) :
      ScanStep s (.run t) (((s.setMgr m).record (.write t w.row w.op w.values)).goto t none)
  | scanned (active : s.mgr.txns.get t = some txn)
      (here : s.calls.get t = some (.locking done [] (.scan table filter)))
      (found : s.mgr.catalog.lookup table = some tbl) :
      ScanStep s (.run t) ((s.record (.scan t txn.isolation table filter (tbl.scan filter))).goto t none)
  | listed (active : s.mgr.txns.get t = some txn)
      (here : s.calls.get t = some (.locking done [] (.listRange table lo hi filter)))
      (found : s.mgr.catalog.lookup table = some tbl) :
      ScanStep s (.run t)
        (s.goto t (some (.locking [] (lockForRangeScan table lo hi tbl.sortedKeys) (.ranged table lo hi filter))))
  | ranged (active : s.mgr.txns.get t = some txn)
      (here : s.calls.get t = some (.locking done [] (.ranged table lo hi filter))) :
      ScanStep s (.run t)
        ((s.record (.ranged t table lo hi)).goto t (filter.map fun filter => .locking [] [] (.scan table filter)))
  | listedInsert (active : s.mgr.txns.get t = some txn)
      (here : s.calls.get t = some (.locking done [] (.listInsert row)))
      (found : s.mgr.catalog.lookup row.1 = some tbl) :
      ScanStep s (.run t) (s.goto t (some (.locking [] (lockForInsert row tbl.sortedKeys) (.insertable row))))
  | insertable (active : s.mgr.txns.get t = some txn)
      (here : s.calls.get t = some (.locking done [] (.insertable row))) :
      ScanStep s (.run t) ((s.record (.insertable t row)).goto t none)
  | failed (active : s.mgr.txns.get t = some txn) (here : s.calls.get t = some (.locking done [] task)) :
      ScanStep s (.run t) (s.goto t none)
  | savepoint (active : s.mgr.txns.get t = some txn) (idle : s.calls.get t = none) :
      ScanStep s (.savepoint t name)
        (s.setMgr (s.mgr.putTxn { txn with savepoints := txn.savepoints ++ [⟨name, txn.undoLog.length⟩] }))
  | rollback (active : s.mgr.txns.get t = some txn) (idle : s.calls.get t = none) (found : sp ∈ txn.savepoints) :
      ScanStep s (.rollback t name)
        (s.goto t (some (.rollback (txn.undoLog.drop sp.undoPosition).reverse LSNInvalid sp.undoPosition)))
  | undid (here : s.calls.get t = some (.rollback (e :: more) lastCLR position)) :
      ScanStep s (.undo t) (((s.setMgr (s.mgr.undoEntry t e more lastCLR).2).record (.undo t (e.table, e.key))).goto t
        (some (.rollback more (s.mgr.undoEntry t e more lastCLR).1 position)))
  | rolledBack (active : s.mgr.txns.get t = some txn) (here : s.calls.get t = some (.rollback [] lastCLR position)) :
      ScanStep s (.undo t) ((s.setMgr (s.mgr.putTxn { txn with undoLog := txn.undoLog.take position })).goto t none)
  | undidAborted (here : s.calls.get t = some (.undo txn (e :: more) lastCLR)) :
      ScanStep s (.undo t) ((s.setMgr (s.mgr.undoEntry t e more lastCLR).2).goto t
        (some (.undo txn more (s.mgr.undoEntry t e more lastCLR).1)))
  | undone (here : s.calls.get t = some (.undo txn [] lastCLR)) :
      ScanStep s (.undo t) (s.goto t (some (.release (some prevLSN))))
  | commit (active : s.mgr.txns.get t = some txn) (idle : s.calls.get t = none) (logged : SameLists s.mgr m)
      (catalog : m.catalog = s.mgr.catalog) :
      ScanStep s (.commit t)
        (((s.setMgr (m.markCommitted t)).record (.commit t m.catalog)).goto t (some (.release none)))
  | abort (active : s.mgr.txns.get t = some txn) (idle : s.calls.get t = none) :
      ScanStep s (.abort t) (((s.setMgr (s.mgr.markAborted t)).record (.abort t)).goto t
        (some (.undo txn txn.undoLog.reverse LSNInvalid)))
  | finish (here : s.calls.get t = some (.releasing prevLSN)) (returned : s.locks.calls.get t = none)
      (logged : SameLists s.mgr m) (catalog : m.catalog = s.mgr.catalog) :
      ScanStep s (.finish t) ((s.setMgr m).goto t none)

namespace ScanRun
variable {s s' : ScanRun}

theorem get_goto {s : ScanRun} {t : Nat} {call : Option ScanCall} (u : Nat) :
    (s.goto t call).calls.get u = if u = t then call else s.calls.get u := by
  cases call <;> simp [goto]

theorem goes {s : ScanRun} {t : Nat} {call : Option ScanCall} : (s.goto t call).calls.get t = call :=
  (get_goto t).trans (if_pos rfl)

theorem runTask_step {t : Nat} {txn : Transaction} {done : List LockRequest} {task : ScanTask}
    (active : s.mgr.txns.get t = some txn) (here : s.calls.get t = some (.locking done [] task)) :
    ScanStep s (.run t) (s.runTask t txn task) := by
  cases task with
  | read row =>
    unfold runTask
    dsimp only
    split
    · exact .read active here ‹_›
    · exact .failed active here
  | write row values op =>
    unfold runTask
    dsimp only
    rcases s.mgr.twoPLWrite_wrote txn ⟨row, op, values⟩ with failed | ⟨m, eq, written⟩
    · rw [failed]
      exact .failed active here
    · rw [eq]
      exact .wrote active here written
  | scan table filter =>
    unfold runTask
    dsimp only
    split
    · exact .scanned active here ‹_›
    · exact .failed active here
  | listRange table lo hi filter =>
    unfold runTask
    dsimp only
    split
    · exact .listed active here ‹_›
    · exact .failed active here
  | ranged => exact .ranged active here
  | listInsert row =>
    unfold runTask
    dsimp only
    split
    · split
      · exact .listedInsert active here ‹_›
      · exact .failed active here
    · exact .failed active here
  | insertable row => exact .insertable active here

theorem next_step {a : ScanAction} (taken : s.next a = some s') : ScanStep s a s' := by
  cases a with (simp only [next] at taken; try (split at taken; case h_2 => cases taken))
  | begin isoLevel =>
    cases taken
    cases s.mgr.begin_cases isoLevel with
    | inl same =>
      rw [same]
      exact .refused
    | inr begun => exact .begun begun
  | call t o =>
    cases taken
    exact .called ‹_› ‹_›
  | lock t move =>
    rename_i call here
    split at taken
    case h_2 => cases taken
    rename_i a asks
    split at taken
    case h_2 => cases taken
    cases taken
    exact .locked here asks ‹_›
  | run t =>
    cases taken
    exact runTask_step ‹_› ‹_›
  | savepoint t name =>
    cases taken
    exact .savepoint ‹_› ‹_›
  | rollback t name =>
    split at taken
    · cases taken
      exact .refused
    · rename_i sp found
      cases taken
      exact .rollback ‹_› ‹_› (List.mem_reverse.1 (List.mem_of_find?_eq_some found))
  | undo t =>
    split at taken
    · cases taken
      exact .undid ‹_›
    · split at taken
      · cases taken
        exact .rolledBack ‹_› ‹_›
      · cases taken
    · cases taken
      exact .undidAborted ‹_›
    · cases taken
      exact .undone ‹_›
    · cases taken
  | commit t =>
    cases taken
    exact .commit ‹_› ‹_› (s.mgr.sameBooks_logAppend _).toSameLists (s.mgr.catalog_logAppend _)
  | abort t =>
    cases taken
    exact .abort ‹_› ‹_›
  | finish t =>
    split at taken
    · cases taken
      exact .finish ‹_› ‹_› (.refl _) rfl
    · cases taken
      exact .finish ‹_› ‹_› (s.mgr.sameBooks_logAppend _).toSameLists (s.mgr.catalog_logAppend _)
    · cases taken

end ScanRun

end TransactionManager.Txn
