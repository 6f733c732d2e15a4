import TransactionManager.Txn.Manager
import TransactionManager.Lib.Run

/-!
# MVCC operations and their interleavings

`MVCCRead`, `MVCCWrite`, `MVCCScan`, `Commit` and `Abort` of `internal/txn/manager.go` for
MVCC transactions, and the system in which transactions call them in any order. A read, a
write under its chain lock and a commit are single steps. An abort marks the transaction
first and then rewinds one chain operation at a time, with other transactions running in
between. The history of a run records what each call did.
-/

namespace TransactionManager.Txn
open Lib TransactionManager.Types Mvcc Wal VersionChain

namespace Manager

/-- `FindVisible` on the chain of a row. -/
def findVisible (m : Manager) (txn : Transaction) (row : RowRef) : Option Version :=
  (m.chain row).find? fun v => isVisible v txn.id (m.getSnapshot txn) m.statusChecker

/-- The tracker's name of a row: `table + ":" + key`. -/
def fullKey (row : RowRef) : GoString := row.1 ++ [58] ++ row.2

/-- Record a read of a serializable transaction. -/
def recordRead (m : Manager) (txn : Transaction) (row : RowRef) : Manager :=
  if txn.isolation = .serializable then
    { m with ssiTracker := m.ssiTracker.recordRead txn.id (fullKey row) }
  else m

/-- Record a write of a serializable transaction. -/
def recordWrite (m : Manager) (txn : Transaction) (row : RowRef) : Manager :=
  if txn.isolation = .serializable then
    { m with
      ssiTracker := m.ssiTracker.recordWrite (fun t => (m.txns.get t).isSome) txn.id (fullKey row) }
  else m

/-- `MVCCRead`: the visible version. A row that has none is not recorded as read. -/
def mvccRead (m : Manager) (id : Nat) (row : RowRef) : Except TxnError (Option Version) × Manager :=
  match m.txns.get id with
  | none => (.error .txnAborted, m)
  | some txn =>
    match m.findVisible txn row with
    | none => (.ok none, m)
    | some v => (.ok (some v), m.recordRead txn row)

/-- The rows of a table with the version a transaction sees of each. -/
def visibleRows (m : Manager) (txn : Transaction) (table : GoString) : List (GoString × Version) :=
  (m.mvccStore.keys.filter fun row => row.1 = table).filterMap fun row =>
    (m.findVisible txn row).map fun v => (row.2, v)

/-- `MVCCScan`: the visible rows that pass the filter. Every visible row is recorded as read. -/
def mvccScan (m : Manager) (id : Nat) (table : GoString) (filter : GoString → RowData → Bool) :
    Except TxnError (List (GoString × Version)) × Manager :=
  match m.txns.get id with
  | none => (.error .txnAborted, m)
  | some txn =>
    let rows := m.visibleRows txn table
    (.ok (rows.filter fun r => filter r.1 r.2.data), rows.foldl (fun m r => m.recordRead txn (table, r.1)) m)

/-- `MVCCWrite`. An update marks the superseded version before it encodes and logs, so a
panic of the codec leaves the mark. -/
def mvccWrite (m : Manager) (id : Nat) (row : RowRef) (values : RowData) (op : UndoOpType) : Outcome × Manager :=
  match m.txns.get id with
  | none => (.err .txnAborted, m)
  | some txn =>
    let snap := m.getSnapshot txn
    let checker := m.statusChecker
    let visible := fun v => isVisible v id snap checker
    let chain := m.chain row
    let marked := markFirst visible id chain
    let m := m.setChain row chain
    match checkWriteConflictLocked id snap checker chain with
    | some other => (.err (.writeConflict other), m)
    | none =>
      match op with
      | .insert =>
        match m.encodeAfter values with
        | none => (.panicked, m)
        | some after =>
          let (lsn, m) := m.logWrite txn op row none [] after
          (.ok, (m.setChain row ({ xmin := id, data := values, lsn } :: chain)).recordWrite txn row)
      | .update =>
        match chain.find? visible with
        | none => (.err .rowNotFound, m)
        | some old =>
          let m := m.setChain row marked
          match m.encodeBefore old.data, m.encodeAfter values with
          | some before, some after =>
            let (lsn, m) := m.logWrite txn op row old.data before after
            (.ok, (m.setChain row ({ xmin := id, data := values, lsn } :: marked)).recordWrite txn row)
          | _, _ => (.panicked, m)
      | .delete =>
        match chain.find? visible with
        | none => (.err .rowNotFound, m)
        | some old =>
          match m.encodeBefore old.data with
          | none => (.panicked, m)
          | some before =>
            let (_, m) := m.logWrite txn op row old.data before []
            (.ok, (m.setChain row marked).recordWrite txn row)

/-- `Commit` of an MVCC transaction, without the undo that follows a refusal. -/
def mvccCommit (m : Manager) (id : Nat) : Outcome × Manager :=
  match m.txns.get id with
  | none => (m.commitTerminal id, m)
  | some txn =>
    if txn.isolation = .serializable ∧ m.ssiTracker.isPivotLocked id then
      (.err .serializationFailure, { m.markAborted id with ssiTracker := m.ssiTracker.cleanup id })
    else
      let (_, m) := m.logAppend (commitRecord id txn.lastWALLSN)
      let m := m.markCommitted id
      (.ok, if txn.isolation = .serializable then
          { m with ssiTracker := m.ssiTracker.cleanup id }
        else m)

end Manager

/-- What an aborted transaction still has to do. -/
inductive UndoStep where
  | removeByXMin (row : RowRef)
  | clearXMax (row : RowRef)
  | logAbort (prevLSN : Nat)
  | cleanup
  deriving DecidableEq

/-- The loop of `applyMVCCUndo`: two chain operations for each row written. -/
def Transaction.mvccUndo (txn : Transaction) : List UndoStep :=
  (txn.undoLog.map fun e => (e.table, e.key)).eraseDups.flatMap fun row =>
    [.removeByXMin row, .clearXMax row]

/-- What follows the status change in `Abort`. -/
def Transaction.mvccAbort (txn : Transaction) : List UndoStep := txn.mvccUndo ++ [.logAbort txn.lastWALLSN] ++
    (if txn.isolation = .serializable then [.cleanup] else [])

/-- One step of an aborted transaction. A row without a chain is skipped. -/
def Manager.undoStep (m : Manager) (id : Nat) : UndoStep → Manager
  | .removeByXMin row =>
    match m.mvccStore.get row with
    | some c => m.setChain row (removeByXMin c id)
    | none => m
  | .clearXMax row =>
    match m.mvccStore.get row with
    | some c => m.setChain row (clearXMax c id)
    | none => m
  | .logAbort prevLSN => (m.logAppend (abortRecord id prevLSN)).2
  | .cleanup => { m with ssiTracker := m.ssiTracker.cleanup id }

/-- The steps of an aborted transaction, one after the other. -/
def Manager.undoSteps (m : Manager) (id : Nat) (steps : List UndoStep) : Manager :=
  steps.foldl (fun m step => m.undoStep id step) m

/-- `Abort` of an MVCC transaction with nothing in between. -/
def Manager.mvccAbort (m : Manager) (id : Nat) : Outcome × Manager :=
  match m.txns.get id with
  | none => (m.abortTerminal id, m)
  | some txn => (.ok, (m.markAborted id).undoSteps id txn.mvccAbort)

/-- `Commit` of an MVCC transaction with the undo that follows a refusal. -/
def Manager.mvccCommitOrUndo (m : Manager) (id : Nat) : Outcome × Manager :=
  match m.txns.get id with
  | none => m.mvccCommit id
  | some txn =>
    match m.mvccCommit id with
    | (.err e, m) => (.err e, m.undoSteps id txn.mvccUndo)
    | r => r

/-- What a run records of each call: a read the creator of the version it found, a write whether it completed or left
only its mark. -/
inductive MvccEvent where
  | begin (t : Nat)
  | read (t : Nat) (row : RowRef) (found : Option Nat)
  | scan (t : Nat) (table : GoString) (found : List (GoString × Nat))
  | write (t : Nat) (row : RowRef) (op : UndoOpType) (completed : Bool)
  | commit (t : Nat)
  | abort (t : Nat)
  deriving DecidableEq

inductive MvccAction where
  | begin (isoLevel : IsolationLevel)
  | read (id : Nat) (row : RowRef)
  | scan (id : Nat) (table : GoString) (filter : GoString → RowData → Bool)
  | write (id : Nat) (row : RowRef) (values : RowData) (op : UndoOpType)
  | commit (id : Nat)
  | abort (id : Nat)
  | undo (id : Nat)

/-- A running manager: its state, what aborted transactions have left to undo, and the
history so far. -/
structure MvccRun where
  mgr : Manager
  undoing : GoMap Nat (List UndoStep) := ∅
  hist : List MvccEvent := []

/-- The event of a write: none when the chain is as before. -/
def writeEvent (id : Nat) (row : RowRef) (op : UndoOpType) : Outcome → List MvccEvent
  | .ok => [.write id row op true]
  | .panicked => if op = .update then [.write id row op false] else []
  | .err _ => []

/-- One call of a run, or one step of an undo that is under way. -/
def MvccRun.next (s : MvccRun) : MvccAction → Option MvccRun
  | .begin isoLevel =>
    match s.mgr.begin .mvcc isoLevel with
    | (.ok, m) => some { s with mgr := m, hist := s.hist ++ [.begin m.nextID] }
    | (_, m) => some { s with mgr := m }
  | .read id row =>
    match s.mgr.mvccRead id row with
    | (.ok found, m) =>
      some { s with mgr := m, hist := s.hist ++ [.read id row (found.map (·.xmin))] }
    | (.error _, m) => some { s with mgr := m }
  | .scan id table filter =>
    match s.mgr.txns.get id, s.mgr.mvccScan id table filter with
    | some txn, (.ok _, m) =>
      let found := (s.mgr.visibleRows txn table).map fun r => (r.1, r.2.xmin)
      some { s with mgr := m, hist := s.hist ++ [.scan id table found] }
    | _, (_, m) => some { s with mgr := m }
  | .write id row values op =>
    let r := s.mgr.mvccWrite id row values op
    some { s with mgr := r.2, hist := s.hist ++ writeEvent id row op r.1 }
  | .commit id =>
    match s.mgr.txns.get id with
    | none => some s
    | some txn =>
      match s.mgr.mvccCommit id with
      | (.ok, m) => some { s with mgr := m, hist := s.hist ++ [.commit id] }
      | (_, m) => some { s with
          mgr := m
          undoing := s.undoing.set id txn.mvccUndo
          hist := s.hist ++ [.abort id] }
  | .abort id =>
    match s.mgr.txns.get id with
    | none => some s
    | some txn => some { s with
        mgr := s.mgr.markAborted id
        undoing := s.undoing.set id txn.mvccAbort
        hist := s.hist ++ [.abort id] }
  | .undo id =>
    match s.undoing.get id with
    | some (step :: rest) => some { s with
        mgr := s.mgr.undoStep id step
        undoing := s.undoing.set id rest }
    | _ => none

/-- `SeedMVCCStore` under the seed transaction 0. The rows of a catalog differ in their places, so each starts a new
chain. -/
def seedMVCCStore (rows : List (RowRef × RowData)) : Store :=
  rows.foldl (fun s r => s.set r.1 [{ xmin := 0, data := r.2 }]) ∅

/-- A new server: seeded store, the seed transaction marked committed, no IDs given out. -/
def MvccRun.start (rows : List (RowRef × RowData)) (maxActive : Nat) (wal : Option Log) : MvccRun where
  mgr := { committed := [0], maxActive, mvccStore := seedMVCCStore rows, wal }

end TransactionManager.Txn
