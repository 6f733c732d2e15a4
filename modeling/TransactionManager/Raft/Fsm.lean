import TransactionManager.Raft.Node
import TransactionManager.Txn.Identifiers
import TransactionManager.Txn.Reads
import TransactionManager.Txn.Savepoint

/-!
# The FSM of the transaction manager

`internal/raft/fsm.go`: `TxnManagerFSM.Apply`, `Snapshot` and `Restore` over the manager of
`internal/txn`. Entries are applied by one goroutine, each call to its end before the next. A write
that has to wait for a lock waits for a transaction that only a later entry can end, so it times out.
`Snapshot` has the rows of the catalog and nothing else of the manager; `Restore` puts them over the rows
that are there.
-/

namespace TransactionManager
open Storage Wal

/-- `AcquireLockCtx` on a queue and the held set while nothing else runs: a request that has to wait is given up. -/
def Lock.acquireAlone (q : Queue) (held : HeldSet) (txnID : Nat) (r : ResourceID) (mode : Mode) :
    Bool × Queue × HeldSet :=
  match acquireLocked q held txnID r mode 0 with
  | (.held, q, held) | (.granted, q, held) => (true, q, held)
  | (.waiting _, q, held) => (false, giveUpLocked q txnID, held)

namespace Txn
open TransactionManager.Types Lock Mvcc

/-- The operation a byte stands for; `TwoPLWrite` and `MVCCWrite` have no case for the others. -/
def undoOp : UInt8 → Option UndoOpType
  | 0 => some .insert
  | 1 => some .update
  | 2 => some .delete
  | _ => none

/-- The level a byte stands for. The code compares with these four only, and treats any other like repeatable read. -/
def isolationOf : UInt8 → IsolationLevel
  | 0 => .readUncommitted
  | 1 => .readCommitted
  | 3 => .serializable
  | _ => .repeatableRead

namespace Manager

/-- `AcquireLockCtx` while nothing else runs: a request that has to wait times out. -/
def acquireOrTimeout (m : Manager) (txn : Transaction) (r : ResourceID) (mode : Mode) : Bool × Manager × Transaction :=
  let (got, q, held) := acquireAlone (m.queue r.name) txn.locksHeld txn.id r mode
  let txn := { txn with locksHeld := held }
  (got, (m.setQueue r.name q).putTxn txn, txn)

/-- The end of `TwoPLWrite` for a byte that is no operation: the write is logged and gets an undo entry, but no row
changes, now or when it is undone. -/
def writeNothing (m : Manager) (txn : Transaction) (row : RowRef) (values : RowData) (op : UInt8) : Outcome × Manager :=
  match m.encodeBefore ((m.catalog.row row.1 row.2).getD none), m.encodeAfter values with
  | some before, some after =>
    let (lsn, logged) := m.logAppend (writeRecord txn.id txn.lastWALLSN op.toNat row.1 row.2 before after)
    (.ok, logged.putTxn { txn with
      lastWALLSN := if m.wal.isSome then lsn else txn.lastWALLSN
      undoLog := txn.undoLog ++ [⟨.update, row.1, row.2, none, lsn⟩] })
  | _, _ => (.panicked, m)

/-- `TwoPLWrite` from its first lock to its return. -/
def twoPLWriteCall (m : Manager) (txn : Transaction) (row : RowRef) (values : RowData) (op : UInt8) :
    Outcome × Manager :=
  match m.acquireOrTimeout txn (.table row.1) .ix with
  | (false, m, _) => (.err .lockTimeout, m)
  | (true, m, txn) =>
    match m.acquireOrTimeout txn (.row row.1 row.2) .x with
    | (false, m, _) => (.err .lockTimeout, m)
    | (true, m, txn) =>
      if (m.catalog.lookup row.1).isNone then (.err (.tableNotFound row.1), m)
      else match undoOp op with
        | none => m.writeNothing txn row values op
        | some op =>
          match m.twoPLWrite txn row values op with
          | (true, m) => (.ok, m)
          | (false, m) => (.panicked, m)

/-- `MVCCWrite` with its operation as a byte. -/
def mvccWriteCall (m : Manager) (txn : Transaction) (row : RowRef) (values : RowData) (op : UInt8) :
    Outcome × Manager :=
  match undoOp op with
  | some op => m.mvccWrite txn.id row values op
  | none =>
    let created := m.setChain row (m.chain row)
    match checkWriteConflictLocked txn.id (m.getSnapshot txn) m.statusChecker (m.chain row) with
    | some other => (.err (.writeConflict other), created)
    | none => (.ok, created.recordWrite txn row)

/-- `Commit` of a 2PL transaction. -/
def twoPLCommit (m : Manager) (txn : Transaction) : Outcome × Manager :=
  (.ok, ((m.logAppend (commitRecord txn.id txn.lastWALLSN)).2.markCommitted txn.id).releaseAllLocks
    txn.id txn.locksHeld)

def commit (m : Manager) (id : Nat) : Outcome × Manager :=
  match m.txns.get id with
  | none => (m.commitTerminal id, m)
  | some txn =>
    match txn.protocol with
    | .twoPL => m.twoPLCommit txn
    | .mvcc => m.mvccCommitOrUndo id

def abort (m : Manager) (id : Nat) : Outcome × Manager :=
  match m.txns.get id with
  | none => (m.abortTerminal id, m)
  | some txn =>
    match txn.protocol with
    | .twoPL => m.twoPLAbort id
    | .mvcc => m.mvccAbort id

/-- What a transaction sees that begins now and reads one row. -/
def freshRead (m : Manager) (isoLevel : IsolationLevel) (row : RowRef) : Except TxnError (Option RowData) :=
  match m.begin .mvcc isoLevel with
  | (.ok, m) => m.readRow m.nextID row
  | _ => .error .tooManyTransactions

end Manager

end Txn

namespace Raft
open TransactionManager.Types Txn

/-- What `Apply` returns: the result of the manager's call, or an error of its own. -/
inductive ApplyResult where
  | call (result : Types.Outcome)
  | txnNotFoundForWrite (txnID : Nat)
  | badAfterImage (e : DecodeError)
  deriving DecidableEq

/-- The values of a write: nil when the after-image is absent. -/
def decodeAfter (after : List UInt8) : Except DecodeError RowData :=
  if after.isEmpty then .ok none else (decodeValues after).map some

def applyCommand (m : Manager) (c : Command) : ApplyResult × Manager :=
  match c.type with
  | .noop | .other _ => (.call .ok, m)
  | .begin =>
    let r := m.beginWithID c.txnID (if c.proto = 1 then .mvcc else .twoPL) (isolationOf c.iso)
    (.call r.1, r.2)
  | .write =>
    match m.txns.get c.txnID with
    | none => (.txnNotFoundForWrite c.txnID, m)
    | some txn =>
      match decodeAfter c.after with
      | .error e => (.badAfterImage e, m)
      | .ok values =>
        let r := match txn.protocol with
          | .twoPL => m.twoPLWriteCall txn (c.table, c.rowKey) values c.op
          | .mvcc => m.mvccWriteCall txn (c.table, c.rowKey) values c.op
        (.call r.1, r.2)
  | .commit =>
    let r := m.commit c.txnID
    (.call r.1, r.2)
  | .abort =>
    let r := m.abort c.txnID
    (.call r.1, r.2)

/-- The results of a sequence of commands and the manager after it. -/
def applyAll (m : Manager) : List Command → List ApplyResult × Manager
  | [] => ([], m)
  | c :: cs =>
    ((applyCommand m c).1 :: (applyAll (applyCommand m c).2 cs).1, (applyAll (applyCommand m c).2 cs).2)

structure SnapshotRow where
  key : GoString
  values : List UInt8
  deriving DecidableEq

/-- `snapshotPayload`: the rows of each table. Its gob encoding gives back what was encoded. -/
abbrev SnapshotPayload := List (GoString × List SnapshotRow)

/-- The rows of one table as a snapshot has them; nil values are encoded like none at all. -/
def snapshotTable (t : Table) : Option (List SnapshotRow) :=
  (t.scan fun _ _ => true).mapM fun r => (encodeValues (r.2.getD [])).map fun values => ⟨r.1, values⟩

/-- `TxnManagerFSM.Snapshot`; `none` when the row codec panics. -/
def snapshot (m : Manager) : Option SnapshotPayload := m.catalog.keys.mapM fun name =>
    (snapshotTable ((m.catalog.lookup name).getD ∅)).map fun rows => (name, rows)

/-- One row of `Restore`. A row that does not decode is skipped. -/
def restoreRow (name : GoString) (c : Catalog) (r : SnapshotRow) : Catalog :=
  match decodeValues r.values with
  | .error _ => c
  | .ok values => c.modify name fun t => t.putRow r.key (some values)

/-- One table of `Restore`. A table the catalog does not have is skipped. -/
def restoreTable (c : Catalog) (t : GoString × List SnapshotRow) : Catalog :=
  match c.lookup t.1 with
  | none => c
  | some _ => t.2.foldl (restoreRow t.1) c

def restore (m : Manager) (payload : SnapshotPayload) : Manager :=
  { m with catalog := payload.foldl restoreTable m.catalog }

def txnManagerFSM (seed : Manager) : FSM where
  State := Manager
  Data := SnapshotPayload
  seed := seed
  apply e m := (applyCommand m e.command).2
  snapshot := snapshot
  restore payload m := (true, restore m payload)

/-- A new server over a seed: the rows of the catalog and of the version store, the seed transaction
committed. -/
def seeded (catalog : Catalog) (rows : List (RowRef × RowData)) (maxActive : Nat) (wal : Option Log) : Manager :=
  { committed := [0], maxActive, catalog, mvccStore := seedMVCCStore rows, wal }

end Raft

end TransactionManager
