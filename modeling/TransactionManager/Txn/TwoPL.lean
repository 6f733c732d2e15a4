import TransactionManager.Txn.Manager
import TransactionManager.Lib.Run

/-!
# Two-phase locking and its interleavings

`TwoPLRead`, `TwoPLWrite`, `CreateSavepoint`, `RollbackToSavepoint`, `Commit` and `Abort` of
`internal/txn/manager.go` for 2PL transactions. A transaction makes one call at a time; the
calls of different transactions interleave at their steps. A step is a visit to a lock queue
(with the look-up of the queue before it and the reaping of an empty one after it), the body
that runs under both locks, one undo entry, or the marking of a finished transaction. A
deadlock victim is a wait that gives up and then aborts. The history of a run records what
was done; the undo of an aborted transaction is not recorded.
-/

namespace TransactionManager.Txn
open Lib TransactionManager.Types Lock Storage Wal Option

inductive RowOp where
  | read (row : RowRef)
  | write (row : RowRef) (values : RowData) (op : UndoOpType)
  deriving DecidableEq

def RowOp.row : RowOp → RowRef
  | .read row | .write row _ _ => row

/-- Both operations lock the table first and the row next. -/
inductive LockStage where
  | table | row
  deriving DecidableEq

/-- `ResourceForTable` and `ResourceForRow`. -/
def RowOp.resource (o : RowOp) : LockStage → ResourceID
  | .table => .table o.row.1
  | .row => .row o.row.1 o.row.2

/-- The modes: IS and S for a read, IX and X for a write. -/
def RowOp.mode : RowOp → LockStage → Mode
  | .read _, .table => .is
  | .read _, .row => .s
  | .write .., .table => .ix
  | .write .., .row => .x

/-- Where the call of a transaction stands. It keeps a finished transaction, which is no longer in the manager's map.
The undo entries are in the order in which they are applied. -/
inductive TwoPLCall where
  | acquire (o : RowOp) (stage : LockStage)
  | waiting (o : RowOp) (stage : LockStage) (ch : Nat)
  | body (o : RowOp)
  | rollback (rest : List UndoEntry) (lastCLR position : Nat)
  | undo (txn : Transaction) (rest : List UndoEntry) (lastCLR : Nat)
  | release (txn : Transaction) (rest : List ResourceID) (abortPrevLSN : Option Nat)

/-- What a transaction did. `undo` is an entry undone by a partial rollback, `rollback` its
end. -/
inductive TwoPLEvent where
  | read (t : Nat) (row : RowRef)
  | write (t : Nat) (row : RowRef) (op : UndoOpType) (values : RowData)
  | undo (t : Nat) (row : RowRef)
  | rollback (t position : Nat)
  | commit (t : Nat)
  | abort (t : Nat)
  deriving DecidableEq

namespace Manager

/-- The queue of a lock name; a name the table does not know has an empty one. -/
def queue (m : Manager) (name : GoString) : Queue := (m.lockTable.get name).getD {}

def setQueue (m : Manager) (name : GoString) (q : Queue) : Manager := { m with lockTable := m.lockTable.set name q }

/-- Leave the section of `ReleaseAllLocks`: an empty queue goes from the table. -/
def reapQueue (m : Manager) (name : GoString) (q : Queue) : Manager :=
  { m with
    lockTable := if q.isEmpty then m.lockTable.delete name else m.lockTable.set name q }

/-- The body of `TwoPLRead`: whether there is a table to read from. -/
def twoPLRead (m : Manager) (row : RowRef) : Bool := (m.catalog.lookup row.1).isSome

/-- The switch at the end of `TwoPLWrite`. -/
def applyOp (c : Catalog) (row : RowRef) (values : RowData) : UndoOpType → Catalog
  | .insert | .update => c.modify row.1 fun t => t.putRow row.2 values
  | .delete => c.modify row.1 fun t => t.deleteRow row.2

/-- The body of `TwoPLWrite`; `false` when the table is missing or the codec panics. -/
def twoPLWrite (m : Manager) (txn : Transaction) (row : RowRef) (values : RowData) (op : UndoOpType) : Bool × Manager :=
  match m.catalog.lookup row.1 with
  | none => (false, m)
  | some t =>
    let before := (t.getRow row.2).getD none
    match m.encodeBefore before, m.encodeAfter values with
    | some beforeBytes, some afterBytes =>
      let (_, m) := m.logWrite txn op row before beforeBytes afterBytes
      (true, { m with catalog := applyOp m.catalog row values op })
    | _, _ => (false, m)

/-- The CLR of `applyUndoEntries` for one entry, with the entries still to undo after it. Gives the LSN of the last
CLR. -/
def logCLR (m : Manager) (txnID : Nat) (e : UndoEntry) (more : List UndoEntry) (lastCLR : Nat) : Nat × Manager :=
  if m.wal.isSome ∧ txnID ≠ 0 ∧ e.walWriteLSN ≠ LSNInvalid then
    m.logAppend (clrRecord txnID (if lastCLR = LSNInvalid then e.walWriteLSN else lastCLR)
      ((more.head?.map (·.walWriteLSN)).getD LSNInvalid))
  else (lastCLR, m)

/-- The switch of `applyUndoEntries`. -/
def restore (c : Catalog) (e : UndoEntry) : Catalog :=
  match e.op, e.beforeImage with
  | .insert, _ => c.modify e.table fun t => t.deleteRow e.key
  | _, some image => c.modify e.table fun t => t.putRow e.key (some image)
  | _, none => c

/-- One round of `applyUndoEntries`. -/
def undoEntry (m : Manager) (txnID : Nat) (e : UndoEntry) (more : List UndoEntry) (lastCLR : Nat) : Nat × Manager :=
  let (clr, m) := m.logCLR txnID e more lastCLR
  (clr, { m with catalog := restore m.catalog e })

end Manager

structure TwoPLRun where
  mgr : Manager
  calls : GoMap Nat TwoPLCall := ∅
  nextCh : Nat := 0
  hist : List TwoPLEvent := []

/-- One step of a transaction's call. `giveUp` is a wait that ends by abort, disconnect or timeout; `release` takes
the held resources in any order. -/
inductive TwoPLAction where
  | begin (isoLevel : IsolationLevel)
  | start (t : Nat) (o : RowOp)
  | acquire (t : Nat)
  | granted (t : Nat)
  | giveUp (t : Nat)
  | body (t : Nat)
  | savepoint (t : Nat) (name : GoString)
  | rollback (t : Nat) (name : GoString)
  | undo (t : Nat)
  | commit (t : Nat)
  | abort (t : Nat)
  | release (t : Nat) (r : ResourceID)
  | finish (t : Nat)
  deriving DecidableEq

namespace TwoPLRun

def start (seed : Catalog) (maxActive : Nat) (wal : Option Log) : TwoPLRun where
  mgr := { catalog := seed, maxActive, wal }

def goto (s : TwoPLRun) (t : Nat) (call : Option TwoPLCall) : TwoPLRun :=
  { s with calls := match call with
      | some call => s.calls.set t call
      | none => s.calls.delete t }

def setMgr (s : TwoPLRun) (m : Manager) : TwoPLRun := { s with mgr := m }

def record (s : TwoPLRun) (e : TwoPLEvent) : TwoPLRun := { s with hist := s.hist ++ [e] }

/-- What follows an acquired lock. -/
def locked (o : RowOp) : LockStage → TwoPLCall
  | .table => .acquire o .row
  | .row => .body o

/-- `AcquireLockCtx` up to its return or its wait. -/
def acquire (s : TwoPLRun) (txn : Transaction) (o : RowOp) (stage : LockStage) : TwoPLRun :=
  let r := o.resource stage
  let (result, q, held) := acquireLocked (s.mgr.queue r.name) txn.locksHeld txn.id r (o.mode stage) s.nextCh
  let s' := { s with
    mgr := (s.mgr.setQueue r.name q).putTxn { txn with locksHeld := held }
    nextCh := s.nextCh + 1 }
  match result with
  | .held | .granted => s'.goto txn.id (some (locked o stage))
  | .waiting _ => s'.goto txn.id (some (.waiting o stage s.nextCh))

/-- The request's channel is closed when it moves to the granted ones; only its own transaction takes it out again. -/
def wakes (s : TwoPLRun) (o : RowOp) (stage : LockStage) (ch : Nat) : Bool :=
  (s.mgr.queue (o.resource stage).name).granted.any fun e => e.grantedCh == ch

def next (s : TwoPLRun) : TwoPLAction → Option TwoPLRun
  | .begin isoLevel => some (s.setMgr (s.mgr.begin .twoPL isoLevel).2)
  | .start t o =>
    match s.mgr.txns.get t, s.calls.get t with
    | some txn, none =>
      if txn.isolation = .readUncommitted ∧ o = .read o.row then some (s.goto t (some (.body o)))
      else some (s.goto t (some (.acquire o .table)))
    | _, _ => none
  | .acquire t =>
    match s.mgr.txns.get t, s.calls.get t with
    | some txn, some (.acquire o stage) => some (s.acquire txn o stage)
    | _, _ => none
  | .granted t =>
    match s.mgr.txns.get t, s.calls.get t with
    | some txn, some (.waiting o stage ch) =>
      if s.wakes o stage ch then
        let held := txn.locksHeld.set (o.resource stage) (o.mode stage)
        some ((s.setMgr (s.mgr.putTxn { txn with locksHeld := held })).goto t (some (locked o stage)))
      else none
    | _, _ => none
  | .giveUp t =>
    match s.calls.get t with
    | some (.waiting o stage _) =>
      let name := (o.resource stage).name
      some ((s.setMgr (s.mgr.setQueue name (giveUpLocked (s.mgr.queue name) t))).goto t none)
    | _ => none
  | .body t =>
    match s.mgr.txns.get t, s.calls.get t with
    | some _, some (.body (.read row)) =>
      if s.mgr.twoPLRead row then some ((s.record (.read t row)).goto t none)
      else some (s.goto t none)
    | some txn, some (.body (.write row values op)) =>
      match s.mgr.twoPLWrite txn row values op with
      | (true, m) => some (((s.setMgr m).record (.write t row op values)).goto t none)
      | (false, m) => some ((s.setMgr m).goto t none)
    | _, _ => none
  | .savepoint t name =>
    match s.mgr.txns.get t, s.calls.get t with
    | some txn, none =>
      let savepoints := txn.savepoints ++ [⟨name, txn.undoLog.length⟩]
      some (s.setMgr (s.mgr.putTxn { txn with savepoints }))
    | _, _ => none
  | .rollback t name =>
    match s.mgr.txns.get t, s.calls.get t with
    | some txn, none =>
      match txn.savepoints.reverse.find? fun sp => sp.name = name with
      | none => some s
      | some sp =>
        let entries := txn.undoLog.drop sp.undoPosition
        some (s.goto t (some (.rollback entries.reverse LSNInvalid sp.undoPosition)))
    | _, _ => none
  | .undo t =>
    match s.calls.get t with
    | some (.rollback (e :: more) lastCLR position) =>
      let (clr, m) := s.mgr.undoEntry t e more lastCLR
      some (((s.setMgr m).record (.undo t (e.table, e.key))).goto t (some (.rollback more clr position)))
    | some (.rollback [] _ position) =>
      match s.mgr.txns.get t with
      | some txn =>
        let m := s.mgr.putTxn { txn with undoLog := txn.undoLog.take position }
        some (((s.setMgr m).record (.rollback t position)).goto t none)
      | none => none
    | some (.undo txn (e :: more) lastCLR) =>
      let (clr, m) := s.mgr.undoEntry t e more lastCLR
      some ((s.setMgr m).goto t (some (.undo txn more clr)))
    | some (.undo txn [] lastCLR) =>
      let prev := if lastCLR = LSNInvalid then txn.lastWALLSN else lastCLR
      some (s.goto t (some (.release txn txn.locksHeld.keys (some prev))))
    | _ => none
  | .commit t =>
    match s.mgr.txns.get t, s.calls.get t with
    | some txn, none =>
      let (_, m) := s.mgr.logAppend (commitRecord t txn.lastWALLSN)
      some (((s.setMgr (m.markCommitted t)).record (.commit t)).goto t (some (.release txn txn.locksHeld.keys none)))
    | _, _ => none
  | .abort t =>
    match s.mgr.txns.get t, s.calls.get t with
    | some txn, none =>
      some (((s.setMgr (s.mgr.markAborted t)).record (.abort t)).goto t
        (some (.undo txn txn.undoLog.reverse LSNInvalid)))
    | _, _ => none
  | .release t r =>
    match s.calls.get t with
    | some (.release txn rest prev) =>
      if r ∈ rest then
        let m := match s.mgr.lockTable.get r.name with
          | none => s.mgr
          | some q => s.mgr.reapQueue r.name (releaseLocked q t)
        some ((s.setMgr m).goto t
          (some (.release { txn with locksHeld := txn.locksHeld.delete r } (rest.erase r) prev)))
      else none
    | _ => none
  | .finish t =>
    match s.calls.get t with
    | some (.release _ [] none) => some (s.goto t none)
    | some (.release _ [] (some prev)) =>
      some ((s.setMgr ((s.mgr.logAppend (abortRecord t prev)).2)).goto t none)
    | _ => none

end TwoPLRun

/-!
## Rows under writes and undo

What `TwoPLWrite` and `applyUndoEntries` make of the rows of a catalog. Both change one row
of a table that is there and leave every other row alone.
-/
variable {c : Catalog} {row : RowRef}

structure RowWrite where
  row : RowRef
  op : UndoOpType
  values : RowData
  deriving DecidableEq

def RowWrite.apply (c : Catalog) (w : RowWrite) : Catalog := Manager.applyOp c w.row w.values w.op

def RowWrite.outcome (w : RowWrite) : Option RowData :=
  match w.op with
  | .delete => none
  | _ => some w.values

/-- Two catalogs with the same tables and the same rows. -/
structure SameRows (c c' : Catalog) : Prop where
  tables : ∀ name, (c.lookup name).isSome = (c'.lookup name).isSome
  rows : ∀ row : RowRef, c.row row.1 row.2 = c'.row row.1 row.2

theorem SameRows.refl (c : Catalog) : SameRows c c := ⟨fun _ => rfl, fun _ => rfl⟩

theorem SameRows.trans {c' c'' : Catalog} (one : SameRows c c') (two : SameRows c' c'') : SameRows c c'' :=
  ⟨fun name => (one.tables name).trans (two.tables name), fun row => (one.rows row).trans (two.rows row)⟩

namespace Manager

theorem isSome_lookup_modify (c : Catalog) (name name' : GoString) (f : Table → Table) :
    ((c.modify name f).lookup name').isSome = (c.lookup name').isSome := by
  rw [Catalog.lookup_modify]
  split
  · rename_i eq
    rw [eq, isSome_map]
  · rfl

theorem isSome_lookup_applyOp (c : Catalog) (row : RowRef) (values : RowData) (op : UndoOpType) (name : GoString) :
    ((applyOp c row values op).lookup name).isSome = (c.lookup name).isSome := by
  cases op <;> exact isSome_lookup_modify c row.1 name _

theorem isSome_lookup_restore (c : Catalog) (e : UndoEntry) (name : GoString) :
    ((restore c e).lookup name).isSome = (c.lookup name).isSome := by
  unfold restore
  split
  · exact isSome_lookup_modify c e.table name _
  · exact isSome_lookup_modify c e.table name _
  · rfl

end Manager

theorem row_eq_none (missing : (c.lookup row.1).isSome = false) : c.row row.1 row.2 = none := by
  unfold Catalog.row
  rw [isSome_eq_false_iff.1 missing |> isNone_iff_eq_none.1]
  rfl

theorem row_modify (c : Catalog) (name : GoString) (f : Table → Table)
    (row : RowRef) : (c.modify name f).row row.1 row.2 =
      if row.1 = name then (c.lookup name).bind fun t => (f t).getRow row.2 else c.row row.1 row.2 := by
  unfold Catalog.row
  rw [Catalog.lookup_modify]
  split
  · rw [bind_map]
    rfl
  · rfl

theorem row_modify_key {place : RowRef} {f : Table → Table}
    {new : Option RowData} (change : ∀ t key, (f t).getRow key = if key = place.2 then new else t.getRow key)
    (table : row = place → (c.lookup row.1).isSome) :
    (c.modify place.1 f).row row.1 row.2 = if row = place then new else c.row row.1 row.2 := by
  rw [row_modify]
  by_cases hit : row = place
  · subst hit
    obtain ⟨t, found⟩ := isSome_iff_exists.1 (table rfl)
    rw [if_pos rfl, if_pos rfl, found, bind_some, change, if_pos rfl]
  · rw [if_neg hit]
    by_cases same : row.1 = place.1
    · have key : row.2 ≠ place.2 := fun eq => hit (Prod.ext same eq)
      simp [Catalog.row, same, change, key]
    · rw [if_neg same]

theorem row_putRow (place : RowRef) (values : RowData) (table : row = place → (c.lookup row.1).isSome) :
    (c.modify place.1 fun t => t.putRow place.2 values).row row.1 row.2 =
      if row = place then some values else c.row row.1 row.2 :=
  row_modify_key (fun t key => GoMap.get_set t place.2 key values) table

theorem row_deleteRow (place : RowRef) (table : row = place → (c.lookup row.1).isSome) :
    (c.modify place.1 fun t => t.deleteRow place.2).row row.1 row.2 = if row = place then none else c.row row.1 row.2 :=
  row_modify_key (fun t key => GoMap.get_delete t place.2 key) table

theorem row_apply (c : Catalog) (w : RowWrite) (row : RowRef) (table : row = w.row → (c.lookup row.1).isSome) :
    (w.apply c).row row.1 row.2 = if row = w.row then w.outcome else c.row row.1 row.2 := by
  obtain ⟨place, op, values⟩ := w
  cases op with
  | insert | update => exact row_putRow place values table
  | delete => exact row_deleteRow place table

def UndoEntry.undone (e : UndoEntry) (now : Option RowData) : Option RowData :=
  match e.op, e.beforeImage with
  | .insert, _ => none
  | _, some image => some (some image)
  | _, none => now

theorem row_restore (c : Catalog) (e : UndoEntry) (row : RowRef)
    (table : row = (e.table, e.key) → (c.lookup row.1).isSome) : (Manager.restore c e).row row.1 row.2 =
      if row = (e.table, e.key) then e.undone (c.row row.1 row.2) else c.row row.1 row.2 := by
  obtain ⟨op, name, key, image, lsn⟩ := e
  cases op with
  | insert => exact row_deleteRow (name, key) table
  | update | delete =>
    cases image with
    | none => exact (ite_self _).symm
    | some image => exact row_putRow (name, key) (some image) table

end TransactionManager.Txn
