import TransactionManager.Txn.Vacuum

/-!
# One row of the version store, step by step

`Txn.Mvcc` has a write to a chain as one step on the row. Here one row of `mvcc.Store` is seen from below:
a chain is an object with a lock and a tombstone, the map holds a reference to one such object or
none, and `MVCCWrite`, `ReapEmpty`, `applyMVCCUndo` and the vacuum are goroutines that take turns
between their accesses to the map and to a chain's lock. Deletions from the map name the key and not
the object. `writeLocked_eq` says that the locked part of a write is `Manager.mvccWrite`.
-/

namespace TransactionManager.Txn
open TransactionManager.Types Mvcc List

/-- A `Version` as an object: its fields, and the call of `MVCCWrite` that prepended it, none for one from before the
run. -/
structure Cell where
  call : Option Nat
  version : Version
  deriving DecidableEq

/-- `VersionChain` as an object. `mu` is the goroutine that holds the write lock. -/
structure ChainObject where
  versions : List Cell := []
  tombstoned : Bool := false
  mu : Option Nat := none
  deriving DecidableEq

/-- `visible.XMax = txnID` on the first version that passes `visible`. -/
def Cell.markFirst (visible : Version → Bool) (txnID : Nat) : List Cell → List Cell
  | [] => []
  | cell :: older =>
    if visible cell.version then { cell with version := { cell.version with xmax := txnID } } :: older
    else cell :: markFirst visible txnID older

@[simp] theorem Cell.version_markFirst (visible : Version → Bool) (txnID : Nat) (cells : List Cell) :
    (markFirst visible txnID cells).map version = VersionChain.markFirst visible txnID (cells.map version) := by
  induction cells with
  | nil => rfl
  | cons _ _ ih =>
    simp only [markFirst, map_cons, VersionChain.markFirst]
    split
    · rfl
    · rw [map_cons, ih]

@[simp] theorem Cell.call_markFirst (visible : Version → Bool) (txnID : Nat) (cells : List Cell) :
    (markFirst visible txnID cells).map call = cells.map call := by
  induction cells with
  | nil => rfl
  | cons _ _ ih =>
    rw [markFirst]
    split
    · rfl
    · rw [map_cons, map_cons, ih]

/-- A call of `MVCCWrite` after its first test: the transaction and the snapshot it got, and what it writes. -/
structure WriteCall where
  txn : Transaction
  snap : Snapshot
  values : RowData
  op : UndoOpType

namespace Manager

/-- The log record and the undo entry of a write. Nobody reads the undo log of a transaction that ended meanwhile. -/
def noteWrite (m : Manager) (txn : Transaction) (op : UndoOpType) (row : RowRef) (beforeImage : RowData)
    (before after : List UInt8) : Nat × Manager :=
  match m.txns.get txn.id with
  | some live => m.logWrite live op row beforeImage before after
  | none => m.logAppend (Wal.writeRecord txn.id txn.lastWALLSN op.code row.1 row.2 before after)

/-- The part of `MVCCWrite` under the chain lock. -/
def writeLocked (m : Manager) (row : RowRef) (g : Nat) (w : WriteCall) (cells : List Cell) :
    Outcome × Manager × List Cell :=
  let id := w.txn.id
  let visible := fun v => isVisible v id w.snap m.statusChecker
  let marked := Cell.markFirst visible id cells
  match checkWriteConflictLocked id w.snap m.statusChecker (cells.map Cell.version) with
  | some other => (.err (.writeConflict other), m, cells)
  | none =>
    match w.op with
    | .insert =>
      match m.encodeAfter w.values with
      | none => (.panicked, m, cells)
      | some after =>
        let (lsn, m) := m.noteWrite w.txn .insert row none [] after
        (.ok, m.recordWrite w.txn row, ⟨some g, { xmin := id, data := w.values, lsn }⟩ :: cells)
    | .update =>
      match (cells.map Cell.version).find? visible with
      | none => (.err .rowNotFound, m, cells)
      | some old =>
        match m.encodeBefore old.data, m.encodeAfter w.values with
        | some before, some after =>
          let (lsn, m) := m.noteWrite w.txn .update row old.data before after
          (.ok, m.recordWrite w.txn row, ⟨some g, { xmin := id, data := w.values, lsn }⟩ :: marked)
        | _, _ => (.panicked, m, marked)
    | .delete =>
      match (cells.map Cell.version).find? visible with
      | none => (.err .rowNotFound, m, cells)
      | some old =>
        match m.encodeBefore old.data with
        | none => (.panicked, m, cells)
        | some before =>
          let (_, m) := m.noteWrite w.txn .delete row old.data before []
          (.ok, m.recordWrite w.txn row, marked)

section
variable {m : Manager} {row : RowRef} {g : Nat} {w : WriteCall} {cells : List Cell}

/-- A write keeps every version of the chain, and one that returns nil puts its own in front unless it is
a delete. -/
theorem writeLocked_calls : ((m.writeLocked row g w cells).1 = .ok ∧ w.op ≠ .delete ∧
      (m.writeLocked row g w cells).2.2.map Cell.call = some g :: cells.map Cell.call) ∨
    ((m.writeLocked row g w cells).1 = .ok → w.op = .delete) ∧
      (m.writeLocked row g w cells).2.2.map Cell.call = cells.map Cell.call := by
  obtain ⟨txn, snap, values, op⟩ := w
  unfold writeLocked
  dsimp only
  cases checkWriteConflictLocked txn.id snap m.statusChecker (cells.map Cell.version) with
  | some => exact .inr ⟨by simp, rfl⟩
  | none =>
    cases op with
    | insert =>
      cases m.encodeAfter values with
      | none => exact .inr ⟨by simp, rfl⟩
      | some => exact .inl ⟨rfl, by simp, rfl⟩
    | update =>
      cases (cells.map Cell.version).find? fun v => isVisible v txn.id snap m.statusChecker with
      | none => exact .inr ⟨by simp, rfl⟩
      | some old =>
        dsimp only
        cases m.encodeBefore old.data <;> cases m.encodeAfter values <;> simp
    | delete =>
      cases (cells.map Cell.version).find? fun v => isVisible v txn.id snap m.statusChecker with
      | none => exact .inr ⟨by simp, rfl⟩
      | some old =>
        dsimp only
        cases m.encodeBefore old.data <;> simp

theorem recordWrite_setChain (txn : Transaction) (c : VersionChain) :
    (m.setChain row c).recordWrite txn row = (m.recordWrite txn row).setChain row c := by
  unfold recordWrite
  split <;> rfl

theorem encodeAfter_setChain (values : RowData) (c : VersionChain) :
    (m.setChain row c).encodeAfter values = m.encodeAfter values := rfl

theorem encodeBefore_setChain (data : RowData) (c : VersionChain) :
    (m.setChain row c).encodeBefore data = m.encodeBefore data := rfl

theorem noteWrite_live {txn : Transaction} (found : m.txns.get txn.id = some txn) (op : UndoOpType)
    (image : RowData) (before after : List UInt8) :
    m.noteWrite txn op row image before after = m.logWrite txn op row image before after := by
  rw [noteWrite, found]

/-- With the lock held and the snapshot fresh, the locked part is the write of `Txn.Mvcc`. -/
theorem writeLocked_eq (found : m.txns.get w.txn.id = some w.txn) (fresh : w.snap = m.getSnapshot w.txn)
    (here : m.chain row = cells.map Cell.version) :
    m.mvccWrite w.txn.id row w.values w.op = ((m.writeLocked row g w cells).1,
        (m.writeLocked row g w cells).2.1.setChain row ((m.writeLocked row g w cells).2.2.map Cell.version)) := by
  obtain ⟨txn, snap, values, op⟩ := w
  dsimp only at found fresh ⊢
  subst fresh
  unfold mvccWrite writeLocked
  rw [found]
  simp only [noteWrite_live found]
  rw [here]
  cases checkWriteConflictLocked txn.id (m.getSnapshot txn) m.statusChecker (cells.map Cell.version) with
  | some => rfl
  | none =>
    cases op with
    | insert =>
      rw [encodeAfter_setChain]
      cases m.encodeAfter values with
      | none => rfl
      | some =>
        dsimp only
        rw [logWrite_setChain, setChain_setChain, recordWrite_setChain]
        rfl
    | update =>
      cases (cells.map Cell.version).find? fun v => isVisible v txn.id (m.getSnapshot txn) m.statusChecker with
      | none => rfl
      | some old =>
        dsimp only
        rw [setChain_setChain, encodeAfter_setChain, encodeBefore_setChain]
        cases m.encodeBefore old.data with
        | none => simp
        | some =>
          cases m.encodeAfter values with
          | none => simp
          | some =>
            dsimp only
            rw [logWrite_setChain, setChain_setChain, recordWrite_setChain]
            simp
    | delete =>
      cases (cells.map Cell.version).find? fun v => isVisible v txn.id (m.getSnapshot txn) m.statusChecker with
      | none => rfl
      | some old =>
        dsimp only
        rw [encodeBefore_setChain]
        cases m.encodeBefore old.data with
        | none => rfl
        | some =>
          dsimp only
          rw [logWrite_setChain, setChain_setChain, recordWrite_setChain]
          simp

end

end Manager

def maxRetry : Nat := 4

/-- Where a call of `MVCCWrite` stands. `attempt` counts the tombstoned chains it has met. -/
inductive WritePc where
  /-- `GetOrCreateChain`: `chains.Load`. -/
  | load (attempt : Nat)
  /-- `GetOrCreateChain`: `chain.mu.Lock`. -/
  | probe (attempt c : Nat)
  /-- `GetOrCreateChain`: read the tombstone, `chain.mu.Unlock`. -/
  | probed (attempt c : Nat)
  /-- `GetOrCreateChain`: `chains.Delete`. -/
  | drop (attempt c : Nat)
  /-- `GetOrCreateChain`: `chains.LoadOrStore`. -/
  | store (attempt : Nat)
  /-- `chain.Lock`. -/
  | lock (attempt c : Nat)
  /-- `IsTombstonedLocked`, and `chain.Unlock` when it holds. -/
  | test (attempt c : Nat)
  /-- `EvictChain`. -/
  | evict (attempt c : Nat)
  /-- From the conflict check to the return. -/
  | write (c : Nat)
  /-- The deferred `chain.Unlock`. -/
  | leave (c : Nat) (result : Outcome)
  | returned (result : Outcome)
  deriving DecidableEq

/-- Where a call of `ReapEmpty` stands with the row. -/
inductive ReapPc where
  | range
  | lock (c : Nat)
  /-- Test for emptiness and set the tombstone. -/
  | test (c : Nat)
  /-- `chains.Delete`, under the lock. -/
  | delete (c : Nat)
  | unlock (c : Nat)
  | finished
  deriving DecidableEq

/-- Where `applyMVCCUndo` stands with the row. -/
inductive UndoPc where
  | getChain
  | removeByXMin (c : Nat)
  | clearXMax (c : Nat)
  | finished
  deriving DecidableEq

/-- Where `pruneVersions` stands with the row. -/
inductive PrunePc where
  | range
  | prune (c : Nat)
  | finished
  deriving DecidableEq

inductive Routine where
  | mvccWrite (w : WriteCall) (pc : WritePc)
  | reapEmpty (pc : ReapPc)
  | applyMVCCUndo (txnID : Nat) (pc : UndoPc)
  | pruneVersions (horizon : Nat) (pc : PrunePc)

/-- One row of the store with the goroutines at work on it. Chain objects are numbered as they are created. `gone` are
the calls whose version an abort or the vacuum has removed; `strayUnlock` says that a goroutine has unlocked a chain
it did not hold. -/
structure ChainRun where
  manager : Manager
  chains : Nat → ChainObject := fun _ => {}
  allocated : Nat := 0
  entry : Option Nat := none
  routines : List Routine := []
  gone : List Nat := []
  strayUnlock : Bool := false
  fatal : Bool := false

/-- What can happen next. `manager` stands for whatever the manager does meanwhile elsewhere. -/
inductive ChainAction where
  | manager (m : Manager)
  | mvccWrite (id : Nat) (values : RowData) (op : UndoOpType)
  | reapEmpty
  | abort (id : Nat)
  | pruneVersions
  | step (g : Nat)

namespace ChainRun

def put (s : ChainRun) (c : Nat) (obj : ChainObject) : ChainRun := { s with chains := Function.update s.chains c obj }

def move (s : ChainRun) (g : Nat) (r : Routine) : ChainRun := { s with routines := s.routines.set g r }

def spawn (s : ChainRun) (r : Routine) : ChainRun := { s with routines := s.routines ++ [r] }

/-- `mu.Lock`, which waits for the lock to be free. -/
def lock (s : ChainRun) (g c : Nat) : Option ChainRun :=
  if (s.chains c).mu = none then some (s.put c { s.chains c with mu := some g }) else none

/-- `mu.Unlock`. It does not ask who holds the lock; on a free lock it stops the process. -/
def unlock (s : ChainRun) (g c : Nat) : ChainRun :=
  { s.put c { s.chains c with mu := none } with
    strayUnlock := s.strayUnlock || (s.chains c).mu != some g
    fatal := s.fatal || (s.chains c).mu == none }

/-- `chains.Delete(key)`, whichever chain the key maps to by now. -/
def deleteEntry (s : ChainRun) : ChainRun := { s with entry := none }

/-- The store branch of `chains.LoadOrStore`. -/
def storeNew (s : ChainRun) : ChainRun :=
  { s.put s.allocated {} with entry := some s.allocated, allocated := s.allocated + 1 }

/-- Keep the versions that pass the test, under the chain's lock. -/
def filterVersions (s : ChainRun) (c : Nat) (keep : Version → Bool) : Option ChainRun :=
  let obj := s.chains c
  if obj.mu = none then
    some { s.put c { obj with versions := obj.versions.filter fun cell => keep cell.version } with
      gone := s.gone ++ (obj.versions.filter fun cell => !keep cell.version).filterMap Cell.call }
  else none

/-- `ClearXMax`, under the chain's lock. -/
def clearXMax (s : ChainRun) (c txnID : Nat) : Option ChainRun :=
  let obj := s.chains c
  if obj.mu = none then
    some (s.put c { obj with versions := obj.versions.map fun cell =>
      if cell.version.xmax = txnID then { cell with version := { cell.version with xmax := 0 } } else cell })
  else none

/-- What follows `GetOrCreateChain` in `MVCCWrite`: another round of the loop, or the code after it. -/
def obtained (attempt c : Nat) : WritePc := if attempt < maxRetry then .lock attempt c else .write c

def stepWrite (row : RowRef) (s : ChainRun) (g : Nat) (w : WriteCall) : WritePc → Option ChainRun
  | .load attempt =>
    match s.entry with
    | some c => some (s.move g (.mvccWrite w (.probe attempt c)))
    | none => some (s.move g (.mvccWrite w (.store attempt)))
  | .probe attempt c => (s.lock g c).map (·.move g (.mvccWrite w (.probed attempt c)))
  | .probed attempt c =>
    some ((s.unlock g c).move g (.mvccWrite w
      (if (s.chains c).tombstoned then .drop attempt c else obtained attempt c)))
  | .drop attempt _ => some (s.deleteEntry.move g (.mvccWrite w (.store attempt)))
  | .store attempt =>
    match s.entry with
    | some c => some (s.move g (.mvccWrite w (obtained attempt c)))
    | none => some (s.storeNew.move g (.mvccWrite w (obtained attempt s.allocated)))
  | .lock attempt c => (s.lock g c).map (·.move g (.mvccWrite w (.test attempt c)))
  | .test attempt c =>
    if (s.chains c).tombstoned then some ((s.unlock g c).move g (.mvccWrite w (.evict attempt c)))
    else some (s.move g (.mvccWrite w (.write c)))
  | .evict attempt _ => some (s.deleteEntry.move g (.mvccWrite w (.load (attempt + 1))))
  | .write c =>
    let (result, m, cells) := s.manager.writeLocked row g w (s.chains c).versions
    some (({ s with manager := m }.put c { s.chains c with versions := cells }).move g (.mvccWrite w (.leave c result)))
  | .leave c result => some ((s.unlock g c).move g (.mvccWrite w (.returned result)))
  | .returned _ => none

def stepReap (s : ChainRun) (g : Nat) : ReapPc → Option ChainRun
  | .range =>
    match s.entry with
    | some c => some (s.move g (.reapEmpty (.lock c)))
    | none => some (s.move g (.reapEmpty .finished))
  | .lock c => (s.lock g c).map (·.move g (.reapEmpty (.test c)))
  | .test c =>
    if (s.chains c).versions.isEmpty then
      some ((s.put c { s.chains c with tombstoned := true }).move g (.reapEmpty (.delete c)))
    else some (s.move g (.reapEmpty (.unlock c)))
  | .delete c => some (s.deleteEntry.move g (.reapEmpty (.unlock c)))
  | .unlock c => some ((s.unlock g c).move g (.reapEmpty .finished))
  | .finished => none

def stepUndo (s : ChainRun) (g txnID : Nat) : UndoPc → Option ChainRun
  | .getChain =>
    match s.entry with
    | some c => some (s.move g (.applyMVCCUndo txnID (.removeByXMin c)))
    | none => some (s.move g (.applyMVCCUndo txnID .finished))
  | .removeByXMin c =>
    (s.filterVersions c fun v => v.xmin != txnID).map (·.move g (.applyMVCCUndo txnID (.clearXMax c)))
  | .clearXMax c => (s.clearXMax c txnID).map (·.move g (.applyMVCCUndo txnID .finished))
  | .finished => none

def stepPrune (s : ChainRun) (g horizon : Nat) : PrunePc → Option ChainRun
  | .range =>
    match s.entry with
    | some c => some (s.move g (.pruneVersions horizon (.prune c)))
    | none => some (s.move g (.pruneVersions horizon .finished))
  | .prune c =>
    (s.filterVersions c fun v => !s.manager.prunable horizon v).map (·.move g (.pruneVersions horizon .finished))
  | .finished => none

def stepRoutine (row : RowRef) (s : ChainRun) (g : Nat) : Routine → Option ChainRun
  | .mvccWrite w pc => s.stepWrite row g w pc
  | .reapEmpty pc => s.stepReap g pc
  | .applyMVCCUndo txnID pc => s.stepUndo g txnID pc
  | .pruneVersions horizon pc => s.stepPrune g horizon pc

/-- A call of `MVCCWrite` up to `GetOrCreateChain`: the test of the status and the snapshot. A call that fails the
test touches nothing. -/
def callWrite (s : ChainRun) (id : Nat) (values : RowData) (op : UndoOpType) : Option ChainRun :=
  (s.manager.txns.get id).map fun txn =>
    s.spawn (.mvccWrite ⟨txn, s.manager.getSnapshot txn, values, op⟩ (.load 0))

/-- `Abort` of an MVCC transaction. The undo visits the row if the undo log names it. -/
def callAbort (row : RowRef) (s : ChainRun) (id : Nat) : Option ChainRun := (s.manager.txns.get id).map fun txn =>
    let s := { s with manager := s.manager.markAborted id }
    if txn.undoLog.any fun e => (e.table, e.key) = row then s.spawn (.applyMVCCUndo id .getChain) else s

def next (row : RowRef) (s : ChainRun) (a : ChainAction) : Option ChainRun :=
  if s.fatal then none
  else match a with
    | .manager m => some { s with manager := m }
    | .mvccWrite id values op => s.callWrite id values op
    | .reapEmpty => some (s.spawn (.reapEmpty .range))
    | .abort id => s.callAbort row id
    | .pruneVersions => some (s.spawn (.pruneVersions s.manager.oldestActiveTxnID .range))
    | .step g => (s.routines[g]?).bind (s.stepRoutine row g)

def start (m : Manager) (seed : Option VersionChain) : ChainRun :=
  match seed with
  | none => { manager := m }
  | some versions =>
    { manager := m
      chains := Function.update (fun _ => {}) 0 { versions := versions.map (⟨none, ·⟩) }
      allocated := 1
      entry := some 0 }

end ChainRun

end TransactionManager.Txn
