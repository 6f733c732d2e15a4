import TransactionManager.Isolation.Ssi
import TransactionManager.Lock.Queue
import TransactionManager.Mvcc.Chain
import TransactionManager.Storage.Catalog
import TransactionManager.Wal.Record

/-!
# The transaction manager

`internal/txn`: transactions, their undo logs, and the manager that owns them. A
transaction is in `txns` exactly while its status is active; the source changes the
status and the map together under `m.mu`. Left out are the fields nothing here reads: the
read and write sets, the conflict flags, the statement snapshot, times and timeouts,
request contexts, the callbacks, and the reset epoch.
-/

namespace TransactionManager.Txn
open Lib TransactionManager.Types Lock Mvcc Wal

inductive ConcurrencyProtocol where
  | twoPL | mvcc
  deriving DecidableEq

inductive IsolationLevel where
  | readUncommitted | readCommitted | repeatableRead | serializable
  deriving DecidableEq

inductive UndoOpType where
  | insert | update | delete
  deriving DecidableEq

instance : Fintype UndoOpType := ⟨{.insert, .update, .delete}, fun op => by cases op <;> decide⟩

/-- The number of an operation in a log record. -/
def UndoOpType.code : UndoOpType → Nat
  | .insert => 0
  | .update => 1
  | .delete => 2

/-- `UndoEntry`: one operation's before-image. -/
structure UndoEntry where
  op : UndoOpType
  table : GoString
  key : GoString
  beforeImage : RowData
  walWriteLSN : Nat
  deriving DecidableEq

structure Savepoint where
  name : GoString
  undoPosition : Nat
  deriving DecidableEq

structure Transaction where
  id : Nat
  protocol : ConcurrencyProtocol
  isolation : IsolationLevel
  snapshot : Option Snapshot := none
  locksHeld : HeldSet := ∅
  undoLog : List UndoEntry := []
  savepoints : List Savepoint := []
  lastWALLSN : Nat := LSNInvalid

abbrev RowRef := GoString × GoString

/-- `Store`: the version chain of each row. The source nests the map by table, which only
speeds up scans. -/
abbrev Store := GoMap RowRef VersionChain

/-- `Manager`. The lock table maps a resource's name to its queue. -/
structure Manager where
  txns : GoMap Nat Transaction := ∅
  committed : List Nat := []
  aborted : List Nat := []
  nextID : Nat := 0
  maxActive : Nat := 0
  lockTable : GoMap GoString Queue := ∅
  catalog : Storage.Catalog := ∅
  mvccStore : Store := ∅
  ssiTracker : Isolation.SSITracker := {}
  wal : Option Log := none

namespace Manager

def Active (m : Manager) (t : Nat) : Prop := (m.txns.get t).isSome = true

instance (m : Manager) (t : Nat) : Decidable (m.Active t) := inferInstanceAs (Decidable (_ = _))

/-- `VacuumChecker`: the status questions the version code asks. -/
def statusChecker (m : Manager) : TxnStatusChecker where
  isCommitted id := m.committed.contains id
  isAborted id := m.aborted.contains id
  isActive id := (m.txns.get id).isSome

def takeSnapshot (m : Manager) : Snapshot where
  xmax := m.nextID + 1
  active := m.txns.keys
  xmin := m.txns.keys.min?.getD (m.nextID + 1)

/-- Append a record when the log is on; no log gives the invalid LSN. -/
def logAppend (m : Manager) (rec : LogRecord) : Nat × Manager :=
  match m.wal with
  | some log => ((log.append rec).1, { m with wal := some (log.append rec).2 })
  | none => (LSNInvalid, m)

/-- Store a transaction record back under its ID. -/
def putTxn (m : Manager) (txn : Transaction) : Manager := { m with txns := m.txns.set txn.id txn }

def begin (m : Manager) (protocol : ConcurrencyProtocol) (isoLevel : IsolationLevel) : Outcome × Manager :=
  if 0 < m.maxActive ∧ m.maxActive ≤ m.txns.keys.length then (.err .tooManyTransactions, m)
  else
    let id := m.nextID + 1
    let m := { m with nextID := id }
    let snapshot := if protocol = .mvcc ∧ isoLevel ≠ .readCommitted then some m.takeSnapshot else none
    let (lsn, m) := m.logAppend (beginRecord id)
    (.ok, m.putTxn { id, protocol, isolation := isoLevel, snapshot, lastWALLSN := lsn })

/-- Take a transaction out of the active map and record it as aborted. -/
def markAborted (m : Manager) (id : Nat) : Manager := { m with txns := m.txns.delete id, aborted := id :: m.aborted }

/-- Take a transaction out of the active map and record it as committed. -/
def markCommitted (m : Manager) (id : Nat) : Manager :=
  { m with txns := m.txns.delete id, committed := id :: m.committed }

/-- What `Commit` and `Abort` answer for an ID that is not active. -/
def commitTerminal (m : Manager) (id : Nat) : Outcome :=
  if m.aborted.contains id then .err .txnAborted
  else if m.committed.contains id then .ok
  else .err (.txnNotFound id)

@[inherit_doc commitTerminal]
def abortTerminal (m : Manager) (id : Nat) : Outcome :=
  if m.committed.contains id then .err (.txnCommitted id) else .ok

/-- `getSnapshot`. An MVCC transaction above read-committed got its snapshot in `Begin`. -/
def getSnapshot (m : Manager) (txn : Transaction) : Snapshot :=
  if txn.isolation = .readCommitted then m.takeSnapshot
  else match txn.snapshot with
    | some snap => snap
    | none => m.takeSnapshot

/-- The versions of a row, newest first; a row with no chain has none. -/
def chain (m : Manager) (row : RowRef) : VersionChain := (m.mvccStore.get row).getD []

/-- Put a version list back under its row. -/
def setChain (m : Manager) (row : RowRef) (c : VersionChain) : Manager := { m with mvccStore := m.mvccStore.set row c }

@[simp] theorem chain_setChain (m : Manager) (row row' : RowRef) (c : VersionChain) :
    (m.setChain row c).chain row' = if row' = row then c else m.chain row' := by
  simp only [chain, setChain, GoMap.get_set]
  split <;> rfl

/-- The before-image bytes of a log record; nil encodes like an empty row. A codec panic
is `none`. -/
def encodeBefore (m : Manager) (data : RowData) : Option (List UInt8) :=
  match m.wal with
  | some _ => encodeValues (data.getD [])
  | none => some []

/-- The after-image bytes of a log record; nil values give none. -/
def encodeAfter (m : Manager) (values : RowData) : Option (List UInt8) :=
  match m.wal, values with
  | some _, some vs => encodeValues vs
  | _, _ => some []

/-- Log a write and append its undo entry. -/
def logWrite (m : Manager) (txn : Transaction) (op : UndoOpType) (row : RowRef)
    (beforeImage : RowData) (before after : List UInt8) : Nat × Manager :=
  let (lsn, logged) := m.logAppend (writeRecord txn.id txn.lastWALLSN op.code row.1 row.2 before after)
  (lsn, logged.putTxn { txn with
    lastWALLSN := if m.wal.isSome then lsn else txn.lastWALLSN
    undoLog := txn.undoLog ++ [⟨op, row.1, row.2, beforeImage, lsn⟩] })

end Manager

theorem active_of_get {m : Manager} {t : Nat} {txn : Transaction} (found : m.txns.get t = some txn) :
    m.Active t := by
  unfold Manager.Active
  rw [found]
  rfl

theorem active_delete (m : Manager) (t u : Nat) : ((m.txns.delete t).get u).isSome = true ↔ u ≠ t ∧ m.Active u := by
  unfold Manager.Active
  rw [GoMap.get_delete]
  split <;> simp [*]

/-- Two manager states with the same transactions. -/
structure SameLists (m m' : Manager) : Prop where
  txns : m'.txns = m.txns
  committed : m'.committed = m.committed
  aborted : m'.aborted = m.aborted
  nextID : m'.nextID = m.nextID

theorem SameLists.refl (m : Manager) : SameLists m m := ⟨rfl, rfl, rfl, rfl⟩

theorem SameLists.trans {m₁ m₂ m₃ : Manager} (a : SameLists m₁ m₂) (b : SameLists m₂ m₃) : SameLists m₁ m₃ :=
  ⟨b.txns.trans a.txns, b.committed.trans a.committed, b.aborted.trans a.aborted, b.nextID.trans a.nextID⟩

theorem SameLists.aborted_sub {m m' : Manager} (same : SameLists m m') : ∀ u ∈ m.aborted, u ∈ m'.aborted := by
  rw [same.aborted]
  exact fun _ mem => mem

/-- The counter and the active map of the manager when the transactions of `C` have committed and those of
`A` have aborted. -/
structure Booked (m : Manager) (C A : Nat → Prop) : Prop where
  running : ∀ t, m.Active t → 0 < t ∧ t ≤ m.nextID ∧ ¬ C t ∧ ¬ A t
  disjoint : ∀ t, C t → ¬ A t
  ended : ∀ t, C t ∨ A t → t ≤ m.nextID

namespace Booked
variable {m m' : Manager} {C A C' : Nat → Prop} {id : Nat} (inv : Booked m C A)
include inv

theorem symm : Booked m A C where
  running t run := by
    obtain ⟨pos, le, notC, notA⟩ := inv.running t run
    exact ⟨pos, le, notA, notC⟩
  disjoint t a c := inv.disjoint t c a
  ended t mem := inv.ended t mem.symm

theorem same (active : ∀ t, m'.Active t → m.Active t) (nextID : m'.nextID = m.nextID) : Booked m' C A where
  running t run := nextID ▸ inv.running t (active t run)
  disjoint := inv.disjoint
  ended := nextID ▸ inv.ended

theorem begin (active : ∀ t, m'.Active t → t = m.nextID + 1 ∨ m.Active t) (nextID : m'.nextID = m.nextID + 1) :
    Booked m' C A where
  running t run := by
    rw [nextID]
    rcases active t run with rfl | old
    · have fresh : ¬ (C (m.nextID + 1) ∨ A (m.nextID + 1)) := fun mem => absurd (inv.ended _ mem) (by omega)
      exact ⟨Nat.succ_pos _, le_rfl, not_or.1 fresh⟩
    · obtain ⟨pos, le, unended⟩ := inv.running t old
      exact ⟨pos, Nat.le_succ_of_le le, unended⟩
  disjoint := inv.disjoint
  ended t mem := by
    rw [nextID]
    exact Nat.le_succ_of_le (inv.ended t mem)

/-- A running transaction commits. Its abort is the same with `C` and `A` exchanged. -/
theorem commit (run : m.Active id) (active : ∀ t, m'.Active t → t ≠ id ∧ m.Active t)
    (nextID : m'.nextID = m.nextID) (more : ∀ t, C' t ↔ t = id ∨ C t) : Booked m' C' A where
  running t run' := by
    obtain ⟨other, old⟩ := active t run'
    obtain ⟨pos, le, notC, notA⟩ := inv.running t old
    rw [nextID, more]
    exact ⟨pos, le, not_or.2 ⟨other, notC⟩, notA⟩
  disjoint t mem := by
    rcases (more t).1 mem with rfl | old
    · exact (inv.running t run).2.2.2
    · exact inv.disjoint t old
  ended t mem := by
    rw [nextID]
    rw [more, or_assoc] at mem
    rcases mem with rfl | old
    · exact (inv.running t run).2.1
    · exact inv.ended t old

end Booked

end TransactionManager.Txn
