import TransactionManager.Txn.Rewind
import TransactionManager.Txn.Savepoint

/-!
# Savepoints of an MVCC transaction

For an MVCC transaction `RollbackToSavepoint` cuts the undo log and leaves the version chains as
they are. What was written since the savepoint stays, and the rows that only the cut entries
name are not rewound by a later `Abort`. A rollback is exact when nothing was written since.
-/

namespace TransactionManager.Txn
open Lib TransactionManager.Types List Option Manager SavepointRun

namespace Manager

/-- `MVCCWrite`, for its effect. -/
def writeVersion (id : Nat) (m : Manager) (w : RowWrite) : Manager := (m.mvccWrite id w.row w.values w.op).2

/-- What `MVCCRead` returns of a row. -/
def readData (m : Manager) (id : Nat) (row : RowRef) : Option (Option RowData) :=
  (m.txns.get id).map fun txn => (m.findVisible txn row).map (·.data)

/-- What a transaction created or marked is as it was before. -/
def LeavesOnly (id : Nat) (m₀ m : Manager) : Prop :=
  ∀ row, ∀ v ∈ m.chain row, v.xmin = id ∨ v.xmax = id → v ∈ m₀.chain row

end Manager

/-- A write in an update is one that the codec takes, with the versions it may supersede, and a
rollback goes to a savepoint after which nothing was written. -/
def NothingToUndo (id : Nat) (s : SavepointRun) : SavepointCall → Prop
  | .write w => w.op = .update → (s.mgr.encodeAfter w.values).isSome = true ∧
      ∀ v ∈ s.mgr.chain w.row, (s.mgr.encodeBefore v.data).isSome = true
  | .rollback name => ∀ sv ∈ s.last name, s.position id ≤ sv.savepoint.undoPosition
  | _ => True

/-- After a rollback the transaction reads what it read when the savepoint was created, and
`Commit` and `Abort` leave nothing that it wrote since. -/
def ChainsAsSaved (id : Nat) (s : SavepointRun) : Prop :=
  ∀ m ∈ s.target, (∀ row, s.mgr.readData id row = m.readData id row) ∧
    m.LeavesOnly id (s.mgr.mvccCommitOrUndo id).2 ∧ m.LeavesOnly id (s.mgr.mvccAbort id).2

namespace Manager
variable {m : Manager} {id : Nat}

/-- A write either adds an undo entry or leaves the chains alone. -/
theorem writeVersion_cases {txn : Transaction} (found : m.txns.get id = some txn) (own : txn.id = id)
    {w : RowWrite} (codec : w.op = .update → (m.encodeAfter w.values).isSome = true ∧
      ∀ v ∈ m.chain w.row, (m.encodeBefore v.data).isSome = true) :
    SameTxns m (m.writeVersion id w) ∧ ∃ txn', (m.writeVersion id w).txns.get id = some txn' ∧
      Continues id txn txn' ∧ (txn'.undoLog.length = txn.undoLog.length + 1 ∨
        txn'.undoLog = txn.undoLog ∧ (m.writeVersion id w).chain = m.chain) := by
  have owns : ∀ txn, m.txns.get id = some txn → txn.id = id := by
    intro txn' found'
    cases found.symm.trans found'
    exact own
  have result := mvccWrite_cases owns w.row w.values w.op
  have same : SameTxns m (m.writeVersion id w) := sameTxns_mvccWrite owns w.row w.values w.op
  refine ⟨same, ?_⟩
  rcases mvccWrite_txns found own w.row w.values w.op with ⟨failed, txns⟩ | ⟨-, -, txn', e, found', continues, undoLog, -⟩
  · refine ⟨txn, by rw [writeVersion, txns, found], .refl own, .inr ⟨rfl, ?_⟩⟩
    cases result with
    | refused _ _ chain => exact chain
    | written _ _ event =>
      -- only an update that panics leaves its mark without an undo entry
      exfalso
      unfold writeEvent at event
      split at event
      · rename_i ok
        exact failed ok
      · rename_i panic
        split at event
        · rename_i op
          obtain ⟨after, before⟩ := codec op
          rw [op] at panic
          exact mvccWrite_update (by rw [found]; rfl) after before panic
        · cases event
      · cases event
  · exact ⟨txn', found', continues, .inl (by rw [undoLog, length_append, length_singleton])⟩

/-- A transaction reads the same in states with the same transactions and chains. -/
theorem readData_of_same {m' : Manager} (same : SameTxns m m') (chain : m'.chain = m.chain) (row : RowRef) :
    m'.readData id row = m.readData id row := by
  unfold readData findVisible
  cases found : m'.txns.get id with
  | none =>
    have none := same.view id
    rw [found, map_none, eq_comm, map_eq_none_iff] at none
    rw [none]
    rfl
  | some txn' =>
    obtain ⟨txn, old, view⟩ := same.txn found
    have own : txn'.id = txn.id := congrArg Prod.fst view
    rw [old, map_some, map_some, chain, own]
    simp only [same.isVisible view]

/-- Rewinding leaves what it does not touch. -/
theorem leavesOnly_of_rewind {m' : Manager} {rows : List RowRef} (pos : id ≠ 0)
    (chain : ∀ row, m'.chain row = m.chain row ∨
      m'.chain row = if row ∈ rows then rewind (m.chain row) id else m.chain row) : m.LeavesOnly id m' := by
  intro row v mem touched
  rcases chain row with same | rewound
  · exact same ▸ mem
  · rw [rewound] at mem
    split at mem
    · obtain ⟨creator, mark⟩ := ne_of_mem_rewind pos mem
      exact absurd touched (by simp [creator, mark])
    · exact mem

end Manager

section
variable {id : Nat} {s s' : SavepointRun} {txn : Transaction}

/-- Since a savepoint that has nothing behind it the chains have not changed. -/
structure VersionInv (id : Nat) (s : SavepointRun) (txn : Transaction) : Prop extends s.Tracks id txn .mvcc where
  same : ∀ sv ∈ s.saved, SameTxns sv.mgr s.mgr
  saved : ∀ sv ∈ s.saved, sv.savepoint.undoPosition ≤ txn.undoLog.length ∧
    (txn.undoLog.length ≤ sv.savepoint.undoPosition → s.mgr.chain = sv.mgr.chain)

def SoundVersions (id : Nat) (s : SavepointRun) : Prop := (∃ txn, VersionInv id s txn) ∧ ChainsAsSaved id s

section
variable (inv : VersionInv id s txn)
include inv

theorem VersionInv.put (txn' : Transaction) (view : txn'.view = txn.view)
    (protocol : txn'.protocol = txn.protocol) (undoLog : txn'.undoLog = txn.undoLog) {saved : List Saved}
    (savepoints : txn'.savepoints = saved.map Saved.savepoint)
    (kept : ∀ sv ∈ saved, (∃ old ∈ s.saved, old.savepoint = sv.savepoint ∧ old.mgr = sv.mgr) ∨
      sv.savepoint.undoPosition = txn.undoLog.length ∧ sv.mgr = s.mgr) (target : Option Manager) :
    VersionInv id ⟨s.mgr.putTxn txn', saved, target⟩ txn' := by
  have own : txn'.id = txn.id := congrArg Prod.fst view
  have same : SameTxns s.mgr (s.mgr.putTxn txn') := s.mgr.sameTxns_putTxn (inv.own ▸ inv.found) view
  refine ⟨⟨(GoMap.get_set ..).trans (if_pos (own.trans inv.own).symm), own.trans inv.own,
    protocol.trans inv.protocol, savepoints⟩, fun sv mem => ?_, fun sv mem => ?_⟩
  · rcases kept sv mem with ⟨old, mem', -, mgr⟩ | ⟨-, mgr⟩
    · exact mgr ▸ (inv.same old mem').trans same
    · exact mgr ▸ same
  · rw [undoLog]
    rcases kept sv mem with ⟨old, mem', savepoint, mgr⟩ | ⟨position, mgr⟩
    · rw [← savepoint, ← mgr]
      exact inv.saved old mem'
    · exact ⟨position.le, fun _ => mgr ▸ rfl⟩

theorem VersionInv.write {w : RowWrite} (codec : w.op = .update → (s.mgr.encodeAfter w.values).isSome = true ∧
      ∀ v ∈ s.mgr.chain w.row, (s.mgr.encodeBefore v.data).isSome = true) :
    ∃ txn', VersionInv id { s with mgr := s.mgr.writeVersion id w, target := none } txn' := by
  obtain ⟨same, txn', found, continues, change⟩ := writeVersion_cases inv.found inv.own codec
  refine ⟨txn', ⟨found, continues.own, continues.protocol.trans inv.protocol,
    continues.savepoints.trans inv.savepoints⟩, fun sv mem => (inv.same sv mem).trans same, fun sv mem => ?_⟩
  obtain ⟨within, chain⟩ := inv.saved sv mem
  rcases change with longer | ⟨undoLog, chains⟩
  · exact ⟨by omega, fun short => by omega⟩
  · rw [undoLog]
    exact ⟨within, fun short => chains.trans (chain short)⟩

/-- A rollback behind which nothing was written changes nothing. -/
theorem VersionInv.rollback (pos : id ≠ 0) {name : GoString} {sv : Saved} (mem : sv ∈ s.saved)
    (named : txn.savepoint? name = some sv.savepoint) (nothing : s.position id ≤ sv.savepoint.undoPosition) :
    (s.mgr.rollbackToSavepoint id name).1 = .ok ∧
    SoundVersions id ⟨(s.mgr.rollbackToSavepoint id name).2, cut s.saved sv.savepoint.undoPosition, some sv.mgr⟩ := by
  rw [inv.position] at nothing
  rw [rollbackToSavepoint_mvcc inv.found named inv.protocol]
  have stored : s.mgr.txns.get txn.id = some txn := inv.own ▸ inv.found
  have same : SameTxns s.mgr (s.mgr.putTxn { txn with undoLog := txn.undoLog.take sv.savepoint.undoPosition }) :=
    s.mgr.sameTxns_putTxn stored rfl
  have chain : s.mgr.chain = sv.mgr.chain := (inv.saved sv mem).2 nothing
  refine ⟨rfl, ⟨_, inv.put { txn with undoLog := txn.undoLog.take sv.savepoint.undoPosition } rfl rfl
    (take_of_length_le nothing) (inv.cut _) (fun sv' mem' => ?_) _⟩, ?_⟩
  · obtain ⟨old, from', rfl⟩ := mem_map.1 mem'
    refine .inl ⟨old, from', ?_⟩
    split <;> exact ⟨rfl, rfl⟩
  · rintro _ ⟨⟩
    have found : (s.mgr.putTxn { txn with undoLog := txn.undoLog.take sv.savepoint.undoPosition }).txns.get id =
        some { txn with undoLog := txn.undoLog.take sv.savepoint.undoPosition } :=
      (GoMap.get_set ..).trans (if_pos inv.own.symm)
    have commit := fun row => chain_mvccCommitOrUndo _ id found row
    have abort := fun row => chain_mvccAbort _ id found row
    rw [show Manager.chain (s.mgr.putTxn _) = sv.mgr.chain from chain] at commit abort
    exact ⟨readData_of_same ((inv.same sv mem).trans same) chain,
      leavesOnly_of_rewind pos commit, leavesOnly_of_rewind pos fun row => .inr (abort row)⟩

theorem VersionInv.step (pos : id ≠ 0) {a : SavepointCall}
    (ok : NothingToUndo id s a) (taken : s.next id (writeVersion id) a = some s') :
    SoundVersions id s' := by
  rcases inv.cases taken with ⟨w, rfl, rfl⟩ | rfl | ⟨saved, rfl, kept⟩ | ⟨name, sv, rfl, last, mem, named, done⟩
  · exact ⟨inv.write ok, nofun⟩
  · exact ⟨⟨txn, { inv with }⟩, nofun⟩
  · refine ⟨⟨_, inv.put { txn with savepoints := saved.map Saved.savepoint } rfl rfl rfl rfl (fun sv mem => ?_) none⟩,
      nofun⟩
    exact (kept sv mem).imp_left fun old => ⟨sv, old, rfl, rfl⟩
  · obtain ⟨returned, sound⟩ := inv.rollback pos mem named (ok sv last)
    cases done returned
    exact sound

end

end

/-- In every run of calls that meet the condition, a rollback that returns nil gives the reads
from when the savepoint was created and leaves nothing written since to `Commit` and `Abort`. -/
theorem chainsAsSaved_of_nothing (m : Manager) (isoLevel : IsolationLevel) (s : SavepointRun)
    (began : (m.begin .mvcc isoLevel).1 = .ok)
    (reached : Reach (SavepointRun.next (m.nextID + 1) (writeVersion (m.nextID + 1)))
      (NothingToUndo (m.nextID + 1)) (.start m .mvcc isoLevel) s) : ChainsAsSaved (m.nextID + 1) s := by
  have inv : SoundVersions (m.nextID + 1) s := by
    refine reached.invariant ?_ fun s a s' inv ok taken => ?_
    · obtain ⟨-, -, txn, found, own, -, savepoints, protocol⟩ := begin_fresh began
      exact ⟨⟨txn, ⟨found, own, protocol, savepoints⟩, nofun, nofun⟩, nofun⟩
    · obtain ⟨⟨txn, inv⟩, -⟩ := inv
      exact inv.step (Nat.succ_ne_zero _) ok taken
  exact inv.2

instance (id : Nat) (s : SavepointRun) (a : SavepointCall) : Decidable (NothingToUndo id s a) := by
  unfold NothingToUndo
  cases_type SavepointCall <;> infer_instance

/-- One row `1` in table `a`, under the seed transaction. -/
def oneVersion : Manager where
  committed := [0]
  mvccStore := seedMVCCStore [(([97], [49]), some [intVal 1])]

/-- The row is updated before the savepoint. -/
theorem chainsAsSaved_earlier_write : ∃ s, Reach (SavepointRun.next 1 (writeVersion 1))
      (NothingToUndo 1) (.start oneVersion .mvcc .repeatableRead) s ∧
    (s.target.map fun m => m.readData 1 ([97], [49])) = some (some (some (some [intVal 2]))) ∧
    ChainsAsSaved 1 s := by
  exact Reach.exists_and [.write ⟨([97], [49]), .update, some [intVal 2]⟩, .create [112], .create [113], .release [113],
      .rollback [112]]
    (by decide) fun s reached _ => chainsAsSaved_of_nothing oneVersion .repeatableRead s rfl reached

/-- An update after the savepoint is still read after the rollback. -/
theorem not_chainsAsSaved : ¬ ∀ (m : Manager) (isoLevel : IsolationLevel) (s : SavepointRun),
    (m.begin .mvcc isoLevel).1 = .ok →
    Reach (SavepointRun.next (m.nextID + 1) (writeVersion (m.nextID + 1))) AnyStep
      (.start m .mvcc isoLevel) s → ChainsAsSaved (m.nextID + 1) s := by
  intro claim
  obtain ⟨s, reached, m, target, differ⟩ := Reach.exists_such (SavepointRun.next 1 (writeVersion 1))
    AnyStep (.start oneVersion .mvcc .repeatableRead)
    [.create [112], .write ⟨([97], [49]), .update, some [intVal 2]⟩, .rollback [112]]
    (fun s => ∃ m ∈ s.target, s.mgr.readData 1 ([97], [49]) ≠ m.readData 1 ([97], [49])) (by decide)
  exact differ ((claim oneVersion .repeatableRead s rfl reached m target).1 ([97], [49]))

end TransactionManager.Txn
