import TransactionManager.Txn.MvccStep

/-!
# The undo of an MVCC transaction as a whole

`applyMVCCUndo` rewinds the chain of every row that the undo log names: the versions of the
transaction go and the marks it set are cleared. The other chains stay as they are.
-/

namespace TransactionManager.Txn
open Mvcc List VersionChain

/-- `RemoveByXMin` and then `ClearXMax`. -/
def rewind (c : VersionChain) (id : Nat) : VersionChain := clearXMax (removeByXMin c id) id

/-- Nothing of the transaction is left in a rewound chain. -/
theorem ne_of_mem_rewind {c : VersionChain} {id : Nat} (pos : id ≠ 0) {v : Version}
    (mem : v ∈ rewind c id) : v.xmin ≠ id ∧ v.xmax ≠ id := by
  obtain ⟨old, kept, eq⟩ := mem_map.1 mem
  have creator : old.xmin ≠ id := by simpa using (mem_filter.1 kept).2
  split at eq
  · subst eq
    exact ⟨creator, fun zero => pos zero.symm⟩
  · rename_i mark
    subst eq
    exact ⟨creator, mark⟩

theorem rewind_rewind (c : VersionChain) (id : Nat) : rewind (rewind c id) id = rewind c id := by
  unfold rewind clearXMax removeByXMin
  induction c with
  | nil => rfl
  | cons v c ih =>
    by_cases own : v.xmin = id <;> by_cases mark : v.xmax = id <;> simp_all

namespace Manager
variable (m : Manager) (id : Nat)

theorem undoSteps_append (steps steps' : List UndoStep) :
    m.undoSteps id (steps ++ steps') = (m.undoSteps id steps).undoSteps id steps' := foldl_append

theorem chain_undoRows (rows : List RowRef) (row : RowRef) :
    (m.undoSteps id (rows.flatMap fun row => [.removeByXMin row, .clearXMax row])).chain row =
      if row ∈ rows then rewind (m.chain row) id else m.chain row := by
  induction rows generalizing m with
  | nil => rfl
  | cons first rows ih =>
    rw [flatMap_cons, undoSteps_append]
    have pair : (m.undoSteps id [.removeByXMin first, .clearXMax first]).chain row =
        if row = first then rewind (m.chain row) id else m.chain row := by
      show ((m.undoStep id (.removeByXMin first)).undoStep id (.clearXMax first)).chain row = _
      rw [chain_clearXMax, chain_removeByXMin, chain_removeByXMin, if_pos rfl]
      by_cases same : row = first
      · rw [if_pos same, if_pos same, same]
        rfl
      · rw [if_neg same, if_neg same, if_neg same]
    rw [ih, pair]
    by_cases same : row = first
    · rw [if_pos same, if_pos (mem_cons.2 (.inl same)), rewind_rewind, ite_self]
    · rw [if_neg same]
      simp [same]

end Manager

def Transaction.undoRows (txn : Transaction) : List RowRef := txn.undoLog.map fun e => (e.table, e.key)

namespace Manager
variable (m : Manager) (id : Nat)

theorem chain_mvccUndo (txn : Transaction) (row : RowRef) : (m.undoSteps id txn.mvccUndo).chain row =
      if row ∈ txn.undoRows then rewind (m.chain row) id else m.chain row := by
  unfold Transaction.mvccUndo
  rw [chain_undoRows]
  simp only [mem_eraseDups]
  rfl

/-- What `Abort` makes of the chains. -/
theorem chain_mvccAbort {txn : Transaction} (found : m.txns.get id = some txn) (row : RowRef) :
    (m.mvccAbort id).2.chain row = if row ∈ txn.undoRows then rewind (m.chain row) id else m.chain row := by
  unfold mvccAbort Transaction.mvccAbort
  rw [found]
  dsimp only
  rw [undoSteps_append, undoSteps_append]
  have logged (m : Manager) : (m.undoSteps id [.logAbort txn.lastWALLSN]).chain = m.chain := m.chain_logAppend _
  have cleaned (m : Manager) : (m.undoSteps id
      (if txn.isolation = .serializable then [.cleanup] else [])).chain = m.chain := by
    split <;> rfl
  rw [cleaned, logged, chain_mvccUndo]
  rfl

/-- What `Commit` makes of the chains. -/
theorem chain_mvccCommitOrUndo {txn : Transaction} (found : m.txns.get id = some txn) (row : RowRef) :
    (m.mvccCommitOrUndo id).2.chain row = m.chain row ∨ (m.mvccCommitOrUndo id).2.chain row =
        if row ∈ txn.undoRows then rewind (m.chain row) id else m.chain row := by
  unfold mvccCommitOrUndo mvccCommit
  rw [found]
  dsimp only
  by_cases refused : txn.isolation = .serializable ∧ m.ssiTracker.isPivotLocked id
  · right
    rw [if_pos refused]
    exact chain_mvccUndo _ id txn row
  · left
    rw [if_neg refused]
    have kept := congrFun (m.chain_logAppend (Wal.commitRecord id txn.lastWALLSN)) row
    dsimp only
    split <;> exact kept

end Manager

end TransactionManager.Txn
