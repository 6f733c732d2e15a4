import TransactionManager.Txn.MvccStep

/-!
# The books of the manager

The active map, the committed and the aborted list and the ID counter change in four ways: a
transaction begins, commits or aborts, or nothing happens to them. Every ID that was given out is
in one of the three, whatever the history and the version chains say.
-/

namespace TransactionManager.Txn
open Lib List GoMap Manager

inductive BookStep (m m' : Manager) : Prop where
  | same (same : SameTxns m m')
  | begin (txn : Transaction) (own : txn.id = m.nextID + 1) (txns : m'.txns = m.txns.set (m.nextID + 1) txn)
      (committed : m'.committed = m.committed) (aborted : m'.aborted = m.aborted)
      (nextID : m'.nextID = m.nextID + 1)
  | commit (id : Nat) (active : m.Active id) (txns : m'.txns = m.txns.delete id)
      (committed : m'.committed = id :: m.committed) (aborted : m'.aborted = m.aborted)
      (nextID : m'.nextID = m.nextID)
  | abort (id : Nat) (active : m.Active id) (txns : m'.txns = m.txns.delete id)
      (committed : m'.committed = m.committed) (aborted : m'.aborted = id :: m.aborted)
      (nextID : m'.nextID = m.nextID)

theorem MvccStep.books {s s' : MvccRun} {a : MvccAction} (step : MvccStep s a s') : BookStep s.mgr s'.mgr := by
  cases step with
  | idle same _ _ => exact .same same
  | begin nextID committed aborted _ txns view =>
    exact .begin _ (congrArg (·.1) view) txns committed aborted nextID
  | read _ same _ => exact .same same
  | scan _ same _ => exact .same same
  | write _ _ same _ _ => exact .same same
  | commit found _ txns committed aborted nextID _ =>
    exact .commit _ (active_of_get found) txns committed aborted nextID
  | abort active txns committed aborted nextID _ => exact .abort _ active txns committed aborted nextID
  | undo _ same => exact .same same

/-- Every ID that was given out is active, committed or aborted, and only one of them. -/
structure Ledger (m : Manager) : Prop extends Booked m (· ∈ m.committed) (· ∈ m.aborted) where
  keyed : m.Keyed
  seed : 0 ∈ m.committed
  known : ∀ t, 0 < t → t ≤ m.nextID → m.Active t ∨ t ∈ m.committed ∨ t ∈ m.aborted

section
variable {m m' : Manager}

theorem mem_keys (m : Manager) (t : Nat) : t ∈ m.txns.keys ↔ m.Active t := by
  rw [mem_keys_iff, Active, Option.isSome_iff_exists]

theorem active_of_delete {t u : Nat} (txns : m'.txns = m.txns.delete u) : m'.Active t ↔ t ≠ u ∧ m.Active t := by
  rw [Active, txns]
  exact active_delete m u t

theorem active_of_set {id t : Nat} {txn : Transaction} (txns : m'.txns = m.txns.set id txn) :
    m'.Active t ↔ t = id ∨ m.Active t := by
  rw [Active, txns, get_set]
  split <;> rename_i eq
  · simp [eq]
  · simp [eq, Active]

section
variable (keyed : m.Keyed)
include keyed

theorem keyed_same (same : SameTxns m m') : m'.Keyed := by
  intro t txn' found
  obtain ⟨txn, old, view⟩ := same.txn found
  exact (congrArg (·.1) view).trans (keyed t txn old)

theorem keyed_set {id : Nat} {txn : Transaction} (own : txn.id = id) (txns : m'.txns = m.txns.set id txn) :
    m'.Keyed := by
  intro t txn' found
  rcases of_get_set (txns ▸ found) with ⟨rfl, rfl⟩ | ⟨-, old⟩
  · exact own
  · exact keyed t txn' old

theorem keyed_delete {id : Nat} (txns : m'.txns = m.txns.delete id) : m'.Keyed :=
  fun t txn found => keyed t txn (of_get_delete (txns ▸ found))

end

theorem Ledger.same (inv : Ledger m) (same : SameTxns m m') : Ledger m' where
  toBooked := by
    rw [same.committed, same.aborted]
    exact inv.toBooked.same (fun t => (same.active t).1) same.nextID
  keyed := keyed_same inv.keyed same
  seed := same.committed ▸ inv.seed
  known t := by
    rw [same.active, same.committed, same.aborted, same.nextID]
    exact inv.known t

theorem Ledger.begin (inv : Ledger m) {txn : Transaction} (own : txn.id = m.nextID + 1)
    (txns : m'.txns = m.txns.set (m.nextID + 1) txn) (committed : m'.committed = m.committed)
    (aborted : m'.aborted = m.aborted) (nextID : m'.nextID = m.nextID + 1) : Ledger m' where
  toBooked := by
    rw [committed, aborted]
    exact inv.toBooked.begin (fun t => (active_of_set txns).1) nextID
  keyed := keyed_set inv.keyed own txns
  seed := committed ▸ inv.seed
  known t pos le := by
    rw [active_of_set txns, committed, aborted]
    by_cases new : t = m.nextID + 1
    · exact .inl (.inl new)
    · exact (inv.known t pos (by omega)).imp_left .inr

theorem Ledger.end (inv : Ledger m) {id : Nat} (active : m.Active id) (txns : m'.txns = m.txns.delete id)
    (nextID : m'.nextID = m.nextID)
    (lists : m'.committed = id :: m.committed ∧ m'.aborted = m.aborted ∨
      m'.committed = m.committed ∧ m'.aborted = id :: m.aborted) : Ledger m' where
  toBooked := by
    have left (t : Nat) := (active_of_delete (t := t) txns).1
    rcases lists with ⟨committed, aborted⟩ | ⟨committed, aborted⟩ <;> rw [committed, aborted]
    · exact inv.toBooked.commit active left nextID fun t => mem_cons
    · exact (inv.toBooked.symm.commit active left nextID fun t => mem_cons).symm
  keyed := keyed_delete inv.keyed txns
  seed := by
    rcases lists with ⟨committed, -⟩ | ⟨committed, -⟩ <;> rw [committed]
    · exact mem_cons_of_mem _ inv.seed
    · exact inv.seed
  known t pos le := by
    have := inv.known t pos (nextID ▸ le)
    rw [active_of_delete txns]
    rcases lists with ⟨committed, aborted⟩ | ⟨committed, aborted⟩ <;>
      rw [committed, aborted, mem_cons] <;> tauto

theorem Ledger.step (inv : Ledger m) (step : BookStep m m') : Ledger m' := by
  cases step with
  | same same => exact inv.same same
  | begin txn own txns committed aborted nextID => exact inv.begin own txns committed aborted nextID
  | commit id active txns committed aborted nextID => exact inv.end active txns nextID (.inl ⟨committed, aborted⟩)
  | abort id active txns committed aborted nextID => exact inv.end active txns nextID (.inr ⟨committed, aborted⟩)

theorem BookStep.ended (step : BookStep m m') :
    (∀ t ∈ m.committed, t ∈ m'.committed) ∧ ∀ t ∈ m.aborted, t ∈ m'.aborted := by
  cases step with
  | same same => exact ⟨same.committed ▸ fun _ mem => mem, same.aborted ▸ fun _ mem => mem⟩
  | begin _ _ _ committed aborted _ => exact ⟨committed ▸ fun _ mem => mem, aborted ▸ fun _ mem => mem⟩
  | commit _ _ _ committed aborted _ =>
    exact ⟨committed ▸ fun _ => mem_cons_of_mem _, aborted ▸ fun _ mem => mem⟩
  | abort _ _ _ committed aborted _ =>
    exact ⟨committed ▸ fun _ mem => mem, aborted ▸ fun _ => mem_cons_of_mem _⟩

end

end TransactionManager.Txn
