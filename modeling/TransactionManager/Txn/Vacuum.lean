import TransactionManager.Txn.Reads

/-!
# Vacuum and history pruning

`internal/mvcc/vacuum.go`, `ReapEmpty` of `store.go`, and `OldestActiveTxnID` and `PruneHistory`
of `internal/txn/manager.go`. Both passes take the smallest active ID for their horizon. A
snapshot may be older than that: its active list has IDs below the smallest active one.
-/

namespace TransactionManager.Txn
open Lib TransactionManager.Types Mvcc List Manager Reach

def maxHistoryRetained : Nat := 65536

namespace Manager

def oldestActiveTxnID (m : Manager) : Nat := m.txns.keys.min?.getD 0

/-- The test that `pruneVersions` gives to `Prune`. -/
def prunable (m : Manager) (horizon : Nat) (v : Version) : Bool :=
  v.xmax != 0 && decide (v.xmax ≤ horizon) && m.committed.contains v.xmax

/-- The loop of `pruneVersions`. -/
def pruneVersions (m : Manager) (horizon : Nat) : Manager :=
  m.mvccStore.keys.foldl (fun m row => m.setChain row ((m.chain row).prune (m.prunable horizon))) m

def reapEmpty (m : Manager) : Manager := m.mvccStore.keys.foldl (fun m row =>
    if m.chain row = [] then { m with mvccStore := m.mvccStore.delete row } else m) m

/-- The chains after a pass of the vacuum. -/
def vacuum (m : Manager) : Manager := (m.pruneVersions m.oldestActiveTxnID).reapEmpty

/-- The horizon of `PruneHistory`. -/
def historyHorizon (m : Manager) : Nat := if m.oldestActiveTxnID = 0 then m.nextID else m.oldestActiveTxnID

/-- The oldest of the commit records that are over the cap. -/
def overCap (m : Manager) : List Nat :=
  let sorted := ((m.committed.filter (m.historyHorizon ≤ ·)).dedup).insertionSort (· ≤ ·)
  sorted.take (sorted.length - maxHistoryRetained)

/-- `PruneHistory` deletes the commit record of this transaction. -/
def dropsCommit (m : Manager) (id : Nat) : Bool := decide (id < m.historyHorizon) || m.overCap.contains id

/-- `PruneHistory` deletes the abort record of this transaction. -/
def dropsAbort (m : Manager) (id : Nat) : Bool := decide (id < m.historyHorizon)

def pruneHistory (m : Manager) : Manager :=
  { m with
    committed := m.committed.filter fun id => !m.dropsCommit id
    aborted := m.aborted.filter fun id => !m.dropsAbort id }

end Manager

section Vacuum

theorem find?_and {α : Type*} {p q : α → Bool} {l : List α} {a : α} (hit : l.find? p = some a)
    (passes : q a = true) : l.find? (fun x => q x && p x) = some a := by
  obtain ⟨found, before, after, rfl, none⟩ := find?_eq_some_iff_append.1 hit
  refine find?_eq_some_iff_append.2 ⟨by rw [passes, found]; rfl, before, after, rfl, fun x mem => ?_⟩
  simp_all

namespace Manager
variable {m : Manager} {horizon : Nat}

theorem prune_prune (c : VersionChain) (pred : Version → Bool) : (c.prune pred).prune pred = c.prune pred := by
  unfold VersionChain.prune
  rw [filter_filter]
  simp

/-- The loop over the chains: the books stay, and every chain met is pruned. -/
theorem foldl_prune (rows : List RowRef) (m : Manager) :
    SameLists m (rows.foldl (fun m row => m.setChain row ((m.chain row).prune (m.prunable horizon))) m) ∧
    ∀ row, (rows.foldl (fun m row => m.setChain row ((m.chain row).prune (m.prunable horizon))) m).chain row =
      if row ∈ rows then (m.chain row).prune (m.prunable horizon) else m.chain row := by
  induction rows generalizing m with
  | nil => exact ⟨⟨rfl, rfl, rfl, rfl⟩, fun row => rfl⟩
  | cons first rows ih =>
    obtain ⟨same, chain⟩ := ih (m.setChain first ((m.chain first).prune (m.prunable horizon)))
    refine ⟨⟨same.txns, same.committed, same.aborted, same.nextID⟩, fun row => ?_⟩
    have test : (m.setChain first ((m.chain first).prune (m.prunable horizon))).prunable horizon =
        m.prunable horizon := rfl
    rw [foldl_cons, chain row, test, chain_setChain]
    by_cases here : row = first
    · subst here
      simp [prune_prune]
    · simp [here]

theorem chain_pruneVersions (row : RowRef) :
    (m.pruneVersions horizon).chain row = (m.chain row).prune (m.prunable horizon) := by
  unfold pruneVersions
  rw [(foldl_prune _ m).2]
  split
  · rfl
  · rename_i out
    rw [chain_of_not_mem out]
    rfl

theorem chain_reapEmpty (m : Manager) : SameLists m m.reapEmpty ∧ m.reapEmpty.chain = m.chain := by
  unfold reapEmpty
  generalize m.mvccStore.keys = rows
  induction rows generalizing m with
  | nil => exact ⟨⟨rfl, rfl, rfl, rfl⟩, rfl⟩
  | cons row rows ih =>
    rw [foldl_cons]
    split
    · rename_i empty
      obtain ⟨same, chain⟩ := ih { m with mvccStore := m.mvccStore.delete row }
      refine ⟨⟨same.txns, same.committed, same.aborted, same.nextID⟩, chain.trans ?_⟩
      funext row'
      show ((m.mvccStore.delete row).get row').getD [] = _
      rw [GoMap.get_delete]
      split
      · rename_i here
        rw [here, empty]
        rfl
      · rfl
    · exact ih m

theorem vacuum_spec (m : Manager) : SameLists m m.vacuum ∧
    ∀ row, m.vacuum.chain row = (m.chain row).prune (m.prunable m.oldestActiveTxnID) := by
  unfold vacuum
  obtain ⟨books, chain⟩ := (m.pruneVersions m.oldestActiveTxnID).chain_reapEmpty
  have pruned : SameLists m (m.pruneVersions m.oldestActiveTxnID) := (foldl_prune _ m).1
  refine ⟨⟨books.txns.trans pruned.txns, books.committed.trans pruned.committed,
    books.aborted.trans pruned.aborted, books.nextID.trans pruned.nextID⟩, fun row => ?_⟩
  rw [chain, chain_pruneVersions]

/-- The newest version without such a mark that a transaction sees. -/
def seenUnmarked (m : Manager) (txn : Transaction) (row : RowRef) : Option Version :=
  (m.chain row).find? fun v => !m.prunable m.oldestActiveTxnID v &&
    isVisible v txn.id (m.getSnapshot txn) m.statusChecker

theorem findVisible_vacuum (txn : Transaction) (row : RowRef) :
    m.vacuum.findVisible txn row = m.seenUnmarked txn row := by
  obtain ⟨books, chain⟩ := m.vacuum_spec
  rw [books.findVisible, chain, VersionChain.prune, find?_filter, seenUnmarked]
  simp

end Manager

/-- Of every row, the version that the transaction sees has no mark of a committed transaction up
to the smallest active ID, or the next one it sees without such a mark has the same data. -/
def SeesPastHorizon (m : Manager) (txn : Transaction) : Prop :=
  ∀ row ∈ m.mvccStore.keys, ∀ v ∈ m.findVisible txn row, m.prunable m.oldestActiveTxnID v = true →
    ∃ w ∈ m.seenUnmarked txn row, w.data = v.data

instance (m : Manager) (txn : Transaction) : Decidable (SeesPastHorizon m txn) :=
  inferInstanceAs (Decidable (∀ row ∈ _, _))

/-- A pass of the vacuum is invisible to a transaction exactly when it does not see past the
horizon. -/
theorem sameReads_vacuum_iff (m : Manager) (id : Nat) (txn : Transaction) (found : m.txns.get id = some txn) :
    SameReads id m m.vacuum ↔ SeesPastHorizon m txn := by
  have found' : m.vacuum.txns.get id = some txn := by rw [m.vacuum_spec.1.txns, found]
  rw [sameReads_iff found found']
  unfold seenData
  simp only [findVisible_vacuum]
  constructor
  · intro same row _ v hit pruned
    have eq := same row
    rw [Option.mem_def.1 hit, Option.map_some] at eq
    exact Option.map_eq_some_iff.1 eq
  · intro kept row
    cases hit : m.findVisible txn row with
    | none =>
      have : m.seenUnmarked txn row = none := by
        refine find?_eq_none.2 fun v mem => ?_
        have := find?_eq_none.1 hit v mem
        simp_all
      rw [this]
    | some v =>
      cases pruned : m.prunable m.oldestActiveTxnID v with
      | true =>
        obtain ⟨w, survives, data⟩ := kept row (mem_keys_of_findVisible hit) v hit pruned
        rw [Option.mem_def.1 survives, Option.map_some, Option.map_some, data]
      | false =>
        have : m.seenUnmarked txn row = some v := find?_and hit (by rw [pruned]; rfl)
        rw [this]

def oneSeed : List (RowRef × RowData) := [(([97], [49]), some [intVal 1])]

/-- A reader that began after the update. -/
theorem sameReads_vacuum_later_reader : ∃ s, Reach MvccRun.next AnyStep (.start oneSeed 0 none) s ∧
    s.mgr.vacuum.chain ([97], [49]) ≠ s.mgr.chain ([97], [49]) ∧ SameReads 2 s.mgr s.mgr.vacuum := by
  obtain ⟨s, reached, pruned, txn, found, past⟩ := exists_such MvccRun.next AnyStep (.start oneSeed 0 none)
    [.begin .repeatableRead, .write 1 ([97], [49]) (some [intVal 2]) .update, .commit 1, .begin .serializable]
    (fun s => s.mgr.vacuum.chain ([97], [49]) ≠ s.mgr.chain ([97], [49]) ∧
      ∃ txn ∈ s.mgr.txns.get 2, SeesPastHorizon s.mgr txn) (by decide)
  exact ⟨s, reached, pruned, (sameReads_vacuum_iff s.mgr 2 txn found).2 past⟩

/-- A reader that began before the commit loses the old version. -/
theorem not_sameReads_vacuum : ¬ ∀ (rows : List (RowRef × RowData)) (maxActive : Nat) (wal : Option Wal.Log)
    (s : MvccRun), Reach MvccRun.next AnyStep (.start rows maxActive wal) s →
      ∀ id, s.mgr.Active id → SameReads id s.mgr s.mgr.vacuum := by
  intro claim
  obtain ⟨s, reached, active, differ⟩ := exists_such MvccRun.next AnyStep (.start oneSeed 0 none)
    [.begin .repeatableRead, .begin .repeatableRead, .write 1 ([97], [49]) (some [intVal 2]) .update, .commit 1]
    (fun s => (s.mgr.txns.get 2).isSome ∧
      (s.mgr.vacuum.readRow 2 ([97], [49])).toOption ≠ (s.mgr.readRow 2 ([97], [49])).toOption) (by decide)
  exact differ (congrArg _ ((claim oneSeed 0 none s reached 2 active).read _))

end Vacuum

section History

namespace Manager

/-- The test of `checkWriteConflictLocked` on one version. -/
def conflicts (m : Manager) (id : Nat) (snap : Snapshot) (v : Version) : Bool :=
  v.xmin != id && ((m.txns.get v.xmin).isSome || snap.contains v.xmin && m.committed.contains v.xmin)

/-- The creator committed before the snapshot, and `PruneHistory` forgets it. -/
def ForgetsCreator (m : Manager) (id : Nat) (snap : Snapshot) (v : Version) : Prop :=
  v.xmin ≠ id ∧ snap.xmin ≤ v.xmin ∧ v.xmin < snap.xmax ∧ snap.contains v.xmin = false ∧
    v.xmin ∈ m.committed ∧ m.dropsCommit v.xmin = true

/-- The creator aborted before the snapshot, and `PruneHistory` forgets it. -/
def ForgetsRollback (m : Manager) (id : Nat) (snap : Snapshot) (v : Version) : Prop :=
  v.xmin ≠ id ∧ v.xmin < snap.xmin ∧ v.xmin ∈ m.aborted ∧ m.dropsAbort v.xmin = true

/-- The deleter aborted before the snapshot, and `PruneHistory` forgets it. -/
def ForgetsDeleter (m : Manager) (id : Nat) (snap : Snapshot) (v : Version) : Prop :=
  v.xmax ≠ 0 ∧ v.xmax ≠ id ∧ snap.contains v.xmax = false ∧ v.xmax < snap.xmax ∧
    v.xmax ∈ m.aborted ∧ m.dropsAbort v.xmax = true

end Manager

/-- No answer about a version or a chain rests on a record that `PruneHistory` deletes. -/
structure RecordsUnused (m : Manager) (id : Nat) (snap : Snapshot) : Prop where
  creator : ∀ row ∈ m.mvccStore.keys, ∀ v ∈ m.chain row, m.ForgetsCreator id snap v →
    deletionInvisible v id snap m.statusChecker = false
  /-- The deletion is one that the reader sees, or would see without the record of its abort. -/
  rollback : ∀ row ∈ m.mvccStore.keys, ∀ v ∈ m.chain row, m.ForgetsRollback id snap v →
    v.xmax ≠ 0 ∧ (v.xmax = id ∨ snap.contains v.xmax = false ∧ v.xmax < snap.xmax ∧
      (v.xmax ∈ m.aborted → m.dropsAbort v.xmax = true))
  deleter : ∀ row ∈ m.mvccStore.keys, ∀ v ∈ m.chain row, m.ForgetsDeleter id snap v →
    creatorVisible v id snap m.statusChecker = false
  /-- The first writer that the chain conflicts with is active, or its commit is kept. -/
  conflict : ∀ row ∈ m.mvccStore.keys, ∀ v ∈ (m.chain row).find? (m.conflicts id snap),
    (m.txns.get v.xmin).isSome = true ∨ m.dropsCommit v.xmin = false

/-- The answers of `IsVisible` and of the conflict check are those from before. -/
structure SameAnswers (id : Nat) (snap : Snapshot) (m m' : Manager) : Prop where
  visible : ∀ row, ∀ v ∈ m.chain row, isVisible v id snap m'.statusChecker = isVisible v id snap m.statusChecker
  conflict : ∀ row, checkWriteConflictLocked id snap m'.statusChecker (m.chain row) =
    checkWriteConflictLocked id snap m.statusChecker (m.chain row)

namespace Manager
variable {m : Manager} {id : Nat} {snap : Snapshot} {v : Version}

theorem isCommitted_pruneHistory (u : Nat) : m.pruneHistory.statusChecker.isCommitted u =
    (m.committed.contains u && !m.dropsCommit u) := by
  show (m.committed.filter _).contains u = _
  simp only [contains_eq_mem, mem_filter]
  cases m.dropsCommit u <;> simp

theorem isAborted_pruneHistory (u : Nat) : m.pruneHistory.statusChecker.isAborted u =
    (m.aborted.contains u && !m.dropsAbort u) := by
  show (m.aborted.filter _).contains u = _
  simp only [contains_eq_mem, mem_filter]
  cases m.dropsAbort u <;> simp

theorem creatorVisible_of_forgetsCreator (forgets : m.ForgetsCreator id snap v) :
    creatorVisible v id snap m.statusChecker = true ∧
    creatorVisible v id snap m.pruneHistory.statusChecker = false := by
  obtain ⟨other, lower, upper, out, committed, dropped⟩ := forgets
  have below : ¬ v.xmin < snap.xmin := by omega
  unfold creatorVisible
  rw [isCommitted_pruneHistory, dropped, out]
  simp [statusChecker, other, lower, upper, below, committed]

theorem creatorVisible_of_forgetsRollback (forgets : m.ForgetsRollback id snap v) :
    creatorVisible v id snap m.statusChecker = false ∧
    creatorVisible v id snap m.pruneHistory.statusChecker = true := by
  obtain ⟨other, below, aborted, dropped⟩ := forgets
  have lower : ¬ snap.xmin ≤ v.xmin := by omega
  unfold creatorVisible
  rw [isAborted_pruneHistory, dropped]
  simp [statusChecker, other, lower, below, aborted]

theorem creatorVisible_pruneHistory (kept : ¬ m.ForgetsCreator id snap v)
    (kept' : ¬ m.ForgetsRollback id snap v) : creatorVisible v id snap m.pruneHistory.statusChecker =
      creatorVisible v id snap m.statusChecker := by
  unfold creatorVisible
  rw [isCommitted_pruneHistory, isAborted_pruneHistory, Bool.eq_iff_iff]
  simp only [ForgetsCreator, ForgetsRollback] at kept kept'
  simp only [statusChecker, Bool.or_eq_true, Bool.and_eq_true, beq_iff_eq, decide_eq_true_eq,
    Bool.not_eq_true', Bool.and_eq_false_iff, contains_eq_mem, decide_eq_false_iff_not]
  grind

theorem deletionInvisible_of_forgetsDeleter (forgets : m.ForgetsDeleter id snap v) :
    deletionInvisible v id snap m.statusChecker = true ∧
    deletionInvisible v id snap m.pruneHistory.statusChecker = false := by
  obtain ⟨deleted, other, out, upper, aborted, dropped⟩ := forgets
  have lower : ¬ snap.xmax ≤ v.xmax := by omega
  unfold deletionInvisible
  rw [isAborted_pruneHistory, dropped, out]
  simp [statusChecker, deleted, other, lower, aborted]

theorem deletionInvisible_pruneHistory (kept : ¬ m.ForgetsDeleter id snap v) :
    deletionInvisible v id snap m.pruneHistory.statusChecker = deletionInvisible v id snap m.statusChecker := by
  unfold deletionInvisible
  rw [isAborted_pruneHistory]
  simp only [ForgetsDeleter] at kept
  simp only [statusChecker]
  grind

theorem deletionInvisible_pruneHistory_eq_false : deletionInvisible v id snap m.pruneHistory.statusChecker = false ↔
      v.xmax ≠ 0 ∧ (v.xmax = id ∨ snap.contains v.xmax = false ∧ v.xmax < snap.xmax ∧
        (v.xmax ∈ m.aborted → m.dropsAbort v.xmax = true)) := by
  unfold deletionInvisible
  rw [isAborted_pruneHistory]
  grind

/-- When `IsVisible` gives the same answer for a version. -/
theorem isVisible_pruneHistory_iff : isVisible v id snap m.pruneHistory.statusChecker =
      isVisible v id snap m.statusChecker ↔
    (m.ForgetsCreator id snap v → deletionInvisible v id snap m.statusChecker = false) ∧
    (m.ForgetsRollback id snap v → deletionInvisible v id snap m.pruneHistory.statusChecker = false) ∧
    (m.ForgetsDeleter id snap v → creatorVisible v id snap m.statusChecker = false) := by
  unfold isVisible
  by_cases creator : m.ForgetsCreator id snap v
  · obtain ⟨before, after⟩ := creatorVisible_of_forgetsCreator creator
    have single : ¬ m.ForgetsRollback id snap v := by
      rintro ⟨-, below, -⟩
      have := creator.2.1
      omega
    by_cases deleter : m.ForgetsDeleter id snap v
    · simp [before, after, creator, single, deleter, deletionInvisible_of_forgetsDeleter deleter]
    · simp only [before, after, Bool.false_and, Bool.true_and, creator, single, deleter, true_imp_iff,
        false_imp_iff, and_true]
      exact eq_comm
  · by_cases rollback : m.ForgetsRollback id snap v
    · obtain ⟨before, after⟩ := creatorVisible_of_forgetsRollback rollback
      by_cases deleter : m.ForgetsDeleter id snap v
      · simp [before, after, creator, rollback, deleter, deletionInvisible_of_forgetsDeleter deleter]
      · simp [before, after, creator, rollback, deleter]
    · rw [creatorVisible_pruneHistory creator rollback]
      by_cases deleter : m.ForgetsDeleter id snap v
      · obtain ⟨before, after⟩ := deletionInvisible_of_forgetsDeleter deleter
        simp [before, after, creator, rollback, deleter]
      · simp [deletionInvisible_pruneHistory deleter, creator, rollback, deleter]

theorem checkWriteConflictLocked_eq (c : VersionChain) : checkWriteConflictLocked id snap m.statusChecker c =
    (c.find? (m.conflicts id snap)).map (·.xmin) := by
  induction c with
  | nil => rfl
  | cons v older ih =>
    rw [checkWriteConflictLocked, ih, find?_cons]
    simp only [conflicts, statusChecker]
    grind

theorem conflicts_pruneHistory : m.pruneHistory.conflicts id snap v =
    (((m.txns.get v.xmin).isSome || !m.dropsCommit v.xmin) && m.conflicts id snap v) := by
  have committed := m.isCommitted_pruneHistory v.xmin
  simp only [statusChecker] at committed
  unfold conflicts
  show (v.xmin != id && ((m.txns.get v.xmin).isSome || _)) = _
  grind

/-- When the conflict check gives the same answer for a chain. -/
theorem checkWriteConflictLocked_pruneHistory_iff (c : VersionChain) :
    checkWriteConflictLocked id snap m.pruneHistory.statusChecker c =
      checkWriteConflictLocked id snap m.statusChecker c ↔
    ∀ v ∈ c.find? (m.conflicts id snap), (m.txns.get v.xmin).isSome = true ∨ m.dropsCommit v.xmin = false := by
  rw [checkWriteConflictLocked_eq, checkWriteConflictLocked_eq]
  have pruned : m.pruneHistory.conflicts id snap = fun v =>
      ((m.txns.get v.xmin).isSome || !m.dropsCommit v.xmin) && m.conflicts id snap v :=
    funext fun v => conflicts_pruneHistory
  rw [pruned]
  cases hit : c.find? (m.conflicts id snap) with
  | none =>
    have none : c.find? (fun v => ((m.txns.get v.xmin).isSome || !m.dropsCommit v.xmin) &&
        m.conflicts id snap v) = none := by
      refine find?_eq_none.2 fun v mem => ?_
      simp_all
    simp [none]
  | some v =>
    cases kept : ((m.txns.get v.xmin).isSome || !m.dropsCommit v.xmin) with
    | true =>
      rw [find?_and hit kept]
      simpa using kept
    | false =>
      have lost : ¬ ((m.txns.get v.xmin).isSome = true ∨ m.dropsCommit v.xmin = false) := by
        rintro (active | stays) <;> simp_all
      simp only [Option.mem_def, Option.some.injEq, forall_eq', lost, iff_false]
      -- the version found now has another creator, because the test reads only the creator
      intro same
      obtain ⟨w, found, eq⟩ := Option.map_eq_some_iff.1 same
      have test := find?_some found
      rw [eq, kept] at test
      cases test

end Manager

/-- `PruneHistory` is invisible to a transaction exactly when nothing it asks about rests on a
record that is deleted. -/
theorem sameAnswers_pruneHistory_iff (m : Manager) (id : Nat) (txn : Transaction) :
    SameAnswers id (m.getSnapshot txn) m m.pruneHistory ↔ RecordsUnused m id (m.getSnapshot txn) := by
  constructor
  · intro same
    refine ⟨fun row _ v mem => ?_, fun row _ v mem => ?_, fun row _ v mem => ?_, fun row _ => ?_⟩
    · exact (isVisible_pruneHistory_iff.1 (same.visible row v mem)).1
    · rw [← deletionInvisible_pruneHistory_eq_false]
      exact (isVisible_pruneHistory_iff.1 (same.visible row v mem)).2.1
    · exact (isVisible_pruneHistory_iff.1 (same.visible row v mem)).2.2
    · exact (checkWriteConflictLocked_pruneHistory_iff _).1 (same.conflict row)
  · intro unused
    refine ⟨fun row v mem => ?_, fun row => ?_⟩
    · have stored := mem_keys_of_mem_chain mem
      refine isVisible_pruneHistory_iff.2 ⟨unused.creator row stored v mem, ?_, unused.deleter row stored v mem⟩
      rw [deletionInvisible_pruneHistory_eq_false]
      exact unused.rollback row stored v mem
    · refine (checkWriteConflictLocked_pruneHistory_iff _).2 fun v hit => ?_
      have stored := mem_keys_of_mem_chain (mem_of_find?_eq_some hit)
      exact unused.conflict row stored v hit

/-- Transaction 2 committed before transaction 3 began, and transaction 1 after. Its commit record
goes while the snapshot of transaction 3 still asks for it. -/
theorem not_sameAnswers_pruneHistory : ¬ ∀ (rows : List (RowRef × RowData)) (maxActive : Nat)
    (wal : Option Wal.Log) (s : MvccRun), Reach MvccRun.next AnyStep (.start rows maxActive wal) s →
      ∀ id txn, s.mgr.txns.get id = some txn → SameAnswers id (s.mgr.getSnapshot txn) s.mgr s.mgr.pruneHistory := by
  intro claim
  obtain ⟨s, reached, txn, found, differ⟩ := exists_such MvccRun.next AnyStep (.start oneSeed 0 none)
    [.begin .repeatableRead, .begin .repeatableRead, .write 2 ([97], [49]) (some [intVal 2]) .update, .commit 2,
      .begin .repeatableRead, .commit 1]
    (fun s => ∃ txn ∈ s.mgr.txns.get 3, ¬ ∀ v ∈ s.mgr.chain ([97], [49]),
      isVisible v 3 (s.mgr.getSnapshot txn) s.mgr.pruneHistory.statusChecker =
        isVisible v 3 (s.mgr.getSnapshot txn) s.mgr.statusChecker) (by decide)
  exact differ ((claim oneSeed 0 none s reached 3 txn found).visible _)

end History

end TransactionManager.Txn
