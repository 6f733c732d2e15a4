import TransactionManager.Types.Value

/-!
# Version chains

`internal/mvcc`: versions, the chain operations of `chain.go`, `IsVisible`
(`visibility.go`) and `checkWriteConflictLocked` (`write_conflict.go`), with the snapshot
of `internal/txn/snapshot.go`. A chain is the list of its versions, newest first.
-/

namespace TransactionManager.Mvcc
open TransactionManager.Types List

/-- `Version`. `xmax = 0` marks a live version. -/
structure Version where
  xmin : Nat
  xmax : Nat := 0
  data : RowData
  lsn : Nat := 0
  deriving DecidableEq

/-- `VersionChain`, newest version first. -/
abbrev VersionChain := List Version

/-- `Snapshot`: the active set at a point in time. -/
structure Snapshot where
  xmin : Nat
  xmax : Nat
  active : List Nat
  deriving DecidableEq

def Snapshot.contains (s : Snapshot) (id : Nat) : Bool := s.active.contains id

/-- Two snapshots that answer alike; their active lists may differ in order. -/
structure Snapshot.Alike (a b : Snapshot) : Prop where
  xmin : a.xmin = b.xmin
  xmax : a.xmax = b.xmax
  contains : a.contains = b.contains

theorem Snapshot.Alike.refl (a : Snapshot) : a.Alike a := ⟨rfl, rfl, rfl⟩

/-- `TxnStatusChecker`: the manager's answers to status questions. -/
structure TxnStatusChecker where
  isCommitted : Nat → Bool
  isAborted : Nat → Bool
  isActive : Nat → Bool

/-- The creator of the version counts as committed for the snapshot, or is the reader. -/
def creatorVisible (v : Version) (txnID : Nat) (snap : Snapshot) (mgr : TxnStatusChecker) : Bool :=
  let selfCreated := v.xmin == txnID
  let committedBeforeSnapshot := decide (v.xmin < snap.xmin) && !mgr.isAborted v.xmin
  let committedDuringWindow := decide (snap.xmin ≤ v.xmin) && decide (v.xmin < snap.xmax) &&
    mgr.isCommitted v.xmin && !snap.contains v.xmin
  selfCreated || committedBeforeSnapshot || committedDuringWindow

/-- The second half of `IsVisible`: the deletion of the version is not seen. -/
def deletionInvisible (v : Version) (txnID : Nat) (snap : Snapshot) (mgr : TxnStatusChecker) : Bool :=
  if v.xmax == 0 then true
  else if v.xmax == txnID then false
  else if snap.contains v.xmax then true
  else if snap.xmax ≤ v.xmax then true
  else mgr.isAborted v.xmax

def isVisible (v : Version) (txnID : Nat) (snap : Snapshot) (mgr : TxnStatusChecker) : Bool :=
  creatorVisible v txnID snap mgr && deletionInvisible v txnID snap mgr

section
variable {a b : Snapshot} {mgr mgr' : TxnStatusChecker}

theorem creatorVisible_congr (alike : a.Alike b) (committed : mgr.isCommitted = mgr'.isCommitted)
    (aborted : mgr.isAborted = mgr'.isAborted) {v w : Version} (creator : v.xmin = w.xmin) (t : Nat) :
    creatorVisible v t a mgr = creatorVisible w t b mgr' := by
  unfold creatorVisible
  rw [alike.xmin, alike.xmax, alike.contains, committed, aborted, creator]

theorem deletionInvisible_congr (alike : a.Alike b) (aborted : mgr.isAborted = mgr'.isAborted)
    {v w : Version} (mark : v.xmax = w.xmax) (t : Nat) :
    deletionInvisible v t a mgr = deletionInvisible w t b mgr' := by
  unfold deletionInvisible
  rw [alike.xmax, alike.contains, aborted, mark]

/-- Visibility reads nothing else of a snapshot and of the manager. -/
theorem isVisible_congr (alike : a.Alike b) (committed : mgr.isCommitted = mgr'.isCommitted)
    (aborted : mgr.isAborted = mgr'.isAborted) (v : Version) (t : Nat) :
    isVisible v t a mgr = isVisible v t b mgr' := by
  unfold isVisible
  rw [creatorVisible_congr alike committed aborted rfl, deletionInvisible_congr alike aborted rfl]

end

/-- `checkWriteConflictLocked`: the creator of the first conflicting version. -/
def checkWriteConflictLocked (txnID : Nat) (snap : Snapshot) (mgr : TxnStatusChecker) : VersionChain → Option Nat
  | [] => none
  | v :: older =>
    if v.xmin = txnID then checkWriteConflictLocked txnID snap mgr older
    else if mgr.isActive v.xmin then some v.xmin
    else if snap.contains v.xmin && mgr.isCommitted v.xmin then some v.xmin
    else checkWriteConflictLocked txnID snap mgr older

namespace VersionChain

def clearXMax (c : VersionChain) (txnID : Nat) : VersionChain :=
  c.map fun v => if v.xmax = txnID then { v with xmax := 0 } else v

def removeByXMin (c : VersionChain) (txnID : Nat) : VersionChain := c.filter fun v => v.xmin != txnID

def prune (c : VersionChain) (pred : Version → Bool) : VersionChain := c.filter fun v => !pred v

/-- `visible.XMax = txnID` on the first version that passes `visible`. -/
def markFirst (visible : Version → Bool) (txnID : Nat) : VersionChain → VersionChain
  | [] => []
  | v :: older =>
    if visible v then { v with xmax := txnID } :: older else v :: markFirst visible txnID older

end VersionChain

theorem checkWriteConflictLocked_eq_none {txnID : Nat} {snap : Snapshot} {mgr : TxnStatusChecker} {c : VersionChain} :
    checkWriteConflictLocked txnID snap mgr c = none ↔ ∀ v ∈ c, v.xmin ≠ txnID → mgr.isActive v.xmin = false ∧
        (snap.contains v.xmin && mgr.isCommitted v.xmin) = false := by
  induction c with
  | nil => simp [checkWriteConflictLocked]
  | cons v older ih =>
    rw [checkWriteConflictLocked]
    by_cases own : v.xmin = txnID
    · simp [own, ih]
    · cases active : mgr.isActive v.xmin <;>
        cases outside : (snap.contains v.xmin && mgr.isCommitted v.xmin) <;> simp_all

/-- Marking changes one version's `xmax` and nothing else. -/
theorem VersionChain.mem_markFirst {visible : Version → Bool} {txnID : Nat} {c : VersionChain}
    {v : Version} (h : v ∈ markFirst visible txnID c) :
    v ∈ c ∨ ∃ old ∈ c, visible old = true ∧ v = { old with xmax := txnID } := by
  induction c with
  | nil => simp [markFirst] at h
  | cons w older ih =>
    rw [markFirst] at h
    split at h
    · rename_i seen
      rcases mem_cons.1 h with rfl | inner
      · exact .inr ⟨w, mem_cons_self, seen, rfl⟩
      · exact .inl (mem_cons_of_mem _ inner)
    · rcases mem_cons.1 h with rfl | inner
      · exact .inl mem_cons_self
      · rcases ih inner with old | ⟨old, mem, seen, eq⟩
        · exact .inl (mem_cons_of_mem _ old)
        · exact .inr ⟨old, mem_cons_of_mem _ mem, seen, eq⟩

end TransactionManager.Mvcc
