import TransactionManager.Txn.Identifiers
import TransactionManager.Txn.SnapshotInv
import TransactionManager.Txn.Vacuum

/-!
# What a snapshot shows

Runs of `Begin`, `MVCCRead`, `MVCCScan`, `MVCCWrite`, `Commit` and `Abort` of both protocols and
of `PruneHistory`, with every snapshot that is taken on the way and what had committed by then. As
long as the history is not pruned, `IsVisible` with such a snapshot says at any later time who had
committed when it was taken, whatever has ended since.
-/

namespace TransactionManager.Txn
open Lib TransactionManager.Types Mvcc List Wal MvccRun

/-- A snapshot, the transaction that took it, and what had committed by then. -/
structure View where
  taker : Nat
  snap : Snapshot
  committed : List Nat

/-- A run and the snapshots taken in it. -/
structure ViewRun where
  run : MvccRun
  taken : List View := []

/-- The calls of MVCC transactions with their undo, those of 2PL transactions that concern the books, and the pruning
of the history. -/
inductive ViewAction where
  | mvcc (a : MvccAction)
  | beginTwoPL (isoLevel : IsolationLevel)
  | commitTwoPL (id : Nat)
  | abortTwoPL (id : Nat)
  | pruneHistory

def MvccAction.caller : MvccAction → Option Nat
  | .begin _ | .undo _ => none
  | .read id _ | .scan id .. | .write id .. | .commit id | .abort id => some id

namespace MvccRun

/-- The handlers use the MVCC operations for MVCC transactions only. -/
def forMvcc (s : MvccRun) (a : MvccAction) : Bool :=
  (a.caller.bind fun id => s.mgr.txns.get id).all fun txn => txn.protocol = .mvcc

/-- The snapshot that a statement takes at read-committed. -/
def statementView (s : MvccRun) (id : Nat) : List View :=
  match s.mgr.txns.get id with
  | some txn => if txn.isolation = .readCommitted then [⟨id, s.mgr.takeSnapshot, s.mgr.committed⟩] else []
  | none => []

/-- The snapshots that a call takes: `Begin` one above read-committed, a statement one at it. -/
def fresh (s : MvccRun) (a : MvccAction) (s' : MvccRun) : List View :=
  match a with
  | .begin _ =>
    if s.mgr.nextID < s'.mgr.nextID then
      match (s'.mgr.txns.get s'.mgr.nextID).bind (·.snapshot) with
      | some snap => [⟨s'.mgr.nextID, snap, s.mgr.committed⟩]
      | none => []
    else []
  | .read id _ | .scan id .. | .write id .. => s.statementView id
  | .commit _ | .abort _ | .undo _ => []

end MvccRun

namespace ViewRun

def start (rows : List (RowRef × RowData)) (maxActive : Nat) (wal : Option Log) : ViewRun where
  run := .start rows maxActive wal

def setMgr (s : ViewRun) (m : Manager) (events : List MvccEvent) : ViewRun :=
  { s with run := { s.run with mgr := m, hist := s.run.hist ++ events } }

def next (s : ViewRun) : ViewAction → Option ViewRun
  | .mvcc a =>
    if s.run.forMvcc a then
      (s.run.next a).map fun run => { run, taken := s.taken ++ s.run.fresh a run }
    else none
  | .beginTwoPL isoLevel =>
    match s.run.mgr.begin .twoPL isoLevel with
    | (.ok, m) => some (s.setMgr m [.begin m.nextID])
    | (_, m) => some (s.setMgr m [])
  | .commitTwoPL id =>
    match s.run.mgr.txns.get id with
    | some { protocol := .twoPL, .. } => some (s.setMgr (s.run.mgr.commitStatus id) [.commit id])
    | _ => none
  | .abortTwoPL id =>
    -- the undo of a 2PL transaction concerns the catalog, which no version chain depends on
    match s.run.mgr.txns.get id with
    | some { protocol := .twoPL, .. } => some (s.setMgr (s.run.mgr.markAborted id) [.abort id])
    | _ => none
  | .pruneHistory => some (s.setMgr s.run.mgr.pruneHistory [])

def Unpruned (_ : ViewRun) : ViewAction → Prop
  | .pruneHistory => False
  | _ => True

/-- A version is visible exactly when its creator had committed when the snapshot was taken, or is the taker, and its
deleter neither had nor is. -/
def SnapshotSemantics (s : ViewRun) : Prop := ∀ x ∈ s.taken, s.run.mgr.Active x.taker → ∀ v : Version,
    isVisible v x.taker x.snap s.run.mgr.statusChecker = true ↔ (v.xmin = x.taker ∨ v.xmin ∈ x.committed) ∧
        ¬ (v.xmax ≠ 0 ∧ (v.xmax = x.taker ∨ v.xmax ∈ x.committed))

end ViewRun

/-- `Begin` of either protocol. -/
theorem begin_books (m : Manager) (protocol : ConcurrencyProtocol) (isoLevel : IsolationLevel) :
    BookStep m (m.begin protocol isoLevel).2 := by
  unfold Manager.begin
  split
  · exact .same (.refl m)
  · have logged := { m with nextID := m.nextID + 1 }.sameLists_logAppend (beginRecord (m.nextID + 1))
    exact .begin _ rfl (congrArg (GoMap.set · _ _) logged.txns) logged.committed logged.aborted logged.nextID

/-- The snapshot shows what had committed when it was taken. -/
abbrev View.Fixed (x : View) (m : Manager) : Prop := Shows m x.taker x.snap (· ∈ x.committed)

namespace ViewRun
variable {s s' : ViewRun}

structure Views (s : ViewRun) : Prop where
  ledger : Ledger s.run.mgr
  fixed : ∀ x ∈ s.taken, x.Fixed s.run.mgr

theorem Views.start (rows : List (RowRef × RowData)) (maxActive : Nat) (wal : Option Log) :
    Views (.start rows maxActive wal) :=
  ⟨(BookInv.start rows maxActive wal).toLedger, nofun⟩

theorem Views.setMgr (inv : s.Views) {m : Manager} (step : BookStep s.run.mgr m) (events : List MvccEvent) :
    (s.setMgr m events).Views :=
  ⟨inv.ledger.step step, fun x mem => (inv.fixed x mem).step step⟩

section
variable {s : MvccRun} (inv : Ledger s.mgr) {x : View}
include inv

theorem fixed_statementView {id : Nat} (mem : x ∈ s.statementView id) : x.Fixed s.mgr := by
  unfold statementView at mem
  split at mem
  · split at mem
    · rw [mem_singleton.1 mem]
      exact inv.shows (Nat.lt_succ_self _) fun u low high => by omega
    · cases mem
  · cases mem

/-- `Begin` takes its snapshot after it has advanced the counter to its own ID. -/
theorem fixed_begin {s' : MvccRun} {isoLevel : IsolationLevel} (step : MvccStep s (.begin isoLevel) s')
    (mem : x ∈ s.fresh (.begin isoLevel) s') : x.Fixed s'.mgr := by
  have books := step.books
  unfold fresh at mem
  dsimp only at mem
  split at mem
  · rename_i more
    cases step with
    | idle same _ _ =>
      rw [same.nextID] at more
      omega
    | begin nextID committed aborted _ txns view =>
      split at mem
      · rename_i snap got
        rw [mem_singleton.1 mem]
        rw [txns, nextID, GoMap.get_set, if_pos rfl, Option.bind_some] at got
        have got := (congrArg (·.2.2) view).symm.trans got
        rw [nextID]
        obtain ⟨_, rfl⟩ := of_guard got
        have fixed : View.Fixed ⟨s.mgr.nextID + 1, ⟨_, s.mgr.nextID + 1 + 1, _⟩, _⟩ s.mgr :=
          inv.shows (t := s.mgr.nextID + 1) (by omega) fun u low high => by omega
        exact fixed.step books
      · cases mem
    | abort _ _ _ _ nextID _ =>
      dsimp only at more
      omega
  · cases mem

/-- The snapshots that a call takes. -/
theorem fixed_fresh {s' : MvccRun} {a : MvccAction} (step : MvccStep s a s') (mem : x ∈ s.fresh a s') :
    x.Fixed s'.mgr := by
  cases a with
  | begin => exact fixed_begin inv step mem
  | read | scan | write => exact (fixed_statementView inv mem).step step.books
  | commit | abort | undo => cases mem

end

theorem Views.next (inv : s.Views) {a : ViewAction} (ok : s.Unpruned a) (taken : s.next a = some s') : s'.Views := by
  cases a with
  | mvcc a =>
    dsimp only [ViewRun.next] at taken
    split at taken
    · obtain ⟨run, step, rfl⟩ := Option.map_eq_some_iff.1 taken
      have step := next_cases inv.ledger.keyed step
      exact ⟨inv.ledger.step step.books, forall_mem_append.2 ⟨fun x old => (inv.fixed x old).step step.books,
        fun x new => fixed_fresh inv.ledger step new⟩⟩
    · cases taken
  | beginTwoPL isoLevel =>
    have step := begin_books s.run.mgr .twoPL isoLevel
    dsimp only [ViewRun.next] at taken
    split at taken <;> rename_i eq <;> rw [eq] at step <;> cases taken
    · exact inv.setMgr step _
    · exact inv.setMgr step _
  | commitTwoPL id =>
    dsimp only [ViewRun.next] at taken
    split at taken
    · cases taken
      exact inv.setMgr (Manager.commitStatus_books id).1 _
    · cases taken
  | abortTwoPL id =>
    dsimp only [ViewRun.next] at taken
    split at taken
    · rename_i found
      cases taken
      have step : BookStep s.run.mgr (s.run.mgr.markAborted id) := .abort id (active_of_get found) rfl rfl rfl rfl
      exact inv.setMgr step _
    · cases taken
  | pruneHistory => exact ok.elim

/-- `IsVisible` implements snapshot semantics, over every run that keeps the history. -/
theorem snapshotSemantics (rows : List (RowRef × RowData)) (maxActive : Nat) (wal : Option Log)
    (s : ViewRun) (reached : Reach ViewRun.next Unpruned (.start rows maxActive wal) s) :
    s.SnapshotSemantics := by
  have inv : s.Views := reached.invariant (.start rows maxActive wal) fun _ _ _ inv ok taken => inv.next ok taken
  exact fun x mem _ v => (inv.fixed x mem).isVisible_iff inv.ledger v

instance (s : ViewRun) (a : ViewAction) : Decidable (s.Unpruned a) := by
  unfold Unpruned
  split <;> infer_instance

/-- Transaction 1 updates the row and commits after 2 has begun; 4 reads at read-committed while the 2PL
transaction 3 runs. -/
theorem snapshotSemantics_three_views : ∃ s : ViewRun, Reach ViewRun.next Unpruned (.start oneSeed 0 none) s ∧
    (s.taken.map fun x => (x.taker, x.snap.active, x.committed)) =
      [(1, [], [0]), (2, [1], [0]), (4, [4, 3, 2], [1, 0])] ∧ s.SnapshotSemantics := by
  exact Reach.exists_and [.mvcc (.begin .repeatableRead), .mvcc (.write 1 ([97], [49]) (some [intVal 2]) .update),
      .mvcc (.begin .serializable), .mvcc (.commit 1), .beginTwoPL .repeatableRead,
      .mvcc (.begin .readCommitted), .mvcc (.read 4 ([97], [49])), .abortTwoPL 3]
    (by decide) fun s reached _ => snapshotSemantics oneSeed 0 none s reached

end ViewRun

end TransactionManager.Txn
