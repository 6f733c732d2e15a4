import TransactionManager.Txn.Mvcc

/-!
# What one step of an MVCC run does

The inversion of `MvccRun.next`: for each kind of step, its guards and its effect on the
parts of the state that visibility and conflict checks read. Log records, undo entries
and the SSI tracker are in none of these, so they drop out here.
-/

namespace TransactionManager.Txn
open Lib TransactionManager.Types Mvcc List GoMap Option Wal VersionChain Manager Transaction

/-- What visibility reads of a transaction: isolation level and snapshot. -/
def Transaction.view (txn : Transaction) : Nat × IsolationLevel × Option Snapshot :=
  (txn.id, txn.isolation, txn.snapshot)

/-- Two records of one transaction that visibility reads alike. -/
structure Transaction.Alike (a b : Transaction) : Prop where
  id : a.id = b.id
  isolation : a.isolation = b.isolation
  snapshot : Option.Rel Snapshot.Alike a.snapshot b.snapshot

theorem Transaction.alike_of_view {a b : Transaction} (view : a.view = b.view) : a.Alike b := by
  obtain ⟨id, isolation, snapshot⟩ : a.id = b.id ∧ a.isolation = b.isolation ∧ a.snapshot = b.snapshot := by
    simpa [Transaction.view] using view
  refine ⟨id, isolation, ?_⟩
  rw [snapshot]
  cases b.snapshot with
  | none => exact .none
  | some snap => exact .some (.refl snap)

theorem Transaction.Alike.of_views {a a' b b' : Transaction} (alike : a.Alike b) (view : a'.view = a.view)
    (view' : b'.view = b.view) : a'.Alike b' := by
  simp only [Transaction.view, Prod.mk.injEq] at view view'
  refine ⟨?_, ?_, ?_⟩
  · rw [view.1, view'.1, alike.id]
  · rw [view.2.1, view'.2.1, alike.isolation]
  · rw [view.2.2, view'.2.2]
    exact alike.snapshot

section
variable {m m' : Manager} (nextID : m'.nextID = m.nextID) (active : ∀ t, m'.Active t ↔ m.Active t)
include nextID active

/-- A new snapshot says the same in two states with the same running transactions. -/
theorem Manager.takeSnapshot_alike : m'.takeSnapshot.Alike m.takeSnapshot := by
  have mem (t : Nat) : t ∈ m'.txns.keys ↔ t ∈ m.txns.keys := by
    have := active t
    rw [Active, Active, isSome_iff_exists, isSome_iff_exists] at this
    rw [mem_keys_iff, mem_keys_iff, this]
  refine ⟨?_, congrArg (· + 1) nextID, ?_⟩
  · have least : m'.txns.keys.min? = m.txns.keys.min? := by
      rw [Option.ext_iff]
      intro x
      simp only [min?_eq_some_iff, mem]
    show m'.txns.keys.min?.getD (m'.nextID + 1) = _
    rw [least, nextID]
    rfl
  · funext t
    show m'.txns.keys.contains t = m.txns.keys.contains t
    rw [contains_eq_mem, contains_eq_mem, decide_eq_decide]
    exact mem t

theorem Manager.getSnapshot_alike {txn txn' : Transaction} (alike : txn'.Alike txn) :
    (m'.getSnapshot txn').Alike (m.getSnapshot txn) := by
  obtain ⟨-, level, snapshot⟩ := alike
  unfold getSnapshot
  rw [level]
  split
  · exact takeSnapshot_alike nextID active
  · generalize txn'.snapshot = a, txn.snapshot = b at snapshot
    cases snapshot with
    | none => exact takeSnapshot_alike nextID active
    | some alike => exact alike

end

structure SameTxns (m m' : Manager) : Prop where
  view : ∀ t, (m'.txns.get t).map view = (m.txns.get t).map view
  committed : m'.committed = m.committed
  aborted : m'.aborted = m.aborted
  nextID : m'.nextID = m.nextID

theorem SameLists.sameTxns {m m' : Manager} (same : SameLists m m') : SameTxns m m' :=
  ⟨fun t => by rw [same.txns], same.committed, same.aborted, same.nextID⟩

namespace SameTxns

theorem refl (m : Manager) : SameTxns m m := ⟨fun _ => rfl, rfl, rfl, rfl⟩

theorem trans {m₁ m₂ m₃ : Manager} (a : SameTxns m₁ m₂) (b : SameTxns m₂ m₃) : SameTxns m₁ m₃ :=
  ⟨fun t => (b.view t).trans (a.view t), b.committed.trans a.committed,
    b.aborted.trans a.aborted, b.nextID.trans a.nextID⟩

section
variable {m m' : Manager} (same : SameTxns m m')
include same

theorem active (t : Nat) : m'.Active t ↔ m.Active t := by
  have := congrArg isSome (same.view t)
  simp only [isSome_map] at this
  rw [Active, Active, this]

/-- A transaction of the later state is one of the earlier state, seen alike. -/
theorem txn {t : Nat} {txn' : Transaction} (found : m'.txns.get t = some txn') :
    ∃ txn, m.txns.get t = some txn ∧ txn'.view = txn.view := by
  have := same.view t
  rw [found, map_some, eq_comm, map_eq_some_iff] at this
  obtain ⟨txn, mem, eq⟩ := this
  exact ⟨txn, mem, eq.symm⟩

/-- What a transaction sees does not depend on logs, undo entries and the order of the map. -/
theorem isVisible {txn txn' : Transaction} (view : txn'.view = txn.view) (v : Version) (t : Nat) :
    Mvcc.isVisible v t (m'.getSnapshot txn') m'.statusChecker =
      Mvcc.isVisible v t (m.getSnapshot txn) m.statusChecker := by
  refine isVisible_congr (getSnapshot_alike same.nextID same.active (alike_of_view view)) ?_ ?_ v t
  · unfold statusChecker
    rw [same.committed]
  · unfold statusChecker
    rw [same.aborted]

end

end SameTxns

namespace Manager
variable (m : Manager)

theorem sameLists_logAppend (rec : LogRecord) : SameLists m (m.logAppend rec).2 := by
  unfold logAppend
  split <;> exact ⟨rfl, rfl, rfl, rfl⟩

theorem chain_logAppend (rec : LogRecord) : (m.logAppend rec).2.chain = m.chain := by
  unfold logAppend
  split <;> rfl

theorem sameTxns_setChain (row : RowRef) (c : VersionChain) : SameTxns m (m.setChain row c) :=
  ⟨fun _ => rfl, rfl, rfl, rfl⟩

variable (txn : Transaction)

theorem sameLists_recordRead (row : RowRef) : SameLists m (m.recordRead txn row) := by
  unfold recordRead
  split <;> exact ⟨rfl, rfl, rfl, rfl⟩

theorem chain_recordRead (row : RowRef) : (m.recordRead txn row).chain = m.chain := by
  unfold recordRead
  split <;> rfl

theorem recordReads (table : GoString) (rows : List (GoString × Version)) :
    SameLists m (rows.foldl (fun m r => m.recordRead txn (table, r.1)) m) ∧
      (rows.foldl (fun m r => m.recordRead txn (table, r.1)) m).chain = m.chain := by
  induction rows generalizing m with
  | nil => exact ⟨.refl m, rfl⟩
  | cons r rows ih =>
    obtain ⟨same, chain⟩ := ih (m.recordRead txn (table, r.1))
    exact ⟨(m.sameLists_recordRead txn _).trans same, chain.trans (m.chain_recordRead txn _)⟩

theorem sameTxns_recordWrite (row : RowRef) : SameTxns m (m.recordWrite txn row) := by
  unfold recordWrite
  split <;> exact ⟨fun _ => rfl, rfl, rfl, rfl⟩

theorem chain_recordWrite (row : RowRef) : (m.recordWrite txn row).chain = m.chain := by
  unfold recordWrite
  split <;> rfl

/-- Storing a transaction back with the same view changes nothing visible. -/
theorem sameTxns_putTxn {txn txn' : Transaction} (found : m.txns.get txn.id = some txn)
    (view : txn'.view = txn.view) : SameTxns m (m.putTxn txn') := by
  have id : txn'.id = txn.id := congrArg Prod.fst view
  refine ⟨fun t => ?_, rfl, rfl, rfl⟩
  simp only [putTxn, get_set, id]
  split
  · rename_i eq
    rw [eq, found, map_some, map_some, view]
  · rfl

theorem sameTxns_logWrite {txn : Transaction} (found : m.txns.get txn.id = some txn)
    (op : UndoOpType) (row : RowRef) (image : RowData) (before after : List UInt8) :
    SameTxns m (m.logWrite txn op row image before after).2 := by
  have logged := m.sameLists_logAppend (writeRecord txn.id txn.lastWALLSN op.code row.1 row.2 before after)
  have kept := (congrArg (·.get txn.id) logged.txns).trans found
  exact logged.sameTxns.trans (sameTxns_putTxn _ kept rfl)

theorem chain_logWrite (op : UndoOpType) (row : RowRef) (image : RowData)
    (before after : List UInt8) : (m.logWrite txn op row image before after).2.chain = m.chain :=
  m.chain_logAppend _

/-- The end of a successful write: log it, store the chain, tell the tracker. -/
theorem sameTxns_write {txn : Transaction} (found : m.txns.get txn.id = some txn) (op : UndoOpType) (row : RowRef)
    (image : RowData) (before after : List UInt8) (c : VersionChain) :
    SameTxns m (((m.logWrite txn op row image before after).2.setChain row c).recordWrite txn row) :=
  (m.sameTxns_logWrite found op row image before after).trans
    ((sameTxns_setChain _ row c).trans (sameTxns_recordWrite _ txn row))

theorem chain_setChain_self (row : RowRef) : (m.setChain row (m.chain row)).chain = m.chain := by
  funext row'
  rw [chain_setChain]
  split
  · rename_i eq
    rw [eq]
  · rfl

theorem setChain_setChain (row : RowRef) (c c' : VersionChain) :
    (m.setChain row c).setChain row c' = m.setChain row c' :=
  congrArg (fun store => { m with mvccStore := store }) (AList.insert_insert ..)

theorem logWrite_setChain (op : UndoOpType) (row : RowRef) (image : RowData)
    (before after : List UInt8) (c : VersionChain) :
    (m.setChain row c).logWrite txn op row image before after = ((m.logWrite txn op row image before after).1,
        (m.logWrite txn op row image before after).2.setChain row c) := by
  obtain ⟨_, _, _, _, _, _, _, _, _, wal⟩ := m
  cases wal <;> rfl

/-- A chain operation on the chain of a row; without a chain there is nothing to do. -/
theorem chain_modify {row : RowRef} {f : VersionChain → VersionChain} (empty : f [] = []) (row' : RowRef) :
    (match m.mvccStore.get row with
      | some c => m.setChain row (f c)
      | none => m).chain row' = if row' = row then f (m.chain row) else m.chain row' := by
  cases found : m.mvccStore.get row with
  | some c =>
    have stored : m.chain row = c := by
      unfold chain
      rw [found]
      rfl
    rw [chain_setChain, stored]
  | none =>
    have missing : m.chain row = [] := by
      unfold chain
      rw [found]
      rfl
    rw [missing, empty]
    show m.chain row' = _
    split
    · rename_i same
      rw [same, missing]
    · rfl

theorem chain_removeByXMin (id : Nat) (row row' : RowRef) : (m.undoStep id (.removeByXMin row)).chain row' =
    if row' = row then removeByXMin (m.chain row) id else m.chain row' :=
  m.chain_modify (f := (removeByXMin · id)) rfl row'

theorem chain_clearXMax (id : Nat) (row row' : RowRef) : (m.undoStep id (.clearXMax row)).chain row' =
    if row' = row then clearXMax (m.chain row) id else m.chain row' :=
  m.chain_modify (f := (clearXMax · id)) rfl row'

theorem sameLists_undoStep (id : Nat) (step : UndoStep) : SameLists m (m.undoStep id step) := by
  cases step with
  | removeByXMin row | clearXMax row =>
    dsimp only [undoStep]
    split <;> exact ⟨rfl, rfl, rfl, rfl⟩
  | logAbort lsn => exact m.sameLists_logAppend _
  | cleanup => exact ⟨rfl, rfl, rfl, rfl⟩

def Keyed : Prop := ∀ t txn, m.txns.get t = some txn → txn.id = t

end Manager

/-- The chain of the row after a write with this outcome. -/
def writtenChain (visible : Version → Bool) (id : Nat) (values : RowData) (lsn : Nat) (c : VersionChain) :
    UndoOpType → Outcome → VersionChain
  | .insert, .ok => { xmin := id, data := values, lsn } :: c
  | .update, .ok => { xmin := id, data := values, lsn } :: markFirst visible id c
  | .update, .panicked => markFirst visible id c
  | .delete, .ok => markFirst visible id c
  | _, _ => c

/-- What a write that got past its checks does to the chain of its row. -/
inductive Written (visible : Version → Bool) (id : Nat) (c : VersionChain) :
    UndoOpType → Bool → VersionChain → Prop where
  | insert (v : Version) : v.xmin = id → v.xmax = 0 → Written visible id c .insert true (v :: c)
  | update (v : Version) : v.xmin = id → v.xmax = 0 → (c.find? visible).isSome →
      Written visible id c .update true (v :: markFirst visible id c)
  | mark {op : UndoOpType} {completed : Bool} : op ≠ .insert → (c.find? visible).isSome →
      Written visible id c op completed (markFirst visible id c)

/-- How `MVCCWrite` can end: with the chains as they were and nothing to record, or past
the conflict check with the row's chain rewritten. -/
inductive WriteResult (m : Manager) (id : Nat) (row : RowRef) (op : UndoOpType) : Outcome → Manager → Prop where
  | refused {o : Outcome} {m' : Manager} : writeEvent id row op o = [] → SameTxns m m' →
      m'.chain = m.chain → WriteResult m id row op o m'
  | written {o : Outcome} {m' : Manager} {txn : Transaction} {completed : Bool} : m.txns.get id = some txn →
      checkWriteConflictLocked id (m.getSnapshot txn) m.statusChecker (m.chain row) = none →
      writeEvent id row op o = [.write id row op completed] →
      SameTxns m m' →
      (∀ row' ≠ row, m'.chain row' = m.chain row') →
      Written (fun v => isVisible v id (m.getSnapshot txn) m.statusChecker) id (m.chain row) op
        completed (m'.chain row) →
      WriteResult m id row op o m'

namespace Manager
variable {m : Manager}

section
variable (m) (id : Nat) (txn : Transaction) (row : RowRef) (values : RowData) (op : UndoOpType)
  (visible : Version → Bool)

/-- What `MVCCWrite` leaves behind: the chain of the row, the mark of an update whose values the codec did not take,
or the whole write. -/
inductive WriteShape : Outcome × Manager → Prop where
  | refused {o : Outcome} : o ≠ .ok → (op = .update → o ≠ .panicked) → WriteShape (o, m.setChain row (m.chain row))
  | panicked : op = .update → checkWriteConflictLocked id (m.getSnapshot txn) m.statusChecker (m.chain row) = none →
      ((m.chain row).find? visible).isSome →
      WriteShape (.panicked, m.setChain row (markFirst visible id (m.chain row)))
  | done (image : RowData) (before after : List UInt8) :
      checkWriteConflictLocked id (m.getSnapshot txn) m.statusChecker (m.chain row) = none →
      (op ≠ .insert → ((m.chain row).find? visible).isSome) →
      WriteShape (.ok, ((m.logWrite txn op row image before after).2.setChain row (writtenChain visible id values
          (m.logWrite txn op row image before after).1 (m.chain row) op .ok)).recordWrite txn row)

variable {m id txn} in
theorem mvccWrite_shape (found : m.txns.get id = some txn) :
    WriteShape m id txn row values op (fun v => isVisible v id (m.getSnapshot txn) m.statusChecker)
      (m.mvccWrite id row values op) := by
  unfold mvccWrite
  rw [found]
  dsimp only
  split
  · exact .refused (by simp) (by simp)
  rename_i passed
  cases op with
  | insert =>
    dsimp only
    split
    · exact .refused (by simp) (by simp)
    · rename_i after _
      rw [logWrite_setChain, setChain_setChain]
      exact .done none [] after passed (absurd rfl)
  | update =>
    dsimp only
    split
    · exact .refused (by simp) (by simp)
    · rename_i old hit
      rw [setChain_setChain]
      split
      · rename_i before after _ _
        rw [logWrite_setChain, setChain_setChain]
        exact .done old.data before after passed fun _ => by rw [hit]; rfl
      · exact .panicked rfl passed (by rw [hit]; rfl)
  | delete =>
    dsimp only
    split
    · exact .refused (by simp) (by simp)
    · rename_i old hit
      split
      · exact .refused (by simp) (by simp)
      · rename_i before _
        rw [logWrite_setChain, setChain_setChain]
        exact .done old.data before [] passed fun _ => by rw [hit]; rfl

end

section
variable {id : Nat} (own : ∀ txn, m.txns.get id = some txn → txn.id = id) (row : RowRef) (values : RowData)
    (op : UndoOpType)
include own row values op

theorem mvccWrite_cases :
    WriteResult m id row op (m.mvccWrite id row values op).1 (m.mvccWrite id row values op).2 := by
  cases found : m.txns.get id with
  | none =>
    unfold mvccWrite
    rw [found]
    exact .refused rfl (.refl m) rfl
  | some txn =>
    have shape := mvccWrite_shape row values op found
    generalize m.mvccWrite id row values op = r at shape ⊢
    cases shape with
    | @refused o failed whole =>
      refine .refused ?_ (m.sameTxns_setChain row _) (m.chain_setChain_self row)
      cases o with
      | ok => exact absurd rfl failed
      | err _ => rfl
      | panicked => exact if_neg fun update => whole update rfl
    | panicked update passed hit =>
      subst update
      refine .written found passed rfl (m.sameTxns_setChain row _) (fun row' ne => ?_) ?_
      · rw [chain_setChain, if_neg ne]
      · rw [chain_setChain, if_pos rfl]
        exact .mark (by decide) hit
    | done image before after passed hit =>
      have self : m.txns.get txn.id = some txn := by rw [own txn found, found]
      refine .written found passed rfl (m.sameTxns_write self ..) (fun row' ne => ?_) ?_
      · rw [chain_recordWrite, chain_setChain, if_neg ne, chain_logWrite]
      · rw [chain_recordWrite, chain_setChain, if_pos rfl]
        cases op with
        | insert => exact .insert _ rfl rfl
        | update => exact .update _ rfl rfl (hit (by decide))
        | delete => exact .mark (by decide) (hit (by decide))

theorem sameTxns_mvccWrite : SameTxns m (m.mvccWrite id row values op).2 := by
  cases mvccWrite_cases own row values op with
  | refused _ same _ => exact same
  | written _ _ _ same _ _ => exact same

end

theorem mvccBegin_cases (m : Manager) (isoLevel : IsolationLevel) :
    m.begin .mvcc isoLevel = (.err .tooManyTransactions, m) ∨
      ∃ txn m', m.begin .mvcc isoLevel = (.ok, m') ∧ m'.nextID = m.nextID + 1 ∧
        m'.committed = m.committed ∧ m'.aborted = m.aborted ∧ m'.chain = m.chain ∧
        m'.txns = m.txns.set (m.nextID + 1) txn ∧
        txn.view = (m.nextID + 1, isoLevel,
          if isoLevel ≠ .readCommitted then some { m with nextID := m.nextID + 1 }.takeSnapshot
          else none) ∧ txn.undoLog = [] := by
  unfold begin
  split
  · exact .inl rfl
  right
  generalize counted : { m with nextID := m.nextID + 1 } = m₁
  have logged := m₁.sameLists_logAppend (beginRecord (m.nextID + 1))
  have chain := m₁.chain_logAppend (beginRecord (m.nextID + 1))
  subst counted
  exact ⟨⟨m.nextID + 1, .mvcc, isoLevel, _, ∅, [], [], _⟩, _, rfl, logged.nextID,
    logged.committed, logged.aborted, chain, congrArg (GoMap.set · _ _) logged.txns, by
      simp [view], rfl⟩

end Manager

inductive MvccStep (s : MvccRun) : MvccAction → MvccRun → Prop where
  | idle {a : MvccAction} {m' : Manager} {undoing' : GoMap Nat (List UndoStep)} :
      SameTxns s.mgr m' → m'.chain = s.mgr.chain →
      (∀ t, (undoing'.get t).isSome → (s.undoing.get t).isSome) →
      MvccStep s a ⟨m', undoing', s.hist⟩
  | begin {isoLevel : IsolationLevel} {m' : Manager} {txn : Transaction} :
      m'.nextID = s.mgr.nextID + 1 → m'.committed = s.mgr.committed →
      m'.aborted = s.mgr.aborted → m'.chain = s.mgr.chain →
      m'.txns = s.mgr.txns.set (s.mgr.nextID + 1) txn →
      txn.view = (s.mgr.nextID + 1, isoLevel, if isoLevel ≠ .readCommitted then
          some { s.mgr with nextID := s.mgr.nextID + 1 }.takeSnapshot
        else none) →
      MvccStep s (.begin isoLevel) ⟨m', s.undoing, s.hist ++ [.begin (s.mgr.nextID + 1)]⟩
  | read {id : Nat} {row : RowRef} {txn : Transaction} {m' : Manager} :
      s.mgr.txns.get id = some txn → SameTxns s.mgr m' → m'.chain = s.mgr.chain →
      MvccStep s (.read id row) ⟨m', s.undoing, s.hist ++ [.read id row ((s.mgr.findVisible txn row).map (·.xmin))]⟩
  | scan {id : Nat} {table : GoString} {filter : GoString → RowData → Bool} {txn : Transaction} {m' : Manager} :
      s.mgr.txns.get id = some txn → SameTxns s.mgr m' → m'.chain = s.mgr.chain →
      MvccStep s (.scan id table filter) ⟨m', s.undoing, s.hist ++
        [.scan id table ((s.mgr.visibleRows txn table).map fun r => (r.1, r.2.xmin))]⟩
  | write {id : Nat} {row : RowRef} {values : RowData} {op : UndoOpType} {txn : Transaction}
      {completed : Bool} {m' : Manager} :
      s.mgr.txns.get id = some txn →
      checkWriteConflictLocked id (s.mgr.getSnapshot txn) s.mgr.statusChecker (s.mgr.chain row) = none →
      SameTxns s.mgr m' → (∀ row' ≠ row, m'.chain row' = s.mgr.chain row') →
      Written (fun v => isVisible v id (s.mgr.getSnapshot txn) s.mgr.statusChecker) id
        (s.mgr.chain row) op completed (m'.chain row) →
      MvccStep s (.write id row values op) ⟨m', s.undoing, s.hist ++ [.write id row op completed]⟩
  | commit {id : Nat} {txn : Transaction} {m' : Manager} : s.mgr.txns.get id = some txn →
      ¬ (txn.isolation = .serializable ∧ s.mgr.ssiTracker.isPivotLocked id) →
      m'.txns = s.mgr.txns.delete id → m'.committed = id :: s.mgr.committed →
      m'.aborted = s.mgr.aborted → m'.nextID = s.mgr.nextID → m'.chain = s.mgr.chain →
      MvccStep s (.commit id) ⟨m', s.undoing, s.hist ++ [.commit id]⟩
  | abort {a : MvccAction} {id : Nat} {m' : Manager} {steps : List UndoStep} :
      s.mgr.Active id → m'.txns = s.mgr.txns.delete id → m'.committed = s.mgr.committed →
      m'.aborted = id :: s.mgr.aborted → m'.nextID = s.mgr.nextID → m'.chain = s.mgr.chain →
      MvccStep s a ⟨m', s.undoing.set id steps, s.hist ++ [.abort id]⟩
  | undo {id : Nat} {row : RowRef} {m' : Manager} {undoing' : GoMap Nat (List UndoStep)} :
      (s.undoing.get id).isSome → SameTxns s.mgr m' →
      (∀ row' ≠ row, m'.chain row' = s.mgr.chain row') →
      (m'.chain row = removeByXMin (s.mgr.chain row) id ∨ m'.chain row = clearXMax (s.mgr.chain row) id) →
      (∀ t, (undoing'.get t).isSome → (s.undoing.get t).isSome) →
      MvccStep s (.undo id) ⟨m', undoing', s.hist⟩

theorem MvccStep.refl {s : MvccRun} {a : MvccAction} : MvccStep s a s := .idle (.refl _) rfl fun _ h => h

namespace MvccRun
variable {s s' : MvccRun}

-- The equations of `next` are made here, once for all its cases.
attribute [local simp] next

theorem begin_cases {isoLevel : IsolationLevel} (taken : s.next (.begin isoLevel) = some s') :
    MvccStep s (.begin isoLevel) s' := by
  simp only [next] at taken
  rcases s.mgr.mvccBegin_cases isoLevel with
    full | ⟨txn, m', began, nextID, committed, aborted, chain, txns, view, -⟩
  · rw [full] at taken
    cases taken
    exact .refl
  · rw [began] at taken
    cases taken
    rw [nextID]
    exact .begin nextID committed aborted chain txns view

variable {id : Nat}

theorem read_cases {row : RowRef} (taken : s.next (.read id row) = some s') : MvccStep s (.read id row) s' := by
  simp only [next, mvccRead] at taken
  split at taken <;> rename_i eq <;> cases taken <;> split at eq
  · cases eq
  · rename_i txn found
    have step m' := @MvccStep.read s id row txn m' found
    split at eq <;> cases eq <;> rename_i hit <;> rw [hit] at step
    · exact step _ (.refl _) rfl
    · exact step _ (s.mgr.sameLists_recordRead txn row).sameTxns (s.mgr.chain_recordRead txn row)
  · cases eq
    exact .refl
  · split at eq <;> cases eq

theorem scan_cases {table : GoString} {filter : GoString → RowData → Bool}
    (taken : s.next (.scan id table filter) = some s') : MvccStep s (.scan id table filter) s' := by
  simp only [next, mvccScan] at taken
  cases found : s.mgr.txns.get id with
  | none =>
    rw [found] at taken
    cases taken
    exact .refl
  | some txn =>
    rw [found] at taken
    cases taken
    obtain ⟨same, chain⟩ := s.mgr.recordReads txn table (s.mgr.visibleRows txn table)
    exact .scan found same.sameTxns chain

theorem write_cases (keyed : s.mgr.Keyed) {row : RowRef} {values : RowData}
    {op : UndoOpType} (taken : s.next (.write id row values op) = some s') :
    MvccStep s (.write id row values op) s' := by
  have result := s.mgr.mvccWrite_cases (keyed id) row values op
  cases taken
  cases result with
  | refused event same chain =>
    rw [event, append_nil]
    exact .idle same chain fun _ h => h
  | written found passed event same others written =>
    rw [event]
    exact .write found passed same others written

theorem commit_cases (taken : s.next (.commit id) = some s') : MvccStep s (.commit id) s' := by
  simp only [next] at taken
  split at taken
  · cases taken
    exact .refl
  rename_i txn found
  simp only [mvccCommit, found] at taken
  have logged := s.mgr.sameLists_logAppend (commitRecord id txn.lastWALLSN)
  have chain := s.mgr.chain_logAppend (commitRecord id txn.lastWALLSN)
  by_cases refused : txn.isolation = .serializable ∧ s.mgr.ssiTracker.isPivotLocked id
  · rw [if_pos refused] at taken
    cases taken
    exact .abort (by rw [Active, found]; rfl) rfl rfl rfl rfl rfl
  · rw [if_neg refused] at taken
    cases taken
    split <;> exact .commit found refused (congrArg (·.delete id) logged.txns)
      (congrArg (id :: ·) logged.committed) logged.aborted logged.nextID chain

theorem abort_cases (taken : s.next (.abort id) = some s') : MvccStep s (.abort id) s' := by
  simp only [next] at taken
  split at taken
  · cases taken
    exact .refl
  · rename_i txn found
    cases taken
    exact .abort (by rw [Active, found]; rfl) rfl rfl rfl rfl rfl

theorem undo_cases (taken : s.next (.undo id) = some s') : MvccStep s (.undo id) s' := by
  simp only [next] at taken
  split at taken
  · rename_i step rest pending
    cases taken
    have keep : ∀ t, ((s.undoing.set id rest).get t).isSome → (s.undoing.get t).isSome := by
      intro t h
      rw [get_set] at h
      split at h
      · rename_i eq
        rw [eq, pending]
        rfl
      · exact h
    have isPending : (s.undoing.get id).isSome := by rw [pending]; rfl
    have same := (s.mgr.sameLists_undoStep id step).sameTxns
    cases step with
    | removeByXMin row =>
      have chain := s.mgr.chain_removeByXMin id row
      exact .undo isPending same (fun row' ne => (chain row').trans (if_neg ne))
        (.inl ((chain row).trans (if_pos rfl))) keep
    | clearXMax row =>
      have chain := s.mgr.chain_clearXMax id row
      exact .undo isPending same (fun row' ne => (chain row').trans (if_neg ne))
        (.inr ((chain row).trans (if_pos rfl))) keep
    | logAbort => exact .idle same (s.mgr.chain_logAppend _) keep
    | cleanup => exact .idle same rfl keep
  · cases taken

theorem next_cases (keyed : s.mgr.Keyed) {a : MvccAction} (taken : s.next a = some s') : MvccStep s a s' := by
  cases a with
  | begin => exact begin_cases taken
  | read => exact read_cases taken
  | scan => exact scan_cases taken
  | write => exact write_cases keyed taken
  | commit => exact commit_cases taken
  | abort => exact abort_cases taken
  | undo => exact undo_cases taken

end MvccRun

/-!
## What `MVCCWrite` and `Commit` do to a chain and to their transaction

The result of a write in full: the new chain of its row as a function of the outcome, and the
undo entry that a write which returns nil adds. A commit takes the transaction out of the active
map and records it as committed, or as aborted when it is refused.
-/

namespace Manager
variable {m : Manager} {id : Nat} {txn : Transaction}

theorem txns_setChain (row : RowRef) (c : VersionChain) : (m.setChain row c).txns = m.txns := rfl

theorem txns_recordWrite (txn : Transaction) (row : RowRef) : (m.recordWrite txn row).txns = m.txns := by
  unfold recordWrite
  split <;> rfl

/-- A transaction after a call of its own: the same but for the log. -/
structure Continues (id : Nat) (txn txn' : Transaction) : Prop where
  own : txn'.id = id
  protocol : txn'.protocol = txn.protocol
  savepoints : txn'.savepoints = txn.savepoints
  view : txn'.view = txn.view

theorem Continues.refl (own : txn.id = id) : Continues id txn txn := ⟨own, rfl, rfl, rfl⟩

theorem logWrite_txns (own : txn.id = id) (op : UndoOpType) (row : RowRef)
    (image : RowData) (before after : List UInt8) :
    (∀ t ≠ id, (m.logWrite txn op row image before after).2.txns.get t = m.txns.get t) ∧
    ∃ txn' e, (m.logWrite txn op row image before after).2.txns.get id = some txn' ∧
      Continues id txn txn' ∧ txn'.undoLog = txn.undoLog ++ [e] ∧ (e.table, e.key) = row := by
  refine ⟨fun t other => ?_, _, _, (GoMap.get_set ..).trans (if_pos own.symm), ⟨own, rfl, rfl, rfl⟩, rfl, rfl⟩
  exact (GoMap.get_set ..).trans ((if_neg (own ▸ other)).trans (congrArg (·.get t) (m.sameLists_logAppend _).txns))

/-- A write that returns nil adds an undo entry; any other leaves the transaction alone. -/
theorem mvccWrite_txns (found : m.txns.get id = some txn) (own : txn.id = id)
    (row : RowRef) (values : RowData) (op : UndoOpType) :
    ((m.mvccWrite id row values op).1 ≠ .ok ∧ (m.mvccWrite id row values op).2.txns = m.txns) ∨
    (m.mvccWrite id row values op).1 = .ok ∧
    (∀ t ≠ id, (m.mvccWrite id row values op).2.txns.get t = m.txns.get t) ∧
    ∃ txn' e, (m.mvccWrite id row values op).2.txns.get id = some txn' ∧ Continues id txn txn' ∧
      txn'.undoLog = txn.undoLog ++ [e] ∧ (e.table, e.key) = row := by
  have shape := mvccWrite_shape row values op found
  generalize m.mvccWrite id row values op = r at shape ⊢
  cases shape with
  | refused failed _ => exact .inl ⟨failed, rfl⟩
  | panicked => exact .inl ⟨by simp, rfl⟩
  | done =>
    right
    rw [txns_recordWrite, txns_setChain]
    exact ⟨rfl, logWrite_txns own ..⟩

/-- An update of values that the codec takes does not panic. -/
theorem mvccWrite_update (found : (m.txns.get id).isSome) {row : RowRef} {values : RowData}
    (after : (m.encodeAfter values).isSome) (before : ∀ v ∈ m.chain row, (m.encodeBefore v.data).isSome) :
    (m.mvccWrite id row values .update).1 ≠ .panicked := by
  obtain ⟨txn, found⟩ := isSome_iff_exists.1 found
  unfold mvccWrite
  rw [found]
  dsimp only
  split
  · rintro ⟨⟩
  split
  · rintro ⟨⟩
  rename_i old hit
  split
  · rintro ⟨⟩
  · rename_i no
    obtain ⟨bytes, eq⟩ := isSome_iff_exists.1 (before old (List.mem_of_find?_eq_some hit))
    obtain ⟨bytes', eq'⟩ := isSome_iff_exists.1 after
    exact absurd eq' (no _ _ eq)

theorem mvccWrite_chain (found : m.txns.get id = some txn) (row : RowRef)
    (values : RowData) (op : UndoOpType) : ∃ lsn, ∀ row', (m.mvccWrite id row values op).2.chain row' =
      if row' = row then writtenChain (fun v => isVisible v id (m.getSnapshot txn) m.statusChecker) id values lsn
        (m.chain row) op (m.mvccWrite id row values op).1
      else m.chain row' := by
  have shape := mvccWrite_shape row values op found
  generalize m.mvccWrite id row values op = r at shape ⊢
  cases shape with
  | @refused o failed whole =>
    refine ⟨0, fun row' => ?_⟩
    rw [chain_setChain]
    cases op <;> cases o <;> first | rfl | exact absurd rfl failed | exact absurd rfl (whole rfl)
  | panicked update =>
    subst update
    exact ⟨0, fun row' => m.chain_setChain row row' _⟩
  | done image before after =>
    refine ⟨(m.logWrite txn op row image before after).1, fun row' => ?_⟩
    rw [chain_recordWrite, chain_setChain, chain_logWrite]

theorem mvccCommit_spec (found : m.txns.get id = some txn) :
    ((m.mvccCommit id).1 = .ok ∧ (m.mvccCommit id).2.committed = id :: m.committed ∧
        (m.mvccCommit id).2.aborted = m.aborted ∨
      (m.mvccCommit id).1 = .err .serializationFailure ∧ (m.mvccCommit id).2.committed = m.committed ∧
        (m.mvccCommit id).2.aborted = id :: m.aborted) ∧
    (m.mvccCommit id).2.txns = m.txns.delete id ∧ (m.mvccCommit id).2.nextID = m.nextID ∧
    (m.mvccCommit id).2.chain = m.chain := by
  unfold mvccCommit
  rw [found]
  dsimp only
  have logged := m.sameLists_logAppend (Wal.commitRecord id txn.lastWALLSN)
  have chain := m.chain_logAppend (Wal.commitRecord id txn.lastWALLSN)
  split
  · exact ⟨.inr ⟨rfl, rfl, rfl⟩, rfl, rfl, rfl⟩
  · split <;> exact ⟨.inl ⟨rfl, congrArg (id :: ·) logged.committed, logged.aborted⟩,
      congrArg (·.delete id) logged.txns, logged.nextID, chain⟩

end Manager

end TransactionManager.Txn
