import TransactionManager.Raft.Agreement

/-!
# The locks of a replica without reads

On a replica that only applies commands, a grant in a lock queue belongs to an open 2PL transaction whose
held set names the queue, as long as no open transaction is begun a second time: `BeginWithID` does not
look for one, and the second transaction starts with an empty held set.
-/

namespace TransactionManager.Txn
open Lib TransactionManager.Types Lock Mvcc List GoMap Option Manager

/-- What the lock books say of a transaction. -/
def Transaction.lockView (txn : Transaction) : ConcurrencyProtocol × HeldSet := (txn.protocol, txn.locksHeld)

structure SameLocks (m m' : Manager) : Prop where
  lockTable : m'.lockTable = m.lockTable
  views : ∀ t, (m'.txns.get t).map Transaction.lockView = (m.txns.get t).map Transaction.lockView

/-- Every grant is one of an open 2PL transaction whose held set names the queue. -/
def Manager.Backed (m : Manager) : Prop :=
  ∀ (r : ResourceID), ∀ g ∈ (m.queue r.name).granted, ∃ txn, m.txns.get g.txnID = some txn ∧
    txn.protocol = .twoPL ∧ ∃ r' ∈ txn.locksHeld.keys, r'.name = r.name

namespace SameLocks
variable {m m' m'' : Manager} {txn txn' : Transaction}

theorem refl (m : Manager) : SameLocks m m := ⟨rfl, fun _ => rfl⟩

theorem trans (a : SameLocks m m') (b : SameLocks m' m'') : SameLocks m m'' :=
  ⟨b.lockTable.trans a.lockTable, fun t => (b.views t).trans (a.views t)⟩

theorem of_txns (lockTable : m'.lockTable = m.lockTable) (txns : m'.txns = m.txns) : SameLocks m m' :=
  ⟨lockTable, fun t => by rw [txns]⟩

theorem logAppend (m : Manager) (rec : Wal.LogRecord) : SameLocks m (m.logAppend rec).2 :=
  .of_txns (m.sameBooks_logAppend rec).lockTable (m.sameLists_logAppend rec).txns

section
variable (found : m.txns.get txn.id = some txn)
include found

theorem putTxn (id : txn'.id = txn.id) (view : txn'.lockView = txn.lockView) : SameLocks m (m.putTxn txn') := by
  refine ⟨rfl, fun t => ?_⟩
  show ((m.txns.set txn'.id txn').get t).map _ = _
  rw [get_set, id]
  split
  · rename_i here
    rw [here, found, map_some, map_some, view]
  · rfl

theorem logPut (rec : Wal.LogRecord) (id : txn'.id = txn.id)
    (view : txn'.lockView = txn.lockView) : SameLocks m ((m.logAppend rec).2.putTxn txn') := by
  have here : (m.logAppend rec).2.txns.get txn.id = some txn := by rw [(m.sameLists_logAppend rec).txns, found]
  exact (logAppend m rec).trans (putTxn here id view)

theorem logWrite (op : UndoOpType) (row : RowRef) (image : RowData)
    (before after : List UInt8) : SameLocks m (m.logWrite txn op row image before after).2 :=
  logPut found _ rfl rfl

theorem written (op : UndoOpType) (row : RowRef) (image : RowData) (before after : List UInt8) (c : VersionChain) :
    SameLocks m (((m.logWrite txn op row image before after).2.setChain row c).recordWrite txn row) := by
  refine (logWrite found op row image before after).trans (.of_txns ?_ (txns_recordWrite ..))
  unfold recordWrite
  split <;> rfl

omit found in
theorem mvccWrite (keyed : m.Keyed) (id : Nat) (row : RowRef) (values : RowData) (op : UndoOpType) :
    SameLocks m (m.mvccWrite id row values op).2 := by
  cases found : m.txns.get id with
  | none =>
    unfold Manager.mvccWrite
    rw [found]
    exact .refl m
  | some txn =>
    have self : m.txns.get txn.id = some txn := by rw [keyed id txn found, found]
    have shape := mvccWrite_shape row values op found
    generalize m.mvccWrite id row values op = r at shape ⊢
    cases shape with
    | refused | panicked => exact .of_txns rfl rfl
    | done => exact written self ..

omit found in
theorem mvccWriteCall (keyed : m.Keyed) (txn : Transaction) (row : RowRef) (values : RowData) (op : UInt8) :
    SameLocks m (m.mvccWriteCall txn row values op).2 := by
  unfold Manager.mvccWriteCall
  split
  · exact mvccWrite keyed ..
  · split
    · exact .of_txns rfl rfl
    · refine .of_txns ?_ (txns_recordWrite ..)
      unfold recordWrite
      split <;> rfl

theorem twoPLWrite (row : RowRef) (values : RowData) (op : UndoOpType) :
    SameLocks m (m.twoPLWrite txn row values op).2 := by
  rcases m.twoPLWrite_cases txn row values op with eq | ⟨after, eq, wrote⟩
  · rw [eq]
    exact .refl m
  rw [eq]
  obtain ⟨last, before, txns⟩ := wrote.txns
  have put : SameLocks m (m.putTxn { txn with
      lastWALLSN := last
      undoLog := txn.undoLog ++ [⟨op, row.1, row.2, before, m.nextLSN⟩] }) := putTxn found rfl rfl
  exact put.trans (.of_txns wrote.lockTable txns)

theorem writeNothing (row : RowRef) (values : RowData) (op : UInt8) :
    SameLocks m (m.writeNothing txn row values op).2 := by
  unfold Manager.writeNothing
  split
  · exact logPut found _ rfl rfl
  · exact .refl m

end

end SameLocks

namespace Manager.Backed
variable {m m' : Manager} {txn : Transaction} {id : Nat}

section
variable (backed : m.Backed)
include backed

theorem same (same : SameLocks m m') : m'.Backed := by
  intro r g mem
  have queue : m'.queue r.name = m.queue r.name := by rw [queue, same.lockTable]; rfl
  rw [queue] at mem
  obtain ⟨txn, found, twoPL, named⟩ := backed r g mem
  have view := same.views g.txnID
  rw [found, map_some, map_eq_some_iff] at view
  obtain ⟨txn', found', eq⟩ := view
  simp only [Transaction.lockView, Prod.mk.injEq] at eq
  exact ⟨txn', found', eq.1.trans twoPL, by rw [eq.2]; exact named⟩

theorem put (fresh : m.txns.get txn.id = none) : (m.putTxn txn).Backed := by
  intro r g mem
  obtain ⟨other, found, twoPL, named⟩ := backed r g mem
  refine ⟨other, ?_, twoPL, named⟩
  show (m.txns.set txn.id txn).get g.txnID = _
  rw [get_set, if_neg, found]
  intro own
  rw [own, fresh] at found
  cases found

/-- A lock request: the grants of the others stay as they are, and the transaction's own are named by its new
held set. -/
theorem acquire (found : m.txns.get txn.id = some txn) (twoPL : txn.protocol = .twoPL) {r : ResourceID} {mode : Mode}
    (idle : (m.queue r.name).waiting = []) : (m.acquireOrTimeout txn r mode).2.1.Backed := by
  unfold acquireOrTimeout
  generalize result : acquireAlone (m.queue r.name) txn.locksHeld txn.id r mode = done
  obtain ⟨got, q, held⟩ := done
  intro r' g mem
  replace mem : g ∈ ((m.setQueue r.name q).queue r'.name).granted := mem
  have get : ((m.setQueue r.name q).putTxn { txn with locksHeld := held }).txns.get g.txnID =
    if g.txnID = txn.id then some { txn with locksHeld := held } else m.txns.get g.txnID := get_set ..
  rw [queue_setQueue, Function.update_apply] at mem
  rw [get]
  have before (mem : g ∈ (m.queue r'.name).granted) (own : g.txnID = txn.id) :
      ∃ r'' ∈ txn.locksHeld.keys, r''.name = r'.name := by
    obtain ⟨other, found', -, named⟩ := backed r' g mem
    rw [own, found] at found'
    cases found'
    exact named
  by_cases own : g.txnID = txn.id
  · rw [if_pos own]
    refine ⟨_, rfl, twoPL, ?_⟩
    by_cases here : r'.name = r.name
    · rw [if_pos here] at mem
      rcases acquireAlone_cases idle txn.locksHeld txn.id r mode with
        ⟨_, _, _, eq⟩ | ⟨_, h, _, ⟨rest, _, _, at_r, eq⟩ | ⟨_, _, eq⟩⟩ <;> rw [result] at eq <;> cases eq
      · exact before (here ▸ mem) own
      · exact ⟨r, (mem_keys_iff _ _).2 ⟨mode, at_r⟩, here.symm⟩
      · exact absurd own (bne_iff_ne.1 (mem_filter.1 mem).2)
    · rw [if_neg here] at mem
      obtain ⟨r'', at_r, name⟩ := before mem own
      have ne : r'' ≠ r := fun eq => here (by rw [← name, eq])
      refine ⟨r'', ?_, name⟩
      rcases acquireAlone_cases idle txn.locksHeld txn.id r mode with
        ⟨_, _, _, eq⟩ | ⟨_, h, others, ⟨rest, _, _, _, eq⟩ | ⟨_, _, eq⟩⟩ <;> rw [result] at eq <;> cases eq
      · exact at_r
      all_goals
        rw [mem_keys_iff, others r'' ne, ← mem_keys_iff]
        exact at_r
  · rw [if_neg own]
    refine backed r' g ?_
    split at mem
    · rename_i here
      rw [here]
      rcases acquireAlone_cases idle txn.locksHeld txn.id r mode with
        ⟨_, _, _, eq⟩ | ⟨_, h, _, ⟨rest, old, _, _, eq⟩ | ⟨_, _, eq⟩⟩ <;> rw [result] at eq <;> cases eq
      · exact mem
      · rcases mem_append.1 mem with kept | new
        · rcases old with ⟨rfl, -⟩ | ⟨rfl, -⟩
          · exact kept
          · exact (mem_filter.1 kept).1
        · exact absurd (congrArg Request.txnID (mem_singleton.1 new)) own
      · exact (mem_filter.1 mem).1
    · exact mem

/-- A 2PL transaction ends: its grants go with its held set. -/
theorem release (found : m.txns.get id = some txn) (lockTable : m'.lockTable = m.lockTable)
    (txns : m'.txns = m.txns.delete id) (idle : ∀ r : ResourceID, (m.queue r.name).waiting = []) :
    (m'.releaseAllLocks id txn.locksHeld).Backed := by
  have queue (name : GoString) : m'.queue name = m.queue name := by rw [queue, lockTable]; rfl
  obtain ⟨table, eq⟩ := m'.releaseAllLocks_eq id txn.locksHeld
  have released := m'.queue_releaseAllLocks id txn.locksHeld fun r => by rw [queue]; exact idle r
  intro r g mem
  have txns' : (m'.releaseAllLocks id txn.locksHeld).txns = m.txns.delete id := by rw [eq]; exact txns
  rw [txns', get_delete]
  have old : g ∈ (m.queue r.name).granted ∧ ((∃ r' ∈ txn.locksHeld.keys, r'.name = r.name) → g.txnID ≠ id) := by
    rw [released, queueWithout, queue] at mem
    split at mem
    · exact ⟨(mem_filter.1 mem).1, fun _ => bne_iff_ne.1 (mem_filter.1 mem).2⟩
    · exact ⟨mem, fun named => absurd named ‹_›⟩
  obtain ⟨other, found', twoPL, named⟩ := backed r g old.1
  refine ⟨other, ?_, twoPL, named⟩
  rw [if_neg, found']
  intro own
  rw [own, found] at found'
  cases found'
  exact old.2 named own

theorem forget (found : m.txns.get id = some txn) (mvcc : txn.protocol = .mvcc)
    (lockTable : m'.lockTable = m.lockTable) (txns : m'.txns = m.txns.delete id) : m'.Backed := by
  intro r g mem
  have queue : m'.queue r.name = m.queue r.name := by rw [queue, lockTable]; rfl
  rw [queue] at mem
  obtain ⟨other, found', twoPL, named⟩ := backed r g mem
  refine ⟨other, ?_, twoPL, named⟩
  rw [txns, get_delete, if_neg, found']
  intro own
  rw [own, found] at found'
  cases found'
  rw [mvcc] at twoPL
  cases twoPL

end

end Manager.Backed

/-- An open 2PL transaction on a manager whose grants are all backed. -/
structure Holder (m : Manager) (txn : Transaction) : Prop where
  backed : m.Backed
  idle : ∀ r : ResourceID, (m.queue r.name).waiting = []
  found : m.txns.get txn.id = some txn
  twoPL : txn.protocol = .twoPL

namespace Holder
variable {m : Manager} {txn : Transaction}

theorem acquire (holder : Holder m txn) (r : ResourceID) (mode : Mode) :
    Holder (m.acquireOrTimeout txn r mode).2.1 (m.acquireOrTimeout txn r mode).2.2 := by
  refine ⟨holder.backed.acquire holder.found holder.twoPL (holder.idle r), fun r' => ?_,
    (get_set ..).trans (if_pos rfl), holder.twoPL⟩
  show ((m.setQueue r.name _).queue r'.name).waiting = []
  rw [queue_setQueue, Function.update_apply]
  split
  · show (acquireAlone (m.queue r.name) txn.locksHeld txn.id r mode).2.1.waiting = []
    rcases acquireAlone_cases (holder.idle r) txn.locksHeld txn.id r mode with
      ⟨_, _, _, eq⟩ | ⟨_, _, _, ⟨_, _, _, _, eq⟩ | ⟨_, _, eq⟩⟩ <;> rw [eq]
    exact holder.idle r
  · exact holder.idle r'

theorem twoPLWriteCall (holder : Holder m txn) (row : RowRef) (values : RowData) (op : UInt8) :
    (m.twoPLWriteCall txn row values op).2.Backed := by
  unfold Manager.twoPLWriteCall
  have first := holder.acquire (.table row.1) .ix
  generalize m.acquireOrTimeout txn (.table row.1) .ix = done at first ⊢
  obtain ⟨got, m, txn⟩ := done
  cases got with
  | false => exact first.backed
  | true =>
    have second := first.acquire (.row row.1 row.2) .x
    dsimp only at second ⊢
    generalize m.acquireOrTimeout txn (.row row.1 row.2) .x = done at second ⊢
    obtain ⟨got, m, txn⟩ := done
    cases got with
    | false => exact second.backed
    | true =>
      dsimp only at second ⊢
      split
      · exact second.backed
      split
      · exact second.backed.same (.writeNothing second.found ..)
      · rename_i op _
        have wrote := second.backed.same (.twoPLWrite second.found row values op)
        generalize m.twoPLWrite txn row values op = done at wrote ⊢
        obtain ⟨ok, m⟩ := done
        cases ok <;> exact wrote

end Holder

theorem Manager.lockTable_undoStep (m : Manager) (id : Nat) (step : UndoStep) :
    (m.undoStep id step).lockTable = m.lockTable := by
  cases step with
  | removeByXMin row | clearXMax row =>
    dsimp only [undoStep]
    split <;> rfl
  | logAbort lsn => exact (m.sameBooks_logAppend _).lockTable
  | cleanup => rfl

/-- The undo of an MVCC transaction leaves the locks and the transactions alone. -/
theorem Manager.undoSteps_locks (m : Manager) (id : Nat) (steps : List UndoStep) :
    (m.undoSteps id steps).lockTable = m.lockTable ∧ (m.undoSteps id steps).txns = m.txns := by
  induction steps generalizing m with
  | nil => exact ⟨rfl, rfl⟩
  | cons step steps ih =>
    obtain ⟨locks, txns⟩ := ih (m.undoStep id step)
    exact ⟨locks.trans (m.lockTable_undoStep id step), txns.trans (m.sameLists_undoStep id step).txns⟩

end TransactionManager.Txn

namespace TransactionManager.Raft
open TransactionManager.Types Lock Txn

/-- A command keeps the grants backed, if it does not begin a transaction that is open. -/
theorem applyCommand_backed {m : Manager} (backed : m.Backed) (keyed : m.Keyed) (idle : m.ssiTracker = {})
    (unblocked : ∀ r : ResourceID, (m.queue r.name).waiting = []) {c : Command}
    (fresh : c.type = .begin → m.txns.get c.txnID = none) : (applyCommand m c).2.Backed := by
  unfold applyCommand
  cases kind : c.type with
  | noop | other code => exact backed
  | begin =>
    dsimp only
    unfold Manager.beginWithID
    split
    · exact backed
    · refine (backed.same (.logAppend m _)).put ?_
      rw [(m.sameLists_logAppend _).txns]
      exact fresh kind
  | write =>
    cases found : m.txns.get c.txnID with
    | none => exact backed
    | some txn =>
      dsimp only
      split
      · exact backed
      · have own := keyed _ _ found
        cases protocol : txn.protocol with
        | twoPL => exact Holder.twoPLWriteCall ⟨backed, unblocked, by rw [own, found], protocol⟩ _ _ _
        | mvcc => exact backed.same (.mvccWriteCall keyed ..)
  | commit =>
    unfold Manager.commit
    cases found : m.txns.get c.txnID with
    | none => exact backed
    | some txn =>
      dsimp only
      cases protocol : txn.protocol with
      | twoPL =>
        dsimp only [Manager.twoPLCommit]
        rw [keyed _ _ found]
        have books := m.sameBooks_logAppend (Wal.commitRecord c.txnID txn.lastWALLSN)
        exact backed.release found books.lockTable (congrArg (·.delete c.txnID) books.txns) unblocked
      | mvcc =>
        dsimp only
        rw [Agree.mvccCommit_eq found fun pivot => Agree.not_pivot idle pivot.2]
        have books := m.sameBooks_logAppend (Wal.commitRecord c.txnID txn.lastWALLSN)
        split <;> exact backed.forget found protocol books.lockTable (congrArg (·.delete c.txnID) books.txns)
  | abort =>
    unfold Manager.abort
    cases found : m.txns.get c.txnID with
    | none => exact backed
    | some txn =>
      dsimp only
      cases protocol : txn.protocol with
      | twoPL =>
        dsimp only [Manager.twoPLAbort]
        rw [found]
        have books := (m.markAborted c.txnID).sameBooks_undoEntries c.txnID txn.undoLog.reverse LSNInvalid
        exact (backed.release found books.lockTable books.txns unblocked).same (.logAppend _ _)
      | mvcc =>
        dsimp only [Manager.mvccAbort]
        rw [found]
        obtain ⟨locks, txns⟩ := (m.markAborted c.txnID).undoSteps_locks c.txnID txn.mvccAbort
        exact backed.forget found protocol locks txns

end TransactionManager.Raft
