import TransactionManager.Raft.LockCopy
import TransactionManager.Txn.Rewind

/-!
# Two managers that agree

Replicas of one manager apply the same commands, but their logs, histories and ID counters differ, and
one of them may serve reads. `Agree` relates two managers that give the same answers nevertheless: the
statuses agree on the transactions that are named, the snapshots place alike the transactions that have
written versions, and the second has read locks and recorded reads besides. Every call of the FSM keeps
the relation and returns the same on both sides.
-/

namespace TransactionManager.Txn
open Lib TransactionManager.Types Lock Mvcc List GoMap Option Storage Wal VersionChain Manager AList

/-- What no call of the FSM changes of a manager. -/
structure Stable (base m : Manager) : Prop where
  tables : ∀ name, (m.catalog.lookup name).isSome = (base.catalog.lookup name).isSome
  nextID : m.nextID = base.nextID
  maxActive : m.maxActive = base.maxActive
  wal : m.wal.isSome = base.wal.isSome

/-- Where two managers have to agree: `named` are the transactions whose status is asked for, `seen` those that a
snapshot has to place. `reads` says that the second may serve reads, `counter` where its ID counter stands. The first
started from `base`. -/
structure Scope where
  named : Nat → Prop
  seen : Nat → Prop
  reads : Prop
  counter : Nat
  base : Manager

/-- Two snapshots that place the same transactions before, inside and after their window. -/
structure Snapshot.AgreeOn (seen : Nat → Prop) (a b : Snapshot) : Prop where
  contains : ∀ t, seen t → a.contains t = b.contains t
  xmin : ∀ t, seen t → (t < a.xmin ↔ t < b.xmin)
  xmax : ∀ t, seen t → (t < a.xmax ↔ t < b.xmax)

structure VersionCopy (σ : Scope) (v w : Version) : Prop where
  xmin : w.xmin = v.xmin
  xmax : w.xmax = v.xmax
  data : w.data = v.data
  creator : σ.named v.xmin ∧ σ.seen v.xmin
  deleter : v.xmax = 0 ∨ σ.named v.xmax ∧ σ.seen v.xmax

def UndoEntry.content (e : UndoEntry) : UndoOpType × GoString × GoString × RowData :=
  (e.op, e.table, e.key, e.beforeImage)

structure TxnCopy (σ : Scope) (a b : Transaction) : Prop where
  id : b.id = a.id
  protocol : b.protocol = a.protocol
  isolation : b.isolation = a.isolation
  locksHeld : HeldCopy a.locksHeld b.locksHeld
  unread : σ.reads ∨ ∀ r mode, b.locksHeld.get r = some mode → mode.isWrite = true
  snapshot : Option.Rel (Snapshot.AgreeOn σ.seen) a.snapshot b.snapshot
  undoLog : List.Forall₂ (fun e f : UndoEntry => f.content = e.content) a.undoLog b.undoLog

/-- Two managers that answer alike. No read has been recorded by the first. -/
structure Agree (σ : Scope) (m m' : Manager) : Prop where
  keys : m'.txns.keys.Perm m.txns.keys
  txns : ∀ t, Option.Rel (TxnCopy σ) (m.txns.get t) (m'.txns.get t)
  keyed : m.Keyed
  committed : ∀ t, σ.named t → m'.committed.contains t = m.committed.contains t
  aborted : ∀ t, σ.named t → m'.aborted.contains t = m.aborted.contains t
  chains : ∀ row, List.Forall₂ (VersionCopy σ) (m.chain row) (m'.chain row)
  rows : SameRows m.catalog m'.catalog
  locks : ∀ r : ResourceID, QueueCopy r (m.queue r.name) (m'.queue r.name)
  tracker : m.ssiTracker = {}
  unread : σ.reads ∨ m'.ssiTracker = {} ∧ ∀ r : ResourceID, ∀ g ∈ (m'.queue r.name).granted, g.mode.isWrite = true
  maxActive : m'.maxActive = m.maxActive
  wal : m'.wal.isSome = m.wal.isSome
  nextID : m'.nextID = m.nextID ∨ ∀ t, σ.seen t → t ≤ m.nextID ∧ t ≤ m'.nextID
  counter : m'.nextID = σ.counter
  stable : Stable σ.base m

/-- A call gives the same result on both sides, and leaves managers that agree. -/
structure SameCall {α : Type} (σ : Scope) (r r' : α × Manager) : Prop where
  result : r'.1 = r.1
  agree : Agree σ r.2 r'.2

section Versions
variable {σ : Scope} {a b : Snapshot} {chk chk' : TxnStatusChecker} {t t' : Nat} {v w : Version}

theorem isVisible_agree (copy : VersionCopy σ v w) (snap : Snapshot.AgreeOn σ.seen a b)
    (committed : ∀ u, σ.named u → chk'.isCommitted u = chk.isCommitted u)
    (aborted : ∀ u, σ.named u → chk'.isAborted u = chk.isAborted u)
    (creator : v.xmin = t ↔ v.xmin = t') (deleter : v.xmax ≠ 0 → (v.xmax = t ↔ v.xmax = t')) :
    isVisible w t' b chk' = isVisible v t a chk := by
  have own : (v.xmin == t') = (v.xmin == t) := by
    rw [Bool.eq_iff_iff, beq_iff_eq, beq_iff_eq]
    exact creator.symm
  obtain ⟨named, seen⟩ := copy.creator
  have created : creatorVisible w t' b chk' = creatorVisible v t a chk := by
    unfold creatorVisible
    rw [copy.xmin, own, committed _ named, aborted _ named, ← snap.contains _ seen]
    have before : decide (v.xmin < b.xmin) = decide (v.xmin < a.xmin) := decide_eq_decide.2 (snap.xmin _ seen).symm
    have within : decide (b.xmin ≤ v.xmin) = decide (a.xmin ≤ v.xmin) := by
      rw [decide_eq_decide, ← Nat.not_lt, ← Nat.not_lt, snap.xmin _ seen]
    have below : decide (v.xmin < b.xmax) = decide (v.xmin < a.xmax) := decide_eq_decide.2 (snap.xmax _ seen).symm
    rw [before, within, below]
  have deleted : deletionInvisible w t' b chk' = deletionInvisible v t a chk := by
    unfold deletionInvisible
    rw [copy.xmax]
    by_cases live : v.xmax = 0
    · simp [live]
    obtain ⟨named, seen⟩ := copy.deleter.resolve_left live
    have mine : (v.xmax == t') = (v.xmax == t) := by
      rw [Bool.eq_iff_iff, beq_iff_eq, beq_iff_eq]
      exact (deleter live).symm
    rw [mine, ← snap.contains _ seen, aborted _ named]
    have after : (b.xmax ≤ v.xmax) = (a.xmax ≤ v.xmax) := by
      rw [← Nat.not_lt, ← Nat.not_lt, snap.xmax _ seen]
    simp only [after]
  unfold isVisible
  rw [created, deleted]

end Versions

section Chains
variable {σ : Scope} {c c' : VersionChain}

theorem checkWriteConflictLocked_agree {a b : Snapshot} {chk chk' : TxnStatusChecker} (id : Nat)
    (copies : List.Forall₂ (VersionCopy σ) c c') (snap : Snapshot.AgreeOn σ.seen a b)
    (committed : ∀ u, σ.named u → chk'.isCommitted u = chk.isCommitted u) (active : chk'.isActive = chk.isActive) :
    checkWriteConflictLocked id b chk' c' = checkWriteConflictLocked id a chk c := by
  induction copies with
  | nil => rfl
  | cons copy _ ih =>
    obtain ⟨named, seen⟩ := copy.creator
    rw [checkWriteConflictLocked, checkWriteConflictLocked, copy.xmin, active, committed _ named,
      ← snap.contains _ seen, ih]

theorem find?_agree {p q : Version → Bool} (copies : List.Forall₂ (VersionCopy σ) c c')
    (agree : ∀ v w, VersionCopy σ v w → q w = p v) :
    Option.Rel (VersionCopy σ) (c.find? p) (c'.find? q) := by
  induction copies with
  | nil => exact .none
  | cons copy _ ih =>
    rw [find?_cons, find?_cons, agree _ _ copy]
    split
    · exact .some copy
    · exact ih

theorem markFirst_agree {p q : Version → Bool} {id : Nat} (scope : σ.named id ∧ σ.seen id)
    (copies : List.Forall₂ (VersionCopy σ) c c') (agree : ∀ v w, VersionCopy σ v w → q w = p v) :
    List.Forall₂ (VersionCopy σ) (markFirst p id c) (markFirst q id c') := by
  induction copies with
  | nil => exact .nil
  | cons copy rest ih =>
    rw [markFirst, markFirst, agree _ _ copy]
    split
    · exact .cons ⟨copy.xmin, rfl, copy.data, copy.creator, .inr scope⟩ rest
    · exact .cons copy ih

theorem removeByXMin_agree (id : Nat) (copies : List.Forall₂ (VersionCopy σ) c c') :
    List.Forall₂ (VersionCopy σ) (c.removeByXMin id) (c'.removeByXMin id) := by
  refine rel_filter (fun v w copy => ?_) copies
  simp only [copy.xmin]

theorem clearXMax_agree (id : Nat) (copies : List.Forall₂ (VersionCopy σ) c c') :
    List.Forall₂ (VersionCopy σ) (c.clearXMax id) (c'.clearXMax id) := by
  refine rel_map (fun v w copy => ?_) copies
  rw [copy.xmax]
  split
  · exact ⟨copy.xmin, rfl, copy.data, copy.creator, .inl rfl⟩
  · exact copy

end Chains

section Catalogs
variable {c c' : Catalog}

theorem SameRows.apply (same : SameRows c c') (w : RowWrite) : SameRows (w.apply c) (w.apply c') := by
  have tables (c : Catalog) (name : GoString) : ((w.apply c).lookup name).isSome = (c.lookup name).isSome :=
    isSome_lookup_applyOp c w.row w.values w.op name
  refine ⟨fun name => by rw [tables, tables, same.tables], fun row => ?_⟩
  cases table : (c.lookup row.1).isSome with
  | true => rw [row_apply c w row fun _ => table, row_apply c' w row fun _ => same.tables row.1 ▸ table, same.rows]
  | false => rw [row_eq_none (by rw [tables, table]), row_eq_none (by rw [tables, ← same.tables, table])]

theorem restore_content {e f : UndoEntry} (content : f.content = e.content) : restore c f = restore c e := by
  obtain ⟨op, table, key, image, lsn⟩ := e
  cases content
  rfl

end Catalogs

namespace Agree
variable {σ : Scope} {m m' : Manager} {txn txn' : Transaction} {id : Nat} {row : RowRef}

theorem found (agree : Agree σ m m') (found : m.txns.get id = some txn) :
    ∃ txn', m'.txns.get id = some txn' ∧ TxnCopy σ txn txn' := rel_found (agree.txns id) found

theorem missing (agree : Agree σ m m') (missing : m.txns.get id = none) : m'.txns.get id = none :=
  rel_missing (agree.txns id) missing

theorem isActive (agree : Agree σ m m') : m'.statusChecker.isActive = m.statusChecker.isActive :=
  funext fun t => (rel_isSome (agree.txns t)).symm

/-- Managers without open transactions and locks agree if the rest of them does. -/
theorem of_idle (idle : m.txns.keys = []) (idle' : m'.txns.keys = []) (unlocked : m.lockTable = ∅)
    (unlocked' : m'.lockTable = ∅) (tracker : m.ssiTracker = {}) (tracker' : m'.ssiTracker = {})
    (committed : ∀ t, σ.named t → m'.committed.contains t = m.committed.contains t)
    (aborted : ∀ t, σ.named t → m'.aborted.contains t = m.aborted.contains t)
    (chains : ∀ row, List.Forall₂ (VersionCopy σ) (m.chain row) (m'.chain row)) (rows : SameRows m.catalog m'.catalog)
    (maxActive : m'.maxActive = m.maxActive) (wal : m'.wal.isSome = m.wal.isSome) (nextID : m'.nextID = m.nextID)
    (counter : m'.nextID = σ.counter) (stable : Stable σ.base m) : Agree σ m m' := by
  have none {m : Manager} (idle : m.txns.keys = []) (t : Nat) : m.txns.get t = none := by
    cases found : m.txns.get t with
    | none => rfl
    | some txn =>
      have mem := (mem_keys_iff m.txns t).2 ⟨txn, found⟩
      rw [idle] at mem
      cases mem
  have empty {m : Manager} (unlocked : m.lockTable = ∅) (name : GoString) : m.queue name = {} := by
    rw [queue, unlocked]
    rfl
  refine ⟨?_, fun t => ?_, fun t txn found => ?_, committed, aborted, chains, rows, fun r => ?_, tracker,
    .inr ⟨tracker', fun r g mem => ?_⟩, maxActive, wal, .inl nextID, counter, stable⟩
  · rw [idle, idle']
  · rw [none idle, none idle']
    exact .none
  · rw [none idle] at found
    cases found
  · rw [empty unlocked, empty unlocked']
    exact .empty r
  · rw [empty unlocked'] at mem
    cases mem

/-- Two states whose counters and active transactions differ only out of sight give snapshots that
agree. -/
theorem snapshots {seen : Nat → Prop} (bound : ∀ t, seen t → (t ≤ m.nextID ↔ t ≤ m'.nextID))
    (mem : ∀ t, seen t → (t ∈ m.txns.keys ↔ t ∈ m'.txns.keys))
    (least : ∀ t, seen t → ((∀ k ∈ m.txns.keys, t < k) ↔ ∀ k ∈ m'.txns.keys, t < k))
    (empty : m.txns.keys = [] ↔ m'.txns.keys = []) :
    Snapshot.AgreeOn seen m.takeSnapshot m'.takeSnapshot := by
  have xmin (m : Manager) (t : Nat) : t < m.takeSnapshot.xmin ↔
      (∀ k ∈ m.txns.keys, t < k) ∧ (m.txns.keys = [] → t ≤ m.nextID) := by
    show t < m.txns.keys.min?.getD (m.nextID + 1) ↔ _
    cases min : m.txns.keys.min? with
    | none =>
      rw [min?_eq_none_iff.1 min, getD_none, Nat.lt_succ_iff]
      exact ⟨fun le => ⟨nofun, fun _ => le⟩, fun le => le.2 rfl⟩
    | some k =>
      have nonempty : m.txns.keys ≠ [] := by
        intro nil
        rw [nil] at min
        cases min
      rw [getD_some, Nat.lt_iff_add_one_le, le_min?_iff min]
      exact ⟨fun below => ⟨below, fun nil => absurd nil nonempty⟩, fun below => below.1⟩
  refine ⟨fun t on => ?_, fun t on => ?_, fun t on => ?_⟩
  · show m.txns.keys.contains t = m'.txns.keys.contains t
    rw [contains_eq_mem, contains_eq_mem, decide_eq_decide]
    exact mem t on
  · rw [xmin, xmin, least t on, empty, bound t on]
  · show t < m.nextID + 1 ↔ t < m'.nextID + 1
    rw [Nat.lt_succ_iff, Nat.lt_succ_iff]
    exact bound t on

theorem snapshots_of_perm {seen : Nat → Prop}
    (bound : ∀ t, seen t → (t ≤ m.nextID ↔ t ≤ m'.nextID)) (keys : m'.txns.keys.Perm m.txns.keys) :
    Snapshot.AgreeOn seen m.takeSnapshot m'.takeSnapshot := by
  refine snapshots bound (fun t _ => keys.mem_iff.symm) (fun t _ => ?_) ?_
  · simp only [keys.mem_iff]
  · rw [← length_eq_zero_iff, ← length_eq_zero_iff, keys.length_eq]

section
variable (agree : Agree σ m m')
include agree

theorem takeSnapshot : Snapshot.AgreeOn σ.seen m.takeSnapshot m'.takeSnapshot := by
  refine snapshots_of_perm (fun t seen => ?_) agree.keys
  rcases agree.nextID with same | apart
  · rw [same]
  · have := apart t seen
    omega

theorem getSnapshot (copy : TxnCopy σ txn txn') :
    Snapshot.AgreeOn σ.seen (m.getSnapshot txn) (m'.getSnapshot txn') := by
  unfold Manager.getSnapshot
  rw [copy.isolation]
  split
  · exact agree.takeSnapshot
  · have taken := copy.snapshot
    generalize txn.snapshot = a, txn'.snapshot = b at taken
    cases taken with
    | none => exact agree.takeSnapshot
    | some same => exact same

/-- A transaction and its copy see the same versions. -/
theorem isVisible (copy : TxnCopy σ txn txn') {v w : Version} (version : VersionCopy σ v w) :
    Mvcc.isVisible w txn'.id (m'.getSnapshot txn') m'.statusChecker =
      Mvcc.isVisible v txn.id (m.getSnapshot txn) m.statusChecker := by
  rw [copy.id]
  exact isVisible_agree version (agree.getSnapshot copy) agree.committed agree.aborted Iff.rfl fun _ => Iff.rfl

theorem encodeBefore (data : RowData) : m'.encodeBefore data = m.encodeBefore data := by
  have on := agree.wal
  unfold Manager.encodeBefore
  cases here : m.wal <;> cases there : m'.wal <;> rw [here, there] at on <;> first | rfl | cases on

theorem encodeAfter (values : RowData) : m'.encodeAfter values = m.encodeAfter values := by
  have on := agree.wal
  unfold Manager.encodeAfter
  cases values <;> cases here : m.wal <;> cases there : m'.wal <;> rw [here, there] at on <;> first | rfl | cases on

/-! The changes a call makes to a manager. -/

theorem setWal {log log' : Option Log} (on : log.isSome = m.wal.isSome)
    (on' : log'.isSome = m'.wal.isSome) : Agree σ { m with wal := log } { m' with wal := log' } :=
  { agree with
    wal := on'.trans (agree.wal.trans on.symm)
    stable := { agree.stable with wal := on.trans agree.stable.wal } }

theorem setCatalog {c c' : Catalog} (rows : SameRows c c')
    (tables : ∀ name, (c.lookup name).isSome = (m.catalog.lookup name).isSome) :
    Agree σ { m with catalog := c } { m' with catalog := c' } :=
  { agree with
    rows
    stable := { agree.stable with tables := fun name => (tables name).trans (agree.stable.tables name) } }

theorem setLocks {table table' : GoMap GoString Queue}
    (locks : ∀ r : ResourceID, QueueCopy r ({ m with lockTable := table }.queue r.name)
      ({ m' with lockTable := table' }.queue r.name))
    (unread : σ.reads ∨ ∀ r : ResourceID, ∀ g ∈ ({ m' with lockTable := table' }.queue r.name).granted,
      g.mode.isWrite = true) :
    Agree σ { m with lockTable := table } { m' with lockTable := table' } :=
  { agree with
    locks
    unread := agree.unread.elim .inl fun quiet => unread.imp_right fun writes => ⟨quiet.1, writes⟩
    stable := { agree.stable with } }

theorem setStore {store store' : Store}
    (chains : ∀ row, List.Forall₂ (VersionCopy σ) ({ m with mvccStore := store }.chain row)
      ({ m' with mvccStore := store' }.chain row)) :
    Agree σ { m with mvccStore := store } { m' with mvccStore := store' } :=
  { agree with
    chains
    stable := { agree.stable with } }

theorem setTracker {tracker : Isolation.SSITracker} (idle : σ.reads ∨ tracker = {}) :
    Agree σ m { m' with ssiTracker := tracker } :=
  { agree with unread := idle.elim .inl fun quiet => agree.unread.imp_right fun writes => ⟨quiet, writes.2⟩ }

theorem setChain {c c' : VersionChain} (copies : List.Forall₂ (VersionCopy σ) c c') :
    Agree σ (m.setChain row c) (m'.setChain row c') := by
  refine agree.setStore fun row' => ?_
  have here := m.chain_setChain row row' c
  have there := m'.chain_setChain row row' c'
  show List.Forall₂ _ ((m.setChain row c).chain row') ((m'.setChain row c').chain row')
  rw [here, there]
  split
  · exact copies
  · exact agree.chains row'

theorem logAppend (rec rec' : LogRecord) : Agree σ (m.logAppend rec).2 (m'.logAppend rec').2 := by
  have on := agree.wal
  unfold Manager.logAppend
  cases here : m.wal <;> cases there : m'.wal <;> rw [here, there] at on <;> first
    | exact agree
    | exact agree.setWal (by rw [here]; rfl) (by rw [there]; rfl)
    | cases on

theorem putTxn (copy : TxnCopy σ txn txn') : Agree σ (m.putTxn txn) (m'.putTxn txn') := by
  refine { agree with
    keys := ?_
    txns := fun t => ?_
    keyed := keyed_set agree.keyed rfl rfl
    stable := { agree.stable with } }
  · show (m'.txns.set txn'.id txn').keys.Perm (m.txns.set txn.id txn).keys
    rw [GoMap.set, GoMap.set, keys_insert, keys_insert, copy.id]
    exact (agree.keys.erase _).cons _
  · show Option.Rel _ ((m.txns.set txn.id txn).get t) ((m'.txns.set txn'.id txn').get t)
    rw [get_set, get_set, copy.id]
    split
    · exact .some copy
    · exact agree.txns t

theorem delete (id : Nat) : Agree σ { m with txns := m.txns.delete id } { m' with txns := m'.txns.delete id } := by
  refine { agree with
    keys := ?_
    txns := fun t => ?_
    keyed := keyed_delete agree.keyed rfl
    stable := { agree.stable with } }
  · rw [GoMap.delete, GoMap.delete, keys_erase, keys_erase]
    exact agree.keys.erase _
  · rw [get_delete, get_delete]
    split
    · exact .none
    · exact agree.txns t

theorem markCommitted (id : Nat) : Agree σ (m.markCommitted id) (m'.markCommitted id) := by
  refine { agree.delete id with
    committed := fun t named => ?_
    stable := { agree.stable with } }
  show (id :: m'.committed).contains t = (id :: m.committed).contains t
  rw [contains_cons, contains_cons, agree.committed t named]

theorem markAborted (id : Nat) : Agree σ (m.markAborted id) (m'.markAborted id) := by
  refine { agree.delete id with
    aborted := fun t named => ?_
    stable := { agree.stable with } }
  show (id :: m'.aborted).contains t = (id :: m.aborted).contains t
  rw [contains_cons, contains_cons, agree.aborted t named]

theorem setQueue {r : ResourceID} {q q' : Queue} (copy : QueueCopy r q q')
    (unread : σ.reads ∨ ∀ g ∈ q'.granted, g.mode.isWrite = true) :
    Agree σ (m.setQueue r.name q) (m'.setQueue r.name q') := by
  refine agree.setLocks (fun r' => ?_) ?_
  · show QueueCopy r' ((m.setQueue r.name q).queue r'.name) ((m'.setQueue r.name q').queue r'.name)
    rw [queue_setQueue, queue_setQueue, Function.update_apply, Function.update_apply]
    split
    · rename_i name
      exact copy.of_name name
    · exact agree.locks r'
  · refine unread.elim .inl fun writes => agree.unread.imp_right fun quiet r' g mem => ?_
    have mem : g ∈ ((m'.setQueue r.name q').queue r'.name).granted := mem
    rw [queue_setQueue, Function.update_apply] at mem
    split at mem
    · exact writes g mem
    · exact quiet.2 r' g mem

theorem logWrite (copy : TxnCopy σ txn txn') (op : UndoOpType) (image : RowData) (before after : List UInt8) :
    Agree σ (m.logWrite txn op row image before after).2 (m'.logWrite txn' op row image before after).2 :=
  (agree.logAppend _ _).putTxn { copy with undoLog := rel_append copy.undoLog (.cons rfl .nil) }

omit agree in
/-- With no reads recorded there is nothing to record of a write. -/
theorem recordWrite_eq (idle : m.ssiTracker = {}) (txn : Transaction) (row : RowRef) : m.recordWrite txn row = m := by
  unfold recordWrite
  split
  · have unchanged : m.ssiTracker.recordWrite (fun t => (m.txns.get t).isSome) txn.id (fullKey row) =
        m.ssiTracker := by
      rw [idle]
      rfl
    rw [unchanged]
  · rfl

theorem recordWrite (txn txn' : Transaction) : Agree σ (m.recordWrite txn row) (m'.recordWrite txn' row) := by
  rw [recordWrite_eq agree.tracker]
  rcases agree.unread with reads | quiet
  · unfold Manager.recordWrite
    split
    · exact agree.setTracker (.inl reads)
    · exact agree
  · rw [recordWrite_eq quiet.1]
    exact agree

theorem row_eq (row : RowRef) : m'.catalog.row row.1 row.2 = m.catalog.row row.1 row.2 := (agree.rows.rows row).symm

theorem written (copy : TxnCopy σ txn txn') (op : UndoOpType) (image : RowData)
    (before after : List UInt8) {c c' : VersionChain} (copies : List.Forall₂ (VersionCopy σ) c c') :
    Agree σ (((m.logWrite txn op row image before after).2.setChain row c).recordWrite txn row)
      (((m'.logWrite txn' op row image before after).2.setChain row c').recordWrite txn' row) :=
  ((agree.logWrite copy op image before after).setChain copies).recordWrite txn txn'

/-- `MVCCWrite` gives the same result on both sides. -/
theorem mvccWrite (named : σ.named id) (seen : σ.seen id) (row : RowRef) (values : RowData) (op : UndoOpType) :
    SameCall σ (m.mvccWrite id row values op) (m'.mvccWrite id row values op) := by
  unfold Manager.mvccWrite
  cases found : m.txns.get id with
  | none =>
    rw [agree.missing found]
    exact ⟨rfl, agree⟩
  | some txn =>
    obtain ⟨txn', found', copy⟩ := agree.found found
    have own := agree.keyed id txn found
    have own' : txn'.id = id := copy.id.trans own
    rw [found']
    dsimp only
    have copies := agree.chains row
    have conflict := checkWriteConflictLocked_agree id copies (agree.getSnapshot copy) agree.committed agree.isActive
    have visible (v w : Version) (version : VersionCopy σ v w) :
        Mvcc.isVisible w id (m'.getSnapshot txn') m'.statusChecker =
          Mvcc.isVisible v id (m.getSnapshot txn) m.statusChecker := by
      have same := agree.isVisible copy version
      rwa [own, own'] at same
    have marked := markFirst_agree ⟨named, seen⟩ copies visible
    have hit := find?_agree copies visible
    have created : Agree σ (m.setChain row (m.chain row)) (m'.setChain row (m'.chain row)) := agree.setChain copies
    rw [conflict]
    split
    · exact ⟨rfl, created⟩
    cases op with
    | insert =>
      dsimp only
      rw [created.encodeAfter]
      split
      · exact ⟨rfl, created⟩
      · exact ⟨rfl, created.written copy .insert none [] _ (.cons ⟨rfl, rfl, rfl, ⟨named, seen⟩, .inl rfl⟩ copies)⟩
    | update =>
      generalize (m.chain row).find? (fun v => Mvcc.isVisible v id (m.getSnapshot txn) m.statusChecker) = a,
        (m'.chain row).find? (fun v => Mvcc.isVisible v id (m'.getSnapshot txn') m'.statusChecker) = b at hit ⊢
      cases hit with
      | none => exact ⟨rfl, created⟩
      | some old =>
        dsimp only
        rw [old.data, (created.setChain marked).encodeBefore, (created.setChain marked).encodeAfter]
        split
        · exact ⟨rfl, (created.setChain marked).written copy .update _ _ _
            (.cons ⟨rfl, rfl, rfl, ⟨named, seen⟩, .inl rfl⟩ marked)⟩
        · exact ⟨rfl, created.setChain marked⟩
    | delete =>
      generalize (m.chain row).find? (fun v => Mvcc.isVisible v id (m.getSnapshot txn) m.statusChecker) = a,
        (m'.chain row).find? (fun v => Mvcc.isVisible v id (m'.getSnapshot txn') m'.statusChecker) = b at hit ⊢
      cases hit with
      | none => exact ⟨rfl, created⟩
      | some old =>
        dsimp only
        rw [old.data, created.encodeBefore]
        split
        · exact ⟨rfl, created⟩
        · exact ⟨rfl, created.written copy .delete _ _ _ marked⟩

theorem mvccWriteCall (found : m.txns.get id = some txn) (copy : TxnCopy σ txn txn')
    (named : σ.named id) (seen : σ.seen id) (row : RowRef) (values : RowData) (op : UInt8) :
    SameCall σ (m.mvccWriteCall txn row values op) (m'.mvccWriteCall txn' row values op) := by
  have own := agree.keyed id txn found
  unfold Manager.mvccWriteCall
  rw [copy.id, own]
  split
  · exact agree.mvccWrite named seen row values _
  have copies := agree.chains row
  have created : Agree σ (m.setChain row (m.chain row)) (m'.setChain row (m'.chain row)) := agree.setChain copies
  rw [checkWriteConflictLocked_agree id copies (agree.getSnapshot copy) agree.committed agree.isActive]
  split
  · exact ⟨rfl, created⟩
  · exact ⟨rfl, created.recordWrite txn txn'⟩

theorem beginWithID (id : Nat) (protocol : ConcurrencyProtocol) (isoLevel : IsolationLevel) :
    SameCall σ (m.beginWithID id protocol isoLevel) (m'.beginWithID id protocol isoLevel) := by
  unfold Manager.beginWithID
  rw [agree.keys.length_eq, agree.maxActive]
  split
  · exact ⟨rfl, agree⟩
  refine ⟨rfl, (agree.logAppend _ _).putTxn ⟨rfl, rfl, rfl, ?_, .inr ?_, ?_, .nil⟩⟩
  · exact ⟨fun _ _ => rfl, nofun⟩
  · exact nofun
  · split
    · exact .some agree.takeSnapshot
    · exact .none

/-- A write lock is granted or refused on both sides alike, unless someone else's read lock is in its way. -/
theorem acquireOrTimeout (copy : TxnCopy σ txn txn') {r : ResourceID} {mode : Mode} (fits : mode.For r)
    (write : mode.isWrite = true) (free : ∀ g ∈ (m'.queue r.name).granted, g.mode = .s → g.txnID = txn.id) :
    (m'.acquireOrTimeout txn' r mode).1 = (m.acquireOrTimeout txn r mode).1 ∧
      Agree σ (m.acquireOrTimeout txn r mode).2.1 (m'.acquireOrTimeout txn' r mode).2.1 ∧
      TxnCopy σ (m.acquireOrTimeout txn r mode).2.2 (m'.acquireOrTimeout txn' r mode).2.2 := by
  have idle := (agree.locks r).snd.idle
  obtain ⟨answer, queues, helds⟩ := acquireAlone_write (agree.locks r) copy.locksHeld fits write free
  unfold Manager.acquireOrTimeout
  rw [copy.id]
  have copy' : TxnCopy σ { txn with locksHeld := (acquireAlone (m.queue r.name) txn.locksHeld txn.id r mode).2.2 }
      { txn' with
        id := txn.id, locksHeld := (acquireAlone (m'.queue r.name) txn'.locksHeld txn.id r mode).2.2 } :=
    { copy with
      id := rfl
      locksHeld := helds
      unread := copy.unread.imp_right (held_acquireAlone idle write) }
  refine ⟨answer, (agree.setQueue queues ?_).putTxn copy', copy'⟩
  exact agree.unread.imp_right fun quiet => granted_acquireAlone idle write (quiet.2 r)

theorem writeNothing (copy : TxnCopy σ txn txn') (row : RowRef) (values : RowData) (op : UInt8) :
    SameCall σ (m.writeNothing txn row values op) (m'.writeNothing txn' row values op) := by
  unfold Manager.writeNothing
  rw [agree.row_eq, agree.encodeBefore, agree.encodeAfter]
  split
  · exact ⟨rfl, (agree.logAppend _ _).putTxn { copy with undoLog := rel_append copy.undoLog (.cons rfl .nil) }⟩
  · exact ⟨rfl, agree⟩

theorem twoPLWrite (copy : TxnCopy σ txn txn') (row : RowRef) (values : RowData) (op : UndoOpType) :
    SameCall σ (m.twoPLWrite txn row values op) (m'.twoPLWrite txn' row values op) := by
  have same := agree.row_eq row
  have tables := agree.rows.tables row.1
  unfold Manager.twoPLWrite
  cases found : m.catalog.lookup row.1 with
  | none =>
    rw [found, isSome_none, eq_comm, isSome_eq_false_iff, isNone_iff_eq_none] at tables
    rw [tables]
    exact ⟨rfl, agree⟩
  | some t =>
    rw [found, isSome_some, eq_comm, isSome_iff_exists] at tables
    obtain ⟨t', found'⟩ := tables
    rw [row_of_lookup found, row_of_lookup found'] at same
    rw [found']
    dsimp only
    rw [same, agree.encodeBefore, agree.encodeAfter]
    split
    · refine ⟨rfl, (agree.logWrite copy op _ _ _).setCatalog ?_ (isSome_lookup_applyOp _ row values op)⟩
      exact (agree.logWrite copy op _ _ _).rows.apply ⟨row, op, values⟩
    · exact ⟨rfl, agree⟩

theorem twoPLWriteCall (copy : TxnCopy σ txn txn') (row : RowRef) (values : RowData) (op : UInt8)
    (unscanned : ∀ g ∈ (m'.queue (ResourceID.table row.1).name).granted, g.mode = .s → g.txnID = txn.id)
    (unread : ∀ g ∈ (m'.queue (ResourceID.row row.1 row.2).name).granted, g.mode = .s → g.txnID = txn.id) :
    SameCall σ (m.twoPLWriteCall txn row values op) (m'.twoPLWriteCall txn' row values op) := by
  unfold Manager.twoPLWriteCall
  have onTable : Mode.ix.For (.table row.1) := .inr (.inl rfl)
  have onRow : Mode.x.For (.row row.1 row.2) := .inr rfl
  have first := agree.acquireOrTimeout copy onTable rfl unscanned
  -- the locks of the row are where they were
  have unread : ∀ g ∈ ((m'.acquireOrTimeout txn' (.table row.1) .ix).2.1.queue (ResourceID.row row.1 row.2).name).granted,
      g.mode = .s → g.txnID = (m.acquireOrTimeout txn (.table row.1) .ix).2.2.id := by
    rw [queue_acquireOrTimeout _ (by simp [ResourceID.name])]
    exact unread
  generalize m.acquireOrTimeout txn (.table row.1) .ix = r, m'.acquireOrTimeout txn' (.table row.1) .ix = r'
    at first unread ⊢
  obtain ⟨got, m, txn⟩ := r
  obtain ⟨got', m', txn'⟩ := r'
  obtain ⟨got_eq, agree, copy⟩ := first
  subst got_eq
  cases got' with
  | false => exact ⟨rfl, agree⟩
  | true =>
    dsimp only
    have second := agree.acquireOrTimeout copy onRow rfl unread
    generalize m.acquireOrTimeout txn (.row row.1 row.2) .x = r,
      m'.acquireOrTimeout txn' (.row row.1 row.2) .x = r' at second ⊢
    obtain ⟨got, m, txn⟩ := r
    obtain ⟨got', m', txn'⟩ := r'
    obtain ⟨got_eq, agree, copy⟩ := second
    subst got_eq
    cases got' with
    | false => exact ⟨rfl, agree⟩
    | true =>
      dsimp only
      have none_eq : (m'.catalog.lookup row.1).isNone = (m.catalog.lookup row.1).isNone := by
        rw [← not_isSome, ← not_isSome, agree.rows.tables]
      rw [none_eq]
      split
      · exact ⟨rfl, agree⟩
      split
      · exact agree.writeNothing copy row values op
      rename_i op _
      have wrote := agree.twoPLWrite copy row values op
      generalize m.twoPLWrite txn row values op = r, m'.twoPLWrite txn' row values op = r' at wrote ⊢
      obtain ⟨ok, m⟩ := r
      obtain ⟨ok', m'⟩ := r'
      obtain ⟨ok_eq, agree⟩ := wrote
      subst ok_eq
      cases ok' with
      | false | true => exact ⟨rfl, agree⟩

/-- `ReleaseAllLocks` on both sides. Of the rows, the second side gives up its read locks as well, and no more. -/
theorem releaseAllLocks {held held' : HeldSet} (helds : HeldCopy held held')
    (covered : ∀ r ∈ held'.keys, r.isRow = true → (∃ g ∈ (m.queue r.name).granted, g.txnID = id) →
      ∃ r' ∈ held.keys, r'.name = r.name) :
    Agree σ (m.releaseAllLocks id held) (m'.releaseAllLocks id held') := by
  obtain ⟨table, eq⟩ := m.releaseAllLocks_eq id held
  obtain ⟨table', eq'⟩ := m'.releaseAllLocks_eq id held'
  have released := m.queue_releaseAllLocks id held fun r => (agree.locks r).fst.idle
  have released' := m'.queue_releaseAllLocks id held' fun r => (agree.locks r).snd.idle
  rw [eq] at released ⊢
  rw [eq'] at released' ⊢
  refine agree.setLocks (fun r => ?_) ?_
  · have copy := agree.locks r
    rw [released, released']
    split <;> rename_i here <;> split <;> rename_i there
    · exact copy.drop id
    · -- a row that is held for writing is held on both sides
      refine .of_not_row ?_ (copy.fst.drop id) copy.snd fun g mem => copy.writes g (mem_filter.1 mem).1
      obtain ⟨r', at_r, name⟩ := here
      rw [Bool.eq_false_iff, ← ResourceID.isRow_of_name name]
      intro row
      obtain ⟨mode, get⟩ := (mem_keys_iff _ _).1 at_r
      rw [helds.writes r' row, filter_eq_some_iff] at get
      exact there ⟨r', (mem_keys_iff _ _).2 ⟨mode, get.1⟩, name⟩
    · -- only read locks of rows go, so the first side has nothing to give up
      refine copy.dropRead fun row g mem own => here ?_
      obtain ⟨r', at_r, name⟩ := there
      rw [← name]
      exact covered r' at_r ((ResourceID.isRow_of_name name).trans row) ⟨g, name ▸ mem, own⟩
    · exact copy
  · refine agree.unread.imp_right fun quiet r g mem => ?_
    rw [released'] at mem
    split at mem
    · exact quiet.2 r g (mem_filter.1 mem).1
    · exact quiet.2 r g mem

omit agree in
/-- The row locks that a transaction gives up on the second side only are read locks. -/
theorem covered (copy : TxnCopy σ txn txn') (named : σ.reads → m.LocksNamed id txn.locksHeld) :
    ∀ r ∈ txn'.locksHeld.keys, r.isRow = true → (∃ g ∈ (m.queue r.name).granted, g.txnID = id) →
      ∃ r' ∈ txn.locksHeld.keys, r'.name = r.name := by
  intro r mem row granted
  rcases copy.unread with reads | writes
  · exact named reads r granted
  · obtain ⟨mode, get⟩ := (mem_keys_iff _ _).1 mem
    refine ⟨r, (mem_keys_iff _ _).2 ⟨mode, ?_⟩, rfl⟩
    rw [copy.locksHeld.writes r row, get, filter_some, if_pos (writes r mode get)]

omit agree in
theorem logCLR_eq (m : Manager) (id : Nat) (e : UndoEntry) (more : List UndoEntry) (lastCLR : Nat) :
    ∃ log : Option Log, (m.logCLR id e more lastCLR).2 = { m with wal := log } ∧ log.isSome = m.wal.isSome := by
  unfold logCLR
  split
  · unfold Manager.logAppend
    split
    · rename_i log on
      exact ⟨_, rfl, by rw [on]; rfl⟩
    · exact ⟨_, rfl, rfl⟩
  · exact ⟨_, rfl, rfl⟩

theorem undoEntries {entries entries' : List UndoEntry} (id lastCLR lastCLR' : Nat)
    (copies : List.Forall₂ (fun e f : UndoEntry => f.content = e.content) entries entries') :
    Agree σ (m.undoEntries id entries lastCLR).2 (m'.undoEntries id entries' lastCLR').2 := by
  induction copies generalizing m m' lastCLR lastCLR' with
  | nil => exact agree
  | @cons e f more more' content _ ih =>
    refine ih ?_ _ _
    have logged : Agree σ (m.logCLR id e more lastCLR).2 (m'.logCLR id f more' lastCLR').2 := by
      obtain ⟨log, eq, on⟩ := logCLR_eq m id e more lastCLR
      obtain ⟨log', eq', on'⟩ := logCLR_eq m' id f more' lastCLR'
      rw [eq, eq']
      exact agree.setWal on on'
    refine logged.setCatalog ?_ (isSome_lookup_restore _ e)
    rw [restore_content content]
    exact logged.rows.restore e

omit agree in
theorem locksNamed_of_lockTable {held : HeldSet} (same : m'.lockTable = m.lockTable)
    (named : m.LocksNamed id held) : m'.LocksNamed id held := by
  unfold LocksNamed queue at named ⊢
  rwa [same]

theorem twoPLCommit (copy : TxnCopy σ txn txn') (named : σ.reads → m.LocksNamed txn.id txn.locksHeld) :
    Agree σ (m.twoPLCommit txn).2 (m'.twoPLCommit txn').2 := by
  unfold Manager.twoPLCommit
  rw [copy.id]
  refine ((agree.logAppend _ _).markCommitted _).releaseAllLocks copy.locksHeld (covered copy fun reads => ?_)
  exact locksNamed_of_lockTable (m.sameBooks_logAppend _).lockTable (named reads)

theorem twoPLAbort (found : m.txns.get id = some txn) (found' : m'.txns.get id = some txn')
    (copy : TxnCopy σ txn txn') (named : σ.reads → m.LocksNamed id txn.locksHeld) :
    SameCall σ (m.twoPLAbort id) (m'.twoPLAbort id) := by
  unfold Manager.twoPLAbort
  rw [found, found']
  have undone := (agree.markAborted id).undoEntries id LSNInvalid LSNInvalid (rel_reverse copy.undoLog)
  refine ⟨rfl, (undone.releaseAllLocks copy.locksHeld (covered copy fun reads => ?_)).logAppend _ _⟩
  exact locksNamed_of_lockTable ((m.markAborted id).sameBooks_undoEntries ..).lockTable (named reads)

theorem cleanup (id : Nat) : Agree σ { m with ssiTracker := m.ssiTracker.cleanup id }
    { m' with ssiTracker := m'.ssiTracker.cleanup id } := by
  have idle : m.ssiTracker.cleanup id = m.ssiTracker := by
    rw [agree.tracker]
    rfl
  rw [idle]
  refine agree.setTracker (agree.unread.imp_right fun quiet => ?_)
  rw [quiet.1]
  rfl

theorem chainStep {step : UndoStep} {f : VersionChain → VersionChain} {row : RowRef}
    (shape : ∀ m : Manager, ∃ store, m.undoStep id step = { m with mvccStore := store })
    (chain : ∀ (m : Manager) row', (m.undoStep id step).chain row' = if row' = row then f (m.chain row) else m.chain row')
    (keeps : ∀ {c c'}, List.Forall₂ (VersionCopy σ) c c' → List.Forall₂ (VersionCopy σ) (f c) (f c')) :
    Agree σ (m.undoStep id step) (m'.undoStep id step) := by
  obtain ⟨store, eq⟩ := shape m
  obtain ⟨store', eq'⟩ := shape m'
  rw [eq, eq']
  refine agree.setStore fun row' => ?_
  rw [← eq, ← eq', chain, chain]
  split
  · exact keeps (agree.chains row)
  · exact agree.chains row'

theorem undoStep (id : Nat) (step : UndoStep) : Agree σ (m.undoStep id step) (m'.undoStep id step) := by
  cases step with
  | removeByXMin row =>
    refine agree.chainStep (fun m => ?_) (fun m => m.chain_removeByXMin id row) (removeByXMin_agree id)
    dsimp only [Manager.undoStep]
    split <;> exact ⟨_, rfl⟩
  | clearXMax row =>
    refine agree.chainStep (fun m => ?_) (fun m => m.chain_clearXMax id row) (clearXMax_agree id)
    dsimp only [Manager.undoStep]
    split <;> exact ⟨_, rfl⟩
  | logAbort => exact agree.logAppend _ _
  | cleanup => exact agree.cleanup id

theorem undoSteps (id : Nat) (steps : List UndoStep) : Agree σ (m.undoSteps id steps) (m'.undoSteps id steps) := by
  induction steps generalizing m m' with
  | nil => exact agree
  | cons step steps ih => exact ih (agree.undoStep id step)

omit agree in
/-- Both undo logs name the same rows. -/
theorem mvccUndo_eq (copy : TxnCopy σ txn txn') : txn'.mvccUndo = txn.mvccUndo := by
  have rows : (txn'.undoLog.map fun e => (e.table, e.key)) = txn.undoLog.map fun e => (e.table, e.key) := by
    have same := copy.undoLog
    generalize txn.undoLog = l, txn'.undoLog = l' at same
    induction same with
    | nil => rfl
    | cons content _ ih =>
      simp only [UndoEntry.content, Prod.mk.injEq] at content
      rw [map_cons, map_cons, ih, content.2.1, content.2.2.1]
  unfold Transaction.mvccUndo
  rw [rows]

theorem mvccAbort (found : m.txns.get id = some txn) (found' : m'.txns.get id = some txn') (copy : TxnCopy σ txn txn') :
    SameCall σ (m.mvccAbort id) (m'.mvccAbort id) := by
  unfold Manager.mvccAbort
  rw [found, found']
  refine ⟨rfl, ?_⟩
  dsimp only [Transaction.mvccAbort]
  rw [mvccUndo_eq copy, copy.isolation]
  simp only [undoSteps_append]
  -- the steps differ in the LSN of the abort record
  have undone := (agree.markAborted id).undoSteps id txn.mvccUndo
  exact (undone.logAppend (abortRecord id txn.lastWALLSN) (abortRecord id txn'.lastWALLSN)).undoSteps id _

omit agree in
theorem mvccCommit_eq (found : m.txns.get id = some txn)
    (fits : ¬ (txn.isolation = .serializable ∧ m.ssiTracker.isPivotLocked id = true)) :
    m.mvccCommitOrUndo id = (.ok,
      let done := (m.logAppend (commitRecord id txn.lastWALLSN)).2.markCommitted id
      if txn.isolation = .serializable then { done with ssiTracker := done.ssiTracker.cleanup id } else done) := by
  unfold mvccCommitOrUndo mvccCommit
  rw [found]
  dsimp only
  rw [if_neg fits]

omit agree in
theorem not_pivot (idle : m.ssiTracker = {}) : ¬ m.ssiTracker.isPivotLocked id = true := by
  rw [idle]
  nofun

theorem mvccCommitOrUndo (found : m.txns.get id = some txn)
    (found' : m'.txns.get id = some txn') (copy : TxnCopy σ txn txn')
    (fits : σ.reads → txn.isolation = .serializable → m'.ssiTracker.isPivotLocked id = false) :
    SameCall σ (m.mvccCommitOrUndo id) (m'.mvccCommitOrUndo id) := by
  have fits' : ¬ (txn'.isolation = .serializable ∧ m'.ssiTracker.isPivotLocked id = true) := by
    rintro ⟨level, pivot⟩
    rcases agree.unread with reads | quiet
    · rw [fits reads (copy.isolation ▸ level)] at pivot
      cases pivot
    · exact not_pivot quiet.1 pivot
  rw [mvccCommit_eq found fun pivot => not_pivot agree.tracker pivot.2, mvccCommit_eq found' fits']
  refine ⟨rfl, ?_⟩
  have done := (agree.logAppend (commitRecord id txn.lastWALLSN) (commitRecord id txn'.lastWALLSN)).markCommitted id
  rw [copy.isolation]
  split
  · exact done.cleanup id
  · exact done

omit agree in
/-- What the end of a transaction depends on where reads are served: no grants outside its held set, and no dangerous
structure. -/
structure Endable (σ : Scope) (m m' : Manager) (id : Nat) : Prop where
  named : σ.named id
  locks : σ.reads → ∀ txn, m.txns.get id = some txn → txn.protocol = .twoPL → m.LocksNamed id txn.locksHeld
  fits : σ.reads → ∀ txn, m.txns.get id = some txn → txn.protocol = .mvcc → txn.isolation = .serializable →
    m'.ssiTracker.isPivotLocked id = false

theorem commit (endable : Endable σ m m' id) : SameCall σ (m.commit id) (m'.commit id) := by
  unfold Manager.commit
  cases found : m.txns.get id with
  | none =>
    rw [agree.missing found]
    unfold commitTerminal
    rw [agree.committed id endable.named, agree.aborted id endable.named]
    exact ⟨rfl, agree⟩
  | some txn =>
    obtain ⟨txn', found', copy⟩ := agree.found found
    rw [found']
    dsimp only
    rw [copy.protocol]
    cases protocol : txn.protocol with
    | twoPL =>
      refine ⟨rfl, agree.twoPLCommit copy fun reads => ?_⟩
      rw [agree.keyed id txn found]
      exact endable.locks reads txn found protocol
    | mvcc =>
      exact agree.mvccCommitOrUndo found found' copy fun reads => endable.fits reads txn found protocol

theorem abort (named : σ.named id)
    (locks : σ.reads → ∀ txn, m.txns.get id = some txn → txn.protocol = .twoPL → m.LocksNamed id txn.locksHeld) :
    SameCall σ (m.abort id) (m'.abort id) := by
  unfold Manager.abort
  cases found : m.txns.get id with
  | none =>
    rw [agree.missing found]
    unfold abortTerminal
    rw [agree.committed id named]
    exact ⟨rfl, agree⟩
  | some txn =>
    obtain ⟨txn', found', copy⟩ := agree.found found
    rw [found']
    dsimp only
    rw [copy.protocol]
    cases protocol : txn.protocol with
    | twoPL => exact agree.twoPLAbort found found' copy fun reads => locks reads txn found protocol
    | mvcc => exact agree.mvccAbort found found' copy

omit agree in
/-- The snapshot of a transaction that begins now: that of its begin, or one for the statement, which lists the reader
itself. -/
def readerSnapshot (m : Manager) (isoLevel : IsolationLevel) (reader : Transaction) : Snapshot :=
  if isoLevel = .readCommitted then
    { m with nextID := m.nextID + 1, txns := m.txns.set (m.nextID + 1) reader }.takeSnapshot
  else { m with nextID := m.nextID + 1 }.takeSnapshot

omit agree in
/-- What a transaction that begins now sees, in terms of the state before. -/
theorem freshRead_eq (m : Manager) (isoLevel : IsolationLevel) (row : RowRef)
    (room : ¬ (0 < m.maxActive ∧ m.maxActive ≤ m.txns.keys.length)) :
    ∃ reader, m.freshRead isoLevel row = .ok (((m.chain row).find? fun v => Mvcc.isVisible v (m.nextID + 1)
      (readerSnapshot m isoLevel reader) m.statusChecker).map (·.data)) := by
  unfold freshRead begin
  rw [if_neg room]
  dsimp only
  generalize counted : { m with nextID := m.nextID + 1 } = m₁
  have logged := m₁.sameLists_logAppend (beginRecord (m.nextID + 1))
  have chain := m₁.chain_logAppend (beginRecord (m.nextID + 1))
  generalize m₁.logAppend (beginRecord (m.nextID + 1)) = r at logged chain
  obtain ⟨lsn, m₂⟩ := r
  subst counted
  generalize made : (⟨m.nextID + 1, .mvcc, isoLevel,
    if ConcurrencyProtocol.mvcc = .mvcc ∧ isoLevel ≠ .readCommitted then
      some { m with nextID := m.nextID + 1 }.takeSnapshot else none, ∅, [], [], lsn⟩ : Transaction) = reader
  have own : reader.id = m.nextID + 1 := by rw [← made]
  have found : (m₂.putTxn reader).txns.get (m.nextID + 1) = some reader := by
    rw [← own]
    exact (get_set ..).trans (if_pos rfl)
  have snapshot : (m₂.putTxn reader).getSnapshot reader = readerSnapshot m isoLevel reader := by
    unfold Manager.getSnapshot readerSnapshot
    rw [show reader.isolation = isoLevel by rw [← made]]
    split
    · unfold Manager.takeSnapshot Manager.putTxn
      rw [logged.txns, logged.nextID, own]
    · rename_i level
      rw [show reader.snapshot = some { m with nextID := m.nextID + 1 }.takeSnapshot by
        rw [← made]
        exact if_pos ⟨rfl, level⟩]
  refine ⟨reader, ?_⟩
  rw [show (m₂.putTxn reader).nextID = m.nextID + 1 from logged.nextID, readRow_of_found found]
  unfold seenData findVisible
  rw [snapshot, own, show (m₂.putTxn reader).chain row = m.chain row from congrFun chain row]
  congr 2
  congr 1
  funext v
  refine isVisible_congr (.refl _) ?_ ?_ v _
  · funext t
    exact congrArg (·.contains t) logged.committed
  · funext t
    exact congrArg (·.contains t) logged.aborted

theorem readerSnapshot_agree (isoLevel : IsolationLevel) (reader reader' : Transaction) :
    Snapshot.AgreeOn σ.seen (readerSnapshot m isoLevel reader) (readerSnapshot m' isoLevel reader') := by
  unfold readerSnapshot
  rcases agree.nextID with same | apart
  · rw [same]
    split
    · refine snapshots_of_perm (fun _ _ => Iff.rfl) ?_
      rw [GoMap.set, GoMap.set, keys_insert, keys_insert]
      exact (agree.keys.erase _).cons _
    · exact snapshots_of_perm (fun _ _ => Iff.rfl) agree.keys
  · split
    · -- the readers' own IDs are above everything that is seen
      have mem {t x : Nat} (lt : t < x) (l : List Nat) : t ∈ x :: l.erase x ↔ t ∈ l := by
        rw [mem_cons, mem_erase_of_ne (Nat.ne_of_lt lt), or_iff_right (Nat.ne_of_lt lt)]
      have least {t x : Nat} (lt : t < x) (l : List Nat) : (∀ k ∈ x :: l.erase x, t < k) ↔ ∀ k ∈ l, t < k := by
        constructor
        · intro below k at_k
          by_cases same : k = x
          · rw [same]
            exact lt
          · exact below k (mem_cons_of_mem _ ((mem_erase_of_ne same).2 at_k))
        · intro below k at_k
          rcases mem_cons.1 at_k with rfl | inner
          · exact lt
          · exact below k (mem_of_mem_erase inner)
      refine snapshots (fun t seen => ?_) (fun t seen => ?_) (fun t seen => ?_) ?_
      · have := apart t seen
        dsimp only
        omega
      · have := apart t seen
        simp only [GoMap.set, keys_insert]
        rw [mem (by omega), mem (by omega), agree.keys.mem_iff]
      · have := apart t seen
        simp only [GoMap.set, keys_insert]
        rw [least (by omega), least (by omega)]
        simp only [agree.keys.mem_iff]
      · simp [GoMap.set]
    · refine snapshots_of_perm (fun t seen => ?_) agree.keys
      have := apart t seen
      dsimp only
      omega

/-- A transaction that begins now sees the same rows on both sides. -/
theorem freshRead (isoLevel : IsolationLevel) (row : RowRef) :
    m'.freshRead isoLevel row = m.freshRead isoLevel row := by
  by_cases full : 0 < m.maxActive ∧ m.maxActive ≤ m.txns.keys.length
  · have full' : 0 < m'.maxActive ∧ m'.maxActive ≤ m'.txns.keys.length := by
      rwa [agree.maxActive, agree.keys.length_eq]
    unfold Manager.freshRead Manager.begin
    rw [if_pos full, if_pos full']
  · have room' : ¬ (0 < m'.maxActive ∧ m'.maxActive ≤ m'.txns.keys.length) := by
      rwa [agree.maxActive, agree.keys.length_eq]
    obtain ⟨reader, eq⟩ := freshRead_eq m isoLevel row full
    obtain ⟨reader', eq'⟩ := freshRead_eq m' isoLevel row room'
    rw [eq, eq']
    have apart (t : Nat) (seen : σ.seen t) : t = m.nextID + 1 ↔ t = m'.nextID + 1 := by
      rcases agree.nextID with same | apart
      · rw [same]
      · have := apart t seen
        omega
    have visible (v w : Version) (version : VersionCopy σ v w) :
        Mvcc.isVisible w (m'.nextID + 1) (readerSnapshot m' isoLevel reader') m'.statusChecker =
          Mvcc.isVisible v (m.nextID + 1) (readerSnapshot m isoLevel reader) m.statusChecker :=
      isVisible_agree version (agree.readerSnapshot_agree isoLevel reader reader') agree.committed agree.aborted
        (apart v.xmin version.creator.2) fun live => apart v.xmax (version.deleter.resolve_left live).2
    have hit := find?_agree (agree.chains row) visible
    generalize (m.chain row).find? _ = a, (m'.chain row).find? _ = b at hit
    cases hit with
    | none => rfl
    | some version => rw [map_some, map_some, version.data]

end

end Agree

end TransactionManager.Txn

namespace TransactionManager.Raft
open Txn

/-- A command with the same effect on both sides: both know the status of its transaction alike, the snapshots of both
place the transaction of an MVCC write alike, and where reads are served, no one else holds S on the table or the row
of a 2PL write, and a transaction that ends may do so. -/
structure InScope (σ : Scope) (m m' : Manager) (c : Command) : Prop where
  named : σ.named c.txnID
  seen : c.type = .write → ∀ txn, m.txns.get c.txnID = some txn → txn.protocol = .mvcc → σ.seen c.txnID
  unread : σ.reads → c.type = .write → ∀ txn, m.txns.get c.txnID = some txn → txn.protocol = .twoPL →
    ∀ r ∈ [Lock.ResourceID.table c.table, Lock.ResourceID.row c.table c.rowKey],
      ∀ g ∈ (m'.queue r.name).granted, g.mode = .s → g.txnID = c.txnID
  locks : σ.reads → c.type = .commit ∨ c.type = .abort → ∀ txn, m.txns.get c.txnID = some txn →
    txn.protocol = .twoPL → m.LocksNamed c.txnID txn.locksHeld
  fits : σ.reads → c.type = .commit → ∀ txn, m.txns.get c.txnID = some txn → txn.protocol = .mvcc →
    txn.isolation = .serializable → m'.ssiTracker.isPivotLocked c.txnID = false

section
variable {σ : Scope} {m m' : Manager}

/-- Two managers that agree return the same from a command and agree after it. -/
theorem applyCommand_agree (agree : Agree σ m m') {c : Command} (scope : InScope σ m m' c) :
    (applyCommand m' c).1 = (applyCommand m c).1 ∧ Agree σ (applyCommand m c).2 (applyCommand m' c).2 := by
  unfold applyCommand
  cases kind : c.type with
  | noop | other code => exact ⟨rfl, agree⟩
  | begin =>
    obtain ⟨same, agree⟩ := agree.beginWithID c.txnID (if c.proto = 1 then .mvcc else .twoPL) (isolationOf c.iso)
    exact ⟨congrArg ApplyResult.call same, agree⟩
  | write =>
    cases found : m.txns.get c.txnID with
    | none =>
      rw [agree.missing found]
      exact ⟨rfl, agree⟩
    | some txn =>
      obtain ⟨txn', found', copy⟩ := agree.found found
      rw [found']
      dsimp only
      split
      · exact ⟨rfl, agree⟩
      rw [copy.protocol]
      cases protocol : txn.protocol with
      | twoPL =>
        have unread (r) (mem : r ∈ [Lock.ResourceID.table c.table, Lock.ResourceID.row c.table c.rowKey]) :
            ∀ g ∈ (m'.queue r.name).granted, g.mode = .s → g.txnID = txn.id := by
          rw [agree.keyed _ _ found]
          rcases agree.unread with reads | quiet
          · exact scope.unread reads kind txn found protocol r mem
          · exact fun g mem read => absurd (quiet.2 _ g mem) (by rw [read]; decide)
        obtain ⟨same, agree⟩ := agree.twoPLWriteCall copy (c.table, c.rowKey) _ c.op
          (unread _ List.mem_cons_self) (unread _ (List.mem_cons_of_mem _ List.mem_cons_self))
        exact ⟨congrArg ApplyResult.call same, agree⟩
      | mvcc =>
        obtain ⟨same, agree⟩ := agree.mvccWriteCall found copy scope.named
          (scope.seen kind txn found protocol) (c.table, c.rowKey) _ c.op
        exact ⟨congrArg ApplyResult.call same, agree⟩
  | commit =>
    obtain ⟨same, agree⟩ := agree.commit
      ⟨scope.named, fun reads => scope.locks reads (.inl kind), fun reads => scope.fits reads kind⟩
    exact ⟨congrArg ApplyResult.call same, agree⟩
  | abort =>
    obtain ⟨same, agree⟩ := agree.abort scope.named fun reads => scope.locks reads (.inr kind)
    exact ⟨congrArg ApplyResult.call same, agree⟩

end

/-- Two managers with the same rows in the catalog and for a transaction that begins now. -/
structure SameView (m m' : Manager) : Prop where
  rows : SameRows m.catalog m'.catalog
  reads : ∀ isoLevel row, m'.freshRead isoLevel row = m.freshRead isoLevel row

theorem sameView_of_agree {σ : Scope} {m m' : Manager} (agree : Agree σ m m') : SameView m m' :=
  ⟨agree.rows, agree.freshRead⟩

end TransactionManager.Raft
