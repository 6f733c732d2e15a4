import TransactionManager.Txn.TwoPL

/-!
# What one step of a 2PL run does

The inversion of `TwoPLRun.next`: one constructor for each way a step can go, with its
guards. Beside it, what the manager's functions leave alone and what a write does to the
transaction and to the log.
-/

namespace TransactionManager.Txn
open Lib Lock List GoMap TwoPLRun TransactionManager.Types Wal

/-- Two manager states that differ in the log and the rows only. -/
structure SameBooks (m m' : Manager) : Prop extends SameLists m m' where
  lockTable : m'.lockTable = m.lockTable
  tables : ∀ name, (m'.catalog.lookup name).isSome = (m.catalog.lookup name).isSome

/-- The records of the log, none when there is no log. -/
def Manager.records (m : Manager) : List LogRecord := (m.wal.map (·.records)).getD []

/-- The LSN the next record gets. -/
def Manager.nextLSN (m : Manager) : Nat := (m.wal.map (·.nextLSN)).getD LSNInvalid

namespace Manager
variable (m : Manager)

theorem sameBooks_logAppend (rec : LogRecord) : SameBooks m (m.logAppend rec).2 := by
  unfold logAppend
  split <;> exact ⟨⟨rfl, rfl, rfl, rfl⟩, rfl, fun _ => rfl⟩

theorem queue_setQueue (name : GoString) (q : Queue) : (m.setQueue name q).queue = Function.update m.queue name q := by
  funext name'
  unfold queue setQueue
  rw [get_set, Function.update_apply]
  split <;> rfl

theorem queue_reapQueue (name : GoString) (q : Queue) :
    (m.reapQueue name q).queue = Function.update m.queue name q := by
  funext name'
  unfold reapQueue queue
  rw [Function.update_apply]
  by_cases empty : q.isEmpty = true
  · rw [if_pos empty, get_delete]
    split
    · exact (Queue.eq_empty_of_isEmpty empty).symm
    · rfl
  · rw [if_neg empty, get_set]
    split <;> rfl

theorem wal_logAppend (rec : LogRecord) : (m.logAppend rec).2.wal = m.wal.map fun log => (log.append rec).2 := by
  unfold logAppend
  split
  · rename_i log on
    rw [on]
    rfl
  · rename_i off
    rw [off]
    rfl

theorem fst_logAppend (rec : LogRecord) : (m.logAppend rec).1 = m.nextLSN := by
  unfold logAppend nextLSN
  split
  · rename_i log on
    rw [on]
    rfl
  · rename_i off
    rw [off]
    rfl

structure TwoPLWritten (m : Manager) (txn : Transaction) (row : RowRef) (values : RowData)
    (op : UndoOpType) (m' : Manager) : Prop where
  committed : m'.committed = m.committed
  aborted : m'.aborted = m.aborted
  nextID : m'.nextID = m.nextID
  lockTable : m'.lockTable = m.lockTable
  txns : ∃ last before, m'.txns = m.txns.set txn.id { txn with
    lastWALLSN := last
    undoLog := txn.undoLog ++ [⟨op, row.1, row.2, before, m.nextLSN⟩] }
  wal : ∃ before after, m.encodeAfter values = some after ∧ m'.wal = m.wal.map fun log =>
    (log.append (writeRecord txn.id txn.lastWALLSN op.code row.1 row.2 before after)).2

/-- `TwoPLWrite` fails and does nothing, or writes. -/
theorem twoPLWrite_cases (txn : Transaction) (row : RowRef) (values : RowData) (op : UndoOpType) :
    m.twoPLWrite txn row values op = (false, m) ∨
      ∃ m', m.twoPLWrite txn row values op = (true, m') ∧ m.TwoPLWritten txn row values op m' := by
  unfold twoPLWrite
  cases m.catalog.lookup row.1 with
  | none => exact .inl rfl
  | some t =>
    simp only
    split
    case h_2 => exact .inl rfl
    rename_i before after _ encoded
    refine .inr ⟨_, rfl, ?_⟩
    have books := m.sameBooks_logAppend (writeRecord txn.id txn.lastWALLSN op.code row.1 row.2 before after)
    have wal := m.wal_logAppend (writeRecord txn.id txn.lastWALLSN op.code row.1 row.2 before after)
    refine ⟨books.committed, books.aborted, books.nextID, books.lockTable,
      ⟨if m.wal.isSome then m.nextLSN else txn.lastWALLSN, (t.getRow row.2).getD none, ?_⟩, before, after, encoded, wal⟩
    simp only [logWrite, putTxn, fst_logAppend, books.txns]

/-- One round of undo changes rows and may log a CLR. -/
theorem undoEntry_spec (t : Nat) (e : UndoEntry) (more : List UndoEntry) (lastCLR : Nat) :
    SameBooks m (m.undoEntry t e more lastCLR).2 ∧
      ((m.undoEntry t e more lastCLR).2.wal = m.wal ∨ ∃ prev undoNext, (m.undoEntry t e more lastCLR).2.wal =
          m.wal.map fun log => (log.append (clrRecord t prev undoNext)).2) := by
  have clr : SameBooks m (m.logCLR t e more lastCLR).2 ∧
      ((m.logCLR t e more lastCLR).2.wal = m.wal ∨ ∃ prev undoNext, (m.logCLR t e more lastCLR).2.wal =
          m.wal.map fun log => (log.append (clrRecord t prev undoNext)).2) := by
    unfold logCLR
    split
    · exact ⟨m.sameBooks_logAppend _, .inr ⟨_, _, m.wal_logAppend _⟩⟩
    · exact ⟨⟨⟨rfl, rfl, rfl, rfl⟩, rfl, fun _ => rfl⟩, .inl rfl⟩
  obtain ⟨books, wal⟩ := clr
  refine ⟨⟨⟨books.txns, books.committed, books.aborted, books.nextID⟩, books.lockTable, fun name => ?_⟩, wal⟩
  exact (isSome_lookup_restore _ e name).trans (books.tables name)

/-- What `Begin` does when there is room. -/
structure Begun (m : Manager) (isoLevel : IsolationLevel) (m' : Manager) : Prop where
  txns : ∃ last, m'.txns = m.txns.set (m.nextID + 1)
    { id := m.nextID + 1, protocol := .twoPL, isolation := isoLevel, lastWALLSN := last }
  committed : m'.committed = m.committed
  aborted : m'.aborted = m.aborted
  nextID : m'.nextID = m.nextID + 1
  lockTable : m'.lockTable = m.lockTable
  catalog : m'.catalog = m.catalog
  wal : m'.wal = m.wal.map fun log => (log.append (beginRecord (m.nextID + 1))).2

theorem begin_cases (isoLevel : IsolationLevel) : (m.begin .twoPL isoLevel).2 = m ∨
    m.Begun isoLevel (m.begin .twoPL isoLevel).2 := by
  unfold begin
  split
  · exact .inl rfl
  right
  have books := sameBooks_logAppend { m with nextID := m.nextID + 1 } (beginRecord (m.nextID + 1))
  have wal := wal_logAppend { m with nextID := m.nextID + 1 } (beginRecord (m.nextID + 1))
  have catalog : (logAppend { m with nextID := m.nextID + 1 } (beginRecord (m.nextID + 1))).2.catalog = m.catalog := by
    unfold logAppend
    split <;> rfl
  refine ⟨⟨m.nextLSN, ?_⟩, books.committed, books.aborted, books.nextID, books.lockTable, catalog, wal⟩
  simp only [putTxn, books.txns, fst_logAppend]
  rfl

end Manager

namespace TwoPLRun

theorem get_goto {s : TwoPLRun} {t : Nat} {call : Option TwoPLCall} (u : Nat) :
    (s.goto t call).calls.get u = if u = t then call else s.calls.get u := by
  cases call <;> simp [goto]

end TwoPLRun

inductive TwoPLStep (s : TwoPLRun) : TwoPLAction → TwoPLRun → Prop where
  | refused : TwoPLStep s a s
  | begun (begun : s.mgr.Begun isoLevel m) : TwoPLStep s (.begin isoLevel) (s.setMgr m)
  | startUnlocked (active : s.mgr.txns.get t = some txn) (idle : s.calls.get t = none)
      (level : txn.isolation = .readUncommitted) :
      TwoPLStep s (.start t (.read row)) (s.goto t (some (.body (.read row))))
  | start (active : s.mgr.txns.get t = some txn) (idle : s.calls.get t = none) :
      TwoPLStep s (.start t o) (s.goto t (some (.acquire o .table)))
  | acquire (active : s.mgr.txns.get t = some txn) (here : s.calls.get t = some (.acquire o stage)) :
      TwoPLStep s (.acquire t) (s.acquire txn o stage)
  | granted (active : s.mgr.txns.get t = some txn) (here : s.calls.get t = some (.waiting o stage ch))
      (wakes : s.wakes o stage ch = true) :
      TwoPLStep s (.granted t)
        ((s.setMgr (s.mgr.putTxn { txn with locksHeld := txn.locksHeld.set (o.resource stage) (o.mode stage) })).goto t
          (some (TwoPLRun.locked o stage)))
  | gaveUp (here : s.calls.get t = some (.waiting o stage ch)) :
      TwoPLStep s (.giveUp t) ((s.setMgr (s.mgr.setQueue (o.resource stage).name
        (giveUpLocked (s.mgr.queue (o.resource stage).name) t))).goto t none)
  | read (active : s.mgr.txns.get t = some txn) (here : s.calls.get t = some (.body (.read row))) :
      TwoPLStep s (.body t) ((s.record (.read t row)).goto t none)
  | wrote (active : s.mgr.txns.get t = some txn) (here : s.calls.get t = some (.body (.write row values op)))
      (written : s.mgr.TwoPLWritten txn row values op m) :
      TwoPLStep s (.body t) (((s.setMgr m).record (.write t row op values)).goto t none)
  | failed (here : s.calls.get t = some (.body o)) : TwoPLStep s (.body t) (s.goto t none)
  | savepoint (active : s.mgr.txns.get t = some txn) (idle : s.calls.get t = none) :
      TwoPLStep s (.savepoint t name)
        (s.setMgr (s.mgr.putTxn { txn with savepoints := txn.savepoints ++ [⟨name, txn.undoLog.length⟩] }))
  | rollback (active : s.mgr.txns.get t = some txn) (idle : s.calls.get t = none) (found : sp ∈ txn.savepoints) :
      TwoPLStep s (.rollback t name)
        (s.goto t (some (.rollback (txn.undoLog.drop sp.undoPosition).reverse LSNInvalid sp.undoPosition)))
  | undid (here : s.calls.get t = some (.rollback (e :: more) lastCLR position)) :
      TwoPLStep s (.undo t)
        (((s.setMgr (s.mgr.undoEntry t e more lastCLR).2).record (.undo t (e.table, e.key))).goto t
          (some (.rollback more (s.mgr.undoEntry t e more lastCLR).1 position)))
  | rolledBack (active : s.mgr.txns.get t = some txn) (here : s.calls.get t = some (.rollback [] lastCLR position)) :
      TwoPLStep s (.undo t) (((s.setMgr (s.mgr.putTxn { txn with undoLog := txn.undoLog.take position })).record
          (.rollback t position)).goto t none)
  | undidAborted (here : s.calls.get t = some (.undo txn (e :: more) lastCLR)) :
      TwoPLStep s (.undo t) ((s.setMgr (s.mgr.undoEntry t e more lastCLR).2).goto t
        (some (.undo txn more (s.mgr.undoEntry t e more lastCLR).1)))
  | undone (here : s.calls.get t = some (.undo txn [] lastCLR)) :
      TwoPLStep s (.undo t) (s.goto t (some (.release txn txn.locksHeld.keys (some prevLSN))))
  | commit (active : s.mgr.txns.get t = some txn) (idle : s.calls.get t = none) :
      TwoPLStep s (.commit t)
        (((s.setMgr ((s.mgr.logAppend (commitRecord t txn.lastWALLSN)).2.markCommitted t)).record (.commit t)).goto t
          (some (.release txn txn.locksHeld.keys none)))
  | abort (active : s.mgr.txns.get t = some txn) (idle : s.calls.get t = none) :
      TwoPLStep s (.abort t) (((s.setMgr (s.mgr.markAborted t)).record (.abort t)).goto t
        (some (.undo txn txn.undoLog.reverse LSNInvalid)))
  | release (here : s.calls.get t = some (.release txn rest prevLSN))
      (released : m = s.mgr ∨ m = s.mgr.reapQueue r.name (releaseLocked (s.mgr.queue r.name) t)) :
      TwoPLStep s (.release t r) ((s.setMgr m).goto t (some (.release txn' rest' prevLSN)))
  | finish (here : s.calls.get t = some (.release txn [] prevLSN))
      (logged : m = s.mgr ∨ ∃ last, prevLSN = some last ∧ m = (s.mgr.logAppend (abortRecord t last)).2) :
      TwoPLStep s (.finish t) ((s.setMgr m).goto t none)

section
variable {m m' : Manager} {t : Nat}

theorem SameLists.of_released {name : GoString} {q : Queue} (released : m' = m ∨ m' = m.reapQueue name q) :
    SameLists m m' := by
  rcases released with rfl | rfl <;> exact ⟨rfl, rfl, rfl, rfl⟩

theorem SameLists.of_logged {prev : Option Nat}
    (logged : m' = m ∨ ∃ last, prev = some last ∧ m' = (m.logAppend (abortRecord t last)).2) :
    SameLists m m' := by
  rcases logged with rfl | ⟨last, -, rfl⟩
  · exact ⟨rfl, rfl, rfl, rfl⟩
  · exact (m.sameBooks_logAppend _).toSameLists

end

/-- Every step goes one of these ways. -/
theorem TwoPLRun.next_step {s s' : TwoPLRun} {a : TwoPLAction} (taken : s.next a = some s') : TwoPLStep s a s' := by
  cases a with (simp only [next] at taken; try (split at taken; case h_2 => cases taken))
  | begin isoLevel =>
    cases taken
    cases s.mgr.begin_cases isoLevel with
    | inl same =>
      rw [same]
      exact .refused
    | inr begun => exact .begun begun
  | start t o =>
    rename_i txn active idle
    split at taken
    · rename_i unlocked
      cases taken
      rw [unlocked.2]
      exact .startUnlocked active idle unlocked.1
    · cases taken
      exact .start active idle
  | acquire t =>
    cases taken
    exact .acquire ‹_› ‹_›
  | granted t =>
    obtain ⟨_, rfl⟩ := of_guard taken
    exact .granted ‹_› ‹_› ‹_›
  | giveUp t =>
    cases taken
    exact .gaveUp ‹_›
  | body t =>
    split at taken
    case h_3 => cases taken
    · rename_i txn row active here
      split at taken
      · cases taken
        exact .read active here
      · cases taken
        exact .failed here
    · rename_i txn row values op active here
      rcases s.mgr.twoPLWrite_cases txn row values op with failed | ⟨m, eq, written⟩
      · rw [failed] at taken
        cases taken
        exact .failed here
      · rw [eq] at taken
        cases taken
        exact .wrote active here written
  | savepoint t name =>
    cases taken
    exact .savepoint ‹_› ‹_›
  | rollback t name =>
    split at taken
    · cases taken
      exact .refused
    · rename_i sp found
      cases taken
      exact .rollback ‹_› ‹_› (List.mem_reverse.1 (List.mem_of_find?_eq_some found))
  | undo t =>
    split at taken
    · cases taken
      exact .undid ‹_›
    · split at taken
      · cases taken
        exact .rolledBack ‹_› ‹_›
      · cases taken
    · cases taken
      exact .undidAborted ‹_›
    · cases taken
      exact .undone ‹_›
    · cases taken
  | commit t =>
    cases taken
    exact .commit ‹_› ‹_›
  | abort t =>
    cases taken
    exact .abort ‹_› ‹_›
  | release t r =>
    obtain ⟨_, rfl⟩ := of_guard taken
    refine .release ‹_› ?_
    cases found : s.mgr.lockTable.get r.name with
    | none => exact .inl rfl
    | some q =>
      right
      unfold Manager.queue
      rw [found]
      rfl
  | finish t =>
    split at taken
    · cases taken
      exact .finish ‹_› (.inl rfl)
    · cases taken
      exact .finish ‹_› (.inr ⟨_, rfl, rfl⟩)
    · cases taken

/-!
## The manager's books in a 2PL run

Who runs, who has finished and how, and what the history says about it. A transaction acts
only while it runs, so its reads and writes all come before its commit.
-/

/-- The row an event touches, with the lock mode that protects it. -/
def TwoPLEvent.access : TwoPLEvent → Option (Nat × RowRef × Mode)
  | .read t row => some (t, row, .s)
  | .write t row _ _ | .undo t row => some (t, row, .x)
  | _ => none

/-- The transaction of the call is no longer in the manager's map. -/
def TwoPLCall.Finished : TwoPLCall → Prop
  | .undo .. | .release .. => True
  | _ => False

structure Books (s : TwoPLRun) : Prop extends Booked s.mgr (· ∈ s.mgr.committed) (· ∈ s.mgr.aborted) where
  calls : ∀ t call, s.calls.get t = some call → t ≤ s.mgr.nextID ∧ (call.Finished ↔ ¬ s.mgr.Active t)
  commits : ∀ t, .commit t ∈ s.hist ↔ t ∈ s.mgr.committed
  once : ∀ t, s.hist.count (.commit t) ≤ 1
  fate : ∀ e ∈ s.hist, ∀ t row m, e.access = some (t, row, m) → s.mgr.Active t ∨ t ∈ s.mgr.committed ∨ t ∈ s.mgr.aborted
  before : ∀ e t row m, e.access = some (t, row, m) → ¬ Precedes s.hist (.commit t) e

section
variable {s s' : TwoPLRun} {t : Nat}

theorem Books.within (inv : Books s) (bound : t ≤ s.mgr.nextID) {y : Option TwoPLCall}
    (active : ∀ u, s'.mgr.Active u ↔ s.mgr.Active u) (committed : s'.mgr.committed = s.mgr.committed)
    (aborted : s'.mgr.aborted = s.mgr.aborted) (nextID : s'.mgr.nextID = s.mgr.nextID)
    (calls : ∀ u, s'.calls.get u = if u = t then y else s.calls.get u)
    (finished : ∀ call ∈ y, call.Finished ↔ ¬ s.mgr.Active t)
    (hist : s'.hist = s.hist ∨ ∃ e, s'.hist = s.hist ++ [e] ∧ s.mgr.Active t ∧ (∀ u, e ≠ .commit u) ∧
      ∀ u row m, e.access = some (u, row, m) → u = t) : Books s' := by
  refine ⟨?_, ?_, ?_, ?_, ?_, ?_⟩
  · rw [committed, aborted]
    exact inv.toBooked.same (fun u => (active u).1) nextID
  · intro u call found
    rw [nextID]
    rw [calls] at found
    split at found
    · rename_i eq
      subst eq
      exact ⟨bound, (finished call found).trans (not_congr (active u).symm)⟩
    · obtain ⟨le, done⟩ := inv.calls u call found
      exact ⟨le, done.trans (not_congr (active u).symm)⟩
  · intro u
    rw [committed, ← inv.commits u]
    rcases hist with same | ⟨e, new, -, other, -⟩
    · rw [same]
    · rw [new, mem_append, mem_singleton]
      exact or_iff_left (other u).symm
  · intro u
    rcases hist with same | ⟨e, new, -, other, -⟩
    · rw [same]
      exact inv.once u
    · rw [new, count_append, count_singleton, if_neg]
      · exact inv.once u
      · exact fun eq => other u (beq_iff_eq.1 eq)
  · intro e mem u row m access
    rw [active, committed, aborted]
    rcases hist with same | ⟨e', new, run, -, mine⟩
    · rw [same] at mem
      exact inv.fate e mem u row m access
    · rw [new, mem_append, mem_singleton] at mem
      rcases mem with old | rfl
      · exact inv.fate e old u row m access
      · exact .inl (mine u row m access ▸ run)
  · intro e u row m access late
    rcases hist with same | ⟨e', new, run, -, mine⟩
    · rw [same] at late
      exact inv.before e u row m access late
    rw [new, precedes_append_singleton] at late
    rcases late with old | ⟨mem, rfl⟩
    · exact inv.before e u row m access old
    · -- only a running transaction acts
      obtain rfl := mine u row m access
      exact (inv.running u run).2.2.1 ((inv.commits u).1 mem)

theorem Books.begun (inv : Books s) {isoLevel : IsolationLevel} {m : Manager}
    (begun : s.mgr.Begun isoLevel m) : Books (s.setMgr m) := by
  obtain ⟨last, txns⟩ := begun.txns
  have active (u : Nat) : (s.setMgr m).mgr.Active u ↔ u = s.mgr.nextID + 1 ∨ s.mgr.Active u := by
    show (m.txns.get u).isSome = true ↔ _
    rw [txns, get_set]
    split
    · exact ⟨fun _ => .inl ‹_›, fun _ => rfl⟩
    · exact ⟨.inr, fun h => h.resolve_left ‹_›⟩
  have nextID : (s.setMgr m).mgr.nextID = s.mgr.nextID + 1 := begun.nextID
  have committed : (s.setMgr m).mgr.committed = s.mgr.committed := begun.committed
  have aborted : (s.setMgr m).mgr.aborted = s.mgr.aborted := begun.aborted
  refine ⟨?_, ?_, ?_, inv.once, ?_, inv.before⟩
  · rw [committed, aborted]
    exact inv.toBooked.begin (fun u => (active u).1) nextID
  · intro u call found
    obtain ⟨le, done⟩ := inv.calls u call found
    rw [nextID]
    refine ⟨Nat.le_succ_of_le le, done.trans (not_congr ?_)⟩
    rw [active]
    exact ⟨.inr, fun h => h.resolve_left (by omega)⟩
  · rw [committed]
    exact inv.commits
  · intro e mem u row k access
    rw [active, committed, aborted]
    exact (inv.fate e mem u row k access).imp_left .inr

/-- A running transaction finishes; `event` says how. -/
theorem Books.finish (inv : Books s) (run : s.mgr.Active t) (call : TwoPLCall) {event : TwoPLEvent}
    (finished : call.Finished)
    (active : ∀ u, s'.mgr.Active u ↔ u ≠ t ∧ s.mgr.Active u) (nextID : s'.mgr.nextID = s.mgr.nextID)
    (calls : ∀ u, s'.calls.get u = if u = t then some call else s.calls.get u)
    (hist : s'.hist = s.hist ++ [event])
    (way : event = .commit t ∧ s'.mgr.committed = t :: s.mgr.committed ∧ s'.mgr.aborted = s.mgr.aborted ∨
      event = .abort t ∧ s'.mgr.committed = s.mgr.committed ∧ s'.mgr.aborted = t :: s.mgr.aborted) : Books s' := by
  obtain ⟨-, bound, notCommitted, -⟩ := inv.running t run
  have noAccess (u : Nat) (row : RowRef) (m : Mode) : event.access ≠ some (u, row, m) := by
    rcases way with ⟨rfl, -⟩ | ⟨rfl, -⟩ <;> exact nofun
  have committed (u : Nat) : u ∈ s'.mgr.committed ↔ u ∈ s.mgr.committed ∨ event = .commit u := by
    rcases way with ⟨rfl, eq, -⟩ | ⟨rfl, eq, -⟩ <;> rw [eq]
    · rw [mem_cons, or_comm, TwoPLEvent.commit.injEq]
      exact or_congr_right eq_comm
    · simp
  have aborted (u : Nat) : u ∈ s'.mgr.aborted ↔ u ∈ s.mgr.aborted ∨ event = .abort u := by
    rcases way with ⟨rfl, -, eq⟩ | ⟨rfl, -, eq⟩ <;> rw [eq]
    · simp
    · rw [mem_cons, or_comm, TwoPLEvent.abort.injEq]
      exact or_congr_right eq_comm
  have mine (u : Nat) (eq : event = .commit u ∨ event = .abort u) : u = t := by
    rcases way with ⟨rfl, -⟩ | ⟨rfl, -⟩ <;> rcases eq with eq | eq <;> cases eq <;> rfl
  refine ⟨?_, ?_, ?_, ?_, ?_, ?_⟩
  · have left (u : Nat) := (active u).1
    rcases way with ⟨-, committed, aborted⟩ | ⟨-, committed, aborted⟩ <;> rw [committed, aborted]
    · exact inv.toBooked.commit run left nextID fun u => mem_cons
    · exact (inv.toBooked.symm.commit run left nextID fun u => mem_cons).symm
  · intro u call' found
    rw [nextID]
    rw [calls] at found
    split at found
    · rename_i eq
      subst eq
      cases found
      exact ⟨bound, fun _ run' => ((active u).1 run').1 rfl, fun _ => finished⟩
    · rename_i other
      obtain ⟨le, done⟩ := inv.calls u call' found
      refine ⟨le, done.trans (not_congr ?_)⟩
      rw [active]
      exact ⟨fun run' => ⟨other, run'⟩, And.right⟩
  · intro u
    rw [hist, mem_append, mem_singleton, committed, inv.commits u]
    exact or_congr_right eq_comm
  · intro u
    rw [hist, count_append]
    by_cases eq : event = .commit u
    · have absent : s.hist.count (.commit u) = 0 := by
        rw [count_eq_zero, inv.commits u]
        exact mine u (.inl eq) ▸ notCommitted
      rw [absent, eq]
      simp
    · have zero : [event].count (.commit u) = 0 := by
        rw [count_eq_zero, mem_singleton]
        exact fun h => eq h.symm
      rw [zero]
      exact inv.once u
  · intro e mem u row m access
    rw [hist, mem_append, mem_singleton] at mem
    rcases mem with old | rfl
    · rw [active, committed, aborted]
      by_cases same : u = t
      · subst same
        rcases way with ⟨rfl, -⟩ | ⟨rfl, -⟩
        · exact .inr (.inl (.inr rfl))
        · exact .inr (.inr (.inr rfl))
      · exact (inv.fate e old u row m access).imp (fun run' => ⟨same, run'⟩) (.imp .inl .inl)
    · exact absurd access (noAccess u row m)
  · intro e u row m access late
    rw [hist, precedes_append_singleton] at late
    rcases late with old | ⟨-, rfl⟩
    · exact inv.before e u row m access old
    · exact absurd access (noAccess u row m)

theorem active_set {m : Manager} (run : m.Active t) (txn : Transaction) (u : Nat) :
    ((m.txns.set t txn).get u).isSome = true ↔ m.Active u := by
  rw [get_set]
  split
  · rename_i eq
    rw [eq]
    exact ⟨fun _ => run, fun _ => rfl⟩
  · rfl

theorem SameLists.active {m m' : Manager} (same : SameLists m m') (u : Nat) : m'.Active u ↔ m.Active u := by
  unfold Manager.Active
  rw [same.txns]

/-- `AcquireLockCtx` goes on to the next lock or to the operation itself, or waits. -/
theorem TwoPLRun.acquire_eq {txn : Transaction} {o : RowOp} {stage : LockStage} :
    let locked := acquireLocked (s.mgr.queue (o.resource stage).name) txn.locksHeld txn.id
      (o.resource stage) (o.mode stage) s.nextCh
    ∃ call, (call = .acquire o .row ∨ call = .body o ∨ call = .waiting o stage s.nextCh) ∧
      s.acquire txn o stage = goto { s with
        mgr := (s.mgr.setQueue (o.resource stage).name locked.2.1).putTxn { txn with locksHeld := locked.2.2 }
        nextCh := s.nextCh + 1 } txn.id (some call) := by
  have next : locked o stage = .acquire o .row ∨ locked o stage = .body o ∨
      locked o stage = .waiting o stage s.nextCh := by
    cases stage
    · exact .inl rfl
    · exact .inr (.inl rfl)
  unfold acquire
  dsimp only
  split
  · exact ⟨_, next, rfl⟩
  · exact ⟨_, next, rfl⟩
  · exact ⟨_, .inr (.inr rfl), rfl⟩

theorem TwoPLStep.aborted_sub {a : TwoPLAction} (step : TwoPLStep s a s') :
    ∀ u ∈ s.mgr.aborted, u ∈ s'.mgr.aborted := by
  cases step with
  | begun begun => exact fun _ => (begun.aborted.symm ▸ ·)
  | @acquire t txn o stage =>
    obtain ⟨call, -, eq⟩ := @TwoPLRun.acquire_eq s txn o stage
    rw [eq]
    exact fun _ => id
  | wrote _ _ written => exact fun _ => (written.aborted.symm ▸ ·)
  | undid | undidAborted => exact (s.mgr.undoEntry_spec ..).1.aborted_sub
  | commit => exact (s.mgr.sameBooks_logAppend _).aborted_sub
  | abort => exact fun _ => mem_cons_of_mem _
  | release _ released => exact (SameLists.of_released released).aborted_sub
  | finish _ logged => exact (SameLists.of_logged logged).aborted_sub
  | _ => exact fun _ => id

/-- Where a call may go: to a running place while the transaction runs. -/
theorem Books.going (run : s.mgr.Active t) {y : Option TwoPLCall} (running : ∀ x ∈ y, ¬ x.Finished) :
    ∀ call ∈ y, call.Finished ↔ ¬ s.mgr.Active t :=
  fun call mem => ⟨fun fin => absurd fin (running call mem), fun not => absurd run not⟩

/-- Every step keeps the books. -/
theorem Books.step (inv : Books s) (ids : ∀ t txn, s.mgr.txns.get t = some txn → txn.id = t)
    {a : TwoPLAction} (step : TwoPLStep s a s') : Books s' := by
  cases step with
  | refused => exact inv
  | begun begun => exact inv.begun begun
  | startUnlocked active | start active | rollback active =>
    have run := active_of_get active
    refine inv.within (inv.running _ run).2.1 (fun _ => Iff.rfl) rfl rfl rfl get_goto (going run ?_) (.inl rfl)
    rintro call ⟨⟩
    exact id
  | @acquire t txn o stage active =>
    obtain rfl := ids t txn active
    have run := active_of_get active
    obtain ⟨call, place, eq⟩ := @TwoPLRun.acquire_eq s txn o stage
    rw [eq]
    refine inv.within (inv.running _ run).2.1 (active_set run _) rfl rfl rfl get_goto (going run ?_) (.inl rfl)
    rintro x ⟨⟩
    rcases place with rfl | rfl | rfl <;> exact id
  | @granted t txn _ stage _ active =>
    obtain rfl := ids t txn active
    have run := active_of_get active
    refine inv.within (inv.running _ run).2.1 (active_set run _) rfl rfl rfl get_goto (going run ?_) (.inl rfl)
    rintro call ⟨⟩
    cases stage <;> exact id
  | gaveUp here | failed here =>
    refine inv.within (inv.calls _ _ here).1 (fun _ => Iff.rfl) rfl rfl rfl get_goto ?_ (.inl rfl)
    nofun
  | @read t _ row active =>
    have run := active_of_get active
    refine inv.within (inv.running t run).2.1 (fun _ => Iff.rfl) rfl rfl rfl get_goto ?_ (.inr ⟨_, rfl, run, ?_, ?_⟩)
    · nofun
    · nofun
    · rintro u row m ⟨⟩
      rfl
  | @wrote t txn row _ _ m active _ written =>
    obtain rfl := ids t txn active
    have run := active_of_get active
    obtain ⟨last, before, txns⟩ := written.txns
    have active' (u : Nat) : m.Active u ↔ s.mgr.Active u := by
      unfold Manager.Active
      rw [txns]
      exact active_set run _ u
    refine inv.within (inv.running _ run).2.1 active' written.committed written.aborted written.nextID
      get_goto ?_ (.inr ⟨_, rfl, run, ?_, ?_⟩)
    · nofun
    · nofun
    · rintro u row m ⟨⟩
      rfl
  | @savepoint t txn name active idle =>
    obtain rfl := ids t txn active
    have run := active_of_get active
    refine inv.within (y := none) (inv.running _ run).2.1 (active_set run _) rfl rfl rfl (get_of_eq idle) ?_ (.inl rfl)
    nofun
  | @undid t e more lastCLR _ here =>
    have same := (s.mgr.undoEntry_spec t e more lastCLR).1
    have run : s.mgr.Active t := by
      by_contra done
      exact (inv.calls t _ here).2.2 done
    refine inv.within (inv.calls t _ here).1 same.active same.committed same.aborted same.nextID
      get_goto (going run ?_) (.inr ⟨_, rfl, run, ?_, ?_⟩)
    · rintro call ⟨⟩
      exact id
    · nofun
    · rintro u row m ⟨⟩
      rfl
  | @rolledBack t txn _ _ active =>
    obtain rfl := ids t txn active
    have run := active_of_get active
    refine inv.within (inv.running _ run).2.1 (active_set run _) rfl rfl rfl get_goto ?_ (.inr ⟨_, rfl, run, ?_, ?_⟩)
    · nofun
    · nofun
    · nofun
  | @undidAborted t txn e more lastCLR here =>
    have same := (s.mgr.undoEntry_spec t e more lastCLR).1
    obtain ⟨le, done⟩ := inv.calls t _ here
    refine inv.within le same.active same.committed same.aborted same.nextID get_goto ?_ (.inl rfl)
    rintro call ⟨⟩
    exact done
  | @undone t _ _ _ here =>
    obtain ⟨le, done⟩ := inv.calls t _ here
    refine inv.within le (fun _ => Iff.rfl) rfl rfl rfl get_goto ?_ (.inl rfl)
    rintro call ⟨⟩
    exact done
  | @commit t txn active idle =>
    have same := s.mgr.sameBooks_logAppend (Wal.commitRecord t txn.lastWALLSN)
    refine inv.finish (active_of_get active) (.release txn _ _) trivial (fun u => ?_) same.nextID
      get_goto rfl (.inl ⟨rfl, congrArg _ same.committed, same.aborted⟩)
    rw [← same.active u]
    exact active_delete _ t u
  | @abort t txn active idle =>
    refine inv.finish (active_of_get active) (.undo txn _ _) trivial (fun u => ?_) rfl
      get_goto rfl (.inr ⟨rfl, rfl, rfl⟩)
    exact active_delete _ t u
  | @release t _ _ _ _ _ _ _ here released =>
    obtain ⟨le, done⟩ := inv.calls t _ here
    have same := SameLists.of_released released
    refine inv.within le same.active same.committed same.aborted same.nextID get_goto ?_ (.inl rfl)
    rintro call ⟨⟩
    exact done
  | @finish t _ _ _ here logged =>
    obtain ⟨le, done⟩ := inv.calls t _ here
    have same := SameLists.of_logged logged
    refine inv.within le same.active same.committed same.aborted same.nextID get_goto ?_ (.inl rfl)
    nofun

end

end TransactionManager.Txn
