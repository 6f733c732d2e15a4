import TransactionManager.Txn.TwoPLHistory
import TransactionManager.Wal.Recovery

/-!
# The manager's log

What an appended record does to the log of a manager, and what stays true of such a log: the
LSNs grow, there are no checkpoints, and no transaction ends before it begins.
-/

namespace TransactionManager.Txn
open Lib TransactionManager.Types List Option Wal TwoPLRun TwoPLEvent

/-- The log of `m'` is that of `m` with the record, if there is one. -/
def Appends (m m' : Manager) (rec : Option LogRecord) : Prop :=
  m'.wal = m.wal.map fun log => rec.elim log fun rec => (log.append rec).2

/-- The record with the LSN it gets. -/
def Manager.stamped (m : Manager) (rec : LogRecord) : LogRecord := { rec with lsn := m.nextLSN }

@[simp] theorem Manager.type_stamped (m : Manager) (rec : LogRecord) : (m.stamped rec).type = rec.type := rfl

@[simp] theorem Manager.txnID_stamped (m : Manager) (rec : LogRecord) : (m.stamped rec).txnID = rec.txnID := rfl

/-- The log is on and recovery can read it. -/
structure SoundLog (m : Manager) : Prop where
  on : m.wal.isSome
  plain : Plain m.records
  next : 1 ≤ m.nextLSN ∧ ∀ r ∈ m.records, r.lsn < m.nextLSN
  opened : Opened m.records

section
variable {m m' : Manager} {rec : Option LogRecord}

theorem Appends.none (same : m'.wal = m.wal) : Appends m m' none := by
  unfold Appends
  rw [same]
  exact map_id'.symm ▸ rfl

theorem Appends.logAppend (m : Manager) (rec : LogRecord) :
    Appends m (m.logAppend rec).2 (some rec) := m.wal_logAppend rec

theorem Appends.records (step : Appends m m' rec) (on : m.wal.isSome) :
    m'.records = m.records ++ (rec.map m.stamped).toList := by
  obtain ⟨log, on⟩ := isSome_iff_exists.1 on
  unfold Manager.records Manager.stamped Manager.nextLSN
  rw [step, on]
  cases rec with
  | none => exact (append_nil _).symm
  | some r => rfl

theorem Appends.nextLSN (step : Appends m m' rec) (on : m.wal.isSome) : m'.nextLSN = m.nextLSN + rec.toList.length := by
  obtain ⟨log, on⟩ := isSome_iff_exists.1 on
  unfold Manager.nextLSN
  rw [step, on]
  cases rec <;> rfl

theorem SoundLog.append (sound : SoundLog m) (step : Appends m m' rec)
    (ordinary : ∀ r ∈ rec, r.type ≠ .checkpointBegin ∧ r.type ≠ .checkpointEnd)
    (ends : ∀ r ∈ rec, r.type = .commit ∨ r.type = .abort →
      ∃ first ∈ m.records, first.type = .begin ∧ first.txnID = r.txnID) : SoundLog m' := by
  have records := step.records sound.on
  have nextLSN := step.nextLSN sound.on
  have on : m'.wal.isSome := by
    rw [step, isSome_map]
    exact sound.on
  cases rec with
  | none =>
    have records : m'.records = m.records := by simpa using records
    exact ⟨on, records ▸ sound.plain, records ▸ nextLSN ▸ sound.next, records ▸ sound.opened⟩
  | some rec =>
    have records : m'.records = m.records ++ [m.stamped rec] := records
    have nextLSN : m'.nextLSN = m.nextLSN + 1 := nextLSN
    refine ⟨on, ?_, ⟨by omega, ?_⟩, ?_⟩
    · rw [records]
      exact sound.plain.snoc (ordinary rec rfl) sound.next.1 sound.next.2
    · intro r mem
      rw [records, mem_append, mem_singleton] at mem
      rw [nextLSN]
      rcases mem with old | rfl
      · have := sound.next.2 r old
        omega
      · exact Nat.lt_succ_self _
    · rw [records]
      exact sound.opened.snoc (ends rec rfl)

end

/-!
## The log of a 2PL run

What each step adds to the log and to the history. Writes and commits are recorded in both,
in the same order; `BEGIN`, `CLR` and `ABORT` records are in the log only, reads, undone
entries, rollbacks and aborts in the history only.
-/

/-- What the log and the history both record. -/
inductive Logged where
  | write (t : Nat) (row : RowRef) (op : Nat) (after : List UInt8)
  | commit (t : Nat)
  deriving DecidableEq

/-- The after-image bytes of a `WRITE` record. -/
def afterBytes (values : RowData) : List UInt8 := (values.bind encodeValues).getD []

/-- The shared part of a log record. -/
def loggedRecord (rec : LogRecord) : Option Logged :=
  match rec.type with
  | .write => some (.write rec.txnID (rec.table, rec.key) rec.op rec.after)
  | .commit => some (.commit rec.txnID)
  | _ => none

/-- The shared part of an event. -/
def TwoPLEvent.logged : TwoPLEvent → Option Logged
  | .write t row op values => some (.write t row op.code (afterBytes values))
  | .commit t => some (.commit t)
  | _ => none

def TwoPLEvent.txn : TwoPLEvent → Nat
  | .read t _ | .write t .. | .undo t _ | .rollback t _ | .commit t | .abort t => t

def TwoPLRun.Known (s : TwoPLRun) (t : Nat) : Prop := s.mgr.Active t ∨ t ∈ s.mgr.committed ∨ t ∈ s.mgr.aborted

def TwoPLCall.Aborting : TwoPLCall → Prop
  | .undo .. | .release _ _ (some _) => True
  | _ => False

def TwoPLCall.rowOp : TwoPLCall → Option RowOp
  | .acquire o _ | .waiting o _ _ | .body o => some o
  | _ => none

/-- Only an aborted transaction is on its way to an `ABORT` record, and every row operation
was called with `ok`. -/
def CallsInv (ok : RowOp → Prop) (s : TwoPLRun) : Prop := ∀ t call, s.calls.get t = some call →
    (call.Aborting → t ∈ s.mgr.aborted) ∧ ∀ o ∈ call.rowOp, ok o

section
variable {s s' : TwoPLRun} {t : Nat} {a : TwoPLAction} {ok : RowOp → Prop} {e : Option TwoPLEvent}

theorem CallsInv.moved (inv : CallsInv ok s) {y : Option TwoPLCall} (kept : ∀ u ∈ s.mgr.aborted, u ∈ s'.mgr.aborted)
    (calls : ∀ u, s'.calls.get u = if u = t then y else s.calls.get u)
    (new : ∀ call ∈ y, (call.Aborting → t ∈ s'.mgr.aborted) ∧ ∀ o ∈ call.rowOp, ok o) :
    CallsInv ok s' := by
  intro u call found
  rw [calls] at found
  split at found
  · rename_i same
    rw [same]
    exact new call found
  · obtain ⟨aborting, op⟩ := inv u call found
    exact ⟨fun ends => kept u (aborting ends), op⟩

theorem CallsInv.step (inv : CallsInv ok s) (step : TwoPLStep s a s')
    (start : ∀ t o, a = .start t o → ok o) : CallsInv ok s' := by
  have kept := step.aborted_sub
  have operation {call : TwoPLCall} {o : RowOp} (eq : call.rowOp = some o) (good : ok o)
      {t : Nat} {aborted : List Nat} : ∀ call' ∈ some call,
        (call'.Aborting → t ∈ aborted) ∧ ∀ o ∈ call'.rowOp, ok o := by
    rintro call' ⟨⟩
    refine ⟨fun ends => ?_, fun o' mem => ?_⟩
    · cases call <;> first | exact ends.elim | cases eq
    · rw [eq] at mem
      cases mem
      exact good
  have ending {call : TwoPLCall} (none : call.rowOp = none) {t : Nat} {aborted : List Nat}
      (ends : call.Aborting → t ∈ aborted) : ∀ call' ∈ some call,
        (call'.Aborting → t ∈ aborted) ∧ ∀ o ∈ call'.rowOp, ok o := by
    rintro call' ⟨⟩
    refine ⟨ends, fun o mem => ?_⟩
    rw [none] at mem
    cases mem
  have returned {t : Nat} {aborted : List Nat} : ∀ call ∈ (none : Option TwoPLCall),
      (call.Aborting → t ∈ aborted) ∧ ∀ o ∈ call.rowOp, ok o := by
    nofun
  cases step with
  | refused | savepoint => exact inv
  | begun => exact fun t call found => (inv t call found).imp_left fun aborts ends => kept t (aborts ends)
  | startUnlocked | start => exact inv.moved kept get_goto (operation rfl (start _ _ rfl))
  | @acquire t txn o stage _ here =>
    obtain ⟨call, place, eq⟩ := @TwoPLRun.acquire_eq s txn o stage
    rw [eq] at kept ⊢
    refine inv.moved kept get_goto (operation ?_ ((inv t _ here).2 o rfl))
    rcases place with rfl | rfl | rfl <;> rfl
  | @granted t _ o stage _ _ here =>
    refine inv.moved kept get_goto (operation ?_ ((inv t _ here).2 o rfl))
    cases stage <;> rfl
  | rollback | undid | commit => exact inv.moved kept get_goto (ending rfl fun ends => ends.elim)
  | undidAborted here | undone here =>
    exact inv.moved kept get_goto (ending rfl fun _ => kept _ ((inv _ _ here).1 trivial))
  | abort => exact inv.moved kept get_goto (ending rfl fun _ => mem_cons_self)
  | @release t txn rest prev m r txn' rest' here released =>
    refine inv.moved kept get_goto (ending rfl fun ends => kept t ?_)
    cases prev with
    | none => cases ends
    | some prev => exact (inv t _ here).1 trivial
  | _ =>
    exact inv.moved kept get_goto returned

/-- Which call an event comes from. -/
def Called (s : TwoPLRun) (a : TwoPLAction) : TwoPLEvent → Prop
  | .write t row op values => s.calls.get t = some (.body (.write row values op))
  | .commit t => a = .commit t
  | _ => True

structure LogStep (s : TwoPLRun) (a : TwoPLAction) (s' : TwoPLRun) (rec : Option LogRecord)
    (e : Option TwoPLEvent) : Prop where
  wal : Appends s.mgr s'.mgr rec
  hist : s'.hist = s.hist ++ e.toList
  same : rec.bind loggedRecord = e.bind logged
  ordinary : ∀ r ∈ rec, r.type ≠ .checkpointBegin ∧ r.type ≠ .checkpointEnd
  ends : ∀ r ∈ rec, r.type = .commit ∨ r.type = .abort → s.Known r.txnID
  aborts : ∀ r ∈ rec, r.type = .abort → r.txnID ∈ s.mgr.aborted
  running : ∀ e' ∈ e, s.mgr.Active e'.txn
  called : ∀ e' ∈ e, Called s a e'
  known : ∀ t, s'.Known t → s.Known t ∨ ∃ r ∈ rec, r.type = .begin ∧ r.txnID = t

theorem called_of_unlogged (same : e.bind logged = none) : ∀ e' ∈ e, Called s a e' := by
  rintro e' ⟨⟩
  cases e' <;> first | exact trivial | cases same

theorem LogStep.unlogged (wal : s'.mgr.wal = s.mgr.wal)
    (hist : s'.hist = s.hist ++ e.toList) (same : e.bind logged = none)
    (running : ∀ e' ∈ e, s.mgr.Active e'.txn) (known : ∀ t, s'.Known t → s.Known t) : LogStep s a s' none e where
  wal := .none wal
  hist := hist
  same := same.symm
  ordinary := by rintro r ⟨⟩
  ends := by rintro r ⟨⟩
  aborts := by rintro r ⟨⟩
  running := running
  called := called_of_unlogged same
  known t now := .inl (known t now)

theorem LogStep.aside {rec : LogRecord} (wal : s'.mgr.wal = s.mgr.wal.map fun log => (log.append rec).2)
    (hist : s'.hist = s.hist ++ e.toList) (same : e.bind logged = none)
    (type : rec.type = .clr ∨ rec.type = .abort ∧ rec.txnID ∈ s.mgr.aborted)
    (running : ∀ e' ∈ e, s.mgr.Active e'.txn) (known : ∀ t, s'.Known t → s.Known t) :
    LogStep s a s' (some rec) e where
  wal := wal
  hist := hist
  same := by
    rw [same]
    show loggedRecord rec = none
    unfold loggedRecord
    rcases type with type | ⟨type, -⟩ <;> rw [type]
  ordinary := by
    rcases type with type | ⟨type, -⟩ <;> simp [type]
  ends := by
    rintro r ⟨⟩ ends
    rcases type with type | ⟨-, aborted⟩
    · simp [type] at ends
    · exact .inr (.inr aborted)
  aborts := by
    rintro r ⟨⟩ abort
    rcases type with type | ⟨-, aborted⟩
    · simp [type] at abort
    · exact aborted
  running := running
  called := called_of_unlogged same
  known t now := .inl (known t now)

theorem known_of_running (active : ∀ u, s'.mgr.Active u ↔ s.mgr.Active u)
    (committed : s'.mgr.committed = s.mgr.committed) (aborted : s'.mgr.aborted = s.mgr.aborted)
    (u : Nat) : s'.Known u → s.Known u := by
  unfold Known
  rw [active, committed, aborted]
  exact id

/-- With the log on, the bytes logged are those of the values. -/
theorem eq_afterBytes {m : Manager} {values : RowData} {after : List UInt8}
    (on : m.wal.isSome) (encoded : m.encodeAfter values = some after) :
    after = afterBytes values := by
  obtain ⟨log, on⟩ := isSome_iff_exists.1 on
  unfold Manager.encodeAfter at encoded
  rw [on] at encoded
  cases values with
  | none =>
    cases encoded
    rfl
  | some vs =>
    show after = (encodeValues vs).getD []
    rw [show encodeValues vs = some after from encoded]
    rfl

/-- One round of undo logs a CLR or nothing. -/
theorem logStep_undo {u : UndoEntry} {more : List UndoEntry} {lastCLR : Nat}
    (mgr : s'.mgr = (s.mgr.undoEntry t u more lastCLR).2) (hist : s'.hist = s.hist ++ e.toList)
    (same : e.bind logged = none) (running : ∀ e' ∈ e, s.mgr.Active e'.txn) :
    ∃ rec e, LogStep s a s' rec e := by
  obtain ⟨books, wal⟩ := s.mgr.undoEntry_spec t u more lastCLR
  rw [← mgr] at books wal
  have known := known_of_running books.active books.committed books.aborted
  rcases wal with quiet | ⟨prev, undoNext, clr⟩
  · exact ⟨none, e, .unlogged quiet hist same running known⟩
  · exact ⟨some (clrRecord t prev undoNext), e, .aside clr hist same (.inl rfl) running known⟩

/-- What each step adds. -/
theorem TwoPLStep.logStep (step : TwoPLStep s a s') (on : s.mgr.wal.isSome) (books : Books s)
    (ids : ∀ t txn, s.mgr.txns.get t = some txn → txn.id = t) (calls : CallsInv ok s) :
    ∃ rec e, LogStep s a s' rec e := by
  have nothing (u : TwoPLRun) (mgr : SameLists s.mgr u.mgr) (wal : u.mgr.wal = s.mgr.wal)
      (hist : u.hist = s.hist) : LogStep s a u none none := by
    refine .unlogged wal ?_ rfl (nofun) (known_of_running mgr.active mgr.committed mgr.aborted)
    rw [hist]
    exact (append_nil _).symm
  have running {t : Nat} {call : TwoPLCall} (here : s.calls.get t = some call)
      (goes : ¬ call.Finished) : s.mgr.Active t := by
    by_contra ended
    exact goes ((books.calls t call here).2.2 ended)
  cases step with
  | @begun _ m begun =>
    refine ⟨some (beginRecord (s.mgr.nextID + 1)), none, begun.wal, (append_nil _).symm, rfl,
      ?_, ?_, ?_, nofun, nofun, ?_⟩
    · simp [beginRecord]
    · rintro r ⟨⟩ (type | type) <;> cases type
    · rintro r ⟨⟩ type
      cases type
    · intro t now
      obtain ⟨last, txns⟩ := begun.txns
      change (m.txns.get t).isSome = true ∨ t ∈ m.committed ∨ t ∈ m.aborted at now
      rw [begun.committed, begun.aborted, txns, GoMap.get_set] at now
      by_cases new : t = s.mgr.nextID + 1
      · exact .inr ⟨_, rfl, rfl, new.symm⟩
      · rw [if_neg new] at now
        exact .inl now
  | @acquire t txn o stage active =>
    obtain rfl := ids t txn active
    obtain ⟨call, -, eq⟩ := @TwoPLRun.acquire_eq s txn o stage
    rw [eq]
    exact ⟨none, none, .unlogged rfl (append_nil _).symm rfl (nofun)
      (known_of_running (active_set (active_of_get active) _) rfl rfl)⟩
  | granted active | savepoint active =>
    obtain rfl := ids _ _ active
    exact ⟨none, none, .unlogged rfl (append_nil _).symm rfl (nofun)
      (known_of_running (active_set (active_of_get active) _) rfl rfl)⟩
  | @read t _ row active =>
    refine ⟨none, some (.read t row), .unlogged rfl rfl rfl ?_ fun _ => id⟩
    rintro e ⟨⟩
    exact active_of_get active
  | @wrote t txn row values op m active here written =>
    obtain rfl := ids t txn active
    have run := active_of_get active
    obtain ⟨before, after, encoded, wal⟩ := written.wal
    obtain ⟨last, image, txns⟩ := written.txns
    refine ⟨some _, some (.write txn.id row op values), wal, rfl, ?_, ?_, ?_, ?_, ?_, ?_, ?_⟩
    · show some (Logged.write txn.id (row.1, row.2) op.code after) = some _
      rw [eq_afterBytes on encoded]
    · simp [writeRecord]
    · rintro r ⟨⟩ (type | type) <;> cases type
    · rintro r ⟨⟩ type
      cases type
    · rintro e ⟨⟩
      exact run
    · rintro e ⟨⟩
      exact here
    · intro u now
      refine .inl (known_of_running (fun u => ?_) written.committed written.aborted u now)
      show (m.txns.get u).isSome = true ↔ _
      rw [txns]
      exact active_set run _ u
  | @undid t e _ _ _ here =>
    refine logStep_undo (t := t) rfl (e := some _) rfl rfl ?_
    rintro _ ⟨⟩
    exact running here id
  | @rolledBack t txn _ position active =>
    obtain rfl := ids t txn active
    refine ⟨none, some (.rollback txn.id position), .unlogged rfl rfl rfl ?_
      (known_of_running (active_set (active_of_get active) _) rfl rfl)⟩
    rintro e ⟨⟩
    exact active_of_get active
  | @undidAborted t _ e =>
    exact logStep_undo (t := t) rfl (e := none) (append_nil _).symm rfl (nofun)
  | @commit t txn active =>
    have run := active_of_get active
    have same := (s.mgr.sameBooks_logAppend (commitRecord t txn.lastWALLSN)).toSameLists
    refine ⟨some (commitRecord t txn.lastWALLSN), some (.commit t), s.mgr.wal_logAppend _, rfl, rfl,
      ?_, ?_, ?_, ?_, ?_, ?_⟩
    · simp [commitRecord]
    · rintro r ⟨⟩ -
      exact .inl run
    · rintro r ⟨⟩ type
      cases type
    · rintro e ⟨⟩
      exact run
    · rintro e ⟨⟩
      rfl
    · rintro u (now | now | now)
      · exact .inl (.inl ((same.active u).1 ((active_delete _ t u).1 now).2))
      · rcases mem_cons.1 now with rfl | old
        · exact .inl (.inl run)
        · exact .inl (.inr (.inl (same.committed ▸ old)))
      · exact .inl (.inr (.inr (same.aborted ▸ now)))
  | @abort t _ active =>
    have run := active_of_get active
    refine ⟨none, some (.abort t), .unlogged rfl rfl rfl ?_ ?_⟩
    · rintro e ⟨⟩
      exact run
    rintro u (now | now | now)
    · exact .inl ((active_delete _ t u).1 now).2
    · exact .inr (.inl now)
    · rcases mem_cons.1 now with rfl | old
      · exact .inl run
      · exact .inr (.inr old)
  | @release _ _ _ _ _ _ _ _ _ released =>
    refine ⟨_, _, nothing _ (.of_released released) ?_ rfl⟩
    rcases released with rfl | rfl <;> rfl
  | @finish t txn prev m here logged =>
    rcases logged with rfl | ⟨last, rfl, rfl⟩
    · exact ⟨_, _, nothing _ ⟨rfl, rfl, rfl, rfl⟩ rfl rfl⟩
    · have same := (s.mgr.sameBooks_logAppend (abortRecord t last)).toSameLists
      exact ⟨some (abortRecord t last), none, .aside (s.mgr.wal_logAppend _)
        (append_nil _).symm rfl (.inr ⟨rfl, (calls t _ here).1 trivial⟩) (nofun)
        (known_of_running same.active same.committed same.aborted)⟩
  | _ =>
    exact ⟨_, _, nothing _ ⟨rfl, rfl, rfl, rfl⟩ rfl rfl⟩

structure LogInv (s : TwoPLRun) : Prop extends SoundLog s.mgr where
  begun : ∀ t, s.Known t → ∃ r ∈ s.mgr.records, r.type = .begin ∧ r.txnID = t
  aborts : ∀ r ∈ s.mgr.records, r.type = .abort → r.txnID ∈ s.mgr.aborted
  same : s.mgr.records.filterMap loggedRecord = s.hist.filterMap logged

theorem filterMap_toList {α β : Type} (o : Option α) (f : α → Option β) : o.toList.filterMap f = (o.bind f).toList := by
  cases o with
  | none => rfl
  | some a => cases eq : f a <;> simp [eq]

theorem LogInv.step {rec : Option LogRecord} (inv : LogInv s)
    (step : LogStep s a s' rec e) (kept : ∀ t ∈ s.mgr.aborted, t ∈ s'.mgr.aborted) : LogInv s' := by
  have records := step.wal.records inv.on
  have sound : SoundLog s'.mgr := inv.toSoundLog.append step.wal step.ordinary
    fun r mem ends => inv.begun _ (step.ends r mem ends)
  refine ⟨sound, ?_, ?_, ?_⟩
  · intro t now
    rw [records]
    rcases step.known t now with old | ⟨r, mem, first, id⟩
    · obtain ⟨r, mem, first⟩ := inv.begun t old
      exact ⟨r, mem_append_left _ mem, first⟩
    · cases mem
      exact ⟨s.mgr.stamped r, mem_append_right _ mem_cons_self, first, id⟩
  · intro r mem abort
    rw [records, mem_append, mem_toList, map_eq_some_iff] at mem
    rcases mem with old | ⟨r, new, rfl⟩
    · exact kept _ (inv.aborts r old abort)
    · exact kept _ (step.aborts r new abort)
  · rw [records, step.hist, filterMap_append, filterMap_append, inv.same]
    have bare : (rec.map s.mgr.stamped).bind loggedRecord = rec.bind loggedRecord := by
      cases rec <;> rfl
    rw [filterMap_toList, filterMap_toList, bare, step.same]

/-- A commit is in the log exactly when it is in the history. -/
theorem LogInv.commit_mem_iff (inv : LogInv s) (t : Nat) :
    (∃ r ∈ s.mgr.records, r.type = .commit ∧ r.txnID = t) ↔ .commit t ∈ s.hist := by
  have log : Logged.commit t ∈ s.mgr.records.filterMap loggedRecord ↔
      ∃ r ∈ s.mgr.records, r.type = .commit ∧ r.txnID = t := by
    rw [mem_filterMap]
    refine exists_congr fun r => and_congr_right fun _ => ?_
    unfold loggedRecord
    cases type : r.type <;> simp
  have hist : Logged.commit t ∈ s.hist.filterMap logged ↔ .commit t ∈ s.hist := by
    rw [mem_filterMap]
    constructor
    · rintro ⟨e, mem, eq⟩
      cases e <;> cases eq
      exact mem
    · exact fun mem => ⟨_, mem, rfl⟩
  rw [← log, inv.same, hist]

/-- The analysis pass takes exactly the committed transactions for committed. -/
theorem LogInv.status_eq_one_iff (inv : LogInv s) (books : Books s) (t : Nat) :
    Wal.statusOf (s.mgr.records.foldl Wal.analyze ∅) t = some 1 ↔ .commit t ∈ s.hist := by
  rw [Wal.status_eq_one_iff inv.opened, inv.commit_mem_iff]
  rintro commit r mem abort rfl
  exact books.disjoint _ ((books.commits _).1 ((inv.commit_mem_iff _).1 commit)) (inv.aborts r mem abort)

end

end TransactionManager.Txn
