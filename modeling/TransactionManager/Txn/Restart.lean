import TransactionManager.Txn.TwoPLLog
import TransactionManager.Txn.Ledger

/-!
# Restarts

The server over any number of epochs. A crash keeps a prefix of the log that has at least the
records the epoch started with; the restart (`cmd/server/main.go`) opens the log behind its
highest LSN, recovers from it and makes a new manager, which numbers its transactions from 1
again. Within an epoch the calls of both protocols are seen at the records they log, in any
interleaving: which rows and locks allow a call is left open. A failed commit of the SSI check
is an abort that never logs its record.
-/

namespace TransactionManager.Txn
open Lib TransactionManager.Types Wal List Storage Manager

/-- The server. `aborting` are the `Abort` calls that have not logged their record, `opened` is the length of the log
at the start of the epoch. `log` has each record with its epoch. -/
structure Server where
  mgr : Manager
  aborting : List Nat := []
  opened : Nat := 0
  epoch : Nat := 0
  log : List (Nat × LogRecord) := []

/-- One step of a call, or a crash that keeps the first records, with the restart. -/
inductive ServerAction where
  | begin (protocol : ConcurrencyProtocol) (isoLevel : IsolationLevel)
  | write (t : Nat) (op : UndoOpType) (row : RowRef) (image : RowData) (before after : List UInt8)
  | undo (t : Nat) (e : UndoEntry) (more : List UndoEntry) (lastCLR : Nat)
  | commit (t : Nat)
  | abort (t : Nat)
  | logAbort (t : Nat) (prevLSN : Nat)
  | crash (kept : Nat)

/-- The rows of all tables. -/
def catalogRows (c : Catalog) : List (RowRef × RowData) :=
  c.keys.flatMap fun name => ((c.lookup name).getD ∅).keys.filterMap fun key =>
    (c.row name key).map fun data => ((name, key), data)

/-- `main`: a new manager over the recovered catalog. -/
def restart (seed : Catalog) (maxActive : Nat) (kept : List LogRecord) : Manager :=
  let result := runRecovery kept
  let catalog := applyRedoOps result.redoOps seed
  { committed := 0 :: result.committed
    aborted := result.aborted
    maxActive
    catalog
    mvccStore := seedMVCCStore (catalogRows catalog)
    wal := some ⟨highestLSN kept + 1, kept⟩ }

namespace Server

/-- The manager changes; records it has added are this epoch's. -/
def setMgr (s : Server) (m : Manager) : Server :=
  { s with
    mgr := m
    log := s.log ++ (m.records.drop s.log.length).map fun rec => (s.epoch, rec) }

def Open (s : Server) (t : Nat) : Prop := s.mgr.Active t ∨ t ∈ s.aborting

instance (s : Server) (t : Nat) : Decidable (s.Open t) := inferInstanceAs (Decidable (_ ∨ _))

def next (seed : Catalog) (maxActive : Nat) (s : Server) : ServerAction → Option Server
  | .begin protocol isoLevel => some (s.setMgr (s.mgr.begin protocol isoLevel).2)
  | .write t op row image before after =>
    match s.mgr.txns.get t with
    | some txn => some (s.setMgr (s.mgr.logWrite txn op row image before after).2)
    | none => none
  | .undo t e more lastCLR =>
    if s.Open t then some (s.setMgr (s.mgr.logCLR t e more lastCLR).2) else none
  | .commit t =>
    match s.mgr.txns.get t with
    | some txn =>
      some (s.setMgr ((s.mgr.logAppend (commitRecord t txn.lastWALLSN)).2.markCommitted t))
    | none => none
  | .abort t =>
    match s.mgr.txns.get t with
    | some _ => some { s.setMgr (s.mgr.markAborted t) with aborting := t :: s.aborting }
    | none => none
  | .logAbort t prevLSN =>
    if t ∈ s.aborting then
      some { s.setMgr (s.mgr.logAppend (abortRecord t prevLSN)).2 with
        aborting := s.aborting.erase t }
    else none
  | .crash kept =>
    if s.opened ≤ kept ∧ kept ≤ s.log.length then
      some
        { mgr := restart seed maxActive (s.mgr.records.take kept)
          opened := kept
          epoch := s.epoch + 1
          log := s.log.take kept }
    else none

def start (seed : Catalog) (maxActive : Nat) : Server where
  mgr := restart seed maxActive []

end Server

/-- The transaction with this ID in this epoch logged a `COMMIT`. -/
def CommittedIn (log : List (Nat × LogRecord)) (epoch id : Nat) : Prop :=
  ∃ x ∈ log, x.1 = epoch ∧ x.2.txnID = id ∧ x.2.type = .commit

instance (log : List (Nat × LogRecord)) (epoch id : Nat) : Decidable (CommittedIn log epoch id) :=
  inferInstanceAs (Decidable (∃ x ∈ _, _))

/-- Recovery from the accumulated log redoes exactly the writes of the transactions that committed in their own epoch,
and reports none wrongly. -/
structure RestartExact (s : Server) : Prop where
  redone : ∀ x ∈ s.log, x.2.type = .write →
    (x.2.redoOp ∈ (runRecovery s.mgr.records).redoOps ↔ CommittedIn s.log x.1 x.2.txnID)
  committed : ∀ x ∈ s.log, x.2.txnID ∈ (runRecovery s.mgr.records).committed → CommittedIn s.log x.1 x.2.txnID
  aborted : ∀ x ∈ s.log, x.2.txnID ∈ (runRecovery s.mgr.records).aborted → ¬ CommittedIn s.log x.1 x.2.txnID

/-- The condition on the steps: a new transaction does not get the ID of a committed one, and one commits only if no
earlier epoch has used its ID. -/
def FreshID (s : Server) : ServerAction → Prop
  | .begin .. => ∀ x ∈ s.log, x.2.type = .commit → x.2.txnID ≠ s.mgr.nextID + 1
  | .commit t => ∀ x ∈ s.log, x.2.txnID = t → x.1 = s.epoch
  | _ => True

instance (s : Server) (a : ServerAction) : Decidable (FreshID s a) := by
  unfold FreshID
  split <;> infer_instance

/-! ## What a step does -/

inductive ServerStep (s : Server) : ServerAction → Server → Prop where
  | silent {a : ServerAction} : ServerStep s a (s.setMgr s.mgr)
  | begun {protocol : ConcurrencyProtocol} {isoLevel : IsolationLevel} {m : Manager} {txn : Transaction}
      (id : txn.id = s.mgr.nextID + 1) (txns : m.txns = s.mgr.txns.set txn.id txn)
      (nextID : m.nextID = s.mgr.nextID + 1) (wal : Appends s.mgr m (some (beginRecord txn.id))) :
      ServerStep s (.begin protocol isoLevel) (s.setMgr m)
  | logged {a : ServerAction} {m : Manager} {rec : LogRecord} (live : s.Open rec.txnID)
      (type : rec.type = .write ∨ rec.type = .clr)
      (txns : m.txns = s.mgr.txns ∨ ∃ txn, s.mgr.Active txn.id ∧ m.txns = s.mgr.txns.set txn.id txn)
      (nextID : m.nextID = s.mgr.nextID) (wal : Appends s.mgr m (some rec)) :
      ServerStep s a (s.setMgr m)
  | commit {t prev : Nat} {m : Manager} (active : s.mgr.Active t) (txns : m.txns = s.mgr.txns.delete t)
      (nextID : m.nextID = s.mgr.nextID) (wal : Appends s.mgr m (some (commitRecord t prev))) :
      ServerStep s (.commit t) (s.setMgr m)
  | abort {t : Nat} (active : s.mgr.Active t) :
      ServerStep s (.abort t) { s.setMgr (s.mgr.markAborted t) with aborting := t :: s.aborting }
  | logAbort {t prev : Nat} {m : Manager} (aborting : t ∈ s.aborting) (txns : m.txns = s.mgr.txns)
      (nextID : m.nextID = s.mgr.nextID) (wal : Appends s.mgr m (some (abortRecord t prev))) :
      ServerStep s (.logAbort t prev) { s.setMgr m with aborting := s.aborting.erase t }
  | crash {kept : Nat} {m : Manager} (txns : m.txns = ∅)
      (wal : m.wal = some ⟨highestLSN (s.mgr.records.take kept) + 1, s.mgr.records.take kept⟩) :
      ServerStep s (.crash kept) { mgr := m, opened := kept, epoch := s.epoch + 1, log := s.log.take kept }

theorem txns_putTxn {m m' : Manager} (same : m'.txns = m.txns) (txn : Transaction) :
    (m'.putTxn txn).txns = m.txns.set txn.id txn := by
  unfold putTxn
  rw [same]

theorem begin_spec (m : Manager) (protocol : ConcurrencyProtocol) (isoLevel : IsolationLevel) :
    (m.begin protocol isoLevel).2 = m ∨ ∃ txn : Transaction, txn.id = m.nextID + 1 ∧
      (m.begin protocol isoLevel).2.txns = m.txns.set txn.id txn ∧
      (m.begin protocol isoLevel).2.nextID = m.nextID + 1 ∧
      Appends m (m.begin protocol isoLevel).2 (some (beginRecord txn.id)) := by
  unfold begin
  split
  · exact .inl rfl
  · have books := sameBooks_logAppend { m with nextID := m.nextID + 1 } (beginRecord (m.nextID + 1))
    have wal := wal_logAppend { m with nextID := m.nextID + 1 } (beginRecord (m.nextID + 1))
    exact .inr ⟨_, rfl, txns_putTxn books.txns _, books.nextID, wal⟩

theorem Server.next_step {seed : Catalog} {maxActive : Nat} {s s' : Server} {a : ServerAction}
    (ids : ∀ t txn, s.mgr.txns.get t = some txn → txn.id = t)
    (taken : s.next seed maxActive a = some s') : ServerStep s a s' := by
  cases a with (simp only [next] at taken; (try split at taken) <;> try contradiction)
  | begin protocol isoLevel =>
    cases taken
    rcases begin_spec s.mgr protocol isoLevel with same | ⟨txn, id, txns, nextID, wal⟩
    · rw [same]
      exact .silent
    · exact .begun id txns nextID wal
  | write t op row image before after =>
    rename_i txn active
    cases taken
    have books := s.mgr.sameBooks_logAppend (writeRecord txn.id txn.lastWALLSN op.code row.1 row.2 before after)
    have run : s.mgr.Active txn.id := ids t txn active ▸ active_of_get active
    exact .logged (.inl run) (.inl rfl) (.inr ⟨_, by exact run, txns_putTxn books.txns _⟩) books.nextID (.logAppend _ _)
  | undo t e more lastCLR =>
    rename_i live
    cases taken
    unfold logCLR
    split
    · have books := s.mgr.sameBooks_logAppend (clrRecord t (if lastCLR = LSNInvalid then
        e.walWriteLSN else lastCLR) ((more.head?.map (·.walWriteLSN)).getD LSNInvalid))
      exact .logged live (.inr rfl) (.inl books.txns) books.nextID (.logAppend _ _)
    · exact .silent
  | commit t =>
    rename_i txn active
    cases taken
    have books := s.mgr.sameBooks_logAppend (commitRecord t txn.lastWALLSN)
    refine .commit (active_of_get active) ?_ books.nextID (.logAppend _ _)
    unfold markCommitted
    rw [books.txns]
  | abort t =>
    rename_i txn active
    cases taken
    exact .abort (active_of_get active)
  | logAbort t prevLSN =>
    rename_i aborting
    cases taken
    have books := s.mgr.sameBooks_logAppend (abortRecord t prevLSN)
    exact .logAbort aborting books.txns books.nextID (.logAppend _ _)
  | crash =>
    cases taken
    exact .crash rfl rfl

/-! ## The invariant -/

/-- What holds in every epoch when IDs are fresh. All records of a committed ID are those of
the transaction that committed. -/
structure RestartInv (s : Server) : Prop where
  sound : SoundLog s.mgr
  records : s.log.map Prod.snd = s.mgr.records
  ids : ∀ t txn, s.mgr.txns.get t = some txn → txn.id = t
  epochs : ∀ x ∈ s.log, x.1 ≤ s.epoch ∧ (x.1 = s.epoch → x.2.txnID ≤ s.mgr.nextID)
  live : ∀ t, s.Open t → t ≤ s.mgr.nextID ∧ (∃ x ∈ s.log, x.2.type = .begin ∧ x.2.txnID = t) ∧
    ∀ x ∈ s.log, x.2.type = .commit → x.2.txnID ≠ t
  active : ∀ t, s.mgr.Active t → t ∉ s.aborting ∧ ∀ x ∈ s.log, x.1 = s.epoch → x.2.type = .abort → x.2.txnID ≠ t
  single : ∀ x ∈ s.log, x.2.type = .commit → ∀ y ∈ s.log, y.2.txnID = x.2.txnID → y.1 = x.1 ∧ y.2.type ≠ .abort

section
variable {s s' : Server} {a : ServerAction} {m : Manager} {rec : Option LogRecord}

section
variable (inv : RestartInv s)
include inv

namespace RestartInv

section
variable (wal : Appends s.mgr m rec)
include wal

theorem log_setMgr : (s.setMgr m).log = s.log ++ (rec.map fun r => (s.epoch, s.mgr.stamped r)).toList := by
  have length : s.log.length = s.mgr.records.length := by
    rw [← inv.records, length_map]
  show s.log ++ _ = _
  rw [wal.records inv.sound.on, length, drop_left]
  cases rec <;> rfl

theorem mem_setMgr {x : Nat × LogRecord} :
    x ∈ (s.setMgr m).log ↔ x ∈ s.log ∨ ∃ r ∈ rec, x = (s.epoch, s.mgr.stamped r) := by
  rw [inv.log_setMgr wal, mem_append, Option.mem_toList, Option.map_eq_some_iff]
  simp [eq_comm]

theorem sound_setMgr (ordinary : ∀ r ∈ rec, r.type ≠ .checkpointBegin ∧ r.type ≠ .checkpointEnd)
    (ends : ∀ r ∈ rec, r.type = .commit ∨ r.type = .abort → s.Open r.txnID) : SoundLog m := by
  refine inv.sound.append wal ordinary fun r mem type => ?_
  obtain ⟨-, ⟨x, inside, first⟩, -⟩ := inv.live _ (ends r mem type)
  refine ⟨x.2, ?_, first⟩
  rw [← inv.records]
  exact mem_map_of_mem inside

theorem records_setMgr : (s.setMgr m).log.map Prod.snd = m.records := by
  rw [inv.log_setMgr wal, map_append, inv.records, wal.records inv.sound.on]
  cases rec <;> rfl

end

/-- A step of the epoch that commits nothing. Its record is about an ID without a `COMMIT`. -/
theorem extend (mgr : s'.mgr = m) (log : s'.log = (s.setMgr m).log)
    (epoch : s'.epoch = s.epoch) (wal : Appends s.mgr m rec)
    (ids : ∀ t txn, m.txns.get t = some txn → txn.id = t) (nextID : s.mgr.nextID ≤ m.nextID)
    (ordinary : ∀ r ∈ rec, r.type ≠ .checkpointBegin ∧ r.type ≠ .checkpointEnd ∧ r.type ≠ .commit)
    (ends : ∀ r ∈ rec, r.type = .abort → s.Open r.txnID)
    (free : ∀ r ∈ rec, r.txnID ≤ m.nextID ∧ ∀ x ∈ s.log, x.2.type = .commit → x.2.txnID ≠ r.txnID)
    (live : ∀ t, s'.Open t → s.Open t ∨ ∃ r ∈ rec, r.type = .begin ∧ r.txnID = t)
    (active : ∀ t, m.Active t → t ∉ s'.aborting ∧ (∀ r ∈ rec, r.type = .abort → r.txnID ≠ t) ∧
      (s.mgr.Active t ∨ s.mgr.nextID < t)) : RestartInv s' := by
  have mem {x : Nat × LogRecord} := inv.mem_setMgr wal (x := x)
  refine ⟨?_, ?_, ?_, ?_, ?_, ?_, ?_⟩
  · rw [mgr]
    refine inv.sound_setMgr wal (fun r new => ⟨(ordinary r new).1, (ordinary r new).2.1⟩) ?_
    rintro r new (commit | abort)
    · exact absurd commit (ordinary r new).2.2
    · exact ends r new abort
  · rw [log, mgr]
    exact inv.records_setMgr wal
  · rw [mgr]
    exact ids
  · intro x inside
    rw [epoch, mgr]
    rw [log, mem] at inside
    rcases inside with old | ⟨r, new, rfl⟩
    · obtain ⟨le, id⟩ := inv.epochs x old
      exact ⟨le, fun now => (id now).trans nextID⟩
    · exact ⟨le_rfl, fun _ => (free r new).1⟩
  · intro t opened
    rw [mgr, log]
    rcases live t opened with old | ⟨r, new, first, rfl⟩
    · obtain ⟨le, ⟨x, inside, first⟩, none⟩ := inv.live t old
      refine ⟨le.trans nextID, ⟨x, mem.2 (.inl inside), first⟩, fun x inside commit => ?_⟩
      rcases mem.1 inside with old | ⟨r, new, rfl⟩
      · exact none x old commit
      · exact absurd commit (ordinary r new).2.2
    · refine ⟨(free r new).1, ⟨_, mem.2 (.inr ⟨r, new, rfl⟩), first, rfl⟩, fun x inside commit => ?_⟩
      rcases mem.1 inside with old | ⟨r', new', rfl⟩
      · exact (free r new).2 x old commit
      · exact absurd commit (ordinary r' new').2.2
  · intro t run
    rw [mgr] at run
    obtain ⟨apart, noAbort, before⟩ := active t run
    refine ⟨apart, fun x inside now abort => ?_⟩
    rw [log, mem] at inside
    rw [epoch] at now
    rcases inside with old | ⟨r, new, rfl⟩
    · rcases before with run | fresh
      · exact (inv.active t run).2 x old now abort
      · have := (inv.epochs x old).2 now
        omega
    · exact noAbort r new abort
  · intro x inX commit y inY same
    rw [log, mem] at inX inY
    rcases inX with oldX | ⟨r, new, rfl⟩
    · rcases inY with oldY | ⟨r, new, rfl⟩
      · exact inv.single x oldX commit y oldY same
      · exact absurd same.symm ((free r new).2 x oldX commit)
    · exact absurd commit (ordinary r new).2.2

theorem begun {txn : Transaction} (fresh : ∀ x ∈ s.log, x.2.type = .commit → x.2.txnID ≠ s.mgr.nextID + 1)
    (id : txn.id = s.mgr.nextID + 1) (txns : m.txns = s.mgr.txns.set txn.id txn)
    (nextID : m.nextID = s.mgr.nextID + 1) (wal : Appends s.mgr m (some (beginRecord txn.id))) :
    RestartInv (s.setMgr m) := by
  have active (t : Nat) : m.Active t ↔ t = txn.id ∨ s.mgr.Active t := by
    unfold Active
    rw [txns, GoMap.get_set]
    split
    · exact ⟨fun _ => .inl ‹_›, fun _ => rfl⟩
    · exact ⟨.inr, fun now => now.resolve_left ‹_›⟩
  have bound (t : Nat) (opened : s.Open t) : t ≠ txn.id := by
    have := (inv.live t opened).1
    omega
  refine inv.extend (m := m) rfl rfl rfl wal (keyed_set inv.ids rfl txns) (by omega) ?_ ?_ ?_ ?_ ?_
  · simp [beginRecord]
  · rintro r ⟨⟩ type
    cases type
  · rintro r ⟨⟩
    refine ⟨by rw [nextID]; exact id.le, fun x inside commit => ?_⟩
    exact fun same => fresh x inside commit (same.trans id)
  · rintro t (run | aborting)
    · rcases (active t).1 run with rfl | run
      · exact .inr ⟨_, rfl, rfl, rfl⟩
      · exact .inl (.inl run)
    · exact .inl (.inr aborting)
  · intro t run
    rcases (active t).1 run with rfl | run
    · refine ⟨fun aborting => bound _ (.inr aborting) rfl, ?_, .inr (by omega)⟩
      rintro r ⟨⟩ type
      cases type
    · refine ⟨(inv.active t run).1, ?_, .inl run⟩
      rintro r ⟨⟩ type
      cases type

theorem logged (mgr : s'.mgr = m) (log : s'.log = (s.setMgr m).log) (epoch : s'.epoch = s.epoch)
    (aborting : ∀ t ∈ s'.aborting, t ∈ s.aborting) (ids : ∀ t txn, m.txns.get t = some txn → txn.id = t)
    (active : ∀ t, m.Active t ↔ s.mgr.Active t) (nextID : m.nextID = s.mgr.nextID) (wal : Appends s.mgr m rec)
    (type : ∀ r ∈ rec, s.Open r.txnID ∧ (r.type = .write ∨ r.type = .clr ∨ r.type = .abort ∧ r.txnID ∈ s.aborting)) :
    RestartInv s' := by
  refine inv.extend mgr log epoch wal ids nextID.ge ?_ ?_ ?_ ?_ ?_
  · intro r new
    rcases (type r new).2 with eq | eq | ⟨eq, -⟩ <;> simp [eq]
  · exact fun r new _ => (type r new).1
  · intro r new
    obtain ⟨le, -, free⟩ := inv.live _ (type r new).1
    exact ⟨nextID ▸ le, free⟩
  · rintro t (run | mem)
    · exact .inl (.inl ((active t).1 (mgr ▸ run)))
    · exact .inl (.inr (aborting t mem))
  · intro t run
    have run := (active t).1 run
    have apart := (inv.active t run).1
    refine ⟨fun mem => apart (aborting t mem), fun r new abort same => ?_, .inl run⟩
    rcases (type r new).2 with eq | eq | ⟨-, mem⟩
    · simp [eq] at abort
    · simp [eq] at abort
    · exact apart (same ▸ mem)

theorem aborts {t : Nat} (run : s.mgr.Active t) :
    RestartInv { s.setMgr (s.mgr.markAborted t) with aborting := t :: s.aborting } := by
  have active (u : Nat) : (s.mgr.markAborted t).Active u ↔ u ≠ t ∧ s.mgr.Active u := active_delete s.mgr t u
  refine inv.extend (m := s.mgr.markAborted t) rfl rfl rfl (.none rfl) (keyed_delete inv.ids rfl) le_rfl ?_ ?_ ?_ ?_ ?_
  · nofun
  · nofun
  · nofun
  · rintro u (now | mem)
    · exact .inl (.inl ((active u).1 now).2)
    · rcases mem_cons.1 mem with rfl | old
      · exact .inl (.inl run)
      · exact .inl (.inr old)
  · intro u now
    obtain ⟨other, run⟩ := (active u).1 now
    refine ⟨fun mem => ?_, nofun, .inl run⟩
    rcases mem_cons.1 mem with same | old
    · exact other same
    · exact (inv.active u run).1 old

theorem commits {t prev : Nat} (run : s.mgr.Active t)
    (fresh : ∀ x ∈ s.log, x.2.txnID = t → x.1 = s.epoch) (txns : m.txns = s.mgr.txns.delete t)
    (nextID : m.nextID = s.mgr.nextID) (wal : Appends s.mgr m (some (commitRecord t prev))) :
    RestartInv (s.setMgr m) := by
  have mem {x : Nat × LogRecord} : x ∈ (s.setMgr m).log ↔
      x ∈ s.log ∨ x = (s.epoch, s.mgr.stamped (commitRecord t prev)) := by
    simpa using inv.mem_setMgr wal (x := x)
  have active (u : Nat) : m.Active u ↔ u ≠ t ∧ s.mgr.Active u := by
    unfold Active
    rw [txns]
    exact active_delete s.mgr t u
  have apart (u : Nat) (opened : (s.setMgr m).Open u) : u ≠ t ∧ s.Open u := by
    rcases opened with now | aborting
    · exact ⟨((active u).1 now).1, .inl ((active u).1 now).2⟩
    · refine ⟨?_, .inr aborting⟩
      rintro rfl
      exact (inv.active u run).1 aborting
  obtain ⟨le, -, noCommit⟩ := inv.live t (.inl run)
  refine ⟨inv.sound_setMgr wal ?_ ?_, inv.records_setMgr wal, keyed_delete inv.ids txns, ?_, ?_, ?_, ?_⟩
  · simp [commitRecord]
  · rintro r ⟨⟩ -
    exact .inl run
  · intro x inside
    show x.1 ≤ s.epoch ∧ (x.1 = s.epoch → x.2.txnID ≤ m.nextID)
    rw [nextID]
    rcases mem.1 inside with old | rfl
    · exact inv.epochs x old
    · exact ⟨le_rfl, fun _ => le⟩
  · intro u opened
    obtain ⟨other, opened⟩ := apart u opened
    obtain ⟨bound, ⟨x, inside, first⟩, none⟩ := inv.live u opened
    refine ⟨nextID ▸ bound, ⟨x, mem.2 (.inl inside), first⟩, fun x inside commit => ?_⟩
    rcases mem.1 inside with old | rfl
    · exact none x old commit
    · exact other.symm
  · intro u now
    obtain ⟨other, run⟩ := (active u).1 now
    refine ⟨(inv.active u run).1, fun x inside here abort => ?_⟩
    rcases mem.1 inside with old | rfl
    · exact (inv.active u run).2 x old here abort
    · cases abort
  · intro x inX commit y inY same
    rcases mem.1 inX with oldX | rfl
    · rcases mem.1 inY with oldY | rfl
      · exact inv.single x oldX commit y oldY same
      · exact absurd same.symm (noCommit x oldX commit)
    · rcases mem.1 inY with oldY | rfl
      · have here := fresh y oldY same
        exact ⟨here, fun abort => (inv.active t run).2 y oldY here abort same⟩
      · exact ⟨rfl, fun abort => by cases abort⟩

theorem crash {kept : Nat} (txns : m.txns = ∅)
    (wal : m.wal = some ⟨highestLSN (s.mgr.records.take kept) + 1, s.mgr.records.take kept⟩) :
    RestartInv { mgr := m, opened := kept, epoch := s.epoch + 1, log := s.log.take kept } := by
  have records : m.records = s.mgr.records.take kept := by
    unfold Manager.records
    rw [wal]
    rfl
  have nextLSN : m.nextLSN = highestLSN (s.mgr.records.take kept) + 1 := by
    unfold nextLSN
    rw [wal]
    rfl
  have part : m.records <+: s.mgr.records := records ▸ List.take_prefix _ _
  have idle (t : Nat) : ¬ m.Active t := by
    unfold Active
    rw [txns]
    exact Bool.false_ne_true
  have old {x : Nat × LogRecord} (mem : x ∈ s.log.take kept) : x ∈ s.log := mem_of_mem_take mem
  have sound : SoundLog m := by
    refine ⟨wal ▸ rfl, inv.sound.plain.of_prefix part, ⟨by omega, fun r mem => ?_⟩, inv.sound.opened.of_prefix part⟩
    have := lsn_le_highestLSN (records ▸ mem)
    omega
  refine ⟨sound, ?_, ?_, ?_, ?_, ?_, ?_⟩
  · rw [records, ← inv.records, map_take]
  · intro t txn found
    rw [txns] at found
    cases found
  · intro x mem
    have := (inv.epochs x (old mem)).1
    exact ⟨Nat.le_succ_of_le this, fun now => by simp only at now; omega⟩
  · rintro t (run | mem)
    · exact absurd run (idle t)
    · cases mem
  · intro t run
    exact absurd run (idle t)
  · intro x inX commit y inY
    exact inv.single x (old inX) commit y (old inY)

theorem step (fresh : FreshID s a) (step : ServerStep s a s') : RestartInv s' := by
  cases step with
  | silent =>
    refine inv.logged (m := s.mgr) rfl rfl rfl (fun _ => id) inv.ids (fun _ => Iff.rfl) rfl (.none rfl) ?_
    nofun
  | begun id txns nextID wal => exact inv.begun fresh id txns nextID wal
  | @logged _ m rec live type txns nextID wal =>
    have ids : ∀ t txn, m.txns.get t = some txn → txn.id = t := by
      rcases txns with same | ⟨txn, -, set⟩
      · exact same ▸ inv.ids
      · exact keyed_set inv.ids rfl set
    have active (t : Nat) : m.Active t ↔ s.mgr.Active t := by
      unfold Active
      rcases txns with same | ⟨txn, run, set⟩
      · rw [same]
      · rw [set]
        exact active_set run txn t
    refine inv.logged (m := m) rfl rfl rfl (fun _ => id) ids active nextID wal ?_
    rintro r ⟨⟩
    exact ⟨live, type.imp_right .inl⟩
  | commit run txns nextID wal => exact inv.commits run fresh txns nextID wal
  | abort run => exact inv.aborts run
  | @logAbort t prev m aborting txns nextID wal =>
    have active (t : Nat) : m.Active t ↔ s.mgr.Active t := by
      unfold Active
      rw [txns]
    refine inv.logged (m := m) rfl rfl rfl (fun u => mem_of_mem_erase) (txns ▸ inv.ids) active nextID wal ?_
    rintro r ⟨⟩
    exact ⟨.inr aborting, .inr (.inr ⟨rfl, aborting⟩)⟩
  | crash txns wal => exact inv.crash txns wal

/-- Then recovery is exact: a committed ID stands for one transaction. -/
theorem exact : RestartExact s := by
  have inLog {r : LogRecord} (mem : r ∈ s.mgr.records) : ∃ x ∈ s.log, x.2 = r := by
    rw [← inv.records] at mem
    exact mem_map.1 mem
  have inRecords {x : Nat × LogRecord} (mem : x ∈ s.log) : x.2 ∈ s.mgr.records := by
    rw [← inv.records]
    exact mem_map_of_mem mem
  have noAbort {x y : Nat × LogRecord} (inX : x ∈ s.log) (commit : x.2.type = .commit)
      (inY : y ∈ s.log) (abort : y.2.type = .abort) : y.2.txnID ≠ x.2.txnID :=
    fun same => (inv.single x inX commit y inY same).2 abort
  have status (x : Nat × LogRecord) (inside : x ∈ s.log) : statusOf (s.mgr.records.foldl analyze ∅) x.2.txnID = some 1 ↔
        CommittedIn s.log x.1 x.2.txnID := by
    rw [status_eq_one_iff inv.sound.opened]
    · constructor
      · rintro ⟨r, mem, commit, same⟩
        obtain ⟨y, inY, rfl⟩ := inLog mem
        exact ⟨y, inY, (inv.single y inY commit x inside same.symm).1.symm, same, commit⟩
      · rintro ⟨y, inY, -, same, commit⟩
        exact ⟨y.2, inRecords inY, commit, same⟩
    · rintro ⟨r, mem, commit, same⟩ r' mem' abort
      obtain ⟨y, inY, rfl⟩ := inLog mem
      obtain ⟨z, inZ, rfl⟩ := inLog mem'
      rw [← same]
      exact noAbort inY commit inZ abort
  refine ⟨fun x inside write => ?_, fun x inside reported => ?_, fun x inside reported => ?_⟩
  · rw [mem_redoOps_iff inv.sound.plain (inRecords inside) write, status x inside]
  · exact (status x inside).1 (status_of_mem_committed inv.sound.plain reported)
  · rintro ⟨y, inY, -, same, commit⟩
    obtain ⟨r, mem, abort, same'⟩ := abort_of_status_eq_two (status_of_mem_aborted inv.sound.plain reported)
    obtain ⟨z, inZ, rfl⟩ := inLog mem
    exact noAbort inY commit inZ abort (same'.trans same.symm)

end RestartInv

end

theorem RestartInv.start (seed : Catalog) (maxActive : Nat) : RestartInv (.start seed maxActive) where
  sound := ⟨rfl, ⟨nofun, nofun, .nil⟩, ⟨le_rfl, nofun⟩,
    fun front rec part => by cases front <;> cases prefix_nil.1 part⟩
  records := rfl
  ids := by rintro t txn ⟨⟩
  epochs := by rintro x ⟨⟩
  live := by rintro t (opened | opened) <;> cases opened
  active := by rintro t ⟨⟩
  single := by rintro x ⟨⟩

end

end TransactionManager.Txn
