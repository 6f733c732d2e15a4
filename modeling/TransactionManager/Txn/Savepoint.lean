import TransactionManager.Txn.Undo

/-!
# Savepoints of a 2PL transaction

A savepoint is a position in the undo log. `RollbackToSavepoint` undoes the entries from there
on and cuts the log, but leaves the savepoints that lie beyond: such a savepoint then stands
for entries that are gone, and later for entries that were not there when it was created.
-/

namespace TransactionManager.Txn
open Lib TransactionManager.Types List Storage Manager

/-- The savepoint that a name stands for: the last one created. -/
def Transaction.savepoint? (txn : Transaction) (name : GoString) : Option Savepoint :=
  txn.savepoints.reverse.find? fun sp => sp.name = name

/-- Remove the last member that passes the test. -/
def eraseLast {α : Type} (test : α → Bool) (l : List α) : List α := (l.reverse.eraseP test).reverse

namespace Manager

def createSavepoint (m : Manager) (id : Nat) (name : GoString) : Outcome × Manager :=
  match m.txns.get id with
  | none => (.err (.txnNotFound id), m)
  | some txn =>
    (.ok, m.putTxn { txn with savepoints := txn.savepoints ++ [⟨name, txn.undoLog.length⟩] })

/-- `RollbackToSavepoint`. Only a 2PL transaction has changes undone. -/
def rollbackToSavepoint (m : Manager) (id : Nat) (name : GoString) : Outcome × Manager :=
  match m.txns.get id with
  | none => (.err (.txnNotFound id), m)
  | some txn =>
    match txn.savepoint? name with
    | none => (.err (.savepointNotFound name), m)
    | some sp =>
      let m := match txn.protocol with
        | .twoPL => (m.applyUndoEntries (txn.undoLog.drop sp.undoPosition) id).2
        | .mvcc => m
      (.ok, m.putTxn { txn with undoLog := txn.undoLog.take sp.undoPosition })

def releaseSavepoint (m : Manager) (id : Nat) (name : GoString) : Outcome × Manager :=
  match m.txns.get id with
  | none => (.err (.txnNotFound id), m)
  | some txn =>
    match txn.savepoint? name with
    | none => (.err (.savepointNotFound name), m)
    | some _ =>
      (.ok, m.putTxn { txn with savepoints := eraseLast (fun sp => sp.name = name) txn.savepoints })

section
variable {m : Manager} {id : Nat} {txn : Transaction} {name : GoString} {sp : Savepoint}

section
variable (found : m.txns.get id = some txn)
include found

theorem createSavepoint_found : m.createSavepoint id name =
    (.ok, m.putTxn { txn with savepoints := txn.savepoints ++ [⟨name, txn.undoLog.length⟩] }) := by
  unfold createSavepoint
  rw [found]

theorem rollbackToSavepoint_twoPL (named : txn.savepoint? name = some sp)
    (protocol : txn.protocol = .twoPL) : m.rollbackToSavepoint id name =
      (.ok, (m.applyUndoEntries (txn.undoLog.drop sp.undoPosition) id).2.putTxn
        { txn with undoLog := txn.undoLog.take sp.undoPosition }) := by
  unfold rollbackToSavepoint
  rw [found]
  dsimp only
  rw [named]
  dsimp only
  split
  · rfl
  · simp_all

theorem rollbackToSavepoint_mvcc (named : txn.savepoint? name = some sp)
    (protocol : txn.protocol = .mvcc) : m.rollbackToSavepoint id name =
      (.ok, m.putTxn { txn with undoLog := txn.undoLog.take sp.undoPosition }) := by
  unfold rollbackToSavepoint
  rw [found]
  dsimp only
  rw [named]
  dsimp only
  split
  · simp_all
  · rfl

theorem rollbackToSavepoint_missing (none : txn.savepoint? name = none) :
    m.rollbackToSavepoint id name = (.err (.savepointNotFound name), m) := by
  unfold rollbackToSavepoint
  rw [found]
  dsimp only
  rw [none]

theorem releaseSavepoint_found (named : txn.savepoint? name = some sp) : m.releaseSavepoint id name =
      (.ok, m.putTxn { txn with savepoints := eraseLast (fun sp => sp.name = name) txn.savepoints }) := by
  unfold releaseSavepoint
  rw [found]
  dsimp only
  rw [named]

theorem releaseSavepoint_missing (none : txn.savepoint? name = none) :
    m.releaseSavepoint id name = (.err (.savepointNotFound name), m) := by
  unfold releaseSavepoint
  rw [found]
  dsimp only
  rw [none]

end

end

end Manager

/-- A savepoint with the manager as it was then. It is intact as long as the undo log has not been cut below its
position. -/
structure Saved where
  savepoint : Savepoint
  mgr : Manager
  intact : Bool := true

inductive SavepointCall where
  | write (w : RowWrite)
  | create (name : GoString)
  | release (name : GoString)
  | rollback (name : GoString)
  deriving DecidableEq

/-- A transaction that makes calls. When the last one was a rollback, `target` is the manager as it was when the
savepoint was created. -/
structure SavepointRun where
  mgr : Manager
  saved : List Saved := []
  target : Option Manager := none

namespace SavepointRun

/-- The savepoint that a name stands for. -/
def last (s : SavepointRun) (name : GoString) : Option Saved := s.saved.reverse.find? fun sv => sv.savepoint.name = name

/-- The undo position of a savepoint that is created now. -/
def position (s : SavepointRun) (id : Nat) : Nat := ((s.mgr.txns.get id).map (·.undoLog.length)).getD 0

/-- Cut the log at a position: the savepoints beyond it are not intact any more. -/
def cut (saved : List Saved) (position : Nat) : List Saved :=
  saved.map fun sv => if position < sv.savepoint.undoPosition then { sv with intact := false } else sv

def next (id : Nat) (write : Manager → RowWrite → Manager) (s : SavepointRun) : SavepointCall → Option SavepointRun
  | .write w => some { s with mgr := write s.mgr w, target := none }
  | .create name => some {
      mgr := (s.mgr.createSavepoint id name).2
      saved := s.saved ++ [⟨⟨name, s.position id⟩, s.mgr, true⟩] }
  | .release name => some {
      mgr := (s.mgr.releaseSavepoint id name).2
      saved := eraseLast (fun sv => sv.savepoint.name = name) s.saved }
  | .rollback name =>
    let r := s.mgr.rollbackToSavepoint id name
    match r.1, s.last name with
    | .ok, some sv => some {
        mgr := r.2, saved := cut s.saved sv.savepoint.undoPosition, target := some sv.mgr }
    | _, _ => some { s with mgr := r.2, target := none }

end SavepointRun

/-- Rows are inserted when they are missing, and updated and deleted when they are there. -/
def FittingWrites (s : SavepointRun) : SavepointCall → Prop
  | .write w => (s.mgr.catalog.row w.row.1 w.row.2).isNone ↔ w.op = .insert
  | _ => True

/-- Besides, a row with nil values is not written, and a rollback goes to a savepoint that is
intact. -/
def IntactSavepoints (s : SavepointRun) : SavepointCall → Prop
  | .write w => ((s.mgr.catalog.row w.row.1 w.row.2).isNone ↔ w.op = .insert) ∧
      s.mgr.catalog.row w.row.1 w.row.2 ≠ some none
  | .rollback name => ∀ sv ∈ s.last name, sv.intact = true
  | _ => True

/-- After a rollback the rows are those from when the savepoint was created. -/
def RowsAsSaved (s : SavepointRun) : Prop := ∀ m ∈ s.target, SameRows s.mgr.catalog m.catalog

theorem SameRows.restore {c c' : Catalog} (same : SameRows c c') (e : UndoEntry) :
    SameRows (Manager.restore c e) (Manager.restore c' e) := by
  have tables (name : GoString) : ((Manager.restore c e).lookup name).isSome =
      ((Manager.restore c' e).lookup name).isSome := by
    rw [isSome_lookup_restore, isSome_lookup_restore, same.tables]
  refine ⟨tables, fun row => ?_⟩
  cases table : (c.lookup row.1).isSome with
  | false =>
    have missing := (isSome_lookup_restore c e row.1).trans table
    rw [row_eq_none missing, row_eq_none ((tables row.1).symm.trans missing)]
  | true =>
    rw [row_restore c e row fun _ => table, row_restore c' e row fun _ => same.tables row.1 ▸ table, same.rows]

theorem SameRows.undoAll {c c' : Catalog} (same : SameRows c c') (entries : List UndoEntry) :
    SameRows (undoAll entries c) (undoAll entries c') := by
  induction entries with
  | nil => exact same
  | cons e _ ih => exact ih.restore e

/-- Undo of a write that fits gives the row back. -/
theorem restore_apply {m : Manager} {w : RowWrite} (lsn : Nat)
    (fits : (m.catalog.row w.row.1 w.row.2).isNone ↔ w.op = .insert)
    (values : m.catalog.row w.row.1 w.row.2 ≠ some none) :
    SameRows (restore (w.apply m.catalog) (m.entryOf w lsn)) m.catalog := by
  have applied (name : GoString) : ((w.apply m.catalog).lookup name).isSome =
      (m.catalog.lookup name).isSome := isSome_lookup_applyOp m.catalog w.row w.values w.op name
  have tables (name : GoString) : ((restore (w.apply m.catalog) (m.entryOf w lsn)).lookup name).isSome =
      (m.catalog.lookup name).isSome := (isSome_lookup_restore ..).trans (applied name)
  refine ⟨tables, fun row => ?_⟩
  cases table : (m.catalog.lookup row.1).isSome with
  | false => rw [row_eq_none table, row_eq_none ((tables row.1).trans table)]
  | true =>
    rw [row_restore _ _ row fun _ => (applied row.1).trans table, row_apply _ w row fun _ => table]
    show (if row = w.row then (m.entryOf w lsn).undone _ else _) = _
    by_cases hit : row = w.row
    · subst hit
      rw [if_pos rfl, if_pos rfl]
      unfold UndoEntry.undone entryOf
      rcases found : m.catalog.row w.row.1 w.row.2 with _ | _ | image
      · rw [fits.1 (by rw [found]; rfl)]
      · exact absurd found values
      cases op : w.op with
      | insert =>
        have none := fits.2 op
        rw [found] at none
        cases none
      | update | delete => rfl
    · rw [if_neg hit, if_neg hit]

section
variable {id : Nat} {s s' : SavepointRun} {txn : Transaction} {α : Type}

/-- Undoing from the position of an intact savepoint on gives the rows it was created with. -/
def Saved.Exact (undoLog : List UndoEntry) (c : Catalog) (sv : Saved) : Prop :=
  sv.savepoint.undoPosition ≤ undoLog.length ∧
    SameRows (undoAll (undoLog.drop sv.savepoint.undoPosition) c) sv.mgr.catalog

structure SavepointRun.Tracks (id : Nat) (s : SavepointRun) (txn : Transaction)
    (protocol : ConcurrencyProtocol) : Prop where
  found : s.mgr.txns.get id = some txn
  own : txn.id = id
  protocol : txn.protocol = protocol
  savepoints : txn.savepoints = s.saved.map Saved.savepoint

/-- Besides, the intact ones are exact. -/
structure SavepointInv (id : Nat) (s : SavepointRun) (txn : Transaction) : Prop extends s.Tracks id txn .twoPL where
  exact : ∀ sv ∈ s.saved, sv.intact = true → sv.Exact txn.undoLog s.mgr.catalog

def SoundSavepoints (id : Nat) (s : SavepointRun) : Prop := (∃ txn, SavepointInv id s txn) ∧ RowsAsSaved s

theorem map_eraseLast {β : Type} (f : α → β) (test : β → Bool) (l : List α) :
    eraseLast test (l.map f) = (eraseLast (test ∘ f) l).map f := by
  unfold eraseLast
  rw [← map_reverse, eraseP_map, map_reverse]

theorem mem_of_mem_eraseLast {test : α → Bool} {l : List α} {a : α} (mem : a ∈ eraseLast test l) : a ∈ l :=
  mem_reverse.1 (mem_of_mem_eraseP (mem_reverse.1 mem))

theorem eraseLast_of_forall {test : α → Bool} {l : List α} (none : ∀ a ∈ l, ¬ test a) : eraseLast test l = l := by
  unfold eraseLast
  rw [eraseP_of_forall_not fun a mem => none a (mem_reverse.1 mem), reverse_reverse]

namespace SavepointRun.Tracks
variable {protocol : ConcurrencyProtocol} (tracks : s.Tracks id txn protocol)
include tracks

theorem position : s.position id = txn.undoLog.length := by
  unfold SavepointRun.position
  rw [tracks.found]
  rfl

theorem savepoint? (name : GoString) : txn.savepoint? name = (s.last name).map Saved.savepoint := by
  unfold Transaction.savepoint? SavepointRun.last
  rw [tracks.savepoints, ← map_reverse, find?_map]
  rfl

theorem cut (position : Nat) : txn.savepoints = (SavepointRun.cut s.saved position).map Saved.savepoint := by
  unfold SavepointRun.cut
  rw [tracks.savepoints, map_map]
  refine map_congr_left fun sv' _ => ?_
  dsimp only [Function.comp]
  split <;> rfl

/-- What a call does: it writes, finds no savepoint of the name, stores other savepoints, or rolls back. -/
theorem cases {write : Manager → RowWrite → Manager} {a : SavepointCall} (taken : s.next id write a = some s') :
    (∃ w, a = .write w ∧ s' = { s with mgr := write s.mgr w, target := none }) ∨ s' = { s with target := none } ∨
    (∃ saved, s' = ⟨s.mgr.putTxn { txn with savepoints := saved.map Saved.savepoint }, saved, none⟩ ∧
      ∀ sv ∈ saved, sv ∈ s.saved ∨ sv.savepoint.undoPosition = txn.undoLog.length ∧ sv.mgr = s.mgr) ∨
    ∃ name sv, a = .rollback name ∧ s.last name = some sv ∧ sv ∈ s.saved ∧
      txn.savepoint? name = some sv.savepoint ∧ ((s.mgr.rollbackToSavepoint id name).1 = .ok →
        s' = ⟨(s.mgr.rollbackToSavepoint id name).2, SavepointRun.cut s.saved sv.savepoint.undoPosition, some sv.mgr⟩) := by
  cases a with
  | write w =>
    cases taken
    exact .inl ⟨w, rfl, rfl⟩
  | create name =>
    cases taken
    refine .inr (.inr (.inl ⟨s.saved ++ [⟨⟨name, s.position id⟩, s.mgr, true⟩], ?_, fun sv mem => ?_⟩))
    · rw [createSavepoint_found tracks.found, tracks.position, map_append, ← tracks.savepoints]
      rfl
    · rcases mem_append.1 mem with old | new
      · exact .inl old
      · cases mem_singleton.1 new
        exact .inr ⟨tracks.position, rfl⟩
  | release name =>
    cases taken
    have named := tracks.savepoint? name
    cases last : s.last name with
    | none =>
      rw [last] at named
      have all : eraseLast (fun sv : Saved => decide (sv.savepoint.name = name)) s.saved = s.saved :=
        eraseLast_of_forall fun sv mem => find?_eq_none.1 last sv (mem_reverse.2 mem)
      rw [releaseSavepoint_missing tracks.found named, all]
      exact .inr (.inl rfl)
    | some sv =>
      rw [last] at named
      rw [releaseSavepoint_found tracks.found named, tracks.savepoints, map_eraseLast]
      exact .inr (.inr (.inl ⟨_, rfl, fun sv mem => .inl (mem_of_mem_eraseLast mem)⟩))
  | rollback name =>
    unfold SavepointRun.next at taken
    dsimp only at taken
    have named := tracks.savepoint? name
    cases last : s.last name with
    | none =>
      rw [last] at named
      rw [rollbackToSavepoint_missing tracks.found named] at taken
      cases taken
      exact .inr (.inl rfl)
    | some sv =>
      rw [last] at named taken
      refine .inr (.inr (.inr ⟨name, sv, rfl, last, mem_reverse.1 (mem_of_find?_eq_some last), named, ?_⟩))
      intro returned
      rw [returned] at taken
      exact (Option.some.inj taken).symm

end SavepointRun.Tracks

theorem SavepointInv.write (inv : SavepointInv id s txn) {w : RowWrite}
    (fits : (s.mgr.catalog.row w.row.1 w.row.2).isNone ↔ w.op = .insert)
    (values : s.mgr.catalog.row w.row.1 w.row.2 ≠ some none) :
    ∃ txn', SavepointInv id { s with mgr := s.mgr.writeRow id w, target := none } txn' := by
  cases takes : s.mgr.accepts w with
  | false =>
    rw [s.mgr.writeRow_of_refused takes]
    exact ⟨txn, { inv with }⟩
  | true =>
    obtain ⟨catalog, -, txn', lsn, found, own, protocol, savepoints, undoLog⟩ :=
      s.mgr.writeRow_of_accepted inv.found inv.own takes
    refine ⟨txn', ⟨found, own, protocol.trans inv.protocol, savepoints.trans inv.savepoints⟩, ?_⟩
    intro sv mem intact
    obtain ⟨fits', same⟩ := inv.exact sv mem intact
    have back := (restore_apply lsn fits values).undoAll (txn.undoLog.drop sv.savepoint.undoPosition)
    unfold Saved.Exact
    rw [undoLog, length_append, drop_append_of_le_length fits', catalog]
    refine ⟨by omega, ?_⟩
    rw [show undoAll (txn.undoLog.drop sv.savepoint.undoPosition ++ [s.mgr.entryOf w lsn])
        (w.apply s.mgr.catalog) = undoAll (txn.undoLog.drop sv.savepoint.undoPosition)
        (restore (w.apply s.mgr.catalog) (s.mgr.entryOf w lsn)) from foldr_append]
    exact back.trans same

/-- Undo up to the position of an intact savepoint. -/
theorem Saved.Exact.cut {undoLog : List UndoEntry} {c : Catalog} {sv sv' : Saved} (exact : sv.Exact undoLog c)
    (exact' : sv'.Exact undoLog c) (before : sv'.savepoint.undoPosition ≤ sv.savepoint.undoPosition) :
    sv'.Exact (undoLog.take sv.savepoint.undoPosition) (undoAll (undoLog.drop sv.savepoint.undoPosition) c) := by
  have length : (undoLog.take sv.savepoint.undoPosition).length = sv.savepoint.undoPosition := length_take_of_le exact.1
  have split : undoLog.drop sv'.savepoint.undoPosition =
      (undoLog.take sv.savepoint.undoPosition).drop sv'.savepoint.undoPosition ++
        undoLog.drop sv.savepoint.undoPosition := by
    conv_lhs => rw [← take_append_drop sv.savepoint.undoPosition undoLog]
    exact drop_append_of_le_length (by omega)
  have same := exact'.2
  rw [split] at same
  refine ⟨by omega, ?_⟩
  rwa [show undoAll (_ ++ _) c = undoAll _ (undoAll _ c) from foldr_append] at same

theorem SavepointInv.rollback (inv : SavepointInv id s txn) {name : GoString} {sv : Saved} (mem : sv ∈ s.saved)
    (named : txn.savepoint? name = some sv.savepoint) (intact : sv.intact = true) :
    (s.mgr.rollbackToSavepoint id name).1 = .ok ∧
    SameRows (s.mgr.rollbackToSavepoint id name).2.catalog sv.mgr.catalog ∧
    ∃ txn', SavepointInv id ⟨(s.mgr.rollbackToSavepoint id name).2,
      SavepointRun.cut s.saved sv.savepoint.undoPosition, some sv.mgr⟩ txn' := by
  have exact := inv.exact sv mem intact
  rw [rollbackToSavepoint_twoPL inv.found named inv.protocol]
  have catalog := s.mgr.catalog_applyUndoEntries (txn.undoLog.drop sv.savepoint.undoPosition) id
  refine ⟨rfl, ?_, { txn with undoLog := txn.undoLog.take sv.savepoint.undoPosition },
    ⟨(GoMap.get_set ..).trans (if_pos inv.own.symm), inv.own, inv.protocol, inv.cut _⟩, ?_⟩
  · show SameRows (s.mgr.applyUndoEntries _ id).2.catalog _
    rw [catalog]
    exact exact.2
  · intro sv' mem' intact'
    obtain ⟨old, from', rfl⟩ := mem_map.1 mem'
    show Saved.Exact _ (s.mgr.applyUndoEntries _ id).2.catalog _
    rw [catalog]
    split at intact'
    · cases intact'
    · rename_i before
      rw [if_neg before]
      exact exact.cut (inv.exact old from' intact') (not_lt.1 before)

theorem SavepointInv.step (inv : SavepointInv id s txn) {a : SavepointCall}
    (ok : IntactSavepoints s a) (taken : s.next id (writeRow id) a = some s') :
    SoundSavepoints id s' := by
  rcases inv.cases taken with ⟨w, rfl, rfl⟩ | rfl | ⟨saved, rfl, kept⟩ | ⟨name, sv, rfl, last, mem, named, done⟩
  · exact ⟨inv.write ok.1 ok.2, nofun⟩
  · exact ⟨⟨txn, { inv with }⟩, nofun⟩
  · refine ⟨⟨_, ⟨(GoMap.get_set ..).trans (if_pos inv.own.symm), inv.own, inv.protocol, rfl⟩,
      fun sv mem intact => ?_⟩, nofun⟩
    rcases kept sv mem with old | ⟨position, mgr⟩
    · exact inv.exact sv old intact
    · unfold Saved.Exact
      rw [position, mgr, drop_length]
      exact ⟨le_rfl, .refl _⟩
  · obtain ⟨returned, rows, inv'⟩ := inv.rollback mem named (ok sv last)
    cases done returned
    exact ⟨inv', by rintro _ ⟨⟩; exact rows⟩

end

def SavepointRun.start (m : Manager) (protocol : ConcurrencyProtocol) (isoLevel : IsolationLevel) : SavepointRun where
  mgr := (m.begin protocol isoLevel).2

/-- In every run of calls that meet the condition, a rollback that returns nil gives the rows from
when the savepoint was created. -/
theorem rowsAsSaved_of_intact (m : Manager) (isoLevel : IsolationLevel) (s : SavepointRun)
    (began : (m.begin .twoPL isoLevel).1 = .ok)
    (reached : Reach (SavepointRun.next (m.nextID + 1) (writeRow (m.nextID + 1)))
      IntactSavepoints (.start m .twoPL isoLevel) s) : RowsAsSaved s := by
  have inv : SoundSavepoints (m.nextID + 1) s := by
    refine reached.invariant ?_ fun s a s' inv ok taken => ?_
    · obtain ⟨-, -, txn, found, own, undoLog, savepoints, protocol⟩ := begin_fresh began
      exact ⟨⟨txn, ⟨found, own, protocol, savepoints⟩, nofun⟩, nofun⟩
    · obtain ⟨⟨txn, inv⟩, -⟩ := inv
      exact inv.step ok taken
  exact inv.2

instance (s : SavepointRun) (a : SavepointCall) : Decidable (FittingWrites s a) := by
  unfold FittingWrites
  split <;> infer_instance

instance (s : SavepointRun) (a : SavepointCall) : Decidable (IntactSavepoints s a) := by
  unfold IntactSavepoints
  split <;> infer_instance

/-- Two nested savepoints, rolled back from the inner one to the outer one. -/
theorem rowsAsSaved_nested : ∃ s, Reach (SavepointRun.next 1 (writeRow 1)) IntactSavepoints
      (.start oneRow .twoPL .serializable) s ∧
    (s.target.map fun m => m.catalog.row [97] [49]) = some (some (some [intVal 1])) ∧ RowsAsSaved s := by
  exact Reach.exists_and [.create [112], .write ⟨([97], [49]), .update, some [intVal 2]⟩, .create [113],
      .write ⟨([97], [49]), .delete, none⟩, .write ⟨([97], [49]), .insert, some [intVal 3]⟩,
      .rollback [113], .rollback [112]]
    (by decide) fun s reached _ => rowsAsSaved_of_intact oneRow .serializable s rfl reached

/-- `q` is created after an update, which a rollback to `p` undoes. After another update a rollback
to `q` undoes nothing. -/
theorem not_rowsAsSaved : ¬ ∀ (m : Manager) (isoLevel : IsolationLevel) (s : SavepointRun),
    (m.begin .twoPL isoLevel).1 = .ok →
    Reach (SavepointRun.next (m.nextID + 1) (writeRow (m.nextID + 1))) FittingWrites
      (.start m .twoPL isoLevel) s → RowsAsSaved s := by
  intro claim
  obtain ⟨s, reached, m, target, differ⟩ := Reach.exists_such (SavepointRun.next 1 (writeRow 1))
    FittingWrites (.start oneRow .twoPL .serializable)
    [.create [112], .write ⟨([97], [49]), .update, some [intVal 2]⟩, .create [113], .rollback [112],
      .write ⟨([97], [49]), .update, some [intVal 3]⟩, .rollback [113]]
    (fun s => ∃ m ∈ s.target, s.mgr.catalog.row [97] [49] ≠ m.catalog.row [97] [49]) (by decide)
  exact differ ((claim oneRow .serializable s rfl reached m target).rows ([97], [49]))

end TransactionManager.Txn
