import TransactionManager.Txn.TableLocks
import TransactionManager.Txn.ScanRows

/-!
# No dirty reads under 2PL

Writes go in place into the catalog, so what a read returns is the row's latest committed value, or
the reader's own, as long as the locks keep it away from rows with changes of others. A scan at
read-committed takes no lock that conflicts with a writer, and a serializable scan locks the rows
that are there when it lists the keys.
-/

namespace TransactionManager.Txn
open Lib TransactionManager.Types Lock List Storage Manager ScanRun ScanEvent

def ScanEvent.writes (t : Nat) (row : RowRef) : ScanEvent → Bool
  | .write t' row' _ _ => t' = t && row' = row
  | _ => false

/-- The row's latest committed value: what it was when the last transaction that wrote it
committed. -/
def committedRow (seed : Catalog) (row : RowRef) : List ScanEvent → Option RowData
  | [] => seed.row row.1 row.2
  | .commit t catalog :: older =>
    if older.any (·.writes t row) then catalog.row row.1 row.2 else committedRow seed row older
  | _ :: older => committedRow seed row older

/-- A value that the transaction itself wrote to the row. -/
def OwnValue (hist : List ScanEvent) (t : Nat) (row : RowRef) (value : Option RowData) : Prop :=
  ∃ op values, write t row op values ∈ hist ∧ value = RowWrite.outcome ⟨row, op, values⟩

/-- The transaction may see the value: it is its own or the latest committed one. -/
def MaySee (seed : Catalog) (hist : List ScanEvent) (t : Nat) (row : RowRef) (value : Option RowData) : Prop :=
  OwnValue hist t row value ∨ value = committedRow seed row hist

/-- A read returns a value that the transaction may see, and a scan the rows of a table of such values that pass the
filter. -/
def ScanEvent.Clean (seed : Catalog) (hist : List ScanEvent) : ScanEvent → Prop
  | .read t row value => MaySee seed hist t row value
  | .scan t _ table filter rows => ∀ key, ∃ value, MaySee seed hist t (table, key) value ∧
      ∀ v, (key, v) ∈ rows ↔ value = some v ∧ filter key v = true
  | _ => True

def CleanReads (seed : Catalog) : List ScanEvent → Prop
  | [] => True
  | e :: older => e.Clean seed older ∧ CleanReads seed older

/-- Undo of the operation gives the row back: an insert of a missing row, an update of a row with values, a delete of
a row that is missing or has values. -/
def Undoable (now : Option RowData) : UndoOpType → Prop
  | .insert => now = none
  | .update => ∃ image, now = some (some image)
  | .delete => now ≠ some none

instance (now : Option RowData) : (op : UndoOpType) → Decidable (Undoable now op)
  | .insert => inferInstanceAs (Decidable (now = none))
  | .update => match now with
    | some (some image) => isTrue ⟨image, rfl⟩
    | some none => isFalse (by simp [Undoable])
    | none => isFalse (by simp [Undoable])
  | .delete => inferInstanceAs (Decidable (now ≠ some none))

def isRowOf (table : GoString) : ResourceID → Bool
  | .row table' _ => table' = table
  | _ => false

namespace ScanRun

/-- The work of a call that has its locks. -/
def ready (s : ScanRun) (t : Nat) : Option ScanTask :=
  match s.calls.get t with
  | some (.locking _ [] task) => some task
  | _ => none

def NoWriter (s : ScanRun) (t : Nat) (table : GoString) : Prop :=
  ∀ u ≤ s.mgr.nextID, u ≠ t → ∀ r ∈ (s.locks.held u).keys, isRowOf table r = true → (s.locks.held u).get r ≠ some .x

instance (s : ScanRun) (t : Nat) (table : GoString) : Decidable (s.NoWriter t table) :=
  inferInstanceAs (Decidable (∀ u ≤ _, _))

/-- A write can be undone, and a scan below or above repeatable read meets no writer. -/
def CarefulTask (s : ScanRun) (t : Nat) (isolation : IsolationLevel) : ScanTask → Prop
  | .write row _ op => Undoable (s.mgr.catalog.row row.1 row.2) op
  | .scan table _ => isolation = .repeatableRead ∨ s.NoWriter t table
  | _ => True

instance (s : ScanRun) (t : Nat) (isolation : IsolationLevel) (task : ScanTask) :
    Decidable (s.CarefulTask t isolation task) := by
  unfold CarefulTask
  split <;> infer_instance

/-- No transaction runs at read-uncommitted, and the work of the calls is careful. -/
def CarefulStep (s : ScanRun) : ScanAction → Prop
  | .begin isoLevel => isoLevel ≠ .readUncommitted
  | .run t => ∀ txn ∈ s.mgr.txns.get t, ∀ task ∈ s.ready t, s.CarefulTask t txn.isolation task
  | _ => True

instance (s : ScanRun) (a : ScanAction) : Decidable (s.CarefulStep a) := by
  unfold CarefulStep
  split <;> infer_instance

/-- The steps without dirty reads. -/
def Careful (s : ScanRun) (a : ScanAction) : Prop := s.Unmixed a ∧ s.CarefulStep a

instance (s : ScanRun) (a : ScanAction) : Decidable (s.Careful a) := inferInstanceAs (Decidable (_ ∧ _))

def Locking (s : ScanRun) : Prop := ∀ t txn, s.mgr.txns.get t = some txn → txn.isolation ≠ .readUncommitted

end ScanRun

/-- The newest of the changes gave the row its value, and undoing them one by one leads through values of the
transaction's own to the committed one. -/
def Backed (seed : Catalog) (hist : List ScanEvent) (t : Nat) (row : RowRef) : List UndoEntry → Option RowData → Prop
  | [], now => now = committedRow seed row hist
  | e :: more, now =>
    if e.row = row then OwnValue hist t row now ∧ Backed seed hist t row more (e.undone now)
    else Backed seed hist t row more now

/-- Rows with pending changes are backed by their committed values, and rows without have them. -/
structure RowValues (seed : Catalog) (s : ScanRun) : Prop where
  backed : ∀ t row, (∃ e ∈ s.pending t, e.row = row) →
    Backed seed s.hist t row (s.pending t) (s.mgr.catalog.row row.1 row.2)
  committed : ∀ row : RowRef, (∀ t, ∀ e ∈ s.pending t, e.row ≠ row) →
    s.mgr.catalog.row row.1 row.2 = committedRow seed row s.hist

section
variable {seed : Catalog} {hist hist' : List ScanEvent} {t : Nat} {row : RowRef}
  {entries : List UndoEntry} {now : Option RowData}

theorem any_writes_iff : hist.any (·.writes t row) = true ↔ ∃ op values, ScanEvent.write t row op values ∈ hist := by
  rw [any_eq_true]
  constructor
  · rintro ⟨e, mem, writes⟩
    cases e with
    | write t' row' op values =>
      simp only [ScanEvent.writes, Bool.and_eq_true, decide_eq_true_eq] at writes
      obtain ⟨rfl, rfl⟩ := writes
      exact ⟨op, values, mem⟩
    | _ => cases writes
  · rintro ⟨op, values, mem⟩
    exact ⟨_, mem, by simp [writes]⟩

theorem committedRow_cons {e : ScanEvent} (not : ∀ t catalog, e ≠ .commit t catalog) :
    committedRow seed row (e :: hist) = committedRow seed row hist := by
  cases e with
  | commit t catalog => exact absurd rfl (not t catalog)
  | _ => rfl

theorem OwnValue.mono (own : OwnValue hist t row now) (sub : ∀ e ∈ hist, e ∈ hist') : OwnValue hist' t row now := by
  obtain ⟨op, values, mem, eq⟩ := own
  exact ⟨op, values, sub _ mem, eq⟩

theorem Backed.mono (backed : Backed seed hist t row entries now) (sub : ∀ e ∈ hist, e ∈ hist')
    (same : committedRow seed row hist' = committedRow seed row hist) : Backed seed hist' t row entries now := by
  induction entries generalizing now with
  | nil => exact backed.trans same.symm
  | cons e more ih =>
    unfold Backed at backed ⊢
    split at backed
    · rename_i here
      rw [if_pos here]
      exact ⟨backed.1.mono sub, ih backed.2⟩
    · rename_i away
      rw [if_neg away]
      exact ih backed

theorem backed_of_none (none : ∀ e ∈ entries, e.row ≠ row) :
    Backed seed hist t row entries now ↔ now = committedRow seed row hist := by
  induction entries with
  | nil => exact Iff.rfl
  | cons e more ih =>
    unfold Backed
    rw [if_neg (none e mem_cons_self)]
    exact ih fun e' mem => none e' (mem_cons_of_mem e mem)

theorem Backed.own (backed : Backed seed hist t row entries now) (some : ∃ e ∈ entries, e.row = row) :
    OwnValue hist t row now := by
  induction entries with
  | nil =>
    obtain ⟨e, mem, -⟩ := some
    cases mem
  | cons e more ih =>
    unfold Backed at backed
    split at backed
    · exact backed.1
    · rename_i away
      obtain ⟨e', mem, here⟩ := some
      refine ih backed ⟨e', ?_, here⟩
      exact (mem_cons.1 mem).resolve_left fun eq => away (eq ▸ here)

theorem undone_entryOf {m : Manager} {w : RowWrite} {lsn : Nat}
    (undoable : Undoable (m.catalog.row w.row.1 w.row.2) w.op) :
    (m.entryOf w lsn).undone w.outcome = m.catalog.row w.row.1 w.row.2 := by
  unfold UndoEntry.undone entryOf RowWrite.outcome
  cases op : w.op with
  | insert =>
    rw [op] at undoable
    exact undoable.symm
  | update =>
    rw [op] at undoable
    obtain ⟨image, eq⟩ := undoable
    rw [eq]
    rfl
  | delete =>
    rw [op] at undoable
    rcases found : m.catalog.row w.row.1 w.row.2 with _ | _ | image
    · rfl
    · exact absurd found undoable
    · rfl

end

section
variable {seed : Catalog} {s s' : ScanRun} {a : ScanAction} {t : Nat} {done : List LockRequest}

section
variable (values : RowValues seed s)
include values

theorem RowValues.still (catalog : s'.mgr.catalog = s.mgr.catalog)
    (pending : ∀ u, s'.pending u = s.pending u) (sub : ∀ e ∈ s.hist, e ∈ s'.hist)
    (same : ∀ row, committedRow seed row s'.hist = committedRow seed row s.hist) : RowValues seed s' := by
  constructor
  · intro u row some
    rw [catalog, pending]
    rw [pending] at some
    exact (values.backed u row some).mono sub (same row)
  · intro row none
    rw [catalog, same]
    exact values.committed row fun u e mem => none u e (pending u ▸ mem)

section
variable (base : ScanInv s) (writes : WriteLocks s) (pend : PendingInv s)
include base writes pend

theorem RowValues.wrote {lsn : Nat} {w : RowWrite} (active : s.mgr.Active t)
    (here : s.calls.get t = some (.locking done [] (.write w.row w.values w.op)))
    (table : (s.mgr.catalog.lookup w.row.1).isSome) (catalog : s'.mgr.catalog = w.apply s.mgr.catalog)
    (pending : ∀ u, s'.pending u = if u = t then s.mgr.entryOf w lsn :: s.pending t else s.pending u)
    (hist : s'.hist = .write t w.row w.op w.values :: s.hist)
    (undoable : Undoable (s.mgr.catalog.row w.row.1 w.row.2) w.op) : RowValues seed s' := by
  have sub : ∀ e ∈ s.hist, e ∈ s'.hist := fun e mem => hist ▸ mem_cons_of_mem _ mem
  have same (row : RowRef) : committedRow seed row s'.hist = committedRow seed row s.hist := by
    rw [hist]
    exact committedRow_cons (by simp)
  have rows (row : RowRef) : s'.mgr.catalog.row row.1 row.2 =
      if row = w.row then w.outcome else s.mgr.catalog.row row.1 row.2 := 
    catalog ▸ row_apply _ w row (· ▸ table)
  -- the writer holds X on the row, so nobody else has changes of it
  have alone {u : Nat} {e : UndoEntry} (mem : e ∈ s.pending u) (hit : e.row = w.row) : u = t := by
    obtain ⟨table, key⟩ := Prod.mk.inj hit
    have held := pend.locked base writes mem
    rw [table, key] at held
    exact base.exclusive held (base.covers_write here active).2
      (base.before_release (base.unfinished_of_pending mem)) (base.before_release (.inl active)) (by decide)
  constructor
  · intro u row some
    rw [pending] at some ⊢
    rw [rows]
    by_cases hit : row = w.row
    · subst hit
      rw [if_pos rfl]
      have own : u = t := by
        by_contra other
        rw [if_neg other] at some
        obtain ⟨e, mem, eq⟩ := some
        exact other (alone mem eq)
      subst own
      rw [if_pos rfl]
      unfold Backed
      rw [if_pos (by rfl), undone_entryOf undoable]
      refine ⟨⟨w.op, w.values, hist ▸ mem_cons_self, rfl⟩, ?_⟩
      by_cases owned : ∃ e ∈ s.pending u, e.row = w.row
      · exact (values.backed u w.row owned).mono sub (same _)
      · have free (e : UndoEntry) (mem : e ∈ s.pending u) : e.row ≠ w.row := fun eq => owned ⟨e, mem, eq⟩
        rw [backed_of_none free, same]
        refine values.committed w.row fun v e mem eq => ?_
        obtain rfl := alone mem eq
        exact free e mem eq
    · rw [if_neg hit]
      have old (some : ∃ e ∈ s.pending u, e.row = row) :
          Backed seed s'.hist u row (s.pending u) (s.mgr.catalog.row row.1 row.2) :=
        (values.backed u row some).mono sub (same row)
      split at some
      · rename_i own
        subst own
        rw [if_pos rfl]
        unfold Backed
        rw [if_neg fun eq => hit eq.symm]
        obtain ⟨e, mem, eq⟩ := some
        rcases mem_cons.1 mem with rfl | mem
        · exact absurd eq.symm hit
        · exact old ⟨e, mem, eq⟩
      · rename_i other
        rw [if_neg other]
        exact old some
  · intro row none
    have hit : row ≠ w.row := by
      rintro rfl
      refine none t (s.mgr.entryOf w lsn) ?_ rfl
      rw [pending, if_pos rfl]
      exact mem_cons_self
    rw [rows, if_neg hit, same]
    refine values.committed row fun u e mem => none u e ?_
    rw [pending]
    split
    · rename_i own
      exact mem_cons_of_mem _ (own ▸ mem)
    · exact mem

theorem RowValues.undid {e : UndoEntry} {more : List UndoEntry} (before : s.pending t = e :: more)
    (catalog : s'.mgr.catalog = restore s.mgr.catalog e)
    (pending : ∀ u, s'.pending u = if u = t then more else s.pending u) (sub : ∀ e ∈ s.hist, e ∈ s'.hist)
    (same : ∀ row, committedRow seed row s'.hist = committedRow seed row s.hist) : RowValues seed s' := by
  have first : e ∈ s.pending t := by
    rw [before]
    exact mem_cons_self
  have rows (row : RowRef) : s'.mgr.catalog.row row.1 row.2 =
      if row = e.row then e.undone (s.mgr.catalog.row row.1 row.2) else s.mgr.catalog.row row.1 row.2 :=
    catalog ▸ row_restore _ e row (· ▸ pend.tables t e first)
  -- what backs the row of the entry backs what is left of it
  have rest : Backed seed s.hist t e.row more (s'.mgr.catalog.row e.row.1 e.row.2) := by
    have backed := values.backed t e.row ⟨e, first, rfl⟩
    rw [before] at backed
    unfold Backed at backed
    rw [if_pos rfl] at backed
    rw [rows, if_pos rfl]
    exact backed.2
  constructor
  · intro u row some
    rw [pending] at some ⊢
    refine Backed.mono ?_ sub (same row)
    split at some
    · rename_i own
      subst own
      rw [if_pos rfl]
      by_cases hit : row = e.row
      · subst hit
        exact rest
      rw [rows, if_neg hit]
      obtain ⟨e', mem, eq⟩ := some
      have backed := values.backed u row ⟨e', by rw [before]; exact mem_cons_of_mem e mem, eq⟩
      rw [before] at backed
      unfold Backed at backed
      rwa [if_neg fun eq => hit eq.symm] at backed
    · rename_i other
      rw [if_neg other, rows, if_neg]
      · exact values.backed u row some
      · rintro rfl
        obtain ⟨e', mem, eq⟩ := some
        exact other (pend.unique base writes mem first eq)
  · intro row none
    rw [same]
    by_cases hit : row = e.row
    · subst hit
      refine (backed_of_none fun e' mem => none t e' ?_).1 rest
      rw [pending, if_pos rfl]
      exact mem
    · rw [rows, if_neg hit]
      refine values.committed row fun u e' mem => ?_
      by_cases own : u = t
      · subst own
        rw [before] at mem
        rcases mem_cons.1 mem with rfl | mem
        · exact fun eq => hit eq.symm
        · exact none u e' (by rw [pending, if_pos rfl]; exact mem)
      · exact none u e' (by rw [pending, if_neg own]; exact mem)

theorem RowValues.commit (active : s.mgr.Active t) (catalog : s'.mgr.catalog = s.mgr.catalog)
    (pending : ∀ u, s'.pending u = if u = t then [] else s.pending u)
    (hist : s'.hist = .commit t s.mgr.catalog :: s.hist) : RowValues seed s' := by
  have sub : ∀ e ∈ s.hist, e ∈ s'.hist := fun e mem => hist ▸ mem_cons_of_mem _ mem
  have now (row : RowRef) : committedRow seed row s'.hist =
      if s.hist.any (·.writes t row) then s.mgr.catalog.row row.1 row.2 else committedRow seed row s.hist := by
    rw [hist]
    rfl
  constructor
  · intro u row some
    rw [pending] at some ⊢
    split at some
    · obtain ⟨e, mem, -⟩ := some
      cases mem
    rename_i other
    rw [if_neg other, catalog]
    refine (values.backed u row some).mono sub ?_
    rw [now, if_neg]
    intro wrote
    obtain ⟨e, mem, rfl⟩ := some
    exact other (base.exclusive (pend.locked base writes mem)
      (writes.rows t e.row (.inl active) (any_writes_iff.1 wrote))
      (base.before_release (base.unfinished_of_pending mem)) (base.before_release (.inl active)) (by decide))
  · intro row none
    rw [catalog, now]
    split
    · rfl
    rename_i not
    refine values.committed row fun u e mem eq => ?_
    by_cases own : u = t
    · subst own
      exact not (any_writes_iff.2 (eq ▸ pend.wrote u e mem))
    · exact none u e (by rw [pending, if_neg own]; exact mem) eq

end

omit values in
theorem ScanRun.ready_of_here {task : ScanTask}
    (here : s.calls.get t = some (.locking done [] task)) : task ∈ s.ready t := by
  unfold ready
  rw [here]
  rfl

/-- Every careful step keeps the rows backed. -/
theorem RowValues.step (base : ScanInv s) (writes : WriteLocks s)
    (pend : PendingInv s) (ok : s.Careful a) (step : ScanStep s a s') : RowValues seed s' := by
  cases base.rowStep step with
  | still catalog pending hist =>
    refine values.still catalog pending step.hist_sub fun row => ?_
    rcases hist with hist | ⟨e, hist, silent⟩
    · rw [hist]
    · rw [hist]
      refine committedRow_cons fun t catalog eq => ?_
      rw [eq] at silent
      exact silent
  | wrote active here table catalog pending hist =>
    refine values.wrote base writes pend active here table catalog pending hist ?_
    obtain ⟨txn, found⟩ := Option.isSome_iff_exists.1 active
    exact ok.2 txn found _ (ready_of_here here)
  | undid before catalog pending hist =>
    refine values.undid base writes pend before catalog pending step.hist_sub fun row => ?_
    rcases hist with ⟨hist, -⟩ | hist
    · rw [hist]
    · rw [hist]
      exact committedRow_cons (by simp)
  | commit active catalog pending hist => exact values.commit base writes pend active catalog pending hist

omit values in
theorem ScanRun.Locking.step (locking : s.Locking) (inv : ScanInv s) (ok : s.CarefulStep a)
    (step : ScanStep s a s') : s'.Locking := by
  intro t txn' found'
  rcases inv.txn_step step found' with ⟨txn, found, level, -⟩ | ⟨-, rfl, -⟩
  · rw [level]
    exact locking t txn found
  · exact ok

/-- A row without changes of others has a value that the transaction may see. -/
theorem RowValues.maySee {row : RowRef} (alone : ∀ u, ∀ e ∈ s.pending u, e.row = row → u = t) :
    MaySee seed s.hist t row (s.mgr.catalog.row row.1 row.2) := by
  by_cases owned : ∃ e ∈ s.pending t, e.row = row
  · exact .inl ((values.backed t row owned).own owned)
  · refine .inr (values.committed row fun u e mem eq => ?_)
    obtain rfl := alone u e mem eq
    exact owned ⟨e, mem, eq⟩

end

section
variable (base : ScanInv s) (writes : WriteLocks s) (pend : PendingInv s) {txn : Transaction}
include base writes pend

/-- A read has S on the row, and a writer of it would have X. -/
theorem alone_of_read (locking : s.Locking) {row : RowRef} (active : s.mgr.txns.get t = some txn)
    (here : s.calls.get t = some (.locking done [] (.read row))) : ∀ u, ∀ e ∈ s.pending u, e.row = row → u = t := by
  rintro u e mem rfl
  have asked : done ++ [] = _ := base.asks t txn _ _ active here rfl (locking t txn active)
  rw [append_nil] at asked
  obtain ⟨m, get, strong⟩ := base.covered t _ here (.row e.row.1 e.row.2, .s) (by simp [ScanCall.granted, asked])
  exact base.exclusive (pend.locked base writes mem) get
    (base.before_release (base.unfinished_of_pending mem)) (base.before_release (.inl (active_of_get active))) strong

/-- A scan at repeatable read has S on the table, and a writer of a row of it would have IX. -/
theorem alone_of_scan (tables : s.TablesHeld) {table key : GoString} {filter : RowFilter}
    (active : s.mgr.txns.get t = some txn) (here : s.calls.get t = some (.locking done [] (.scan table filter)))
    (careful : txn.isolation = .repeatableRead ∨ s.NoWriter t table) :
    ∀ u, ∀ e ∈ s.pending u, e.row = (table, key) → u = t := by
  intro u e mem eq
  by_contra other
  have unfinished := base.unfinished_of_pending mem
  have wrote := pend.wrote u e mem
  rw [eq] at wrote
  rcases careful with level | free
  · have asked : done ++ [] = _ := base.asks t txn _ _ active here rfl level
    rw [append_nil] at asked
    obtain ⟨m, get, strong⟩ := base.covered t _ here (.table table, .s) (by simp [ScanCall.granted, asked])
    have intends := tables u table (.inl ⟨unfinished, key, wrote⟩)
    have compatible := base.locks.mutualExclusion u t (.table table) .ix m other
      (base.holds intends (base.before_release unfinished))
      (base.holds get (base.before_release (.inl (active_of_get active))))
    have conflict : ∀ m : Mode, lockStrength .s ≤ lockStrength m → lockCompatible .ix m = false := by decide
    rw [conflict m strong] at compatible
    cases compatible
  · have held := writes.rows u (table, key) unfinished wrote
    refine free u (base.known unfinished) other (.row table key) ?_ (by simp [isRowOf]) held
    exact (GoMap.mem_keys_iff ..).2 ⟨.x, held⟩

end

/-- Every careful step keeps the reads clean. -/
theorem CleanReads.step (clean : CleanReads seed s.hist) (values : RowValues seed s) (base : ScanInv s)
    (writes : WriteLocks s) (pend : PendingInv s) (tables : s.TablesHeld) (locking : s.Locking)
    (ok : s.Careful a) (step : ScanStep s a s') : CleanReads seed s'.hist := by
  cases step with
  | read active here found =>
    refine ⟨?_, clean⟩
    have seen := values.maySee (alone_of_read base writes pend locking active here)
    rwa [row_of_lookup found] at seen
  | @scanned t txn _ table _ tbl active here found =>
    refine ⟨fun key => ⟨tbl.getRow key, ?_, fun v => Table.mem_scan⟩, clean⟩
    have careful := ok.2 txn active _ (ready_of_here here)
    have alone : ∀ u, ∀ e ∈ s.pending u, e.row = (table, key) → u = t :=
      alone_of_scan base writes pend tables active here careful
    have stored : s.mgr.catalog.row (table, key).1 (table, key).2 = tbl.getRow key := row_of_lookup found
    rw [← stored]
    exact values.maySee alone
  | wrote | ranged | insertable | undid | commit | abort => exact ⟨trivial, clean⟩
  | _ => exact clean

end

/-- In every run of careful steps the reads are clean. -/
theorem cleanReads_of_careful {seed : Catalog} {maxActive : Nat} {wal : Option Wal.Log}
    {s : ScanRun} (reached : Reach ScanRun.next Careful (.start seed maxActive wal) s) :
    CleanReads seed s.hist := by
  have inv : ScanInv s ∧ WriteLocks s ∧ PendingInv s ∧ s.TablesHeld ∧ s.Locking ∧ RowValues seed s ∧
      CleanReads seed s.hist := by
    induction reached with
    | refl =>
      refine ⟨.start .., .start .., .start .., .start seed maxActive wal,
        (nofun), ?_, trivial⟩
      constructor
      · rintro t row ⟨e, mem, -⟩
        cases mem
      · exact fun row _ => rfl
    | step _ ok taken now =>
      obtain ⟨base, writes, pend, tables, locking, values, clean⟩ := now
      have step := next_step taken
      exact ⟨base.step ok.1.1 step, writes.step base step, pend.step base step,
        tables.step base writes ok.1 step, locking.step base ok.2 step,
        values.step base writes pend ok step, clean.step values base writes pend tables locking ok step⟩
  exact inv.2.2.2.2.2.2

structure ScanResult where
  t : Nat
  table : GoString
  rows : List (GoString × RowData)
  deriving DecidableEq

def ScanEvent.scanned : ScanEvent → Option ScanResult
  | .scan t _ table _ rows => some ⟨t, table, rows⟩
  | _ => none

/-- A scan that returns a value that was neither committed nor the transaction's own is not clean. -/
theorem not_clean_of_scanned {seed : Catalog} {hist : List ScanEvent} {t : Nat} {table key : GoString}
    {rows : List (GoString × RowData)} {v : RowData} (first : hist.head?.bind scanned = some ⟨t, table, rows⟩)
    (returned : (key, v) ∈ rows) (foreign : hist.tail.any (·.writes t (table, key)) = false)
    (uncommitted : committedRow seed (table, key) hist.tail ≠ some v) : ¬ CleanReads seed hist := by
  intro clean
  cases hist with
  | nil => cases first
  | cons e =>
    cases e with
    | scan =>
      cases first
      obtain ⟨value, maySee, rows⟩ := clean.1 key
      have eq := ((rows v).1 returned).1
      rcases maySee with ⟨op, values, mem, -⟩ | committed
      · rw [tail_cons, any_writes_iff.2 ⟨op, values, mem⟩] at foreign
        cases foreign
      · exact uncommitted (committed.symm.trans eq)
    | _ => cases first

def ScanAction.LocksReads : ScanAction → Prop
  | .begin isoLevel => isoLevel ≠ .readUncommitted
  | _ => True

instance (a : ScanAction) : Decidable a.LocksReads := by
  unfold ScanAction.LocksReads
  split <;> infer_instance

/-- The steps of `Commit` of a transaction that nobody waits for, with the order in which it releases its
locks. -/
def commitSteps (t : Nat) (order : List ResourceID) : List ScanAction :=
  .commit t :: .lock t (.releaseAll order) :: (order.map fun _ => [.lock t .nextResource, .lock t .release,
    .lock t .reap, .lock t .forget]).flatten ++ [.lock t .nextResource, .finish t]

/-- A scan at read-committed after the commit of a writer. -/
theorem cleanReads_committed : ∃ s, Reach ScanRun.next Careful (.start stock 0 none) s ∧
    s.hist.head?.bind scanned = some ⟨2, [99], [([49], some [intVal 2])]⟩ ∧
    CleanReads stock s.hist := by
  exact Reach.exists_and ([.begin .readCommitted, .begin .readCommitted] ++
      callSteps 1 (.write ([99], [49]) (some [intVal 2]) .update) 2 ++
      commitSteps 1 [.row [99] [49], .table [99]] ++ callSteps 2 (.scan [99] fun _ _ => true) 1)
    (by decide) fun s reached _ => cleanReads_of_careful reached

/-- A scan at read-committed returns the value that another transaction has written and not committed. -/
theorem not_cleanReads : ¬ ∀ (seed : Catalog) (maxActive : Nat) (wal : Option Wal.Log) (s : ScanRun),
    Reach ScanRun.next (fun s a => s.Orderly a ∧ a.LocksReads) (.start seed maxActive wal) s →
      CleanReads seed s.hist := by
  intro claim
  obtain ⟨s, reached, first, foreign, uncommitted⟩ := Reach.exists_such ScanRun.next
    (fun s a => s.Orderly a ∧ a.LocksReads) (.start stock 0 none)
    ([.begin .readCommitted, .begin .readCommitted] ++
      callSteps 1 (.write ([99], [49]) (some [intVal 2]) .update) 2 ++ callSteps 2 (.scan [99] fun _ _ => true) 1)
    (fun s => s.hist.head?.bind scanned = some ⟨2, [99], [([49], some [intVal 2])]⟩ ∧
      s.hist.tail.any (·.writes 2 ([99], [49])) = false ∧
      committedRow stock ([99], [49]) s.hist.tail ≠ some (some [intVal 2])) (by decide)
  exact not_clean_of_scanned first (mem_singleton_self _) foreign uncommitted (claim stock 0 none s reached)

end TransactionManager.Txn
