import TransactionManager.Txn.Gaps
import TransactionManager.Txn.ScanRows

/-!
# What a range scan keeps locked

A range scan locks the rows and the gaps of the keys that it lists. They are the rows and the gaps of
the table as long as every key that appears does so in a gap that its transaction has locked, no key
vanishes from the side of a gap that another transaction has locked, and the keys stay what they were
while the scan takes its locks.
-/

namespace TransactionManager.Txn
open TransactionManager.Types Lock List Storage ScanRun ScanCall

def ScanEvent.txn : ScanEvent → Nat
  | .read t .. | .write t .. | .scan t .. | .ranged t .. | .insertable t _ | .undo t _ | .commit t _ | .abort t => t

def ScanEvent.ranges (t : Nat) (table : GoString) : ScanEvent → Bool
  | .ranged t' table' .. => t' = t ∧ table' = table
  | _ => false

/-- The call has listed the keys of the table and is taking the locks of a range. -/
def ScanCall.ranging (table : GoString) (call : ScanCall) : Bool :=
  match call.task with
  | some (.ranged table' ..) => table' = table
  | _ => false

namespace ScanRun

/-- The sorted keys of a table. -/
def keys (s : ScanRun) (table : GoString) : List GoString := ((s.mgr.catalog.lookup table).map (·.sortedKeys)).getD []

def Quiet (s : ScanRun) (table : GoString) : Prop :=
  ∀ t < s.mgr.nextID + 1, ∀ call ∈ s.calls.get t, call.ranging table = false

instance (s : ScanRun) (table : GoString) : Decidable (s.Quiet table) := inferInstanceAs (Decidable (∀ t < _, _))

/-- A running transaction other than the one of the step has locked a range of the table. -/
def Watched (s : ScanRun) (a : ScanAction) (table : GoString) : Prop :=
  ∃ t < s.mgr.nextID + 1, t ≠ s.actor a ∧ s.mgr.Active t ∧ s.hist.any (·.ranges t table) = true

instance (s : ScanRun) (a : ScanAction) (table : GoString) : Decidable (s.Watched a table) :=
  inferInstanceAs (Decidable (∃ t < _, _))

/-- The steady steps in which a key that appears where another transaction has locked a range of the table does so in
a gap that the transaction of the step has locked, and in which no key appears or vanishes while a range scan of the
table takes its locks. -/
def GapLocked (s : ScanRun) (a : ScanAction) : Prop := s.Steady a ∧
    (∀ row ∈ s.appears a, s.Quiet row.1 ∧ (s.Watched a row.1 →
      (s.locks.held (s.actor a)).get (insertionGap row.1 row.2 (s.keys row.1)) = some .x)) ∧
    ∀ row ∈ s.vanishes a, s.Quiet row.1

instance (s : ScanRun) (a : ScanAction) : Decidable (s.GapLocked a) := inferInstanceAs (Decidable (_ ∧ _))

/-- The transaction has locked the rows and the gaps of a range. -/
def Guards (s : ScanRun) (t : Nat) (table lo hi : GoString) : Prop :=
  Protects table lo hi (s.keys table) (Covers (s.locks.held t))

end ScanRun

section
variable {s s' : ScanRun} {a : ScanAction} {t : Nat} {table lo hi : GoString}

theorem ScanRun.sorted_keys (s : ScanRun) (table : GoString) : (s.keys table).Pairwise (· ≤ ·) := by
  unfold keys
  cases s.mgr.catalog.lookup table with
  | none => exact List.Pairwise.nil
  | some tbl => exact pairwise_insertionSort _ _

theorem ScanRun.mem_keys {key : GoString} : key ∈ s.keys table ↔ s.mgr.catalog.row table key ≠ none := by
  unfold keys Catalog.row
  cases s.mgr.catalog.lookup table with
  | none => simp
  | some tbl => simp [Table.mem_sortedKeys, Option.ne_none_iff_exists']

theorem ScanRun.keys_of_lookup {tbl : Table} (found : s.mgr.catalog.lookup table = some tbl) :
    s.keys table = tbl.sortedKeys := by
  rw [keys, found]
  rfl

/-- What a step does to the keys of a table. -/
inductive KeyStep (s s' : ScanRun) (a : ScanAction) (table : GoString) : Prop where
  | same (keys : ∀ k, k ∈ s'.keys table ↔ k ∈ s.keys table)
  | appear {y : GoString} (appears : s.appears a = some (table, y)) (absent : y ∉ s.keys table)
      (unfinished : s.Unfinished (s.actor a))
      (keys : ∀ k, k ∈ s'.keys table ↔ k ∈ s.keys table ∨ k = y)
  | vanish {y : GoString} (vanishes : s.vanishes a = some (table, y)) (there : y ∈ s.keys table)
      (locked : s.Unfinished (s.actor a) ∧ (s.locks.held (s.actor a)).get (.row table y) = some .x)
      (keys : ∀ k, k ∈ s'.keys table ↔ k ∈ s.keys table ∧ k ≠ y)

theorem ScanInv.keyStep (inv : ScanInv s) (writes : WriteLocks s) (pend : PendingInv s)
    (step : ScanStep s a s') (table : GoString) : KeyStep s s' a table := by
  by_cases all : ∀ k, k ∈ s'.keys table ↔ k ∈ s.keys table
  · exact .same all
  have differ {k : GoString} (changed : ¬ (k ∈ s'.keys table ↔ k ∈ s.keys table)) :
      s'.mgr.catalog.row table k ≠ s.mgr.catalog.row table k := fun eq =>
    changed (by rw [ScanRun.mem_keys, ScanRun.mem_keys, eq])
  obtain ⟨y, changed⟩ := not_forall.1 all
  obtain ⟨unfinished, locked, there, target, after⟩ := inv.row_change writes pend step (table, y) (differ changed)
  rw [← ScanRun.mem_keys] at after
  -- a step has one row only
  have others (k : GoString) (other : k ≠ y) : k ∈ s'.keys table ↔ k ∈ s.keys table := by
    by_contra changed'
    obtain ⟨-, -, there', target', -⟩ := inv.row_change writes pend step (table, k) (differ changed')
    rw [target] at target'
    cases target'
    exact other rfl
  cases there with
  | true =>
    have now : y ∈ s'.keys table := after.1 rfl
    have absent : y ∉ s.keys table := fun was => changed (iff_of_true now was)
    refine .appear ?_ absent unfinished fun k => ?_
    · have none : s.mgr.catalog.row table y = none := not_not.1 ((not_congr ScanRun.mem_keys).1 absent)
      simp [appears, target, none]
    · by_cases eq : k = y
      · simp [eq, now]
      · simp [others k eq, eq]
  | false =>
    have gone : y ∉ s'.keys table := fun now => by simpa using after.2 now
    have was : y ∈ s.keys table := by
      by_contra absent
      exact changed (iff_of_false gone absent)
    refine .vanish ?_ was ⟨unfinished, locked⟩ fun k => ?_
    · obtain ⟨values, row⟩ := Option.ne_none_iff_exists'.1 (ScanRun.mem_keys.1 was)
      simp [vanishes, target, row]
    · by_cases eq : k = y
      · simp [eq, gone]
      · simp [others k eq, eq]

section
variable (inv : ScanInv s) (writes : WriteLocks s) (pend : PendingInv s) (ok : s.GapLocked a)
  (moved : ScanStep s a s') (active : s.mgr.Active t) (ranged : .ranged t table lo hi ∈ s.hist)
include inv

/-- What another transaction has locked with X is not covered. -/
theorem ScanInv.not_covers {r : ResourceID} (unfinished : s.Unfinished (s.actor a)) (other : s.actor a ≠ t)
    (active : s.mgr.Active t) (locked : (s.locks.held (s.actor a)).get r = some .x) :
    ¬ Covers (s.locks.held t) (r, .s) := by
  rintro ⟨m, get, strong⟩
  exact other (inv.exclusive locked get (inv.before_release unfinished) (inv.before_release (.inl active)) strong)

include ok active ranged

/-- A key does not appear in a gap that another transaction has locked. -/
theorem ScanInv.gap_locked {y : GoString} (appears : s.appears a = some (table, y))
    (unfinished : s.Unfinished (s.actor a)) (other : s.actor a ≠ t) :
    ¬ Covers (s.locks.held t) (insertionGap table y (s.keys table), .s) := by
  have watched : s.Watched a table := ⟨t, Nat.lt_succ_of_le (inv.known (.inl active)), other.symm, active,
    any_eq_true.2 ⟨_, ranged, by simp [ScanEvent.ranges]⟩⟩
  exact inv.not_covers unfinished other active ((ok.2.1 _ appears).2 watched)

include writes pend moved

/-- What guards a range keeps guarding it, unless its own transaction changes the keys or a key vanishes
beside a gap of it. -/
theorem ScanRun.Guards.step (guards : s.Guards t table lo hi)
    (own : s.actor a = t → ∀ k, k ∈ s'.keys table ↔ k ∈ s.keys table)
    (sides : ∀ y, s.vanishes a = some (table, y) → inRange lo hi y = false →
      ∀ r ∈ sideGaps table y (s.keys table), ¬ Covers (s.locks.held t) (r, .s)) :
    s'.Guards t table lo hi := by
  have sorted := s.sorted_keys table
  have sorted' := s'.sorted_keys table
  refine Protects.mono ?_ fun q _ covers => inv.covers_step ok.1 moved covers (inv.before_release (.inl active))
  cases inv.keyStep writes pend moved table with
  | same keys => exact Protects.congr guards sorted sorted' keys
  | @appear y appears absent unfinished keys =>
    have other : s.actor a ≠ t := fun eq => absent ((own eq y).1 ((keys y).2 (.inr rfl)))
    exact Protects.appear guards sorted sorted' absent keys (inv.gap_locked ok active ranged appears unfinished other)
  | @vanish y vanishes there locked keys =>
    have other : s.actor a ≠ t := fun eq => ((keys y).1 ((own eq y).2 there)).2 rfl
    exact Protects.vanish guards sorted sorted' there keys (inv.not_covers locked.1 other active locked.2)
      (sides y vanishes)

/-- The others change no row of a range that is guarded. -/
theorem ScanRun.Guards.row_step (guards : s.Guards t table lo hi) (other : s.actor a ≠ t) {k : GoString}
    (within : inRange lo hi k = true) : s'.mgr.catalog.row table k = s.mgr.catalog.row table k := by
  by_contra changed
  obtain ⟨unfinished, locked, there, target, after⟩ := inv.row_change writes pend moved (table, k) changed
  by_cases present : k ∈ s.keys table
  · exact inv.not_covers unfinished other active locked ((guards k within).1 present)
  have none : s.mgr.catalog.row table k = none := not_not.1 ((not_congr mem_keys).1 present)
  have appears : s.appears a = some (table, k) := by
    rw [none] at changed
    have now := after.2 changed
    simp [appears, target, now, none]
  exact inv.gap_locked ok active ranged appears unfinished other ((guards k within).2 present)

end

/-- Where a call stands when its lock requests start again. -/
inductive Enters (s s' : ScanRun) (t : Nat) : ScanCall → Prop where
  | called {txn : Transaction} {o : TableOp} (active : s.mgr.txns.get t = some txn) :
      Enters s s' t (o.entry txn.isolation)
  | listed {done : List LockRequest} {table lo hi : GoString} {filter : Option RowFilter}
      (here : s.calls.get t = some (.locking done [] (.listRange table lo hi filter))) :
      Enters s s' t (.locking [] (lockForRangeScan table lo hi (s.keys table)) (.ranged table lo hi filter))
  | ranged {done : List LockRequest} {table lo hi : GoString} {filter : RowFilter}
      (here : s.calls.get t = some (.locking done [] (.ranged table lo hi (some filter))))
      (recorded : .ranged t table lo hi ∈ s'.hist) :
      Enters s s' t (.locking [] [] (.scan table filter))
  | listedInsert {done : List LockRequest} {row : RowRef}
      (here : s.calls.get t = some (.locking done [] (.listInsert row))) :
      Enters s s' t (.locking [] (lockForInsert row (s.keys row.1)) (.insertable row))

/-- The work that a call starts with. Only a serializable scan starts with the listing of the whole table. -/
def ScanTask.First (isolation : IsolationLevel) : ScanTask → Prop
  | .ranged .. | .insertable _ => False
  | .scan .. => isolation ≠ .serializable
  | .listRange _ lo hi filter => filter ≠ none → lo = [] ∧ hi = []
  | .read _ | .write .. | .listInsert _ => True

theorem TableOp.first_of_entry {o : TableOp} {isolation : IsolationLevel} {task : ScanTask}
    (at' : (o.entry isolation).task = some task) : task.First isolation := by
  cases o with
  | read row =>
    by_cases level : isolation = .readUncommitted <;> simp only [TableOp.entry, level, if_true, if_false] at at' <;>
      cases at' <;> trivial
  | scan => cases isolation <;> cases at' <;> simp [ScanTask.First]
  | write | lockForInsert =>
    cases at'
    trivial
  | lockForRangeScan =>
    cases at'
    exact absurd rfl

/-- The work of a call stays what it is until the call goes on to another. -/
theorem ScanInv.task_step (inv : ScanInv s) (step : ScanStep s a s') {call' : ScanCall} {task : ScanTask}
    (there : s'.calls.get t = some call') (at' : call'.task = some task) :
    (∃ call, s.calls.get t = some call ∧ call.task = some task ∧ call'.requests = call.requests) ∨
      Enters s s' t call' ∧ s'.mgr = s.mgr ∧ s'.locks = s.locks := by
  by_cases other : s.actor a ≠ t
  · rw [(inv.others step other).1] at there
    exact .inl ⟨call', there, at', rfl⟩
  have own := not_not.1 other
  subst own
  have no {y : Option ScanCall} (calls : s'.calls.get (s.actor a) = y) (idle : ∀ x ∈ y, x.task = none) : False := by
    rw [calls] at there
    rw [idle call' there] at at'
    cases at'
  cases step with
  | refused | begun | savepoint => exact .inl ⟨call', there, at', rfl⟩
  | locked here asks =>
    obtain ⟨requests, task, -⟩ := lockAction_moved asks (ScanRun.goes.symm.trans there)
    exact .inl ⟨_, here, task ▸ at', requests⟩
  | called active =>
    cases ScanRun.goes.symm.trans there
    exact .inr ⟨.called active, rfl, rfl⟩
  | listed _ here found =>
    cases ScanRun.goes.symm.trans there
    refine .inr ⟨?_, rfl, rfl⟩
    rw [← keys_of_lookup found]
    exact .listed here
  | listedInsert _ here found =>
    cases ScanRun.goes.symm.trans there
    refine .inr ⟨?_, rfl, rfl⟩
    rw [← keys_of_lookup found]
    exact .listedInsert here
  | @ranged _ _ _ _ _ _ filter _ here =>
    have now := ScanRun.goes.symm.trans there
    cases filter with
    | none => cases now
    | some =>
      cases now
      exact .inr ⟨.ranged here mem_cons_self, rfl, rfl⟩
  | rollback | undid | undidAborted | undone | commit | abort =>
    exact (no ScanRun.goes (by rintro x ⟨⟩; rfl)).elim
  | _ => exact (no ScanRun.goes (by simp)).elim

/-- The events are those of known transactions, and a range scan that takes its locks asks for what protects
the range. -/
structure RangeInv (s : ScanRun) : Prop where
  known : ∀ e ∈ s.hist, e.txn ≤ s.mgr.nextID
  listing : ∀ t call table lo hi filter, s.calls.get t = some call →
    call.task = some (.ranged table lo hi filter) → Protects table lo hi (s.keys table) (· ∈ call.requests)

theorem RangeInv.start (seed : Catalog) (maxActive : Nat) (wal : Option Wal.Log) :
    RangeInv (start seed maxActive wal) := by
  constructor
  · intro e mem
    cases mem
  · intro t call table lo hi filter here
    cases here

theorem ScanInv.event_step (inv : ScanInv s) (step : ScanStep s a s') :
    s'.hist = s.hist ∨ ∃ e : ScanEvent, s'.hist = e :: s.hist ∧ e.txn = s.actor a ∧ s.mgr.Active e.txn := by
  cases step with
  | read active | wrote active | scanned active | ranged active | insertable active | commit active
  | abort active => exact .inr ⟨_, rfl, rfl, active_of_get active⟩
  | undid here => exact .inr ⟨_, rfl, rfl, (inv.calls _ _ here).2.2 trivial⟩
  | _ => exact .inl rfl

section
variable (ranges : RangeInv s) (inv : ScanInv s)
include ranges inv

theorem RangeInv.known_step (step : ScanStep s a s') : ∀ e ∈ s'.hist, e.txn ≤ s.mgr.nextID := by
  intro e mem
  rcases inv.event_step step with same | ⟨new, grown, -, active⟩
  · exact ranges.known e (same ▸ mem)
  · rw [grown] at mem
    rcases mem_cons.1 mem with rfl | old
    · exact inv.known (.inl active)
    · exact ranges.known e old

theorem RangeInv.step (writes : WriteLocks s) (pend : PendingInv s) (ok : s.GapLocked a) (step : ScanStep s a s') :
    RangeInv s' := by
  constructor
  · exact fun e mem => (ranges.known_step inv step e mem).trans step.nextID_le
  intro t call' table lo hi filter there at'
  rcases inv.task_step step there at' with ⟨call, here, task, requests⟩ | ⟨enters, mgr, -⟩
  · rw [requests]
    have was := ranges.listing t call table lo hi filter here task
    have loud : ¬ s.Quiet table := fun quiet => by
      have := quiet t (Nat.lt_succ_of_le (inv.calls t call here).1) call here
      simp [ranging, task] at this
    cases inv.keyStep writes pend step table with
    | same keys => exact Protects.congr was (s.sorted_keys table) (s'.sorted_keys table) keys
    | appear appears => exact absurd (ok.2.1 _ appears).1 loud
    | vanish vanishes => exact absurd (ok.2.2 _ vanishes) loud
  · have keys : s'.keys table = s.keys table := by rw [ScanRun.keys, mgr, ScanRun.keys]
    cases enters with
    | listed =>
      cases at'
      rw [keys]
      exact protects_lockForRangeScan (s.sorted_keys table)
    | ranged | listedInsert => cases at'
    | called => exact (TableOp.first_of_entry at').elim

/-- A range scan that has its locks guards the range. -/
theorem RangeInv.guards {done : List LockRequest} {filter : Option RowFilter}
    (here : s.calls.get t = some (.locking done [] (.ranged table lo hi filter))) : s.Guards t table lo hi := by
  refine (ranges.listing t _ table lo hi filter here rfl).mono fun q _ mem => ?_
  exact inv.covered t _ here q (by simpa [requests, granted] using mem)

end

end

end TransactionManager.Txn
