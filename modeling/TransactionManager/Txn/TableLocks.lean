import TransactionManager.Txn.ScanLocks

/-!
# Table locks of writers

A transaction that has changed a row of a table holds IX on the table, and nobody else holds a
mode that reads or writes the whole table. `LockStrength` puts S above IX: a writer that has
scanned the table at repeatable read already holds enough to skip the request for IX, and a
scan after a write trades IX for S.
-/

namespace TransactionManager.Txn
open Lib TransactionManager.Types Lock List Option Storage Wal ScanRun ScanCall

namespace ScanRun

/-- The queue of the resource has a granted request of the transaction in the mode. -/
def Grants (s : ScanRun) (t : Nat) (r : ResourceID) (m : Mode) : Prop :=
  ∃ addr, s.locks.table.get r.name = some addr ∧ ∃ e ∈ (s.locks.heap addr).granted, e.txnID = t ∧ e.mode = m

/-- A running transaction that has changed a row of a table holds IX, SIX or X on it, and no other holds S, SIX or X.
-/
def TableLocked (s : ScanRun) : Prop := ∀ t txn e, s.mgr.txns.get t = some txn → e ∈ txn.undoLog →
    (∃ m, (m = .ix ∨ m = .six ∨ m = .x) ∧ s.Grants t (.table e.table) m) ∧
    ∀ u m, u ≠ t → s.Grants u (.table e.table) m → m ≠ .s ∧ m ≠ .six ∧ m ≠ .x

/-- The request does not combine IX on a table with a stronger mode of the transaction. -/
def FitsTableMode (s : ScanRun) : Call → Prop
  | .acquire t (.table name) mode _ => ∀ existing ∈ (s.locks.held t).get (.table name),
      (existing = .ix → lockStrength mode ≤ lockStrength .ix) ∧
      (mode = .ix → lockStrength existing ≤ lockStrength .ix)
  | _ => True

instance (s : ScanRun) (call : Call) : Decidable (s.FitsTableMode call) := by
  unfold FitsTableMode
  split <;> infer_instance

/-- The orderly steps in which no transaction combines IX on a table with a stronger mode. -/
def Unmixed (s : ScanRun) (a : ScanAction) : Prop :=
  s.Orderly a ∧ ∀ l ∈ s.lockStep a, ∀ c ∈ l.entering, ∀ call ∈ s.locks.calls.get c, s.FitsTableMode call

instance (s : ScanRun) (a : ScanAction) : Decidable (s.Unmixed a) := inferInstanceAs (Decidable (_ ∧ _))

/-- The transaction has written a row of the table and is unfinished, or its call has been given IX
on the table. -/
def Intends (s : ScanRun) (t : Nat) (name : GoString) : Prop := (s.Unfinished t ∧ ∃ key, s.Wrote t (name, key)) ∨
    ∃ call, s.calls.get t = some call ∧ (.table name, .ix) ∈ call.granted

/-- Who intends to write rows of a table holds IX on it. -/
def TablesHeld (s : ScanRun) : Prop := ∀ t name, s.Intends t name → (s.locks.held t).get (.table name) = some .ix

def UndoWritten (s : ScanRun) : Prop :=
  ∀ t txn, s.mgr.txns.get t = some txn → ∀ e ∈ txn.undoLog, s.Wrote t (e.table, e.key)

end ScanRun

section
variable {s s' : ScanRun} {a : ScanAction} {t : Nat}

/-- IX is kept when it is not combined with a stronger mode. -/
theorem ScanInv.intention_step (inv : ScanInv s) (ok : s.Unmixed a) (step : ScanStep s a s') {name : GoString}
    (get : (s.locks.held t).get (.table name) = some .ix) (before : ∀ prev, s.calls.get t ≠ some (.releasing prev)) :
    (s'.locks.held t).get (.table name) = some .ix := by
  rcases inv.held_step step get before with same | ⟨done, mode, todo, task, addr, rfl, here, found, less, -⟩
  · exact same
  · have fits := ok.2 (.enter t) (by simp [lockStep, here, lockAction]) t rfl _ found
    exact absurd ((fits .ix get).1 rfl) (Nat.not_le.2 less)

theorem ScanRun.TablesHeld.step (tables : s.TablesHeld) (inv : ScanInv s) (writes : WriteLocks s)
    (ok : s.Unmixed a) (step : ScanStep s a s') : s'.TablesHeld := by
  intro t name intends
  rcases intends with ⟨unfinished, key, wrote⟩ | ⟨call', there, mem⟩
  · rcases step.wrote_step wrote with old | ⟨done, values, op, active, here⟩
    · rcases inv.unfinished_step step unfinished with was | new
      · exact inv.intention_step ok step (tables t name (.inl ⟨was, key, old⟩)) (inv.before_release was)
      · exact absurd (writes.known t _ old) (Nat.not_le.2 new)
    · have asked := (inv.covers_write here active).1
      refine inv.intention_step ok step (tables t _ (.inr ⟨_, here, ?_⟩)) (by rw [here]; simp)
      simp [granted, asked]
  · rcases inv.granted_step step there mem with
      ⟨call, here, old⟩ | ⟨⟨done, todo, task, here⟩, m, get, strong, rfl | ⟨rfl, held, addr, found⟩⟩
    · refine inv.intention_step ok step (tables t name (.inr ⟨call, here, old⟩)) fun prev now => ?_
      rw [here] at now
      cases now
      cases old
    · exact get
    · have fits := ok.2 (.enter t) (by simp [lockStep, here, lockAction]) t rfl _ found
      have weak := (fits m held).2 rfl
      have same : ∀ m : Mode, lockStrength m ≤ lockStrength .ix → lockStrength .ix ≤ lockStrength m → m = .ix := by
        decide
      rw [get, same m weak strong]

theorem ScanRun.TablesHeld.start (seed : Catalog) (maxActive : Nat) (wal : Option Log) :
    (start seed maxActive wal).TablesHeld := by
  rintro t name (⟨-, key, op, values, mem⟩ | ⟨call, here, -⟩)
  · cases mem
  · cases here

theorem ScanRun.UndoWritten.step (written : s.UndoWritten) (inv : ScanInv s) (step : ScanStep s a s') :
    s'.UndoWritten := by
  intro t txn' found' e mem
  rcases inv.txn_step step found' with ⟨txn, found, -, log⟩ | ⟨-, -, empty⟩
  · rcases log e mem with old | new
    · obtain ⟨op, values, mem⟩ := written t txn found e old
      exact ⟨op, values, step.hist_sub _ mem⟩
    · exact new
  · rw [empty] at mem
    cases mem

/-- Who holds IX on a table is granted IX, and the others' grants are compatible with it. -/
theorem ScanRun.TablesHeld.tableLocked (tables : s.TablesHeld) (inv : ScanInv s) (written : s.UndoWritten) :
    s.TableLocked := by
  intro t txn e active mem
  have unfinished : s.Unfinished t := .inl (active_of_get active)
  have get := tables t e.table (.inl ⟨unfinished, e.key, written t txn active e mem⟩)
  obtain ⟨addr, at', g, granted, own, mode⟩ :=
    (inv.locks.txns t).holds _ _ (inv.holds get (inv.before_release unfinished))
  refine ⟨⟨.ix, .inl rfl, addr, at', g, granted, own, mode⟩, ?_⟩
  rintro u m other ⟨addr', at'', g', granted', own', rfl⟩
  rw [at'] at at''
  cases at''
  have compatible := inv.locks.compatible granted granted' own own' (Ne.symm other)
  rw [mode] at compatible
  have intention : ∀ m : Mode, lockCompatible .ix m = true → m ≠ .s ∧ m ≠ .six ∧ m ≠ .x := by decide
  exact intention _ compatible

end

/-- In every run in which no transaction combines IX on a table with a stronger mode, the writers hold
their tables. -/
theorem tableLocked_of_unmixed {seed : Catalog} {maxActive : Nat} {wal : Option Log}
    {s : ScanRun} (reached : Reach ScanRun.next Unmixed (.start seed maxActive wal) s) :
    s.TableLocked := by
  have inv : ScanInv s ∧ WriteLocks s ∧ s.TablesHeld ∧ s.UndoWritten := by
    induction reached with
    | refl =>
      exact ⟨.start .., .start .., .start seed maxActive wal, nofun⟩
    | step _ ok taken now =>
      obtain ⟨inv, writes, tables, written⟩ := now
      have step := next_step taken
      exact ⟨inv.step ok.1 step, writes.step inv step, tables.step inv writes ok step, written.step inv step⟩
  obtain ⟨inv, -, tables, written⟩ := inv
  exact tables.tableLocked inv written

def stock : Catalog := (∅ : Catalog).set [99] ((∅ : Table).set [49] (some [intVal 1]))

/-- The steps of a call whose locks are free, up to its work. -/
def callSteps (t : Nat) (o : TableOp) (requests : Nat) : List ScanAction :=
  .call t o :: (List.replicate requests [.lock t .request, .lock t .enter]).flatten ++ [.run t]

/-- A writer and a reader of another row share the table. -/
theorem tableLocked_shared : ∃ s, Reach ScanRun.next Unmixed (.start stock 0 none) s ∧
    (∃ txn e, s.mgr.txns.get 1 = some txn ∧ e ∈ txn.undoLog) ∧ s.TableLocked := by
  obtain ⟨s, reached, log, -⟩ := Reach.exists_such ScanRun.next Unmixed (.start stock 0 none)
    ([.begin .repeatableRead, .begin .repeatableRead] ++
      callSteps 1 (.write ([99], [49]) (some [intVal 2]) .update) 2 ++ callSteps 2 (.read ([99], [50])) 2)
    (fun s => (s.mgr.txns.get 1).map (·.undoLog.length) = some 1 ∧
      (s.locks.held 2).get (.table [99]) = some .is) (by decide)
  obtain ⟨txn, active, one⟩ := map_eq_some_iff.1 log
  obtain ⟨e, only⟩ := length_eq_one_iff.1 one
  exact ⟨s, reached, ⟨txn, e, active, by rw [only]; exact mem_singleton_self e⟩, tableLocked_of_unmixed reached⟩

/-- A transaction scans the table at repeatable read and then updates a row: it holds S and asks for no
IX. -/
theorem not_tableLocked : ¬ ∀ (seed : Catalog) (maxActive : Nat) (wal : Option Log) (s : ScanRun),
    Reach ScanRun.next Orderly (.start seed maxActive wal) s → s.TableLocked := by
  intro claim
  obtain ⟨s, reached, txn, active, wrote, shared⟩ := Reach.exists_such ScanRun.next Orderly (.start stock 0 none)
    ([.begin .repeatableRead] ++ callSteps 1 (.scan [99] fun _ _ => true) 1 ++
      callSteps 1 (.write ([99], [49]) (some [intVal 2]) .update) 2)
    (fun s => ∃ txn ∈ s.mgr.txns.get 1, ⟨.update, [99], [49], some [intVal 1], 0⟩ ∈ txn.undoLog ∧
      ∀ addr ∈ s.locks.table.get (ResourceID.table [99]).name, ∀ e ∈ (s.locks.heap addr).granted, e.mode = .s) (by decide)
  obtain ⟨m, modes, addr, at', e, mem, -, mode⟩ := (claim stock 0 none s reached 1 txn _ active wrote).1
  rw [shared addr at' e mem] at mode
  subst mode
  simp at modes

end TransactionManager.Txn
