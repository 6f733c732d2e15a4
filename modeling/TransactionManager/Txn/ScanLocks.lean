import TransactionManager.Txn.ScanInv

/-!
# What a transaction keeps locked

A transaction holds X on every row it has changed until its changes are undone or it has
committed: X is the strongest mode, so no upgrade gives it up. A step of one transaction leaves the
records, the call and the held set of the others alone.
-/

namespace TransactionManager.Txn
open Lib TransactionManager.Types Lock List GoMap Option ScanRun ScanCall

/-- The transaction that makes the step, the new one for `begin`. -/
def ScanRun.actor (s : ScanRun) : ScanAction → Nat
  | .begin _ => s.mgr.nextID + 1
  | .call t _ | .lock t _ | .run t | .savepoint t _ | .rollback t _ | .undo t | .commit t | .abort t
  | .finish t => t

/-- The call undoes no changes. -/
def ScanCall.Plain : ScanCall → Prop
  | .rollback .. | .undo .. => False
  | .locking .. | .acquiring .. | .release _ | .releasing _ => True

theorem ScanCall.plain_of_lockAction {t : Nat} {call : ScanCall} {move : LockMove} {l : LockAction}
    {returned : Bool} (asks : call.lockAction t move = some l) :
    call.Plain ∧ ∀ x ∈ call.moved returned move, x.Plain := by
  unfold lockAction at asks
  split at asks <;> cases asks <;> cases returned <;> refine ⟨trivial, ?_⟩ <;> rintro x ⟨⟩ <;> trivial

namespace ScanRun

/-- The transaction is running, or its abort has changes to undo. -/
def Unfinished (s : ScanRun) (t : Nat) : Prop :=
  s.mgr.Active t ∨ ∃ txn rest clr, s.calls.get t = some (.undo txn rest clr)

def Wrote (s : ScanRun) (t : Nat) (row : RowRef) : Prop := ∃ op values, ScanEvent.write t row op values ∈ s.hist

end ScanRun

section
variable {s s' : ScanRun} {a : ScanAction} {t : Nat} {r : ResourceID} {m : Mode}

section
variable (inv : ScanInv s)
include inv

namespace ScanInv

theorem others (step : ScanStep s a s') {u : Nat} (other : s.actor a ≠ u) :
    s'.calls.get u = s.calls.get u ∧ s'.mgr.txns.get u = s.mgr.txns.get u ∧ s'.locks.held u = s.locks.held u := by
  have away {t : Nat} (eq : s.actor a = t) : u ≠ t := fun own => other (own ▸ eq)
  have elsewhere {t : Nat} (eq : s.actor a = t) {x : ScanRun} {y : Option ScanCall} :
      (x.goto t y).calls.get u = x.calls.get u := (get_goto ..).trans (if_neg (away eq))
  cases step with
  | refused => exact ⟨rfl, rfl, rfl⟩
  | begun begun =>
    obtain ⟨last, txns⟩ := begun.txns
    refine ⟨rfl, ?_, rfl⟩
    exact (congrArg (get · u) txns).trans ((get_set ..).trans (if_neg (away rfl)))
  | @locked t _ _ _ _ _ asks taken =>
    refine ⟨elsewhere rfl, rfl, (LockRun.next_step taken).held_other fun x mem own => ?_⟩
    rw [lockAction_call asks] at mem
    exact away rfl (own ▸ (inv.fits t).own x mem)
  | @wrote t txn _ _ _ active _ written =>
    obtain ⟨last, lsn, txns⟩ := written.txns
    refine ⟨elsewhere rfl, ?_, rfl⟩
    rw [(inv.ids t txn active).1] at txns
    exact (congrArg (get · u) txns).trans ((get_set ..).trans (if_neg (away rfl)))
  | @savepoint t txn _ active =>
    refine ⟨rfl, (get_set ..).trans (if_neg ?_), rfl⟩
    exact (inv.ids t txn active).1 ▸ away rfl
  | undid here | undidAborted here =>
    exact ⟨elsewhere rfl, congrArg (get · u) (s.mgr.undoEntry_spec ..).1.txns, rfl⟩
  | @rolledBack t txn _ _ active =>
    refine ⟨elsewhere rfl, (get_set ..).trans (if_neg ?_), rfl⟩
    exact (inv.ids t txn active).1 ▸ away rfl
  | @commit t _ m _ _ logged =>
    refine ⟨elsewhere rfl, ?_, rfl⟩
    have txns : (m.markCommitted t).txns = s.mgr.txns.delete t := congrArg (delete · t) logged.txns
    exact (congrArg (get · u) txns).trans ((get_delete ..).trans (if_neg (away rfl)))
  | abort => exact ⟨elsewhere rfl, (get_delete ..).trans (if_neg (away rfl)), rfl⟩
  | finish _ _ logged =>
    exact ⟨elsewhere rfl, congrArg (get · u) logged.txns, rfl⟩
  | _ =>
    exact ⟨elsewhere rfl, rfl, rfl⟩

/-- What is held stays held until the release, but for an upgrade that the transaction makes. -/
theorem held_step (step : ScanStep s a s')
    (get : (s.locks.held t).get r = some m) (before : ∀ prev, s.calls.get t ≠ some (.releasing prev)) :
    (s'.locks.held t).get r = some m ∨ ∃ done mode todo task addr, a = .lock t .enter ∧
      s.calls.get t = some (.acquiring done r mode todo task) ∧
      s.locks.calls.get t = some (.acquire t r mode addr) ∧ lockStrength m < lockStrength mode ∧
      ((s'.locks.held t).get r = some mode ∨
        (s'.locks.held t).get r = none ∧ (s.locks.heap addr).canGrant mode t = false) := by
  cases step with
  | @locked u call move a l here asks taken =>
    rcases (LockRun.next_step taken).held_of_get inv.locks get (inv.not_beingReleased before r) with
      same | up
    · exact .inl same
    right
    obtain ⟨done, mode, todo, task, addr, rfl, now, found, less, result⟩ := inv.upgraded up
    have own : t = u := lockAction_call asks
    subst own
    have enters : move = .enter := by
      rw [here] at now
      cases now
      cases move <;> cases asks
      rfl
    exact ⟨done, mode, todo, task, addr, enters ▸ rfl, now, found, less, result⟩
  | _ => exact .inl get

/-- X is never given up for an upgrade. -/
theorem exclusive_step (step : ScanStep s a s')
    (get : (s.locks.held t).get r = some .x) (before : ∀ prev, s.calls.get t ≠ some (.releasing prev)) :
    (s'.locks.held t).get r = some .x := by
  rcases inv.held_step step get before with same | ⟨-, mode, -, -, -, -, -, -, less, -⟩
  · exact same
  · have top : ∀ m : Mode, ¬ lockStrength .x < lockStrength m := by decide
    exact absurd less (top mode)

/-- When no upgrade waits, what is held stays held as strong or stronger. -/
theorem covers_step (steady : s.Steady a) (step : ScanStep s a s') {q : LockRequest}
    (covers : Covers (s.locks.held t) q) (before : ∀ prev, s.calls.get t ≠ some (.releasing prev)) :
    Covers (s'.locks.held t) q := by
  obtain ⟨m, get, strong⟩ := covers
  rcases inv.held_step step get before with
    same | ⟨done, mode, todo, task, addr, rfl, here, found, less, now | ⟨-, cannot⟩⟩
  · exact ⟨m, same, strong⟩
  · exact ⟨mode, now, by omega⟩
  · have fits := (steady (.enter t) (by simp [lockStep, here, lockAction])).2 t rfl _ found
    rw [fits m get less] at cannot
    cases cannot

theorem ended {call : ScanCall} (here : s.calls.get t = some call)
    (not : ¬ call.Running) : s.mgr.txns.get t = none := by
  cases found : s.mgr.txns.get t with
  | none => rfl
  | some txn => exact absurd ((inv.calls t _ here).2.1 (active_of_get found)) not

/-- An unfinished transaction has not come to its release. -/
theorem before_release (unfinished : s.Unfinished t) (prev : Option Nat) :
    s.calls.get t ≠ some (.releasing prev) := by
  intro here
  rcases unfinished with active | ⟨txn, rest, clr, undo⟩
  · exact ((inv.calls t _ here).2.1 active).elim
  · rw [here] at undo
    cases undo

theorem known (unfinished : s.Unfinished t) : t ≤ s.mgr.nextID := by
  rcases unfinished with active | ⟨txn, rest, clr, undo⟩
  · obtain ⟨txn, found⟩ := isSome_iff_exists.1 active
    exact (inv.ids t txn found).2
  · exact (inv.calls t _ undo).1

end ScanInv

section
variable (step : ScanStep s a s')
include step

/-- A transaction that is unfinished was so before the step, unless it has just begun. -/
theorem ScanInv.unfinished_step (after : s'.Unfinished t) : s.Unfinished t ∨ s.mgr.nextID < t := by
  by_cases other : s.actor a ≠ t
  · obtain ⟨calls, txns, -⟩ := inv.others step other
    unfold Unfinished Manager.Active at after ⊢
    rw [calls, txns] at after
    exact .inl after
  have own := not_not.1 other
  subst own
  cases step with
  | refused => exact .inl after
  | begun => exact .inr (Nat.lt_succ_self _)
  | called active | read active | wrote active | scanned active | listed active | ranged active
  | listedInsert active | insertable active | failed active | savepoint active | rollback active
  | rolledBack active | commit active | abort active => exact .inl (.inl (active_of_get active))
  | undid here => exact .inl (.inl ((inv.calls _ _ here).2.2 trivial))
  | undidAborted here | undone here => exact .inl (.inr ⟨_, _, _, here⟩)
  | @locked t _ _ _ _ _ asks =>
    left
    rcases after with active | ⟨txn, rest, clr, undo⟩
    · exact .inl active
    · have moved := (get_goto t).symm.trans undo
      rw [if_pos rfl] at moved
      exact ((plain_of_lockAction asks).2 _ moved).elim
  | @finish t _ _ _ _ logged =>
    left
    rcases after with active | ⟨txn, rest, clr, undo⟩
    · exact .inl ((logged.active t).1 active)
    · have moved := (get_goto t).symm.trans undo
      rw [if_pos rfl] at moved
      cases moved

omit inv in
theorem ScanStep.hist_sub : ∀ e ∈ s.hist, e ∈ s'.hist := by
  intro e mem
  cases step with
  | read | wrote | scanned | ranged | insertable | undid | commit | abort =>
    exact mem_cons_of_mem _ mem
  | _ => exact mem

/-- The record of a transaction was there before the step, with the same level and all but what a write adds to the
undo log, or it is new. -/
theorem ScanInv.txn_step {txn' : Transaction} (found' : s'.mgr.txns.get t = some txn') :
    (∃ txn, s.mgr.txns.get t = some txn ∧ txn'.isolation = txn.isolation ∧
      ∀ e ∈ txn'.undoLog, e ∈ txn.undoLog ∨ s'.Wrote t (e.table, e.key)) ∨
    (s.mgr.nextID < t ∧ a = .begin txn'.isolation ∧ txn'.undoLog = []) := by
  have kept {t : Nat} {txn txn' : Transaction} (active : s.mgr.txns.get t = some txn)
      (level : txn'.isolation = txn.isolation) (log : ∀ e ∈ txn'.undoLog, e ∈ txn.undoLog) :
      ∃ txn, s.mgr.txns.get t = some txn ∧ txn'.isolation = txn.isolation ∧
        ∀ e ∈ txn'.undoLog, e ∈ txn.undoLog ∨ s'.Wrote t (e.table, e.key) :=
    ⟨txn, active, level, fun e mem => .inl (log e mem)⟩
  by_cases other : s.actor a ≠ t
  · rw [(inv.others step other).2.1] at found'
    exact .inl (kept found' rfl fun e => id)
  have own := not_not.1 other
  subst own
  cases step with
  | begun begun =>
    obtain ⟨last, txns⟩ := begun.txns
    have new := ((congrArg (GoMap.get · _) txns).trans ((get_set ..).trans (if_pos rfl))).symm.trans found'
    cases new
    exact .inr ⟨Nat.lt_succ_self _, rfl, rfl⟩
  | @wrote t txn _ w _ active _ wrote =>
    obtain ⟨last, lsn, txns⟩ := wrote.txns
    rw [(inv.ids t txn active).1] at txns
    have new := ((congrArg (GoMap.get · t) txns).trans ((get_set ..).trans (if_pos rfl))).symm.trans found'
    cases new
    refine .inl ⟨txn, active, rfl, fun e mem => ?_⟩
    rcases mem_append.1 mem with old | last
    · exact .inl old
    · rw [mem_singleton.1 last]
      exact .inr ⟨w.op, w.values, mem_cons_self⟩
  | @savepoint t txn _ active =>
    have new := ((get_set ..).trans (if_pos (inv.ids t txn active).1.symm)).symm.trans found'
    cases new
    exact .inl (kept active rfl fun e => id)
  | @rolledBack t txn _ _ active =>
    have new := ((get_set ..).trans (if_pos (inv.ids t txn active).1.symm)).symm.trans found'
    cases new
    exact .inl (kept active rfl fun e => mem_of_mem_take)
  | undid here | undidAborted here =>
    have same := (congrArg (GoMap.get · _) (s.mgr.undoEntry_spec ..).1.txns).symm.trans found'
    exact .inl (kept same rfl fun e => id)
  | commit | abort =>
    have gone := ((get_delete ..).trans (if_pos rfl)).symm.trans found'
    cases gone
  | finish _ _ logged =>
    exact .inl (kept ((congrArg (GoMap.get · _) logged.txns).symm.trans found') rfl fun e => id)
  | _ => exact .inl (kept found' rfl fun e => id)

/-- A transaction that is running was so before the step, unless it has just begun. -/
theorem ScanInv.active_step (active' : s'.mgr.Active t) : s.mgr.Active t ∨ s.mgr.nextID < t := by
  obtain ⟨txn', found'⟩ := isSome_iff_exists.1 active'
  rcases inv.txn_step step found' with ⟨txn, found, -⟩ | ⟨new, -⟩
  · exact .inl (active_of_get found)
  · exact .inr new

omit inv in
/-- Only the work of a write adds a write to the history. -/
theorem ScanStep.wrote_step {row : RowRef} (after : s'.Wrote t row) : s.Wrote t row ∨ ∃ done values op, s.mgr.Active t ∧
      s.calls.get t = some (.locking done [] (.write row values op)) := by
  obtain ⟨op, values, mem⟩ := after
  have other {e : ScanEvent} (mem : .write t row op values ∈ e :: s.hist)
      (not : .write t row op values ≠ e) : s.Wrote t row :=
    ⟨op, values, mem_of_ne_of_mem not mem⟩
  cases step with
  | wrote active here =>
    rcases mem_cons.1 mem with eq | old
    · cases eq
      exact .inr ⟨_, _, _, active_of_get active, here⟩
    · exact .inl ⟨op, values, old⟩
  | read | scanned | ranged | insertable | undid | commit | abort => exact .inl (other mem (by simp))
  | _ => exact .inl ⟨op, values, mem⟩

/-- A call has the locks it had, and those that a lock step gives it. -/
theorem ScanInv.granted_step {call' : ScanCall}
    (there : s'.calls.get t = some call') {q : LockRequest} (mem : q ∈ call'.granted) :
    (∃ call, s.calls.get t = some call ∧ q ∈ call.granted) ∨
      (∃ done todo task, s.calls.get t = some (.acquiring done q.1 q.2 todo task)) ∧
      ∃ m, (s'.locks.held t).get q.1 = some m ∧ lockStrength q.2 ≤ lockStrength m ∧
        (m = q.2 ∨ a = .lock t .enter ∧ (s.locks.held t).get q.1 = some m ∧
          ∃ addr, s.locks.calls.get t = some (.acquire t q.1 q.2 addr)) := by
  by_cases other : s.actor a ≠ t
  · rw [(inv.others step other).1] at there
    exact .inl ⟨call', there, mem⟩
  have own := not_not.1 other
  subst own
  have none {y : Option ScanCall} (calls : s'.calls.get (s.actor a) = y) (empty : ∀ x ∈ y, x.granted = []) :
      False := by
    rw [calls] at there
    rw [empty call' there] at mem
    cases mem
  cases step with
  | refused | begun | savepoint => exact .inl ⟨call', there, mem⟩
  | locked here asks taken =>
    rcases inv.granted_locked here asks taken (ScanRun.goes.symm.trans there) mem with
      old | ⟨⟨done, todo, task, rfl⟩, m, get, strong, mode | ⟨rfl, held, found⟩⟩
    · exact .inl ⟨_, here, old⟩
    · exact .inr ⟨⟨done, todo, task, here⟩, m, get, strong, .inl mode⟩
    · exact .inr ⟨⟨done, todo, task, here⟩, m, get, strong, .inr ⟨rfl, held, found⟩⟩
  | @called _ txn o =>
    obtain ⟨todo, task, eq, -⟩ := o.entry_spec txn.isolation
    refine (none ScanRun.goes ?_).elim
    rw [eq]
    rintro x ⟨⟩
    rfl
  | @ranged _ _ _ _ _ _ filter =>
    refine (none ScanRun.goes ?_).elim
    cases filter with
    | none => simp
    | some =>
      rintro x ⟨⟩
      rfl
  | read | wrote | scanned | insertable | failed | rolledBack | finish => exact (none ScanRun.goes (by simp)).elim
  | _ =>
    exact (none ScanRun.goes (by rintro x ⟨⟩; rfl)).elim

end

/-- What a write asked for. -/
theorem ScanInv.covers_write {done : List LockRequest} {row : RowRef} {values : RowData}
    {op : UndoOpType} (here : s.calls.get t = some (.locking done [] (.write row values op)))
    (active : s.mgr.Active t) : done = [(.table row.1, .ix), (.row row.1 row.2, .x)] ∧
      (s.locks.held t).get (.row row.1 row.2) = some .x := by
  obtain ⟨txn, found⟩ := isSome_iff_exists.1 active
  have asks : done ++ [] = _ := inv.asks t txn _ _ found here rfl
  rw [append_nil] at asks
  subst asks
  obtain ⟨m, get, strong⟩ := inv.covered t _ here (.row row.1 row.2, .x) (by simp [granted])
  have top : ∀ m : Mode, lockStrength .x ≤ lockStrength m → m = .x := by decide
  rw [get, top m strong]
  exact ⟨rfl, rfl⟩

end

/-- An unfinished transaction holds X on the rows it has written. -/
structure WriteLocks (s : ScanRun) : Prop where
  known : ∀ t row, s.Wrote t row → t ≤ s.mgr.nextID
  rows : ∀ t row, s.Unfinished t → s.Wrote t row → (s.locks.held t).get (.row row.1 row.2) = some .x

theorem ScanStep.nextID_le (step : ScanStep s a s') : s.mgr.nextID ≤ s'.mgr.nextID := by
  cases step with
  | begun begun => exact (Nat.le_succ _).trans begun.nextID.ge
  | wrote _ _ written => exact written.nextID.ge
  | undid here | undidAborted here => exact (s.mgr.undoEntry_spec ..).1.nextID.ge
  | commit active idle logged | finish here returned logged => exact logged.nextID.ge
  | _ => exact le_rfl

theorem WriteLocks.step (writes : WriteLocks s) (inv : ScanInv s) (step : ScanStep s a s') : WriteLocks s' := by
  refine ⟨fun t row wrote => ?_, fun t row unfinished wrote => ?_⟩
  · have bound : t ≤ s.mgr.nextID := by
      rcases step.wrote_step wrote with old | ⟨done, values, op, -, here⟩
      · exact writes.known t row old
      · exact (inv.calls t _ here).1
    exact bound.trans (step.nextID_le)
  · rcases step.wrote_step wrote with old | ⟨done, values, op, active, here⟩
    · rcases inv.unfinished_step step unfinished with was | new
      · exact inv.exclusive_step step (writes.rows t row was old) (inv.before_release was)
      · exact absurd (writes.known t row old) (Nat.not_le.2 new)
    · exact inv.exclusive_step step (inv.covers_write here active).2 (by rw [here]; simp)

theorem WriteLocks.start (seed : Storage.Catalog) (maxActive : Nat) (wal : Option Wal.Log) :
    WriteLocks (start seed maxActive wal) := by
  constructor
  · rintro t row ⟨op, values, mem⟩
    cases mem
  · rintro t row - ⟨op, values, mem⟩
    cases mem

/-- What is in the held set before the release is held. -/
theorem ScanInv.holds (inv : ScanInv s) (get : (s.locks.held t).get r = some m)
    (before : ∀ prev, s.calls.get t ≠ some (.releasing prev)) : s.locks.Holds t r m := by
  refine ⟨get, ?_⟩
  rintro ⟨c, rest, reaping | forgetting⟩
  · exact inv.not_beingReleased before r ⟨c, _, reaping, rfl, mem_cons_self⟩
  · exact inv.not_beingReleased before r ⟨c, _, forgetting, rfl, mem_cons_self⟩

/-- X on a resource keeps the readers of it out. -/
theorem ScanInv.exclusive (inv : ScanInv s) {u : Nat} (one : (s.locks.held t).get r = some .x)
    (two : (s.locks.held u).get r = some m) (before : ∀ prev, s.calls.get t ≠ some (.releasing prev))
    (before' : ∀ prev, s.calls.get u ≠ some (.releasing prev)) (strong : lockStrength .s ≤ lockStrength m) :
    t = u := by
  by_contra differ
  have compatible := inv.locks.mutualExclusion t u r .x m differ (inv.holds one before) (inv.holds two before')
  have conflict : ∀ m : Mode, lockStrength .s ≤ lockStrength m → lockCompatible .x m = false := by decide
  rw [conflict m strong] at compatible
  cases compatible

end

end TransactionManager.Txn
