import TransactionManager.Txn.CleanReads
import TransactionManager.Txn.RangeLocks

/-!
# Phantoms under serializable 2PL

A serializable scan locks the rows and the gaps of the whole table. `TwoPLWrite` takes no gap lock, and no
caller of it takes one with `LockForInsert`, so a row that another transaction inserts comes up in the
next scan. When the keys appear in gaps that their transaction has locked, the rows stay as they were.
-/

namespace TransactionManager.Txn
open Lib TransactionManager.Types Lock List Storage Wal ScanRun ScanEvent

def ScanEvent.touches (t : Nat) : ScanEvent → Bool
  | .write t' .. | .undo t' _ => t' = t
  | _ => false

/-- Every serializable scan returns what an earlier one of the same transaction, table and filter returned, unless the
transaction has changed a row in between. -/
def NoPhantoms : List ScanEvent → Prop
  | [] => True
  | e :: older => (∀ t table filter rows, e = .scan t .serializable table filter rows →
      ∀ newer rest rows', older = newer ++ .scan t .serializable table filter rows' :: rest →
        (∀ e ∈ newer, e.touches t = false) → ∀ row, row ∈ rows ↔ row ∈ rows') ∧ NoPhantoms older

/-- The scans of running transactions, and those under way, have the rows of the table locked. -/
structure PhantomInv (s : ScanRun) : Prop where
  whole : ∀ t call table lo hi filter, s.calls.get t = some call →
    call.task = some (.listRange table lo hi (some filter)) ∨
      call.task = some (.ranged table lo hi (some filter)) → lo = [] ∧ hi = []
  scanning : ∀ t txn call table filter, s.mgr.txns.get t = some txn → txn.isolation = .serializable →
    s.calls.get t = some call → call.task = some (.scan table filter) →
      .ranged t table [] [] ∈ s.hist ∧ s.Guards t table [] []
  scans : ∀ t newer older table filter rows, s.mgr.Active t →
    s.hist = newer ++ .scan t .serializable table filter rows :: older →
    (∀ e ∈ newer, e.touches t = false) →
      .ranged t table [] [] ∈ s.hist ∧ s.Guards t table [] [] ∧ ∀ key values, (key, values) ∈ rows ↔
        s.mgr.catalog.row table key = some values ∧ filter key values = true

section
variable {s s' : ScanRun} {a : ScanAction} {t : Nat} {table : GoString} {filter : RowFilter}

theorem PhantomInv.start (seed : Catalog) (maxActive : Nat) (wal : Option Log) :
    PhantomInv (start seed maxActive wal) := by
  constructor
  · intro t call table lo hi filter here
    cases here
  · intro t txn call table filter found
    cases found
  · intro t newer older table filter rows active
    cases active

/-- A step that records a scan. -/
theorem ScanStep.scan_of_hist (step : ScanStep s a s') {isolation : IsolationLevel}
    {rows : List (GoString × RowData)} (recorded : s'.hist = .scan t isolation table filter rows :: s.hist) :
    ∃ txn done tbl, s.mgr.txns.get t = some txn ∧ isolation = txn.isolation ∧
      s.calls.get t = some (.locking done [] (.scan table filter)) ∧
      s.mgr.catalog.lookup table = some tbl ∧ rows = tbl.scan filter ∧ s'.mgr = s.mgr ∧ s'.locks = s.locks := by
  cases step with
  | scanned active here found =>
    cases recorded
    exact ⟨_, _, _, active, rfl, here, found, rfl, rfl, rfl⟩
  | read | wrote | ranged | insertable | undid | commit | abort => cases recorded
  | _ => exact absurd recorded.symm (cons_ne_self _ _)

theorem mem_scan_of_lookup {tbl : Table} (found : s.mgr.catalog.lookup table = some tbl) (key : GoString)
    (values : RowData) : (key, values) ∈ tbl.scan filter ↔
      s.mgr.catalog.row table key = some values ∧ filter key values = true := by
  rw [Table.mem_scan, Catalog.row, found]
  rfl

/-- A running transaction that records no change of a row changes none. -/
theorem ScanInv.row_untouched (inv : ScanInv s) (step : ScanStep s a s') (active : s.mgr.Active (s.actor a))
    (quiet : ∀ e, s'.hist = e :: s.hist → e.touches (s.actor a) = false) :
    s'.mgr.catalog = s.mgr.catalog := by
  cases inv.rowStep step with
  | still catalog => exact catalog
  | commit _ catalog => exact catalog
  | wrote _ _ _ _ _ hist =>
    have := quiet _ hist
    simp [touches, actor] at this
  | undid _ _ _ hist =>
    rcases hist with ⟨-, ended⟩ | hist
    · exact absurd active ended
    · have := quiet _ hist
      simp [touches, actor] at this

/-- A transaction that is at the work of a scan changes no row. -/
theorem ScanRun.target_of_scan {call : ScanCall} (here : s.calls.get (s.actor a) = some call)
    (task : call.task = some (.scan table filter)) : s.target a = none := by
  cases call with
  | locking done todo task' =>
    cases task
    cases a <;> simp_all [target, actor]
  | acquiring done r mode todo task' => cases a <;> simp_all [target, actor]
  | _ => cases task

/-- A guarded table stays guarded as long as its own transaction leaves the rows alone. -/
theorem ScanRun.Guards.table_step (guards : s.Guards t table [] []) (base : ScanInv s) (writes : WriteLocks s)
    (pend : PendingInv s) (ok : s.GapLocked a) (step : ScanStep s a s') (active : s.mgr.Active t)
    (ranged : .ranged t table [] [] ∈ s.hist)
    (own : s.actor a = t → ∀ k, s'.mgr.catalog.row table k = s.mgr.catalog.row table k) :
    s'.Guards t table [] [] := by
  refine guards.step base writes pend ok step active ranged (fun eq k => ?_) fun y _ out => ?_
  · rw [mem_keys, mem_keys, own eq]
  · cases out

section
variable (inv : PhantomInv s) (base : ScanInv s) (writes : WriteLocks s) (pend : PendingInv s)
  (ranges : RangeInv s) (ok : s.GapLocked a) (moved : ScanStep s a s')
include inv base moved

theorem PhantomInv.whole_step : ∀ t call' table lo hi filter, s'.calls.get t = some call' →
    call'.task = some (.listRange table lo hi (some filter)) ∨
      call'.task = some (.ranged table lo hi (some filter)) → lo = [] ∧ hi = [] := by
  rintro t call' table lo hi filter there (at' | at')
  · rcases base.task_step moved there at' with ⟨call, here, task, -⟩ | ⟨enters, -⟩
    · exact inv.whole t call table lo hi filter here (.inl task)
    · cases enters with
      | called => exact TableOp.first_of_entry at' (by simp)
      | listed | ranged | listedInsert => cases at'
  · rcases base.task_step moved there at' with ⟨call, here, task, -⟩ | ⟨enters, -⟩
    · exact inv.whole t call table lo hi filter here (.inr task)
    cases enters with
    | called => exact (TableOp.first_of_entry at').elim
    | listed here =>
      cases at'
      exact inv.whole t _ table lo hi filter here (.inl rfl)
    | ranged | listedInsert => cases at'

include writes pend ok ranges

theorem PhantomInv.scanning_step : ∀ t txn' call' table filter, s'.mgr.txns.get t = some txn' →
    txn'.isolation = .serializable → s'.calls.get t = some call' → call'.task = some (.scan table filter) →
      .ranged t table [] [] ∈ s'.hist ∧ s'.Guards t table [] [] := by
  intro t txn' call' table filter found' level there at'
  rcases base.task_step moved there at' with ⟨call, here, task, -⟩ | ⟨enters, mgr, locks⟩
  · rcases base.txn_step moved found' with ⟨txn, found, same, -⟩ | ⟨new, -⟩
    · obtain ⟨ranged, guards⟩ := inv.scanning t txn call table filter found (same ▸ level) here task
      refine ⟨moved.hist_sub _ ranged, guards.table_step base writes pend ok moved (active_of_get found) ranged
        fun eq k => ?_⟩
      by_contra changed
      obtain ⟨-, -, there, target, -⟩ := base.row_change writes pend moved (table, k) changed
      rw [target_of_scan (eq ▸ here) task] at target
      cases target
    · exact absurd (base.calls t call here).1 (Nat.not_le.2 new)
  · cases enters with
    | @called txn o active =>
      rw [mgr, active] at found'
      cases found'
      exact absurd level (TableOp.first_of_entry at')
    | @ranged _ _ lo hi filter here recorded =>
      cases at'
      obtain ⟨rfl, rfl⟩ := inv.whole t _ _ lo hi filter here (.inr rfl)
      refine ⟨recorded, ?_⟩
      have guards := ranges.guards base here
      unfold ScanRun.Guards ScanRun.keys at guards ⊢
      rwa [mgr, locks]
    | listed | listedInsert => cases at'

theorem PhantomInv.scans_step : ∀ t newer older table filter rows, s'.mgr.Active t →
    s'.hist = newer ++ .scan t .serializable table filter rows :: older →
    (∀ e ∈ newer, e.touches t = false) →
      .ranged t table [] [] ∈ s'.hist ∧ s'.Guards t table [] [] ∧ ∀ key values, (key, values) ∈ rows ↔
        s'.mgr.catalog.row table key = some values ∧ filter key values = true := by
  intro t newer older table filter rows active' split clean
  have known : t ≤ s.mgr.nextID :=
    ranges.known_step base moved (.scan t .serializable table filter rows) (by rw [split]; simp)
  have active : s.mgr.Active t := (base.active_step moved active').resolve_right (Nat.not_lt.2 known)
  -- a scan that was there before the step
  have old {newer : List ScanEvent} (split : s.hist = newer ++ .scan t .serializable table filter rows :: older)
      (clean : ∀ e ∈ newer, e.touches t = false) (quiet : ∀ e, s'.hist = e :: s.hist → e.touches t = false) :
      .ranged t table [] [] ∈ s'.hist ∧ s'.Guards t table [] [] ∧ ∀ key values, (key, values) ∈ rows ↔
        s'.mgr.catalog.row table key = some values ∧ filter key values = true := by
    obtain ⟨ranged, guards, same⟩ := inv.scans t newer older table filter rows active split clean
    have untouched (eq : s.actor a = t) : s'.mgr.catalog = s.mgr.catalog := by
      subst eq
      exact base.row_untouched moved active quiet
    refine ⟨moved.hist_sub _ ranged, guards.table_step base writes pend ok moved active ranged fun eq k => ?_,
      fun key values => ?_⟩
    · rw [untouched eq]
    rw [same key values]
    by_cases eq : s.actor a = t
    · rw [untouched eq]
    · rw [guards.row_step base writes pend ok moved active ranged eq rfl]
  rcases base.event_step moved with same | ⟨e, grown, -⟩
  · rw [same] at split
    refine old split clean fun e grown => absurd (grown.symm.trans same) (cons_ne_self _ _)
  rw [grown] at split
  cases newer with
  | cons e' =>
    obtain ⟨rfl, rest⟩ := cons.inj split
    refine old rest (fun e mem => clean e (mem_cons_of_mem _ mem)) fun e' grown' => ?_
    rw [grown] at grown'
    cases grown'
    exact clean e mem_cons_self
  | nil =>
    obtain ⟨rfl, rfl⟩ := cons.inj split
    obtain ⟨txn, done, tbl, found, level, here, lookup, rfl, mgr, locks⟩ := moved.scan_of_hist grown
    obtain ⟨ranged, guards⟩ := inv.scanning t txn _ table filter found level.symm here rfl
    refine ⟨moved.hist_sub _ ranged, ?_, fun key values => ?_⟩
    · unfold ScanRun.Guards ScanRun.keys at guards ⊢
      rwa [mgr, locks]
    · rw [mgr]
      exact mem_scan_of_lookup lookup key values

theorem PhantomInv.step : PhantomInv s' :=
  ⟨inv.whole_step base moved, inv.scanning_step base writes pend ranges ok moved,
    inv.scans_step base writes pend ranges ok moved⟩

omit writes pend ranges ok in
theorem NoPhantoms.step (none : NoPhantoms s.hist) : NoPhantoms s'.hist := by
  rcases base.event_step moved with same | ⟨e, grown, -, active⟩
  · rwa [same]
  rw [grown]
  refine ⟨fun t table filter rows eq newer rest rows' split clean row => ?_, none⟩
  subst eq
  obtain ⟨txn, done, tbl, found, -, here, lookup, rfl, -⟩ := moved.scan_of_hist grown
  obtain ⟨-, -, earlier⟩ := inv.scans t newer rest table filter rows' active split clean
  rw [earlier row.1 row.2]
  exact mem_scan_of_lookup lookup row.1 row.2

end

end

/-- In every run of gap-locked steps the serializable scans see no phantoms. -/
theorem noPhantoms_of_gapLocked {seed : Catalog} {maxActive : Nat} {wal : Option Log} {s : ScanRun}
    (reached : Reach ScanRun.next GapLocked (.start seed maxActive wal) s) : NoPhantoms s.hist := by
  have inv : ScanInv s ∧ WriteLocks s ∧ PendingInv s ∧ RangeInv s ∧ PhantomInv s ∧ NoPhantoms s.hist := by
    induction reached with
    | refl => exact ⟨.start .., .start .., .start .., .start .., .start .., trivial⟩
    | step _ ok taken now =>
      obtain ⟨base, writes, pend, ranges, inv, none⟩ := now
      have step := next_step taken
      exact ⟨base.step ok.1.orderly step, writes.step base step, pend.step base step,
        ranges.step base writes pend ok step, inv.step base writes pend ranges ok step,
        none.step inv base step⟩
  exact inv.2.2.2.2.2

/-- The steps of a serializable scan whose locks are free, with the number of the locks of the range. -/
def scanSteps (t : Nat) (table : GoString) (filter : RowFilter) (requests : Nat) : List ScanAction :=
  callSteps t (.scan table filter) 1 ++
    (List.replicate requests [.lock t .request, .lock t .enter]).flatten ++ [.run t, .run t]

/-- An insert that asks for the gap waits for the transaction that has scanned the table. -/
theorem noPhantoms_waiting : ∃ s, Reach ScanRun.next GapLocked (.start stock 0 none) s ∧
    (∃ addr ch, s.locks.calls.get 2 = some (.waiting 2 (.gap [99] [49] gapInfinitySentinel) .x addr ch)) ∧
    s.hist.filterMap scanned =
      [⟨1, [99], [([49], some [intVal 1])]⟩, ⟨1, [99], [([49], some [intVal 1])]⟩] ∧ NoPhantoms s.hist := by
  obtain ⟨s, reached, waits, scans⟩ := Reach.exists_such ScanRun.next GapLocked (.start stock 0 none)
    ([.begin .serializable, .begin .serializable] ++ scanSteps 1 [99] (fun _ _ => true) 3 ++
      callSteps 2 (.lockForInsert ([99], [50])) 1 ++ [.lock 2 .request, .lock 2 .enter] ++
      scanSteps 1 [99] (fun _ _ => true) 3)
    (fun s => s.locks.calls.get 2 = some (.waiting 2 (.gap [99] [49] gapInfinitySentinel) .x 3 5) ∧
      s.hist.filterMap scanned =
        [⟨1, [99], [([49], some [intVal 1])]⟩, ⟨1, [99], [([49], some [intVal 1])]⟩]) (by decide)
  exact ⟨s, reached, ⟨_, _, waits⟩, scans, noPhantoms_of_gapLocked reached⟩

def ScanEvent.scan? : ScanEvent → Option (Nat × IsolationLevel × GoString × RowFilter × List (GoString × RowData))
  | .scan t isolation table filter rows => some (t, isolation, table, filter, rows)
  | _ => none

section
variable {t : Nat} {table : GoString} {filter : RowFilter} {rows : List (GoString × RowData)}

theorem ScanEvent.scan?_eq_some {e : ScanEvent} {isolation : IsolationLevel}
    (eq : e.scan? = some (t, isolation, table, filter, rows)) : e = .scan t isolation table filter rows := by
  cases e with
  | scan =>
    cases eq
    rfl
  | _ => cases eq

/-- Two scans that differ in a row, with no change by the transaction, show a phantom. -/
theorem not_noPhantoms_of_scans {hist : List ScanEvent} {rows' : List (GoString × RowData)}
    {newer rest : List (Option (Nat × IsolationLevel × GoString × RowFilter × List (GoString × RowData)))}
    (seen : hist.map scan? = some (t, .serializable, table, filter, rows) :: (newer ++ some (t, .serializable,
      table, filter, rows') :: rest)) (clean : hist.all fun e => !e.touches t) {row : GoString × RowData}
    (new : row ∈ rows) (missing : row ∉ rows') : ¬ NoPhantoms hist := by
  intro claim
  obtain ⟨e, older, rfl, last, seen⟩ := map_eq_cons_iff.1 seen
  obtain ⟨front, back, rfl, -, seen⟩ := map_eq_append_iff.1 seen
  obtain ⟨e', rest', rfl, first, -⟩ := map_eq_cons_iff.1 seen
  have eq := scan?_eq_some last
  have eq' := scan?_eq_some first
  subst eq eq'
  refine missing ((claim.1 t table filter rows rfl front rest' rows' rfl (fun e mem => ?_) row).1 new)
  have := all_eq_true.1 clean e (by simp [mem])
  simpa using this

end

/-- The steps of `Commit` of a transaction that shares a table with others and has a row to itself. -/
def commitShared (t : Nat) (row table : ResourceID) : List ScanAction :=
  [.commit t, .lock t (.releaseAll [row, table]), .lock t .nextResource, .lock t .release, .lock t .reap,
    .lock t .forget, .lock t .nextResource, .lock t .release, .lock t .forget, .lock t .nextResource, .finish t]

/-- A row that another transaction inserts and commits between two serializable scans is in the second. -/
theorem not_noPhantoms : ¬ ∀ (seed : Catalog) (maxActive : Nat) (wal : Option Log) (s : ScanRun),
    Reach ScanRun.next Orderly (.start seed maxActive wal) s → NoPhantoms s.hist := by
  intro claim
  obtain ⟨s, reached, scans, clean⟩ := Reach.exists_such ScanRun.next Orderly (.start stock 0 none)
    ([.begin .serializable, .begin .serializable] ++ scanSteps 1 [99] (fun _ _ => true) 3 ++
      callSteps 2 (.write ([99], [50]) (some [intVal 2]) .insert) 2 ++
      commitShared 2 (.row [99] [50]) (.table [99]) ++ scanSteps 1 [99] (fun _ _ => true) 5)
    (fun s => s.hist.map scan? =
      some (1, .serializable, [99], fun _ _ => true, [([50], some [intVal 2]), ([49], some [intVal 1])]) ::
        ([none, none, none] ++ [some (1, .serializable, [99], fun _ _ => true, [([49], some [intVal 1])]), none]) ∧
      s.hist.all fun e => !e.touches 1) ⟨_, rfl, rfl, rfl⟩
  exact not_noPhantoms_of_scans scans clean mem_cons_self (by decide) (claim stock 0 none s reached)

end TransactionManager.Txn
