import TransactionManager.Txn.ScanLocks

/-!
# What a step does to the rows

A step writes one row and adds an undo entry, undoes one entry, commits, or leaves the rows and
the changes that are pending alone. A pending change is one whose transaction has not committed
and that has not been undone.
-/

namespace TransactionManager.Txn
open Lib TransactionManager.Types List GoMap Storage Manager ScanRun

/-- The changes of a transaction that may still be undone, the newest first. A rollback has undone what it has passed
of the end of the undo log. -/
def pendingOf (call : Option ScanCall) (txn : Option Transaction) : List UndoEntry :=
  match call with
  | some (.undo _ rest _) => rest
  | some (.rollback rest _ position) =>
    rest ++ (((txn.map (·.undoLog)).getD []).take position).reverse
  | _ => ((txn.map (·.undoLog)).getD []).reverse

def ScanRun.pending (s : ScanRun) (t : Nat) : List UndoEntry := pendingOf (s.calls.get t) (s.mgr.txns.get t)

def UndoEntry.row (e : UndoEntry) : RowRef := (e.table, e.key)

def ScanEvent.Silent : ScanEvent → Prop
  | .write .. | .commit .. => False
  | .read .. | .scan .. | .ranged .. | .insertable .. | .undo .. | .abort _ => True

/-- What a step does to the rows, the pending changes and the history. -/
inductive RowStep (s s' : ScanRun) : ScanAction → Prop where
  | still (catalog : s'.mgr.catalog = s.mgr.catalog) (pending : ∀ u, s'.pending u = s.pending u)
      (hist : s'.hist = s.hist ∨ ∃ e : ScanEvent, s'.hist = e :: s.hist ∧ e.Silent) : RowStep s s' a
  | wrote (active : s.mgr.Active t) (here : s.calls.get t = some (.locking done [] (.write w.row w.values w.op)))
      (table : (s.mgr.catalog.lookup w.row.1).isSome) (catalog : s'.mgr.catalog = w.apply s.mgr.catalog)
      (pending : ∀ u, s'.pending u = if u = t then s.mgr.entryOf w lsn :: s.pending t else s.pending u)
      (hist : s'.hist = .write t w.row w.op w.values :: s.hist) : RowStep s s' (.run t)
  | undid (before : s.pending t = e :: more) (catalog : s'.mgr.catalog = restore s.mgr.catalog e)
      (pending : ∀ u, s'.pending u = if u = t then more else s.pending u)
      (hist : s'.hist = s.hist ∧ ¬ s.mgr.Active t ∨ s'.hist = .undo t e.row :: s.hist) : RowStep s s' (.undo t)
  | commit (active : s.mgr.Active t) (catalog : s'.mgr.catalog = s.mgr.catalog)
      (pending : ∀ u, s'.pending u = if u = t then [] else s.pending u)
      (hist : s'.hist = .commit t s.mgr.catalog :: s.hist) : RowStep s s' (.commit t)

theorem pendingOf_plain {call : Option ScanCall} {txn : Option Transaction}
    (plain : ∀ x ∈ call, x.Plain) : pendingOf call txn = ((txn.map (·.undoLog)).getD []).reverse := by
  unfold pendingOf
  split
  · exact (plain _ rfl).elim
  · exact (plain _ rfl).elim
  · rfl

section
variable {s s' : ScanRun} {a : ScanAction} {t : Nat}

theorem ScanInv.unfinished_of_pending (inv : ScanInv s) {e : UndoEntry} (mem : e ∈ s.pending t) :
    s.Unfinished t := by
  cases found : s.mgr.txns.get t with
  | some txn => exact .inl (active_of_get found)
  | none =>
    right
    unfold pending pendingOf at mem
    rw [found] at mem
    split at mem
    · exact ⟨_, _, _, ‹_›⟩
    · rename_i rest clr position here
      exact absurd ((inv.calls t _ here).2.2 trivial) (by simp [Active, found])
    · cases mem

theorem ScanRun.pending_eq {y : Option ScanCall} {x : Option Transaction} (calls : s.calls.get t = y)
    (txns : s.mgr.txns.get t = x) : s.pending t = pendingOf y x := by
  unfold pending
  rw [calls, txns]

section
variable (inv : ScanInv s)
include inv

section
variable (step : ScanStep s a s')
include step

theorem ScanInv.pending_step {l : List UndoEntry} (own : s'.pending (s.actor a) = l) (u : Nat) :
    s'.pending u = if u = s.actor a then l else s.pending u := by
  split
  · rename_i eq
    rw [eq, own]
  · rename_i other
    obtain ⟨calls, txns, -⟩ := inv.others step (Ne.symm other)
    unfold pending
    rw [calls, txns]

variable (catalog : s'.mgr.catalog = s.mgr.catalog)
  (hist : s'.hist = s.hist ∨ ∃ e : ScanEvent, s'.hist = e :: s.hist ∧ e.Silent)
include catalog hist

theorem ScanInv.still (own : s'.pending (s.actor a) = s.pending (s.actor a)) : RowStep s s' a := by
  refine .still catalog (fun u => ?_) hist
  rw [inv.pending_step step own]
  split
  · rename_i eq
    rw [eq]
  · rfl

/-- The place of the call changes and the undo log stays. -/
theorem ScanInv.moves {y : Option ScanCall} (calls : s'.calls.get (s.actor a) = y)
    (txns : s'.mgr.txns.get (s.actor a) = s.mgr.txns.get (s.actor a))
    (here : ∀ z ∈ s.calls.get (s.actor a), z.Plain) (there : ∀ z ∈ y, z.Plain) : RowStep s s' a := by
  refine inv.still step catalog hist ?_
  rw [pending_eq calls txns, pending_eq rfl rfl, pendingOf_plain here, pendingOf_plain there]

end

theorem ScanInv.rowStep_begun {isoLevel : IsolationLevel} {m : Manager} (begun : s.mgr.Begun isoLevel m) :
    RowStep s (s.setMgr m) (.begin isoLevel) := by
  obtain ⟨last, txns⟩ := begun.txns
  have free : s.calls.get (s.mgr.nextID + 1) = none := by
    cases found : s.calls.get (s.mgr.nextID + 1) with
    | none => rfl
    | some call => exact absurd (inv.calls _ call found).1 (Nat.not_succ_le_self _)
  have unknown : s.mgr.txns.get (s.mgr.nextID + 1) = none := by
    cases found : s.mgr.txns.get (s.mgr.nextID + 1) with
    | none => rfl
    | some txn => exact absurd (inv.ids _ txn found).2 (Nat.not_succ_le_self _)
  have new := (congrArg (GoMap.get · (s.mgr.nextID + 1)) txns).trans ((get_set ..).trans (if_pos rfl))
  have own := (pending_eq (s := s.setMgr m) free new).trans (pending_eq free unknown).symm
  exact inv.still (.begun begun) begun.catalog (.inl rfl) own

theorem ScanInv.rowStep_wrote {txn : Transaction} {done : List LockRequest} {w : RowWrite}
    (step : ScanStep s (.run t) s') (active : s.mgr.txns.get t = some txn)
    (here : s.calls.get t = some (.locking done [] (.write w.row w.values w.op))) (written : s.mgr.Wrote txn w s'.mgr)
    (returned : s'.calls.get t = none) (hist : s'.hist = .write t w.row w.op w.values :: s.hist) :
    RowStep s s' (.run t) := by
  obtain ⟨last, lsn, txns⟩ := written.txns
  rw [(inv.ids t txn active).1] at txns
  have new := (congrArg (GoMap.get · t) txns).trans ((get_set ..).trans (if_pos rfl))
  have log : (txn.undoLog ++ [s.mgr.entryOf w lsn]).reverse = s.mgr.entryOf w lsn :: s.pending t := by
    rw [pending_eq here active]
    exact reverse_append
  exact .wrote (active_of_get active) here written.table written.catalog
    (inv.pending_step step ((pending_eq returned new).trans log)) hist

/-- What every step does to the rows. -/
theorem ScanInv.rowStep (step : ScanStep s a s') : RowStep s s' a := by
  have step' := step
  have still := inv.still step
  have now {y : Option ScanCall} {x : Option Transaction} := @pending_eq s' (s.actor a) y x
  have moves {y : Option ScanCall} := inv.moves step (y := y)
  have pending {l : List UndoEntry} := inv.pending_step step (l := l)
  have at' {t : Nat} {call : ScanCall} (here : s.calls.get t = some call) (plain : call.Plain) :
      ∀ z ∈ s.calls.get t, z.Plain := by
    rw [here]
    rintro z ⟨⟩
    exact plain
  cases step with
  | refused => exact .still rfl (fun _ => rfl) (.inl rfl)
  | begun begun => exact inv.rowStep_begun begun
  | @called t txn o active here =>
    obtain ⟨todo, task, eq, -⟩ := o.entry_spec txn.isolation
    refine moves rfl (.inl rfl) ScanRun.goes rfl (by simp [ScanRun.actor, here]) ?_
    rw [eq]
    rintro z ⟨⟩
    trivial
  | locked here asks =>
    obtain ⟨plain, plain'⟩ := ScanCall.plain_of_lockAction asks
    exact moves rfl (.inl rfl) ScanRun.goes rfl (at' here plain) plain'
  | read active here | scanned active here | insertable active here =>
    exact moves rfl (.inr ⟨_, rfl, trivial⟩) ScanRun.goes rfl (at' here trivial) (by simp)
  | @ranged t txn done table lo hi filter active here =>
    refine moves rfl (.inr ⟨_, rfl, trivial⟩) ScanRun.goes rfl (at' here trivial) ?_
    cases filter with
    | none => simp
    | some filter =>
      rintro z ⟨⟩
      trivial
  | failed active here => exact moves rfl (.inl rfl) ScanRun.goes rfl (at' here trivial) (by simp)
  | listed active here | listedInsert active here =>
    exact moves rfl (.inl rfl) ScanRun.goes rfl (at' here trivial) (by rintro z ⟨⟩; trivial)
  | wrote active here written => exact inv.rowStep_wrote step' active here written ScanRun.goes rfl
  | @savepoint t txn name active here =>
    have new := (get_set s.mgr.txns txn.id t { txn with
      savepoints := txn.savepoints ++ [⟨name, txn.undoLog.length⟩] }).trans (if_pos (inv.ids t txn active).1.symm)
    exact still rfl (.inl rfl) ((now here new).trans (pending_eq here active).symm)
  | @rollback _ txn sp _ active here =>
    refine still rfl (.inl rfl) ((now ScanRun.goes active).trans (Eq.trans ?_ (pending_eq here active).symm))
    show (txn.undoLog.drop sp.undoPosition).reverse ++ (txn.undoLog.take sp.undoPosition).reverse = txn.undoLog.reverse
    rw [← reverse_append, take_append_drop]
  | @undid t e more lastCLR _ here =>
    have txns := congrArg (GoMap.get · t) (s.mgr.undoEntry_spec t e more lastCLR).1.txns
    exact .undid (pending_eq here rfl) (s.mgr.catalog_undoEntry t e more lastCLR)
      (pending (now ScanRun.goes txns)) (.inr rfl)
  | @rolledBack t txn _ position active here =>
    have new := (get_set s.mgr.txns txn.id t { txn with undoLog := txn.undoLog.take position }).trans
      (if_pos (inv.ids t txn active).1.symm)
    exact still rfl (.inl rfl) ((now ScanRun.goes new).trans (pending_eq here active).symm)
  | @undidAborted t txn e more lastCLR here =>
    exact .undid (pending_eq here rfl) (s.mgr.catalog_undoEntry t e more lastCLR)
      (pending (now ScanRun.goes rfl)) (.inl ⟨rfl, fun active => (inv.calls t _ here).2.1 active⟩)
  | undone here =>
    have ended := inv.ended here id
    exact still rfl (.inl rfl) ((now ScanRun.goes ended).trans (pending_eq here ended).symm)
  | @commit t _ m active _ _ catalog =>
    have gone := (get_delete m.txns t t).trans (if_pos rfl)
    exact .commit (active_of_get active) catalog (pending (now ScanRun.goes gone))
      (congrArg (ScanEvent.commit t · :: s.hist) catalog)
  | @abort t txn active here =>
    have gone := (get_delete s.mgr.txns t t).trans (if_pos rfl)
    exact still rfl (.inr ⟨_, rfl, trivial⟩) ((now ScanRun.goes gone).trans (pending_eq here active).symm)
  | @finish t prev m here returned logged catalog =>
    exact moves catalog (.inl rfl) ScanRun.goes (congrArg (GoMap.get · t) logged.txns) (at' here trivial) (by simp)

end

end

/-- A pending change is one that its transaction wrote, in a table that is there. -/
structure PendingInv (s : ScanRun) : Prop where
  wrote : ∀ t, ∀ e ∈ s.pending t, s.Wrote t e.row
  tables : ∀ t, ∀ e ∈ s.pending t, (s.mgr.catalog.lookup e.table).isSome

section
variable {s s' : ScanRun} {a : ScanAction} {t u : Nat}

theorem PendingInv.start (seed : Catalog) (maxActive : Nat) (wal : Option Wal.Log) :
    PendingInv (start seed maxActive wal) := by
  constructor
  · intro t e mem
    cases mem
  · intro t e mem
    cases mem

theorem PendingInv.step (inv : PendingInv s) (base : ScanInv s) (step : ScanStep s a s') : PendingInv s' := by
  have grows {t : Nat} {row : RowRef} (was : s.Wrote t row) : s'.Wrote t row := by
    obtain ⟨op, values, mem⟩ := was
    exact ⟨op, values, step.hist_sub _ mem⟩
  have fewer (sub : ∀ u, ∀ e ∈ s'.pending u, e ∈ s.pending u)
      (tables : ∀ name, (s'.mgr.catalog.lookup name).isSome = (s.mgr.catalog.lookup name).isSome) : PendingInv s' := by
    refine ⟨fun u e mem => grows (inv.wrote u e (sub u e mem)), fun u e mem => ?_⟩
    rw [tables]
    exact inv.tables u e (sub u e mem)
  cases base.rowStep step with
  | still catalog pending =>
    exact fewer (fun u e mem => pending u ▸ mem) fun name => by rw [catalog]
  | @wrote t _ w lsn _ _ table catalog pending hist =>
    have tables (name : GoString) : (s'.mgr.catalog.lookup name).isSome = (s.mgr.catalog.lookup name).isSome := by
      rw [catalog]
      exact isSome_lookup_applyOp ..
    have split {u : Nat} {e : UndoEntry} (mem : e ∈ s'.pending u) :
        u = t ∧ e = s.mgr.entryOf w lsn ∨ e ∈ s.pending u := by
      rw [pending] at mem
      split at mem
      · rename_i own
        subst own
        rcases mem_cons.1 mem with new | old
        · exact .inl ⟨rfl, new⟩
        · exact .inr old
      · exact .inr mem
    constructor
    · intro u e mem
      rcases split mem with ⟨rfl, rfl⟩ | old
      · refine ⟨w.op, w.values, ?_⟩
        rw [hist]
        exact mem_cons_self
      · exact grows (inv.wrote u e old)
    · intro u e mem
      rw [tables]
      rcases split mem with ⟨rfl, rfl⟩ | old
      · exact table
      · exact inv.tables u e old
  | @undid _ e _ before catalog pending =>
    refine fewer (fun u e' mem => ?_) fun name => ?_
    · rw [pending] at mem
      split at mem
      · rename_i own
        rw [own, before]
        exact mem_cons_of_mem e mem
      · exact mem
    · rw [catalog]
      exact isSome_lookup_restore ..
  | commit _ catalog pending =>
    refine fewer (fun u e mem => ?_) fun name => by rw [catalog]
    rw [pending] at mem
    split at mem
    · cases mem
    · exact mem

section
variable (inv : PendingInv s) (base : ScanInv s) (writes : WriteLocks s) {e : UndoEntry} (mem : e ∈ s.pending t)
include inv base writes mem

/-- A transaction holds X on the rows of its pending changes. -/
theorem PendingInv.locked : (s.locks.held t).get (.row e.table e.key) = some .x :=
  writes.rows t e.row (base.unfinished_of_pending mem) (inv.wrote t e mem)

/-- A row has pending changes of one transaction only. -/
theorem PendingInv.unique {e' : UndoEntry} (mem' : e' ∈ s.pending u) (same : e.row = e'.row) : t = u := by
  have one := inv.locked base writes mem
  have two := inv.locked base writes mem'
  obtain ⟨table, key⟩ := Prod.mk.inj same
  rw [table, key] at one
  exact base.exclusive one two (base.before_release (base.unfinished_of_pending mem))
    (base.before_release (base.unfinished_of_pending mem')) (by decide)

end

end

/-- The row an entry puts back or takes away, and whether it is there afterwards. -/
def UndoEntry.target (e : UndoEntry) : Option (RowRef × Bool) :=
  match e.op, e.beforeImage with
  | .insert, _ => some (e.row, false)
  | _, some _ => some (e.row, true)
  | _, none => none

theorem UndoEntry.target_of_undone {e : UndoEntry} {now : Option RowData} (changed : e.undone now ≠ now) :
    ∃ there, e.target = some (e.row, there) ∧ (there = true ↔ e.undone now ≠ none) := by
  unfold UndoEntry.undone at changed ⊢
  unfold UndoEntry.target
  cases op : e.op with
  | insert => exact ⟨false, rfl, by simp⟩
  | update | delete =>
    cases image : e.beforeImage with
    | some => exact ⟨true, rfl, by simp⟩
    | none => simp [op, image] at changed

namespace ScanRun

/-- The row that a step puts or takes away, and whether it is there afterwards. -/
def target (s : ScanRun) : ScanAction → Option (RowRef × Bool)
  | .run t => match s.calls.get t with
    | some (.locking _ [] (.write row _ op)) => some (row, op ≠ .delete)
    | _ => none
  | .undo t => match s.calls.get t with
    | some (.rollback (e :: _) _ _) | some (.undo _ (e :: _) _) => e.target
    | _ => none
  | _ => none

def appears (s : ScanRun) (a : ScanAction) : Option RowRef :=
  match s.target a with
  | some (row, true) => if (s.mgr.catalog.row row.1 row.2).isNone then some row else none
  | _ => none

def vanishes (s : ScanRun) (a : ScanAction) : Option RowRef :=
  match s.target a with
  | some (row, false) => if (s.mgr.catalog.row row.1 row.2).isSome then some row else none
  | _ => none

end ScanRun

section
variable {s s' : ScanRun} {a : ScanAction}

/-- A row that a step changes is locked by the transaction that makes the step. -/
theorem ScanInv.row_change (inv : ScanInv s) (writes : WriteLocks s) (pend : PendingInv s) (step : ScanStep s a s')
    (row : RowRef) (changed : s'.mgr.catalog.row row.1 row.2 ≠ s.mgr.catalog.row row.1 row.2) :
    s.Unfinished (s.actor a) ∧ (s.locks.held (s.actor a)).get (.row row.1 row.2) = some .x ∧
      ∃ there, s.target a = some (row, there) ∧ (there = true ↔ s'.mgr.catalog.row row.1 row.2 ≠ none) := by
  have undid {t : Nat} {e : UndoEntry} (mem : e ∈ s.pending t)
      (catalog : s'.mgr.catalog = restore s.mgr.catalog e) (actor : s.actor a = t)
      (target : s.target a = e.target) : s.Unfinished (s.actor a) ∧
        (s.locks.held (s.actor a)).get (.row row.1 row.2) = some .x ∧
        ∃ there, s.target a = some (row, there) ∧ (there = true ↔ s'.mgr.catalog.row row.1 row.2 ≠ none) := by
    rw [catalog, row_restore _ e row (· ▸ pend.tables t e mem)] at changed ⊢
    split at changed
    · rename_i hit
      subst hit
      rw [if_pos rfl, target, actor]
      exact ⟨inv.unfinished_of_pending mem, pend.locked inv writes mem, UndoEntry.target_of_undone changed⟩
    · exact absurd rfl changed
  cases step with
  | @wrote _ _ _ w m active here written =>
    have rows : m.catalog.row row.1 row.2 = _ :=
      (congrArg (Catalog.row · row.1 row.2) written.catalog).trans (row_apply _ w row (· ▸ written.table))
    by_cases hit : row = w.row
    · subst hit
      have active := active_of_get active
      refine ⟨.inl active, (inv.covers_write here active).2, w.op ≠ .delete, ?_, ?_⟩
      · simp [target, here]
      · show _ ↔ m.catalog.row w.row.1 w.row.2 ≠ none
        rw [rows, if_pos rfl, RowWrite.outcome]
        cases w.op <;> simp
    · rw [if_neg hit] at rows
      exact absurd rows changed
  | @undid t e more lastCLR _ here | @undidAborted t _ e more lastCLR here =>
    refine undid (t := t) ?_ (s.mgr.catalog_undoEntry t e more lastCLR) rfl ?_
    · simp [pending, pendingOf, here]
    · simp [target, here]
  | begun begun => exact absurd (congrArg (Catalog.row · row.1 row.2) begun.catalog) changed
  | commit active idle logged catalog | finish here returned logged catalog =>
    exact absurd (congrArg (Catalog.row · row.1 row.2) catalog) changed
  | _ => exact absurd rfl changed

end

end TransactionManager.Txn
