import TransactionManager.Txn.Reads
import TransactionManager.Txn.SnapshotInv

/-!
# Snapshot stability

What a transaction above read-committed sees while the others go on. A new version is not in
its snapshot, and neither is a new deletion mark. The one thing that can change its reads is a
mark that its snapshot does show: an update or delete by an older transaction writes over it.
-/

namespace TransactionManager.Txn
open Lib TransactionManager.Types Mvcc List GoMap VersionChain Manager MvccRun Bool

def NotWrittenBy (id : Nat) (rows : RowRef → Prop) : MvccAction → Prop
  | .write u row _ _ => rows row → u ≠ id
  | _ => True

/-- The version that a write marks is not one whose deletion the transaction sees. -/
def KeepsDeletions (id : Nat) (rows : RowRef → Prop) (s : MvccRun) : MvccAction → Prop
  | .write u row _ op => rows row → op ≠ .insert → ∀ txn ∈ s.mgr.txns.get id, ∀ writer ∈ s.mgr.txns.get u,
      ∀ v ∈ s.mgr.findVisible writer row, creatorVisible v id (s.mgr.getSnapshot txn) s.mgr.statusChecker = true →
        deletionInvisible v id (s.mgr.getSnapshot txn) s.mgr.statusChecker = true
  | _ => True

instance (id : Nat) (rows : RowRef → Prop) [DecidablePred rows] (a : MvccAction) :
    Decidable (NotWrittenBy id rows a) := by
  unfold NotWrittenBy
  cases_type MvccAction <;> infer_instance

instance (id : Nat) (rows : RowRef → Prop) [DecidablePred rows] (s : MvccRun) (a : MvccAction) :
    Decidable (KeepsDeletions id rows s a) := by
  unfold KeepsDeletions
  cases_type MvccAction <;> infer_instance

/-- A run of the others: the transaction does not write the rows, and no mark it sees is lost. -/
def Undisturbed (id : Nat) (rows : RowRef → Prop) (s : MvccRun) (a : MvccAction) : Prop :=
  NotWrittenBy id rows a ∧ KeepsDeletions id rows s a

instance (id : Nat) (rows : RowRef → Prop) [DecidablePred rows] (s : MvccRun) (a : MvccAction) :
    Decidable (Undisturbed id rows s a) := inferInstanceAs (Decidable (_ ∧ _))

/-- The data of all the versions of a row that a transaction sees. -/
def Manager.visibleData (m : Manager) (txn : Transaction) (row : RowRef) : List RowData :=
  ((m.chain row).filter fun v => isVisible v txn.id (m.getSnapshot txn) m.statusChecker).map (·.data)

theorem Manager.seenData_eq (m : Manager) (txn : Transaction) (row : RowRef) :
    m.seenData txn row = (m.visibleData txn row).head? := by
  unfold seenData findVisible visibleData
  rw [head?_map, head?_filter]

section Step
variable {s s' : MvccRun} {a : MvccAction} {id : Nat} {txn txn' : Transaction}

section
variable (step : MvccStep s a s')
include step

/-- A step adds at most one event, and a begin is that of a new transaction. -/
theorem MvccStep.hist : s'.hist = s.hist ∨ ∃ e, s'.hist = s.hist ++ [e] ∧ ∀ t ≤ s.mgr.nextID, e ≠ .begin t := by
  cases step with
  | idle | undo => exact .inl rfl
  | begin =>
    refine .inr ⟨_, rfl, fun t le eq => ?_⟩
    cases eq
    omega
  | _ => exact .inr ⟨_, rfl, nofun⟩

theorem MvccStep.active (active : s'.mgr.Active id) : s.mgr.Active id ∨ id = s.mgr.nextID + 1 := by
  cases step with
  | idle same | read _ same | scan _ same | write _ _ same | undo _ same => exact .inl ((same.active id).1 active)
  | begin _ _ _ _ txns =>
    unfold Active at active
    rw [txns, get_set] at active
    split at active
    · rename_i new
      exact .inr new
    · exact .inl active
  | commit _ _ txns | abort _ txns => exact .inl ((active_of_delete txns).1 active).2

theorem MvccStep.nextID : s.mgr.nextID ≤ s'.mgr.nextID := by
  cases step with
  | idle same | read _ same | scan _ same | write _ _ same | undo _ same => exact same.nextID.ge
  | begin nextID => exact (Nat.le_succ _).trans nextID.ge
  | commit _ _ _ _ _ nextID | abort _ _ _ _ nextID => exact nextID.ge

theorem MvccStep.view (known : id ≤ s.mgr.nextID) (found : s.mgr.txns.get id = some txn)
    (found' : s'.mgr.txns.get id = some txn') : txn'.view = txn.view := by
  have kept (same : SameTxns s.mgr s'.mgr) : txn'.view = txn.view := by
    obtain ⟨old, mem, view⟩ := same.txn found'
    cases found.symm.trans mem
    exact view
  cases step with
  | idle same | read _ same | scan _ same | write _ _ same | undo _ same => exact kept same
  | begin _ _ _ _ txns =>
    rw [txns, get_set, if_neg (by omega), found] at found'
    cases found'
    rfl
  | commit _ _ txns | abort _ txns =>
    rw [txns, get_delete] at found'
    split at found'
    · cases found'
    · cases found.symm.trans found'
      rfl

end

/-- A step does not change what a snapshot says about a version. -/
theorem isVisible_step (inv : RunInv s) (inv' : RunInv s') (step : MvccStep s a s')
    (found : s.mgr.txns.get id = some txn) (found' : s'.mgr.txns.get id = some txn')
    (level : txn.isolation ≠ .readCommitted) (v : Version) :
    isVisible v id (s'.mgr.getSnapshot txn') s'.mgr.statusChecker =
      isVisible v id (s.mgr.getSnapshot txn) s.mgr.statusChecker := by
  have known := (inv.books.running id (active_of_get found)).2.1
  have level' : txn'.isolation ≠ .readCommitted := by
    rw [show txn'.isolation = txn.isolation from congrArg (·.2.1) (step.view known found found')]
    exact level
  have before (u : Nat) : CommittedBefore s'.hist u id ↔ CommittedBefore s.hist u id := by
    rcases step.hist with same | ⟨e, hist, other⟩
    · rw [same]
    · rw [hist, BookInv.committedBefore_append (other id known)]
  rw [Bool.eq_iff_iff, inv.books.isVisible_iff found level, inv'.books.isVisible_iff found' level']
  unfold Sees
  rw [before, before]

section
variable {c : VersionChain} {visible : Version → Bool} {u : Nat}

variable {seen : Version → Bool}

/-- Marking a version leaves the data seen as they are when the mark changes nothing. -/
theorem filter_markFirst (marked : ∀ v ∈ c.find? visible, seen { v with xmax := u } = seen v) :
    ((markFirst visible u c).filter seen).map (·.data) = (c.filter seen).map (·.data) := by
  induction c with
  | nil => rfl
  | cons v older ih =>
    rw [markFirst]
    cases hit : visible v with
    | true =>
      rw [find?_cons_of_pos hit] at marked
      have same := marked v rfl
      rw [if_pos rfl, filter_cons, filter_cons, same]
      split <;> rfl
    | false =>
      rw [find?_cons_of_neg (by rw [hit]; exact false_ne_true)] at marked
      rw [if_neg Bool.false_ne_true, filter_cons, filter_cons]
      split
      · rw [map_cons, map_cons, ih marked]
      · exact ih marked

theorem filter_removeByXMin (unseen : ∀ v ∈ c, v.xmin = u → seen v = false) :
    (removeByXMin c u).filter seen = c.filter seen := by
  unfold removeByXMin
  rw [filter_filter]
  refine filter_congr fun v mem => ?_
  by_cases creator : v.xmin = u
  · rw [unseen v mem creator]
    rfl
  · simp [creator]

theorem filter_clearXMax (same : ∀ v ∈ c, v.xmax = u → seen { v with xmax := 0 } = seen v) :
    ((clearXMax c u).filter seen).map (·.data) = (c.filter seen).map (·.data) := by
  induction c with
  | nil => rfl
  | cons v older ih =>
    have rest := ih fun w mem => same w (mem_cons_of_mem _ mem)
    unfold clearXMax at rest ⊢
    rw [map_cons, filter_cons, filter_cons]
    have head : seen (if v.xmax = u then { v with xmax := 0 } else v) = seen v := by
      split
      · rename_i mark
        exact same v mem_cons_self mark
      · rfl
    rw [head]
    split
    · rw [map_cons, map_cons, rest]
      split <;> rfl
    · exact rest

end

/-- The creator of a version is not in the snapshot while it runs, nor once it has aborted. -/
theorem BookInv.not_sees (inv : BookInv s.mgr s.hist) {t u : Nat} (open' : u ∉ s.mgr.committed) :
    ¬ Sees s.hist t u := fun sees => open' (inv.committed_of_sees sees).1

/-- One step of the others leaves the data seen of the rows. -/
theorem chain_step {rows : RowRef → Prop} (inv : RunInv s) (step : MvccStep s a s')
    (found : s.mgr.txns.get id = some txn) (level : txn.isolation ≠ .readCommitted)
    (ok : Undisturbed id rows s a) {row : RowRef} (row_mem : rows row) :
    ((s'.mgr.chain row).filter fun v => isVisible v id (s.mgr.getSnapshot txn) s.mgr.statusChecker).map (·.data) =
      ((s.mgr.chain row).filter fun v =>
        isVisible v id (s.mgr.getSnapshot txn) s.mgr.statusChecker).map (·.data) := by
  have books := inv.books
  have active := books.running id (active_of_get found)
  have visible := books.isVisible_iff found level
  cases step with
  | idle _ chain | begin _ _ _ chain | read _ _ chain | scan _ _ chain | commit _ _ _ _ _ _ chain
  | abort _ _ _ _ _ chain =>
    rw [chain]
  | @write u row' values op writer completed m' running _ _ others written =>
    by_cases here : row = row'
    · subst here
      have other : u ≠ id := ok.1 row_mem
      have begun := books.running u (active_of_get running)
      have unseen : ¬ Sees s.hist id u := books.not_sees begun.2.2.1
      have new (v : Version) (creator : v.xmin = u) :
          isVisible v id (s.mgr.getSnapshot txn) s.mgr.statusChecker = false := by
        rw [← not_eq_true, visible, creator]
        rintro ⟨own | sees, -⟩
        · exact other own
        · exact unseen sees
      have marked (notInsert : op ≠ .insert) : ∀ v ∈ (s.mgr.chain row).find? fun v =>
          isVisible v u (s.mgr.getSnapshot writer) s.mgr.statusChecker,
          isVisible { v with xmax := u } id (s.mgr.getSnapshot txn) s.mgr.statusChecker =
            isVisible v id (s.mgr.getSnapshot txn) s.mgr.statusChecker := by
        intro v hit
        have own := (books.txns u writer running).1
        have kept := ok.2 row_mem notInsert txn found writer running v (by rw [findVisible, own]; exact hit)
        rw [books.creatorVisible_iff found level, books.deletionInvisible_iff found level] at kept
        rw [Bool.eq_iff_iff, visible, visible]
        refine and_congr_right fun creator => ⟨fun _ => kept creator, fun _ => .inr ⟨other, fun before => ?_⟩⟩
        exact unseen (.inr before)
      generalize m'.chain row = c at written
      cases written with
      | insert v creator => rw [filter_cons_of_neg (by rw [new v creator]; exact false_ne_true)]
      | update v creator =>
        rw [filter_cons_of_neg (by rw [new v creator]; exact false_ne_true)]
        exact filter_markFirst (marked (by decide))
      | mark notInsert => exact filter_markFirst (marked notInsert)
    · rw [others row here]
  | @undo u row' _ _ pending _ others chain =>
    by_cases here : row = row'
    · subst here
      have gone : u ∈ s.mgr.aborted := inv.undoing u pending
      have other : u ≠ id := by
        rintro rfl
        exact active.2.2.2 gone
      have unseen : ¬ Sees s.hist id u := fun sees => (books.committed_of_sees sees).2 gone
      rcases chain with removed | cleared
      · rw [removed, filter_removeByXMin]
        intro v _ creator
        rw [← not_eq_true, visible, creator]
        rintro ⟨own | sees, -⟩
        · exact other own
        · exact unseen sees
      · rw [cleared, filter_clearXMax]
        intro v _ mark
        rw [Bool.eq_iff_iff, visible, visible, mark]
        exact and_congr_right fun _ => ⟨fun _ => .inr ⟨other, fun before => unseen (.inr before)⟩, fun _ => .inl rfl⟩
    · rw [others row here]

end Step

/-- Along a run of the others the transaction keeps its level and sees these data. -/
structure Held (id : Nat) (rows : RowRef → Prop) (data : RowRef → List RowData) (s : MvccRun) : Prop where
  run : RunInv s
  known : id ≤ s.mgr.nextID
  seen : ∀ txn, s.mgr.txns.get id = some txn → txn.isolation ≠ .readCommitted ∧
    ∀ row, rows row → s.mgr.visibleData txn row = data row

theorem Held.next {id : Nat} {rows : RowRef → Prop} {data : RowRef → List RowData} {s s' : MvccRun}
    {a : MvccAction} (held : Held id rows data s) (ok : Undisturbed id rows s a) (taken : s.next a = some s') :
    Held id rows data s' := by
  obtain ⟨run, known, seen⟩ := held
  have step := next_cases run.books.keyed taken
  have run' := run.next taken
  refine ⟨run', known.trans step.nextID, fun txn' found' => ?_⟩
  rcases step.active (active_of_get found') with active | new
  · obtain ⟨txn, found⟩ := Option.isSome_iff_exists.1 active
    obtain ⟨level, before⟩ := seen txn found
    have view := step.view known found found'
    have level' : txn'.isolation ≠ .readCommitted := by
      rw [show txn'.isolation = txn.isolation from congrArg (·.2.1) view]
      exact level
    refine ⟨level', fun row mem => ?_⟩
    rw [← before row mem]
    unfold visibleData
    rw [(run.books.txns id txn found).1, (run'.books.txns id txn' found').1]
    simp only [isVisible_step run run' step found found' level]
    exact chain_step run step found level ok mem
  · omega

/-- The data seen of the rows at the end of a run are those at its start. -/
theorem seenData_of_undisturbed {id : Nat} {rows : RowRef → Prop} {s s' : MvccRun} {txn txn' : Transaction}
    (run : RunInv s) (found : s.mgr.txns.get id = some txn) (level : txn.isolation ≠ .readCommitted)
    (later : Reach MvccRun.next (Undisturbed id rows) s s') (found' : s'.mgr.txns.get id = some txn')
    {row : RowRef} (mem : rows row) : s'.mgr.seenData txn' row = s.mgr.seenData txn row := by
  have start : Held id rows (s.mgr.visibleData txn) s := by
    refine ⟨run, (run.books.running id (active_of_get found)).2.1, fun txn' found' => ?_⟩
    cases found.symm.trans found'
    exact ⟨level, fun _ _ => rfl⟩
  have held := later.invariant start fun _ _ _ held ok taken => held.next ok taken
  rw [seenData_eq, seenData_eq, (held.seen txn' found').2 row mem]

/-- Two reads of a row, and two scans of a table, by a running transaction give the same when in
between it does not write there and the others keep the deletions it sees. -/
theorem snapshotStable_of_undisturbed (seed : List (RowRef × RowData)) (maxActive : Nat) (wal : Option Wal.Log)
    (s s' : MvccRun) (id : Nat) (txn : Transaction)
    (reached : Reach MvccRun.next AnyStep (.start seed maxActive wal) s) (found : s.mgr.txns.get id = some txn)
    (level : txn.isolation = .repeatableRead ∨ txn.isolation = .serializable) (active : s'.mgr.Active id) :
    (∀ row, Reach MvccRun.next (Undisturbed id (· = row)) s s' → s'.mgr.readRow id row = s.mgr.readRow id row) ∧
    (∀ table, Reach MvccRun.next (Undisturbed id (·.1 = table)) s s' → ∀ filter key data,
      s'.mgr.ScanReturns id table filter key data ↔ s.mgr.ScanReturns id table filter key data) := by
  have run := RunInv.reach reached
  have level : txn.isolation ≠ .readCommitted := by
    rcases level with eq | eq <;> rw [eq] <;> decide
  obtain ⟨txn', found'⟩ := Option.isSome_iff_exists.1 active
  constructor
  · intro row later
    rw [readRow_of_found found, readRow_of_found found', seenData_of_undisturbed run found level later found' rfl]
  · intro table later filter key data
    have seen : s'.mgr.seenData txn' (table, key) = s.mgr.seenData txn (table, key) :=
      seenData_of_undisturbed run found level later found' rfl
    rw [scanReturns_iff found, scanReturns_iff found', seen]

/-- The row is updated by another transaction between the two reads. -/
theorem snapshotStable_updated : ∃ s s', Reach MvccRun.next (Undisturbed 1 (· = ([97], [49]))) s s' ∧
    s'.mgr.chain ([97], [49]) ≠ s.mgr.chain ([97], [49]) ∧
    s'.mgr.readRow 1 ([97], [49]) = s.mgr.readRow 1 ([97], [49]) := by
  obtain ⟨s, s', reached, later, level, active, differ⟩ := Reach.exists_of_segments MvccRun.next AnyStep
    (Undisturbed 1 (· = ([97], [49]))) (.start [(([97], [49]), some [intVal 1])] 0 none)
    [.begin .repeatableRead, .begin .readCommitted, .read 1 ([97], [49])]
    [.write 2 ([97], [49]) (some [intVal 2]) .update, .commit 2]
    (fun s s' => (s.mgr.txns.get 1).map (·.isolation) = some .repeatableRead ∧ (s'.mgr.txns.get 1).isSome ∧
      s'.mgr.chain ([97], [49]) ≠ s.mgr.chain ([97], [49])) (by decide)
  obtain ⟨txn, found, level⟩ := Option.map_eq_some_iff.1 level
  exact ⟨s, s', later, differ, (snapshotStable_of_undisturbed _ _ _ s s' 1 txn reached found
    (.inl level) active).1 _ later⟩

/-- Transaction 2 deletes the row before transaction 3 begins. Transaction 1, which is older, updates the row, and
transaction 3 sees the deleted version. -/
theorem not_snapshotStable : ¬ ∀ (seed : List (RowRef × RowData)) (maxActive : Nat) (wal : Option Wal.Log)
    (s s' : MvccRun) (id : Nat) (txn : Transaction),
    Reach MvccRun.next AnyStep (.start seed maxActive wal) s → s.mgr.txns.get id = some txn →
    txn.isolation = .repeatableRead ∨ txn.isolation = .serializable → s'.mgr.Active id →
    (∀ row, Reach MvccRun.next (fun _ => NotWrittenBy id (· = row)) s s' →
      s'.mgr.readRow id row = s.mgr.readRow id row) ∧
    (∀ table, Reach MvccRun.next (fun _ => NotWrittenBy id (·.1 = table)) s s' → ∀ filter key data,
      s'.mgr.ScanReturns id table filter key data ↔ s.mgr.ScanReturns id table filter key data) := by
  intro claim
  obtain ⟨s, s', reached, later, level, active, differ⟩ := Reach.exists_of_segments MvccRun.next AnyStep
    (fun _ => NotWrittenBy 3 (· = ([97], [49]))) (.start [(([97], [49]), some [intVal 1])] 0 none)
    [.begin .repeatableRead, .begin .repeatableRead, .write 2 ([97], [49]) none .delete, .commit 2,
      .begin .repeatableRead]
    [.write 1 ([97], [49]) (some [intVal 2]) .update]
    (fun s s' => (s.mgr.txns.get 3).map (·.isolation) = some .repeatableRead ∧ (s'.mgr.txns.get 3).isSome ∧
      (s'.mgr.readRow 3 ([97], [49])).toOption ≠ (s.mgr.readRow 3 ([97], [49])).toOption) (by decide)
  obtain ⟨txn, found, level⟩ := Option.map_eq_some_iff.1 level
  have same := (claim _ _ _ s s' 3 txn reached found (.inl level) active).1 _ later
  exact differ (congrArg _ same)

end TransactionManager.Txn
