import TransactionManager.Txn.TwoPL

/-!
# Abort of a 2PL transaction

`Begin`, a sequence of `TwoPLWrite` calls under the transaction's locks, and `Abort`. The undo
of an entry is chosen by the operation and by whether its before-image is nil, not by whether
the row was there: an insert over a row is undone by deleting it, and an update of a row that
is missing, or has nil values, is not undone at all.
-/

namespace TransactionManager.Txn
open Lib TransactionManager.Types Lock List Storage Wal Manager
variable {w : RowWrite} {row : Option RowData}

namespace Manager

/-- The loop of `applyUndoEntries` over the entries in the order in which they are undone.
Gives the LSN of the last CLR. -/
def undoEntries (m : Manager) (txnID : Nat) : List UndoEntry → Nat → Nat × Manager
  | [], lastCLR => (lastCLR, m)
  | e :: more, lastCLR =>
    (m.undoEntry txnID e more lastCLR).2.undoEntries txnID more (m.undoEntry txnID e more lastCLR).1

def applyUndoEntries (m : Manager) (entries : List UndoEntry) (txnID : Nat) : Nat × Manager :=
  m.undoEntries txnID entries.reverse LSNInvalid

def releaseAllLocks (m : Manager) (txnID : Nat) (held : HeldSet) : Manager :=
  held.keys.foldl (fun m r => match m.lockTable.get r.name with
    | none => m
    | some q => m.reapQueue r.name (releaseLocked q txnID)) m

/-- `Abort` of a 2PL transaction. -/
def twoPLAbort (m : Manager) (id : Nat) : Outcome × Manager :=
  match m.txns.get id with
  | none => (m.abortTerminal id, m)
  | some txn =>
    let (lastCLR, m) := (m.markAborted id).applyUndoEntries txn.undoLog id
    let m := m.releaseAllLocks id txn.locksHeld
    let prev := if lastCLR = LSNInvalid then txn.lastWALLSN else lastCLR
    (.ok, (m.logAppend (abortRecord id prev)).2)

/-- `TwoPLWrite` of a transaction that has its locks. -/
def writeRow (id : Nat) (m : Manager) (w : RowWrite) : Manager :=
  match m.txns.get id with
  | some txn => (m.twoPLWrite txn w.row w.values w.op).2
  | none => m

def entryOf (m : Manager) (w : RowWrite) (lsn : Nat) : UndoEntry :=
  ⟨w.op, w.row.1, w.row.2, (m.catalog.row w.row.1 w.row.2).getD none, lsn⟩

/-- The table of the write is there, and the codec takes its before-image and its values. -/
def accepts (m : Manager) (w : RowWrite) : Bool := (m.catalog.lookup w.row.1).isSome &&
    (m.encodeBefore ((m.catalog.row w.row.1 w.row.2).getD none)).isSome &&
    (m.encodeAfter w.values).isSome

/-- The writes of a row that are carried out. Only the first before-image can be one that the
codec does not take. -/
def accepted (m : Manager) (row : RowRef) (ws : List RowWrite) : List RowWrite :=
  if (m.catalog.lookup row.1).isSome ∧ (m.encodeBefore ((m.catalog.row row.1 row.2).getD none)).isSome then
    ws.filter fun w => w.row = row ∧ (m.encodeAfter w.values).isSome
  else []

end Manager

/-- An update that stores values. -/
def RowWrite.PutsValues (w : RowWrite) : Prop := w.op = .update ∧ w.values ≠ none

theorem RowWrite.PutsValues.outcome (puts : w.PutsValues) : ∃ image, w.outcome = some (some image) := by
  obtain ⟨update, some⟩ := puts
  obtain ⟨image, values⟩ := Option.ne_none_iff_exists'.1 some
  exact ⟨image, by simp [RowWrite.outcome, update, values]⟩

theorem RowWrite.outcome_of_not (insert : w.op ≠ .insert) (puts : ¬ w.PutsValues) : w.outcome.getD none = none := by
  unfold outcome
  cases op : w.op with
  | insert => exact absurd op insert
  | delete => rfl
  | update => exact not_not.1 fun some => puts ⟨op, some⟩

/-- The writes of a row are undone, by what the row was before the first of them. -/
def Restorable : Option RowData → List RowWrite → Prop
  -- the row had values
  | some (some _), ws => ∀ w ∈ ws.head?, w.op ≠ .insert
  -- the row had nil values
  | some none, ws => (∀ w ∈ ws, w.op ≠ .insert ∧ ¬ w.PutsValues) ∧ ∀ w ∈ ws.getLast?, w.op = .update
  -- there was no row
  | none, ws =>
    let early := ws.takeWhile fun w => w.op ≠ .insert
    (∀ w ∈ early.dropLast, ¬ w.PutsValues) ∧ (early = ws → ∀ w ∈ ws.getLast?, w.op ≠ .update)

/-- The row when the writes of it have been made and undone. -/
def undoneRow : Option RowData → List RowWrite → Option RowData
  | row, [] => row
  | row, w :: ws =>
    match w.op, row with
    | .insert, _ => none
    | _, some (some image) => some (some image)
    | _, _ => undoneRow w.outcome ws

theorem undoneRow_some (image : List Value) (ws : List RowWrite) :
    undoneRow (some (some image)) ws = some (some image) ↔ ∀ w ∈ ws.head?, w.op ≠ .insert := by
  cases ws with
  | nil => simp [undoneRow]
  | cons w ws => cases op : w.op <;> simp [undoneRow, op]

theorem forall_dropLast_cons {P : RowWrite → Prop} (w : RowWrite) (ws : List RowWrite) :
    (∀ x ∈ (w :: ws).dropLast, P x) ↔ (ws ≠ [] → P w) ∧ ∀ x ∈ ws.dropLast, P x := by
  cases ws <;> simp

theorem forall_getLast_cons {P : RowWrite → Prop} (w : RowWrite) (ws : List RowWrite) :
    (∀ x ∈ (w :: ws).getLast?, P x) ↔ (ws = [] → P w) ∧ ∀ x ∈ ws.getLast?, P x := by
  cases ws <;> simp [getLast?_cons_cons]

/-- An update or a delete passes when there are no values to give back. -/
theorem undoneRow_cons_of_nil (nil : row.getD none = none)
    (op : w.op ≠ .insert) (ws : List RowWrite) : undoneRow row (w :: ws) = undoneRow w.outcome ws := by
  rcases row with _ | _ | image
  · cases kind : w.op <;> simp_all [undoneRow]
  · cases kind : w.op <;> simp_all [undoneRow]
  · cases nil

/-- Without values before, every update and delete passes until one follows an update with
values. -/
theorem undoneRow_of_nil (nil : row.getD none = none) (ws : List RowWrite) : (undoneRow row ws = none ↔
      (∀ w ∈ (ws.takeWhile fun w => w.op ≠ .insert).dropLast, ¬ w.PutsValues) ∧
      (ws.takeWhile (fun w => w.op ≠ .insert) = ws → (∀ w ∈ ws.getLast?, w.op ≠ .update) ∧ (ws = [] → row = none))) ∧
    (undoneRow row ws = some none ↔ (∀ w ∈ ws, w.op ≠ .insert ∧ ¬ w.PutsValues) ∧
      (∀ w ∈ ws.getLast?, w.op = .update) ∧ (ws = [] → row = some none)) := by
  induction ws generalizing row with
  | nil => simp [undoneRow]
  | cons w ws ih =>
    by_cases insert : w.op = .insert
    · simp [undoneRow, insert]
    rw [undoneRow_cons_of_nil nil insert, takeWhile_cons_of_pos (by simpa using insert), forall_dropLast_cons,
      forall_getLast_cons, forall_getLast_cons, forall_mem_cons, cons.injEq]
    by_cases puts : w.PutsValues
    · -- the next write finds the values, and gives them back unless it is an insert
      obtain ⟨image, outcome⟩ := puts.outcome
      cases ws with
      | nil => simp [undoneRow, outcome, puts, puts.1]
      | cons w' ws => cases op : w'.op <;> simp [undoneRow, outcome, op, puts]
    · have outcome := RowWrite.outcome_of_not insert puts
      have gone : (w.outcome = none ↔ w.op ≠ .update) ∧ (w.outcome = some none ↔ w.op = .update) := by
        unfold RowWrite.outcome at outcome ⊢
        cases op : w.op <;> simp_all
      rw [(ih outcome).1, (ih outcome).2, gone.1, gone.2]
      constructor <;> tauto

/-- A row is given back exactly when its writes are undone. -/
theorem undoneRow_iff (row : Option RowData) (ws : List RowWrite) : undoneRow row ws = row ↔ Restorable row ws := by
  rcases row with _ | _ | image
  · rw [(undoneRow_of_nil rfl ws).1]
    simp only [implies_true, and_true]
    rfl
  · rw [(undoneRow_of_nil rfl ws).2]
    simp only [implies_true, and_true]
    rfl
  · exact undoneRow_some image ws

instance (row : Option RowData) (ws : List RowWrite) : Decidable (Restorable row ws) :=
  decidable_of_iff _ (undoneRow_iff row ws)

def undoAll (entries : List UndoEntry) (c : Catalog) : Catalog := entries.foldr (fun e c => restore c e) c

namespace Manager
variable (m : Manager) {id : Nat} {txn : Transaction} {w : RowWrite}

theorem catalog_logAppend (rec : LogRecord) : (m.logAppend rec).2.catalog = m.catalog := by
  unfold logAppend
  split <;> rfl

theorem isSome_wal_logAppend (rec : LogRecord) : (m.logAppend rec).2.wal.isSome = m.wal.isSome := by
  unfold logAppend
  split
  · rename_i log eq
    rw [eq]
    rfl
  · rfl

theorem catalog_undoEntry (txnID : Nat) (e : UndoEntry) (more : List UndoEntry) (lastCLR : Nat) :
    (m.undoEntry txnID e more lastCLR).2.catalog = restore m.catalog e := by
  have logged : (m.logCLR txnID e more lastCLR).2.catalog = m.catalog := by
    unfold logCLR
    split
    · exact m.catalog_logAppend _
    · rfl
  exact congrArg (restore · e) logged

theorem catalog_undoEntries (txnID : Nat) (rest : List UndoEntry) (lastCLR : Nat) :
    (m.undoEntries txnID rest lastCLR).2.catalog = rest.foldl restore m.catalog := by
  induction rest generalizing m lastCLR with
  | nil => rfl
  | cons e more ih =>
    unfold undoEntries
    rw [ih, catalog_undoEntry]
    rfl

theorem catalog_applyUndoEntries (entries : List UndoEntry) (txnID : Nat) :
    (m.applyUndoEntries entries txnID).2.catalog = undoAll entries m.catalog := by
  unfold applyUndoEntries
  rw [catalog_undoEntries, foldl_reverse]
  rfl

theorem catalog_releaseAllLocks (txnID : Nat) (held : HeldSet) :
    (m.releaseAllLocks txnID held).catalog = m.catalog := by
  refine List.foldlRecOn (motive := fun m' : Manager => m'.catalog = m.catalog) held.keys _ rfl fun m' same r _ => ?_
  split <;> exact same

theorem catalog_twoPLAbort (found : m.txns.get id = some txn) :
    (m.twoPLAbort id).2.catalog = undoAll txn.undoLog m.catalog := by
  unfold twoPLAbort
  rw [found]
  rw [catalog_logAppend, catalog_releaseAllLocks, catalog_applyUndoEntries]
  rfl

theorem row_of_lookup {c : Catalog} {row : RowRef} {t : Table}
    (found : c.lookup row.1 = some t) : c.row row.1 row.2 = t.getRow row.2 := by
  unfold Catalog.row
  rw [found]
  rfl

theorem writeRow_of_refused (refused : m.accepts w = false) : m.writeRow id w = m := by
  unfold writeRow twoPLWrite
  split
  · split
    · rfl
    rename_i t table
    dsimp only
    split
    · rename_i before after
      rw [← row_of_lookup table] at before
      simp [accepts, table, before, after] at refused
    · rfl
  · rfl

theorem writeRow_of_accepted (found : m.txns.get id = some txn) (own : txn.id = id) (accepted : m.accepts w = true) :
    (m.writeRow id w).catalog = w.apply m.catalog ∧ (m.writeRow id w).wal.isSome = m.wal.isSome ∧
    ∃ txn' lsn, (m.writeRow id w).txns.get id = some txn' ∧ txn'.id = id ∧
      txn'.protocol = txn.protocol ∧ txn'.savepoints = txn.savepoints ∧
      txn'.undoLog = txn.undoLog ++ [m.entryOf w lsn] := by
  simp only [accepts, Bool.and_eq_true, Option.isSome_iff_exists] at accepted
  obtain ⟨⟨⟨t, table⟩, before, encoded⟩, after, encoded'⟩ := accepted
  have row := row_of_lookup table
  unfold entryOf
  rw [row] at encoded ⊢
  unfold writeRow twoPLWrite
  rw [found]
  rw [table]
  dsimp only
  rw [encoded, encoded']
  exact ⟨congrArg (applyOp · w.row w.values w.op) (m.catalog_logAppend _), m.isSome_wal_logAppend _,
    _, _, (GoMap.get_set ..).trans (if_pos own.symm), own, rfl, rfl, rfl⟩

variable {m}

theorem encodeBefore_of_wal {m' : Manager} (same : m'.wal.isSome = m.wal.isSome) :
    m'.encodeBefore = m.encodeBefore := by
  funext data
  unfold encodeBefore
  cases one : m'.wal <;> cases two : m.wal <;> simp_all

theorem encodeAfter_of_wal {m' : Manager} (same : m'.wal.isSome = m.wal.isSome) : m'.encodeAfter = m.encodeAfter := by
  funext values
  unfold encodeAfter
  cases one : m'.wal <;> cases two : m.wal <;> cases values <;> simp_all

/-- What the codec takes as values it takes as a before-image. -/
theorem isSome_encodeBefore_outcome (after : (m.encodeAfter w.values).isSome) :
    (m.encodeBefore (w.outcome.getD none)).isSome := by
  have empty : (m.encodeBefore none).isSome := by
    unfold encodeBefore
    split <;> rfl
  unfold RowWrite.outcome
  split
  · exact empty
  cases values : w.values with
  | none => exact empty
  | some vs =>
    rw [values] at after
    unfold encodeAfter at after
    unfold encodeBefore
    split
    · rename_i log on
      rw [on] at after
      exact after
    · rfl

theorem accepted_cons_of_refused (refused : m.accepts w = false) (row : RowRef)
    (ws : List RowWrite) : m.accepted row (w :: ws) = m.accepted row ws := by
  unfold accepted
  split
  · rename_i takes
    rw [filter_cons_of_neg]
    rintro hit
    obtain ⟨rfl, after⟩ := of_decide_eq_true hit
    simp [accepts, takes.1, takes.2, after] at refused
  · rfl

/-- The writes that are carried out after an accepted one. -/
theorem accepted_cons (found : m.txns.get id = some txn) (own : txn.id = id) (takes : m.accepts w = true)
    (row : RowRef) (ws : List RowWrite) (table : (m.catalog.lookup row.1).isSome) : m.accepted row (w :: ws) =
      if row = w.row then w :: (m.writeRow id w).accepted row ws
      else (m.writeRow id w).accepted row ws := by
  obtain ⟨catalog, wal, -⟩ := m.writeRow_of_accepted found own takes
  simp only [accepts, Bool.and_eq_true] at takes
  obtain ⟨⟨-, before⟩, after⟩ := takes
  have table' : ((w.apply m.catalog).lookup row.1).isSome :=
    (isSome_lookup_applyOp m.catalog w.row w.values w.op row.1).trans table
  unfold accepted
  rw [catalog, encodeBefore_of_wal wal, encodeAfter_of_wal wal, row_apply _ w row fun _ => table]
  by_cases hit : row = w.row
  · subst hit
    have before' := isSome_encodeBefore_outcome after
    simp [table, table', before, before', after]
  · have miss : ¬ w.row = row := fun eq => hit eq.symm
    simp [table, table', hit, miss]

/-- Undo of the writes made from here on. -/
theorem row_undoAll_writes (ws : List RowWrite) {m : Manager} (found : m.txns.get id = some txn) (own : txn.id = id) :
    ∃ txn' entries, (ws.foldl (writeRow id) m).txns.get id = some txn' ∧ txn'.undoLog = txn.undoLog ++ entries ∧
      (∀ name, ((undoAll entries (ws.foldl (writeRow id) m).catalog).lookup name).isSome =
        (m.catalog.lookup name).isSome) ∧
      ∀ row : RowRef, (m.catalog.lookup row.1).isSome →
        (undoAll entries (ws.foldl (writeRow id) m).catalog).row row.1 row.2 =
          undoneRow (m.catalog.row row.1 row.2) (m.accepted row ws) := by
  induction ws generalizing m txn with
  | nil =>
    refine ⟨txn, [], found, (append_nil _).symm, fun _ => rfl, fun row table => ?_⟩
    have none : m.accepted row [] = [] := by
      unfold accepted
      split <;> rfl
    rw [none]
    rfl
  | cons w ws ih =>
    rw [foldl_cons]
    cases takes : m.accepts w with
    | false =>
      rw [m.writeRow_of_refused takes]
      simp only [accepted_cons_of_refused takes]
      exact ih found own
    | true =>
      obtain ⟨catalog, wal, txn₁, lsn, found₁, own₁, -, -, undoLog⟩ := m.writeRow_of_accepted found own takes
      obtain ⟨txn', entries, found', undoLog', tables, rows⟩ := ih found₁ own₁
      generalize last : ws.foldl (writeRow id) (m.writeRow id w) = m' at *
      have kept (name : GoString) : ((m.writeRow id w).catalog.lookup name).isSome =
          (m.catalog.lookup name).isSome := by
        rw [catalog]
        exact isSome_lookup_applyOp m.catalog w.row w.values w.op name
      refine ⟨txn', m.entryOf w lsn :: entries, found', ?_, fun name => ?_, fun row table => ?_⟩
      · rw [undoLog', undoLog, append_assoc]
        rfl
      · exact (isSome_lookup_restore _ _ name).trans ((tables name).trans (kept name))
      have table' := (kept row.1).trans table
      show (restore (undoAll entries m'.catalog) (m.entryOf w lsn)).row row.1 row.2 = _
      rw [row_restore _ _ row fun _ => (tables row.1).trans table', rows row table', catalog,
        row_apply _ w row fun _ => table, accepted_cons found own takes row ws table]
      show (if row = w.row then (m.entryOf w lsn).undone _ else _) = _
      by_cases hit : row = w.row
      · subst hit
        unfold UndoEntry.undone entryOf
        cases op : w.op <;> rcases m.catalog.row w.row.1 w.row.2 with _ | _ | image <;>
          simp [undoneRow, op]
      · rw [if_neg hit, if_neg hit, if_neg hit]

theorem begin_fresh {protocol : ConcurrencyProtocol} {isoLevel : IsolationLevel}
    (began : (m.begin protocol isoLevel).1 = .ok) :
    (m.begin protocol isoLevel).2.catalog = m.catalog ∧
    (m.begin protocol isoLevel).2.wal.isSome = m.wal.isSome ∧
    ∃ txn, (m.begin protocol isoLevel).2.txns.get (m.nextID + 1) = some txn ∧ txn.id = m.nextID + 1 ∧
      txn.undoLog = [] ∧ txn.savepoints = [] ∧ txn.protocol = protocol := by
  unfold begin at began ⊢
  split at began
  · cases began
  · rename_i room
    rw [if_neg room]
    exact ⟨catalog_logAppend _ _, isSome_wal_logAppend _ _, _,
      (GoMap.get_set ..).trans (if_pos rfl), rfl, rfl, rfl, rfl⟩

end Manager

/-- A transaction begins, writes, and aborts. -/
def abortedAfter (m : Manager) (isoLevel : IsolationLevel) (ws : List RowWrite) : Manager :=
  ((ws.foldl (writeRow (m.nextID + 1)) (m.begin .twoPL isoLevel).2).twoPLAbort (m.nextID + 1)).2

/-- The rows after a transaction has written and aborted are those from before exactly when
the writes of every row are ones that undo takes back. -/
theorem sameRows_abort_iff (m : Manager) (isoLevel : IsolationLevel) (ws : List RowWrite)
    (began : (m.begin .twoPL isoLevel).1 = .ok) :
    SameRows (abortedAfter m isoLevel ws).catalog m.catalog ↔
      ∀ row : RowRef, Restorable (m.catalog.row row.1 row.2) (m.accepted row ws) := by
  obtain ⟨catalog, wal, txn, found, own, empty, -⟩ := begin_fresh began
  obtain ⟨txn', entries, found', undoLog, tables, rows⟩ := row_undoAll_writes ws found own
  have undone : (abortedAfter m isoLevel ws).catalog =
      undoAll entries (ws.foldl (writeRow (m.nextID + 1)) (m.begin .twoPL isoLevel).2).catalog := by
    unfold abortedAfter
    rw [catalog_twoPLAbort _ found', undoLog, empty, nil_append]
  have same (row : RowRef) : (m.begin .twoPL isoLevel).2.accepted row ws = m.accepted row ws := by
    unfold accepted
    rw [catalog, encodeBefore_of_wal wal, encodeAfter_of_wal wal]
  simp only [catalog, same] at tables rows
  rw [undone]
  constructor
  · intro restored row
    rw [← undoneRow_iff]
    by_cases table : (m.catalog.lookup row.1).isSome
    · rw [← rows row table, restored.rows row]
    · have none : m.accepted row ws = [] := if_neg fun takes => table takes.1
      rw [none]
      rfl
  · intro restorable
    refine ⟨tables, fun row => ?_⟩
    by_cases table : (m.catalog.lookup row.1).isSome
    · rw [rows row table, (undoneRow_iff _ _).2 (restorable row)]
    · have missing := Bool.eq_false_iff.2 table
      rw [row_eq_none missing, row_eq_none ((tables row.1).trans missing)]

def oneRow : Manager where
  catalog := GoMap.set ∅ [97] (GoMap.set ∅ [49] (some [intVal 1]))

/-- The row is updated, deleted and inserted again. -/
theorem sameRows_abort_reinserted :
    SameRows (abortedAfter oneRow .serializable [⟨([97], [49]), .update, some [intVal 2]⟩,
      ⟨([97], [49]), .delete, none⟩, ⟨([97], [49]), .insert, some [intVal 3]⟩]).catalog oneRow.catalog := by
  refine (sameRows_abort_iff oneRow .serializable _ rfl).2 fun row => ?_
  by_cases hit : ([97], [49]) = row
  · subst hit
    decide
  have none : oneRow.accepted row [⟨([97], [49]), .update, some [intVal 2]⟩,
      ⟨([97], [49]), .delete, none⟩, ⟨([97], [49]), .insert, some [intVal 3]⟩] = [] := by
    unfold accepted
    simp [hit]
  rw [none]
  exact (undoneRow_iff _ []).1 rfl

/-- An update of a row that is missing creates it, and is not undone. -/
theorem not_sameRows_abort : ¬ ∀ (m : Manager) (isoLevel : IsolationLevel) (ws : List RowWrite),
    (m.begin .twoPL isoLevel).1 = .ok → SameRows (abortedAfter m isoLevel ws).catalog m.catalog := by
  intro claim
  have same := (claim oneRow .serializable [⟨([97], [50]), .update, some [intVal 2]⟩] rfl).rows ([97], [50])
  exact absurd same (by decide)

end TransactionManager.Txn
