import TransactionManager.Storage.Catalog
import TransactionManager.Wal.Record

/-!
# Crash recovery

`RunRecovery` and `ApplyRedoOps` of `internal/wal/recovery.go`, `FindLastCheckpoint` of
`checkpoint.go` and the applier of `cmd/server/main.go`, over the records that the log file
yields. The analysis pass keeps one entry for each transaction ID; what it makes of an ID
depends on the records of that ID only.
-/

namespace TransactionManager.Wal
open Lib TransactionManager.Types List GoMap Storage
variable {rec : LogRecord} {log : List LogRecord} {id : Nat}

structure CheckpointState where
  att : List (Nat × ATTEntry) := []
  endLSN : Nat := LSNInvalid

/-- `FindLastCheckpoint`: the last `CHECKPOINT_END`, with the table of the
`CHECKPOINT_BEGIN` it names. -/
def findLastCheckpoint (log : List LogRecord) : CheckpointState :=
  match log.reverse.find? fun rec => rec.type = .checkpointEnd with
  | none => {}
  | some last =>
    match log.reverse.find? fun rec => rec.type = .checkpointBegin ∧ rec.lsn = last.beginLSN with
    | none => { endLSN := last.lsn }
    | some first => { att := first.att, endLSN := last.lsn }

/-- The body of the analysis loop for one record, on the entry of its transaction. -/
def analyzeEntry (e : Option ATTEntry) (rec : LogRecord) : Option ATTEntry :=
  match rec.type, e with
  | .begin, none => some { firstLSN := rec.lsn, lastLSN := rec.lsn, status := 0 }
  | .begin, some e => some e
  | .write, none | .clr, none => some { firstLSN := rec.lsn, lastLSN := rec.lsn, status := 0 }
  | .write, some e | .clr, some e => some { e with lastLSN := rec.lsn }
  | .commit, e => e.map fun e => { e with lastLSN := rec.lsn, status := 1 }
  | .abort, e => e.map fun e => { e with lastLSN := rec.lsn, status := 2 }
  | _, e => e

/-- One round of the analysis loop. -/
def analyze (att : GoMap Nat ATTEntry) (rec : LogRecord) : GoMap Nat ATTEntry :=
  match analyzeEntry (att.get rec.txnID) rec with
  | some e => att.set rec.txnID e
  | none => att

structure RedoOp where
  txnID : Nat
  lsn : Nat
  op : Nat
  table : GoString
  key : GoString
  after : List UInt8
  deriving DecidableEq

def LogRecord.redoOp (rec : LogRecord) : RedoOp := ⟨rec.txnID, rec.lsn, rec.op, rec.table, rec.key, rec.after⟩

structure RecoveryResult where
  committed : List Nat
  aborted : List Nat
  undoTxns : List (Nat × Nat)
  redoOps : List RedoOp

/-- Where the redo pass starts: the least first LSN of the table. -/
def redoStart (att : GoMap Nat ATTEntry) : Nat := att.keys.foldl (fun start id => match att.get id with
    | some e => if start = LSNInvalid ∨ e.firstLSN < start then e.firstLSN else start
    | none => start) LSNInvalid

/-- The status the analysis pass ends with. -/
def statusOf (att : GoMap Nat ATTEntry) (id : Nat) : Option Nat := (att.get id).map (·.status)

/-- The transaction table at the end of the analysis pass. -/
def analysis (log : List LogRecord) : GoMap Nat ATTEntry :=
  let cp := findLastCheckpoint log
  let att := cp.att.foldl (fun att e => att.set e.1 e.2) ∅
  let scanFrom := if cp.endLSN = LSNInvalid then 1 else cp.endLSN
  (log.filter fun rec => scanFrom ≤ rec.lsn).foldl analyze att

def runRecovery (log : List LogRecord) : RecoveryResult :=
  let att := analysis log
  let start := redoStart att
  { committed := att.keys.filter fun id => statusOf att id = some 1
    aborted := att.keys.filter fun id => statusOf att id = some 2
    undoTxns := att.keys.filterMap fun id => (att.get id).bind fun e =>
      if e.status = 0 then some (id, e.lastLSN) else none
    redoOps :=
      if start = LSNInvalid then []
      else ((log.filter fun rec => start ≤ rec.lsn).filter fun rec =>
        rec.type = .write ∧ statusOf att rec.txnID = some 1).map LogRecord.redoOp }

/-- The server's `SetRow`: bytes that do not decode are skipped. -/
def setRow (c : Catalog) (table key : GoString) (vals : List UInt8) : Catalog :=
  match decodeValues vals with
  | .ok decoded => c.modify table fun t => t.putRow key (some decoded)
  | .error _ => c

/-- The body of `ApplyRedoOps`. -/
def applyRedoOp (c : Catalog) (op : RedoOp) : Catalog :=
  match op.op with
  | 0 | 1 => setRow c op.table op.key op.after
  | 2 => c.modify op.table fun t => t.deleteRow op.key
  | _ => c

def applyRedoOps (ops : List RedoOp) (c : Catalog) : Catalog := ops.foldl applyRedoOp c

/-- The records of a transaction, in file order. -/
def recordsOf (log : List LogRecord) (id : Nat) : List LogRecord := log.filter fun rec => rec.txnID = id

theorem mem_recordsOf (mem : rec ∈ log) : rec ∈ recordsOf log rec.txnID := mem_filter.2 ⟨mem, decide_eq_true rfl⟩

theorem analyzeEntry_eq_none {e : Option ATTEntry} (none' : analyzeEntry e rec = none) : e = none := by
  cases e with
  | none => rfl
  | some e => cases type : rec.type <;> simp [analyzeEntry, type] at none'

theorem get_analyze (att : GoMap Nat ATTEntry) (rec : LogRecord) (id : Nat) : (analyze att rec).get id =
      if id = rec.txnID then analyzeEntry (att.get id) rec else att.get id := by
  unfold analyze
  split
  · rename_i e eq
    rw [get_set]
    split
    · rename_i same
      rw [same, eq]
    · rfl
  · rename_i eq
    split
    · rename_i same
      rw [same, eq]
      exact analyzeEntry_eq_none eq
    · rfl

/-- What the analysis pass makes of an ID depends on the records of that ID. -/
theorem get_foldl_analyze (log : List LogRecord) (id : Nat) :
    (log.foldl analyze ∅).get id = (recordsOf log id).foldl analyzeEntry none := by
  unfold recordsOf
  induction log using List.reverseRecOn with
  | nil => rfl
  | append_singleton log last ih =>
    rw [filter_append, foldl_append, foldl_append, ← ih]
    show (analyze (log.foldl analyze ∅) last).get id = _
    rw [get_analyze]
    by_cases same : id = last.txnID
    · rw [if_pos same, filter_singleton]
      simp [same]
    · rw [if_neg same, filter_singleton]
      simp [Ne.symm same]

/-- A `BEGIN` or a `WRITE` leaves an entry, and entries stay. -/
theorem get_foldl_analyze_ne_none (mem : rec ∈ log) (opens : rec.type = .begin ∨ rec.type = .write) :
    (log.foldl analyze ∅).get rec.txnID ≠ none := by
  obtain ⟨front, back, eq⟩ := append_of_mem (mem_recordsOf mem)
  rw [get_foldl_analyze, eq, foldl_append, foldl_cons]
  refine foldlRecOn (motive := (· ≠ none)) back _ ?_ fun e some' rec _ none' => some' (analyzeEntry_eq_none none')
  cases front.foldl analyzeEntry none <;> rcases opens with type | type <;> simp [analyzeEntry, type]

/-- No checkpoints, and LSNs from 1 that grow along each transaction. -/
structure Threaded (log : List LogRecord) : Prop where
  ordinary : ∀ rec ∈ log, rec.type ≠ .checkpointBegin ∧ rec.type ≠ .checkpointEnd
  positive : ∀ rec ∈ log, 1 ≤ rec.lsn
  sorted : ∀ id, (recordsOf log id).Pairwise fun a b => a.lsn < b.lsn

/-- No checkpoints, and LSNs that grow from 1. -/
structure Plain (log : List LogRecord) : Prop where
  ordinary : ∀ rec ∈ log, rec.type ≠ .checkpointBegin ∧ rec.type ≠ .checkpointEnd
  positive : ∀ rec ∈ log, 1 ≤ rec.lsn
  sorted : log.Pairwise fun a b => a.lsn < b.lsn

namespace Plain
variable {log : List LogRecord} {rec : LogRecord}

theorem threaded (plain : Plain log) : Threaded log :=
  ⟨plain.ordinary, plain.positive, fun _ => plain.sorted.sublist filter_sublist⟩

theorem snoc (plain : Plain log) {n : Nat} (ordinary : rec.type ≠ .checkpointBegin ∧
    rec.type ≠ .checkpointEnd) (positive : 1 ≤ n) (below : ∀ r ∈ log, r.lsn < n) :
    Plain (log ++ [{ rec with lsn := n }]) where
  ordinary := forall_mem_append.2 ⟨plain.ordinary, forall_mem_singleton.2 ordinary⟩
  positive := forall_mem_append.2 ⟨plain.positive, forall_mem_singleton.2 positive⟩
  sorted := by
    refine pairwise_append.2 ⟨plain.sorted, pairwise_singleton _ _, ?_⟩
    intro r mem last here
    rw [mem_singleton.1 here]
    exact below r mem

theorem of_prefix {front : List LogRecord} (plain : Plain log) (part : front <+: log) : Plain front where
  ordinary r mem := plain.ordinary r (part.subset mem)
  positive r mem := plain.positive r (part.subset mem)
  sorted := plain.sorted.sublist part.sublist

end Plain

/-- Without a checkpoint the analysis pass reads the whole log. -/
theorem Threaded.analysis_eq (threaded : Threaded log) : analysis log = log.foldl analyze ∅ := by
  have none' : findLastCheckpoint log = {} := by
    unfold findLastCheckpoint
    rw [find?_eq_none.2]
    intro rec mem
    simpa using (threaded.ordinary rec (mem_reverse.1 mem)).2
  unfold analysis
  rw [none']
  simp only [if_pos]
  rw [filter_eq_self.2]
  · rfl
  · intro rec mem
    simpa using threaded.positive rec mem

/-- The entry of a transaction starts at the first record that opens it. -/
theorem firstLSN_of_entry {e : ATTEntry} (sorted : log.Pairwise fun a b => a.lsn < b.lsn)
    (found : log.foldl analyzeEntry none = some e) :
    (∃ rec ∈ log, rec.lsn = e.firstLSN) ∧ ∀ rec ∈ log, rec.type = .write → e.firstLSN ≤ rec.lsn := by
  induction log with
  | nil => cases found
  | cons rec rest ih =>
    rw [foldl_cons] at found
    obtain ⟨before, sorted⟩ := pairwise_cons.1 sorted
    cases opened : analyzeEntry none rec with
    | none =>
      rw [opened] at found
      obtain ⟨⟨first, inside, lsn⟩, le⟩ := ih sorted found
      refine ⟨⟨first, mem_cons_of_mem _ inside, lsn⟩, fun other mem write => ?_⟩
      rcases mem_cons.1 mem with rfl | inside
      · simp [analyzeEntry, write] at opened
      · exact le other inside write
    | some e₀ =>
      have kept : ∃ e', rest.foldl analyzeEntry (some e₀) = some e' ∧ e'.firstLSN = rec.lsn := by
        refine foldlRecOn (motive := (∃ e' : ATTEntry, · = some e' ∧ e'.firstLSN = rec.lsn)) rest _ ?_ ?_
        · refine ⟨e₀, rfl, ?_⟩
          cases type : rec.type <;> simp [analyzeEntry, type] at opened <;> simp [← opened]
        · rintro _ ⟨e', rfl, same⟩ later -
          cases type : later.type <;> simp [analyzeEntry, type, same]
      obtain ⟨e', eq, first⟩ := kept
      rw [opened, eq] at found
      cases found
      refine ⟨⟨rec, mem_cons_self, first.symm⟩, fun other mem _ => ?_⟩
      rcases mem_cons.1 mem with rfl | inside
      · exact first.le
      · have := before other inside
        omega

/-- The redo pass starts at or before every entry. -/
theorem redoStart_le {att : GoMap Nat ATTEntry} (positive : ∀ id e, att.get id = some e → 1 ≤ e.firstLSN)
    {e : ATTEntry} (found : att.get id = some e) :
    redoStart att ≠ LSNInvalid ∧ redoStart att ≤ e.firstLSN := by
  have loop (ids : List Nat) : ∀ id ∈ ids, ∀ e, att.get id = some e →
      let start := ids.foldl (fun start id => match att.get id with
        | some e => if start = LSNInvalid ∨ e.firstLSN < start then e.firstLSN else start
        | none => start) LSNInvalid
      start ≠ LSNInvalid ∧ start ≤ e.firstLSN := by
    induction ids using List.reverseRecOn with
    | nil =>
      intro id mem
      cases mem
    | append_singleton ids last ih =>
      intro id mem e found
      simp only [foldl_append, foldl_cons, foldl_nil]
      rcases mem_append.1 mem with old | new
      · have low := ih id old e found
        unfold LSNInvalid at *
        split
        · have := positive _ _ ‹_›
          split <;> omega
        · exact low
      · have := positive id e found
        simp only [← mem_singleton.1 new, found]
        unfold LSNInvalid at *
        split <;> omega
  exact loop att.keys id ((mem_keys_iff _ _).2 ⟨e, found⟩) e found

/-- `RunRecovery` redoes the writes of the transactions it takes for committed. -/
theorem redoOps_runRecovery (threaded : Threaded log) : (runRecovery log).redoOps = (log.filter fun rec =>
      rec.type = .write ∧ statusOf (log.foldl analyze ∅) rec.txnID = some 1).map LogRecord.redoOp := by
  have positive (id : Nat) (e : ATTEntry) (found : (log.foldl analyze ∅).get id = some e) : 1 ≤ e.firstLSN := by
    rw [get_foldl_analyze] at found
    obtain ⟨⟨rec, mem, eq⟩, -⟩ := firstLSN_of_entry (threaded.sorted id) found
    exact eq ▸ threaded.positive rec (mem_filter.1 mem).1
  simp only [runRecovery, threaded.analysis_eq]
  split
  · -- the table is empty, and so nothing was written
    rename_i invalid
    rw [eq_comm, map_eq_nil_iff, filter_eq_nil_iff]
    intro rec mem redo
    simp only [decide_eq_true_eq] at redo
    obtain ⟨e, found⟩ := Option.ne_none_iff_exists'.1 (get_foldl_analyze_ne_none mem (.inr redo.1))
    exact (redoStart_le positive found).1 invalid
  · rw [filter_filter]
    congr 1
    apply filter_congr
    intro rec mem
    by_cases redo : rec.type = .write ∧ statusOf (log.foldl analyze ∅) rec.txnID = some 1
    · obtain ⟨e, found, -⟩ := Option.map_eq_some_iff.1 redo.2
      have le := (redoStart_le positive found).2
      rw [get_foldl_analyze] at found
      have first := (firstLSN_of_entry (threaded.sorted _) found).2 rec (mem_recordsOf mem) redo.1
      simp [redo, le.trans first]
    · simp [redo]

/-- Every `COMMIT` and `ABORT` comes after a `BEGIN` of its ID. -/
def Opened (log : List LogRecord) : Prop :=
  ∀ front rec, front ++ [rec] <+: log → rec.type = .commit ∨ rec.type = .abort →
    ∃ first ∈ front, first.type = .begin ∧ first.txnID = rec.txnID

namespace Opened
variable {log front : List LogRecord} {rec : LogRecord}

theorem of_prefix (opened : Opened log) (part : front <+: log) : Opened front :=
  fun front' rec part' => opened front' rec (part'.trans part)

theorem snoc (opened : Opened log) (first : rec.type = .commit ∨ rec.type = .abort →
    ∃ first ∈ log, first.type = .begin ∧ first.txnID = rec.txnID) : Opened (log ++ [rec]) := by
  intro front rec' part
  rcases prefix_concat_iff.1 part with whole | old
  · obtain ⟨rfl, eq⟩ := append_inj' whole rfl
    cases eq
    exact first
  · exact opened front rec' old

end Opened

/-- Only a `COMMIT` makes an ID committed and only an `ABORT` makes it aborted. -/
theorem record_of_status {n : Nat} (settled : statusOf (log.foldl analyze ∅) id = some n) : n = 0 ∨
    ∃ rec ∈ log, rec.txnID = id ∧ (rec.type = .commit ∧ n = 1 ∨ rec.type = .abort ∧ n = 2) := by
  revert settled
  refine foldlRecOn (motive := (statusOf · id = some n → _)) log analyze ?_ ?_
  · intro settled
    cases settled
  · intro att ih rec mem settled
    unfold statusOf at *
    rw [get_analyze] at settled
    split at settled
    · cases prior : att.get id <;> cases kind : rec.type <;> grind [analyzeEntry]
    · exact ih settled

/-- The committed IDs are those with a `COMMIT`, as long as such an ID has no `ABORT`. -/
theorem status_eq_one_iff (opened : Opened log)
    (apart : (∃ rec ∈ log, rec.type = .commit ∧ rec.txnID = id) → ∀ rec ∈ log, rec.type = .abort → rec.txnID ≠ id) :
    statusOf (log.foldl analyze ∅) id = some 1 ↔ ∃ rec ∈ log, rec.type = .commit ∧ rec.txnID = id := by
  constructor
  · intro one
    rcases record_of_status one with zero | ⟨rec, mem, same, ⟨commit, -⟩ | ⟨-, two⟩⟩
    · omega
    · exact ⟨rec, mem, commit, same⟩
    · omega
  · intro commit
    have noAbort := apart commit
    obtain ⟨rec, mem, type, rfl⟩ := commit
    obtain ⟨front, back, rfl⟩ := append_of_mem mem
    obtain ⟨first, inside, isBegin, same⟩ := opened front rec ⟨back, by simp⟩ (.inl type)
    obtain ⟨e, entry⟩ := Option.ne_none_iff_exists'.1 (get_foldl_analyze_ne_none inside (.inl isBegin))
    rw [same] at entry
    rw [foldl_append, foldl_cons]
    refine foldlRecOn (motive := fun att => statusOf att rec.txnID = some 1) back analyze ?_ ?_
    · simp [statusOf, get_analyze, entry, analyzeEntry, type]
    · intro att one later after
      have := noAbort later (by simp [after])
      unfold statusOf at *
      rw [get_analyze]
      split
      · obtain ⟨e, entry, status⟩ := Option.map_eq_some_iff.1 one
        cases kind : later.type <;> simp_all [analyzeEntry]
      · exact one

/-- An ID that is reported aborted has an `ABORT`. -/
theorem abort_of_status_eq_two (two : statusOf (log.foldl analyze ∅) id = some 2) :
    ∃ rec ∈ log, rec.type = .abort ∧ rec.txnID = id := by
  rcases record_of_status two with zero | ⟨rec, mem, same, ⟨-, one⟩ | ⟨abort, -⟩⟩
  · omega
  · omega
  · exact ⟨rec, mem, abort, same⟩

theorem status_of_mem_committed (plain : Plain log)
    (mem : id ∈ (runRecovery log).committed) : statusOf (log.foldl analyze ∅) id = some 1 := by
  rw [← plain.threaded.analysis_eq]
  exact of_decide_eq_true (mem_filter.1 mem).2

theorem status_of_mem_aborted (plain : Plain log)
    (mem : id ∈ (runRecovery log).aborted) : statusOf (log.foldl analyze ∅) id = some 2 := by
  rw [← plain.threaded.analysis_eq]
  exact of_decide_eq_true (mem_filter.1 mem).2

/-- A write is redone when its ID is taken for committed. -/
theorem mem_redoOps_iff (plain : Plain log) (mem : rec ∈ log)
    (write : rec.type = .write) : rec.redoOp ∈ (runRecovery log).redoOps ↔
      statusOf (log.foldl analyze ∅) rec.txnID = some 1 := by
  rw [redoOps_runRecovery plain.threaded]
  constructor
  · intro redone
    obtain ⟨other, inside, same⟩ := mem_map.1 redone
    have id : other.txnID = rec.txnID := congrArg RedoOp.txnID same
    rw [← id]
    exact (of_decide_eq_true (mem_filter.1 inside).2).2
  · intro one
    exact mem_map_of_mem (mem_filter.2 ⟨mem, by simp [write, one]⟩)

/-- What a record says about the status of its transaction when it is the last one. -/
def LogRecord.status (rec : LogRecord) : Nat :=
  match rec.type with
  | .commit => 1
  | .abort => 2
  | _ => 0

/-- The records of one transaction: a `BEGIN`, then `WRITE`s and `CLR`s, then at most one `COMMIT` or
`ABORT`. -/
inductive Life : List LogRecord → Prop where
  | begun {first} (type : first.type = .begin) : Life [first]
  | went {front rec} (life : Life front) (running : ∀ last ∈ front.getLast?, last.status = 0)
      (type : rec.type ∈ [.write, .clr, .commit, .abort]) : Life (front ++ [rec])

/-- The entry of a transaction is as its final record says. -/
theorem Life.entry (life : Life log) : ∃ e last, log.foldl analyzeEntry none = some e ∧
    log.getLast? = some last ∧ e.lastLSN = last.lsn ∧ e.status = last.status := by
  induction life with
  | @begun first type => simp [analyzeEntry, type, LogRecord.status]
  | @went front rec life running type ih =>
    obtain ⟨e, last, entry, final, -, status⟩ := ih
    rw [running last final] at status
    rw [foldl_append, entry, getLast?_concat]
    simp only [mem_cons, not_mem_nil, or_false] at type
    rcases type with type | type | type | type <;>
      simp [analyzeEntry, type, LogRecord.status, status]

/-- Recovery sorts the transactions by their final records and redoes the writes of the committed ones. -/
theorem runRecovery_classifies (threaded : Threaded log) (lives : ∀ rec ∈ log, Life (recordsOf log rec.txnID)) :
    (∀ id, (id ∈ (runRecovery log).committed ↔ (recordsOf log id).getLast?.map LogRecord.status = some 1) ∧
      (id ∈ (runRecovery log).aborted ↔ (recordsOf log id).getLast?.map LogRecord.status = some 2) ∧
      ∀ lsn, (id, lsn) ∈ (runRecovery log).undoTxns ↔
        ∃ last ∈ (recordsOf log id).getLast?, last.status = 0 ∧ last.lsn = lsn) ∧
    (runRecovery log).redoOps = (log.filter fun rec => rec.type = .write ∧
      (recordsOf log rec.txnID).getLast?.map LogRecord.status = some 1).map LogRecord.redoOp := by
  have entry (id : Nat) : ((log.foldl analyze ∅).get id).map (fun e => (e.lastLSN, e.status)) =
      (recordsOf log id).getLast?.map fun last => (last.lsn, last.status) := by
    rw [get_foldl_analyze]
    cases own : recordsOf log id with
    | nil => rfl
    | cons rec =>
      have mem := mem_filter.1 (own ▸ mem_cons_self : rec ∈ recordsOf log id)
      obtain ⟨e, last, entry, final, lsn, status⟩ := (lives rec mem.1).entry
      rw [of_decide_eq_true mem.2, own] at entry final
      simp [entry, final, lsn, status]
  have status (id : Nat) : statusOf (log.foldl analyze ∅) id = (recordsOf log id).getLast?.map LogRecord.status := by
    have := congrArg (Option.map Prod.snd) (entry id)
    rwa [Option.map_map, Option.map_map] at this
  have reported (id n : Nat) : id ∈ ((log.foldl analyze ∅).keys.filter fun id =>
      statusOf (log.foldl analyze ∅) id = some n) ↔ (recordsOf log id).getLast?.map LogRecord.status = some n := by
    rw [mem_filter, mem_keys_iff, decide_eq_true_eq, status, and_iff_right_iff_imp, ← status]
    intro found
    obtain ⟨e, eq, -⟩ := Option.map_eq_some_iff.1 found
    exact ⟨e, eq⟩
  have undone (id lsn : Nat) : (id, lsn) ∈ (runRecovery log).undoTxns ↔
      ((log.foldl analyze ∅).get id).map (fun e => (e.lastLSN, e.status)) = some (lsn, 0) := by
    simp only [runRecovery, threaded.analysis_eq, mem_filterMap, mem_keys_iff]
    constructor
    · rintro ⟨other, -, eq⟩
      obtain ⟨e, found, eq⟩ := Option.bind_eq_some_iff.1 eq
      split at eq
      · cases eq
        simp [*]
      · cases eq
    · intro found
      obtain ⟨e, entry, eq⟩ := Option.map_eq_some_iff.1 found
      obtain ⟨rfl, zero⟩ := Prod.mk.inj eq
      exact ⟨id, ⟨e, entry⟩, by simp [entry, zero]⟩
  refine ⟨fun id => ⟨?_, ?_, fun lsn => ?_⟩, ?_⟩
  · simp only [runRecovery, threaded.analysis_eq, reported]
  · simp only [runRecovery, threaded.analysis_eq, reported]
  · rw [undone, entry]
    simp [and_comm]
  · simp only [redoOps_runRecovery threaded, status]

/-- A transaction that commits and one that is cut off, whose `BEGIN` has the lower LSN but comes later. -/
theorem runRecovery_classifies_interleaved :
    let log := [{ type := .begin, txnID := 1, lsn := 2 }, { type := .begin, txnID := 2, lsn := 1 },
      { type := .commit, txnID := 1, lsn := 3 }]
    1 ∈ (runRecovery log).committed ∧ (2, 1) ∈ (runRecovery log).undoTxns := by
  intro log
  have one (rec : LogRecord) (mem : rec ∈ log) : Life (recordsOf log rec.txnID) := by
    simp only [log, mem_cons, not_mem_nil, or_false] at mem
    rcases mem with rfl | rfl | rfl
    · exact .went (.begun rfl) (by decide) (by decide)
    · exact .begun rfl
    · exact .went (.begun rfl) (by decide) (by decide)
  have threaded : Threaded log := ⟨by decide, by decide, fun id => by
    by_cases id = 1 <;> simp_all [recordsOf, log, filter_cons]
    grind⟩
  have sorted := (runRecovery_classifies threaded one).1
  exact ⟨(sorted 1).1.2 (by decide), ((sorted 2).2.2 1).2 (by decide)⟩

end TransactionManager.Wal
