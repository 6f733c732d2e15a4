import TransactionManager.Txn.VersionOrder
import TransactionManager.Lib.Acyclic

/-!
# Serializability of serializable MVCC transactions

The multiversion serialization graph of a history, and the SSI check of `Commit`. A cycle
of the graph needs a dangerous structure: two consecutive anti-dependencies whose last
transaction committed first. The tracker has such edges on record only when the write follows
a read that found a row, and only between transactions that run. When it misses nothing, its
check refuses every commit that would complete a dangerous structure.
-/

namespace TransactionManager.Txn
open Lib TransactionManager.Types Mvcc List Option MvccRun Manager Isolation

/-- What an event of `t` read of the row: the creator of the version found, or that there
was none. A scan reads every row of its table. -/
def MvccEvent.reads (t : Nat) (row : RowRef) : MvccEvent → Option (Option Nat)
  | .read t' row' found => if t' = t ∧ row' = row then some found else none
  | .scan t' table found => if t' = t ∧ table = row.1 then some (found.lookup row.2) else none
  | _ => none

/-- `t` read the version of the row that `c` created. -/
def ReadFound (h : List MvccEvent) (t : Nat) (row : RowRef) (c : Nat) : Prop := ∃ e ∈ h, e.reads t row = some (some c)

/-- `t` looked for the row and found none. -/
def ReadAbsent (h : List MvccEvent) (t : Nat) (row : RowRef) : Prop := ∃ e ∈ h, e.reads t row = some none

def rowsWritten (h : List MvccEvent) (t : Nat) : List RowRef := h.filterMap fun
    | .write t' row _ _ => if t' = t then some row else none
    | _ => none

/-- Write and read dependencies: `u` wrote a row after `t` or read what `t` wrote. A read
that found no row read what its snapshot shows. -/
def Dependency (h : List MvccEvent) (t u : Nat) : Prop :=
  ∃ row ∈ rowsWritten h t, VersionOrder h row t u ∨ ReadFound h u row t ∨ ReadAbsent h u row ∧ CommittedBefore h t u

/-- Anti-dependencies: `t` read a row that `u` wrote later, or that `u` wrote outside the
snapshot in which `t` found no row. -/
def AntiDependency (h : List MvccEvent) (t u : Nat) : Prop := ∃ row ∈ rowsWritten h u, ∃ e ∈ h, match e.reads t row with
    | some (some c) => Supersedes h row c u
    | some none => ¬ CommittedBefore h u t
    | none => False

/-- The edges of the multiversion serialization graph, between committed transactions. -/
def SerializationGraph (h : List MvccEvent) (t u : Nat) : Prop :=
  t ≠ u ∧ .commit t ∈ h ∧ .commit u ∈ h ∧ (Dependency h t u ∨ AntiDependency h t u)

def committedIn (h : List MvccEvent) : List Nat := h.filterMap fun
    | .commit t => some t
    | _ => none

section
variable (h : List MvccEvent) (t u : Nat) (row : RowRef)

instance : Decidable (Dependency h t u) := inferInstanceAs (Decidable (∃ _ ∈ _, _ ∨ (∃ _ ∈ _, _) ∨ (∃ _ ∈ _, _) ∧ _))

instance (o : Option (Option Nat)) : Decidable (match o with
    | some (some c) => Supersedes h row c u
    | some none => ¬ CommittedBefore h u t
    | none => False) := by
  split <;> infer_instance

instance : Decidable (AntiDependency h t u) := inferInstanceAs (Decidable (∃ _ ∈ _, ∃ _ ∈ _, _))

instance : Decidable (SerializationGraph h t u) := inferInstanceAs (Decidable (_ ∧ _))

end

def SerializableLevel : MvccAction → Prop
  | .begin isoLevel => isoLevel = .serializable
  | _ => True

instance (a : MvccAction) : Decidable (SerializableLevel a) := by
  unfold SerializableLevel
  cases_type MvccAction <;> infer_instance

def MvccEvent.writes : MvccEvent → Option RowRef
  | .write _ row _ _ => some row
  | _ => none

/-- `t` is another transaction than `id` that has not aborted and had not committed when `id` began. -/
def MvccRun.Concurrent (s : MvccRun) (id t : Nat) : Prop :=
  t ≠ id ∧ t ∉ s.mgr.aborted ∧ ¬ CommittedBefore s.hist t id

instance (s : MvccRun) (id t : Nat) : Decidable (s.Concurrent id t) := inferInstanceAs (Decidable (_ ∧ _))

/-- The tracker misses nothing of the step. `RecordRead` adds no edge to a writer that came first;
`RecordWrite` is not called by a write that panics, adds no edge from a reader that found no row or has
ended, and none counts into a transaction whose own edges into ended ones are gone; `CheckCommit` looks
for edges on both sides of the committing transaction, not for two edges that lead into it. -/
def MvccRun.MissesNothing (s : MvccRun) : MvccAction → Prop
  | .read id row => ∀ e ∈ s.hist, s.Concurrent id e.txn → ∀ row' ∈ e.writes, row' ≠ row
  | .scan id table _ => ∀ e ∈ s.hist, s.Concurrent id e.txn → ∀ row' ∈ e.writes, row'.1 ≠ table
  | .write id row values op => (s.mgr.mvccWrite id row values op).1 ≠ .panicked ∧
    ∀ e ∈ s.hist, s.Concurrent id e.txn → ∀ found ∈ e.reads e.txn row, found.isSome ∧ s.mgr.Active e.txn ∧
      ∀ w ∈ committedIn s.hist, ¬ AntiDependency s.hist id w
  | .commit id => ∀ x ∈ s.mgr.ssiTracker.edges, ∀ y ∈ s.mgr.ssiTracker.edges, x.2 = id → y.2 = x.1 → y.1 = id
  | _ => True

instance (s : MvccRun) (a : MvccAction) : Decidable (s.MissesNothing a) := by
  unfold MvccRun.MissesNothing
  cases_type MvccAction <;> infer_instance

/-- The condition on the steps: the tracker misses nothing, a write passes over no overlooked
conflict and an insert sees no row. -/
def SsiChecked (s : MvccRun) (a : MvccAction) : Prop := SerializableLevel a ∧ s.MissesNothing a ∧ match a with
    | .write id row _ op =>
      s.mgr.nothingOverlooked id row = true ∧ s.mgr.insertsNew id row op = true
    | _ => True

instance (s : MvccRun) (a : MvccAction) : Decidable (SsiChecked s a) := by
  unfold SsiChecked
  cases_type MvccAction <;> infer_instance

theorem SsiChecked.writeChecked {s : MvccRun} {a : MvccAction} (ok : SsiChecked s a) :
    WriteChecked s a := by
  cases a with
  | begin isoLevel => exact ⟨.inr ok.1, trivial⟩
  | write id row values op => exact ⟨trivial, ok.2.2.1⟩
  | _ => exact ⟨trivial, trivial⟩

section
variable {m m' : Manager} {h : List MvccEvent} {t u c : Nat} {row : RowRef} {txn : Transaction} {e : MvccEvent}

theorem MvccEvent.txn_of_reads {found : Option Nat} (reads : e.reads t row = some found) : e.txn = t := by
  cases e with
  | read | scan =>
    simp only [MvccEvent.reads, ite_none_right_eq_some] at reads
    exact reads.1.1
  | _ => cases reads

theorem mem_rowsWritten : row ∈ rowsWritten h t ↔ Wrote h t row := by
  simp only [rowsWritten, mem_filterMap, Wrote]
  constructor
  · rintro ⟨e, mem, eq⟩
    cases e with
    | write t' row' op d =>
      simp only [ite_none_right_eq_some, some.injEq] at eq
      obtain ⟨rfl, rfl⟩ := eq
      exact ⟨op, d, mem⟩
    | _ => cases eq
  · rintro ⟨op, d, mem⟩
    exact ⟨_, mem, by simp⟩

theorem mem_committedIn : t ∈ committedIn h ↔ .commit t ∈ h := by
  simp only [committedIn, mem_filterMap]
  constructor
  · rintro ⟨e, mem, eq⟩
    cases e with
    | commit t' =>
      cases eq
      exact mem
    | _ => cases eq
  · exact fun mem => ⟨_, mem, rfl⟩

/-- What the reads of a run say about their snapshots. -/
structure ReadInv (m : Manager) (h : List MvccEvent) : Prop where
  seen : ∀ t row c, ReadFound h t row c → c = t ∨ Sees h t c
  last : ∀ t row c u, ReadFound h t row c → Supersedes h row c u → u ∉ m.aborted → ¬ CommittedBefore h u t

namespace ReadInv

theorem same (reads : ReadInv m h) (aborted : ∀ t ∈ m.aborted, t ∈ m'.aborted) : ReadInv m' h where
  seen := reads.seen
  last t row c u found after alive := reads.last t row c u found after fun gone =>
    alive (aborted u gone)

theorem append (reads : ReadInv m h) (inv : TxnInv m h)
    (own : ∀ t row c, e.reads t row = some (some c) → (c = t ∨ Sees h t c) ∧
      ∀ u, Supersedes h row c u → u ∉ m.aborted → ¬ CommittedBefore h u t)
    (fresh : ∀ t, e = .begin t → m.nextID < t)
    (running : ∀ t row op d, e = .write t row op d → m.Active t) : ReadInv m (h ++ [e]) := by
  have notBegun {t : Nat} {row : RowRef} {c : Nat} (found : ReadFound (h ++ [e]) t row c) : e ≠ .begin t := by
    rintro rfl
    obtain ⟨e', mem, eq⟩ := found
    have new := fresh t rfl
    rcases mem_append.1 mem with old | self
    · have := inv.events e' old
      rw [MvccEvent.txn_of_reads eq] at this
      omega
    · cases mem_singleton.1 self
      cases eq
  constructor
  · intro t row c found
    obtain ⟨e', mem, eq⟩ := found
    have grow {c : Nat} : Sees h t c → Sees (h ++ [e]) t c := .imp_right Precedes.append
    rcases mem_append.1 mem with old | self
    · exact (reads.seen t row c ⟨e', old, eq⟩).imp_right grow
    · cases mem_singleton.1 self
      exact (own t row c eq).1.imp_right grow
  · intro t row c u found after alive
    rw [BookInv.committedBefore_append (notBegun found)]
    rcases supersedes_append after with old | ⟨op, d, eq⟩
    · obtain ⟨e', mem, eq⟩ := found
      rcases mem_append.1 mem with prior | self
      · exact reads.last t row c u ⟨e', prior, eq⟩ old alive
      · cases mem_singleton.1 self
        exact (own t row c eq).2 u old alive
    · intro before
      exact (inv.running u (running u row op d eq)).2.2.1 (inv.committed_of_sees (.inr before)).1

/-- The writer of an anti-dependency did not commit before the reader's snapshot. -/
theorem outside (reads : ReadInv m h) (anti : AntiDependency h t u) (alive : u ∉ m.aborted) :
    ¬ CommittedBefore h u t := by
  obtain ⟨row, -, e, mem, edge⟩ := anti
  split at edge
  · rename_i c eq
    exact reads.last t row c u ⟨e, mem, eq⟩ edge alive
  · exact edge
  · exact edge.elim

end ReadInv

theorem reads_findVisible (inv : TxnInv m h) (marks : MarkInv m h) (chains : ChainInv m h)
    (found : m.txns.get t = some txn) {v : Version} (hit : m.findVisible txn row = some v) :
    (v.xmin = t ∨ Sees h t v.xmin) ∧ ∀ u, Supersedes h row v.xmin u → u ∉ m.aborted → ¬ CommittedBefore h u t := by
  have visible := find?_some hit
  rw [(inv.txns t txn found).1] at visible
  refine ⟨((isVisible_iff inv found v).1 visible).1, fun u after alive => ?_⟩
  exact not_committedBefore_of_visible inv marks chains found (mem_of_find?_eq_some hit) visible alive after

section
variable {table key : GoString} (found : ((m.visibleRows txn table).map fun r => (r.1, r.2.xmin)).lookup key = some c)
include found

theorem mem_visibleRows_of_lookup : ∃ v, (key, v) ∈ m.visibleRows txn table ∧ v.xmin = c := by
  obtain ⟨before, after, split, -⟩ := lookup_eq_some_iff.1 found
  have pair : (key, c) ∈ (m.visibleRows txn table).map fun r => (r.1, r.2.xmin) := by simp [split]
  obtain ⟨⟨key', v⟩, mem, eq⟩ := mem_map.1 pair
  cases eq
  exact ⟨v, mem, rfl⟩

theorem findVisible_of_lookup : ∃ v, m.findVisible txn (table, key) = some v ∧ v.xmin = c := by
  obtain ⟨v, mem, rfl⟩ := mem_visibleRows_of_lookup found
  obtain ⟨row, inTable, hit⟩ := mem_filterMap.1 mem
  obtain ⟨v', hit', eq⟩ := map_eq_some_iff.1 hit
  cases eq
  have at' : row = (table, row.2) := by
    rw [← of_decide_eq_true (mem_filter.1 inTable).2]
  exact ⟨v, at' ▸ hit', rfl⟩

end

theorem AntiDependency.exists_read (anti : AntiDependency h t u) : ∃ e ∈ h, e.txn = t := by
  obtain ⟨row, -, e, mem, edge⟩ := anti
  refine ⟨e, mem, ?_⟩
  split at edge <;> first | exact MvccEvent.txn_of_reads ‹_› | exact edge.elim

/-- A new anti-dependency comes from a read of a row that was written, or from a write of a row that
was read. -/
theorem antiDependency_append (anti : AntiDependency (h ++ [e]) t u) : AntiDependency h t u ∨
    (∃ row found, Wrote h u row ∧ e.reads t row = some found) ∨
    ∃ row op d, e = .write u row op d ∧ ∃ e' ∈ h, ∃ found, e'.reads t row = some found := by
  obtain ⟨row, wrote, e', mem, edge⟩ := anti
  obtain ⟨found, eq⟩ : ∃ found, e'.reads t row = some found := by
    split at edge <;> first | exact ⟨_, ‹_›⟩ | exact edge.elim
  rcases wrote_append (mem_rowsWritten.1 wrote) with old | ⟨op, d, rfl⟩
  · rcases mem_append.1 mem with prior | self
    · by_cases own : ∃ op d, e = .write u row op d
      · obtain ⟨op, d, rfl⟩ := own
        exact .inr (.inr ⟨row, op, d, rfl, e', prior, found, eq⟩)
      · refine .inl ⟨row, mem_rowsWritten.2 old, e', prior, ?_⟩
        split at edge
        · exact (supersedes_append edge).resolve_right own
        · exact fun before => edge before.append
        · exact edge
    · cases mem_singleton.1 self
      exact .inr (.inl ⟨row, found, old, eq⟩)
  · rcases mem_append.1 mem with prior | self
    · exact .inr (.inr ⟨row, op, d, rfl, e', prior, found, eq⟩)
    · cases mem_singleton.1 self
      cases eq

end

structure SsiInv (s : MvccRun) : Prop where
  mvcc : MvccInv s
  chains : ChainInv s.mgr s.hist
  reads : ReadInv s.mgr s.hist
  level : ∀ t txn, s.mgr.txns.get t = some txn → txn.isolation = .serializable

theorem ssiInv_start (rows : List (RowRef × RowData)) (maxActive : Nat) (wal : Option Wal.Log) :
    SsiInv (start rows maxActive wal) where
  mvcc := mvccInv_start rows maxActive wal
  chains := by
    refine ⟨fun row => ?_, fun row v mem alive u _ after => ?_⟩
    · cases eq : (start rows maxActive wal).mgr.chain row with
      | nil => exact .nil
      | cons =>
        obtain ⟨data, single, -⟩ := chain_start (eq ▸ mem_cons_self)
        rw [single] at eq
        cases eq
        exact pairwise_singleton _ _
    · obtain ⟨⟨op, d, mem⟩, -⟩ := after
      cases mem
  reads := by
    constructor
    · rintro t row c ⟨e, mem, -⟩
      cases mem
    · rintro t row c u ⟨e, mem, -⟩
      cases mem
  level t txn found := by cases found

theorem ssiInv_next {s s' : MvccRun} {a : MvccAction} (inv : SsiInv s) (ok : SsiChecked s a)
    (taken : s.next a = some s') : SsiInv s' := by
  have mvcc' := mvccInv_next inv.mvcc ok.writeChecked taken
  obtain ⟨mvcc, chains, reads, level⟩ := inv
  obtain ⟨txns, marks, undoing⟩ := mvcc
  have levelSame {m' : Manager} (same : SameTxns s.mgr m') (t : Nat) (txn' : Transaction)
      (found : m'.txns.get t = some txn') : txn'.isolation = .serializable := by
    obtain ⟨txn, mem, view⟩ := same.txn found
    have eq : txn'.isolation = txn.isolation := congrArg (fun v => v.2.1) view
    rw [eq]
    exact level t txn mem
  have levelDelete {m' : Manager} {id : Nat} (eq : m'.txns = s.mgr.txns.delete id) (t : Nat)
      (txn : Transaction) (found : m'.txns.get t = some txn) : txn.isolation = .serializable := by
    rw [eq, GoMap.get_delete] at found
    split at found
    · cases found
    · exact level t txn found
  have sub {m' : Manager} (eq : m'.aborted = s.mgr.aborted) : ∀ t ∈ s.mgr.aborted, t ∈ m'.aborted := eq ▸ fun _ h => h
  cases next_cases txns.keyed taken with
  | idle same chain =>
    exact ⟨mvcc', chains.same chain same.aborted, reads.same (sub same.aborted), levelSame same⟩
  | @begin isoLevel m' txn nextID committed aborted chain txns' view =>
    refine ⟨mvcc', (chains.append (by simp)).same chain aborted, ?_, ?_⟩
    · refine ReadInv.same (reads.append txns (by simp [MvccEvent.reads]) ?_ (by simp)) (sub aborted)
      rintro t ⟨⟩
      exact Nat.lt_succ_self _
    · intro t txn' found
      rw [txns', GoMap.get_set] at found
      split at found
      · cases found
        have isolation : txn.isolation = isoLevel := congrArg (fun v => v.2.1) view
        exact isolation.trans ok.1
      · exact level t txn' found
  | @read _ _ _ _ found same chain =>
    refine ⟨mvcc', (chains.append (by simp)).same chain same.aborted, ?_, levelSame same⟩
    refine ReadInv.same (reads.append txns ?_ (by simp) (by simp)) (sub same.aborted)
    intro t row' c eq
    simp only [MvccEvent.reads, ite_none_right_eq_some, some.injEq, map_eq_some_iff] at eq
    obtain ⟨⟨rfl, rfl⟩, v, hit, rfl⟩ := eq
    exact reads_findVisible txns marks chains found hit
  | @scan _ _ _ _ _ found same chain =>
    refine ⟨mvcc', (chains.append (by simp)).same chain same.aborted, ?_, levelSame same⟩
    refine ReadInv.same (reads.append txns ?_ (by simp) (by simp)) (sub same.aborted)
    intro t row' c eq
    simp only [MvccEvent.reads, ite_none_right_eq_some, some.injEq] at eq
    obtain ⟨⟨rfl, rfl⟩, listed⟩ := eq
    obtain ⟨v, hit, rfl⟩ := findVisible_of_lookup listed
    exact reads_findVisible txns marks chains found hit
  | @write _ _ _ _ _ _ _ found passed same others written =>
    refine ⟨mvcc', chains.write txns marks found passed ok.2.2.1 ok.2.2.2 same others written, ?_,
      levelSame same⟩
    refine ReadInv.same (reads.append txns (by simp [MvccEvent.reads]) (by simp) ?_) (sub same.aborted)
    rintro t row' op' d ⟨⟩
    exact active_of_get found
  | commit _ _ txns' _ aborted _ chain =>
    exact ⟨mvcc', (chains.append (by simp)).same chain aborted,
      ReadInv.same (reads.append txns (by simp [MvccEvent.reads]) (by simp) (by simp)) (sub aborted), levelDelete txns'⟩
  | abort active txns' _ aborted _ chain =>
    have known := txns.running _ active
    refine ⟨mvcc', (chains.append (by simp)).abort
        (TxnInv.append txns ⟨known.1, known.2.1⟩ not_false) (marks.append (by simp)) active chain
        aborted, ?_, levelDelete txns'⟩
    refine ReadInv.same (reads.append txns (by simp [MvccEvent.reads]) (by simp) (by simp)) ?_
    rw [aborted]
    exact fun _ h => mem_cons_of_mem _ h
  | undo pending same others rewound =>
    exact ⟨mvcc', chains.undo (undoing _ pending) same others rewound,
      reads.same (sub same.aborted), levelSame same⟩

/-!
## The tracker along a run

Reads and writes only add to the tracker, and what `Cleanup` takes away belongs to a transaction that
has ended. So what is on record of two transactions stays there while both run.
-/

/-- Neither committed nor aborted. -/
def MvccRun.Open (s : MvccRun) (t : Nat) : Prop := t ∉ s.mgr.committed ∧ t ∉ s.mgr.aborted

/-- The entries of open transactions are kept. -/
structure MvccRun.Keeps (s s' : MvccRun) : Prop where
  siread : ∀ key t, s'.Open t → (key, t) ∈ s.mgr.ssiTracker.siread → (key, t) ∈ s'.mgr.ssiTracker.siread
  edges : ∀ t u, s'.Open t → s'.Open u → (t, u) ∈ s.mgr.ssiTracker.edges → (t, u) ∈ s'.mgr.ssiTracker.edges

section
variable {s s' : MvccRun} {id t : Nat} {txn : Transaction}

theorem MvccRun.Keeps.of_subset (siread : s.mgr.ssiTracker.siread ⊆ s'.mgr.ssiTracker.siread)
    (edges : s.mgr.ssiTracker.edges ⊆ s'.mgr.ssiTracker.edges) : s.Keeps s' :=
  ⟨fun _ _ _ mem => siread mem, fun _ _ _ _ mem => edges mem⟩

theorem MvccRun.Keeps.of_eq (same : s'.mgr.ssiTracker = s.mgr.ssiTracker) : s.Keeps s' :=
  .of_subset (same ▸ Subset.refl _) (same ▸ Subset.refl _)

theorem MvccRun.Keeps.of_cleanup (ended : ¬ s'.Open id) (dropped : s'.mgr.ssiTracker = s.mgr.ssiTracker.cleanup id) :
    s.Keeps s' := by
  have other {t : Nat} (running : s'.Open t) : t ≠ id := by
    rintro rfl
    exact ended running
  constructor
  · intro key t running mem
    rw [dropped]
    exact mem_filter.2 ⟨mem, by simp [other running]⟩
  · intro t u running running' mem
    rw [dropped]
    exact mem_filter.2 ⟨mem, by simp [other running, other running']⟩

theorem tracker_logAppend (m : Manager) (rec : Wal.LogRecord) : (m.logAppend rec).2.ssiTracker = m.ssiTracker := by
  unfold Manager.logAppend
  split <;> rfl

/-- The rows of a read or a scan are on record. -/
theorem tracker_recordReads (m : Manager) (level : txn.isolation = .serializable) (table : GoString)
    (rows : List (GoString × Version)) {m' : Manager}
    (result : rows.foldl (fun m r => m.recordRead txn (table, r.1)) m = m') :
    m'.ssiTracker.edges = m.ssiTracker.edges ∧ m.ssiTracker.siread ⊆ m'.ssiTracker.siread ∧
      ∀ r ∈ rows, (fullKey (table, r.1), txn.id) ∈ m'.ssiTracker.siread := by
  induction rows generalizing m with
  | nil =>
    subst result
    simp
  | cons r rows ih =>
    obtain ⟨edges, siread, listed⟩ := ih _ result
    simp only [Manager.recordRead, level, SSITracker.recordRead, if_pos] at edges siread
    refine ⟨edges, fun x mem => siread (mem_insert_of_mem mem), fun r' mem => ?_⟩
    rcases mem_cons.1 mem with rfl | mem
    · exact siread mem_insert_self
    · exact listed r' mem

section
variable (found : s.mgr.txns.get id = some txn) (level : txn.isolation = .serializable)
include found level

theorem tracker_read {row : RowRef} (taken : s.next (.read id row) = some s') : s.Keeps s' ∧
    ∀ v ∈ s.mgr.findVisible txn row, (fullKey row, txn.id) ∈ s'.mgr.ssiTracker.siread := by
  simp only [MvccRun.next, mvccRead, found] at taken
  cases hit : s.mgr.findVisible txn row with
  | none =>
    rw [hit] at taken
    cases taken
    exact ⟨.of_eq rfl, fun v found => by cases found⟩
  | some v =>
    rw [hit] at taken
    cases taken
    obtain ⟨edges, siread, listed⟩ := tracker_recordReads s.mgr level row.1 [(row.2, v)] rfl
    exact ⟨.of_subset siread (edges ▸ Subset.refl _), fun _ _ => listed _ mem_cons_self⟩

theorem tracker_scan {table : GoString} {filter : GoString → RowData → Bool}
    (taken : s.next (.scan id table filter) = some s') : s.Keeps s' ∧
      ∀ r ∈ s.mgr.visibleRows txn table, (fullKey (table, r.1), txn.id) ∈ s'.mgr.ssiTracker.siread := by
  simp only [MvccRun.next, mvccScan, found] at taken
  cases taken
  obtain ⟨edges, siread, listed⟩ := tracker_recordReads s.mgr level table (s.mgr.visibleRows txn table) rfl
  exact ⟨.of_subset siread (edges ▸ Subset.refl _), listed⟩

theorem tracker_mvccWrite (own : txn.id = id) (row : RowRef) (values : RowData) (op : UndoOpType) :
    (s.mgr.mvccWrite id row values op).2.ssiTracker = if (s.mgr.mvccWrite id row values op).1 = .ok then
      s.mgr.ssiTracker.recordWrite (fun t => (s.mgr.txns.get t).isSome) id (fullKey row) else s.mgr.ssiTracker := by
  have shape := mvccWrite_shape row values op found
  generalize s.mgr.mvccWrite id row values op = r at shape ⊢
  cases shape with
  | refused failed => exact (if_neg failed).symm
  | panicked => rfl
  | done image before after =>
    subst own
    have same := s.mgr.sameTxns_logWrite found op row image before after
    have active : (fun t => ((s.mgr.logWrite txn op row image before after).2.txns.get t).isSome) =
        fun t => (s.mgr.txns.get t).isSome := by
      funext t
      exact Bool.eq_iff_iff.2 (same.active t)
    simp only [Manager.recordWrite, level, if_pos, Manager.setChain, active]
    simp only [logWrite, putTxn, tracker_logAppend]

end

/-- A step takes nothing of an open transaction out of the tracker. -/
theorem keeps_next {a : MvccAction} (keyed : s.mgr.Keyed)
    (level : ∀ t txn, s.mgr.txns.get t = some txn → txn.isolation = .serializable)
    (undoing : ∀ t, (s.undoing.get t).isSome → t ∈ s.mgr.aborted) (taken : s.next a = some s') : s.Keeps s' := by
  cases a with
  | begin isoLevel =>
    simp only [MvccRun.next, Manager.begin] at taken
    by_cases full : 0 < s.mgr.maxActive ∧ s.mgr.maxActive ≤ s.mgr.txns.keys.length
    · rw [if_pos full] at taken
      cases taken
      exact .of_eq rfl
    · rw [if_neg full] at taken
      cases taken
      exact .of_eq (tracker_logAppend _ _)
  | read id row =>
    cases found : s.mgr.txns.get id with
    | none =>
      simp only [MvccRun.next, mvccRead, found] at taken
      cases taken
      exact .of_eq rfl
    | some txn => exact (tracker_read found (level id txn found) taken).1
  | scan id table filter =>
    cases found : s.mgr.txns.get id with
    | none =>
      simp only [MvccRun.next, mvccScan, found] at taken
      cases taken
      exact .of_eq rfl
    | some txn => exact (tracker_scan found (level id txn found) taken).1
  | write id row values op =>
    cases taken
    cases found : s.mgr.txns.get id with
    | none =>
      refine .of_eq ?_
      simp only [mvccWrite, found]
    | some txn =>
      have result := tracker_mvccWrite found (level id txn found) (keyed id txn found) row values op
      split at result
      · refine .of_subset (by rw [result]; exact Subset.refl _) fun x mem => ?_
        rw [result]
        exact SSITracker.mem_edges_recordWrite.2 (.inl mem)
      · exact .of_eq result
  | commit id =>
    simp only [MvccRun.next] at taken
    split at taken
    · cases taken
      exact .of_eq rfl
    rename_i txn found
    have serial := level id txn found
    simp only [mvccCommit, found] at taken
    by_cases refused : txn.isolation = .serializable ∧ s.mgr.ssiTracker.isPivotLocked id
    · rw [if_pos refused] at taken
      cases taken
      exact .of_cleanup (fun running => running.2 mem_cons_self) rfl
    · rw [if_neg refused] at taken
      cases taken
      rw [if_pos serial]
      refine .of_cleanup (fun running => running.1 mem_cons_self) ?_
      exact congrArg (SSITracker.cleanup · id) (tracker_logAppend _ _)
  | abort id =>
    simp only [MvccRun.next] at taken
    split at taken <;> cases taken <;> exact .of_eq rfl
  | undo id =>
    simp only [MvccRun.next] at taken
    split at taken
    · rename_i step rest pending
      cases taken
      have gone : id ∈ s.mgr.aborted := undoing id (by rw [pending]; rfl)
      cases step with
      | removeByXMin row | clearXMax row =>
        refine .of_eq ?_
        simp only [undoStep]
        split <;> rfl
      | logAbort => exact .of_eq (tracker_logAppend _ _)
      | cleanup => exact .of_cleanup (fun running => running.2 gone) rfl
    · cases taken

end

/-- Two consecutive anti-dependencies between transactions that have not aborted, of which the last
has committed, and before the others. -/
structure Dangerous (s : MvccRun) (r p w : Nat) : Prop where
  intoPivot : AntiDependency s.hist r p
  outOfPivot : AntiDependency s.hist p w
  ne : r ≠ p ∧ p ≠ w
  alive : r ∉ s.mgr.aborted ∧ p ∉ s.mgr.aborted ∧ w ∉ s.mgr.aborted
  committed : .commit w ∈ s.hist
  first : w = r ∨ ¬ Precedes s.hist (.commit r) (.commit w)
  first' : ¬ Precedes s.hist (.commit p) (.commit w)

/-- The tracker has on record what open transactions read and the anti-dependencies between them, and
there is no dangerous structure. -/
structure TrackInv (s : MvccRun) : Prop extends SsiInv s where
  siread : ∀ t row c, s.Open t → ReadFound s.hist t row c → (fullKey row, t) ∈ s.mgr.ssiTracker.siread
  edges : ∀ t u, t ≠ u → s.Open t → s.Open u → AntiDependency s.hist t u → (t, u) ∈ s.mgr.ssiTracker.edges
  safe : ∀ r p w, ¬ Dangerous s r p w

section
variable {s s' : MvccRun} {id : Nat}

theorem MvccStep.grows {a : MvccAction} (step : MvccStep s a s') :
    s.mgr.committed ⊆ s'.mgr.committed ∧ s.mgr.aborted ⊆ s'.mgr.aborted ∧ s.hist.Sublist s'.hist := by
  have hist : s.hist.Sublist s'.hist := by cases step <;> simp
  cases step.books with
  | same same => exact ⟨same.committed ▸ Subset.refl _, same.aborted ▸ Subset.refl _, hist⟩
  | begin _ _ _ committed aborted => exact ⟨committed ▸ Subset.refl _, aborted ▸ Subset.refl _, hist⟩
  | commit _ _ _ committed aborted => exact ⟨committed ▸ subset_cons_self _ _, aborted ▸ Subset.refl _, hist⟩
  | abort _ _ _ committed aborted => exact ⟨committed ▸ Subset.refl _, aborted ▸ subset_cons_self _ _, hist⟩

theorem readFound_append {e : MvccEvent} {h : List MvccEvent} {t c : Nat} {row : RowRef}
    (found : ReadFound (h ++ [e]) t row c) : ReadFound h t row c ∨ e.reads t row = some (some c) := by
  obtain ⟨e', mem, eq⟩ := found
  rcases mem_append.1 mem with old | self
  · exact .inl ⟨e', old, eq⟩
  · cases mem_singleton.1 self
    exact .inr eq

section
variable {a : MvccAction} (step : MvccStep s a s')
include step

theorem Dangerous.prior {r p w : Nat} (danger : Dangerous s' r p w) (intoPivot : AntiDependency s.hist r p)
    (outOfPivot : AntiDependency s.hist p w) (committed : .commit w ∈ s.hist) : Dangerous s r p w := by
  obtain ⟨-, aborted, hist⟩ := step.grows
  have order {x y : MvccEvent} (p : Precedes s.hist x y) : Precedes s'.hist x y := List.Sublist.trans p hist
  obtain ⟨aliveR, aliveP, aliveW⟩ := danger.alive
  exact ⟨intoPivot, outOfPivot, danger.ne, ⟨mt (aborted ·) aliveR, mt (aborted ·) aliveP, mt (aborted ·) aliveW⟩, committed,
    danger.first.imp_right (mt order), mt order danger.first'⟩

namespace TrackInv
variable (track : TrackInv s) (inv' : SsiInv s') (keeps : s.Keeps s')
include track inv' keeps

/-- What is new is on record too. -/
theorem carry (reads : ∀ t row c, ReadFound s'.hist t row c →
      ReadFound s.hist t row c ∨ (fullKey row, t) ∈ s'.mgr.ssiTracker.siread)
    (antis : ∀ t u, t ≠ u → u ∉ s'.mgr.aborted → AntiDependency s'.hist t u →
      AntiDependency s.hist t u ∨ (s.Open t → (t, u) ∈ s'.mgr.ssiTracker.edges))
    (safe : ∀ r p w, ¬ Dangerous s' r p w) : TrackInv s' := by
  obtain ⟨committed, aborted, -⟩ := step.grows
  have prior {t : Nat} (running : s'.Open t) : s.Open t :=
    ⟨fun mem => running.1 (committed mem), fun mem => running.2 (aborted mem)⟩
  refine ⟨inv', fun t row c running found => ?_, fun t u ne running running' anti => ?_, safe⟩
  · rcases reads t row c found with old | new
    · exact keeps.siread _ t running (track.siread t row c (prior running) old)
    · exact new
  · rcases antis t u ne running'.2 anti with old | new
    · exact keeps.edges t u running running' (track.edges t u ne (prior running) (prior running') old)
    · exact new (prior running)

theorem silent (hist : s'.hist = s.hist) : TrackInv s' := by
  refine track.carry step inv' keeps (fun t row c found => .inl (hist ▸ found)) (fun t u _ _ anti => .inl (hist ▸ anti))
    fun r p w danger => track.safe r p w (danger.prior step ?_ ?_ ?_)
  · exact hist ▸ danger.intoPivot
  · exact hist ▸ danger.outOfPivot
  · exact hist ▸ danger.committed

/-- An event that is neither a write nor a commit: what it read is on record, and no concurrent
transaction wrote it. -/
theorem event {e : MvccEvent} (hist : s'.hist = s.hist ++ [e]) (still : ∀ t row op d, e ≠ .write t row op d)
    (commits : ∀ t, e ≠ .commit t)
    (listed : ∀ row c, e.reads e.txn row = some (some c) → (fullKey row, e.txn) ∈ s'.mgr.ssiTracker.siread)
    (unwritten : ∀ row found u, e.reads e.txn row = some found → Wrote s.hist u row → ¬ s.Concurrent e.txn u) :
    TrackInv s' := by
  have antis (t u : Nat) (ne : t ≠ u) (alive : u ∉ s'.mgr.aborted) (anti : AntiDependency s'.hist t u) :
      AntiDependency s.hist t u := by
    have outside := inv'.reads.outside anti alive
    rw [hist] at anti outside
    rcases antiDependency_append anti with old | ⟨row, found, wrote, eq⟩ | ⟨row, op, d, eq, -⟩
    · exact old
    · obtain rfl := MvccEvent.txn_of_reads eq
      exact absurd ⟨ne.symm, mt (step.grows.2.1 ·) alive, fun before => outside before.append⟩ (unwritten row found u eq wrote)
    · exact absurd eq (still u row op d)
  refine track.carry step inv' keeps (fun t row c found => ?_) (fun t u ne alive anti => .inl (antis t u ne alive anti))
    fun r p w danger => ?_
  · rw [hist] at found
    refine (readFound_append found).imp_right fun eq => ?_
    obtain rfl := MvccEvent.txn_of_reads eq
    exact listed row c eq
  · obtain ⟨-, aliveP, aliveW⟩ := danger.alive
    have old : .commit w ∈ s.hist := by
      have mem := danger.committed
      rw [hist] at mem
      exact (mem_append.1 mem).resolve_right fun self => commits w (mem_singleton.1 self).symm
    exact track.safe r p w (danger.prior step (antis r p danger.ne.1 aliveP danger.intoPivot)
      (antis p w danger.ne.2 aliveW danger.outOfPivot) old)

end TrackInv

end

/-- The SIREAD entries of the readers that run give the edges of a write; a reader that has ended begins no dangerous
structure. -/
theorem TrackInv.write {row : RowRef} {values : RowData} {op : UndoOpType} {d : Bool} {txn : Transaction}
    (track : TrackInv s) (inv' : SsiInv s') (found : s.mgr.txns.get id = some txn)
    (ok : s.MissesNothing (.write id row values op)) (taken : s.next (.write id row values op) = some s')
    (hist : s'.hist = s.hist ++ [.write id row op d]) : TrackInv s' := by
  have txns := track.mvcc.txns
  have step := next_cases txns.keyed taken
  have keeps := keeps_next txns.keyed track.level track.mvcc.undoing taken
  have result := tracker_mvccWrite found (track.level id txn found) (txns.keyed id txn found) row values op
  have fresh {t : Nat} (alive : t ∉ s'.mgr.aborted) : t ∉ s.mgr.aborted := mt (step.grows.2.1 ·) alive
  cases taken
  have whole : (s.mgr.mvccWrite id row values op).1 = .ok := by
    cases outcome : (s.mgr.mvccWrite id row values op).1 with
    | ok => rfl
    | err => simp [writeEvent, outcome] at hist
    | panicked => exact absurd outcome ok.1
  rw [if_pos whole] at result
  have running := txns.running id (active_of_get found)
  have split {t u : Nat} (anti : AntiDependency (s.hist ++ [.write id row op d]) t u) : AntiDependency s.hist t u ∨
      u = id ∧ ∃ e ∈ s.hist, ∃ found, e.reads t row = some found := by
    rcases antiDependency_append anti with old | ⟨_, _, _, eq⟩ | ⟨row', op', d', eq, read⟩
    · exact .inl old
    · cases eq
    · cases eq
      exact .inr ⟨rfl, read⟩
  refine track.carry step inv' keeps (fun t row' c read => ?_) (fun t u ne alive anti => ?_) fun r p w danger => ?_
  · rw [hist] at read
    exact .inl ((readFound_append read).resolve_right nofun)
  · rw [hist] at anti
    refine (split anti).imp_right ?_
    rintro ⟨rfl, e, mem, found', eq⟩ openT
    obtain rfl := MvccEvent.txn_of_reads eq
    have concurrent : s.Concurrent u e.txn := ⟨ne, openT.2, fun before => openT.1 (txns.committed_of_sees (.inr before)).1⟩
    obtain ⟨hit, active, -⟩ := ok.2 e mem concurrent found' eq
    obtain ⟨c, rfl⟩ := isSome_iff_exists.1 hit
    have entry := track.siread _ row c openT ⟨e, mem, eq⟩
    rw [result]
    exact SSITracker.mem_edges_recordWrite.2 (.inr ⟨SSITracker.mem_conflictingReaders.2 ⟨entry, ne, active⟩, rfl⟩)
  · obtain ⟨aliveR, -, aliveW⟩ := danger.alive
    have committed : .commit w ∈ s.hist := by
      have mem := danger.committed
      rw [hist] at mem
      exact (mem_append.1 mem).resolve_right (by simp)
    have outOfPivot : AntiDependency s.hist p w := by
      refine (split (hist ▸ danger.outOfPivot)).resolve_right ?_
      rintro ⟨rfl, -⟩
      exact running.2.2.1 ((txns.commits w).1 committed).1
    rcases split (hist ▸ danger.intoPivot) with old | ⟨rfl, e, mem, found', eq⟩
    · exact track.safe r p w (danger.prior step old outOfPivot committed)
    obtain rfl := MvccEvent.txn_of_reads eq
    by_cases before : CommittedBefore s.hist e.txn p
    · -- the reader ended before the pivot began, so `w` cannot have committed before it
      have outside := track.reads.outside outOfPivot (fresh aliveW)
      by_cases same : w = e.txn
      · exact outside (same ▸ before)
      rcases precedes_total before.mem_left committed (by simp [Ne.symm same]) with later | order
      · exact danger.first.resolve_left same (hist ▸ later.append)
      · exact outside (Precedes.trans order before (txns.once _ trivial))
    · exact (ok.2 e mem ⟨danger.ne.1, fresh aliveR, before⟩ found' eq).2.2 w (mem_committedIn.2 committed) outOfPivot

/-- A commit that would complete a dangerous structure is refused. -/
theorem TrackInv.commit (track : TrackInv s) (inv' : SsiInv s') (ok : s.MissesNothing (.commit id))
    (step : MvccStep s (.commit id) s') (active : s.mgr.Active id)
    (pass : s.mgr.ssiTracker.isPivotLocked id = false) (keeps : s.Keeps s')
    (hist : s'.hist = s.hist ++ [.commit id]) : TrackInv s' := by
  have txns := track.mvcc.txns
  have antis {t u : Nat} (anti : AntiDependency s'.hist t u) : AntiDependency s.hist t u := by
    rw [hist] at anti
    rcases antiDependency_append anti with old | ⟨_, _, _, eq⟩ | ⟨_, _, _, eq, _⟩
    · exact old
    · cases eq
    · cases eq
  refine track.carry step inv' keeps (fun t row c read => ?_) (fun t u _ _ anti => .inl (antis anti)) fun r p w danger => ?_
  · rw [hist] at read
    exact .inl ((readFound_append read).resolve_right nofun)
  have intoPivot := antis danger.intoPivot
  have outOfPivot := antis danger.outOfPivot
  obtain ⟨aliveR, aliveP, -⟩ := danger.alive
  have committed := danger.committed
  rw [hist] at committed
  rcases mem_append.1 committed with old | new
  · exact track.safe r p w (danger.prior step intoPivot outOfPivot old)
  cases mem_singleton.1 new
  -- whoever has not committed before still runs, so both edges are on record
  have openOf {t u : Nat} (anti : AntiDependency s.hist t u) (alive : t ∉ s'.mgr.aborted)
      (first : ¬ Precedes s'.hist (.commit t) (.commit id)) : s.Open t := by
    obtain ⟨e, mem, rfl⟩ := anti.exists_read
    refine ⟨fun ended => first ?_, mt (step.grows.2.1 ·) alive⟩
    have known := txns.events e mem
    rw [hist]
    exact precedes_append_singleton.2 (.inr ⟨(txns.commits _).2 ⟨ended, by omega⟩, rfl⟩)
  have openP := openOf outOfPivot aliveP danger.first'
  have openW : s.Open id := (txns.running id active).2.2
  have openR : s.Open r := by
    rcases danger.first with rfl | first
    · exact openW
    · exact openOf intoPivot aliveR first
  have edge := track.edges r p danger.ne.1 openR openP intoPivot
  have edge' := track.edges p id danger.ne.2 openP openW outOfPivot
  obtain rfl := ok _ edge' _ edge rfl rfl
  have pivot : s.mgr.ssiTracker.isPivotLocked r = true := by
    simp only [SSITracker.isPivotLocked, Bool.and_eq_true, List.any_eq_true]
    exact ⟨⟨_, edge, by simp⟩, _, edge', by simp⟩
  rw [pass] at pivot
  cases pivot

theorem trackInv_start (rows : List (RowRef × RowData)) (maxActive : Nat) (wal : Option Wal.Log) :
    TrackInv (start rows maxActive wal) where
  toSsiInv := ssiInv_start rows maxActive wal
  siread := by
    rintro t row c - ⟨e, mem, -⟩
    cases mem
  edges := by
    rintro t u - - - ⟨row, -, e, mem, -⟩
    cases mem
  safe r p w danger := by cases danger.committed

/-- One step that meets the condition keeps what the tracker has on record. -/
theorem trackInv_next {a : MvccAction} (track : TrackInv s) (ok : SsiChecked s a) (taken : s.next a = some s') :
    TrackInv s' := by
  have inv' := ssiInv_next track.toSsiInv ok taken
  have keyed := track.mvcc.txns.keyed
  have step := next_cases keyed taken
  have keeps := keeps_next keyed track.level track.mvcc.undoing taken
  have silent := track.silent step inv' keeps
  have event {e : MvccEvent} := track.event step inv' keeps (e := e)
  cases step with
  | idle | undo => exact silent rfl
  | begin | abort => exact event rfl (by simp) (by simp) (by simp [MvccEvent.reads]) (by simp [MvccEvent.reads])
  | @read id row txn m' found =>
    have own : txn.id = id := keyed id txn found
    refine event rfl (by simp) (by simp) (fun row' c eq => ?_) fun row' hit u eq ⟨op, d, wrote⟩ concurrent => ?_
    · simp only [MvccEvent.reads, MvccEvent.txn, ite_none_right_eq_some, some.injEq, map_eq_some_iff] at eq
      obtain ⟨⟨-, rfl⟩, v, hit, -⟩ := eq
      exact own ▸ (tracker_read found (track.level id txn found) taken).2 v hit
    · simp only [MvccEvent.reads, ite_none_right_eq_some] at eq
      exact ok.2.1 _ wrote concurrent row' rfl eq.1.2.symm
  | @scan id table filter txn m' found =>
    have own : txn.id = id := keyed id txn found
    refine event rfl (by simp) (by simp) (fun row' c eq => ?_) fun row' hit u eq ⟨op, d, wrote⟩ concurrent => ?_
    · simp only [MvccEvent.reads, MvccEvent.txn, ite_none_right_eq_some, some.injEq] at eq
      obtain ⟨⟨-, rfl⟩, listed⟩ := eq
      obtain ⟨v, mem, -⟩ := mem_visibleRows_of_lookup listed
      exact own ▸ (tracker_scan found (track.level id txn found) taken).2 _ mem
    · simp only [MvccEvent.reads, ite_none_right_eq_some] at eq
      exact ok.2.1 _ wrote concurrent row' rfl eq.1.2.symm
  | write found => exact track.write inv' found ok.2.1 taken rfl
  | @commit id txn m' found pass =>
    have passed : s.mgr.ssiTracker.isPivotLocked id = false := by
      by_contra pivot
      exact pass ⟨track.level id txn found, by simpa using pivot⟩
    exact track.commit inv' ok.2.1 (next_cases keyed taken) (active_of_get found) passed keeps rfl

end

/-- When the tracker misses nothing, no write passes over an overlooked conflict and no insert sees a
row, the committed transactions are serializable. -/
theorem serializable_of_ssiChecked {rows : List (RowRef × RowData)} {maxActive : Nat} {wal : Option Wal.Log}
    {s : MvccRun} (reached : Reach MvccRun.next SsiChecked (.start rows maxActive wal) s) :
    Acyclic (SerializationGraph s.hist) := by
  have track : TrackInv s := reached.invariant (trackInv_start rows maxActive wal) fun _ _ _ => trackInv_next
  obtain ⟨⟨txns, marks, -⟩, chains, reads, -⟩ := track.toSsiInv
  let start (t : Nat) := s.hist.idxOf (.begin t)
  let finish (t : Nat) := s.hist.idxOf (.commit t)
  have alive {t : Nat} (commit : .commit t ∈ s.hist) : t ∉ s.mgr.aborted :=
    txns.disjoint t ((txns.commits t).1 commit).1
  have began {t : Nat} (commit : .commit t ∈ s.hist) : .begin t ∈ s.hist := (txns.lifetime t commit).mem_left
  have lives {t : Nat} (commit : .commit t ∈ s.hist) : start t < finish t :=
    (txns.lifetime t commit).idxOf_lt (txns.once _ trivial)
  have split : SerializationGraph s.hist = fun t u =>
      (t ≠ u ∧ .commit t ∈ s.hist ∧ .commit u ∈ s.hist ∧ Dependency s.hist t u) ∨
        (t ≠ u ∧ .commit t ∈ s.hist ∧ .commit u ∈ s.hist ∧ AntiDependency s.hist t u) := by
    funext t u
    simp only [SerializationGraph, ← and_or_left]
  rw [split]
  refine @acyclic_of_no_pivot Nat _ _ start finish ?_ ?_ ?_ ?_
  · rintro t u (⟨-, commitT, commitU, -⟩ | ⟨-, commitT, commitU, -⟩) <;>
      exact ⟨lives commitT, lives commitU⟩
  · rintro t u ⟨ne, commitT, commitU, row, -, order | found | ⟨-, before⟩⟩
    · exact (order.committedBefore marks ne (alive commitT) (alive commitU)).idxOf_lt (txns.once _ trivial)
    · have sees := (reads.seen u row t found).resolve_left ne
      have before := sees.resolve_left ((txns.commits t).1 commitT).2
      exact before.idxOf_lt (txns.once _ trivial)
    · exact before.idxOf_lt (txns.once _ trivial)
  · rintro t u ⟨ne, commitT, commitU, anti⟩
    have order := (precedes_total (began commitT) commitU (by simp)).resolve_right (reads.outside anti (alive commitU))
    exact order.idxOf_lt (txns.once _ trivial)
  · rintro r p w ⟨neR, commitR, commitP, antiR⟩ ⟨neP, -, commitW, antiP⟩ firstR firstP
    have first {t : Nat} (le : finish w ≤ finish t) : ¬ Precedes s.hist (.commit t) (.commit w) := fun later =>
      absurd (later.idxOf_lt (txns.once _ trivial)) (Nat.not_lt.2 le)
    exact track.safe r p w ⟨antiR, antiP, ⟨neR, neP⟩, ⟨alive commitR, alive commitP, alive commitW⟩, commitW, .inr (first firstR),
      first firstP⟩

def savingsRow : RowRef := ([97], [50])

def openTwo : MvccRun := .start [(accountRow, some [intVal 100]), (savingsRow, some [intVal 100])] 0 none

/-- Both transactions of a write skew read before either writes: the first commit is refused, and a third one reads
what the second wrote. -/
theorem serializable_writeSkew : ∃ s, Reach MvccRun.next SsiChecked openTwo s ∧
      s.hist = [.begin 1, .begin 2, .read 1 savingsRow (some 0), .read 2 accountRow (some 0),
        .write 1 accountRow .update true, .write 2 savingsRow .update true, .abort 1, .commit 2,
        .begin 3, .read 3 savingsRow (some 2), .commit 3] ∧
      Acyclic (SerializationGraph s.hist) := by
  exact Reach.exists_and
    [.begin .serializable, .begin .serializable, .read 1 savingsRow, .read 2 accountRow,
      .write 1 accountRow (some [intVal 0]) .update, .write 2 savingsRow (some [intVal 0]) .update, .commit 1,
      .commit 2, .begin .serializable, .read 3 savingsRow, .commit 3]
    (by decide) fun s reached _ => serializable_of_ssiChecked reached

def writeSkew : List MvccEvent :=
  [.begin 1, .begin 2, .read 1 savingsRow (some 0), .write 1 accountRow .update true, .commit 1,
    .read 2 accountRow (some 0), .write 2 savingsRow .update true, .commit 2]

/-- Transaction 1 reads one row, writes the other and commits, which takes its SIREAD entry away before transaction 2
writes, having done the reverse. -/
theorem not_serializable : ¬ ∀ rows maxActive wal s, Reach MvccRun.next (fun _ => SerializableLevel)
      (.start rows maxActive wal) s → Acyclic (SerializationGraph s.hist) := by
  intro claim
  obtain ⟨s, reached, hist⟩ := Reach.exists_such MvccRun.next (fun _ => SerializableLevel) openTwo
    [.begin .serializable, .begin .serializable,
      .read 1 savingsRow, .write 1 accountRow (some [intVal 0]) .update, .commit 1,
      .read 2 accountRow, .write 2 savingsRow (some [intVal 0]) .update, .commit 2]
    (fun s => s.hist = writeSkew) (by decide)
  have forth : SerializationGraph writeSkew 1 2 := by decide
  have back : SerializationGraph writeSkew 2 1 := by decide
  exact claim _ _ _ _ reached 1 (hist ▸ .tail (.single forth) back)

end TransactionManager.Txn
