import TransactionManager.Txn.Reads
import TransactionManager.Txn.Rewind
import TransactionManager.Txn.SnapshotInv

/-!
# The writes of a transaction that aborts

A run next to the same run without the `MVCCWrite` calls of one transaction, which aborts in
both. While it is open, and after its undo, the two differ in its own versions and in marks that
delete nothing. A mark that it wrote over is not restored: this is where the runs part.
-/

namespace TransactionManager.Txn
open Lib TransactionManager.Types Mvcc List GoMap Wal VersionChain Manager MvccRun

/-- A run, and the same run without the writes of one transaction. -/
structure TwinRun where
  full : MvccRun
  without : MvccRun

/-- Calls of both runs, writes of the transaction, and steps of its undo in either run. -/
inductive TwinAction where
  | shared (a : MvccAction)
  | write (row : RowRef) (values : RowData) (op : UndoOpType)
  | undoFull
  | undoWithout

/-- The transaction writes and undoes in one run at a time, and does not commit. -/
def MvccAction.isShared (id : Nat) : MvccAction → Bool
  | .write u _ _ _ | .undo u | .commit u => u != id
  | _ => true

def TwinRun.next (id : Nat) (s : TwinRun) : TwinAction → Option TwinRun
  | .shared a =>
    if a.isShared id then
      (s.full.next a).bind fun full => (s.without.next a).map fun without => ⟨full, without⟩
    else none
  | .write row values op => (s.full.next (.write id row values op)).map fun full => { s with full }
  | .undoFull => (s.full.next (.undo id)).map fun full => { s with full }
  | .undoWithout => (s.without.next (.undo id)).map fun without => { s with without }

def TwinRun.start (rows : List (RowRef × RowData)) (maxActive : Nat) (wal : Option Log) : TwinRun :=
  ⟨.start rows maxActive wal, .start rows maxActive wal⟩

/-- The calls of the others return the same in both runs. -/
def SameResults (s : TwinRun) : TwinAction → Prop
  | .shared (.begin isoLevel) => (s.full.mgr.begin .mvcc isoLevel).1 = (s.without.mgr.begin .mvcc isoLevel).1
  | .shared (.write u row values op) =>
    (s.full.mgr.mvccWrite u row values op).1 = (s.without.mgr.mvccWrite u row values op).1
  | .shared (.commit u) => (s.full.mgr.mvccCommit u).1 = (s.without.mgr.mvccCommit u).1
  | _ => True

/-- A version that the transaction marks has no mark of a transaction that runs or committed. -/
def MarksUnmarked (id : Nat) (s : TwinRun) : TwinAction → Prop
  | .write row _ op => op ≠ .insert → ∀ txn ∈ s.full.mgr.txns.get id, ∀ v ∈ s.full.mgr.findVisible txn row,
      v.xmax = 0 ∨ v.xmax ∈ s.full.mgr.aborted
  | _ => True

instance (s : TwinRun) (a : TwinAction) : Decidable (SameResults s a) := by
  unfold SameResults
  split <;> infer_instance

instance (id : Nat) (s : TwinRun) (a : TwinAction) : Decidable (MarksUnmarked id s a) := by
  unfold MarksUnmarked
  split <;> infer_instance

/-- Every other transaction reads the same in both runs. -/
def Unaffected (id : Nat) (s : TwinRun) : Prop := ∀ t ≠ id, SameReads t s.without.mgr s.full.mgr

section Chains
variable {id : Nat} {aborted aborted' : List Nat} {c d : VersionChain} {v w : Version}

/-- A mark that deletes nothing for the others. -/
def IdleMark (id : Nat) (aborted : List Nat) (mark : Nat) : Prop := mark = 0 ∨ mark = id ∨ mark ∈ aborted

structure TwinVersion (id : Nat) (aborted : List Nat) (v w : Version) : Prop where
  other : v.xmin ≠ id
  creator : v.xmin = w.xmin
  data : v.data = w.data
  mark : v.xmax = w.xmax ∨ IdleMark id aborted v.xmax ∧ IdleMark id aborted w.xmax

/-- The chain of a row in both runs: the transaction's own versions are in the first only. -/
inductive TwinChain (id : Nat) (aborted : List Nat) : VersionChain → VersionChain → Prop where
  | nil : TwinChain id aborted [] []
  | own {v : Version} {c d : VersionChain} : v.xmin = id → TwinChain id aborted c d → TwinChain id aborted (v :: c) d
  | pair {v w : Version} {c d : VersionChain} : TwinVersion id aborted v w → TwinChain id aborted c d →
      TwinChain id aborted (v :: c) (w :: d)

theorem IdleMark.mono {mark : Nat} (idle : IdleMark id aborted mark) (sub : ∀ u ∈ aborted, u ∈ aborted') :
    IdleMark id aborted' mark := idle.imp_right (.imp_right (sub mark))

namespace TwinChain

theorem mono (twin : TwinChain id aborted c d) (sub : ∀ u ∈ aborted, u ∈ aborted') : TwinChain id aborted' c d := by
  induction twin with
  | nil => exact .nil
  | own creator _ ih => exact .own creator ih
  | pair same _ ih =>
    exact .pair ⟨same.other, same.creator, same.data, same.mark.imp_right (.imp (.mono · sub) (.mono · sub))⟩ ih

theorem refl (c : VersionChain) (others : ∀ v ∈ c, v.xmin ≠ id) : TwinChain id aborted c c := by
  induction c with
  | nil => exact .nil
  | cons v c ih =>
    exact .pair ⟨others v mem_cons_self, rfl, rfl, .inl rfl⟩ (ih fun w mem => others w (mem_cons_of_mem _ mem))

section
variable {p q : Version → Bool} (own : ∀ v, v.xmin = id → p v = false)
  (pair : ∀ v w, TwinVersion id aborted v w → p v = q w)
include own pair

/-- Who does not see the transaction's versions sees the same data in both. -/
theorem find? (twin : TwinChain id aborted c d) : (c.find? p).map (·.data) = (d.find? q).map (·.data) := by
  induction twin with
  | nil => rfl
  | own creator _ ih => rw [find?_cons_of_neg (by rw [own _ creator]; exact Bool.false_ne_true), ih]
  | @pair v w _ _ same _ ih =>
    rw [find?_cons, find?_cons, pair v w same]
    cases q w with
    | true => exact congrArg some same.data
    | false => exact ih

/-- Marking what another transaction sees. -/
theorem markFirst (u : Nat) (twin : TwinChain id aborted c d) :
    TwinChain id aborted (markFirst p u c) (markFirst q u d) := by
  induction twin with
  | nil => exact .nil
  | own creator _ ih =>
    rw [VersionChain.markFirst, if_neg (by rw [own _ creator]; exact Bool.false_ne_true)]
    exact .own creator ih
  | @pair v w _ _ same rest ih =>
    rw [VersionChain.markFirst, VersionChain.markFirst, pair v w same]
    split
    · exact .pair ⟨same.other, same.creator, same.data, .inl rfl⟩ rest
    · exact .pair same ih

end

section
variable (twin : TwinChain id aborted c d)
include twin

/-- The transaction marks a version whose mark deletes nothing. -/
theorem markOwn {p : Version → Bool} (idle : ∀ v ∈ c.find? p, v.xmax = 0 ∨ v.xmax ∈ aborted) :
    TwinChain id aborted (VersionChain.markFirst p id c) d := by
  induction twin with
  | nil => exact .nil
  | own creator rest ih =>
    rw [VersionChain.markFirst]
    split
    · exact .own creator rest
    · rename_i miss
      rw [find?_cons_of_neg miss] at idle
      exact .own creator (ih idle)
  | @pair v w _ _ same rest ih =>
    rw [VersionChain.markFirst]
    split
    · rename_i hit
      rw [find?_cons_of_pos hit] at idle
      have before : IdleMark id aborted v.xmax := (idle v rfl).imp_right .inr
      refine .pair ⟨same.other, same.creator, same.data, .inr ⟨.inr (.inl rfl), ?_⟩⟩ rest
      rcases same.mark with eq | ⟨-, idle⟩
      · exact eq ▸ before
      · exact idle
    · rename_i miss
      rw [find?_cons_of_neg miss] at idle
      exact .pair same (ih idle)

theorem removeByXMin (u : Nat) : TwinChain id aborted (removeByXMin c u) (removeByXMin d u) := by
  unfold VersionChain.removeByXMin
  induction twin with
  | nil => exact .nil
  | own creator _ ih =>
    rw [filter_cons]
    split
    · exact .own creator ih
    · exact ih
  | pair same _ ih =>
    rw [filter_cons, filter_cons, same.creator]
    split
    · exact .pair same ih
    · exact ih

/-- The transaction's versions are in the first run only. -/
theorem others : VersionChain.removeByXMin d id = d := by
  unfold VersionChain.removeByXMin
  induction twin with
  | nil => rfl
  | own _ _ ih => exact ih
  | pair same _ ih => rw [filter_cons_of_pos (by simpa [← same.creator] using same.other), ih]

theorem removeOwn : TwinChain id aborted (VersionChain.removeByXMin c id) d := by
  have removed := twin.removeByXMin id
  rw [twin.others] at removed
  exact removed

theorem map {f g : Version → Version} (creator : ∀ v, (f v).xmin = v.xmin)
    (keep : ∀ v w, TwinVersion id aborted v w → TwinVersion id aborted (f v) (g w))
    : TwinChain id aborted (c.map f) (d.map g) := by
  induction twin with
  | nil => exact .nil
  | own own _ ih => exact .own ((creator _).trans own) ih
  | pair same _ ih => exact .pair (keep _ _ same) ih

end

end TwinChain

/-- `ClearXMax` on one version. -/
def clearMark (u : Nat) (v : Version) : Version := if v.xmax = u then { v with xmax := 0 } else v

theorem clearMark_same (u : Nat) (v : Version) : (clearMark u v).xmin = v.xmin ∧ (clearMark u v).data = v.data ∧
    (clearMark u v).xmax = if v.xmax = u then 0 else v.xmax := by
  unfold clearMark
  split <;> exact ⟨rfl, rfl, rfl⟩

theorem IdleMark.clear {mark u : Nat} (idle : IdleMark id aborted mark) :
    IdleMark id aborted (if mark = u then 0 else mark) := by
  split
  · exact .inl rfl
  · exact idle

theorem TwinVersion.symm (same : TwinVersion id aborted v w) : TwinVersion id aborted w v :=
  ⟨same.creator ▸ same.other, same.creator.symm, same.data.symm, same.mark.imp Eq.symm And.symm⟩

theorem TwinVersion.clear (u : Nat) (same : TwinVersion id aborted v w) :
    TwinVersion id aborted (clearMark u v) (clearMark u w) := by
  obtain ⟨creator, data, mark⟩ := clearMark_same u v
  obtain ⟨creator', data', mark'⟩ := clearMark_same u w
  refine ⟨creator ▸ same.other, by rw [creator, creator', same.creator], by rw [data, data', same.data], ?_⟩
  rw [mark, mark']
  rcases same.mark with eq | ⟨idle, idle'⟩
  · rw [eq]
    exact .inl rfl
  · exact .inr ⟨idle.clear, idle'.clear⟩

/-- Clearing the transaction's own mark in one run only. -/
theorem TwinVersion.clearOwn (same : TwinVersion id aborted v w) : TwinVersion id aborted (clearMark id v) w := by
  obtain ⟨creator, data, mark⟩ := clearMark_same id v
  refine ⟨creator ▸ same.other, creator.trans same.creator, data.trans same.data, ?_⟩
  rw [mark]
  rcases same.mark with eq | ⟨idle, idle'⟩
  · split
    · rename_i own
      exact .inr ⟨.inl rfl, .inr (.inl (eq ▸ own))⟩
    · exact .inl eq
  · exact .inr ⟨idle.clear, idle'⟩

namespace TwinChain

theorem clearXMax (u : Nat) (twin : TwinChain id aborted c d) : TwinChain id aborted (clearXMax c u) (clearXMax d u) :=
  twin.map (fun v => (clearMark_same u v).1) fun _ _ same => same.clear u

theorem clearOwn (twin : TwinChain id aborted c d) : TwinChain id aborted (VersionChain.clearXMax c id) d ∧
    TwinChain id aborted c (VersionChain.clearXMax d id) := by
  have left := twin.map (g := fun w => w) (fun v => (clearMark_same id v).1) fun _ _ same => same.clearOwn
  have right := twin.map (f := fun v => v) (fun _ => rfl) fun _ _ same => same.symm.clearOwn.symm
  rw [map_id'] at left right
  exact ⟨left, right⟩

end TwinChain
end Chains

/-- A transaction in both runs. Only the transaction itself has another undo log. -/
structure TwinTxn (id : Nat) (a b : Transaction) : Prop where
  alike : a.Alike b
  rows : a.id ≠ id → a.undoRows = b.undoRows

/-- A step of an undo in both runs; the logs differ, and with them the sequence numbers. -/
inductive TwinUndo : UndoStep → UndoStep → Prop where
  | removeByXMin (row : RowRef) : TwinUndo (.removeByXMin row) (.removeByXMin row)
  | clearXMax (row : RowRef) : TwinUndo (.clearXMax row) (.clearXMax row)
  | logAbort (lsn lsn' : Nat) : TwinUndo (.logAbort lsn) (.logAbort lsn')
  | cleanup : TwinUndo .cleanup .cleanup

theorem TwinUndo.refl (step : UndoStep) : TwinUndo step step := by
  cases step
  · exact .removeByXMin _
  · exact .clearXMax _
  · exact .logAbort ..
  · exact .cleanup

structure Twins (id : Nat) (m m' : Manager) : Prop where
  nextID : m.nextID = m'.nextID
  committed : m.committed = m'.committed
  aborted : m.aborted = m'.aborted
  notCommitted : id ∉ m.committed
  txns : ∀ t, Option.Rel (TwinTxn id) (m.txns.get t) (m'.txns.get t)
  chains : ∀ row, TwinChain id m.aborted (m.chain row) (m'.chain row)

structure TwinInv (id : Nat) (s : TwinRun) : Prop where
  full : RunInv s.full
  without : RunInv s.without
  mgrs : Twins id s.full.mgr s.without.mgr
  undoing : ∀ t ≠ id, Option.Rel (List.Forall₂ TwinUndo) (s.full.undoing.get t) (s.without.undoing.get t)

namespace Twins
variable {id t : Nat} {m m' : Manager}

theorem active (twins : Twins id m m') (t : Nat) : m.Active t ↔ m'.Active t := by
  unfold Active
  rw [rel_isSome (twins.txns t)]

theorem txn (twins : Twins id m m') {txn : Transaction} (found : m.txns.get t = some txn) :
    ∃ txn', m'.txns.get t = some txn' ∧ TwinTxn id txn txn' := rel_found (twins.txns t) found

theorem ended_of_ended (twins : Twins id m m') (ended : m.txns.get t = none) : m'.txns.get t = none :=
  rel_missing (twins.txns t) ended

theorem checkers (twins : Twins id m m') : m.statusChecker.isCommitted = m'.statusChecker.isCommitted ∧
    m.statusChecker.isAborted = m'.statusChecker.isAborted := by
  unfold statusChecker
  rw [twins.committed, twins.aborted]
  exact ⟨rfl, rfl⟩

section
variable {h : List MvccEvent} {txn txn' : Transaction} (twins : Twins id m m') (books : BookInv m h)
  (other : t ≠ id) (found : m.txns.get t = some txn) (alike : txn.Alike txn')
include twins books other found

/-- Another transaction does not see the versions of one that has not committed. -/
theorem unseen (v : Version) (creator : v.xmin = id) : isVisible v t (m.getSnapshot txn) m.statusChecker = false := by
  have shows := books.shows found
  rw [← Bool.not_eq_true, shows.isVisible_iff books.toLedger, creator]
  rintro ⟨own | seen, -⟩
  · exact other own.symm
  · exact twins.notCommitted (shows.seen _ seen).2.2

/-- An idle mark deletes nothing for another transaction. -/
theorem unmarked (v : Version) (idle : IdleMark id m.aborted v.xmax) :
    deletionInvisible v t (m.getSnapshot txn) m.statusChecker = true := by
  have shows := books.shows found
  rw [shows.deletionInvisible_iff books.toLedger]
  rintro ⟨live, marked⟩
  rcases idle with zero | own | aborted
  · exact live zero
  · rw [own] at marked
    exact marked.elim (fun eq => other eq.symm) fun seen => twins.notCommitted (shows.seen _ seen).2.2
  · rcases marked with own | seen
    · exact (books.running t (active_of_get found)).2.2.2 (own ▸ aborted)
    · exact books.disjoint _ (shows.seen _ seen).2.2 aborted

include alike

theorem seen_alike (v w : Version) (same : TwinVersion id m.aborted v w) :
    isVisible v t (m.getSnapshot txn) m.statusChecker = isVisible w t (m'.getSnapshot txn') m'.statusChecker := by
  obtain ⟨committed, aborted⟩ := twins.checkers
  have snap := getSnapshot_alike twins.nextID twins.active alike
  unfold isVisible
  rw [creatorVisible_congr snap committed aborted same.creator]
  rcases same.mark with eq | ⟨idle, idle'⟩
  · rw [deletionInvisible_congr snap aborted eq]
  · have idleMark := twins.unmarked books other found
    rw [idleMark v idle, ← deletionInvisible_congr snap aborted (w := w) rfl, idleMark w idle']

end

section
variable (twins : Twins id m m')
include twins

/-- The others read the same in both. -/
theorem sameReads {h : List MvccEvent} (books : BookInv m h) (keyed : m'.Keyed)
    (other : t ≠ id) : SameReads t m' m := by
  cases found : m.txns.get t with
  | none => exact sameReads_of_ended (twins.ended_of_ended found) found
  | some txn =>
    obtain ⟨txn', found', twin⟩ := twins.txn found
    rw [sameReads_iff found' found]
    intro row
    unfold seenData findVisible
    rw [keyed t txn' found', (books.txns t txn found).1]
    exact (twins.chains row).find? (twins.unseen books other found) (twins.seen_alike books other found twin.alike)

section
variable {h : List MvccEvent} (books : BookInv m h) {row : RowRef} {values : RowData} {op : UndoOpType}
include books

/-- A write of another transaction that ends the same way in both. -/
theorem write {h' : List MvccEvent} (books' : BookInv m' h') {u : Nat} (other : u ≠ id)
    (outcome : (m.mvccWrite u row values op).1 = (m'.mvccWrite u row values op).1) :
    Twins id (m.mvccWrite u row values op).2 (m'.mvccWrite u row values op).2 := by
  have same := sameTxns_mvccWrite (books.keyed u) row values op
  have same' := sameTxns_mvccWrite (books'.keyed u) row values op
  cases found : m.txns.get u with
  | none =>
    unfold mvccWrite
    rw [found, twins.ended_of_ended found]
    exact twins
  | some txn =>
    obtain ⟨txn', found', twin⟩ := twins.txn found
    have own := books.keyed u txn found
    refine ⟨by rw [same.nextID, same'.nextID, twins.nextID], by rw [same.committed, same'.committed, twins.committed],
      by rw [same.aborted, same'.aborted, twins.aborted], same.committed ▸ twins.notCommitted, fun t => ?_,
      fun row' => ?_⟩
    · rcases mvccWrite_txns found own row values op with
          ⟨failed, txns⟩ | ⟨ok, others, after, e, stored, continues, undoLog, place⟩ <;>
        rcases mvccWrite_txns found' (books'.keyed u txn' found') row values op with
          ⟨failed', txns'⟩ | ⟨ok', others', after', e', stored', continues', undoLog', place'⟩
      · rw [txns, txns']
        exact twins.txns t
      · exact absurd (outcome.trans ok') failed
      · exact absurd (outcome.symm.trans ok) failed'
      · by_cases here : t = u
        · subst here
          rw [stored, stored']
          refine .some ⟨twin.alike.of_views continues.view continues'.view, fun _ => ?_⟩
          unfold Transaction.undoRows
          rw [undoLog, undoLog', map_append, map_append, map_singleton, map_singleton, place, place']
          exact congrArg (· ++ _) (twin.rows (own ▸ other))
        · rw [others t here, others' t here]
          exact twins.txns t
    · obtain ⟨lsn, chain⟩ := mvccWrite_chain found row values op
      obtain ⟨lsn', chain'⟩ := mvccWrite_chain found' row values op
      rw [chain, chain', ← outcome, same.aborted]
      split
      · have marked := (twins.chains row).markFirst (twins.unseen books other found)
          (twins.seen_alike books other found twin.alike) u
        have new (lsn lsn' : Nat) : TwinVersion id m.aborted ⟨u, 0, values, lsn⟩ ⟨u, 0, values, lsn'⟩ :=
          ⟨other, rfl, rfl, .inl rfl⟩
        generalize (m.mvccWrite u row values op).1 = o
        cases op <;> cases o <;>
          first | exact twins.chains row | exact marked | exact .pair (new ..) marked
                | exact .pair (new ..) (twins.chains row)
      · exact twins.chains row'

/-- A write of the transaction itself, in one run only. -/
theorem writeOwn
    (unmarked : op ≠ .insert → ∀ txn ∈ m.txns.get id, ∀ v ∈ m.findVisible txn row, v.xmax = 0 ∨ v.xmax ∈ m.aborted) :
    Twins id (m.mvccWrite id row values op).2 m' := by
  have same := sameTxns_mvccWrite (books.keyed id) row values op
  cases found : m.txns.get id with
  | none =>
    unfold mvccWrite
    rw [found]
    exact twins
  | some txn =>
    have own := books.keyed id txn found
    refine ⟨by rw [same.nextID, twins.nextID], by rw [same.committed, twins.committed],
      by rw [same.aborted, twins.aborted], same.committed ▸ twins.notCommitted, fun t => ?_, fun row' => ?_⟩
    · rcases mvccWrite_txns found own row values op with
        ⟨_, txns⟩ | ⟨-, others, after, e, stored, continues, -, -⟩
      · rw [txns]
        exact twins.txns t
      by_cases here : t = id
      · subst here
        obtain ⟨txn', found', twin⟩ := twins.txn found
        rw [stored, found']
        exact .some ⟨twin.alike.of_views continues.view rfl, fun other => absurd continues.own other⟩
      · rw [others t here]
        exact twins.txns t
    · obtain ⟨lsn, chain⟩ := mvccWrite_chain found row values op
      rw [chain, same.aborted]
      split
      · rename_i here
        subst here
        have marked (notInsert : op ≠ .insert) := (twins.chains row').markOwn
          (p := fun v => isVisible v id (m.getSnapshot txn) m.statusChecker) fun v hit =>
            unmarked notInsert txn found v (by rw [findVisible, own]; exact hit)
        generalize (m.mvccWrite id row' values op).1 = o
        cases op <;> cases o <;>
          first | exact twins.chains row' | exact marked (by decide) | exact .own rfl (marked (by decide))
                | exact .own rfl (twins.chains row')
      · exact twins.chains row'

end

theorem begin {isoLevel : IsolationLevel} (outcome : (m.begin .mvcc isoLevel).1 = (m'.begin .mvcc isoLevel).1) :
    Twins id (m.begin .mvcc isoLevel).2 (m'.begin .mvcc isoLevel).2 := by
  rcases m.mvccBegin_cases isoLevel with
      full | ⟨txn, n, began, nextID, committed, aborted, chain, txns, view, undoLog⟩ <;>
    rcases m'.mvccBegin_cases isoLevel with
      full' | ⟨txn', n', began', nextID', committed', aborted', chain', txns', view', undoLog'⟩
  · rw [full, full']
    exact twins
  · rw [full, began'] at outcome
    cases outcome
  · rw [began, full'] at outcome
    cases outcome
  · rw [began, began']
    refine ⟨by rw [nextID, nextID', twins.nextID], by rw [committed, committed', twins.committed],
      by rw [aborted, aborted', twins.aborted], committed ▸ twins.notCommitted, fun t => ?_, fun row => ?_⟩
    · rw [txns, txns', get_set, get_set, ← twins.nextID]
      split
      · simp only [Transaction.view, Prod.mk.injEq] at view view'
        refine .some ⟨⟨?_, by rw [view.2.1, view'.2.1], ?_⟩, fun _ => ?_⟩
        · rw [view.1, view'.1, twins.nextID]
        · rw [view.2.2, view'.2.2]
          split
          · exact .some (takeSnapshot_alike (congrArg (· + 1) twins.nextID) twins.active)
          · exact .none
        · rw [Transaction.undoRows, Transaction.undoRows, undoLog, undoLog']
      · exact twins.txns t
    · rw [aborted, chain, chain']
      exact twins.chains row

theorem ended {n n' : Manager} {u : Nat} (txns : n.txns = m.txns.delete u)
    (txns' : n'.txns = m'.txns.delete u) (nextID : n.nextID = m.nextID) (nextID' : n'.nextID = m'.nextID)
    (chain : n.chain = m.chain) (chain' : n'.chain = m'.chain) (committed : n.committed = n'.committed)
    (aborted : n.aborted = n'.aborted) (notCommitted : id ∉ n.committed) (sub : ∀ t ∈ m.aborted, t ∈ n.aborted) :
    Twins id n n' where
  nextID := by rw [nextID, nextID', twins.nextID]
  committed := committed
  aborted := aborted
  notCommitted := notCommitted
  txns t := by
    rw [txns, txns', get_delete, get_delete]
    split
    · exact .none
    · exact twins.txns t
  chains row := by
    rw [chain, chain']
    exact (twins.chains row).mono sub

theorem markAborted (u : Nat) : Twins id (m.markAborted u) (m'.markAborted u) :=
  twins.ended rfl rfl rfl rfl rfl rfl twins.committed (congrArg (u :: ·) twins.aborted) twins.notCommitted
    fun _ => mem_cons_of_mem _

theorem commit {u : Nat} {txn txn' : Transaction} (found : m.txns.get u = some txn)
    (found' : m'.txns.get u = some txn') (other : u ≠ id)
    (outcome : (m.mvccCommit u).1 = (m'.mvccCommit u).1) : Twins id (m.mvccCommit u).2 (m'.mvccCommit u).2 := by
  obtain ⟨spec, txns, nextID, chain⟩ := mvccCommit_spec found
  obtain ⟨spec', txns', nextID', chain'⟩ := mvccCommit_spec found'
  rcases spec with ⟨ok, committed, aborted⟩ | ⟨refused, committed, aborted⟩ <;>
    rcases spec' with ⟨ok', committed', aborted'⟩ | ⟨refused', committed', aborted'⟩
  · refine twins.ended txns txns' nextID nextID' chain chain' (by rw [committed, committed', twins.committed])
      (by rw [aborted, aborted', twins.aborted]) ?_ (aborted ▸ fun _ mem => mem)
    rw [committed]
    exact not_mem_cons_of_ne_of_not_mem (Ne.symm other) twins.notCommitted
  · cases (ok.symm.trans outcome).trans refused'
  · cases (refused.symm.trans outcome).trans ok'
  · exact twins.ended txns txns' nextID nextID' chain chain' (by rw [committed, committed', twins.committed])
      (by rw [aborted, aborted', twins.aborted]) (committed ▸ twins.notCommitted)
      (aborted ▸ fun _ => mem_cons_of_mem _)

theorem chain {n n' : Manager} (lists : SameLists m n) (lists' : SameLists m' n')
    (chains : ∀ row, TwinChain id m.aborted (n.chain row) (n'.chain row)) : Twins id n n' where
  nextID := by rw [lists.nextID, lists'.nextID, twins.nextID]
  committed := by rw [lists.committed, lists'.committed, twins.committed]
  aborted := by rw [lists.aborted, lists'.aborted, twins.aborted]
  notCommitted := lists.committed ▸ twins.notCommitted
  txns t := by
    rw [lists.txns, lists'.txns]
    exact twins.txns t
  chains row := lists.aborted ▸ chains row

theorem undo (u : Nat) {step step' : UndoStep} (same : TwinUndo step step') :
    Twins id (m.undoStep u step) (m'.undoStep u step') := by
  refine twins.chain (m.sameLists_undoStep u step) (m'.sameLists_undoStep u step') fun row' => ?_
  cases same with
  | removeByXMin row =>
    rw [m.chain_removeByXMin, m'.chain_removeByXMin]
    split
    · exact (twins.chains row).removeByXMin u
    · exact twins.chains row'
  | clearXMax row =>
    rw [m.chain_clearXMax, m'.chain_clearXMax]
    split
    · exact (twins.chains row).clearXMax u
    · exact twins.chains row'
  | logAbort =>
    unfold undoStep
    rw [chain_logAppend, chain_logAppend]
    exact twins.chains row'
  | cleanup => exact twins.chains row'

/-- A step of the undo of the transaction itself, in either run. -/
theorem undoOwn (step : UndoStep) : Twins id (m.undoStep id step) m' ∧ Twins id m (m'.undoStep id step) := by
  refine ⟨twins.chain (m.sameLists_undoStep id step) (.refl m') fun row' => ?_,
    twins.chain (.refl m) (m'.sameLists_undoStep id step) fun row' => ?_⟩ <;> cases step with
  | removeByXMin row =>
    rw [chain_removeByXMin]
    split
    · rename_i here
      subst here
      first | exact (twins.chains row').removeOwn | exact (twins.chains row').others.symm ▸ twins.chains row'
    · exact twins.chains row'
  | clearXMax row =>
    rw [chain_clearXMax]
    split
    · rename_i here
      subst here
      first | exact (twins.chains row').clearOwn.1 | exact (twins.chains row').clearOwn.2
    · exact twins.chains row'
  | logAbort lsn =>
    unfold undoStep
    rw [chain_logAppend]
    exact twins.chains row'
  | cleanup => exact twins.chains row'

end

end Twins

section Steps
variable {s s' : MvccRun} {u : Nat}

namespace MvccRun

theorem next_begin {isoLevel : IsolationLevel} (taken : s.next (.begin isoLevel) = some s') :
    s'.mgr = (s.mgr.begin .mvcc isoLevel).2 ∧ s'.undoing = s.undoing := by
  simp only [next] at taken
  split at taken <;> rename_i eq <;> cases taken <;> rw [eq] <;> exact ⟨rfl, rfl⟩

theorem next_commit {txn : Transaction} (found : s.mgr.txns.get u = some txn)
    (taken : s.next (.commit u) = some s') : s'.mgr = (s.mgr.mvccCommit u).2 ∧
      s'.undoing = if (s.mgr.mvccCommit u).1 = .ok then s.undoing else s.undoing.set u txn.mvccUndo := by
  simp only [next, found] at taken
  generalize s.mgr.mvccCommit u = r at *
  obtain ⟨o, n⟩ := r
  cases o <;> cases taken <;> exact ⟨rfl, rfl⟩

theorem next_undo (taken : s.next (.undo u) = some s') : ∃ step rest,
    s.undoing.get u = some (step :: rest) ∧ s'.mgr = s.mgr.undoStep u step ∧ s'.undoing = s.undoing.set u rest := by
  simp only [next] at taken
  split at taken
  · rename_i step rest pending
    cases taken
    exact ⟨step, rest, pending, rfl, rfl⟩
  · cases taken

theorem next_ended (ended : s.mgr.txns.get u = none) : s.next (.commit u) = some s ∧
    s.next (.abort u) = some s := by
  simp [next, ended]

/-- A read or scan changes the tracker and the history only. -/
def ReadsTo (s s' : MvccRun) : Prop :=
  SameLists s.mgr s'.mgr ∧ s'.mgr.chain = s.mgr.chain ∧ s'.undoing = s.undoing

theorem next_read {row : RowRef} (taken : s.next (.read u row) = some s') : s.ReadsTo s' := by
  simp only [next, mvccRead] at taken
  split at taken <;> rename_i eq <;> cases taken <;> split at eq
  · cases eq
  · split at eq <;> cases eq
    · exact ⟨.refl _, rfl, rfl⟩
    · exact ⟨s.mgr.sameLists_recordRead _ row, s.mgr.chain_recordRead _ row, rfl⟩
  · cases eq
    exact ⟨.refl _, rfl, rfl⟩
  · split at eq <;> cases eq

theorem next_scan {table : GoString} {filter : GoString → RowData → Bool}
    (taken : s.next (.scan u table filter) = some s') : s.ReadsTo s' := by
  simp only [next, mvccScan] at taken
  cases found : s.mgr.txns.get u with
  | none =>
    rw [found] at taken
    cases taken
    exact ⟨.refl _, rfl, rfl⟩
  | some txn =>
    rw [found] at taken
    cases taken
    obtain ⟨same, chain⟩ := s.mgr.recordReads txn table (s.mgr.visibleRows txn table)
    exact ⟨same, chain, rfl⟩

end MvccRun

end Steps

namespace TwinInv
variable {id : Nat} {s : TwinRun} {full without : MvccRun}

/-- The undo steps of a transaction that aborts in both. -/
theorem mvccUndo_same {a b : Transaction} (rows : a.undoRows = b.undoRows) : a.mvccUndo = b.mvccUndo := by
  have rows : a.undoLog.map (fun e => (e.table, e.key)) = b.undoLog.map fun e => (e.table, e.key) := rows
  unfold Transaction.mvccUndo
  rw [rows]

theorem mvccAbort_twin {a b : Transaction} (twin : TwinTxn id a b) (other : a.id ≠ id) :
    List.Forall₂ TwinUndo a.mvccAbort b.mvccAbort := by
  unfold Transaction.mvccAbort
  rw [mvccUndo_same (twin.rows other), twin.alike.isolation]
  refine rel_append (rel_append (forall₂_same.2 fun step _ => .refl step) ?_) (forall₂_same.2 fun step _ => .refl step)
  exact .cons (.logAbort ..) .nil

/-- A transaction that ends in both leaves the same to undo. -/
theorem undoing_set
    (undoing : ∀ t ≠ id, Option.Rel (List.Forall₂ TwinUndo) (s.full.undoing.get t) (s.without.undoing.get t))
    {u : Nat} {steps steps' : List UndoStep} (twin : u ≠ id → List.Forall₂ TwinUndo steps steps') :
    ∀ t ≠ id, Option.Rel (List.Forall₂ TwinUndo) ((s.full.undoing.set u steps).get t)
      ((s.without.undoing.set u steps').get t) := by
  intro t other
  rw [get_set, get_set]
  split
  · rename_i here
    exact .some (twin (here ▸ other))
  · exact undoing t other

theorem shared (inv : TwinInv id s) {a : MvccAction} (allowed : a.isShared id = true)
    (results : SameResults s (.shared a)) (taken : s.full.next a = some full)
    (taken' : s.without.next a = some without) : TwinInv id ⟨full, without⟩ := by
  obtain ⟨books, books', twins, undoing⟩ := inv
  suffices Twins id full.mgr without.mgr ∧ ∀ t ≠ id,
      Option.Rel (List.Forall₂ TwinUndo) (full.undoing.get t) (without.undoing.get t) from
    ⟨books.next taken, books'.next taken', this.1, this.2⟩
  have reads (read : s.full.ReadsTo full) (read' : s.without.ReadsTo without) : Twins id full.mgr without.mgr ∧
      ∀ t ≠ id, Option.Rel (List.Forall₂ TwinUndo) (full.undoing.get t) (without.undoing.get t) := by
    obtain ⟨lists, chain, undo⟩ := read
    obtain ⟨lists', chain', undo'⟩ := read'
    rw [undo, undo']
    refine ⟨twins.chain lists lists' fun row => ?_, undoing⟩
    rw [chain, chain']
    exact twins.chains row
  cases a with
  | begin =>
    have began := twins.begin results
    rw [(next_begin taken).1, (next_begin taken').1, (next_begin taken).2, (next_begin taken').2]
    exact ⟨began, undoing⟩
  | read => exact reads (next_read taken) (next_read taken')
  | scan => exact reads (next_scan taken) (next_scan taken')
  | write u =>
    have other : u ≠ id := by simpa [MvccAction.isShared] using allowed
    cases taken
    cases taken'
    exact ⟨twins.write books.books books'.books other results, undoing⟩
  | commit u =>
    have other : u ≠ id := by simpa [MvccAction.isShared] using allowed
    cases found : s.full.mgr.txns.get u with
    | none =>
      cases (next_ended found).1.symm.trans taken
      cases (next_ended (twins.ended_of_ended found)).1.symm.trans taken'
      exact ⟨twins, undoing⟩
    | some txn =>
      obtain ⟨txn', found', twin⟩ := twins.txn found
      obtain ⟨mgr, undo⟩ := next_commit found taken
      obtain ⟨mgr', undo'⟩ := next_commit found' taken'
      rw [mgr, mgr', undo, undo', ← results]
      refine ⟨twins.commit found found' other results, ?_⟩
      split
      · exact undoing
      · refine undoing_set undoing fun _ => ?_
        rw [mvccUndo_same (twin.rows ((books.books.keyed u txn found).symm ▸ other))]
        exact forall₂_same.2 fun step _ => .refl step
  | abort u =>
    unfold MvccRun.next at taken taken'
    dsimp only at taken taken'
    cases found : s.full.mgr.txns.get u with
    | none =>
      rw [found] at taken
      rw [twins.ended_of_ended found] at taken'
      cases taken
      cases taken'
      exact ⟨twins, undoing⟩
    | some txn =>
      obtain ⟨txn', found', twin⟩ := twins.txn found
      rw [found] at taken
      rw [found'] at taken'
      cases taken
      cases taken'
      refine ⟨twins.markAborted u, undoing_set undoing fun other => mvccAbort_twin twin ?_⟩
      exact (books.books.keyed u txn found).symm ▸ other
  | undo u =>
    have other : u ≠ id := by simpa [MvccAction.isShared] using allowed
    obtain ⟨step, rest, pending, mgr, undo⟩ := next_undo taken
    obtain ⟨step', rest', pending', mgr', undo'⟩ := next_undo taken'
    have twin := undoing u other
    rw [pending, pending'] at twin
    cases twin with
    | some twin =>
      obtain ⟨same, rests⟩ := forall₂_cons.1 twin
      rw [mgr, mgr', undo, undo']
      exact ⟨twins.undo u same, undoing_set undoing fun _ => rests⟩

/-- Every step keeps the two runs together. -/
theorem next (inv : TwinInv id s) {a : TwinAction} {s' : TwinRun} (results : SameResults s a)
    (unmarked : MarksUnmarked id s a) (taken : s.next id a = some s') : TwinInv id s' := by
  cases a with
  | shared a =>
    unfold TwinRun.next at taken
    dsimp only at taken
    split at taken
    · rename_i allowed
      obtain ⟨full, moved, rest⟩ := Option.bind_eq_some_iff.1 taken
      obtain ⟨without, moved', rfl⟩ := Option.map_eq_some_iff.1 rest
      exact inv.shared allowed results moved moved'
    · cases taken
  | write =>
    simp only [TwinRun.next] at taken
    obtain ⟨full, moved, rfl⟩ := Option.map_eq_some_iff.1 taken
    have run := inv.full.next moved
    cases moved
    exact ⟨run, inv.without, inv.mgrs.writeOwn inv.full.books unmarked, inv.undoing⟩
  | undoFull =>
    obtain ⟨full, moved, rfl⟩ := Option.map_eq_some_iff.1 taken
    obtain ⟨step, rest, -, mgr, undo⟩ := next_undo moved
    refine ⟨inv.full.next moved, inv.without, ?_, fun t other => ?_⟩
    · rw [mgr]
      exact (inv.mgrs.undoOwn step).1
    · rw [undo, get_set, if_neg other]
      exact inv.undoing t other
  | undoWithout =>
    obtain ⟨without, moved, rfl⟩ := Option.map_eq_some_iff.1 taken
    obtain ⟨step, rest, -, mgr, undo⟩ := next_undo moved
    refine ⟨inv.full, inv.without.next moved, ?_, fun t other => ?_⟩
    · rw [mgr]
      exact (inv.mgrs.undoOwn step).2
    · rw [undo, get_set, if_neg other]
      exact inv.undoing t other

theorem start (pos : 0 < id) (rows : List (RowRef × RowData)) (maxActive : Nat) (wal : Option Log) :
    TwinInv id (.start rows maxActive wal) := by
  have run : RunInv (.start rows maxActive wal) := ⟨.start rows maxActive wal, nofun⟩
  refine ⟨run, run, ⟨rfl, rfl, rfl, ?_, fun t => .none, fun row => ?_⟩, fun t _ => .none⟩
  · exact fun mem => pos.ne' (mem_singleton.1 mem)
  · refine .refl _ fun v mem => ?_
    obtain ⟨data, -, rfl⟩ := chain_start mem
    exact pos.ne

end TwinInv

/-- In every run of the two in which the transaction marks no version with a mark of one that runs
or committed, the others read the same in both. -/
theorem unaffected_of_unmarked (id : Nat) (pos : 0 < id) (rows : List (RowRef × RowData)) (maxActive : Nat)
    (wal : Option Log) (s : TwinRun)
    (reached : Reach (TwinRun.next id) (fun s a => SameResults s a ∧ MarksUnmarked id s a)
      (.start rows maxActive wal) s) : Unaffected id s := by
  have inv := reached.invariant (TwinInv.start pos rows maxActive wal)
    fun _ _ _ inv ok taken => inv.next ok.1 ok.2 taken
  intro t other
  exact inv.mgrs.sameReads inv.full.books inv.without.books.keyed other

/-- Transaction 2 updates the row and aborts, transaction 1 updates it afterwards. -/
theorem unaffected_update : ∃ s, Reach (TwinRun.next 2) (fun s a => SameResults s a ∧ MarksUnmarked 2 s a)
      (.start [(([97], [49]), some [intVal 1])] 0 none) s ∧
    (s.full.mgr.readRow 3 ([97], [49])).toOption = some (some (some [intVal 3])) ∧ Unaffected 2 s := by
  exact Reach.exists_and
    [.shared (.begin .repeatableRead), .shared (.begin .serializable), .write ([97], [49]) (some [intVal 2]) .update,
      .shared (.read 1 ([97], [49])), .shared (.abort 2), .undoFull, .undoFull, .undoFull, .undoFull, .undoWithout,
      .shared (.write 1 ([97], [49]) (some [intVal 3]) .update), .shared (.commit 1), .shared (.begin .readCommitted)]
    (by decide) fun s reached _ => unaffected_of_unmarked 2 (by decide) _ _ _ s reached

/-- Transaction 1 deletes the row, transaction 2 writes over its mark and aborts. -/
theorem not_unaffected : ¬ ∀ id, 0 < id → ∀ (rows : List (RowRef × RowData)) (maxActive : Nat)
    (wal : Option Log) (s : TwinRun), Reach (TwinRun.next id) SameResults (.start rows maxActive wal) s →
      id ∈ s.full.mgr.aborted → s.full.undoing.get id = some [] → Unaffected id s := by
  intro claim
  obtain ⟨s, reached, aborted, undone, differ⟩ := Reach.exists_such (TwinRun.next 2) SameResults
    (.start [(([97], [49]), some [intVal 1])] 0 none)
    [.shared (.begin .repeatableRead), .shared (.begin .repeatableRead),
      .shared (.write 1 ([97], [49]) none .delete), .write ([97], [49]) (some [intVal 2]) .update,
      .shared (.commit 1), .shared (.abort 2), .undoFull, .undoFull, .undoFull, .shared (.begin .repeatableRead)]
    (fun s => 2 ∈ s.full.mgr.aborted ∧ s.full.undoing.get 2 = some [] ∧
      (s.full.mgr.readRow 3 ([97], [49])).toOption ≠ (s.without.mgr.readRow 3 ([97], [49])).toOption) (by decide)
  have same := claim 2 (by decide) _ _ _ s reached aborted undone 3 (by decide)
  exact differ (congrArg _ (same.read _))

end TransactionManager.Txn
