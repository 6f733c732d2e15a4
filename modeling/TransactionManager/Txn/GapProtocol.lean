import TransactionManager.Txn.Phantom

/-!
# The gap-lock protocol

A transaction that inserts locks the gap of the key with `LockForInsert` first. A gap is named by the keys on
its two sides, so the lock on it protects the missing keys of a range only as long as the two keys stay
its neighbours.
-/

namespace TransactionManager.Txn
open Lib TransactionManager.Types List Storage ScanRun ScanEvent

namespace ScanRun

/-- A step of one transaction makes no key appear in or vanish from a range that another running transaction
has locked. -/
def KeepsRanges (s : ScanRun) (a : ScanAction) (s' : ScanRun) : Prop :=
  ∀ t table lo hi key, s.mgr.Active t → .ranged t table lo hi ∈ s.hist → s.actor a ≠ t →
    inRange lo hi key = true → (s'.mgr.catalog.row table key ≠ none ↔ s.mgr.catalog.row table key ≠ none)

/-- No other running transaction has locked a gap beside the row. -/
def Apart (s : ScanRun) (a : ScanAction) (row : RowRef) : Prop :=
  ∀ t < s.mgr.nextID + 1, t ≠ s.actor a → s.mgr.Active t →
    ∀ r ∈ sideGaps row.1 row.2 (s.keys row.1), ¬ Covers (s.locks.held t) (r, .s)

instance (s : ScanRun) (a : ScanAction) (row : RowRef) : Decidable (s.Apart a row) :=
  inferInstanceAs (Decidable (∀ t < _, _))

/-- The transaction of the step is not running or has locked no range of the table. -/
def Unranged (s : ScanRun) (a : ScanAction) (table : GoString) : Prop :=
  s.mgr.Active (s.actor a) → s.hist.any (·.ranges (s.actor a) table) = false

instance (s : ScanRun) (a : ScanAction) (table : GoString) : Decidable (s.Unranged a table) :=
  inferInstanceAs (Decidable (_ → _))

/-- The gap-locked steps in which the keys that bound the locked gaps stay. -/
def Bounded (s : ScanRun) (a : ScanAction) : Prop := s.GapLocked a ∧ (∀ row ∈ s.appears a, s.Unranged a row.1) ∧
    ∀ row ∈ s.vanishes a, s.Unranged a row.1 ∧ s.Apart a row

instance (s : ScanRun) (a : ScanAction) : Decidable (s.Bounded a) := inferInstanceAs (Decidable (_ ∧ _))

/-- A range that a running transaction has locked is guarded. -/
def RangesGuarded (s : ScanRun) : Prop :=
  ∀ t table lo hi, s.mgr.Active t → .ranged t table lo hi ∈ s.hist → s.Guards t table lo hi

end ScanRun

section
variable {s s' : ScanRun} {a : ScanAction} {t : Nat} {table lo hi : GoString}

theorem ScanStep.ranged_of_hist (step : ScanStep s a s') (recorded : s'.hist = .ranged t table lo hi :: s.hist) :
    ∃ done filter, s.calls.get t = some (.locking done [] (.ranged table lo hi filter)) ∧
      s'.mgr = s.mgr ∧ s'.locks = s.locks := by
  cases step with
  | ranged _ here =>
    cases recorded
    exact ⟨_, _, here, rfl, rfl⟩
  | read | wrote | scanned | insertable | undid | commit | abort => cases recorded
  | _ => exact absurd recorded.symm (cons_ne_self _ _)

theorem ScanRun.Unranged.not_ranged (unranged : s.Unranged a table) (active : s.mgr.Active (s.actor a)) :
    .ranged (s.actor a) table lo hi ∉ s.hist := by
  intro mem
  have := any_eq_false.1 (unranged active) _ mem
  simp [ScanEvent.ranges] at this

section
variable (guarded : s.RangesGuarded) (base : ScanInv s) (writes : WriteLocks s) (pend : PendingInv s)
include guarded base writes pend

/-- The ranges that are guarded before a step are guarded after it. -/
theorem ScanRun.RangesGuarded.kept (ok : s.Bounded a) (step : ScanStep s a s') (active : s.mgr.Active t)
    (ranged : .ranged t table lo hi ∈ s.hist) : s'.Guards t table lo hi := by
  refine (guarded t table lo hi active ranged).step base writes pend ok.1 step active ranged (fun own k => ?_)
    fun y vanishes _ => ?_
  · subst own
    cases base.keyStep writes pend step table with
    | same keys => exact keys k
    | appear appears => exact absurd ranged ((ok.2.1 _ appears).not_ranged active)
    | vanish vanishes => exact absurd ranged ((ok.2.2 _ vanishes).1.not_ranged active)
  · by_cases own : s.actor a = t
    · subst own
      exact absurd ranged ((ok.2.2 _ vanishes).1.not_ranged active)
    · exact (ok.2.2 _ vanishes).2 t (Nat.lt_succ_of_le (base.known (.inl active))) (Ne.symm own) active

theorem ScanRun.RangesGuarded.step (ranges : RangeInv s) (ok : s.Bounded a) (step : ScanStep s a s') :
    s'.RangesGuarded := by
  intro t table lo hi active' mem
  have known : t ≤ s.mgr.nextID := ranges.known_step base step _ mem
  have active : s.mgr.Active t := (base.active_step step active').resolve_right (Nat.not_lt.2 known)
  rcases base.event_step step with same | ⟨e, grown, -⟩
  · exact guarded.kept base writes pend ok step active (same ▸ mem)
  rw [grown] at mem
  rcases mem_cons.1 mem with rfl | old
  · obtain ⟨done, filter, here, mgr, locks⟩ := step.ranged_of_hist grown
    have guards := ranges.guards base here
    unfold Guards keys at guards ⊢
    rwa [mgr, locks]
  · exact guarded.kept base writes pend ok step active old

end

end

/-- In every run of bounded steps, a bounded step keeps the keys of the ranges that the others have locked. -/
theorem keepsRanges_of_bounded {seed : Catalog} {maxActive : Nat} {wal : Option Wal.Log} {s s' : ScanRun}
    {a : ScanAction} (reached : Reach ScanRun.next Bounded (.start seed maxActive wal) s)
    (ok : s.Bounded a) (taken : s.next a = some s') : s.KeepsRanges a s' := by
  have inv : ScanInv s ∧ WriteLocks s ∧ PendingInv s ∧ RangeInv s ∧ s.RangesGuarded := by
    clear ok taken
    induction reached with
    | refl =>
      refine ⟨.start .., .start .., .start .., .start .., fun t table lo hi active => ?_⟩
      cases active
    | step _ ok taken now =>
      obtain ⟨base, writes, pend, ranges, guarded⟩ := now
      have step := next_step taken
      exact ⟨base.step ok.1.1.orderly step, writes.step base step, pend.step base step,
        ranges.step base writes pend ok.1 step, guarded.step base writes pend ranges ok step⟩
  obtain ⟨base, writes, pend, ranges, guarded⟩ := inv
  intro t table lo hi key active ranged other within
  rw [(guarded t table lo hi active ranged).row_step base writes pend ok.1 (next_step taken) active ranged other within]

def shelf : Catalog :=
  (∅ : Catalog).set [99] (((∅ : Table).set [49, 48] (some [intVal 1])).set [51, 48] (some [intVal 3]))

/-- The steps of a call that lists the keys, whose locks are free, up to its end. -/
def listSteps (t : Nat) (o : TableOp) (requests : Nat) : List ScanAction :=
  callSteps t o 1 ++ (List.replicate requests [.lock t .request, .lock t .enter]).flatten ++ [.run t]

/-- A range that the transaction has locked. -/
def ScanEvent.range? : ScanEvent → Option (Nat × GoString × GoString × GoString)
  | .ranged t table lo hi => some (t, table, lo, hi)
  | _ => none

theorem ScanEvent.mem_of_range? {hist : List ScanEvent} {t : Nat} {table lo hi : GoString}
    (mem : (t, table, lo, hi) ∈ hist.filterMap range?) : .ranged t table lo hi ∈ hist := by
  obtain ⟨e, mem, eq⟩ := mem_filterMap.1 mem
  cases e with
  | ranged =>
    cases eq
    exact mem
  | _ => cases eq

/-- An insert of key 05 beside the range from 15 to 25 that another transaction has locked. -/
theorem keepsRanges_beside : ∃ s s', Reach ScanRun.next Bounded (.start shelf 0 none) s ∧
    .ranged 1 [99] [49, 53] [50, 53] ∈ s.hist ∧ s.appears (.run 2) = some ([99], [48, 53]) ∧
    s.next (.run 2) = some s' ∧ s.KeepsRanges (.run 2) s' := by
  obtain ⟨s, reached, ranged, appears, ok, s', taken, -⟩ := Reach.exists_such ScanRun.next Bounded (.start shelf 0 none)
    ([.begin .serializable, .begin .serializable] ++
      listSteps 1 (.lockForRangeScan [99] [49, 53] [50, 53]) 1 ++ listSteps 2 (.lockForInsert ([99], [48, 53])) 2 ++
      (callSteps 2 (.write ([99], [48, 53]) (some [intVal 5]) .insert) 2).dropLast)
    (fun s => (1, [99], [49, 53], [50, 53]) ∈ s.hist.filterMap range? ∧
      s.appears (.run 2) = some ([99], [48, 53]) ∧ s.Bounded (.run 2) ∧
      ∃ s' ∈ s.next (.run 2), True) (by decide)
  exact ⟨s, s', reached, mem_of_range? ranged, appears, taken, keepsRanges_of_bounded reached ok taken⟩

def TableOp.Printable : TableOp → Prop
  | .read row | .write row .. | .lockForInsert row => isGapSafeKey row.2 = true
  | .lockForRangeScan _ lo hi => isGapSafeKey lo = true ∧ isGapSafeKey hi = true
  | .scan .. => True

instance (o : TableOp) : Decidable o.Printable := by
  unfold TableOp.Printable
  split <;> infer_instance

def ScanEvent.inserts (t : Nat) (row : RowRef) : ScanEvent → Bool
  | .insertable t' row' => t' = t ∧ row' = row
  | _ => false

/-- The orderly steps of serializable transactions with printable keys that insert a missing key only after
`LockForInsert`. -/
def ScanRun.Protocol (s : ScanRun) (a : ScanAction) : Prop := s.Orderly a ∧ match a with
    | .begin isoLevel => isoLevel = .serializable
    | .call _ o => o.Printable
    | .run t => ∀ row ∈ s.appears (.run t), s.hist.any (·.inserts t row) = true
    | _ => True

instance (s : ScanRun) (a : ScanAction) : Decidable (s.Protocol a) := by
  unfold Protocol
  cases_type ScanAction <;> infer_instance

def PrintableKeys (c : Catalog) : Prop := ∀ table key, c.row table key ≠ none → isGapSafeKey key = true

theorem printableKeys_shelf : PrintableKeys shelf := by
  intro table key there
  by_cases name : table = [99]
  · by_cases thirty : key = [51, 48]
    · rw [thirty]
      decide
    · by_cases ten : key = [49, 48]
      · rw [ten]
        decide
      · simp [shelf, Catalog.row, Catalog.lookup, Table.getRow, name, thirty, ten] at there
  · simp [shelf, Catalog.row, Catalog.lookup, name] at there

/-- After the commit of a delete of key 30 the gap of key 20 has another name, and the insert of 20 does not
conflict with the range from 15 to 25 that a running transaction has locked. -/
theorem not_keepsRanges : ¬ ∀ (seed : Catalog) (maxActive : Nat) (wal : Option Wal.Log) (s s' : ScanRun)
    (a : ScanAction), PrintableKeys seed → Reach ScanRun.next Protocol (.start seed maxActive wal) s →
      s.Protocol a → s.next a = some s' → s.KeepsRanges a s' := by
  intro claim
  obtain ⟨s, reached, ranged, active, absent, ok, s', taken, there⟩ := Reach.exists_such ScanRun.next Protocol (.start shelf 0 none)
    ([.begin .serializable, .begin .serializable, .begin .serializable] ++
      listSteps 1 (.lockForRangeScan [99] [49, 53] [50, 53]) 1 ++
      callSteps 2 (.write ([99], [51, 48]) none .delete) 2 ++
      commitShared 2 (.row [99] [51, 48]) (.table [99]) ++ listSteps 3 (.lockForInsert ([99], [50, 48])) 2 ++
      (callSteps 3 (.write ([99], [50, 48]) (some [intVal 2]) .insert) 2).dropLast)
    (fun s => (1, [99], [49, 53], [50, 53]) ∈ s.hist.filterMap range? ∧
      (s.mgr.txns.get 1).isSome = true ∧ s.mgr.catalog.row [99] [50, 48] = none ∧ s.Protocol (.run 3) ∧
      ∃ s' ∈ s.next (.run 3), s'.mgr.catalog.row [99] [50, 48] ≠ none) (by decide)
  have keeps := claim shelf 0 none s s' (.run 3) printableKeys_shelf reached ok taken 1 [99] [49, 53] [50, 53] [50, 48] active
    (mem_of_range? ranged) (by simp [actor]) (by decide)
  exact keeps.1 there absent

end TransactionManager.Txn
