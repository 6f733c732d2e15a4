import TransactionManager.Txn.SnapshotInv

/-!
# Write conflicts and lost updates

`checkWriteConflictLocked` walks the chain for a writer that is running, or that was
running at the snapshot and has committed. Two kinds of conflict leave their trace where
it does not look: a version whose creator began after the snapshot and has committed, and
a version whose creator is harmless but whose `xmax` was set by a concurrent deleter.
`overlooked` names them. In runs in which no write passes the check over such a version,
two committed writers of a row never overlap.
-/

namespace TransactionManager.Txn
open Lib TransactionManager.Types Mvcc List Wal VersionChain Manager MvccRun Bool

/-- The version carries a conflict that `checkWriteConflictLocked` does not see. -/
def overlooked (id : Nat) (snap : Snapshot) (mgr : TxnStatusChecker) (v : Version) : Bool :=
  (v.xmin != id && mgr.isCommitted v.xmin && decide (snap.xmax ≤ v.xmin)) ||
    (v.xmax != 0 && v.xmax != id && (mgr.isActive v.xmax ||
      mgr.isCommitted v.xmax && (snap.contains v.xmax || decide (snap.xmax ≤ v.xmax))))

/-- No version of the row carries an overlooked conflict, or the check reports one. -/
def Manager.nothingOverlooked (m : Manager) (id : Nat) (row : RowRef) : Bool :=
  match m.txns.get id with
  | none => true
  | some txn =>
    (checkWriteConflictLocked id (m.getSnapshot txn) m.statusChecker (m.chain row)).isSome ||
      (m.chain row).all fun v => !overlooked id (m.getSnapshot txn) m.statusChecker v

def SnapshotLevel : MvccAction → Prop
  | .begin isoLevel => isoLevel = .repeatableRead ∨ isoLevel = .serializable
  | _ => True

instance (a : MvccAction) : Decidable (SnapshotLevel a) := by
  unfold SnapshotLevel
  split <;> infer_instance

/-- The condition on the steps: no write passes over an overlooked conflict. -/
def WriteChecked (s : MvccRun) (a : MvccAction) : Prop := SnapshotLevel a ∧ match a with
    | .write id row _ _ => s.mgr.nothingOverlooked id row = true
    | _ => True

instance (s : MvccRun) (a : MvccAction) : Decidable (WriteChecked s a) := by
  unfold WriteChecked
  split <;> infer_instance

/-- `t` changed the row: a completed write, or the mark of one that panicked. -/
def Wrote (h : List MvccEvent) (t : Nat) (row : RowRef) : Prop := ∃ op completed, .write t row op completed ∈ h

/-- Two committed writers of a row: one of them committed before the other began. -/
def LostUpdateFree (h : List MvccEvent) : Prop :=
  ∀ t u row op op', t ≠ u → .write t row op true ∈ h → .write u row op' true ∈ h →
    .commit t ∈ h → .commit u ∈ h → CommittedBefore h t u ∨ CommittedBefore h u t

/-- Some other transaction, running or committed, changed the row outside the snapshot of
`id`. -/
def OutsideWriter (s : MvccRun) (id : Nat) (row : RowRef) : Prop :=
  ∃ u ≠ id, Wrote s.hist u row ∧ (s.mgr.Active u ∨ u ∈ s.mgr.committed) ∧ ¬ CommittedBefore s.hist u id

/-- The marks in the chains and the writes in the history. -/
structure MarkInv (m : Manager) (h : List MvccEvent) : Prop where
  created : ∀ row, ∀ v ∈ m.chain row, v.xmin = 0 ∨ Wrote h v.xmin row
  deleted : ∀ row, ∀ v ∈ m.chain row, v.xmax = 0 ∨ Wrote h v.xmax row
  marked : ∀ t row, Wrote h t row → t ∉ m.aborted → ∃ v ∈ m.chain row, v.xmin = t ∨ v.xmax = t
  own : ∀ row, ∀ v ∈ m.chain row, v.xmin ∉ m.committed → v.xmax = 0 ∨ v.xmax = v.xmin
  ordered : ∀ t u row op c op' c', t ≠ u → t ∉ m.aborted → u ∉ m.aborted →
    Precedes h (.write t row op c) (.write u row op' c') → CommittedBefore h t u

section Written
variable {visible : Version → Bool} {id : Nat} {c c' : VersionChain} {op : UndoOpType} {completed : Bool} {v : Version}

/-- A version after a write is new, old, or the old visible one with its new mark. -/
theorem Written.mem (w : Written visible id c op completed c') (mem : v ∈ c') : v.xmin = id ∧ v.xmax = 0 ∨ v ∈ c ∨
      ∃ old ∈ c, visible old = true ∧ v = { old with xmax := id } := by
  cases w with
  | insert new xmin xmax =>
    rcases mem_cons.1 mem with rfl | old
    · exact .inl ⟨xmin, xmax⟩
    · exact .inr (.inl old)
  | update new xmin xmax _ =>
    rcases mem_cons.1 mem with rfl | old
    · exact .inl ⟨xmin, xmax⟩
    · exact .inr (mem_markFirst old)
  | mark _ _ => exact .inr (mem_markFirst mem)

theorem markFirst_keeps (mem : v ∈ c) : v ∈ markFirst visible id c ∨
      visible v = true ∧ { v with xmax := id } ∈ markFirst visible id c := by
  induction c with
  | nil => cases mem
  | cons w older ih =>
    rw [markFirst]
    split <;> rename_i seen
    · rcases mem_cons.1 mem with rfl | inner
      · exact .inr ⟨seen, mem_cons_self⟩
      · exact .inl (mem_cons_of_mem _ inner)
    · rcases mem_cons.1 mem with rfl | inner
      · exact .inl mem_cons_self
      · exact (ih inner).imp (mem_cons_of_mem _) (.imp_right (mem_cons_of_mem _))

theorem Written.keeps (w : Written visible id c op completed c') (mem : v ∈ c) :
    v ∈ c' ∨ visible v = true ∧ { v with xmax := id } ∈ c' := by
  cases w with
  | insert => exact .inl (mem_cons_of_mem _ mem)
  | update =>
    exact (markFirst_keeps mem).imp (mem_cons_of_mem _) (.imp_right (mem_cons_of_mem _))
  | mark _ _ => exact markFirst_keeps mem

theorem markFirst_marks (hit : (c.find? visible).isSome) : ∃ v ∈ markFirst visible id c, v.xmax = id := by
  induction c with
  | nil => cases hit
  | cons w older ih =>
    rw [markFirst]
    split <;> rename_i seen
    · exact ⟨_, mem_cons_self, rfl⟩
    · rw [find?_cons_of_neg seen] at hit
      obtain ⟨v, mem, xmax⟩ := ih hit
      exact ⟨v, mem_cons_of_mem _ mem, xmax⟩

theorem Written.marks (w : Written visible id c op completed c') : ∃ v ∈ c', v.xmin = id ∨ v.xmax = id := by
  cases w with
  | insert new xmin _ => exact ⟨new, mem_cons_self, .inl xmin⟩
  | update new xmin _ _ => exact ⟨new, mem_cons_self, .inl xmin⟩
  | mark _ hit =>
    obtain ⟨v, mem, xmax⟩ := markFirst_marks hit
    exact ⟨v, mem, .inr xmax⟩

end Written

section Step
variable {m m' : Manager} {h : List MvccEvent} {id t u : Nat} {row : RowRef} {txn : Transaction}

theorem Wrote.append {e : MvccEvent} : Wrote h t row → Wrote (h ++ [e]) t row
  | ⟨op, completed, mem⟩ => ⟨op, completed, mem_append_left _ mem⟩

theorem wrote_append {e : MvccEvent} (w : Wrote (h ++ [e]) t row) :
    Wrote h t row ∨ ∃ op completed, e = .write t row op completed := by
  obtain ⟨op, completed, mem⟩ := w
  rcases mem_append.1 mem with old | new
  · exact .inl ⟨op, completed, old⟩
  · exact .inr ⟨op, completed, (mem_singleton.1 new).symm⟩

theorem TxnInv.wrote_known (inv : TxnInv m h) (w : Wrote h t row) :
    t ≠ 0 ∧ (m.Active t ∨ t ∈ m.committed ∨ t ∈ m.aborted) := by
  obtain ⟨op, completed, mem⟩ := w
  obtain ⟨pos, le⟩ := inv.events _ mem
  exact ⟨Nat.pos_iff_ne_zero.1 pos, inv.known t pos le⟩

/-- What a write past its checks finds: the creators and the deleters are in its view or have aborted. -/
theorem BookInv.shown_of_checked (inv : BookInv m h) (found : m.txns.get id = some txn)
    (passed : checkWriteConflictLocked id (m.getSnapshot txn) m.statusChecker (m.chain row) = none)
    (clean : ∀ v ∈ m.chain row, overlooked id (m.getSnapshot txn) m.statusChecker v = false) {v : Version}
    (known : v.xmin ≤ m.nextID ∧ v.xmax ≤ m.nextID) (mem : v ∈ m.chain row) :
    let V (u : Nat) : Prop := u = id ∨ if txn.isolation = .readCommitted then u ∈ m.committed else Sees h id u
    (V v.xmin ∨ v.xmin ∈ m.aborted) ∧ (v.xmax = 0 ∨ V v.xmax ∨ v.xmax ∈ m.aborted) := by
  have look := clean v mem
  simp only [overlooked, statusChecker, Snapshot.contains, or_eq_false_iff,
    and_eq_false_iff, bne_eq_false_iff_eq, contains_eq_mem, decide_eq_false_iff_not,
    Option.isSome_eq_false_iff, not_le] at look
  obtain ⟨lowCreator, lowMark⟩ := look
  have status (u : Nat) (le : u ≤ m.nextID) (idle : m.txns.get u = none) : u ∈ m.committed ∨ u ∈ m.aborted := by
    by_cases seed : u = 0
    · exact .inl (seed ▸ inv.seed)
    · refine (inv.known u (Nat.pos_of_ne_zero seed) le).resolve_left fun active => ?_
      rw [Active, idle] at active
      cases active
  -- a committed transaction that the snapshot does not leave out is in the view
  have shown {u : Nat} (committed : u ∈ m.committed) (out : u ∉ (m.getSnapshot txn).active)
      (lt : u < (m.getSnapshot txn).xmax) :=
    ((inv.shows found).rest u lt out).imp_right fun ended => ended.resolve_right (inv.disjoint u committed)
  constructor
  · by_cases own : v.xmin = id
    · exact .inl (.inl own)
    obtain ⟨idle, notLeft⟩ := checkWriteConflictLocked_eq_none.1 passed v mem own
    simp only [statusChecker, Snapshot.contains, Option.isSome_eq_false_iff,
      Option.isNone_iff_eq_none, and_eq_false_iff, contains_eq_mem,
      decide_eq_false_iff_not] at idle notLeft
    refine (status _ known.1 idle).imp_left fun committed => ?_
    have out := notLeft.resolve_right (not_not_intro committed)
    exact shown committed out (lowCreator.resolve_left fun h => h.elim own (fun h => h committed))
  · by_cases live : v.xmax = 0
    · exact .inl live
    by_cases own : v.xmax = id
    · exact .inr (.inl (.inl own))
    obtain ⟨idle, notLeft⟩ := lowMark.resolve_left fun h => h.elim live own
    refine .inr ((status _ known.2 (Option.isNone_iff_eq_none.1 idle)).imp_left fun committed => ?_)
    obtain ⟨out, lt⟩ := notLeft.resolve_left (not_not_intro committed)
    exact shown committed out lt

/-- Past the check and with nothing overlooked, every other transaction with a mark on the row has aborted or is in
the snapshot. -/
theorem committedBefore_of_mark (inv : TxnInv m h) (marks : MarkInv m h) (found : m.txns.get id = some txn)
    (passed : checkWriteConflictLocked id (m.getSnapshot txn) m.statusChecker (m.chain row) = none)
    (clean : m.nothingOverlooked id row = true) {v : Version} (mem : v ∈ m.chain row)
    (mark : u = v.xmin ∨ u = v.xmax) (seed : u ≠ 0) (other : u ≠ id) (alive : u ∉ m.aborted) :
    CommittedBefore h u id := by
  simp only [nothingOverlooked, found, passed, Option.isSome_none, Bool.false_or, all_eq_true, not_eq_true'] at clean
  have low {u : Nat} (wrote : u = 0 ∨ Wrote h u row) : u ≤ m.nextID := by
    rcases wrote with rfl | ⟨op, completed, event⟩
    · exact Nat.zero_le _
    · exact (inv.events _ event).2
  have checked := inv.shown_of_checked found passed clean
    ⟨low (marks.created row v mem), low (marks.deleted row v mem)⟩ mem
  simp only [if_neg (inv.levels id txn found)] at checked
  have shown : (u = id ∨ Sees h id u) ∨ u ∈ m.aborted := by
    rcases mark with rfl | rfl
    · exact checked.1
    · exact checked.2.resolve_left seed
  exact ((shown.resolve_right alive).resolve_left other).resolve_left seed

namespace MarkInv

theorem same (marks : MarkInv m h) (chain : m'.chain = m.chain)
    (committed : ∀ t ∈ m.committed, t ∈ m'.committed) (aborted : ∀ t ∈ m.aborted, t ∈ m'.aborted) :
    MarkInv m' h where
  created := chain ▸ marks.created
  deleted := chain ▸ marks.deleted
  marked t row w alive := by
    rw [chain]
    exact marks.marked t row w fun gone => alive (aborted t gone)
  own := by
    rw [chain]
    exact fun row v mem open' => marks.own row v mem fun done => open' (committed _ done)
  ordered t u row op c op' c' ne alive alive' :=
    marks.ordered t u row op c op' c' ne (fun gone => alive (aborted t gone)) fun gone => alive' (aborted u gone)

theorem append (marks : MarkInv m h) {e : MvccEvent}
    (ne : ∀ t row op completed, e ≠ .write t row op completed) : MarkInv m (h ++ [e]) where
  created row v mem := (marks.created row v mem).imp_right .append
  deleted row v mem := (marks.deleted row v mem).imp_right .append
  marked t row w := by
    rcases wrote_append w with old | ⟨op, completed, eq⟩
    · exact marks.marked t row old
    · exact (ne _ _ _ _ eq).elim
  own := marks.own
  ordered t u row op c op' c' diff alive alive' p := by
    rcases precedes_append_singleton.1 p with old | ⟨-, eq⟩
    · exact (marks.ordered t u row op c op' c' diff alive alive' old).append
    · exact (ne _ _ _ _ eq.symm).elim

theorem write (marks : MarkInv m h) (inv : TxnInv m h) (found : m.txns.get id = some txn)
    (passed : checkWriteConflictLocked id (m.getSnapshot txn) m.statusChecker (m.chain row) = none)
    (clean : m.nothingOverlooked id row = true) (same : SameTxns m m')
    (others : ∀ row' ≠ row, m'.chain row' = m.chain row') {op : UndoOpType} {completed : Bool}
    (written : Written (fun v => isVisible v id (m.getSnapshot txn) m.statusChecker) id
      (m.chain row) op completed (m'.chain row)) :
    MarkInv m' (h ++ [.write id row op completed]) := by
  have self : Wrote (h ++ [.write id row op completed]) id row := ⟨op, completed, by simp⟩
  refine ⟨?_, ?_, ?_, ?_, ?_⟩
  · intro row' v mem
    by_cases at' : row' = row
    · subst at'
      rcases written.mem mem with ⟨xmin, -⟩ | old | ⟨old, prior, -, rfl⟩
      · exact .inr (xmin ▸ self)
      · exact (marks.created row' v old).imp_right .append
      · exact (marks.created row' old prior).imp_right .append
    · rw [others row' at'] at mem
      exact (marks.created row' v mem).imp_right .append
  · intro row' v mem
    by_cases at' : row' = row
    · subst at'
      rcases written.mem mem with ⟨-, xmax⟩ | old | ⟨old, prior, -, rfl⟩
      · exact .inl xmax
      · exact (marks.deleted row' v old).imp_right .append
      · exact .inr self
    · rw [others row' at'] at mem
      exact (marks.deleted row' v mem).imp_right .append
  · intro t row' w alive
    rw [same.aborted] at alive
    rcases wrote_append w with old | ⟨op', completed', eq⟩
    · obtain ⟨v, mem, mark⟩ := marks.marked t row' old alive
      by_cases at' : row' = row
      · subst at'
        by_cases self' : t = id
        · exact self' ▸ written.marks
        rcases written.keeps mem with kept | ⟨visible, kept⟩
        · exact ⟨v, kept, mark⟩
        refine ⟨_, kept, mark.imp_right fun deleter => ?_⟩
        -- a visible version is not marked by a transaction that the snapshot shows
        have seed := (inv.wrote_known old).1
        have before := committedBefore_of_mark inv marks found passed clean mem (.inr deleter.symm) seed self' alive
        rcases ((isVisible_iff inv found v).1 visible).2 with zero | ⟨-, notBefore⟩
        · exact absurd (deleter.symm.trans zero) seed
        · exact absurd (deleter ▸ before) notBefore
      · rw [others row' at']
        exact ⟨v, mem, mark⟩
    · cases eq
      exact written.marks
  · intro row' v mem open'
    rw [same.committed] at open'
    by_cases at' : row' = row
    · subst at'
      rcases written.mem mem with ⟨-, xmax⟩ | old | ⟨old, prior, visible, rfl⟩
      · exact .inl xmax
      · exact marks.own row' v old open'
      · rcases ((isVisible_iff inv found old).1 visible).1 with mine | sees
        · exact .inr mine.symm
        · exact absurd (inv.committed_of_sees sees).1 open'
    · rw [others row' at'] at mem
      exact marks.own row' v mem open'
  · intro t u row' op₁ c₁ op₂ c₂ diff alive alive' p
    rw [same.aborted] at alive alive'
    rcases precedes_append_singleton.1 p with old | ⟨mem, eq⟩
    · exact (marks.ordered t u row' op₁ c₁ op₂ c₂ diff alive alive' old).append
    · cases eq
      obtain ⟨v, inChain, mark⟩ := marks.marked t _ ⟨op₁, c₁, mem⟩ alive
      have seed := (inv.wrote_known ⟨op₁, c₁, mem⟩).1
      exact (committedBefore_of_mark inv marks found passed clean inChain
        (mark.imp Eq.symm Eq.symm) seed diff alive).append

/-- Rewinding an aborted transaction takes only its own marks away. -/
theorem undo (marks : MarkInv m h) (inv : TxnInv m h) (gone : id ∈ m.aborted) (same : SameTxns m m')
    (others : ∀ row' ≠ row, m'.chain row' = m.chain row')
    (rewound : m'.chain row = removeByXMin (m.chain row) id ∨ m'.chain row = clearXMax (m.chain row) id) :
    MarkInv m' h := by
  -- a version of the rewound chain is an old one, at most with the mark of `id` cleared
  have back : ∀ row', ∀ v ∈ m'.chain row', ∃ old ∈ m.chain row', v.xmin = old.xmin ∧
      (v.xmax = old.xmax ∨ v.xmax = 0) := by
    intro row' v mem
    by_cases at' : row' = row
    · subst at'
      rcases rewound with eq | eq <;> rw [eq] at mem
      · exact ⟨v, (mem_filter.1 mem).1, rfl, .inl rfl⟩
      · obtain ⟨old, prior, rfl⟩ := mem_map.1 mem
        refine ⟨old, prior, ?_⟩
        split <;> simp
    · rw [others row' at'] at mem
      exact ⟨v, mem, rfl, .inl rfl⟩
  refine ⟨?_, ?_, ?_, ?_, ?_⟩
  · intro row' v mem
    obtain ⟨old, prior, xmin, -⟩ := back row' v mem
    rw [xmin]
    exact marks.created row' old prior
  · intro row' v mem
    obtain ⟨old, prior, -, xmax | xmax⟩ := back row' v mem
    · rw [xmax]
      exact marks.deleted row' old prior
    · exact .inl xmax
  · intro t row' w alive
    rw [same.aborted] at alive
    obtain ⟨v, mem, mark⟩ := marks.marked t row' w alive
    have other : t ≠ id := by
      rintro rfl
      exact alive gone
    by_cases at' : row' = row
    · subst at'
      rcases rewound with eq | eq <;> rw [eq]
      · refine ⟨v, mem_filter.2 ⟨mem, ?_⟩, mark⟩
        simp only [bne_iff_ne, ne_eq]
        intro mine
        have open' : v.xmin ∉ m.committed := fun done => inv.disjoint _ done (mine ▸ gone)
        rcases mark with creator | deleter
        · exact other (creator.symm.trans mine)
        · rcases marks.own row' v mem open' with zero | self
          · exact (inv.wrote_known w).1 (deleter.symm.trans zero)
          · exact other (deleter.symm.trans (self.trans mine))
      · refine ⟨_, mem_map.2 ⟨v, mem, rfl⟩, ?_⟩
        split
        · rename_i cleared
          rcases mark with creator | deleter
          · exact .inl creator
          · exact absurd (deleter.symm.trans cleared) other
        · exact mark
    · rw [others row' at']
      exact ⟨v, mem, mark⟩
  · intro row' v mem open'
    rw [same.committed] at open'
    obtain ⟨old, prior, xmin, xmax | xmax⟩ := back row' v mem
    · rw [xmin, xmax]
      exact marks.own row' old prior (xmin ▸ open')
    · exact .inl xmax
  · rw [same.aborted]
    exact marks.ordered

end MarkInv

end Step

/-- What holds in every state of a run whose writes meet the condition. -/
structure MvccInv (s : MvccRun) : Prop where
  txns : TxnInv s.mgr s.hist
  marks : MarkInv s.mgr s.hist
  undoing : ∀ t, (s.undoing.get t).isSome → t ∈ s.mgr.aborted

theorem mvccInv_start (rows : List (RowRef × RowData)) (maxActive : Nat) (wal : Option Log) :
    MvccInv (start rows maxActive wal) where
  txns := ⟨.start rows maxActive wal, nofun⟩
  marks := by
    refine ⟨?_, ?_, ?_, ?_, ?_⟩
    · intro row v mem
      obtain ⟨data, -, rfl⟩ := chain_start mem
      exact .inl rfl
    · intro row v mem
      obtain ⟨data, -, rfl⟩ := chain_start mem
      exact .inl rfl
    · rintro t row ⟨op, completed, mem⟩
      cases mem
    · intro row v mem _
      obtain ⟨data, -, rfl⟩ := chain_start mem
      exact .inl rfl
    · intro t u row op c op' c' _ _ _ p
      exact absurd p not_precedes_nil
  undoing t h := by cases h

/-- One step whose write meets the condition keeps the invariant. -/
theorem mvccInv_next {s s' : MvccRun} {a : MvccAction} (inv : MvccInv s) (ok : WriteChecked s a)
    (taken : s.next a = some s') : MvccInv s' := by
  obtain ⟨txns, marks, undoing⟩ := inv
  have books := RunInv.next ⟨txns.toBookInv, undoing⟩ taken
  have levels := levels_next txns (fun isoLevel eq => by subst eq; rcases ok.1 with eq | eq <;> rw [eq] <;> decide) taken
  refine ⟨⟨books.books, levels⟩, ?_, books.undoing⟩
  cases next_cases txns.keyed taken with
  | idle same chain _ => exact marks.same chain (same.committed ▸ fun _ h => h) (same.aborted ▸ fun _ h => h)
  | begin _ committed aborted chain _ _ =>
    exact (marks.append (by simp)).same chain (committed ▸ fun _ h => h) (aborted ▸ fun _ h => h)
  | read _ same chain | scan _ same chain =>
    exact (marks.append (by simp)).same chain (same.committed ▸ fun _ h => h) (same.aborted ▸ fun _ h => h)
  | write found passed same others written => exact marks.write txns found passed ok.2 same others written
  | commit _ _ _ committed aborted _ chain =>
    exact (marks.append (by simp)).same chain (committed ▸ fun _ h => mem_cons_of_mem _ h) (aborted ▸ fun _ h => h)
  | abort _ _ committed aborted _ chain =>
    exact (marks.append (by simp)).same chain (committed ▸ fun _ h => h) (aborted ▸ fun _ h => mem_cons_of_mem _ h)
  | undo pending same others rewound _ => exact marks.undo txns (undoing _ pending) same others rewound

theorem mvccInv_of_reach {rows : List (RowRef × RowData)} {maxActive : Nat} {wal : Option Log}
    {s : MvccRun} (reached : Reach MvccRun.next WriteChecked (.start rows maxActive wal) s) :
    MvccInv s :=
  reached.invariant (mvccInv_start rows maxActive wal) fun _ _ _ => mvccInv_next

/-- A write reports a conflict exactly when the chain walk finds one. -/
theorem mvccWrite_conflict_iff {m : Manager} {id : Nat} {txn : Transaction}
    (found : m.txns.get id = some txn) (row : RowRef) (values : RowData) (op : UndoOpType) :
    (∃ other, (m.mvccWrite id row values op).1 = .err (.writeConflict other)) ↔
      (checkWriteConflictLocked id (m.getSnapshot txn) m.statusChecker (m.chain row)).isSome := by
  simp only [mvccWrite, found]
  cases checkWriteConflictLocked id (m.getSnapshot txn) m.statusChecker (m.chain row) with
  | some => simp
  | none =>
    cases op <;> dsimp only <;> (repeat' split) <;> simp

/-- The overlooked versions are exactly the conflicts a write misses. -/
theorem nothingOverlooked_iff {s : MvccRun} (inv : MvccInv s) {id : Nat} (active : s.mgr.Active id)
    (row : RowRef) (values : RowData) (op : UndoOpType) :
    s.mgr.nothingOverlooked id row = true ↔ (OutsideWriter s id row →
      ∃ other, (s.mgr.mvccWrite id row values op).1 = .err (.writeConflict other)) := by
  obtain ⟨txn, found⟩ := Option.isSome_iff_exists.1 active
  have of := inv.txns.snapshot found
  rw [mvccWrite_conflict_iff found]
  constructor
  · rintro clean ⟨u, other, wrote, status, outside⟩
    by_contra silent
    have passed := Option.not_isSome_iff_eq_none.1 silent
    have alive : u ∉ s.mgr.aborted := by
      rcases status with running | committed
      · exact (inv.txns.running u running).2.2.2
      · exact inv.txns.disjoint u committed
    obtain ⟨v, mem, mark⟩ := inv.marks.marked u row wrote alive
    exact outside (committedBefore_of_mark inv.txns inv.marks found passed clean mem
      (mark.imp Eq.symm Eq.symm) (inv.txns.wrote_known wrote).1 other alive)
  · intro reports
    simp only [nothingOverlooked, found, or_eq_true]
    by_contra missed
    obtain ⟨silent, bad⟩ := not_or.1 missed
    refine silent (reports ?_)
    -- the creator or the deleter of an overlooked version is an outside writer
    simp only [all_eq_true, not_eq_true', not_forall, not_eq_false] at bad
    obtain ⟨v, mem, overlooks⟩ := bad
    simp only [overlooked, statusChecker, Snapshot.contains, of.xmax, or_eq_true,
      and_eq_true, bne_iff_ne, ne_eq, contains_eq_mem, decide_eq_true_eq] at overlooks
    have late {u : Nat} (out : u ∈ (s.mgr.getSnapshot txn).active ∨ id + 1 ≤ u) : ¬ CommittedBefore s.hist u id := by
      intro before
      obtain ⟨lt, inactive⟩ := of.seen u (.inr before)
      rcases out with mem | le
      · exact inactive mem
      · omega
    rcases overlooks with ⟨⟨other, committed⟩, le⟩ | ⟨⟨live, other⟩, running | ⟨committed, out⟩⟩
    · exact ⟨v.xmin, other, (inv.marks.created row v mem).resolve_left (by omega), .inr committed, late (.inr le)⟩
    · refine ⟨v.xmax, other, (inv.marks.deleted row v mem).resolve_left live, .inl running, fun before => ?_⟩
      exact (inv.txns.running v.xmax running).2.2.1 (inv.txns.committed_of_sees (.inr before)).1
    · exact ⟨v.xmax, other, (inv.marks.deleted row v mem).resolve_left live, .inr committed, late out⟩

/-- When no write passes over an overlooked conflict, no update is lost, and the condition is exact: nothing is
overlooked if and only if the write reports a conflict whenever an outside writer exists. -/
theorem lostUpdateFree_of_writeChecked {rows : List (RowRef × RowData)} {maxActive : Nat} {wal : Option Log}
    {s : MvccRun} (reached : Reach MvccRun.next WriteChecked (.start rows maxActive wal) s) :
    LostUpdateFree s.hist ∧ ∀ id row values op, s.mgr.Active id → (s.mgr.nothingOverlooked id row = true ↔
        (OutsideWriter s id row → ∃ other, (s.mgr.mvccWrite id row values op).1 = .err (.writeConflict other))) := by
  have inv := mvccInv_of_reach reached
  refine ⟨?_, fun id row values op active => nothingOverlooked_iff inv active row values op⟩
  intro t u row op op' ne wroteT wroteU commitT commitU
  have alive {t : Nat} (commit : .commit t ∈ s.hist) : t ∉ s.mgr.aborted :=
    inv.txns.disjoint t ((inv.txns.commits t).1 commit).1
  have order := inv.marks.ordered
  rcases precedes_total wroteT wroteU (by simp [ne]) with first | second
  · exact .inl (order t u row op true op' true ne (alive commitT) (alive commitU) first)
  · exact .inr (order u t row op' true op true ne.symm (alive commitU) (alive commitT) second)

/-- A server with one account row. -/
def accountRow : RowRef := ([97], [49])

@[inherit_doc accountRow]
def openAccount : MvccRun := .start [(accountRow, some [intVal 100])] 0 none

/-- Two updates one after the other meet the condition. -/
theorem lostUpdateFree_sequential : ∃ s, Reach MvccRun.next WriteChecked openAccount s ∧
      s.hist = [.begin 1, .write 1 accountRow .update true, .commit 1,
        .begin 2, .write 2 accountRow .update true, .commit 2] ∧ LostUpdateFree s.hist := by
  exact Reach.exists_and [.begin .repeatableRead, .write 1 accountRow (some [intVal 110]) .update, .commit 1,
      .begin .serializable, .write 2 accountRow (some [intVal 120]) .update, .commit 2]
    (by decide) fun s reached _ => (lostUpdateFree_of_writeChecked reached).1

/-- Transaction 2 begins after transaction 1, updates and commits; then transaction 1 updates the same row and commits
too. -/
theorem not_lostUpdateFree : ¬ ∀ rows maxActive wal s, Reach MvccRun.next (fun _ => SnapshotLevel)
      (.start rows maxActive wal) s → LostUpdateFree s.hist := by
  intro claim
  obtain ⟨s, reached, hist⟩ := Reach.exists_such MvccRun.next (fun _ => SnapshotLevel) openAccount
    [.begin .repeatableRead, .begin .repeatableRead, .write 2 accountRow (some [intVal 110]) .update, .commit 2,
      .write 1 accountRow (some [intVal 120]) .update, .commit 1]
    (fun s => s.hist = [.begin 1, .begin 2, .write 2 accountRow .update true, .commit 2,
      .write 1 accountRow .update true, .commit 1]) (by decide)
  have lost := claim _ _ _ _ reached 1 2 accountRow .update .update
  rw [hist] at lost
  exact absurd lost (by decide)

end TransactionManager.Txn
