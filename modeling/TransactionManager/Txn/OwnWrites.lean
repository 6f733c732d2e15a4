import TransactionManager.Txn.SingleVersion
import TransactionManager.Txn.SnapshotStable

/-!
# Own writes

An update leaves its transaction's version at the head of the chain, and while the transaction runs
nobody else passes the conflict check of that row. A delete leaves only a mark, which another writer
can replace.
-/

namespace TransactionManager.Txn
open Lib TransactionManager.Types Mvcc List VersionChain Manager MvccRun

structure Updated (t : Nat) (row : RowRef) (values : RowData) (s : MvccRun) : Prop where
  run : RunInv s
  known : t ≤ s.mgr.nextID
  head : s.mgr.Active t → ∃ v older, s.mgr.chain row = v :: older ∧ v.xmin = t ∧ v.xmax = 0 ∧ v.data = values

namespace Updated
variable {t : Nat} {row : RowRef} {values : RowData} {s s' : MvccRun} {a : MvccAction}

/-- The others are kept out by the conflict check, and an undo takes only what its transaction left. -/
theorem next (held : Updated t row values s) (ok : NotWrittenBy t (· = row) a) (taken : s.next a = some s') :
    Updated t row values s' := by
  obtain ⟨run, known, head⟩ := held
  have step := next_cases run.books.keyed taken
  refine ⟨run.next taken, known.trans step.nextID, fun active' => ?_⟩
  have active := (step.active active').resolve_right (by omega)
  obtain ⟨v, older, chain, creator, fresh, data⟩ := head active
  suffices kept : ∃ older', s'.mgr.chain row = v :: older' by
    obtain ⟨older', chain'⟩ := kept
    exact ⟨v, older', chain', creator, fresh, data⟩
  cases step with
  | idle _ same | begin _ _ _ same | read _ _ same | scan _ _ same | commit _ _ _ _ _ _ same
  | abort _ _ _ _ _ same =>
    exact ⟨older, by rw [same, chain]⟩
  | @write u row' values op writer completed m' running passed _ others =>
    by_cases here : row' = row
    · have other : v.xmin ≠ u := fun eq => ok here (eq.symm.trans creator)
      rw [here, chain, checkWriteConflictLocked_eq_none] at passed
      have idle := (passed v mem_cons_self other).1
      rw [creator] at idle
      exact absurd (active.symm.trans idle) (by decide)
    · exact ⟨older, by rw [others row (Ne.symm here), chain]⟩
  | @undo u row' _ _ pending _ others rewound =>
    by_cases here : row' = row
    · have other : v.xmin ≠ u := by
        rintro rfl
        exact (run.books.running _ active).2.2.2 (creator ▸ run.undoing _ pending)
      rw [here, chain] at rewound
      rcases rewound with removed | cleared
      · exact ⟨removeByXMin older u, by simp [removed, removeByXMin, other]⟩
      · have same : (if v.xmax = u then { v with xmax := 0 } else v) = v := by rw [← fresh, ite_self]
        exact ⟨clearXMax older u, by rw [cleared, clearXMax, map_cons, same]; rfl⟩
    · exact ⟨older, by rw [others row (Ne.symm here), chain]⟩

theorem of_write (run : RunInv s) (done : (s.mgr.mvccWrite t row values .update).1 = .ok)
    (taken : s.next (.write t row values .update) = some s') : Updated t row values s' := by
  cases found : s.mgr.txns.get t with
  | none => simp [mvccWrite, found] at done
  | some txn =>
    have known := (run.books.running t (active_of_get found)).2.1
    have step := next_cases run.books.keyed taken
    refine ⟨run.next taken, known.trans step.nextID, fun _ => ?_⟩
    have shape := mvccWrite_shape row values .update found
    cases taken
    generalize s.mgr.mvccWrite t row values .update = r at done shape
    cases shape with
    | refused failed => exact absurd done failed
    | panicked => cases done
    | done => exact ⟨_, _, by rw [chain_recordWrite, chain_setChain, if_pos rfl]; rfl, rfl, rfl, rfl⟩

theorem readRow (held : Updated t row values s) (active : s.mgr.Active t) :
    s.mgr.readRow t row = .ok (some values) := by
  obtain ⟨txn, found⟩ := Option.isSome_iff_exists.1 active
  obtain ⟨v, older, chain, creator, fresh, data⟩ := held.head active
  have own := (held.run.books.txns t txn found).1
  have visible : isVisible v t (s.mgr.getSnapshot txn) s.mgr.statusChecker = true := by
    simp [isVisible, creatorVisible, deletionInvisible, creator, fresh]
  rw [readRow_of_found found, seenData, findVisible, own, chain]
  simp [visible, data]

end Updated

/-- A running transaction reads the value of its last update of a row, and does not find a row that it has deleted
when no write overlooks a conflict. -/
theorem ownWrites_stable {rows : List (RowRef × RowData)} {maxActive : Nat} {wal : Option Wal.Log} {s : MvccRun} :
    (∀ t row values s₁ s₂, Reach MvccRun.next AnyStep (.start rows maxActive wal) s →
      (s.mgr.mvccWrite t row values .update).1 = .ok → s.next (.write t row values .update) = some s₁ →
      Reach MvccRun.next (fun _ => NotWrittenBy t (· = row)) s₁ s₂ → s₂.mgr.Active t →
      s₂.mgr.readRow t row = .ok (some values)) ∧
    (Reach MvccRun.next WritesNext (.start rows maxActive wal) s → s.DeletesHidden) := by
  constructor
  · intro t row values s₁ s₂ reached done taken later active
    have start : Updated t row values s₁ := .of_write (RunInv.reach reached) done taken
    exact (later.invariant start fun _ _ _ held ok taken => held.next ok taken).readRow active
  · intro reached
    exact (ViewInv.reach reached).deletesHidden (RunInv.reach (reached.weaken fun _ _ _ => trivial))

/-- Another transaction tries the row while the update stands, and begins after the delete. -/
theorem ownWrites_stable_account : (∃ s s₁ s₂, MvccRun.next s (.write 1 accountRow (some [intVal 50]) .update) = some s₁ ∧
      Reach MvccRun.next (fun _ => NotWrittenBy 1 (· = accountRow)) s₁ s₂ ∧
      s₂.mgr.readRow 1 accountRow = .ok (some (some [intVal 50]))) ∧
    ∃ s, Reach MvccRun.next WritesNext openAccount s ∧
      (s.mgr.Active 1 ∧ DeletedLast s.hist 1 accountRow) ∧ s.DeletesHidden := by
  constructor
  · obtain ⟨s, reached, s₁, taken, s₂, later, done, active⟩ := Reach.exists_such MvccRun.next AnyStep openAccount
      [.begin .readCommitted, .begin .readCommitted]
      (fun s => ∃ s₁ ∈ s.next (.write 1 accountRow (some [intVal 50]) .update),
        ∃ s₂ ∈ runActions (guarded MvccRun.next fun _ => NotWrittenBy 1 (· = accountRow)) s₁
          [.write 2 accountRow none .delete, .commit 2],
        (s.mgr.mvccWrite 1 accountRow (some [intVal 50]) .update).1 = .ok ∧ (s₂.mgr.txns.get 1).isSome) (by decide)
    have others := Reach.of_actions later .refl
    exact ⟨s, s₁, s₂, taken, others, ownWrites_stable.1 1 _ _ s₁ s₂ reached done taken others active⟩
  · exact Reach.exists_and [.begin .repeatableRead, .write 1 accountRow none .delete, .begin .repeatableRead]
      (by unfold Active DeletedLast; decide) fun s reached _ => ownWrites_stable.2 reached

/-- The delete of transaction 1 and then the update of transaction 2 mark the same version, and
transaction 1 finds the row again. -/
theorem not_ownWrites_stable : ∃ s s', Reach MvccRun.next AnyStep openAccount s ∧
    Reach MvccRun.next (fun _ => NotWrittenBy 1 (· = accountRow)) s s' ∧
    s.hist = [.begin 1, .begin 2, .write 1 accountRow .delete true] ∧ (s'.mgr.txns.get 1).isSome ∧
    (s'.mgr.readRow 1 accountRow).toOption = some (some (some [intVal 100])) := by
  exact Reach.exists_of_segments MvccRun.next AnyStep _ openAccount
    [.begin .repeatableRead, .begin .repeatableRead, .write 1 accountRow none .delete]
    [.write 2 accountRow (some [intVal 50]) .update] _ (by decide)

end TransactionManager.Txn
