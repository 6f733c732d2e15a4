import TransactionManager.Txn.Views

/-!
# Aborted data

`Abort` marks its transaction first and takes its versions and marks out of the chains afterwards.
In between only the abort record keeps them from being seen, and `PruneHistory` deletes abort
records below the oldest active ID without asking whether the undo is done. As long as it deletes
the records of transactions that no chain mentions any more, no read meets aborted data.
-/

namespace TransactionManager.Txn
open Lib TransactionManager.Types Mvcc List Option Wal VersionChain Manager

/-- A version in some chain was created or marked by the transaction. -/
def Manager.Mentions (m : Manager) (u : Nat) : Prop := ∃ row, ∃ v ∈ m.chain row, v.xmin = u ∨ v.xmax = u

/-- The transaction has aborted, whether or not the manager still knows. -/
def AbortedIn (h : List MvccEvent) (u : Nat) : Prop := .abort u ∈ h

namespace ViewRun

@[inherit_doc AbortedIn]
def Aborted (s : ViewRun) (u : Nat) : Prop := AbortedIn s.run.hist u

/-- With this snapshot the transaction sees no version of an aborted transaction, and no mark of one hides a version
from it. -/
def CleanFor (s : ViewRun) (t : Nat) (snap : Snapshot) : Prop := ∀ row, ∀ v ∈ s.run.mgr.chain row,
    (isVisible v t snap s.run.mgr.statusChecker = true → ¬ s.Aborted v.xmin) ∧
    (s.Aborted v.xmax → creatorVisible v t snap s.run.mgr.statusChecker = true →
      isVisible v t snap s.run.mgr.statusChecker = true)

/-- No read or scan returns a version of an aborted transaction or misses one because of its mark, whether the
snapshot is fresh or older. -/
structure AbortedUnseen (s : ViewRun) : Prop where
  read : ∀ t row v, (s.run.mgr.mvccRead t row).1 = .ok (some v) → ¬ s.Aborted v.xmin
  scan : ∀ t table filter rows, (s.run.mgr.mvccScan t table filter).1 = .ok rows → ∀ r ∈ rows, ¬ s.Aborted r.2.xmin
  now : ∀ t txn, s.run.mgr.txns.get t = some txn → s.CleanFor t (s.run.mgr.getSnapshot txn)
  earlier : ∀ x ∈ s.taken, s.run.mgr.Active x.taker → s.CleanFor x.taker x.snap

/-- `PruneHistory` deletes the abort records of transactions only that no chain mentions. -/
def ForgetsCleared (s : ViewRun) : ViewAction → Prop
  | .pruneHistory => ∀ u ∈ s.run.mgr.aborted, s.run.mgr.dropsAbort u = true →
      ∀ row ∈ s.run.mgr.mvccStore.keys, ∀ v ∈ s.run.mgr.chain row, v.xmin ≠ u ∧ v.xmax ≠ u
  | _ => True

end ViewRun

structure Traced (m : Manager) (A : Nat → Prop) : Prop extends Booked m (· ∈ m.committed) A where
  keyed : m.Keyed
  seed : ¬ A 0
  recorded : ∀ u, A u → u ∈ m.aborted ∨ ¬ m.Mentions u

section
variable {m m' : Manager} {A : Nat → Prop} {row : RowRef} {id : Nat}

/-- Nobody but a running transaction gets into the chains. -/
def KeepsChains (m m' : Manager) : Prop := ∀ u, m'.Mentions u → m.Mentions u ∨ u = 0 ∨ m.Active u

theorem keepsChains_of_eq (chain : m'.chain = m.chain) : KeepsChains m m' := by
  intro u mentions
  unfold Mentions at mentions ⊢
  rw [chain] at mentions
  exact .inl mentions

theorem keepsChains_of_row (others : ∀ row' ≠ row, m'.chain row' = m.chain row')
    (own : ∀ v' ∈ m'.chain row, ∀ u, v'.xmin = u ∨ v'.xmax = u →
      (∃ v ∈ m.chain row, v.xmin = u ∨ v.xmax = u) ∨ u = 0 ∨ m.Active u) : KeepsChains m m' := by
  rintro u ⟨row', v', mem, is⟩
  by_cases here : row' = row
  · subst here
    exact (own v' mem u is).imp_left fun found => ⟨row', found⟩
  · rw [others row' here] at mem
    exact .inl ⟨row', v', mem, is⟩

section
variable (inv : Traced m A)
include inv

theorem Traced.quiet (same : SameTxns m m') (chains : KeepsChains m m') : Traced m' A where
  toBooked := by
    rw [same.committed]
    exact inv.toBooked.same (fun t => (same.active t).1) same.nextID
  keyed := keyed_same inv.keyed same
  seed := inv.seed
  recorded u aborted := by
    rw [same.aborted]
    refine (inv.recorded u aborted).imp_right fun out mentions => ?_
    rcases chains u mentions with old | zero | active
    · exact out old
    · exact inv.seed (zero ▸ aborted)
    · exact (inv.running u active).2.2.2 aborted

theorem Traced.begin {txn : Transaction} (own : txn.id = m.nextID + 1)
    (txns : m'.txns = m.txns.set (m.nextID + 1) txn) (committed : m'.committed = m.committed)
    (aborted : m'.aborted = m.aborted) (nextID : m'.nextID = m.nextID + 1) (chain : m'.chain = m.chain) :
    Traced m' A where
  toBooked := by
    rw [committed]
    exact inv.toBooked.begin (fun t => (active_of_set txns).1) nextID
  keyed := keyed_set inv.keyed own txns
  seed := inv.seed
  recorded u mem := by
    unfold Mentions
    rw [aborted, chain]
    exact inv.recorded u mem

theorem Traced.commit (active : m.Active id) (txns : m'.txns = m.txns.delete id)
    (committed : m'.committed = id :: m.committed) (aborted : m'.aborted = m.aborted) (nextID : m'.nextID = m.nextID)
    (chain : m'.chain = m.chain) : Traced m' A where
  toBooked := by
    rw [committed]
    exact inv.toBooked.commit active (fun t => (active_of_delete txns).1) nextID fun t => mem_cons
  keyed := keyed_delete inv.keyed txns
  seed := inv.seed
  recorded u mem := by
    unfold Mentions
    rw [aborted, chain]
    exact inv.recorded u mem

theorem Traced.abort {A' : Nat → Prop} (more : ∀ u, A' u ↔ A u ∨ u = id) (active : m.Active id)
    (txns : m'.txns = m.txns.delete id) (committed : m'.committed = m.committed)
    (aborted : m'.aborted = id :: m.aborted) (nextID : m'.nextID = m.nextID) (chain : m'.chain = m.chain) :
    Traced m' A' where
  toBooked := by
    rw [committed]
    refine (inv.toBooked.symm.commit active (fun t => (active_of_delete txns).1) nextID fun u => ?_).symm
    rw [more, or_comm]
  keyed := keyed_delete inv.keyed txns
  seed := by
    rw [more, not_or]
    exact ⟨inv.seed, (inv.running id active).1.ne⟩
  recorded u mem := by
    rw [more] at mem
    unfold Mentions
    rw [aborted, chain, mem_cons]
    rcases mem with old | rfl
    · exact (inv.recorded u old).imp_left .inr
    · exact .inl (.inl rfl)

/-- The abort records that go belong to transactions that no chain mentions. -/
theorem Traced.pruneHistory (cleared : ∀ u ∈ m.aborted, m.dropsAbort u = true → ¬ m.Mentions u) : Traced m.pruneHistory A where
  keyed := inv.keyed
  seed := inv.seed
  running t active := by
    obtain ⟨pos, le, open', unaborted⟩ := inv.running t active
    exact ⟨pos, le, fun mem => open' (mem_of_mem_filter mem), unaborted⟩
  disjoint u mem := inv.disjoint u (mem_of_mem_filter mem)
  ended u mem := inv.ended u (mem.imp_left mem_of_mem_filter)
  recorded u mem := by
    rcases inv.recorded u mem with known | out
    · cases drops : m.dropsAbort u with
      | true => exact .inr (cleared u known drops)
      | false => exact .inl (mem_filter.2 ⟨known, by rw [drops]; rfl⟩)
    · exact .inr out

end

/-- A write puts its own transaction into the chain of its row. -/
theorem keepsChains_write {visible : Version → Bool} {op : UndoOpType} {completed : Bool}
    (active : m.Active id) (others : ∀ row' ≠ row, m'.chain row' = m.chain row')
    (written : Written visible id (m.chain row) op completed (m'.chain row)) : KeepsChains m m' := by
  refine keepsChains_of_row others fun v' mem u is => ?_
  have marked (mem : v' ∈ markFirst visible id (m.chain row)) :
      (∃ v ∈ m.chain row, v.xmin = u ∨ v.xmax = u) ∨ u = 0 ∨ m.Active u := by
    rcases mem_markFirst mem with old | ⟨v, old, -, rfl⟩
    · exact .inl ⟨v', old, is⟩
    · rcases is with rfl | rfl
      · exact .inl ⟨v, old, .inl rfl⟩
      · exact .inr (.inr active)
  have created (v : Version) (creator : v.xmin = id) (live : v.xmax = 0) (is : v.xmin = u ∨ v.xmax = u) :
      u = 0 ∨ m.Active u := by
    rcases is with rfl | rfl
    · exact .inr (creator ▸ active)
    · exact .inl live
  generalize m'.chain row = c' at written mem
  cases written with
  | insert v creator live =>
    rcases mem_cons.1 mem with rfl | old
    · exact .inr (created v' creator live is)
    · exact .inl ⟨v', old, is⟩
  | update v creator live _ =>
    rcases mem_cons.1 mem with rfl | old
    · exact .inr (created v' creator live is)
    · exact marked old
  | mark => exact marked mem

theorem keepsChains_undo (others : ∀ row' ≠ row, m'.chain row' = m.chain row')
    (undone : m'.chain row = removeByXMin (m.chain row) id ∨ m'.chain row = clearXMax (m.chain row) id) :
    KeepsChains m m' := by
  refine keepsChains_of_row others fun v' mem u is => ?_
  rcases undone with eq | eq <;> rw [eq] at mem
  · exact .inl ⟨v', mem_of_mem_filter mem, is⟩
  obtain ⟨v, old, rfl⟩ := mem_map.1 mem
  split at is
  · rcases is with rfl | rfl
    · exact .inl ⟨v, old, .inl rfl⟩
    · exact .inr (.inl rfl)
  · exact .inl ⟨v, old, is⟩

/-- Whatever its snapshot, a running transaction does not see aborted data. -/
theorem Traced.clean (inv : Traced m A) {t : Nat} (active : m.Active t) (snap : Snapshot)
    {v : Version} (mem : v ∈ m.chain row) :
    (isVisible v t snap m.statusChecker = true → ¬ A v.xmin) ∧
      (A v.xmax → creatorVisible v t snap m.statusChecker = true → isVisible v t snap m.statusChecker = true) := by
  constructor
  · intro visible aborted
    have known := (inv.recorded _ aborted).resolve_right fun out => out ⟨row, v, mem, .inl rfl⟩
    have other : v.xmin ≠ t := by
      rintro rfl
      exact (inv.running _ active).2.2.2 aborted
    have open' : v.xmin ∉ m.committed := fun committed => inv.disjoint _ committed aborted
    rw [isVisible, Bool.and_eq_true] at visible
    simp [creatorVisible, statusChecker, other, known, open'] at visible
  · intro aborted creator
    have known := (inv.recorded _ aborted).resolve_right fun out => out ⟨row, v, mem, .inr rfl⟩
    have other : v.xmax ≠ t := by
      rintro eq
      exact (inv.running _ active).2.2.2 (eq ▸ aborted)
    rw [isVisible, creator, Bool.true_and]
    simp [deletionInvisible, statusChecker, other, known]

end

theorem abortedIn_append {h : List MvccEvent} {e : MvccEvent} (other : ∀ u, e ≠ .abort u) :
    AbortedIn (h ++ [e]) = AbortedIn h := by
  funext u
  have : ¬ .abort u = e := fun eq => other u eq.symm
  simp [AbortedIn, this]

theorem abortedIn_abort (h : List MvccEvent) (id u : Nat) :
    AbortedIn (h ++ [.abort id]) u ↔ AbortedIn h u ∨ u = id := by
  simp [AbortedIn]

theorem Traced.booked {m m' : Manager} {A : Nat → Prop} (inv : Traced m A) (step : BookStep m m')
    (chain : m'.chain = m.chain) (aborted : m'.aborted = m.aborted) : Traced m' A := by
  cases step with
  | same same => exact inv.quiet same (keepsChains_of_eq chain)
  | begin txn own txns committed _ nextID => exact inv.begin own txns committed aborted nextID chain
  | commit id active txns committed _ nextID => exact inv.commit active txns committed aborted nextID chain
  | abort id _ _ _ more _ =>
    rw [aborted] at more
    exact absurd more (by simp)

theorem Traced.mvcc {s s' : MvccRun} {a : MvccAction} (inv : Traced s.mgr (AbortedIn s.hist))
    (step : MvccStep s a s') : Traced s'.mgr (AbortedIn s'.hist) := by
  have books := step.books
  cases step with
  | idle same chain _ => exact inv.booked books chain same.aborted
  | begin _ _ aborted chain _ _ =>
    rw [abortedIn_append (by simp)]
    exact inv.booked books chain aborted
  | read _ same chain | scan _ same chain =>
    rw [abortedIn_append (by simp)]
    exact inv.booked books chain same.aborted
  | write found _ same others written =>
    rw [abortedIn_append (by simp)]
    exact inv.quiet same (keepsChains_write (active_of_get found) others written)
  | commit _ _ _ _ aborted _ chain =>
    rw [abortedIn_append (by simp)]
    exact inv.booked books chain aborted
  | abort active txns committed aborted nextID chain =>
    exact inv.abort (abortedIn_abort s.hist _) active txns committed aborted nextID chain
  | undo _ same others undone _ => exact inv.quiet same (keepsChains_undo others undone)

theorem begin_chain (m : Manager) (protocol : ConcurrencyProtocol) (isoLevel : IsolationLevel) :
    (m.begin protocol isoLevel).2.chain = m.chain ∧ (m.begin protocol isoLevel).2.aborted = m.aborted := by
  unfold begin
  split
  · exact ⟨rfl, rfl⟩
  · exact ⟨{ m with nextID := m.nextID + 1 }.chain_logAppend (beginRecord (m.nextID + 1)),
      ({ m with nextID := m.nextID + 1 }.sameLists_logAppend (beginRecord (m.nextID + 1))).aborted⟩

theorem commitStatus_chain {m : Manager} {id : Nat} {txn : Transaction} (found : m.txns.get id = some txn)
    (protocol : txn.protocol = .twoPL) :
    (m.commitStatus id).chain = m.chain ∧ (m.commitStatus id).aborted = m.aborted := by
  unfold commitStatus
  rw [found]
  dsimp only
  rw [protocol]
  exact ⟨m.chain_logAppend (commitRecord id txn.lastWALLSN),
    (m.sameLists_logAppend (commitRecord id txn.lastWALLSN)).aborted⟩

namespace ViewRun
variable {s s' : ViewRun}

def TracedRun (s : ViewRun) : Prop := Traced s.run.mgr (AbortedIn s.run.hist)

theorem TracedRun.start (rows : List (RowRef × RowData)) (maxActive : Nat) (wal : Option Log) :
    TracedRun (.start rows maxActive wal) := by
  refine ⟨⟨?_, ?_, ?_⟩, ?_, ?_, ?_⟩
  · intro t active
    cases active
  · intro u _ mem
    cases mem
  · rintro u (mem | mem)
    · exact (mem_singleton.1 mem).le
    · cases mem
  · intro t txn found
    cases found
  · intro mem
    cases mem
  · intro u mem
    cases mem

theorem TracedRun.next (inv : s.TracedRun) {a : ViewAction} (ok : s.ForgetsCleared a)
    (taken : s.next a = some s') : s'.TracedRun := by
  cases a with
  | mvcc a =>
    dsimp only [ViewRun.next] at taken
    split at taken
    · obtain ⟨run, step, rfl⟩ := map_eq_some_iff.1 taken
      exact Traced.mvcc inv (MvccRun.next_cases inv.keyed step)
    · cases taken
  | beginTwoPL isoLevel =>
    have step := begin_books s.run.mgr .twoPL isoLevel
    have chain := begin_chain s.run.mgr .twoPL isoLevel
    dsimp only [ViewRun.next] at taken
    split at taken <;> rename_i eq <;> rw [eq] at step chain <;> cases taken
    · show Traced _ (AbortedIn (s.run.hist ++ [_]))
      rw [abortedIn_append (by simp)]
      exact Traced.booked inv step chain.1 chain.2
    · show Traced _ (AbortedIn (s.run.hist ++ []))
      rw [append_nil]
      exact Traced.booked inv step chain.1 chain.2
  | commitTwoPL id =>
    dsimp only [ViewRun.next] at taken
    split at taken
    · rename_i found
      cases taken
      have chain := commitStatus_chain found rfl
      show Traced _ (AbortedIn (s.run.hist ++ [_]))
      rw [abortedIn_append (by simp)]
      exact Traced.booked inv (commitStatus_books id).1 chain.1 chain.2
    · cases taken
  | abortTwoPL id =>
    dsimp only [ViewRun.next] at taken
    split at taken
    · rename_i found
      cases taken
      exact Traced.abort inv (abortedIn_abort _ id) (active_of_get found) rfl rfl rfl rfl rfl
    · cases taken
  | pruneHistory =>
    cases taken
    show Traced s.run.mgr.pruneHistory (AbortedIn (s.run.hist ++ []))
    rw [append_nil]
    refine Traced.pruneHistory inv fun u known drops => ?_
    rintro ⟨row, v, mem, is⟩
    have clear := ok u known drops row (mem_keys_of_mem_chain mem) v mem
    rcases is with is | is
    · exact clear.1 is
    · exact clear.2 is

/-- In every run in which `PruneHistory` forgets only transactions that no chain mentions, no read meets
aborted data. -/
theorem abortedUnseen_of_forgetsCleared (rows : List (RowRef × RowData)) (maxActive : Nat) (wal : Option Log)
    (s : ViewRun) (reached : Reach ViewRun.next ForgetsCleared (.start rows maxActive wal) s) : s.AbortedUnseen := by
  have inv : s.TracedRun := reached.invariant (.start rows maxActive wal) fun _ _ _ inv ok taken => inv.next ok taken
  have visible {t : Nat} {txn : Transaction} {row : RowRef} {v : Version}
      (found : s.run.mgr.txns.get t = some txn) (hit : s.run.mgr.findVisible txn row = some v) :
      ¬ s.Aborted v.xmin := by
    have seen := find?_some hit
    rw [inv.keyed t txn found] at seen
    exact (Traced.clean inv (active_of_get found) _ (mem_of_find?_eq_some hit)).1 seen
  refine ⟨fun t row v returned => ?_, fun t table filter rows returned r mem => ?_, fun t txn found => ?_, ?_⟩
  · unfold mvccRead at returned
    split at returned
    · cases returned
    rename_i txn found
    split at returned
    · cases returned
    · rename_i hit
      cases returned
      exact visible found hit
  · unfold mvccScan at returned
    split at returned
    · cases returned
    · rename_i txn found
      cases returned
      obtain ⟨row, -, eq⟩ := mem_filterMap.1 (mem_of_mem_filter mem)
      obtain ⟨v, hit, rfl⟩ := map_eq_some_iff.1 eq
      exact visible found hit
  · exact fun row v mem => Traced.clean inv (active_of_get found) _ mem
  · exact fun x _ active row v mem => Traced.clean inv active _ mem

instance (s : ViewRun) (a : ViewAction) : Decidable (s.ForgetsCleared a) := by
  unfold ForgetsCleared
  split <;> infer_instance

def updatedAndAborted : List ViewAction :=
  [.mvcc (.begin .repeatableRead), .mvcc (.write 1 ([97], [49]) (some [intVal 2]) .update), .mvcc (.abort 1)]

/-- Its undo is done when its record is deleted. -/
theorem abortedUnseen_undone : ∃ s : ViewRun, Reach ViewRun.next ForgetsCleared (.start oneSeed 0 none) s ∧
    (s.run.mgr.aborted, s.run.hist.contains (.abort 1)) = ([], true) ∧ s.AbortedUnseen := by
  exact Reach.exists_and
    (updatedAndAborted ++ [.mvcc (.undo 1), .mvcc (.undo 1), .mvcc (.undo 1), .mvcc (.begin .repeatableRead),
      .pruneHistory])
    (by decide) fun s reached _ => abortedUnseen_of_forgetsCleared oneSeed 0 none s reached

/-- Its record is deleted before its undo, and a transaction that has begun since reads its version. -/
theorem not_abortedUnseen : ¬ ∀ (rows : List (RowRef × RowData)) (maxActive : Nat) (wal : Option Log)
    (s : ViewRun), Reach ViewRun.next AnyStep (.start rows maxActive wal) s → s.AbortedUnseen := by
  intro claim
  obtain ⟨s, reached, returned, aborted⟩ := Reach.exists_such ViewRun.next AnyStep (.start oneSeed 0 none)
    (updatedAndAborted ++ [.mvcc (.begin .repeatableRead), .pruneHistory])
    (fun s => (s.run.mgr.mvccRead 2 ([97], [49])).1.toOption = some (some { xmin := 1, data := some [intVal 2] }) ∧
      s.run.hist.contains (.abort 1) = true) (by decide)
  have read : (s.run.mgr.mvccRead 2 ([97], [49])).1 = .ok (some { xmin := 1, data := some [intVal 2] }) := by
    revert returned
    cases (s.run.mgr.mvccRead 2 ([97], [49])).1 with
    | error => exact nofun
    | ok =>
      intro returned
      exact congrArg Except.ok (some.inj returned)
  exact (claim oneSeed 0 none s reached).read 2 _ _ read (contains_iff_mem.1 aborted)

end ViewRun

end TransactionManager.Txn
