import TransactionManager.Txn.LostUpdate

/-!
# The order of the versions of a row

In runs that meet the write condition and insert only where the inserter sees no row, a
chain is its row's history of writes: a later writer of a row has put its mark on every
version before its own. It follows that a transaction sees at most one version of a row,
and that it sees the last one its snapshot shows.
-/

namespace TransactionManager.Txn
open Lib Mvcc List VersionChain

/-- Some write of `t` on the row comes before some write of `u`. -/
def VersionOrder (h : List MvccEvent) (row : RowRef) (t u : Nat) : Prop :=
  ∃ op d op' d', Precedes h (.write t row op d) (.write u row op' d')

/-- `u` wrote the row after `t` did; every writer comes after the seed. -/
def Supersedes (h : List MvccEvent) (row : RowRef) (t u : Nat) : Prop :=
  Wrote h u row ∧ u ≠ t ∧ (t = 0 ∨ VersionOrder h row t u)

instance (h : List MvccEvent) (t : Nat) (row : RowRef) : Decidable (Wrote h t row) :=
  inferInstanceAs (Decidable (∃ _ _, _))

instance (h : List MvccEvent) (row : RowRef) (t u : Nat) : Decidable (VersionOrder h row t u) :=
  inferInstanceAs (Decidable (∃ _ _ _ _, _))

instance (h : List MvccEvent) (row : RowRef) (t u : Nat) : Decidable (Supersedes h row t u) :=
  inferInstanceAs (Decidable (_ ∧ _))

/-- An insert finds no row that it sees. -/
def Manager.insertsNew (m : Manager) (id : Nat) (row : RowRef) (op : UndoOpType) : Bool :=
  match m.txns.get id with
  | some txn => op != .insert || (m.findVisible txn row).isNone
  | none => true

/-- The two versions stand in the order of their creators' writes: `w` is newer. -/
def Newer (aborted : List Nat) (h : List MvccEvent) (row : RowRef) (w v : Version) : Prop :=
  w.xmin ∉ aborted → v.xmin ∉ aborted → v.xmin = w.xmin ∧ v.xmax = v.xmin ∧ v.xmin ≠ 0 ∨ Supersedes h row v.xmin w.xmin

/-- Chains are ordered, and later writers have marked the earlier versions. -/
structure ChainInv (m : Manager) (h : List MvccEvent) : Prop where
  order : ∀ row, (m.chain row).Pairwise (Newer m.aborted h row)
  superseded : ∀ row, ∀ v ∈ m.chain row, v.xmin ∉ m.aborted → ∀ u, u ∉ m.aborted → Supersedes h row v.xmin u →
      v.xmax ≠ 0 ∧ v.xmax ∉ m.aborted ∧ (v.xmax = u ∨ VersionOrder h row v.xmax u)

section
variable {m m' : Manager} {h : List MvccEvent} {id t u : Nat} {row : RowRef} {txn : Transaction}
  {v w : Version} {e : MvccEvent} {visible : Version → Bool} {c : VersionChain}

theorem VersionOrder.append : VersionOrder h row t u → VersionOrder (h ++ [e]) row t u
  | ⟨op, d, op', d', p⟩ => ⟨op, d, op', d', p.append⟩

theorem Supersedes.append : Supersedes h row t u → Supersedes (h ++ [e]) row t u
  | ⟨wrote, ne, order⟩ => ⟨wrote.append, ne, order.imp_right .append⟩

theorem versionOrder_append (o : VersionOrder (h ++ [e]) row t u) :
    VersionOrder h row t u ∨ ∃ op d, e = .write u row op d := by
  obtain ⟨op, d, op', d', p⟩ := o
  rcases precedes_append_singleton.1 p with old | ⟨-, eq⟩
  · exact .inl ⟨op, d, op', d', old⟩
  · exact .inr ⟨op', d', eq.symm⟩

theorem supersedes_append (s : Supersedes (h ++ [e]) row t u) :
    Supersedes h row t u ∨ ∃ op d, e = .write u row op d := by
  obtain ⟨wrote, ne, order⟩ := s
  rcases wrote_append wrote with old | new
  · rcases order with seed | order
    · exact .inl ⟨old, ne, .inl seed⟩
    · exact (versionOrder_append order).imp_left fun o => ⟨old, ne, .inr o⟩
  · exact .inr new

theorem VersionOrder.committedBefore (marks : MarkInv m h) (o : VersionOrder h row t u)
    (ne : t ≠ u) (alive : t ∉ m.aborted) (alive' : u ∉ m.aborted) : CommittedBefore h t u := by
  obtain ⟨op, d, op', d', p⟩ := o
  exact marks.ordered t u row op d op' d' ne alive alive' p

section
variable (inv : TxnInv m h)
include inv

/-- A running transaction is the last writer of the rows it wrote. -/
theorem not_supersedes_active (marks : MarkInv m h) (active : m.Active t)
    (alive : u ∉ m.aborted) : ¬ Supersedes h row t u := by
  rintro ⟨-, ne, order⟩
  obtain ⟨pos, -, open', alive'⟩ := inv.running t active
  have before := (order.resolve_left (by omega)).committedBefore marks ne.symm alive' alive
  exact open' (inv.committed_of_sees (.inr before)).1

/-- A transaction that sees the mark of the writer `u`, or is `u`, does not see a version
that `u` superseded. -/
theorem not_visible_of_superseded (marks : MarkInv m h) (chains : ChainInv m h)
    (found : m.txns.get t = some txn) (mem : v ∈ m.chain row) (alive : v.xmin ∉ m.aborted)
    (alive' : u ∉ m.aborted) (after : Supersedes h row v.xmin u) (seen : u = t ∨ CommittedBefore h u t) :
    isVisible v t (m.getSnapshot txn) m.statusChecker = false := by
  obtain ⟨live, gone, mark⟩ := chains.superseded row v mem alive u alive' after
  have hidden : v.xmax = t ∨ CommittedBefore h v.xmax t := by
    by_cases same : v.xmax = u
    · exact same ▸ seen
    · have before := (mark.resolve_left same).committedBefore marks same gone alive'
      rcases seen with rfl | seen
      · exact .inr before
      · exact .inr (inv.committedBefore_trans before seen)
  rw [Bool.eq_false_iff]
  intro visible
  rcases ((isVisible_iff inv found v).1 visible).2 with zero | ⟨other, notBefore⟩
  · exact live zero
  · exact hidden.elim other notBefore

theorem alive_of_visible (found : m.txns.get t = some txn)
    (visible : isVisible v t (m.getSnapshot txn) m.statusChecker = true) : v.xmin ∉ m.aborted := by
  rcases ((isVisible_iff inv found v).1 visible).1 with own | sees
  · exact own ▸ (inv.running t (active_of_get found)).2.2.2
  · exact (inv.committed_of_sees sees).2

/-- A version whose creator replaced it is seen by no one. -/
theorem not_visible_of_replaced (found : m.txns.get t = some txn) (self : v.xmax = v.xmin) (live : v.xmin ≠ 0) :
    isVisible v t (m.getSnapshot txn) m.statusChecker = false := by
  rw [Bool.eq_false_iff]
  intro visible
  obtain ⟨creator, deletion⟩ := (isVisible_iff inv found v).1 visible
  rw [self] at deletion
  obtain ⟨other, notBefore⟩ := deletion.resolve_left live
  exact creator.elim other fun sees => notBefore (sees.resolve_left live)

/-- A transaction sees at most one version of a row. -/
theorem visible_pairwise (marks : MarkInv m h) (chains : ChainInv m h)
    (found : m.txns.get t = some txn) (row : RowRef) :
    (m.chain row).Pairwise fun w v =>
      isVisible w t (m.getSnapshot txn) m.statusChecker = true →
        isVisible v t (m.getSnapshot txn) m.statusChecker = false := by
  refine (chains.order row).imp_of_mem ?_
  intro w v _ memV newer visible
  have aliveW := alive_of_visible inv found visible
  by_contra visibleV
  rw [Bool.not_eq_false] at visibleV
  have aliveV := alive_of_visible inv found visibleV
  rcases newer aliveW aliveV with ⟨-, self, live⟩ | after
  · rw [not_visible_of_replaced inv found self live] at visibleV
    cases visibleV
  · have seen : w.xmin = t ∨ CommittedBefore h w.xmin t := by
      refine ((isVisible_iff inv found w).1 visible).1.imp_right fun sees => ?_
      exact sees.resolve_left (inv.wrote_known after.1).1
    rw [not_visible_of_superseded inv marks chains found memV aliveV aliveW after seen] at visibleV
    cases visibleV

/-- A read finds the last version that the snapshot of the reader shows. -/
theorem not_committedBefore_of_visible (marks : MarkInv m h) (chains : ChainInv m h) (found : m.txns.get t = some txn)
    (mem : v ∈ m.chain row) (visible : isVisible v t (m.getSnapshot txn) m.statusChecker = true)
    (alive : u ∉ m.aborted) (after : Supersedes h row v.xmin u) : ¬ CommittedBefore h u t := by
  intro before
  rw [not_visible_of_superseded inv marks chains found mem (alive_of_visible inv found visible)
    alive after (.inr before)] at visible
  cases visible

end

/-- Put the writer's mark on a version it sees. -/
def markVisible (visible : Version → Bool) (id : Nat) (v : Version) : Version :=
  if visible v then { v with xmax := id } else v

@[simp] theorem xmin_markVisible (visible : Version → Bool) (id : Nat) (v : Version) :
    (markVisible visible id v).xmin = v.xmin := by
  unfold markVisible
  split <;> rfl

theorem map_markVisible_of_none (none : ∀ v ∈ c, visible v = false) : c.map (markVisible visible id) = c := by
  refine (map_congr_left fun v mem => ?_).trans (map_id c)
  simp [markVisible, none v mem]

/-- Where at most one version is visible, marking the first is marking them all. -/
theorem markFirst_eq_map (single : c.Pairwise fun w v => visible w = true → visible v = false) :
    markFirst visible id c = c.map (markVisible visible id) := by
  induction c with
  | nil => rfl
  | cons w older ih =>
    obtain ⟨head, tail⟩ := pairwise_cons.1 single
    rw [markFirst, map_cons, markVisible]
    split
    · rename_i seen
      rw [map_markVisible_of_none fun v mem => head v mem seen]
    · rw [ih tail]

/-- A write adds at most one version and marks the one it sees. -/
theorem Written.eq_append {c' : VersionChain} {op : UndoOpType} {completed : Bool}
    (w : Written visible id c op completed c') (single : c.Pairwise fun w v => visible w = true → visible v = false)
    (new : op = .insert → ∀ v ∈ c, visible v = false) :
    ∃ fresh, c' = fresh ++ c.map (markVisible visible id) ∧ (fresh = [] ∨
      ∃ v, fresh = [v] ∧ v.xmin = id ∧ v.xmax = 0) := by
  cases w with
  | insert v xmin xmax =>
    exact ⟨[v], by rw [map_markVisible_of_none (new rfl)]; rfl, .inr ⟨v, rfl, xmin, xmax⟩⟩
  | update v xmin xmax _ =>
    exact ⟨[v], by rw [markFirst_eq_map single]; rfl, .inr ⟨v, rfl, xmin, xmax⟩⟩
  | mark _ _ => exact ⟨[], markFirst_eq_map single, .inl rfl⟩

theorem Newer.append {aborted : List Nat} (newer : Newer aborted h row w v) : Newer aborted (h ++ [e]) row w v :=
  fun aliveW aliveV => (newer aliveW aliveV).imp_right .append

namespace ChainInv

theorem same (chains : ChainInv m h) (chain : m'.chain = m.chain) (aborted : m'.aborted = m.aborted) :
    ChainInv m' h := by
  refine ⟨?_, ?_⟩ <;> rw [chain, aborted]
  · exact chains.order
  · exact chains.superseded

theorem append (chains : ChainInv m h) (ne : ∀ t row op d, e ≠ .write t row op d) : ChainInv m (h ++ [e]) where
  order row := (chains.order row).imp fun newer => newer.append
  superseded row v mem alive u alive' after := by
    rcases supersedes_append after with old | ⟨op, d, eq⟩
    · obtain ⟨live, gone, mark⟩ := chains.superseded row v mem alive u alive' old
      exact ⟨live, gone, mark.imp_right .append⟩
    · exact (ne _ _ _ _ eq).elim

/-- A transaction that aborts has marked no version that a living one superseded. -/
theorem abort (chains : ChainInv m h) (inv : TxnInv m h) (marks : MarkInv m h)
    (active : m.Active id) (chain : m'.chain = m.chain) (aborted : m'.aborted = id :: m.aborted) :
    ChainInv m' h := by
  have alive {t : Nat} (h : t ∉ m'.aborted) : t ≠ id ∧ t ∉ m.aborted := by
    rw [aborted, mem_cons, not_or] at h
    exact h
  refine ⟨?_, ?_⟩ <;> rw [chain]
  · intro row
    exact (chains.order row).imp fun newer aliveW aliveV => newer (alive aliveW).2 (alive aliveV).2
  intro row v mem aliveV u aliveU after
  obtain ⟨live, gone, mark⟩ := chains.superseded row v mem (alive aliveV).2 u (alive aliveU).2 after
  refine ⟨live, ?_, mark⟩
  rw [aborted, mem_cons, not_or]
  refine ⟨fun self => ?_, gone⟩
  -- the aborting transaction would have committed before `u` began
  have ne : v.xmax ≠ u := fun eq => (alive aliveU).1 (eq.symm.trans self)
  have before := (mark.resolve_left ne).committedBefore marks ne gone (alive aliveU).2
  exact (inv.running id active).2.2.1 (self ▸ (inv.committed_of_sees (.inr before)).1)

theorem undo (chains : ChainInv m h) (gone : id ∈ m.aborted) (same : SameTxns m m')
    (others : ∀ row' ≠ row, m'.chain row' = m.chain row')
    (rewound : m'.chain row = removeByXMin (m.chain row) id ∨ m'.chain row = clearXMax (m.chain row) id) :
    ChainInv m' h := by
  refine ⟨?_, ?_⟩ <;> rw [same.aborted] <;> intro row' <;> by_cases at' : row' = row
  · subst at'
    rcases rewound with eq | eq <;> rw [eq]
    · exact (chains.order row').filter _
    refine List.Pairwise.map _ (fun w v newer aliveW aliveV => ?_) (chains.order row')
    have xmin (v : Version) : (if v.xmax = id then { v with xmax := 0 } else v).xmin = v.xmin := by
      split <;> rfl
    rw [xmin] at aliveW aliveV
    rw [xmin, xmin]
    refine (newer aliveW aliveV).imp_left fun replaced => ?_
    obtain ⟨eq, self, live⟩ := replaced
    refine ⟨eq, ?_, live⟩
    have notMine : v.xmax ≠ id := by
      rw [self]
      rintro rfl
      exact aliveV gone
    rw [if_neg notMine]
    exact self
  · rw [others row' at']
    exact chains.order row'
  · subst at'
    intro v mem alive u alive' after
    rcases rewound with eq | eq <;> rw [eq] at mem
    · exact chains.superseded row' v (mem_filter.1 mem).1 alive u alive' after
    obtain ⟨old, prior, rfl⟩ := mem_map.1 mem
    have kept := chains.superseded row' old prior
    by_cases mine : old.xmax = id
    · rw [if_pos mine] at alive after
      exact absurd (mine ▸ gone) (kept alive u alive' after).2.1
    · rw [if_neg mine] at alive after ⊢
      exact kept alive u alive' after
  · rw [others row' at']
    exact chains.superseded row'

/-- What a writer past its checks leaves of an older version: its own mark or one of a transaction that its snapshot
shows, unless the creator is itself or has aborted. -/
theorem marked_of_write (inv : TxnInv m h) (marks : MarkInv m h) (found : m.txns.get id = some txn)
    (passed : checkWriteConflictLocked id (m.getSnapshot txn) m.statusChecker (m.chain row) = none)
    (clean : m.nothingOverlooked id row = true) (mem : v ∈ m.chain row) (alive : v.xmin ∉ m.aborted)
    (hidden : isVisible v id (m.getSnapshot txn) m.statusChecker = false) :
    v.xmax ≠ 0 ∧ (v.xmax = id ∨ CommittedBefore h v.xmax id) := by
  have creator : v.xmin = id ∨ Sees h id v.xmin := by
    by_cases own : v.xmin = id
    · exact .inl own
    · by_cases seed : v.xmin = 0
      · exact .inr (.inl seed)
      · exact .inr (.inr (committedBefore_of_mark inv marks found passed clean mem (.inl rfl) seed own alive))
  by_contra unmarked
  rw [← Bool.not_eq_true, isVisible_iff inv found] at hidden
  refine hidden ⟨creator, ?_⟩
  by_cases live : v.xmax = 0
  · exact .inl live
  · exact .inr ⟨fun own => unmarked ⟨live, .inl own⟩, fun before => unmarked ⟨live, .inr before⟩⟩

theorem write (chains : ChainInv m h) (inv : TxnInv m h) (marks : MarkInv m h) (found : m.txns.get id = some txn)
    (passed : checkWriteConflictLocked id (m.getSnapshot txn) m.statusChecker (m.chain row) = none)
    (clean : m.nothingOverlooked id row = true) {op : UndoOpType} {completed : Bool}
    (new : m.insertsNew id row op = true) (same : SameTxns m m')
    (others : ∀ row' ≠ row, m'.chain row' = m.chain row')
    (written : Written (fun v => isVisible v id (m.getSnapshot txn) m.statusChecker) id
      (m.chain row) op completed (m'.chain row)) :
    ChainInv m' (h ++ [.write id row op completed]) := by
  have active := active_of_get found
  obtain ⟨pos, -, open', aliveId⟩ := inv.running id active
  have unseen : op = .insert → ∀ v ∈ m.chain row, isVisible v id (m.getSnapshot txn) m.statusChecker = false := by
    rintro rfl v mem
    have ids := (inv.txns id txn found).1
    simp only [Manager.insertsNew, found, bne_self_eq_false, Bool.false_or, Manager.findVisible,
      ids, Option.isNone_iff_eq_none, find?_eq_none] at new
    simpa using new v mem
  obtain ⟨fresh, chain, shape⟩ := written.eq_append (visible_pairwise inv marks chains found row) unseen
  have wroteBy {t : Nat} (w : Wrote h t row) : VersionOrder (h ++ [.write id row op completed]) row t id := by
    obtain ⟨op₁, d₁, mem⟩ := w
    exact ⟨op₁, d₁, op, completed, precedes_append_singleton.2 (.inr ⟨mem, rfl⟩)⟩
  -- what becomes of a version of the row
  have after (v : Version) (mem : v ∈ m.chain row) (alive : v.xmin ∉ m.aborted) :
      let v' := markVisible (fun v => isVisible v id (m.getSnapshot txn) m.statusChecker) id v
      v'.xmax ≠ 0 ∧ v'.xmax ∉ m.aborted ∧
        (v'.xmax = id ∨ VersionOrder (h ++ [.write id row op completed]) row v'.xmax id) := by
    intro v'
    by_cases visible : isVisible v id (m.getSnapshot txn) m.statusChecker = true
    · have : v'.xmax = id := by simp [v', markVisible, visible]
      rw [this]
      exact ⟨by omega, aliveId, .inl rfl⟩
    · rw [Bool.not_eq_true] at visible
      have : v' = v := by simp [v', markVisible, visible]
      rw [this]
      obtain ⟨live, mark⟩ := marked_of_write inv marks found passed clean mem alive visible
      refine ⟨live, ?_, mark.imp_right fun _ => wroteBy ((marks.deleted row v mem).resolve_left live)⟩
      exact mark.elim (fun own => own ▸ aliveId) fun before =>
        (inv.committed_of_sees (.inr before)).2
  refine ⟨?_, ?_⟩ <;> rw [same.aborted] <;> intro row' <;> by_cases at' : row' = row
  · subst at'
    have older : ((m.chain row').map (markVisible
        (fun v => isVisible v id (m.getSnapshot txn) m.statusChecker) id)).Pairwise
        (Newer m.aborted (h ++ [.write id row' op completed]) row') := by
      refine List.Pairwise.map _ (fun w v newer aliveW aliveV => ?_) (chains.order row')
      rw [xmin_markVisible] at aliveW aliveV
      rw [xmin_markVisible, xmin_markVisible]
      refine (newer aliveW aliveV).imp (fun replaced => ?_) .append
      obtain ⟨eq, self, live⟩ := replaced
      refine ⟨eq, ?_, live⟩
      rw [markVisible, not_visible_of_replaced inv found self live]
      exact self
    rw [chain]
    rcases shape with rfl | ⟨new, rfl, xmin, -⟩
    · exact older
    refine pairwise_cons.2 ⟨fun v' mem aliveW aliveV => ?_, older⟩
    obtain ⟨v, prior, rfl⟩ := mem_map.1 mem
    rw [xmin_markVisible] at aliveV ⊢
    by_cases own : v.xmin = id
    · -- the writer's own earlier version carries its mark
      left
      rw [own, xmin]
      refine ⟨rfl, ?_, by omega⟩
      by_cases visible : isVisible v id (m.getSnapshot txn) m.statusChecker = true
      · simp [markVisible, visible]
      rw [Bool.not_eq_true] at visible
      have kept : markVisible (fun v => isVisible v id (m.getSnapshot txn) m.statusChecker) id v
          = v := by simp [markVisible, visible]
      have live := (marked_of_write inv marks found passed clean prior aliveV visible).1
      rw [kept]
      exact ((marks.own row' v prior (own ▸ open')).resolve_left live).trans own
    · refine .inr ⟨⟨op, completed, ?_⟩, ?_, ?_⟩
      · simp [xmin]
      · rw [xmin]
        exact Ne.symm own
      · rw [xmin]
        exact (marks.created row' v prior).imp_right wroteBy
  · rw [others row' at']
    exact (chains.order row').imp fun newer => newer.append
  · subst at'
    intro v' mem alive u aliveU superseded
    rw [chain] at mem
    rcases mem_append.1 mem with isFresh | isOld
    · -- nobody has superseded the version just written
      rcases shape with rfl | ⟨new, rfl, xmin, -⟩
      · cases isFresh
      · rw [mem_singleton.1 isFresh, xmin] at superseded
        rcases supersedes_append superseded with old | ⟨op', d', eq⟩
        · exact absurd old (not_supersedes_active inv marks active aliveU)
        · cases eq
          exact absurd rfl superseded.2.1
    · obtain ⟨v, prior, rfl⟩ := mem_map.1 isOld
      rw [xmin_markVisible] at alive superseded
      obtain ⟨live, gone, mark⟩ := after v prior alive
      refine ⟨live, gone, ?_⟩
      rcases supersedes_append superseded with old | ⟨op', d', eq⟩
      · -- an earlier writer's mark is still there: the writer does not see such a version
        obtain ⟨liveV, goneV, markV⟩ := chains.superseded row' v prior alive u aliveU old
        have hidden : isVisible v id (m.getSnapshot txn) m.statusChecker = false := by
          rw [Bool.eq_false_iff]
          intro visible
          obtain ⟨other, notBefore⟩ := ((isVisible_iff inv found v).1 visible).2.resolve_left liveV
          exact notBefore (committedBefore_of_mark inv marks found passed clean prior (.inr rfl) liveV other goneV)
        rw [markVisible, hidden]
        exact markV.imp_right .append
      · cases eq
        exact mark
  · rw [others row' at']
    intro v mem alive u aliveU superseded
    rcases supersedes_append superseded with old | ⟨op', d', eq⟩
    · obtain ⟨live, gone, mark⟩ := chains.superseded row' v mem alive u aliveU old
      exact ⟨live, gone, mark.imp_right .append⟩
    · cases eq
      exact absurd rfl at'

end ChainInv

end

end TransactionManager.Txn
