import TransactionManager.Txn.VersionOrder

/-!
# At most one visible version

A running transaction has a view: itself and the transactions its snapshot shows, or all
the committed ones at read-committed. `IsVisible` looks at the two marks of a version in
that view. When no write passes over an overlooked conflict and no insert sees a row, the
versions below one of the view are all deleted in it, so no view has two visible versions
of a row, and a row that its transaction deleted is gone for it.
-/

namespace TransactionManager.Txn
open Lib TransactionManager.Types Mvcc List GoMap Option VersionChain Manager MvccRun Reach List.Pairwise MvccEvent

/-- The transactions whose marks the running transaction `t` takes into account. -/
def Shown (m : Manager) (h : List MvccEvent) (t : Nat) (txn : Transaction) (u : Nat) : Prop :=
  u = t ∨ if txn.isolation = .readCommitted then u ∈ m.committed else Sees h t u

def MvccEvent.changes (t : Nat) (row : RowRef) : MvccEvent → Bool
  | .write u row' _ _ => u == t && row' == row
  | _ => false

/-- The last change of `t` to the row is a delete that succeeded. -/
def DeletedLast (h : List MvccEvent) (t : Nat) (row : RowRef) : Prop :=
  (h.filter (·.changes t row)).getLast? = some (.write t row .delete true)

/-- No running transaction sees two versions of a row. -/
def MvccRun.SingleVisible (s : MvccRun) : Prop := ∀ t txn row, s.mgr.txns.get t = some txn →
    ((s.mgr.chain row).filter fun v =>
      isVisible v t (s.mgr.getSnapshot txn) s.mgr.statusChecker).length ≤ 1

/-- `MVCCRead` finds no row that the transaction itself has deleted. -/
def MvccRun.DeletesHidden (s : MvccRun) : Prop :=
  ∀ t row, s.mgr.Active t → DeletedLast s.hist t row → (s.mgr.mvccRead t row).1 = .ok none

/-- A write that passes the conflict check overlooks no conflict, and an insert that passes it sees no
row. -/
def WritesNext (s : MvccRun) : MvccAction → Prop
  | .write id row _ op => ∀ txn ∈ s.mgr.txns.get id,
      checkWriteConflictLocked id (s.mgr.getSnapshot txn) s.mgr.statusChecker (s.mgr.chain row) = none →
        (∀ v ∈ s.mgr.chain row, overlooked id (s.mgr.getSnapshot txn) s.mgr.statusChecker v = false) ∧
          (op = .insert → s.mgr.findVisible txn row = none)
  | _ => True

instance (s : MvccRun) (a : MvccAction) : Decidable (WritesNext s a) := by
  unfold WritesNext
  cases_type MvccAction <;> infer_instance

/-- The view takes the version for deleted. -/
def Deleted (V : Nat → Prop) (v : Version) : Prop := v.xmax ≠ 0 ∧ V v.xmax

/-- Of the versions that the view has, all but the newest are deleted in it. -/
def Single (V : Nat → Prop) (c : VersionChain) : Prop := c.Pairwise fun w v => V w.xmin → V v.xmin → Deleted V v

/-- One row in the view of a running transaction. A row with a mark of the transaction has no version of anyone
outside the view. -/
structure RowView (aborted : List Nat) (t : Nat) (V : Nat → Prop) (deleted : Prop) (c : VersionChain) : Prop where
  single : Single V c
  alone : (∃ w ∈ c, w.xmin = t ∨ w.xmax = t) → ∀ v ∈ c, V v.xmin ∨ v.xmin ∈ aborted
  gone : deleted → (∃ w ∈ c, w.xmax = t ∧ V w.xmin) ∧ ∀ v ∈ c, V v.xmin → Deleted V v

/-- The views of the running transactions, and the one of a transaction that would begin now. -/
structure ViewInv (m : Manager) (h : List MvccEvent) : Prop where
  known : ∀ row, ∀ v ∈ m.chain row, v.xmin ≤ m.nextID ∧ v.xmax ≤ m.nextID
  committed : ∀ row, Single (· ∈ m.committed) (m.chain row)
  running : ∀ t txn, m.txns.get t = some txn → ∀ row,
    RowView m.aborted t (Shown m h t txn) (DeletedLast h t row) (m.chain row)

section Shown
variable {m m' : Manager} {h : List MvccEvent} {t u : Nat} {txn txn' : Transaction} {e : MvccEvent} {row : RowRef}

theorem shown_self : Shown m h t txn t := .inl rfl

theorem Shown.committed (inv : BookInv m h) (shown : Shown m h t txn u) : u = t ∨ u ∈ m.committed := by
  refine shown.imp_right fun sees => ?_
  split at sees
  · exact sees
  · exact (inv.committed_of_sees sees).1

theorem Shown.alive (inv : BookInv m h) (found : m.txns.get t = some txn) (shown : Shown m h t txn u) :
    u ∉ m.aborted := by
  rcases shown.committed inv with rfl | committed
  · exact (inv.running u (active_of_get found)).2.2.2
  · exact inv.disjoint u committed

/-- A view has no running transaction but its own. -/
theorem Shown.eq_of_active (inv : BookInv m h) (shown : Shown m h t txn u) (active : m.Active u) : u = t :=
  (shown.committed inv).resolve_right (inv.running u active).2.2.1

theorem shown_append (ne : e ≠ .begin t) : Shown m (h ++ [e]) t txn = Shown m h t txn := by
  funext u
  unfold Shown Sees
  rw [BookInv.committedBefore_append ne]

theorem shown_congr (view : txn'.view = txn.view) (committed : m'.committed = m.committed) :
    Shown m' h t txn' = Shown m h t txn := by
  have level : txn'.isolation = txn.isolation := congrArg (·.2.1) view
  funext u
  unfold Shown
  rw [level, committed]

theorem deletedLast_append (other : e.changes t row = false) : DeletedLast (h ++ [e]) t row ↔ DeletedLast h t row := by
  simp [DeletedLast, filter_append, other]

theorem deletedLast_write {op : UndoOpType} {completed : Bool}
    (last : DeletedLast (h ++ [.write t row op completed]) t row) : op = .delete := by
  have own : (write t row op completed).changes t row = true := by simp [changes]
  rw [DeletedLast, filter_append, filter_singleton, own, cond_true, getLast?_concat] at last
  cases last
  rfl

/-- `IsVisible` in terms of the view, at every isolation level. -/
theorem isVisible_iff_shown (inv : BookInv m h) (found : m.txns.get t = some txn) (v : Version) :
    isVisible v t (m.getSnapshot txn) m.statusChecker = true ↔ Shown m h t txn v.xmin ∧ ¬ Deleted (Shown m h t txn) v :=
  (inv.shows found).isVisible_iff inv.toLedger v

end Shown

section Write
variable {id t : Nat} {v : Version} {c c' fresh : VersionChain} {V W : Nat → Prop} {visible : Version → Bool} {completed : Bool}

/-- The writer's mark deletes in its view every version it has. -/
theorem deleted_markVisible
    (iff : visible v = true ↔ V v.xmin ∧ ¬ Deleted V v) (live : id ≠ 0) (own : V id) (has : V v.xmin) :
    Deleted V (markVisible visible id v) := by
  unfold markVisible
  split
  · exact ⟨live, own⟩
  · rename_i hidden
    rw [iff, not_and, not_not] at hidden
    exact hidden has

/-- A version that is deleted in another view keeps its mark, when the writer's view has that mark or
it is void. -/
theorem markVisible_of_deleted (iff : visible v = true ↔ V v.xmin ∧ ¬ Deleted V v)
    (mark : v.xmax = 0 ∨ V v.xmax) (deleted : v.xmax ≠ 0) : markVisible visible id v = v := by
  unfold markVisible
  rw [if_neg]
  rw [iff]
  exact fun seen => seen.2 ⟨deleted, mark.resolve_left deleted⟩

theorem pairwise_visible (iff : ∀ v ∈ c, visible v = true ↔ V v.xmin ∧ ¬ Deleted V v) (single : Single V c) :
    c.Pairwise fun w v => visible w = true → visible v = false := by
  refine imp_of_mem ?_ single
  intro w v memW memV deleted seenW
  rw [← Bool.not_eq_true]
  intro seenV
  obtain ⟨has, alive⟩ := (iff v memV).1 seenV
  exact alive (deleted ((iff w memW).1 seenW).1 has)

/-- A write leaves the views alone that do not have the writer. -/
theorem Single.written (single : Single W c)
    (outside : ¬ W id) (kept : ∀ v ∈ c, Deleted W v → markVisible visible id v = v)
    (shape : fresh = [] ∨ ∃ v, fresh = [v] ∧ v.xmin = id ∧ v.xmax = 0) :
    Single W (fresh ++ c.map (markVisible visible id)) := by
  have older : Single W (c.map (markVisible visible id)) := by
    refine map _ ?_ (and_mem.1 single)
    rintro w v ⟨-, mem, deleted⟩ hasW hasV
    rw [xmin_markVisible] at hasW hasV
    rw [kept v mem (deleted hasW hasV)]
    exact deleted hasW hasV
  rcases shape with rfl | ⟨v, rfl, xmin, -⟩
  · exact older
  · refine cons ?_ older
    intro w _ has
    exact absurd (xmin ▸ has) outside

/-- In the view of the writer every older version is deleted. -/
theorem Single.writer (marked : ∀ v ∈ c, V v.xmin → Deleted V (markVisible visible id v))
    (shape : fresh = [] ∨ ∃ v, fresh = [v] ∧ v.xmin = id ∧ v.xmax = 0) :
    Single V (fresh ++ c.map (markVisible visible id)) := by
  have deleted : ∀ w ∈ c.map (markVisible visible id), V w.xmin → Deleted V w := by
    intro w mem has
    obtain ⟨v, old, rfl⟩ := mem_map.1 mem
    rw [xmin_markVisible] at has
    exact marked v old has
  have older : Single V (c.map (markVisible visible id)) :=
    pairwise_of_forall_mem_list fun _ _ v mem _ has => deleted v mem has
  rcases shape with rfl | ⟨v, rfl, -, -⟩
  · exact older
  · exact cons (fun w mem _ has => deleted w mem has) older

theorem Written.of_delete (written : Written visible id c .delete completed c') :
    (∃ v ∈ c, visible v = true) ∧ c' = markFirst visible id c := by
  cases written with
  | mark _ hit =>
    obtain ⟨v, hit⟩ := isSome_iff_exists.1 hit
    exact ⟨⟨v, mem_of_find?_eq_some hit, find?_some hit⟩, rfl⟩

/-- The row in the view of its writer. -/
theorem RowView.writer {op : UndoOpType} {aborted : List Nat} {deleted deleted' : Prop}
    (view : RowView aborted id V deleted c) (iff : ∀ v, visible v = true ↔ V v.xmin ∧ ¬ Deleted V v)
    (checked : ∀ v ∈ c, V v.xmin ∨ v.xmin ∈ aborted) (live : id ≠ 0) (own : V id)
    (unseen : op = .insert → ∀ v ∈ c, visible v = false) (written : Written visible id c op completed c')
    (last : deleted' → op = .delete) : RowView aborted id V deleted' c' := by
  have single := pairwise_visible (fun v _ => iff v) view.single
  obtain ⟨fresh, chain, shape⟩ := written.eq_append single unseen
  have marked (v : Version) (has : V v.xmin) := deleted_markVisible (iff v) live own has
  refine ⟨chain ▸ Single.writer (fun v _ => marked v) shape, fun _ v mem => ?_, fun gone => ?_⟩
  · rcases written.mem mem with ⟨xmin, -⟩ | old | ⟨old, prior, -, rfl⟩
    · exact .inl (xmin ▸ own)
    · exact checked v old
    · exact checked old prior
  · cases last gone
    obtain ⟨⟨v, mem, seen⟩, eq⟩ := written.of_delete
    rw [eq, markFirst_eq_map single]
    refine ⟨⟨_, mem_map_of_mem mem, ?_, ?_⟩, ?_⟩
    · rw [markVisible, if_pos seen]
    · rw [xmin_markVisible]
      exact ((iff v).1 seen).1
    · intro w mem has
      obtain ⟨v, -, rfl⟩ := mem_map.1 mem
      rw [xmin_markVisible] at has
      exact marked v has

/-- The row in the view of another transaction, which has no mark on it. -/
theorem RowView.written {op : UndoOpType} {aborted : List Nat} {deleted : Prop} (view : RowView aborted t W deleted c)
    (outside : ¬ W id) (nobody : ∀ v ∈ c, v.xmin ≠ t ∧ v.xmax ≠ t) (ne : t ≠ id) (live : t ≠ 0)
    (kept : ∀ v ∈ c, Deleted W v → markVisible visible id v = v) (written : Written visible id c op completed c')
    (chain : c' = fresh ++ c.map (markVisible visible id))
    (shape : fresh = [] ∨ ∃ v, fresh = [v] ∧ v.xmin = id ∧ v.xmax = 0) :
    RowView aborted t W deleted c' := by
  refine ⟨chain ▸ view.single.written outside kept shape, ?_, fun last => ?_⟩
  · rintro ⟨w, mem, mark⟩
    exfalso
    rcases written.mem mem with ⟨xmin, xmax⟩ | old | ⟨old, prior, -, rfl⟩
    · omega
    · have := nobody w old
      omega
    · have := nobody old prior
      simp only at mark
      omega
  · obtain ⟨⟨w, mem, xmax, -⟩, -⟩ := view.gone last
    exact absurd xmax (nobody w mem).2

end Write

section Ends
variable {t id : Nat} {V W : Nat → Prop} {c c' : VersionChain} {aborted aborted' : List Nat} {deleted : Prop}

/-- Rewinding a transaction outside the view changes nothing in it. -/
theorem Single.undo (single : Single W c) (outside : ¬ W id)
    (rewound : c' = removeByXMin c id ∨ c' = clearXMax c id) : Single W c' := by
  rcases rewound with rfl | rfl
  · exact filter _ single
  refine map _ (fun w v mark hasW hasV => ?_) single
  have xmin (v : Version) : (if v.xmax = id then { v with xmax := 0 } else v).xmin = v.xmin := by
    split <;> rfl
  rw [xmin] at hasW hasV
  have gone := mark hasW hasV
  have ne : v.xmax ≠ id := fun eq => outside (eq ▸ gone.2)
  rw [if_neg ne]
  exact gone

section
variable (view : RowView aborted t V deleted c)
include view

theorem RowView.undo (outside : ¬ V id) (own : V t) (live : t ≠ 0)
    (rewound : c' = removeByXMin c id ∨ c' = clearXMax c id) : RowView aborted t V deleted c' := by
  have ne : t ≠ id := fun eq => outside (eq ▸ own)
  refine ⟨view.single.undo outside rewound, ?_, fun last => ?_⟩
  · rintro ⟨w, mem, mark⟩ v memV
    rcases rewound with rfl | rfl
    · exact view.alone ⟨w, (mem_filter.1 mem).1, mark⟩ v (mem_filter.1 memV).1
    obtain ⟨w, old, rfl⟩ := mem_map.1 mem
    obtain ⟨v, oldV, rfl⟩ := mem_map.1 memV
    have marked : w.xmin = t ∨ w.xmax = t := by
      split at mark
      · exact mark.imp_right fun zero => absurd zero.symm live
      · exact mark
    have kept := view.alone ⟨w, old, marked⟩ v oldV
    split <;> exact kept
  · obtain ⟨⟨w, mem, xmax, has⟩, all⟩ := view.gone last
    rcases rewound with rfl | rfl
    · refine ⟨⟨w, mem_filter.2 ⟨mem, ?_⟩, xmax, has⟩, fun v mem => all v (mem_filter.1 mem).1⟩
      rw [bne_iff_ne]
      exact fun eq => outside (eq ▸ has)
    · refine ⟨⟨w, mem_map.2 ⟨w, mem, if_neg (xmax ▸ ne)⟩, xmax, has⟩, fun v memV hasV => ?_⟩
      obtain ⟨v, old, rfl⟩ := mem_map.1 memV
      by_cases mine : v.xmax = id
      · rw [if_pos mine] at hasV
        exact absurd (mine ▸ (all v old hasV).2) outside
      · rw [if_neg mine] at hasV ⊢
        exact all v old hasV

theorem RowView.mono (sub : ∀ u ∈ aborted, u ∈ aborted') : RowView aborted' t V deleted c :=
  ⟨view.single, fun mark v mem => (view.alone mark v mem).imp_right (sub _), view.gone⟩

/-- A view that takes in what has committed since. -/
theorem RowView.commit (all : Single W c) (sub : ∀ u, V u → u = t ∨ W u) (sound : ∀ u, u = t ∨ W u → u ∉ aborted) :
    RowView aborted t (fun u => u = t ∨ W u) deleted c := by
  have wider {v : Version} (gone : Deleted V v) : Deleted (fun u => u = t ∨ W u) v := ⟨gone.1, sub _ gone.2⟩
  have narrow (mark : ∃ w ∈ c, w.xmin = t ∨ w.xmax = t) {v : Version} (mem : v ∈ c)
      (has : v.xmin = t ∨ W v.xmin) : V v.xmin := (view.alone mark v mem).resolve_right (sound _ has)
  refine ⟨?_, fun mark v mem => (view.alone mark v mem).imp_left (sub _), fun last => ?_⟩
  · refine imp_of_mem ?_ (view.single.and all)
    rintro w v memW memV ⟨inV, inW⟩ hasW hasV
    by_cases mine : w.xmin = t ∨ v.xmin = t
    · have mark : ∃ w ∈ c, w.xmin = t ∨ w.xmax = t := by
        rcases mine with own | own
        · exact ⟨w, memW, .inl own⟩
        · exact ⟨v, memV, .inl own⟩
      exact wider (inV (narrow mark memW hasW) (narrow mark memV hasV))
    · rw [not_or] at mine
      obtain ⟨live, gone⟩ := inW (hasW.resolve_left mine.1) (hasV.resolve_left mine.2)
      exact ⟨live, .inr gone⟩
  · obtain ⟨⟨w, mem, xmax, has⟩, gone⟩ := view.gone last
    refine ⟨⟨w, mem, xmax, sub _ has⟩, fun v memV hasV => ?_⟩
    exact wider (gone v memV (narrow ⟨w, mem, .inr xmax⟩ memV hasV))

end

end Ends

namespace ViewInv
variable {m m' : Manager} {h : List MvccEvent} {id t : Nat} {txn : Transaction} {row : RowRef} {e : MvccEvent}

section
variable (views : ViewInv m h)
include views

theorem same (same : SameTxns m m') (chain : m'.chain = m.chain) : ViewInv m' h where
  known := by
    rw [chain, same.nextID]
    exact views.known
  committed := by
    rw [chain, same.committed]
    exact views.committed
  running t txn' found row := by
    obtain ⟨txn, found, view⟩ := same.txn found
    rw [chain, same.aborted, shown_congr view same.committed]
    exact views.running t txn found row

section
variable (inv : BookInv m h)
include inv

theorem append (begins : ∀ t ≤ m.nextID, e ≠ .begin t)
    (changes : ∀ t row, e.changes t row = false) : ViewInv m (h ++ [e]) where
  known := views.known
  committed := views.committed
  running t txn found row := by
    have le := (inv.running t (active_of_get found)).2.1
    rw [shown_append (begins t le), deletedLast_append (changes t row)]
    exact views.running t txn found row

omit views in
/-- No other running transaction has a mark on a row whose writer passed its checks. -/
theorem unmarked {v : Version} {u : Nat} (checked : (Shown m h id txn v.xmin ∨ v.xmin ∈ m.aborted) ∧
      (v.xmax = 0 ∨ Shown m h id txn v.xmax ∨ v.xmax ∈ m.aborted))
    (active : m.Active u) (ne : u ≠ id) : v.xmin ≠ u ∧ v.xmax ≠ u := by
  obtain ⟨pos, -, -, alive⟩ := inv.running u active
  constructor
  · rintro rfl
    rcases checked.1 with shown | gone
    · exact ne (shown.eq_of_active inv active)
    · exact alive gone
  · rintro rfl
    rcases checked.2 with zero | shown | gone
    · omega
    · exact ne (shown.eq_of_active inv active)
    · exact alive gone

/-- A write that meets the condition keeps the views. -/
theorem write (found : m.txns.get id = some txn)
    (passed : checkWriteConflictLocked id (m.getSnapshot txn) m.statusChecker (m.chain row) = none)
    (clean : ∀ v ∈ m.chain row, overlooked id (m.getSnapshot txn) m.statusChecker v = false)
    {op : UndoOpType} {completed : Bool} (new : op = .insert → m.findVisible txn row = none)
    (same : SameTxns m m') (others : ∀ row' ≠ row, m'.chain row' = m.chain row')
    (written : Written (fun v => isVisible v id (m.getSnapshot txn) m.statusChecker) id
      (m.chain row) op completed (m'.chain row)) :
    ViewInv m' (h ++ [.write id row op completed]) := by
  have active := active_of_get found
  obtain ⟨pos, le, open', alive⟩ := inv.running id active
  have checked (v : Version) (mem : v ∈ m.chain row) : (Shown m h id txn v.xmin ∨ v.xmin ∈ m.aborted) ∧
        (v.xmax = 0 ∨ Shown m h id txn v.xmax ∨ v.xmax ∈ m.aborted) :=
    inv.shown_of_checked found passed clean (views.known row v mem) mem
  have iff := isVisible_iff_shown inv found
  have unseen : op = .insert → ∀ v ∈ m.chain row, isVisible v id (m.getSnapshot txn) m.statusChecker = false := by
    intro insert v mem
    have none := new insert
    rw [findVisible, (inv.txns id txn found).1, find?_eq_none] at none
    exact Bool.not_eq_true _ ▸ none v mem
  obtain ⟨fresh, chain, shape⟩ := written.eq_append
    (pairwise_visible (fun v _ => iff v) (views.running id txn found row).single) unseen
  -- another view reads no mark that the writer replaces
  have kept {W : Nat → Prop} (sound : ∀ u, W u → u ∉ m.aborted) (v : Version) (mem : v ∈ m.chain row)
      (deleted : Deleted W v) :
      markVisible (fun v => isVisible v id (m.getSnapshot txn) m.statusChecker) id v = v := by
    refine markVisible_of_deleted (iff v) ?_ deleted.1
    exact (checked v mem).2.imp_right fun mark => mark.resolve_right (sound _ deleted.2)
  refine ⟨fun row' v mem => ?_, fun row' => ?_, fun t txn' found' row' => ?_⟩
  · rw [same.nextID]
    by_cases at' : row' = row
    · subst at'
      rcases written.mem mem with ⟨xmin, xmax⟩ | old | ⟨old, prior, -, rfl⟩
      · omega
      · exact views.known row' v old
      · exact ⟨(views.known row' old prior).1, le⟩
    · rw [others row' at'] at mem
      exact views.known row' v mem
  · rw [same.committed]
    by_cases at' : row' = row
    · subst at'
      rw [chain]
      exact (views.committed row').written open' (kept inv.disjoint) shape
    · rw [others row' at']
      exact views.committed row'
  · obtain ⟨old, found', view⟩ := same.txn found'
    rw [same.aborted, shown_append (by simp), shown_congr view same.committed]
    by_cases at' : row' = row
    · subst at'
      by_cases mine : t = id
      · subst mine
        cases found.symm.trans found'
        exact (views.running t txn found row').writer iff (fun v mem => (checked v mem).1)
          (Nat.ne_of_gt pos) shown_self unseen written deletedLast_write
      · rw [deletedLast_append (by simp [changes, Ne.symm mine])]
        have active' := active_of_get found'
        refine (views.running t old found' row').written ?_ ?_ mine ?_ ?_ written chain shape
        · exact fun shown => mine (shown.eq_of_active inv active).symm
        · exact fun v mem => unmarked inv (checked v mem) active' mine
        · exact Nat.ne_of_gt (inv.running t active').1
        · exact kept fun u shown => shown.alive inv found'
    · rw [others row' at', deletedLast_append (by simp [changes, Ne.symm at'])]
      exact views.running t old found' row'

omit views in
theorem sees_begin {u : Nat} : Sees (h ++ [.begin (m.nextID + 1)]) (m.nextID + 1) u ↔ u ∈ m.committed := by
  have new : ¬ Precedes h (.commit u) (.begin (m.nextID + 1)) := by
    intro before
    have := (inv.events _ before.mem_right).2
    simp only [txn] at this
    omega
  rw [Sees, CommittedBefore, precedes_append_singleton, inv.commits]
  constructor
  · rintro (rfl | before | ⟨⟨committed, -⟩, -⟩)
    · exact inv.seed
    · exact absurd before new
    · exact committed
  · intro committed
    by_cases seed : u = 0
    · exact .inl seed
    · exact .inr (.inr ⟨⟨committed, seed⟩, rfl⟩)

/-- A new transaction has the committed ones in its view and no mark anywhere. -/
theorem begin (nextID : m'.nextID = m.nextID + 1) (committed : m'.committed = m.committed)
    (aborted : m'.aborted = m.aborted) (chain : m'.chain = m.chain) (txns : m'.txns = m.txns.set (m.nextID + 1) txn) :
    ViewInv m' (h ++ [.begin (m.nextID + 1)]) := by
  have shown (u : Nat) (le : u ≤ m.nextID) :
      Shown m' (h ++ [.begin (m.nextID + 1)]) (m.nextID + 1) txn u ↔ u ∈ m.committed := by
    have other : u ≠ m.nextID + 1 := by omega
    simp [Shown, committed, sees_begin inv, other]
  refine ⟨fun row v mem => ?_, ?_, fun t txn' found' row => ?_⟩
  · rw [chain] at mem
    have := views.known row v mem
    omega
  · rw [chain, committed]
    exact views.committed
  · rw [chain, aborted]
    rw [txns, get_set] at found'
    split at found'
    · rename_i new
      cases found'
      subst new
      refine ⟨?_, ?_, fun last => ?_⟩
      · refine imp_of_mem ?_ (views.committed row)
        intro w v memW memV deleted hasW hasV
        rw [shown _ (views.known row w memW).1] at hasW
        rw [shown _ (views.known row v memV).1] at hasV
        obtain ⟨live, gone⟩ := deleted hasW hasV
        exact ⟨live, (shown _ (views.known row v memV).2).2 gone⟩
      · rintro ⟨w, mem, mark⟩
        have := views.known row w mem
        omega
      · rw [deletedLast_append rfl] at last
        have mem := (mem_filter.1 (mem_of_getLast? last)).1
        have := (inv.events _ mem).2
        simp only [MvccEvent.txn] at this
        omega
    · rw [shown_append (by simp; omega), shown_congr rfl committed, deletedLast_append rfl]
      exact views.running t txn' found' row

/-- What a committing transaction marked is deleted for all that see it from now on. -/
theorem commit (found : m.txns.get id = some txn)
    (txns : m'.txns = m.txns.delete id) (committed : m'.committed = id :: m.committed)
    (aborted : m'.aborted = m.aborted) (nextID : m'.nextID = m.nextID) (chain : m'.chain = m.chain) :
    ViewInv m' (h ++ [.commit id]) := by
  have active := active_of_get found
  have alive (u : Nat) (mem : u ∈ id :: m.committed) : u ∉ m.aborted := by
    rcases mem_cons.1 mem with rfl | mem
    · exact (inv.running u active).2.2.2
    · exact inv.disjoint u mem
  -- the view of the committing transaction and the committed one make the new committed one
  have all (row : RowRef) : Single (· ∈ id :: m.committed) (m.chain row) := by
    have joined := (views.running id txn found row).commit (views.committed row)
      (fun u shown => shown.committed inv) (fun u mem => alive u (mem_cons.2 mem))
    simpa only [mem_cons] using joined.single
  refine ⟨?_, ?_, fun t txn' found' row => ?_⟩
  · rw [chain, nextID]
    exact views.known
  · rw [chain, committed]
    exact all
  rw [chain, aborted, shown_append (by simp), deletedLast_append rfl]
  rw [txns, get_delete] at found'
  split at found'
  · cases found'
  have view := views.running t txn' found' row
  by_cases level : txn'.isolation = .readCommitted
  · have shown : Shown m' h t txn' = fun u => u = t ∨ u ∈ id :: m.committed := by
      funext u
      rw [Shown, if_pos level, committed]
    rw [shown]
    refine view.commit (all row) ?_ ?_
    · exact fun u has => (has.committed inv).imp_right (mem_cons_of_mem _)
    · rintro u (rfl | mem)
      · exact (inv.running u (active_of_get found')).2.2.2
      · exact alive u mem
  · have shown : Shown m' h t txn' = Shown m h t txn' := by
      funext u
      rw [Shown, Shown, if_neg level, if_neg level]
    rw [shown]
    exact view

end

theorem abort (txns : m'.txns = m.txns.delete id)
    (committed : m'.committed = m.committed) (aborted : m'.aborted = id :: m.aborted)
    (nextID : m'.nextID = m.nextID) (chain : m'.chain = m.chain) : ViewInv m' (h ++ [.abort id]) := by
  refine ⟨?_, ?_, fun t txn' found' row => ?_⟩
  · rw [chain, nextID]
    exact views.known
  · rw [chain, committed]
    exact views.committed
  · rw [chain, aborted, shown_append (by simp), deletedLast_append rfl, shown_congr rfl committed]
    rw [txns, get_delete] at found'
    split at found'
    · cases found'
    · exact (views.running t txn' found' row).mono fun _ => mem_cons_of_mem _

theorem undo (inv : BookInv m h) (gone : id ∈ m.aborted) (same : SameTxns m m')
    (others : ∀ row' ≠ row, m'.chain row' = m.chain row')
    (rewound : m'.chain row = removeByXMin (m.chain row) id ∨ m'.chain row = clearXMax (m.chain row) id) :
    ViewInv m' h := by
  refine ⟨fun row' v mem => ?_, fun row' => ?_, fun t txn' found' row' => ?_⟩
  · rw [same.nextID]
    by_cases at' : row' = row
    · subst at'
      rcases rewound with eq | eq <;> rw [eq] at mem
      · exact views.known row' v (mem_filter.1 mem).1
      · obtain ⟨v, old, rfl⟩ := mem_map.1 mem
        have := views.known row' v old
        split
        · exact ⟨this.1, Nat.zero_le _⟩
        · exact this
    · rw [others row' at'] at mem
      exact views.known row' v mem
  · rw [same.committed]
    by_cases at' : row' = row
    · subst at'
      exact (views.committed row').undo (fun mem => inv.disjoint id mem gone) rewound
    · rw [others row' at']
      exact views.committed row'
  · obtain ⟨txn, found, view⟩ := same.txn found'
    rw [same.aborted, shown_congr view same.committed]
    by_cases at' : row' = row
    · subst at'
      have live := (inv.running t (active_of_get found)).1
      exact (views.running t txn found row').undo (fun shown => shown.alive inv found gone) shown_self
        (Nat.ne_of_gt live) rewound
    · rw [others row' at']
      exact views.running t txn found row'

end

theorem start (rows : List (RowRef × RowData)) (maxActive : Nat) (wal : Option Wal.Log) :
    ViewInv (start rows maxActive wal).mgr [] := by
  refine ⟨fun row v mem => ?_, fun row => ?_, nofun⟩
  · obtain ⟨data, -, rfl⟩ := chain_start mem
    exact ⟨Nat.zero_le _, Nat.zero_le _⟩
  cases eq : (MvccRun.start rows maxActive wal).mgr.chain row with
  | nil => exact .nil
  | cons =>
    obtain ⟨data, single, -⟩ := chain_start (eq ▸ mem_cons_self)
    rw [single] at eq
    cases eq
    exact pairwise_singleton _ _

/-- One step that meets the condition keeps the views. -/
theorem next {s s' : MvccRun} {a : MvccAction} (views : ViewInv s.mgr s.hist) (inv : RunInv s)
    (ok : WritesNext s a) (taken : s.next a = some s') : ViewInv s'.mgr s'.hist := by
  obtain ⟨books, undoing⟩ := inv
  cases next_cases books.keyed taken with
  | idle same chain _ => exact views.same same chain
  | begin nextID committed aborted chain txns _ => exact views.begin books nextID committed aborted chain txns
  | read _ same chain | scan _ same chain => exact (views.append books (by simp) fun _ _ => rfl).same same chain
  | write found passed same others written =>
    obtain ⟨clean, new⟩ := ok _ found passed
    exact views.write books found passed clean new same others written
  | commit found _ txns committed aborted nextID chain =>
    exact views.commit books found txns committed aborted nextID chain
  | abort _ txns committed aborted nextID chain => exact views.abort txns committed aborted nextID chain
  | undo pending same others rewound _ => exact views.undo books (undoing _ pending) same others rewound

theorem reach {rows : List (RowRef × RowData)} {maxActive : Nat} {wal : Option Wal.Log} {s : MvccRun}
    (reached : Reach MvccRun.next WritesNext (.start rows maxActive wal) s) : ViewInv s.mgr s.hist := by
  induction reached with
  | refl => exact .start rows maxActive wal
  | step reached ok taken ih => exact ih.next (RunInv.reach (reached.weaken fun _ _ _ => trivial)) ok taken

theorem length_filter_le_one {p : Version → Bool} {c : VersionChain}
    (single : c.Pairwise fun w v => p w = true → p v = false) : (c.filter p).length ≤ 1 := by
  induction single with
  | nil => simp
  | @cons w older head _ ih =>
    by_cases hit : p w = true
    · have rest : older.filter p = [] := by simpa using fun v mem => head v mem hit
      simp [hit, rest]
    · simpa [hit] using ih

theorem singleVisible {s : MvccRun} (views : ViewInv s.mgr s.hist) (inv : RunInv s) : s.SingleVisible := by
  intro t txn row found
  refine length_filter_le_one (pairwise_visible (fun v _ => isVisible_iff_shown inv.books found v) ?_)
  exact (views.running t txn found row).single

theorem deletesHidden {s : MvccRun} (views : ViewInv s.mgr s.hist) (inv : RunInv s) : s.DeletesHidden := by
  intro t row active last
  obtain ⟨txn, found⟩ := isSome_iff_exists.1 active
  have none : s.mgr.findVisible txn row = none := by
    rw [findVisible, (inv.books.txns t txn found).1, find?_eq_none]
    intro v mem
    rw [isVisible_iff_shown inv.books found]
    rintro ⟨has, alive⟩
    exact alive (((views.running t txn found row).gone last).2 v mem has)
  rw [mvccRead, found]
  dsimp only
  rw [none]

end ViewInv

/-- When no write passes over an overlooked conflict and no insert sees a row, a running transaction sees at most one
version of a row, and none of a row it deleted. -/
theorem singleVisible_of_writesNext {rows : List (RowRef × RowData)} {maxActive : Nat} {wal : Option Wal.Log}
    {s : MvccRun} (reached : Reach MvccRun.next WritesNext (.start rows maxActive wal) s) :
    s.SingleVisible ∧ s.DeletesHidden := by
  have books := RunInv.reach (reached.weaken fun _ _ _ => trivial)
  have views := ViewInv.reach reached
  exact ⟨views.singleVisible books, views.deletesHidden books⟩

/-- A row is deleted and inserted again, and the next transaction deletes the new version while an
older one runs. -/
theorem singleVisible_deleted : ∃ s, Reach MvccRun.next WritesNext openAccount s ∧ s.mgr.Active 3 ∧
    DeletedLast s.hist 3 accountRow ∧ (s.mgr.chain accountRow).length = 2 ∧ s.SingleVisible ∧ s.DeletesHidden := by
  obtain ⟨s, reached, active, last, length⟩ := exists_such MvccRun.next WritesNext openAccount
    [.begin .readCommitted, .begin .repeatableRead, .write 1 accountRow none .delete,
      .write 1 accountRow (some [intVal 50]) .insert, .commit 1, .begin .serializable,
      .write 3 accountRow none .delete]
    (fun s => (s.mgr.txns.get 3).isSome ∧
      (s.hist.filter (·.changes 3 accountRow)).getLast? = some (.write 3 accountRow .delete true) ∧
      (s.mgr.chain accountRow).length = 2) (by decide)
  exact ⟨s, reached, active, last, length, singleVisible_of_writesNext reached⟩

/-- A row inserted a second time is seen twice, and after its delete the first one is back. -/
theorem not_singleVisible :
    (¬ ∀ rows maxActive wal s, Reach MvccRun.next AnyStep (.start rows maxActive wal) s → s.SingleVisible) ∧
      ¬ ∀ rows maxActive wal s, Reach MvccRun.next AnyStep (.start rows maxActive wal) s → s.DeletesHidden := by
  constructor
  · intro claim
    obtain ⟨s, reached, txn, found, two⟩ := exists_such MvccRun.next AnyStep openAccount
      [.begin .repeatableRead, .write 1 accountRow (some [intVal 50]) .insert]
      (fun s => ∃ txn ∈ s.mgr.txns.get 1, ((s.mgr.chain accountRow).filter fun v =>
        isVisible v 1 (s.mgr.getSnapshot txn) s.mgr.statusChecker).length = 2) (by decide)
    have one := claim _ _ _ s reached 1 txn accountRow found
    omega
  · intro claim
    obtain ⟨s, reached, active, last, read⟩ := exists_such MvccRun.next AnyStep openAccount
      [.begin .repeatableRead, .write 1 accountRow (some [intVal 50]) .insert, .write 1 accountRow none .delete]
      (fun s => (s.mgr.txns.get 1).isSome ∧
        (s.hist.filter (·.changes 1 accountRow)).getLast? = some (.write 1 accountRow .delete true) ∧
        (s.mgr.mvccRead 1 accountRow).1.toOption ≠ some none) (by decide)
    exact read (congrArg Except.toOption (claim _ _ _ s reached 1 accountRow active last))

end TransactionManager.Txn
