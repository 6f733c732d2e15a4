import TransactionManager.Txn.Ledger

/-!
# Snapshots and outcomes over a run

What the manager's maps, counters and snapshots mean in terms of the history: the
invariant `BookInv` of every run, `TxnInv` of every run above read-committed, and the
visibility test of `internal/mvcc/visibility.go` as a statement about the history
(`isVisible_iff`). The history maps are not pruned in these runs.
-/

namespace TransactionManager.Txn
open Lib TransactionManager.Types Mvcc List GoMap Wal Manager MvccRun
variable {rows : List (RowRef × RowData)} {s : MvccRun}

def MvccEvent.txn : MvccEvent → Nat
  | .begin t | .read t _ _ | .scan t _ _ | .write t _ _ _ | .commit t | .abort t => t

/-- Begin and commit events happen once; the others do not fix the order of snapshots. -/
def MvccEvent.IsBoundary : MvccEvent → Prop
  | .begin _ | .commit _ => True
  | _ => False

/-- `u` committed before the snapshot of `t` was taken. -/
def CommittedBefore (h : List MvccEvent) (u t : Nat) : Prop := Precedes h (.commit u) (.begin t)

instance (h : List MvccEvent) (u t : Nat) : Decidable (CommittedBefore h u t) :=
  inferInstanceAs (Decidable (Precedes h _ _))

/-- The snapshot of `t` shows what `u` wrote: `u` is the seed or committed before it. -/
def Sees (h : List MvccEvent) (t u : Nat) : Prop := u = 0 ∨ CommittedBefore h u t

/-- The snapshot of `t` shows the transactions of `V`: they have committed, and what else is below its bound
and not in its list has aborted. -/
structure Shows (m : Manager) (t : Nat) (snap : Snapshot) (V : Nat → Prop) : Prop where
  below : ∀ u < snap.xmin, u ∉ snap.active
  bound : snap.xmin ≤ snap.xmax
  seen : ∀ u, V u → u < snap.xmax ∧ u ∉ snap.active ∧ u ∈ m.committed
  rest : ∀ u < snap.xmax, u ∉ snap.active → u = t ∨ V u ∨ u ∈ m.aborted

section Shows
variable {m m' : Manager} {t : Nat} {snap : Snapshot} {V : Nat → Prop}

/-- The active set with a bound that only the taker is in between. -/
theorem Ledger.shows (inv : Ledger m) {xmax : Nat} (high : m.nextID < xmax) (own : ∀ u < xmax, m.nextID < u → u = t) :
    Shows m t ⟨m.txns.keys.min?.getD xmax, xmax, m.txns.keys⟩ (· ∈ m.committed) where
  below u low mem := by
    have : m.txns.keys.min?.getD xmax ≤ u := min?_getD_le_of_mem mem
    have low : u < m.txns.keys.min?.getD xmax := low
    omega
  bound := by
    cases least : m.txns.keys.min? with
    | none => exact le_rfl
    | some u =>
      have := inv.running u ((mem_keys m u).1 (min?_mem least))
      show u ≤ xmax
      omega
  seen u mem := by
    have := inv.ended u (.inl mem)
    refine ⟨show u < xmax by omega, fun active => ?_, mem⟩
    exact (inv.running u ((mem_keys m u).1 active)).2.2.1 mem
  rest u low out := by
    by_cases given : u ≤ m.nextID
    · by_cases pos : 0 < u
      · refine .inr ((inv.known u pos given).resolve_left fun active => ?_)
        exact out ((mem_keys m u).2 active)
      · rw [Nat.eq_zero_of_not_pos pos]
        exact .inr (.inl inv.seed)
    · exact .inl (own u low (by omega))

namespace Shows
variable (shows : Shows m t snap V)
include shows

theorem step (step : BookStep m m') : Shows m' t snap V where
  below := shows.below
  bound := shows.bound
  seen u mem := by
    obtain ⟨low, out, committed⟩ := shows.seen u mem
    exact ⟨low, out, step.ended.1 u committed⟩
  rest u low out := (shows.rest u low out).imp_right fun ended => ended.imp_right (step.ended.2 u)

theorem creatorVisible_iff (inv : Ledger m) (v : Version) :
    creatorVisible v t snap m.statusChecker = true ↔ v.xmin = t ∨ V v.xmin := by
  by_cases own : v.xmin = t
  · simp [creatorVisible, own]
  have bound := shows.bound
  simp only [creatorVisible, statusChecker, Snapshot.contains, Bool.or_eq_true, Bool.and_eq_true,
    decide_eq_true_eq, beq_iff_eq, own, false_or, Bool.not_eq_true', contains_eq_mem,
    decide_eq_false_iff_not]
  constructor
  · -- below the window and inside it the creator has ended, and not by an abort
    intro visible
    have ended : v.xmin < snap.xmax ∧ v.xmin ∉ snap.active ∧ v.xmin ∉ m.aborted := by
      rcases visible with ⟨low, kept⟩ | ⟨⟨⟨-, low⟩, committed⟩, out⟩
      · exact ⟨by omega, shows.below _ low, kept⟩
      · exact ⟨low, out, inv.disjoint _ committed⟩
    obtain ⟨low, out, kept⟩ := ended
    exact ((shows.rest _ low out).resolve_left own).resolve_right kept
  · intro mem
    obtain ⟨low, out, committed⟩ := shows.seen _ mem
    by_cases below : v.xmin < snap.xmin
    · exact .inl ⟨below, inv.disjoint _ committed⟩
    · exact .inr ⟨⟨⟨by omega, low⟩, committed⟩, out⟩

theorem deletionInvisible_iff (inv : Ledger m) (v : Version) :
    deletionInvisible v t snap m.statusChecker = true ↔ ¬ (v.xmax ≠ 0 ∧ (v.xmax = t ∨ V v.xmax)) := by
  by_cases live : v.xmax = 0
  · simp [deletionInvisible, live]
  by_cases own : v.xmax = t
  · have : t ≠ 0 := own ▸ live
    simp [deletionInvisible, own, this]
  simp only [deletionInvisible, statusChecker, Snapshot.contains, beq_iff_eq, live, own, if_false,
    contains_eq_mem, decide_eq_true_eq, ne_eq, not_false_eq_true, true_and, false_or]
  by_cases mem : V v.xmax
  · obtain ⟨low, out, committed⟩ := shows.seen _ mem
    simp [mem, out, Nat.not_le.2 low, inv.disjoint _ committed]
  by_cases active : v.xmax ∈ snap.active
  · simp [active, mem]
  · by_cases later : snap.xmax ≤ v.xmax
    · simp [later, mem]
    · have aborted := ((shows.rest _ (Nat.not_le.1 later) active).resolve_left own).resolve_left mem
      simp [active, later, aborted, mem]

/-- `IsVisible`: the snapshot shows the creator, or the reader is the creator, and neither the reader nor anyone its
snapshot shows has deleted the version. -/
theorem isVisible_iff (inv : Ledger m) (v : Version) : isVisible v t snap m.statusChecker = true ↔
      (v.xmin = t ∨ V v.xmin) ∧ ¬ (v.xmax ≠ 0 ∧ (v.xmax = t ∨ V v.xmax)) := by
  rw [isVisible, Bool.and_eq_true, shows.creatorVisible_iff inv, shows.deletionInvisible_iff inv]

end Shows
end Shows

/-- What the snapshot of the running transaction `t` says about the others. -/
structure SnapshotOf (aborted : List Nat) (h : List MvccEvent) (t : Nat) (snap : Snapshot) : Prop where
  xmax : snap.xmax = t + 1
  xmin : snap.xmin ≤ t + 1
  below : ∀ u < snap.xmin, u ∉ snap.active
  finished : ∀ u, 0 < u → u < t → u ∉ snap.active → CommittedBefore h u t ∨ u ∈ aborted
  seen : ∀ u, Sees h t u → u < t ∧ u ∉ snap.active

/-- The manager's books agree with the history, and every running transaction above
read-committed has the snapshot of its begin. -/
structure BookInv (m : Manager) (h : List MvccEvent) : Prop extends Ledger m where
  events : ∀ e ∈ h, 0 < e.txn ∧ e.txn ≤ m.nextID
  begins : ∀ t, 0 < t → t ≤ m.nextID → .begin t ∈ h
  commits : ∀ t, .commit t ∈ h ↔ t ∈ m.committed ∧ t ≠ 0
  once : ∀ e : MvccEvent, e.IsBoundary → h.count e ≤ 1
  lifetime : ∀ t, .commit t ∈ h → Precedes h (.begin t) (.commit t)
  txns : ∀ t txn, m.txns.get t = some txn → txn.id = t ∧ (txn.isolation ≠ .readCommitted →
    ∃ snap, txn.snapshot = some snap ∧ SnapshotOf m.aborted h t snap)

namespace BookInv
variable {m m' : Manager} {h : List MvccEvent} {t u : Nat} {e : MvccEvent}

section
variable (inv : BookInv m h)
include inv

omit inv in
theorem committedBefore_append (ne : e ≠ .begin t) : CommittedBefore (h ++ [e]) u t ↔ CommittedBefore h u t := by
  rw [CommittedBefore, precedes_append_singleton]
  constructor
  · rintro (p | ⟨-, eq⟩)
    · exact p
    · exact absurd eq.symm ne
  · exact .inl

omit inv in
theorem SnapshotOf.append {aborted aborted' : List Nat} {snap : Snapshot}
    (of : SnapshotOf aborted h t snap) (sub : ∀ u ∈ aborted, u ∈ aborted') (ne : e ≠ .begin t) :
    SnapshotOf aborted' (h ++ [e]) t snap where
  xmax := of.xmax
  xmin := of.xmin
  below := of.below
  finished u pos lt out := by
    rw [committedBefore_append ne]
    exact (of.finished u pos lt out).imp_right (sub u)
  seen u sees := of.seen u (sees.imp_right (committedBefore_append ne).1)

theorem same (same : SameTxns m m') : BookInv m' h :=
  { inv.toLedger.same same with
    events := by
      rw [same.nextID]
      exact inv.events
    begins := by
      rw [same.nextID]
      exact inv.begins
    commits := by
      rw [same.committed]
      exact inv.commits
    once := inv.once, lifetime := inv.lifetime
    txns := by
      intro t txn' found
      obtain ⟨txn, mem, view⟩ := same.txn found
      obtain ⟨id, snap⟩ := inv.txns t txn mem
      obtain ⟨eqId, eqLevel, eqSnap⟩ : txn'.id = txn.id ∧ txn'.isolation = txn.isolation ∧
          txn'.snapshot = txn.snapshot := by simpa [Transaction.view] using view
      rw [eqId, eqLevel, eqSnap, same.aborted]
      exact ⟨id, snap⟩ }

theorem events_append (known : 0 < e.txn ∧ e.txn ≤ m.nextID) : ∀ e' ∈ h ++ [e], 0 < e'.txn ∧ e'.txn ≤ m.nextID :=
  forall_mem_append.2 ⟨inv.events, forall_mem_singleton.2 known⟩

theorem once_append (fresh : e ∉ h) (e' : MvccEvent) (boundary : e'.IsBoundary) : (h ++ [e]).count e' ≤ 1 := by
  rw [count_append, count_singleton]
  split
  · rename_i eq
    rw [← eq_of_beq eq, count_eq_zero_of_not_mem fresh]
  · exact inv.once e' boundary

theorem txns_append {aborted : List Nat} (sub : ∀ u ∈ m.aborted, u ∈ aborted)
    {txn : Transaction} (ne : e ≠ .begin t) (found : m.txns.get t = some txn) :
    txn.id = t ∧ (txn.isolation ≠ .readCommitted →
      ∃ snap, txn.snapshot = some snap ∧ SnapshotOf aborted (h ++ [e]) t snap) := by
  obtain ⟨id, snap⟩ := inv.txns t txn found
  refine ⟨id, fun level => ?_⟩
  obtain ⟨snap, eq, of⟩ := snap level
  exact ⟨snap, eq, SnapshotOf.append of sub ne⟩

/-- Reads, scans, writes and aborts leave the books alone. -/
theorem append (known : 0 < e.txn ∧ e.txn ≤ m.nextID) (ne : ¬ e.IsBoundary) : BookInv m (h ++ [e]) :=
  { inv.toLedger with
    events := inv.events_append known
    begins := fun t pos le => mem_append_left _ (inv.begins t pos le)
    commits := by
      intro t
      rw [← inv.commits t, mem_append, mem_singleton]
      constructor
      · rintro (old | rfl)
        · exact old
        · exact absurd trivial ne
      · exact .inl
    once := by
      intro e' boundary
      have : e ≠ e' := by
        rintro rfl
        exact ne boundary
      rw [count_append, count_singleton, if_neg (by simpa using this)]
      exact inv.once e' boundary
    lifetime := by
      intro t mem
      rcases mem_append.1 mem with old | new
      · exact (inv.lifetime t old).append
      · exact absurd (mem_singleton.1 new ▸ trivial) ne
    txns := fun t txn found => inv.txns_append (fun _ h => h) (by rintro rfl; exact ne trivial) found }

/-- The snapshot `Begin` takes. -/
theorem snapshotOf_begin : SnapshotOf m.aborted (h ++ [.begin (m.nextID + 1)]) (m.nextID + 1)
      { m with nextID := m.nextID + 1 }.takeSnapshot := by
  have shows := inv.toLedger.shows (t := m.nextID + 1) (by omega : m.nextID < m.nextID + 1 + 1)
    fun u low high => by omega
  refine ⟨rfl, shows.bound, shows.below, fun u pos lt out => ?_, fun u sees => ?_⟩
  · rcases shows.rest u (Nat.lt_succ_of_lt lt) out with rfl | committed | aborted
    · exact absurd lt (lt_irrefl _)
    · exact .inl (precedes_append_singleton.2 (.inr ⟨(inv.commits u).2 ⟨committed, by omega⟩, rfl⟩))
    · exact .inr aborted
  have committed : u ∈ m.committed := by
    rcases sees with rfl | before
    · exact inv.seed
    rcases precedes_append_singleton.1 before with old | ⟨commit, -⟩
    · have := inv.events _ old.mem_right
      simp only [MvccEvent.txn] at this
      omega
    · exact ((inv.commits u).1 commit).1
  exact ⟨Nat.lt_succ_of_le (inv.ended u (.inl committed)), (shows.seen u committed).2.1⟩

theorem begin {txn : Transaction} {isoLevel : IsolationLevel} (nextID : m'.nextID = m.nextID + 1)
    (committed : m'.committed = m.committed) (aborted : m'.aborted = m.aborted)
    (txns : m'.txns = m.txns.set (m.nextID + 1) txn) (view : txn.view = (m.nextID + 1, isoLevel,
      if isoLevel ≠ .readCommitted then some { m with nextID := m.nextID + 1 }.takeSnapshot
      else none)) :
    BookInv m' (h ++ [.begin (m.nextID + 1)]) := by
  have fresh : .begin (m.nextID + 1) ∉ h := by
    intro mem
    have := inv.events _ mem
    simp only [MvccEvent.txn] at this
    omega
  obtain ⟨eqId, eqLevel, eqSnap⟩ : txn.id = m.nextID + 1 ∧ txn.isolation = isoLevel ∧
      txn.snapshot = if isoLevel ≠ .readCommitted then
        some { m with nextID := m.nextID + 1 }.takeSnapshot else none := by
    simpa only [Transaction.view, Prod.mk.injEq] using view
  refine { inv.toLedger.begin eqId txns committed aborted nextID with
    events := ?_, begins := ?_, commits := ?_, once := inv.once_append fresh, lifetime := ?_, txns := ?_ }
  · intro e mem
    rw [nextID]
    rcases mem_append.1 mem with old | new
    · obtain ⟨pos, le⟩ := inv.events e old
      exact ⟨pos, by omega⟩
    · rw [mem_singleton.1 new]
      exact ⟨by simp [MvccEvent.txn], by simp [MvccEvent.txn]⟩
  · intro t pos le
    rcases Nat.lt_or_ge m.nextID t with new | old
    · obtain rfl : t = m.nextID + 1 := by omega
      simp
    · exact mem_append_left _ (inv.begins t pos old)
  · intro t
    rw [committed, ← inv.commits t]
    simp
  · intro t mem
    exact (inv.lifetime t (by simpa using mem)).append
  · intro t txn' found
    rw [txns] at found
    rw [aborted]
    rcases of_get_set found with ⟨rfl, rfl⟩ | ⟨ne, old⟩
    · refine ⟨eqId, fun level => ⟨_, ?_, snapshotOf_begin inv⟩⟩
      rw [eqSnap, if_pos (eqLevel ▸ level)]
    · exact inv.txns_append (fun _ h => h) (by rintro ⟨⟩; exact ne rfl) old

theorem commit (active : m.Active u) (txns : m'.txns = m.txns.delete u) (committed : m'.committed = u :: m.committed)
    (aborted : m'.aborted = m.aborted) (nextID : m'.nextID = m.nextID) : BookInv m' (h ++ [.commit u]) := by
  obtain ⟨pos, le, notCommitted, -⟩ := inv.running u active
  refine { inv.toLedger.end active txns nextID (.inl ⟨committed, aborted⟩) with
    events := ?_, begins := ?_, commits := ?_, lifetime := ?_, txns := ?_
    once := inv.once_append fun mem => notCommitted ((inv.commits u).1 mem).1 }
  · rw [nextID]
    exact inv.events_append ⟨pos, le⟩
  · intro t pos le
    exact mem_append_left _ (inv.begins t pos (nextID ▸ le))
  · intro t
    rw [committed, mem_append, mem_singleton, inv.commits t, mem_cons]
    constructor
    · rintro (⟨old, ne⟩ | eq)
      · exact ⟨.inr old, ne⟩
      · cases eq
        exact ⟨.inl rfl, by omega⟩
    · rintro ⟨rfl | old, ne⟩
      · exact .inr rfl
      · exact .inl ⟨old, ne⟩
  · intro t mem
    rcases mem_append.1 mem with old | new
    · exact (inv.lifetime t old).append
    · cases mem_singleton.1 new
      exact precedes_append_singleton.2 (.inr ⟨inv.begins u pos le, rfl⟩)
  · intro t txn found
    exact inv.txns_append (aborted ▸ fun _ h => h) (by simp) (of_get_delete (txns ▸ found))

theorem abort (active : m.Active u) (txns : m'.txns = m.txns.delete u) (committed : m'.committed = m.committed)
    (aborted : m'.aborted = u :: m.aborted) (nextID : m'.nextID = m.nextID) : BookInv m' (h ++ [.abort u]) := by
  obtain ⟨pos, le, -⟩ := inv.running u active
  have logged := inv.append (e := .abort u) ⟨pos, le⟩ not_false
  refine { inv.toLedger.end active txns nextID (.inr ⟨committed, aborted⟩) with
    events := ?_, begins := ?_, commits := ?_, once := logged.once, lifetime := logged.lifetime, txns := ?_ }
  · rw [nextID]
    exact logged.events
  · rw [nextID]
    exact logged.begins
  · rw [committed]
    exact logged.commits
  · intro t txn found
    refine inv.txns_append (fun v mem => ?_) (by simp) (of_get_delete (txns ▸ found))
    rw [aborted]
    exact mem_cons_of_mem _ mem

theorem committedBefore_trans {v : Nat} (first : CommittedBefore h v u)
    (second : CommittedBefore h u t) : CommittedBefore h v t := by
  have life := inv.lifetime u second.mem_left
  exact Precedes.trans (first.trans life (inv.once _ trivial)) second (inv.once _ trivial)

/-- The snapshot of a running transaction is the one of its begin. -/
theorem snapshot {txn : Transaction} (found : m.txns.get t = some txn)
    (level : txn.isolation ≠ .readCommitted) : SnapshotOf m.aborted h t (m.getSnapshot txn) := by
  obtain ⟨snap, eq, of⟩ := (inv.txns t txn found).2 level
  simp only [getSnapshot, if_neg level, eq]
  exact of

theorem committed_of_sees (sees : Sees h t u) : u ∈ m.committed ∧ u ∉ m.aborted := by
  have committed : u ∈ m.committed := by
    rcases sees with rfl | before
    · exact inv.seed
    · exact ((inv.commits u).1 before.mem_left).1
  exact ⟨committed, inv.disjoint u committed⟩

end

end BookInv

section Visibility
variable {m : Manager} {h : List MvccEvent} {t : Nat} {txn : Transaction} (inv : BookInv m h)
  (found : m.txns.get t = some txn)
include inv found

/-- What a running transaction sees: what had committed when it began, or what has by now. -/
theorem BookInv.shows : Shows m t (m.getSnapshot txn) fun u =>
    if txn.isolation = .readCommitted then u ∈ m.committed else Sees h t u := by
  by_cases level : txn.isolation = .readCommitted
  · simp only [getSnapshot, if_pos level]
    exact inv.toLedger.shows (Nat.lt_succ_self _) fun u low high => by omega
  simp only [if_neg level]
  have of := inv.snapshot found level
  refine ⟨of.below, of.xmin.trans of.xmax.ge, fun u sees => ?_, fun u low out => ?_⟩
  · obtain ⟨lt, out⟩ := of.seen u sees
    exact ⟨by rw [of.xmax]; omega, out, (inv.committed_of_sees sees).1⟩
  · by_cases own : u = t
    · exact .inl own
    by_cases seed : u = 0
    · exact .inr (.inl (.inl seed))
    · rw [of.xmax] at low
      exact .inr ((of.finished u (by omega) (by omega) out).imp_left .inr)

section
variable (level : txn.isolation ≠ .readCommitted) (v : Version)
include level

theorem BookInv.creatorVisible_iff :
    creatorVisible v t (m.getSnapshot txn) m.statusChecker = true ↔ v.xmin = t ∨ Sees h t v.xmin := by
  have shows := inv.shows found
  simp only [if_neg level] at shows
  exact shows.creatorVisible_iff inv.toLedger v

theorem BookInv.deletionInvisible_iff : deletionInvisible v t (m.getSnapshot txn) m.statusChecker = true ↔
      v.xmax = 0 ∨ v.xmax ≠ t ∧ ¬ CommittedBefore h v.xmax t := by
  have shows := inv.shows found
  simp only [if_neg level] at shows
  rw [shows.deletionInvisible_iff inv.toLedger]
  by_cases live : v.xmax = 0 <;> simp [live, Sees]

theorem BookInv.isVisible_iff : isVisible v t (m.getSnapshot txn) m.statusChecker = true ↔
      (v.xmin = t ∨ Sees h t v.xmin) ∧ (v.xmax = 0 ∨ v.xmax ≠ t ∧ ¬ CommittedBefore h v.xmax t) := by
  rw [isVisible, Bool.and_eq_true, inv.creatorVisible_iff found level, inv.deletionInvisible_iff found level]

end

end Visibility

theorem seedMVCCStore_get {row : RowRef} {c : VersionChain}
    (found : (seedMVCCStore rows).get row = some c) : ∃ data, c = [{ xmin := 0, data }] := by
  suffices build : ∀ s : Store, (∀ c, s.get row = some c → ∃ data, c = [{ xmin := 0, data }]) →
      ∀ c, (rows.foldl (fun s r => s.set r.1 [{ xmin := 0, data := r.2 }]) s).get row = some c →
        ∃ data, c = [{ xmin := 0, data }] from build ∅ (nofun) c found
  clear found
  induction rows with
  | nil => exact fun _ start => start
  | cons r rows ih =>
    intro s start
    refine ih _ fun c found => ?_
    rw [get_set] at found
    split at found
    · cases found
      exact ⟨_, rfl⟩
    · exact start c found

theorem chain_start {maxActive : Nat} {wal : Option Log}
    {row : RowRef} {v : Version} (mem : v ∈ (start rows maxActive wal).mgr.chain row) :
    ∃ data, (start rows maxActive wal).mgr.chain row = [v] ∧ v = { xmin := 0, data } := by
  simp only [start, chain] at mem ⊢
  cases found : (seedMVCCStore rows).get row with
  | none => simp [found] at mem
  | some c =>
    obtain ⟨data, rfl⟩ := seedMVCCStore_get found
    simp only [found, Option.getD_some, mem_singleton] at mem
    exact ⟨data, by rw [mem]; rfl, mem⟩

theorem BookInv.start (rows : List (RowRef × RowData)) (maxActive : Nat) (wal : Option Log) :
    BookInv (start rows maxActive wal).mgr (start rows maxActive wal).hist := by
  refine ⟨⟨⟨?_, ?_, ?_⟩, ?_, mem_singleton.2 rfl, ?_⟩, ?_, ?_, ?_, ?_, ?_, ?_⟩
  · intro t active
    cases active
  · intro t _ mem
    cases mem
  · simp [MvccRun.start]
  · intro t txn found
    cases found
  · intro t pos le
    exact absurd pos (Nat.not_lt.2 le)
  · intro e mem
    cases mem
  · intro t pos le
    exact absurd pos (Nat.not_lt.2 le)
  · simp [MvccRun.start]
  · simp [MvccRun.start]
  · intro t mem
    cases mem
  · intro t txn found
    cases found

/-- The books of a run, and what is being undone is aborted. -/
structure RunInv (s : MvccRun) : Prop where
  books : BookInv s.mgr s.hist
  undoing : ∀ t, (s.undoing.get t).isSome → t ∈ s.mgr.aborted

/-- Every step keeps the books. -/
theorem RunInv.next {s' : MvccRun} {a : MvccAction} (inv : RunInv s) (taken : s.next a = some s') : RunInv s' := by
  obtain ⟨books, undoing⟩ := inv
  have known {id : Nat} {txn : Transaction} (found : s.mgr.txns.get id = some txn) :=
    books.running id (active_of_get found)
  cases next_cases books.keyed taken with
  | idle same _ kept | undo _ same _ _ kept =>
    exact ⟨books.same same, fun t h => same.aborted ▸ undoing t (kept t h)⟩
  | begin nextID committed aborted _ txns view =>
    exact ⟨books.begin nextID committed aborted txns view, aborted ▸ undoing⟩
  | read found same _ | scan found same _ | write found _ same _ _ =>
    exact ⟨.same (.append books ⟨(known found).1, (known found).2.1⟩ not_false) same, same.aborted ▸ undoing⟩
  | commit found _ txns committed aborted nextID _ =>
    exact ⟨books.commit (active_of_get found) txns committed aborted nextID, aborted ▸ undoing⟩
  | abort active txns committed aborted nextID _ =>
    refine ⟨books.abort active txns committed aborted nextID, fun t h => ?_⟩
    rw [aborted]
    rw [get_set] at h
    split at h
    · rename_i eq
      exact eq ▸ mem_cons_self
    · exact mem_cons_of_mem _ (undoing t h)

theorem RunInv.reach {maxActive : Nat} {wal : Option Log}
    (reached : Reach MvccRun.next AnyStep (.start rows maxActive wal) s) : RunInv s :=
  reached.invariant ⟨.start rows maxActive wal, nofun⟩ fun _ _ _ inv _ taken => inv.next taken

structure TxnInv (m : Manager) (h : List MvccEvent) : Prop extends BookInv m h where
  levels : ∀ t txn, m.txns.get t = some txn → txn.isolation ≠ .readCommitted

/-- Without `Begin` at read-committed nobody gets to that level. -/
theorem levels_next {s' : MvccRun} {a : MvccAction} (inv : TxnInv s.mgr s.hist)
    (level : ∀ isoLevel, a = .begin isoLevel → isoLevel ≠ .readCommitted) (taken : s.next a = some s') (t : Nat)
    (txn : Transaction) (found : s'.mgr.txns.get t = some txn) : txn.isolation ≠ .readCommitted := by
  have kept {m' : Manager} (same : SameTxns s.mgr m') (found : m'.txns.get t = some txn) :
      txn.isolation ≠ .readCommitted := by
    obtain ⟨txn₀, mem, view⟩ := same.txn found
    rw [show txn.isolation = txn₀.isolation from congrArg (·.2.1) view]
    exact inv.levels t txn₀ mem
  cases next_cases inv.keyed taken with
  | idle same | read _ same | scan _ same | write _ _ same | undo _ same => exact kept same found
  | begin _ _ _ _ txns view =>
    rcases of_get_set (txns ▸ found) with ⟨-, rfl⟩ | ⟨-, old⟩
    · rw [show txn.isolation = _ from congrArg (·.2.1) view]
      exact level _ rfl
    · exact inv.levels t txn old
  | commit _ _ txns | abort _ txns => exact inv.levels t txn (of_get_delete (txns ▸ found))

namespace TxnInv
variable {m : Manager} {h : List MvccEvent} {t : Nat} {e : MvccEvent} {txn : Transaction}

theorem append (inv : TxnInv m h) (known : 0 < e.txn ∧ e.txn ≤ m.nextID) (ne : ¬ e.IsBoundary) :
    TxnInv m (h ++ [e]) := ⟨inv.toBookInv.append known ne, inv.levels⟩

theorem snapshot (inv : TxnInv m h) (found : m.txns.get t = some txn) : SnapshotOf m.aborted h t (m.getSnapshot txn) :=
  inv.toBookInv.snapshot found (inv.levels t txn found)

end TxnInv

theorem isVisible_iff {m : Manager} {h : List MvccEvent} {t : Nat} {txn : Transaction} (inv : TxnInv m h)
    (found : m.txns.get t = some txn) (v : Version) :
    isVisible v t (m.getSnapshot txn) m.statusChecker = true ↔
      (v.xmin = t ∨ Sees h t v.xmin) ∧ (v.xmax = 0 ∨ v.xmax ≠ t ∧ ¬ CommittedBefore h v.xmax t) :=
  inv.toBookInv.isVisible_iff found (inv.levels t txn found) v

end TransactionManager.Txn
