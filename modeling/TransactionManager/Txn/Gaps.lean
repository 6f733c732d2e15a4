import TransactionManager.Lib.Neighbours
import TransactionManager.Txn.Scan

/-!
# The gaps that range scans and inserts lock

A gap is named by the keys on either side of it. `LockForInsert` names the gap of the key, and
`LockForRangeScan` the gap of every missing key of the range beside the rows that are there. A key
that appears in one gap or vanishes from the side of another leaves the names of the other gaps
alone.
-/

namespace TransactionManager.Txn
open Lib TransactionManager.Types Lock List Storage

section
variable {table lo hi x y prev : GoString} {keys keys' : List GoString}

theorem insertionPoint_eq (sorted : keys.Pairwise (· ≤ ·)) :
    insertionPoint x prev keys = ((prevKey x keys).getD prev, (nextKey x keys).getD []) := by
  induction keys generalizing prev with
  | nil => rfl
  | cons k ks ih =>
    obtain ⟨first, rest⟩ := pairwise_cons.1 sorted
    unfold insertionPoint
    split
    · rename_i less
      rw [ih rest, prevKey_cons less]
      simp [nextKey, show ¬ x < k by grind]
    · rename_i ge
      split
      · rename_i less
        rw [prevKey_eq_none (by grind)]
        simp [nextKey, less]
      · rename_i le
        rw [ih rest]
        simp [nextKey, prevKey, ge, le]

/-- The gap that `LockForInsert` locks, by the neighbours of the key. -/
theorem insertionGap_eq (sorted : keys.Pairwise (· ≤ ·)) : insertionGap table x keys =
      .gap table ((prevKey x keys).getD []) ((nextKey x keys).getD gapInfinitySentinel) := by
  unfold insertionGap
  rw [insertionPoint_eq sorted]
  cases found : nextKey x keys with
  | none => rfl
  | some n =>
    have above := ((neighbours_of_sorted sorted x).above n found).2
    exact congrArg (ResourceID.gap table _) (if_neg (by rintro rfl; exact not_lt_nil x above))

/-- A key of the range is between the bounds. -/
theorem inRange_iff : inRange lo hi x = true ↔ (lo = [] ∨ lo ≤ x) ∧ (hi = [] ∨ x ≤ hi) := by
  simp [inRange]

/-- A key below a key of the range is in the range or below it. -/
theorem below_of_inRange (ranged : inRange lo hi x = true) (less : y < x) (out : inRange lo hi y = false) :
    lo ≠ [] ∧ y < lo := by
  have := inRange_iff.1 ranged
  have := (not_congr inRange_iff).1 (by rw [out]; simp : ¬ inRange lo hi y = true)
  grind

/-- A key above a key of the range is in the range or above it. -/
theorem above_of_inRange (ranged : inRange lo hi x = true) (less : x < y) (out : inRange lo hi y = false) :
    hi ≠ [] ∧ hi < y ∧ ¬ (lo ≠ [] ∧ y < lo) := by
  have := inRange_iff.1 ranged
  have := (not_congr inRange_iff).1 (by rw [out]; simp : ¬ inRange lo hi y = true)
  grind

theorem row_mem_rangeLocks (mem : x ∈ keys) (ranged : inRange lo hi x = true) :
    (.row table x, .s) ∈ (rangeLocks table lo hi prev keys).1 := by
  induction keys generalizing prev with
  | nil => cases mem
  | cons k ks ih =>
    unfold rangeLocks
    split
    · rcases mem_cons.1 mem with rfl | mem
      · simp
      · simp [ih mem]
    · rename_i out
      rcases mem_cons.1 mem with rfl | mem
      · exact absurd ranged out
      · exact ih mem

/-- Below a missing key of the range the loop keeps the last key it has passed. -/
theorem rangeLocks_below (ranged : inRange lo hi x = true) {k : GoString} (less : k < x) (ks : List GoString) :
    (rangeLocks table lo hi prev (k :: ks)).2 = (rangeLocks table lo hi k ks).2 ∧
      ∀ q ∈ (rangeLocks table lo hi k ks).1, q ∈ (rangeLocks table lo hi prev (k :: ks)).1 := by
  cases within : inRange lo hi k with
  | true =>
    simp only [rangeLocks, within, if_true]
    exact ⟨trivial, fun q mem => mem_cons_of_mem _ (mem_cons_of_mem _ mem)⟩
  | false =>
    simp only [rangeLocks, within, if_pos (below_of_inRange ranged less within)]
    exact ⟨rfl, fun q mem => mem⟩

section
variable (sorted : keys.Pairwise (· ≤ ·))
include sorted

theorem gap_mem_rangeLocks (absent : x ∉ keys) (ranged : inRange lo hi x = true) {n : GoString}
    (next : nextKey x keys = some n) (within : inRange lo hi n = true) :
    (.gap table ((prevKey x keys).getD prev) n, .s) ∈ (rangeLocks table lo hi prev keys).1 := by
  induction keys generalizing prev with
  | nil => cases next
  | cons k ks ih =>
    obtain ⟨first, rest⟩ := pairwise_cons.1 sorted
    have absent : x ∉ ks := not_mem_of_not_mem_cons absent
    by_cases less : k < x
    · rw [prevKey_cons less]
      have later : nextKey x ks = some n := by
        simpa [nextKey, show ¬ x < k by grind] using next
      exact (rangeLocks_below ranged less ks).2 _ (ih rest absent later)
    · have above : x < k := by grind
      have eq : k = n := by simpa [nextKey, above] using next
      subst eq
      rw [prevKey_eq_none (by grind)]
      simp [rangeLocks, within]

theorem rangeLocks_last (absent : x ∉ keys)
    (ranged : inRange lo hi x = true) (out : ∀ n ∈ nextKey x keys, inRange lo hi n = false) :
    (rangeLocks table lo hi prev keys).2 = (prevKey x keys).getD prev := by
  induction keys generalizing prev with
  | nil => rfl
  | cons k ks ih =>
    obtain ⟨first, rest⟩ := pairwise_cons.1 sorted
    have absent : x ∉ ks := not_mem_of_not_mem_cons absent
    by_cases less : k < x
    · rw [prevKey_cons less, (rangeLocks_below ranged less ks).1]
      refine ih rest absent fun n mem => out n ?_
      simpa [nextKey, show ¬ x < k by grind] using mem
    · have above : x < k := by grind
      obtain ⟨bounded, far, side⟩ := above_of_inRange ranged above (out k (by simp [nextKey, above]))
      have skip : rangeLocks table lo hi prev (k :: ks) = rangeLocks table lo hi prev ks := by
        simp [rangeLocks, out k (by simp [nextKey, above]), side]
      have none (l : List GoString) (later : ∀ j ∈ l, k ≤ j) : prevKey x l = none := prevKey_eq_none (by grind)
      rw [skip, ih rest absent, none ks first, none (k :: ks) (by grind)]
      intro n mem
      have later := first n (mem_of_find?_eq_some mem)
      simp [inRange, bounded, show ¬ n ≤ hi by grind]

/-- The upper end of the last gap, when no key of the range is above the missing key. -/
theorem trailingGapHi_eq (ranged : inRange lo hi x = true) (out : ∀ n ∈ nextKey x keys, inRange lo hi n = false) :
    trailingGapHi hi keys = (nextKey x keys).getD gapInfinitySentinel := by
  have near := neighbours_of_sorted sorted x
  have far (n : GoString) (mem : n ∈ nextKey x keys) : hi ≠ [] ∧ hi < n := by
    have := above_of_inRange ranged (near.above n mem).2 (out n mem)
    exact ⟨this.1, this.2.1⟩
  unfold trailingGapHi
  split
  · rename_i unbounded
    have none : nextKey x keys = none := Option.eq_none_iff_forall_not_mem.2 fun n mem => (far n mem).1 unbounded
    rw [none]
    rfl
  · rename_i bounded
    have le : x ≤ hi := (inRange_iff.1 ranged).2.resolve_left bounded
    have same : nextKey hi keys = nextKey x keys := by
      refine (neighbours_of_sorted sorted hi).next_unique
        ⟨(neighbours_of_sorted sorted hi).below, fun n mem => ⟨(near.above n mem).1, (far n mem).2⟩,
          (neighbours_of_sorted sorted hi).left, fun k key less => near.right k key (by grind)⟩
    exact congrArg (Option.getD · gapInfinitySentinel) same

/-- A range scan locks the gap of every missing key of the range. -/
theorem gap_mem_lockForRangeScan (absent : x ∉ keys) (ranged : inRange lo hi x = true) :
    (insertionGap table x keys, .s) ∈ lockForRangeScan table lo hi keys := by
  rw [insertionGap_eq sorted]
  unfold lockForRangeScan
  simp only [mem_append, mem_singleton]
  by_cases within : ∃ n ∈ nextKey x keys, inRange lo hi n = true
  · obtain ⟨n, next, within⟩ := within
    left
    rw [next]
    exact gap_mem_rangeLocks sorted absent ranged next within
  · have out (n : GoString) (mem : n ∈ nextKey x keys) : inRange lo hi n = false := by
      simpa using fun hit => within ⟨n, mem, hit⟩
    right
    rw [rangeLocks_last sorted absent ranged out, trailingGapHi_eq sorted ranged out]

omit sorted in
/-- The locks of a row that is there and of the gap of a missing key, for every key of a range. -/
def Protects (table lo hi : GoString) (keys : List GoString) (P : LockRequest → Prop) : Prop :=
  ∀ x, inRange lo hi x = true → (x ∈ keys → P (.row table x, .s)) ∧ (x ∉ keys → P (insertionGap table x keys, .s))

/-- What a range scan asks for protects the range. -/
theorem protects_lockForRangeScan : Protects table lo hi keys (· ∈ lockForRangeScan table lo hi keys) := by
  intro x ranged
  refine ⟨fun mem => ?_, fun absent => gap_mem_lockForRangeScan sorted absent ranged⟩
  exact mem_append_left _ (row_mem_rangeLocks mem ranged)

end

/-- The gap that `LockForInsert` computes for a missing key is one of those that `LockForRangeScan` locks there, for
any bounds around the key. -/
theorem insertionGap_covered (t : Table) (name lo hi key : GoString) (absent : t.getRow key = none)
    (ranged : inRange lo hi key = true) :
    insertionGap name key t.sortedKeys ∈ (lockForRangeScan name lo hi t.sortedKeys).map Prod.fst := by
  have sorted : t.sortedKeys.Pairwise (· ≤ ·) := pairwise_insertionSort _ _
  have missing : key ∉ t.sortedKeys := by simp [Table.mem_sortedKeys, absent]
  exact mem_map_of_mem (gap_mem_lockForRangeScan sorted missing ranged)

/-- `LockForInsert` of `c` beside a scan of `a` to `d` that finds the key `b` alone. -/
theorem insertionGap_covered_trailing : ResourceID.gap [116] [98] gapInfinitySentinel ∈
      (lockForRangeScan [116] [97] [100] (Table.putRow ∅ [98] none).sortedKeys).map Prod.fst :=
  insertionGap_covered (Table.putRow ∅ [98] none) [116] [97] [100] [99] rfl rfl

variable {P P' : LockRequest → Prop}

theorem Protects.mono (protects : Protects table lo hi keys P) (le : ∀ q, q.2 = .s → P q → P' q) :
    Protects table lo hi keys P' := fun x ranged =>
  ⟨fun mem => le _ rfl ((protects x ranged).1 mem), fun absent => le _ rfl ((protects x ranged).2 absent)⟩

theorem insertionGap_congr (sorted : keys.Pairwise (· ≤ ·)) (sorted' : keys'.Pairwise (· ≤ ·))
    (near : Neighbours (· ∈ keys') x (prevKey x keys) (nextKey x keys)) :
    insertionGap table x keys' = insertionGap table x keys := by
  rw [insertionGap_eq sorted, insertionGap_eq sorted', (neighbours_of_sorted sorted' x).prev_unique near,
    (neighbours_of_sorted sorted' x).next_unique near]

section
variable (protects : Protects table lo hi keys P) (sorted : keys.Pairwise (· ≤ ·)) (sorted' : keys'.Pairwise (· ≤ ·))
include protects sorted sorted'

theorem Protects.congr (mem : ∀ k, k ∈ keys' ↔ k ∈ keys) : Protects table lo hi keys' P := by
  intro x ranged
  rw [insertionGap_congr sorted sorted' ((neighbours_of_sorted sorted x).congr mem), mem x]
  exact protects x ranged

theorem Protects.appear (absent : y ∉ keys) (mem : ∀ k, k ∈ keys' ↔ k ∈ keys ∨ k = y)
    (free : ¬ P (insertionGap table y keys, .s)) : Protects table lo hi keys' P := by
  intro x ranged
  have other : x ≠ y := by
    rintro rfl
    exact free ((protects x ranged).2 absent)
  refine ⟨fun there => (protects x ranged).1 (((mem x).1 there).resolve_right other), fun away => ?_⟩
  have missing : x ∉ keys := fun there => away ((mem x).2 (.inl there))
  have locked := (protects x ranged).2 missing
  rcases (neighbours_of_sorted sorted x).appear mem missing other.symm with same | shared
  · rwa [insertionGap_congr sorted sorted' same]
  -- the new key is in the gap of the missing one
  have gap : insertionGap table y keys = insertionGap table x keys := by
    rw [insertionGap_eq sorted, insertionGap_eq sorted, (neighbours_of_sorted sorted y).prev_unique shared,
      (neighbours_of_sorted sorted y).next_unique shared]
  rw [gap] at free
  exact absurd locked free

end

/-- The gaps on the two sides of a key. -/
def sideGaps (table key : GoString) (keys : List GoString) : List ResourceID :=
  [.gap table ((prevKey key keys).getD []) key, .gap table key ((nextKey key keys).getD gapInfinitySentinel)]

/-- A key vanishes whose row and whose gaps are not locked. -/
theorem Protects.vanish (protects : Protects table lo hi keys P) (sorted : keys.Pairwise (· ≤ ·))
    (sorted' : keys'.Pairwise (· ≤ ·)) (there : y ∈ keys) (mem : ∀ k, k ∈ keys' ↔ k ∈ keys ∧ k ≠ y)
    (row : ¬ P (.row table y, .s)) (free : inRange lo hi y = false → ∀ r ∈ sideGaps table y keys, ¬ P (r, .s)) :
    Protects table lo hi keys' P := by
  intro x ranged
  have out : inRange lo hi y = false := by
    simpa using fun hit => row ((protects y hit).1 there)
  refine ⟨fun mem' => (protects x ranged).1 ((mem x).1 mem').1, fun away => ?_⟩
  have missing : x ∉ keys := fun here => by
    by_cases same : x = y
    · rw [same, out] at ranged
      cases ranged
    · exact away ((mem x).2 ⟨here, same⟩)
  have locked := (protects x ranged).2 missing
  have near := neighbours_of_sorted sorted x
  have near' := neighbours_of_sorted sorted y
  rw [insertionGap_eq sorted] at locked
  have left : y ∉ prevKey x keys := by
    intro found
    rw [found] at near locked
    exact free out _ (by simp [sideGaps]) (near.next_of_prev missing near' ▸ locked)
  have right : y ∉ nextKey x keys := by
    intro found
    rw [found] at near locked
    exact free out _ (by simp [sideGaps]) (near.prev_of_next missing near' ▸ locked)
  rwa [insertionGap_congr sorted sorted' ((neighbours_of_sorted sorted x).vanish mem left right),
    insertionGap_eq sorted]

end

end TransactionManager.Txn
