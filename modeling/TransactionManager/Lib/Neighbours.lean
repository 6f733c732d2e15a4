import Mathlib.Data.List.Pairwise
import Mathlib.Tactic.MkIffOfInductiveProp
import Mathlib.Tactic.Tauto

/-!
# Neighbours of a point in a set of keys

The nearest keys on either side of a point of a linear order, and what a key that appears or
vanishes does to them: the neighbours stay, unless the new key comes between them, where it has the
same neighbours itself, or the key that goes is one of the two.
-/

namespace TransactionManager.Lib
open List Option
open scoped Std.OppositeOrderInstances
variable {α : Type} [lt : LT α]

section
variable [DecidableLT α]

/-- The last key of a sorted list that is below a point. -/
def prevKey (x : α) (keys : List α) : Option α := (keys.filter (· < x)).getLast?

/-- The first key of a sorted list that is above a point. -/
def nextKey (x : α) (keys : List α) : Option α := keys.find? (x < ·)

theorem prevKey_cons {x k : α} (less : k < x) (keys : List α) (default : α) :
    (prevKey x (k :: keys)).getD default = (prevKey x keys).getD k := by
  simp [prevKey, less, getLast?_cons]

theorem prevKey_eq_none {x : α} {keys : List α} (above : ∀ k ∈ keys, ¬ k < x) : prevKey x keys = none := by
  simpa [prevKey] using above

end

variable [le : LE α]

/-- The nearest keys below and above a point, if there are any. -/
@[mk_iff] structure Neighbours (K : α → Prop) (x : α) (prev next : Option α) : Prop where
  below : ∀ k ∈ prev, K k ∧ k < x
  above : ∀ k ∈ next, K k ∧ x < k
  left : ∀ k, K k → k < x → ∃ j ∈ prev, k ≤ j
  right : ∀ k, K k → x < k → ∃ j ∈ next, j ≤ k

namespace Neighbours
variable {K K' : α → Prop} {x y : α} {prev next prev' next' : Option α}

theorem congr (near : Neighbours K x prev next) (same : ∀ k, K' k ↔ K k) : Neighbours K' x prev next := by
  have eq : K' = K := funext fun k => propext (same k)
  rwa [eq]

theorem opposite : @Neighbours α lt.opposite le.opposite K x next prev ↔ Neighbours K x prev next := by
  simp only [neighbours_iff, LT.lt_opposite_iff, LE.le_opposite_iff]
  tauto

theorem vanish (near : Neighbours K x prev next) (keys : ∀ k, K' k ↔ K k ∧ k ≠ y) (left : y ∉ prev)
    (right : y ∉ next) : Neighbours K' x prev next := by
  constructor
  · intro k mem
    obtain ⟨key, lt⟩ := near.below k mem
    exact ⟨(keys k).2 ⟨key, fun eq => left (eq ▸ mem)⟩, lt⟩
  · intro k mem
    obtain ⟨key, lt⟩ := near.above k mem
    exact ⟨(keys k).2 ⟨key, fun eq => right (eq ▸ mem)⟩, lt⟩
  · exact fun k key => near.left k ((keys k).1 key).1
  · exact fun k key => near.right k ((keys k).1 key).1

section
variable [Std.IsLinearOrder α]

theorem prev_unique (near : Neighbours K x prev next) (near' : Neighbours K x prev' next') : prev = prev' := by
  have sub {p p' n n' : Option α} (near : Neighbours K x p n) (near' : Neighbours K x p' n') {k : α}
      (mem : k ∈ p) : k ∈ p' := by
    obtain ⟨key, lt⟩ := near.below k mem
    obtain ⟨j, found, le⟩ := near'.left k key lt
    obtain ⟨key', lt'⟩ := near'.below j found
    obtain ⟨i, same, ge⟩ := near.left j key' lt'
    rw [mem_unique same mem] at ge
    rwa [Std.le_antisymm le ge]
  exact ext fun k => ⟨sub near near', sub near' near⟩

theorem next_unique (near : Neighbours K x prev next) (near' : Neighbours K x prev' next') : next = next' :=
  @prev_unique α lt.opposite le.opposite _ _ _ _ _ _ _ (opposite.2 near) (opposite.2 near')

end

variable [Std.IsLinearOrder α] [Std.LawfulOrderLT α]

/-- The key below a point that is not a key has the same key above it. -/
theorem next_of_prev (near : Neighbours K x (some y) next) (absent : ¬ K x)
    (near' : Neighbours K y prev' next') : next' = next := by
  obtain ⟨-, lt⟩ := near.below y rfl
  refine near'.next_unique ⟨near'.below, fun k mem => ?_, near'.left, fun k key less => ?_⟩
  · have := near.above k mem
    exact ⟨this.1, by grind⟩
  · have away : ¬ k < x := fun less' => by
      obtain ⟨j, ⟨⟩, le⟩ := near.left k key less'
      grind
    exact near.right k key (by grind)

/-- The key above a point that is not a key has the same key below it. -/
theorem prev_of_next (near : Neighbours K x prev (some y)) (absent : ¬ K x)
    (near' : Neighbours K y prev' next') : prev' = prev :=
  @next_of_prev α lt.opposite le.opposite _ _ _ _ _ _ _ _ (opposite.2 near) absent (opposite.2 near')

section
variable (near : Neighbours K x prev next) (keys : ∀ k, K' k ↔ K k ∨ k = y) (absent : ¬ K x)
include near keys absent

theorem appear_below (low : y < x) : Neighbours K' x prev next ∨ Neighbours K y prev next := by
  by_cases covered : ∃ j ∈ prev, y ≤ j
  · refine .inl ⟨fun k mem => ?_, fun k mem => ?_, fun k key less => ?_, fun k key less => ?_⟩
    · exact ⟨(keys k).2 (.inl (near.below k mem).1), (near.below k mem).2⟩
    · exact ⟨(keys k).2 (.inl (near.above k mem).1), (near.above k mem).2⟩
    · rcases (keys k).1 key with old | rfl
      · exact near.left k old less
      · exact covered
    · exact near.right k (((keys k).1 key).resolve_right (by grind)) less
  · -- the key is above the one below the point
    refine .inr ⟨fun k mem => ⟨(near.below k mem).1, by grind⟩, fun k mem => ⟨(near.above k mem).1, ?_⟩,
      fun k key less => near.left k key (by grind), fun k key less => ?_⟩
    · have := (near.above k mem).2
      grind
    · have away : ¬ k < x := fun less' => by
        obtain ⟨j, found, le⟩ := near.left k key less'
        exact covered ⟨j, found, by grind⟩
      exact near.right k key (by grind)

/-- A key that comes up between the neighbours of a point has the same neighbours. -/
theorem appear (other : y ≠ x) : Neighbours K' x prev next ∨ Neighbours K y prev next := by
  have side : y < x ∨ x < y := by grind
  rcases side with less | less
  · exact near.appear_below keys absent less
  · exact (@appear_below α lt.opposite le.opposite _ _ _ _ _ _ _ _ (opposite.2 near) keys absent (LT.lt_opposite_iff.2 less)).imp
      opposite.1 opposite.1

end

end Neighbours

theorem neighbours_of_sorted [DecidableLT α] [Std.IsLinearOrder α] {keys : List α} (sorted : keys.Pairwise (· ≤ ·)) (x : α) :
    Neighbours (· ∈ keys) x (prevKey x keys) (nextKey x keys) := by
  constructor
  · intro k mem
    have kept := mem_of_getLast? mem
    simpa using kept
  · intro k found
    exact ⟨mem_of_find?_eq_some found, by simpa using find?_some found⟩
  · intro k key less
    have kept : k ∈ keys.filter (· < x) := by simp [key, less]
    exact ⟨_, getLast?_eq_some_getLast (ne_nil_of_mem kept), (sorted.filter _).rel_getLast kept⟩
  · intro k key less
    cases found : nextKey x keys with
    | none => exact absurd less (by simpa using find?_eq_none.1 found k key)
    | some j =>
      refine ⟨j, rfl, ?_⟩
      obtain ⟨-, front, rest, rfl, skipped⟩ := find?_eq_some_iff_append.1 found
      rcases mem_append.1 key with early | late
      · exact absurd less (by simpa using skipped k early)
      · rcases mem_cons.1 late with rfl | later
        · exact Std.le_refl k
        · exact rel_of_pairwise_cons (pairwise_append.1 sorted).2.1 later

end TransactionManager.Lib
