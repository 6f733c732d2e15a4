import Mathlib.Data.List.AList

/-!
# Finite maps

Go's `map[K]V` and `sync.Map` as Mathlib's association lists with distinct keys. `get`,
`set` and `delete` follow Go's reading, assignment and `delete`; the other modules use what
`get` finds after them, and nothing else. Iteration order is not specified in Go, and no result
depends on the order of `keys`.
-/

namespace TransactionManager.Lib
open Option

abbrev GoMap (K V : Type*) := AList fun _ : K => V

namespace GoMap

variable {K V : Type*} [DecidableEq K]

/-- `m[k]`, with the comma-ok result as an option. -/
def get (m : GoMap K V) (k : K) : Option V := m.lookup k

def set (m : GoMap K V) (k : K) (v : V) : GoMap K V := m.insert k v

def delete (m : GoMap K V) (k : K) : GoMap K V := m.erase k

@[simp] theorem get_empty (k : K) : get (∅ : GoMap K V) k = none := rfl

@[simp] theorem get_set (m : GoMap K V) (k k' : K) (v : V) :
    (m.set k v).get k' = if k' = k then some v else m.get k' := by
  by_cases h : k' = k
  · subst h
    simp [get, set]
  · simp [get, set, h, AList.lookup_insert_ne h]

@[simp] theorem get_delete (m : GoMap K V) (k k' : K) : (m.delete k).get k' = if k' = k then none else m.get k' := by
  by_cases h : k' = k
  · subst h
    simp [get, delete]
  · simp [get, delete, h, AList.lookup_erase_ne h]

/-- What is found after an assignment was assigned, or was there before. -/
theorem of_get_set {m : GoMap K V} {k k' : K} {v v' : V} (found : (m.set k v).get k' = some v') :
    k' = k ∧ v' = v ∨ k' ≠ k ∧ m.get k' = some v' := by
  rw [get_set] at found
  split at found
  · rename_i here
    exact .inl ⟨here, (some.inj found).symm⟩
  · rename_i other
    exact .inr ⟨other, found⟩

theorem of_get_delete {m : GoMap K V} {k k' : K} {v : V} (found : (m.delete k).get k' = some v) :
    m.get k' = some v := by
  rw [get_delete] at found
  split at found
  · cases found
  · exact found

theorem get_of_eq {m : GoMap K V} {k : K} {x : Option V} (eq : m.get k = x) (k' : K) :
    m.get k' = if k' = k then x else m.get k' := by
  split
  · rename_i here
    rw [here, eq]
  · rfl

@[simp] theorem mem_keys_iff (m : GoMap K V) (k : K) : k ∈ m.keys ↔ ∃ v, m.get k = some v := by
  rw [← AList.mem_keys, ← AList.lookup_isSome, isSome_iff_exists]
  rfl

end GoMap

section
variable {V W : Type*} {R : V → W → Prop} {a : Option V} {b : Option W}

/-- What one of two related maps finds, the other finds as well. -/
theorem rel_found (rel : Option.Rel R a b) {v : V} (found : a = some v) : ∃ w, b = some w ∧ R v w := by
  subst found
  cases rel with
  | some same => exact ⟨_, rfl, same⟩

theorem rel_isSome (rel : Option.Rel R a b) : a.isSome = b.isSome := by
  cases rel <;> rfl

theorem rel_missing (rel : Option.Rel R a b) (missing : a = none) : b = none := by
  rw [← isNone_iff_eq_none, ← not_isSome, ← rel_isSome rel, missing]
  rfl

end

end TransactionManager.Lib
