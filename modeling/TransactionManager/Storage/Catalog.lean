import TransactionManager.Lib.GoMap
import TransactionManager.Types.Value
import Mathlib.Data.List.Sort

/-!
# The in-memory catalog

`internal/storage/table.go` and `catalog.go`: named tables of rows. Column declarations
are left out, the storage layer does not enforce them.
-/

namespace TransactionManager.Storage
open Lib TransactionManager.Types List

/-- `Table`: rows by key. -/
abbrev Table := GoMap GoString RowData

/-- `Catalog`: tables by name. -/
abbrev Catalog := GoMap GoString Table

namespace Table

def getRow (t : Table) (key : GoString) : Option RowData := GoMap.get t key

def putRow (t : Table) (key : GoString) (values : RowData) : Table := GoMap.set t key values

def deleteRow (t : Table) (key : GoString) : Table := GoMap.delete t key

def sortedKeys (t : Table) : List GoString := t.keys.insertionSort (· ≤ ·)

def scan (t : Table) (filter : GoString → RowData → Bool) : List (GoString × RowData) :=
  (t.entries.map fun e => (e.1, e.2)).filter fun row => filter row.1 row.2

theorem mem_sortedKeys {t : Table} {key : GoString} :
    key ∈ t.sortedKeys ↔ ∃ values, t.getRow key = some values := by
  unfold sortedKeys
  rw [mem_insertionSort]
  exact GoMap.mem_keys_iff t key

theorem mem_scan {t : Table} {filter : GoString → RowData → Bool} {key : GoString}
    {values : RowData} : (key, values) ∈ t.scan filter ↔ t.getRow key = some values ∧ filter key values = true := by
  unfold scan
  simp only [mem_filter, mem_map, Prod.mk.injEq]
  refine and_congr_left fun _ => ?_
  have stored : t.getRow key = some values ↔ ⟨key, values⟩ ∈ t.entries := AList.mem_lookup_iff
  rw [stored]
  constructor
  · rintro ⟨e, mem, rfl, rfl⟩
    exact mem
  · exact fun mem => ⟨_, mem, rfl, rfl⟩

end Table

def Catalog.lookup (c : Catalog) (name : GoString) : Option Table := GoMap.get c name

def Catalog.modify (c : Catalog) (name : GoString) (f : Table → Table) : Catalog :=
  match c.lookup name with
  | some t => GoMap.set c name (f t)
  | none => c

def Catalog.row (c : Catalog) (name key : GoString) : Option RowData := (c.lookup name).bind fun t => t.getRow key

@[simp] theorem Catalog.lookup_modify (c : Catalog) (name name' : GoString) (f : Table → Table) :
    (c.modify name f).lookup name' = if name' = name then (c.lookup name).map f else c.lookup name' := by
  unfold modify
  split
  · rename_i t found
    simp only [lookup, GoMap.get_set] at found ⊢
    split
    · simp [found]
    · rfl
  · rename_i missing
    split
    · rename_i same
      rw [same, missing]
      rfl
    · rfl

end TransactionManager.Storage
