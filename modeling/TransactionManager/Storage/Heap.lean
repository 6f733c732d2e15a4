import TransactionManager.Lib.Run
import TransactionManager.Storage.Page

/-!
# The meta page of a heap file

`internal/storage/heap.go`: the last page ID, the table name and the free list of a heap file, which
`Close` writes to page 0 and `OpenHeapFile` reads back. The free list has no bound, the page has.
-/

namespace TransactionManager.Storage
open Lib TransactionManager.Types List

/-- `HeapFile`, without the file. -/
structure HeapFile where
  tableName : GoString
  lastPageID : Nat := 0
  freeList : List Nat := []
  deriving DecidableEq

inductive MetaError where
  | tooShort
  | truncatedAtTableName
  | truncatedAtFreeList
  deriving DecidableEq

namespace HeapFile

/-- What `writeMeta` puts behind the page header, piece by piece. -/
def metaBytes (h : HeapFile) : List UInt8 := leBytes 8 h.lastPageID ++ (leBytes 2 h.tableName.length ++ (h.tableName ++
    (leBytes 2 h.freeList.length ++ h.freeList.flatMap (leBytes 8))))

/-- `writeMeta`: the bytes behind the header of page 0. A piece that does not fit the page is a panic. -/
def writeMeta (h : HeapFile) : Option (List UInt8) :=
  if h.metaBytes.length ≤ pageSize - pageHeaderSize then
    some (h.metaBytes ++ replicate (pageSize - pageHeaderSize - h.metaBytes.length) 0)
  else none

def readMeta (d : List UInt8) : Except MetaError HeapFile :=
  let nameLen := leNat ((d.drop 8).take 2)
  let rest := (d.drop 10).drop nameLen
  let freeListLen := leNat (rest.take 2)
  if d.length < 10 then .error .tooShort
  else if d.length < 10 + nameLen + 2 then .error .truncatedAtTableName
  else if d.length < 10 + nameLen + 2 + freeListLen * 8 then .error .truncatedAtFreeList
  else .ok {
    tableName := (d.drop 10).take nameLen
    lastPageID := leNat (d.take 8)
    freeList := (List.range freeListLen).map fun i => leNat (((rest.drop 2).drop (i * 8)).take 8) }

inductive Action where
  | allocatePage
  | addToFreeList (id : UInt64)
  | takeFromFreeList

/-- `AllocatePage` counts the page before it writes the meta page. `TakeFromFreeList` takes the last one. -/
def next (h : HeapFile) : Action → Option HeapFile
  | .allocatePage => some { h with lastPageID := (h.lastPageID + 1) % 2 ^ 64 }
  | .addToFreeList id => some { h with freeList := h.freeList ++ [id.toNat] }
  | .takeFromFreeList => some { h with freeList := h.freeList.dropLast }

/-- `Close` does not panic, and `OpenHeapFile` reads the same back. -/
def Restored (h : HeapFile) : Prop := ∃ d, h.writeMeta = some d ∧ readMeta d = .ok h

theorem length_metaBytes (h : HeapFile) : h.metaBytes.length = 12 + h.tableName.length + 8 * h.freeList.length := by
  simp [metaBytes, length_flatMap]
  omega

theorem map_leNat_flatMap {ids : List Nat} (small : ∀ id ∈ ids, id < 256 ^ 8) (pad : List UInt8) :
    ((List.range ids.length).map fun i => leNat (((ids.flatMap (leBytes 8) ++ pad).drop (i * 8)).take 8)) = ids := by
  induction ids with
  | nil => rfl
  | cons id ids ih =>
    obtain ⟨first, rest⟩ := forall_mem_cons.1 small
    have skip (i : Nat) : (leBytes 8 id ++ (ids.flatMap (leBytes 8) ++ pad)).drop ((i + 1) * 8) =
        (ids.flatMap (leBytes 8) ++ pad).drop (i * 8) := by
      rw [Nat.succ_mul, Nat.add_comm, ← drop_drop, drop_leBytes_append]
    rw [length_cons, range_succ_eq_map, map_cons, map_map, flatMap_cons, append_assoc]
    simp only [Function.comp_def, skip, ih rest, Nat.zero_mul, drop_zero, leNat_take_append first]

/-- Page IDs are 64 bits wide. -/
theorem restored_of_fits {h : HeapFile} (last : h.lastPageID < 256 ^ 8) (ids : ∀ id ∈ h.freeList, id < 256 ^ 8)
    (fits : 12 + h.tableName.length + 8 * h.freeList.length ≤ pageSize - pageHeaderSize) : h.Restored := by
  have size := h.length_metaBytes
  refine ⟨_, if_pos (by omega), ?_⟩
  generalize replicate _ _ = pad
  unfold pageSize pageHeaderSize at fits
  have ⟨name, count⟩ : h.tableName.length < 256 ^ 2 ∧ h.freeList.length < 256 ^ 2 := by omega
  have tail : (h.metaBytes ++ pad).drop 10 =
      h.tableName ++ (leBytes 2 h.freeList.length ++ (h.freeList.flatMap (leBytes 8) ++ pad)) := by
    simp [metaBytes, drop_append]
  unfold readMeta
  rw [tail, length_append, size]
  simp only [metaBytes, append_assoc, drop_leBytes_append, leNat_take_append last, leNat_take_append name,
    leNat_take_append count, drop_left, take_left, map_leNat_flatMap ids]
  rw [if_neg (by omega), if_neg (by omega), if_neg (by omega)]

/-- **What a heap file has in its meta page is restored exactly when it fits the page.** -/
theorem restored_iff_fits {tableName : GoString} {h : HeapFile}
    (reached : Reach HeapFile.next AnyStep { tableName } h) :
    h.Restored ↔ 12 + h.tableName.length + 8 * h.freeList.length ≤ pageSize - pageHeaderSize := by
  let Wide (h : HeapFile) := h.lastPageID < 256 ^ 8 ∧ ∀ id ∈ h.freeList, id < 256 ^ 8
  have wide : Wide h := by
    refine reached.invariant ⟨Nat.pow_pos (by decide), by simp⟩ fun h a h' wide _ taken => ?_
    obtain ⟨last, ids⟩ := wide
    cases a with
    | allocatePage =>
      cases taken
      exact ⟨Nat.mod_lt _ (by decide), ids⟩
    | addToFreeList id =>
      cases taken
      exact ⟨last, forall_mem_append.2 ⟨ids, forall_mem_singleton.2 id.toNat_lt⟩⟩
    | takeFromFreeList =>
      cases taken
      exact ⟨last, fun id mem => ids id (dropLast_subset _ mem)⟩
  refine ⟨fun ⟨d, written, _⟩ => ?_, restored_of_fits wide.1 wide.2⟩
  unfold writeMeta at written
  split at written
  · rwa [← length_metaBytes]
  · cases written

/-- A page is freed, taken and freed again. -/
theorem restored_freed : ∃ h, Reach HeapFile.next AnyStep { tableName := [97] } h ∧
    h = ⟨[97], 2, [1]⟩ ∧ h.Restored := by
  refine Reach.exists_and [.allocatePage, .allocatePage, .addToFreeList 1, .takeFromFreeList, .addToFreeList 1]
    (by decide) fun h reached eq => (restored_iff_fits reached).2 ?_
  rw [eq]
  decide

/-- With 507 free pages `Close` of the table `a` panics. -/
theorem not_restored : ∃ h, Reach HeapFile.next AnyStep { tableName := [97] } h ∧ h.writeMeta = none := by
  exact Reach.exists_such HeapFile.next AnyStep _ (replicate 507 (.addToFreeList 1)) _ (by decide +kernel)

end HeapFile

end TransactionManager.Storage
