import TransactionManager.Txn.MvccStep

/-!
# What a transaction reads

The results of `MVCCRead` and `MVCCScan` as their callers see them: the data of a row, and the
set of rows of a table. Both come from the version that the transaction sees of each row.
-/

namespace TransactionManager.Txn
open Lib TransactionManager.Types Mvcc List Manager

namespace Manager

def readRow (m : Manager) (id : Nat) (row : RowRef) : Except TxnError (Option RowData) :=
  (m.mvccRead id row).1.map fun found => found.map (·.data)

/-- `MVCCScan` returns a row with this key and data. The order of the rows is not fixed. -/
def ScanReturns (m : Manager) (id : Nat) (table : GoString) (filter : GoString → RowData → Bool)
    (key : GoString) (data : RowData) : Prop :=
  ∃ rows, (m.mvccScan id table filter).1 = .ok rows ∧ ∃ r ∈ rows, r.1 = key ∧ r.2.data = data

/-- The data of the version that a transaction sees of a row. -/
def seenData (m : Manager) (txn : Transaction) (row : RowRef) : Option RowData := (m.findVisible txn row).map (·.data)

end Manager

/-- A transaction gets the same rows in both states. -/
structure SameReads (id : Nat) (m m' : Manager) : Prop where
  read : ∀ row, m'.readRow id row = m.readRow id row
  scan : ∀ table filter key data, m'.ScanReturns id table filter key data ↔ m.ScanReturns id table filter key data

theorem SameLists.findVisible {m m' : Manager} (same : SameLists m m') (txn : Transaction) (row : RowRef) :
    m'.findVisible txn row = (m'.chain row).find? fun v => isVisible v txn.id (m.getSnapshot txn) m.statusChecker := by
  have snapshot : m'.getSnapshot txn = m.getSnapshot txn := by
    unfold getSnapshot takeSnapshot
    rw [same.txns, same.nextID]
  have checker : m'.statusChecker = m.statusChecker := by
    unfold statusChecker
    rw [same.txns, same.committed, same.aborted]
  unfold Manager.findVisible
  rw [snapshot, checker]

namespace Manager
variable {m m' : Manager} {id : Nat} {txn txn' : Transaction}

theorem readRow_of_found (found : m.txns.get id = some txn) (row : RowRef) :
    m.readRow id row = .ok (m.seenData txn row) := by
  unfold readRow mvccRead seenData
  rw [found]
  dsimp only
  cases m.findVisible txn row <;> rfl

theorem chain_of_not_mem {row : RowRef} (out : row ∉ m.mvccStore.keys) : m.chain row = [] := by
  unfold chain
  cases stored : m.mvccStore.get row with
  | none => rfl
  | some c => exact absurd ((GoMap.mem_keys_iff ..).2 ⟨c, stored⟩) out

theorem mem_keys_of_mem_chain {row : RowRef} {v : Version} (mem : v ∈ m.chain row) : row ∈ m.mvccStore.keys := by
  by_contra out
  rw [chain_of_not_mem out] at mem
  cases mem

theorem mem_keys_of_findVisible {row : RowRef} {v : Version} (hit : m.findVisible txn row = some v) :
    row ∈ m.mvccStore.keys := mem_keys_of_mem_chain (mem_of_find?_eq_some hit)

theorem scanReturns_iff (found : m.txns.get id = some txn) {table : GoString}
    {filter : GoString → RowData → Bool} {key : GoString} {data : RowData} :
    m.ScanReturns id table filter key data ↔ filter key data = true ∧ m.seenData txn (table, key) = some data := by
  unfold ScanReturns mvccScan seenData
  rw [found]
  constructor
  · rintro ⟨rows, returned, ⟨_, v⟩, mem, rfl, rfl⟩
    cases returned
    obtain ⟨visible, passes⟩ := mem_filter.1 mem
    obtain ⟨⟨table', key⟩, inTable, hit⟩ := mem_filterMap.1 visible
    obtain rfl : table' = table := by simpa using (mem_filter.1 inTable).2
    obtain ⟨w, hit, eq⟩ := Option.map_eq_some_iff.1 hit
    cases eq
    exact ⟨passes, by rw [hit]; rfl⟩
  · rintro ⟨passes, seen⟩
    obtain ⟨v, hit, rfl⟩ := Option.map_eq_some_iff.1 seen
    refine ⟨_, rfl, (key, v), mem_filter.2 ⟨mem_filterMap.2 ⟨(table, key), ?_, ?_⟩, passes⟩, rfl, rfl⟩
    · exact mem_filter.2 ⟨mem_keys_of_findVisible hit, decide_eq_true rfl⟩
    · rw [hit]
      rfl

/-- Reads and scans depend on nothing but the data seen of each row. -/
theorem sameReads_iff (found : m.txns.get id = some txn) (found' : m'.txns.get id = some txn') :
    SameReads id m m' ↔ ∀ row, m'.seenData txn' row = m.seenData txn row := by
  constructor
  · intro same row
    have read := same.read row
    rw [readRow_of_found found, readRow_of_found found'] at read
    exact Except.ok.inj read
  · intro same
    refine ⟨fun row => ?_, fun table filter key data => ?_⟩
    · rw [readRow_of_found found, readRow_of_found found', same]
    · rw [scanReturns_iff found, scanReturns_iff found', same]

/-- A transaction that has ended gets an error. -/
theorem sameReads_of_ended (ended : m.txns.get id = none) (ended' : m'.txns.get id = none) : SameReads id m m' := by
  refine ⟨fun row => ?_, fun table filter key data => ?_⟩
  · unfold readRow mvccRead
    rw [ended, ended']
  · unfold ScanReturns mvccScan
    rw [ended, ended']

end Manager

end TransactionManager.Txn
