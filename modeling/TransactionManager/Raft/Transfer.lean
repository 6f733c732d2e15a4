import TransactionManager.Raft.Agreement
import TransactionManager.Txn.SnapshotInv

/-!
# Snapshot transfer

A replica that gets a snapshot taken after entry `i` and applies the entries from there on, against one
that applies all of them. The snapshot has the catalog rows only: transactions that are open at the cut,
their locks and undo logs, the version chains and the history of ended transactions are not in it, and a
row that was deleted before the cut comes back from the seed. Where none of these matters the two replicas
agree from the cut on.
-/

namespace TransactionManager.Raft
open Lib TransactionManager.Types Txn List GoMap Option Storage

/-- What a snapshot taken after `i` commands leads to is what all commands lead to. -/
structure Transfers (seed : Manager) (cs : List Command) (i : Nat) (payload : SnapshotPayload) : Prop where
  results : (applyAll (restore seed payload) (cs.drop i)).1 = (applyAll seed cs).1.drop i
  view : SameView (applyAll seed cs).2 (applyAll (restore seed payload) (cs.drop i)).2

/-- Both managers say the same of the end of a transaction. -/
structure SameStatus (m m' : Manager) (t : Nat) : Prop where
  committed : m'.committed.contains t = m.committed.contains t
  aborted : m'.aborted.contains t = m.aborted.contains t

/-- Nothing outside the catalog rows matters at the cut: no transaction is open and no lock is held, the version
chains are those of the seed, every row of the seed is still there, the rows survive their encoding, and no later
command names a transaction that has ended by then, nor did that of the seed. -/
structure Settled (seed m : Manager) (later : List Command) : Prop where
  idle : m.txns.keys = []
  unlocked : m.lockTable = ∅
  versions : ∀ row, m.chain row = seed.chain row
  kept : ∀ row : RowRef, (seed.catalog.row row.1 row.2).isSome → (m.catalog.row row.1 row.2).isSome
  readable : ∀ (row : RowRef) values, m.catalog.row row.1 row.2 = some values →
    ∃ vs, values = some vs ∧ reencoded vs = some vs
  unnamed : ∀ c ∈ later, SameStatus m seed c.txnID
  seedTxn : SameStatus m seed 0

section Run
variable {σ : Scope} {m m' : Manager}

theorem applyAll_append (m : Manager) (cs cs' : List Command) : applyAll m (cs ++ cs') =
    ((applyAll m cs).1 ++ (applyAll (applyAll m cs).2 cs').1, (applyAll (applyAll m cs).2 cs').2) := by
  induction cs generalizing m with
  | nil => rfl
  | cons c cs ih =>
    rw [cons_append, applyAll, applyAll, ih]
    rfl

theorem length_applyAll (m : Manager) (cs : List Command) : (applyAll m cs).1.length = cs.length := by
  induction cs generalizing m with
  | nil => rfl
  | cons c cs ih => rw [applyAll, length_cons, length_cons, ih]

/-- The run lemma: managers that agree go through the commands with the same results. Every transaction
is seen, and nobody reads. -/
theorem applyAll_agree (agree : Agree σ m m') (cs : List Command) (named : ∀ c ∈ cs, σ.named c.txnID)
    (seen : ∀ t, σ.seen t) (unread : ¬ σ.reads) :
    (applyAll m' cs).1 = (applyAll m cs).1 ∧ Agree σ (applyAll m cs).2 (applyAll m' cs).2 := by
  induction cs generalizing m m' with
  | nil => exact ⟨rfl, agree⟩
  | cons c cs ih =>
    obtain ⟨same, agree⟩ := applyCommand_agree agree
      ⟨named c mem_cons_self, fun _ _ _ _ => seen c.txnID, fun reads => absurd reads unread,
        fun reads => absurd reads unread, fun reads => absurd reads unread⟩
    obtain ⟨rest, agree⟩ := ih agree fun d mem => named d (mem_cons_of_mem _ mem)
    rw [applyAll, applyAll, same, rest]
    exact ⟨rfl, agree⟩

end Run

section Seed
variable {catalog : Catalog} {rows : List (RowRef × RowData)} {maxActive : Nat} {wal : Option Wal.Log}

theorem chain_seeded {row : RowRef} {v : Mvcc.Version} (mem : v ∈ (seeded catalog rows maxActive wal).chain row) :
    v.xmin = 0 ∧ v.xmax = 0 := by
  have mem : v ∈ (MvccRun.start rows maxActive wal).mgr.chain row := mem
  obtain ⟨data, -, rfl⟩ := chain_start mem
  exact ⟨rfl, rfl⟩

theorem agree_seeded : Agree ⟨fun _ => True, fun _ => True, False, 0, seeded catalog rows maxActive wal⟩
    (seeded catalog rows maxActive wal) (seeded catalog rows maxActive wal) := by
  refine .of_idle rfl rfl rfl rfl rfl rfl (fun _ _ => rfl) (fun _ _ => rfl) (fun row => ?_) (.refl _) rfl rfl rfl
    rfl ⟨fun _ => rfl, rfl, rfl, rfl⟩
  refine forall₂_same.2 fun v mem => ?_
  exact ⟨rfl, rfl, rfl, ⟨trivial, trivial⟩, .inl (chain_seeded mem).2⟩

end Seed

section Rows
variable {row : RowRef}

/-- Writes over a catalog one after another: the last one that hits a row decides. -/
theorem foldl_row {α : Type*} {f : Catalog → α → Catalog} {hits : α → List Value → Prop}
    (tables : ∀ c a name, ((f c a).lookup name).isSome = (c.lookup name).isSome)
    (step : ∀ c a, (c.lookup row.1).isSome → (∃ vs, hits a vs ∧ (f c a).row row.1 row.2 = some (some vs)) ∨
        (∀ vs, ¬ hits a vs) ∧ (f c a).row row.1 row.2 = c.row row.1 row.2)
    (l : List α) (c : Catalog) (table : (c.lookup row.1).isSome) :
    (∃ vs, (∃ a ∈ l, hits a vs) ∧ (l.foldl f c).row row.1 row.2 = some (some vs)) ∨
      (∀ a ∈ l, ∀ vs, ¬ hits a vs) ∧ (l.foldl f c).row row.1 row.2 = c.row row.1 row.2 := by
  induction l generalizing c with
  | nil => exact .inr ⟨fun a mem => absurd mem not_mem_nil, rfl⟩
  | cons a l ih =>
    rcases ih (f c a) (by rw [tables, table]) with ⟨vs, ⟨b, mem, hit⟩, eq⟩ | ⟨missed, eq⟩
    · exact .inl ⟨vs, ⟨b, mem_cons_of_mem _ mem, hit⟩, eq⟩
    rcases step c a table with ⟨vs, hit, put⟩ | ⟨miss, same⟩
    · exact .inl ⟨vs, ⟨a, mem_cons_self, hit⟩, eq.trans put⟩
    · refine .inr ⟨fun b mem => ?_, eq.trans same⟩
      rcases mem_cons.1 mem with rfl | later
      · exact miss
      · exact missed b later

theorem isSome_lookup_restoreRow (name : GoString) (c : Catalog) (r : SnapshotRow) (name' : GoString) :
    ((restoreRow name c r).lookup name').isSome = (c.lookup name').isSome := by
  unfold restoreRow
  split
  · rfl
  · exact Manager.isSome_lookup_modify c name name' _

theorem isSome_lookup_restoreTable (c : Catalog) (t : GoString × List SnapshotRow) (name : GoString) :
    ((restoreTable c t).lookup name).isSome = (c.lookup name).isSome := by
  unfold restoreTable
  split
  · rfl
  · refine List.foldlRecOn (motive := fun c' : Catalog => (c'.lookup name).isSome = (c.lookup name).isSome)
      t.2 _ rfl fun c' same r _ => ?_
    rw [isSome_lookup_restoreRow, same]

/-- A row of a snapshot has these values for the row. -/
def SnapshotRow.Hits (row : RowRef) (name : GoString) (r : SnapshotRow) (vs : List Value) : Prop :=
  (name, r.key) = row ∧ decodeValues r.values = .ok vs

theorem row_restoreRow (name : GoString) (c : Catalog) (r : SnapshotRow) (table : (c.lookup row.1).isSome) :
    (∃ vs, r.Hits row name vs ∧ (restoreRow name c r).row row.1 row.2 = some (some vs)) ∨
      (∀ vs, ¬ r.Hits row name vs) ∧ (restoreRow name c r).row row.1 row.2 = c.row row.1 row.2 := by
  unfold restoreRow
  cases decoded : decodeValues r.values with
  | error e =>
    refine .inr ⟨fun vs hit => ?_, rfl⟩
    rw [SnapshotRow.Hits, decoded] at hit
    cases hit.2
  | ok values =>
    have put := row_putRow (name, r.key) (some values) fun _ => table
    by_cases here : row = (name, r.key)
    · exact .inl ⟨values, ⟨here.symm, decoded⟩, put.trans (if_pos here)⟩
    · exact .inr ⟨fun vs hit => here hit.1.symm, put.trans (if_neg here)⟩

theorem row_restoreTable (c : Catalog) (t : GoString × List SnapshotRow) (table : (c.lookup row.1).isSome) :
    (∃ vs, (∃ r ∈ t.2, r.Hits row t.1 vs) ∧ (restoreTable c t).row row.1 row.2 = some (some vs)) ∨
      (∀ vs, ¬ ∃ r ∈ t.2, r.Hits row t.1 vs) ∧ (restoreTable c t).row row.1 row.2 = c.row row.1 row.2 := by
  unfold restoreTable
  cases found : c.lookup t.1 with
  | none =>
    refine .inr ⟨fun vs ⟨r, mem, hit⟩ => ?_, rfl⟩
    rw [← hit.1, found] at table
    cases table
  | some _ =>
    rcases foldl_row (isSome_lookup_restoreRow t.1) (row_restoreRow t.1) t.2 c table with written | ⟨missed, same⟩
    · exact .inl written
    · exact .inr ⟨fun vs ⟨r, mem, hit⟩ => missed r mem vs hit, same⟩

/-- The payload has these values for the row. -/
def Puts (payload : SnapshotPayload) (row : RowRef) (vs : List Value) : Prop :=
  ∃ t ∈ payload, ∃ r ∈ t.2, r.Hits row t.1 vs

/-- A row after `Restore`: as in the payload, or as before when the payload does not have it. -/
theorem row_payload (payload : SnapshotPayload) (c : Catalog) (table : (c.lookup row.1).isSome) :
    (∃ vs, Puts payload row vs ∧ (payload.foldl restoreTable c).row row.1 row.2 = some (some vs)) ∨
      (∀ vs, ¬ Puts payload row vs) ∧ (payload.foldl restoreTable c).row row.1 row.2 = c.row row.1 row.2 := by
  rcases foldl_row isSome_lookup_restoreTable row_restoreTable payload c table with written | ⟨missed, same⟩
  · exact .inl written
  · exact .inr ⟨fun vs ⟨t, mem, hit⟩ => missed t mem vs hit, same⟩

theorem mem_mapM {α β : Type} {f : α → Option β} {l : List α} {r : List β} (eq : l.mapM f = some r) :
    (∀ a ∈ l, ∃ b ∈ r, f a = some b) ∧ ∀ b ∈ r, ∃ a ∈ l, f a = some b := by
  induction l generalizing r with
  | nil =>
    cases eq
    simp
  | cons a l ih =>
    rw [mapM_cons] at eq
    obtain ⟨first, here, rest⟩ := bind_eq_some_iff.1 eq
    obtain ⟨others, there, last⟩ := bind_eq_some_iff.1 rest
    cases last
    obtain ⟨images, sources⟩ := ih there
    simp only [mem_cons, exists_eq_or_imp, forall_eq_or_imp]
    exact ⟨⟨.inl here, fun x mem => .inr (images x mem)⟩, .inl here, fun y mem => .inr (sources y mem)⟩

/-- A snapshot has for each row what its encoding gives back. -/
theorem puts_snapshot {m : Manager} {payload : SnapshotPayload} (taken : snapshot m = some payload) (vs : List Value) :
    Puts payload row vs ↔ ∃ values, m.catalog.row row.1 row.2 = some values ∧ reencoded (values.getD []) = some vs := by
  obtain ⟨tables, names⟩ := mem_mapM taken
  constructor
  · rintro ⟨t, mem, r, at_r, rfl, decoded⟩
    obtain ⟨name, at_name, eq⟩ := names t mem
    obtain ⟨rows, table, rfl⟩ := map_eq_some_iff.1 eq
    obtain ⟨T, found⟩ := (mem_keys_iff _ _).1 at_name
    rw [show m.catalog.lookup name = some T from found, getD_some] at table
    obtain ⟨⟨key, values⟩, scanned, eq⟩ := (mem_mapM table).2 r at_r
    obtain ⟨bytes, encoded, rfl⟩ := map_eq_some_iff.1 eq
    refine ⟨values, ?_, ?_⟩
    · show (m.catalog.lookup name).bind _ = _
      rw [show m.catalog.lookup name = some T from found]
      exact (Table.mem_scan.1 scanned).1
    · unfold reencoded
      rw [encoded, bind_some, decoded]
      rfl
  · rintro ⟨values, stored, back⟩
    obtain ⟨T, found, at_key⟩ := bind_eq_some_iff.1 stored
    obtain ⟨bytes, encoded, back⟩ := bind_eq_some_iff.1 back
    obtain ⟨t, mem, eq⟩ := tables row.1 ((mem_keys_iff _ _).2 ⟨T, found⟩)
    obtain ⟨rows, table, rfl⟩ := map_eq_some_iff.1 eq
    rw [found, getD_some] at table
    obtain ⟨r, at_r, eq⟩ := (mem_mapM table).1 (row.2, values) (Table.mem_scan.2 ⟨at_key, rfl⟩)
    obtain ⟨bytes', encoded', rfl⟩ := map_eq_some_iff.1 eq
    refine ⟨_, mem, _, at_r, rfl, ?_⟩
    rw [encoded] at encoded'
    cases encoded'
    cases decoded : decodeValues bytes with
    | error e =>
      rw [decoded] at back
      cases back
    | ok =>
      rw [decoded] at back
      cases back
      rfl

section Restore
variable {m u : Manager} {payload data : SnapshotPayload}
  (tables : ∀ name, (m.catalog.lookup name).isSome = (u.catalog.lookup name).isSome)
  (taken : snapshot m = some payload) (order : data.Perm payload)
include tables

theorem isSome_lookup_restore (name : GoString) :
    (m.catalog.lookup name).isSome = ((restore u data).catalog.lookup name).isSome :=
  List.foldlRecOn (motive := fun c : Catalog => (m.catalog.lookup name).isSome = (c.lookup name).isSome)
    data _ (tables name) fun c same t _ => by rw [isSome_lookup_restoreTable, same]

include taken order

/-- A row after `Restore`: what its encoding gives back, or as it was. The tables of the payload come in
any order. -/
theorem row_restore (row : RowRef) : (restore u data).catalog.row row.1 row.2 =
    ((m.catalog.row row.1 row.2).bind fun values => (reencoded (values.getD [])).map some).or
      (u.catalog.row row.1 row.2) := by
  have puts (vs : List Value) : Puts data row vs ↔ Puts payload row vs := by simp only [Puts, order.mem_iff]
  cases table : (u.catalog.lookup row.1).isSome with
  | false =>
    have gone := (tables row.1).trans table
    rw [row_eq_none gone, row_eq_none table, row_eq_none ((isSome_lookup_restore tables row.1).symm.trans gone)]
    rfl
  | true =>
    rcases row_payload data u.catalog table with ⟨vs, put, eq⟩ | ⟨none, eq⟩
    · obtain ⟨values, stored, back⟩ := (puts_snapshot taken vs).1 ((puts vs).1 put)
      rw [stored, bind_some, back]
      exact eq
    · cases stored : m.catalog.row row.1 row.2 with
      | none => exact eq
      | some values =>
        rw [bind_some]
        cases back : reencoded (values.getD []) with
        | none => exact eq
        | some vs => exact absurd ((puts vs).2 ((puts_snapshot taken vs).2 ⟨values, stored, back⟩)) (none vs)

/-- `Restore` puts rows and deletes none: `u` has no row that `s` lacks, and every row of `s` survives its encoding,
or does not decode and is in `u` already. -/
structure Replaces (s u : Catalog) : Prop where
  kept : ∀ row : RowRef, (u.row row.1 row.2).isSome → (s.row row.1 row.2).isSome
  readable : ∀ (row : RowRef) values, s.row row.1 row.2 = some values →
    (∃ vs, values = some vs ∧ reencoded vs = some vs) ∨
      reencoded (values.getD []) = none ∧ u.row row.1 row.2 = some values

theorem sameRows_restore : SameRows m.catalog (restore u data).catalog ↔ Replaces m.catalog u.catalog := by
  have after := row_restore tables taken order
  constructor
  · intro same
    have rows (row : RowRef) := (same.rows row).trans (after row)
    refine ⟨fun row there => ?_, fun row values stored => ?_⟩
    · cases stored : m.catalog.row row.1 row.2 with
      | some => rfl
      | none =>
        have eq := rows row
        rw [stored] at eq
        exact eq ▸ there
    · have eq := rows row
      rw [stored, bind_some] at eq
      cases back : reencoded (values.getD []) with
      | none =>
        rw [back] at eq
        exact .inr ⟨rfl, eq.symm⟩
      | some vs =>
        rw [back] at eq
        cases eq
        exact .inl ⟨vs, rfl, back⟩
  · intro ok
    refine ⟨isSome_lookup_restore tables, fun row => ?_⟩
    rw [after]
    cases stored : m.catalog.row row.1 row.2 with
    | none =>
      cases there : u.catalog.row row.1 row.2 with
      | none => rfl
      | some =>
        have kept := ok.kept row (by rw [there]; rfl)
        rw [stored] at kept
        cases kept
    | some values =>
      rw [bind_some]
      rcases ok.readable row values stored with ⟨vs, rfl, back⟩ | ⟨back, there⟩
      · rw [getD_some, back]
        rfl
      · rw [back, there]
        rfl

/-- **`Restore` of a snapshot** succeeds, and gives the rows of the snapshot exactly when they can be
restored. -/
theorem restore_snapshot_iff (seed : Manager) : (∃ u' : Manager,
    (txnManagerFSM seed).restore data u = (true, u') ∧ SameRows m.catalog u'.catalog) ↔
      Replaces m.catalog u.catalog := by
  rw [← sameRows_restore tables taken order]
  constructor
  · rintro ⟨u', ⟨⟩, same⟩
    exact same
  · exact fun same => ⟨_, rfl, same⟩

end Restore

end Rows

section Transfer
variable {catalog : Catalog} {rows : List (RowRef × RowData)} {maxActive : Nat} {wal : Option Wal.Log}

/-- At a settled cut the restored seed agrees with the manager the snapshot was taken of. -/
theorem agree_restore {m : Manager} {later : List Command} {payload : SnapshotPayload}
    (stable : Stable (seeded catalog rows maxActive wal) m) (idle : m.ssiTracker = {})
    (settled : Settled (seeded catalog rows maxActive wal) m later) (taken : snapshot m = some payload) :
    Agree ⟨SameStatus m (seeded catalog rows maxActive wal), fun _ => True, False, 0,
        seeded catalog rows maxActive wal⟩ m
      (restore (seeded catalog rows maxActive wal) payload) := by
  have same := (sameRows_restore stable.tables taken (.refl _)).2
    ⟨settled.kept, fun row values stored => .inl (settled.readable row values stored)⟩
  refine .of_idle settled.idle rfl settled.unlocked rfl idle rfl (fun t named => named.committed)
    (fun t named => named.aborted) (fun row => ?_) same stable.maxActive.symm stable.wal.symm stable.nextID.symm rfl stable
  rw [settled.versions row]
  refine forall₂_same.2 fun v mem => ?_
  obtain ⟨creator, live⟩ := chain_seeded mem
  refine ⟨rfl, rfl, rfl, ⟨?_, trivial⟩, .inl live⟩
  rw [creator]
  exact settled.seedTxn

/-- Cut off what belongs to the first `i` of `n`. -/
theorem drop_append_eq {α : Type*} {l l' : List α} {i n : Nat} (before : l.length = min i n)
    (after : l'.length = n - i) : (l ++ l').drop i = l' := by
  rw [drop_append, drop_eq_nil_of_le (by omega), nil_append]
  by_cases le : i ≤ n
  · rw [show i - l.length = 0 by omega, drop_zero]
  · rw [eq_nil_of_length_eq_zero (show l'.length = 0 by omega), drop_nil]

/-- **A snapshot taken where only the catalog rows matter** leads to the results, the catalog rows and the visible
rows of the whole sequence. -/
theorem transfers_of_settled {cs : List Command} {i : Nat} {payload : SnapshotPayload}
    (settled : Settled (seeded catalog rows maxActive wal)
      (applyAll (seeded catalog rows maxActive wal) (cs.take i)).2 (cs.drop i))
    (taken : snapshot (applyAll (seeded catalog rows maxActive wal) (cs.take i)).2 = some payload) :
    Transfers (seeded catalog rows maxActive wal) cs i payload := by
  obtain ⟨-, cut⟩ := applyAll_agree agree_seeded (cs.take i) (fun _ _ => trivial) (fun _ => trivial) id
  obtain ⟨results, last⟩ := applyAll_agree (agree_restore cut.stable cut.tracker settled taken)
    (cs.drop i) settled.unnamed (fun _ => trivial) id
  have whole := applyAll_append (seeded catalog rows maxActive wal) (cs.take i) (cs.drop i)
  rw [take_append_drop] at whole
  refine ⟨?_, ?_⟩
  · rw [whole, results]
    exact (drop_append_eq ((length_applyAll ..).trans length_take) ((length_applyAll ..).trans length_drop)).symm
  · rw [whole]
    exact sameView_of_agree last

end Transfer

def oneTable (values : RowData) : Catalog := GoMap.set ∅ [97] (GoMap.set ∅ [49] values)

theorem row_oneTable (values : RowData) (row : RowRef) :
    (oneTable values).row row.1 row.2 = if row = ([97], [49]) then some values else none := by
  obtain ⟨name, key⟩ := row
  unfold oneTable Catalog.row Catalog.lookup
  by_cases table : name = [97]
  · subst table
    by_cases here : key = [49] <;> simp [Table.getRow, here]
  · simp [table]

def oneRowServer : Manager := seeded (oneTable (some [intVal 1])) [] 0 none

def writes (txnID : Nat) (op : UInt8) : List Command := [{ type := .begin, txnID },
    { type := .write, txnID, table := [97], rowKey := [49], op, after := (encodeValues [intVal 2]).getD [] },
    { type := .commit, txnID }]

def snapshotOf (m : Manager) : SnapshotPayload := (snapshot m).getD []

theorem kept_oneTable (values values' : RowData) (row : RowRef)
    (there : ((oneTable values).row row.1 row.2).isSome) : ((oneTable values').row row.1 row.2).isSome := by
  rw [row_oneTable] at there ⊢
  split at there
  · rename_i here
    rw [if_pos here]
    rfl
  · cases there

theorem of_row_oneTable {values values' : RowData} {row : RowRef}
    (stored : (oneTable values).row row.1 row.2 = some values') : values' = values := by
  rw [row_oneTable] at stored
  split at stored
  · exact (some.inj stored).symm
  · cases stored

theorem isSome_lookup_single (t t' : Table) (name : GoString) : (Catalog.lookup (GoMap.set ∅ [97] t) name).isSome =
      (Catalog.lookup (GoMap.set ∅ [97] t') name).isSome := by
  unfold Catalog.lookup
  rw [get_set, get_set]
  split <;> rfl

theorem settled_between : Settled oneRowServer (applyAll oneRowServer (writes 1 1)).2 (writes 2 1) := by
  have stored : (applyAll oneRowServer (writes 1 1)).2.catalog = oneTable (some [intVal 2]) := by rfl
  refine ⟨by rfl, by rfl, fun row => by rfl, stored ▸ kept_oneTable _ _, fun row values eq => ?_, fun c mem => ?_,
    ⟨by decide, by decide⟩⟩
  · rw [stored] at eq
    exact ⟨_, of_row_oneTable eq, by decide⟩
  · have own : c.txnID = 2 := by
      revert c
      decide
    rw [own]
    exact ⟨by decide, by decide⟩

/-- A snapshot between two transactions. -/
theorem transfers_between : ∃ payload, snapshot (applyAll oneRowServer (writes 1 1)).2 = some payload ∧
    Transfers oneRowServer (writes 1 1 ++ writes 2 1) 3 payload :=
  ⟨snapshotOf (applyAll oneRowServer (writes 1 1)).2, by decide, transfers_of_settled settled_between (by decide)⟩

/-- The other value of the row is replaced. -/
theorem restore_snapshot_oneTable : ∃ u' : Manager,
    (txnManagerFSM oneRowServer).restore (snapshotOf oneRowServer) (seeded (oneTable none) [] 0 none) = (true, u') ∧
      SameRows oneRowServer.catalog u'.catalog :=
  (restore_snapshot_iff (isSome_lookup_single _ _) (by decide) (.refl _) _).2
    ⟨kept_oneTable _ _, fun _ _ stored => .inl ⟨_, of_row_oneTable stored, by decide⟩⟩

/-- A row that the snapshot does not have stays. -/
theorem not_restore_snapshot : ¬ ∀ (m u : Manager) payload,
    (∀ name, (m.catalog.lookup name).isSome = (u.catalog.lookup name).isSome) →
    snapshot m = some payload → SameRows m.catalog (restore u payload).catalog := by
  intro restores
  have same := (restores (seeded (GoMap.set ∅ [97] ∅) [] 0 none) oneRowServer [([97], [])]
    (isSome_lookup_single _ _) (by decide)).rows ([97], [49])
  revert same
  decide

/-- A row that was deleted before the cut is back after it, and the commit of a transaction that was open
at the cut fails after it. -/
theorem not_transfers : (¬ ∀ catalog rows maxActive wal cs i payload, i ≤ cs.length →
      snapshot (applyAll (seeded catalog rows maxActive wal) (cs.take i)).2 = some payload →
      SameView (applyAll (seeded catalog rows maxActive wal) cs).2
        (applyAll (restore (seeded catalog rows maxActive wal) payload) (cs.drop i)).2) ∧
    ¬ ∀ catalog rows maxActive wal cs i payload, i ≤ cs.length →
      snapshot (applyAll (seeded catalog rows maxActive wal) (cs.take i)).2 = some payload →
      (applyAll (restore (seeded catalog rows maxActive wal) payload) (cs.drop i)).1 =
        (applyAll (seeded catalog rows maxActive wal) cs).1.drop i := by
  constructor
  · intro transfers
    have same := (transfers (oneTable (some [intVal 1])) [] 0 none (writes 1 2) 3
      (snapshotOf (applyAll oneRowServer (writes 1 2)).2) (by decide) (by decide)).rows.rows ([97], [49])
    revert same
    decide
  · intro transfers
    have same := transfers (oneTable (some [intVal 1])) [] 0 none (writes 1 1) 2
      (snapshotOf (applyAll oneRowServer ((writes 1 1).take 2)).2) (by decide) (by decide)
    revert same
    decide

end TransactionManager.Raft
