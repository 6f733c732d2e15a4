import TransactionManager.Raft.LockBooks
import TransactionManager.Raft.Transfer
import TransactionManager.Txn.Scan

/-!
# Replica determinism

Two managers with the same seed apply the same entries; one of them leads and does what never goes through
the log: it allocates IDs, serves reads and scans, creates savepoints and rolls back to them. These calls
leave traces that the entries run into: the counter that snapshots are taken from, read locks, recorded
reads, and the undone writes themselves. Where an entry meets no such trace, both managers return the same
from it, have the same rows and show the same versions to a reader that begins.
-/

namespace TransactionManager.Txn
open Lib TransactionManager.Types Lock List

namespace Manager

/-- Lock requests one after another while nothing else runs, up to the first that times out. -/
def acquireAll (m : Manager) (txn : Transaction) : List LockRequest → Bool × Manager × Transaction
  | [] => (true, m, txn)
  | (r, mode) :: rest =>
    match m.acquireOrTimeout txn r mode with
    | (false, m, txn) => (false, m, txn)
    | (true, m, txn) => m.acquireAll txn rest

/-- `TwoPLRead`. A read that waits behaves like one that is called when its lock becomes free. -/
def twoPLReadCall (m : Manager) (txn : Transaction) (row : RowRef) : Except TxnError (Option RowData) × Manager :=
  let locks := if txn.isolation = .readUncommitted then [] else [(.table row.1, .is), (.row row.1 row.2, .s)]
  match m.acquireAll txn locks with
  | (false, m, _) => (.error .lockTimeout, m)
  | (true, m, _) =>
    match m.catalog.lookup row.1 with
    | none => (.error (.tableNotFound row.1), m)
    | some t => (.ok (t.getRow row.2), m)

/-- `LockForRangeScan`, which `TwoPLScan` calls for the whole table. -/
def lockRange (m : Manager) (txn : Transaction) (table lo hi : GoString) : Types.Outcome × Manager :=
  match m.acquireAll txn [(.table table, .is)] with
  | (false, m, _) => (.err .lockTimeout, m)
  | (true, m, txn) =>
    match m.catalog.lookup table with
    | none => (.err (.tableNotFound table), m)
    | some t =>
      match m.acquireAll txn (lockForRangeScan table lo hi t.sortedKeys) with
      | (false, m, _) => (.err .lockTimeout, m)
      | (true, m, _) => (.ok, m)

/-- The locks of `TwoPLScan`, by isolation level. -/
def lockForScan (m : Manager) (txn : Transaction) (table : GoString) : Types.Outcome × Manager :=
  match txn.isolation with
  | .serializable => m.lockRange txn table [] []
  | .repeatableRead =>
    let r := m.acquireAll txn [(.table table, .s)]
    (if r.1 then .ok else .err .lockTimeout, r.2.1)
  | .readCommitted =>
    let r := m.acquireAll txn [(.table table, .is)]
    (if r.1 then .ok else .err .lockTimeout, r.2.1)
  | .readUncommitted => (.ok, m)

def twoPLScanCall (m : Manager) (txn : Transaction) (table : GoString) (filter : RowFilter) :
    Except TxnError (List (GoString × RowData)) × Manager :=
  match m.lockForScan txn table with
  | (.err e, m) => (.error e, m)
  | (_, m) =>
    match m.catalog.lookup table with
    | none => (.error (.tableNotFound table), m)
    | some t => (.ok (t.scan filter), m)

end Manager

/-- A read lock that is asked for where it fits. -/
def ReadRequest (request : LockRequest) : Prop := request.2.For request.1 ∧ request.2.isWrite = false

theorem readRequest_rangeLocks (table lo hi prev : GoString) (keys : List GoString) :
    ∀ request ∈ (rangeLocks table lo hi prev keys).1, ReadRequest request := by
  induction keys generalizing prev with
  | nil => exact nofun
  | cons k keys ih =>
    unfold rangeLocks
    split
    · intro request mem
      rcases mem_cons.1 mem with rfl | mem
      · exact ⟨rfl, rfl⟩
      · rcases mem_cons.1 mem with rfl | mem
        · exact ⟨.inl rfl, rfl⟩
        · exact ih k request mem
    · exact ih _

theorem readRequest_lockForRangeScan (table lo hi : GoString) (keys : List GoString) :
    ∀ request ∈ lockForRangeScan table lo hi keys, ReadRequest request :=
  forall_mem_append.2 ⟨readRequest_rangeLocks table lo hi [] keys, forall_mem_singleton.2 ⟨rfl, rfl⟩⟩

theorem rel_imp {α β : Type*} {R S : α → β → Prop} (imp : ∀ a b, R a b → S a b) {a : Option α} {b : Option β}
    (rel : Option.Rel R a b) : Option.Rel S a b := by
  cases rel with
  | none => exact .none
  | some rel => exact .some (imp _ _ rel)

namespace Agree
variable {σ : Scope} {m m' : Manager} {txn txn' : Transaction} {id : Nat}

/-! What the second manager does on its own. -/

section
variable (agree : Agree σ m m')
include agree

theorem putRight (found : m.txns.get txn'.id = some txn) (copy : TxnCopy σ txn txn') : Agree σ m (m'.putTxn txn') := by
  refine { agree with
    keys := ?_
    txns := fun t => ?_ }
  · show (m'.txns.set txn'.id txn').keys.Perm m.txns.keys
    rw [GoMap.set, AList.keys_insert]
    obtain ⟨_, there, -⟩ := agree.found found
    exact (perm_cons_erase ((GoMap.mem_keys_iff _ _).2 ⟨_, there⟩)).symm.trans agree.keys
  · show Option.Rel _ (m.txns.get t) ((m'.txns.set txn'.id txn').get t)
    rw [GoMap.get_set]
    split
    · rename_i here
      rw [here, found]
      exact .some copy
    · exact agree.txns t

section
variable (reads : σ.reads)
include reads

section
variable (found : m.txns.get txn'.id = some txn)
include found

section
variable (copy : TxnCopy σ txn txn')
include copy

theorem acquireRead {request : LockRequest} (asked : ReadRequest request) :
    Agree σ m (m'.acquireOrTimeout txn' request.1 request.2).2.1 ∧
      TxnCopy σ txn (m'.acquireOrTimeout txn' request.1 request.2).2.2 := by
  obtain ⟨queues, helds⟩ := acquireAlone_read (t := txn'.id) (agree.locks request.1) copy.locksHeld asked.1 asked.2
  have copy' : TxnCopy σ txn (m'.acquireOrTimeout txn' request.1 request.2).2.2 :=
    { copy with
      locksHeld := helds
      unread := .inl reads }
  refine ⟨?_, copy'⟩
  have locks (r : ResourceID) : QueueCopy r ({ m with lockTable := m.lockTable }.queue r.name)
      ((m'.setQueue request.1.name (acquireAlone (m'.queue request.1.name) txn'.locksHeld txn'.id request.1
        request.2).2.1).queue r.name) := by
    rw [Manager.queue_setQueue, Function.update_apply]
    split
    · rename_i name
      have here := queues.of_name name
      rwa [← congrArg m.queue name] at here
    · exact agree.locks r
  exact (agree.setLocks locks (.inl reads)).putRight found copy'

theorem acquireAll {requests : List LockRequest} (asked : ∀ request ∈ requests, ReadRequest request) :
    Agree σ m (m'.acquireAll txn' requests).2.1 ∧ TxnCopy σ txn (m'.acquireAll txn' requests).2.2 ∧
      (m'.acquireAll txn' requests).2.2.id = txn'.id := by
  induction requests generalizing m' txn' with
  | nil => exact ⟨agree, copy, rfl⟩
  | cons request _ ih =>
    obtain ⟨r, mode⟩ := request
    have first := agree.acquireRead reads found copy (asked _ mem_cons_self)
    have own : (m'.acquireOrTimeout txn' r mode).2.2.id = txn'.id := rfl
    unfold Manager.acquireAll
    generalize m'.acquireOrTimeout txn' r mode = done at first own ⊢
    obtain ⟨got, m₁, txn₁⟩ := done
    cases got with
    | false => exact ⟨first.1, first.2, own⟩
    | true =>
      rw [← own]
      exact ih first.1 (by rw [own]; exact found) first.2 fun request mem => asked request (mem_cons_of_mem _ mem)

theorem twoPLReadCall (row : RowRef) : Agree σ m (m'.twoPLReadCall txn' row).2 := by
  have asked : ∀ request ∈ (if txn'.isolation = .readUncommitted then []
      else [(.table row.1, .is), (.row row.1 row.2, .s)] : List LockRequest), ReadRequest request := by
    split
    · exact nofun
    · intro request mem
      rcases mem_cons.1 mem with rfl | mem
      · exact ⟨.inl rfl, rfl⟩
      · rw [mem_singleton.1 mem]
        exact ⟨.inl rfl, rfl⟩
  have locked := (agree.acquireAll reads found copy asked).1
  unfold Manager.twoPLReadCall
  dsimp only
  generalize m'.acquireAll txn' _ = done at locked ⊢
  obtain ⟨got, m₁, txn₁⟩ := done
  cases got with
  | false => exact locked
  | true =>
    dsimp only
    split <;> exact locked

theorem lockRange (table lo hi : GoString) : Agree σ m (m'.lockRange txn' table lo hi).2 := by
  have asked : ∀ request ∈ ([(.table table, .is)] : List LockRequest), ReadRequest request := by
    intro request mem
    rw [mem_singleton.1 mem]
    exact ⟨.inl rfl, rfl⟩
  obtain ⟨locked, copied, own⟩ := agree.acquireAll reads found copy asked
  unfold Manager.lockRange
  generalize m'.acquireAll txn' [(.table table, .is)] = done at locked copied own ⊢
  obtain ⟨got, m₁, txn₁⟩ := done
  cases got with
  | false => exact locked
  | true =>
    dsimp only
    split
    · exact locked
    rename_i t _
    have all := (locked.acquireAll reads (by rw [own]; exact found) copied
      (readRequest_lockForRangeScan table lo hi t.sortedKeys)).1
    generalize m₁.acquireAll txn₁ _ = done at all ⊢
    obtain ⟨got, m₂, txn₂⟩ := done
    cases got <;> exact all

theorem lockForScan (table : GoString) : Agree σ m (m'.lockForScan txn' table).2 := by
  have one {mode : Mode} (fits : mode.For (.table table)) (read : mode.isWrite = false) :
      Agree σ m (m'.acquireAll txn' [(.table table, mode)]).2.1 := by
    refine (agree.acquireAll reads found copy fun request mem => ?_).1
    rw [mem_singleton.1 mem]
    exact ⟨fits, read⟩
  unfold Manager.lockForScan
  cases txn'.isolation with
  | serializable => exact agree.lockRange reads found copy table [] []
  | repeatableRead => exact one (.inr (.inr rfl)) rfl
  | readCommitted => exact one (.inl rfl) rfl
  | readUncommitted => exact agree

theorem twoPLScanCall (table : GoString) (filter : RowFilter) : Agree σ m (m'.twoPLScanCall txn' table filter).2 := by
  have locked := agree.lockForScan reads found copy table
  unfold Manager.twoPLScanCall
  generalize m'.lockForScan txn' table = done at locked ⊢
  obtain ⟨o, m₁⟩ := done
  cases o with
  | err e => exact locked
  | ok | panicked =>
    dsimp only
    split <;> exact locked

end

end

theorem recordRead (txn : Transaction) (row : RowRef) : Agree σ m (m'.recordRead txn row) := by
  unfold Manager.recordRead
  split
  · exact agree.setTracker (.inl reads)
  · exact agree

theorem mvccRead (id : Nat) (row : RowRef) : Agree σ m (m'.mvccRead id row).2 := by
  unfold Manager.mvccRead
  split
  · exact agree
  · split
    · exact agree
    · exact agree.recordRead reads _ _

theorem mvccScan (id : Nat) (table : GoString) (filter : RowFilter) : Agree σ m (m'.mvccScan id table filter).2 := by
  unfold Manager.mvccScan
  split
  · exact agree
  · rename_i txn _
    exact List.foldlRecOn (motive := fun after => Agree σ m after) (m'.visibleRows txn table) _ agree
      fun _ agree r _ => agree.recordRead reads txn (table, r.1)

end

theorem createSavepoint (id : Nat) (name : GoString) : Agree σ m (m'.createSavepoint id name).2 := by
  unfold Manager.createSavepoint
  cases found : m.txns.get id with
  | none =>
    rw [agree.missing found]
    exact agree
  | some txn =>
    obtain ⟨txn', found', copy⟩ := agree.found found
    rw [found']
    have own : txn'.id = id := copy.id.trans (agree.keyed id txn found)
    have here : m.txns.get txn'.id = some txn := by rw [own, found]
    exact agree.putRight here { copy with }

theorem rollbackToSavepoint (id : Nat) (name : GoString)
    (nothing : ∀ txn ∈ m'.txns.get id, ∀ sp ∈ txn.savepoint? name, txn.undoLog.length ≤ sp.undoPosition) :
    Agree σ m (m'.rollbackToSavepoint id name).2 := by
  unfold Manager.rollbackToSavepoint
  cases found : m.txns.get id with
  | none =>
    rw [agree.missing found]
    exact agree
  | some txn =>
    obtain ⟨txn', found', copy⟩ := agree.found found
    rw [found']
    have own : txn'.id = id := copy.id.trans (agree.keyed id txn found)
    dsimp only
    cases saved : txn'.savepoint? name with
    | none => exact agree
    | some sp =>
      have beyond := nothing txn' found' sp saved
      dsimp only
      rw [drop_eq_nil_of_le beyond, take_of_length_le beyond]
      have put : Agree σ m (m'.putTxn txn') := agree.putRight (by rw [own, found]) copy
      split <;> exact put

/-- `AllocateTxnID` moves the second counter on: from then on, only what both counters have passed is placed alike. -/
theorem allocateTxnID (passed : ∀ t ≤ m.nextID, σ.seen t) (le : m.nextID ≤ m'.nextID)
    (versions : ∀ row, ∀ v ∈ m.chain row, v.xmin ≤ m.nextID ∧ v.xmax ≤ m.nextID) :
    Agree { σ with seen := (· ≤ m.nextID), counter := m'.nextID + 1 } m m'.allocateTxnID.2 := by
  refine { agree with
    txns := fun t => ?_
    chains := fun row => ?_
    nextID := .inr fun t seen => ⟨seen, Nat.le_succ_of_le (Nat.le_trans seen le)⟩
    counter := rfl }
  · refine rel_imp (fun a b copy => { copy with snapshot := rel_imp (fun s s' same => ?_) copy.snapshot }) (agree.txns t)
    exact ⟨fun t seen => same.contains t (passed t seen), fun t seen => same.xmin t (passed t seen),
      fun t seen => same.xmax t (passed t seen)⟩
  · have within := versions row
    have copies := agree.chains row
    show List.Forall₂ _ (m.chain row) (m'.chain row)
    generalize m.chain row = c, m'.chain row = c' at within copies ⊢
    induction copies with
    | nil => exact .nil
    | cons copy _ ih =>
      obtain ⟨creator, deleter⟩ := within _ mem_cons_self
      exact .cons { copy with creator := ⟨copy.creator.1, creator⟩, deleter := copy.deleter.imp_right fun d => ⟨d.1, deleter⟩ }
        (ih fun v mem => within v (mem_cons_of_mem _ mem))

end

end Agree

end TransactionManager.Txn

namespace TransactionManager.Raft
open Lib TransactionManager.Types Lock Txn

def ApplyResult.succeeded (r : ApplyResult) : Bool := r = .call .ok

/-- Two managers and what each returned from the entries. -/
structure Replicas where
  follower : Manager
  leader : Manager
  results : List (ApplyResult × ApplyResult) := []

/-- An entry is applied on both, or the leader does something on its own. -/
inductive ReplicaAction where
  | apply (c : Command)
  | allocateTxnID
  | twoPLRead (id : Nat) (row : RowRef)
  | twoPLScan (id : Nat) (table : GoString) (filter : RowFilter)
  | mvccRead (id : Nat) (row : RowRef)
  | mvccScan (id : Nat) (table : GoString) (filter : RowFilter)
  | createSavepoint (id : Nat) (name : GoString)
  | rollbackToSavepoint (id : Nat) (name : GoString)

namespace Replicas

def start (catalog : Storage.Catalog) (rows : List (RowRef × RowData)) (maxActive : Nat) (wal : Option Wal.Log)
    (nextID : Nat) : Replicas where
  follower := { seeded catalog rows maxActive wal with nextID }
  leader := { seeded catalog rows maxActive wal with nextID }

/-- The leader's own calls. The handlers look the transaction up first. -/
def lead (m : Manager) : ReplicaAction → Manager
  | .apply _ => m
  | .allocateTxnID => m.allocateTxnID.2
  | .twoPLRead id row =>
    match m.txns.get id with
    | some txn => (m.twoPLReadCall txn row).2
    | none => m
  | .twoPLScan id table filter =>
    match m.txns.get id with
    | some txn => (m.twoPLScanCall txn table filter).2
    | none => m
  | .mvccRead id row => (m.mvccRead id row).2
  | .mvccScan id table filter => (m.mvccScan id table filter).2
  | .createSavepoint id name => (m.createSavepoint id name).2
  | .rollbackToSavepoint id name => (m.rollbackToSavepoint id name).2

def next (s : Replicas) : ReplicaAction → Option Replicas
  | .apply c =>
    let (r, follower) := applyCommand s.follower c
    let (r', leader) := applyCommand s.leader c
    some ⟨follower, leader, s.results ++ [(r, r')]⟩
  | a => some { s with leader := lead s.leader a }

/-- The same success or failure from each entry, the same rows in the catalog, and the same rows for a
reader that begins now. -/
structure Alike (s : Replicas) : Prop where
  results : ∀ r ∈ s.results, r.2.succeeded = r.1.succeeded
  view : SameView s.follower s.leader

/-- The versions are all by transactions that the follower's counter has passed. -/
def Counted (m : Manager) : Prop := ∀ row ∈ m.mvccStore.keys, ∀ v ∈ m.chain row, v.xmin ≤ m.nextID ∧ v.xmax ≤ m.nextID

/-- Only the transaction itself holds the table or the row in S. -/
def Unread (m : Manager) (c : Command) : Prop := ∀ r ∈ [ResourceID.table c.table, ResourceID.row c.table c.rowKey],
    ∀ g ∈ (m.queue r.name).granted, g.mode = .s → g.txnID = c.txnID

/-- An entry that meets no trace of the leader's own calls: a begin is of a transaction that is not open, a 2PL write
finds no S lock of another transaction on the leader, an MVCC write is by a transaction that the follower's counter
has passed, unless the counters are the same, and a commit is of no pivot of the recorded reads. -/
def HarmlessEntry (s : Replicas) (c : Command) : Prop :=
  match c.type with
  | .begin => (s.leader.txns.get c.txnID).isNone
  | .write => ∀ txn ∈ s.leader.txns.get c.txnID, (txn.protocol = .twoPL → Unread s.leader c) ∧
      (txn.protocol = .mvcc → c.txnID ≤ s.follower.nextID ∨ s.leader.nextID = s.follower.nextID)
  | .commit => ∀ txn ∈ s.leader.txns.get c.txnID, txn.protocol = .mvcc → txn.isolation = .serializable →
      s.leader.ssiTracker.isPivotLocked c.txnID = false
  | .noop | .abort | .other _ => True

/-- The condition on the steps: besides the entries, an ID is allocated when all versions are by transactions
that the follower's counter has passed, and a rollback has nothing to undo. -/
def Harmless (s : Replicas) : ReplicaAction → Prop
  | .apply c => s.HarmlessEntry c
  | .allocateTxnID => Counted s.follower
  | .rollbackToSavepoint id name => ∀ txn ∈ s.leader.txns.get id, ∀ sp ∈ txn.savepoint? name,
      txn.undoLog.length ≤ sp.undoPosition
  | _ => True

/-- A scope for a leader that has allocated nothing, or whose counter is past the follower's. -/
structure LeaderScope (σ : Scope) : Prop where
  named : ∀ t, σ.named t
  reads : σ.reads
  seen : (σ.counter = σ.base.nextID ∧ ∀ t, σ.seen t) ∨ σ.base.nextID < σ.counter ∧ ∀ t ≤ σ.base.nextID, σ.seen t

/-- The invariant: the managers agree, the follower's grants are backed, and each entry returned the same. -/
structure Paired (s : Replicas) : Prop where
  agree : ∃ σ, LeaderScope σ ∧ Agree σ s.follower s.leader
  backed : s.follower.Backed
  results : ∀ r ∈ s.results, r.2 = r.1

section
variable {s s' : Replicas} {σ : Scope}

theorem LeaderScope.passed (scope : LeaderScope σ) {t : Nat} (le : t ≤ σ.base.nextID) : σ.seen t :=
  scope.seen.elim (fun same => same.2 t) fun past => past.2 t le

theorem inScope_of_harmless (scope : LeaderScope σ) (agree : Agree σ s.follower s.leader) (backed : s.follower.Backed)
    {c : Command} (harmless : s.HarmlessEntry c) : InScope σ s.follower s.leader c := by
  unfold HarmlessEntry at harmless
  have leads {txn : Transaction} (found : s.follower.txns.get c.txnID = some txn) :
      ∃ txn' ∈ s.leader.txns.get c.txnID, txn'.protocol = txn.protocol ∧ txn'.isolation = txn.isolation := by
    obtain ⟨txn', found', copy⟩ := agree.found found
    exact ⟨txn', found', copy.protocol, copy.isolation⟩
  refine ⟨scope.named _, fun kind txn found mvcc => ?_, fun _ kind txn found twoPL => ?_,
    fun _ _ txn found _ r granted => ?_, fun _ kind txn found mvcc level => ?_⟩
  · rw [kind] at harmless
    obtain ⟨txn', found', protocol, -⟩ := leads found
    rcases scope.seen with ⟨-, all⟩ | ⟨past, below⟩
    · exact all _
    · have := agree.counter
      have := agree.stable.nextID
      rcases (harmless txn' found').2 (protocol.trans mvcc) with counted | same
      · exact below _ (by omega)
      · omega
  · rw [kind] at harmless
    obtain ⟨txn', found', protocol, -⟩ := leads found
    exact (harmless txn' found').1 (protocol.trans twoPL)
  · obtain ⟨g, mem, own⟩ := granted
    obtain ⟨txn', found', -, named⟩ := backed r g mem
    rw [own, found] at found'
    cases found'
    exact named
  · rw [kind] at harmless
    obtain ⟨txn', found', protocol, isolation⟩ := leads found
    exact harmless txn' found' (protocol.trans mvcc) (isolation.trans level)

theorem Paired.apply (paired : s.Paired) {c : Command} (harmless : s.HarmlessEntry c) :
    Paired ⟨(applyCommand s.follower c).2, (applyCommand s.leader c).2,
      s.results ++ [((applyCommand s.follower c).1, (applyCommand s.leader c).1)]⟩ := by
  obtain ⟨⟨σ, scope, agree⟩, backed, results⟩ := paired
  obtain ⟨same, agree'⟩ := applyCommand_agree agree (inScope_of_harmless scope agree backed harmless)
  refine ⟨⟨σ, scope, agree'⟩, ?_, fun r mem => ?_⟩
  · refine applyCommand_backed backed agree.keyed agree.tracker (fun r => (agree.locks r).fst.idle) fun kind => ?_
    unfold HarmlessEntry at harmless
    rw [kind] at harmless
    cases found : s.follower.txns.get c.txnID with
    | none => rfl
    | some txn =>
      obtain ⟨txn', found', -⟩ := agree.found found
      rw [found'] at harmless
      cases harmless
  · rcases List.mem_append.1 mem with before | new
    · exact results r before
    · rw [List.mem_singleton.1 new]
      exact same

/-- The leader's own calls keep the managers in agreement. -/
theorem Paired.lead (paired : s.Paired) {a : ReplicaAction} (harmless : s.Harmless a) :
    Paired { s with leader := lead s.leader a } := by
  obtain ⟨⟨σ, scope, agree⟩, backed, results⟩ := paired
  have reads := scope.reads
  have here {leader : Manager} (agree : Agree σ s.follower leader) : Paired { s with leader } :=
    ⟨⟨σ, scope, agree⟩, backed, results⟩
  have called {id : Nat} {f : Transaction → Manager}
      (call : ∀ txn txn', s.leader.txns.get id = some txn' → s.follower.txns.get txn'.id = some txn →
        TxnCopy σ txn txn' → Agree σ s.follower (f txn')) :
      Paired { s with leader := match s.leader.txns.get id with
        | some txn => f txn
        | none => s.leader } := by
    cases found : s.follower.txns.get id with
    | none =>
      rw [agree.missing found]
      exact here agree
    | some txn =>
      obtain ⟨txn', found', copy⟩ := agree.found found
      have own : txn'.id = id := copy.id.trans (agree.keyed id txn found)
      have call := call txn txn' found' (by rw [own, found]) copy
      rw [found']
      exact here call
  cases a with
  | apply c => exact here agree
  | allocateTxnID =>
    have counter := agree.counter
    have base := agree.stable.nextID
    have le : σ.base.nextID ≤ σ.counter := by
      rcases scope.seen with ⟨same, -⟩ | ⟨past, -⟩ <;> omega
    have versions (row : RowRef) (v : Mvcc.Version) (mem : v ∈ s.follower.chain row) :
        v.xmin ≤ s.follower.nextID ∧ v.xmax ≤ s.follower.nextID := by
      refine harmless row ?_ v mem
      by_contra out
      rw [Manager.chain_of_not_mem out] at mem
      cases mem
    have allocated := agree.allocateTxnID (fun t le => scope.passed (by omega)) (by omega) versions
    refine ⟨⟨_, ?_, allocated⟩, backed, results⟩
    refine ⟨scope.named, reads, .inr ⟨?_, fun t le => ?_⟩⟩
    · show σ.base.nextID < s.leader.nextID + 1
      omega
    · have : t ≤ σ.base.nextID := le
      omega
  | twoPLRead id row => exact called fun txn txn' _ found copy => agree.twoPLReadCall reads found copy row
  | twoPLScan id table filter =>
    exact called fun txn txn' _ found copy => agree.twoPLScanCall reads found copy table filter
  | mvccRead id row => exact here (agree.mvccRead reads id row)
  | mvccScan id table filter => exact here (agree.mvccScan reads id table filter)
  | createSavepoint id name => exact here (agree.createSavepoint id name)
  | rollbackToSavepoint id name => exact here (agree.rollbackToSavepoint id name harmless)

theorem Paired.next (paired : s.Paired) {a : ReplicaAction} (harmless : s.Harmless a) (taken : s.next a = some s') :
    s'.Paired := by
  cases a with
  | apply c =>
    cases taken
    exact paired.apply harmless
  | allocateTxnID | twoPLRead id row | twoPLScan id table filter | mvccRead id row | mvccScan id table filter
  | createSavepoint id name | rollbackToSavepoint id name =>
    cases taken
    exact paired.lead harmless

theorem paired_start (catalog : Storage.Catalog) (rows : List (RowRef × RowData)) (maxActive : Nat)
    (wal : Option Wal.Log) (nextID : Nat) : (start catalog rows maxActive wal nextID).Paired := by
  refine ⟨⟨⟨fun _ => True, fun _ => True, True, nextID, { seeded catalog rows maxActive wal with nextID }⟩,
    ⟨fun _ => trivial, trivial, .inl ⟨rfl, fun _ => trivial⟩⟩, ?_⟩, ?_, nofun⟩
  · refine .of_idle rfl rfl rfl rfl rfl rfl (fun _ _ => rfl) (fun _ _ => rfl) (fun row => ?_) (.refl _) rfl rfl rfl
      rfl ⟨fun _ => rfl, rfl, rfl, rfl⟩
    refine List.forall₂_same.2 fun v mem => ?_
    have mem : v ∈ (seeded catalog rows maxActive wal).chain row := mem
    exact ⟨rfl, rfl, rfl, ⟨trivial, trivial⟩, .inl (chain_seeded mem).2⟩
  · exact fun r g mem => absurd mem List.not_mem_nil

theorem Paired.alike (paired : s.Paired) : s.Alike := by
  obtain ⟨⟨σ, -, agree⟩, -, results⟩ := paired
  exact ⟨fun r mem => by rw [results r mem], sameView_of_agree agree⟩

end

/-- **Replicas stay alike** under all harmless steps. -/
theorem alike_of_harmless {catalog : Storage.Catalog} {rows : List (RowRef × RowData)} {maxActive : Nat}
    {wal : Option Wal.Log} {nextID : Nat} {s : Replicas}
    (reached : Reach Replicas.next Replicas.Harmless (start catalog rows maxActive wal nextID) s) : s.Alike := by
  have paired : s.Paired :=
    reached.invariant (paired_start ..) fun _ _ _ paired harmless taken => paired.next harmless taken
  exact paired.alike

instance (s : Replicas) (c : Command) : Decidable (s.HarmlessEntry c) := by
  unfold HarmlessEntry Unread
  split <;> infer_instance

instance (s : Replicas) (a : ReplicaAction) : Decidable (s.Harmless a) := by
  unfold Harmless Counted
  split <;> infer_instance

/-- Both replicas over the table with one row. -/
def oneRowReplicas : Replicas := start (oneTable (some [intVal 1])) [] 0 none 0

/-- The entries of a transaction on the row. -/
def beginEntry (txnID : Nat) (proto iso : UInt8) : ReplicaAction := .apply { type := .begin, txnID, proto, iso }

@[inherit_doc beginEntry]
def writeEntry (txnID : Nat) (op : UInt8) : ReplicaAction :=
  .apply { type := .write, txnID, table := [97], rowKey := [49], op, after := (encodeValues [intVal 2]).getD [] }

@[inherit_doc beginEntry]
def commitEntry (txnID : Nat) : ReplicaAction := .apply { type := .commit, txnID }

/-- A transaction that reads on the leader, creates a savepoint and writes, under an ID that was allocated. -/
theorem alike_read_write : ∃ s, Reach Replicas.next Replicas.Harmless oneRowReplicas s ∧
    s.leader.nextID ≠ s.follower.nextID ∧ s.results.map (fun r => r.1.succeeded) = [true, true, true] ∧ s.Alike := by
  exact Reach.exists_and_and
    [.allocateTxnID, beginEntry 1 0 2, .twoPLRead 1 ([97], [49]), .createSavepoint 1 [115], writeEntry 1 1, commitEntry 1]
    (by decide) fun s reached _ _ => alike_of_harmless reached

/-- The leader's counter shows a committed version to a new reader that the follower hides, and a read lock fails a
write on the leader that succeeds on the follower. -/
theorem not_alike : (¬ ∀ s, Reach Replicas.next AnyStep oneRowReplicas s → SameView s.follower s.leader) ∧
    ¬ ∀ s, Reach Replicas.next AnyStep oneRowReplicas s → ∀ r ∈ s.results, r.2.succeeded = r.1.succeeded := by
  constructor
  · intro alike
    obtain ⟨s, reached, differ⟩ := Reach.exists_such Replicas.next AnyStep oneRowReplicas
      [.allocateTxnID, .allocateTxnID, beginEntry 2 1 1, writeEntry 2 0, commitEntry 2]
      (fun s => s.leader.freshRead .readCommitted ([97], [49]) ≠ s.follower.freshRead .readCommitted ([97], [49]))
      (by decide)
    exact differ ((alike s reached).reads _ _)
  · intro alike
    obtain ⟨s, reached, differ⟩ := Reach.exists_such Replicas.next AnyStep oneRowReplicas
      [beginEntry 1 0 2, beginEntry 2 0 2, .twoPLRead 1 ([97], [49]), writeEntry 2 1]
      (fun s => ¬ ∀ r ∈ s.results, r.2.succeeded = r.1.succeeded) (by decide)
    exact differ (alike s reached)

end Replicas

end TransactionManager.Raft
