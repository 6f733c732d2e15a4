import TransactionManager.Txn.Ledger

/-!
# Transaction IDs from the counter and from the replicated log

`AllocateTxnID`, `Begin`, `BeginWithID` and `takeSnapshot` of `internal/txn/manager.go`, with the
begin path of the Raft leader (`handleBegin`) and of `TxnManagerFSM.Apply`. `BeginWithID`
registers an ID that the counter of this node may not have reached, and an ID is allocated
before its transaction is begun. Two systems: one node that begins transactions either way and takes
snapshots, and a cluster whose nodes lead in turn.
-/

namespace TransactionManager.Txn
open Lib TransactionManager.Types Mvcc List GoMap Function Option Wal Manager Reach

namespace Manager

def allocateTxnID (m : Manager) : Nat × Manager := (m.nextID + 1, { m with nextID := m.nextID + 1 })

def beginWithID (m : Manager) (id : Nat) (protocol : ConcurrencyProtocol) (isoLevel : IsolationLevel) :
    Outcome × Manager :=
  if 0 < m.maxActive ∧ m.maxActive ≤ m.txns.keys.length then (.err .tooManyTransactions, m)
  else
    let snapshot := if protocol = .mvcc ∧ isoLevel ≠ .readCommitted then some m.takeSnapshot else none
    let (lsn, m) := m.logAppend (beginRecord id)
    (.ok, m.putTxn { id, protocol, isolation := isoLevel, snapshot, lastWALLSN := lsn })

/-- The status change of `Commit`, which can refuse an MVCC transaction. What follows it, undo and
release of locks, changes no status. -/
def commitStatus (m : Manager) (id : Nat) : Manager :=
  match m.txns.get id with
  | none => m
  | some txn =>
    match txn.protocol with
    | .mvcc => (m.mvccCommit id).2
    | .twoPL => (m.logAppend (commitRecord id txn.lastWALLSN)).2.markCommitted id

/-- The status change of `Abort`. -/
def abortStatus (m : Manager) (id : Nat) : Manager :=
  match m.txns.get id with
  | none => m
  | some _ => m.markAborted id

/-- The transaction has committed or aborted. -/
def Ended (m : Manager) (id : Nat) : Prop := id ∈ m.committed ∨ id ∈ m.aborted

/-- The transaction has been begun on this node. -/
def Known (m : Manager) (id : Nat) : Prop := m.Active id ∨ m.Ended id

instance (m : Manager) (id : Nat) : Decidable (m.Ended id) := inferInstanceAs (Decidable (_ ∨ _))

instance (m : Manager) (id : Nat) : Decidable (m.Known id) := inferInstanceAs (Decidable (_ = true ∨ _))

/-- Every ID that the counter has given out is begun, one apart. -/
def AllBegun (m : Manager) (apart : Nat) : Prop := ∀ id ∈ List.range (m.nextID + 1), id ≠ 0 → id ≠ apart → m.Known id

instance (m : Manager) (apart : Nat) : Decidable (m.AllBegun apart) := inferInstanceAs (Decidable (∀ id ∈ _, _))

end Manager

/-- A snapshot with the transaction that took it and the transactions that had ended by then. -/
structure Taken where
  taker : Nat
  snap : Snapshot
  ended : List Nat

structure IdRun where
  mgr : Manager
  taken : List Taken := []

/-- The calls on one node. `snapshot` is taken for a statement of a read-committed transaction. -/
inductive IdAction where
  | allocate
  | begin (protocol : ConcurrencyProtocol) (isoLevel : IsolationLevel)
  | beginWithID (id : Nat) (protocol : ConcurrencyProtocol) (isoLevel : IsolationLevel)
  | snapshot (taker : Nat)
  | commit (id : Nat)
  | abort (id : Nat)

namespace IdRun

def start (maxActive : Nat) (wal : Option Log) : IdRun where
  mgr := { committed := [0], maxActive, wal }

/-- The manager after a begin, with the snapshot that the transaction got. -/
def begun (s : IdRun) (m : Manager) (id : Nat) : IdRun where
  mgr := m
  taken := match (m.txns.get id).bind (·.snapshot) with
    | some snap => s.taken ++ [⟨id, snap, s.mgr.committed ++ s.mgr.aborted⟩]
    | none => s.taken

def next (s : IdRun) : IdAction → Option IdRun
  | .allocate => some { s with mgr := s.mgr.allocateTxnID.2 }
  | .begin protocol isoLevel =>
    match s.mgr.begin protocol isoLevel with
    | (.ok, m) => some (s.begun m m.nextID)
    | (_, m) => some { s with mgr := m }
  | .beginWithID id protocol isoLevel =>
    match s.mgr.beginWithID id protocol isoLevel with
    | (.ok, m) => some (s.begun m id)
    | (_, m) => some { s with mgr := m }
  | .snapshot taker =>
    match s.mgr.txns.get taker with
    | some _ => some { s with
        taken := s.taken ++ [⟨taker, s.mgr.takeSnapshot, s.mgr.committed ++ s.mgr.aborted⟩] }
    | none => none
  | .commit id => some { s with mgr := s.mgr.commitStatus id }
  | .abort id => some { s with mgr := s.mgr.abortStatus id }

/-- Every snapshot lists the transactions below its bound that had not ended when it was taken, and shows nothing that
commits later. -/
def SnapshotsClosed (s : IdRun) : Prop := ∀ x ∈ s.taken,
    (∀ id, 0 < id → id < x.snap.xmax → id ≠ x.taker → id ∉ x.ended → x.snap.contains id = true) ∧
    ∀ id ∈ s.mgr.committed, id ∉ x.ended → id ≠ x.taker → ∀ v : Version, v.xmin = id →
      isVisible v x.taker x.snap s.mgr.statusChecker = false

/-- The steps in order: an ID that is begun was given out by the counter of this node and not begun before, and when a
snapshot is taken every ID given out but the taker's own is begun. -/
def InOrder (s : IdRun) : IdAction → Prop
  | .begin protocol isoLevel => protocol = .mvcc ∧ isoLevel ≠ .readCommitted → s.mgr.AllBegun 0
  | .beginWithID id protocol isoLevel => 0 < id ∧ id ≤ s.mgr.nextID ∧ ¬ s.mgr.Known id ∧
      (protocol = .mvcc ∧ isoLevel ≠ .readCommitted → s.mgr.AllBegun id)
  | .snapshot taker => s.mgr.AllBegun taker
  | _ => True

instance (s : IdRun) (a : IdAction) : Decidable (s.InOrder a) := by
  unfold InOrder
  split <;> infer_instance

end IdRun

namespace Manager
variable {m : Manager}

/-- What `Begin` and `BeginWithID` register under an ID. -/
structure Registers (m : Manager) (id counter : Nat) (taken : Option Snapshot) (m' : Manager) : Prop where
  txns : ∃ txn, m'.txns = m.txns.set id txn ∧ txn.snapshot = taken
  nextID : m'.nextID = counter
  committed : m'.committed = m.committed

theorem registers_putTxn (m : Manager) (rec : LogRecord) (txn : Transaction) :
    Registers m txn.id m.nextID txn.snapshot ((m.logAppend rec).2.putTxn txn) := by
  have same := m.sameLists_logAppend rec
  refine ⟨⟨txn, ?_, rfl⟩, same.nextID, same.committed⟩
  unfold putTxn
  rw [same.txns]

theorem begin_registers (protocol : ConcurrencyProtocol) (isoLevel : IsolationLevel) :
    m.begin protocol isoLevel = (.err .tooManyTransactions, m) ∨
    ∃ m', m.begin protocol isoLevel = (.ok, m') ∧ Registers m (m.nextID + 1) (m.nextID + 1)
      (if protocol = .mvcc ∧ isoLevel ≠ .readCommitted then
        some { m with nextID := m.nextID + 1 }.takeSnapshot else none) m' := by
  unfold begin
  split
  · exact .inl rfl
  · have put := registers_putTxn { m with nextID := m.nextID + 1 } (beginRecord (m.nextID + 1))
      ⟨m.nextID + 1, protocol, isoLevel, if protocol = .mvcc ∧ isoLevel ≠ .readCommitted then
        some { m with nextID := m.nextID + 1 }.takeSnapshot else none, ∅, [], [],
        ({ m with nextID := m.nextID + 1 }.logAppend (beginRecord (m.nextID + 1))).1⟩
    exact .inr ⟨_, rfl, put.txns, put.nextID, put.committed⟩

theorem beginWithID_registers (id : Nat) (protocol : ConcurrencyProtocol) (isoLevel : IsolationLevel) :
    m.beginWithID id protocol isoLevel = (.err .tooManyTransactions, m) ∨
    ∃ m', m.beginWithID id protocol isoLevel = (.ok, m') ∧ Registers m id m.nextID
      (if protocol = .mvcc ∧ isoLevel ≠ .readCommitted then some m.takeSnapshot else none) m' := by
  unfold beginWithID
  split
  · exact .inl rfl
  · exact .inr ⟨_, rfl, registers_putTxn m (beginRecord id) ⟨id, protocol, isoLevel,
      if protocol = .mvcc ∧ isoLevel ≠ .readCommitted then some m.takeSnapshot else none, ∅, [], [],
      (m.logAppend (beginRecord id)).1⟩⟩

/-- The status change of `Commit` is a commit, the abort of a refused transaction, or nothing. -/
theorem commitStatus_books (id : Nat) : BookStep m (m.commitStatus id) ∧ (m.commitStatus id).nextID = m.nextID := by
  unfold commitStatus
  cases found : m.txns.get id with
  | none => exact ⟨.same (.refl m), rfl⟩
  | some txn =>
    have active := active_of_get found
    dsimp only
    split
    · obtain ⟨outcome, txns, nextID, -⟩ := mvccCommit_spec found
      rcases outcome with ⟨-, committed, aborted⟩ | ⟨-, committed, aborted⟩
      · exact ⟨.commit id active txns committed aborted nextID, nextID⟩
      · exact ⟨.abort id active txns committed aborted nextID, nextID⟩
    · have logged := m.sameLists_logAppend (commitRecord id txn.lastWALLSN)
      exact ⟨.commit id active (congrArg (·.delete id) logged.txns) (congrArg (id :: ·) logged.committed)
        logged.aborted logged.nextID, logged.nextID⟩

theorem abortStatus_books (id : Nat) : BookStep m (m.abortStatus id) ∧ (m.abortStatus id).nextID = m.nextID := by
  unfold abortStatus
  cases found : m.txns.get id with
  | none => exact ⟨.same (.refl m), rfl⟩
  | some txn => exact ⟨.abort id (active_of_get found) rfl rfl rfl rfl, rfl⟩

end Manager

/-- A closed snapshot: its bounds fit its list, and the list has everything below the upper bound that had not ended.
-/
structure Taken.Closed (x : Taken) : Prop where
  seed : 0 ∈ x.ended
  bounds : x.snap.xmin ≤ x.snap.xmax
  least : ∀ id, x.snap.contains id = true → x.snap.xmin ≤ id
  listed : ∀ id, 0 < id → id < x.snap.xmax → id ≠ x.taker → id ∉ x.ended → x.snap.contains id = true

/-- What had not ended is invisible to a closed snapshot, whatever becomes of it. -/
theorem Taken.Closed.invisible {x : Taken} (closed : x.Closed) {v : Version} (later : v.xmin ∉ x.ended)
    (other : v.xmin ≠ x.taker) (mgr : TxnStatusChecker) : isVisible v x.taker x.snap mgr = false := by
  have bounds := closed.bounds
  have pos : 0 < v.xmin := by
    apply Nat.pos_of_ne_zero
    intro zero
    exact later (zero ▸ closed.seed)
  unfold isVisible creatorVisible
  by_cases below : v.xmin < x.snap.xmax
  · have listed := closed.listed v.xmin pos below other later
    have least := closed.least v.xmin listed
    simp [other, listed, Nat.not_lt.2 least]
  · have above : ¬ v.xmin < x.snap.xmin := by omega
    simp [other, below, above]

/-- Active transactions have IDs that the counter has given out. -/
def Counted (m : Manager) : Prop := ∀ id, m.Active id → 0 < id ∧ id ≤ m.nextID

theorem Counted.step {m m' : Manager} (counted : Counted m) (step : BookStep m m') : Counted m' := by
  intro id active
  cases step with
  | same same =>
    rw [same.nextID]
    exact counted id ((same.active id).1 active)
  | begin _ _ txns _ _ nextID =>
    rw [nextID]
    rcases (active_of_set txns).1 active with rfl | old
    · exact ⟨Nat.succ_pos _, le_rfl⟩
    · have := counted id old
      omega
  | commit _ _ txns _ _ nextID | abort _ _ txns _ _ nextID =>
    rw [nextID]
    exact counted id ((active_of_delete txns).1 active).2

theorem Counted.taken {m : Manager} (counted : Counted m) (seed : 0 ∈ m.committed) {taker : Nat}
    (all : m.AllBegun taker) : Taken.Closed ⟨taker, m.takeSnapshot, m.committed ++ m.aborted⟩ where
  seed := mem_append_left _ seed
  bounds := by
    show m.txns.keys.min?.getD (m.nextID + 1) ≤ m.nextID + 1
    cases least : m.txns.keys.min? with
    | none => exact le_rfl
    | some id =>
      obtain ⟨txn, found⟩ := (mem_keys_iff _ _).1 (min?_mem least)
      have := counted id (isSome_iff_exists.2 ⟨txn, found⟩)
      show id ≤ m.nextID + 1
      omega
  least id listed := by
    have key : id ∈ m.txns.keys := contains_iff_mem.1 listed
    exact min?_getD_le_of_mem key
  listed id pos below other later := by
    have range : id ∈ List.range (m.nextID + 1) := mem_range.2 below
    rcases all id range (by omega) other with active | ended
    · obtain ⟨txn, found⟩ := isSome_iff_exists.1 active
      have key := (mem_keys_iff _ _).2 ⟨txn, found⟩
      simpa [Snapshot.contains, takeSnapshot] using key
    · exact absurd (mem_append.2 ended) later

namespace IdRun

structure Inv (s : IdRun) : Prop where
  counted : Counted s.mgr
  seed : 0 ∈ s.mgr.committed
  closed : ∀ x ∈ s.taken, x.Closed

section
variable {s : IdRun} (inv : s.Inv)
include inv

theorem Inv.begun {id counter : Nat} {taken : Option Snapshot} {m' : Manager}
    (registers : Registers s.mgr id counter taken m') (grow : s.mgr.nextID ≤ counter) (given : 0 < id ∧ id ≤ counter)
    (closed : ∀ snap ∈ taken, Taken.Closed ⟨id, snap, s.mgr.committed ++ s.mgr.aborted⟩) :
    (s.begun m' id).Inv where
  counted u active := by
    obtain ⟨⟨txn, txns, -⟩, nextID, -⟩ := registers
    have active : (m'.txns.get u).isSome = true := active
    show 0 < u ∧ u ≤ m'.nextID
    rw [txns, get_set] at active
    rw [nextID]
    split at active
    · rename_i eq
      exact eq ▸ given
    · have := inv.counted u active
      omega
  seed := by
    show 0 ∈ m'.committed
    rw [registers.committed]
    exact inv.seed
  closed x mem := by
    obtain ⟨⟨txn, txns, rfl⟩, -, -⟩ := registers
    have get : (m'.txns.get id).bind (·.snapshot) = txn.snapshot := by
      rw [txns, get_set, if_pos rfl]
      rfl
    unfold IdRun.begun at mem
    rw [get] at mem
    cases eq : txn.snapshot with
    | none =>
      rw [eq] at mem
      exact inv.closed x mem
    | some snap =>
      rw [eq] at mem
      rcases mem_append.1 mem with old | new
      · exact inv.closed x old
      · rw [mem_singleton.1 new]
        exact closed snap eq

/-- `Begin` takes its snapshot after it has advanced the counter to its own ID. -/
theorem Inv.taken_begin (all : s.mgr.AllBegun 0) : Taken.Closed ⟨s.mgr.nextID + 1, { s.mgr with nextID := s.mgr.nextID + 1 }.takeSnapshot,
      s.mgr.committed ++ s.mgr.aborted⟩ := by
  have counted : Counted { s.mgr with nextID := s.mgr.nextID + 1 } := by
    intro id active
    have := inv.counted id active
    exact ⟨this.1, Nat.le_succ_of_le this.2⟩
  refine counted.taken inv.seed fun id range pos other => ?_
  have below : id < s.mgr.nextID + 1 := by
    have := mem_range.1 range
    dsimp only at this
    omega
  exact all id (mem_range.2 below) pos pos

theorem Inv.books {m' : Manager} (step : BookStep s.mgr m') : IdRun.Inv { s with mgr := m' } :=
  ⟨inv.counted.step step, step.ended.1 0 inv.seed, inv.closed⟩

theorem Inv.step {s' : IdRun} {a : IdAction} (ok : s.InOrder a) (taken : s.next a = some s') : s'.Inv := by
  cases a with
  | allocate =>
    cases taken
    refine ⟨fun id active => ?_, inv.seed, inv.closed⟩
    have := inv.counted id active
    exact ⟨this.1, Nat.le_succ_of_le this.2⟩
  | begin protocol isoLevel =>
    simp only [next] at taken
    rcases begin_registers (m := s.mgr) protocol isoLevel with eq | ⟨m', eq, registers⟩
    · rw [eq] at taken
      cases taken
      exact inv
    · rw [eq] at taken
      cases taken
      rw [registers.nextID]
      refine inv.begun registers (Nat.le_succ _) ⟨Nat.succ_pos _, le_rfl⟩ fun snap mem => ?_
      obtain ⟨level, rfl⟩ := of_guard mem
      exact inv.taken_begin (ok level)
  | beginWithID id protocol isoLevel =>
    obtain ⟨pos, le, -, all⟩ := ok
    simp only [next] at taken
    rcases beginWithID_registers (m := s.mgr) id protocol isoLevel with eq | ⟨m', eq, registers⟩
    · rw [eq] at taken
      cases taken
      exact inv
    · rw [eq] at taken
      cases taken
      refine inv.begun registers le_rfl ⟨pos, le⟩ fun snap mem => ?_
      obtain ⟨level, rfl⟩ := of_guard mem
      exact inv.counted.taken inv.seed (all level)
  | snapshot =>
    simp only [next] at taken
    split at taken
    · cases taken
      exact ⟨inv.counted, inv.seed, forall_mem_append.2 ⟨inv.closed,
        forall_mem_singleton.2 (inv.counted.taken inv.seed ok)⟩⟩
    · cases taken
  | commit id =>
    cases taken
    exact inv.books (commitStatus_books id).1
  | abort id =>
    cases taken
    exact inv.books (abortStatus_books id).1

end

theorem Inv.start (maxActive : Nat) (wal : Option Log) : (IdRun.start maxActive wal).Inv where
  counted _ active := by cases active
  seed := mem_cons_self
  closed _ mem := by cases mem

/-- In runs in order every snapshot is closed. -/
theorem snapshotsClosed_of_inOrder {maxActive : Nat} {wal : Option Log} {s : IdRun}
    (reached : Reach next InOrder (start maxActive wal) s) : s.SnapshotsClosed := by
  have inv : s.Inv := reached.invariant (.start maxActive wal) fun _ _ _ inv ok taken => inv.step ok taken
  intro x mem
  have closed := inv.closed x mem
  refine ⟨closed.listed, fun id _ later other v eq => ?_⟩
  subst eq
  exact closed.invisible later other _

/-- The ID that the counter gave out is begun before the next transaction takes its snapshot. -/
theorem snapshotsClosed_replicated : ∃ s, Reach next InOrder (start 0 none) s ∧
    s.taken.map (·.snap) = [⟨2, 2, []⟩, ⟨1, 3, [1]⟩] ∧ s.mgr.committed = [1, 0] ∧ s.SnapshotsClosed := by
  exact Reach.exists_and_and [.allocate, .beginWithID 1 .mvcc .repeatableRead, .begin .mvcc .repeatableRead, .commit 1]
    (by decide) fun s reached _ _ => snapshotsClosed_of_inOrder reached

/-- The leader has given out ID 1 and has not begun it when a local transaction takes its snapshot. -/
theorem not_snapshotsClosed : ¬ ∀ (maxActive : Nat) (wal : Option Log) (s : IdRun),
    Reach next AnyStep (start maxActive wal) s → s.SnapshotsClosed := by
  intro claim
  obtain ⟨s, reached, x, mem, taker, snap, ended⟩ := exists_such next AnyStep (start 0 none)
    [.allocate, .begin .mvcc .repeatableRead]
    (fun s => ∃ x ∈ s.taken, x.taker = 2 ∧ x.snap = ⟨3, 3, []⟩ ∧ x.ended = [0]) (by decide)
  have listed := (claim 0 none s reached x mem).1 1
  rw [snap, taker, ended] at listed
  exact absurd (listed (by decide) (by decide) (by decide) (by decide)) (by decide)

end IdRun

/-- One node of the cluster: its manager, how many entries of the log it has applied, and the IDs begun on it. -/
structure IdNode where
  mgr : Manager
  applied : Nat := 0
  begun : List Nat := []

/-- The node after a begin of the ID. -/
def IdNode.started (x : IdNode) (id : Nat) : Outcome × Manager → IdNode
  | (.ok, m) => { x with mgr := m, begun := x.begun ++ [id] }
  | (_, m) => { x with mgr := m }

structure BeginCmd where
  txnID : Nat
  proto : ConcurrencyProtocol
  iso : IsolationLevel
  deriving DecidableEq

/-- The nodes, the leader, the entries proposed and the committed log. -/
structure IdCluster where
  node : Nat → IdNode
  leader : Option Nat := none
  proposed : List BeginCmd := []
  log : List BeginCmd := []

/-- What happens in the cluster. A proposal is committed at any later time, or never. -/
inductive ClusterAction where
  | elect (n : Nat)
  | propose (n : Nat) (protocol : ConcurrencyProtocol) (isoLevel : IsolationLevel)
  | replicate (cmd : BeginCmd)
  | apply (n : Nat)
  | allocate (n : Nat)
  | begin (n : Nat) (protocol : ConcurrencyProtocol) (isoLevel : IsolationLevel)
  | commit (n id : Nat)
  | abort (n id : Nat)

namespace IdCluster

def start (maxActive : Nat) (wal : Option Log) : IdCluster where
  node _ := { mgr := { committed := [0], maxActive, wal } }

def setNode (s : IdCluster) (n : Nat) (x : IdNode) : IdCluster := { s with node := update s.node n x }

def next (s : IdCluster) : ClusterAction → Option IdCluster
  | .elect n => some { s with leader := some n }
  | .propose n protocol isoLevel =>
    if s.leader = some n then
      let (id, m) := (s.node n).mgr.allocateTxnID
      some { s.setNode n { s.node n with mgr := m } with
        proposed := s.proposed ++ [⟨id, protocol, isoLevel⟩] }
    else none
  | .replicate cmd =>
    if cmd ∈ s.proposed then
      some { s with proposed := s.proposed.erase cmd, log := s.log ++ [cmd] }
    else none
  | .apply n =>
    match s.log[(s.node n).applied]? with
    | some cmd =>
      some (s.setNode n { (s.node n).started cmd.txnID
        ((s.node n).mgr.beginWithID cmd.txnID cmd.proto cmd.iso) with applied := (s.node n).applied + 1 })
    | none => none
  | .allocate n => some (s.setNode n { s.node n with mgr := (s.node n).mgr.allocateTxnID.2 })
  | .begin n protocol isoLevel =>
    some (s.setNode n ((s.node n).started ((s.node n).mgr.nextID + 1) ((s.node n).mgr.begin protocol isoLevel)))
  | .commit n id => some (s.setNode n { s.node n with mgr := (s.node n).mgr.commitStatus id })
  | .abort n id => some (s.setNode n { s.node n with mgr := (s.node n).mgr.abortStatus id })

/-- The ID that the step returns on a node, with the node. -/
def issued (s : IdCluster) : ClusterAction → Option (Nat × Nat)
  | .propose n _ _ | .allocate n => some (n, (s.node n).mgr.allocateTxnID.1)
  | .begin n protocol isoLevel =>
    match (s.node n).mgr.begin protocol isoLevel with
    | (.ok, m) => some (n, m.nextID)
    | _ => none
  | _ => none

/-- A `CmdBegin` is applied only on a node whose counter has reached its ID. -/
def Reached (s : IdCluster) : ClusterAction → Prop
  | .apply n => ∀ cmd ∈ s.log[(s.node n).applied]?, cmd.txnID ≤ (s.node n).mgr.nextID
  | _ => True

instance (s : IdCluster) (a : ClusterAction) : Decidable (s.Reached a) := by
  unfold Reached
  split <;> infer_instance

/-- No node has begun an ID that its counter has not reached. -/
def Inv (s : IdCluster) : Prop := ∀ n, ∀ id ∈ (s.node n).begun, id ≤ (s.node n).mgr.nextID

theorem Inv.setNode {s : IdCluster} (inv : s.Inv) {n : Nat} {x : IdNode}
    (bounded : ∀ id ∈ x.begun, id ≤ x.mgr.nextID) : (s.setNode n x).Inv := by
  intro k
  show ∀ id ∈ (update s.node n x k).begun, id ≤ (update s.node n x k).mgr.nextID
  rw [update_apply]
  split
  · exact bounded
  · exact inv k

theorem bounded_started {x : IdNode} (bounded : ∀ id ∈ x.begun, id ≤ x.mgr.nextID) {id counter : Nat}
    {result : Outcome × Manager} {taken : Option Snapshot} (grow : x.mgr.nextID ≤ counter)
    (given : id ≤ counter) (cases : result = (.err .tooManyTransactions, x.mgr) ∨
      ∃ m', result = (.ok, m') ∧ Registers x.mgr id counter taken m') :
    ∀ u ∈ (x.started id result).begun, u ≤ (x.started id result).mgr.nextID := by
  rcases cases with rfl | ⟨m', rfl, registers⟩
  · exact bounded
  intro u mem
  show u ≤ m'.nextID
  rw [registers.nextID]
  rcases mem_append.1 mem with old | new
  · exact (bounded u old).trans grow
  · rwa [mem_singleton.1 new]

theorem Inv.step {s s' : IdCluster} {a : ClusterAction} (inv : s.Inv) (ok : s.Reached a)
    (taken : s.next a = some s') : s'.Inv := by
  have advanced (n : Nat) : ∀ id ∈ (s.node n).begun, id ≤ (s.node n).mgr.nextID + 1 :=
    fun id mem => Nat.le_succ_of_le (inv n id mem)
  cases a with
  | elect n =>
    cases taken
    exact inv
  | propose n =>
    obtain ⟨_, rfl⟩ := of_guard taken
    exact inv.setNode (n := n) (x := { s.node n with mgr := (s.node n).mgr.allocateTxnID.2 }) (advanced n)
  | replicate cmd =>
    obtain ⟨_, rfl⟩ := of_guard taken
    exact inv
  | apply n =>
    simp only [next] at taken
    split at taken
    · rename_i cmd entry
      cases taken
      exact inv.setNode (bounded_started (inv n) le_rfl (ok cmd entry)
        (beginWithID_registers cmd.txnID cmd.proto cmd.iso))
    · cases taken
  | allocate n =>
    cases taken
    exact inv.setNode (advanced n)
  | begin n protocol isoLevel =>
    cases taken
    exact inv.setNode (bounded_started (inv n) (Nat.le_succ _) le_rfl (begin_registers protocol isoLevel))
  | commit n id =>
    cases taken
    exact inv.setNode fun u mem => (commitStatus_books (m := (s.node n).mgr) id).2 ▸ inv n u mem
  | abort n id =>
    cases taken
    exact inv.setNode fun u mem => (abortStatus_books (m := (s.node n).mgr) id).2 ▸ inv n u mem

/-- Whatever a node gives out is above its counter. -/
theorem issued_eq {s : IdCluster} {a : ClusterAction} {n id : Nat} (out : s.issued a = some (n, id)) :
    id = (s.node n).mgr.nextID + 1 := by
  cases a with
  | propose =>
    cases out
    rfl
  | allocate k =>
    cases out
    rfl
  | begin k protocol isoLevel =>
    simp only [issued] at out
    rcases begin_registers (m := (s.node k).mgr) protocol isoLevel with eq | ⟨m', eq, registers⟩
    · rw [eq] at out
      cases out
    · rw [eq] at out
      cases out
      exact registers.nextID
  | _ => cases out

/-- While every node applies only IDs that its counter has reached, a node gives out no ID that it has
begun. -/
theorem issued_fresh_of_reached {maxActive : Nat} {wal : Option Log} {s : IdCluster}
    {a : ClusterAction} {n id : Nat} (reached : Lib.Reach next Reached (start maxActive wal) s)
    (out : s.issued a = some (n, id)) : id ∉ (s.node n).begun := by
  have inv : s.Inv := by
    have first : (start maxActive wal).Inv := by
      intro k id mem
      cases mem
    exact reached.invariant first fun _ _ _ inv ok taken => inv.step ok taken
  intro mem
  have := inv n id mem
  have := issued_eq out
  omega

/-- The node that leads applies its own begin and gives out the next ID. -/
theorem issued_fresh_leader : ∃ s, Lib.Reach next Reached (start 0 none) s ∧
    s.issued (.allocate 1) = some (1, 2) ∧ (s.node 1).begun = [1] ∧ 2 ∉ (s.node 1).begun := by
  exact Reach.exists_and_and
    [.elect 1, .propose 1 .mvcc .repeatableRead, .replicate ⟨1, .mvcc, .repeatableRead⟩, .apply 1]
    (by decide) fun s reached out _ => issued_fresh_of_reached reached out

/-- A follower applies the begin of ID 1, becomes leader, and gives out ID 1 again. -/
theorem not_issued_fresh : ¬ ∀ (maxActive : Nat) (wal : Option Log) (s s' : IdCluster)
    (a : ClusterAction) (n id : Nat), Lib.Reach next AnyStep (start maxActive wal) s →
    s.next a = some s' → s.issued a = some (n, id) → id ∉ (s.node n).begun := by
  intro claim
  obtain ⟨s, reached, out, begun, enabled⟩ := exists_such next AnyStep (start 0 none)
    [.elect 1, .propose 1 .mvcc .repeatableRead, .replicate ⟨1, .mvcc, .repeatableRead⟩, .apply 1, .apply 2, .elect 2]
    (fun s => s.issued (.propose 2 .mvcc .repeatableRead) = some (2, 1) ∧ (s.node 2).begun = [1] ∧
      (s.next (.propose 2 .mvcc .repeatableRead)).isSome) (by decide)
  obtain ⟨s', taken⟩ := isSome_iff_exists.1 enabled
  refine claim 0 none s s' _ 2 1 reached taken out ?_
  rw [begun]
  exact mem_cons_self

end IdCluster

end TransactionManager.Txn
