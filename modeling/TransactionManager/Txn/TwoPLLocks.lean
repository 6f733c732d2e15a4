import TransactionManager.Txn.TwoPLStep

/-!
# The row locks of running transactions

A row lock in a transaction's held set is backed by a grant in the queue of the row's name.
Which locks are: an X lock always, because nobody else has a grant in its queue and so no
request of its owner there has to wait; an S lock only as long as its owner never waits in a
queue in which it has a grant. The set of modes that are backed is the parameter `kept`.
-/

namespace TransactionManager.Txn
open Lib TransactionManager.Types Lock List GoMap Function TwoPLRun Queue

/-- `ResourceForRow`. -/
def rowResource (row : RowRef) : ResourceID := .row row.1 row.2

theorem rowResource_name_ne (row : RowRef) (table : GoString) :
    (rowResource row).name ≠ (ResourceID.table table).name := by
  simp [rowResource, ResourceID.name]

theorem RowOp.mode_row (o : RowOp) : o.mode .row = .s ∨ o.mode .row = .x := by
  cases o
  · exact .inl rfl
  · exact .inr rfl

/-- The transaction has a grant that covers the mode on the row. -/
def Covered (queue : GoString → Queue) (t : Nat) (row : RowRef) (m : Mode) : Prop :=
  ∃ e ∈ (queue (rowResource row).name).granted, e.txnID = t ∧ (e.mode = m ∨ e.mode = .x)

/-- The locks of a running transaction whose call is at `call`. -/
structure TxnLocks (kept : Mode → Prop) (queue : GoString → Queue) (txn : Transaction)
    (call : Option TwoPLCall) : Prop where
  held : ∀ row m, txn.locksHeld.get (rowResource row) = some m →
    (m = .s ∨ m = .x) ∧ (kept m → Covered queue txn.id row m)
  waiting : ∀ o ch, call = some (.waiting o .row ch) →
    (∀ e ∈ (queue (rowResource o.row).name).granted ++ (queue (rowResource o.row).name).waiting,
      e.grantedCh = ch → e.txnID = txn.id ∧ e.mode = o.mode .row) ∧
    ∀ row m, (rowResource row).name = (rowResource o.row).name → kept m → txn.locksHeld.get (rowResource row) ≠ some m
  body : ∀ o, call = some (.body o) → txn.isolation ≠ .readUncommitted ∨ o.mode .row = .x →
    ∃ m, txn.locksHeld.get (rowResource o.row) = some m ∧ (m = .x ∨ m = o.mode .row)

structure RunLocks (kept : Mode → Prop) (s : TwoPLRun) : Prop where
  queues : ∀ row, (s.mgr.queue (rowResource row).name).RowLocks
  channels : ∀ name, ∀ e ∈ (s.mgr.queue name).granted ++ (s.mgr.queue name).waiting, e.grantedCh < s.nextCh
  waits : ∀ t o stage ch, s.calls.get t = some (.waiting o stage ch) → ch < s.nextCh
  txns : ∀ t txn, s.mgr.txns.get t = some txn → txn.id = t ∧ TxnLocks kept s.mgr.queue txn (s.calls.get t)

section Frame
variable {kept : Mode → Prop} {queue : GoString → Queue} {txn txn' : Transaction}
  {call call' : Option TwoPLCall} {t k : Nat} {mode : Mode} {name : GoString} {q' : Queue}

theorem TxnLocks.others (ok : TxnLocks kept queue txn call) (other : txn.id ≠ t)
    (edit : QueueEdit t k mode (queue name) q') (old : ∀ o ch, call = some (.waiting o .row ch) → ch < k) :
    TxnLocks kept (update queue name q') txn call where
  held row m get := by
    obtain ⟨row', covered⟩ := ok.held row m get
    refine ⟨row', fun keep => ?_⟩
    obtain ⟨e, mem, mine, covers⟩ := covered keep
    refine ⟨e, ?_, mine, covers⟩
    by_cases here : (rowResource row).name = name
    · rw [here] at mem ⊢
      rw [update_self]
      exact edit.kept e mem (mine ▸ other)
    · rwa [update_of_ne here]
  waiting o ch at' := by
    obtain ⟨mine, free⟩ := ok.waiting o ch at'
    refine ⟨fun e mem eq => ?_, free⟩
    by_cases here : (rowResource o.row).name = name
    · rw [here, update_self] at mem
      rcases edit.sources e mem with ⟨w, inside, txnID, mode', ch'⟩ | ⟨-, -, new⟩
      · rw [← txnID, ← mode']
        exact mine w (by rwa [here]) (ch'.trans eq)
      · exact absurd (old o ch at') (by omega)
    · rw [update_of_ne here] at mem
      exact mine e mem eq
  body := ok.body

/-- The call neither waits for a row lock nor stands before the body. -/
def TwoPLCall.Free : TwoPLCall → Prop
  | .waiting _ .row _ | .body _ => False
  | _ => True

theorem TxnLocks.quiet (ok : TxnLocks kept queue txn call) (id : txn'.id = txn.id)
    (held : txn'.locksHeld = txn.locksHeld) (free : ∀ x ∈ call', x.Free) :
    TxnLocks kept queue txn' call' where
  held := by
    rw [held, id]
    exact ok.held
  waiting o ch at' := (free _ at').elim
  body o at' := (free _ at').elim

end Frame

section Change
variable {kept : Mode → Prop} {s s' : TwoPLRun} {t ch : Nat} {queue : GoString → Queue} {txn : Transaction}
  {call y : Option TwoPLCall} {z : Option Transaction} {q' : Queue} {o : RowOp}

/-- A step of `t` that edits at most one queue. -/
theorem RunLocks.change (inv : RunLocks kept s) (name : GoString) (mode : Mode) (q' : Queue)
    (queue : s'.mgr.queue = update s.mgr.queue name q') (edit : QueueEdit t s.nextCh mode (s.mgr.queue name) q')
    (row : ∀ row, (rowResource row).name = name → q'.RowLocks)
    (fresh : (∀ e ∈ q'.granted ++ q'.waiting, e.grantedCh < s.nextCh) ∧ s.nextCh ≤ s'.nextCh ∨ s.nextCh < s'.nextCh)
    (txns : ∀ u, s'.mgr.txns.get u = if u = t then z else s.mgr.txns.get u)
    (calls : ∀ u, s'.calls.get u = if u = t then y else s.calls.get u)
    (waits : ∀ o stage ch, y = some (.waiting o stage ch) → ch < s'.nextCh)
    (own : ∀ txn ∈ z, txn.id = t ∧ TxnLocks kept (update s.mgr.queue name q') txn y) :
    RunLocks kept s' := by
  have grow : s.nextCh ≤ s'.nextCh := by omega
  refine ⟨fun row' => ?_, fun name' e mem => ?_, fun u o stage ch at' => ?_, fun u txn found => ?_⟩
  · rw [queue]
    by_cases here : (rowResource row').name = name
    · rw [here, update_self]
      exact row row' here
    · rw [update_of_ne here]
      exact inv.queues row'
  · rw [queue] at mem
    by_cases here : name' = name
    · subst here
      rw [update_self] at mem
      rcases fresh with ⟨old, -⟩ | grown
      · exact (old e mem).trans_le grow
      · rcases edit.sources e mem with ⟨w, inside, -, -, ch⟩ | ⟨-, -, ch⟩
        · have := inv.channels name' w inside
          omega
        · omega
    · rw [update_of_ne here] at mem
      exact (inv.channels name' e mem).trans_le grow
  · rw [calls] at at'
    split at at'
    · exact waits o stage ch at'
    · exact (inv.waits u o stage ch at').trans_le grow
  · rw [txns] at found
    rw [queue, calls]
    by_cases same : u = t
    · rw [if_pos same] at found ⊢
      exact same ▸ own txn found
    · rw [if_neg same] at found ⊢
      obtain ⟨id, ok⟩ := inv.txns u txn found
      exact ⟨id, ok.others (id ▸ same) edit fun o ch => inv.waits u o .row ch⟩

theorem RunLocks.still (inv : RunLocks kept s) (queue : s'.mgr.queue = s.mgr.queue) (ch : s'.nextCh = s.nextCh)
    (txns : ∀ u, s'.mgr.txns.get u = if u = t then z else s.mgr.txns.get u)
    (calls : ∀ u, s'.calls.get u = if u = t then y else s.calls.get u)
    (waits : ∀ o stage ch, y = some (.waiting o stage ch) → ch < s.nextCh)
    (own : ∀ txn ∈ z, txn.id = t ∧ TxnLocks kept s.mgr.queue txn y) : RunLocks kept s' := by
  apply inv.change (t := t) [] .nl (s.mgr.queue []) _ (.refl _)
    _ (.inl ⟨inv.channels [], ch.ge⟩) txns calls
  · rwa [ch]
  · rwa [update_eq_self]
  · rw [queue, update_eq_self]
  · intro row eq
    cases eq

theorem TxnLocks.away {txn' : Transaction} {call' : Option TwoPLCall} {name : GoString}
    (ok : TxnLocks kept queue txn call) (id : txn'.id = txn.id)
    (held : ∀ row, txn'.locksHeld.get (rowResource row) = txn.locksHeld.get (rowResource row))
    (away : ∀ row, (rowResource row).name ≠ name) (free : ∀ x ∈ call', x.Free) :
    TxnLocks kept (update queue name q') txn' call' where
  held row m := by
    rw [held, id]
    unfold Covered
    rw [update_of_ne (away row)]
    exact ok.held row m
  waiting o ch at' := (free _ at').elim
  body o at' := (free _ at').elim

theorem RowOp.resource_row (o : RowOp) : o.resource .row = rowResource o.row := rfl

theorem rowMode_of_le {m k : Mode} (row : m = .s ∨ m = .x) (row' : k = .s ∨ k = .x)
    (le : lockStrength k ≤ lockStrength m) : m = .x ∨ m = k := by
  rcases row with rfl | rfl <;> rcases row' with rfl | rfl <;> revert le <;> decide

theorem rowMode_of_lt {m k : Mode} (row : m = .s ∨ m = .x) (row' : k = .s ∨ k = .x)
    (lt : lockStrength m < lockStrength k) : k = .x := by
  rcases row with rfl | rfl <;> rcases row' with rfl | rfl <;> revert lt <;> decide

/-- The transaction takes a row lock at once. -/
theorem TxnLocks.grant {h : HeldSet} (ok : TxnLocks kept queue txn call)
    (dropped : Dropped (queue (rowResource o.row).name) txn.locksHeld txn.id (rowResource o.row) (o.mode .row) q' h) :
    TxnLocks kept (update queue (rowResource o.row).name (q'.addGranted ⟨txn.id, o.mode .row, .granted, ch⟩))
      { txn with locksHeld := h.set (rowResource o.row) (o.mode .row) } (some (.body o)) where
  held row m get := by
    have new : (⟨txn.id, o.mode .row, .granted, ch⟩ : Request) ∈
        (q'.addGranted ⟨txn.id, o.mode .row, .granted, ch⟩).granted :=
      mem_append_right _ mem_cons_self
    rw [get_set] at get
    by_cases this : rowResource row = rowResource o.row
    · rw [if_pos this] at get
      cases get
      refine ⟨o.mode_row, fun _ => ?_⟩
      unfold Covered
      rw [this, update_self]
      exact ⟨_, new, rfl, .inl rfl⟩
    · rw [if_neg this] at get
      have old : txn.locksHeld.get (rowResource row) = some m := by rwa [dropped.get, if_neg this] at get
      obtain ⟨mode, covered⟩ := ok.held row m old
      refine ⟨mode, fun keep => ?_⟩
      obtain ⟨e, mem, mine, covers⟩ := covered keep
      unfold Covered
      by_cases here : (rowResource row).name = (rowResource o.row).name
      · rw [here, update_self]
        rcases dropped with ⟨rfl, -, -⟩ | ⟨-, ⟨weaker, held, lt⟩, -⟩
        · exact ⟨e, mem_append_left _ (here ▸ mem), mine, covers⟩
        · -- the grant for the other row of this name went too, but X covers both
          exact ⟨_, new, rfl, .inr (rowMode_of_lt (ok.held _ _ held).1 o.mode_row lt)⟩
      · rw [update_of_ne here]
        exact ⟨e, mem, mine, covers⟩
  waiting _ _ at' := by cases at'
  body o' at' _ := by
    cases at'
    exact ⟨o.mode .row, by rw [get_set, if_pos rfl], .inr rfl⟩

/-- The transaction has to wait for a row lock. -/
theorem TxnLocks.wait {h : HeldSet} {k : Nat} (ok : TxnLocks kept queue txn call)
    (old : ∀ e ∈ q'.granted ++ q'.waiting, e.grantedCh < k)
    (sub : ∀ r m, h.get r = some m → txn.locksHeld.get r = some m)
    (patient : ∀ row m, (rowResource row).name = (rowResource o.row).name → kept m →
      txn.locksHeld.get (rowResource row) ≠ some m) :
    TxnLocks kept (update queue (rowResource o.row).name (q'.addWaiting ⟨txn.id, o.mode .row, .granted, k⟩))
      { txn with locksHeld := h } (some (.waiting o .row k)) where
  held row m get := by
    obtain ⟨mode, covered⟩ := ok.held row m (sub _ m get)
    refine ⟨mode, fun keep => ?_⟩
    have away : (rowResource row).name ≠ (rowResource o.row).name := by
      intro here
      exact patient row m here keep (sub _ m get)
    unfold Covered
    rw [update_of_ne away]
    exact covered keep
  waiting o' ch at' := by
    cases at'
    refine ⟨fun e mem eq => ?_, fun row m here keep get => patient row m here keep (sub _ m get)⟩
    rw [update_self] at mem
    simp only [addWaiting, ← append_assoc, mem_append, mem_singleton] at mem
    rcases mem with prior | rfl
    · have := old e (mem_append.2 prior)
      omega
    · exact ⟨rfl, rfl⟩
  body o' at' := by cases at'

section
variable (inv : RunLocks kept s)
include inv

/-- A visit to a queue by `AcquireLockCtx`. -/
theorem RunLocks.visit (name : GoString) (mode : Mode) (q' : Queue) (h : HeldSet) (call : TwoPLCall)
    (edit : QueueEdit txn.id s.nextCh mode (s.mgr.queue name) q')
    (row : ∀ row, (rowResource row).name = name → q'.RowLocks)
    (waits : ∀ o stage ch, call = .waiting o stage ch → ch = s.nextCh)
    (own : TxnLocks kept (update s.mgr.queue name q') { txn with locksHeld := h } (some call)) :
    RunLocks kept (goto
      { s with
        mgr := (s.mgr.setQueue name q').putTxn { txn with locksHeld := h }
        nextCh := s.nextCh + 1 } txn.id (some call)) := by
  refine inv.change (t := txn.id) name mode q' (s.mgr.queue_setQueue name q') edit row
    (.inr (Nat.lt_succ_self _)) (fun u => get_set ..) get_goto ?_ ?_
  · rintro o stage ch ⟨⟩
    exact Nat.lt_succ_of_le (waits o stage ch rfl).le
  · rintro _ ⟨⟩
    exact ⟨rfl, own⟩

omit inv in
/-- When the transaction has to wait, it has no kept lock in the queue. -/
def Patient (kept : Mode → Prop) (s : TwoPLRun) (txn : Transaction) (o : RowOp) (stage : LockStage) : Prop :=
  ∀ conflictors, (acquireLocked (s.mgr.queue (o.resource stage).name) txn.locksHeld txn.id
      (o.resource stage) (o.mode stage) s.nextCh).1 = .waiting conflictors →
    ∀ row m, (rowResource row).name = (o.resource stage).name → kept m → txn.locksHeld.get (rowResource row) ≠ some m

theorem acquire_table (active : s.mgr.txns.get t = some txn) : RunLocks kept (s.acquire txn o .table) := by
  obtain ⟨id, ok⟩ := inv.txns t txn active
  have away (row : RowRef) : (rowResource row).name ≠ (o.resource .table).name := rowResource_name_ne row o.row.1
  have noRow (q' : Queue) (row : RowRef) (here : (rowResource row).name = (o.resource .table).name) :
      q'.RowLocks := absurd here (away row)
  have otherwise (row : RowRef) : rowResource row ≠ o.resource .table := by
    intro eq
    cases eq
  unfold acquire
  rcases acquireLocked_cases (s.mgr.queue (o.resource .table).name) txn.locksHeld txn.id
    (o.resource .table) (o.mode .table) s.nextCh with ⟨existing, -, -, eq⟩ | ⟨q', h, dropped, outcome⟩
  · simp only [eq]
    apply inv.visit _ (o.mode .table) _ _ _ (.refl _) (noRow _)
    · nofun
    · apply ok.away rfl (fun _ => rfl) away
      rintro x ⟨⟩
      trivial
  · have rows (row : RowRef) : h.get (rowResource row) = txn.locksHeld.get (rowResource row) := by
      rw [dropped.get, if_neg (otherwise row)]
    rcases outcome with ⟨-, eq⟩ | ⟨-, eq⟩
    · simp only [eq]
      apply inv.visit _ (o.mode .table) _ _ _ (.trans (.dropped dropped) .addGranted) (noRow _)
      · nofun
      · refine ok.away rfl (fun row => ?_) away ?_
        · rw [get_set, if_neg (otherwise row), rows]
        · rintro x ⟨⟩
          trivial
    · simp only [eq]
      apply inv.visit _ (o.mode .table) _ _ _ (.trans (.dropped dropped) .addWaiting) (noRow _)
      · rintro o' stage ch ⟨⟩
        rfl
      · refine ok.away rfl rows away ?_
        rintro x ⟨⟩
        trivial

theorem acquire_row (active : s.mgr.txns.get t = some txn) (patient : Patient kept s txn o .row) :
    RunLocks kept (s.acquire txn o .row) := by
  obtain ⟨id, ok⟩ := inv.txns t txn active
  have queues := inv.queues o.row
  unfold acquire
  unfold Patient at patient
  rw [o.resource_row] at patient ⊢
  rcases acquireLocked_cases (s.mgr.queue (rowResource o.row).name) txn.locksHeld txn.id
    (rowResource o.row) (o.mode .row) s.nextCh with ⟨existing, get, enough, eq⟩ | ⟨q', h, dropped, outcome⟩
  · simp only [eq]
    apply inv.visit _ (o.mode .row) _ _ _ (.refl _) fun _ _ => queues
    · nofun
    · rw [update_eq_self]
      refine ⟨ok.held, fun o' ch at' => ?_, fun o' at' _ => ?_⟩
      · cases at'
      · cases at'
        exact ⟨existing, get, rowMode_of_le (ok.held _ _ get).1 o.mode_row enough⟩
  · have sub (e : Request) (mem : e ∈ q'.granted ++ q'.waiting) : e ∈ (s.mgr.queue (rowResource o.row).name).granted ++
          (s.mgr.queue (rowResource o.row).name).waiting := by
      rcases dropped with ⟨rfl, -, -⟩ | ⟨rfl, -, -⟩
      · exact mem
      · exact mem_of_mem_removeGranted mem
    have locks : q'.RowLocks := by
      rcases dropped with ⟨rfl, -, -⟩ | ⟨rfl, -, -⟩
      · exact queues
      · exact queues.removeGranted
    rcases outcome with ⟨can, eq⟩ | ⟨-, eq⟩
    · simp only [eq]
      apply inv.visit _ (o.mode .row) _ _ _ (.trans (.dropped dropped) .addGranted)
        fun _ _ => locks.addGranted o.mode_row can
      · nofun
      · exact ok.grant dropped
    · simp only [eq]
      apply inv.visit _ (o.mode .row) _ _ _ (.trans (.dropped dropped) .addWaiting)
        fun _ _ => locks.addWaiting o.mode_row
      · rintro o' stage ch ⟨⟩
        rfl
      apply ok.wait
      · exact fun e mem => inv.channels _ e (sub e mem)
      · intro r m get
        rw [dropped.get] at get
        split at get
        · cases get
        · exact get
      · exact patient _ (by rw [eq])

namespace RunLocks

theorem ids (t : Nat) (txn : Transaction)
    (found : s.mgr.txns.get t = some txn) : txn.id = t := (inv.txns t txn found).1

theorem moved (lockTable : s'.mgr.lockTable = s.mgr.lockTable) (ch : s'.nextCh = s.nextCh)
    (txns : s'.mgr.txns = s.mgr.txns ∨ s'.mgr.txns = s.mgr.txns.delete t ∨
      ∃ txn txn', s.mgr.txns.get t = some txn ∧ s'.mgr.txns = s.mgr.txns.set t txn' ∧
        txn'.id = txn.id ∧ txn'.locksHeld = txn.locksHeld)
    (calls : ∀ u, s'.calls.get u = if u = t then y else s.calls.get u)
    (free : ∀ x ∈ y, x.Free ∧ ∀ o stage ch, x ≠ .waiting o stage ch) : RunLocks kept s' := by
  have queue : s'.mgr.queue = s.mgr.queue := by
    unfold Manager.queue
    rw [lockTable]
  have waits (o : RowOp) (stage : LockStage) (ch : Nat) (at' : y = some (.waiting o stage ch)) :
      ch < s.nextCh := absurd rfl ((free _ at').2 o stage ch)
  rcases txns with same | gone | ⟨txn, txn', old, set, id, held⟩
  · refine inv.still queue ch (by rw [same]; exact get_of_eq rfl) calls waits fun txn found => ?_
    obtain ⟨id, ok⟩ := inv.txns t txn found
    exact ⟨id, ok.quiet rfl rfl fun x mem => (free x mem).1⟩
  · refine inv.still queue ch (fun u => gone ▸ get_delete ..) calls waits ?_
    nofun
  · refine inv.still queue ch (fun u => set ▸ get_set ..) calls waits ?_
    rintro _ ⟨⟩
    obtain ⟨id', ok⟩ := inv.txns t txn old
    exact ⟨id.trans id', ok.quiet id held fun x mem => (free x mem).1⟩

theorem granted {stage : LockStage} (active : s.mgr.txns.get txn.id = some txn)
    (here : s.calls.get txn.id = some (.waiting o stage ch)) (wakes : s.wakes o stage ch = true) :
    RunLocks kept ((s.setMgr (s.mgr.putTxn { txn with
      locksHeld := txn.locksHeld.set (o.resource stage) (o.mode stage) })).goto txn.id (some (locked o stage))) := by
  obtain ⟨-, ok⟩ := inv.txns txn.id txn active
  rw [here] at ok
  refine inv.still (t := txn.id) rfl rfl (fun u => get_set ..) get_goto ?_ ?_
  · intro o' stage' ch' at'
    cases stage <;> cases at'
  · rintro _ ⟨⟩
    refine ⟨rfl, ?_⟩
    cases stage with
    | table =>
      refine ⟨fun row m get => ?_, fun o' ch' at' => ?_, fun o' at' => ?_⟩
      · have other : rowResource row ≠ o.resource .table := by
          intro eq
          cases eq
        rw [get_set, if_neg other] at get
        exact ok.held row m get
      · cases at'
      · cases at'
    | row =>
      obtain ⟨mine, -⟩ := ok.waiting o ch rfl
      obtain ⟨e, mem, eq⟩ := any_eq_true.1 wakes
      obtain ⟨owner, mode⟩ := mine e (mem_append_left _ mem) (beq_iff_eq.1 eq)
      refine ⟨fun row m get => ?_, fun o' ch' at' => ?_, fun o' at' _ => ?_⟩
      · rw [get_set] at get
        split at get
        · rename_i this
          cases get
          refine ⟨o.mode_row, fun _ => ⟨e, ?_, owner, .inl mode⟩⟩
          rw [this]
          exact mem
        · exact ok.held row m get
      · cases at'
      · cases at'
        exact ⟨o.mode .row, by rw [o.resource_row, get_set, if_pos rfl], .inr rfl⟩

theorem leave {name : GoString} (queue : s'.mgr.queue = update s.mgr.queue name q'.grantWaiters)
    (edit : QueueEdit t s.nextCh .nl (s.mgr.queue name) q') (locks : (s.mgr.queue name).RowLocks → q'.RowLocks)
    (sub : ∀ e ∈ q'.granted ++ q'.waiting, e ∈ (s.mgr.queue name).granted ++ (s.mgr.queue name).waiting)
    (ch : s'.nextCh = s.nextCh) (txns : s'.mgr.txns = s.mgr.txns)
    (calls : ∀ u, s'.calls.get u = if u = t then y else s.calls.get u)
    (quiet : ∀ x ∈ y, ∀ o stage ch, x ≠ .waiting o stage ch)
    (own : ∀ txn, s.mgr.txns.get t = some txn → TxnLocks kept (update s.mgr.queue name q'.grantWaiters) txn y) :
    RunLocks kept s' := by
  refine inv.change (t := t) name .nl _ queue (edit.trans .grantWaiters) ?_ ?_
    (by rw [txns]; exact get_of_eq rfl) calls ?_ ?_
  · intro row here
    exact (locks (here ▸ inv.queues row)).grantWaiters
  · refine .inl ⟨fun e mem => ?_, ch.ge⟩
    obtain ⟨w, inside, -, -, eq⟩ := source_grantWaiters mem
    exact eq ▸ inv.channels name w (sub w inside)
  · intro o stage ch' at'
    exact absurd rfl (quiet _ at' o stage ch')
  · intro txn found
    exact ⟨(inv.txns t txn found).1, own txn found⟩

theorem gaveUp {stage : LockStage} (here : s.calls.get t = some (.waiting o stage ch)) :
    RunLocks kept ((s.setMgr (s.mgr.setQueue (o.resource stage).name
      (giveUpLocked (s.mgr.queue (o.resource stage).name) t))).goto t none) := by
  refine inv.leave (s.mgr.queue_setQueue _ _) (.trans .removeWaiting .removeGranted)
    (fun locks => locks.removeWaiting.removeGranted) ?_ rfl rfl get_goto ?_ ?_
  · intro e mem
    cases mem_append.1 (mem_of_mem_removeGranted mem) with
    | inl granted => exact mem_append_left _ granted
    | inr waiting => exact mem_append_right _ (mem_of_mem_eraseP waiting)
  · nofun
  · intro txn found
    obtain ⟨id, ok⟩ := inv.txns t txn found
    rw [here] at ok
    refine ⟨fun row m get => ?_, fun o' ch' at' => ?_, fun o' at' => ?_⟩
    · obtain ⟨mode, covered⟩ := ok.held row m get
      refine ⟨mode, fun keep => ?_⟩
      -- it holds no lock of this name that is kept
      have away : (rowResource row).name ≠ (o.resource stage).name := by
        cases stage with
        | table => exact rowResource_name_ne row o.row.1
        | row => exact fun this => (ok.waiting o ch rfl).2 row m this keep get
      unfold Covered
      rw [update_of_ne away]
      exact covered keep
    · cases at'
    · cases at'

/-- Every step keeps the locks, when no wait gives up a lock that is kept. -/
theorem step (books : Books s) {a : TwoPLAction} (step : TwoPLStep s a s')
    (patient : ∀ t txn o, a = .acquire t → s.mgr.txns.get t = some txn →
      s.calls.get t = some (.acquire o .row) → Patient kept s txn o .row) : RunLocks kept s' := by
  cases step with
  | refused => exact inv
  | @begun isoLevel m begun =>
    obtain ⟨last, txns⟩ := begun.txns
    have queue : (s.setMgr m).mgr.queue = s.mgr.queue := by
      unfold Manager.queue
      rw [show (s.setMgr m).mgr.lockTable = _ from begun.lockTable]
    have unknown : s.calls.get (s.mgr.nextID + 1) = none := by
      cases found : s.calls.get (s.mgr.nextID + 1) with
      | none => rfl
      | some call => exact absurd (books.calls _ call found).1 (by omega)
    refine inv.still (t := s.mgr.nextID + 1) queue rfl
      (fun u => (congrArg (·.get u) txns).trans (get_set ..)) (get_of_eq unknown) ?_ ?_
    · nofun
    · rintro _ ⟨⟩
      refine ⟨rfl, fun row m get => ?_, fun o ch at' => ?_, fun o at' => ?_⟩
      · cases get
      · cases at'
      · cases at'
  | @startUnlocked t txn _ active _ level =>
    refine inv.still (t := t) rfl rfl (get_of_eq active) get_goto ?_ ?_
    · nofun
    · rintro _ ⟨⟩
      obtain ⟨id, ok⟩ := inv.txns t txn active
      refine ⟨id, ok.held, fun o ch at' => ?_, fun o at' locked => ?_⟩
      · cases at'
      · cases at'
        exact locked.elim (absurd level) nofun
  | start | rollback | undone =>
    refine inv.moved rfl rfl (.inl rfl) get_goto ?_
    rintro x ⟨⟩
    exact ⟨trivial, nofun⟩
  | @acquire t txn o stage active here =>
    cases stage with
    | table => exact acquire_table inv active
    | row => exact acquire_row inv active (patient t txn o rfl active here)
  | @granted t txn _ _ _ active here wakes =>
    obtain rfl := inv.ids t txn active
    exact inv.granted active here wakes
  | @gaveUp _ _ _ _ here => exact inv.gaveUp here
  | read | failed =>
    refine inv.moved rfl rfl (.inl rfl) get_goto ?_
    nofun
  | @wrote t txn _ _ _ _ active _ written =>
    obtain rfl := inv.ids t txn active
    obtain ⟨last, before, txns⟩ := written.txns
    refine inv.moved written.lockTable rfl (.inr (.inr ⟨txn, _, active, txns, rfl, rfl⟩)) get_goto ?_
    nofun
  | @savepoint t txn name active idle =>
    obtain rfl := inv.ids t txn active
    refine inv.moved (y := none) rfl rfl (.inr (.inr ⟨txn, _, active, rfl, rfl, rfl⟩)) (get_of_eq idle) ?_
    nofun
  | @undid t e more lastCLR | @undidAborted t _ e more lastCLR =>
    have same := (s.mgr.undoEntry_spec t e more lastCLR).1
    refine inv.moved same.lockTable rfl (.inl same.txns) get_goto ?_
    rintro x ⟨⟩
    exact ⟨trivial, nofun⟩
  | @rolledBack t txn _ _ active =>
    obtain rfl := inv.ids t txn active
    refine inv.moved rfl rfl (.inr (.inr ⟨txn, _, active, rfl, rfl, rfl⟩)) get_goto ?_
    nofun
  | @commit t txn active idle =>
    have same := s.mgr.sameBooks_logAppend (Wal.commitRecord t txn.lastWALLSN)
    refine inv.moved same.lockTable rfl (.inr (.inl (congrArg (·.delete t) same.txns))) get_goto ?_
    rintro x ⟨⟩
    exact ⟨trivial, nofun⟩
  | @abort t txn active idle =>
    refine inv.moved rfl rfl (.inr (.inl rfl)) get_goto ?_
    rintro x ⟨⟩
    exact ⟨trivial, nofun⟩
  | @release t txn rest prev m r txn' rest' here released =>
    rcases released with rfl | rfl
    · refine inv.moved rfl rfl (.inl rfl) get_goto ?_
      rintro x ⟨⟩
      exact ⟨trivial, nofun⟩
    · refine inv.leave (s.mgr.queue_reapQueue _ _) .removeGranted (fun locks => locks.removeGranted)
        (fun e mem => mem_of_mem_removeGranted mem) rfl rfl
        get_goto ?_ ?_
      · rintro x ⟨⟩ o stage ch eq
        cases eq
      · intro txn found
        exact absurd (active_of_get found) ((books.calls t _ here).2.1 trivial)
  | @finish t _ _ _ _ logged =>
    rcases logged with rfl | ⟨last, -, rfl⟩
    · refine inv.moved rfl rfl (.inl rfl) get_goto ?_
      nofun
    · have same := s.mgr.sameBooks_logAppend (Wal.abortRecord t last)
      refine inv.moved same.lockTable rfl (.inl same.txns) get_goto ?_
      nofun

end RunLocks

end

end Change

end TransactionManager.Txn
