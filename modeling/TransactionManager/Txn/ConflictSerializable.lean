import TransactionManager.Txn.TwoPLHistory
import TransactionManager.Lib.Acyclic

/-!
# Conflict serializability of two-phase locking

The conflict graph of a history: one transaction points at another when one of its accesses
comes before a conflicting access of the other. With locks held to the end every edge goes
from an earlier commit to a later one. `AcquireLockCtx` does not hold them to the end: it
drops the grants of the requester before it makes it wait.
-/

namespace TransactionManager.Txn
open Lib TransactionManager.Types Lock

/-- Both committed, and an access of `t` comes before a conflicting one of `u`. -/
def ConflictEdge (h : List TwoPLEvent) (t u : Nat) : Prop :=
  t ≠ u ∧ .commit t ∈ h ∧ .commit u ∈ h ∧ ∃ e e' row k k', e.access = some (t, row, k) ∧
    e'.access = some (u, row, k') ∧ (k = .x ∨ k' = .x) ∧ Precedes h e e'

/-- Two committed transactions both read the row before the other one overwrites it. -/
def BothOverwrite (h : List TwoPLEvent) (t u : Nat) (row : RowRef) : Prop :=
  t ≠ u ∧ .commit t ∈ h ∧ .commit u ∈ h ∧ ∃ op op' values values',
    Precedes h (.read t row) (.write u row op values) ∧ Precedes h (.read u row) (.write t row op' values')

/-- The committed transactions are conflict serializable; in particular no two of them both read a row's old value and
then overwrite it. -/
def ConflictSerializable (h : List TwoPLEvent) : Prop := Acyclic (ConflictEdge h) ∧ ∀ t u row, ¬ BothOverwrite h t u row

def RowLevel : TwoPLAction → Prop
  | .begin isoLevel => isoLevel = .repeatableRead ∨ isoLevel = .serializable
  | _ => True

instance (a : TwoPLAction) : Decidable (RowLevel a) := by
  cases a <;> unfold RowLevel <;> infer_instance

/-- The lock a call is about to ask for. -/
def TwoPLCall.acquiring : TwoPLCall → Option (RowOp × LockStage)
  | .acquire o stage => some (o, stage)
  | _ => none

/-- A transaction that has a grant in the queue of the lock it asks for need not wait there: it holds enough, or the
mode can be granted. -/
def NeedNotWait (s : TwoPLRun) (txn : Transaction) (r : ResourceID) (mode : Mode) : Prop :=
  (∀ e ∈ (s.mgr.queue r.name).granted, e.txnID ≠ txn.id) ∨
    (∃ held ∈ txn.locksHeld.get r, lockStrength mode ≤ lockStrength held) ∨
    (s.mgr.queue r.name).canGrant mode txn.id = true

def UpgradeFits (s : TwoPLRun) (a : TwoPLAction) : Prop := RowLevel a ∧ match a with
    | .acquire t => ∀ txn ∈ s.mgr.txns.get t, ∀ call ∈ s.calls.get t, ∀ o ∈ call.acquiring,
        NeedNotWait s txn (o.1.resource o.2) (o.1.mode o.2)
    | _ => True

instance (s : TwoPLRun) (a : TwoPLAction) : Decidable (UpgradeFits s a) := by
  cases a <;> unfold UpgradeFits <;> unfold NeedNotWait <;> infer_instance

/-- Then no wait gives up a lock. -/
theorem patient_of_needNotWait {s : TwoPLRun} {t : Nat} {txn : Transaction} {o : RowOp}
    (locks : RunLocks (fun _ => True) s) (active : s.mgr.txns.get t = some txn)
    (fits : NeedNotWait s txn (o.resource .row) (o.mode .row)) :
    Patient (fun _ => True) s txn o .row := by
  intro conflictors waits row m name _ get
  obtain ⟨-, ok⟩ := locks.txns t txn active
  obtain ⟨e, mem, mine, -⟩ := (ok.held row m get).2 trivial
  rcases acquireLocked_cases (s.mgr.queue (o.resource .row).name) txn.locksHeld txn.id
    (o.resource .row) (o.mode .row) s.nextCh with ⟨-, -, -, eq⟩ | ⟨q', h, dropped, ⟨-, eq⟩ | ⟨cannot, -⟩⟩
  · rw [eq] at waits
    cases waits
  · rw [eq] at waits
    cases waits
  rcases fits with none | ⟨held, enough, le⟩ | can
  · exact none e (name ▸ mem) mine
  · have := dropped.weaker enough
    omega
  · rw [dropped.canGrant, can] at cannot
    cases cannot

theorem twoPLInv_of_upgradeFits {seed : Storage.Catalog} {maxActive : Nat} {wal : Option Wal.Log}
    {s : TwoPLRun} (reached : Reach TwoPLRun.next UpgradeFits (.start seed maxActive wal) s) :
    TwoPLInv (fun _ => True) s := by
  refine reached.invariant (.start _ seed maxActive wal) fun s a s' inv fits taken => ?_
  apply inv.step trivial taken
  · rintro isoLevel rfl _ rfl
    rcases fits.1 with eq | eq <;> cases eq
  · rintro t txn o rfl active here
    exact patient_of_needNotWait inv.locks active (fits.2 txn active _ here (o, .row) rfl)

/-- An edge goes from an earlier commit to a later one. -/
theorem TwoPLInv.forward {s : TwoPLRun} (inv : TwoPLInv (fun _ => True) s) {t u : Nat}
    (edge : ConflictEdge s.hist t u) : Precedes s.hist (.commit t) (.commit u) := by
  obtain ⟨ne, commitT, commitU, e, e', row, k, k', access, access', conflict, precedes⟩ := edge
  have committed := (inv.books.commits t).1 commitT
  have first : Precedes s.hist (.commit t) e' :=
    (inv.hist.order e e' t u row k k' access access' ne trivial trivial conflict precedes).resolve_left
      (inv.books.disjoint t committed)
  -- the access of `u` comes before its commit, so does the commit of `t`
  have different : TwoPLEvent.commit t ≠ .commit u := fun eq => ne (TwoPLEvent.commit.inj eq)
  rcases precedes_total commitT commitU different with good | bad
  · exact good
  · exact absurd (bad.trans first (inv.books.once t)) (inv.books.before e' u row k' access')

/-- When no wait gives up a lock, the history is conflict serializable. -/
theorem conflictSerializable_of_upgradeFits {seed : Storage.Catalog} {maxActive : Nat} {wal : Option Wal.Log}
    {s : TwoPLRun} (reached : Reach TwoPLRun.next UpgradeFits (.start seed maxActive wal) s) :
    ConflictSerializable s.hist := by
  have inv := twoPLInv_of_upgradeFits reached
  have acyclic : Acyclic (ConflictEdge s.hist) := by
    apply acyclic_of_lt fun t => s.hist.idxOf (.commit t)
    intro t u edge
    exact (inv.forward edge).idxOf_lt (inv.books.once u)
  refine ⟨acyclic, fun t u row both => ?_⟩
  obtain ⟨ne, commitT, commitU, op, op', values, values', first, second⟩ := both
  have forth : ConflictEdge s.hist t u := ⟨ne, commitT, commitU, _, _, row, .s, .x, rfl, rfl, .inr rfl, first⟩
  have back : ConflictEdge s.hist u t := ⟨ne.symm, commitU, commitT, _, _, row, .s, .x, rfl, rfl, .inr rfl, second⟩
  exact acyclic t (.tail (.single forth) back)

/-- A server with one row. -/
def counterRow : RowRef := ([99], [49])

@[inherit_doc counterRow]
def counter : TwoPLRun := .start (GoMap.set ∅ [99] (GoMap.set ∅ [49] (some [intVal 1]))) 0 none

/-- One transaction reads and overwrites the row after the other. -/
theorem conflictSerializable_sequential : ∃ s, Reach TwoPLRun.next UpgradeFits counter s ∧
    s.hist = [.read 1 counterRow, .write 1 counterRow .update (some [intVal 2]), .commit 1,
      .read 2 counterRow, .write 2 counterRow .update (some [intVal 3]), .commit 2] ∧
    ConflictSerializable s.hist := by
  exact Reach.exists_and [.begin .repeatableRead, .start 1 (.read counterRow), .acquire 1, .acquire 1, .body 1,
      .start 1 (.write counterRow (some [intVal 2]) .update), .acquire 1, .acquire 1, .body 1,
      .commit 1, .release 1 (rowResource counterRow), .release 1 (.table [99]), .finish 1,
      .begin .serializable, .start 2 (.read counterRow), .acquire 2, .acquire 2, .body 2,
      .start 2 (.write counterRow (some [intVal 3]) .update), .acquire 2, .acquire 2, .body 2,
      .commit 2]
    (by decide) fun s reached _ => conflictSerializable_of_upgradeFits reached

/-- Both transactions read the row. The first gives up its S lock to wait for X, the second gets X, overwrites the row
and commits, and the first overwrites it again. -/
theorem not_conflictSerializable : ¬ ∀ seed maxActive wal s,
    Reach TwoPLRun.next (fun _ => RowLevel) (.start seed maxActive wal) s → ConflictSerializable s.hist := by
  intro claim
  obtain ⟨s, reached, hist⟩ := Reach.exists_such TwoPLRun.next (fun _ => RowLevel) counter
    [.begin .repeatableRead, .begin .repeatableRead, .start 1 (.read counterRow), .acquire 1, .acquire 1, .body 1,
      .start 2 (.read counterRow), .acquire 2, .acquire 2, .body 2,
      .start 1 (.write counterRow (some [intVal 2]) .update), .acquire 1, .acquire 1,
      .start 2 (.write counterRow (some [intVal 2]) .update), .acquire 2, .acquire 2, .body 2,
      .commit 2, .release 2 (rowResource counterRow), .granted 1, .body 1, .commit 1]
    (fun s => s.hist = [.read 1 counterRow, .read 2 counterRow, .write 2 counterRow .update (some [intVal 2]),
      .commit 2, .write 1 counterRow .update (some [intVal 2]), .commit 1]) (by decide)
  refine (claim _ _ _ _ reached).2 1 2 counterRow ?_
  rw [hist]
  exact ⟨by decide, by decide, by decide, .update, .update, some [intVal 2], some [intVal 2], by decide, by decide⟩

/-- No dirty writes, at any level: whoever wrote a row before has ended when it is overwritten. -/
theorem noDirtyWrites {seed : Storage.Catalog} {maxActive : Nat} {wal : Option Wal.Log} {s : TwoPLRun}
    (reached : Reach TwoPLRun.next AnyStep (.start seed maxActive wal) s) {t u : Nat} {row : RowRef}
    {op op' : UndoOpType} {values values' : RowData} (ne : t ≠ u)
    (order : Precedes s.hist (.write t row op values) (.write u row op' values')) :
    t ∈ s.mgr.aborted ∨ Precedes s.hist (.commit t) (.write u row op' values') := by
  have inv : TwoPLInv (· = .x) s := by
    refine reached.invariant (.start _ seed maxActive wal) fun s a s' inv _ taken => ?_
    apply inv.step rfl taken
    · rintro isoLevel - ⟨⟩
    · exact fun t txn o _ active _ => inv.locks.patient_exclusive active
  exact inv.hist.order _ _ t u row .x .x rfl rfl ne rfl rfl (.inl rfl) order

/-- Both delete the row. -/
theorem noDirtyWrites_in_turn : ∃ s, Reach TwoPLRun.next AnyStep counter s ∧
    Precedes s.hist (.write 1 counterRow .delete none) (.write 2 counterRow .delete none) ∧
    (1 ∈ s.mgr.aborted ∨ Precedes s.hist (.commit 1) (.write 2 counterRow .delete none)) := by
  exact Reach.exists_and [.begin .readCommitted, .begin .readCommitted,
      .start 1 (.write counterRow none .delete), .acquire 1, .acquire 1, .body 1, .commit 1,
      .release 1 (rowResource counterRow), .start 2 (.write counterRow none .delete), .acquire 2, .acquire 2, .body 2]
    (by decide) fun s reached order => noDirtyWrites reached (by decide) order

end TransactionManager.Txn
