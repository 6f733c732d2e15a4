import TransactionManager.Lock.Queue
import TransactionManager.Lib.Run

/-!
# Interleavings of the lock manager

`AcquireLockCtx`, `ReleaseLock` and `ReleaseAllLocks` of `internal/lock/grant.go` over the
lock table of `table.go`, cut into their atomic steps: operations of the table's
`sync.Map`, and sections under a queue's mutex. A queue is an object at an address; the
table maps a resource's name to an address, so a call can hold on to a queue that the
table no longer knows. Each call in flight has a number. The wait-for graph is left out:
nothing here reads it.
-/

namespace TransactionManager.Lock
open Lib TransactionManager.Types Function

/-- Where a call in flight stands. `rest` is empty for `ReleaseLock` and holds the
resources still to release for `ReleaseAllLocks`. -/
inductive Call where
  | acquire (t : Nat) (r : ResourceID) (mode : Mode) (addr : Nat)
  | waiting (t : Nat) (r : ResourceID) (mode : Mode) (addr ch : Nat)
  | releaseAll (t : Nat) (rest : List ResourceID)
  | release (t : Nat) (r : ResourceID) (addr : Nat) (rest : Option (List ResourceID))
  | reap (t : Nat) (r : ResourceID) (rest : Option (List ResourceID))
  | forget (t : Nat) (r : ResourceID) (rest : Option (List ResourceID))
  deriving DecidableEq

def Call.txn : Call → Nat
  | .acquire t _ _ _ | .waiting t _ _ _ _ | .releaseAll t _ | .release t _ _ _ | .reap t _ _
  | .forget t _ _ => t

/-- The queue that an acquisition has in hand before it enters its section. -/
def Call.target : Call → Option Nat
  | .acquire _ _ _ addr => some addr
  | _ => none

/-- The resource whose queue the call is about to delete from the table. -/
def Call.reaps : Call → Option ResourceID
  | .reap _ r _ => some r
  | _ => none

/-- The lock manager and its callers. `closed` holds the closed `GrantedCh` channels. -/
structure LockRun where
  heap : Nat → Queue := fun _ => {}
  nextAddr : Nat := 0
  table : GoMap GoString Nat := ∅
  held : Nat → HeldSet := fun _ => ∅
  calls : GoMap Nat Call := ∅
  closed : List Nat := []
  nextCh : Nat := 0

/-- One atomic step of a call. `giveUp` is a wait that ends by abort, disconnect or timeout; `releaseAll` takes the
held keys in any order. -/
inductive LockAction where
  | acquire (c t : Nat) (r : ResourceID) (mode : Mode)
  | enter (c : Nat)
  | granted (c : Nat)
  | giveUp (c : Nat)
  | releaseLock (c t : Nat) (r : ResourceID)
  | releaseAll (c t : Nat) (order : List ResourceID)
  | nextResource (c : Nat)
  | release (c : Nat)
  | reap (c : Nat)
  | forget (c : Nat)
  deriving DecidableEq

namespace LockRun

/-- `GetOrCreate`: the address of the queue under a name, of a new queue if there is none. -/
def getOrCreate (s : LockRun) (name : GoString) : Nat × LockRun :=
  match s.table.get name with
  | some addr => (addr, s)
  | none => (s.nextAddr, { s with table := s.table.set name s.nextAddr, nextAddr := s.nextAddr + 1 })

/-- Leave a critical section: store the queue and close the channels of what was granted. -/
def store (s : LockRun) (addr : Nat) (before after : Queue) : LockRun :=
  { s with
    heap := update s.heap addr after
    closed := s.closed ++ before.newlyGranted.map (·.grantedCh) }

/-- The call goes on at another place, or returns. -/
def goto (s : LockRun) (c : Nat) (call : Option Call) : LockRun :=
  { s with calls := match call with
      | some call => s.calls.set c call
      | none => s.calls.delete c }

theorem get_goto {s : LockRun} {c : Nat} {call : Option Call} (c' : Nat) :
    (s.goto c call).calls.get c' = if c' = c then call else s.calls.get c' := by
  cases call <;> simp [goto]

def setHeld (s : LockRun) (t : Nat) (held : HeldSet) : LockRun := { s with held := update s.held t held }

/-- What follows the release of one resource: the next one, or the return of the call. -/
def afterRelease (t : Nat) : Option (List ResourceID) → Option Call
  | some rest => some (.releaseAll t rest)
  | none => none

/-- One step; `none` when the call is not at a place from which the step is taken. -/
def next (s : LockRun) : LockAction → Option LockRun
  | .acquire c t r mode =>
    match s.calls.get c with
    | some _ => none
    | none =>
      let (addr, s) := s.getOrCreate r.name
      some (s.goto c (some (.acquire t r mode addr)))
  | .enter c =>
    match s.calls.get c with
    | some (.acquire t r mode addr) =>
      let (result, q, held) := acquireLocked (s.heap addr) (s.held t) t r mode s.nextCh
      let s := { s with heap := update s.heap addr q, nextCh := s.nextCh + 1 }
      let s := s.setHeld t held
      match result with
      | .held | .granted => some (s.goto c none)
      | .waiting _ => some (s.goto c (some (.waiting t r mode addr (s.nextCh - 1))))
    | _ => none
  | .granted c =>
    match s.calls.get c with
    | some (.waiting t r mode _ ch) =>
      if ch ∈ s.closed then some ((s.setHeld t ((s.held t).set r mode)).goto c none) else none
    | _ => none
  | .giveUp c =>
    match s.calls.get c with
    | some (.waiting t _ _ addr _) =>
      let q := ((s.heap addr).removeWaiting t).removeGranted t
      some ((s.store addr q q.grantWaiters).goto c none)
    | _ => none
  | .releaseLock c t r =>
    match s.calls.get c with
    | some _ => none
    | none =>
      match s.table.get r.name with
      | some addr => some (s.goto c (some (.release t r addr none)))
      | none => some s
  | .releaseAll c t order =>
    match s.calls.get c with
    | some _ => none
    | none =>
      if order.Perm (s.held t).keys then some (s.goto c (some (.releaseAll t order))) else none
  | .nextResource c =>
    match s.calls.get c with
    | some (.releaseAll _ []) => some (s.goto c none)
    | some (.releaseAll t (r :: rest)) =>
      match s.table.get r.name with
      | some addr => some (s.goto c (some (.release t r addr (some rest))))
      | none => some ((s.setHeld t ((s.held t).delete r)).goto c (some (.releaseAll t rest)))
    | _ => none
  | .release c =>
    match s.calls.get c with
    | some (.release t r addr rest) =>
      let q := (s.heap addr).removeGranted t
      let s := s.store addr q q.grantWaiters
      if rest.isSome ∧ q.grantWaiters.isEmpty then some (s.goto c (some (.reap t r rest)))
      else some (s.goto c (some (.forget t r rest)))
    | _ => none
  | .reap c =>
    match s.calls.get c with
    | some (.reap t r rest) =>
      some ({ s with table := s.table.delete r.name }.goto c (some (.forget t r rest)))
    | _ => none
  | .forget c =>
    match s.calls.get c with
    | some (.forget t r rest) =>
      some ((s.setHeld t ((s.held t).delete r)).goto c (afterRelease t rest))
    | _ => none

/-- A call of the transaction has taken the lock on the resource away again and has only
bookkeeping left. -/
def Releasing (s : LockRun) (t : Nat) (r : ResourceID) : Prop :=
  ∃ c rest, s.calls.get c = some (.reap t r rest) ∨ s.calls.get c = some (.forget t r rest)

/-- The last acquisition of the resource by the transaction returned nil with this mode, and it has not been released.
-/
def Holds (s : LockRun) (t : Nat) (r : ResourceID) (mode : Mode) : Prop :=
  (s.held t).get r = some mode ∧ ¬ s.Releasing t r

/-- Any two transactions hold compatible modes of a resource. -/
def MutualExclusion (s : LockRun) : Prop :=
  ∀ t u r m m', t ≠ u → s.Holds t r m → s.Holds u r m' → lockCompatible m m' = true

def Idle (s : LockRun) (t : Nat) : Prop := ∀ c ∈ s.calls.keys, ∀ call ∈ s.calls.get c, call.txn ≠ t

/-- The transaction holds no other resource of the same name. -/
def NoAlias (s : LockRun) (t : Nat) (r : ResourceID) : Prop := ∀ r' ∈ (s.held t).keys, r'.name = r.name → r' = r

/-- Nobody uses the queue: it is empty and no acquirer has it in hand. -/
def Unused (s : LockRun) (addr : Nat) : Prop :=
  (s.heap addr).isEmpty = true ∧ ∀ c ∈ s.calls.keys, ∀ call ∈ s.calls.get c, call.target ≠ some addr

/-- The condition on the steps: a transaction makes one call at a time, acquires and releases no resource while it
holds another of the same name, and a queue is deleted only while nobody uses it. -/
def Orderly (s : LockRun) : LockAction → Prop
  | .acquire _ t r _ | .releaseLock _ t r => s.Idle t ∧ s.NoAlias t r
  | .releaseAll _ t _ => s.Idle t
  | .reap c => ∀ call ∈ s.calls.get c, ∀ r ∈ call.reaps, ∀ addr ∈ s.table.get r.name, s.Unused addr
  | _ => True

instance (s : LockRun) (a : LockAction) : Decidable (s.Orderly a) := by
  cases a <;> unfold Orderly Idle <;> unfold NoAlias <;> unfold Unused <;> infer_instance

end LockRun

/-!
## The invariant of the lock table

The invariant ties three views of a lock together: the held set of its owner, the call
its owner has in flight, and the owner's entry in the queue that the table knows under the
resource's name. A step of one transaction's call changes the entries of the others in one
way only: a waiter may be granted.
-/

open LockRun List GoMap Option Queue
variable {t : Nat} {q q' : Queue}

/-- The table and the heap fit together, and calls do not share channels. -/
structure TableInv (s : LockRun) : Prop where
  mapped : ∀ n addr, s.table.get n = some addr → addr < s.nextAddr
  inj : ∀ n n' addr, s.table.get n = some addr → s.table.get n' = some addr → n = n'
  orphan : ∀ addr, (∀ n, s.table.get n ≠ some addr) → s.heap addr = {}
  wf : ∀ addr, (s.heap addr).WF
  sequential : ∀ c c' x y, s.calls.get c = some x → s.calls.get c' = some y → x.txn = y.txn → c = c'
  channels : ∀ c c' t u r r' m m' a a' ch, s.calls.get c = some (.waiting t r m a ch) →
    s.calls.get c' = some (.waiting u r' m' a' ch) → c = c'
  bounded : ∀ c t r m a ch, s.calls.get c = some (.waiting t r m a ch) → ch < s.nextCh
  closed : ∀ ch ∈ s.closed, ch < s.nextCh

def CallOk (s : LockRun) : Call → Prop
  | .acquire t r _ addr => s.table.get r.name = some addr ∧ s.NoAlias t r
  | .waiting t r m addr ch => s.table.get r.name = some addr ∧ s.NoAlias t r ∧ (s.held t).get r = none ∧
      ((ch ∈ s.closed ∧ ∃ e ∈ (s.heap addr).granted, e.txnID = t ∧ e.mode = m) ∨
        ∃ e ∈ (s.heap addr).waiting, e.txnID = t ∧ e.mode = m ∧ e.grantedCh = ch ∧ ch ∉ s.closed)
  | .releaseAll t rest => ∀ r ∈ rest, s.NoAlias t r
  | .release t r addr rest => (∀ r' ∈ r :: rest.getD [], s.NoAlias t r') ∧
      addr < s.nextAddr ∧ (∀ n, s.table.get n = some addr → n = r.name) ∧
      ((s.held t).get r ≠ none → s.table.get r.name = some addr)
  | .reap t r rest | .forget t r rest => (∀ r' ∈ rest.getD [], s.NoAlias t r') ∧
      ∀ addr, s.table.get r.name = some addr → (s.heap addr).Lacks t

/-- What ties a transaction's held set, its call and its queue entries together. -/
structure TxnOk (s : LockRun) (t : Nat) : Prop where
  distinct : ∀ r r', (s.held t).get r ≠ none → (s.held t).get r' ≠ none → r.name = r'.name → r = r'
  holds : ∀ r m, s.Holds t r m → ∃ addr, s.table.get r.name = some addr ∧
    ∃ e ∈ (s.heap addr).granted, e.txnID = t ∧ e.mode = m
  call : ∀ c x, s.calls.get c = some x → x.txn = t → CallOk s x
  granted : ∀ n addr, s.table.get n = some addr → ∀ e ∈ (s.heap addr).granted, e.txnID = t →
    (∃ r, r.name = n ∧ s.Holds t r e.mode) ∨
      ∃ c r, s.calls.get c = some (.waiting t r e.mode addr e.grantedCh) ∧ r.name = n
  queued : ∀ n addr, s.table.get n = some addr → ∀ e ∈ (s.heap addr).waiting, e.txnID = t →
    ∃ c r, s.calls.get c = some (.waiting t r e.mode addr e.grantedCh) ∧ r.name = n

structure LockInv (s : LockRun) : Prop where
  table : TableInv s
  txns : ∀ t, TxnOk s t

/-- What a critical section of `t` does to the requests of the others: it may grant
waiters, whose channels `newly` it closes. -/
structure QueueStep (t : Nat) (q q' : Queue) (newly : List Nat) : Prop where
  wf : q'.WF
  granted : ∀ e ∈ q'.granted, e.txnID ≠ t → e ∈ q.granted ∨ ∃ w ∈ q.waiting, e = { w with status := .granted }
  waiting : ∀ e ∈ q'.waiting, e.txnID ≠ t → e ∈ q.waiting
  keepGranted : ∀ e ∈ q.granted, e.txnID ≠ t → e ∈ q'.granted
  keepWaiting : ∀ e ∈ q.waiting, e.txnID ≠ t →
    e ∈ q'.waiting ∨ { e with status := .granted } ∈ q'.granted ∧ e.grantedCh ∈ newly
  newly : ∀ ch ∈ newly, ∃ w ∈ q.waiting, w.txnID ≠ t ∧ w.grantedCh = ch ∧ { w with status := .granted } ∈ q'.granted

/-- Granting waiters after the requests of `t` have been taken out. -/
theorem queueStep_grantWaiters {p : Queue} (wf : p.WF) (lacks : p.Lacks t)
    (granted : ∀ e, e ∈ p.granted ↔ e ∈ q.granted ∧ e.txnID ≠ t)
    (waiting : ∀ e, e ∈ p.waiting ↔ e ∈ q.waiting ∧ e.txnID ≠ t) :
    QueueStep t q p.grantWaiters (p.newlyGranted.map (·.grantedCh)) where
  wf := wf.grantWaiters
  granted e mem _ := by
    cases mem_granted_grantWaiters mem with
    | inl old => exact .inl ((granted e).1 old).1
    | inr new =>
      obtain ⟨w, inside, eq, -⟩ := new
      exact .inr ⟨w, ((waiting w).1 inside).1, eq⟩
  waiting e mem _ := ((waiting e).1 (mem_waiting_grantWaiters mem)).1
  keepGranted e mem other := mem_append_left _ ((granted e).2 ⟨mem, other⟩)
  keepWaiting e mem other := waiting_grantWaiters ((waiting e).2 ⟨mem, other⟩)
  newly ch mem := by
    obtain ⟨e, new, rfl⟩ := mem_map.1 mem
    have prior := new
    rw [newlyGranted, grantable_eq_take] at prior
    obtain ⟨w, inside, rfl⟩ := mem_map.1 prior
    have member := mem_of_mem_take inside
    exact ⟨w, ((waiting w).1 member).1, lacks w (mem_append_right _ member), rfl, mem_append_right _ new⟩

namespace QueueStep

theorem lacks {u : Nat} {newly : List Nat}
    (step : QueueStep t q q' newly) (other : u ≠ t) (lacks : q.Lacks u) : q'.Lacks u := by
  rintro e mem rfl
  cases mem_append.1 mem with
  | inl granted =>
    rcases step.granted e granted other with old | ⟨w, waits, eq⟩
    · exact lacks e (mem_append_left _ old) rfl
    · exact lacks w (mem_append_right _ waits) (by rw [eq])
  | inr waiting => exact lacks e (mem_append_right _ (step.waiting e waiting other)) rfl

theorem refl (wf : q.WF) : QueueStep t q q [] where
  wf := wf
  granted e mem _ := .inl mem
  waiting e mem _ := mem
  keepGranted e mem _ := mem
  keepWaiting e mem _ := .inl mem
  newly ch mem := by cases mem

theorem own {q'' : Queue} (step : QueueStep t q q' []) (wf : q''.WF)
    (granted : ∀ e : Request, e.txnID ≠ t → (e ∈ q''.granted ↔ e ∈ q'.granted))
    (waiting : ∀ e : Request, e.txnID ≠ t → (e ∈ q''.waiting ↔ e ∈ q'.waiting)) : QueueStep t q q'' [] where
  wf := wf
  granted e mem other := step.granted e ((granted e other).1 mem) other
  waiting e mem other := step.waiting e ((waiting e other).1 mem) other
  keepGranted e mem other := (granted e other).2 (step.keepGranted e mem other)
  keepWaiting e mem other := .inl <| (waiting e other).2 <|
    (step.keepWaiting e mem other).resolve_right fun new => not_mem_nil new.2
  newly ch mem := by cases mem

theorem removeGranted (wf : q.WF) : QueueStep t q (q.removeGranted t) [] :=
  (QueueStep.refl wf).own wf.removeGranted (fun _ other => mem_removeGranted.trans (and_iff_left other)) fun _ _ => .rfl

end QueueStep

theorem mem_append_own {l : List Request} {w e : Request} (other : e.txnID ≠ w.txnID) : e ∈ l ++ [w] ↔ e ∈ l :=
  mem_append.trans (or_iff_left fun new => other (congrArg _ (mem_singleton.1 new)))

theorem QueueStep.everywhere {heap : Nat → Queue} {addr : Nat} {newly : List Nat}
    (step : QueueStep t (heap addr) q' newly) (wf : ∀ a, (heap a).WF) (a : Nat) :
    ∃ closed ⊆ newly, QueueStep t (heap a) (update heap addr q' a) closed := by
  by_cases here : a = addr
  · subst here
    exact ⟨newly, List.Subset.refl _, by rwa [update_self]⟩
  · exact ⟨[], nil_subset _, by rw [update_of_ne here]; exact .refl (wf a)⟩

section Frame
variable {s s' : LockRun} {t u c addr : Nat} {call : Call}

/-- A waiting request belongs to a call that waits on an open channel. -/
theorem LockInv.call_of_waiting (inv : LockInv s) {w : Request} (mem : w ∈ (s.heap addr).waiting) :
    ∃ c r, s.calls.get c = some (.waiting w.txnID r w.mode addr w.grantedCh) ∧ w.grantedCh ∉ s.closed := by
  by_cases known : ∃ n, s.table.get n = some addr
  · obtain ⟨n, at'⟩ := known
    obtain ⟨c, r, found, -⟩ := (inv.txns w.txnID).queued n addr at' w mem rfl
    refine ⟨c, r, found, ?_⟩
    obtain ⟨-, -, -, ⟨-, e, granted, txn, -⟩ | ⟨e, -, -, -, -, opened⟩⟩ := (inv.txns w.txnID).call c _ found rfl
    · exact absurd txn ((inv.table.wf addr).disjoint granted mem)
    · exact opened
  · rw [inv.table.orphan addr fun n at' => known ⟨n, at'⟩] at mem
    cases mem

/-- A call that waits on an open channel has its request in the wait list. -/
theorem LockInv.waiting_of_call (inv : LockInv s) {r : ResourceID} {m : Mode} {ch : Nat}
    (found : s.calls.get c = some (.waiting t r m addr ch)) (opened : ch ∉ s.closed) :
    ∃ w ∈ (s.heap addr).waiting, w.txnID = t ∧ w.mode = m ∧ w.grantedCh = ch := by
  obtain ⟨-, -, -, ⟨closed, -⟩ | ⟨w, mem, own, mode, eq, -⟩⟩ := (inv.txns t).call c _ found rfl
  · exact absurd closed opened
  · exact ⟨w, mem, own, mode, eq⟩

theorem holds_congr (held : s'.held u = s.held u)
    (calls : ∀ c x, x.txn = u → (s'.calls.get c = some x ↔ s.calls.get c = some x))
    (r : ResourceID) (m : Mode) : s'.Holds u r m ↔ s.Holds u r m := by
  unfold Holds Releasing
  simp only [held, calls _ (.reap u r _) rfl, calls _ (.forget u r _) rfl]

theorem noAlias_congr (held : s'.held u = s.held u) (r : ResourceID) : s'.NoAlias u r ↔ s.NoAlias u r := by
  unfold NoAlias
  rw [held]

def Call.queuedAt : Call → Option Nat
  | .waiting _ _ _ addr _ => some addr
  | _ => none

def Call.channel : Call → Option Nat
  | .waiting _ _ _ _ ch => some ch
  | _ => none

def Call.past : Call → Option ResourceID
  | .reap _ r _ | .forget _ r _ => some r
  | _ => none

theorem releasing_iff {r : ResourceID} : s.Releasing t r ↔
    ∃ c x, s.calls.get c = some x ∧ x.txn = t ∧ x.past = some r := by
  constructor
  · rintro ⟨c, rest, found | found⟩ <;> exact ⟨c, _, found, rfl, rfl⟩
  · rintro ⟨c, x, found, mine, past⟩
    cases x <;> cases past <;> cases mine
    · exact ⟨c, _, .inl found⟩
    · exact ⟨c, _, .inr found⟩

/-- A step that leaves the queues, the table and the transaction's own state alone. -/
theorem TxnOk.frame (ok : TxnOk s u) (heap : s'.heap = s.heap) (table : s'.table = s.table)
    (addrs : s'.nextAddr = s.nextAddr) (closed : s'.closed = s.closed) (held : s'.held u = s.held u)
    (calls : ∀ c x, x.txn = u → (s'.calls.get c = some x ↔ s.calls.get c = some x)) :
    TxnOk s' u := by
  have holds := holds_congr held calls
  have noAlias := noAlias_congr held
  refine ⟨?_, ?_, ?_, ?_, ?_⟩
  · rw [held]
    exact ok.distinct
  · intro r m h
    rw [table, heap]
    exact ok.holds r m ((holds r m).1 h)
  · intro c x found mine
    have old := ok.call c x ((calls c x mine).1 found) mine
    subst mine
    cases x <;> unfold CallOk at old ⊢ <;> simp only [Call.txn] at held noAlias <;>
      simpa only [heap, table, addrs, closed, held, noAlias] using old
  · rw [table, heap]
    intro n addr at' e mem mine
    simp only [holds, calls _ (.waiting u _ _ _ _) rfl]
    exact ok.granted n addr at' e mem mine
  · rw [table, heap]
    intro n addr at' e mem mine
    simp only [calls _ (.waiting u _ _ _ _) rfl]
    exact ok.queued n addr at' e mem mine

theorem calls_goto (mine : ∀ x, s.calls.get c = some x → x.txn = t) {y : Option Call}
    (mine' : ∀ x ∈ y, x.txn = t) (other : u ≠ t) (c' : Nat) (x : Call) (yours : x.txn = u) :
    (s.goto c y).calls.get c' = some x ↔ s.calls.get c' = some x := by
  rw [get_goto]
  split
  · rename_i at'
    subst at'
    constructor
    · exact fun new => absurd (yours.symm.trans (mine' x new)) other
    · exact fun old => absurd (yours.symm.trans (mine x old)) other
  · rfl

/-- The section of `t` in the queue at `addr`, seen by another transaction. -/
theorem TxnOk.across (inv : LockInv s) {q' : Queue} {newly : List Nat}
    (step : QueueStep t (s.heap addr) q' newly) (other : u ≠ t) :
    TxnOk { s with heap := update s.heap addr q', closed := s.closed ++ newly } u := by
  have ok := inv.txns u
  -- the channels closed here belong to waiters of this queue
  have owner {ch : Nat} (mem : ch ∈ newly) {c : Nat} {r : ResourceID} {m : Mode} {a : Nat}
      (call : s.calls.get c = some (.waiting u r m a ch)) (at' : s.table.get r.name = some a) :
      a = addr ∧ ∃ e ∈ q'.granted, e.txnID = u ∧ e.mode = m := by
    obtain ⟨w, waits, -, rfl, granted⟩ := step.newly ch mem
    obtain ⟨c', r', call', -⟩ := inv.call_of_waiting waits
    obtain rfl := inv.table.channels _ _ _ _ _ _ _ _ _ _ _ call call'
    rw [call] at call'
    cases call'
    exact ⟨rfl, _, granted, rfl, rfl⟩
  have each := step.everywhere inv.table.wf
  have lacks (r : ResourceID) (old : ∀ a, s.table.get r.name = some a → (s.heap a).Lacks u) (a : Nat)
      (at' : s.table.get r.name = some a) : (update s.heap addr q' a).Lacks u :=
    let ⟨_, _, step⟩ := each a
    step.lacks other (old a at')
  refine ⟨ok.distinct, ?_, ?_, ?_, ?_⟩
  · intro r m h
    obtain ⟨a, at', e, mem, mine, mode⟩ := ok.holds r m h
    obtain ⟨_, -, step⟩ := each a
    exact ⟨a, at', e, step.keepGranted e mem (mine ▸ other), mine, mode⟩
  · intro c x found mine
    have old := ok.call c x found mine
    cases x with
    | acquire => exact old
    | releaseAll => exact old
    | release => exact old
    | waiting t' r m a ch =>
      obtain rfl : t' = u := mine
      obtain ⟨at', noAlias, free, entry⟩ := old
      refine ⟨at', noAlias, free, ?_⟩
      obtain ⟨_, sub, step⟩ := each a
      rcases entry with ⟨closed, e, mem, own, mode⟩ | ⟨e, mem, own, mode, rfl, open'⟩
      · exact .inl ⟨mem_append_left _ closed, e, step.keepGranted e mem (own ▸ other), own, mode⟩
      · by_cases closes : e.grantedCh ∈ newly
        · obtain ⟨rfl, granted⟩ := owner closes found at'
          exact .inl ⟨mem_append_right _ closes, by simpa using granted⟩
        · have kept := (step.keepWaiting e mem (own ▸ other)).resolve_right fun new => closes (sub new.2)
          exact .inr ⟨e, kept, own, mode, rfl, by simp [open', closes]⟩
    | reap t' r | forget t' r =>
      obtain rfl : t' = u := mine
      exact ⟨old.1, lacks r old.2⟩
  · intro n a at' e mem mine
    obtain ⟨_, -, step⟩ := each a
    rcases step.granted e mem (mine ▸ other) with old | ⟨w, waits, rfl⟩
    · exact ok.granted n a at' e old mine
    · exact .inr (ok.queued n a at' w waits mine)
  · intro n a at' e mem mine
    obtain ⟨_, -, step⟩ := each a
    exact ok.queued n a at' e (step.waiting e mem (mine ▸ other)) mine

theorem TxnOk.create (inv : LockInv s) {n : GoString} (absent : s.table.get n = none) :
    TxnOk { s with table := s.table.set n s.nextAddr, nextAddr := s.nextAddr + 1 } u := by
  have ok := inv.txns u
  have empty : s.heap s.nextAddr = {} := inv.table.orphan _ fun n at' =>
    absurd (inv.table.mapped n _ at') (Nat.lt_irrefl _)
  have known {n' : GoString} {a : Nat} (at' : s.table.get n' = some a) :
      (s.table.set n s.nextAddr).get n' = some a := by
    rw [get_set, if_neg]
    · exact at'
    · rintro rfl
      rw [absent] at at'
      cases at'
  have lacks {n' : GoString} (old : ∀ a, s.table.get n' = some a → (s.heap a).Lacks u) (a : Nat)
      (at' : (s.table.set n s.nextAddr).get n' = some a) : (s.heap a).Lacks u := by
    rcases of_get_set at' with ⟨-, rfl⟩ | ⟨-, at'⟩
    · rw [empty]
      nofun
    · exact old a at'
  refine ⟨ok.distinct, ?_, ?_, ?_, ?_⟩
  · intro r m h
    obtain ⟨a, at', entry⟩ := ok.holds r m h
    exact ⟨a, known at', entry⟩
  · intro c x found mine
    have old := ok.call c x found mine
    cases x with
    | acquire => exact ⟨known old.1, old.2⟩
    | releaseAll => exact old
    | waiting => exact ⟨known old.1, old.2⟩
    | release =>
      obtain ⟨noAlias, lt, names, mapped⟩ := old
      refine ⟨noAlias, Nat.lt_succ_of_lt lt, fun n' at' => ?_, fun held => known (mapped held)⟩
      rcases of_get_set at' with ⟨-, rfl⟩ | ⟨-, at'⟩
      · exact absurd lt (Nat.lt_irrefl _)
      · exact names n' at'
    | reap t' | forget t' =>
      obtain rfl : t' = u := mine
      exact ⟨old.1, lacks old.2⟩
  · intro n' a at' e mem mine
    rcases of_get_set at' with ⟨-, rfl⟩ | ⟨-, at'⟩
    · rw [empty] at mem
      cases mem
    · exact ok.granted n' a at' e mem mine
  · intro n' a at' e mem mine
    rcases of_get_set at' with ⟨-, rfl⟩ | ⟨-, at'⟩
    · rw [empty] at mem
      cases mem
    · exact ok.queued n' a at' e mem mine

theorem TxnOk.delete (inv : LockInv s) {n : GoString} (unused : ∀ addr, s.table.get n = some addr → s.Unused addr) :
    TxnOk { s with table := s.table.delete n } u := by
  have ok := inv.txns u
  -- a queue with an entry in it, or in an acquirer's hand, stays
  have stays {n' : GoString} {a : Nat} (at' : s.table.get n' = some a) (used : ¬ s.Unused a) :
      (s.table.delete n).get n' = some a := by
    rw [get_delete, if_neg]
    · exact at'
    · rintro rfl
      exact used (unused a at')
  have nonempty {a : Nat} {e : Request} (mem : e ∈ (s.heap a).granted ++ (s.heap a).waiting) : ¬ s.Unused a := by
    rintro ⟨empty, -⟩
    rw [eq_empty_of_isEmpty empty] at mem
    cases mem
  refine ⟨ok.distinct, ?_, ?_, ?_, ?_⟩
  · intro r m h
    obtain ⟨a, at', e, mem, entry⟩ := ok.holds r m h
    exact ⟨a, stays at' (nonempty (mem_append_left _ mem)), e, mem, entry⟩
  · intro c x found mine
    have old := ok.call c x found mine
    cases x with
    | acquire =>
      refine ⟨stays old.1 fun unused => ?_, old.2⟩
      exact unused.2 c ((mem_keys_iff _ _).2 ⟨_, found⟩) _ found rfl
    | releaseAll => exact old
    | waiting =>
      obtain ⟨at', noAlias, free, entry⟩ := old
      refine ⟨stays at' ?_, noAlias, free, entry⟩
      rcases entry with ⟨-, e, mem, -⟩ | ⟨e, mem, -⟩
      · exact nonempty (mem_append_left _ mem)
      · exact nonempty (mem_append_right _ mem)
    | release t' r =>
      obtain ⟨noAlias, lt, names, mapped⟩ := old
      refine ⟨noAlias, lt, fun n' at' => names n' (of_get_delete at'), fun held => ?_⟩
      -- the transaction still holds what it is about to release
      obtain rfl : t' = u := mine
      obtain ⟨m, holding⟩ := ne_none_iff_exists'.1 held
      have notYet : ¬ s.Releasing t' r := by
        rintro ⟨c', rest', at' | at'⟩ <;>
          cases inv.table.sequential c c' _ _ found at' rfl <;> rw [found] at at' <;> cases at'
      obtain ⟨a', at', e, mem, -⟩ := ok.holds r m ⟨holding, notYet⟩
      rw [mapped held] at at'
      cases at'
      exact stays (mapped held) (nonempty (mem_append_left _ mem))
    | reap | forget => exact ⟨old.1, fun a at' => old.2 a (of_get_delete at')⟩
  · intro n' a at'
    exact ok.granted n' a (of_get_delete at')
  · intro n' a at'
    exact ok.queued n' a (of_get_delete at')

theorem TableInv.goto (inv : TableInv s)
    (alone : ∀ c' x, s.calls.get c' = some x → x.txn = t → c' = c) {y : Option Call}
    (mine : ∀ x ∈ y, x.txn = t)
    (fresh : ∀ x ∈ y, ∀ ch ∈ x.channel, ch < s.nextCh ∧
      ∀ c' u r' m' a', s.calls.get c' ≠ some (.waiting u r' m' a' ch)) :
    TableInv (s.goto c y) := by
  have other {c' : Nat} {x : Call} (found : (s.goto c y).calls.get c' = some x) :
      c' = c ∧ y = some x ∨ c' ≠ c ∧ s.calls.get c' = some x := by
    rw [get_goto] at found
    split at found
    · exact .inl ⟨‹_›, found⟩
    · exact .inr ⟨‹_›, found⟩
  refine ⟨inv.mapped, inv.inj, inv.orphan, inv.wf, ?_, ?_, ?_, inv.closed⟩
  · intro c₁ c₂ x₁ x₂ found₁ found₂ same
    rcases other found₁ with ⟨rfl, eq₁⟩ | ⟨ne₁, old₁⟩ <;>
      rcases other found₂ with ⟨rfl, eq₂⟩ | ⟨ne₂, old₂⟩
    · rfl
    · exact absurd (alone c₂ x₂ old₂ (same ▸ mine x₁ eq₁)) ne₂
    · exact absurd (alone c₁ x₁ old₁ (same ▸ mine x₂ eq₂)) ne₁
    · exact inv.sequential c₁ c₂ x₁ x₂ old₁ old₂ same
  · intro c₁ c₂ t₁ t₂ r₁ r₂ m₁ m₂ a₁ a₂ ch found₁ found₂
    rcases other found₁ with ⟨rfl, eq₁⟩ | ⟨ne₁, old₁⟩ <;>
      rcases other found₂ with ⟨rfl, eq₂⟩ | ⟨ne₂, old₂⟩
    · rfl
    · exact absurd old₂ ((fresh _ eq₁ ch rfl).2 _ _ _ _ _)
    · exact absurd old₁ ((fresh _ eq₂ ch rfl).2 _ _ _ _ _)
    · exact inv.channels _ _ _ _ _ _ _ _ _ _ _ old₁ old₂
  · intro c₁ t₁ r₁ m₁ a₁ ch found
    rcases other found with ⟨-, eq⟩ | ⟨-, old⟩
    · exact (fresh _ eq ch rfl).1
    · exact inv.bounded _ _ _ _ _ _ old

theorem TableInv.across (inv : LockInv s) {q' : Queue} {newly : List Nat} (step : QueueStep t (s.heap addr) q' newly)
    (known : (∃ n, s.table.get n = some addr) ∨ q' = {}) :
    TableInv { s with heap := update s.heap addr q', closed := s.closed ++ newly } := by
  obtain ⟨mapped, inj, orphan, wf, sequential, channels, bounded, closed⟩ := inv.table
  refine ⟨mapped, inj, ?_, fun a => (step.everywhere wf a).choose_spec.2.wf, sequential, channels, bounded, ?_⟩
  · intro a unmapped
    by_cases here : a = addr
    · subst here
      show update s.heap a q' a = {}
      rw [update_self]
      exact known.resolve_left fun ⟨n, at'⟩ => unmapped n at'
    · show update s.heap addr q' a = {}
      rw [update_of_ne here]
      exact orphan a unmapped
  · intro ch mem
    cases mem_append.1 mem with
    | inl old => exact closed ch old
    | inr new =>
      obtain ⟨w, waits, -, rfl, -⟩ := step.newly ch new
      obtain ⟨c, r, call, -⟩ := inv.call_of_waiting waits
      exact bounded _ _ _ _ _ _ call

/-- A step of the transaction's one call outside the queues, after which it holds the same locks. -/
theorem LockInv.move (inv : LockInv s) {h : HeldSet} {y : Option Call}
    (alone : ∀ c' x, s.calls.get c' = some x → x.txn = t → c' = c)
    (before : ∀ x, s.calls.get c = some x → x.txn = t ∧ x.queuedAt = none)
    (after : ∀ x ∈ y, x.txn = t ∧ x.queuedAt = none ∧ CallOk (s.setHeld t h) x)
    (sub : ∀ r m, h.get r = some m → (s.held t).get r = some m) (kept : ∀ r m, s.Holds t r m → h.get r = some m)
    (past : ∀ r m, h.get r = some m → ((∃ x, s.calls.get c = some x ∧ x.past = some r) ↔ ∃ x ∈ y, x.past = some r)) :
    LockInv ((s.setHeld t h).goto c y) := by
  have mine (x : Call) (mem : x ∈ y) : x.txn = t := (after x mem).1
  constructor
  · have inside : TableInv (s.setHeld t h) := { inv.table with }
    refine inside.goto alone mine fun x mem ch waits => ?_
    have idle := (after x mem).2.1
    cases x <;> cases waits
    cases idle
  · intro u
    by_cases same : u = t
    · subst same
      have ok := inv.txns u
      have place (c' : Nat) : ((s.setHeld u h).goto c y).calls.get c' =
          if c' = c then y else s.calls.get c' := get_goto ..
      have now {c' : Nat} {x : Call} (found : ((s.setHeld u h).goto c y).calls.get c' = some x)
          (own : x.txn = u) : c' = c ∧ x ∈ y := by
        rw [place] at found
        split at found
        · exact ⟨‹_›, found⟩
        · rename_i ne
          exact absurd (alone c' x found own) ne
      have notWaiting {c' a ch : Nat} {r : ResourceID} {m : Mode} : s.calls.get c' ≠ some (.waiting u r m a ch) := by
        intro found
        obtain rfl := alone c' _ found rfl
        cases (before _ found).2
      have held : ((s.setHeld u h).goto c y).held u = h := update_self ..
      have releasing (r : ResourceID) (m : Mode) (get : h.get r = some m) :
          ((s.setHeld u h).goto c y).Releasing u r ↔ s.Releasing u r := by
        rw [releasing_iff, releasing_iff]
        constructor
        · rintro ⟨c', x, found, own, eq⟩
          obtain ⟨x, found, eq⟩ := (past r m get).2 ⟨x, (now found own).2, eq⟩
          exact ⟨c, x, found, (before x found).1, eq⟩
        · rintro ⟨c', x, found, own, eq⟩
          obtain rfl := alone c' x found own
          obtain ⟨x, mem, eq⟩ := (past r m get).1 ⟨x, found, eq⟩
          exact ⟨c', x, (place c').trans ((if_pos rfl).trans mem), mine x mem, eq⟩
      refine ⟨?_, ?_, ?_, ?_, ?_⟩
      · intro r r' get get'
        rw [held] at get get'
        obtain ⟨m, eq⟩ := ne_none_iff_exists'.1 get
        obtain ⟨m', eq'⟩ := ne_none_iff_exists'.1 get'
        exact ok.distinct r r' (by simp [sub r m eq]) (by simp [sub r' m' eq'])
      · intro r m holds
        have get := held ▸ holds.1
        exact ok.holds r m ⟨sub r m get, fun old => holds.2 ((releasing r m get).2 old)⟩
      · intro c' x found own
        have new := (after x (now found own).2).2.2
        cases x <;> exact new
      · intro n a at' e mem own
        rcases ok.granted n a at' e mem own with ⟨r, name, holds⟩ | ⟨c', r, found, -⟩
        · have get := kept r _ holds
          exact .inl ⟨r, name, by rwa [held], fun new => holds.2 ((releasing r _ get).1 new)⟩
        · exact absurd found notWaiting
      · intro n a at' e mem own
        obtain ⟨c', r, found, -⟩ := ok.queued n a at' e mem own
        exact absurd found notWaiting
    · exact (inv.txns u).frame rfl rfl rfl rfl (update_of_ne same ..)
        (calls_goto (fun x found => (before x found).1) mine same)

end Frame

end TransactionManager.Lock
