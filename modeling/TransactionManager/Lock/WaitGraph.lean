import TransactionManager.Lock.Strict
import TransactionManager.Deadlock.Graph

/-!
# The wait-for graph and the lock queues

`AcquireLockCtx` enters the edges of a request once, when it starts to wait, from the grants of that
moment. Grants change hands while it waits: a waiter that is granted, a newcomer that is let in
and an upgrade all leave the edges of the others as they are. The graph shows who waits for whom
as long as no such change concerns a request that goes on waiting.
-/

namespace TransactionManager.Lock
open Lib Deadlock LockInv List Queue LockRun WaitForGraph

/-- The request of `a` in the queue waits for a grant of `b`. -/
def Queue.Blocks (q : Queue) (a b : Nat) : Prop := ∃ w ∈ q.waiting, w.txnID = a ∧
    ∃ g ∈ q.granted, g.txnID = b ∧ b ≠ a ∧ lockCompatible w.mode g.mode = false

/-- `a` waits for a lock that `b` holds. -/
def LockRun.Blocked (s : LockRun) (a b : Nat) : Prop := ∃ n addr, s.table.get n = some addr ∧ (s.heap addr).Blocks a b

/-- The lock manager with its wait-for graph. `leaving` are the transactions that have given up a wait and still have
their edges. -/
structure GraphRun where
  run : LockRun := {}
  wfg : WaitForGraph := {}
  leaving : List Nat := []

/-- A step of the lock manager, or the `RemoveEdges` that follows a wait given up. -/
inductive GraphAction where
  | lock (a : LockAction)
  | removeEdges (t : Nat)

/-- The graph after a step: edges come in the section that queues a request, and go when the grant is received and at
the end of `ReleaseAllLocks`. -/
def LockRun.graphAfter (s : LockRun) (g : WaitForGraph) : LockAction → WaitForGraph
  | .enter c =>
    match s.calls.get c with
    | some (.acquire t r mode addr) =>
      match (acquireLocked (s.heap addr) (s.held t) t r mode s.nextCh).1 with
      | .waiting conflictors => conflictors.foldl (fun g other => g.addEdge t other) g
      | .held | .granted => g
    | _ => g
  | .granted c =>
    match s.calls.get c with
    | some (.waiting t _ _ _ _) => g.removeEdges t
    | _ => g
  | .nextResource c =>
    match s.calls.get c with
    | some (.releaseAll t []) => g.removeEdges t
    | _ => g
  | _ => g

def LockRun.givesUp (s : LockRun) : LockAction → List Nat
  | .giveUp c =>
    match s.calls.get c with
    | some call => [call.txn]
    | none => []
  | _ => []

def LockAction.starts : LockAction → Option Nat
  | .acquire _ t _ _ | .releaseLock _ t _ | .releaseAll _ t _ => some t
  | _ => none

namespace GraphRun

def next (s : GraphRun) : GraphAction → Option GraphRun
  | .lock a =>
    match s.run.next a with
    | some run => some ⟨run, s.run.graphAfter s.wfg a, s.run.givesUp a ++ s.leaving⟩
    | none => none
  | .removeEdges t =>
    if t ∈ s.leaving then some { s with wfg := s.wfg.removeEdges t, leaving := s.leaving.erase t }
    else none

/-- No wake-up is pending: whoever was granted or gave up has returned. -/
def Quiet (s : GraphRun) : Prop :=
  s.leaving = [] ∧ ∀ c ∈ s.run.calls.keys, ∀ call ∈ s.run.calls.get c, ∀ ch ∈ call.channel, ch ∉ s.run.closed

instance (s : GraphRun) : Decidable s.Quiet := inferInstanceAs (Decidable (_ ∧ _))

/-- The graph shows who waits for whom, and its cycles are the rings of waiting transactions. -/
def Exact (s : GraphRun) : Prop := (∀ a b, b ∈ s.wfg.successors a ↔ s.run.Blocked a b) ∧
    ∀ a, Relation.TransGen (fun a b => b ∈ s.wfg.successors a) a a ↔ Relation.TransGen s.run.Blocked a a

end GraphRun

/-- A request that is granted at once changes nothing for the others that wait: each conflicts with the new grant if
and only if it conflicted with the old one of the transaction. A request that is queued gives up no grant that another
waits for. -/
def Queue.Fits (q : Queue) (t : Nat) (mode : Mode) : Prop :=
  if q.canGrant mode t then
    ∀ w ∈ q.waiting, w.txnID ≠ t → (lockCompatible w.mode mode = false ↔
      ∃ g ∈ q.granted, g.txnID = t ∧ lockCompatible w.mode g.mode = false)
  else ∀ w ∈ q.waiting, w.txnID ≠ t → ∀ g ∈ q.granted, g.txnID = t → lockCompatible w.mode g.mode = true

/-- Without the transaction the first `k` waiters get along with the grants and each other and the next one does not.
Whoever stays in line waited for none of its grants and conflicts with none of the first `k`. -/
def Queue.HandsOver (q : Queue) (t : Nat) : Prop := ∃ k ∈ List.range ((q.without t).waiting.length + 1),
    (∀ w ∈ (q.without t).waiting.take k, ∀ g ∈ (q.without t).granted, lockCompatible w.mode g.mode = true) ∧
    ((q.without t).waiting.take k).Pairwise (fun v w => lockCompatible w.mode v.mode = true) ∧
    (∀ w ∈ ((q.without t).waiting.drop k).head?, ∃ g ∈ (q.without t).granted, lockCompatible w.mode g.mode = false) ∧
    ∀ w ∈ (q.without t).waiting.drop k, (∀ g ∈ q.granted, g.txnID = t → lockCompatible w.mode g.mode = true) ∧
        ∀ v ∈ (q.without t).waiting.take k, lockCompatible w.mode v.mode = true

instance (q : Queue) (t : Nat) (mode : Mode) : Decidable (q.Fits t mode) := inferInstanceAs (Decidable (ite ..))

instance (q : Queue) (t : Nat) : Decidable (q.HandsOver t) := by
  unfold HandsOver
  infer_instance

/-- The section that the call is about to run leaves the requests that go on waiting as they are. -/
def LockRun.Undisturbing (s : LockRun) : Call → Prop
  | .acquire t r mode addr => (∀ existing ∈ (s.held t).get r, lockStrength existing < lockStrength mode) →
      (s.heap addr).Fits t mode
  | .waiting t _ _ addr _ | .release t _ addr _ => (s.heap addr).HandsOver t
  | _ => True

instance (s : LockRun) (call : Call) : Decidable (s.Undisturbing call) := by
  unfold Undisturbing
  cases_type Call <;> infer_instance

def LockAction.sectionOf : LockAction → Option Nat
  | .enter c | .giveUp c | .release c => some c
  | _ => none

/-- The orderly steps, each transaction one call at a time, whose sections disturb nobody who goes on
waiting. -/
def GraphRun.Tidy (s : GraphRun) : GraphAction → Prop
  | .lock a => s.run.Orderly a ∧ (∀ t ∈ a.starts, t ∉ s.leaving) ∧
      ∀ c ∈ a.sectionOf, ∀ call ∈ s.run.calls.get c, s.run.Undisturbing call
  | .removeEdges _ => True

instance (s : GraphRun) : (a : GraphAction) → Decidable (s.Tidy a)
  | .lock _ => inferInstanceAs (Decidable (_ ∧ _))
  | .removeEdges _ => isTrue trivial

section Queue
variable {q q' : Queue} {t a b : Nat} {mode : Mode} {w : Request}

theorem Queue.mem_conflictingTxns : b ∈ q.conflictingTxns mode t ↔
    ∃ g ∈ q.granted, g.txnID = b ∧ b ≠ t ∧ lockCompatible mode g.mode = false := by
  simp only [conflictingTxns, mem_dedup, mem_map, mem_filter, Bool.and_eq_true,
    bne_iff_ne, ne_eq, Bool.not_eq_eq_eq_not, Bool.not_true]
  constructor
  · rintro ⟨g, ⟨mem, other, conflict⟩, rfl⟩
    exact ⟨g, mem, rfl, other, conflict⟩
  · rintro ⟨g, mem, rfl, other, conflict⟩
    exact ⟨g, ⟨mem, other, conflict⟩, rfl⟩

/-- The queue that an acquisition works on, once the transaction has no grant in it. -/
structure Cleared (t : Nat) (q q' : Queue) : Prop where
  waiting : q'.waiting = q.waiting
  granted : ∀ g, g ∈ q'.granted ↔ g ∈ q.granted ∧ g.txnID ≠ t

section
variable (cleared : Cleared t q q') {ch : Nat}
include cleared

/-- A request granted at once: the others wait for whom they waited before. -/
theorem Cleared.blocks_addGranted (fits : q.Fits t mode) (can : q.canGrant mode t = true) (ne : a ≠ t) :
    (q'.addGranted ⟨t, mode, .granted, ch⟩).Blocks a b ↔ q.Blocks a b := by
  rw [Fits, if_pos can] at fits
  show (∃ w ∈ q'.waiting, w.txnID = a ∧ ∃ g ∈ q'.granted ++ [_], _) ↔ _
  rw [cleared.waiting]
  refine exists_congr fun w => and_congr_right fun mem => and_congr_right fun own => ?_
  have same := fits w mem (own ▸ ne)
  constructor
  · rintro ⟨g, inside, txn, other, conflict⟩
    rcases mem_append.1 inside with old | new
    · exact ⟨g, ((cleared.granted g).1 old).1, txn, other, conflict⟩
    · rw [mem_singleton.1 new] at txn conflict
      obtain ⟨g', mem', txn', conflict'⟩ := same.1 conflict
      exact ⟨g', mem', txn'.trans txn, other, conflict'⟩
  · rintro ⟨g, inside, txn, other, conflict⟩
    by_cases mine : g.txnID = t
    · refine ⟨_, mem_append_right _ mem_cons_self, mine.symm.trans txn, other, ?_⟩
      exact same.2 ⟨g, inside, mine, conflict⟩
    · exact ⟨g, mem_append_left _ ((cleared.granted g).2 ⟨inside, mine⟩), txn, other, conflict⟩

/-- A request that is queued: the others wait for whom they waited before. -/
theorem Cleared.blocks_addWaiting (fits : q.Fits t mode) (cannot : q.canGrant mode t = false) (ne : a ≠ t) :
    (q'.addWaiting ⟨t, mode, .granted, ch⟩).Blocks a b ↔ q.Blocks a b := by
  rw [Fits, if_neg (by simp [cannot])] at fits
  show (∃ w ∈ q'.waiting ++ [_], w.txnID = a ∧ ∃ g ∈ q'.granted, _) ↔ _
  rw [cleared.waiting]
  constructor
  · rintro ⟨w, mem, own, g, inside, rest⟩
    rcases mem_append.1 mem with old | new
    · exact ⟨w, old, own, g, ((cleared.granted g).1 inside).1, rest⟩
    · rw [mem_singleton.1 new] at own
      exact absurd own.symm ne
  · rintro ⟨w, mem, own, g, inside, txn, other, conflict⟩
    refine ⟨w, mem_append_left _ mem, own, g, (cleared.granted g).2 ⟨inside, fun mine => ?_⟩, txn, other, conflict⟩
    rw [fits w mem (own ▸ ne) g inside mine] at conflict
    cases conflict

/-- The queued request itself waits for the transactions that `ConflictingTxns` names. -/
theorem Cleared.blocks_own (free : ∀ w ∈ q.waiting, w.txnID ≠ t) :
    (q'.addWaiting ⟨t, mode, .granted, ch⟩).Blocks t b ↔ b ∈ q'.conflictingTxns mode t := by
  rw [mem_conflictingTxns]
  show (∃ w ∈ q'.waiting ++ [_], w.txnID = t ∧ ∃ g ∈ q'.granted, _) ↔ _
  rw [cleared.waiting]
  constructor
  · rintro ⟨w, mem, own, blocked⟩
    rcases mem_append.1 mem with old | new
    · exact absurd own (free w old)
    · rw [mem_singleton.1 new] at blocked
      exact blocked
  · intro blocked
    exact ⟨_, mem_append_right _ mem_cons_self, rfl, blocked⟩

end

/-- The loop of `GrantWaiters` takes the waiters that get along with the grants and each other, up to
one that conflicts with a grant. -/
theorem length_grantable {waiting : List Request} {current : Mode} {granted : List Mode} {k : Nat}
    (dom : Dominates current granted) (compat : granted.Pairwise fun m n => lockCompatible n m = true)
    (le : k ≤ waiting.length) (fits : ∀ w ∈ waiting.take k, ∀ m ∈ granted, lockCompatible w.mode m = true)
    (apart : (waiting.take k).Pairwise fun v w => lockCompatible w.mode v.mode = true)
    (stop : ∀ w ∈ (waiting.drop k).head?, ∃ m ∈ granted, lockCompatible w.mode m = false) :
    (grantable current waiting).length = k := by
  induction waiting generalizing k current granted with
  | nil =>
    have : k = 0 := by simpa using le
    rw [this]
    rfl
  | cons req rest ih =>
    cases k with
    | zero =>
      obtain ⟨m, mem, conflict⟩ := stop req rfl
      have blocked : ¬ lockCompatible req.mode current = true := by
        intro ok
        rw [dom.speaks _ ok m mem] at conflict
        cases conflict
      rw [grantable, if_neg blocked]
      rfl
    | succ k =>
      have fitsReq := fits req (by simp)
      have ok : lockCompatible req.mode current = true := by
        rcases dom.member with free | mem
        · rw [free, lockCompatible_comm]
          rfl
        · exact fitsReq current mem
      obtain ⟨head, tail⟩ := pairwise_cons.1 apart
      rw [grantable, if_pos ok, length_cons]
      refine congrArg (· + 1) (ih (dom.grant ok) ?_ (by simpa using le) ?_ tail ?_)
      · refine pairwise_append.2 ⟨compat, pairwise_singleton .., fun m mem n new => ?_⟩
        rw [mem_singleton.1 new]
        exact fitsReq m mem
      · intro w mem m inside
        rcases mem_append.1 inside with old | new
        · exact fits w (by simp [mem]) m old
        · rw [mem_singleton.1 new]
          exact head w mem
      · intro w mem
        obtain ⟨m, inside, conflict⟩ := stop w (by simpa using mem)
        exact ⟨m, mem_append_left _ inside, conflict⟩

theorem Queue.without_of_not_waiting (free : ∀ w ∈ q.waiting, w.txnID ≠ t) : q.without t = q.removeGranted t := by
  unfold without removeWaiting
  rw [eraseP_of_forall_not fun w mem => by simpa using free w mem]

theorem Queue.HandsOver.length (hands : q.HandsOver t) (wf : q.WF) :
    ∃ k ≤ (q.without t).waiting.length, (q.without t).newlyGranted.length = k ∧ ∀ w ∈ (q.without t).waiting.drop k,
        (∀ g ∈ q.granted, g.txnID = t → lockCompatible w.mode g.mode = true) ∧
          ∀ v ∈ (q.without t).waiting.take k, lockCompatible w.mode v.mode = true := by
  obtain ⟨k, bound, fits, apart, stop, rest⟩ := hands
  have le : k ≤ (q.without t).waiting.length := Nat.le_of_lt_succ (mem_range.1 bound)
  have wf' : (q.without t).WF := wf.removeWaiting.removeGranted
  refine ⟨k, le, ?_, rest⟩
  refine length_grantable (dominates_currentMode wf'.compat) ?_ le ?_ apart ?_
  · rw [pairwise_map]
    exact wf'.compat.imp fun ok => lockCompatible_comm _ _ ▸ ok
  · intro w mem m inside
    obtain ⟨g, granted, rfl⟩ := mem_map.1 inside
    exact fits w mem g granted
  · intro w mem
    obtain ⟨g, granted, conflict⟩ := stop w mem
    exact ⟨g.mode, mem_map_of_mem granted, conflict⟩

/-- After a hand-over whoever goes on waiting waits for the same transactions. -/
theorem Queue.HandsOver.blocks (hands : q.HandsOver t) (wf : q.WF) (ne : a ≠ t)
    (stays : ∀ w ∈ q.waiting, w.txnID = a → w.grantedCh ∉ (q.without t).newlyGranted.map (·.grantedCh)) :
    (q.without t).grantWaiters.Blocks a b ↔ q.Blocks a b := by
  obtain ⟨k, -, length, rest⟩ := hands.length wf
  have granted : ∀ g, g ∈ (q.without t).granted ↔ g ∈ q.granted ∧ g.txnID ≠ t := fun g =>
    mem_removeGranted
  have waiting : ∀ w, w ∈ (q.without t).waiting ↔ w ∈ q.waiting ∧ w.txnID ≠ t := fun w =>
    wf.mem_removeWaiting
  have behind : (q.without t).grantWaiters.waiting = (q.without t).waiting.drop k := by
    rw [← length]
    rfl
  constructor
  · rintro ⟨w, mem, own, g, inside, txn, other, conflict⟩
    rw [behind] at mem
    refine ⟨w, ((waiting w).1 (mem_of_mem_drop mem)).1, own, g, ?_, txn, other, conflict⟩
    rw [granted_grantWaiters, length] at inside
    rcases mem_append.1 inside with old | new
    · exact ((granted g).1 old).1
    · obtain ⟨v, front, rfl⟩ := mem_map.1 new
      rw [(rest w mem).2 v front] at conflict
      cases conflict
  · rintro ⟨w, mem, own, g, inside, txn, other, conflict⟩
    have still : w ∈ (q.without t).waiting := (waiting w).2 ⟨mem, own ▸ ne⟩
    have last : w ∈ (q.without t).waiting.drop k := by
      rcases waiting_grantWaiters still with kept | ⟨-, closed⟩
      · rwa [behind] at kept
      · exact absurd closed (stays w mem own)
    refine ⟨w, behind ▸ last, own, g, mem_append_left _ ?_, txn, other, conflict⟩
    refine (granted g).2 ⟨inside, fun mine => ?_⟩
    rw [(rest w last).1 g inside mine] at conflict
    cases conflict

end Queue

/-- The transaction's last call has left nothing to do: it is not leaving a wait, and the channel it
waits on is open. -/
def GraphRun.Settled (s : GraphRun) (a : Nat) : Prop :=
  a ∉ s.leaving ∧ ∀ c call, s.run.calls.get c = some call → call.txn = a → ∀ ch ∈ call.channel, ch ∉ s.run.closed

/-- The graph is right about every transaction that is settled. -/
structure GraphInv (s : GraphRun) : Prop where
  locks : LockInv s.run
  idle : ∀ t ∈ s.leaving, ∀ c call, s.run.calls.get c = some call → call.txn ≠ t
  exact : ∀ a, s.Settled a → ∀ b, b ∈ s.wfg.successors a ↔ ∃ addr, (s.run.heap addr).Blocks a b

section Step
variable {s : GraphRun} {r s' : LockRun} {t c a b addr k : Nat} {y : Option Call} {newly : List Nat}
  {q q' : Queue} {h held : HeldSet} {call : Call} {res : ResourceID} {mode : Mode}

/-- Queues that the table does not know are empty. -/
theorem LockInv.blocked_iff (inv : LockInv r) : r.Blocked a b ↔ ∃ addr, (r.heap addr).Blocks a b := by
  constructor
  · rintro ⟨n, addr, -, blocks⟩
    exact ⟨addr, blocks⟩
  rintro ⟨addr, blocks⟩
  by_cases known : ∃ n, r.table.get n = some addr
  · obtain ⟨n, at'⟩ := known
    exact ⟨n, addr, at', blocks⟩
  · rw [inv.table.orphan addr fun n at' => known ⟨n, at'⟩] at blocks
    obtain ⟨w, mem, -⟩ := blocks
    cases mem

/-- A transaction without a call on an open channel waits for nobody. -/
theorem LockInv.not_blocks (inv : LockInv r)
    (none : ∀ c res m ch, r.calls.get c = some (.waiting a res m addr ch) → ch ∈ r.closed) :
    ¬ (r.heap addr).Blocks a b := by
  rintro ⟨w, mem, own, -⟩
  obtain ⟨c, res, found, opened⟩ := inv.call_of_waiting mem
  exact opened (none c res _ _ (own ▸ found))

/-- A settled transaction that does not wait has no edges. -/
theorem GraphInv.successors_nil (inv : GraphInv s) (settled : s.Settled a)
    (none : ∀ c call, s.run.calls.get c = some call → call.txn = a → call.channel = none) :
    s.wfg.successors a = [] := by
  rw [eq_nil_iff_forall_not_mem]
  intro b mem
  obtain ⟨addr, blocks⟩ := (inv.exact a settled b).1 mem
  refine inv.locks.not_blocks (fun c res m ch found => ?_) blocks
  cases none c _ found rfl

theorem GraphRun.Settled.before {s' : GraphRun} (settled : s'.Settled a)
    (calls : ∀ c', s'.run.calls.get c' = if c' = c then y else s.run.calls.get c')
    (closed : ∀ ch ∈ s.run.closed, ch ∈ s'.run.closed) (leaving : ∀ t ∈ s.leaving, t ∈ s'.leaving)
    (quiet : ∀ call, s.run.calls.get c = some call → call.txn = a → call.channel = none) : s.Settled a := by
  refine ⟨fun mem => settled.1 (leaving a mem), fun c' call found own ch waits closed' => ?_⟩
  by_cases here : c' = c
  · subst here
    rw [quiet call found own] at waits
    cases waits
  · refine settled.2 c' call ?_ own ch waits (closed ch closed')
    rw [calls, if_neg here]
    exact found

/-- A step outside the queues. It may remove the edges of a transaction that does not wait. -/
theorem GraphInv.outside (inv : GraphInv s) {wfg : WaitForGraph} (locks : LockInv r)
    (heap : r.heap = s.run.heap) (closed : r.closed = s.run.closed)
    (calls : ∀ c', r.calls.get c' = if c' = c then y else s.run.calls.get c')
    (quiet : ∀ call, s.run.calls.get c = some call → call.channel = none) (free : ∀ x ∈ y, x.txn ∉ s.leaving)
    (edges : ∀ a, wfg.successors a = s.wfg.successors a ∨
      wfg.successors a = [] ∧ ∀ b addr, ¬ (s.run.heap addr).Blocks a b) :
    GraphInv ⟨r, wfg, s.leaving⟩ where
  locks := locks
  idle t mem c' call found := by
    simp only [calls] at found
    split at found
    · rintro rfl
      exact free call found mem
    · exact inv.idle t mem c' call found
  exact a settled b := by
    have before : s.Settled a :=
      settled.before calls (fun ch mem => closed ▸ mem) (fun _ mem => mem) fun call found _ => quiet call found
    rw [heap]
    rcases edges a with same | ⟨none, free⟩
    · rw [same]
      exact inv.exact a before b
    · simp [none, free]

/-- A section of a call of `t`. -/
theorem GraphInv.inside (inv : GraphInv s) {wfg : WaitForGraph} {gone : List Nat}
    (locks : LockInv (after s.run t c addr q newly h k y))
    (found : s.run.calls.get c = some call) (mine : call.txn = t) (goes : ∀ x ∈ y, x.txn = t)
    (left : gone = s.leaving ∨ gone = t :: s.leaving ∧ y = none)
    (edges : ∀ a ≠ t, ∀ b, b ∈ wfg.successors a ↔ b ∈ s.wfg.successors a)
    (others : ∀ a ≠ t, (∀ w ∈ (s.run.heap addr).waiting, w.txnID = a → w.grantedCh ∉ newly) →
      ∀ b, q.Blocks a b ↔ (s.run.heap addr).Blocks a b) (own : gone = s.leaving → ∀ b, b ∈ wfg.successors t ↔
      ∃ a', ((after s.run t c addr q newly h k y).heap a').Blocks t b) :
    GraphInv ⟨after s.run t c addr q newly h k y, wfg, gone⟩ where
  locks := locks
  idle u mem c' x found' := by
    have still : u ∈ s.leaving → x.txn ≠ u := by
      intro old
      simp only [get_after] at found'
      split at found'
      · rw [goes x found', ← mine]
        exact inv.idle u old c call found
      · exact inv.idle u old c' x found'
    rcases left with rfl | ⟨rfl, none⟩
    · exact still mem
    rcases mem_cons.1 mem with rfl | old
    · simp only [get_after, none] at found'
      split at found'
      · cases found'
      · rename_i other
        exact fun same => other (inv.locks.table.sequential c' c x call found' found (same.trans mine.symm))
    · exact still old
  exact a settled b := by
    by_cases self : a = t
    · subst self
      refine own ?_ b
      exact left.resolve_right fun new => settled.1 (new.1 ▸ mem_cons_self)
    · have before : s.Settled a := by
        refine settled.before (fun _ => get_after) (fun ch mem => mem_append_left _ mem) ?_ ?_
        · rintro u mem
          rcases left with rfl | ⟨rfl, -⟩
          · exact mem
          · exact mem_cons_of_mem _ mem
        · intro x found' own'
          rw [found] at found'
          cases found'
          exact absurd (own'.symm.trans mine) self
      have stays : ∀ w ∈ (s.run.heap addr).waiting, w.txnID = a → w.grantedCh ∉ newly := by
        intro w mem own' closed
        obtain ⟨c', res, found', -⟩ := inv.locks.call_of_waiting mem
        have other : c' ≠ c := by
          rintro rfl
          rw [found] at found'
          cases found'
          exact self (own'.symm.trans mine)
        refine settled.2 c' (.waiting w.txnID res w.mode addr w.grantedCh) ?_ own' w.grantedCh rfl
          (mem_append_right _ closed)
        simp only [get_after, if_neg other]
        exact found'
      rw [edges a self b, inv.exact a before b]
      refine exists_congr fun a' => ?_
      rw [heap_after_eq]
      split
      · rename_i here
        subst here
        exact (others a self stays b).symm
      · exact Iff.rfl

theorem acquireLocked_held {existing : Mode} {ch : Nat}
    (get : held.get res = some existing) (enough : lockStrength mode ≤ lockStrength existing) :
    (acquireLocked q held t res mode ch).1 = .held := by
  simp [acquireLocked, get, enough]

theorem acquireLocked_dropped {ch : Nat}
    (dropped : Dropped q held t res mode q' h) : (acquireLocked q held t res mode ch).1 =
      if q'.canGrant mode t then .granted else .waiting (q'.conflictingTxns mode t) := by
  rcases dropped with ⟨rfl, none, -⟩ | ⟨rfl, ⟨weaker, get, lt⟩, -⟩
  · cases can : q'.canGrant mode t <;> simp [acquireLocked, none, can]
  · cases can : (q.removeGranted t).canGrant mode t <;>
      simp [acquireLocked, get, lt, Nat.not_le.2 lt, can]

/-- What an acquisition works on has no grant of its own transaction left. -/
theorem LockInv.cleared (inv : LockInv r) (found : r.calls.get c = some (.acquire t res mode addr))
    (dropped : Dropped (r.heap addr) (r.held t) t res mode q' h) : Cleared t (r.heap addr) q' := by
  rcases dropped with ⟨rfl, none, -⟩ | ⟨rfl, -, -⟩
  · refine ⟨rfl, fun g => ⟨fun mem => ⟨mem, fun own => ?_⟩, And.left⟩⟩
    obtain ⟨at', noAlias⟩ := (inv.txns t).call c _ found rfl
    have held : (r.held t).get res = some g.mode := inv.get_of_granted found rfl rfl noAlias at' mem own
    rw [none] at held
    cases held
  · exact ⟨rfl, fun g => mem_removeGranted⟩

/-- A call that is not waiting belongs to a settled transaction without edges. -/
theorem GraphInv.successors_of_call (inv : GraphInv s) (found : s.run.calls.get c = some call)
    (mine : call.txn = t) (quiet : call.channel = none) : s.wfg.successors t = [] := by
  have alone (c' : Nat) (x : Call) (found' : s.run.calls.get c' = some x) (own : x.txn = t) : x.channel = none := by
    obtain rfl := inv.locks.alone found mine c' x found' own
    rw [found] at found'
    cases found'
    exact quiet
  refine inv.successors_nil ⟨fun mem => inv.idle t mem c call found mine, ?_⟩ alone
  intro c' x found' own ch waits
  rw [alone c' x found' own] at waits
  cases waits

section
variable (inv : GraphInv s) (locks : LockInv (after s.run t c addr q newly h k y))
    (found : s.run.calls.get c = some call) (mine : call.txn = t)
include inv locks found mine

/-- A section after which the transaction does not wait. -/
theorem GraphInv.not_blocks_after (quiet : ∀ x ∈ y, x.channel = none) :
    ¬ ∃ a', ((after s.run t c addr q newly h k y).heap a').Blocks t b := by
  rintro ⟨a', blocks⟩
  refine locks.not_blocks (fun c' res m ch found' => ?_) blocks
  rw [get_after] at found'
  split at found'
  · cases quiet _ found'
  · rename_i other
    exact absurd (inv.locks.alone found mine c' _ found' rfl) other

theorem GraphInv.idle_after (before : call.channel = none) (quiet : ∀ x ∈ y, x.channel = none) :
    b ∈ s.wfg.successors t ↔ ∃ a', ((after s.run t c addr q newly h k y).heap a').Blocks t b := by
  refine iff_of_false ?_ (inv.not_blocks_after locks found mine quiet)
  rw [inv.successors_of_call found mine before]
  exact not_mem_nil

end

theorem LockInv.not_blocks_of_call (inv : LockInv r) (found : r.calls.get c = some call)
    (mine : call.txn = t) (quiet : call.channel = none) : ¬ (r.heap addr).Blocks t b := by
  refine inv.not_blocks fun c' res m ch found' => ?_
  obtain rfl := inv.alone found mine c' _ found' rfl
  rw [found] at found'
  cases found'
  cases quiet

theorem GraphInv.lock (inv : GraphInv s) {act : LockAction} (tidy : s.Tidy (.lock act))
    (taken : s.run.next act = some s') :
    GraphInv ⟨s', s.run.graphAfter s.wfg act, s.run.givesUp act ++ s.leaving⟩ := by
  obtain ⟨orderly, starts, sections⟩ := tidy
  have locks := inv.locks.step orderly taken
  have wf (addr : Nat) := inv.locks.table.wf addr
  cases next_step taken with
  | @acquire c u r' mode free =>
    obtain ⟨-, heap, closed⟩ := nextCh_getOrCreate (s := s.run) r'.name
    refine inv.outside locks heap closed get_goto_getOrCreate (by simp [free]) ?_ fun a => .inl rfl
    rintro x ⟨⟩
    exact starts u rfl
  | @held c _ _ _ _ _ found get enough =>
    have graph : s.run.graphAfter s.wfg (.enter c) = s.wfg := by
      simp only [graphAfter, found, acquireLocked_held get enough]
    rw [graph]
    refine inv.inside locks found rfl (by simp) (.inl rfl) (fun _ _ _ => Iff.rfl) (fun _ _ _ _ => Iff.rfl) fun _ b => ?_
    exact inv.idle_after locks found rfl rfl (by simp)
  | @entered c _ _ _ _ _ _ found dropped can =>
    have graph : s.run.graphAfter s.wfg (.enter c) = s.wfg := by
      simp only [graphAfter, found, acquireLocked_dropped dropped, if_pos can]
    have fits := sections c rfl _ found fun _ => dropped.weaker
    rw [graph]
    refine inv.inside locks found rfl (by simp) (.inl rfl) (fun _ _ _ => Iff.rfl) (fun a ne _ b => ?_) fun _ b => ?_
    · exact (inv.locks.cleared found dropped).blocks_addGranted fits (dropped.canGrant ▸ can) ne
    · exact inv.idle_after locks found rfl rfl (by simp)
  | @queued c u r' mode addr q' h found dropped cannot =>
    have cleared := inv.locks.cleared found dropped
    have fits := sections c rfl _ found fun _ => dropped.weaker
    have graph (a b : Nat) : b ∈ (s.run.graphAfter s.wfg (.enter c)).successors a ↔
        a = u ∧ b ∈ q'.conflictingTxns mode u ∨ b ∈ s.wfg.successors a := by
      simp only [graphAfter, found, acquireLocked_dropped dropped, cannot, Bool.false_eq_true, if_false]
      exact mem_successors_foldl _
    refine inv.inside locks found rfl ?_ (.inl rfl) (fun a ne b => ?_) (fun a ne _ b => ?_) fun _ b => ?_
    · rintro x ⟨⟩
      rfl
    · simp [graph, ne]
    · exact cleared.blocks_addWaiting fits (dropped.canGrant ▸ cannot) ne
    · have none : s.wfg.successors u = [] := inv.successors_of_call found rfl rfl
      have here : (q'.addWaiting ⟨u, mode, .granted, s.run.nextCh⟩).Blocks u b ↔ b ∈ q'.conflictingTxns mode u :=
        cleared.blocks_own (inv.locks.not_waiting found rfl rfl)
      rw [graph, none]
      simp only [true_and, not_mem_nil, or_false, heap_after_eq]
      constructor
      · intro conflicts
        exact ⟨addr, by rw [if_pos rfl, here]; exact conflicts⟩
      · rintro ⟨a', blocks⟩
        split at blocks
        · exact here.1 blocks
        · exact absurd blocks (inv.locks.not_blocks_of_call found rfl rfl)
  | @granted c u _ _ _ _ found =>
    have graph : s.run.graphAfter s.wfg (.granted c) = s.wfg.removeEdges u := by
      simp only [graphAfter, found]
    rw [graph]
    refine inv.inside locks found rfl (by simp) (.inl rfl) (fun a ne b => ?_) (fun _ _ _ _ => Iff.rfl) fun _ b => ?_
    · rw [successors_removeEdges, if_neg ne]
    · rw [successors_removeEdges, if_pos rfl]
      simp only [not_mem_nil, false_iff]
      exact inv.not_blocks_after locks found rfl (by simp)
  | @gaveUp c u _ _ addr _ found =>
    have leaves : s.run.givesUp (.giveUp c) = [u] := by simp only [givesUp, found, Call.txn]
    have hands := sections c rfl _ found
    rw [leaves]
    refine inv.inside locks found rfl (by simp) (.inr ⟨rfl, rfl⟩) (fun _ _ _ => Iff.rfl) (fun a ne stays b => ?_) ?_
    · exact hands.blocks (wf addr) ne stays
    · intro eq
      simp at eq
  | absent => exact inv
  | looked free | releaseAll free =>
    refine inv.outside locks rfl rfl get_goto (by simp [free]) ?_ fun a => .inl rfl
    rintro x ⟨⟩
    exact starts _ rfl
  | @returned c u found =>
    have graph : s.run.graphAfter s.wfg (.nextResource c) = s.wfg.removeEdges u := by
      simp only [graphAfter, found]
    rw [graph]
    refine inv.outside locks rfl rfl get_goto (by simp [found, Call.channel]) (by simp) fun a => ?_
    rw [successors_removeEdges]
    split
    · rename_i self
      subst self
      exact .inr ⟨rfl, fun b addr => inv.locks.not_blocks_of_call found rfl rfl⟩
    · exact .inl rfl
  | @nextResource c u _ _ _ found | @skipped c u _ _ found =>
    have graph : s.run.graphAfter s.wfg (.nextResource c) = s.wfg := by simp only [graphAfter, found]
    rw [graph]
    refine inv.outside locks rfl rfl get_goto (by simp [found, Call.channel]) ?_ fun a => .inl rfl
    rintro x ⟨⟩ mem
    exact inv.idle u mem c _ found rfl
  | @released c u r' addr rest x found next =>
    have hands : (s.run.heap addr).HandsOver u := sections c rfl _ found
    have without : (s.run.heap addr).without u = (s.run.heap addr).removeGranted u :=
      without_of_not_waiting (inv.locks.not_waiting found rfl rfl)
    refine inv.inside locks found rfl ?_ (.inl rfl) (fun _ _ _ => Iff.rfl) (fun a ne stays b => ?_) fun _ b => ?_
    · rintro y ⟨⟩
      rcases next with rfl | rfl <;> rfl
    · rw [← without] at stays ⊢
      exact hands.blocks (wf addr) ne stays
    · refine inv.idle_after locks found rfl rfl ?_
      rintro y ⟨⟩
      rcases next with rfl | rfl <;> rfl
  | @reaped c u r' rest found =>
    refine inv.outside locks rfl rfl get_goto (by simp [found, Call.channel]) ?_ fun a => .inl rfl
    rintro x ⟨⟩ mem
    exact inv.idle u mem c _ found rfl
  | @forgot c u r' rest found =>
    refine inv.outside locks rfl rfl get_goto (by simp [found, Call.channel]) ?_ fun a => .inl rfl
    intro x place mem
    refine inv.idle u ?_ c _ found rfl
    cases rest <;> cases place
    exact mem

end Step

/-- One tidy step keeps the graph right. -/
theorem GraphInv.step {s s' : GraphRun} {a : GraphAction} (inv : GraphInv s) (tidy : s.Tidy a)
    (taken : s.next a = some s') : GraphInv s' := by
  cases a with
  | lock act =>
    simp only [GraphRun.next] at taken
    split at taken
    · rename_i moved
      cases taken
      exact inv.lock tidy moved
    · cases taken
  | removeEdges t =>
    obtain ⟨leaves, rfl⟩ := of_guard taken
    refine ⟨inv.locks, fun u mem => inv.idle u (mem_of_mem_erase mem), fun a settled b => ?_⟩
    rw [successors_removeEdges]
    split
    · rename_i self
      subst self
      refine iff_of_false not_mem_nil ?_
      rintro ⟨addr, blocks⟩
      refine inv.locks.not_blocks (fun c res m ch found => ?_) blocks
      exact absurd rfl (inv.idle a leaves c _ found)
    · rename_i other
      refine inv.exact a ⟨fun mem => settled.1 ?_, settled.2⟩ b
      exact (mem_erase_of_ne other).2 mem

theorem GraphInv.empty : GraphInv {} where
  locks := LockInv.empty
  idle t mem := by cases mem
  exact a _ b := by
    refine iff_of_false not_mem_nil ?_
    rintro ⟨addr, w, mem, -⟩
    cases mem

/-- In tidy runs the graph shows, whenever no wake-up is pending, who waits for whom. -/
theorem exact_of_tidy {s : GraphRun} (reached : Reach GraphRun.next GraphRun.Tidy {} s) (quiet : s.Quiet) :
    s.Exact := by
  have inv : GraphInv s := reached.invariant GraphInv.empty fun _ _ _ inv tidy taken => inv.step tidy taken
  have edges (a b : Nat) : b ∈ s.wfg.successors a ↔ s.run.Blocked a b := by
    rw [inv.locks.blocked_iff]
    refine inv.exact a ⟨by rw [quiet.1]; exact not_mem_nil, fun c call found _ => ?_⟩ b
    exact quiet.2 c ((GoMap.mem_keys_iff _ _).2 ⟨call, found⟩) call found
  refine ⟨edges, fun a => ?_⟩
  have same : (fun a b => b ∈ s.wfg.successors a) = s.run.Blocked := by
    funext a b
    exact propext (edges a b)
  rw [same]

/-- Two transactions each hold a lock and wait for that of the other: the graph has the cycle. -/
theorem exact_deadlock : ∃ s, Reach GraphRun.next GraphRun.Tidy {} s ∧ s.Quiet ∧
    s.wfg.successors 1 = [2] ∧ s.wfg.successors 2 = [1] ∧ s.Exact := by
  obtain ⟨s, reached, quiet, first, second⟩ := Reach.exists_such GraphRun.next GraphRun.Tidy {}
    [.lock (.acquire 0 1 (.row [97] [107]) .x), .lock (.enter 0),
      .lock (.acquire 0 2 (.row [97] [108]) .x), .lock (.enter 0),
      .lock (.acquire 1 1 (.row [97] [108]) .x), .lock (.enter 1),
      .lock (.acquire 2 2 (.row [97] [107]) .x), .lock (.enter 2)]
    (fun s => s.Quiet ∧ s.wfg.successors 1 = [2] ∧ s.wfg.successors 2 = [1]) (by decide)
  exact ⟨s, reached, quiet, first, second, exact_of_tidy reached quiet⟩

/-- Two requests wait for one lock; the first of them gets it, and the second still points at the
transaction that had it. -/
theorem not_exact : ¬ ∀ s, Reach GraphRun.next AnyStep {} s → s.Quiet → s.Exact := by
  intro claim
  obtain ⟨s, reached, quiet, edges, place, queue⟩ := Reach.exists_such GraphRun.next AnyStep {}
    [.lock (.acquire 0 2 (.row [97] [107]) .x), .lock (.enter 0),
      .lock (.acquire 1 3 (.row [97] [107]) .x), .lock (.enter 1),
      .lock (.acquire 2 1 (.row [97] [107]) .x), .lock (.enter 2),
      .lock (.releaseAll 0 2 [.row [97] [107]]), .lock (.nextResource 0), .lock (.release 0),
      .lock (.forget 0), .lock (.nextResource 0), .lock (.granted 1)]
    (fun s => s.Quiet ∧ s.wfg.successors 1 = [2] ∧ s.run.table.get (ResourceID.row [97] [107]).name = some 0 ∧
      s.run.heap 0 = ⟨[⟨3, .x, .granted, 1⟩], [⟨1, .x, .waiting, 2⟩]⟩) (by decide)
  have blocked : s.run.Blocked 1 3 := by
    refine ⟨_, 0, place, ?_⟩
    rw [queue]
    exact ⟨_, mem_cons_self, rfl, _, mem_cons_self, rfl, by decide, rfl⟩
  have edge := ((claim s reached quiet).1 1 3).2 blocked
  rw [edges] at edge
  exact absurd edge (by decide)

end TransactionManager.Lock
