import TransactionManager.Lock.Table

/-!
# Critical sections of the lock manager

Every section under a queue's mutex has one shape: the caller's own request in one queue
changes, waiters of that queue may be granted, and the caller's held set and place follow.
`LockInv.across` says when such a section keeps the invariant; only the caller's request for
the one resource is left to be looked at.
-/

namespace TransactionManager.Lock
open Lib LockRun GoMap Function TransactionManager.Types LockInv

namespace LockInv
variable {s : LockRun} {t c addr : Nat} {r : ResourceID} {call : Call} {y : Option Call}

theorem alone (inv : LockInv s) (found : s.calls.get c = some call) (mine : call.txn = t) (c' : Nat)
    (x : Call) (found' : s.calls.get c' = some x) (mine' : x.txn = t) : c' = c :=
  inv.table.sequential c' c x call found' found (mine'.trans mine.symm)

theorem idle_alone (idle : s.Idle t) (c' : Nat) (x : Call) (found : s.calls.get c' = some x)
    (mine : x.txn = t) : c' = c :=
  absurd mine (idle c' ((mem_keys_iff _ _).2 ⟨x, found⟩) x found)

section
variable (inv : LockInv s) (alone : ∀ c' x, s.calls.get c' = some x → x.txn = t → c' = c)
include inv alone

theorem goto (before : ∀ x, s.calls.get c = some x → x.txn = t ∧ x.queuedAt = none)
    (after : ∀ x ∈ y, x.txn = t ∧ x.queuedAt = none ∧ CallOk s x)
    (past : ∀ r, (∃ x, s.calls.get c = some x ∧ x.past = some r) ↔ ∃ x ∈ y, x.past = some r) :
    LockInv (s.goto c y) := by
  have same : s.setHeld t (s.held t) = s := by simp [setHeld]
  have moved := inv.move (h := s.held t) alone before (same.symm ▸ after) (fun _ _ get => get)
    (fun _ _ holds => holds.1) fun r _ _ => past r
  rwa [same] at moved

theorem quiet (before : ∀ x, s.calls.get c = some x → x.txn = t ∧ x.queuedAt = none ∧ x.past = none)
    (after : ∀ x ∈ y, x.txn = t ∧ x.queuedAt = none ∧ x.past = none ∧ CallOk s x) : LockInv (s.goto c y) := by
  apply inv.goto alone (fun x found => (before x found).imp_right And.left)
  · intro x mem
    obtain ⟨own, idle, -, ok⟩ := after x mem
    exact ⟨own, idle, ok⟩
  · intro r
    constructor
    · rintro ⟨x, found, past⟩
      rw [(before x found).2.2] at past
      cases past
    · rintro ⟨x, mem, past⟩
      rw [(after x mem).2.2.1] at past
      cases past

end

/-- The own side of a section on `r` in the queue at `addr`: what the transaction holds elsewhere stays, so only `r`
is to be looked at. -/
theorem own (inv : LockInv s) {s' : LockRun} {q' : Queue} (found : s.calls.get c = some call) (mine : call.txn = t)
    (place : ∀ a ∈ call.queuedAt, a = addr) (unreleased : ∀ r', ¬ s.Releasing t r') (noAlias : s.NoAlias t r)
    (names : ∀ n, s.table.get n = some addr → n = r.name)
    (mapped : (s.held t).get r ≠ none → s.table.get r.name = some addr) (table : s'.table = s.table)
    (heap : s'.heap = update s.heap addr q') (held : ∀ r', r' ≠ r → (s'.held t).get r' = (s.held t).get r')
    (calls : ∀ c' x, s'.calls.get c' = some x → x.txn = t → c' = c ∧ y = some x)
    (here : ∀ m, s'.Holds t r m → s.table.get r.name = some addr ∧ ∃ e ∈ q'.granted, e.txnID = t ∧ e.mode = m)
    (elsewhere : ∀ r', r' ≠ r → ¬ s'.Releasing t r') (callOk : ∀ x ∈ y, CallOk s' x)
    (granted : ∀ e ∈ q'.granted, e.txnID = t → s'.Holds t r e.mode)
    (queued : ∀ e ∈ q'.waiting, e.txnID = t → s'.calls.get c = some (.waiting t r e.mode addr e.grantedCh)) :
    TxnOk s' t := by
  have ok := inv.txns t
  have alone := inv.alone found mine
  -- another resource that the transaction holds has another name
  have apart {r' : ResourceID} (other : r' ≠ r) (get : (s.held t).get r' ≠ none) : r'.name ≠ r.name := by
    intro name
    obtain ⟨m, eq⟩ := Option.ne_none_iff_exists'.1 get
    exact other (noAlias r' ((mem_keys_iff _ _).2 ⟨m, eq⟩) name)
  have notWaiting {c' a ch : Nat} {r' : ResourceID} {m : Mode} (away : a ≠ addr) :
      s.calls.get c' ≠ some (.waiting t r' m a ch) := by
    intro found'
    obtain rfl := alone c' _ found' rfl
    rw [found] at found'
    cases found'
    exact away (place a rfl)
  refine ⟨?_, ?_, ?_, ?_, ?_⟩
  · intro r₁ r₂ get₁ get₂ name
    by_cases eq₁ : r₁ = r <;> by_cases eq₂ : r₂ = r
    · exact eq₁.trans eq₂.symm
    · rw [held r₂ eq₂] at get₂
      exact absurd (eq₁ ▸ name.symm) (apart eq₂ get₂)
    · rw [held r₁ eq₁] at get₁
      exact absurd (eq₂ ▸ name) (apart eq₁ get₁)
    · rw [held r₁ eq₁] at get₁
      rw [held r₂ eq₂] at get₂
      exact ok.distinct r₁ r₂ get₁ get₂ name
  · intro r' m holds
    rw [table, heap]
    by_cases eq : r' = r
    · subst eq
      obtain ⟨at', entry⟩ := here m holds
      exact ⟨addr, at', by rwa [update_self]⟩
    · have get := holds.1
      rw [held r' eq] at get
      obtain ⟨a, at', entry⟩ := ok.holds r' m ⟨get, unreleased r'⟩
      have away : a ≠ addr := by
        rintro rfl
        exact apart eq (by rw [get]; simp) (names _ at')
      exact ⟨a, at', by rwa [update_of_ne away]⟩
  · intro c' x found' mine'
    exact callOk x (calls c' x found' mine').2
  · intro n a at' e mem mine'
    rw [table] at at'
    rw [heap] at mem
    by_cases away : a = addr
    · subst away
      rw [update_self] at mem
      exact .inl ⟨r, (names n at').symm, granted e mem mine'⟩
    · rw [update_of_ne away] at mem
      rcases ok.granted n a at' e mem mine' with ⟨r', rfl, holds⟩ | ⟨c', r', found', -⟩
      · refine .inl ⟨r', rfl, ?_⟩
        by_cases eq : r' = r
        · subst eq
          rw [mapped (by rw [holds.1]; simp)] at at'
          cases at'
          exact absurd rfl away
        · exact ⟨(held r' eq).trans holds.1, elsewhere r' eq⟩
      · exact absurd found' (notWaiting away)
  · intro n a at' e mem mine'
    rw [table] at at'
    rw [heap] at mem
    by_cases away : a = addr
    · subst away
      rw [update_self] at mem
      exact ⟨c, r, queued e mem mine', (names n at').symm⟩
    · rw [update_of_ne away] at mem
      obtain ⟨c', r', found', -⟩ := ok.queued n a at' e mem mine'
      exact absurd found' (notWaiting away)

/-- The state after a section of `t` in the queue at `addr`. -/
def after (s : LockRun) (t c addr : Nat) (q' : Queue) (newly : List Nat) (h : HeldSet) (k : Nat)
    (y : Option Call) : LockRun :=
  ({ s with heap := update s.heap addr q', closed := s.closed ++ newly, nextCh := k }.setHeld t h).goto c y

theorem get_after {q' : Queue} {newly : List Nat} {h : HeldSet} {k c' : Nat} :
    (after s t c addr q' newly h k y).calls.get c' = if c' = c then y else s.calls.get c' := by
  unfold after
  rw [get_goto]
  rfl

theorem held_after {q' : Queue} {newly : List Nat} {h : HeldSet} {k : Nat} :
    (after s t c addr q' newly h k y).held t = h :=
  update_self ..

section
variable (found : s.calls.get c = some call)
include found

section
variable (inv : LockInv s) (mine : call.txn = t)
include inv mine

/-- A section of `t` on `r` keeps the invariant when its own request fits its held set. -/
theorem across {q' : Queue} {newly : List Nat} {h : HeldSet} {k : Nat} (place : ∀ a ∈ call.queuedAt, a = addr)
    (unreleased : call.past = none) (noAlias : s.NoAlias t r) (names : ∀ n, s.table.get n = some addr → n = r.name)
    (mapped : (s.held t).get r ≠ none → s.table.get r.name = some addr) (step : QueueStep t (s.heap addr) q' newly)
    (known : (∃ n, s.table.get n = some addr) ∨ q' = {}) (grow : s.nextCh ≤ k)
    (held : ∀ r', r' ≠ r → h.get r' = (s.held t).get r') (mine' : ∀ x ∈ y, x.txn = t ∧ ∀ r' ∈ x.past, r' = r)
    (fresh : ∀ x ∈ y, ∀ ch ∈ x.channel, s.nextCh ≤ ch ∧ ch < k)
    (callOk : ∀ x ∈ y, CallOk (after s t c addr q' newly h k y) x)
    (here : ∀ m, h.get r = some m → (∀ x ∈ y, x.past = none) → s.table.get r.name = some addr ∧ ∃ e ∈ q'.granted,
      e.txnID = t ∧ e.mode = m)
    (granted : ∀ e ∈ q'.granted, e.txnID = t → h.get r = some e.mode ∧ ∀ x ∈ y, x.past = none)
    (queued : ∀ e ∈ q'.waiting, e.txnID = t → y = some (.waiting t r e.mode addr e.grantedCh)) :
    LockInv (after s t c addr q' newly h k y) := by
  have alone := inv.alone found mine
  have calls {c' : Nat} {x : Call}
      (found' : (after s t c addr q' newly h k y).calls.get c' = some x) (own : x.txn = t) :
      c' = c ∧ y = some x := by
    rw [get_after] at found'
    split at found'
    · exact ⟨‹_›, found'⟩
    · rename_i ne
      exact absurd (alone c' x found' own) ne
  have before (x : Call) (found' : s.calls.get c = some x) : x.txn = t := by
    rw [found] at found'
    cases found'
    exact mine
  constructor
  · obtain ⟨mapped', inj, orphan, wf, sequential, channels, bounded, closed⟩ := TableInv.across inv step known
    have inside : TableInv (LockRun.setHeld
        { s with
          heap := update s.heap addr q'
          closed := s.closed ++ newly
          nextCh := k } t h) :=
      ⟨mapped', inj, orphan, wf, sequential, channels,
        fun c' t' r' m a ch found' => (bounded c' t' r' m a ch found').trans_le grow,
        fun ch mem => (closed ch mem).trans_le grow⟩
    apply inside.goto alone fun x mem => (mine' x mem).1
    intro x mem ch waits
    obtain ⟨new, lt⟩ := fresh x mem ch waits
    refine ⟨lt, fun c' u r'' m' a' found' => ?_⟩
    have := inv.table.bounded _ _ _ _ _ _ found'
    omega
  · intro u
    by_cases same : u = t
    · subst same
      refine inv.own (y := y) found mine place ?_ noAlias names mapped rfl rfl ?_ ?_ ?_ ?_ callOk ?_ ?_
      · intro r' releasing
        obtain ⟨c', x, found', own, past⟩ := releasing_iff.1 releasing
        obtain rfl := alone c' x found' own
        rw [found] at found'
        cases found'
        rw [unreleased] at past
        cases past
      · rw [held_after]
        exact held
      · exact fun c' x found' own => calls found' own
      · intro m holds
        have get := holds.1
        rw [held_after] at get
        refine here m get fun x mem => ?_
        cases eq : x.past with
        | none => rfl
        | some r' =>
          obtain rfl := (mine' x mem).2 r' eq
          refine absurd (releasing_iff.2 ⟨c, x, ?_, (mine' x mem).1, eq⟩) holds.2
          rw [get_after, if_pos rfl, mem]
      · intro r' ne releasing
        obtain ⟨c', x, found', own, past⟩ := releasing_iff.1 releasing
        exact ne ((mine' x (calls found' own).2).2 r' past)
      · intro e mem own
        obtain ⟨get, quiet⟩ := granted e mem own
        refine ⟨by rwa [held_after], fun releasing => ?_⟩
        obtain ⟨c', x, found', own', past⟩ := releasing_iff.1 releasing
        rw [quiet x (calls found' own').2] at past
        cases past
      · intro e mem own
        rw [get_after, if_pos rfl]
        exact queued e mem own
    · refine (TxnOk.across inv step same).frame rfl rfl rfl rfl ?_ ?_
      · exact update_of_ne same ..
      · exact calls_goto before (fun x mem => (mine' x mem).1) same

/-- A granted request of a transaction whose call does not wait is one it holds. -/
theorem get_of_granted (place : call.queuedAt = none) (noAlias : s.NoAlias t r) (at' : s.table.get r.name = some addr)
    {e : Request} (mem : e ∈ (s.heap addr).granted) (own : e.txnID = t) : (s.held t).get r = some e.mode := by
  rcases (inv.txns t).granted _ addr at' e mem own with ⟨r', name, holds⟩ | ⟨c', r', found', -⟩
  · obtain rfl := noAlias r' ((mem_keys_iff _ _).2 ⟨_, holds.1⟩) name
    exact holds.1
  · obtain rfl := inv.alone found mine c' _ found' rfl
    rw [found] at found'
    cases found'
    cases place

theorem not_waiting (place : call.queuedAt = none) : ∀ e ∈ (s.heap addr).waiting, e.txnID ≠ t := by
  intro e mem own
  obtain ⟨c', r', found', -⟩ := inv.call_of_waiting mem
  obtain rfl := inv.alone found mine c' _ found' own
  rw [found] at found'
  cases found'
  cases place

/-- What `t` holds is granted while its call has taken nothing away. -/
theorem entry_of_get (unreleased : call.past = none) {m : Mode} (get : (s.held t).get r = some m) :
    ∃ addr, s.table.get r.name = some addr ∧ ∃ e ∈ (s.heap addr).granted, e.txnID = t ∧ e.mode = m := by
  refine (inv.txns t).holds r m ⟨get, fun releasing => ?_⟩
  obtain ⟨c', x, found', own, past⟩ := releasing_iff.1 releasing
  obtain rfl := inv.alone found mine c' x found' own
  rw [found] at found'
  cases found'
  rw [unreleased] at past
  cases past

end

end

end LockInv

/-!
## What one step of the lock manager does

The inversion of `LockRun.next`: one constructor for each way a step can go. A section under a
queue's mutex is an `after`: the new queue, the channels it closes, the held set and the place
where the call goes on.
-/

/-- The queue without the requests of the transaction, before waiters are granted. -/
def Queue.without (q : Queue) (t : Nat) : Queue := (q.removeWaiting t).removeGranted t

section
variable {s : LockRun} {t c addr k : Nat} {q : Queue} {newly : List Nat} {h : HeldSet} {y : Option Call}

theorem after_nil : after s t c addr q [] h k y =
    ({ s with heap := update s.heap addr q, nextCh := k }.setHeld t h).goto c y := by
  simp [after]

theorem after_store : after s t c addr q.grantWaiters (q.newlyGranted.map (·.grantedCh)) (s.held t) s.nextCh y =
      (s.store addr q q.grantWaiters).goto c y := by
  simp [after, store, setHeld]

theorem after_same : after s t c addr (s.heap addr) [] h s.nextCh y = (s.setHeld t h).goto c y := by
  simp [after]

theorem heap_after_eq (a : Nat) : (after s t c addr q newly h k y).heap a = if a = addr then q else s.heap a := by
  exact update_apply ..

theorem held_after_eq {u : Nat} : (after s u c addr q newly h k y).held t = if t = u then h else s.held t := by
  exact update_apply ..

theorem held_after_same {u : Nat} : (after s u c addr q newly (s.held u) k y).held t = s.held t := by
  rw [held_after_eq]
  split
  · rename_i own
    rw [own]
  · rfl

theorem nextCh_getOrCreate (name : GoString) : (s.getOrCreate name).2.nextCh = s.nextCh ∧
    (s.getOrCreate name).2.heap = s.heap ∧ (s.getOrCreate name).2.closed = s.closed := by
  unfold getOrCreate
  split <;> exact ⟨rfl, rfl, rfl⟩

end

inductive LockStep (s : LockRun) : LockAction → LockRun → Prop where
  | acquire (free : s.calls.get c = none) :
      LockStep s (.acquire c t r mode)
        ((s.getOrCreate r.name).2.goto c (some (.acquire t r mode (s.getOrCreate r.name).1)))
  | held (found : s.calls.get c = some (.acquire t r mode addr)) (get : (s.held t).get r = some existing)
      (enough : lockStrength mode ≤ lockStrength existing) :
      LockStep s (.enter c) (after s t c addr (s.heap addr) [] (s.held t) (s.nextCh + 1) none)
  | entered (found : s.calls.get c = some (.acquire t r mode addr))
      (dropped : Dropped (s.heap addr) (s.held t) t r mode q' h) (can : q'.canGrant mode t = true) :
      LockStep s (.enter c)
        (after s t c addr (q'.addGranted ⟨t, mode, .granted, s.nextCh⟩) [] (h.set r mode) (s.nextCh + 1) none)
  | queued (found : s.calls.get c = some (.acquire t r mode addr))
      (dropped : Dropped (s.heap addr) (s.held t) t r mode q' h) (cannot : q'.canGrant mode t = false) :
      LockStep s (.enter c) (after s t c addr (q'.addWaiting ⟨t, mode, .granted, s.nextCh⟩) [] h (s.nextCh + 1)
        (some (.waiting t r mode addr s.nextCh)))
  | granted (found : s.calls.get c = some (.waiting t r mode addr ch)) (closed : ch ∈ s.closed) :
      LockStep s (.granted c) (after s t c addr (s.heap addr) [] ((s.held t).set r mode) s.nextCh none)
  | gaveUp (found : s.calls.get c = some (.waiting t r mode addr ch)) :
      LockStep s (.giveUp c) (after s t c addr ((s.heap addr).without t).grantWaiters
        (((s.heap addr).without t).newlyGranted.map (·.grantedCh)) (s.held t) s.nextCh none)
  | absent : LockStep s (.releaseLock c t r) s
  | looked (free : s.calls.get c = none) (at' : s.table.get r.name = some addr) :
      LockStep s (.releaseLock c t r) (s.goto c (some (.release t r addr none)))
  | releaseAll (free : s.calls.get c = none) (perm : order.Perm (s.held t).keys) :
      LockStep s (.releaseAll c t order) (s.goto c (some (.releaseAll t order)))
  | returned (found : s.calls.get c = some (.releaseAll t [])) : LockStep s (.nextResource c) (s.goto c none)
  | nextResource (found : s.calls.get c = some (.releaseAll t (r :: rest))) (at' : s.table.get r.name = some addr) :
      LockStep s (.nextResource c) (s.goto c (some (.release t r addr (some rest))))
  | skipped (found : s.calls.get c = some (.releaseAll t (r :: rest))) (absent : s.table.get r.name = none) :
      LockStep s (.nextResource c) ((s.setHeld t ((s.held t).delete r)).goto c (some (.releaseAll t rest)))
  | released (found : s.calls.get c = some (.release t r addr rest))
      (next : x = .reap t r rest ∨ x = .forget t r rest) :
      LockStep s (.release c) (after s t c addr ((s.heap addr).removeGranted t).grantWaiters
        (((s.heap addr).removeGranted t).newlyGranted.map (·.grantedCh)) (s.held t) s.nextCh (some x))
  | reaped (found : s.calls.get c = some (.reap t r rest)) :
      LockStep s (.reap c) ({ s with table := s.table.delete r.name }.goto c (some (.forget t r rest)))
  | forgot (found : s.calls.get c = some (.forget t r rest)) :
      LockStep s (.forget c) ((s.setHeld t ((s.held t).delete r)).goto c (afterRelease t rest))

theorem LockRun.next_step {s s' : LockRun} {a : LockAction} (taken : s.next a = some s') : LockStep s a s' := by
  cases a with (simp only [LockRun.next] at taken; try (split at taken; case h_2 => cases taken))
  | enter c =>
    rename_i t r mode addr found
    rcases acquireLocked_cases (s.heap addr) (s.held t) t r mode s.nextCh with
      ⟨existing, get, enough, eq⟩ | ⟨q', h, dropped, ⟨can, eq⟩ | ⟨cannot, eq⟩⟩
    · rw [eq] at taken
      cases taken
      exact after_nil ▸ .held found get enough
    · rw [eq] at taken
      cases taken
      exact after_nil ▸ .entered found dropped can
    · rw [eq] at taken
      cases taken
      exact after_nil ▸ .queued found dropped cannot
  | acquire c t r mode =>
    split at taken
    · cases taken
    · cases taken
      exact .acquire ‹_›
  | granted c =>
    rename_i t r mode addr ch found
    obtain ⟨_, rfl⟩ := of_guard taken
    exact after_same ▸ .granted found ‹_›
  | giveUp c =>
    rename_i t r mode addr ch found
    cases taken
    exact after_store ▸ .gaveUp found
  | releaseLock c t r =>
    split at taken
    · cases taken
    · split at taken
      · cases taken
        exact .looked ‹_› ‹_›
      · cases taken
        exact .absent
  | releaseAll c t order =>
    split at taken
    · cases taken
    · obtain ⟨_, rfl⟩ := of_guard taken
      exact .releaseAll ‹_› ‹_›
  | nextResource c =>
    split at taken
    · cases taken
      exact .returned ‹_›
    · rename_i t r rest found
      split at taken
      · cases taken
        exact .nextResource found ‹_›
      · cases taken
        exact .skipped found ‹_›
    · cases taken
  | release c =>
    rename_i t r addr rest found
    split at taken
    · cases taken
      exact after_store ▸ .released found (.inl rfl)
    · cases taken
      exact after_store ▸ .released found (.inr rfl)
  | reap c =>
    cases taken
    exact .reaped ‹_›
  | forget c =>
    cases taken
    exact .forgot ‹_›

def LockAction.call : LockAction → Nat
  | .acquire c _ _ _ | .enter c | .granted c | .giveUp c | .releaseLock c _ _ | .releaseAll c _ _
  | .nextResource c | .release c | .reap c | .forget c => c

section
variable {s s' : LockRun} {a : LockAction}

theorem calls_getOrCreate (name : GoString) : (s.getOrCreate name).2.calls = s.calls ∧
    (s.getOrCreate name).2.held = s.held := by
  unfold getOrCreate
  split <;> exact ⟨rfl, rfl⟩

theorem get_goto_getOrCreate {name : GoString} {c : Nat} {call : Option Call} (c' : Nat) :
    ((s.getOrCreate name).2.goto c call).calls.get c' = if c' = c then call else s.calls.get c' := by
  rw [get_goto, (calls_getOrCreate name).1]

theorem LockStep.get_other (step : LockStep s a s') {c : Nat} (other : c ≠ a.call) :
    s'.calls.get c = s.calls.get c := by
  cases step with
  | acquire => exact (get_goto_getOrCreate ..).trans (if_neg other)
  | held | entered | queued | granted | gaveUp | released => exact get_after.trans (if_neg other)
  | absent => rfl
  | _ =>
    exact (get_goto ..).trans (if_neg other)

theorem LockStep.held_other (step : LockStep s a s') {u : Nat}
    (other : ∀ call ∈ s.calls.get a.call, call.txn ≠ u) : s'.held u = s.held u := by
  cases step with
  | acquire => exact congrFun (calls_getOrCreate _).2 u
  | held found | entered found | queued found | granted found | gaveUp found | released found =>
    exact held_after_eq.trans (if_neg fun own => other _ found own.symm)
  | skipped found | forgot found =>
    exact update_of_ne (fun own => other _ found own.symm) ..
  | _ => rfl

/-- An acquisition that returns has the mode, or found a mode that is strong enough. -/
theorem LockStep.held_of_returned (step : LockStep s a s') {c t addr : Nat} {r : ResourceID} {mode : Mode}
    (found : s.calls.get c = some (.acquire t r mode addr) ∨ ∃ ch, s.calls.get c = some (.waiting t r mode addr ch))
    (moved : a = .enter c ∨ a = .granted c) (returned : s'.calls.get c = none) :
    ∃ m, (s'.held t).get r = some m ∧ lockStrength mode ≤ lockStrength m ∧
      (m = mode ∨ a = .enter c ∧ (s.held t).get r = some m) := by
  have acquired {t' addr' : Nat} {r' : ResourceID} {mode' : Mode}
      (now : s.calls.get c = some (.acquire t' r' mode' addr')) : t' = t ∧ r' = r ∧ mode' = mode := by
    rcases found with found | ⟨ch, found⟩
    · rw [found] at now
      cases now
      exact ⟨rfl, rfl, rfl⟩
    · rw [found] at now
      cases now
  cases step with
  | @held _ _ _ _ _ existing now get enough =>
    rcases moved with ⟨⟨⟩⟩ | ⟨⟨⟩⟩
    obtain ⟨rfl, rfl, rfl⟩ := acquired now
    exact ⟨existing, by rw [held_after_same, get], enough, .inr ⟨rfl, get⟩⟩
  | @entered _ _ _ mode' _ _ _ now =>
    rcases moved with ⟨⟨⟩⟩ | ⟨⟨⟩⟩
    obtain ⟨rfl, rfl, rfl⟩ := acquired now
    refine ⟨mode', ?_, le_rfl, .inl rfl⟩
    rw [held_after_eq, if_pos rfl, GoMap.get_set, if_pos rfl]
  | queued =>
    rcases moved with ⟨⟨⟩⟩ | ⟨⟨⟩⟩
    rw [get_after, if_pos rfl] at returned
    cases returned
  | @granted _ _ _ _ _ _ now =>
    rcases moved with ⟨⟨⟩⟩ | ⟨⟨⟩⟩
    rcases found with found | ⟨ch', found⟩ <;> rw [found] at now <;> cases now
    refine ⟨mode, ?_, le_rfl, .inl rfl⟩
    rw [held_after_eq, if_pos rfl, GoMap.get_set, if_pos rfl]
  | _ => rcases moved with ⟨⟨⟩⟩ | ⟨⟨⟩⟩

end

end TransactionManager.Lock
