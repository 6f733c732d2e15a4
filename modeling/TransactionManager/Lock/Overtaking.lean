import TransactionManager.Lock.Strict

/-!
# The order in which requests are granted

`GrantWaiters` grants waiting requests from the front, so no request that arrives later passes one
that waits. A direct grant in `AcquireLockCtx` looks at the granted requests only and passes
every waiter.
-/

namespace TransactionManager.Lock
open Lib LockInv List LockRun

namespace LockRun

def Waits (s : LockRun) (t : Nat) (r : ResourceID) (m : Mode) (ch : Nat) : Prop :=
  ∃ c addr, s.calls.get c = some (.waiting t r m addr ch) ∧ ch ∉ s.closed

/-- The step grants the transaction's request: at once, when it holds nothing on the resource, or out of the wait
list. Requests are numbered as they arrive. -/
def Grants (s : LockRun) (a : LockAction) (s' : LockRun) (u : Nat) (r : ResourceID) (m : Mode) (ch : Nat) : Prop :=
  (∃ c addr, a = .enter c ∧ s.calls.get c = some (.acquire u r m addr) ∧ ch = s.nextCh ∧
    (s.held u).get r = none ∧ (acquireLocked (s.heap addr) (s.held u) u r m ch).1 = .granted) ∨
  s.Waits u r m ch ∧ ch ∈ s'.closed

/-- The step grants no request that arrived after one that goes on waiting and conflicts with it. -/
def KeepsOrder (s : LockRun) (a : LockAction) (s' : LockRun) : Prop :=
  ∀ t u r m m' ch ch', t ≠ u → s.Waits t r m ch → s'.Waits t r m ch → s.Grants a s' u r m' ch' →
    ch < ch' → lockCompatible m' m = true

/-- A first request that conflicts with one that waits also conflicts with one that is granted. -/
def Yields (s : LockRun) : Call → Prop
  | .acquire u r mode addr => (s.held u).get r = none → (s.heap addr).canGrant mode u = true →
      ∀ w ∈ (s.heap addr).waiting, w.txnID ≠ u → lockCompatible mode w.mode = true
  | _ => True

instance (s : LockRun) (call : Call) : Decidable (s.Yields call) := by
  unfold Yields
  cases_type Call <;> infer_instance

/-- The orderly steps in which no newcomer is granted a lock that conflicts with a waiting request. -/
def Polite (s : LockRun) (a : LockAction) : Prop :=
  s.Orderly a ∧ ∀ c ∈ a.entering, ∀ call ∈ s.calls.get c, s.Yields call

instance (s : LockRun) (a : LockAction) : Decidable (s.Polite a) := inferInstanceAs (Decidable (_ ∧ _))

end LockRun

/-- The wait lists are in the order of arrival. -/
def InLine (s : LockRun) : Prop := ∀ addr, (s.heap addr).waiting.Pairwise fun w w' => w.grantedCh < w'.grantedCh

section Queue
variable {q : Queue} {w w' : Request}

theorem Queue.map_newlyGranted (q : Queue) : q.newlyGranted.map (·.grantedCh) =
    (q.waiting.take q.newlyGranted.length).map (·.grantedCh) := by
  rw [newlyGranted]
  conv_lhs => rw [grantable_eq_take]
  rw [map_map]
  rfl

/-- Of an ordered wait list `GrantWaiters` takes an initial part. -/
theorem Queue.newlyGranted_closed
    (ordered : q.waiting.Pairwise fun w w' => w.grantedCh < w'.grantedCh) (mem : w ∈ q.waiting)
    (granted : w'.grantedCh ∈ q.newlyGranted.map (·.grantedCh)) (before : w.grantedCh < w'.grantedCh) :
    w.grantedCh ∈ q.newlyGranted.map (·.grantedCh) := by
  have split := take_append_drop q.newlyGranted.length q.waiting
  rw [map_newlyGranted] at granted ⊢
  obtain ⟨g, front, eq⟩ := mem_map.1 granted
  rw [← split] at mem ordered
  rcases mem_append.1 mem with here | behind
  · exact mem_map_of_mem here
  · have := (pairwise_append.1 ordered).2.2 g front w behind
    omega

end Queue

section Step
variable {s s' : LockRun} {t c addr k ch : Nat} {q : Queue} {newly : List Nat} {h : HeldSet} {y : Option Call}
  {r : ResourceID} {m : Mode}

/-- A section that changes the wait list of one queue. -/
theorem InLine.after (line : InLine s) (ordered : q.waiting.Pairwise fun w w' => w.grantedCh < w'.grantedCh) :
    InLine (after s t c addr q newly h k y) := by
  intro a
  rw [heap_after_eq]
  split
  · exact ordered
  · exact line a

theorem InLine.step (line : InLine s) (inv : LockInv s) {a : LockAction} (step : LockStep s a s') : InLine s' := by
  cases step with
  | @acquire _ _ r' =>
    intro addr
    show ((s.getOrCreate r'.name).2.heap addr).waiting.Pairwise _
    rw [(nextCh_getOrCreate r'.name).2.1]
    exact line addr
  | held | granted => exact line.after (line _)
  | @entered _ _ _ _ addr q' _ _ dropped =>
    refine line.after ?_
    show q'.waiting.Pairwise _
    rw [dropped.waiting]
    exact line addr
  | @queued _ _ _ _ addr q' _ _ dropped =>
    refine line.after ?_
    show (q'.waiting ++ [_]).Pairwise _
    rw [dropped.waiting, pairwise_append]
    refine ⟨line addr, pairwise_singleton .., fun w mem w' new => ?_⟩
    rw [mem_singleton.1 new]
    obtain ⟨c', r'', found', -⟩ := inv.call_of_waiting mem
    exact inv.table.bounded _ _ _ _ _ _ found'
  | gaveUp => exact line.after ((line _).sublist ((drop_sublist ..).trans eraseP_sublist))
  | released => exact line.after ((line _).sublist (drop_sublist ..))
  | _ => exact line

/-- A call that waits on a resource waits in the queue that the table knows. -/
theorem LockInv.table_of_waiting (inv : LockInv s)
    (found : s.calls.get c = some (.waiting t r m addr ch)) : s.table.get r.name = some addr :=
  ((inv.txns t).call c _ found rfl).1

/-- Waiters are granted from the front. -/
theorem InLine.handOff (line : InLine s) (inv : LockInv s) {call : Call}
    (found : s.calls.get c = some call) (mine : call.txn = t) (sub : q.waiting.Sublist (s.heap addr).waiting)
    (keeps : ∀ w ∈ (s.heap addr).waiting, w.txnID ≠ t → w ∈ q.waiting)
    (quiet : ∀ u r m a ch, y ≠ some (.waiting u r m a ch)) {u v ch' : Nat} {m' : Mode}
    (waits : (LockInv.after s t c addr q.grantWaiters (q.newlyGranted.map (·.grantedCh)) h k y).Waits u r m ch)
    (later : s.Waits v r m' ch') (before : ch < ch') :
    ch' ∉ (LockInv.after s t c addr q.grantWaiters (q.newlyGranted.map (·.grantedCh)) h k y).closed := by
  intro closed
  obtain ⟨c₁, a₁, found₁, opened₁⟩ := waits
  obtain ⟨c₂, a₂, found₂, opened₂⟩ := later
  rw [get_after] at found₁
  split at found₁
  · exact quiet _ _ _ _ _ found₁
  rename_i other
  have newly : ch' ∈ q.newlyGranted.map (·.grantedCh) := (mem_append.1 closed).resolve_left opened₂
  have still : ch ∉ s.closed := fun mem => opened₁ (mem_append_left _ mem)
  obtain ⟨w, mem, txn, -, eq⟩ := inv.waiting_of_call found₁ still
  obtain ⟨w', mem', txn', -, eq'⟩ := inv.waiting_of_call found₂ opened₂
  -- the request that is granted is the one in the queue of the section
  obtain ⟨g, granted, eqg⟩ := mem_map.1 newly
  have inside : ∃ w ∈ q.waiting, w.grantedCh = ch' := by
    rw [Queue.newlyGranted, grantable_eq_take] at granted
    obtain ⟨w, front, rfl⟩ := mem_map.1 granted
    exact ⟨w, mem_of_mem_take front, eqg⟩
  obtain ⟨w₀, mem₀, eq₀⟩ := inside
  have place : a₂ = addr := by
    obtain ⟨c₃, r₃, found₃, -⟩ := inv.call_of_waiting (sub.subset mem₀)
    rw [eq₀] at found₃
    obtain rfl := inv.table.channels _ _ _ _ _ _ _ _ _ _ _ found₂ found₃
    rw [found₂] at found₃
    cases found₃
    rfl
  have same : a₁ = a₂ := by
    have at₁ := inv.table_of_waiting found₁
    rw [inv.table_of_waiting found₂] at at₁
    exact (Option.some_injective _ at₁).symm
  subst same place
  have away : w.txnID ≠ t := by
    intro own
    exact other (inv.table.sequential _ _ _ _ found₁ found ((txn.symm.trans own).trans mine.symm))
  have first := Queue.newlyGranted_closed (w := w) ((line a₁).sublist sub) (keeps w mem away) (eq' ▸ newly) (by omega)
  exact opened₁ (mem_append_right _ (eq ▸ first))

/-- A request that is granted at once conflicts with no waiting one. -/
theorem LockInv.newcomer (inv : LockInv s) {m' : Mode} {u : Nat} (found : s.calls.get c = some (.acquire u r m' addr))
    (yields : s.Yields (.acquire u r m' addr)) (free : (s.held u).get r = none)
    (granted : (acquireLocked (s.heap addr) (s.held u) u r m' s.nextCh).1 = .granted) (ne : t ≠ u)
    (waits : s.Waits t r m ch) : lockCompatible m' m = true := by
  obtain ⟨c₁, a₁, found₁, opened⟩ := waits
  obtain ⟨w, mem, txn, mode, -⟩ := inv.waiting_of_call found₁ opened
  have same : a₁ = addr := by
    have at₁ := inv.table_of_waiting found₁
    rw [((inv.txns u).call c _ found rfl).1] at at₁
    exact (Option.some_injective _ at₁).symm
  subst same
  have can : (s.heap a₁).canGrant m' u = true := by
    rcases acquireLocked_cases (s.heap a₁) (s.held u) u r m' s.nextCh with
      ⟨existing, get, -, -⟩ | ⟨q', h, dropped, ⟨can, -⟩ | ⟨-, eq⟩⟩
    · rw [free] at get
      cases get
    · exact dropped.canGrant ▸ can
    · rw [eq] at granted
      cases granted
  rw [← mode]
  exact yields free can w mem (txn ▸ ne)

theorem InLine.keepsOrder (line : InLine s) (inv : LockInv s) {a : LockAction}
    (polite : s.Polite a) (step : LockStep s a s') : s.KeepsOrder a s' := by
  intro t u r m m' ch ch' ne waits waits' grants before
  rcases grants with ⟨c, addr, rfl, found, rfl, free, granted⟩ | ⟨later, closed⟩
  · exact inv.newcomer found (polite.2 c rfl _ found) free granted ne waits
  -- only a hand-off closes channels
  have opened : ch' ∉ s.closed := by
    obtain ⟨_, _, _, opened⟩ := later
    exact opened
  cases step with
  | @gaveUp _ v _ _ addr _ found =>
    refine absurd closed (line.handOff inv (q := (s.heap addr).without v) (y := none) found rfl eraseP_sublist
      (fun w mem away => ?_) nofun waits' later before)
    exact (inv.table.wf addr).mem_removeWaiting.2 ⟨mem, away⟩
  | @released c v r' addr rest x found next =>
    refine absurd closed (line.handOff inv (q := (s.heap addr).removeGranted v) found rfl (.refl _)
      (fun w mem _ => mem) ?_ waits' later before)
    rintro _ _ _ _ _ eq
    rcases next with rfl | rfl <;> cases eq
  | @acquire _ _ r' =>
    have same := (nextCh_getOrCreate (s := s) r'.name).2.2
    exact absurd (show ch' ∈ s.closed from same ▸ closed) opened
  | held | entered | queued | granted =>
    exact absurd ((mem_append.1 closed).resolve_right not_mem_nil) opened
  | _ =>
    exact absurd closed opened

end Step

/-- In polite runs no request passes one that waits and conflicts with it. -/
theorem keepsOrder_of_polite {s s' : LockRun} {a : LockAction}
    (reached : Reach LockRun.next Polite {} s) (polite : s.Polite a) (taken : s.next a = some s') :
    s.KeepsOrder a s' := by
  have inv : LockInv s ∧ InLine s := by
    clear polite taken
    induction reached with
    | refl => exact ⟨LockInv.empty, fun _ => List.Pairwise.nil⟩
    | step _ ok taken now => exact ⟨now.1.step ok.1 taken, now.2.step now.1 (next_step taken)⟩
  exact inv.2.keepsOrder inv.1 polite (next_step taken)

/-- Two requests wait behind an exclusive lock; the release grants the one that came first. -/
theorem keepsOrder_handover : ∃ s s', Reach LockRun.next Polite {} s ∧ s.next (.release 0) = some s' ∧
    s.calls.get 2 = some (.waiting 3 (.row [97] [107]) .x 0 2) ∧ 2 ∉ s'.closed ∧
    s.KeepsOrder (.release 0) s' := by
  obtain ⟨s, reached, waits, polite, s', taken, closed⟩ := Reach.exists_such LockRun.next Polite {}
    [.acquire 0 1 (.row [97] [107]) .x, .enter 0, .acquire 1 2 (.row [97] [107]) .x, .enter 1,
      .acquire 2 3 (.row [97] [107]) .x, .enter 2, .releaseAll 0 1 [.row [97] [107]], .nextResource 0]
    (fun s => s.calls.get 2 = some (.waiting 3 (.row [97] [107]) .x 0 2) ∧
      s.Polite (.release 0) ∧ ∃ s' ∈ s.next (.release 0), 2 ∉ s'.closed) (by decide)
  exact ⟨s, s', reached, taken, waits, closed, keepsOrder_of_polite reached polite taken⟩

/-- An exclusive request waits for a shared lock; a later shared request is granted at once. -/
theorem not_keepsOrder : ¬ ∀ (s s' : LockRun) (a : LockAction), Reach LockRun.next AnyStep {} s →
    s.next a = some s' → s.KeepsOrder a s' := by
  intro claim
  obtain ⟨s, reached, waits, asks, opened, next, free, granted, s', taken, waits', opened'⟩ := Reach.exists_such LockRun.next AnyStep {}
    [.acquire 0 1 (.row [97] [107]) .s, .enter 0, .acquire 1 2 (.row [97] [107]) .x, .enter 1,
      .acquire 2 3 (.row [97] [107]) .s]
    (fun s => s.calls.get 1 = some (.waiting 2 (.row [97] [107]) .x 0 1) ∧
      s.calls.get 2 = some (.acquire 3 (.row [97] [107]) .s 0) ∧ 1 ∉ s.closed ∧ s.nextCh = 2 ∧
      (s.held 3).get (.row [97] [107]) = none ∧
      (acquireLocked (s.heap 0) (s.held 3) 3 (.row [97] [107]) .s 2).1 = .granted ∧
      ∃ s' ∈ s.next (.enter 2), s'.calls.get 1 = some (.waiting 2 (.row [97] [107]) .x 0 1) ∧ 1 ∉ s'.closed) (by decide)
  have compatible := claim s s' (.enter 2) reached taken 2 3 (.row [97] [107]) .x .s 1 2 (by decide)
    ⟨1, 0, waits, opened⟩ ⟨1, 0, waits', opened'⟩ (.inl ⟨2, 0, rfl, asks, next.symm, free, granted⟩) (by decide)
  exact absurd compatible (by decide)

/-!
## How a wait for a lock ends

A call that waits ends when its request is granted or when it gives up, which may come after the grant. Either
way it returns with the one grant that it reports, or with none. Two resources of one name put two
grants of a transaction into one queue.
-/

namespace LockRun

/-- A transaction makes one call at a time, and no queue is deleted from the table. -/
def Sole (s : LockRun) : LockAction → Prop
  | .acquire _ t _ _ | .releaseLock _ t _ | .releaseAll _ t _ => s.Idle t
  | .reap _ => False
  | _ => True

instance (s : LockRun) (a : LockAction) : Decidable (s.Sole a) := by
  unfold Sole Idle
  cases_type LockAction <;> infer_instance

/-- A call that waits and returns an error leaves no request in the queue; one that returns nil leaves one grant, of
the mode in the held set, and no conflicting grant beside it. -/
def NoLeak (s : LockRun) : Prop := ∀ c t r mode addr ch, s.calls.get c = some (.waiting t r mode addr ch) →
    (∀ s', s.next (.giveUp c) = some s' → (s'.heap addr).Lacks t) ∧
    ∀ s', s.next (.granted c) = some s' → ((s'.heap addr).granted.map (·.txnID)).count t = 1 ∧
      ∃ e ∈ (s'.heap addr).granted, e.txnID = t ∧ (s'.held t).get r = some e.mode ∧
        lockStrength mode ≤ lockStrength e.mode ∧
        ∀ e' ∈ (s'.heap addr).granted, e'.txnID ≠ t → lockCompatible e.mode e'.mode = true

end LockRun

theorem LockInv.noLeak {s : LockRun} (inv : LockInv s) : s.NoLeak := by
  intro c t r mode addr ch found
  have wf := inv.table.wf addr
  refine ⟨fun s' taken => ?_, fun s' taken => ?_⟩
  · cases next_step taken with
    | gaveUp found' =>
      cases found.symm.trans found'
      rw [heap_after_eq, if_pos rfl]
      exact Queue.lacks_grantWaiters.2 (Queue.lacks_removeGranted fun w mem => (wf.mem_removeWaiting.1 mem).2)
  · cases next_step taken with
    | granted found' closed =>
      cases found.symm.trans found'
      obtain ⟨-, -, -, ⟨-, e, mem, own, rfl⟩ | ⟨e, -, -, -, rfl, opened⟩⟩ := (inv.txns t).call c _ found rfl
      · have nodup := map_append ▸ wf.nodup
        rw [heap_after_eq, if_pos rfl, held_after]
        refine ⟨count_eq_one_of_mem (nodup_append.1 nodup).1 (own ▸ mem_map_of_mem mem), e, mem, own,
          by simp, le_rfl, fun e' mem' other => inv.compatible mem mem' own rfl (Ne.symm other)⟩
      · exact absurd closed opened

/-- A call that waits returns with the one grant it reports, or with none. -/
theorem noLeak_of_orderly {s : LockRun} (reached : Reach LockRun.next Orderly {} s) : s.NoLeak := by
  have inv : LockInv s := reached.invariant LockInv.empty fun _ _ _ inv ok taken => inv.step ok taken
  exact inv.noLeak

/-- The second transaction can give up after its request has been granted. -/
theorem noLeak_granted : ∃ s, Reach LockRun.next Orderly {} s ∧
    s.calls.get 1 = some (.waiting 2 (.row [97] [107]) .x 0 1) ∧ s.closed = [1] ∧ s.NoLeak := by
  exact Reach.exists_and_and [.acquire 0 1 (.row [97] [107]) .x, .enter 0, .acquire 1 2 (.row [97] [107]) .x, .enter 1,
      .releaseLock 0 1 (.row [97] [107]), .release 0, .forget 0]
    (by decide) fun s reached _ _ => noLeak_of_orderly reached

/-- The first transaction holds a row and waits for another row of the same name, and gets it next to its
first grant. -/
theorem not_noLeak : ¬ ∀ s, Reach LockRun.next Sole {} s → s.NoLeak := by
  intro claim
  obtain ⟨s, reached, waits, s', taken, two⟩ := Reach.exists_such LockRun.next Sole {}
    [.acquire 0 1 (.row [97] [58, 98]) .is, .enter 0, .acquire 1 2 (.row [97] [58, 98]) .ix, .enter 1,
      .acquire 0 1 (.row [97, 58] [98]) .s, .enter 0,
      .releaseLock 1 2 (.row [97] [58, 98]), .release 1, .forget 1]
    (fun s => s.calls.get 0 = some (.waiting 1 (.row [97, 58] [98]) .s 0 2) ∧
      ∃ s' ∈ s.next (.granted 0), ((s'.heap 0).granted.map (·.txnID)).count 1 = 2) (by decide)
  have one := ((claim s reached _ _ _ _ _ _ waits).2 s' taken).1
  omega

end TransactionManager.Lock
