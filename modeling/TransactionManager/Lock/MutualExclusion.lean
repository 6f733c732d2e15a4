import TransactionManager.Lock.SectionInv

/-!
# Mutual exclusion across the lock table

Each step of `AcquireLockCtx`, `ReleaseLock` and `ReleaseAllLocks` keeps the invariant when
it is orderly, so in orderly runs transactions hold compatible modes only. A queue that is
deleted from the table while an acquirer has it in hand is what breaks this.
-/

namespace TransactionManager.Lock
open Lib TransactionManager.Types List GoMap Function Queue LockRun

namespace LockInv
variable {s : LockRun} {t c addr ch : Nat} {r : ResourceID} {mode : Mode} {y : Option Call} {q' : Queue}
  {h : HeldSet} {rest : Option (List ResourceID)}

section
variable (inv : LockInv s)
include inv

/-- `GetOrCreate` keeps the invariant, and its queue is the one the table knows. -/
theorem getOrCreate (n : GoString) :
    LockInv (s.getOrCreate n).2 ∧ (s.getOrCreate n).2.table.get n = some (s.getOrCreate n).1 ∧
      (s.getOrCreate n).2.calls = s.calls ∧ (s.getOrCreate n).2.held = s.held := by
  unfold LockRun.getOrCreate
  cases found : s.table.get n with
  | some => exact ⟨inv, found, rfl, rfl⟩
  | none =>
    refine ⟨⟨?_, fun u => TxnOk.create inv found⟩, by simp, rfl, rfl⟩
    have old := inv.table
    refine ⟨?_, ?_, ?_, old.wf, old.sequential, old.channels, old.bounded, old.closed⟩
    · intro n' a at'
      show a < s.nextAddr + 1
      rcases of_get_set at' with ⟨-, rfl⟩ | ⟨-, at'⟩
      · omega
      · exact Nat.lt_succ_of_lt (old.mapped n' a at')
    · intro n₁ n₂ a at₁ at₂
      rcases of_get_set at₁ with ⟨eq₁, new₁⟩ | ⟨-, old₁⟩ <;>
        rcases of_get_set at₂ with ⟨eq₂, new₂⟩ | ⟨-, old₂⟩
      · exact eq₁.trans eq₂.symm
      · exact absurd (old.mapped n₂ a old₂) (by omega)
      · exact absurd (old.mapped n₁ a old₁) (by omega)
      · exact old.inj n₁ n₂ a old₁ old₂
    · intro a unmapped
      apply old.orphan a
      intro n' at'
      have := unmapped n'
      rw [get_set] at this
      split at this
      · rename_i eq
        rw [eq, found] at at'
        cases at'
      · exact this at'

theorem acquire (free : s.calls.get c = none) (idle : s.Idle t) (noAlias : s.NoAlias t r) (mode : Mode) :
    LockInv ((s.getOrCreate r.name).2.goto c (some (.acquire t r mode (s.getOrCreate r.name).1))) := by
  obtain ⟨inv', at', calls, held⟩ := inv.getOrCreate r.name
  apply inv'.quiet
  · rw [calls]
    exact idle_alone idle
  · rw [calls, free]
    nofun
  · rintro x ⟨⟩
    refine ⟨rfl, rfl, rfl, at', ?_⟩
    unfold NoAlias
    rw [held]
    exact noAlias

theorem releaseLock (free : s.calls.get c = none) (idle : s.Idle t)
    (noAlias : s.NoAlias t r) (at' : s.table.get r.name = some addr) :
    LockInv (s.goto c (some (.release t r addr none))) := by
  apply inv.quiet (idle_alone idle)
  · rw [free]
    nofun
  rintro x ⟨⟩
  refine ⟨rfl, rfl, rfl, ?_, inv.table.mapped _ _ at', ?_, fun _ => at'⟩
  · intro r' mem
    rw [mem_singleton.1 mem]
    exact noAlias
  · exact fun n at'' => inv.table.inj n _ addr at'' at'

theorem noAlias_of_held (held : r ∈ (s.held t).keys) : s.NoAlias t r := by
  intro r' held' name
  rw [mem_keys_iff] at held held'
  obtain ⟨m, get⟩ := held
  obtain ⟨m', get'⟩ := held'
  exact (inv.txns t).distinct r' r (by rw [get']; simp) (by rw [get]; simp) name

theorem releaseAll (free : s.calls.get c = none) (idle : s.Idle t)
    {order : List ResourceID} (perm : order.Perm (s.held t).keys) :
    LockInv (s.goto c (some (.releaseAll t order))) := by
  apply inv.quiet (idle_alone idle)
  · rw [free]
    nofun
  · rintro x ⟨⟩
    exact ⟨rfl, rfl, rfl, fun r held => inv.noAlias_of_held (perm.mem_iff.1 held)⟩

theorem nextResource {rest : List ResourceID} (found : s.calls.get c = some (.releaseAll t (r :: rest)))
    (at' : s.table.get r.name = some addr) :
    LockInv (s.goto c (some (.release t r addr (some rest)))) := by
  apply inv.quiet (inv.alone found rfl)
  · rw [found]
    rintro x ⟨⟩
    exact ⟨rfl, rfl, rfl⟩
  · rintro x ⟨⟩
    have noAlias := (inv.txns t).call c _ found rfl
    exact ⟨rfl, rfl, rfl, noAlias, inv.table.mapped _ _ at',
      fun n at'' => inv.table.inj n _ addr at'' at', fun _ => at'⟩

theorem lastResource (found : s.calls.get c = some (.releaseAll t [])) : LockInv (s.goto c none) := by
  apply inv.quiet (inv.alone found rfl)
  · rw [found]
    rintro x ⟨⟩
    exact ⟨rfl, rfl, rfl⟩
  · nofun

end

section
variable (inv : LockInv s)
include inv

section
variable (found : s.calls.get c = some (.acquire t r mode addr))
include found

theorem enter_held : LockInv (after s t c addr (s.heap addr) [] (s.held t) (s.nextCh + 1) none) := by
  obtain ⟨at', noAlias⟩ := (inv.txns t).call c _ found rfl
  apply inv.across (t := t) found rfl nofun rfl noAlias (fun n at'' => inv.table.inj n _ addr at'' at')
    (fun _ => at') (.refl (inv.table.wf addr)) (.inl ⟨_, at'⟩) (Nat.le_succ _) (fun _ _ => rfl)
  · nofun
  · nofun
  · nofun
  · intro m get _
    obtain ⟨a, at'', entry⟩ := inv.entry_of_get found rfl rfl get
    rw [at'] at at''
    cases at''
    exact ⟨at', entry⟩
  · intro e mem own
    exact ⟨inv.get_of_granted (t := t) found rfl rfl noAlias at' mem own, nofun⟩
  · intro e mem own
    exact absurd own (inv.not_waiting found rfl rfl e mem)

theorem enter_dropped (dropped : Dropped (s.heap addr) (s.held t) t r mode q' h) :
    QueueStep t (s.heap addr) q' [] ∧ q'.Lacks t := by
  obtain ⟨at', noAlias⟩ := (inv.txns t).call c _ found rfl
  have wf := inv.table.wf addr
  have idle : ∀ e ∈ (s.heap addr).waiting, e.txnID ≠ t := inv.not_waiting (t := t) found rfl rfl
  rcases dropped with ⟨rfl, free, -⟩ | ⟨rfl, -, -⟩
  · refine ⟨.refl wf, fun e mem own => ?_⟩
    cases mem_append.1 mem with
    | inl granted =>
      rw [inv.get_of_granted (t := t) found rfl rfl noAlias at' granted own] at free
      cases free
    | inr waiting => exact idle e waiting own
  · exact ⟨.removeGranted wf, lacks_removeGranted idle⟩

theorem enter_granted (step : QueueStep t (s.heap addr) q' []) (lacks : q'.Lacks t)
    (held : ∀ r', r' ≠ r → h.get r' = (s.held t).get r') (can : q'.canGrant mode t = true) :
    LockInv (after s t c addr (q'.addGranted ⟨t, mode, .granted, ch⟩) [] (h.set r mode) (s.nextCh + 1) none) := by
  obtain ⟨at', noAlias⟩ := (inv.txns t).call c _ found rfl
  apply inv.across (t := t) found rfl nofun rfl noAlias (fun n at'' => inv.table.inj n _ addr at'' at')
    (fun _ => at') (step.own (step.wf.addGranted lacks can) (fun _ other => mem_append_own other) fun _ _ => .rfl)
    (.inl ⟨_, at'⟩) (Nat.le_succ _)
  · intro r' ne
    rw [get_set, if_neg ne]
    exact held r' ne
  · nofun
  · nofun
  · nofun
  · intro m get _
    rw [get_set, if_pos rfl] at get
    cases get
    exact ⟨at', _, mem_append_right _ mem_cons_self, rfl, rfl⟩
  · intro e mem own
    refine ⟨?_, nofun⟩
    cases mem_append.1 mem with
    | inl old => exact absurd own (lacks e (mem_append_left _ old))
    | inr new =>
      rw [mem_singleton.1 new, get_set, if_pos rfl]
  · intro e mem own
    exact absurd own (lacks e (mem_append_right _ mem))

theorem enter_waiting (step : QueueStep t (s.heap addr) q' []) (lacks : q'.Lacks t)
    (free : h.get r = none) (held : ∀ r', r' ≠ r → h.get r' = (s.held t).get r') :
    LockInv (after s t c addr (q'.addWaiting ⟨t, mode, .granted, s.nextCh⟩) [] h (s.nextCh + 1)
      (some (.waiting t r mode addr s.nextCh))) := by
  obtain ⟨at', noAlias⟩ := (inv.txns t).call c _ found rfl
  apply inv.across (t := t) found rfl nofun rfl noAlias (fun n at'' => inv.table.inj n _ addr at'' at')
    (fun _ => at') (step.own (step.wf.addWaiting lacks) (fun _ _ => .rfl) fun _ other => mem_append_own other)
    (.inl ⟨_, at'⟩) (Nat.le_succ _) held
  · rintro x ⟨⟩
    exact ⟨rfl, nofun⟩
  · rintro x ⟨⟩ ch ⟨⟩
    omega
  · rintro x ⟨⟩
    refine ⟨at', ?_, by rwa [held_after], .inr ⟨⟨t, mode, .waiting, s.nextCh⟩, ?_, rfl, rfl, rfl, ?_⟩⟩
    · intro r' mem name
      rw [held_after, mem_keys_iff] at mem
      obtain ⟨m, get⟩ := mem
      by_cases eq : r' = r
      · exact eq
      · rw [held r' eq] at get
        exact noAlias r' ((mem_keys_iff _ _).2 ⟨m, get⟩) name
    · show _ ∈ (update s.heap addr _ addr).waiting
      rw [update_self]
      exact mem_append_right _ mem_cons_self
    · intro closed
      rw [show (after s t c addr _ [] h _ _).closed = s.closed ++ [] from rfl, append_nil] at closed
      exact absurd (inv.table.closed _ closed) (Nat.lt_irrefl _)
  · intro m get
    rw [free] at get
    cases get
  · intro e mem own
    exact absurd own (lacks e (mem_append_left _ mem))
  · intro e mem own
    cases mem_append.1 mem with
    | inl old => exact absurd own (lacks e (mem_append_right _ old))
    | inr new => rw [mem_singleton.1 new]

end

/-- A waiter sees its channel closed: its request had been granted. -/
theorem wakeUp (found : s.calls.get c = some (.waiting t r mode addr ch)) (closed : ch ∈ s.closed) :
    LockInv (after s t c addr (s.heap addr) [] ((s.held t).set r mode) s.nextCh none) := by
  obtain ⟨at', noAlias, free, entry⟩ := (inv.txns t).call c _ found rfl
  obtain ⟨e, mem, own, mode'⟩ : ∃ e ∈ (s.heap addr).granted, e.txnID = t ∧ e.mode = mode := by
    rcases entry with ⟨-, granted⟩ | ⟨e, -, -, -, -, opened⟩
    · exact granted
    · exact absurd closed opened
  have wf := inv.table.wf addr
  apply inv.across (t := t) found rfl _ rfl noAlias
    (fun n at'' => inv.table.inj n _ addr at'' at') (fun _ => at') (.refl wf) (.inl ⟨_, at'⟩) le_rfl
  · intro r' ne
    rw [get_set, if_neg ne]
  · nofun
  · nofun
  · nofun
  · intro m get _
    rw [get_set, if_pos rfl] at get
    cases get
    exact ⟨at', e, mem, own, mode'⟩
  · intro e' mem' own'
    rw [get_set, if_pos rfl]
    rcases (inv.txns t).granted _ addr at' e' mem' own' with ⟨r', name, holds⟩ | ⟨c', r', found', -⟩
    · obtain rfl := noAlias r' ((mem_keys_iff _ _).2 ⟨_, holds.1⟩) name
      rw [holds.1] at free
      cases free
    · obtain rfl := inv.alone found rfl c' _ found' rfl
      rw [found] at found'
      cases found'
      exact ⟨rfl, nofun⟩
  · intro e' mem' own'
    exact absurd (own.trans own'.symm) (wf.disjoint mem mem')
  · rintro a ⟨⟩
    rfl

/-- A wait that ends takes the transaction's requests out, granted meanwhile or not. -/
theorem giveUp (found : s.calls.get c = some (.waiting t r mode addr ch))
    (q : Queue) (out : q = ((s.heap addr).removeWaiting t).removeGranted t) :
    LockInv (after s t c addr q.grantWaiters (q.newlyGranted.map (·.grantedCh)) (s.held t) s.nextCh none) := by
  obtain ⟨at', noAlias, free, -⟩ := (inv.txns t).call c _ found rfl
  have wf := inv.table.wf addr
  subst out
  have lacks : (((s.heap addr).removeWaiting t).removeGranted t).Lacks t :=
    lacks_removeGranted fun w mem => (wf.mem_removeWaiting.1 mem).2
  have gone := lacks_grantWaiters.2 lacks
  apply inv.across (t := t) found rfl _ rfl noAlias (fun n at'' => inv.table.inj n _ addr at'' at') (fun _ => at')
    (queueStep_grantWaiters wf.removeWaiting.removeGranted lacks
      (fun e => mem_removeGranted) fun e => wf.mem_removeWaiting)
    (.inl ⟨_, at'⟩) le_rfl (fun _ _ => rfl)
  · nofun
  · nofun
  · nofun
  · intro m get
    rw [free] at get
    cases get
  · exact fun e mem own => absurd own (gone e (mem_append_left _ mem))
  · exact fun e mem own => absurd own (gone e (mem_append_right _ mem))
  · rintro a ⟨⟩
    rfl

/-- A release takes the transaction's grants out of the queue. -/
theorem release (found : s.calls.get c = some (.release t r addr rest)) (q : Queue)
    (out : q = (s.heap addr).removeGranted t) (x : Call) (next : x = .reap t r rest ∨ x = .forget t r rest) :
    LockInv (after s t c addr q.grantWaiters (q.newlyGranted.map (·.grantedCh)) (s.held t) s.nextCh (some x)) := by
  obtain ⟨noAlias, -, names, mapped⟩ := (inv.txns t).call c _ found rfl
  have wf := inv.table.wf addr
  have idle : ∀ e ∈ (s.heap addr).waiting, e.txnID ≠ t := inv.not_waiting (t := t) found rfl rfl
  subst out
  have lacks : ((s.heap addr).removeGranted t).Lacks t := lacks_removeGranted idle
  have gone := lacks_grantWaiters.2 lacks
  have past : x.past = some r ∧ x.txn = t := by cases next <;> subst x <;> exact ⟨rfl, rfl⟩
  have known : (∃ n, s.table.get n = some addr) ∨ ((s.heap addr).removeGranted t).grantWaiters = {} := by
    by_cases at' : ∃ n, s.table.get n = some addr
    · exact .inl at'
    · rw [inv.table.orphan addr fun n h => at' ⟨n, h⟩]
      exact .inr rfl
  -- should the table know another queue under the name, the transaction has nothing in it
  have other (a : Nat) (at' : s.table.get r.name = some a) (away : a ≠ addr) : (s.heap a).Lacks t := by
    intro e mem own
    cases mem_append.1 mem with
    | inl granted =>
      have get := inv.get_of_granted (t := t) found rfl rfl (noAlias r mem_cons_self) at' granted own
      rw [mapped (by rw [get]; simp)] at at'
      cases at'
      exact away rfl
    | inr waiting => exact inv.not_waiting (t := t) found rfl rfl e waiting own
  apply inv.across (t := t) found rfl nofun rfl (noAlias r mem_cons_self) names mapped
    (queueStep_grantWaiters wf.removeGranted lacks (fun e => mem_removeGranted)
      fun e => ⟨fun mem => ⟨mem, idle e mem⟩, And.left⟩)
    known le_rfl (fun _ _ => rfl)
  · rintro x ⟨⟩
    exact ⟨past.2, fun r' eq => Option.some_injective _ (eq.symm.trans past.1)⟩
  · rintro x ⟨⟩ ch' waits
    cases next <;> subst x <;> cases waits
  · rintro x ⟨⟩
    have everywhere (a : Nat) (at' : s.table.get r.name = some a) :
        (update s.heap addr ((s.heap addr).removeGranted t).grantWaiters a).Lacks t := by
      by_cases here : a = addr
      · subst here
        rwa [update_self]
      · rw [update_of_ne here]
        exact other a at' here
    cases next <;> subst x <;> refine ⟨fun r' mem => (noAlias_congr held_after r').2 ?_, everywhere⟩ <;>
      exact noAlias r' (mem_cons_of_mem _ mem)
  · intro m _ quiet
    have := quiet x rfl
    rw [past.1] at this
    cases this
  · exact fun e mem own => absurd own (gone e (mem_append_left _ mem))
  · exact fun e mem own => absurd own (gone e (mem_append_right _ mem))

/-- Of the name of a resource that the transaction holds no more, only the entry in the
held set is left to delete. -/
theorem dropHeld {call : Call} (found : s.calls.get c = some call) (mine : call.txn = t)
    (notWaiting : call.queuedAt = none) (only : ∀ r' ∈ call.past, r' = r) (lost : ∀ m, ¬ s.Holds t r m)
    (after : ∀ x ∈ y, ∃ rest, x = .releaseAll t rest ∧ ∀ r' ∈ rest, s.NoAlias t r') :
    LockInv ((s.setHeld t ((s.held t).delete r)).goto c y) := by
  have before {x : Call} (found' : s.calls.get c = some x) : x = call := by
    rw [found] at found'
    exact (Option.some_injective _ found').symm
  have kept {r' : ResourceID} {m : Mode} (get : ((s.held t).delete r).get r' = some m) :
      r' ≠ r ∧ (s.held t).get r' = some m := by
    rw [get_delete] at get
    split at get
    · cases get
    · exact ⟨‹_›, get⟩
  apply inv.move (inv.alone found mine)
  · intro x found'
    rw [before found']
    exact ⟨mine, notWaiting⟩
  · intro x mem
    obtain ⟨rest, rfl, noAlias⟩ := after x mem
    refine ⟨rfl, rfl, fun r' inside r'' held => noAlias r' inside r'' ?_⟩
    rw [mem_keys_iff] at held ⊢
    obtain ⟨m, get⟩ := held
    rw [show (s.setHeld t _).held t = _ from update_self ..] at get
    exact ⟨m, (kept get).2⟩
  · exact fun r' m get => (kept get).2
  · intro r' m holds
    rw [get_delete, if_neg]
    · exact holds.1
    · rintro rfl
      exact lost m holds
  · intro r' m get
    constructor
    · rintro ⟨x, found', past⟩
      exact absurd (only r' (before found' ▸ past)) (kept get).1
    · rintro ⟨x, mem, past⟩
      obtain ⟨rest, rfl, -⟩ := after x mem
      cases past

theorem forget (found : s.calls.get c = some (.forget t r rest)) :
    LockInv ((s.setHeld t ((s.held t).delete r)).goto c (afterRelease t rest)) := by
  obtain ⟨noAlias, -⟩ := (inv.txns t).call c _ found rfl
  apply inv.dropHeld found rfl rfl
  · rintro r' ⟨⟩
    rfl
  · exact fun m holds => holds.2 ⟨c, rest, .inr found⟩
  · cases rest with
    | none => nofun
    | some rest =>
      rintro x ⟨⟩
      exact ⟨rest, rfl, noAlias⟩

theorem skip {rest : List ResourceID}
    (found : s.calls.get c = some (.releaseAll t (r :: rest))) (absent : s.table.get r.name = none) :
    LockInv ((s.setHeld t ((s.held t).delete r)).goto c (some (.releaseAll t rest))) := by
  have noAlias := (inv.txns t).call c _ found rfl
  apply inv.dropHeld found rfl rfl nofun
  · intro m holds
    obtain ⟨addr, at', -⟩ := (inv.txns t).holds r m holds
    rw [absent] at at'
    cases at'
  · rintro x ⟨⟩
    exact ⟨rest, rfl, fun r' mem => noAlias r' (mem_cons_of_mem _ mem)⟩

theorem reap (found : s.calls.get c = some (.reap t r rest))
    (unused : ∀ addr, s.table.get r.name = some addr → s.Unused addr) :
    LockInv ({ s with table := s.table.delete r.name }.goto c (some (.forget t r rest))) := by
  have inside : LockInv { s with table := s.table.delete r.name } := by
    refine ⟨⟨fun n a at' => inv.table.mapped n a (of_get_delete at'),
      fun n n' a at' at'' => inv.table.inj n n' a (of_get_delete at') (of_get_delete at''),
      fun a unmapped => ?_,
      inv.table.wf, inv.table.sequential, inv.table.channels, inv.table.bounded, inv.table.closed⟩,
      fun u => TxnOk.delete inv unused⟩
    by_cases here : s.table.get r.name = some a
    · exact eq_empty_of_isEmpty (unused a here).1
    apply inv.table.orphan a
    intro n at'
    apply unmapped n
    rw [get_delete, if_neg]
    · exact at'
    · rintro rfl
      exact here at'
  apply inside.goto (t := t) (inside.alone found rfl)
  · rw [found]
    rintro x ⟨⟩
    exact ⟨rfl, rfl⟩
  · rintro x ⟨⟩
    have callOk := (inside.txns t).call c _ found rfl
    exact ⟨rfl, rfl, callOk⟩
  -- the call was and is past the release of this resource
  · intro r'
    rw [found]
    constructor <;> rintro ⟨x, ⟨⟩, past⟩ <;> exact ⟨_, rfl, past⟩

/-- Every orderly step keeps the invariant. -/
theorem step {a : LockAction} {s' : LockRun} (ok : s.Orderly a) (taken : s.next a = some s') : LockInv s' := by
  cases next_step taken with
  | acquire free => exact inv.acquire free ok.1 ok.2 _
  | held found => exact inv.enter_held found
  | entered found dropped can =>
    obtain ⟨step, lacks⟩ := inv.enter_dropped found dropped
    exact inv.enter_granted found step lacks (fun r' ne => (dropped.get r').trans (if_neg ne)) can
  | queued found dropped =>
    obtain ⟨step, lacks⟩ := inv.enter_dropped found dropped
    exact inv.enter_waiting found step lacks ((dropped.get _).trans (if_pos rfl))
      fun r' ne => (dropped.get r').trans (if_neg ne)
  | granted found closed => exact inv.wakeUp found closed
  | gaveUp found => exact inv.giveUp found _ rfl
  | absent => exact inv
  | looked free at' => exact inv.releaseLock free ok.1 ok.2 at'
  | releaseAll free perm => exact inv.releaseAll free ok perm
  | returned found => exact inv.lastResource found
  | nextResource found at' => exact inv.nextResource found at'
  | skipped found absent => exact inv.skip found absent
  | released found next => exact inv.release found _ rfl _ next
  | @reaped c t r rest found => exact inv.reap found (ok _ found r rfl)
  | forgot found => exact inv.forget found

omit inv in
theorem empty : LockInv {} := by
  have noQueue (n : GoString) (addr : Nat) : ({} : LockRun).table.get n ≠ some addr := by
    intro at'
    cases at'
  have noCall (c : Nat) (x : Call) : ({} : LockRun).calls.get c ≠ some x := by
    intro found
    cases found
  constructor
  · refine ⟨fun n a at' => absurd at' (noQueue n a), fun n _ a at' => absurd at' (noQueue n a),
      fun _ _ => rfl, fun _ => ⟨nodup_nil, List.Pairwise.nil⟩,
      fun c _ x _ found => absurd found (noCall c x),
      fun _ _ _ _ _ _ _ _ _ _ _ found => absurd found (noCall _ _),
      fun _ _ _ _ _ _ found => absurd found (noCall _ _), fun ch mem => ?_⟩
    cases mem
  · refine fun t => ⟨fun _ _ held => absurd rfl held, fun r m holds => ?_,
      fun c x found => absurd found (noCall c x), fun n a at' => absurd at' (noQueue n a),
      fun n a at' => absurd at' (noQueue n a)⟩
    cases holds.1

/-- Two transactions' grants in a queue are compatible. -/
theorem compatible {u : Nat} {e e' : Request} (mem : e ∈ (s.heap addr).granted)
    (mem' : e' ∈ (s.heap addr).granted) (own : e.txnID = t) (own' : e'.txnID = u) (ne : t ≠ u) :
    lockCompatible e.mode e'.mode = true := by
  have other : e ≠ e' := by
    rintro rfl
    exact ne (own.symm.trans own')
  have symm : Std.Symm fun a b : Request => lockCompatible a.mode b.mode = true :=
    ⟨fun a b compat => by rwa [lockCompatible_comm]⟩
  exact (inv.table.wf addr).compat.forall mem mem' other

/-- Holders of one resource share a well-formed queue. -/
theorem mutualExclusion : s.MutualExclusion := by
  intro t u r m m' ne holds holds'
  obtain ⟨addr, at', e, mem, own, mode⟩ := (inv.txns t).holds r m holds
  obtain ⟨addr', at'', e', mem', own', mode'⟩ := (inv.txns u).holds r m' holds'
  rw [at'] at at''
  cases at''
  rw [← mode, ← mode']
  exact inv.compatible mem mem' own own' ne

end

end LockInv

/-- In every orderly run transactions hold compatible modes only. -/
theorem mutualExclusion_of_orderly {s : LockRun} (reached : Reach LockRun.next Orderly {} s) :
    s.MutualExclusion := by
  have inv : LockInv s := reached.invariant LockInv.empty fun _ _ _ inv ok taken => inv.step ok taken
  exact inv.mutualExclusion

theorem holds_of_returned {s : LockRun} {t : Nat} {r : ResourceID} {m : Mode}
    (returned : s.calls.keys = []) (get : (s.held t).get r = some m) : s.Holds t r m := by
  refine ⟨get, fun releasing => ?_⟩
  obtain ⟨c, x, found, -⟩ := releasing_iff.1 releasing
  have mem := (mem_keys_iff s.calls c).2 ⟨x, found⟩
  rw [returned] at mem
  cases mem

/-- The second transaction waits for an exclusive lock and gets it from the first. -/
theorem mutualExclusion_handover : ∃ s, Reach LockRun.next Orderly {} s ∧
    s.Holds 2 (.row [97] [107]) .x ∧ s.MutualExclusion := by
  obtain ⟨s, reached, returned, get⟩ := Reach.exists_such LockRun.next Orderly {}
    [.acquire 0 1 (.row [97] [107]) .x, .enter 0, .acquire 1 2 (.row [97] [107]) .x, .enter 1,
      .releaseAll 0 1 [.row [97] [107]], .nextResource 0, .release 0, .forget 0, .nextResource 0, .granted 1]
    (fun s => s.calls.keys = [] ∧ (s.held 2).get (.row [97] [107]) = some .x) (by decide)
  exact ⟨s, reached, holds_of_returned returned get, mutualExclusion_of_orderly reached⟩

/-- The first transaction finds its queue empty and deletes it after the second has looked it up; the third is then
granted the lock in a new queue. -/
theorem not_mutualExclusion : ¬ ∀ s, Reach LockRun.next AnyStep {} s → s.MutualExclusion := by
  intro claim
  obtain ⟨s, reached, returned, second, third⟩ := Reach.exists_such LockRun.next AnyStep {}
    [.acquire 0 1 (.row [97] [107]) .x, .enter 0, .releaseAll 0 1 [.row [97] [107]], .nextResource 0, .release 0,
      .acquire 1 2 (.row [97] [107]) .x, .reap 0, .enter 1, .forget 0, .nextResource 0,
      .acquire 2 3 (.row [97] [107]) .x, .enter 2]
    (fun s => s.calls.keys = [] ∧ (s.held 2).get (.row [97] [107]) = some .x ∧
      (s.held 3).get (.row [97] [107]) = some .x) (by decide)
  have compat := claim s reached 2 3 _ _ _ (by decide) (holds_of_returned returned second)
    (holds_of_returned returned third)
  exact absurd compat (by decide)

end TransactionManager.Lock
