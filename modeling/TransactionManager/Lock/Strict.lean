import TransactionManager.Lock.MutualExclusion

/-!
# Locks are kept until they are released

A lock that a transaction holds stays in its held set and in the queue, possibly at a stronger mode,
until `ReleaseLock` or `ReleaseAllLocks` is called for it. An upgrade drops the weaker grant
before it knows whether the stronger one can be had, so the lock is lost when the upgrade has
to wait.
-/

namespace TransactionManager.Lock
open Lib LockInv List GoMap LockRun

/-- The resources that a release call in flight still has to release. -/
def Call.releasing : Call → List ResourceID
  | .releaseAll _ rest => rest
  | .release _ r _ rest | .reap _ r rest | .forget _ r rest => r :: rest.getD []
  | _ => []

def Call.TakesAway : Call → Prop
  | .acquire .. | .waiting .. => False
  | .releaseAll .. | .release .. | .reap .. | .forget .. => True

def LockAction.Releases (t : Nat) (r : ResourceID) : LockAction → Prop
  | .releaseLock _ u r' => u = t ∧ r' = r
  | .releaseAll _ u _ => u = t
  | _ => False

instance (t : Nat) (r : ResourceID) (a : LockAction) : Decidable (a.Releases t r) := by
  unfold LockAction.Releases
  cases_type LockAction <;> infer_instance

def LockAction.entering : LockAction → Option Nat
  | .enter c => some c
  | _ => none

namespace LockRun

def BeingReleased (s : LockRun) (t : Nat) (r : ResourceID) : Prop :=
  ∃ c call, s.calls.get c = some call ∧ call.txn = t ∧ r ∈ call.releasing

/-- The transaction has a grant at least as strong as the mode, in the queue that the table knows
and in its held set. -/
def Keeps (s : LockRun) (t : Nat) (r : ResourceID) (m : Mode) : Prop :=
  ∃ m', (s.held t).get r = some m' ∧ lockStrength m ≤ lockStrength m' ∧ ∃ addr, s.table.get r.name = some addr ∧
      ∃ e ∈ (s.heap addr).granted, e.txnID = t ∧ lockStrength m ≤ lockStrength e.mode

/-- An acquisition of a stronger mode than the transaction holds conflicts with nobody. -/
def UpgradeFits (s : LockRun) : Call → Prop
  | .acquire t r mode addr => ∀ existing ∈ (s.held t).get r,
      lockStrength existing < lockStrength mode → (s.heap addr).canGrant mode t = true
  | _ => True

instance (s : LockRun) (call : Call) : Decidable (s.UpgradeFits call) := by
  unfold UpgradeFits
  split <;> infer_instance

/-- The orderly steps in which no upgrade has to wait. -/
def Steady (s : LockRun) (a : LockAction) : Prop :=
  s.Orderly a ∧ ∀ c ∈ a.entering, ∀ call ∈ s.calls.get c, s.UpgradeFits call

instance (s : LockRun) (a : LockAction) : Decidable (s.Steady a) := inferInstanceAs (Decidable (_ ∧ _))

end LockRun

section Kept
variable {s s' : LockRun} {t u c addr k : Nat} {r r' : ResourceID} {m : Mode} {q : Queue} {newly : List Nat}
  {h : HeldSet} {y : Option Call} {a : LockAction}

/-- A call moves on to a place from which it releases nothing new. -/
theorem not_beingReleased_of_calls (kept : ¬ s.BeingReleased t r)
    (calls : ∀ c', s'.calls.get c' = if c' = c then y else s.calls.get c')
    (none : ∀ x ∈ y, x.txn = t → r ∉ x.releasing) : ¬ s'.BeingReleased t r := by
  rintro ⟨c', x, found, own, mem⟩
  rw [calls] at found
  split at found
  · exact none x found own mem
  · exact kept ⟨c', x, found, own, mem⟩

/-- A step starts a release of the resource only by the calls that say so. -/
theorem LockStep.not_beingReleased (step : LockStep s a s')
    (kept : ¬ s.BeingReleased t r) (keeps : ¬ a.Releases t r) : ¬ s'.BeingReleased t r := by
  cases step with
  | acquire =>
    refine not_beingReleased_of_calls kept get_goto_getOrCreate ?_
    rintro x ⟨⟩ -
    exact not_mem_nil
  | queued =>
    refine not_beingReleased_of_calls kept (fun _ => get_after) ?_
    rintro x ⟨⟩ -
    exact not_mem_nil
  | absent => exact kept
  | looked =>
    refine not_beingReleased_of_calls kept get_goto ?_
    rintro x ⟨⟩ own mem
    exact keeps ⟨own, (mem_singleton.1 mem).symm⟩
  | releaseAll =>
    refine not_beingReleased_of_calls kept get_goto ?_
    rintro x ⟨⟩ own -
    exact keeps own
  | returned => exact not_beingReleased_of_calls kept get_goto (by simp)
  | skipped found =>
    refine not_beingReleased_of_calls kept get_goto ?_
    rintro x ⟨⟩ own mem
    exact kept ⟨_, _, found, own, mem_cons_of_mem _ mem⟩
  | released found next =>
    refine not_beingReleased_of_calls kept (fun _ => get_after) ?_
    rintro x ⟨⟩ own mem
    rcases next with rfl | rfl <;> exact kept ⟨_, _, found, own, mem⟩
  | nextResource found | reaped found =>
    refine not_beingReleased_of_calls kept get_goto ?_
    rintro x ⟨⟩ own mem
    exact kept ⟨_, _, found, own, mem⟩
  | @forgot c u r' rest found =>
    cases rest with
    | none => exact not_beingReleased_of_calls kept get_goto (by simp [afterRelease])
    | some =>
      refine not_beingReleased_of_calls kept get_goto ?_
      rintro x ⟨⟩ own mem
      exact kept ⟨_, _, found, own, mem_cons_of_mem _ mem⟩
  | _ =>
    exact not_beingReleased_of_calls kept (fun _ => get_after) (by simp)

theorem held_deleted {call : Call} (get : (s.held t).get r = some m) (kept : ¬ s.BeingReleased t r)
    (found : s.calls.get c = some call) (member : r' ∈ call.releasing) :
    (Function.update s.held call.txn ((s.held call.txn).delete r') t).get r = some m := by
  rw [Function.update_apply]
  split
  · rename_i own
    have away : r ≠ r' := by
      rintro rfl
      exact kept ⟨c, call, found, own.symm, member⟩
    rw [get_delete, if_neg away, ← own]
    exact get
  · exact get

/-- An upgrade of a lock that the transaction holds: it gets the stronger mode, or has to wait and has lost the weaker
one. -/
def Upgraded (s : LockRun) (t : Nat) (r : ResourceID) (m : Mode) (a : LockAction) (s' : LockRun) : Prop :=
  ∃ c mode addr, a = .enter c ∧ s.calls.get c = some (.acquire t r mode addr) ∧ lockStrength m < lockStrength mode ∧
    ((s'.held t).get r = some mode ∨ (s'.held t).get r = none ∧ (s.heap addr).canGrant mode t = false)

/-- The section of an acquisition leaves the other resources alone, and upgrades its own. -/
theorem held_section {mode : Mode} {q' : Queue} {h' : HeldSet} (get : (s.held t).get r = some m)
    (found : s.calls.get c = some (.acquire u r' mode addr))
    (dropped : Dropped (s.heap addr) (s.held u) u r' mode q' h)
    (result : h' = h.set r' mode ∨ h' = h ∧ q'.canGrant mode u = false) :
    ((after s u c addr q newly h' k y).held t).get r = some m ∨
      Upgraded s t r m (.enter c) (after s u c addr q newly h' k y) := by
  have place : (after s u c addr q newly h' k y).held t = if t = u then h' else s.held t := held_after_eq
  by_cases own : t = u
  · subst own
    rw [if_pos rfl] at place
    by_cases here : r = r'
    · subst here
      right
      refine ⟨c, mode, addr, rfl, found, dropped.weaker get, ?_⟩
      rw [place]
      rcases result with rfl | ⟨rfl, cannot⟩
      · exact .inl (by rw [get_set, if_pos rfl])
      · exact .inr ⟨by rw [dropped.get, if_pos rfl], dropped.canGrant ▸ cannot⟩
    · left
      have still : h.get r = some m := by rwa [dropped.get, if_neg here]
      rw [place]
      rcases result with rfl | ⟨rfl, -⟩
      · rw [get_set, if_neg here]
        exact still
      · exact still
  · left
    rw [place, if_neg own]
    exact get

/-- What is held and not being released stays held, but for an upgrade of it. -/
theorem LockStep.held_of_get (step : LockStep s a s') (inv : LockInv s)
    (get : (s.held t).get r = some m) (kept : ¬ s.BeingReleased t r) :
    (s'.held t).get r = some m ∨ Upgraded s t r m a s' := by
  cases step with
  | @acquire _ _ r' =>
    left
    show ((s.getOrCreate r'.name).2.held t).get r = some m
    rw [(calls_getOrCreate r'.name).2]
    exact get
  | held | gaveUp | released =>
    left
    rw [held_after_same]
    exact get
  | entered found dropped can => exact held_section get found dropped (.inl rfl)
  | queued found dropped cannot => exact held_section get found dropped (.inr ⟨rfl, cannot⟩)
  | @granted _ _ _ _ _ _ found =>
    left
    rw [held_after_eq]
    split
    · rename_i own
      subst own
      obtain ⟨-, -, free, -⟩ := (inv.txns t).call _ _ found rfl
      rw [get_set, if_neg (by rintro rfl; rw [free] at get; cases get)]
      exact get
    · exact get
  | skipped found | forgot found => exact .inl (held_deleted get kept found mem_cons_self)
  | _ => exact .inl get

/-- The lock is held, at the mode or a stronger one, and no release of it is under way. -/
def StillHeld (t : Nat) (r : ResourceID) (m : Mode) (s : LockRun) : Prop :=
  (∃ m', (s.held t).get r = some m' ∧ lockStrength m ≤ lockStrength m') ∧ ¬ s.BeingReleased t r

theorem StillHeld.step (kept : StillHeld t r m s) (inv : LockInv s)
    (steady : s.Steady a) (keeps : ¬ a.Releases t r) (step : LockStep s a s') : StillHeld t r m s' := by
  obtain ⟨⟨m', get, strong⟩, unreleased⟩ := kept
  refine ⟨?_, step.not_beingReleased unreleased keeps⟩
  rcases step.held_of_get inv get unreleased with same | ⟨c, mode, addr, rfl, found, less, now | ⟨-, cannot⟩⟩
  · exact ⟨m', same, strong⟩
  · exact ⟨mode, now, by omega⟩
  · rw [steady.2 c rfl _ found m' get less] at cannot
    cases cannot

theorem StillHeld.keeps (kept : StillHeld t r m s) (inv : LockInv s) : s.Keeps t r m := by
  obtain ⟨⟨m', get, strong⟩, unreleased⟩ := kept
  have holds : s.Holds t r m' := by
    refine ⟨get, ?_⟩
    rintro ⟨c, rest, reaping | forgetting⟩
    · exact unreleased ⟨c, _, reaping, rfl, mem_cons_self⟩
    · exact unreleased ⟨c, _, forgetting, rfl, mem_cons_self⟩
  obtain ⟨addr, at', e, mem, own, mode⟩ := (inv.txns t).holds r m' holds
  exact ⟨m', get, strong, addr, at', e, mem, own, mode ▸ strong⟩

end Kept

theorem not_beingReleased_of_returned {s : LockRun} {t : Nat} {r : ResourceID}
    (returned : s.calls.keys = []) : ¬ s.BeingReleased t r := by
  rintro ⟨c, call, found, -⟩
  have mem := (mem_keys_iff s.calls c).2 ⟨call, found⟩
  rw [returned] at mem
  cases mem

/-- In steady runs a transaction keeps what it holds until it is released. -/
theorem keeps_of_steady {s s' : LockRun} {t : Nat} {r : ResourceID} {m : Mode}
    (reached : Reach LockRun.next Steady {} s) (get : (s.held t).get r = some m) (unreleased : ¬ s.BeingReleased t r)
    (later : Reach LockRun.next (fun s a => s.Steady a ∧ ¬ a.Releases t r) s s') : s'.Keeps t r m := by
  have inv : LockInv s := reached.invariant LockInv.empty fun _ _ _ inv ok taken => inv.step ok.1 taken
  have kept : LockInv s' ∧ StillHeld t r m s' := by
    induction later with
    | refl => exact ⟨inv, ⟨m, get, le_rfl⟩, unreleased⟩
    | step _ ok taken now =>
      exact ⟨now.1.step ok.1.1 taken, now.2.step now.1 ok.1 ok.2 (next_step taken)⟩
  exact kept.2.keeps kept.1

/-- The first transaction upgrades its lock and keeps it while the second waits and gives up. -/
theorem keeps_upgraded : ∃ s s', Reach LockRun.next Steady {} s ∧
    Reach LockRun.next (fun s a => s.Steady a ∧ ¬ a.Releases 1 (.row [97] [107])) s s' ∧
    s'.Keeps 1 (.row [97] [107]) .s := by
  obtain ⟨s, s', reached, later, returned, get⟩ := Reach.exists_of_segments LockRun.next Steady
    (fun s a => s.Steady a ∧ ¬ a.Releases 1 (.row [97] [107])) {}
    [.acquire 0 1 (.row [97] [107]) .s, .enter 0]
    [.acquire 0 1 (.row [97] [107]) .x, .enter 0, .acquire 1 2 (.row [97] [107]) .s, .enter 1, .giveUp 1]
    (fun s _ => s.calls.keys = [] ∧ (s.held 1).get (.row [97] [107]) = some .s) (by decide)
  exact ⟨s, s', reached, later, keeps_of_steady reached get (not_beingReleased_of_returned returned) later⟩

/-- Two transactions share the lock; the first asks for more and waits, and its shared lock is gone. -/
theorem not_keeps : ¬ ∀ (s s' : LockRun) (t : Nat) (r : ResourceID) (m : Mode),
    Reach LockRun.next AnyStep {} s → (s.held t).get r = some m → ¬ s.BeingReleased t r →
    Reach LockRun.next (fun _ a => ¬ a.Releases t r) s s' → s'.Keeps t r m := by
  intro claim
  obtain ⟨s, s', reached, later, returned, get, lost⟩ := Reach.exists_of_segments LockRun.next AnyStep
    (fun _ a => ¬ a.Releases 1 (.row [97] [107])) {}
    [.acquire 0 1 (.row [97] [107]) .s, .enter 0]
    [.acquire 1 2 (.row [97] [107]) .s, .enter 1, .acquire 0 1 (.row [97] [107]) .x, .enter 0]
    (fun s s' => s.calls.keys = [] ∧ (s.held 1).get (.row [97] [107]) = some .s ∧
      (s'.held 1).get (.row [97] [107]) = none) (by decide)
  obtain ⟨m', kept, -⟩ := claim s s' 1 _ _ reached get (not_beingReleased_of_returned returned) later
  rw [lost] at kept
  cases kept

end TransactionManager.Lock
