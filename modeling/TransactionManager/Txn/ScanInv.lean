import TransactionManager.Txn.Scan

/-!
# The locks of a run with scans

The invariant of the runs whose lock steps are orderly. The place of a transaction's call fits
its lock call, and a call holds every lock that it has asked for so far, in the mode it asked for or a
stronger one.
-/

namespace TransactionManager.Txn
open Lib TransactionManager.Types Lock List GoMap Manager ScanRun ScanCall LockInv

namespace ScanCall

def granted : ScanCall → List LockRequest
  | .locking done _ _ | .acquiring done _ _ _ _ => done
  | _ => []

/-- The lock requests since the last listing of keys, made and still to make. -/
def requests : ScanCall → List LockRequest
  | .locking done todo _ => done ++ todo
  | .acquiring done r mode todo _ => done ++ (r, mode) :: todo
  | _ => []

def task : ScanCall → Option ScanTask
  | .locking _ _ task | .acquiring _ _ _ _ task => some task
  | _ => none

def Running : ScanCall → Prop
  | .locking .. | .acquiring .. | .rollback .. => True
  | .undo .. | .release _ | .releasing _ => False

def Unlocked : ScanCall → Prop
  | .acquiring .. => False
  | _ => True

end ScanCall

inductive Fits (t : Nat) : Option ScanCall → Option Call → Prop where
  | quiet {place : Option ScanCall} (unlocked : ∀ x ∈ place, x.Unlocked) : Fits t place none
  | acquire {done todo : List LockRequest} {r : ResourceID} {mode : Mode} {task : ScanTask} {addr : Nat} :
      Fits t (some (.acquiring done r mode todo task)) (some (.acquire t r mode addr))
  | waiting {done todo : List LockRequest} {r : ResourceID} {mode : Mode} {task : ScanTask} {addr ch : Nat} :
      Fits t (some (.acquiring done r mode todo task)) (some (.waiting t r mode addr ch))
  | releasing {prev : Option Nat} {call : Call} (own : call.txn = t) (releases : call.TakesAway) :
      Fits t (some (.releasing prev)) (some call)

/-- Requests for one resource ask for one mode. -/
def Uniform (l : List LockRequest) : Prop := ∀ q ∈ l, ∀ q' ∈ l, q.1 = q'.1 → q.2 = q'.2

/-- The lock requests that a call makes for its work: none for a read at read-uncommitted, and only a serializable
scan goes on from `LockForRangeScan`. -/
def ScanTask.Asks (isolation : IsolationLevel) (l : List LockRequest) : ScanTask → Prop
  | .read row =>
    isolation ≠ .readUncommitted → l = [(.table row.1, .is), (.row row.1 row.2, .s)]
  | .write row _ _ => l = [(.table row.1, .ix), (.row row.1 row.2, .x)]
  | .scan table _ => isolation = .repeatableRead → l = [(.table table, .s)]
  | .listRange _ _ _ filter => filter ≠ none → isolation = .serializable
  | .ranged table lo hi filter => (filter ≠ none → isolation = .serializable) ∧
      ∃ keys, l = lockForRangeScan table lo hi keys
  | .insertable row => ∃ keys, l = lockForInsert row keys
  | .listInsert _ => True

/-- The held set has the resource in the mode or a stronger one. -/
def Covers (h : HeldSet) (q : LockRequest) : Prop := ∃ m, h.get q.1 = some m ∧ lockStrength q.2 ≤ lockStrength m

instance (h : HeldSet) (q : LockRequest) : Decidable (Covers h q) :=
  inferInstanceAs (Decidable (∃ m ∈ h.get q.1, lockStrength q.2 ≤ lockStrength m))

namespace ScanRun

def lockStep (s : ScanRun) : ScanAction → Option LockAction
  | .lock t move => (s.calls.get t).bind (·.lockAction t move)
  | _ => none

def Orderly (s : ScanRun) (a : ScanAction) : Prop := ∀ l ∈ s.lockStep a, s.locks.Orderly l

instance (s : ScanRun) (a : ScanAction) : Decidable (s.Orderly a) :=
  inferInstanceAs (Decidable (∀ l ∈ s.lockStep a, s.locks.Orderly l))

def Steady (s : ScanRun) (a : ScanAction) : Prop := ∀ l ∈ s.lockStep a, s.locks.Steady l

instance (s : ScanRun) (a : ScanAction) : Decidable (s.Steady a) :=
  inferInstanceAs (Decidable (∀ l ∈ s.lockStep a, s.locks.Steady l))

theorem Steady.orderly {s : ScanRun} {a : ScanAction} (steady : s.Steady a) : s.Orderly a :=
  fun l mem => (steady l mem).1

end ScanRun

structure ScanInv (s : ScanRun) : Prop where
  locks : LockInv s.locks
  fits : ∀ t, Fits t (s.calls.get t) (s.locks.calls.get t)
  ids : ∀ t txn, s.mgr.txns.get t = some txn → txn.id = t ∧ t ≤ s.mgr.nextID
  calls : ∀ t call, s.calls.get t = some call → t ≤ s.mgr.nextID ∧ (s.mgr.Active t ↔ call.Running)
  fresh : ∀ t, s.mgr.nextID < t → ∀ r, (s.locks.held t).get r = none
  uniform : ∀ t call, s.calls.get t = some call → Uniform call.requests
  covered : ∀ t call, s.calls.get t = some call → ∀ q ∈ call.granted, Covers (s.locks.held t) q
  asks : ∀ t txn call task, s.mgr.txns.get t = some txn → s.calls.get t = some call →
    call.task = some task → task.Asks txn.isolation call.requests

theorem Uniform.of_forall {l : List LockRequest} {m : Mode} (all : ∀ q ∈ l, q.2 = m) : Uniform l :=
  fun q mem q' mem' _ => (all q mem).trans (all q' mem').symm

theorem mode_rangeLocks (table lo hi : GoString) (prev : GoString) (keys : List GoString) :
    ∀ q ∈ (rangeLocks table lo hi prev keys).1, q.2 = .s := by
  induction keys generalizing prev with
  | nil => simp [rangeLocks]
  | cons k ks ih =>
    unfold rangeLocks
    split
    · simp only [forall_mem_cons]
      exact ⟨trivial, trivial, ih k⟩
    · exact ih _

theorem mode_lockForRangeScan (table lo hi : GoString) (keys : List GoString) :
    ∀ q ∈ lockForRangeScan table lo hi keys, q.2 = .s := by
  intro q mem
  unfold lockForRangeScan at mem
  simp only [mem_append, mem_singleton] at mem
  rcases mem with mem | rfl
  · exact mode_rangeLocks table lo hi [] keys q mem
  · rfl

theorem mode_lockForInsert (row : RowRef) (keys : List GoString) : ∀ q ∈ lockForInsert row keys, q.2 = .x := by
  simp [lockForInsert]

/-- A call starts with no lock, and asks for one mode of each resource. -/
theorem TableOp.entry_spec (o : TableOp) (isolation : IsolationLevel) :
    ∃ todo task, o.entry isolation = .locking [] todo task ∧ Uniform todo ∧
      task.Asks isolation todo := by
  cases o with
  | read row =>
    by_cases level : isolation = .readUncommitted
    · exact ⟨_, _, if_pos level, by simp [Uniform], absurd level⟩
    · exact ⟨_, _, if_neg level, by simp [Uniform], fun _ => rfl⟩
  | scan =>
    cases isolation <;> exact ⟨_, _, rfl, by simp [Uniform], by simp [ScanTask.Asks]⟩
  | write | lockForRangeScan | lockForInsert =>
    exact ⟨_, _, rfl, by simp [Uniform], by simp [ScanTask.Asks]⟩

namespace Fits
variable {t : Nat} {place : Option ScanCall} {x : Call}

section
variable {call : Option Call} (fits : Fits t place call)
include fits

theorem own : ∀ x ∈ call, x.txn = t := by
  cases fits with
  | quiet => exact nofun
  | acquire | waiting =>
    rintro x ⟨⟩
    rfl
  | releasing own =>
    rintro x ⟨⟩
    exact own

theorem free (unlocked : ∀ x ∈ place, x.Unlocked) (before : ∀ prev, place ≠ some (.releasing prev)) :
    call = none := by
  cases fits with
  | quiet => rfl
  | acquire | waiting => exact (unlocked _ rfl).elim
  | releasing => exact absurd rfl (before _)

theorem not_releasing (before : ∀ prev, place ≠ some (.releasing prev)) : ∀ x ∈ call, x.releasing = [] := by
  cases fits with
  | quiet => exact nofun
  | acquire | waiting =>
    rintro x ⟨⟩
    rfl
  | releasing => exact absurd rfl (before _)

end

theorem locked {l l' : LockRun} {call : ScanCall} {move : LockMove} {a : LockAction}
    (fits : Fits t (some call) (l.calls.get t)) (asks : call.lockAction t move = some a)
    (step : LockStep l a l') : Fits t (call.moved (l'.calls.get t).isNone move) (l'.calls.get t) := by
  unfold lockAction at asks
  split at asks <;> cases asks
  · cases step
    rw [get_goto_getOrCreate, if_pos rfl]
    exact .acquire
  · cases step with
    | held found get enough | entered found dropped can =>
      rw [get_after, if_pos rfl]
      exact .quiet (by simp [moved, Unlocked])
    | queued found =>
      rw [get_after, if_pos rfl]
      rw [found] at fits
      cases fits
      exact .waiting
  · cases step
    rw [get_after, if_pos rfl]
    exact .quiet (by simp [moved, Unlocked])
  · cases step
    rw [get_after, if_pos rfl]
    exact .quiet (by simp [moved])
  · cases step
    rw [LockRun.get_goto, if_pos rfl]
    exact .releasing rfl trivial
  · cases step with
    | returned =>
      rw [LockRun.get_goto, if_pos rfl]
      exact .quiet (by simp [moved, Unlocked])
    | nextResource found | skipped found =>
      have own := fits.own _ found
      rw [LockRun.get_goto, if_pos rfl]
      exact .releasing own trivial
  · cases step with
    | released found next =>
      have own := fits.own _ found
      rw [get_after, if_pos rfl]
      rcases next with rfl | rfl <;> exact .releasing own trivial
  · cases step with
    | reaped found =>
      have own := fits.own _ found
      rw [LockRun.get_goto, if_pos rfl]
      exact .releasing own trivial
  · cases step with
    | @forgot c u r rest found =>
      have own := fits.own _ found
      rw [LockRun.get_goto, if_pos rfl]
      cases rest with
      | none => exact .quiet (by simp [moved, Unlocked])
      | some rest => exact .releasing own trivial

end Fits

section
variable {t : Nat} {call : ScanCall} {move : LockMove} {a : LockAction} (asks : call.lockAction t move = some a)
include asks

/-- What a lock step does to the place of the call. -/
theorem ScanCall.lockAction_moved {call' : ScanCall} {returned : Bool} (moved : call.moved returned move = some call') :
    call'.requests = call.requests ∧ call'.task = call.task ∧ (call'.Running ↔ call.Running) ∧
      (call'.granted = call.granted ∨ ∃ done r mode todo task,
        call = .acquiring done r mode todo task ∧ call'.granted = done ++ [(r, mode)] ∧
          returned = true ∧ (move = .enter ∧ a = .enter t ∨ move = .granted ∧ a = .granted t)) := by
  unfold lockAction at asks
  split at asks <;> cases asks
  · cases moved
    exact ⟨rfl, rfl, Iff.rfl, .inl rfl⟩
  · cases returned <;> cases moved
    · exact ⟨rfl, rfl, Iff.rfl, .inl rfl⟩
    · exact ⟨by simp [requests], rfl, Iff.rfl, .inr ⟨_, _, _, _, _, rfl, rfl, rfl, .inl ⟨rfl, rfl⟩⟩⟩
  · cases returned <;> cases moved
    · exact ⟨rfl, rfl, Iff.rfl, .inl rfl⟩
    · exact ⟨by simp [requests], rfl, Iff.rfl, .inr ⟨_, _, _, _, _, rfl, rfl, rfl, .inr ⟨rfl, rfl⟩⟩⟩
  · cases moved
  all_goals
    cases moved
    exact ⟨rfl, rfl, Iff.rfl, .inl rfl⟩

theorem ScanCall.lockAction_call : a.call = t := by
  unfold lockAction at asks
  split at asks <;> cases asks <;> rfl

end

/-- A step of one transaction leaves the records of the others alone. -/
structure MgrStep (t : Nat) (m m' : Manager) : Prop where
  nextID : m'.nextID = m.nextID
  ids : ∀ u txn', m'.txns.get u = some txn' → ∃ txn, m.txns.get u = some txn ∧
    txn'.id = txn.id ∧ txn'.isolation = txn.isolation
  others : ∀ u, u ≠ t → m'.txns.get u = m.txns.get u

section
variable {t : Nat} {m m' : Manager} {txn txn' : Transaction}

section
variable (nextID : m'.nextID = m.nextID)
include nextID

theorem MgrStep.of_get {x : Option Transaction} (get : ∀ u, m'.txns.get u = if u = t then x else m.txns.get u)
    (own : ∀ txn' ∈ x, ∃ txn, m.txns.get t = some txn ∧ txn'.id = txn.id ∧ txn'.isolation = txn.isolation) :
    MgrStep t m m' := by
  refine ⟨nextID, fun u txn' now => ?_, fun u other => by rw [get, if_neg other]⟩
  rw [get] at now
  split at now
  · rename_i same
    exact same ▸ own txn' now
  · exact ⟨txn', now, rfl, rfl⟩

theorem MgrStep.same (txns : m'.txns = m.txns) : MgrStep t m m' :=
  .of_get nextID (fun u => txns ▸ get_of_eq rfl u) fun txn found => ⟨txn, found, rfl, rfl⟩

theorem MgrStep.put (active : m.txns.get t = some txn) (txns : m'.txns = m.txns.set t txn')
    (id : txn'.id = txn.id ∧ txn'.isolation = txn.isolation) : MgrStep t m m' := by
  refine .of_get nextID (fun u => txns ▸ get_set ..) ?_
  rintro _ ⟨⟩
  exact ⟨txn, active, id⟩

theorem MgrStep.out (txns : m'.txns = m.txns.delete t) : MgrStep t m m' :=
  .of_get nextID (fun u => txns ▸ get_delete ..) (by rintro _ ⟨⟩)

end

end

namespace ScanInv
variable {s s' : ScanRun} {t : Nat} {y : Option ScanCall} {a : LockAction} {l : LockRun} {call : ScanCall}

section
variable (inv : ScanInv s)
include inv

section
variable (locks : s'.locks = s.locks) (calls : ∀ u, s'.calls.get u = if u = t then y else s.calls.get u)
    (mgr : MgrStep t s.mgr s'.mgr) (bound : t ≤ s.mgr.nextID) (free : s.locks.calls.get t = none)
include locks calls mgr bound free

theorem moved (place : ∀ x ∈ y, x.Unlocked ∧ x.granted = [] ∧ Uniform x.requests ∧ (s'.mgr.Active t ↔ x.Running))
    (asks : ∀ x ∈ y, ∀ txn task, s.mgr.txns.get t = some txn → x.task = some task → task.Asks txn.isolation
      x.requests) : ScanInv s' where
  locks := locks ▸ inv.locks
  fits u := by
    rw [calls, locks]
    split
    · rename_i own
      rw [own, free]
      exact .quiet fun x mem => (place x mem).1
    · exact inv.fits u
  ids u txn' found := by
    obtain ⟨txn, old, id, -⟩ := mgr.ids u txn' found
    rw [mgr.nextID, id]
    exact inv.ids u txn old
  calls u call found := by
    rw [mgr.nextID]
    rw [calls] at found
    split at found
    · rename_i own
      subst own
      exact ⟨bound, (place call found).2.2.2⟩
    · rename_i other
      unfold Active
      rw [mgr.others u other]
      exact inv.calls u call found
  fresh u above := by
    rw [mgr.nextID] at above
    rw [locks]
    exact inv.fresh u above
  uniform u call found := by
    rw [calls] at found
    split at found
    · exact (place call found).2.2.1
    · exact inv.uniform u call found
  covered u call found q mem := by
    rw [locks]
    rw [calls] at found
    split at found
    · rw [(place call found).2.1] at mem
      cases mem
    · exact inv.covered u call found q mem
  asks u txn' call task active found work := by
    obtain ⟨txn, old, -, isolation⟩ := mgr.ids u txn' active
    rw [isolation]
    rw [calls] at found
    split at found
    · rename_i own
      subst own
      exact asks call found txn task old work
    · exact inv.asks u txn call task old found work

theorem staged (place : ∀ x ∈ y, x.task = none ∧ (s'.mgr.Active t ↔ x.Running)) : ScanInv s' := by
  refine inv.moved locks calls mgr bound free (fun x mem => ?_) fun x mem txn task _ work => ?_
  · obtain ⟨none, running⟩ := place x mem
    cases x with
    | locking | acquiring => cases none
    | _ =>
      exact ⟨trivial, rfl, by simp [Uniform, requests], running⟩
  · rw [(place x mem).1] at work
    cases work

end

/-- While a transaction has not come to its release, nothing releases a lock of it. -/
theorem not_beingReleased (before : ∀ prev, s.calls.get t ≠ some (.releasing prev))
    (r : ResourceID) : ¬ s.locks.BeingReleased t r := by
  rintro ⟨c, call, found, own, mem⟩
  have number := (inv.fits c).own call found
  rw [own] at number
  subst number
  rw [(inv.fits t).not_releasing before call found] at mem
  cases mem

/-- The upgrade of a lock is a step of the transaction itself, for the request it is at. -/
theorem upgraded {r : ResourceID} {m : Mode}
    (up : Upgraded s.locks t r m a l) : ∃ done mode todo task addr, a = .enter t ∧
      s.calls.get t = some (.acquiring done r mode todo task) ∧
      s.locks.calls.get t = some (.acquire t r mode addr) ∧ lockStrength m < lockStrength mode ∧
      ((l.held t).get r = some mode ∨ (l.held t).get r = none ∧ (s.locks.heap addr).canGrant mode t = false) := by
  obtain ⟨c, mode, addr, rfl, found, less, result⟩ := up
  have own : t = c := (inv.fits c).own _ found
  subst own
  have fits := inv.fits t
  rw [found] at fits
  generalize place : s.calls.get t = call at fits
  cases fits with
  | acquire => exact ⟨_, mode, _, _, addr, rfl, rfl, found, less, result⟩
  | releasing own releases => exact releases.elim

section
variable {move : LockMove} (here : s.calls.get t = some call) (asks : call.lockAction t move = some a)
include here asks

/-- A request that a lock step answers is held, in its own mode or in the one found there. -/
theorem granted_locked {call' : ScanCall} (taken : s.locks.next a = some l)
    (moved : call.moved (l.calls.get t).isNone move = some call') {q : LockRequest} (mem : q ∈ call'.granted) : q ∈ call.granted ∨
      (∃ done todo task, call = .acquiring done q.1 q.2 todo task) ∧
      ∃ m, (l.held t).get q.1 = some m ∧ lockStrength q.2 ≤ lockStrength m ∧
        (m = q.2 ∨ move = .enter ∧ (s.locks.held t).get q.1 = some m ∧
          ∃ addr, s.locks.calls.get t = some (.acquire t q.1 q.2 addr)) := by
  have step := LockRun.next_step taken
  rcases (lockAction_moved asks moved).2.2.2 with
    same | ⟨done, r, mode, todo, task, rfl, eq, returned, way⟩
  · rw [same] at mem
    exact .inl mem
  rw [eq, mem_append, mem_singleton] at mem
  rcases mem with old | rfl
  · exact .inl old
  refine .inr ⟨⟨done, todo, task, rfl⟩, ?_⟩
  have fits := inv.fits t
  rw [here] at fits
  generalize now : s.locks.calls.get t = lockCall at fits
  have none := Option.isNone_iff_eq_none.1 returned
  have steps : a = .enter t ∨ a = .granted t := by
    rcases way with ⟨-, eq⟩ | ⟨-, eq⟩
    · exact .inl eq
    · exact .inr eq
  cases fits with
  | quiet unlocked => exact (unlocked _ rfl).elim
  | acquire =>
    obtain ⟨m, get, strong, mode' | ⟨enters, old⟩⟩ := step.held_of_returned (.inl now) steps none
    · exact ⟨m, get, strong, .inl mode'⟩
    · refine ⟨m, get, strong, .inr ⟨?_, old, _, rfl⟩⟩
      rcases way with ⟨eq, -⟩ | ⟨-, rfl⟩
      · exact eq
      · cases enters
  | waiting =>
    obtain ⟨m, get, strong, mode' | ⟨enters, -⟩⟩ := step.held_of_returned (.inr ⟨_, now⟩) steps none
    · exact ⟨m, get, strong, .inl mode'⟩
    subst enters
    cases step with
    | held found | entered found =>
      rw [now] at found
      cases found
    | queued found =>
      rw [now] at found
      cases found

theorem locked (orderly : s.locks.Orderly a) (taken : s.locks.next a = some l) :
    ScanInv ((s.setLocks l).goto t (call.moved (l.calls.get t).isNone move)) := by
  have step := LockRun.next_step taken
  have number := lockAction_call asks
  have place := @ScanRun.get_goto (s.setLocks l) t (call.moved (l.calls.get t).isNone move)
  have held (u : Nat) (other : u ≠ t) : l.held u = s.locks.held u := by
    apply step.held_other
    intro x mem own
    rw [number] at mem
    exact other (own ▸ (inv.fits t).own x mem)
  obtain ⟨bound, running⟩ := inv.calls t call here
  refine ⟨inv.locks.step orderly taken, fun u => ?_, inv.ids, fun u x found => ?_, fun u above => ?_,
    fun u x found => ?_, fun u x found q mem => ?_, fun u txn x task active found work => ?_⟩
  · rw [place]
    show Fits u _ (l.calls.get u)
    split
    · rename_i own
      rw [own]
      exact (here ▸ inv.fits t).locked asks step
    · rename_i other
      rw [step.get_other (number.symm ▸ other)]
      exact inv.fits u
  · rw [place] at found
    split at found
    · rename_i own
      subst own
      exact ⟨bound, running.trans (lockAction_moved asks found).2.2.1.symm⟩
    · exact inv.calls u x found
  · show ∀ r, (l.held u).get r = none
    rw [held u (fun own => by subst own; exact absurd bound (Nat.not_le.2 above))]
    exact inv.fresh u above
  · rw [place] at found
    split at found
    · rw [(lockAction_moved asks found).1]
      exact inv.uniform t call here
    · exact inv.uniform u x found
  · show Covers (l.held u) q
    rw [place] at found
    split at found
    · rename_i own
      subst own
      -- what was held stays held: an upgrade of it would be a second request for the resource
      have kept (old : q ∈ call.granted) : Covers (l.held u) q := by
        obtain ⟨m, get, strong⟩ := inv.covered u call here q old
        have before (prev : Option Nat) : s.calls.get u ≠ some (.releasing prev) := by
          rw [here]
          rintro ⟨⟩
          cases old
        rcases step.held_of_get inv.locks get (inv.not_beingReleased before q.1) with same | up
        · exact ⟨m, same, strong⟩
        obtain ⟨done, mode, todo, task, -, -, now, -, less, -⟩ := inv.upgraded up
        rw [here] at now
        cases now
        have mode' := inv.uniform u _ here q (mem_append_left _ old) (q.1, mode) (by simp [requests]) rfl
        rw [mode'] at strong
        exact absurd strong (Nat.not_le.2 less)
      rcases inv.granted_locked here asks taken found mem with old | ⟨-, m, get, strong, -⟩
      · exact kept old
      · exact ⟨m, get, strong⟩
    · rename_i other
      rw [held u other]
      exact inv.covered u x found q mem
  · rw [place] at found
    split at found
    · rename_i own
      subst own
      obtain ⟨requests, same, -⟩ := lockAction_moved asks found
      rw [requests]
      exact inv.asks u txn call task active here (same.symm.trans work)
    · exact inv.asks u txn x task active found work

end

theorem begun {isoLevel : IsolationLevel} {m : Manager} (begun : s.mgr.Begun isoLevel m) : ScanInv (s.setMgr m) := by
  obtain ⟨last, txns⟩ := begun.txns
  have get (u : Nat) := (congrArg (GoMap.get · u) txns).trans (get_set ..)
  refine ⟨inv.locks, inv.fits, fun u txn found => ?_, fun u call found => ?_, fun u above => ?_,
    inv.uniform, inv.covered, fun u txn call task found here work => ?_⟩
  · show txn.id = u ∧ u ≤ m.nextID
    rw [begun.nextID]
    have now := (get u).symm.trans found
    split at now
    · rename_i own
      cases now
      exact ⟨own.symm, by omega⟩
    · obtain ⟨id, bound⟩ := inv.ids u txn now
      exact ⟨id, by omega⟩
  · show u ≤ m.nextID ∧ (m.Active u ↔ call.Running)
    obtain ⟨bound, running⟩ := inv.calls u call found
    refine ⟨by rw [begun.nextID]; omega, ?_⟩
    unfold Active
    rw [get u, if_neg (by omega)]
    exact running
  · apply inv.fresh u
    have above : m.nextID < u := above
    rw [begun.nextID] at above
    omega
  · have now := (get u).symm.trans found
    split at now
    · rename_i own
      exact absurd (inv.calls u call here).1 (by omega)
    · exact inv.asks u txn call task now here work

theorem goes {txn : Transaction} (active : s.mgr.txns.get t = some txn)
    (free : s.locks.calls.get t = none) (locks : s'.locks = s.locks)
    (calls : ∀ u, s'.calls.get u = if u = t then y else s.calls.get u) (mgr : MgrStep t s.mgr s'.mgr)
    (still : s'.mgr.Active t) (place : ∀ x ∈ y, x.Unlocked ∧ x.granted = [] ∧ Uniform x.requests ∧ x.Running ∧
      ∀ task, x.task = some task → task.Asks txn.isolation x.requests) : ScanInv s' := by
  refine inv.moved locks calls mgr (inv.ids t txn active).2 free (fun x mem => ?_) fun x mem txn' task now work => ?_
  · obtain ⟨unlocked, granted, uniform, running, -⟩ := place x mem
    exact ⟨unlocked, granted, uniform, iff_of_true still running⟩
  · rw [active] at now
    cases now
    exact (place x mem).2.2.2.2 task work

theorem put {txn txn' : Transaction} (active : s.mgr.txns.get t = some txn) (free : s.locks.calls.get t = none)
    (locks : s'.locks = s.locks) (calls : ∀ u, s'.calls.get u = if u = t then none else s.calls.get u)
    (nextID : s'.mgr.nextID = s.mgr.nextID) (txns : s'.mgr.txns = s.mgr.txns.set txn.id txn')
    (id : txn'.id = txn.id ∧ txn'.isolation = txn.isolation) : ScanInv s' := by
  rw [(inv.ids t txn active).1] at txns
  refine inv.goes active free locks calls (.put nextID active txns id) ?_ nofun
  unfold Active
  rw [txns]
  exact (active_set (active_of_get active) _ t).2 (active_of_get active)

theorem free_of_idle (idle : s.calls.get t = none) : s.locks.calls.get t = none := by
  have fits := inv.fits t
  rw [idle] at fits
  exact fits.free (by simp) (by simp)

theorem free_of_here (here : s.calls.get t = some call)
    (unlocked : call.Unlocked) (before : ∀ prev, call ≠ .releasing prev) : s.locks.calls.get t = none := by
  have fits := inv.fits t
  rw [here] at fits
  refine fits.free ?_ fun prev eq => before prev (Option.some.inj eq)
  rintro x ⟨⟩
  exact unlocked

/-- Every orderly step keeps the invariant. -/
theorem step {a : ScanAction} (orderly : s.Orderly a) (step : ScanStep s a s') : ScanInv s' := by
  have quiet {y : Option ScanCall} {isolation : IsolationLevel} (place : y = none) :
      ∀ x ∈ y, x.Unlocked ∧ x.granted = [] ∧ Uniform x.requests ∧ x.Running ∧
        ∀ task, x.task = some task → task.Asks isolation x.requests := by
    subst place
    exact nofun
  have at' {t : Nat} {done : List LockRequest} {task : ScanTask}
      (here : s.calls.get t = some (.locking done [] task)) : s.locks.calls.get t = none :=
    inv.free_of_here here trivial (by simp)
  cases step with
  | refused => exact inv
  | begun begun => exact inv.begun begun
  | @called t txn o active idle =>
    refine inv.goes active (inv.free_of_idle idle) rfl get_goto (.same rfl rfl) (active_of_get active) ?_
    obtain ⟨todo, task, eq, uniform, asked⟩ := o.entry_spec txn.isolation
    rw [eq]
    rintro x ⟨⟩
    refine ⟨trivial, rfl, uniform, trivial, ?_⟩
    rintro task' ⟨⟩
    exact asked
  | locked here asks taken =>
    refine inv.locked here asks (orderly _ ?_) taken
    show Option.bind _ _ = _
    rw [here]
    exact asks
  | read active here | scanned active here | insertable active here | failed active here =>
    exact inv.goes active (at' here) rfl get_goto (.same rfl rfl) (active_of_get active) (quiet rfl)
  | @wrote _ _ _ _ _ active here written =>
    obtain ⟨last, lsn, txns⟩ := written.txns
    exact inv.put active (at' here) rfl get_goto written.nextID txns ⟨rfl, rfl⟩
  | @listed t txn done table lo hi filter tbl active here found =>
    refine inv.goes active (at' here) rfl get_goto (.same rfl rfl) (active_of_get active) ?_
    rintro x ⟨⟩
    refine ⟨trivial, rfl, .of_forall fun q => mode_lockForRangeScan _ _ _ _ q, trivial, ?_⟩
    rintro task ⟨⟩
    exact ⟨inv.asks t txn _ _ active here rfl, _, rfl⟩
  | @ranged t txn done table lo hi filter active here =>
    refine inv.goes active (at' here) rfl get_goto (.same rfl rfl) (active_of_get active) ?_
    cases filter with
    | none => exact quiet rfl
    | some filter =>
      rintro x ⟨⟩
      refine ⟨trivial, rfl, by simp [Uniform, requests], trivial, ?_⟩
      rintro task ⟨⟩ level
      rw [(inv.asks t txn _ _ active here rfl).1 (by simp)] at level
      cases level
  | listedInsert active here =>
    refine inv.goes active (at' here) rfl get_goto (.same rfl rfl) (active_of_get active) ?_
    rintro x ⟨⟩
    refine ⟨trivial, rfl, .of_forall fun q => mode_lockForInsert _ _ q, trivial, ?_⟩
    rintro task ⟨⟩
    exact ⟨_, rfl⟩
  | @savepoint _ _ _ active idle =>
    exact inv.put active (inv.free_of_idle idle) rfl (get_of_eq idle) rfl rfl ⟨rfl, rfl⟩
  | @rollback t txn sp name active idle found =>
    refine inv.staged rfl get_goto (.same rfl rfl) (inv.ids t txn active).2 (inv.free_of_idle idle) ?_
    rintro x ⟨⟩
    exact ⟨rfl, iff_of_true (active_of_get active) trivial⟩
  | rolledBack active here =>
    exact inv.put active (inv.free_of_here here trivial (by simp)) rfl get_goto rfl rfl ⟨rfl, rfl⟩
  | @undid t e more lastCLR _ here | @undidAborted t _ e more lastCLR here =>
    have books := (s.mgr.undoEntry_spec t e more lastCLR).1
    refine inv.staged rfl get_goto (.same books.nextID books.txns)
      (inv.calls t _ here).1 (inv.free_of_here here trivial (by simp)) ?_
    rintro x ⟨⟩
    exact ⟨rfl, (books.active t).trans (inv.calls t _ here).2⟩
  | @undone t txn lastCLR prev here =>
    refine inv.staged rfl get_goto (.same rfl rfl) (inv.calls t _ here).1 (inv.free_of_here here trivial (by simp)) ?_
    rintro x ⟨⟩
    exact ⟨rfl, (inv.calls t _ here).2⟩
  | @commit t txn m active idle logged =>
    have txns : (m.markCommitted t).txns = s.mgr.txns.delete t := congrArg (GoMap.delete · t) logged.txns
    refine inv.staged rfl get_goto (.out logged.nextID txns) (inv.ids t txn active).2 (inv.free_of_idle idle) ?_
    rintro x ⟨⟩
    refine ⟨rfl, ?_⟩
    show ((m.markCommitted t).txns.get t).isSome = true ↔ False
    rw [txns, active_delete]
    simp
  | @abort t txn active idle =>
    refine inv.staged rfl get_goto (.out rfl rfl) (inv.ids t txn active).2 (inv.free_of_idle idle) ?_
    rintro x ⟨⟩
    refine ⟨rfl, ?_⟩
    show ((s.mgr.txns.delete t).get t).isSome = true ↔ False
    rw [active_delete]
    simp
  | @finish t _ _ here returned logged =>
    exact inv.staged rfl get_goto (.same logged.nextID logged.txns)
      (inv.calls t _ here).1 returned nofun

end

theorem start (seed : Storage.Catalog) (maxActive : Nat) (wal : Option Wal.Log) :
    ScanInv (start seed maxActive wal) where
  locks := empty
  fits t := .quiet nofun
  ids t txn found := by cases found
  calls t call found := by cases found
  fresh t above r := rfl
  uniform t call found := by cases found
  covered t call found := by cases found
  asks t txn call task found := by cases found

end ScanInv

end TransactionManager.Txn
