import TransactionManager.Lib.GoMap
import TransactionManager.Lib.Prefix
import TransactionManager.Types.Value
import Mathlib.Data.Fintype.Basic

/-!
# Lock modes, lock names and lock queues

`internal/lock/mode.go`, `resource.go`, `request.go`, `queue.go`, and the critical
sections of `grant.go`: what `AcquireLockCtx`, `ReleaseLock` and `ReleaseAllLocks` do
while they hold a queue's mutex. A request carries the number of its `GrantedCh`; closing
the channel is adding that number to a set of closed channels. Request times are left
out: nothing reads them.
-/

namespace TransactionManager.Lock
open Lib TransactionManager.Types List

/-- `Mode`. `u` is reserved and requested by no caller. -/
inductive Mode where
  | nl | is | ix | s | six | x | u
  deriving DecidableEq

instance : Fintype Mode := ⟨{.nl, .is, .ix, .s, .six, .x, .u}, fun m => by cases m <;> decide⟩

def lockCompatible : Mode → Mode → Bool
  | .nl, _ => true
  | .is, .x => false
  | .is, _ => true
  | .ix, .nl | .ix, .is | .ix, .ix => true
  | .ix, _ => false
  | .s, .nl | .s, .is | .s, .s | .s, .u => true
  | .s, _ => false
  | .six, .nl | .six, .is => true
  | .six, _ => false
  | .x, .nl => true
  | .x, _ => false
  | .u, .nl | .u, .is | .u, .s => true
  | .u, _ => false

def lockStrength : Mode → Nat
  | .nl => 0
  | .is => 1
  | .ix => 2
  | .s => 3
  | .six => 4
  | .x => 6
  | .u => 5

def dominantMode (a b : Mode) : Mode := if lockStrength b ≤ lockStrength a then a else b

theorem lockCompatible_comm (a b : Mode) : lockCompatible a b = lockCompatible b a := by
  revert a b
  decide

/-- Of two compatible modes the stronger one speaks for both: what is compatible with it is so with the weaker one. -/
theorem compatible_of_dominant {a b m : Mode} (ab : lockCompatible a b = true)
    (h : lockCompatible m (dominantMode a b) = true) :
    lockCompatible m a = true ∧ lockCompatible m b = true := by
  revert a b m
  decide

inductive ResourceID where
  | table (table : GoString)
  | row (table key : GoString)
  | gap (table lo hi : GoString)
  deriving DecidableEq

/-- `ResourceID.String()`: `table:%s`, `row:%s:%s` and `gap:%s:(%s,%s]`, the key of the
lock table. -/
def ResourceID.name : ResourceID → GoString
  | .table t => [116, 97, 98, 108, 101, 58] ++ t
  | .row t k => [114, 111, 119, 58] ++ t ++ [58] ++ k
  | .gap t lo hi => [103, 97, 112, 58] ++ t ++ [58, 40] ++ lo ++ [44] ++ hi ++ [93]

/-- Two resources of one kind whose names put a separator at different places of one text. -/
def ResourceID.Confused : ResourceID → ResourceID → Prop
  | .row t k, .row t' k' => Straddles [58] t k t' k'
  | .gap t lo hi, .gap t' lo' hi' =>
    t = t' ∧ Straddles [44] lo hi lo' hi' ∨ Straddles [58, 40] t (lo ++ [44] ++ hi) t' (lo' ++ [44] ++ hi')
  | _, _ => False

/-- Two resources have one `String()` iff they are one resource or a separator in their texts splits one as
the other. -/
theorem name_eq_iff (r r' : ResourceID) : r.name = r'.name ↔ r = r' ∨ r.Confused r' ∨ r'.Confused r := by
  cases r <;> cases r'
  case row.row t k t' k' =>
    have split := append_sep_eq_iff (c := 58) (d := []) (by simp) t k t' k'
    simpa [ResourceID.name, ResourceID.Confused] using split
  case gap.gap t lo hi t' lo' hi' =>
    have outer := append_sep_eq_iff (c := 58) (d := [40]) (by decide) t (lo ++ [44] ++ hi) t' (lo' ++ [44] ++ hi')
    have inner := append_sep_eq_iff (c := 44) (d := []) (by simp) lo hi lo' hi'
    rw [inner] at outer
    have name (t lo hi : GoString) : (ResourceID.gap t lo hi).name =
        [103, 97, 112, 58] ++ (t ++ [58, 40] ++ (lo ++ [44] ++ hi)) ++ [93] := by simp [ResourceID.name]
    rw [name, name, append_left_inj, append_right_inj, outer]
    simp only [ResourceID.Confused, ResourceID.gap.injEq]
    grind
  all_goals simp [ResourceID.name, ResourceID.Confused]

/-- Two gaps of one table between keys with commas. -/
theorem not_name_injective : ¬ ∀ r r' : ResourceID, r ≠ r' → r.name ≠ r'.name := fun claim =>
  claim (.gap [116] [97] [98, 44, 99]) (.gap [116] [97, 44, 98] [99]) (by decide) rfl

inductive RequestStatus where
  | granted | waiting | converting
  deriving DecidableEq

/-- `Request`: one transaction's outstanding or granted request. -/
structure Request where
  txnID : Nat
  mode : Mode
  status : RequestStatus
  grantedCh : Nat
  deriving DecidableEq

/-- `Queue`: the granted and the waiting requests of one lock name. -/
structure Queue where
  granted : List Request := []
  waiting : List Request := []
  deriving DecidableEq

/-- A transaction's `HeldSet`: resource to strongest mode held. -/
abbrev HeldSet := GoMap ResourceID Mode

namespace Queue

/-- `CanGrant`: compatible with every grant of other transactions. Waiters do not count. -/
def canGrant (q : Queue) (mode : Mode) (exceptTxnID : Nat) : Bool :=
  q.granted.all fun g => g.txnID == exceptTxnID || lockCompatible mode g.mode

def addGranted (q : Queue) (req : Request) : Queue :=
  { q with granted := q.granted ++ [{ req with status := .granted }] }

def addWaiting (q : Queue) (req : Request) : Queue :=
  { q with waiting := q.waiting ++ [{ req with status := .waiting }] }

def addWaitingFront (q : Queue) (req : Request) : Queue :=
  { q with waiting := { req with status := .converting } :: q.waiting }

/-- `RemoveGranted`: drops every grant of the transaction. -/
def removeGranted (q : Queue) (txnID : Nat) : Queue := { q with granted := q.granted.filter fun g => g.txnID != txnID }

/-- `RemoveWaiting`: drops the transaction's first waiting request. -/
def removeWaiting (q : Queue) (txnID : Nat) : Queue := { q with waiting := q.waiting.eraseP fun w => w.txnID == txnID }

def currentMode (granted : List Request) : Mode := granted.foldl (fun m g => dominantMode m g.mode) .nl

/-- The loop of `GrantWaiters`: the prefix of `waiting` to grant, up to the first request that is incompatible with
the mode accumulated so far. -/
def grantable : Mode → List Request → List Request
  | _, [] => []
  | current, req :: rest =>
    if lockCompatible req.mode current then
      { req with status := .granted } :: grantable (dominantMode current req.mode) rest
    else []

def newlyGranted (q : Queue) : List Request := grantable (currentMode q.granted) q.waiting

def grantWaiters (q : Queue) : Queue :=
  { granted := q.granted ++ q.newlyGranted, waiting := q.waiting.drop q.newlyGranted.length }

/-- `ConflictingTxns`: the other transactions whose grants conflict with `mode`. -/
def conflictingTxns (q : Queue) (mode : Mode) (requesterID : Nat) : List Nat :=
  ((q.granted.filter fun g => g.txnID != requesterID && !lockCompatible mode g.mode).map (·.txnID)).dedup

theorem canGrant_removeGranted (q : Queue) (mode : Mode) (t : Nat) :
    (q.removeGranted t).canGrant mode t = q.canGrant mode t := by
  unfold canGrant removeGranted
  rw [List.all_filter]
  congr 1
  funext g
  by_cases own : g.txnID = t <;> simp [own]

def isEmpty (q : Queue) : Bool := q.granted.isEmpty && q.waiting.isEmpty

end Queue

/-- How the locked part of `AcquireLockCtx` ends: a mode at least as strong is held already, the lock is granted at
once, or the request is queued. -/
inductive Acquired where
  | held
  | granted
  | waiting (conflictors : List Nat)
  deriving DecidableEq

/-- The locked part of `AcquireLockCtx`: an upgrade first drops the transaction's grants in this queue, then the
request is granted or queued. The test for an upgrade, which chooses the front of the wait list, comes after the held
entry is gone. -/
def acquireLocked (q : Queue) (held : HeldSet) (txnID : Nat) (resource : ResourceID)
    (mode : Mode) (ch : Nat) : Acquired × Queue × HeldSet :=
  let weaker := fun (held : HeldSet) => match held.get resource with
    | some existing => decide (lockStrength existing < lockStrength mode)
    | none => false
  let sufficient := match held.get resource with
    | some existing => decide (lockStrength mode ≤ lockStrength existing)
    | none => false
  if sufficient then (.held, q, held)
  else
    let q' := if weaker held then q.removeGranted txnID else q
    let held' := if weaker held then held.delete resource else held
    let req : Request := { txnID, mode, status := .granted, grantedCh := ch }
    if q'.canGrant mode txnID then (.granted, q'.addGranted req, held'.set resource mode)
    else
      let queued := if weaker held' then q'.addWaitingFront req else q'.addWaiting req
      (.waiting (q'.conflictingTxns mode txnID), queued, held')

/-- The locked part of a wait that ends by abort, disconnect or timeout. -/
def giveUpLocked (q : Queue) (txnID : Nat) : Queue := ((q.removeWaiting txnID).removeGranted txnID).grantWaiters

/-- The locked part of `ReleaseLock` and `ReleaseAllLocks`. -/
def releaseLocked (q : Queue) (txnID : Nat) : Queue := (q.removeGranted txnID).grantWaiters

/-!
## Well-formed lock queues

A queue is well formed when no transaction has two requests in it and its grants are
pairwise compatible. Every critical section of the lock manager keeps this. The one
argument with content is `GrantWaiters`: it compares a waiter with the strongest granted
mode only, which is enough because of two compatible modes the stronger speaks for both.
-/

open Queue

/-- No two requests of one transaction, and compatible grants. -/
structure Queue.WF (q : Queue) : Prop where
  nodup : ((q.granted ++ q.waiting).map (·.txnID)).Nodup
  compat : q.granted.Pairwise fun a b => lockCompatible a.mode b.mode = true

def Queue.Lacks (q : Queue) (t : Nat) : Prop := ∀ e ∈ q.granted ++ q.waiting, e.txnID ≠ t

/-- `m` stands for all of `ms`: what is compatible with `m` is compatible with them. -/
structure Dominates (m : Mode) (ms : List Mode) : Prop where
  speaks : ∀ n, lockCompatible n m = true → ∀ k ∈ ms, lockCompatible n k = true
  member : m = .nl ∨ m ∈ ms

section
variable {m n : Mode} {ms : List Mode} (dom : Dominates m ms)
include dom

/-- Another mode comes in, when the stronger of the two speaks for both. -/
theorem Dominates.push_of
    (both : ∀ k, lockCompatible k (dominantMode m n) = true → lockCompatible k m = true ∧ lockCompatible k n = true) :
    Dominates (dominantMode m n) (ms ++ [n]) := by
  constructor
  · intro other ok k mem
    cases mem_append.1 mem with
    | inl old => exact dom.speaks other (both other ok).1 k old
    | inr new => exact mem_singleton.1 new ▸ (both other ok).2
  · unfold dominantMode
    split
    · exact dom.member.imp_right (mem_append_left _)
    · exact .inr (by simp)

theorem Dominates.push (compat : ∀ k ∈ ms, lockCompatible k n = true) : Dominates (dominantMode m n) (ms ++ [n]) := by
  refine dom.push_of fun k => compatible_of_dominant ?_
  cases dom.member with
  | inl free => rw [free]; rfl
  | inr mem => exact compat m mem

/-- A mode that is compatible with the strongest one is compatible with all of them. -/
theorem Dominates.grant (ok : lockCompatible n m = true) : Dominates (dominantMode m n) (ms ++ [n]) :=
  dom.push fun k mem => lockCompatible_comm k n ▸ dom.speaks n ok k mem

end

/-- The accumulator of `GrantWaiters` starts as the strongest granted mode. -/
theorem dominates_currentMode {granted : List Request}
    (compat : granted.Pairwise fun a b => lockCompatible a.mode b.mode = true) :
    Dominates (currentMode granted) (granted.map (·.mode)) := by
  unfold currentMode
  induction granted using List.reverseRecOn with
  | nil =>
    constructor
    · intro n _ k mem
      cases mem
    · exact .inl rfl
  | append_singleton _ g ih =>
    obtain ⟨front, -, last⟩ := pairwise_append.1 compat
    rw [foldl_append, map_append]
    apply (ih front).push
    intro k mem
    obtain ⟨e, inside, rfl⟩ := mem_map.1 mem
    exact last e inside g mem_cons_self

/-- The loop of `GrantWaiters`, with what it has granted so far in `granted`: a new grant is
compatible with all grants before it. -/
theorem pairwise_grantable {R : Request → Request → Prop}
    (weaker : ∀ a b : Request, lockCompatible a.mode b.mode = true → R a b) (waiting : List Request) :
    ∀ (current : Mode) (granted : List Request), Dominates current (granted.map (·.mode)) →
      granted.Pairwise R → (granted ++ grantable current waiting).Pairwise R := by
  induction waiting with
  | nil => simp [grantable]
  | cons req rest ih =>
    intro current granted dom compat
    unfold grantable
    split
    · rename_i ok
      have fits : ∀ a ∈ granted, lockCompatible a.mode req.mode = true := by
        intro a mem
        rw [lockCompatible_comm]
        exact dom.speaks req.mode ok _ (mem_map_of_mem mem)
      have step := ih (dominantMode current req.mode) (granted ++ [{ req with status := .granted }])
      simp only [append_assoc, singleton_append] at step
      apply step
      · rw [map_append]
        exact dom.grant ok
      · apply pairwise_append.2
        refine ⟨compat, pairwise_singleton _ _, fun a mem b new => ?_⟩
        rw [mem_singleton.1 new]
        exact weaker _ _ (fits a mem)
    · simpa using compat

theorem grantable_eq_take (waiting : List Request) : ∀ current, grantable current waiting =
      (waiting.take (grantable current waiting).length).map fun r => { r with status := .granted } := by
  induction waiting with
  | nil => exact fun _ => rfl
  | cons _ _ ih =>
    intro current
    unfold grantable
    split
    · rw [length_cons, take_succ_cons, map_cons, ← ih]
    · rfl

namespace Queue
variable {q : Queue} {t : Nat} {e : Request}

theorem granted_grantWaiters (q : Queue) :
    q.grantWaiters.granted = q.granted ++ (q.waiting.take q.newlyGranted.length).map
      fun r => { r with status := .granted } := by
  show q.granted ++ q.newlyGranted = _
  rw [newlyGranted, ← grantable_eq_take]

theorem mem_granted_grantWaiters (mem : e ∈ q.grantWaiters.granted) :
    e ∈ q.granted ∨ ∃ w ∈ q.waiting, e = { w with status := .granted } ∧
      w.grantedCh ∈ q.newlyGranted.map (·.grantedCh) := by
  cases mem_append.1 mem with
  | inl old => exact .inl old
  | inr new =>
    have prior := new
    rw [newlyGranted, grantable_eq_take] at prior
    obtain ⟨w, inside, rfl⟩ := mem_map.1 prior
    exact .inr ⟨w, mem_of_mem_take inside, rfl, mem_map.2 ⟨_, new, rfl⟩⟩

theorem mem_waiting_grantWaiters (mem : e ∈ q.grantWaiters.waiting) : e ∈ q.waiting := mem_of_mem_drop mem

/-- A waiter goes on waiting or is granted, and then its channel is closed. -/
theorem waiting_grantWaiters (mem : e ∈ q.waiting) :
    e ∈ q.grantWaiters.waiting ∨ { e with status := .granted } ∈ q.grantWaiters.granted ∧
      e.grantedCh ∈ q.newlyGranted.map (·.grantedCh) := by
  rw [← take_append_drop q.newlyGranted.length q.waiting] at mem
  cases mem_append.1 mem with
  | inl front =>
    right
    have new : { e with status := .granted } ∈ q.newlyGranted := by
      rw [newlyGranted, grantable_eq_take]
      exact mem_map_of_mem front
    exact ⟨mem_append_right _ new, mem_map.2 ⟨_, new, rfl⟩⟩
  | inr back => exact .inl back

theorem map_txnID_grantWaiters (q : Queue) : (q.grantWaiters.granted ++ q.grantWaiters.waiting).map (·.txnID) =
      (q.granted ++ q.waiting).map (·.txnID) := by
  rw [granted_grantWaiters]
  show (_ ++ q.waiting.drop _).map _ = _
  simp only [map_append, map_map, Function.comp_def, append_assoc]
  rw [← map_append, take_append_drop]

theorem WF.grantWaiters (wf : q.WF) : q.grantWaiters.WF where
  nodup := by
    rw [map_txnID_grantWaiters]
    exact wf.nodup
  compat := pairwise_grantable (fun _ _ ok => ok) q.waiting _ _ (dominates_currentMode wf.compat) wf.compat

theorem lacks_grantWaiters : q.grantWaiters.Lacks t ↔ q.Lacks t := by
  have same : ∀ p : Queue, p.Lacks t ↔ t ∉ (p.granted ++ p.waiting).map (·.txnID) := by
    intro p
    simp only [Lacks, mem_map, not_exists, not_and, ne_eq]
  rw [same, same, map_txnID_grantWaiters]

theorem mem_removeGranted : e ∈ (q.removeGranted t).granted ↔ e ∈ q.granted ∧ e.txnID ≠ t := by
  simp [removeGranted]

theorem mem_of_mem_removeGranted (mem : e ∈ (q.removeGranted t).granted ++ (q.removeGranted t).waiting) :
    e ∈ q.granted ++ q.waiting := by
  cases mem_append.1 mem with
  | inl granted => exact mem_append_left _ (mem_removeGranted.1 granted).1
  | inr waiting => exact mem_append_right _ waiting

theorem WF.removeGranted (wf : q.WF) : (q.removeGranted t).WF where
  nodup := by
    have sub := (filter_sublist (p := fun g : Request => g.txnID != t) (l := q.granted)).append
      (List.Sublist.refl q.waiting)
    exact List.Nodup.sublist (sub.map _) wf.nodup
  compat := wf.compat.sublist filter_sublist

theorem WF.removeWaiting (wf : q.WF) : (q.removeWaiting t).WF where
  nodup := by
    have sub := (List.Sublist.refl q.granted).append
      (eraseP_sublist (p := fun w : Request => w.txnID == t) (l := q.waiting))
    exact List.Nodup.sublist (sub.map _) wf.nodup
  compat := wf.compat

/-- The transaction's waiting request was its only one. -/
theorem WF.mem_removeWaiting (wf : q.WF) : e ∈ (q.removeWaiting t).waiting ↔ e ∈ q.waiting ∧ e.txnID ≠ t := by
  have nodup : (q.waiting.map (·.txnID)).Nodup := by
    have := wf.nodup
    rw [map_append] at this
    exact (nodup_append.1 this).2.1
  show e ∈ q.waiting.eraseP _ ↔ _
  revert nodup
  generalize q.waiting = ws
  intro nodup
  induction ws with
  | nil => simp
  | cons w ws ih =>
    obtain ⟨fresh, rest⟩ := nodup_cons.1 nodup
    by_cases mine : w.txnID = t
    · rw [eraseP_cons_of_pos (by simp [mine])]
      constructor
      · intro mem
        refine ⟨mem_cons_of_mem _ mem, fun same => fresh ?_⟩
        exact mem_map.2 ⟨e, mem, same.trans mine.symm⟩
      · rintro ⟨mem, other⟩
        cases mem_cons.1 mem with
        | inl eq => exact absurd (eq ▸ mine) other
        | inr inside => exact inside
    · rw [eraseP_cons_of_neg (by simp [mine]), mem_cons, mem_cons, ih rest]
      constructor
      · rintro (rfl | ⟨inside, other⟩)
        · exact ⟨.inl rfl, mine⟩
        · exact ⟨.inr inside, other⟩
      · rintro ⟨rfl | inside, other⟩
        · exact .inl rfl
        · exact .inr ⟨inside, other⟩

theorem WF.addGranted (wf : q.WF) (lacks : q.Lacks e.txnID) (can : q.canGrant e.mode e.txnID) :
    (q.addGranted e).WF where
  nodup := by
    have : ((q.addGranted e).granted ++ q.waiting).Perm
        ({ e with status := .granted } :: (q.granted ++ q.waiting)) := by
      unfold Queue.addGranted
      rw [append_assoc]
      exact perm_middle
    apply (this.map (·.txnID)).nodup_iff.2
    apply nodup_cons.2
    refine ⟨fun mem => ?_, wf.nodup⟩
    obtain ⟨x, inside, eq⟩ := mem_map.1 mem
    exact lacks x inside eq
  compat := by
    apply pairwise_append.2
    refine ⟨wf.compat, pairwise_singleton _ _, fun a mem b new => ?_⟩
    have fits := all_eq_true.1 can a mem
    have other := lacks a (mem_append_left _ mem)
    rw [mem_singleton.1 new, lockCompatible_comm]
    simpa [other] using fits

theorem WF.addWaiting (wf : q.WF) (lacks : q.Lacks e.txnID) : (q.addWaiting e).WF where
  nodup := by
    show ((q.granted ++ (q.waiting ++ [_])).map _).Nodup
    rw [← append_assoc, map_append, nodup_append]
    refine ⟨wf.nodup, by simp, fun a mem b new => ?_⟩
    obtain ⟨x, inside, rfl⟩ := mem_map.1 mem
    rw [mem_singleton.1 new]
    exact lacks x inside
  compat := wf.compat

theorem lacks_removeGranted (idle : ∀ w ∈ q.waiting, w.txnID ≠ t) : (q.removeGranted t).Lacks t :=
  forall_mem_append.2 ⟨fun _ granted => (mem_removeGranted.1 granted).2, idle⟩

theorem eq_empty_of_isEmpty (empty : q.isEmpty = true) : q = {} := by
  obtain ⟨granted, waiting⟩ := q
  simp only [isEmpty, Bool.and_eq_true, List.isEmpty_iff] at empty
  rw [empty.1, empty.2]

theorem WF.disjoint (wf : q.WF) {a b : Request} (granted : a ∈ q.granted) (waiting : b ∈ q.waiting) :
    a.txnID ≠ b.txnID := by
  have := wf.nodup
  rw [map_append] at this
  exact (nodup_append.1 this).2.2 _ (mem_map_of_mem granted) _ (mem_map_of_mem waiting)

end Queue

/-- The queue and the held set once an upgrade has dropped the weaker grant; a first request drops
nothing. -/
def Dropped (q : Queue) (held : HeldSet) (t : Nat) (r : ResourceID) (mode : Mode) (q' : Queue) (h : HeldSet) : Prop :=
  q' = q ∧ held.get r = none ∧ h = held ∨ q' = q.removeGranted t ∧ (∃ weaker, held.get r = some weaker ∧
      lockStrength weaker < lockStrength mode) ∧ h = held.delete r

namespace Dropped
variable {q q' : Queue} {held h : HeldSet} {t : Nat} {r : ResourceID} {mode : Mode}
  (dropped : Dropped q held t r mode q' h)
include dropped

theorem waiting : q'.waiting = q.waiting := by
  rcases dropped with ⟨rfl, -, -⟩ | ⟨rfl, -, -⟩ <;> rfl

theorem canGrant : q'.canGrant mode t = q.canGrant mode t := by
  rcases dropped with ⟨rfl, -, -⟩ | ⟨rfl, -, -⟩
  · rfl
  · exact q.canGrant_removeGranted mode t

theorem weaker {existing : Mode} (get : held.get r = some existing) : lockStrength existing < lockStrength mode := by
  rcases dropped with ⟨-, none, -⟩ | ⟨-, ⟨weaker, get', lt⟩, -⟩
  · rw [none] at get
    cases get
  · rw [get'] at get
    cases get
    exact lt

theorem get (r' : ResourceID) : h.get r' = if r' = r then none else held.get r' := by
  rcases dropped with ⟨-, none, rfl⟩ | ⟨-, -, rfl⟩
  · exact GoMap.get_of_eq none r'
  · exact held.get_delete r r'

end Dropped

/-- The locked part of `AcquireLockCtx`: nothing when the transaction holds enough; otherwise its old grant goes, and
the request is granted or waits. -/
theorem acquireLocked_cases (q : Queue) (held : HeldSet) (t : Nat) (r : ResourceID) (mode : Mode) (ch : Nat) :
    (∃ existing, held.get r = some existing ∧ lockStrength mode ≤ lockStrength existing ∧
        acquireLocked q held t r mode ch = (.held, q, held)) ∨
      ∃ q' held', Dropped q held t r mode q' held' ∧ (q'.canGrant mode t = true ∧ acquireLocked q held t r mode ch =
            (.granted, q'.addGranted ⟨t, mode, .granted, ch⟩, held'.set r mode) ∨
          q'.canGrant mode t = false ∧ acquireLocked q held t r mode ch =
            (.waiting (q'.conflictingTxns mode t), q'.addWaiting ⟨t, mode, .granted, ch⟩, held')) := by
  unfold acquireLocked
  cases found : held.get r with
  | none =>
    refine .inr ⟨q, held, .inl ⟨rfl, found, rfl⟩, ?_⟩
    cases can : q.canGrant mode t <;> simp [found, can]
  | some existing =>
    by_cases enough : lockStrength mode ≤ lockStrength existing
    · exact .inl ⟨existing, rfl, enough, by simp [enough]⟩
    · have weaker : lockStrength existing < lockStrength mode := by omega
      refine .inr ⟨q.removeGranted t, held.delete r, .inr ⟨rfl, ⟨existing, found, weaker⟩, rfl⟩, ?_⟩
      cases can : (q.removeGranted t).canGrant mode t <;> simp [found, enough, weaker, can]

/-!
## Queues of row locks

Row operations ask for S and X only. Such a queue needs no bound on the number of grants a
transaction has in it: two rows of one lock name share a queue, and a transaction may hold
both. `QueueEdit` says what a section of one transaction does to the requests of the others.
-/

/-- Only S and X, and grants of different transactions are compatible. -/
structure Queue.RowLocks (q : Queue) : Prop where
  modes : ∀ e ∈ q.granted ++ q.waiting, e.mode = .s ∨ e.mode = .x
  exclusive : ∀ e ∈ q.granted, ∀ e' ∈ q.granted, e.txnID ≠ e'.txnID → lockCompatible e.mode e'.mode = true

/-- What a section of `t` does: grants of the others stay, and every request was there before, or is the new one of
`t` on channel `ch`. -/
structure QueueEdit (t ch : Nat) (mode : Mode) (q q' : Queue) : Prop where
  kept : ∀ e ∈ q.granted, e.txnID ≠ t → e ∈ q'.granted
  sources : ∀ e ∈ q'.granted ++ q'.waiting,
    (∃ w ∈ q.granted ++ q.waiting, w.txnID = e.txnID ∧ w.mode = e.mode ∧ w.grantedCh = e.grantedCh) ∨
      e.txnID = t ∧ e.mode = mode ∧ e.grantedCh = ch

/-- The accumulator of `GrantWaiters` over row modes: of them the stronger one speaks for both. -/
theorem dominates_currentMode_rowModes {granted : List Request} (modes : ∀ e ∈ granted, e.mode = .s ∨ e.mode = .x) :
    Dominates (currentMode granted) (granted.map (·.mode)) ∧ (currentMode granted = .nl ∨ currentMode granted = .s ∨
        currentMode granted = .x) := by
  unfold currentMode
  induction granted using List.reverseRecOn with
  | nil =>
    refine ⟨⟨fun n _ k mem => ?_, .inl rfl⟩, .inl rfl⟩
    cases mem
  | append_singleton granted g ih =>
    obtain ⟨dom, current⟩ := ih fun e mem => modes e (mem_append_left _ mem)
    have new := modes g (by simp)
    rw [foldl_append, map_append, foldl_cons, foldl_nil]
    constructor
    · apply dom.push_of
      rcases current with current | current | current <;> rcases new with new | new <;>
        rw [current, new] <;> decide
    · rcases current with current | current | current <;> rcases new with new | new <;>
        rw [current, new] <;> decide

namespace Queue
variable {q q' : Queue} {t ch : Nat} {mode : Mode}

/-- `GrantWaiters` changes the status of requests only. -/
theorem source_grantWaiters {e : Request} (mem : e ∈ q.grantWaiters.granted ++ q.grantWaiters.waiting) :
    ∃ w ∈ q.granted ++ q.waiting, w.txnID = e.txnID ∧ w.mode = e.mode ∧ w.grantedCh = e.grantedCh := by
  cases mem_append.1 mem with
  | inl granted =>
    rcases mem_granted_grantWaiters granted with old | ⟨w, waits, rfl, -⟩
    · exact ⟨e, mem_append_left _ old, rfl, rfl, rfl⟩
    · exact ⟨w, mem_append_right _ waits, rfl, rfl, rfl⟩
  | inr waiting =>
    exact ⟨e, mem_append_right _ (mem_waiting_grantWaiters waiting), rfl, rfl, rfl⟩

namespace RowLocks

section
variable (ok : q.RowLocks)
include ok

theorem grantWaiters : q.grantWaiters.RowLocks where
  modes e mem := by
    cases mem_append.1 mem with
    | inl granted =>
      rcases mem_granted_grantWaiters granted with old | ⟨w, waits, rfl, -⟩
      · exact ok.modes e (mem_append_left _ old)
      · exact ok.modes w (mem_append_right _ waits)
    | inr waiting => exact ok.modes e (mem_append_right _ (mem_waiting_grantWaiters waiting))
  exclusive := by
    obtain ⟨dom, current⟩ := dominates_currentMode_rowModes fun e mem =>
      ok.modes e (mem_append_left _ mem)
    let rel (a b : Request) : Prop := a.txnID ≠ b.txnID → lockCompatible a.mode b.mode = true
    have symm : Std.Symm rel := ⟨fun a b compat ne => by rw [lockCompatible_comm]; exact compat ne.symm⟩
    have compat := pairwise_grantable (R := rel) (fun _ _ fits _ => fits) q.waiting _ q.granted dom
      (pairwise_of_forall_mem_list ok.exclusive)
    exact compat.forall_of_forall fun e _ ne => absurd rfl ne

theorem subset (granted : ∀ e ∈ q'.granted, e ∈ q.granted) (waiting : ∀ e ∈ q'.waiting, e ∈ q.waiting) : q'.RowLocks where
  modes := forall_mem_append.2 ⟨fun e mem => ok.modes e (mem_append_left _ (granted e mem)),
    fun e mem => ok.modes e (mem_append_right _ (waiting e mem))⟩
  exclusive e mem e' mem' := ok.exclusive e (granted e mem) e' (granted e' mem')

theorem removeGranted : (q.removeGranted t).RowLocks :=
  ok.subset (fun _ mem => (mem_removeGranted.1 mem).1) fun _ mem => mem

theorem removeWaiting : (q.removeWaiting t).RowLocks :=
  ok.subset (fun _ mem => mem) fun _ mem => mem_of_mem_eraseP mem

theorem addGranted (row : mode = .s ∨ mode = .x) (can : q.canGrant mode t = true) : (q.addGranted ⟨t, mode, .granted, ch⟩).RowLocks where
  modes e mem := by
    simp only [Queue.addGranted, mem_append, mem_singleton] at mem
    rcases mem with (old | rfl) | waiting
    · exact ok.modes e (mem_append_left _ old)
    · exact row
    · exact ok.modes e (mem_append_right _ waiting)
  exclusive e mem e' mem' ne := by
    have fits (g : Request) (inside : g ∈ q.granted) (other : g.txnID ≠ t) : lockCompatible mode g.mode = true := by
      simpa [other] using all_eq_true.1 can g inside
    simp only [Queue.addGranted, mem_append, mem_singleton] at mem mem'
    rcases mem with old | rfl <;> rcases mem' with old' | rfl
    · exact ok.exclusive e old e' old' ne
    · rw [lockCompatible_comm]
      exact fits e old ne
    · exact fits e' old' ne.symm
    · exact absurd rfl ne

theorem addWaiting (row : mode = .s ∨ mode = .x) :
    (q.addWaiting ⟨t, mode, .granted, ch⟩).RowLocks where
  modes e mem := by
    simp only [Queue.addWaiting, mem_append, mem_singleton] at mem
    rcases mem with old | waiting | rfl
    · exact ok.modes e (mem_append_left _ old)
    · exact ok.modes e (mem_append_right _ waiting)
    · exact row
  exclusive := ok.exclusive

end

end RowLocks

end Queue

namespace QueueEdit
variable {q q' q'' : Queue} {t ch : Nat} {mode : Mode}

theorem refl (q : Queue) : QueueEdit t ch mode q q := ⟨fun _ mem _ => mem, fun e mem => .inl ⟨e, mem, rfl, rfl, rfl⟩⟩

theorem trans (first : QueueEdit t ch mode q q') (second : QueueEdit t ch mode q' q'') : QueueEdit t ch mode q q'' where
  kept e mem other := second.kept e (first.kept e mem other) other
  sources e mem := by
    rcases second.sources e mem with ⟨w, inside, txn, eq, ch⟩ | new
    · rcases first.sources w inside with ⟨v, older, txn', eq', ch'⟩ | ⟨txn', eq', ch'⟩
      · exact .inl ⟨v, older, txn'.trans txn, eq'.trans eq, ch'.trans ch⟩
      · exact .inr ⟨txn.symm.trans txn', eq.symm.trans eq', ch.symm.trans ch'⟩
    · exact .inr new

theorem removeGranted : QueueEdit t ch mode q (q.removeGranted t) where
  kept e mem other := mem_removeGranted.2 ⟨mem, other⟩
  sources e mem := by
    exact .inl ⟨e, mem_of_mem_removeGranted mem, rfl, rfl, rfl⟩

theorem dropped {held h : HeldSet} {r : ResourceID} {k : Mode} (dropped : Dropped q held t r k q' h) :
    QueueEdit t ch mode q q' := by
  rcases dropped with ⟨rfl, -, -⟩ | ⟨rfl, -, -⟩
  · exact refl _
  · exact removeGranted

theorem removeWaiting : QueueEdit t ch mode q (q.removeWaiting t) where
  kept e mem _ := mem
  sources e mem := by
    refine .inl ⟨e, ?_, rfl, rfl, rfl⟩
    cases mem_append.1 mem with
    | inl granted => exact mem_append_left _ granted
    | inr waiting => exact mem_append_right _ (mem_of_mem_eraseP waiting)

theorem grantWaiters : QueueEdit t ch mode q q.grantWaiters where
  kept _ mem _ := mem_append_left _ mem
  sources _ mem := .inl (source_grantWaiters mem)

theorem addGranted : QueueEdit t ch mode q (q.addGranted ⟨t, mode, .granted, ch⟩) where
  kept e mem _ := mem_append_left _ mem
  sources e mem := by
    simp only [Queue.addGranted, mem_append, mem_singleton] at mem
    rcases mem with (old | rfl) | waiting
    · exact .inl ⟨e, mem_append_left _ old, rfl, rfl, rfl⟩
    · exact .inr ⟨rfl, rfl, rfl⟩
    · exact .inl ⟨e, mem_append_right _ waiting, rfl, rfl, rfl⟩

theorem addWaiting : QueueEdit t ch mode q (q.addWaiting ⟨t, mode, .granted, ch⟩) where
  kept e mem _ := mem
  sources e mem := by
    simp only [Queue.addWaiting, mem_append, mem_singleton] at mem
    rcases mem with old | waiting | rfl
    · exact .inl ⟨e, mem_append_left _ old, rfl, rfl, rfl⟩
    · exact .inl ⟨e, mem_append_right _ waiting, rfl, rfl, rfl⟩
    · exact .inr ⟨rfl, rfl, rfl⟩

end QueueEdit

end TransactionManager.Lock
