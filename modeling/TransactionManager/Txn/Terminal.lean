import TransactionManager.Txn.Views

/-!
# How transactions end

`Commit`, `Abort`, `Reset` and `PruneHistory` of `internal/txn/manager.go`, with each call cut where it
gives up `m.mu`. The locked section decides: it sets the status, takes the transaction out of the active
map and enters it in one of the two histories. What follows, the undo, the release of locks, the callback
and the return, is left to the call and can come at any later time. Whatever else goes on in the manager,
reads, writes, undo and recovery of rows, is a step that changes anything but the books.
-/

namespace TransactionManager.Txn
open Lib TransactionManager.Types List GoMap Wal Manager Reach

inductive TxnStatus where
  | active | committed | aborted
  deriving DecidableEq

inductive Callback where
  | onCommit (id : Nat)
  | onAbort (id : Nat)
  deriving DecidableEq

def Callback.txn : Callback → Nat
  | .onCommit id | .onAbort id => id

/-- What a call returns. `Abort` has whether it found the transaction running, and `flushFailed` is a `Commit` that
returns the error of the flush. -/
inductive Answer where
  | commit (id : Nat) (result : Outcome)
  | flushFailed (id : Nat)
  | abort (id : Nat) (found : Bool) (result : Outcome)
  deriving DecidableEq

/-- The manager with the status of every transaction object, the calls past their locked section with what
they still report and return, and what has happened: the calls of `setStatus`, the deletions from the active
map, the callbacks and the answers. -/
structure EndRun where
  mgr : Manager
  status : GoMap Nat TxnStatus := ∅
  pending : List (Callback × Answer) := []
  marks : List (Nat × TxnStatus) := []
  left : List Nat := []
  fired : List Callback := []
  answers : List Answer := []

/-- The locked sections and the ends of the calls. `work` is what leaves the books alone, `record` what it does to the
record of a running transaction. -/
inductive EndAction where
  | begin (protocol : ConcurrencyProtocol) (isoLevel : IsolationLevel)
  | commit (id : Nat) (flushFails : Bool)
  | abort (id : Nat)
  | finish (call : Callback × Answer)
  | reset
  | pruneHistory
  | work (rest : Manager)
  | record (txn : Transaction)

/-- The books of one manager and the rest of another. -/
def Manager.withRest (m rest : Manager) : Manager :=
  { rest with txns := m.txns, committed := m.committed, aborted := m.aborted, nextID := m.nextID }

namespace EndRun

def start (rest : Manager) : EndRun where
  mgr := ({ committed := [0] } : Manager).withRest rest

/-- A call that returns from its locked section. -/
def reply (s : EndRun) (answer : Answer) : EndRun := { s with answers := s.answers ++ [answer] }

/-- The locked section of a call that ends the transaction. -/
def ends (s : EndRun) (id : Nat) (status : TxnStatus) (m : Manager) (calls : List (Callback × Answer)) :
    EndRun :=
  { s with
    mgr := m
    status := s.status.set id status
    marks := s.marks ++ [(id, status)]
    left := id :: s.left
    pending := s.pending ++ calls }

def commit (s : EndRun) (id : Nat) (flushFails : Bool) : EndRun :=
  match s.mgr.txns.get id, s.status.get id with
  | none, _ => s.reply (.commit id (s.mgr.commitTerminal id))
  | some _, some .aborted => s.reply (.commit id (.err .txnAborted))
  | some _, some .committed => s.reply (.commit id .ok)
  | some txn, _ =>
    if txn.protocol = .mvcc ∧ txn.isolation = .serializable ∧ s.mgr.ssiTracker.isPivotLocked id then
      s.ends id .aborted (s.mgr.markAborted id) [(.onAbort id, .commit id (.err .serializationFailure))]
    else
      let logged := (s.mgr.logAppend (commitRecord id txn.lastWALLSN)).2
      if s.mgr.wal.isSome ∧ flushFails then { s with mgr := logged }.reply (.flushFailed id)
      else s.ends id .committed (logged.markCommitted id) [(.onCommit id, .commit id .ok)]

def abort (s : EndRun) (id : Nat) : EndRun :=
  match s.mgr.txns.get id, s.status.get id with
  | none, _ => s.reply (.abort id false (s.mgr.abortTerminal id))
  | some _, some .committed => s.reply (.abort id false (.err (.txnCommitted id)))
  | some _, some .aborted => s.reply (.abort id false .ok)
  | some _, _ => s.ends id .aborted (s.mgr.markAborted id) [(.onAbort id, .abort id true .ok)]

/-- The body of the loop of `Reset`, which reports nothing. -/
def inlineAbort (s : EndRun) (id : Nat) : EndRun :=
  if s.mgr.Active id then s.ends id .aborted (s.mgr.markAborted id) [] else s

/-- `Reset`. The rows and chains that it seeds again come with `work`. -/
def reset (s : EndRun) : EndRun :=
  let s := s.mgr.txns.keys.foldl inlineAbort s
  let seedID := s.mgr.nextID + 1
  { s with mgr := { s.mgr with
      mvccStore := ∅, ssiTracker := {}, nextID := seedID, committed := seedID :: s.mgr.committed } }

def next (s : EndRun) : EndAction → Option EndRun
  | .begin protocol isoLevel =>
    match s.mgr.begin protocol isoLevel with
    | (.ok, m) => some { s with mgr := m, status := s.status.set m.nextID .active }
    | (_, m) => some { s with mgr := m }
  | .commit id flushFails => some (s.commit id flushFails)
  | .abort id => some (s.abort id)
  | .finish call =>
    if call ∈ s.pending then
      some { s with
        pending := s.pending.erase call
        fired := s.fired ++ [call.1]
        answers := s.answers ++ [call.2] }
    else none
  | .reset => some s.reset
  | .pruneHistory => some { s with mgr := s.mgr.pruneHistory }
  | .work rest => some { s with mgr := s.mgr.withRest rest }
  | .record txn =>
    match s.mgr.txns.get txn.id with
    | some old =>
      if txn.protocol = old.protocol ∧ txn.isolation = old.isolation then
        some { s with mgr := s.mgr.putTxn txn }
      else none
    | none => none

/-- The callbacks that have fired or will. -/
def callbacks (s : EndRun) : List Callback := s.fired ++ s.pending.map (·.1)

/-- The answers that have been given or will. -/
def replies (s : EndRun) : List Answer := s.answers ++ s.pending.map (·.2)

/-- One outcome: the transaction leaves the active map at most once, the status it is given stays, it is then in one
of the two maps, is reported at most once, and `Commit` returns nil only when it has committed. -/
structure SingleOutcome (s : EndRun) (id : Nat) : Prop where
  left : s.left.count id ≤ 1
  status : ∀ status, (id, status) ∈ s.marks → s.status.get id = some status
  oneMap : id ∈ s.left → (id ∈ s.mgr.committed ∧ id ∉ s.mgr.aborted) ∨ (id ∉ s.mgr.committed ∧ id ∈ s.mgr.aborted)
  reported : s.fired.count (.onCommit id) + s.fired.count (.onAbort id) ≤ 1
  commit : .commit id .ok ∈ s.answers → id ∈ s.mgr.committed

/-- What has been answered is answered again: after a nil `Commit` every `Abort` fails and every `Commit`
returns nil, and after the `Abort` of a running transaction every `Commit` fails. -/
structure FailsClosed (s : EndRun) : Prop where
  abort : ∀ id, .commit id .ok ∈ s.answers →
    (s.abort id).answers = s.answers ++ [.abort id false (.err (.txnCommitted id))]
  commit : ∀ id flushFails, .commit id .ok ∈ s.answers →
    (s.commit id flushFails).answers = s.answers ++ [.commit id .ok]
  aborted : ∀ id flushFails, .abort id true .ok ∈ s.answers →
    ∃ e, (s.commit id flushFails).answers = s.answers ++ [.commit id (.err e)]

def Unpruned (_ : EndRun) : EndAction → Prop
  | .pruneHistory => False
  | _ => True

/-- `PruneHistory` keeps the commit record of every transaction whose `Commit` has returned nil or is about
to. -/
def KeepsAnswered (s : EndRun) : EndAction → Prop
  | .pruneHistory => ∀ id ∈ s.mgr.committed, .commit id .ok ∈ s.replies → s.mgr.dropsCommit id = false
  | _ => True

instance (s : EndRun) (a : EndAction) : Decidable (s.Unpruned a) := by
  unfold Unpruned
  split <;> infer_instance

instance (s : EndRun) (a : EndAction) : Decidable (s.KeepsAnswered a) := by
  unfold KeepsAnswered
  split <;> infer_instance

/-- Along every run the marks agree with the books and the answers with the marks, and every transaction leaves and is
reported once. `K` says that the history is kept. -/
structure Inv (K : Prop) (s : EndRun) : Prop extends
    Booked s.mgr (fun id => id ∈ s.mgr.committed ∨ (id, .committed) ∈ s.marks)
      (fun id => id ∈ s.mgr.aborted ∨ (id, .aborted) ∈ s.marks) where
  active : ∀ id, s.mgr.Active id → s.status.get id = some .active
  marked : ∀ id status, (id, status) ∈ s.marks →
    s.status.get id = some status ∧ (status = .committed ∨ status = .aborted)
  kept : K → ∀ id, ((id, .committed) ∈ s.marks → id ∈ s.mgr.committed) ∧ ((id, .aborted) ∈ s.marks → id ∈ s.mgr.aborted)
  commits : ∀ id, .commit id .ok ∈ s.replies → id ∈ s.mgr.committed
  aborts : ∀ id, .abort id true .ok ∈ s.replies → (id, .aborted) ∈ s.marks
  gone : ∀ id, id ∈ s.left ∨ id ∈ s.callbacks.map Callback.txn → ∃ status, (id, status) ∈ s.marks
  leftOnce : s.left.Nodup
  reportedOnce : (s.callbacks.map Callback.txn).Nodup

namespace Inv
variable {K : Prop} {s : EndRun} {m : Manager} {id : Nat}

section
variable (inv : s.Inv K)
include inv

theorem old {status : TxnStatus} (mem : (id, status) ∈ s.marks) : ¬ s.mgr.Active id ∧ id ≤ s.mgr.nextID := by
  rcases (inv.marked id status mem).2 with rfl | rfl
  · exact ⟨fun run => (inv.running id run).2.2.1 (.inr mem), inv.ended id (.inl (.inr mem))⟩
  · exact ⟨fun run => (inv.running id run).2.2.2 (.inr mem), inv.ended id (.inr (.inr mem))⟩

theorem quiet (active : ∀ id, m.Active id → s.mgr.Active id) (committed : m.committed = s.mgr.committed)
    (aborted : m.aborted = s.mgr.aborted) (nextID : m.nextID = s.mgr.nextID) : Inv K { s with mgr := m } :=
  { inv with
    toBooked := by
      rw [committed, aborted]
      exact inv.toBooked.same active nextID
    active := fun id run => inv.active id (active id run)
    kept := fun k => by
      rw [committed, aborted]
      exact inv.kept k
    commits := by
      rw [committed]
      exact inv.commits }

theorem reply {a : Answer} (commits : ∀ u, a = .commit u .ok → u ∈ s.mgr.committed)
    (aborts : ∀ u, a ≠ .abort u true .ok) : Inv K (s.reply a) := by
  have given (b : Answer) (mem : b ∈ (s.reply a).replies) : b ∈ s.replies ∨ b = a := by
    simp only [replies, EndRun.reply, mem_append, mem_singleton] at mem ⊢
    tauto
  exact { inv with
    commits := fun u mem => (given _ mem).elim (inv.commits u) fun eq => commits u eq.symm
    aborts := fun u mem => (given _ mem).elim (inv.aborts u) fun eq => absurd eq.symm (aborts u) }

theorem begin {txn : Transaction} (txns : m.txns = s.mgr.txns.set (s.mgr.nextID + 1) txn)
    (committed : m.committed = s.mgr.committed) (aborted : m.aborted = s.mgr.aborted)
    (nextID : m.nextID = s.mgr.nextID + 1) :
    Inv K { s with mgr := m, status := s.status.set m.nextID .active } :=
  { inv with
    toBooked := by
      rw [committed, aborted]
      exact inv.toBooked.begin (fun id => (active_of_set txns).1) nextID
    active := fun id run => by
      rw [nextID, get_set]
      rcases (active_of_set txns).1 run with rfl | old
      · exact if_pos rfl
      · have := inv.running id old
        exact (if_neg (by omega)).trans (inv.active id old)
    marked := fun id status mem => by
      have := (inv.old mem).2
      rw [nextID, get_set, if_neg (by omega)]
      exact inv.marked id status mem
    kept := fun k => by
      rw [committed, aborted]
      exact inv.kept k
    commits := by
      rw [committed]
      exact inv.commits }

/-- The locked section that ends a running transaction. -/
theorem leaves {status : TxnStatus} {calls : List (Callback × Answer)} (run : s.mgr.Active id)
    (txns : m.txns = s.mgr.txns.delete id) (nextID : m.nextID = s.mgr.nextID)
    (way : status = .committed ∧ m.committed = id :: s.mgr.committed ∧ m.aborted = s.mgr.aborted ∨
      status = .aborted ∧ m.committed = s.mgr.committed ∧ m.aborted = id :: s.mgr.aborted)
    (reported : calls.map (·.1.txn) = [] ∨ calls.map (·.1.txn) = [id])
    (commits : ∀ u, .commit u .ok ∈ calls.map (·.2) → u = id ∧ status = .committed)
    (aborts : ∀ u, .abort u true .ok ∈ calls.map (·.2) → u = id ∧ status = .aborted) :
    Inv K (s.ends id status m calls) := by
  have fresh (status : TxnStatus) : (id, status) ∉ s.marks := fun mem => (inv.old mem).1 run
  have later (u : Nat) (mem : u ∈ s.mgr.committed) : u ∈ m.committed := by
    rcases way with ⟨-, eq, -⟩ | ⟨-, eq, -⟩ <;> simp [eq, mem]
  have left (u : Nat) := (active_of_delete (t := u) txns).1
  have callbacks : (s.ends id status m calls).callbacks.map Callback.txn =
      s.callbacks.map Callback.txn ++ calls.map (·.1.txn) := by
    simp [EndRun.callbacks, ends, Function.comp_def]
  have replies (a : Answer) : a ∈ (s.ends id status m calls).replies ↔ a ∈ s.replies ∨ a ∈ calls.map (·.2) := by
    simp [EndRun.replies, ends, or_assoc]
  refine ⟨?_, fun u run' => ?_, fun u other mem => ?_, fun k u => ?_, fun u mem => ?_, fun u mem => ?_,
    fun u mem => ?_, ?_, ?_⟩
  · rcases way with ⟨rfl, committed, aborted⟩ | ⟨rfl, committed, aborted⟩
    · have same : (fun u => u ∈ m.aborted ∨ (u, .aborted) ∈ s.marks ++ [(id, .committed)]) =
          fun u => u ∈ s.mgr.aborted ∨ (u, TxnStatus.aborted) ∈ s.marks := by simp [aborted]
      refine (congrArg (Booked m _) same).mpr (inv.toBooked.commit run left nextID fun u => ?_)
      simp only [committed, ends, mem_cons, mem_append, Prod.mk.injEq]
      tauto
    · have same : (fun u => u ∈ m.committed ∨ (u, .committed) ∈ s.marks ++ [(id, .aborted)]) =
          fun u => u ∈ s.mgr.committed ∨ (u, TxnStatus.committed) ∈ s.marks := by simp [committed]
      refine (congrArg (Booked m · _) same).mpr (inv.toBooked.symm.commit run left nextID fun u => ?_).symm
      simp only [aborted, ends, mem_cons, mem_append, Prod.mk.injEq]
      tauto
  · obtain ⟨other, old⟩ := left u run'
    exact (get_set ..).trans ((if_neg other).trans (inv.active u old))
  · rcases mem_append.1 mem with old | new
    · have ne : u ≠ id := by
        rintro rfl
        exact fresh other old
      exact ⟨(get_set ..).trans ((if_neg ne).trans (inv.marked u other old).1), (inv.marked u other old).2⟩
    · obtain ⟨rfl, rfl⟩ := Prod.mk.inj (mem_singleton.1 new)
      exact ⟨(get_set ..).trans (if_pos rfl), way.imp And.left And.left⟩
  · have old := inv.kept k u
    rcases way with ⟨rfl, committed, aborted⟩ | ⟨rfl, committed, aborted⟩ <;>
      simp only [ends, committed, aborted, mem_append, mem_cons, Prod.mk.injEq] <;>
      tauto
  · rcases (replies _).1 mem with old | new
    · exact later u (inv.commits u old)
    · obtain ⟨rfl, rfl⟩ := commits u new
      rcases way with ⟨-, eq, -⟩ | ⟨⟨⟩, -⟩
      exact eq ▸ mem_cons_self
  · rcases (replies _).1 mem with old | new
    · exact mem_append_left _ (inv.aborts u old)
    · obtain ⟨rfl, rfl⟩ := aborts u new
      exact mem_append_right _ mem_cons_self
  · rw [callbacks, mem_append] at mem
    by_cases own : u = id
    · exact ⟨status, mem_append_right _ (own ▸ mem_cons_self)⟩
    · have old : u ∈ s.left ∨ u ∈ s.callbacks.map Callback.txn := by
        rcases mem with mem | mem | mem
        · exact .inl ((mem_cons.1 mem).resolve_left own)
        · exact .inr mem
        · rcases reported with eq | eq <;> simp [eq, own] at mem
      obtain ⟨status, mem⟩ := inv.gone u old
      exact ⟨status, mem_append_left _ mem⟩
  · refine nodup_cons.2 ⟨fun mem => ?_, inv.leftOnce⟩
    obtain ⟨status, mem⟩ := inv.gone id (.inl mem)
    exact fresh status mem
  · rw [callbacks]
    rcases reported with eq | eq <;> rw [eq]
    · rw [append_nil]
      exact inv.reportedOnce
    · refine inv.reportedOnce.append (nodup_singleton _) ?_
      rw [disjoint_singleton]
      intro mem
      obtain ⟨status, mem⟩ := inv.gone id (.inr mem)
      exact fresh status mem

theorem finish {call : Callback × Answer} (mem : call ∈ s.pending) :
    Inv K { s with
      pending := s.pending.erase call, fired := s.fired ++ [call.1], answers := s.answers ++ [call.2] } := by
  have moved {α : Type} (f : Callback × Answer → α) (done : List α) :
      (done ++ [f call] ++ (s.pending.erase call).map f).Perm (done ++ s.pending.map f) := by
    rw [append_assoc]
    exact ((perm_cons_erase mem).map f).symm.append_left done
  have replies := moved (·.2) s.answers
  have callbacks := (moved (·.1) s.fired).map Callback.txn
  exact ⟨inv.toBooked, inv.active, inv.marked, inv.kept, fun id mem => inv.commits id (replies.mem_iff.1 mem),
    fun id mem => inv.aborts id (replies.mem_iff.1 mem),
    fun id mem => inv.gone id (mem.imp_right callbacks.mem_iff.1), inv.leftOnce,
    callbacks.nodup_iff.2 inv.reportedOnce⟩

theorem inlineAbort (id : Nat) : Inv K (s.inlineAbort id) := by
  unfold EndRun.inlineAbort
  split
  · rename_i run
    exact inv.leaves run rfl rfl (.inr ⟨rfl, rfl, rfl⟩) (.inl rfl) (by simp) (by simp)
  · exact inv

theorem reset : Inv K s.reset := by
  have aborted : Inv K (s.mgr.txns.keys.foldl EndRun.inlineAbort s) := by
    generalize s.mgr.txns.keys = ids
    induction ids generalizing s with
    | nil => exact inv
    | cons id ids ih => exact ih (inv.inlineAbort id)
  unfold EndRun.reset
  generalize s.mgr.txns.keys.foldl EndRun.inlineAbort s = s at aborted
  have fresh (u : Nat) (le : u ≤ s.mgr.nextID) : u ≠ s.mgr.nextID + 1 := by omega
  refine ⟨⟨fun u run => ?_, fun u mem => ?_, fun u mem => ?_⟩, aborted.active, aborted.marked,
    fun k u => ⟨fun mem => mem_cons_of_mem _ ((aborted.kept k u).1 mem), (aborted.kept k u).2⟩,
    fun u mem => mem_cons_of_mem _ (aborted.commits u mem), aborted.aborts, aborted.gone, aborted.leftOnce,
    aborted.reportedOnce⟩
  · obtain ⟨pos, le, notC, notA⟩ := aborted.running u run
    refine ⟨pos, Nat.le_succ_of_le le, ?_, notA⟩
    rw [mem_cons, or_assoc]
    exact not_or.2 ⟨fresh u le, notC⟩
  · rw [mem_cons, or_assoc] at mem
    rcases mem with rfl | old
    · exact fun mem => fresh _ (aborted.ended _ (.inr mem)) rfl
    · exact aborted.disjoint u old
  · rw [mem_cons, or_assoc, or_assoc] at mem
    rcases mem with rfl | old
    · exact le_rfl
    · exact Nat.le_succ_of_le (aborted.ended u (or_assoc.2 old))

theorem pruneHistory (pruned : ¬ K) (ok : s.KeepsAnswered .pruneHistory) : Inv K { s with mgr := s.mgr.pruneHistory } :=
  { inv with
    running := fun u run => by
      obtain ⟨pos, le, notC, notA⟩ := inv.running u run
      exact ⟨pos, le, fun mem => notC (mem.imp_left mem_of_mem_filter),
        fun mem => notA (mem.imp_left mem_of_mem_filter)⟩
    disjoint u mem mem' := inv.disjoint u (mem.imp_left mem_of_mem_filter) (mem'.imp_left mem_of_mem_filter)
    ended u mem := inv.ended u (mem.imp (·.imp_left mem_of_mem_filter) (·.imp_left mem_of_mem_filter))
    kept := fun k => absurd k pruned
    commits := fun u mem => by
      have committed := inv.commits u mem
      have kept := ok u committed mem
      exact mem_filter.2 ⟨committed, by simp [kept]⟩ }

/-- The defensive branches are never taken: a transaction in the active map is active. -/
theorem commit (id : Nat) (flushFails : Bool) : Inv K (s.commit id flushFails) := by
  unfold EndRun.commit
  cases found : s.mgr.txns.get id with
  | none =>
    refine inv.reply (fun u eq => ?_) (by simp)
    obtain ⟨rfl, ok⟩ := Answer.commit.inj eq
    unfold commitTerminal at ok
    split at ok
    · cases ok
    split at ok
    · exact contains_iff_mem.1 ‹_›
    · cases ok
  | some txn =>
    have run := active_of_get found
    have logged := s.mgr.sameLists_logAppend (commitRecord id txn.lastWALLSN)
    rw [inv.active id run]
    dsimp only
    split
    · exact inv.leaves run rfl rfl (.inr ⟨rfl, rfl, rfl⟩) (.inr rfl) (by simp) (by simp)
    split
    · have kept := inv.quiet (fun u => (logged.sameTxns.active u).1) logged.committed logged.aborted logged.nextID
      exact kept.reply (by simp) (by simp)
    · refine inv.leaves run (congrArg (·.delete id) logged.txns) logged.nextID
        (.inl ⟨rfl, congrArg (id :: ·) logged.committed, logged.aborted⟩) (.inr rfl) ?_ (by simp)
      simp

theorem abort (id : Nat) : Inv K (s.abort id) := by
  unfold EndRun.abort
  cases found : s.mgr.txns.get id with
  | none => exact inv.reply (by simp) (by simp)
  | some txn =>
    have run := active_of_get found
    rw [inv.active id run]
    exact inv.leaves run rfl rfl (.inr ⟨rfl, rfl, rfl⟩) (.inr rfl) (by simp) (by simp)

theorem next {s' : EndRun} {a : EndAction} (kept : K → s.Unpruned a) (ok : s.KeepsAnswered a)
    (taken : s.next a = some s') : Inv K s' := by
  cases a with
  | begin protocol isoLevel =>
    simp only [EndRun.next, Manager.begin] at taken
    split at taken <;> rename_i eq <;> split at eq <;> cases eq <;> cases taken
    · have logged := { s.mgr with nextID := s.mgr.nextID + 1 }.sameLists_logAppend (beginRecord (s.mgr.nextID + 1))
      exact inv.begin (congrArg (GoMap.set · _ _) logged.txns) logged.committed logged.aborted logged.nextID
    · exact inv
    · contradiction
  | commit id flushFails =>
    cases taken
    exact inv.commit id flushFails
  | abort id =>
    cases taken
    exact inv.abort id
  | finish call =>
    obtain ⟨_, rfl⟩ := of_guard taken
    exact inv.finish ‹_›
  | reset =>
    cases taken
    exact inv.reset
  | pruneHistory =>
    cases taken
    exact inv.pruneHistory kept ok
  | work =>
    cases taken
    exact inv.quiet (fun _ run => run) rfl rfl rfl
  | record txn =>
    simp only [EndRun.next] at taken
    split at taken
    · rename_i old found
      obtain ⟨_, rfl⟩ := of_guard taken
      refine inv.quiet (fun u run => ?_) rfl rfl rfl
      rcases (active_of_set rfl).1 run with rfl | run
      · exact active_of_get found
      · exact run
    · cases taken

end

theorem start (rest : Manager) : Inv K (.start rest) := by
  refine ⟨⟨?_, ?_, ?_⟩, ?_, ?_, ?_, ?_, ?_, ?_, nodup_nil, nodup_nil⟩
  · intro id run
    cases run
  · rintro id - (mem | mem) <;> cases mem
  · rintro id ((mem | mem) | (mem | mem)) <;> cases mem
    · exact Nat.zero_le _
    · contradiction
  · intro id run
    cases run
  all_goals simp [EndRun.start, replies, callbacks]

end Inv

/-- Whatever order the calls come in, each transaction has one outcome. -/
theorem singleOutcome (rest : Manager) (s : EndRun) (reached : Reach next Unpruned (start rest) s) (id : Nat) :
    s.SingleOutcome id := by
  have inv : s.Inv True := reached.invariant (.start rest) fun s a s' inv ok taken => by
    refine inv.next (fun _ => ok) ?_ taken
    cases a <;> first | exact ok.elim | trivial
  refine ⟨nodup_iff_count_le_one.1 inv.leftOnce id, fun status mem => (inv.marked id status mem).1,
    fun mem => ?_, ?_, fun mem => inv.commits id (mem_append_left _ mem)⟩
  · obtain ⟨status, mem⟩ := inv.gone id (.inl mem)
    rcases (inv.marked id status mem).2 with rfl | rfl
    · have committed := (inv.kept trivial id).1 mem
      exact .inl ⟨committed, fun aborted => inv.disjoint id (.inl committed) (.inl aborted)⟩
    · have aborted := (inv.kept trivial id).2 mem
      exact .inr ⟨fun committed => inv.disjoint id (.inl committed) (.inl aborted), aborted⟩
  · -- both callbacks count for the transaction in the list of those reported
    have once := nodup_iff_count_le_one.1 inv.reportedOnce id
    have both (l : List Callback) : l.count (.onCommit id) + l.count (.onAbort id) ≤ (l.map Callback.txn).count id := by
      induction l with
      | nil => simp
      | cons c l ih => cases c <;> simp only [map_cons, count_cons, Callback.txn] <;> grind
    rw [callbacks, map_append, count_append] at once
    have := both s.fired
    omega

/-- One transaction is aborted while its `Commit` waits for the lock, another is reset. -/
theorem singleOutcome_twice : ∃ s, Reach next Unpruned (start {}) s ∧
    (s.mgr.committed, s.mgr.aborted, s.fired) = ([3, 0], [2, 1], [.onAbort 1]) ∧ ∀ id, s.SingleOutcome id := by
  exact Reach.exists_and [.begin .twoPL .repeatableRead, .begin .mvcc .serializable, .abort 1, .commit 1 false, .reset,
      .finish (.onAbort 1, .abort 1 true .ok), .abort 2]
    (by decide) fun s reached _ => singleOutcome {} s reached

/-- While the records of the answered commits are kept, the answers agree. -/
theorem failsClosed_of_keepsAnswered (rest : Manager) (s : EndRun)
    (reached : Reach next KeepsAnswered (start rest) s) : s.FailsClosed := by
  have inv : s.Inv False := reached.invariant (.start rest) fun s a s' inv ok taken => inv.next False.elim ok taken
  have gone {id : Nat} (ended : ¬ s.mgr.Active id) : s.mgr.txns.get id = none := by
    simpa [Active] using ended
  have committed {id : Nat} (mem : .commit id .ok ∈ s.answers) :
      id ∈ s.mgr.committed ∧ id ∉ s.mgr.aborted ∧ s.mgr.txns.get id = none := by
    have committed := inv.commits id (mem_append_left _ mem)
    exact ⟨committed, fun aborted => inv.disjoint id (.inl committed) (.inl aborted),
      gone fun run => (inv.running id run).2.2.1 (.inl committed)⟩
  refine ⟨fun id mem => ?_, fun id flushFails mem => ?_, fun id flushFails mem => ?_⟩
  · obtain ⟨known, -, none⟩ := committed mem
    simp [EndRun.abort, none, EndRun.reply, abortTerminal, known]
  · obtain ⟨known, open', none⟩ := committed mem
    simp [EndRun.commit, none, EndRun.reply, commitTerminal, known, open']
  · have marked := inv.aborts id (mem_append_left _ mem)
    have unknown : id ∉ s.mgr.committed := fun known => inv.disjoint id (.inl known) (.inr marked)
    simp only [EndRun.commit, gone (inv.old marked).1, EndRun.reply, commitTerminal]
    split
    · exact ⟨_, rfl⟩
    · rw [if_neg (by simpa using unknown)]
      exact ⟨_, rfl⟩

/-- A commit and an abort are answered while the history is pruned below them. -/
theorem failsClosed_kept : ∃ s, Reach next KeepsAnswered (start {}) s ∧
    (s.answers, s.mgr.committed) = ([.commit 2 .ok, .abort 1 true .ok], [2]) ∧ s.FailsClosed := by
  exact Reach.exists_and [.begin .twoPL .repeatableRead, .begin .mvcc .serializable, .commit 2 false,
      .finish (.onCommit 2, .commit 2 .ok), .abort 1, .finish (.onAbort 1, .abort 1 true .ok), .pruneHistory]
    (by decide) fun s reached _ => failsClosed_of_keepsAnswered {} s reached

/-- The record of the committed transaction 1 is below the oldest active ID, and `Abort` of it returns nil. -/
theorem not_failsClosed : ¬ ∀ (rest : Manager) (s : EndRun), Reach next AnyStep (start rest) s → s.FailsClosed := by
  intro claim
  obtain ⟨s, reached, answers, after⟩ := exists_such next AnyStep (start {})
    [.begin .twoPL .repeatableRead, .commit 1 false, .finish (.onCommit 1, .commit 1 .ok),
      .begin .twoPL .repeatableRead, .pruneHistory]
    (fun s => s.answers = [.commit 1 .ok] ∧ (s.abort 1).answers = [.commit 1 .ok, .abort 1 false .ok]) (by decide)
  have failed := (claim {} s reached).abort 1 (by simp [answers])
  rw [after, answers] at failed
  cases failed

end EndRun

end TransactionManager.Txn
