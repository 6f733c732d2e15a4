import TransactionManager.Txn.TwoPLLocks

/-!
# Locks and the history of a 2PL run

A running transaction holds a lock on every row it has touched, so of two conflicting
accesses the later one comes after the end of the transaction that made the earlier one.
As in `TwoPLLocks` this speaks of the modes that are `kept`.
-/

namespace TransactionManager.Txn
open Lib Lock List GoMap Option TwoPLRun

/-- The new held set covers what was kept in the old one. -/
def Grows (kept : Mode → Prop) (h h' : HeldSet) : Prop := ∀ row m, kept m → h.get (rowResource row) = some m →
    ∃ m', h'.get (rowResource row) = some m' ∧ (m' = .x ∨ m' = m)

/-- What the history says about the locks. When S locks are kept, everybody takes them. -/
structure HistLocks (kept : Mode → Prop) (s : TwoPLRun) : Prop where
  strict : kept .s → ∀ t txn, s.mgr.txns.get t = some txn → txn.isolation ≠ .readUncommitted
  accessed : ∀ e ∈ s.hist, ∀ t row k, e.access = some (t, row, k) → kept k →
    ∀ txn, s.mgr.txns.get t = some txn → ∃ m, txn.locksHeld.get (rowResource row) = some m ∧ (m = .x ∨ m = k)
  undo : ∀ t txn, s.mgr.txns.get t = some txn → ∀ e ∈ txn.undoLog,
    txn.locksHeld.get (rowResource (e.table, e.key)) = some .x
  rolling : ∀ t txn rest clr position, s.mgr.txns.get t = some txn →
    s.calls.get t = some (.rollback rest clr position) → ∀ e ∈ rest, e ∈ txn.undoLog
  order : ∀ e e' t u row k k', e.access = some (t, row, k) → e'.access = some (u, row, k') → t ≠ u →
    kept k → kept k' → k = .x ∨ k' = .x → Precedes s.hist e e' → t ∈ s.mgr.aborted ∨ Precedes s.hist (.commit t) e'

section
variable {kept : Mode → Prop} {s s' : TwoPLRun} {t : Nat} {txn : Transaction} {o : RowOp} {m m' : Manager}

theorem Grows.refl (h : HeldSet) : Grows kept h h := fun _ m _ get => ⟨m, get, .inr rfl⟩

/-- `AcquireLockCtx` gives up no lock that is kept. -/
theorem grows_acquire {stage : LockStage} (ok : TxnLocks kept s.mgr.queue txn (s.calls.get t))
    (patient : stage = .row → Patient kept s txn o .row) :
    Grows kept txn.locksHeld (acquireLocked (s.mgr.queue (o.resource stage).name) txn.locksHeld txn.id
      (o.resource stage) (o.mode stage) s.nextCh).2.2 := by
  intro row m keep get
  rcases acquireLocked_cases (s.mgr.queue (o.resource stage).name) txn.locksHeld txn.id
    (o.resource stage) (o.mode stage) s.nextCh with ⟨-, -, -, eq⟩ | ⟨q', h, dropped, outcome⟩
  · rw [eq]
    exact ⟨m, get, .inr rfl⟩
  by_cases this : rowResource row = o.resource stage
  · cases stage with
    | table => cases this
    | row =>
      rw [this] at get
      have exclusive := rowMode_of_lt (ok.held o.row _ get).1 o.mode_row (dropped.weaker get)
      rcases outcome with ⟨-, eq⟩ | ⟨-, eq⟩
      · rw [eq, this]
        exact ⟨o.mode .row, by rw [get_set, if_pos rfl], .inl exclusive⟩
      · exact absurd get (patient rfl _ (by rw [eq]) o.row _ rfl keep)
  · have kept' : h.get (rowResource row) = some m := by rwa [dropped.get, if_neg this]
    rcases outcome with ⟨-, eq⟩ | ⟨-, eq⟩
    · rw [eq]
      exact ⟨m, by rwa [get_set, if_neg this], .inr rfl⟩
    · rw [eq]
      exact ⟨m, kept', .inr rfl⟩

/-- Two running transactions do not both hold locks on a row when one lock is X. -/
theorem RunLocks.conflict (locks : RunLocks kept s) (exclusive : kept .x) {u : Nat} {txn' : Transaction}
    {row : RowRef} {k k' m m' : Mode} (found : s.mgr.txns.get t = some txn) (found' : s.mgr.txns.get u = some txn')
    (ne : t ≠ u) (keep : kept k) (keep' : kept k') (one : k = .x ∨ k' = .x)
    (get : txn.locksHeld.get (rowResource row) = some m) (covers : m = .x ∨ m = k)
    (get' : txn'.locksHeld.get (rowResource row) = some m') (covers' : m' = .x ∨ m' = k') : False := by
  obtain ⟨id, ok⟩ := locks.txns t txn found
  obtain ⟨id', ok'⟩ := locks.txns u txn' found'
  have keepM : kept m := by rcases covers with rfl | rfl <;> assumption
  have keepM' : kept m' := by rcases covers' with rfl | rfl <;> assumption
  obtain ⟨e, mem, mine, mode⟩ := (ok.held row m get).2 keepM
  obtain ⟨e', mem', mine', mode'⟩ := (ok'.held row m' get').2 keepM'
  have queue := locks.queues row
  have other : e.txnID ≠ e'.txnID := by
    rw [mine, mine', id, id']
    exact ne
  have compatible := queue.exclusive e mem e' mem' other
  have row' := queue.modes e (mem_append_left _ mem)
  have row'' := queue.modes e' (mem_append_left _ mem')
  have big : e.mode = .x ∨ e'.mode = .x := by
    rcases one with rfl | rfl
    · left
      rcases mode with eq | eq
      · rw [eq]
        exact or_self_iff.1 covers
      · exact eq
    · right
      rcases mode' with eq | eq
      · rw [eq]
        exact or_self_iff.1 covers'
      · exact eq
  revert compatible
  rcases big with eq | eq
  · rw [eq]
    rcases row'' with eq' | eq' <;> rw [eq'] <;> decide
  · rw [eq]
    rcases row' with eq' | eq' <;> rw [eq'] <;> decide

/-- A transaction keeps its locks, and its undo entries are old or about rows that it has X on. -/
def Proceeds (kept : Mode → Prop) (txn txn' : Transaction) : Prop :=
  txn'.isolation = txn.isolation ∧ Grows kept txn.locksHeld txn'.locksHeld ∧
    ∀ e ∈ txn'.undoLog, e ∈ txn.undoLog ∨ txn.locksHeld.get (rowResource (e.table, e.key)) = some .x

/-- Of the records in the map only that of `t` changes. -/
structure RecordStep (kept : Mode → Prop) (t : Nat) (m m' : Manager) : Prop where
  others : ∀ u ≠ t, m'.txns.get u = m.txns.get u
  own : ∀ txn', m'.txns.get t = some txn' → ∃ txn, m.txns.get t = some txn ∧ Proceeds kept txn txn'

theorem Proceeds.refl (txn : Transaction) : Proceeds kept txn txn := ⟨rfl, .refl _, fun _ => .inl⟩

theorem RecordStep.same (txns : m'.txns = m.txns) : RecordStep kept t m m' := by
  constructor <;> rw [txns]
  · exact fun _ _ => rfl
  · exact fun txn found => ⟨txn, found, .refl _⟩

theorem RecordStep.put {txn' : Transaction} (active : m.txns.get t = some txn)
    (txns : m'.txns = m.txns.set t txn') (proceeds : Proceeds kept txn txn') : RecordStep kept t m m' := by
  constructor <;> rw [txns]
  · exact fun u other => by rw [get_set, if_neg other]
  · intro txn'' found
    rw [get_set, if_pos rfl] at found
    cases found
    exact ⟨txn, active, proceeds⟩

theorem RecordStep.out (txns : m'.txns = m.txns.delete t) : RecordStep kept t m m' := by
  constructor <;> rw [txns]
  · exact fun u other => by rw [get_delete, if_neg other]
  · intro txn found
    rw [get_delete, if_pos rfl] at found
    cases found

/-- An access by a running transaction, which has the lock if that is kept. -/
def Locked (kept : Mode → Prop) (s : TwoPLRun) (e : TwoPLEvent) : Prop := ∀ t row k, e.access = some (t, row, k) →
  ∃ txn, s.mgr.txns.get t = some txn ∧ (kept k → ∃ m, txn.locksHeld.get (rowResource row) = some m ∧ (m = .x ∨ m = k))

section
variable (inv : HistLocks kept s) (books : Books s) (locks : RunLocks kept s) (exclusive : kept .x)
  (hist : s'.hist = s.hist ∨ ∃ e, s'.hist = s.hist ++ [e] ∧ Locked kept s e)
  (aborted : ∀ u ∈ s.mgr.aborted, u ∈ s'.mgr.aborted)
include inv books locks exclusive hist aborted

/-- A step with no access or with one under its lock. -/
theorem HistLocks.change (txns : ∀ u txn', s'.mgr.txns.get u = some txn' →
      (∃ txn, s.mgr.txns.get u = some txn ∧ Proceeds kept txn txn') ∨
      s.mgr.nextID < u ∧ (kept .s → txn'.isolation ≠ .readUncommitted) ∧ txn'.undoLog = [])
    (rolling : ∀ u txn rest clr position, s'.mgr.txns.get u = some txn →
      s'.calls.get u = some (.rollback rest clr position) → ∀ e ∈ rest, e ∈ txn.undoLog) :
    HistLocks kept s' := by
  have prior {e : TwoPLEvent} (mem : e ∈ s'.hist) : e ∈ s.hist ∨ Locked kept s e := by
    rcases hist with same | ⟨last, new, locked⟩
    · exact .inl (same ▸ mem)
    · rw [new, mem_append, mem_singleton] at mem
      rcases mem with old | rfl
      · exact .inl old
      · exact .inr locked
  refine ⟨?_, ?_, ?_, rolling, ?_⟩
  · intro keep u txn' found
    rcases txns u txn' found with ⟨txn, old, same, -⟩ | ⟨-, level, -⟩
    · exact same ▸ inv.strict keep u txn old
    · exact level keep
  · intro e mem u row k access keep txn' found
    rcases txns u txn' found with ⟨txn, old, -, grows, -⟩ | ⟨new, -⟩
    · have holds : ∃ m, txn.locksHeld.get (rowResource row) = some m ∧ (m = .x ∨ m = k) := by
        rcases prior mem with mem | locked
        · exact inv.accessed e mem u row k access keep txn old
        · obtain ⟨txn₀, found₀, holds⟩ := locked u row k access
          obtain rfl : txn₀ = txn := some_injective _ (found₀.symm.trans old)
          exact holds keep
      obtain ⟨m, get, covers⟩ := holds
      have keep' : kept m := by rcases covers with rfl | rfl <;> assumption
      obtain ⟨m', get', covers'⟩ := grows row m keep' get
      refine ⟨m', get', ?_⟩
      rcases covers' with rfl | rfl
      · exact .inl rfl
      · exact covers
    · have known : u ≤ s.mgr.nextID := by
        rcases prior mem with mem | locked
        · rcases books.fate e mem u row k access with run | ended
          · exact (books.running u run).2.1
          · exact books.ended u ended
        · obtain ⟨txn₀, found₀, -⟩ := locked u row k access
          exact (books.running u (active_of_get found₀)).2.1
      omega
  · intro u txn' found e mem
    rcases txns u txn' found with ⟨txn, old, -, grows, sub⟩ | ⟨-, -, empty⟩
    · have held := (sub e mem).elim (inv.undo u txn old e) id
      obtain ⟨m', get', covers⟩ := grows _ _ exclusive held
      rcases covers with rfl | rfl <;> exact get'
    · rw [empty] at mem
      cases mem
  · intro e e' u v row k k' access access' ne keep keep' conflict precedes
    have order := inv.order e e' u v row k k' access access' ne keep keep' conflict
    rcases hist with same | ⟨last, new, locked⟩
    · rw [same] at precedes ⊢
      exact (order precedes).imp_left (aborted u)
    rw [new, precedes_append_singleton] at precedes ⊢
    rcases precedes with old | ⟨mem, rfl⟩
    · exact (order old).imp (aborted u) .inl
    rcases books.fate e mem u row k access with run | committed | gone
    · obtain ⟨txn, found⟩ := isSome_iff_exists.1 run
      obtain ⟨m, get, covers⟩ := inv.accessed e mem u row k access keep txn found
      obtain ⟨txn', found', holds⟩ := locked v row k' access'
      obtain ⟨m', get', covers'⟩ := holds keep'
      exact (locks.conflict exclusive found found' ne keep keep' conflict get covers get' covers').elim
    · exact .inr (.inr ⟨(books.commits u).2 committed, rfl⟩)
    · exact .inl (aborted u gone)

theorem HistLocks.moved {y : Option TwoPLCall} (record : RecordStep kept t s.mgr s'.mgr)
    (calls : ∀ u, s'.calls.get u = if u = t then y else s.calls.get u)
    (rolling : ∀ txn rest clr position, s'.mgr.txns.get t = some txn →
      y = some (.rollback rest clr position) → ∀ e ∈ rest, e ∈ txn.undoLog) :
    HistLocks kept s' := by
  refine inv.change books locks exclusive hist aborted ?_ ?_
  · intro u txn' found
    by_cases same : u = t
    · subst same
      exact .inl (record.own txn' found)
    · rw [record.others u same] at found
      exact .inl ⟨txn', found, .refl _⟩
  · intro u txn rest clr position found at'
    rw [calls] at at'
    split at at'
    · rename_i same
      subst same
      exact rolling txn rest clr position found at'
    · rename_i other
      rw [record.others u other] at found
      exact inv.rolling u txn rest clr position found at'

end

section
variable (inv : HistLocks kept s) (books : Books s) (locks : RunLocks kept s) (exclusive : kept .x)
include inv books locks exclusive

theorem HistLocks.begun {isoLevel : IsolationLevel} (begun : s.mgr.Begun isoLevel m)
    (level : kept .s → isoLevel ≠ .readUncommitted) : HistLocks kept (s.setMgr m) := by
  obtain ⟨last, txns⟩ := begun.txns
  have prior {u : Nat} {txn : Transaction} (found : m.txns.get u = some txn) :
      u = s.mgr.nextID + 1 ∧ txn = _ ∨ u ≠ s.mgr.nextID + 1 ∧ s.mgr.txns.get u = some txn := of_get_set (txns ▸ found)
  refine inv.change books locks exclusive (.inl rfl) (TwoPLStep.begun begun).aborted_sub ?_ ?_
  · intro u txn' found
    rcases prior found with ⟨rfl, rfl⟩ | ⟨-, old⟩
    · exact .inr ⟨by omega, level, rfl⟩
    · exact .inl ⟨txn', old, .refl _⟩
  · intro u txn rest clr position found at'
    rcases prior found with ⟨rfl, -⟩ | ⟨-, old⟩
    · have := (books.calls _ _ at').1
      omega
    · exact inv.rolling u txn rest clr position old at'

section
variable (active : s.mgr.txns.get t = some txn)
include active

theorem HistLocks.acquire {stage : LockStage} (here : s.calls.get t = some (.acquire o stage))
    (patient : stage = .row → Patient kept s txn o .row) : HistLocks kept (s.acquire txn o stage) := by
  obtain ⟨rfl, ok⟩ := locks.txns t txn active
  have kept' := (TwoPLStep.acquire active here).aborted_sub
  obtain ⟨call, place, eq⟩ := @TwoPLRun.acquire_eq s txn o stage
  rw [eq] at kept' ⊢
  refine inv.moved books locks exclusive (.inl rfl) kept'
    (.put active rfl ⟨rfl, grows_acquire ok patient, fun _ => .inl⟩) get_goto ?_
  rintro _ _ _ _ _ ⟨⟩
  rcases place with eq | eq | eq <;> cases eq

theorem HistLocks.granted {stage : LockStage} {ch : Nat} (here : s.calls.get t = some (.waiting o stage ch)) :
    HistLocks kept ((s.setMgr (s.mgr.putTxn { txn with
      locksHeld := txn.locksHeld.set (o.resource stage) (o.mode stage) })).goto t (some (locked o stage))) := by
  obtain ⟨rfl, ok⟩ := locks.txns t txn active
  rw [here] at ok
  refine inv.moved books locks exclusive (.inl rfl) (fun _ => id)
    (.put active rfl ⟨rfl, fun row m keep get => ?_, fun _ => .inl⟩) get_goto ?_
  · by_cases this : rowResource row = o.resource stage
    · cases stage with
      | table => cases this
      | row =>
        have name : (rowResource row).name = (rowResource o.row).name := congrArg _ this
        exact absurd get ((ok.waiting o ch rfl).2 row m name keep)
    · exact ⟨m, by rwa [get_set, if_neg this], .inr rfl⟩
  · intro _ rest clr position _ eq
    cases stage <;> cases eq

theorem HistLocks.wrote {row : RowRef} {values : Types.RowData} {op : UndoOpType}
    (here : s.calls.get t = some (.body (.write row values op))) (written : s.mgr.TwoPLWritten txn row values op m) :
    HistLocks kept (((s.setMgr m).record (.write t row op values)).goto t none) := by
  obtain ⟨rfl, ok⟩ := locks.txns t txn active
  obtain ⟨last, before, txns⟩ := written.txns
  obtain ⟨k, get, covers⟩ := ok.body (.write row values op) here (.inr rfl)
  refine inv.moved books locks exclusive (.inr ⟨_, rfl, ?_⟩) (TwoPLStep.wrote active here written).aborted_sub
    (.put active txns ⟨rfl, .refl _, fun e mem => (mem_append.1 mem).imp_right fun added => ?_⟩) get_goto nofun
  · rintro _ _ _ ⟨⟩
    exact ⟨txn, active, fun _ => ⟨k, get, covers⟩⟩
  · rw [mem_singleton.1 added]
    exact (or_self_iff.1 covers) ▸ get

end

theorem HistLocks.undid {lastCLR position : Nat} {e : UndoEntry} {more : List UndoEntry}
    (here : s.calls.get t = some (.rollback (e :: more) lastCLR position)) :
    HistLocks kept (((s.setMgr (s.mgr.undoEntry t e more lastCLR).2).record (.undo t (e.table, e.key))).goto t
      (some (.rollback more (s.mgr.undoEntry t e more lastCLR).1 position))) := by
  have same := (s.mgr.undoEntry_spec t e more lastCLR).1
  have run : s.mgr.Active t := by
    by_contra done
    exact (books.calls t _ here).2.2 done
  obtain ⟨txn, active⟩ := isSome_iff_exists.1 run
  have rest := inv.rolling t txn _ _ _ active here
  refine inv.moved books locks exclusive (.inr ⟨_, rfl, ?_⟩) (TwoPLStep.undid here).aborted_sub (.same same.txns) get_goto ?_
  · rintro _ _ _ ⟨⟩
    exact ⟨txn, active, fun _ => ⟨_, inv.undo t txn active e (rest e mem_cons_self), .inl rfl⟩⟩
  · intro txn' rest' clr position' found eq e' mem
    cases eq
    have old : s.mgr.txns.get t = some txn' := same.txns ▸ found
    obtain rfl : txn' = txn := some_injective _ (old.symm.trans active)
    exact rest e' (mem_cons_of_mem _ mem)

/-- Every step keeps the tie between history and locks. -/
theorem HistLocks.step {a : TwoPLAction} (step : TwoPLStep s a s')
    (level : ∀ isoLevel, a = .begin isoLevel → kept .s → isoLevel ≠ .readUncommitted)
    (patient : ∀ t txn o, a = .acquire t → s.mgr.txns.get t = some txn →
      s.calls.get t = some (.acquire o .row) → Patient kept s txn o .row) : HistLocks kept s' := by
  have kept' := step.aborted_sub
  cases step with
  | refused => exact inv
  | begun begun => exact inv.begun books locks exclusive begun (level _ rfl)
  | acquire active here =>
    refine inv.acquire books locks exclusive active here ?_
    rintro rfl
    exact patient _ _ _ rfl active here
  | granted active here => exact inv.granted books locks exclusive active here
  | @read t txn row active here =>
    obtain ⟨-, ok⟩ := locks.txns t txn active
    refine inv.moved books locks exclusive (.inr ⟨_, rfl, ?_⟩) kept' (.same rfl) get_goto nofun
    rintro _ _ _ ⟨⟩
    exact ⟨txn, active, fun keep => ok.body (.read row) here (.inl (inv.strict keep t txn active))⟩
  | wrote active here written => exact inv.wrote books locks exclusive active here written
  | @savepoint t txn name active idle =>
    obtain rfl := locks.ids t txn active
    exact inv.moved (y := none) books locks exclusive (.inl rfl) kept' (.put active rfl (.refl _)) (get_of_eq idle) nofun
  | @rollback _ txn _ _ active =>
    refine inv.moved books locks exclusive (.inl rfl) kept' (.same rfl) get_goto ?_
    intro txn' rest clr position found' eq e mem
    cases eq
    obtain rfl : txn' = txn := some_injective _ (found'.symm.trans active)
    exact mem_of_mem_drop (mem_reverse.1 mem)
  | undid here => exact inv.undid books locks exclusive here
  | @rolledBack t txn _ _ active =>
    obtain rfl := locks.ids t txn active
    exact inv.moved books locks exclusive (.inr ⟨_, rfl, nofun⟩) kept'
      (.put active rfl ⟨rfl, .refl _, fun e mem => .inl (mem_of_mem_take mem)⟩) get_goto nofun
  | undidAborted =>
    exact inv.moved books locks exclusive (.inl rfl) kept' (.same (s.mgr.undoEntry_spec ..).1.txns) get_goto nofun
  | @commit t txn =>
    have same := s.mgr.sameBooks_logAppend (Wal.commitRecord t txn.lastWALLSN)
    exact inv.moved books locks exclusive (.inr ⟨_, rfl, nofun⟩) kept' (.out (congrArg (·.delete t) same.txns)) get_goto nofun
  | abort => exact inv.moved books locks exclusive (.inr ⟨_, rfl, nofun⟩) kept' (.out rfl) get_goto nofun
  | release _ released =>
    exact inv.moved books locks exclusive (.inl rfl) kept' (.same (SameLists.of_released released).txns) get_goto nofun
  | finish _ logged =>
    exact inv.moved books locks exclusive (.inl rfl) kept' (.same (SameLists.of_logged logged).txns) get_goto nofun
  | _ => exact inv.moved books locks exclusive (.inl rfl) kept' (.same rfl) get_goto nofun

end

/-- An X lock is always kept: its owner never has to wait in its queue. -/
theorem RunLocks.patient_exclusive (locks : RunLocks (· = .x) s)
    (active : s.mgr.txns.get t = some txn) : Patient (· = .x) s txn o .row := by
  intro conflictors waits row m name exclusive get
  subst exclusive
  obtain ⟨-, ok⟩ := locks.txns t txn active
  obtain ⟨e, mem, mine, mode⟩ := (ok.held row .x get).2 rfl
  rw [name] at mem
  have mode : e.mode = .x := or_self_iff.1 mode
  have queue := locks.queues o.row
  -- so nobody else has a grant there
  have alone (g : Request) (inside : g ∈ (s.mgr.queue (rowResource o.row).name).granted) : g.txnID = txn.id := by
    by_contra other
    have compatible := queue.exclusive e mem g inside (by rw [mine]; exact fun eq => other eq.symm)
    rw [mode] at compatible
    have row' := queue.modes g (mem_append_left _ inside)
    revert compatible
    rcases row' with eq | eq <;> rw [eq] <;> decide
  have can : (s.mgr.queue (rowResource o.row).name).canGrant (o.mode .row) txn.id = true := by
    apply all_eq_true.2
    intro g inside
    simp [alone g inside]
  rcases acquireLocked_cases (s.mgr.queue (o.resource .row).name) txn.locksHeld txn.id
    (o.resource .row) (o.mode .row) s.nextCh with ⟨-, -, -, eq⟩ | ⟨q', h, dropped, ⟨-, eq⟩ | ⟨cannot, -⟩⟩
  · rw [eq] at waits
    cases waits
  · rw [eq] at waits
    cases waits
  · rw [dropped.canGrant, o.resource_row, can] at cannot
    cases cannot

end

structure TwoPLInv (kept : Mode → Prop) (s : TwoPLRun) : Prop where
  books : Books s
  locks : RunLocks kept s
  hist : HistLocks kept s

theorem TwoPLInv.start (kept : Mode → Prop) (seed : Storage.Catalog) (maxActive : Nat)
    (wal : Option Wal.Log) : TwoPLInv kept (.start seed maxActive wal) := by
  have noTxn (t : Nat) (txn : Transaction) : (TwoPLRun.start seed maxActive wal).mgr.txns.get t ≠ some txn := by
    intro found
    cases found
  have idle (t : Nat) : ¬ (TwoPLRun.start seed maxActive wal).mgr.Active t := by
    intro run
    cases run
  have noCall (t : Nat) (call : TwoPLCall) : (TwoPLRun.start seed maxActive wal).calls.get t ≠ some call := by
    intro found
    cases found
  have noEvent (e e' : TwoPLEvent) : ¬ Precedes (TwoPLRun.start seed maxActive wal).hist e e' := not_precedes_nil
  refine ⟨⟨⟨fun t run => absurd run (idle t), ?_, ?_⟩, fun t call found => absurd found (noCall t call),
      ?_, fun t => Nat.zero_le _, ?_, fun e t _ _ _ => noEvent _ e⟩,
    ⟨fun row => ⟨?_, ?_⟩, ?_, fun t _ _ _ found => absurd found (noCall t _),
      fun t txn found => absurd found (noTxn t txn)⟩,
    ⟨fun _ t txn found => absurd found (noTxn t txn), ?_, fun t txn found => absurd found (noTxn t txn),
      fun t txn _ _ _ found => absurd found (noTxn t txn),
      fun e e' _ _ _ _ _ _ _ _ _ _ _ precedes => absurd precedes (noEvent e e')⟩⟩
  · nofun
  · rintro t (mem | mem) <;> cases mem
  · intro t
    constructor <;> intro mem <;> cases mem
  · nofun
  · nofun
  · nofun
  · nofun
  · nofun

theorem TwoPLInv.step {kept : Mode → Prop} {s s' : TwoPLRun} {a : TwoPLAction}
    (inv : TwoPLInv kept s) (exclusive : kept .x) (taken : s.next a = some s')
    (level : ∀ isoLevel, a = .begin isoLevel → kept .s → isoLevel ≠ .readUncommitted)
    (patient : ∀ t txn o, a = .acquire t → s.mgr.txns.get t = some txn →
      s.calls.get t = some (.acquire o .row) → Patient kept s txn o .row) : TwoPLInv kept s' where
  books := inv.books.step inv.locks.ids (next_step taken)
  locks := inv.locks.step inv.books (next_step taken) patient
  hist := inv.hist.step inv.books inv.locks exclusive (next_step taken) level patient

end TransactionManager.Txn
