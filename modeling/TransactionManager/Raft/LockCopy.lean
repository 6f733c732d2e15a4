import TransactionManager.Raft.Fsm
import TransactionManager.Txn.TwoPLStep

/-!
# The locks of two replicas

The calls of the FSM take IX on tables and X on rows. A replica that serves reads has grants of reads and
scans beside them, in its lock queues and in the held sets of the transactions. `QueueCopy` and `HeldCopy`
relate the locks of a replica without reads to those of one with reads. A request of the FSM has the same
answer on both as long as nobody else holds the table or the row in S.
-/

namespace TransactionManager.Lock
open Lib List Option Queue Bool

/-- The modes in which writes lock. -/
def Mode.isWrite : Mode → Bool
  | .ix | .x => true
  | _ => false

/-- The modes in which reads, scans and writes lock a resource. -/
def Mode.For : Mode → ResourceID → Prop
  | mode, .table _ => mode = .is ∨ mode = .ix ∨ mode = .s
  | mode, .row _ _ => mode = .s ∨ mode = .x
  | mode, .gap _ _ _ => mode = .s

def ResourceID.isRow : ResourceID → Bool
  | .row _ _ => true
  | _ => false

/-- Lock names tell tables, rows and gaps apart. -/
theorem Mode.For.of_name {mode : Mode} {r r' : ResourceID} (fits : mode.For r) (name : r'.name = r.name) :
    mode.For r' := by
  cases r <;> cases r' <;> first | exact fits | simp [ResourceID.name] at name

theorem ResourceID.isRow_of_name {r r' : ResourceID} (name : r'.name = r.name) : r'.isRow = r.isRow := by
  cases r <;> cases r' <;> first | rfl | simp [ResourceID.name] at name

/-- No one waits, the grants have modes of the resource, and those of different transactions are compatible. -/
structure Queue.Orderly (r : ResourceID) (q : Queue) : Prop where
  idle : q.waiting = []
  modes : ∀ g ∈ q.granted, g.mode.For r
  compatible : ∀ g ∈ q.granted, ∀ h ∈ q.granted, g.txnID ≠ h.txnID → lockCompatible g.mode h.mode = true

/-- A queue of a replica without reads and the same queue where reads are served. Tables are locked by intent
only where there are no scans, so who holds them matters to nobody. -/
structure QueueCopy (r : ResourceID) (q q' : Queue) : Prop where
  fst : q.Orderly r
  snd : q'.Orderly r
  writes : ∀ g ∈ q.granted, g.mode.isWrite = true
  writers : r.isRow = true → ∀ t, (∃ g ∈ q.granted, g.txnID = t) ↔ ∃ g ∈ q'.granted, g.txnID = t ∧ g.mode.isWrite = true

theorem QueueCopy.of_name {r r' : ResourceID} {q q' : Queue} (copy : QueueCopy r q q') (name : r'.name = r.name) :
    QueueCopy r' q q' where
  fst := { copy.fst with modes := fun g mem => (copy.fst.modes g mem).of_name name }
  snd := { copy.snd with modes := fun g mem => (copy.snd.modes g mem).of_name name }
  writes := copy.writes
  writers row := copy.writers (ResourceID.isRow_of_name name ▸ row)

theorem QueueCopy.empty (r : ResourceID) : QueueCopy r {} {} := by
  have orderly : Orderly r {} := ⟨rfl, nofun, nofun⟩
  exact ⟨orderly, orderly, nofun, fun _ t => ⟨nofun, nofun⟩⟩

/-- The row locks a transaction holds without its reads, and with them. -/
structure HeldCopy (held held' : HeldSet) : Prop where
  writes : ∀ r : ResourceID, r.isRow = true → held.get r = (held'.get r).filter Mode.isWrite
  modes : ∀ r mode, held'.get r = some mode → mode.For r

/-- `acquireAlone` does nothing when the transaction holds enough; otherwise its old grant goes, and the request is
granted, or given up with all of the transaction's grants. -/
theorem acquireAlone_cases {q : Queue} (idle : q.waiting = []) (held : HeldSet) (t : Nat) (r : ResourceID)
    (mode : Mode) :
    (∃ existing, held.get r = some existing ∧ lockStrength mode ≤ lockStrength existing ∧
        acquireAlone q held t r mode = (true, q, held)) ∨
      (∀ existing, held.get r = some existing → lockStrength existing < lockStrength mode) ∧
      ∃ held' : HeldSet, (∀ r', r' ≠ r → held'.get r' = held.get r') ∧ ((∃ rest, (rest = q.granted ∧ held.get r = none ∨
              rest = (q.granted.filter fun g => g.txnID != t) ∧ held.get r ≠ none) ∧
            q.canGrant mode t = true ∧ held'.get r = some mode ∧
            acquireAlone q held t r mode = (true, ⟨rest ++ [⟨t, mode, .granted, 0⟩], []⟩, held')) ∨
          q.canGrant mode t = false ∧ held'.get r = none ∧
            acquireAlone q held t r mode = (false, ⟨q.granted.filter fun g => g.txnID != t, []⟩, held')) := by
  unfold acquireAlone
  rcases acquireLocked_cases q held t r mode 0 with
    ⟨existing, get, enough, eq⟩ | ⟨q', held', dropped, granted | waiting⟩
  · rw [eq]
    exact .inl ⟨existing, get, enough, rfl⟩
  · obtain ⟨can, eq⟩ := granted
    rw [eq]
    refine .inr ⟨fun _ => dropped.weaker, held'.set r mode, fun r' ne => ?_,
      .inl ⟨q'.granted, ?_, dropped.canGrant ▸ can, ?_, ?_⟩⟩
    · rw [GoMap.get_set, if_neg ne, dropped.get, if_neg ne]
    · rcases dropped with ⟨rfl, none, -⟩ | ⟨rfl, ⟨weaker, get, -⟩, -⟩
      · exact .inl ⟨rfl, none⟩
      · exact .inr ⟨rfl, by rw [get]; exact some_ne_none _⟩
    · rw [GoMap.get_set, if_pos rfl]
    · rw [addGranted, dropped.waiting, idle]
  · obtain ⟨cannot, eq⟩ := waiting
    rw [eq]
    refine .inr ⟨fun _ => dropped.weaker, held', fun r' ne => ?_, .inr ⟨dropped.canGrant ▸ cannot, ?_, ?_⟩⟩
    · rw [dropped.get, if_neg ne]
    · rw [dropped.get, if_pos rfl]
    · rcases dropped with ⟨rfl, -, -⟩ | ⟨rfl, -, -⟩ <;>
        simp [giveUpLocked, addWaiting, removeWaiting, removeGranted, grantWaiters, newlyGranted, grantable, idle]

section Modes
variable {r : ResourceID} {mode existing : Mode}

/-- On a row, only a write lock is enough for a write. -/
theorem Mode.For.isWrite_of_le (fits : mode.For r) (write : mode.isWrite = true) (fits' : existing.For r)
    (row : r.isRow = true) (enough : lockStrength mode ≤ lockStrength existing) : existing.isWrite = true := by
  revert write enough
  cases r with
  | row => rcases fits with rfl | rfl <;> rcases fits' with rfl | rfl <;> decide
  | table | gap => cases row

/-- On a row, the read lock is the weakest. -/
theorem Mode.For.le_of_read (fits : mode.For r) (read : mode.isWrite = false) (fits' : existing.For r)
    (row : r.isRow = true) : lockStrength mode ≤ lockStrength existing := by
  revert read
  cases r with
  | row => rcases fits with rfl | rfl <;> rcases fits' with rfl | rfl <;> decide
  | table | gap => cases row

end Modes

section Queues
variable {r : ResourceID} {q q' : Queue} {t : Nat} {mode : Mode}

theorem Queue.canGrant_iff : q.canGrant mode t = true ↔
    ∀ g ∈ q.granted, g.txnID = t ∨ lockCompatible mode g.mode = true := by
  simp [canGrant]

theorem Queue.Orderly.drop (orderly : q.Orderly r) (t : Nat) :
    Orderly r ⟨q.granted.filter fun g => g.txnID != t, []⟩ where
  idle := rfl
  modes g mem := orderly.modes g (mem_filter.1 mem).1
  compatible g mem h there := orderly.compatible g (mem_filter.1 mem).1 h (mem_filter.1 there).1

theorem Queue.Orderly.grant (orderly : q.Orderly r) (fits : mode.For r) (can : q.canGrant mode t = true)
    {rest : List Request} (old : ∀ g ∈ rest, g ∈ q.granted) :
    Orderly r ⟨rest ++ [⟨t, mode, .granted, 0⟩], []⟩ := by
  have free := canGrant_iff.1 can
  refine ⟨rfl, fun g mem => ?_, fun g mem h there other => ?_⟩
  · rcases mem_append.1 mem with before | new
    · exact orderly.modes g (old g before)
    · rw [mem_singleton.1 new]
      exact fits
  · rcases mem_append.1 mem with before | new <;> rcases mem_append.1 there with before' | new'
    · exact orderly.compatible g (old g before) h (old h before') other
    · rw [mem_singleton.1 new'] at other ⊢
      rw [lockCompatible_comm]
      exact (free g (old g before)).resolve_left other
    · rw [mem_singleton.1 new] at other ⊢
      exact (free h (old h before')).resolve_left other.symm
    · rw [mem_singleton.1 new, mem_singleton.1 new'] at other
      exact absurd rfl other

theorem Queue.Orderly.canGrant_x (orderly : q.Orderly r) (row : r.isRow = true) :
    q.canGrant .x t = true ↔ ∀ g ∈ q.granted, g.txnID = t := by
  rw [canGrant_iff]
  refine forall₂_congr fun g mem => or_iff_left ?_
  have fits := orderly.modes g mem
  cases r with
  | row => rcases fits with eq | eq <;> rw [eq] <;> decide
  | table | gap => cases row

namespace QueueCopy

theorem drop (copy : QueueCopy r q q') (t : Nat) :
    QueueCopy r ⟨q.granted.filter fun g => g.txnID != t, []⟩ ⟨q'.granted.filter fun g => g.txnID != t, []⟩ := by
  refine ⟨copy.fst.drop t, copy.snd.drop t, fun g mem => copy.writes g (mem_filter.1 mem).1, fun row u => ?_⟩
  simp only [mem_filter, bne_iff_ne]
  constructor
  · rintro ⟨g, ⟨mem, other⟩, rfl⟩
    obtain ⟨g', mem', same, write⟩ := (copy.writers row g.txnID).1 ⟨g, mem, rfl⟩
    exact ⟨g', ⟨mem', same ▸ other⟩, same, write⟩
  · rintro ⟨g', ⟨mem', other⟩, rfl, write⟩
    obtain ⟨g, mem, same⟩ := (copy.writers row g'.txnID).2 ⟨g', mem', rfl, write⟩
    exact ⟨g, ⟨mem, same ▸ other⟩, same⟩

/-- The side that serves reads drops grants of a transaction that has no write lock on the row. -/
theorem dropRead (copy : QueueCopy r q q') (none : r.isRow = true → ∀ g ∈ q.granted, g.txnID ≠ t) :
    QueueCopy r q ⟨q'.granted.filter fun g => g.txnID != t, []⟩ := by
  refine ⟨copy.fst, copy.snd.drop t, copy.writes, fun row u => (copy.writers row u).trans ?_⟩
  simp only [mem_filter, bne_iff_ne]
  constructor
  · rintro ⟨g', mem', rfl, write⟩
    obtain ⟨g, mem, same⟩ := (copy.writers row g'.txnID).2 ⟨g', mem', rfl, write⟩
    exact ⟨g', ⟨mem', same ▸ none row g mem⟩, rfl, write⟩
  · rintro ⟨g', ⟨mem', -⟩, same, write⟩
    exact ⟨g', mem', same, write⟩

theorem of_not_row {p p' : Queue} (other : r.isRow = false) (fst : p.Orderly r) (snd : p'.Orderly r)
    (writes : ∀ g ∈ p.granted, g.mode.isWrite = true) : QueueCopy r p p' :=
  ⟨fst, snd, writes, fun row => absurd (other.symm.trans row) false_ne_true⟩

end QueueCopy

/-- What is left of the grants when a request is granted. -/
def Rest (t : Nat) (l rest : List Request) : Prop := rest = l ∨ rest = l.filter fun g => g.txnID != t

namespace Rest
variable {l rest : List Request} {g : Request}

theorem old (left : Rest t l rest) (mem : g ∈ rest) : g ∈ l := by
  rcases left with rfl | rfl
  · exact mem
  · exact (mem_filter.1 mem).1

theorem kept (left : Rest t l rest) (mem : g ∈ l) (other : g.txnID ≠ t) : g ∈ rest := by
  rcases left with rfl | rfl
  · exact mem
  · exact mem_filter.2 ⟨mem, bne_iff_ne.2 other⟩

theorem writes (left : Rest t l rest) (writes : ∀ g ∈ l, g.mode.isWrite = true) (write : mode.isWrite = true) :
    ∀ g ∈ rest ++ [⟨t, mode, .granted, 0⟩], g.mode.isWrite = true := by
  intro g mem
  rcases mem_append.1 mem with before | new
  · exact writes g (left.old before)
  · rw [mem_singleton.1 new]
    exact write

end Rest

namespace QueueCopy

section
variable (copy : QueueCopy r q q')
include copy

theorem grant (fits : mode.For r) (write : mode.isWrite = true)
    (can : q.canGrant mode t = true) (can' : q'.canGrant mode t = true) {rest rest' : List Request}
    (left : Rest t q.granted rest) (left' : Rest t q'.granted rest') :
    QueueCopy r ⟨rest ++ [⟨t, mode, .granted, 0⟩], []⟩ ⟨rest' ++ [⟨t, mode, .granted, 0⟩], []⟩ := by
  refine ⟨copy.fst.grant fits can fun _ => left.old, copy.snd.grant fits can' fun _ => left'.old,
    left.writes copy.writes write, fun row u => ?_⟩
  by_cases own : u = t
  · subst own
    exact ⟨fun _ => ⟨_, mem_append_right _ mem_cons_self, rfl, write⟩,
      fun _ => ⟨_, mem_append_right _ mem_cons_self, rfl⟩⟩
  · constructor
    · rintro ⟨g, mem, rfl⟩
      rcases mem_append.1 mem with before | new
      · obtain ⟨g', mem', same, write⟩ := (copy.writers row g.txnID).1 ⟨g, left.old before, rfl⟩
        exact ⟨g', mem_append_left _ (left'.kept mem' (same ▸ own)), same, write⟩
      · exact absurd (congrArg Request.txnID (mem_singleton.1 new)) own
    · rintro ⟨g', mem', rfl, write⟩
      rcases mem_append.1 mem' with before | new
      · obtain ⟨g, mem, same⟩ := (copy.writers row g'.txnID).2 ⟨g', left'.old before, rfl, write⟩
        exact ⟨g, mem_append_left _ (left.kept mem (same ▸ own)), same⟩
      · exact absurd (congrArg Request.txnID (mem_singleton.1 new)) own

theorem read (fits : mode.For r) (read : mode.isWrite = false)
    (can : q'.canGrant mode t = true) : QueueCopy r q ⟨q'.granted ++ [⟨t, mode, .granted, 0⟩], []⟩ := by
  refine ⟨copy.fst, copy.snd.grant fits can fun g mem => mem, copy.writes, fun row u => (copy.writers row u).trans ?_⟩
  constructor
  · rintro ⟨g, mem, same, write⟩
    exact ⟨g, mem_append_left _ mem, same, write⟩
  · rintro ⟨g, mem, same, write⟩
    rcases mem_append.1 mem with before | new
    · exact ⟨g, before, same, write⟩
    · rw [mem_singleton.1 new] at write
      exact absurd (read.symm.trans write) false_ne_true

/-- A read lock on a row that is refused: a writer has the row, so the reader has no write lock on it. -/
theorem refused (cannot : q'.canGrant mode t = false) (row : r.isRow = true) : ∀ g ∈ q.granted, g.txnID ≠ t := by
  intro g mem own
  obtain ⟨g', mem', same, write⟩ := (copy.writers row g.txnID).1 ⟨g, mem, rfl⟩
  refine absurd (canGrant_iff.2 fun h there => ?_) (not_eq_true _ ▸ cannot)
  by_cases mine : h.txnID = t
  · exact .inl mine
  have shares := copy.snd.compatible g' mem' h there fun eq => mine (by rw [← eq, same, own])
  have fits' := copy.snd.modes g' mem'
  cases r with
  | row =>
    -- the reader's own X is compatible with nothing on the row
    rcases fits' with eq | eq
    · rw [eq] at write
      cases write
    · rw [eq] at shares
      rcases copy.snd.modes h there with eq' | eq' <;> rw [eq'] at shares <;> cases shares
  | table | gap => cases row

/-- Where there are no scans, a table can always be locked for writing. -/
theorem canGrant_table (fits : mode.For r) (write : mode.isWrite = true)
    (table : r.isRow = false) : q.canGrant mode t = true := by
  rw [canGrant_iff]
  intro g mem
  have fits' := copy.fst.modes g mem
  have write' := copy.writes g mem
  right
  revert write write'
  cases r with
  | table => rcases fits with rfl | rfl | rfl <;> rcases fits' with eq | eq | eq <;> rw [eq] <;> decide
  | row => cases table
  | gap =>
    cases fits
    nofun

/-- A write lock can be granted on both sides or on none, when no one else has an S lock in its way. -/
theorem canGrant_eq (fits : mode.For r) (write : mode.isWrite = true)
    (unread : ∀ g ∈ q'.granted, g.mode = .s → g.txnID = t) : q'.canGrant mode t = q.canGrant mode t := by
  rw [Bool.eq_iff_iff]
  cases r with
  | table =>
    obtain rfl : mode = .ix := by
      rcases fits with rfl | rfl | rfl
      · cases write
      · rfl
      · cases write
    rw [iff_true_right (copy.canGrant_table (.inr (.inl rfl)) rfl rfl), canGrant_iff]
    intro g mem
    rcases copy.snd.modes g mem with eq | eq | eq
    · exact .inr (by rw [eq]; rfl)
    · exact .inr (by rw [eq]; rfl)
    · exact .inl (unread g mem eq)
  | row =>
    obtain rfl : mode = .x := by
      rcases fits with rfl | rfl
      · cases write
      · rfl
    rw [copy.snd.canGrant_x rfl, copy.fst.canGrant_x rfl]
    constructor
    · intro all g mem
      obtain ⟨g', mem', same, -⟩ := (copy.writers rfl g.txnID).1 ⟨g, mem, rfl⟩
      rw [← same]
      exact all g' mem'
    · intro all g' mem'
      rcases copy.snd.modes g' mem' with read | x
      · exact unread g' mem' read
      · obtain ⟨g, mem, same⟩ := (copy.writers rfl g'.txnID).2 ⟨g', mem', rfl, by rw [x]; rfl⟩
        rw [← same]
        exact all g mem
  | gap =>
    cases fits
    cases write

end

end QueueCopy

end Queues

section Acquire
variable {r r' : ResourceID} {q q' : Queue} {held held' : HeldSet} {t : Nat} {mode : Mode}

/-! What a request does on one side. -/

theorem orderly_acquireAlone (orderly : q.Orderly r) (fits : mode.For r) :
    (acquireAlone q held t r mode).2.1.Orderly r := by
  rcases acquireAlone_cases orderly.idle held t r mode with
    ⟨_, _, _, eq⟩ | ⟨_, _, _, ⟨rest, left, can, _, eq⟩ | ⟨_, _, eq⟩⟩ <;> rw [eq]
  · exact orderly
  · have left : Rest t q.granted rest := left.imp And.left And.left
    exact orderly.grant fits can fun _ => left.old
  · exact orderly.drop t

section
variable (idle : q.waiting = [])
include idle

theorem granted_acquireAlone (write : mode.isWrite = true) (writes : ∀ g ∈ q.granted, g.mode.isWrite = true) :
    ∀ g ∈ (acquireAlone q held t r mode).2.1.granted, g.mode.isWrite = true := by
  rcases acquireAlone_cases idle held t r mode with
    ⟨_, _, _, eq⟩ | ⟨_, _, _, ⟨rest, left, _, _, eq⟩ | ⟨_, _, eq⟩⟩ <;> rw [eq]
  · exact writes
  · have left : Rest t q.granted rest := left.imp And.left And.left
    exact left.writes writes write
  · exact fun g mem => writes g (mem_filter.1 mem).1

theorem get_acquireAlone (ne : r' ≠ r) : (acquireAlone q held t r mode).2.2.get r' = held.get r' := by
  rcases acquireAlone_cases idle held t r mode with
    ⟨_, _, _, eq⟩ | ⟨_, _, others, ⟨_, _, _, _, eq⟩ | ⟨_, _, eq⟩⟩ <;> rw [eq]
  · exact others r' ne
  · exact others r' ne

/-- What is held of the resource after the request: what was held, or what was asked for. -/
theorem get_acquireAlone_self {mode' : Mode}
    (get : (acquireAlone q held t r mode).2.2.get r = some mode') : held.get r = some mode' ∨ mode' = mode := by
  rcases acquireAlone_cases idle held t r mode with
    ⟨_, _, _, eq⟩ | ⟨_, _, _, ⟨_, _, _, at_r, eq⟩ | ⟨_, at_r, eq⟩⟩ <;> rw [eq] at get
  · exact .inl get
  · rw [at_r] at get
    cases get
    exact .inr rfl
  · rw [at_r] at get
    cases get

/-- What holds of the modes in the held set and of the mode asked for holds of the new held set. -/
theorem held_acquireAlone {P : ResourceID → Mode → Prop} (asked : P r mode)
    (all : ∀ r' mode', held.get r' = some mode' → P r' mode') :
    ∀ r' mode', (acquireAlone q held t r mode).2.2.get r' = some mode' → P r' mode' := by
  intro r' mode' get
  by_cases here : r' = r
  · subst here
    rcases get_acquireAlone_self idle get with before | rfl
    · exact all r' mode' before
    · exact asked
  · rw [get_acquireAlone idle here] at get
    exact all r' mode' get

theorem acquireAlone_free (can : q.canGrant mode t = true) : (acquireAlone q held t r mode).1 = true := by
  rcases acquireAlone_cases idle held t r mode with
    ⟨_, _, _, eq⟩ | ⟨_, _, _, ⟨_, _, _, _, eq⟩ | ⟨cannot, _, _⟩⟩
  · rw [eq]
  · rw [eq]
  · rw [can] at cannot
    cases cannot

end

/-! What a request does on both sides. -/

/-- A request with the same answer on both sides. -/
structure AnswerCopy (r : ResourceID) (a a' : Bool × Queue × HeldSet) : Prop where
  answer : a'.1 = a.1
  queues : QueueCopy r a.2.1 a'.2.1
  helds : HeldCopy a.2.2 a'.2.2

theorem HeldCopy.change {h h' : HeldSet} (helds : HeldCopy held held') (off : ∀ r' ≠ r, h.get r' = held.get r')
    (off' : ∀ r' ≠ r, h'.get r' = held'.get r') (modes : ∀ r' mode, h'.get r' = some mode → mode.For r')
    (at_r : r.isRow = true → h.get r = (h'.get r).filter Mode.isWrite) : HeldCopy h h' := by
  refine ⟨fun r' row => ?_, modes⟩
  by_cases here : r' = r
  · rw [here]
    exact at_r (here ▸ row)
  · rw [off r' here, off' r' here]
    exact helds.writes r' row

section
variable (queues : QueueCopy r q q') (helds : HeldCopy held held') (fits : mode.For r)
include queues helds fits

section
variable (write : mode.isWrite = true) (unread : ∀ g ∈ q'.granted, g.mode = .s → g.txnID = t)
include write unread

theorem acquireAlone_table (table : r.isRow = false) :
    AnswerCopy r (acquireAlone q held t r mode) (acquireAlone q' held' t r mode) := by
  have idle := queues.fst.idle
  have idle' := queues.snd.idle
  have can := queues.canGrant_table (t := t) fits write table
  refine ⟨?_, ?_, helds.change (fun _ => get_acquireAlone idle) (fun _ => get_acquireAlone idle')
    (held_acquireAlone idle' fits helds.modes) fun row => ?_⟩
  · rw [acquireAlone_free idle can, acquireAlone_free idle' ((queues.canGrant_eq fits write unread).trans can)]
  · exact .of_not_row table (orderly_acquireAlone queues.fst fits) (orderly_acquireAlone queues.snd fits)
      (granted_acquireAlone idle write queues.writes)
  · exact absurd (table.symm.trans row) false_ne_true

theorem acquireAlone_row (row : r.isRow = true) :
    AnswerCopy r (acquireAlone q held t r mode) (acquireAlone q' held' t r mode) := by
  have answer := queues.canGrant_eq fits write unread
  have both := helds.writes r row
  have copy := helds.change (h := (acquireAlone q held t r mode).2.2) (fun _ => get_acquireAlone queues.fst.idle)
    (fun _ => get_acquireAlone (t := t) queues.snd.idle) (held_acquireAlone queues.snd.idle fits helds.modes)
  rcases acquireAlone_cases queues.fst.idle held t r mode with ⟨existing, get, enough, eq⟩ | ⟨weaker, h, _, done⟩ <;>
    rcases acquireAlone_cases queues.snd.idle held' t r mode with
      ⟨existing', get', enough', eq'⟩ | ⟨weaker', h', _, done'⟩
  · rw [eq, eq']
    exact ⟨rfl, queues, helds⟩
  · -- what is held for writing is held with reads as well
    rw [get, eq_comm, filter_eq_some_iff] at both
    have := weaker' existing both.1
    omega
  · -- enough for the write, so it is a write lock
    have write' := fits.isWrite_of_le write (helds.modes r existing' get') row enough'
    rw [get', filter_some, if_pos write'] at both
    have := weaker existing' both
    omega
  · rcases done with ⟨rest, left, can, at_r, eq⟩ | ⟨cannot, at_r, eq⟩ <;>
      rcases done' with ⟨rest', left', can', at_r', eq'⟩ | ⟨cannot', at_r', eq'⟩
    · rw [eq, eq'] at copy ⊢
      refine ⟨rfl, queues.grant fits write can can' (left.imp And.left And.left) (left'.imp And.left And.left), copy fun _ => ?_⟩
      rw [at_r, at_r', filter_some, if_pos write]
    · rw [can, cannot'] at answer
      cases answer
    · rw [can', cannot] at answer
      cases answer
    · rw [eq, eq'] at copy ⊢
      refine ⟨rfl, queues.drop t, copy fun _ => ?_⟩
      rw [at_r, at_r']
      rfl

/-- A write lock has the same answer on both sides. -/
theorem acquireAlone_write : AnswerCopy r (acquireAlone q held t r mode) (acquireAlone q' held' t r mode) := by
  cases row : r.isRow with
  | false => exact acquireAlone_table queues helds fits write unread row
  | true => exact acquireAlone_row queues helds fits write unread row

end

/-- A read lock on the side that serves reads leaves the other side's locks a copy. -/
theorem acquireAlone_read (read : mode.isWrite = false) :
    QueueCopy r q (acquireAlone q' held' t r mode).2.1 ∧ HeldCopy held (acquireAlone q' held' t r mode).2.2 := by
  have idle := queues.snd.idle
  have copy := helds.change (fun _ _ => rfl) (fun _ => get_acquireAlone (t := t) idle)
    (held_acquireAlone idle fits helds.modes)
  cases row : r.isRow with
  | false =>
    refine ⟨.of_not_row row queues.fst (orderly_acquireAlone queues.snd fits) queues.writes, copy fun row' => ?_⟩
    exact absurd (row.symm.trans row') false_ne_true
  | true =>
    rcases acquireAlone_cases idle held' t r mode with ⟨_, _, _, eq⟩ | ⟨weaker, h, _, done⟩
    · rw [eq]
      exact ⟨queues, helds⟩
    have free : held'.get r = none := by
      cases get : held'.get r with
      | none => rfl
      | some existing =>
        have := weaker existing get
        have := fits.le_of_read read (helds.modes r existing get) row
        omega
    have none : held.get r = none := by rw [helds.writes r row, free]; rfl
    rcases done with ⟨rest, left, can, at_r, eq⟩ | ⟨cannot, at_r, eq⟩
    · rw [eq] at copy ⊢
      obtain rfl : rest = q'.granted := (left.resolve_right fun dropped => dropped.2 free).1
      refine ⟨queues.read fits read can, copy fun _ => ?_⟩
      rw [none, at_r, filter_some, read]
      rfl
    · rw [eq] at copy ⊢
      refine ⟨queues.dropRead (queues.refused cannot), copy fun _ => ?_⟩
      rw [none, at_r]
      rfl

end

end Acquire

end TransactionManager.Lock

namespace TransactionManager.Txn
open TransactionManager.Types Lock

namespace Manager
variable (m : Manager)

/-- A queue without the grants of a transaction. -/
def queueWithout (t : Nat) (name : GoString) : Queue := ⟨(m.queue name).granted.filter fun g => g.txnID != t, []⟩

theorem releaseLocked_idle {q : Queue} (idle : q.waiting = []) (t : Nat) :
    releaseLocked q t = ⟨q.granted.filter fun g => g.txnID != t, []⟩ := by
  simp [releaseLocked, Queue.removeGranted, Queue.grantWaiters, Queue.newlyGranted, Queue.grantable, idle]

/-- The queue of one resource loses the grants, whether it is in the table or not. -/
theorem queue_release (t : Nat) (r : ResourceID) (idle : ∀ r : ResourceID, (m.queue r.name).waiting = []) (name : GoString) :
    (match m.lockTable.get r.name with
      | none => m
      | some q => m.reapQueue r.name (releaseLocked q t)).queue name =
    if name = r.name then m.queueWithout t name else m.queue name := by
  cases found : m.lockTable.get r.name with
  | none =>
    by_cases here : name = r.name
    · have empty : m.queue r.name = {} := by rw [queue, found, Option.getD_none]
      rw [if_pos here, queueWithout, here, empty]
      rfl
    · rw [if_neg here]
  | some q =>
    have here : m.queue r.name = q := by rw [queue, found, Option.getD_some]
    rw [queue_reapQueue, Function.update_apply]
    split
    · rename_i eq
      rw [releaseLocked_idle (here ▸ idle r), queueWithout, eq, here]
    · rfl

/-- Release after release: the queues that are named lose the grants. -/
theorem queue_foldl_release {t : Nat} {f : Manager → ResourceID → Manager}
    (step : ∀ (m : Manager) r, (∀ r : ResourceID, (m.queue r.name).waiting = []) → ∀ name,
      (f m r).queue name = if name = r.name then m.queueWithout t name else m.queue name)
    (names : List ResourceID) (idle : ∀ r : ResourceID, (m.queue r.name).waiting = []) (name : GoString) :
    (names.foldl f m).queue name = if ∃ r ∈ names, r.name = name then m.queueWithout t name else m.queue name := by
  induction names generalizing m with
  | nil => simp
  | cons r names ih =>
    have here := step m r idle
    have still (r' : ResourceID) : ((f m r).queue r'.name).waiting = [] := by
      rw [here]
      split
      · rfl
      · exact idle r'
    rw [List.foldl_cons, ih (f m r) still, queueWithout, here]
    by_cases same : name = r.name
    · simp [same, queueWithout]
    · simp [same, Ne.symm same, queueWithout]

/-- `ReleaseAllLocks` takes the transaction's grants out of the queues that its held set names. -/
theorem queue_releaseAllLocks (t : Nat) (held : HeldSet) (idle : ∀ r : ResourceID, (m.queue r.name).waiting = [])
    (name : GoString) : (m.releaseAllLocks t held).queue name =
      if ∃ r ∈ held.keys, r.name = name then m.queueWithout t name else m.queue name :=
  m.queue_foldl_release (fun m r => m.queue_release t r) held.keys idle name

/-- `ReleaseAllLocks` changes the lock table only. -/
theorem releaseAllLocks_eq (t : Nat) (held : HeldSet) :
    ∃ table, m.releaseAllLocks t held = { m with lockTable := table } := by
  unfold releaseAllLocks
  generalize held.keys = names
  induction names generalizing m with
  | nil => exact ⟨_, rfl⟩
  | cons r names ih =>
    rw [List.foldl_cons]
    cases found : m.lockTable.get r.name with
    | none => exact ih m
    | some q => exact ih (m.reapQueue r.name (releaseLocked q t))

/-- The undo of a 2PL transaction changes the rows and the log. -/
theorem sameBooks_undoEntries (id : Nat) (entries : List UndoEntry) (lastCLR : Nat) :
    SameBooks m (m.undoEntries id entries lastCLR).2 := by
  induction entries generalizing m lastCLR with
  | nil => exact ⟨.refl m, rfl, fun _ => rfl⟩
  | cons e more ih =>
    have here := (m.undoEntry_spec id e more lastCLR).1
    have rest := ih (m.undoEntry id e more lastCLR).2 (m.undoEntry id e more lastCLR).1
    exact ⟨here.toSameLists.trans rest.toSameLists, rest.lockTable.trans here.lockTable,
      fun name => (rest.tables name).trans (here.tables name)⟩

/-- The queue of another name stays as it is. -/
theorem queue_acquireOrTimeout {txn : Transaction} {r : ResourceID} {mode : Mode} {name : GoString} (ne : name ≠ r.name) :
    (m.acquireOrTimeout txn r mode).2.1.queue name = m.queue name := by
  show (m.setQueue r.name _).queue name = _
  rw [queue_setQueue, Function.update_apply, if_neg ne]

/-- The queues that have a grant of the transaction are among those that the held set names. -/
def LocksNamed (t : Nat) (held : HeldSet) : Prop :=
  ∀ r : ResourceID, (∃ g ∈ (m.queue r.name).granted, g.txnID = t) → ∃ r' ∈ held.keys, r'.name = r.name

end Manager

end TransactionManager.Txn
