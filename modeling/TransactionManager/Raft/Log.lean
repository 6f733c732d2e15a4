import TransactionManager.Types.Value

/-!
# The Raft log

`internal/raft/log.go`: the entries in memory and the file they are written to. `Append` and
`TruncateAfter` rewrite the file, `TruncateBefore` does not. Disk errors are left out.
Indices and terms count up in 64 bits and do not wrap: they are natural numbers.
-/

namespace TransactionManager.Raft
open TransactionManager.Types List

/-- `CommandType`, a byte of which five values have a meaning. -/
inductive CommandType where
  | noop | begin | write | commit | abort
  | other (code : UInt8)
  deriving DecidableEq

structure Command where
  type : CommandType := .noop
  txnID : Nat := 0
  table : GoString := []
  rowKey : GoString := []
  op : UInt8 := 0
  before : List UInt8 := []
  after : List UInt8 := []
  iso : UInt8 := 0
  proto : UInt8 := 0
  deriving DecidableEq

structure Entry where
  index : Nat
  term : Nat
  command : Command := {}
  deriving DecidableEq

/-- `entry.Index - 1` in 64 bits. -/
def Entry.prevIndex (e : Entry) : Nat := if e.index = 0 then 2 ^ 64 - 1 else e.index - 1

/-- The sentinel that a new log starts with. -/
def dummy : Entry := { index := 0, term := 0 }

structure RaftLog where
  entries : List Entry := [dummy]
  file : List Entry := [dummy]
  deriving DecidableEq

namespace RaftLog

/-- `NewRaftLog` on the file that a process left behind. -/
def reopen (l : RaftLog) : RaftLog := if l.file = [] then {} else { entries := l.file, file := l.file }

/-- `LastIndex`; `none` is the index panic on an empty log. -/
def lastIndex (l : RaftLog) : Option Nat := l.entries.getLast?.map (·.index)

def lastTerm (l : RaftLog) : Option Nat := l.entries.getLast?.map (·.term)

def get (l : RaftLog) (index : Nat) : Option Entry := l.entries.find? fun e => e.index = index

def range (l : RaftLog) (start stop : Nat) : List Entry := l.entries.filter fun e => start ≤ e.index ∧ e.index ≤ stop

def append (l : RaftLog) (e : Entry) : RaftLog := { entries := l.entries ++ [e], file := l.entries ++ [e] }

def truncateAfter (l : RaftLog) (index : Nat) : RaftLog :=
  let kept := l.entries.filter fun e => e.index ≤ index
  { entries := kept, file := kept }

def truncateBefore (l : RaftLog) (lastIncludedIndex : Nat) : RaftLog :=
  { l with entries := l.entries.filter fun e => lastIncludedIndex < e.index }

/-- An entry of a message meets one of another term at its index. -/
def conflicts (l : RaftLog) (e : Entry) : Bool :=
  match l.get e.index with
  | some existing => existing.term ≠ e.term
  | none => false

/-- One round of the append loop of `handleAppendEntries`. An entry that meets a conflict cuts the log but is not
stored itself. -/
def storeEntry (l : RaftLog) (e : Entry) : RaftLog :=
  if l.conflicts e then l.truncateAfter e.prevIndex
  else if (l.get e.index).isNone then l.append e
  else l

/-- The append loop. -/
def storeEntries (l : RaftLog) (es : List Entry) : RaftLog := es.foldl storeEntry l

/-- The loop met a conflict. -/
def cuts : RaftLog → List Entry → Bool
  | _, [] => false
  | l, e :: es => l.conflicts e || cuts (l.storeEntry e) es

/-- The search for the first index of a term in `handleAppendEntries`, downwards. -/
def firstOfTerm (l : RaftLog) (term : Nat) : Nat → Nat → Nat
  | 0, found => found
  | idx + 1, _ =>
    if (l.get (idx + 1)).any (·.term = term) then l.firstOfTerm term idx (idx + 1) else idx + 2

section
variable (l : RaftLog)

theorem get_append (e : Entry) (j : Nat) :
    (l.append e).get j = (l.get j).or (if e.index = j then some e else none) := by
  show (l.entries ++ [e]).find? _ = _
  rw [find?_append, find?_singleton]
  congr 1
  by_cases eq : e.index = j <;> simp [eq]

theorem get_filter {p : Nat → Bool} (es : List Entry) (j : Nat) :
    (es.filter fun e => p e.index).find? (fun e => e.index = j) =
      if p j then es.find? fun e => e.index = j else none := by
  rw [find?_filter]
  by_cases keep : p j = true
  · rw [if_pos keep]
    congr 1
    funext e
    by_cases eq : e.index = j <;> simp [eq, keep]
  · rw [if_neg keep, find?_eq_none]
    intro e _ both
    simp only [decide_eq_true_eq] at both
    exact keep (both.2 ▸ both.1)

theorem get_truncateAfter (index j : Nat) : (l.truncateAfter index).get j = if j ≤ index then l.get j else none := by
  have cut := get_filter (p := fun i => decide (i ≤ index)) l.entries j
  simp only [decide_eq_true_eq] at cut
  exact cut

theorem get_truncateBefore (index j : Nat) : (l.truncateBefore index).get j = if index < j then l.get j else none := by
  have cut := get_filter (p := fun i => decide (index < i)) l.entries j
  simp only [decide_eq_true_eq] at cut
  exact cut

end

end RaftLog

end TransactionManager.Raft
