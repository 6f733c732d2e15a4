import TransactionManager.Types.Value

/-!
# The SSI tracker

`internal/isolation/ssi.go`. The nested maps are sets of pairs: `siread` holds
`(key, reader)`, `edges` holds `(reader, writer)`. The conflict flags that `RecordWrite`
also sets on the transactions are left out: `CheckCommit` recomputes the pivot test from
the edges and nothing else reads them.
-/

namespace TransactionManager.Isolation
open TransactionManager.Types

structure SSITracker where
  siread : List (GoString × Nat) := []
  edges : List (Nat × Nat) := []
  deriving DecidableEq

namespace SSITracker

def recordRead (s : SSITracker) (reader : Nat) (key : GoString) : SSITracker :=
  { s with siread := s.siread.insert (key, reader) }

/-- The active transactions other than the writer that hold a SIREAD entry on the key. -/
def conflictingReaders (s : SSITracker) (isActive : Nat → Bool) (writer : Nat) (key : GoString) : List Nat :=
  (s.siread.filter fun e => e.1 = key && e.2 != writer && isActive e.2).map Prod.snd

/-- `RecordWrite`: an edge from every conflicting reader to the writer. -/
def recordWrite (s : SSITracker) (isActive : Nat → Bool) (writer : Nat) (key : GoString) : SSITracker :=
  { s with
    edges := (s.conflictingReaders isActive writer key).foldl (fun es reader => es.insert (reader, writer)) s.edges }

/-- `isPivotLocked`: an edge out of the transaction and an edge into it. -/
def isPivotLocked (s : SSITracker) (txnID : Nat) : Bool :=
  s.edges.any (fun e => e.1 == txnID) && s.edges.any (fun e => e.2 == txnID)

def cleanup (s : SSITracker) (txnID : Nat) : SSITracker where
  siread := s.siread.filter fun e => e.2 != txnID
  edges := s.edges.filter fun e => e.1 != txnID && e.2 != txnID

section
variable {s : SSITracker} {isActive : Nat → Bool} {writer : Nat} {key : GoString}

theorem mem_conflictingReaders {reader : Nat} : reader ∈ s.conflictingReaders isActive writer key ↔
    (key, reader) ∈ s.siread ∧ reader ≠ writer ∧ isActive reader = true := by
  simp [conflictingReaders]

theorem mem_edges_recordWrite {e : Nat × Nat} : e ∈ (s.recordWrite isActive writer key).edges ↔
    e ∈ s.edges ∨ e.1 ∈ s.conflictingReaders isActive writer key ∧ e.2 = writer := by
  unfold recordWrite
  generalize s.conflictingReaders isActive writer key = readers
  generalize s.edges = edges
  induction readers generalizing edges with
  | nil => simp
  | cons reader readers ih =>
    obtain ⟨t, u⟩ := e
    rw [List.foldl_cons, ih, List.mem_insert_iff]
    simp only [Prod.mk.injEq, List.mem_cons]
    tauto

end

end SSITracker

end TransactionManager.Isolation
