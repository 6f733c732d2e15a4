import TransactionManager.Lib.GoMap
import TransactionManager.Lib.Run
import TransactionManager.Wal.Record

/-!
# The log writer and its flushes

`internal/wal/manager.go` with its interleavings. `appendRecord` assigns an LSN and appends
the record to the buffer in two steps; `doFlush`, which the flush goroutine and `Iterate` run,
takes the buffer, writes and syncs it, and then raises `flushedLSN` to the highest LSN of what
it wrote. A failed write may leave a part of the batch in the file. A record is durable when a
later sync of the file has covered it. The buffer and the file are lists of records here; their
bytes are in `Wal.Record`.
-/

namespace TransactionManager.Wal
open Lib List GoMap

/-- Where a client's call stands: `appendRecord` before and after it has appended, and `Flush`, with the `COMMIT`
record when `Commit` flushes. -/
inductive WriterCall where
  | assigned (rec : LogRecord)
  | appended (rec : LogRecord)
  | flushing (lsn : Nat) (commit : Option LogRecord)

/-- Where a `doFlush` stands: with the batch it took, and after its sync. `seq` numbers the
batches. -/
inductive FlushCall where
  | writing (seq : Nat) (batch : List LogRecord)
  | synced (seq : Nat) (batch : List LogRecord)

/-- The writer. `synced` is the length of the file at the last sync. The other fields keep what happened: the records
whose `appendRecord` returned, the LSNs whose `Flush` returned nil, the `COMMIT` records whose `Commit` returned, the
batches as they were taken, and those written and synced. -/
structure Writer where
  nextLSN : Nat
  buf : List LogRecord := []
  flushedLSN : Nat
  file : List LogRecord
  synced : Nat
  calls : GoMap Nat WriterCall := ∅
  flushes : GoMap Nat FlushCall := ∅
  returned : List LogRecord := []
  flushed : List Nat := []
  committed : List LogRecord := []
  batches : List (List LogRecord) := []
  done : List Nat := []

/-- One step of a call. `fail` leaves the first records of the batch in the file. -/
inductive WriterAction where
  | assign (c : Nat) (rec : LogRecord)
  | append (c : Nat)
  | appendReturn (c : Nat)
  | flush (c lsn : Nat)
  | flushReturn (c : Nat)
  | swap (f : Nat)
  | write (f : Nat)
  | fail (f kept : Nat)
  | publish (f : Nat)

namespace Writer

/-- `OpenManager` on a file with these records. -/
def openManager (old : List LogRecord) : Writer where
  nextLSN := highestLSN old + 1
  flushedLSN := highestLSN old
  file := old
  synced := old.length

/-- The durable part of the file. -/
def durable (w : Writer) : List LogRecord := w.file.take w.synced

def next (w : Writer) : WriterAction → Option Writer
  | .assign c rec =>
    match w.calls.get c with
    | none => some { w with
        nextLSN := w.nextLSN + 1
        calls := w.calls.set c (.assigned { rec with lsn := w.nextLSN }) }
    | some _ => none
  | .append c =>
    match w.calls.get c with
    | some (.assigned rec) => some { w with
        buf := w.buf ++ [rec]
        calls := w.calls.set c (.appended rec) }
    | _ => none
  | .appendReturn c =>
    match w.calls.get c with
    | some (.appended rec) => some { w with
        -- `Commit` goes on with the flush of its record
        calls := if rec.type = .commit then w.calls.set c (.flushing rec.lsn (some rec)) else w.calls.delete c
        returned := w.returned ++ [rec] }
    | _ => none
  | .flush c lsn =>
    match w.calls.get c with
    | none => some { w with calls := w.calls.set c (.flushing lsn none) }
    | some _ => none
  | .flushReturn c =>
    match w.calls.get c with
    | some (.flushing lsn commit) =>
      if lsn ≤ w.flushedLSN then
        some { w with
          calls := w.calls.delete c
          flushed := w.flushed ++ [lsn]
          committed := w.committed ++ commit.toList }
      else none
    | _ => none
  | .swap f =>
    match w.flushes.get f with
    | none =>
      if w.buf = [] then some w
      else
        some { w with
          buf := []
          flushes := w.flushes.set f (.writing w.batches.length w.buf)
          batches := w.batches ++ [w.buf] }
    | some _ => none
  | .write f =>
    match w.flushes.get f with
    | some (.writing seq batch) => some { w with
        file := w.file ++ batch
        synced := (w.file ++ batch).length
        flushes := w.flushes.set f (.synced seq batch)
        done := seq :: w.done }
    | _ => none
  | .fail f kept =>
    match w.flushes.get f with
    | some (.writing _ batch) => some { w with
        file := w.file ++ batch.take kept
        flushes := w.flushes.delete f }
    | _ => none
  | .publish f =>
    match w.flushes.get f with
    | some (.synced _ batch) => some { w with
        flushedLSN := if w.flushedLSN < highestLSN batch then highestLSN batch else w.flushedLSN
        flushes := w.flushes.delete f }
    | _ => none

end Writer

/-- A flushed LSN means durable records: for `flushedLSN`, every LSN whose `Flush` returned nil, and every `COMMIT`
record whose `Commit` returned. -/
structure FlushDurable (w : Writer) : Prop where
  reached : ∀ r ∈ w.returned, r.lsn ≤ w.flushedLSN → r ∈ w.durable
  flushed : ∀ lsn ∈ w.flushed, ∀ r ∈ w.returned, r.lsn ≤ lsn → r ∈ w.durable
  committed : ∀ r ∈ w.committed, r ∈ w.durable

/-- The record of an `appendRecord` that has not appended it yet. -/
def WriterCall.unappended : WriterCall → Option LogRecord
  | .assigned rec => some rec
  | _ => none

/-- The number of the batch of a `doFlush`. -/
def FlushCall.seq : FlushCall → Nat
  | .writing seq _ | .synced seq _ => seq

/-- The condition on the steps: a buffer is taken when no lower LSN is still on its way to it, and a batch is written
and synced after all that were taken before it. -/
def InOrder (w : Writer) : WriterAction → Prop
  | .swap _ => ∀ c ∈ w.calls.keys, ∀ call ∈ w.calls.get c, ∀ rec ∈ call.unappended, ∀ r ∈ w.buf, r.lsn < rec.lsn
  | .write f => ∀ call ∈ w.flushes.get f, ∀ i < call.seq, i ∈ w.done
  | _ => True

instance (w : Writer) (a : WriterAction) : Decidable (InOrder w a) := by
  unfold InOrder
  split <;> infer_instance

/-- The record has its LSN and is in no batch yet. -/
def Outstanding (w : Writer) (r : LogRecord) : Prop := r ∈ w.buf ∨ ∃ c, w.calls.get c = some (.assigned r)

/-- Batches have growing LSNs and are synced in their order. `first` is the first LSN the
writer gave out. -/
structure FlushInv (first : Nat) (w : Writer) : Prop where
  next : first ≤ w.nextLSN
  outstanding : ∀ r, Outstanding w r → first ≤ r.lsn ∧ r.lsn < w.nextLSN ∧ ∀ b ∈ w.batches, ∀ q ∈ b, q.lsn < r.lsn
  batch : ∀ b ∈ w.batches, ∀ r ∈ b, first ≤ r.lsn ∧ r.lsn < w.nextLSN
  sorted : w.batches.Pairwise fun a b => ∀ r ∈ a, ∀ q ∈ b, r.lsn < q.lsn
  closed : ∀ i ∈ w.done, i < w.batches.length ∧ ∀ j < i, j ∈ w.done
  written : w.synced ≤ w.file.length ∧ ∀ i ∈ w.done, ∀ b, w.batches[i]? = some b → ∀ r ∈ b, r ∈ w.durable
  writing : ∀ f seq batch, w.flushes.get f = some (.writing seq batch) → w.batches[seq]? = some batch
  publishing : ∀ f seq batch, w.flushes.get f = some (.synced seq batch) → w.batches[seq]? = some batch ∧ seq ∈ w.done
  high : w.flushedLSN < first ∨ ∃ i ∈ w.done, ∃ b, w.batches[i]? = some b ∧ ∃ r ∈ b, r.lsn = w.flushedLSN
  placed : ∀ r, (r ∈ w.returned ∨ ∃ c, w.calls.get c = some (.appended r)) → r ∈ w.buf ∨ ∃ b ∈ w.batches, r ∈ b
  commits : ∀ c lsn r, w.calls.get c = some (.flushing lsn (some r)) → r ∈ w.returned ∧ r.lsn ≤ lsn
  flushed : ∀ lsn ∈ w.flushed, lsn ≤ w.flushedLSN
  committed : ∀ r ∈ w.committed, r ∈ w.returned ∧ r.lsn ≤ w.flushedLSN

section
variable {first : Nat} {w w' : Writer}

section
variable (inv : FlushInv first w)
include inv

namespace FlushInv

/-- A record that `flushedLSN` has passed is in a synced batch. -/
theorem durable_of_le {r : LogRecord} (back : r ∈ w.returned) (le : r.lsn ≤ w.flushedLSN) : r ∈ w.durable := by
  rcases inv.placed r (.inl back) with waiting | ⟨b, mem, inside⟩
  · -- what is still in the buffer has a higher LSN than every batch
    obtain ⟨bound, -, above⟩ := inv.outstanding r (.inl waiting)
    rcases inv.high with low | ⟨i, -, b, found, q, inside, eq⟩
    · omega
    · have := above b (mem_of_getElem? found) q inside
      omega
  · obtain ⟨j, found⟩ := getElem?_of_mem mem
    have bound := (inv.batch b mem r inside).1
    rcases inv.high with low | ⟨i, done, b', found', q, inside', eq⟩
    · omega
    by_cases early : j ≤ i
    · have synced : j ∈ w.done := by
        rcases early.lt_or_eq with lt | rfl
        · exact (inv.closed i done).2 j lt
        · exact done
      exact inv.written.2 j synced b found r inside
    · -- a later batch has higher LSNs
      have order : ∀ q ∈ b', ∀ r ∈ b, q.lsn < r.lsn := by
        obtain ⟨hi, rfl⟩ := List.getElem?_eq_some_iff.1 found'
        obtain ⟨hj, rfl⟩ := List.getElem?_eq_some_iff.1 found
        exact pairwise_iff_getElem.1 inv.sorted i j hi hj (by omega)
      have := order q inside' r inside
      omega

theorem flushDurable : FlushDurable w where
  reached _ back le := inv.durable_of_le back le
  flushed lsn mem _ back le := inv.durable_of_le back (le.trans (inv.flushed lsn mem))
  committed r mem := inv.durable_of_le (inv.committed r mem).1 (inv.committed r mem).2

theorem assign (c : Nat) (rec : LogRecord) :
    FlushInv first { w with
      nextLSN := w.nextLSN + 1
      calls := w.calls.set c (.assigned { rec with lsn := w.nextLSN }) } :=
  { inv with
    next := Nat.le_succ_of_le inv.next
    outstanding := by
      have old (r : LogRecord) (out : Outstanding w r) : first ≤ r.lsn ∧ r.lsn < w.nextLSN + 1 ∧
          ∀ b ∈ w.batches, ∀ q ∈ b, q.lsn < r.lsn := by
        obtain ⟨low, high, above⟩ := inv.outstanding r out
        exact ⟨low, Nat.lt_succ_of_lt high, above⟩
      rintro r (waiting | ⟨c', found⟩)
      · exact old r (.inl waiting)
      · rcases of_get_set found with ⟨-, ⟨⟩⟩ | ⟨-, found⟩
        · exact ⟨inv.next, Nat.lt_succ_self _, fun b mem q inside => (inv.batch b mem q inside).2⟩
        · exact old r (.inr ⟨c', found⟩)
    batch := by
      intro b mem r inside
      obtain ⟨low, high⟩ := inv.batch b mem r inside
      exact ⟨low, Nat.lt_succ_of_lt high⟩
    placed := by
      rintro r (back | ⟨c', found⟩)
      · exact inv.placed r (.inl back)
      · rcases of_get_set found with ⟨-, ⟨⟩⟩ | ⟨-, found⟩
        exact inv.placed r (.inr ⟨c', found⟩)
    commits := by
      intro c' lsn r found
      rcases of_get_set found with ⟨-, ⟨⟩⟩ | ⟨-, found⟩
      exact inv.commits c' lsn r found }

theorem append {c : Nat} {rec : LogRecord} (here : w.calls.get c = some (.assigned rec)) :
    FlushInv first { w with buf := w.buf ++ [rec], calls := w.calls.set c (.appended rec) } :=
  { inv with
    outstanding := by
      rintro r (waiting | ⟨c', found⟩)
      · rcases mem_append.1 waiting with old | new
        · exact inv.outstanding r (.inl old)
        · rw [mem_singleton.1 new]
          exact inv.outstanding rec (.inr ⟨c, here⟩)
      · rcases of_get_set found with ⟨-, ⟨⟩⟩ | ⟨-, found⟩
        exact inv.outstanding r (.inr ⟨c', found⟩)
    placed := by
      have kept (r : LogRecord) (place : r ∈ w.buf ∨ ∃ b ∈ w.batches, r ∈ b) :
          r ∈ w.buf ++ [rec] ∨ ∃ b ∈ w.batches, r ∈ b :=
        place.imp_left (mem_append_left _)
      rintro r (back | ⟨c', found⟩)
      · exact kept r (inv.placed r (.inl back))
      · rcases of_get_set found with ⟨-, ⟨⟩⟩ | ⟨-, found⟩
        · exact .inl (mem_append_right _ mem_cons_self)
        · exact kept r (inv.placed r (.inr ⟨c', found⟩))
    commits := by
      intro c' lsn r found
      rcases of_get_set found with ⟨-, ⟨⟩⟩ | ⟨-, found⟩
      exact inv.commits c' lsn r found }

theorem appendReturn {c : Nat} {rec : LogRecord} (here : w.calls.get c = some (.appended rec)) :
    FlushInv first { w with
      calls := if rec.type = .commit then w.calls.set c (.flushing rec.lsn (some rec)) else w.calls.delete c
      returned := w.returned ++ [rec] } := by
  have other (c' : Nat) (call : WriterCall) (found : (if rec.type = .commit then
      w.calls.set c (.flushing rec.lsn (some rec)) else w.calls.delete c).get c' = some call) :
      call = .flushing rec.lsn (some rec) ∨ w.calls.get c' = some call := by
    split at found
    · exact (of_get_set found).imp And.right And.right
    · exact .inr (of_get_delete found)
  exact { inv with
    outstanding := by
      rintro r (waiting | ⟨c', found⟩)
      · exact inv.outstanding r (.inl waiting)
      · rcases other c' _ found with eq | old
        · cases eq
        · exact inv.outstanding r (.inr ⟨c', old⟩)
    placed := by
      rintro r (back | ⟨c', found⟩)
      · rcases mem_append.1 back with old | new
        · exact inv.placed r (.inl old)
        · rw [mem_singleton.1 new]
          exact inv.placed rec (.inr ⟨c, here⟩)
      · rcases other c' _ found with eq | old
        · cases eq
        · exact inv.placed r (.inr ⟨c', old⟩)
    commits := by
      intro c' lsn r found
      rcases other c' _ found with eq | old
      · cases eq
        exact ⟨mem_append_right _ mem_cons_self, le_rfl⟩
      · obtain ⟨back, le⟩ := inv.commits c' lsn r old
        exact ⟨mem_append_left _ back, le⟩
    committed := by
      intro r mem
      obtain ⟨back, le⟩ := inv.committed r mem
      exact ⟨mem_append_left _ back, le⟩ }

theorem fewerCalls {calls : GoMap Nat WriterCall}
    (fewer : ∀ c call, calls.get c = some call → (∃ lsn, call = .flushing lsn none) ∨ w.calls.get c = some call) :
    FlushInv first { w with calls } :=
  { inv with
    outstanding := by
      rintro r (waiting | ⟨c, found⟩)
      · exact inv.outstanding r (.inl waiting)
      · rcases fewer c _ found with ⟨lsn, eq⟩ | old
        · cases eq
        · exact inv.outstanding r (.inr ⟨c, old⟩)
    placed := by
      rintro r (back | ⟨c, found⟩)
      · exact inv.placed r (.inl back)
      · rcases fewer c _ found with ⟨lsn, eq⟩ | old
        · cases eq
        · exact inv.placed r (.inr ⟨c, old⟩)
    commits := by
      intro c lsn r found
      rcases fewer c _ found with ⟨lsn, eq⟩ | old
      · cases eq
      · exact inv.commits c lsn r old }

theorem flush (c lsn : Nat) : FlushInv first { w with calls := w.calls.set c (.flushing lsn none) } := by
  refine inv.fewerCalls fun c' call found => ?_
  exact (of_get_set found).imp (fun new => ⟨lsn, new.2⟩) And.right

theorem flushReturn {c lsn : Nat} {commit : Option LogRecord}
    (here : w.calls.get c = some (.flushing lsn commit)) (le : lsn ≤ w.flushedLSN) :
    FlushInv first { w with
      calls := w.calls.delete c
      flushed := w.flushed ++ [lsn]
      committed := w.committed ++ commit.toList } := by
  have inv' : FlushInv first { w with calls := w.calls.delete c } :=
    inv.fewerCalls fun c' call found => .inr (of_get_delete found)
  exact { inv' with
    flushed := forall_mem_append.2 ⟨inv.flushed, forall_mem_singleton.2 le⟩
    committed := by
      intro r mem
      rcases mem_append.1 mem with old | new
      · exact inv.committed r old
      · cases Option.mem_toList.1 new
        obtain ⟨back, below⟩ := inv.commits c lsn r here
        exact ⟨back, below.trans le⟩ }

theorem swap (f : Nat)
    (ordered : ∀ c rec, w.calls.get c = some (.assigned rec) → ∀ r ∈ w.buf, r.lsn < rec.lsn) :
    FlushInv first { w with
      buf := []
      flushes := w.flushes.set f (.writing w.batches.length w.buf)
      batches := w.batches ++ [w.buf] } := by
  have kept {i : Nat} {b : List LogRecord} (found : w.batches[i]? = some b) : (w.batches ++ [w.buf])[i]? = some b := by
    rw [List.getElem?_append_left (List.getElem?_eq_some_iff.1 found).1]
    exact found
  have split {b : List LogRecord} (mem : b ∈ w.batches ++ [w.buf]) : b ∈ w.batches ∨ b = w.buf := by
    simpa using mem
  exact { inv with
    outstanding := by
      rintro r (waiting | ⟨c, found⟩)
      · cases waiting
      · obtain ⟨low, high, above⟩ := inv.outstanding r (.inr ⟨c, found⟩)
        refine ⟨low, high, fun b mem => ?_⟩
        rcases split mem with old | rfl
        · exact above b old
        · exact ordered c r found
    batch := by
      intro b mem r inside
      rcases split mem with old | rfl
      · exact inv.batch b old r inside
      · obtain ⟨low, high, -⟩ := inv.outstanding r (.inl inside)
        exact ⟨low, high⟩
    sorted := by
      refine pairwise_append.2 ⟨inv.sorted, pairwise_singleton _ _, fun a old b new q mem => ?_⟩
      rw [mem_singleton.1 new]
      exact fun r inside => (inv.outstanding r (.inl inside)).2.2 a old q mem
    closed := by
      intro i done
      obtain ⟨lt, closed⟩ := inv.closed i done
      refine ⟨?_, closed⟩
      rw [length_append]
      exact Nat.lt_add_right _ lt
    written := by
      refine ⟨inv.written.1, fun i done b found => inv.written.2 i done b ?_⟩
      rwa [getElem?_append_left (inv.closed i done).1] at found
    writing := by
      intro f' i b found
      rcases of_get_set found with ⟨-, ⟨⟩⟩ | ⟨-, found⟩
      · simp
      · exact kept (inv.writing f' i b found)
    publishing := by
      intro f' i b found
      rcases of_get_set found with ⟨-, ⟨⟩⟩ | ⟨-, found⟩
      obtain ⟨at', done⟩ := inv.publishing f' i b found
      exact ⟨kept at', done⟩
    high := by
      rcases inv.high with low | ⟨i, done, b, found, rest⟩
      · exact .inl low
      · exact .inr ⟨i, done, b, kept found, rest⟩
    placed := by
      intro r known
      refine .inr ?_
      rcases inv.placed r known with waiting | ⟨b, mem, inside⟩
      · exact ⟨w.buf, mem_append_right _ mem_cons_self, waiting⟩
      · exact ⟨b, mem_append_left _ mem, inside⟩ }

theorem write {f seq : Nat} {batch : List LogRecord}
    (here : w.flushes.get f = some (.writing seq batch)) (ordered : ∀ i < seq, i ∈ w.done) :
    FlushInv first { w with
      file := w.file ++ batch
      synced := (w.file ++ batch).length
      flushes := w.flushes.set f (.synced seq batch)
      done := seq :: w.done } := by
  have durable {r : LogRecord} (mem : r ∈ w.file ++ batch) : r ∈ (w.file ++ batch).take (w.file ++ batch).length := by
    rwa [take_length]
  exact { inv with
    closed := by
      intro i mem
      rcases mem_cons.1 mem with rfl | old
      · exact ⟨(List.getElem?_eq_some_iff.1 (inv.writing f i batch here)).1,
          fun j lt => mem_cons_of_mem _ (ordered j lt)⟩
      · obtain ⟨lt, closed⟩ := inv.closed i old
        exact ⟨lt, fun j lt => mem_cons_of_mem _ (closed j lt)⟩
    written := by
      refine ⟨le_rfl, fun i mem b found r inside => durable ?_⟩
      rcases mem_cons.1 mem with rfl | old
      · cases (inv.writing f i batch here).symm.trans found
        exact mem_append_right _ inside
      · exact mem_append_left _ (mem_of_mem_take (inv.written.2 i old b found r inside))
    writing := by
      intro f' i b found
      rcases of_get_set found with ⟨-, ⟨⟩⟩ | ⟨-, found⟩
      exact inv.writing f' i b found
    publishing := by
      intro f' i b found
      rcases of_get_set found with ⟨-, ⟨⟩⟩ | ⟨-, found⟩
      · exact ⟨inv.writing f seq batch here, mem_cons_self⟩
      · obtain ⟨at', done⟩ := inv.publishing f' i b found
        exact ⟨at', mem_cons_of_mem _ done⟩
    high := by
      rcases inv.high with low | ⟨i, done, rest⟩
      · exact .inl low
      · exact .inr ⟨i, mem_cons_of_mem _ done, rest⟩ }

theorem fail (f : Nat) (part : List LogRecord) :
    FlushInv first { w with file := w.file ++ part, flushes := w.flushes.delete f } :=
  { inv with
    written := by
      have durable : (w.file ++ part).take w.synced = w.file.take w.synced := take_append_of_le_length inv.written.1
      refine ⟨?_, fun i done b found r inside => ?_⟩
      · rw [length_append]
        exact Nat.le_add_right_of_le inv.written.1
      · show r ∈ (w.file ++ part).take w.synced
        rw [durable]
        exact inv.written.2 i done b found r inside
    writing := fun f' i b found => inv.writing f' i b (of_get_delete found)
    publishing := fun f' i b found => inv.publishing f' i b (of_get_delete found) }

theorem publish {f seq : Nat} {batch : List LogRecord} (here : w.flushes.get f = some (.synced seq batch)) :
    FlushInv first { w with
      flushedLSN := if w.flushedLSN < highestLSN batch then highestLSN batch else w.flushedLSN
      flushes := w.flushes.delete f } := by
  have grows : w.flushedLSN ≤ if w.flushedLSN < highestLSN batch then highestLSN batch else w.flushedLSN := by
    split <;> omega
  exact { inv with
    writing := fun f' i b found => inv.writing f' i b (of_get_delete found)
    publishing := fun f' i b found => inv.publishing f' i b (of_get_delete found)
    high := by
      by_cases higher : w.flushedLSN < highestLSN batch
      · obtain ⟨at', done⟩ := inv.publishing f seq batch here
        have some' : highestLSN batch ≠ 0 := by omega
        obtain ⟨r, mem, eq⟩ := exists_lsn_eq_highestLSN some'
        simp only [if_pos higher]
        exact .inr ⟨seq, done, batch, at', r, mem, eq⟩
      · simp only [if_neg higher]
        exact inv.high
    flushed := fun lsn mem => (inv.flushed lsn mem).trans grows
    committed := fun r mem => ⟨(inv.committed r mem).1, (inv.committed r mem).2.trans grows⟩ }

theorem step {a : WriterAction} (ordered : InOrder w a) (taken : w.next a = some w') : FlushInv first w' := by
  cases a with (dsimp only [Writer.next] at taken; split at taken <;> try contradiction)
  | assign c rec =>
    cases taken
    exact inv.assign c rec
  | append c =>
    cases taken
    exact inv.append ‹_›
  | appendReturn c =>
    cases taken
    exact inv.appendReturn ‹_›
  | flush c lsn =>
    cases taken
    exact inv.flush c lsn
  | flushReturn c =>
    obtain ⟨_, rfl⟩ := of_guard taken
    exact inv.flushReturn ‹_› ‹_›
  | swap f =>
    split at taken
    · cases taken
      exact inv
    · cases taken
      refine inv.swap f fun c rec found => ?_
      exact ordered c ((mem_keys_iff _ _).2 ⟨_, found⟩) _ found rec rfl
  | write f =>
    rename_i seq batch here
    cases taken
    exact inv.write here (ordered _ here)
  | fail f =>
    cases taken
    exact inv.fail f _
  | publish f =>
    cases taken
    exact inv.publish ‹_›

end FlushInv

end

theorem FlushInv.opened (old : List LogRecord) : FlushInv (highestLSN old + 1) (.openManager old) where
  next := le_rfl
  outstanding := by rintro r (waiting | ⟨c, found⟩) <;> first | cases waiting | cases found
  batch := by rintro b ⟨⟩
  sorted := .nil
  closed := by rintro i ⟨⟩
  written := ⟨le_rfl, nofun⟩
  writing := by rintro f seq batch ⟨⟩
  publishing := by rintro f seq batch ⟨⟩
  high := .inl (Nat.lt_succ_self _)
  placed := by rintro r (back | ⟨c, found⟩) <;> first | cases back | cases found
  commits := by rintro c lsn r ⟨⟩
  flushed := by rintro lsn ⟨⟩
  committed := by rintro r ⟨⟩

end

/-- When buffers are taken and batches synced in LSN order, a flushed LSN means durable. -/
theorem flushDurable_of_inOrder {old : List LogRecord} {w : Writer}
    (reached : Reach Writer.next InOrder (.openManager old) w) : FlushDurable w :=
  FlushInv.flushDurable (reached.invariant (.opened old) fun _ _ _ inv ordered taken =>
    inv.step ordered taken)

/-- Two commits in one batch; the first one returns after the flush. -/
theorem flushDurable_group_commit : ∃ w, Reach Writer.next InOrder (.openManager []) w ∧
    w.committed.map (·.txnID) = [7] ∧ w.flushedLSN = 2 ∧ FlushDurable w := by
  obtain ⟨w, reached, commits, lsn⟩ := Reach.exists_such Writer.next InOrder (.openManager [])
    [.assign 0 (commitRecord 7 0), .assign 1 (commitRecord 8 0), .append 1, .append 0,
      .appendReturn 0, .swap 0, .write 0, .appendReturn 1, .publish 0, .flushReturn 0]
    (fun w => w.committed.map (·.txnID) = [7] ∧ w.flushedLSN = 2) (by decide)
  exact ⟨w, reached, commits, lsn, flushDurable_of_inOrder reached⟩

/-- The batch with the `COMMIT` of transaction 7 is lost in a failed write. The next batch
raises `flushedLSN` over it, and `Commit` returns. -/
theorem not_flushDurable : ¬ ∀ old w, Reach Writer.next AnyStep (.openManager old) w → FlushDurable w := by
  intro claim
  obtain ⟨w, reached, r, commit, missing⟩ := Reach.exists_such Writer.next AnyStep (.openManager [])
    [.assign 0 (commitRecord 7 0), .append 0, .appendReturn 0, .swap 0, .fail 0 0,
      .assign 1 (beginRecord 8), .append 1, .appendReturn 1, .swap 0, .write 0, .publish 0,
      .flushReturn 0]
    (fun w => ∃ r ∈ w.committed, r ∉ w.durable) (by decide)
  exact missing ((claim _ _ reached).committed r commit)

end TransactionManager.Wal
