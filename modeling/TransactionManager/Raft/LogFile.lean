import TransactionManager.Raft.Election

/-!
# The file of the Raft log

`writeToDisk` and `loadFromDisk` of `internal/raft/log.go`, byte by byte. Every `Append` and
`TruncateAfter` empties the file and writes all entries again, each behind its length. A process
that ends on the way leaves a beginning of those bytes behind. `loadFromDisk` does not notice a read
that returns fewer bytes than it asked for: the rest of its buffer is zero.
-/

namespace TransactionManager.Raft
open Lib List

/-- `encoding/gob` on an `Entry`. -/
structure EntryCodec where
  encode : Entry → List UInt8
  decode : List UInt8 → Option Entry
  decode_encode : ∀ e, decode (encode e) = some e

namespace EntryCodec
variable (c : EntryCodec)

/-- The bytes of one entry in the file; the length is cut to 32 bits. -/
def frame (e : Entry) : List UInt8 := leBytes 4 (c.encode e).length ++ c.encode e

/-- The bytes that `writeToDisk` writes. -/
def frames (es : List Entry) : List UInt8 := es.flatMap c.frame

/-- One round of the loop of `loadFromDisk`: the entry and what is left of the file. -/
def readEntry (b : List UInt8) : Option (Entry × List UInt8) :=
  if b = [] then none
  else
    let bodyLen := leNat (b.take 4)
    let rest := b.drop 4
    -- a read of at least one byte at the end of the file is an error
    if rest = [] ∧ 0 < bodyLen then none
    else match c.decode (rest.take bodyLen ++ List.replicate (bodyLen - rest.length) 0) with
      | none => none
      | some e => some (e, rest.drop bodyLen)

theorem length_lt_of_readEntry {b rest : List UInt8} {e : Entry} (read : c.readEntry b = some (e, rest)) :
    rest.length < b.length := by
  unfold readEntry at read
  split at read
  · cases read
  rename_i some
  have pos := length_pos_iff.2 some
  dsimp only at read
  split at read
  · cases read
  · split at read
    · cases read
    · cases read
      rw [length_drop, length_drop]
      omega

/-- The loop of `loadFromDisk`. -/
def readEntries (b : List UInt8) : List Entry :=
  match _ : c.readEntry b with
  | none => []
  | some (e, rest) => e :: readEntries rest
termination_by b.length
decreasing_by exact c.length_lt_of_readEntry ‹_›

/-- The first `n` bytes written of the entries still give all of them: none is cut off; or the last one is, and what
there is of it decodes to it with zeros for the rest; or there is the sentinel alone, and nothing is read. -/
def Recovers (es : List Entry) (n : Nat) : Prop :=
  (c.frames es).length ≤ n ∨ ∃ before last, es = before ++ [last] ∧ (c.frames before).length ≤ n ∧
    (c.readEntries ((c.frame last).take (n - (c.frames before).length)) = [last] ∨
      before = [] ∧ last = dummy ∧ c.readEntries ((c.frame last).take n) = [])

def loadFromDisk (b : List UInt8) : List Entry := if c.readEntries b = [] then [dummy] else c.readEntries b

end EntryCodec

/-- `RaftLog` with the bytes of its file. -/
structure DiskLog where
  entries : List Entry
  file : List UInt8

inductive LogCall where
  | append (entries : List Entry)
  | truncateAfter (index : Nat)
  deriving DecidableEq

namespace DiskLog
variable (c : EntryCodec) (l : DiskLog)

/-- `NewRaftLog` on a file. -/
def newRaftLog (file : List UInt8) : DiskLog :=
  if file = [] then ⟨[dummy], c.frames [dummy]⟩ else ⟨c.loadFromDisk file, file⟩

/-- The entries in memory when the call gets to `writeToDisk`. -/
def updated : LogCall → List Entry
  | .append es => l.entries ++ es
  | .truncateAfter index => l.entries.filter fun e => e.index ≤ index

def call (k : LogCall) : DiskLog := ⟨l.updated k, c.frames (l.updated k)⟩

/-- The process ends when `n` bytes have been written since the file was emptied, and a new one opens
the log. -/
def crash (k : LogCall) (n : Nat) : DiskLog := newRaftLog c ((c.frames (l.updated k)).take n)

/-- The entries that the call does not itself remove. -/
def retained : LogCall → List Entry
  | .append _ => l.entries
  | .truncateAfter index => l.entries.filter fun e => e.index ≤ index

/-- The entries of the log survive a crash in the call. -/
def SurvivesCrash (k : LogCall) (n : Nat) : Prop := ∀ e ∈ l.retained k, e ∈ (l.crash c k n).entries

end DiskLog

namespace EntryCodec
variable (c : EntryCodec)

theorem readEntry_frame {e : Entry} (fits : (c.encode e).length < 256 ^ 4) (b : List UInt8) :
    c.readEntry (c.frame e ++ b) = some (e, b) := by
  have some : c.frame e ++ b ≠ [] := by
    intro none
    have short := congrArg List.length none
    simp [frame] at short
  have whole : c.frame e ++ b = leBytes 4 (c.encode e).length ++ (c.encode e ++ b) := append_assoc ..
  unfold readEntry
  rw [if_neg some, whole, leNat_take_append fits, drop_leBytes_append]
  have body : ¬ (c.encode e ++ b = [] ∧ 0 < (c.encode e).length) := by
    rintro ⟨none, pos⟩
    rw [append_eq_nil_iff] at none
    rw [none.1] at pos
    cases pos
  have full : (c.encode e).length - (c.encode e ++ b).length = 0 := by
    rw [length_append]
    omega
  simp only [if_neg body, full, replicate_zero, append_nil, take_left, drop_left, c.decode_encode]

/-- What was written whole is read back, and the reading goes on behind it. -/
theorem readEntries_frames {es : List Entry} (fits : ∀ e ∈ es, (c.encode e).length < 256 ^ 4)
    (b : List UInt8) : c.readEntries (c.frames es ++ b) = es ++ c.readEntries b := by
  induction es with
  | nil => rfl
  | cons e es ih =>
    have first : c.readEntry (c.frames (e :: es) ++ b) = some (e, c.frames es ++ b) := by
      rw [frames, flatMap_cons, append_assoc]
      exact c.readEntry_frame (fits e mem_cons_self) _
    rw [readEntries]
    split
    · rename_i none
      rw [first] at none
      cases none
    · rename_i read
      rw [first] at read
      cases read
      rw [ih fun e' mem => fits e' (mem_cons_of_mem _ mem), cons_append]

theorem readEntries_nil : c.readEntries [] = [] := by
  rw [readEntries]
  split
  · rfl
  · rename_i read
    cases read

theorem frames_append (es es' : List Entry) : c.frames (es ++ es') = c.frames es ++ c.frames es' := flatMap_append

section
variable {e : Entry} (fits : (c.encode e).length < 256 ^ 4) {n : Nat} (short : n < (c.frame e).length)
include fits short

/-- A read that ends inside an entry takes all that is left. -/
theorem readEntry_cut {x : Entry} {rest : List UInt8} (read : c.readEntry ((c.frame e).take n) = some (x, rest)) :
    rest = [] := by
  unfold readEntry at read
  dsimp only at read
  split at read
  · cases read
  split at read
  · cases read
  split at read
  · cases read
  cases read
  rw [frame, length_append, length_leBytes] at short
  refine drop_eq_nil_iff.2 ?_
  by_cases header : n ≤ 4
  · simp [header]
  · have field : ((c.frame e).take n).take 4 = leBytes 4 (c.encode e).length := by
      rw [take_take, Nat.min_eq_left (by omega), frame, take_left' (length_leBytes ..)]
    rw [field, leNat_leBytes_of_lt fits, frame, length_drop, length_take, length_append, length_leBytes]
    omega

/-- So at most one entry is read of an entry that is cut off. -/
theorem readEntries_cut :
    c.readEntries ((c.frame e).take n) = [] ∨ ∃ x, c.readEntries ((c.frame e).take n) = [x] := by
  rw [readEntries]
  split
  · exact .inl rfl
  · rename_i x rest read
    rw [c.readEntry_cut fits short read, c.readEntries_nil]
    exact .inr ⟨x, rfl⟩

end

/-- The entry in which the writing ends. -/
theorem exists_cut {es : List Entry} {n : Nat} (short : n < (c.frames es).length) : ∃ before e after,
    es = before ++ e :: after ∧ (c.frames before).length ≤ n ∧ n - (c.frames before).length < (c.frame e).length := by
  induction es generalizing n with
  | nil => cases short
  | cons e es ih =>
    rw [frames, flatMap_cons, length_append] at short
    by_cases first : n < (c.frame e).length
    · exact ⟨[], e, es, rfl, Nat.zero_le _, first⟩
    · obtain ⟨before, e', after, rfl, low, cut⟩ := ih (n := n - (c.frame e).length) (by unfold frames; omega)
      have length : (c.frames (e :: before)).length = (c.frame e).length + (c.frames before).length := by
        rw [frames, flatMap_cons, length_append, frames]
      exact ⟨e :: before, e', after, rfl, by omega, by omega⟩

end EntryCodec

namespace DiskLog
variable (c : EntryCodec) (l : DiskLog)

/-- The log as `RaftLog` has it: in place of the bytes, the entries they are read as. -/
def toRaftLog : RaftLog := ⟨l.entries, c.readEntries l.file⟩

theorem file_call {k : LogCall} (fits : ∀ e ∈ l.updated k, (c.encode e).length < 256 ^ 4) :
    c.readEntries (l.call c k).file = l.updated k := by
  have read := c.readEntries_frames fits []
  rwa [append_nil, c.readEntries_nil, append_nil] at read

theorem toRaftLog_append {e : Entry} (fits : ∀ x ∈ l.entries ++ [e], (c.encode x).length < 256 ^ 4) :
    (l.call c (.append [e])).toRaftLog c = (l.toRaftLog c).append e :=
  congrArg (RaftLog.mk (l.entries ++ [e])) (l.file_call c fits)

theorem toRaftLog_truncateAfter {index : Nat} (fits : ∀ x ∈ l.entries, (c.encode x).length < 256 ^ 4) :
    (l.call c (.truncateAfter index)).toRaftLog c = (l.toRaftLog c).truncateAfter index :=
  congrArg (RaftLog.mk _) (l.file_call c fun x mem => fits x (mem_of_mem_filter mem))

/-- A process that opens the log after a call has returned. An empty file is one of a new log. -/
theorem toRaftLog_newRaftLog {k : LogCall} (fits : ∀ e ∈ dummy :: l.updated k, (c.encode e).length < 256 ^ 4) :
    (newRaftLog c (l.call c k).file).toRaftLog c = ((l.call c k).toRaftLog c).reopen := by
  obtain ⟨first, fits⟩ := forall_mem_cons.1 fits
  have read := l.file_call c fits
  unfold newRaftLog toRaftLog RaftLog.reopen
  rw [read]
  by_cases none : l.updated k = []
  · have sentinel := c.readEntries_frames (forall_mem_singleton.2 first) []
    rw [append_nil, c.readEntries_nil, append_nil] at sentinel
    rw [if_pos none, if_pos (by rw [call, none]; rfl)]
    exact congrArg (RaftLog.mk _) sentinel
  · have file : (l.call c k).file ≠ [] := by
      intro empty
      rw [empty, c.readEntries_nil] at read
      exact none read.symm
    rw [if_neg none, if_neg file, EntryCodec.loadFromDisk, read, if_neg none]

theorem retained_isPrefix (k : LogCall) : l.retained k <+: l.updated k := by
  cases k with
  | append es => exact prefix_append ..
  | truncateAfter => exact prefix_refl _

end DiskLog

namespace DiskLog
variable (c : EntryCodec) (l : DiskLog) {k : LogCall} {n : Nat}

theorem entries_newRaftLog (file : List UInt8) : (newRaftLog c file).entries = c.loadFromDisk file := by
  unfold newRaftLog
  split
  · rename_i empty
    rw [empty, EntryCodec.loadFromDisk, c.readEntries_nil]
    rfl
  · rfl

/-- What is read when the writing ended inside one of the entries that the call keeps. -/
theorem readEntries_crash (fits : ∀ e ∈ l.retained k, (c.encode e).length < 256 ^ 4) {before after : List Entry}
    {e : Entry} (retained : l.retained k = before ++ e :: after) (low : (c.frames before).length ≤ n)
    (cut : n - (c.frames before).length ≤ (c.frame e).length) : c.readEntries ((c.frames (l.updated k)).take n) =
      before ++ c.readEntries ((c.frame e).take (n - (c.frames before).length)) := by
  obtain ⟨more, whole⟩ := l.retained_isPrefix k
  have file : c.frames (l.updated k) = c.frames before ++ (c.frame e ++ c.frames (after ++ more)) := by
    rw [← whole, retained, append_assoc, c.frames_append]
    rfl
  rw [file, take_append, take_of_length_le low, take_append_of_le_length cut, c.readEntries_frames]
  intro x mem
  exact fits x (retained ▸ mem_append_left _ mem)

theorem length_frames_concat (before : List Entry) (last : Entry) :
    (c.frames (before ++ [last])).length = (c.frames before).length + (c.frame last).length := by
  rw [c.frames_append, length_append, EntryCodec.frames, EntryCodec.frames, flatMap_singleton]

theorem survives_of_recovers (fits : ∀ e ∈ l.retained k, (c.encode e).length < 256 ^ 4)
    (recovers : c.Recovers (l.retained k) n) : l.SurvivesCrash c k n := by
  intro e mem
  unfold crash
  rw [entries_newRaftLog, EntryCodec.loadFromDisk]
  by_cases long : (c.frames (l.retained k)).length ≤ n
  · obtain ⟨more, whole⟩ := l.retained_isPrefix k
    have read : e ∈ c.readEntries ((c.frames (l.updated k)).take n) := by
      rw [← whole, c.frames_append, take_append, take_of_length_le long, c.readEntries_frames fits]
      exact mem_append_left _ mem
    rwa [if_neg (ne_nil_of_mem read)]
  obtain ⟨before, last, retained, low, found⟩ := recovers.resolve_left long
  rw [retained, length_frames_concat] at long
  rw [l.readEntries_crash c fits retained low (by omega)]
  rcases found with whole | ⟨rfl, rfl, none⟩
  · rw [whole, if_neg (by simp), ← retained]
    exact mem
  · rw [show n - (c.frames []).length = n from rfl, none, append_nil, if_pos rfl]
    rw [retained] at mem
    exact mem

/-- What survives is recovered, if no entry is in the log twice. -/
theorem recovers_of_survives (fits : ∀ e ∈ l.retained k, (c.encode e).length < 256 ^ 4) (once : (l.retained k).Nodup)
    (survives : l.SurvivesCrash c k n) : c.Recovers (l.retained k) n := by
  by_cases long : (c.frames (l.retained k)).length ≤ n
  · exact .inl long
  obtain ⟨before, e, after, retained, low, cut⟩ := c.exists_cut (Nat.not_le.1 long)
  unfold SurvivesCrash crash at survives
  rw [entries_newRaftLog, EntryCodec.loadFromDisk, l.readEntries_crash c fits retained low cut.le, retained] at survives
  rw [retained] at once fits ⊢
  obtain ⟨-, -, apart⟩ := nodup_append.1 once
  -- nothing that stands behind the cut has been read before it
  have tail {x : Entry} (mem : x ∈ e :: after) : x ∉ before := fun earlier => apart x earlier x mem rfl
  have alone {x : Entry} (only : ∀ y ∈ e :: after, y = x) : e = x ∧ after = [] := by
    refine ⟨only e mem_cons_self, eq_nil_iff_forall_not_mem.2 fun y mem => ?_⟩
    have twice := (nodup_cons.1 (once.sublist (sublist_append_right ..))).1
    rw [only e mem_cons_self, ← only y (mem_cons_of_mem _ mem)] at twice
    exact twice mem
  rcases c.readEntries_cut (fits e (by simp)) cut with none | ⟨x, one⟩
  · rw [none, append_nil] at survives
    by_cases start : before = []
    · subst start
      rw [if_pos rfl] at survives
      obtain ⟨rfl, rfl⟩ := alone fun y mem => mem_singleton.1 (survives y mem)
      exact .inr ⟨[], dummy, rfl, low, .inr ⟨rfl, rfl, none⟩⟩
    · rw [if_neg start] at survives
      exact absurd (survives e (by simp)) (tail mem_cons_self)
  · rw [one, if_neg (by simp)] at survives
    obtain ⟨rfl, rfl⟩ := alone fun y mem =>
      mem_singleton.1 ((mem_append.1 (survives y (mem_append_right _ mem))).resolve_left (tail mem))
    exact .inr ⟨before, e, rfl, low, .inl one⟩

end DiskLog

/-- The entries of the log survive a crash that leaves them in the file, or all but the last and enough of that one,
and no other crash, unless an entry is in the log twice. -/
theorem survivesCrash_iff (c : EntryCodec) (l : DiskLog) (calls : List LogCall) (k : LogCall) (n : Nat)
    (fits : ∀ e ∈ (calls.foldl (DiskLog.call c) l).retained k, (c.encode e).length < 256 ^ 4) :
    (c.Recovers ((calls.foldl (DiskLog.call c) l).retained k) n → (calls.foldl (DiskLog.call c) l).SurvivesCrash c k n) ∧
    (((calls.foldl (DiskLog.call c) l).retained k).Nodup → (calls.foldl (DiskLog.call c) l).SurvivesCrash c k n →
      c.Recovers ((calls.foldl (DiskLog.call c) l).retained k) n) :=
  ⟨DiskLog.survives_of_recovers c _ fits, DiskLog.recovers_of_survives c _ fits⟩

/-- The crash comes before anything has been written again, and the log is empty, whatever the
encoding. -/
theorem not_survivesCrash : ¬ ∃ c : EntryCodec, ∀ (l : DiskLog) (calls : List LogCall) (k : LogCall)
    (n : Nat), n ≤ (c.frames ((calls.foldl (DiskLog.call c) l).updated k)).length →
    (calls.foldl (DiskLog.call c) l).SurvivesCrash c k n := by
  rintro ⟨c, claim⟩
  let e : Entry := { index := 1, term := 1 }
  have mem := claim (DiskLog.newRaftLog c []) [.append [e]] (.append []) 0 (Nat.zero_le _) e
    (mem_append_right _ (mem_singleton.2 rfl))
  exact absurd (congrArg Entry.index (mem_singleton.1 mem)) (by decide)

section Chunks

/-- Bytes with a mark in front of each and one behind. -/
def putBytes (bs : List UInt8) : List UInt8 := bs.flatMap (fun b => [1, b]) ++ [0]

/-- The bytes up to the mark, and what follows it. -/
def getBytes : List UInt8 → Option (List UInt8 × List UInt8)
  | 0 :: rest => some ([], rest)
  | 1 :: b :: rest => (getBytes rest).map fun (bs, rest) => (b :: bs, rest)
  | _ => none

theorem getBytes_putBytes (bs rest : List UInt8) : getBytes (putBytes bs ++ rest) = some (bs, rest) := by
  induction bs with
  | nil => rfl
  | cons b bs ih =>
    show getBytes (1 :: b :: (putBytes bs ++ rest)) = _
    rw [getBytes, ih]
    rfl

def getAll : Nat → List UInt8 → Option (List (List UInt8))
  | 0, _ => some []
  | k + 1, b => (getBytes b).bind fun (bs, rest) => (getAll k rest).map fun all => bs :: all

theorem getAll_putBytes (all : List (List UInt8)) : getAll all.length (all.flatMap putBytes) = some all := by
  induction all with
  | nil => rfl
  | cons bs all ih => simp [getAll, getBytes_putBytes, ih]

def CommandType.bytes : CommandType → List UInt8
  | .noop => [0]
  | .begin => [1]
  | .write => [2]
  | .commit => [3]
  | .abort => [4]
  | .other code => [5, code]

def CommandType.ofBytes : List UInt8 → CommandType
  | [1] => .begin
  | [2] => .write
  | [3] => .commit
  | [4] => .abort
  | [5, code] => .other code
  | _ => .noop

def Entry.fields (e : Entry) : List (List UInt8) :=
  [List.replicate e.index 0, List.replicate e.term 0, e.command.type.bytes,
    List.replicate e.command.txnID 0, e.command.table, e.command.rowKey, [e.command.op],
    e.command.before, e.command.after, [e.command.iso], [e.command.proto]]

def Entry.ofFields : List (List UInt8) → Option Entry
  | [index, term, type, txnID, table, rowKey, [op], before, after, [iso], [proto]] =>
    some ⟨index.length, term.length, ⟨.ofBytes type, txnID.length, table, rowKey, op, before, after, iso, proto⟩⟩
  | _ => none

/-- A codec that writes the fields one after the other. -/
def chunkCodec : EntryCodec where
  encode e := e.fields.flatMap putBytes
  decode b := (getAll 11 b).bind Entry.ofFields
  decode_encode e := by
    rw [show 11 = e.fields.length from rfl, getAll_putBytes]
    obtain ⟨index, term, type, txnID, table, rowKey, op, before, after, iso, proto⟩ := e
    cases type <;> simp [Entry.fields, Entry.ofFields, CommandType.bytes, CommandType.ofBytes]

/-- The second append ends after the first entry has been written again and with the half of the
second one. -/
theorem survivesCrash_second_append :
    let l := DiskLog.call chunkCodec (DiskLog.newRaftLog chunkCodec []) (.append [{ index := 1, term := 1 }])
    l.retained (.append [{ index := 2, term := 1 }]) = [dummy, { index := 1, term := 1 }] ∧
      l.SurvivesCrash chunkCodec (.append [{ index := 2, term := 1 }]) 70 := by
  refine ⟨rfl, (survivesCrash_iff chunkCodec (DiskLog.newRaftLog chunkCodec [])
    [.append [{ index := 1, term := 1 }]] _ _ ?_).1 (.inl ?_)⟩
  · decide
  · decide

/-- A process opens the log after an `Append`. -/
theorem toRaftLog_newRaftLog_append :
    let l := DiskLog.call chunkCodec (DiskLog.newRaftLog chunkCodec []) (.append [{ index := 1, term := 1 }])
    (DiskLog.newRaftLog chunkCodec l.file).toRaftLog chunkCodec = (l.toRaftLog chunkCodec).reopen :=
  DiskLog.toRaftLog_newRaftLog chunkCodec (DiskLog.newRaftLog chunkCodec []) (by decide)

end Chunks

end TransactionManager.Raft
