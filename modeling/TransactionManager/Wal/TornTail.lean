import TransactionManager.Wal.Record
import Mathlib.Data.List.Forall2

/-!
# Reading the log file

`readAllRecordsFrom` of `internal/wal/recovery.go`, which `scanHighestLSN` and `Iterate` repeat:
frame after frame up to the first one that is cut off or does not decode. `OpenManager` opens
the file for appending and leaves what a crash has torn at its end where it is, so the frames
appended after a reopen stand behind the torn bytes.
-/

namespace TransactionManager.Wal
open Lib List

/-- One round of the reading loop. -/
def readFrame (gob : GobCodec) (b : List UInt8) : Option (LogRecord × List UInt8) :=
  if b.length < 4 then none
  else if leNat (b.take 4) < hdrFixed then none
  else if b.length < leNat (b.take 4) then none
  else match decodeRecord gob (b.take (leNat (b.take 4))) with
    | .error _ => none
    | .ok rec => some (rec, b.drop (leNat (b.take 4)))

theorem length_lt_of_readFrame {gob : GobCodec} {b rest : List UInt8} {rec : LogRecord}
    (read : readFrame gob b = some (rec, rest)) : rest.length < b.length := by
  unfold readFrame hdrFixed at read
  split at read
  · cases read
  split at read
  · cases read
  split at read
  · cases read
  · split at read
    · cases read
    · cases read
      rw [length_drop]
      omega

def readRecords (gob : GobCodec) (b : List UInt8) : List LogRecord :=
  match _ : readFrame gob b with
  | none => []
  | some (rec, rest) => rec :: readRecords gob rest
termination_by b.length
decreasing_by exact length_lt_of_readFrame ‹_›

def readAllRecordsFrom (gob : GobCodec) (b : List UInt8) (fromLSN : Nat) : List LogRecord :=
  (readRecords gob b).filter fun rec => fromLSN ≤ rec.lsn

def encodeAll (gob : GobCodec) (rs : List LogRecord) : List UInt8 := rs.flatMap (encodeRecord gob)

/-- The records that a writer appends which `OpenManager` opened on these. -/
def appendedAfter (old recs : List LogRecord) : List LogRecord :=
  (recs.foldl (fun (l : Log) rec => (l.append rec).2) ⟨highestLSN old + 1, []⟩).records

/-- The file after `OpenManager` and the flush of these records. -/
def reopened (gob : GobCodec) (file : List UInt8) (recs : List LogRecord) : List UInt8 :=
  file ++ encodeAll gob (appendedAfter (readRecords gob file) recs)

theorem appendedAfter_ne_nil (old : List LogRecord) {recs : List LogRecord} (more : recs ≠ []) :
    appendedAfter old recs ≠ [] := by
  unfold appendedAfter
  induction recs using List.reverseRecOn with
  | nil => exact absurd rfl more
  | append_singleton => simp [Log.append]

/-- With the torn bytes at the end of the file, the reader still returns the records before
them and all records appended after the reopen. -/
def TailReadable (gob : GobCodec) (rs : List LogRecord) (torn : List UInt8) (recs : List LogRecord) : Prop :=
  ∀ fromLSN, readAllRecordsFrom gob (reopened gob (encodeAll gob rs ++ torn) recs) fromLSN =
    (rs ++ appendedAfter rs recs).filter fun rec => fromLSN ≤ rec.lsn

/-- The bytes of one frame: its length field is its length and `decodeRecord` accepts it. -/
structure IsFrame (gob : GobCodec) (f : List UInt8) (rec : LogRecord) : Prop where
  header : hdrFixed ≤ f.length
  length : leNat (f.take 4) = f.length
  decodes : decodeRecord gob f = .ok rec

/-- The bytes split into frames of these records, and no frame follows. -/
def Frames (gob : GobCodec) (b : List UInt8) (rs : List LogRecord) : Prop :=
  ∃ frames rest, b = flatten frames ++ rest ∧ List.Forall₂ (IsFrame gob) frames rs ∧
    ∀ f rec, IsFrame gob f rec → ¬ f <+: rest

/-- The bytes begin with a frame that is whole by its length field and has the checksum that it claims. -/
structure Intact (b : List UInt8) : Prop where
  header : hdrFixed ≤ leNat (b.take 4)
  whole : leNat (b.take 4) ≤ b.length
  checksum : leNat ((b.drop 4).take 4) = crc32 ((b.take (leNat (b.take 4))).drop 8)

/-- `decodeRecord` gives the record back. -/
def RoundTrips (gob : GobCodec) (rec : LogRecord) : Prop := decodeRecord gob (encodeRecord gob rec) = .ok rec

/-- `encoding/gob` does not decode a message that is cut off. -/
def GobCodec.Whole (gob : GobCodec) : Prop := ∀ att b, b <+: gob.encode att → b ≠ gob.encode att → gob.decode b = none

section
variable {gob : GobCodec} {rest b : List UInt8} {rec : LogRecord}

theorem readFrame_append {f : List UInt8} (frame : IsFrame gob f rec) :
    readFrame gob (f ++ rest) = some (rec, rest) := by
  obtain ⟨header, length, decodes⟩ := frame
  unfold hdrFixed at header
  have field : (f ++ rest).take 4 = f.take 4 := take_append_of_le_length (by omega)
  unfold readFrame hdrFixed
  rw [field, length, take_left, drop_left, decodes, length_append,
    if_neg (by omega), if_neg (by omega), if_neg (by omega)]

theorem frame_of_readFrame (read : readFrame gob b = some (rec, rest)) : ∃ f, b = f ++ rest ∧ IsFrame gob f rec := by
  unfold readFrame at read
  split at read
  · cases read
  split at read
  · cases read
  split at read
  · cases read
  rename_i header enough
  split at read
  · cases read
  rename_i decodes
  cases read
  unfold hdrFixed at header
  have length : (b.take (leNat (b.take 4))).length = leNat (b.take 4) := by
    rw [length_take]
    omega
  refine ⟨b.take (leNat (b.take 4)), (take_append_drop _ _).symm, ?_, ?_, decodes⟩
  · unfold hdrFixed
    omega
  · rw [length, take_take, Nat.min_eq_left (by omega)]

theorem IsFrame.intact {f : List UInt8} (frame : IsFrame gob f rec) : Intact (f ++ rest) := by
  obtain ⟨header, length, decodes⟩ := frame
  have field : (f ++ rest).take 4 = f.take 4 := take_append_of_le_length (by unfold hdrFixed at header; omega)
  unfold decodeRecord at decodes
  rw [if_neg (by omega)] at decodes
  dsimp only at decodes
  rw [length, if_neg (by omega), if_neg (by omega), take_length] at decodes
  split at decodes
  · rename_i checksum
    constructor <;> rw [field, length]
    · exact header
    · simp
    · rw [take_left, drop_append_of_le_length (by unfold hdrFixed at header; omega),
        take_append_of_le_length (by rw [length_drop]; unfold hdrFixed at header; omega), checksum]
  · cases decodes

theorem readFrame_eq_none_iff : readFrame gob b = none ↔ ∀ f rec, IsFrame gob f rec → ¬ f <+: b := by
  constructor
  · rintro none f rec frame ⟨rest, rfl⟩
    rw [readFrame_append frame] at none
    cases none
  · intro noFrame
    cases read : readFrame gob b with
    | none => rfl
    | some found =>
      obtain ⟨f, rfl, frame⟩ := frame_of_readFrame read
      exact absurd (prefix_append _ _) (noFrame f found.1 frame)

theorem readRecords_of_none (none : readFrame gob b = none) : readRecords gob b = [] := by
  rw [readRecords]
  split
  · rfl
  · rename_i read
    rw [none] at read
    cases read

theorem readRecords_append {f : List UInt8} (frame : IsFrame gob f rec) :
    readRecords gob (f ++ rest) = rec :: readRecords gob rest := by
  rw [readRecords]
  split
  · rename_i read
    rw [readFrame_append frame] at read
    cases read
  · rename_i read
    rw [readFrame_append frame] at read
    cases read
    rfl

theorem readRecords_frames {rs : List LogRecord} {frames : List (List UInt8)}
    (match' : List.Forall₂ (IsFrame gob) frames rs) (b : List UInt8) :
    readRecords gob (flatten frames ++ b) = rs ++ readRecords gob b := by
  induction match' with
  | nil => rfl
  | cons frame _ ih =>
    rw [flatten_cons, append_assoc, readRecords_append frame, ih]
    rfl

/-- What the reader returns is how the bytes split into frames. -/
theorem readRecords_eq_iff {rs : List LogRecord} : readRecords gob b = rs ↔ Frames gob b rs := by
  constructor
  · intro read
    induction rs generalizing b with
    | nil =>
      refine ⟨[], b, rfl, .nil, readFrame_eq_none_iff.1 ?_⟩
      rw [readRecords] at read
      split at read
      · assumption
      · cases read
    | cons rec rs ih =>
      rw [readRecords] at read
      split at read
      · cases read
      · rename_i found
        cases read
        obtain ⟨f, rfl, frame⟩ := frame_of_readFrame found
        obtain ⟨frames, rest, rfl, match', last⟩ := ih rfl
        exact ⟨f :: frames, rest, by simp, .cons frame match', last⟩
  · rintro ⟨frames, rest, rfl, match', last⟩
    rw [readRecords_frames match', readRecords_of_none (readFrame_eq_none_iff.2 last), append_nil]

/-- The length field of a record that decodes is its length. -/
theorem RoundTrips.length (trips : RoundTrips gob rec) (whole : gob.Whole) :
    leNat ((encodeRecord gob rec).take 4) = (encodeRecord gob rec).length := by
  obtain ⟨hdr, n, type, field, body⟩ := body_of_decodes trips
  have total := (length_encodeRecord gob rec).trans (congrArg (8 + ·) (length_encodePayload gob rec))
  have size : leNat ((encodeRecord gob rec).take 4) = (encodeRecord gob rec).length % 256 ^ 4 := by
    rw [length_encodeRecord, encodeRecord, take_left' (length_leBytes _ _), leNat_leBytes]
  by_contra other
  have short : n < (encodeBody gob rec).length := by omega
  have long : 256 ^ 4 ≤ 33 + (encodeBody gob rec).length := by omega
  unfold encodeBody at short long
  cases kind : rec.type with
  | write =>
    have fit := (lengths_of_decodeBody (type.trans kind) body).2.2
    simp only [kind, length_append, length_leBytes, length_singleton] at short
    rw [length_take] at fit
    omega
  | checkpointBegin =>
    simp only [kind, length_append, length_leBytes] at short
    simp only [decodeBody, type.trans kind, encodeBody, kind] at body
    split at body
    · cases body
    rename_i enough
    rw [length_take] at enough
    split at body
    · cases body
    split at body
    · cases body
    rename_i decoded
    rw [drop_take, drop_leBytes_append, take_take, whole rec.att _ ⟨_, take_append_drop _ _⟩] at decoded
    · cases decoded
    · intro same
      have := congrArg List.length same
      rw [length_take] at this
      omega
  | _ =>
    simp only [kind, length_leBytes] at long
    omega

theorem RoundTrips.isFrame (trips : RoundTrips gob rec)
    (length : leNat ((encodeRecord gob rec).take 4) = (encodeRecord gob rec).length) :
    IsFrame gob (encodeRecord gob rec) rec where
  header := by
    rw [length_encodeRecord, length_encodePayload]
    unfold hdrFixed
    omega
  length := length
  decodes := trips

theorem length_field (total : 8 + (encodePayload gob rec).length < 256 ^ 4) :
    leNat ((encodeRecord gob rec).take 4) = (encodeRecord gob rec).length := by
  rw [length_encodeRecord]
  exact leNat_take_append total _

theorem Valid.isFrame (valid : Valid gob rec) : IsFrame gob (encodeRecord gob rec) rec :=
  RoundTrips.isFrame (decodeRecord_encodeRecord valid) (length_field valid.total)

theorem readRecords_encodeAll {rs : List LogRecord} (frames : ∀ r ∈ rs, IsFrame gob (encodeRecord gob r) r)
    (b : List UInt8) : readRecords gob (encodeAll gob rs ++ b) = rs ++ readRecords gob b := by
  unfold encodeAll
  rw [flatMap_def, readRecords_frames (forall₂_map_left_iff.2 (forall₂_same.2 frames))]

/-- A cut-off frame is not read. -/
theorem readFrame_torn (length : leNat ((encodeRecord gob rec).take 4) = (encodeRecord gob rec).length)
    {torn : List UInt8} (part : torn <+: encodeRecord gob rec) (strict : torn ≠ encodeRecord gob rec) :
    readFrame gob torn = none := by
  have short : torn.length < (encodeRecord gob rec).length :=
    part.length_le.lt_of_ne fun same => strict (part.eq_of_length same)
  unfold readFrame
  split
  · rfl
  · obtain ⟨rest, eq⟩ := part
    have field : torn.take 4 = (encodeRecord gob rec).take 4 := by
      rw [← eq, take_append_of_le_length (by omega)]
    rw [field, length, if_pos short]
    split <;> rfl

/-- No call of the reading loop reaches a slice that is out of bounds. -/
theorem decodeRecord_take (header : hdrFixed ≤ leNat (b.take 4)) :
    decodeRecord gob (b.take (leNat (b.take 4))) ≠ .error .sliceBounds := by
  have field : (b.take (leNat (b.take 4))).take 4 = b.take 4 := by
    unfold hdrFixed at header
    rw [take_take, Nat.min_eq_left (by omega)]
  simp only [decodeRecord, decodePayload, decodeBody, field, if_neg (Nat.not_lt.2 header)]
  repeat' split
  all_goals simp

end

/-- The torn bytes do no harm when there are none or nothing is appended behind them. Otherwise they hide what is
appended, unless the bytes from there on happen to begin with a frame whose checksum is right. -/
theorem tailReadable_iff (gob : GobCodec) (rs recs : List LogRecord) (torn : List UInt8)
    (rec : LogRecord) (old : ∀ r ∈ rs, Valid gob r) (new : ∀ r ∈ appendedAfter rs recs, Valid gob r)
    (cut : Valid gob rec ∧ torn <+: encodeRecord gob rec ∧ torn ≠ encodeRecord gob rec)
    (chance : torn ≠ [] → recs ≠ [] → ¬ Intact (torn ++ encodeAll gob (appendedAfter rs recs))) :
    TailReadable gob rs torn recs ↔ torn = [] ∨ recs = [] := by
  have tail : readRecords gob torn = [] := readRecords_of_none (readFrame_torn cut.1.isFrame.length cut.2.1 cut.2.2)
  have scan : readRecords gob (encodeAll gob rs ++ torn) = rs := by
    rw [readRecords_encodeAll fun r mem => (old r mem).isFrame, tail, append_nil]
  have read : readRecords gob (reopened gob (encodeAll gob rs ++ torn) recs) =
      rs ++ readRecords gob (torn ++ encodeAll gob (appendedAfter rs recs)) := by
    unfold reopened
    rw [scan, append_assoc, readRecords_encodeAll fun r mem => (old r mem).isFrame]
  unfold TailReadable readAllRecordsFrom
  rw [read]
  constructor
  · intro all
    have whole := all 0
    simp only [Nat.zero_le, decide_true, filter_true, append_cancel_left_eq] at whole
    by_contra neither
    obtain ⟨some, more⟩ := not_or.1 neither
    obtain ⟨first, others, new⟩ := exists_cons_of_ne_nil (appendedAfter_ne_nil rs more)
    obtain ⟨frames, rest, bytes, match', -⟩ := readRecords_eq_iff.1 (whole.trans new)
    cases match' with
    | cons frame _ =>
      rw [flatten_cons, append_assoc] at bytes
      exact chance some more (bytes ▸ frame.intact)
  · rintro (rfl | rfl) fromLSN
    · have all := readRecords_encodeAll (fun r mem => (new r mem).isFrame) []
      have nothing : readRecords gob [] = [] := readRecords_of_none rfl
      rw [append_nil, nothing, append_nil] at all
      rw [nil_append, all]
    · rw [show appendedAfter rs [] = [] from rfl, show encodeAll gob [] = [] from rfl, append_nil, tail]

def commitAt (lsn txnID prevLSN : Nat) : LogRecord := { commitRecord txnID prevLSN with lsn }

theorem valid_commitAt (gob : GobCodec) {lsn txnID prevLSN : Nat} (small : lsn < 256 ^ 8)
    (small' : txnID < 256 ^ 8) (small'' : prevLSN < 256 ^ 8) :
    Valid gob (commitAt lsn txnID prevLSN) where
  stored := rfl
  lsn := small
  txnID := small'
  prevLSN := small''
  undoNextLSN := Nat.pow_pos (by decide)
  timestamp := Nat.pow_pos (by decide)
  beginLSN := Nat.pow_pos (by decide)
  op := Nat.zero_lt_succ 255
  table := Nat.pow_pos (by decide)
  key := Nat.pow_pos (by decide)
  total := by
    show 8 + (25 + (leBytes 8 prevLSN).length) < _
    rw [length_leBytes]
    decide
  att := by rintro ⟨⟩

/-- The length field of a `COMMIT` and what follows it. -/
theorem encodeRecord_commitAt (gob : GobCodec) (lsn txnID prevLSN : Nat) :
    ∃ rest, rest.length = 37 ∧ encodeRecord gob (commitAt lsn txnID prevLSN) = [41, 0, 0, 0] ++ rest := by
  have length : (encodePayload gob (commitAt lsn txnID prevLSN)).length = 33 := by
    show 25 + (leBytes 8 prevLSN).length = 33
    rw [length_leBytes]
  unfold encodeRecord
  rw [length]
  refine ⟨_, ?_, rfl⟩
  rw [length_append, length_leBytes, length]

/-- A torn byte at the end is skipped as long as nothing is appended. -/
theorem tailReadable_readOnly : TailReadable ⟨fun _ => [], fun _ => none⟩ [commitAt 1 7 0] [41] [] := by
  obtain ⟨rest, -, bytes⟩ := encodeRecord_commitAt ⟨fun _ => [], fun _ => none⟩ 2 8 0
  refine (tailReadable_iff _ [commitAt 1 7 0] [] [41] (commitAt 2 8 0) ?_ ?_ ?_ fun _ none => absurd rfl none).2 (.inr rfl)
  · intro r mem
    rw [mem_singleton.1 mem]
    exact valid_commitAt _ (by decide) (by decide) (by decide)
  · nofun
  · refine ⟨valid_commitAt _ (by decide) (by decide) (by decide), ?_, ?_⟩
    · rw [bytes]
      exact ⟨[0, 0, 0] ++ rest, rfl⟩
    · intro same
      cases same

/-- The scan returns the records before a cut-off frame, does not panic, and returns no less of a file that
goes on. -/
theorem readAllRecordsFrom_exact (gob : GobCodec) (whole : gob.Whole) :
    (∀ rs rec torn fromLSN, (∀ r ∈ rs, RoundTrips gob r) →
      RoundTrips gob rec ∨ 8 + (encodePayload gob rec).length < 256 ^ 4 →
      torn <+: encodeRecord gob rec → torn ≠ encodeRecord gob rec →
      readAllRecordsFrom gob (encodeAll gob rs ++ torn) fromLSN = rs.filter fun rec => fromLSN ≤ rec.lsn) ∧
    (∀ b : List UInt8, hdrFixed ≤ leNat (b.take 4) → decodeRecord gob (b.take (leNat (b.take 4))) ≠ .error .sliceBounds) ∧
    ∀ b c fromLSN, readAllRecordsFrom gob b fromLSN <+: readAllRecordsFrom gob (b ++ c) fromLSN := by
  refine ⟨fun rs rec torn fromLSN trips further part strict => ?_, fun b => decodeRecord_take, fun b c fromLSN => ?_⟩
  · have length := further.elim (·.length whole) length_field
    unfold readAllRecordsFrom
    rw [readRecords_encodeAll fun r mem => (trips r mem).isFrame ((trips r mem).length whole),
      readRecords_of_none (readFrame_torn length part strict), append_nil]
  · unfold readAllRecordsFrom
    generalize read : readRecords gob b = rs
    obtain ⟨frames, rest, rfl, match', -⟩ := readRecords_eq_iff.1 read
    rw [append_assoc, readRecords_frames match']
    exact (prefix_append _ _).filter _

/-- A `COMMIT` and the first byte of another. -/
theorem readAllRecordsFrom_commit : readAllRecordsFrom ⟨fun _ => [], fun _ => none⟩
    (encodeAll ⟨fun _ => [], fun _ => none⟩ [commitAt 1 7 0] ++ [41]) 0 = [commitAt 1 7 0] := by
  obtain ⟨rest, -, bytes⟩ := encodeRecord_commitAt ⟨fun _ => [], fun _ => none⟩ 2 8 0
  refine (readAllRecordsFrom_exact _ fun _ _ _ _ => rfl).1 [commitAt 1 7 0] (commitAt 2 8 0) [41] 0 ?_ ?_ ?_ ?_
  · rw [forall_mem_singleton]
    exact decodeRecord_encodeRecord (valid_commitAt _ (by decide) (by decide) (by decide))
  · exact .inl (decodeRecord_encodeRecord (valid_commitAt _ (by decide) (by decide) (by decide)))
  · rw [bytes]
    exact ⟨[0, 0, 0] ++ rest, rfl⟩
  · intro same
    cases same

/-- One torn byte hides the `COMMIT` that is appended after the reopen: the length field that
starts with it claims more bytes than the file has. -/
theorem not_tailReadable : ¬ ∀ gob rs recs torn rec, (∀ r ∈ rs, Valid gob r) →
    (∀ r ∈ appendedAfter rs recs, Valid gob r) →
    Valid gob rec ∧ torn <+: encodeRecord gob rec ∧ torn ≠ encodeRecord gob rec →
      TailReadable gob rs torn recs := by
  intro claim
  let gob : GobCodec := ⟨fun _ => [], fun _ => none⟩
  have valid : Valid gob (commitAt 1 7 0) := valid_commitAt gob (by decide) (by decide) (by decide)
  obtain ⟨rest, length, bytes⟩ := encodeRecord_commitAt gob 1 7 0
  have scan : readRecords gob [41] = [] := readRecords_of_none rfl
  have appended (old : List LogRecord) (none : old = []) : appendedAfter old [commitRecord 7 0] = [commitAt 1 7 0] := by
    rw [none]
    rfl
  have file : reopened gob ([] ++ [41]) [commitRecord 7 0] = [41, 41, 0, 0, 0] ++ rest := by
    unfold reopened
    rw [nil_append, appended _ scan]
    show [41] ++ (encodeRecord gob (commitAt 1 7 0) ++ []) = _
    rw [bytes, append_nil]
    rfl
  -- the length field reads 41 + 41 * 256
  have none : readFrame gob ([41, 41, 0, 0, 0] ++ rest) = none := by
    have field : leNat (([41, 41, 0, 0, 0] ++ rest).take 4) = 10537 := by simp [leNat]
    unfold readFrame hdrFixed
    have size : ([41, 41, 0, 0, 0] ++ rest).length = 42 := by
      rw [length_append, length]
      rfl
    rw [field, size, if_neg (by decide), if_neg (by decide), if_pos (by decide)]
  have readable := claim gob [] [commitRecord 7 0] [41] (commitAt 1 7 0) (by rintro r ⟨⟩) ?_ ⟨valid, ?_, ?_⟩ 0
  · unfold readAllRecordsFrom at readable
    rw [show encodeAll gob [] = [] from rfl, file, readRecords_of_none none, appended [] rfl] at readable
    cases readable
  · intro r mem
    rw [mem_singleton.1 mem]
    exact valid
  · rw [bytes]
    exact ⟨[0, 0, 0] ++ rest, rfl⟩
  · intro same
    cases same

end TransactionManager.Wal
