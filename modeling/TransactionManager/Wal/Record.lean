import TransactionManager.Types.Value
import Mathlib.Data.List.Induction

/-!
# Log records and the log writer

`LogRecord` of `internal/wal/record.go` and the record-building methods of
`internal/wal/manager.go` as the transaction manager uses them through `WALWriter`: each
appends one record under the next LSN. Buffering, flushing and the bytes on disk are in
`Wal.Flush` and below.
-/

namespace TransactionManager.Wal
open Lib List TransactionManager.Types

inductive RecordType where
  | begin | write | commit | abort | clr | checkpointBegin | checkpointEnd
  deriving DecidableEq

/-- `ATTEntry`: a row of the active transaction table of a checkpoint. -/
structure ATTEntry where
  lastLSN : Nat
  firstLSN : Nat
  status : Nat
  deriving DecidableEq

structure LogRecord where
  lsn : Nat := 0
  type : RecordType
  txnID : Nat := 0
  prevLSN : Nat := 0
  undoNextLSN : Nat := 0
  op : Nat := 0
  table : GoString := []
  key : GoString := []
  before : List UInt8 := []
  after : List UInt8 := []
  att : List (Nat × ATTEntry) := []
  beginLSN : Nat := 0
  timestamp : Nat := 0
  deriving DecidableEq

/-- The log as its writer sees it: the next LSN and the records appended so far. -/
structure Log where
  nextLSN : Nat
  records : List LogRecord
  deriving DecidableEq

/-- `appendRecord`: the record gets the next LSN and goes to the end of the log. -/
def Log.append (l : Log) (rec : LogRecord) : Nat × Log :=
  (l.nextLSN, ⟨l.nextLSN + 1, l.records ++ [{ rec with lsn := l.nextLSN }]⟩)

/-- `Begin`. The timestamp is not read by anything. -/
def beginRecord (txnID : Nat) : LogRecord := { type := .begin, txnID, prevLSN := LSNInvalid }

def writeRecord (txnID : Nat) (prevLSN : Nat) (op : Nat) (table key : GoString)
    (before after : List UInt8) : LogRecord :=
  { type := .write, txnID, prevLSN, undoNextLSN := prevLSN, op, table, key, before, after }

def commitRecord (txnID : Nat) (lastLSN : Nat) : LogRecord := { type := .commit, txnID, prevLSN := lastLSN }

def abortRecord (txnID : Nat) (lastLSN : Nat) : LogRecord := { type := .abort, txnID, prevLSN := lastLSN }

def clrRecord (txnID : Nat) (prevLSN undoNextLSN : Nat) : LogRecord := { type := .clr, txnID, prevLSN, undoNextLSN }

/-- The highest LSN of the records, 0 when there are none: `scanHighestLSN` and
`highestLSNInBytes`. -/
def highestLSN (log : List LogRecord) : Nat := log.foldl (fun high rec => if high < rec.lsn then rec.lsn else high) 0

theorem lsn_le_highestLSN {log : List LogRecord} {r : LogRecord} (mem : r ∈ log) : r.lsn ≤ highestLSN log := by
  unfold highestLSN
  induction log using List.reverseRecOn with
  | nil => cases mem
  | append_singleton log last ih =>
    rw [foldl_append, foldl_cons, foldl_nil]
    rcases mem_append.1 mem with old | new
    · have := ih old
      split <;> omega
    · rw [mem_singleton.1 new]
      split <;> omega

theorem exists_lsn_eq_highestLSN {log : List LogRecord} (some' : highestLSN log ≠ 0) :
    ∃ r ∈ log, r.lsn = highestLSN log := by
  unfold highestLSN at *
  induction log using List.reverseRecOn with
  | nil => exact absurd rfl some'
  | append_singleton log last ih =>
    rw [foldl_append, foldl_cons, foldl_nil] at some' ⊢
    split at some'
    · rename_i higher
      rw [if_pos higher]
      exact ⟨last, by simp, rfl⟩
    · rename_i lower
      rw [if_neg lower]
      obtain ⟨r, mem, eq⟩ := ih some'
      exact ⟨r, mem_append_left _ mem, eq⟩

/-!
## The bytes of a log record

`encodeRecord` and `decodeRecord` of `internal/wal/record.go`. A frame is its length, the
CRC-32 of the rest, type, LSN, transaction ID, previous LSN and a body that depends on the
type. The active transaction table of a checkpoint is encoded by `encoding/gob`, which is a
parameter here. Decoding gives a valid record back.
-/

/-- `encoding/gob` on the active transaction table; decoding can fail. -/
structure GobCodec where
  encode : List (Nat × ATTEntry) → List UInt8
  decode : List UInt8 → Option (List (Nat × ATTEntry))

/-- `uint8(rec.Type)`. -/
def RecordType.byte : RecordType → UInt8
  | .begin => 1
  | .write => 2
  | .commit => 3
  | .abort => 4
  | .clr => 5
  | .checkpointBegin => 6
  | .checkpointEnd => 7

def RecordType.ofByte : UInt8 → Option RecordType
  | 1 => some .begin
  | 2 => some .write
  | 3 => some .commit
  | 4 => some .abort
  | 5 => some .clr
  | 6 => some .checkpointBegin
  | 7 => some .checkpointEnd
  | _ => none

@[simp] theorem RecordType.ofByte_byte (t : RecordType) : RecordType.ofByte t.byte = some t := by
  cases t <;> rfl

/-- `hdrFixed`: length, CRC, type, LSN, transaction ID and previous LSN. -/
def hdrFixed : Nat := 33

/-- The type-specific part of a record. -/
def encodeBody (gob : GobCodec) (rec : LogRecord) : List UInt8 :=
  match rec.type with
  | .begin => leBytes 8 rec.timestamp
  | .write =>
    leBytes 8 rec.undoNextLSN ++ ([UInt8.ofNat rec.op] ++ (leBytes 2 rec.table.length ++
      (leBytes 2 rec.key.length ++ (leBytes 4 rec.before.length ++ (leBytes 4 rec.after.length ++
        (rec.table ++ (rec.key ++ (rec.before ++ rec.after))))))))
  | .commit | .abort => leBytes 8 rec.prevLSN
  | .clr => leBytes 8 rec.undoNextLSN
  | .checkpointBegin => leBytes 4 (gob.encode rec.att).length ++ gob.encode rec.att
  | .checkpointEnd => leBytes 8 rec.beginLSN

/-- What the CRC covers. -/
def encodePayload (gob : GobCodec) (rec : LogRecord) : List UInt8 :=
  [rec.type.byte] ++ (leBytes 8 rec.lsn ++ (leBytes 8 rec.txnID ++ (leBytes 8 rec.prevLSN ++ encodeBody gob rec)))

def encodeRecord (gob : GobCodec) (rec : LogRecord) : List UInt8 :=
  leBytes 4 (8 + (encodePayload gob rec).length) ++ (leBytes 4 (crc32 (encodePayload gob rec)) ++ encodePayload gob rec)

/-- The errors of `decodeRecord`. `sliceBounds` is a Go panic that no caller can reach, as all have checked the length
field. -/
inductive RecordError where
  | tooShort (len : Nat)
  | claims (totalLen len : Nat)
  | sliceBounds
  | crcMismatch (stored computed : Nat)
  | beginTooShort
  | writeTooShort
  | writeTruncated
  | commitTooShort
  | clrTooShort
  | checkpointBeginTooShort
  | gobTruncated
  | gobDecode
  | checkpointEndTooShort
  | unknownType (t : UInt8)
  deriving DecidableEq

/-- The switch of `decodeRecord`, with the record that has the header fields. -/
def decodeBody (gob : GobCodec) (rec : LogRecord) (body : List UInt8) : Except RecordError LogRecord :=
  match rec.type with
  | .begin =>
    if body.length < 8 then .error .beginTooShort
    else .ok { rec with timestamp := leNat (body.take 8) }
  | .write =>
    if body.length < 21 then .error .writeTooShort
    else
      let tableLen := leNat ((body.drop 9).take 2)
      let keyLen := leNat ((body.drop 11).take 2)
      let beforeLen := leNat ((body.drop 13).take 4)
      let afterLen := leNat ((body.drop 17).take 4)
      let rest := body.drop 21
      if rest.length < tableLen + keyLen + beforeLen + afterLen then .error .writeTruncated
      else .ok { rec with
        undoNextLSN := leNat (body.take 8)
        op := ((body.drop 8).headD 0).toNat
        table := rest.take tableLen
        key := (rest.drop tableLen).take keyLen
        before := ((rest.drop tableLen).drop keyLen).take beforeLen
        after := (((rest.drop tableLen).drop keyLen).drop beforeLen).take afterLen }
  | .commit | .abort => if body.length < 8 then .error .commitTooShort else .ok rec
  | .clr =>
    if body.length < 8 then .error .clrTooShort
    else .ok { rec with undoNextLSN := leNat (body.take 8) }
  | .checkpointBegin =>
    if body.length < 4 then .error .checkpointBeginTooShort
    else
      let gobLen := leNat (body.take 4)
      if body.length < 4 + gobLen then .error .gobTruncated
      else match gob.decode ((body.drop 4).take gobLen) with
        | none => .error .gobDecode
        | some att => .ok { rec with att }
  | .checkpointEnd =>
    if body.length < 8 then .error .checkpointEndTooShort
    else .ok { rec with beginLSN := leNat (body.take 8) }

/-- The fields behind the CRC. -/
def decodePayload (gob : GobCodec) (payload : List UInt8) : Except RecordError LogRecord :=
  match RecordType.ofByte (payload.headD 0) with
  | none => .error (.unknownType (payload.headD 0))
  | some type =>
    decodeBody gob
      { type
        lsn := leNat ((payload.drop 1).take 8)
        txnID := leNat ((payload.drop 9).take 8)
        prevLSN := leNat ((payload.drop 17).take 8) } (payload.drop 25)

def decodeRecord (gob : GobCodec) (b : List UInt8) : Except RecordError LogRecord :=
  if b.length < hdrFixed then .error (.tooShort b.length)
  else
    let totalLen := leNat (b.take 4)
    if b.length < totalLen then .error (.claims totalLen b.length)
    else if totalLen < hdrFixed then .error .sliceBounds
    else
      let storedCRC := leNat ((b.drop 4).take 4)
      let payload := (b.take totalLen).drop 8
      if storedCRC = crc32 payload then decodePayload gob payload
      else .error (.crcMismatch storedCRC (crc32 payload))

/-! ## The round trip -/

/-- The record with only the fields that its type stores. -/
def LogRecord.stored (rec : LogRecord) : LogRecord :=
  let hdr : LogRecord := { lsn := rec.lsn, type := rec.type, txnID := rec.txnID, prevLSN := rec.prevLSN }
  match rec.type with
  | .begin => { hdr with timestamp := rec.timestamp }
  | .write => { hdr with
      undoNextLSN := rec.undoNextLSN
      op := rec.op
      table := rec.table
      key := rec.key
      before := rec.before
      after := rec.after }
  | .commit | .abort => hdr
  | .clr => { hdr with undoNextLSN := rec.undoNextLSN }
  | .checkpointBegin => { hdr with att := rec.att }
  | .checkpointEnd => { hdr with beginLSN := rec.beginLSN }

/-- A record that fits its encoding: it has the fields of its type, and they fit their
widths. -/
structure Valid (gob : GobCodec) (rec : LogRecord) : Prop where
  stored : rec.stored = rec
  lsn : rec.lsn < 256 ^ 8
  txnID : rec.txnID < 256 ^ 8
  prevLSN : rec.prevLSN < 256 ^ 8
  undoNextLSN : rec.undoNextLSN < 256 ^ 8
  timestamp : rec.timestamp < 256 ^ 8
  beginLSN : rec.beginLSN < 256 ^ 8
  op : rec.op < 256
  table : rec.table.length < 256 ^ 2
  key : rec.key.length < 256 ^ 2
  total : 8 + (encodePayload gob rec).length < 256 ^ 4
  att : rec.type = .checkpointBegin → gob.decode (gob.encode rec.att) = some rec.att

section
variable {gob : GobCodec} {rec : LogRecord}

theorem length_encodePayload (gob : GobCodec) (rec : LogRecord) :
    (encodePayload gob rec).length = 25 + (encodeBody gob rec).length := by
  simp only [encodePayload, length_append, length_singleton, length_leBytes]
  omega

theorem length_encodeRecord (gob : GobCodec) (rec : LogRecord) :
    (encodeRecord gob rec).length = 8 + (encodePayload gob rec).length := by
  simp only [encodeRecord, length_append, length_leBytes]
  omega

theorem drop_past {b field rest : List UInt8} {at' width : Nat} (here : b.drop at' = field ++ rest)
    (length : field.length = width) : b.drop (at' + width) = rest := by
  rw [← drop_drop, here, drop_left' length]

theorem leNat_field {width n : Nat} (small : n < 256 ^ width) : leNat ((leBytes width n).take width) = n := by
  rw [take_of_length_le (length_leBytes width n).le, leNat_leBytes_of_lt small]

theorem decodeBody_write (hdr : LogRecord) (type : hdr.type = .write) (valid : Valid gob rec)
    (write : rec.type = .write) : decodeBody gob hdr (encodeBody gob rec) = .ok { hdr with
      undoNextLSN := rec.undoNextLSN
      op := rec.op
      table := rec.table
      key := rec.key
      before := rec.before
      after := rec.after } := by
  have total := valid.total
  rw [length_encodePayload] at total
  have at0 : (encodeBody gob rec).drop 0 = leBytes 8 rec.undoNextLSN ++ ([UInt8.ofNat rec.op] ++
      (leBytes 2 rec.table.length ++ (leBytes 2 rec.key.length ++ (leBytes 4 rec.before.length ++
        (leBytes 4 rec.after.length ++ (rec.table ++ (rec.key ++ (rec.before ++ rec.after)))))))) := by
    unfold encodeBody
    rw [write, drop_zero]
  have long : (encodeBody gob rec).length = 21 + (rec.table.length + rec.key.length +
      rec.before.length + rec.after.length) := by
    have := congrArg List.length at0
    simp only [drop_zero, length_append, length_leBytes, length_singleton] at this
    omega
  have at8 := drop_past at0 (length_leBytes _ _)
  have at9 := drop_past at8 length_singleton
  have at11 := drop_past at9 (length_leBytes _ _)
  have at13 := drop_past at11 (length_leBytes _ _)
  have at17 := drop_past at13 (length_leBytes _ _)
  have at21 := drop_past at17 (length_leBytes _ _)
  have table := leNat_take_append valid.table
  have key := leNat_take_append valid.key
  have before := leNat_take_append (show rec.before.length < 256 ^ 4 by omega)
  have after := leNat_take_append (show rec.after.length < 256 ^ 4 by omega)
  have undoNext : leNat ((encodeBody gob rec).take 8) = rec.undoNextLSN := by
    rw [drop_zero] at at0
    rw [at0, leNat_take_append valid.undoNextLSN]
  have op : (UInt8.ofNat rec.op).toNat = rec.op := by
    rw [UInt8.toNat_ofNat', Nat.mod_eq_of_lt valid.op]
  unfold decodeBody
  rw [type]
  simp only [at8, at9, at11, at13, at17, at21, table, key, before, after, undoNext, long]
  rw [if_neg (by omega), if_neg (by simp only [length_append]; omega)]
  simp [op]

/-- Decoding gives a valid record back. -/
theorem decodePayload_encodePayload (valid : Valid gob rec) : decodePayload gob (encodePayload gob rec) = .ok rec := by
  have at0 : (encodePayload gob rec).drop 0 = [rec.type.byte] ++ (leBytes 8 rec.lsn ++
      (leBytes 8 rec.txnID ++ (leBytes 8 rec.prevLSN ++ encodeBody gob rec))) := drop_zero
  have at1 := drop_past at0 length_singleton
  have at9 := drop_past at1 (length_leBytes _ _)
  have at17 := drop_past at9 (length_leBytes _ _)
  have at25 := drop_past at17 (length_leBytes _ _)
  have first : (encodePayload gob rec).headD 0 = rec.type.byte := rfl
  unfold decodePayload
  rw [first, RecordType.ofByte_byte]
  simp only [at1, at9, at17, at25, leNat_take_append valid.lsn, leNat_take_append valid.txnID,
    leNat_take_append valid.prevLSN]
  have stored := valid.stored
  unfold LogRecord.stored at stored
  cases type : rec.type with
  | write =>
    rw [decodeBody_write _ rfl valid type]
    rw [type] at stored
    exact congrArg _ stored
  | checkpointBegin =>
    have body : encodeBody gob rec = leBytes 4 (gob.encode rec.att).length ++ gob.encode rec.att := by
      unfold encodeBody
      rw [type]
    have length : (encodeBody gob rec).length = 4 + (gob.encode rec.att).length := by
      rw [body, length_append, length_leBytes]
    have total := valid.total
    rw [length_encodePayload, length] at total
    have small : (gob.encode rec.att).length < 256 ^ 4 := by omega
    rw [type] at stored
    have gobLen : leNat ((encodeBody gob rec).take 4) = (gob.encode rec.att).length := by
      rw [body, leNat_take_append small]
    have gobBytes : (encodeBody gob rec).drop 4 = gob.encode rec.att := by
      rw [body, drop_leBytes_append]
    simp only [decodeBody, gobLen, gobBytes, length, take_length, valid.att type]
    rw [if_neg (by omega), if_neg (by omega)]
    exact congrArg _ stored
  | _ =>
    rw [type] at stored
    simp only [decodeBody, encodeBody, type, length_leBytes, lt_irrefl, if_false, leNat_field valid.timestamp,
      leNat_field valid.undoNextLSN, leNat_field valid.beginLSN]
    exact congrArg _ stored

/-- `decodeRecord` gives a valid record back. -/
theorem decodeRecord_encodeRecord (valid : Valid gob rec) : decodeRecord gob (encodeRecord gob rec) = .ok rec := by
  have length := length_encodeRecord gob rec
  have payload := length_encodePayload gob rec
  have total : leNat ((encodeRecord gob rec).take 4) = (encodeRecord gob rec).length := by
    rw [length]
    exact leNat_take_append valid.total _
  have at4 : (encodeRecord gob rec).drop 4 =
      leBytes 4 (crc32 (encodePayload gob rec)) ++ encodePayload gob rec := drop_leBytes_append _ _ _
  have at8 : (encodeRecord gob rec).drop 8 = encodePayload gob rec := drop_past at4 (length_leBytes _ _)
  unfold decodeRecord
  simp only [total, at4, leNat_take_append (crc32_lt _), take_length, at8]
  rw [if_neg (by unfold hdrFixed; omega), if_neg (lt_irrefl _), if_neg (by unfold hdrFixed; omega), if_pos trivial]
  exact decodePayload_encodePayload valid

variable {rec' hdr : LogRecord} {body : List UInt8}

/-- What `decodeRecord` reads of an encoded record: as much of the body as the length field leaves. -/
theorem body_of_decodes (decoded : decodeRecord gob (encodeRecord gob rec) = .ok rec') :
    ∃ hdr n, hdr.type = rec.type ∧ leNat ((encodeRecord gob rec).take 4) = hdrFixed + n ∧
      decodeBody gob hdr ((encodeBody gob rec).take n) = .ok rec' := by
  have at4 : (encodeRecord gob rec).drop 4 =
      leBytes 4 (crc32 (encodePayload gob rec)) ++ encodePayload gob rec := drop_leBytes_append _ _ _
  have at8 := drop_past at4 (length_leBytes _ _)
  simp only [decodeRecord] at decoded
  split at decoded
  · cases decoded
  split at decoded
  · cases decoded
  split at decoded
  · cases decoded
  split at decoded
  · rename_i field _
    obtain ⟨n, field⟩ := Nat.exists_eq_add_of_le (Nat.not_lt.1 field)
    rw [field, drop_take, at8] at decoded
    have first : ((encodePayload gob rec).take (25 + n)).headD 0 = rec.type.byte := by
      rw [Nat.add_comm]
      rfl
    have rest : ((encodePayload gob rec).take (25 + n)).drop 25 = (encodeBody gob rec).take n := by
      rw [drop_take, Nat.add_sub_cancel_left]
      rfl
    unfold decodePayload at decoded
    rw [show hdrFixed + n - 8 = 25 + n by unfold hdrFixed; omega, first, RecordType.ofByte_byte, rest] at decoded
    refine ⟨_, n, ?_, field, decoded⟩
    rfl
  · cases decoded

theorem lengths_of_decodeBody (type : hdr.type = .write) (decoded : decodeBody gob hdr body = .ok rec) :
    rec.table.length < 256 ^ 2 ∧ rec.key.length < 256 ^ 2 ∧
      21 + (rec.table.length + rec.key.length + rec.before.length + rec.after.length) ≤ body.length := by
  have width (off : Nat) := leNat_lt ((body.drop off).take 2)
  have tableLen := width 9
  have keyLen := width 11
  simp only [decodeBody, type] at decoded
  split at decoded
  · cases decoded
  split at decoded
  · cases decoded
  cases decoded
  simp only [length_take, length_drop] at *
  rw [Nat.min_eq_left (by omega)] at tableLen keyLen
  omega

/-- A record as `Begin`, `Write`, `Commit`, `Abort`, `CLR` and the checkpoints build it: the fields of its type in
their machine widths, less than 4 GiB in all, and an active transaction table that `gob` gives back. -/
structure Produced (gob : GobCodec) (rec : LogRecord) : Prop where
  stored : rec.stored = rec
  words : ∀ n ∈ [rec.lsn, rec.txnID, rec.prevLSN, rec.undoNextLSN, rec.timestamp, rec.beginLSN], n < 256 ^ 8
  op : rec.op < 256
  total : 8 + (encodePayload gob rec).length < 256 ^ 4
  att : rec.type = .checkpointBegin → gob.decode (gob.encode rec.att) = some rec.att

theorem short_of_decodes (stored : rec.stored = rec) (decoded : decodeRecord gob (encodeRecord gob rec) = .ok rec) :
    rec.table.length < 256 ^ 2 ∧ rec.key.length < 256 ^ 2 := by
  obtain ⟨hdr, n, type, -, body⟩ := body_of_decodes decoded
  cases kind : rec.type with
  | write =>
    obtain ⟨table, key, -⟩ := lengths_of_decodeBody (type.trans kind) body
    exact ⟨table, key⟩
  | _ =>
    unfold LogRecord.stored at stored
    rw [kind] at stored
    rw [← stored]
    exact ⟨by simp, by simp⟩

/-- `decodeRecord` gives a record back iff its table name and its key are shorter than 64 KiB. -/
theorem decodeRecord_encodeRecord_iff (gob : GobCodec) (rec : LogRecord) (produced : Produced gob rec) :
    decodeRecord gob (encodeRecord gob rec) = .ok rec ↔ rec.table.length < 256 ^ 2 ∧ rec.key.length < 256 ^ 2 := by
  obtain ⟨stored, words, op, total, att⟩ := produced
  refine ⟨short_of_decodes stored, fun ⟨table, key⟩ => decodeRecord_encodeRecord ?_⟩
  simp only [forall_mem_cons] at words
  obtain ⟨lsn, txnID, prevLSN, undoNextLSN, timestamp, beginLSN, -⟩ := words
  exact { stored, lsn, txnID, prevLSN, undoNextLSN, timestamp, beginLSN, op, table, key, total, att }

def longWrite (bytes : Nat) : LogRecord :=
  { lsn := 1, type := .write, txnID := 1, table := [116], key := replicate bytes 97 }

theorem produced_longWrite {bytes : Nat} (small : bytes < 256 ^ 3) : Produced gob (longWrite bytes) where
  stored := rfl
  words := by simp [longWrite]
  op := Nat.zero_lt_succ 255
  total := by
    simp [length_encodePayload, encodeBody, longWrite]
    omega
  att := by rintro ⟨⟩

theorem decodeRecord_encodeRecord_short : decodeRecord ⟨fun _ => [], fun _ => none⟩
    (encodeRecord ⟨fun _ => [], fun _ => none⟩ (longWrite 3)) = .ok (longWrite 3) :=
  (decodeRecord_encodeRecord_iff _ (longWrite 3) (produced_longWrite (by decide))).2 (by decide)

/-- A key of 64 KiB, whose length is written as zero. -/
theorem not_decodeRecord_encodeRecord : ¬ ∀ (gob : GobCodec) (rec : LogRecord), Produced gob rec →
    decodeRecord gob (encodeRecord gob rec) = .ok rec := by
  intro claim
  have produced : Produced ⟨fun _ => [], fun _ => none⟩ (longWrite 65536) := produced_longWrite (by decide)
  have length (bytes : Nat) : (longWrite bytes).key.length = bytes := length_replicate
  have short := (short_of_decodes produced.stored (claim _ _ produced)).2
  rw [length] at short
  exact absurd short (by decide)

end

end TransactionManager.Wal
