import TransactionManager.Lib.Bytes

/-!
# Cell values and rows

`internal/types/value.go`. A Go string is its bytes. A float is its IEEE-754 bit
pattern: the row codec copies bits and nothing here computes with floats. A Go slice may
be nil, and the write paths test for that, so the data of a row is an optional list.
Transaction IDs and log sequence numbers count up in 64 bits from zero and do not wrap in
the life of a server: they are natural numbers.
-/

namespace TransactionManager.Types
open Lib List

/-- A Go string: a byte sequence. -/
abbrev GoString := List UInt8

/-- `LSNInvalid`: no record has been written. -/
def LSNInvalid : Nat := 0

/-- `ValueType`, a Go `int` of which five values have a meaning. -/
inductive ValueType where
  | null
  | int
  | float
  | text
  | bool
  | other (code : Int)
  deriving DecidableEq

/-- The integer behind a `ValueType`. -/
def ValueType.code : ValueType → Int
  | .null => 0
  | .int => 1
  | .float => 2
  | .text => 3
  | .bool => 4
  | .other code => code

/-- The `ValueType` of an integer. -/
def ValueType.ofCode : Int → ValueType
  | 0 => .null
  | 1 => .int
  | 2 => .float
  | 3 => .text
  | 4 => .bool
  | code => .other code

/-- A dynamically typed cell. Only the payload field of its own type means anything. -/
structure Value where
  type : ValueType
  isNull : Bool := false
  int : BitVec 64 := 0
  float : BitVec 64 := 0
  text : GoString := []
  bool : Bool := false
  deriving DecidableEq

def intVal (n : BitVec 64) : Value := { type := .int, int := n }

/-- A `[]Value` that may be nil. -/
abbrev RowData := Option (List Value)

/-- The error codes of `TxnError` that the modelled operations return. -/
inductive TxnError where
  | writeConflict (conflictingTxn : Nat)
  | serializationFailure
  | lockTimeout
  | txnAborted
  | txnCommitted (txnID : Nat)
  | txnNotFound (txnID : Nat)
  | rowNotFound
  | tableNotFound (name : GoString)
  | savepointNotFound (name : GoString)
  | tooManyTransactions
  deriving DecidableEq

/-- How a call ends: `nil`, an error value, or a panic of the row codec. -/
inductive Outcome where
  | ok
  | err (e : TxnError)
  | panicked
  deriving DecidableEq

/-!
## The row codec

`internal/types/encode.go`: `EncodeValues` and `DecodeValues`. Encoding panics on more
than 65535 values or on a text longer than 65535 bytes; `none` stands for the panic.
-/

open Value ValueType

/-- `uint8(v.Type)`. -/
def ValueType.byte (t : ValueType) : UInt8 := UInt8.ofNat (t.code % 256).toNat

/-- The bytes of one value: type, null flag, then the payload of the value's own type. -/
def encodeValue (v : Value) : Option (List UInt8) :=
  if v.isNull then some [v.type.byte, 1]
  else match v.type with
    | .int => some ([v.type.byte, 0] ++ leBytes 8 v.int.toNat)
    | .float => some ([v.type.byte, 0] ++ leBytes 8 v.float.toNat)
    | .text =>
      if 0xFFFF < v.text.length then none
      else some ([v.type.byte, 0] ++ (leBytes 2 v.text.length ++ v.text))
    | .bool => some [v.type.byte, 0, if v.bool then 1 else 0]
    | .null | .other _ => some [v.type.byte, 0]

def encodeValues (vals : List Value) : Option (List UInt8) :=
  if 0xFFFF < vals.length then none
  else (vals.mapM encodeValue).map fun cells => leBytes 2 vals.length ++ cells.flatten

/-- The errors of `DecodeValues`, with the index of the value being read. -/
inductive DecodeError where
  | tooShort (len : Nat)
  | truncatedHeader (i : Nat)
  | truncatedInt (i : Nat)
  | truncatedFloat (i : Nat)
  | truncatedTextLength (i : Nat)
  | truncatedTextBody (i : Nat)
  | truncatedBool (i : Nat)
  | unknownType (t : ValueType) (i : Nat)
  deriving DecidableEq

/-- The body of `DecodeValues`' loop: one value off the front of the buffer. -/
def decodeValue (i : Nat) : List UInt8 → Except DecodeError (Value × List UInt8)
  | tb :: nb :: rest =>
    let t := ofCode tb.toNat
    if nb ≠ 0 then .ok ({ type := t, isNull := true }, rest)
    else match t with
      | .null => .ok ({ type := t }, rest)
      | .int =>
        if rest.length < 8 then .error (.truncatedInt i)
        else .ok ({ type := t, int := BitVec.ofNat 64 (leNat (rest.take 8)) }, rest.drop 8)
      | .float =>
        if rest.length < 8 then .error (.truncatedFloat i)
        else .ok ({ type := t, float := BitVec.ofNat 64 (leNat (rest.take 8)) }, rest.drop 8)
      | .text =>
        if rest.length < 2 then .error (.truncatedTextLength i)
        else
          let tlen := leNat (rest.take 2)
          let body := rest.drop 2
          if body.length < tlen then .error (.truncatedTextBody i)
          else .ok ({ type := t, text := body.take tlen }, body.drop tlen)
      | .bool =>
        match rest with
        | [] => .error (.truncatedBool i)
        | b :: rest => .ok ({ type := t, bool := b ≠ 0 }, rest)
      | .other _ => .error (.unknownType t i)
  | _ => .error (.truncatedHeader i)

/-- `DecodeValues`' loop, from value `i` on, with `count` values left. -/
def decodeLoop (i : Nat) : Nat → List UInt8 → Except DecodeError (List Value)
  | 0, _ => .ok []
  | count + 1, b =>
    match decodeValue i b with
    | .error e => .error e
    | .ok (v, rest) =>
      match decodeLoop (i + 1) count rest with
      | .error e => .error e
      | .ok vs => .ok (v :: vs)

def decodeValues (b : List UInt8) : Except DecodeError (List Value) :=
  if b.length < 2 then .error (.tooShort b.length)
  else decodeLoop 0 (leNat (b.take 2)) (b.drop 2)

/-- The row that `DecodeValues` reads back from the bytes of `vs`, if there is one. -/
def reencoded (vs : List Value) : Option (List Value) := (encodeValues vs).bind fun b => (decodeValues b).toOption

example : reencoded [intVal 7, { type := .text, text := [104, 105] }] =
    some [intVal 7, { type := .text, text := [104, 105] }] := by decide

/-- The bytes that `EncodeValues` counts for a value before it allocates the buffer. -/
def Value.size (v : Value) : Nat := 2 + if v.isNull then 0 else match v.type with
      | .int | .float => 8
      | .text => 2 + v.text.length
      | .bool => 1
      | .null | .other _ => 0

/-- A value with the payload of its own type alone, and with none when it is null. -/
def Value.own (v : Value) : Value where
  type := v.type
  isNull := v.isNull
  int := if v.isNull = false ∧ v.type = .int then v.int else 0
  float := if v.isNull = false ∧ v.type = .float then v.float else 0
  text := if v.isNull = false ∧ v.type = .text then v.text else []
  bool := if v.isNull = false ∧ v.type = .bool then v.bool else false

/-- `DecodeValues` knows the type of the value: it is a byte, and one of the five constants unless the value is null.
-/
def Value.coded (v : Value) : Bool :=
  ofCode v.type.byte.toNat = v.type && (v.isNull || v.type ≠ .other v.type.code)

variable {v : Value} {vs : List Value} {b rest : List UInt8} {i n : Nat}

theorem decodeValue_encodeValue (coded : v.coded) (short : v.text.length ≤ 0xFFFF) (i : Nat) (rest : List UInt8) :
    ∃ b, encodeValue v = some b ∧ b.length = v.size ∧ decodeValue i (b ++ rest) = .ok (v.own, rest) := by
  obtain ⟨type, isNull, int, float, text, bool⟩ := v
  have word (x : BitVec 64) : BitVec.ofNat 64 (leNat (leBytes 8 x.toNat)) = x := by
    rw [leNat_leBytes_of_lt x.isLt, BitVec.ofNat_toNat, BitVec.setWidth_eq]
  have width : leNat (leBytes 2 text.length) = text.length := leNat_leBytes_of_lt (Nat.lt_succ_of_le short)
  cases isNull with
  | true => simp_all [encodeValue, Value.size, Value.coded, decodeValue, Value.own, code]
  | false =>
    cases type with
    | text =>
      have fits : ¬ 0xFFFF < text.length := Nat.not_lt.2 short
      have past : (leBytes 2 text.length ++ (text ++ rest)).drop (2 + text.length) = rest := by
        rw [← drop_drop, drop_leBytes_append, drop_left]
      simp_all [encodeValue, Value.size, Value.coded, decodeValue, Value.own, code]
      omega
    | _ => simp_all [encodeValue, Value.size, Value.coded, decodeValue, Value.own, code]

theorem decodeLoop_encode (ok : ∀ v ∈ vs, v.text.length ≤ 0xFFFF ∧ v.coded) (i : Nat) :
    ∃ cells, vs.mapM encodeValue = some cells ∧ cells.flatten.length = (vs.map size).sum ∧
      decodeLoop i vs.length cells.flatten = .ok (vs.map own) := by
  induction vs generalizing i with
  | nil => exact ⟨[], rfl, rfl, rfl⟩
  | cons v vs ih =>
    obtain ⟨short, coded⟩ := ok v mem_cons_self
    obtain ⟨cells, encoded, size, decoded⟩ := ih (fun v mem => ok v (mem_cons_of_mem _ mem)) (i + 1)
    obtain ⟨b, cell, length, value⟩ := decodeValue_encodeValue coded short i cells.flatten
    exact ⟨b :: cells, by simp [cell, encoded], by simp [length, size], by simp [decodeLoop, value, decoded]⟩

theorem byte_ofCode (tb : UInt8) : (ofCode tb.toNat).byte = tb := by
  have code : (ofCode tb.toNat).code = tb.toNat := by
    unfold ofCode
    split <;> simp_all [code]
  have small := tb.toNat_lt
  rw [byte, code, Int.emod_eq_of_lt (by omega) (by omega)]
  simp

/-- What `DecodeValues` returns has only payloads of the values' own types. -/
theorem decodeValue_ok (decoded : decodeValue i b = .ok (v, rest)) :
    (v.text.length ≤ 0xFFFF ∧ v.coded) ∧ v.own = v := by
  match b with
  | [] | [_] => cases decoded
  | tb :: nb :: tail =>
    have byte := byte_ofCode tb
    have width := leNat_lt (tail.take 2)
    simp only [decodeValue] at decoded
    split at decoded
    · cases decoded
      simp [coded, own, byte]
    cases type : ofCode tb.toNat
    all_goals
      repeat' split at decoded
      all_goals cases decoded
      all_goals simp_all [coded, own]
      all_goals grind

theorem decodeLoop_ok (decoded : decodeLoop i n b = .ok vs) :
    vs.length = n ∧ ∀ v ∈ vs, (v.text.length ≤ 0xFFFF ∧ v.coded) ∧ v.own = v := by
  induction n generalizing i b vs with
  | zero =>
    cases decoded
    simp
  | succ n ih =>
    unfold decodeLoop at decoded
    split at decoded
    · cases decoded
    rename_i v rest value
    split at decoded
    · cases decoded
    rename_i vs later
    cases decoded
    obtain ⟨length, values⟩ := ih later
    exact ⟨by simp [length], by simpa [decodeValue_ok value] using values⟩

theorem reencoded_eq (few : vs.length ≤ 0xFFFF) (ok : ∀ v ∈ vs, v.text.length ≤ 0xFFFF ∧ v.coded) :
    ∃ b, encodeValues vs = some b ∧ b.length = 2 + (vs.map size).sum ∧
      decodeValues b = .ok (vs.map own) := by
  obtain ⟨cells, encoded, size, decoded⟩ := decodeLoop_encode ok 0
  refine ⟨leBytes 2 vs.length ++ cells.flatten, ?_, by simp [size], ?_⟩
  · rw [encodeValues, if_neg (Nat.not_lt.2 few), encoded, Option.map_some]
  · have long : ¬ (leBytes 2 vs.length ++ cells.flatten).length < 2 := by
      rw [length_append, length_leBytes]
      omega
    rw [decodeValues, if_neg long, leNat_take_append (Nat.lt_succ_of_le few), drop_leBytes_append, decoded]

/-- The row codec: `EncodeValues` fills the buffer it has counted and `DecodeValues` reads the values back with the
payloads of their types; what it returns survives another round. -/
theorem rowCodec_exact : (∀ vs : List Value, vs.length ≤ 0xFFFF → (∀ v ∈ vs, v.text.length ≤ 0xFFFF ∧ v.coded) →
      ∃ b, encodeValues vs = some b ∧ b.length = 2 + (vs.map size).sum ∧
        decodeValues b = .ok (vs.map own)) ∧
    ∀ b vs, decodeValues b = .ok vs → ∃ b', encodeValues vs = some b' ∧ decodeValues b' = .ok vs := by
  refine ⟨fun vs few ok => reencoded_eq few ok, fun b vs decoded => ?_⟩
  unfold decodeValues at decoded
  split at decoded
  · cases decoded
  obtain ⟨length, values⟩ := decodeLoop_ok decoded
  have count : leNat (b.take 2) < 256 ^ (b.take 2).length := leNat_lt _
  obtain ⟨b', encoded, -, back⟩ := reencoded_eq (show vs.length ≤ _ by grind) fun v mem => (values v mem).1
  have same : vs.map own = vs := (map_congr_left fun v mem => (values v mem).2).trans (map_id vs)
  exact ⟨b', encoded, same ▸ back⟩

/-- A text with an integer payload beside it. -/
theorem rowCodec_exact_text : ∃ b, encodeValues [{ type := .text, text := [104], int := 3 }] = some b ∧
    b.length = 7 ∧ decodeValues b = .ok [{ type := .text, text := [104] }] :=
  rowCodec_exact.1 [{ type := .text, text := [104], int := 3 }] (by decide) (by decide)

/-- A type that is none of the constants. -/
theorem not_rowCodec : ¬ ∀ vs : List Value, vs.length ≤ 0xFFFF → (∀ v ∈ vs, v.text.length ≤ 0xFFFF) →
    reencoded vs = some (vs.map own) := fun claim =>
  absurd (claim [{ type := .other 5 }] (by decide) (by decide)) (by decide)

end TransactionManager.Types
