import TransactionManager.Types.Value

/-!
# Pages

`internal/storage/page.go`: a page of 4096 bytes with its header. The header fields are kept apart
from the bytes: every operation ends by writing them into `data[0:32]`, and `Deserialize` reads them
from there. Behind the header an index page has a node, and a heap page its slots and records.
-/

namespace TransactionManager.Storage
open Lib List TransactionManager.Types

def pageSize : Nat := 4096

def pageHeaderSize : Nat := 32

/-- `Page`. The bytes below `pageHeaderSize` mean nothing. -/
structure Page where
  id : Nat
  pageLSN : Nat := 0
  slotCount : Nat := 0
  freeSpaceOffset : Nat := pageSize
  flags : UInt8 := 0
  data : Bytes := fun _ => 0

namespace Page

/-- The fields that `computeHeaderCRC` covers, `data[0:20]`. -/
def headerFields (p : Page) : List UInt8 :=
  leBytes 8 p.id ++ (leBytes 8 p.pageLSN ++ (leBytes 2 p.slotCount ++ leBytes 2 p.freeSpaceOffset))

def header (p : Page) : List UInt8 :=
  p.headerFields ++ (leBytes 4 (crc32 p.headerFields) ++ (p.flags :: List.replicate 7 0))

def serialize (p : Page) : Bytes := p.data.blit 0 p.header

/-- `Deserialize`: the header, if its checksum is right. -/
def deserialize (raw : Bytes) : Option Page :=
  if leNat (raw.slice 20 4) = crc32 (raw.slice 0 20) then
    some {
      id := leNat (raw.slice 0 8)
      pageLSN := leNat (raw.slice 8 8)
      slotCount := leNat (raw.slice 16 2)
      freeSpaceOffset := leNat (raw.slice 18 2)
      flags := raw 24
      data := raw }
  else none

theorem length_headerFields (p : Page) : p.headerFields.length = 20 := by simp [headerFields]

theorem length_header (p : Page) : p.header.length = pageHeaderSize := by
  simp [header, length_headerFields, pageHeaderSize]

theorem slice_serialize (p : Page) {off len : Nat} (behind : pageHeaderSize ≤ off) :
    p.serialize.slice off len = p.data.slice off len := by
  refine Bytes.slice_blit_of_disjoint (.inr ?_)
  rw [length_header]
  omega

theorem slice_serialize_header (p : Page) (before piece after : List UInt8)
    (cut : p.header = before ++ (piece ++ after)) :
    p.serialize.slice before.length piece.length = piece := by
  have whole := Bytes.slice_blit p.data 0 p.header
  have len : p.header.length = before.length + (piece.length + after.length) := by simp [cut]
  rw [len, Bytes.slice_add, Bytes.slice_add, cut, Nat.zero_add] at whole
  obtain ⟨-, rest⟩ := append_inj whole (by simp)
  unfold serialize
  rw [cut]
  exact (append_inj rest (by simp)).1

/-- A serialized page passes the check of its header and is read back. -/
theorem deserialize_serialize (p : Page) : deserialize p.serialize = some {
    id := p.id % 2 ^ 64
    pageLSN := p.pageLSN % 2 ^ 64
    slotCount := p.slotCount % 2 ^ 16
    freeSpaceOffset := p.freeSpaceOffset % 2 ^ 16
    flags := p.flags
    data := p.serialize } := by
  have field (w n : Nat) (before after : List UInt8) (cut : p.header = before ++ (leBytes w n ++ after)) :
      leNat (p.serialize.slice before.length w) = n % 256 ^ w := by
    have piece := p.slice_serialize_header before (leBytes w n) after cut
    rw [length_leBytes] at piece
    rw [piece, leNat_leBytes]
  have cut₁ : p.header = leBytes 8 p.id ++ (leBytes 8 p.pageLSN ++ (leBytes 2 p.slotCount ++
      (leBytes 2 p.freeSpaceOffset ++ (leBytes 4 (crc32 p.headerFields) ++ ([p.flags] ++ List.replicate 7 0))))) := by
    simp [header, headerFields]
  have cut₂ := cut₁.trans (append_assoc ..).symm
  have cut₃ := cut₂.trans (append_assoc ..).symm
  have cut₄ := cut₃.trans (append_assoc ..).symm
  have cut₅ := cut₄.trans (append_assoc ..).symm
  have id := field 8 p.id [] _ cut₁
  have lsn := field 8 p.pageLSN _ _ cut₁
  have count := field 2 p.slotCount _ _ cut₂
  have offset := field 2 p.freeSpaceOffset _ _ cut₃
  have crc := field 4 (crc32 p.headerFields) _ _ cut₄
  have flags := p.slice_serialize_header _ [p.flags] _ cut₅
  have fields : p.serialize.slice 0 20 = p.headerFields := by
    have := p.slice_serialize_header [] p.headerFields _ rfl
    rwa [length_headerFields] at this
  simp only [length_append, length_leBytes, length_nil, length_singleton, Nat.reduceAdd] at id lsn count offset crc flags
  rw [Nat.mod_eq_of_lt (crc32_lt _)] at crc
  unfold deserialize
  rw [fields, crc, if_pos rfl, id, lsn, count, offset]
  have flag : p.serialize 24 = p.flags := (cons.inj flags).1
  rfl

end Page

/-!
## Slotted pages

`InsertRow`, `UpdateRow` and `GetRow` of `internal/storage/page.go`. The slot directory grows up
from the header and the records grow down from the end of the page; `freeSpaceOffset` is the lowest
record. A tombstone is a slot of zeros. `UpdateRow` of a record that does not fit its place writes
the tombstone first and then calls `InsertRow`, which may find the page full.
-/

def slotSize : Nat := 4

/-- `ErrPageFull` and `ErrSlotNotFound`. -/
inductive PageError where
  | pageFull
  | slotNotFound
  deriving DecidableEq

/-- `[KeyLen:2][key][ValLen:2][vals]`. -/
def rowRecord (key : GoString) (vals : List UInt8) : List UInt8 :=
  leBytes 2 key.length ++ (key ++ (leBytes 2 vals.length ++ vals))

namespace Page

def slotDirEnd (p : Page) : Nat := pageHeaderSize + p.slotCount * slotSize

/-- `FreeSpace`, a difference of ints. -/
def freeSpace (p : Page) : Int := p.freeSpaceOffset - p.slotDirEnd

def getSlot (p : Page) (i : Nat) : Nat × Nat :=
  let base := pageHeaderSize + i * slotSize
  (leNat (p.data.slice base 2), leNat (p.data.slice (base + 2) 2))

def setSlot (p : Page) (i offset length : Nat) : Page :=
  let base := pageHeaderSize + i * slotSize
  { p with data := (p.data.blit base (leBytes 2 offset)).blit (base + 2) (leBytes 2 length) }

/-- The test of a slot number. -/
def slot? (p : Page) (slotID : Int) : Option Nat :=
  if slotID < 0 ∨ p.slotCount ≤ slotID then none else some slotID.toNat

/-- `InsertRow` from its space check on: the slot to use, the slots there are then, and what a new one takes. -/
def insertAt (p : Page) (slotID slotCount extraSlotSpace : Nat) (key : GoString) (vals : List UInt8) :
    Except PageError Nat × Page :=
  let needed := (rowRecord key vals).length
  if p.freeSpace < needed + extraSlotSpace then (.error .pageFull, p)
  else
    let off := p.freeSpaceOffset - needed
    let p := { p with freeSpaceOffset := off, data := p.data.blit off (rowRecord key vals), slotCount }
    (.ok slotID, p.setSlot slotID off needed)

/-- `InsertRow`: the first tombstone is used again. -/
def insertRow (p : Page) (key : GoString) (vals : List UInt8) : Except PageError Nat × Page :=
  match (List.range p.slotCount).find? fun i => p.getSlot i = (0, 0) with
  | some i => p.insertAt i p.slotCount 0 key vals
  | none => p.insertAt p.slotCount (p.slotCount + 1) slotSize key vals

def updateRow (p : Page) (slotID : Int) (key : GoString) (vals : List UInt8) : Except PageError Nat × Page :=
  match p.slot? slotID with
  | none => (.error .slotNotFound, p)
  | some i =>
    let (off, ln) := p.getSlot i
    if off = 0 ∧ ln = 0 then (.error .slotNotFound, p)
    else if (rowRecord key vals).length ≤ ln then
      (.ok i, setSlot { p with data := p.data.blit off (rowRecord key vals) } i off (rowRecord key vals).length)
    else (p.setSlot i 0 0).insertRow key vals

def getRow (p : Page) (slotID : Int) : Option (GoString × List UInt8) :=
  match p.slot? slotID with
  | none => none
  | some i =>
    let (off, ln) := p.getSlot i
    if off = 0 ∧ ln = 0 then none
    else
      let rec' := p.data.slice off ln
      let klen := leNat (rec'.take 2)
      let vlen := leNat ((rec'.drop (2 + klen)).take 2)
      if rec'.length < 2 ∨ rec'.length < 2 + klen + 2 ∨ rec'.length < 2 + klen + 2 + vlen then none
      else some ((rec'.drop 2).take klen, (rec'.drop (2 + klen + 2)).take vlen)

/-- The rows, the slot count and the free space are those of the other page. -/
def Unchanged (p p' : Page) : Prop :=
  (∀ slotID, p'.getRow slotID = p.getRow slotID) ∧ p'.slotCount = p.slotCount ∧ p'.freeSpace = p.freeSpace

/-- The slot is in the directory and is no tombstone. -/
def Live (p : Page) (slotID : Int) : Prop := ∃ i, p.slot? slotID = some i ∧ p.getSlot i ≠ (0, 0)

variable {p p' : Page} {slotID : Int} {key : GoString} {vals : List UInt8} {e : PageError}

theorem getSlot_tombstone (p : Page) (i : Nat) : (p.setSlot i 0 0).getSlot i = (0, 0) := by
  have first := Bytes.slice_blit p.data (pageHeaderSize + i * slotSize) (leBytes 2 0)
  have second := Bytes.slice_blit (p.data.blit (pageHeaderSize + i * slotSize) (leBytes 2 0))
    (pageHeaderSize + i * slotSize + 2) (leBytes 2 0)
  rw [length_leBytes] at first second
  unfold getSlot setSlot
  dsimp only
  rw [second, Bytes.slice_blit_of_disjoint (.inl (Nat.le_refl _)), first, leNat_leBytes]
  rfl

/-- A failed `InsertRow` leaves the page as it is. -/
theorem insertRow_error (failed : p.insertRow key vals = (.error e, p')) :
    e = .pageFull ∧ p' = p := by
  unfold insertRow insertAt at failed
  dsimp only at failed
  split at failed
  all_goals
    split at failed
    · cases failed
      exact ⟨rfl, rfl⟩
    · cases failed

/-- A failed `UpdateRow` finds no slot and leaves the page as it is exactly when the slot is not live. A live slot is
a tombstone afterwards, and the row that `GetRow` found in it is lost. -/
theorem unchanged_of_failed (failed : p.updateRow slotID key vals = (.error e, p')) :
    (e = .slotNotFound ∧ Unchanged p p' ↔ ¬ p.Live slotID) ∧
      (p.Live slotID → e = .pageFull ∧ p'.getRow slotID = none ∧ (p.getRow slotID ≠ none → ¬ Unchanged p p')) := by
  have same : Unchanged p p := ⟨fun _ => rfl, rfl, rfl⟩
  unfold updateRow at failed
  cases at' : p.slot? slotID with
  | none =>
    have idle : ¬ p.Live slotID := by simp [Live, at']
    rw [at'] at failed
    cases failed
    exact ⟨iff_of_true ⟨rfl, same⟩ idle, fun live => absurd live idle⟩
  | some i =>
    rw [at'] at failed
    dsimp only at failed
    by_cases dead : (p.getSlot i).1 = 0 ∧ (p.getSlot i).2 = 0
    · have idle : ¬ p.Live slotID := by simp [Live, at', Prod.ext_iff, dead]
      rw [if_pos dead] at failed
      cases failed
      exact ⟨iff_of_true ⟨rfl, same⟩ idle, fun live => absurd live idle⟩
    have live : p.Live slotID := ⟨i, at', fun zero => dead (by rw [zero]; exact ⟨rfl, rfl⟩)⟩
    rw [if_neg dead] at failed
    split at failed
    · cases failed
    obtain ⟨rfl, rfl⟩ := insertRow_error failed
    have gone : (p.setSlot i 0 0).getRow slotID = none := by
      have here : (p.setSlot i 0 0).slot? slotID = some i := at'
      simp [getRow, here, getSlot_tombstone]
    refine ⟨iff_of_false (fun found => nomatch found.1) (not_not_intro live), fun _ => ⟨rfl, gone, fun found same => ?_⟩⟩
    exact found ((same.1 slotID).symm.trans gone)

def oneRowPage : Page := (insertRow { id := 1 } [97] [1]).2

/-- The page has no second slot. -/
theorem unchanged_of_failed_absent : ∃ e p', oneRowPage.updateRow 1 [98] [2] = (.error e, p') ∧
    e = .slotNotFound ∧ Unchanged oneRowPage p' := by
  have failed : oneRowPage.updateRow 1 [98] [2] = (.error .slotNotFound, oneRowPage) := rfl
  refine ⟨_, _, failed, (unchanged_of_failed failed).1.2 ?_⟩
  rintro ⟨i, ⟨⟩, -⟩

/-- The row is updated with more than a page, and is gone. -/
theorem not_unchanged_of_failed : (oneRowPage.updateRow 0 [97] (replicate 4096 2)).1.isOk = false ∧
    ¬ Unchanged oneRowPage (oneRowPage.updateRow 0 [97] (replicate 4096 2)).2 := by
  refine ⟨by decide +kernel, fun same => ?_⟩
  exact absurd (same.1 0) (by decide +kernel)

end Page

end TransactionManager.Storage
