import Mathlib.Data.List.Basic
import Mathlib.Tactic.Ring

/-!
# Little-endian integers

`leBytes w n` are the low `w` bytes of `n`, least significant first, as
`binary.LittleEndian.PutUint16/32/64` write them; `leNat` reads such bytes back.
-/

namespace TransactionManager.Lib
open List

/-- The `w` low bytes of `n`, least significant byte first. -/
def leBytes : Nat → Nat → List UInt8
  | 0, _ => []
  | w + 1, n => UInt8.ofNat n :: leBytes w (n / 256)

/-- The number that little-endian bytes stand for. -/
def leNat : List UInt8 → Nat
  | [] => 0
  | b :: bs => b.toNat + 256 * leNat bs

@[simp] theorem length_leBytes (w n : Nat) : (leBytes w n).length = w := by
  induction w generalizing n with
  | zero => rfl
  | succ w ih => simp [leBytes, ih]

theorem leNat_leBytes (w n : Nat) : leNat (leBytes w n) = n % 256 ^ w := by
  induction w generalizing n with
  | zero => simp [leBytes, leNat, Nat.mod_one]
  | succ w ih =>
    have low : (UInt8.ofNat n).toNat = n % 256 := by simp
    rw [leBytes, leNat, ih, low, pow_succ', Nat.mod_mul]

theorem leNat_leBytes_of_lt {w n : Nat} (small : n < 256 ^ w) : leNat (leBytes w n) = n := by
  rw [leNat_leBytes, Nat.mod_eq_of_lt small]

theorem leNat_lt (b : List UInt8) : leNat b < 256 ^ b.length := by
  induction b with
  | nil => exact Nat.one_pos
  | cons x b ih =>
    have byte := x.toNat_lt
    rw [leNat, length_cons, Nat.pow_succ]
    omega

theorem leNat_take_append {w n : Nat} (small : n < 256 ^ w) (rest : List UInt8) :
    leNat ((leBytes w n ++ rest).take w) = n := by
  rw [take_left' (length_leBytes w n), leNat_leBytes_of_lt small]

theorem drop_leBytes_append (w n : Nat) (rest : List UInt8) : (leBytes w n ++ rest).drop w = rest :=
  drop_left' (length_leBytes w n)

/-!
## Byte areas

A block of memory as a function from offsets to bytes, with the reads and writes of contiguous
pieces. A piece that was written is read back, and a write leaves every disjoint piece alone.
-/

abbrev Bytes := Nat → UInt8

namespace Bytes
variable {d : Bytes} {off off' len : Nat} {b : List UInt8}

/-- `d[off:off+len]`. -/
def slice (d : Bytes) (off len : Nat) : List UInt8 := (List.range len).map fun i => d (off + i)

/-- `copy(d[off:], b)`. -/
def blit (d : Bytes) (off : Nat) (b : List UInt8) : Bytes := fun i =>
  if off ≤ i ∧ i < off + b.length then b.getD (i - off) 0 else d i

@[simp] theorem length_slice (d : Bytes) (off len : Nat) : (d.slice off len).length = len := by
  simp [slice]

theorem getElem?_slice (d : Bytes) (off len i : Nat) :
    (d.slice off len)[i]? = if i < len then some (d (off + i)) else none := by
  unfold slice
  rw [getElem?_map]
  split
  · rename_i lt
    rw [getElem?_range lt]
    rfl
  · rename_i ge
    rw [getElem?_eq_none (by simpa using ge)]
    rfl

theorem slice_blit (d : Bytes) (off : Nat) (b : List UInt8) : (d.blit off b).slice off b.length = b := by
  apply ext_getElem?
  intro i
  rw [getElem?_slice]
  split
  · rename_i lt
    have inside : off ≤ off + i ∧ off + i < off + b.length := by omega
    simp [blit, inside, lt]
  · rw [getElem?_eq_none (by omega)]

/-- A write leaves a piece alone that it does not meet. -/
theorem slice_blit_of_disjoint (apart : off + len ≤ off' ∨ off' + b.length ≤ off) :
    (d.blit off' b).slice off len = d.slice off len := by
  refine map_congr_left fun i mem => ?_
  have lt := mem_range.1 mem
  exact if_neg (by omega)

theorem slice_add (d : Bytes) (off m n : Nat) : d.slice off (m + n) = d.slice off m ++ d.slice (off + m) n := by
  unfold slice
  rw [range_add, map_append, map_map]
  simp [Function.comp_def, Nat.add_assoc]

end Bytes

/-!
## CRC-32

The IEEE checksum of `hash/crc32`, bit by bit.
-/

/-- One bit of the reflected division by the IEEE polynomial. -/
def crcBit (crc : BitVec 32) : BitVec 32 := if crc.getLsbD 0 then (crc >>> 1) ^^^ 0xEDB88320#32 else crc >>> 1

def crcByte (crc : BitVec 32) (b : UInt8) : BitVec 32 := Nat.repeat crcBit 8 (crc ^^^ BitVec.ofNat 32 b.toNat)

def crc32 (b : List UInt8) : Nat := (~~~ b.foldl crcByte 0xFFFFFFFF#32).toNat

theorem crc32_lt (b : List UInt8) : crc32 b < 256 ^ 4 := BitVec.isLt _

-- the check value of the polynomial, for "123456789"
example : crc32 [49, 50, 51, 52, 53, 54, 55, 56, 57] = 0xCBF43926 := by decide +kernel

end TransactionManager.Lib
