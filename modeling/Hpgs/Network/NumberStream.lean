import Hpgs.Library.Digits
import Hpgs.Network.ByteArray

/-!
# Numbers in a `ByteArray`

Fixed-width integers are stored in the byte order that `m_endian` says: a value is
byte-swapped if this is not `HPGS_BYTE_ORDER`, the order in which the host stores it in
memory.  The other integers are stored seven bits a byte; signed ones are mapped to
unsigned ones first, so that a small absolute value takes few bytes.  Integers, floats
and doubles are their bit patterns here.

**Results.**
* `store_swapped`: the stored bytes do not depend on the host.
* `decodeZigzag_encodeZigzag`, `readVarint_spec`: both codes are read back.
* `number_stream`: a list of values of mixed kinds is read back as it was written.
-/

namespace Hpgs
namespace Network

open Digits

namespace ByteArray

/-! ## Fixed width -/

/-- How a host stores an integer of `w / 8` bytes in memory. -/
def memory (host : Endian) {w : Nat} (v : BitVec w) : List UInt8 :=
  match host with
  | .little => digits (w / 8) v.toNat
  | .big => (digits (w / 8) v.toNat).reverse

/-- The integer that a host finds in memory. -/
def ofMemory (host : Endian) (w : Nat) (bytes : List UInt8) : BitVec w :=
  match host with
  | .little => BitVec.ofNat w (value bytes)
  | .big => BitVec.ofNat w (value bytes.reverse)

/-- `byteswap`: the bytes in opposite order. -/
def byteswap {w : Nat} (v : BitVec w) : BitVec w :=
  BitVec.ofNat w (value (digits (w / 8) v.toNat).reverse)

/-- The body that `writeFint16` to `writeFuint64` share. -/
def writeFixed (host : Endian) (b : ByteArray) {w : Nat} (v : BitVec w) : Result Unit :=
  b.write (memory host (if b.endian ≠ host then byteswap v else v))

/-- The body that `readFint16` to `readFuint64` share. -/
def readFixed (host : Endian) (b : ByteArray) (w : Nat) : Result (BitVec w) :=
  let r := b.read (w / 8)
  (r.1.map fun bytes =>
    let v := ofMemory host w bytes
    if r.2.endian = host then v else byteswap v, r.2)

def writeFint8 (b : ByteArray) (v : BitVec 8) : Result Unit :=
  b.write [UInt8.ofBitVec v]

def writeFuint8 (b : ByteArray) (v : BitVec 8) : Result Unit :=
  b.write [UInt8.ofBitVec v]

def writeFint16 (host : Endian) (b : ByteArray) (v : BitVec 16) : Result Unit :=
  b.writeFixed host v

def writeFuint16 (host : Endian) (b : ByteArray) (v : BitVec 16) : Result Unit :=
  b.writeFixed host v

def writeFint32 (host : Endian) (b : ByteArray) (v : BitVec 32) : Result Unit :=
  b.writeFixed host v

def writeFuint32 (host : Endian) (b : ByteArray) (v : BitVec 32) : Result Unit :=
  b.writeFixed host v

def writeFint64 (host : Endian) (b : ByteArray) (v : BitVec 64) : Result Unit :=
  b.writeFixed host v

def writeFuint64 (host : Endian) (b : ByteArray) (v : BitVec 64) : Result Unit :=
  b.writeFixed host v

def writeFloat (host : Endian) (b : ByteArray) (v : BitVec 32) : Result Unit :=
  b.writeFuint32 host v

def writeDouble (host : Endian) (b : ByteArray) (v : BitVec 64) : Result Unit :=
  b.writeFuint64 host v

def readFint8 (b : ByteArray) : Result (BitVec 8) :=
  let r := b.read 1
  (r.1.map fun bytes => (bytes.headD 0).toBitVec, r.2)

/-- It reads into an `int8_t`, which has the same bits. -/
def readFuint8 (b : ByteArray) : Result (BitVec 8) :=
  let r := b.read 1
  (r.1.map fun bytes => (bytes.headD 0).toBitVec, r.2)

def readFint16 (host : Endian) (b : ByteArray) : Result (BitVec 16) :=
  b.readFixed host 16

def readFuint16 (host : Endian) (b : ByteArray) : Result (BitVec 16) :=
  b.readFixed host 16

def readFint32 (host : Endian) (b : ByteArray) : Result (BitVec 32) :=
  b.readFixed host 32

def readFuint32 (host : Endian) (b : ByteArray) : Result (BitVec 32) :=
  b.readFixed host 32

def readFint64 (host : Endian) (b : ByteArray) : Result (BitVec 64) :=
  b.readFixed host 64

def readFuint64 (host : Endian) (b : ByteArray) : Result (BitVec 64) :=
  b.readFixed host 64

def readFloat (host : Endian) (b : ByteArray) : Result (BitVec 32) :=
  b.readFuint32 host

def readDouble (host : Endian) (b : ByteArray) : Result (BitVec 64) :=
  b.readFuint64 host

/-! ## Zigzag -/

/-- `EncodeZigzag32` and `EncodeZigzag64`; negation and doubling wrap. -/
def encodeZigzag {w : Nat} (v : BitVec w) : BitVec w :=
  if v.slt 0 then (-v) * 2 - 1 else v * 2

/-- `DecodeZigzag32` and `DecodeZigzag64`. -/
def decodeZigzag {w : Nat} (v : BitVec w) : BitVec w :=
  (v >>> 1) ^^^ -(v &&& 1)

/-! ## Variable length -/

/-- The loop of `writeUint32` and `writeUint64` with a buffer of `n` bytes left. -/
def varint {w : Nat} : Nat → BitVec w → Option (List UInt8)
  | 0, _ => none
  | n + 1, v =>
      if 0x80 ≤ v.toNat then
        (varint n (v >>> 7)).map (UInt8.ofNat ((v &&& 0x7F) ||| 0x80).toNat :: ·)
      else some [UInt8.ofNat v.toNat]

/-- The body that `writeUint32` and `writeUint64` share; `n` is the size of `tmp`. -/
def writeVarint (b : ByteArray) (n : Nat) {w : Nat} (v : BitVec w) : Result Unit :=
  match varint n v with
  | none => (.error .overflow, b)
  | some bytes => b.write bytes

/-- The loop of `readUint32` and `readUint64` over the shifts that are left. -/
def readVarint (w : Nat) : List Nat → BitVec w → ByteArray → Result (BitVec w)
  | [], result, b => (.ok result, b)
  | i :: shifts, result, b =>
      match b.readFint8 with
      | (.error e, b') => (.error e, b')
      | (.ok v, b') =>
          if v.toNat < 0x80 then (.ok (result ||| v.setWidth w <<< i), b')
          else readVarint w shifts (result ||| (v &&& 0x7F).setWidth w <<< i) b'

def writeUint32 (b : ByteArray) (v : BitVec 32) : Result Unit :=
  b.writeVarint 5 v

def writeUint64 (b : ByteArray) (v : BitVec 64) : Result Unit :=
  b.writeVarint 10 v

def writeInt32 (b : ByteArray) (v : BitVec 32) : Result Unit :=
  b.writeUint32 (encodeZigzag v)

def writeInt64 (b : ByteArray) (v : BitVec 64) : Result Unit :=
  b.writeUint64 (encodeZigzag v)

/-- The shifts are `0, 7, .., 28`. -/
def readUint32 (b : ByteArray) : Result (BitVec 32) :=
  readVarint 32 (List.range' 0 5 7) 0 b

/-- The shifts are `0, 7, .., 63`. -/
def readUint64 (b : ByteArray) : Result (BitVec 64) :=
  readVarint 64 (List.range' 0 10 7) 0 b

def readInt32 (b : ByteArray) : Result (BitVec 32) :=
  (b.readUint32.1.map decodeZigzag, b.readUint32.2)

def readInt64 (b : ByteArray) : Result (BitVec 64) :=
  (b.readUint64.1.map decodeZigzag, b.readUint64.2)

end ByteArray

/-! ## Values of mixed kinds -/

/-- The kinds of numbers that can be written and read. -/
inductive Kind
  | fint8 | fuint8 | fint16 | fuint16 | fint32 | fuint32 | fint64 | fuint64
  | float | double | int32 | uint32 | int64 | uint64
deriving DecidableEq, Repr

/-- Width of the integer or bit pattern. -/
def Kind.width : Kind → Nat
  | .fint8 | .fuint8 => 8
  | .fint16 | .fuint16 => 16
  | .fint32 | .fuint32 | .float | .int32 | .uint32 => 32
  | .fint64 | .fuint64 | .double | .int64 | .uint64 => 64

/-- Whether the byte order matters. -/
def Kind.fixed : Kind → Bool
  | .int32 | .uint32 | .int64 | .uint64 => false
  | _ => true

/-- A number with its kind. -/
structure Value where
  kind : Kind
  bits : BitVec kind.width
deriving DecidableEq

namespace ByteArray

def writeValue (host : Endian) (b : ByteArray) : Value → Result Unit
  | ⟨.fint8, v⟩ => b.writeFint8 v
  | ⟨.fuint8, v⟩ => b.writeFuint8 v
  | ⟨.fint16, v⟩ => b.writeFint16 host v
  | ⟨.fuint16, v⟩ => b.writeFuint16 host v
  | ⟨.fint32, v⟩ => b.writeFint32 host v
  | ⟨.fuint32, v⟩ => b.writeFuint32 host v
  | ⟨.fint64, v⟩ => b.writeFint64 host v
  | ⟨.fuint64, v⟩ => b.writeFuint64 host v
  | ⟨.float, v⟩ => b.writeFloat host v
  | ⟨.double, v⟩ => b.writeDouble host v
  | ⟨.int32, v⟩ => b.writeInt32 v
  | ⟨.uint32, v⟩ => b.writeUint32 v
  | ⟨.int64, v⟩ => b.writeInt64 v
  | ⟨.uint64, v⟩ => b.writeUint64 v

/-- The read function that matches a kind. -/
def readKind (host : Endian) (b : ByteArray) : (k : Kind) → Result (BitVec k.width)
  | .fint8 => b.readFint8
  | .fuint8 => b.readFuint8
  | .fint16 => b.readFint16 host
  | .fuint16 => b.readFuint16 host
  | .fint32 => b.readFint32 host
  | .fuint32 => b.readFuint32 host
  | .fint64 => b.readFint64 host
  | .fuint64 => b.readFuint64 host
  | .float => b.readFloat host
  | .double => b.readDouble host
  | .int32 => b.readInt32
  | .uint32 => b.readUint32
  | .int64 => b.readInt64
  | .uint64 => b.readUint64

/-- Write values, each after `setIsLittleEndian` with its flag. -/
def writeAll (host : Endian) (b : ByteArray) : List (Bool × Value) → Result Unit
  | [] => (.ok (), b)
  | (flag, v) :: items =>
      match (b.setIsLittleEndian flag).writeValue host v with
      | (.error e, b') => (.error e, b')
      | (.ok _, b') => writeAll host b' items

/-- Read values of the given kinds under the given flags. -/
def readAll (host : Endian) (b : ByteArray) : List (Bool × Kind) → Result (List Value)
  | [] => (.ok [], b)
  | (flag, k) :: items =>
      match (b.setIsLittleEndian flag).readKind host k with
      | (.error e, b') => (.error e, b')
      | (.ok v, b') =>
          let r := readAll host b' items
          (r.1.map (⟨k, v⟩ :: ·), r.2)

end ByteArray

namespace ByteArray

/-! ## The codes are read back -/

section Codes

variable {w n : Nat}

theorem toNat_lt_pow (hw : w = 8 * n) (v : BitVec w) : v.toNat < 256 ^ (w / 8) := by
  have hpow : 256 ^ (w / 8) = 2 ^ w := by
    have hdiv : w / 8 = n := by omega
    rw [hdiv, hw, Nat.pow_mul]
  rw [hpow]
  exact v.isLt

theorem ofMemory_memory (hw : w = 8 * n) (host : Endian) (v : BitVec w) :
    ofMemory host w (memory host v) = v := by
  have hlt := toNat_lt_pow hw v
  cases host with
  | little => simp [ofMemory, memory, value_digits hlt]
  | big => simp [ofMemory, memory, value_digits hlt]

theorem value_reverse_lt (hw : w = 8 * n) (v : BitVec w) :
    value (digits (w / 8) v.toNat).reverse < 2 ^ w := by
  have hlt := value_lt (digits (w / 8) v.toNat).reverse
  have hpow : 256 ^ (w / 8) = 2 ^ w := by
    have hdiv : w / 8 = n := by omega
    rw [hdiv, hw, Nat.pow_mul]
  rw [List.length_reverse, length_digits, hpow] at hlt
  exact hlt

/-- The digits of a swapped value come in opposite order. -/
theorem digits_byteswap (hw : w = 8 * n) (v : BitVec w) :
    digits (w / 8) (byteswap v).toNat = (digits (w / 8) v.toNat).reverse := by
  have hlen : (digits (w / 8) v.toNat).reverse.length = w / 8 := by
    rw [List.length_reverse, length_digits]
  have hback := digits_value (digits (w / 8) v.toNat).reverse
  rw [hlen] at hback
  rw [byteswap, BitVec.toNat_ofNat, Nat.mod_eq_of_lt (value_reverse_lt hw v), hback]

theorem byteswap_byteswap (hw : w = 8 * n) (v : BitVec w) : byteswap (byteswap v) = v := by
  have hlt := toNat_lt_pow hw v
  have hback : BitVec.ofNat w (value (digits (w / 8) (byteswap v).toNat).reverse) = v := by
    rw [digits_byteswap hw, List.reverse_reverse, value_digits hlt, BitVec.ofNat_toNat,
      BitVec.setWidth_eq]
  exact hback

theorem memory_byteswap (hw : w = 8 * n) {e host : Endian} (hne : e ≠ host) (v : BitVec w) :
    memory host (byteswap v) = memory e v := by
  cases e <;> cases host
  · exact absurd rfl hne
  · simp [memory, digits_byteswap hw]
  · simp [memory, digits_byteswap hw]
  · exact absurd rfl hne

/-- What is stored depends on the flag only, not on the host. -/
theorem store_swapped (hw : w = 8 * n) (e host : Endian) (v : BitVec w) :
    memory host (if e ≠ host then byteswap v else v) = memory e v := by
  by_cases he : e = host
  · rw [if_neg (by simpa using he), he]
  · rw [if_pos he, memory_byteswap hw he]

theorem load_swapped (hw : w = 8 * n) (e host : Endian) (v : BitVec w) :
    (if e = host then ofMemory host w (memory e v)
      else byteswap (ofMemory host w (memory e v))) = v := by
  by_cases he : e = host
  · rw [if_pos he, he, ofMemory_memory hw]
  · rw [if_neg he, ← memory_byteswap hw he, ofMemory_memory hw, byteswap_byteswap hw]

theorem toNat_one (hw : 1 < w) : (1 : BitVec w).toNat = 1 := by
  have hpow : 2 ^ 1 < 2 ^ w := Nat.pow_lt_pow_right (by decide) hw
  simp only [BitVec.ofNat_eq_ofNat, BitVec.toNat_ofNat]
  exact Nat.mod_eq_of_lt (by omega)

/-- An even code stands for its half, an odd one for the complement of its half. -/
theorem toNat_decodeZigzag (hw : 1 < w) (u : BitVec w) :
    (decodeZigzag u).toNat =
      if u.toNat % 2 = 0 then u.toNat / 2 else 2 ^ w - 1 - u.toNat / 2 := by
  have hand : (u &&& 1).toNat = u.toNat % 2 := by
    rw [BitVec.toNat_and, toNat_one hw, Nat.and_one_is_mod]
  have hhalf : (u >>> 1).toNat = u.toNat / 2 := by
    rw [BitVec.toNat_ushiftRight, Nat.shiftRight_eq_div_pow]
  unfold decodeZigzag
  by_cases heven : u.toNat % 2 = 0
  · have hzero : u &&& 1 = 0#w := by
      apply BitVec.eq_of_toNat_eq
      rw [hand, heven]
      simp
    rw [if_pos heven, hzero, BitVec.neg_zero, BitVec.xor_zero, hhalf]
  · have hone : u &&& 1 = 1#w := by
      apply BitVec.eq_of_toNat_eq
      rw [hand]
      have h1 : (1#w).toNat = 1 := toNat_one hw
      omega
    rw [if_neg heven, hone, BitVec.neg_one_eq_allOnes, BitVec.xor_allOnes, BitVec.toNat_not,
      hhalf]

/-- A value that is not negative gets the double as its code, a negative one the odd
number before the double of its absolute value. -/
theorem toNat_encodeZigzag (hw : 1 < w) (v : BitVec w) :
    (encodeZigzag v).toNat =
      if 2 * v.toNat < 2 ^ w then 2 * v.toNat else 2 * (2 ^ w - v.toNat) - 1 := by
  have hlt := v.isLt
  have hpow : 2 ^ 1 < 2 ^ w := Nat.pow_lt_pow_right (by decide) hw
  have htwo : (2 : BitVec w).toNat = 2 := by
    simp only [BitVec.ofNat_eq_ofNat, BitVec.toNat_ofNat]
    exact Nat.mod_eq_of_lt (by omega)
  have hsign : v.slt 0 = true ↔ ¬ 2 * v.toNat < 2 ^ w := by
    rw [show (0 : BitVec w) = 0#w from rfl, BitVec.slt_zero_iff_msb_cond,
      BitVec.msb_eq_true_iff_two_mul_ge]
    omega
  unfold encodeZigzag
  by_cases hneg : 2 * v.toNat < 2 ^ w
  · rw [if_neg (by rw [hsign]; omega), if_pos hneg, BitVec.toNat_mul, htwo,
      Nat.mod_eq_of_lt (by omega)]
    omega
  · rw [if_pos (hsign.mpr hneg), if_neg hneg, BitVec.toNat_sub, BitVec.toNat_mul,
      BitVec.toNat_neg, htwo, toNat_one hw, Nat.mod_eq_of_lt (by omega : 2 ^ w - v.toNat < 2 ^ w)]
    by_cases hmin : 2 * v.toNat = 2 ^ w
    · -- the doubling wraps to zero
      have hwrap : (2 ^ w - v.toNat) * 2 = 2 ^ w := by omega
      rw [hwrap, Nat.mod_self, Nat.mod_eq_of_lt (by omega)]
      omega
    · rw [Nat.mod_eq_of_lt (by omega : (2 ^ w - v.toNat) * 2 < 2 ^ w)]
      have hsum : 2 ^ w - 1 + (2 ^ w - v.toNat) * 2 =
          2 ^ w + ((2 ^ w - v.toNat) * 2 - 1) := by omega
      rw [hsum, Nat.add_mod_left, Nat.mod_eq_of_lt (by omega)]
      omega

/-- Decoding undoes encoding. -/
theorem decodeZigzag_encodeZigzag (hw : 1 < w) (v : BitVec w) :
    decodeZigzag (encodeZigzag v) = v := by
  have hlt := v.isLt
  apply BitVec.eq_of_toNat_eq
  rw [toNat_decodeZigzag hw, toNat_encodeZigzag hw]
  by_cases hneg : 2 * v.toNat < 2 ^ w
  · simp only [if_pos hneg]
    rw [if_pos (by omega)]
    omega
  · simp only [if_neg hneg]
    rw [if_neg (by omega)]
    omega

end Codes

/-! ## What reading keeps -/

section Keeping

variable {P : ByteArray → Prop} (hread : ∀ b size, P b → P (b.read size).2)
include hread

/-- What every `read` keeps is kept by the loop of the readers, failed or not. -/
theorem readVarint_keeps {w : Nat} (shifts : List Nat) (result : BitVec w) {b : ByteArray}
    (h : P b) : P (readVarint w shifts result b).2 := by
  induction shifts generalizing result b with
  | nil => exact h
  | cons i shifts ih =>
      have hone : P b.readFint8.2 := hread b 1 h
      unfold readVarint
      split
      · rename_i e b' hbyte
        rwa [hbyte] at hone
      · rename_i v b' hbyte
        rw [hbyte] at hone
        split
        · exact hone
        · exact ih _ hone

theorem readKind_keeps (host : Endian) {b : ByteArray} (h : P b) (k : Kind) :
    P (b.readKind host k).2 := by
  cases k with
  | int32 => exact readVarint_keeps hread _ _ h
  | uint32 => exact readVarint_keeps hread _ _ h
  | int64 => exact readVarint_keeps hread _ _ h
  | uint64 => exact readVarint_keeps hread _ _ h
  | _ => exact hread b _ h

end Keeping

/-! ## Reading what is ahead -/

/-- From the position on, the object holds `rest`. -/
structure Ahead (b : ByteArray) (rest : List UInt8) : Prop where
  wf : b.WellFormed
  data : b.contents.data.drop b.position = rest

section Reading

variable {b : ByteArray} {bytes rest : List UInt8}

theorem read_ahead (h : Ahead b (bytes ++ rest)) (hne : 1 ≤ bytes.length) :
    ∃ b', b.read bytes.length = (.ok bytes, b') ∧ Ahead b' rest ∧ b'.endian = b.endian := by
  obtain ⟨b', hread, hwf, hcont, hend⟩ := read_spec h.wf hne
  have hpos : b.contents.pos = b.position := rfl
  have hlen := congrArg List.length h.data
  rw [List.length_drop, List.length_append] at hlen
  have hflat : b.contents.read bytes.length =
      (.ok bytes, ⟨b.contents.data, b.position + bytes.length⟩) := by
    unfold Flat.read
    rw [if_neg (by rw [hpos]; omega), hpos, h.data, List.take_left]
  rw [hflat] at hread hcont
  refine ⟨b', hread, ⟨hwf, ?_⟩, hend⟩
  have hpos' : b'.position = b.position + bytes.length := congrArg Flat.pos hcont
  have hcont' : b'.contents = ⟨b.contents.data, b.position + bytes.length⟩ := hcont
  have hdata' : b'.contents.data = b.contents.data := by rw [hcont']
  rw [hdata', hpos', ← List.drop_drop, h.data, List.drop_left]

theorem readFint8_ahead {x : UInt8} (h : Ahead b (x :: rest)) :
    ∃ b', b.readFint8 = (.ok x.toBitVec, b') ∧ Ahead b' rest ∧ b'.endian = b.endian := by
  have hone : Ahead b ([x] ++ rest) := h
  obtain ⟨b', hread, hahead, hend⟩ := read_ahead hone (Nat.le_refl 1)
  refine ⟨b', ?_, hahead, hend⟩
  unfold readFint8
  simp only [List.length_singleton] at hread
  rw [hread]
  rfl

theorem readFixed_ahead {w n : Nat} (hw : w = 8 * (n + 1)) {v : BitVec w} (host : Endian)
    (h : Ahead b (memory b.endian v ++ rest)) :
    ∃ b', b.readFixed host w = (.ok v, b') ∧ Ahead b' rest ∧ b'.endian = b.endian := by
  have hlen : (memory b.endian v).length = w / 8 := by
    unfold memory
    cases b.endian with
    | little => exact length_digits _ _
    | big => rw [List.length_reverse, length_digits]
  obtain ⟨b', hread, hahead, hend⟩ := read_ahead h (by omega)
  refine ⟨b', ?_, hahead, hend⟩
  have hload := load_swapped hw b.endian host v
  unfold readFixed
  rw [← hlen, hread]
  simp only [Except.map, hend]
  rw [hload]

/-! ## Variable length -/

/-- The buffer is large enough. -/
theorem varint_isSome {w : Nat} {n : Nat} {v : BitVec w} (h : v.toNat < 2 ^ (7 * (n + 1))) :
    ∃ bs, varint (n + 1) v = some bs ∧ 1 ≤ bs.length := by
  induction n generalizing v with
  | zero => exact ⟨[UInt8.ofNat v.toNat], by rw [varint, if_neg (by omega)], by simp⟩
  | succ n ih =>
      rw [varint]
      by_cases hmore : 0x80 ≤ v.toNat
      · have hdiv : (v >>> 7).toNat < 2 ^ (7 * (n + 1)) := by
          rw [BitVec.toNat_ushiftRight, Nat.shiftRight_eq_div_pow,
            Nat.div_lt_iff_lt_mul (by decide), ← Nat.pow_add]
          exact h
        obtain ⟨bs, hbs, _⟩ := ih hdiv
        rw [if_pos hmore, hbs]
        exact ⟨_, rfl, by simp⟩
      · rw [if_neg hmore]
        exact ⟨_, rfl, by simp⟩

/-- The bits of a byte are or-ed in above those that are read already. -/
theorem or_setWidth {w i r : Nat} {x : BitVec 8} (hr : r < 2 ^ i)
    (hfit : r + x.toNat * 2 ^ i < 2 ^ w) :
    BitVec.ofNat w r ||| x.setWidth w <<< i = BitVec.ofNat w (r + x.toNat * 2 ^ i) := by
  apply BitVec.eq_of_toNat_eq
  have hx : x.toNat ≤ x.toNat * 2 ^ i := Nat.le_mul_of_pos_right _ (Nat.two_pow_pos i)
  rw [BitVec.toNat_or, BitVec.toNat_shiftLeft, BitVec.toNat_setWidth, BitVec.toNat_ofNat,
    BitVec.toNat_ofNat, Nat.mod_eq_of_lt (by omega : r < 2 ^ w),
    Nat.mod_eq_of_lt (by omega : x.toNat < 2 ^ w), Nat.shiftLeft_eq,
    Nat.mod_eq_of_lt (by omega : x.toNat * 2 ^ i < 2 ^ w), Nat.mod_eq_of_lt hfit,
    ← Nat.shiftLeft_eq, or_shiftLeft _ hr, Nat.shiftLeft_eq]

/-- All bytes but the last: seven bits of the value and the continuation bit. -/
theorem toNat_continued {w : Nat} (hw : 8 ≤ w) (v : BitVec w) :
    (UInt8.ofNat ((v &&& 0x7F) ||| 0x80).toNat).toBitVec.toNat = v.toNat % 128 + 128 := by
  have hpow : 2 ^ 8 ≤ 2 ^ w := Nat.pow_le_pow_right (by decide) hw
  have hlow : (0x7F : BitVec w).toNat = 2 ^ 7 - 1 := by
    simp only [BitVec.ofNat_eq_ofNat, BitVec.toNat_ofNat]
    exact Nat.mod_eq_of_lt (by omega)
  have hhigh : (0x80 : BitVec w).toNat = 1 <<< 7 := by
    simp only [BitVec.ofNat_eq_ofNat, BitVec.toNat_ofNat]
    exact Nat.mod_eq_of_lt (by omega)
  have hlt : v.toNat % 2 ^ 7 < 2 ^ 7 := Nat.mod_lt _ (by decide)
  rw [UInt8.toNat_toBitVec, UInt8.toNat_ofNat', BitVec.toNat_or, BitVec.toNat_and, hlow, hhigh,
    Nat.and_two_pow_sub_one_eq_mod, or_shiftLeft 1 hlt]
  omega

theorem toNat_payload (x : BitVec 8) : (x &&& 0x7F).toNat = x.toNat % 128 := by
  rw [BitVec.toNat_and]
  exact Nat.and_two_pow_sub_one_eq_mod x.toNat 7

/-- The loop of the reader: `r` is what is read so far, `v` what the writer had left. -/
theorem readVarint_spec {w n i r : Nat} (hw : 8 ≤ w) {v : BitVec w} {bs : List UInt8}
    (hbs : varint n v = some bs) (h : Ahead b (bs ++ rest)) (hr : r < 2 ^ i)
    (hfit : r + v.toNat * 2 ^ i < 2 ^ w) :
    ∃ b', readVarint w (List.range' i n 7) (BitVec.ofNat w r) b =
        (.ok (BitVec.ofNat w (r + v.toNat * 2 ^ i)), b') ∧
      Ahead b' rest ∧ b'.endian = b.endian := by
  induction n generalizing i r v bs b with
  | zero => cases hbs
  | succ n ih =>
      rw [varint] at hbs
      by_cases hmore : 0x80 ≤ v.toNat
      · rw [if_pos hmore] at hbs
        obtain ⟨bs', hbs', rfl⟩ := Option.map_eq_some_iff.mp hbs
        obtain ⟨b₁, hread, hahead, hend⟩ := readFint8_ahead h
        set x := (UInt8.ofNat ((v &&& 0x7F) ||| 0x80).toNat).toBitVec with hx
        have hxv : x.toNat = v.toNat % 128 + 128 := toNat_continued hw v
        have hlow : (x &&& 0x7F).toNat = v.toNat % 128 := by
          rw [toNat_payload, hxv]
          omega
        have hrest : (v >>> 7).toNat = v.toNat / 128 := by
          rw [BitVec.toNat_ushiftRight, Nat.shiftRight_eq_div_pow]
        have hpow : 2 ^ (i + 7) = 128 * 2 ^ i := by rw [Nat.pow_add, Nat.mul_comm]
        -- the value splits into the seven bits of this byte and the rest
        have hsplit : r + v.toNat * 2 ^ i =
            (r + v.toNat % 128 * 2 ^ i) + v.toNat / 128 * 2 ^ (i + 7) := by
          have hdiv := Nat.mod_add_div v.toNat 128
          rw [hpow, ← Nat.mul_assoc, Nat.add_assoc, ← Nat.add_mul]
          congr 2
          omega
        have hr' : r + v.toNat % 128 * 2 ^ i < 2 ^ (i + 7) := by
          have hle : v.toNat % 128 * 2 ^ i ≤ 127 * 2 ^ i :=
            Nat.mul_le_mul_right _ (by omega)
          rw [hpow]
          omega
        obtain ⟨b', hloop, hahead', hend'⟩ :=
          ih hbs' hahead hr' (by rw [hrest, ← hsplit]; exact hfit)
        refine ⟨b', ?_, hahead', hend'.trans hend⟩
        rw [List.range'_succ, readVarint, hread]
        simp only
        rw [if_neg (by omega), or_setWidth hr (by rw [hlow]; omega), hlow, hloop, hrest,
          ← hsplit]
      · rw [if_neg hmore, Option.some.injEq] at hbs
        subst hbs
        obtain ⟨b₁, hread, hahead, hend⟩ := readFint8_ahead h
        have hbyte : (UInt8.ofNat v.toNat).toBitVec.toNat = v.toNat := by
          rw [UInt8.toNat_toBitVec, UInt8.toNat_ofNat']
          omega
        refine ⟨b₁, ?_, hahead, hend⟩
        rw [List.range'_succ, readVarint, hread]
        simp only [hbyte]
        rw [if_pos (by omega), or_setWidth hr (by rw [hbyte]; exact hfit), hbyte]

end Reading

/-! ## Streams -/

/-- The byte order that `setIsLittleEndian` sets. -/
def flagEndian (flag : Bool) : Endian :=
  if flag then .little else .big

/-- The bytes that a value is stored as under a byte order. -/
def encoded (e : Endian) : Value → List UInt8
  | ⟨.int32, v⟩ => (varint 5 (encodeZigzag v)).getD []
  | ⟨.uint32, v⟩ => (varint 5 v).getD []
  | ⟨.int64, v⟩ => (varint 10 (encodeZigzag v)).getD []
  | ⟨.uint64, v⟩ => (varint 10 v).getD []
  | ⟨_, v⟩ => memory e v

section Values

variable {b : ByteArray} {rest : List UInt8}

theorem memory_eight (e : Endian) (v : BitVec 8) : memory e v = [UInt8.ofBitVec v] := by
  have hone : UInt8.ofNat v.toNat = UInt8.ofBitVec v := by
    apply UInt8.toBitVec_inj.mp
    simp
  cases e <;> simp [memory, digits, hone]

/-- A value of fixed width is stored as its digits in the order of the flag. -/
theorem encoded_fixed {v : Value} (hfixed : v.kind.fixed = true) (flag : Bool) :
    encoded (flagEndian flag) v =
      if flag then digits (v.kind.width / 8) v.bits.toNat
        else (digits (v.kind.width / 8) v.bits.toNat).reverse := by
  have hmem : encoded (flagEndian flag) v = memory (flagEndian flag) v.bits := by
    obtain ⟨k, v⟩ := v
    cases k with
    | int32 => cases hfixed
    | uint32 => cases hfixed
    | int64 => cases hfixed
    | uint64 => cases hfixed
    | _ => rfl
  rw [hmem]
  cases flag <;> rfl

/-- The buffer of a varint is large enough, so that its bytes are written. -/
theorem writeVarint_eq {w n : Nat} {v : BitVec w} (hfit : w ≤ 7 * (n + 1)) :
    b.writeVarint (n + 1) v = b.write ((varint (n + 1) v).getD []) := by
  have hlt : v.toNat < 2 ^ (7 * (n + 1)) :=
    Nat.lt_of_lt_of_le v.isLt (Nat.pow_le_pow_right (by decide) hfit)
  obtain ⟨bs, hbs, _⟩ := varint_isSome hlt
  rw [writeVarint, hbs]
  rfl

theorem writeFixed_eq {w n : Nat} (hw : w = 8 * n) (host : Endian) (v : BitVec w) :
    b.writeFixed host v = b.write (memory b.endian v) := by
  rw [writeFixed, store_swapped hw]

/-- Every writer stores the encoding of its value, on every host. -/
theorem writeValue_eq (host : Endian) (v : Value) :
    b.writeValue host v = b.write (encoded b.endian v) := by
  obtain ⟨k, v⟩ := v
  cases k with
  | fint8 => exact congrArg b.write (memory_eight b.endian v).symm
  | fuint8 => exact congrArg b.write (memory_eight b.endian v).symm
  | fint16 => exact writeFixed_eq (n := 2) rfl host v
  | fuint16 => exact writeFixed_eq (n := 2) rfl host v
  | fint32 => exact writeFixed_eq (n := 4) rfl host v
  | fuint32 => exact writeFixed_eq (n := 4) rfl host v
  | fint64 => exact writeFixed_eq (n := 8) rfl host v
  | fuint64 => exact writeFixed_eq (n := 8) rfl host v
  | float => exact writeFixed_eq (n := 4) rfl host v
  | double => exact writeFixed_eq (n := 8) rfl host v
  | int32 => exact writeVarint_eq (n := 4) (by decide)
  | uint32 => exact writeVarint_eq (n := 4) (by decide)
  | int64 => exact writeVarint_eq (n := 9) (by decide)
  | uint64 => exact writeVarint_eq (n := 9) (by decide)

theorem writeValue_spec (h : b.WellFormed) (host : Endian) (v : Value) :
    ∃ b', b.writeValue host v = (.ok (), b') ∧ b'.WellFormed ∧
      b'.contents = b.contents.write (encoded b.endian v) ∧ b'.endian = b.endian := by
  rw [writeValue_eq]
  exact write_spec h _

theorem readUint_ahead {w n : Nat} {v : BitVec w} (hw : 8 ≤ w) (hfit : w ≤ 7 * (n + 1))
    (h : Ahead b ((varint (n + 1) v).getD [] ++ rest)) :
    ∃ b', readVarint w (List.range' 0 (n + 1) 7) 0 b = (.ok v, b') ∧ Ahead b' rest ∧
      b'.endian = b.endian := by
  have hlt : v.toNat < 2 ^ (7 * (n + 1)) :=
    Nat.lt_of_lt_of_le v.isLt (Nat.pow_le_pow_right (by decide) hfit)
  obtain ⟨bs, hbs, _⟩ := varint_isSome hlt
  rw [hbs] at h
  have hloop := readVarint_spec (r := 0) (i := 0) hw hbs h (by decide) (by simp [v.isLt])
  simpa using hloop

/-- Every reader takes the encoding of a value of its kind. -/
theorem readKind_ahead (host : Endian) {v : Value} (h : Ahead b (encoded b.endian v ++ rest)) :
    ∃ b', b.readKind host v.kind = (.ok v.bits, b') ∧ Ahead b' rest ∧ b'.endian = b.endian := by
  obtain ⟨k, v⟩ := v
  have hbyte : ∀ u : BitVec 8, Ahead b (memory b.endian u ++ rest) →
      ∃ b', b.readFint8 = (.ok u, b') ∧ Ahead b' rest ∧ b'.endian = b.endian := by
    intro u hu
    rw [memory_eight] at hu
    exact readFint8_ahead hu
  cases k with
  | fint8 => exact hbyte v h
  | fuint8 => exact hbyte v h
  | fint16 => exact readFixed_ahead (n := 1) rfl host h
  | fuint16 => exact readFixed_ahead (n := 1) rfl host h
  | fint32 => exact readFixed_ahead (n := 3) rfl host h
  | fuint32 => exact readFixed_ahead (n := 3) rfl host h
  | fint64 => exact readFixed_ahead (n := 7) rfl host h
  | fuint64 => exact readFixed_ahead (n := 7) rfl host h
  | float => exact readFixed_ahead (n := 3) rfl host h
  | double => exact readFixed_ahead (n := 7) rfl host h
  | int32 =>
      obtain ⟨b', hread, hrest⟩ :=
        readUint_ahead (w := 32) (n := 4) (v := encodeZigzag v) (by decide) (by decide) h
      refine ⟨b', ?_, hrest⟩
      have hint : b.readUint32 = (.ok (encodeZigzag v), b') := hread
      have hzig : decodeZigzag (encodeZigzag v) = v :=
        decodeZigzag_encodeZigzag (by decide : 1 < 32) v
      simp only [readKind, readInt32, hint, Except.map]
      exact congrArg (fun u => (Except.ok u, b')) hzig
  | uint32 => exact readUint_ahead (w := 32) (n := 4) (by decide) (by decide) h
  | int64 =>
      obtain ⟨b', hread, hrest⟩ :=
        readUint_ahead (w := 64) (n := 9) (v := encodeZigzag v) (by decide) (by decide) h
      refine ⟨b', ?_, hrest⟩
      have hint : b.readUint64 = (.ok (encodeZigzag v), b') := hread
      have hzig : decodeZigzag (encodeZigzag v) = v :=
        decodeZigzag_encodeZigzag (by decide : 1 < 64) v
      simp only [readKind, readInt64, hint, Except.map]
      exact congrArg (fun u => (Except.ok u, b')) hzig
  | uint64 => exact readUint_ahead (w := 64) (n := 9) (by decide) (by decide) h

theorem setIsLittleEndian_wellFormed (h : b.WellFormed) (flag : Bool) :
    (b.setIsLittleEndian flag).WellFormed :=
  ⟨h.base, h.uniform, h.root, h.capacity, h.size_le, h.position_le, h.cur⟩

/-- The bytes that a list of values is stored as. -/
def encodedAll : List (Bool × Value) → List UInt8
  | [] => []
  | (flag, v) :: items => encoded (flagEndian flag) v ++ encodedAll items

/-- Writing at the end appends. -/
theorem flat_write_end (data buf : List UInt8) :
    Flat.write ⟨data, data.length⟩ buf = ⟨data ++ buf, (data ++ buf).length⟩ := by
  simp [Flat.write, Blocks.splice]

theorem writeAll_spec (h : b.WellFormed) (host : Endian) (items : List (Bool × Value))
    (data : List UInt8) (hend : b.contents = ⟨data, data.length⟩) :
    ∃ b', b.writeAll host items = (.ok (), b') ∧ b'.WellFormed ∧
      b'.contents =
        ⟨data ++ encodedAll items, (data ++ encodedAll items).length⟩ := by
  induction items generalizing b data with
  | nil => exact ⟨b, rfl, h, by simpa [encodedAll] using hend⟩
  | cons item items ih =>
      obtain ⟨flag, v⟩ := item
      obtain ⟨b₁, hwrite, hwf, hcont, _⟩ :=
        writeValue_spec (setIsLittleEndian_wellFormed h flag) host v
      have hstart : (b.setIsLittleEndian flag).contents = ⟨data, data.length⟩ := hend
      rw [hstart, flat_write_end] at hcont
      obtain ⟨b₂, hrest, hwf₂, hcont₂⟩ := ih hwf _ hcont
      refine ⟨b₂, ?_, hwf₂, ?_⟩
      · rw [writeAll, hwrite]
        exact hrest
      · rw [hcont₂, List.append_assoc]
        rfl

theorem readAll_ahead (host : Endian) (items : List (Bool × Value))
    (h : Ahead b (encodedAll items ++ rest)) :
    ∃ b', b.readAll host (items.map fun x => (x.1, x.2.kind)) =
        (.ok (items.map Prod.snd), b') ∧ Ahead b' rest := by
  induction items generalizing b with
  | nil => exact ⟨b, rfl, h⟩
  | cons item items ih =>
      obtain ⟨flag, v⟩ := item
      have hahead : Ahead (b.setIsLittleEndian flag)
          (encoded (b.setIsLittleEndian flag).endian v ++ (encodedAll items ++ rest)) := by
        refine ⟨setIsLittleEndian_wellFormed h.wf flag, ?_⟩
        rw [← List.append_assoc]
        exact h.data
      obtain ⟨b₁, hread, hahead₁, _⟩ := readKind_ahead host hahead
      obtain ⟨b₂, hrest, hahead₂⟩ := ih hahead₁
      refine ⟨b₂, ?_, hahead₂⟩
      simp only [List.map_cons, readAll, hread, hrest, Except.map]

end Values

end ByteArray

open Hpgs.Network.ByteArray in
/-- **Streams of numbers.**  Values of mixed kinds that are written to an empty
`ByteArray` are read back under the same flags, and nothing is left to read; the bytes
that a fixed-width writer stores are the digits of the value in the order of the flag,
whatever the host's byte order. -/
theorem number_stream (host : Endian) {B : Nat} (hB : 1 ≤ B) (fresh : Nat → Nat → UInt8) :
    (∀ items : List (Bool × Value),
      ∃ b b₀ b', (new B fresh).writeAll host items = (.ok (), b) ∧
        b.setPosition 0 = (.ok (), b₀) ∧
        b₀.readAll host (items.map fun x => (x.1, x.2.kind)) = (.ok (items.map Prod.snd), b') ∧
        b'.getReadSize = 0) ∧
      ∀ b : ByteArray, b.WellFormed → ∀ flag (v : Value), v.kind.fixed = true →
        ∃ b', (b.setIsLittleEndian flag).writeValue host v = (.ok (), b') ∧
          b'.contents = b.contents.write
            (if flag then digits (v.kind.width / 8) v.bits.toNat
              else (digits (v.kind.width / 8) v.bits.toNat).reverse) := by
  constructor
  · intro items
    obtain ⟨b, hwrite, hwf, hcont⟩ :=
      writeAll_spec (new_wellFormed hB fresh) host items []
        (by simp [contents, new])
    obtain ⟨b₀, hset, hwf₀, hcont₀, _⟩ := setPosition_spec hwf (Nat.zero_le b.size)
    have hahead : Ahead b₀ (encodedAll items ++ []) := by
      have hpos : b₀.position = 0 := congrArg Flat.pos hcont₀
      refine ⟨hwf₀, ?_⟩
      rw [hpos, hcont₀, hcont]
      simp
    obtain ⟨b', hread, hend⟩ := readAll_ahead host items hahead
    refine ⟨b, b₀, b', hwrite, hset, hread, ?_⟩
    have hlen := congrArg List.length hend.data
    rw [List.length_drop, hend.wf.contents_length, List.length_nil] at hlen
    rw [hend.wf.getReadSize, hlen]
  · intro b h flag v hfixed
    obtain ⟨b', hwrite, _, hcont, _⟩ :=
      writeValue_spec (setIsLittleEndian_wellFormed h flag) host v
    refine ⟨b', hwrite, ?_⟩
    rw [← encoded_fixed hfixed]
    exact hcont

/-- A negative zigzag number, a double-size one and a varint over blocks of three bytes. -/
def mixedItems : List (Bool × Value) :=
  [(true, ⟨.fuint16, 0x1234#16⟩), (false, ⟨.fint64, 0xFFFFFFFFFFFFFFFE#64⟩),
    (false, ⟨.int32, 0x80000000#32⟩), (true, ⟨.uint64, 300#64⟩)]

open Hpgs.Network.ByteArray in
theorem number_stream_mixed :
    (∃ b b₀ b', (new 3 fun _ _ => 0).writeAll .little mixedItems = (.ok (), b) ∧
      b.setPosition 0 = (.ok (), b₀) ∧
      b₀.readAll .little (mixedItems.map fun x => (x.1, x.2.kind)) =
        (.ok (mixedItems.map Prod.snd), b') ∧
      b'.getReadSize = 0) ∧
    ((new 3 fun _ _ => 0).writeAll .little mixedItems).2.contents.data =
      [0x34, 0x12, 0xFF, 0xFF, 0xFF, 0xFF, 0xFF, 0xFF, 0xFF, 0xFE, 0xFF, 0xFF, 0xFF, 0xFF, 0x0F,
        0xAC, 0x02] :=
  ⟨(number_stream .little (by decide) fun _ _ => 0).1 mixedItems, by decide⟩

end Network
end Hpgs
