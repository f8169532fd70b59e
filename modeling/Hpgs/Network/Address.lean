import Hpgs.Library.PrefixMask
import Hpgs.Network.NumberStream

/-!
# Byte order and masks of addresses

A port and an IPv4 address are stored in network byte order: what a host finds in memory
is byte-swapped on a little-endian host.  `CreateMask` is a shift and a subtraction of
`int`s, which are not defined for every number of bits.

**Results.**
* `getLsbD_byteswap`: where the bits go.
* `byteswapOnLittleEndian_and`, `byteswapOnLittleEndian_or`, `byteswapOnLittleEndian_not`,
  `byteswapOnLittleEndian_self`: byte order and bitwise operations.
* `createMask_eq`, `createMask32_cases`: the masks, and where they are defined.
-/

namespace Hpgs
namespace Network

open Digits PrefixMask

open Hpgs.Network.ByteArray (byteswap)

/-! ## Definitions -/

/-- What the language leaves undefined. -/
inductive Undefined
  | shift
  | overflow
  | index
deriving DecidableEq, Repr

/-- `byteswapOnLittleEndian`. -/
def byteswapOnLittleEndian (host : Endian) {w : Nat} (v : BitVec w) : BitVec w :=
  match host with
  | .little => byteswap v
  | .big => v

/-- `CreateMask<T>`, for `T` of `w` bits: `(1 << (sizeof(T) * 8 - bits)) - 1` with an `int`
for `1` and a `size_t` for the difference. -/
def createMask (w : Nat) (bits : BitVec 32) : Except Undefined (BitVec w) :=
  let amount := BitVec.ofNat 64 w - bits.setWidth 64
  if 32 ≤ amount.toNat then .error .shift
  else
    let shifted := (1#32 <<< amount.toNat).toInt
    if shifted - 1 < -2 ^ 31 then .error .overflow
    else .ok (BitVec.ofInt w (shifted - 1))

/-! ## Byte order -/

section ByteOrder

variable {w n : Nat}

/-- The bytes are in opposite order, and the bits of each byte as they were. -/
theorem getLsbD_byteswap (hw : w = 8 * n) (v : BitVec w) {i : Nat} (h : i < w) :
    (byteswap v).getLsbD i = v.getLsbD (8 * (n - 1 - i / 8) + i % 8) := by
  subst hw
  have hdiv : 8 * n / 8 = n := by omega
  have hlt : i / 8 < n := by omega
  have hrev : (digits n v.toNat).reverse.getD (i / 8) 0 =
      UInt8.ofNat (v.toNat / 256 ^ (n - 1 - i / 8)) := by
    rw [List.getD_eq_getElem?_getD, List.getElem?_reverse (by rw [length_digits]; exact hlt),
      length_digits, ← List.getD_eq_getElem?_getD, getD_digits, if_pos (by omega)]
  rw [byteswap, BitVec.getLsbD_ofNat, hdiv, testBit_value, hrev, UInt8.toNat_ofNat',
    show 256 = 2 ^ 8 from rfl, ← Nat.pow_mul, Nat.testBit_mod_two_pow, Nat.testBit_div_two_pow]
  simp only [h, decide_true, Nat.mod_lt i (by decide : 0 < 8), Bool.true_and, BitVec.getLsbD]
  congr 1
  omega

theorem byteswap_and (hw : w = 8 * n) (x y : BitVec w) :
    byteswap (x &&& y) = byteswap x &&& byteswap y := by
  refine BitVec.eq_of_getLsbD_eq fun i hi => ?_
  simp only [BitVec.getLsbD_and, getLsbD_byteswap hw _ hi]

theorem byteswap_or (hw : w = 8 * n) (x y : BitVec w) :
    byteswap (x ||| y) = byteswap x ||| byteswap y := by
  refine BitVec.eq_of_getLsbD_eq fun i hi => ?_
  simp only [BitVec.getLsbD_or, getLsbD_byteswap hw _ hi]

theorem byteswap_not (hw : w = 8 * n) (x : BitVec w) : byteswap (~~~x) = ~~~byteswap x := by
  refine BitVec.eq_of_getLsbD_eq fun i hi => ?_
  have hlt : 8 * (n - 1 - i / 8) + i % 8 < w := by omega
  simp only [BitVec.getLsbD_not, getLsbD_byteswap hw _ hi, hi, hlt]

theorem byteswap_byteswap (hw : w = 8 * n) (x : BitVec w) : byteswap (byteswap x) = x := by
  refine BitVec.eq_of_getLsbD_eq fun i hi => ?_
  have hlt : 8 * (n - 1 - i / 8) + i % 8 < w := by omega
  rw [getLsbD_byteswap hw _ hi, getLsbD_byteswap hw _ hlt]
  congr 1
  omega

variable (host : Endian)

theorem byteswapOnLittleEndian_and (hw : w = 8 * n) (x y : BitVec w) :
    byteswapOnLittleEndian host (x &&& y) =
      byteswapOnLittleEndian host x &&& byteswapOnLittleEndian host y := by
  cases host with
  | little => exact byteswap_and hw x y
  | big => rfl

theorem byteswapOnLittleEndian_or (hw : w = 8 * n) (x y : BitVec w) :
    byteswapOnLittleEndian host (x ||| y) =
      byteswapOnLittleEndian host x ||| byteswapOnLittleEndian host y := by
  cases host with
  | little => exact byteswap_or hw x y
  | big => rfl

theorem byteswapOnLittleEndian_not (hw : w = 8 * n) (x : BitVec w) :
    byteswapOnLittleEndian host (~~~x) = ~~~byteswapOnLittleEndian host x := by
  cases host with
  | little => exact byteswap_not hw x
  | big => rfl

theorem byteswapOnLittleEndian_self (hw : w = 8 * n) (x : BitVec w) :
    byteswapOnLittleEndian host (byteswapOnLittleEndian host x) = x := by
  cases host with
  | little => exact byteswap_byteswap hw x
  | big => rfl

end ByteOrder

/-! ## Masks -/

theorem toInt_one_shiftLeft {k : Nat} (hk : k < 31) : (1#32 <<< k).toInt = 2 ^ k := by
  have hlt : 2 ^ k < 2 ^ 31 := Nat.pow_lt_pow_right (by decide) hk
  have hnat : (1#32 <<< k).toNat = 2 ^ k := by
    rw [BitVec.toNat_shiftLeft, BitVec.toNat_ofNat, Nat.shiftLeft_eq, Nat.one_mod, Nat.one_mul]
    exact Nat.mod_eq_of_lt (by omega)
  rw [BitVec.toInt_eq_toNat_of_lt (by omega), hnat]
  exact Int.natCast_pow 2 k

theorem amount_toNat {w : Nat} {bits : BitVec 32} (hw : w < 2 ^ 64) (hle : bits.toNat ≤ w) :
    (BitVec.ofNat 64 w - bits.setWidth 64).toNat = w - bits.toNat := by
  have hbits := bits.isLt
  have hsub : (BitVec.ofNat 64 w).toNat = w := by
    rw [BitVec.toNat_ofNat]
    exact Nat.mod_eq_of_lt hw
  have hset : (bits.setWidth 64).toNat = bits.toNat := by
    rw [BitVec.toNat_setWidth]
    exact Nat.mod_eq_of_lt (by omega)
  rw [BitVec.toNat_sub_of_le (by rw [BitVec.le_def, hsub, hset]; exact hle), hsub, hset]

/-- The mask of what follows a prefix, where the computation is defined. -/
theorem createMask_eq {w : Nat} {bits : BitVec 32} (hw : w < 2 ^ 64) (hle : bits.toNat ≤ w)
    (hlt : w - bits.toNat < 31) : createMask w bits = .ok (lowOnes w (w - bits.toNat)) := by
  have hone : (2 : Int) ^ (w - bits.toNat) - 1 = ((2 ^ (w - bits.toNat) - 1 : Nat) : Int) := by
    rw [Nat.cast_sub Nat.one_le_two_pow, Nat.cast_pow]
    rfl
  have hshift := toInt_one_shiftLeft hlt
  unfold createMask
  simp only [amount_toNat hw hle, hshift]
  rw [if_neg (by omega), if_neg (by omega), hone, BitVec.ofInt_natCast]
  rfl

/-- The mask of an IPv4 prefix is not defined for the two shortest ones: `1 << 32` shifts too
far, and `(1 << 31) - 1` is below the least `int`. -/
theorem createMask32_cases {bits : BitVec 32} (h : bits.toNat ≤ 32) :
    (2 ≤ bits.toNat ∧ createMask 32 bits = .ok (lowOnes 32 (32 - bits.toNat))) ∨
      (bits.toNat < 2 ∧ ∃ u, createMask 32 bits = .error u) := by
  by_cases htwo : 2 ≤ bits.toNat
  · exact Or.inl ⟨htwo, createMask_eq (by decide) h (by omega)⟩
  · refine Or.inr ⟨by omega, ?_⟩
    have hbits : bits = 0#32 ∨ bits = 1#32 := by
      rw [← BitVec.toNat_inj, ← BitVec.toNat_inj]
      simp only [BitVec.toNat_ofNat]
      omega
    rcases hbits with rfl | rfl
    · exact ⟨.shift, by decide⟩
    · exact ⟨.overflow, by decide⟩

end Network
end Hpgs
