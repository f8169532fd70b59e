import Hpgs.Network.NumberStream

/-!
# Zigzag codes without overflow

`EncodeZigzag32` and `EncodeZigzag64` negate and double in the signed type, and only then
convert to the unsigned one.  A signed result that does not fit is undefined; where all
results fit, the codes are those of `encodeZigzag`, which wraps.

**Results.**
* `encodeZigzag_decodeZigzag`: with results that wrap, both functions are bijections.
* `encodeZigzagSigned_eq`: what is computed without overflow.
* `zigzag_defined_iff`: the numbers for which the codes are defined and read back.
-/

namespace Hpgs
namespace Network
namespace ByteArray

variable {w : Nat}

/-! ## Definitions -/

/-- `EncodeZigzag32` and `EncodeZigzag64`, `none` where a signed result does not fit. -/
def encodeZigzagSigned (v : BitVec w) : Option (BitVec w) :=
  if v.slt 0 then
    if v.negOverflow then none else some ((-v) * 2 - 1)
  else if v.smulOverflow 2 then none
  else some (v * 2)

/-- The value has a code, and is read back from it. -/
def Encodes (v : BitVec w) : Prop :=
  ∃ u, encodeZigzagSigned v = some u ∧ decodeZigzag u = v

/-- The code stands for a value that it is the code of. -/
def Decodes (u : BitVec w) : Prop :=
  encodeZigzagSigned (decodeZigzag u) = some u

/-! ## Results that wrap -/

/-- Encoding undoes decoding. -/
theorem encodeZigzag_decodeZigzag (hw : 1 < w) (u : BitVec w) :
    encodeZigzag (decodeZigzag u) = u := by
  have hlt := u.isLt
  have heven : 2 ^ w = 2 * 2 ^ (w - 1) := by
    rw [← Nat.pow_succ']
    congr 1
    omega
  apply BitVec.eq_of_toNat_eq
  rw [toNat_encodeZigzag hw, toNat_decodeZigzag hw]
  by_cases h : u.toNat % 2 = 0
  · simp only [if_pos h]
    rw [if_pos (by omega)]
    omega
  · simp only [if_neg h]
    rw [if_neg (by omega)]
    omega

/-! ## Results that fit -/

section Signed

variable (hw : 2 < w)
include hw

theorem toInt_two : (2 : BitVec w).toInt = 2 := by
  have hpow : 2 ^ 3 ≤ 2 ^ w := Nat.pow_le_pow_right (by decide) hw
  have htwo : (2 : BitVec w).toNat = 2 := by
    simp only [BitVec.ofNat_eq_ofNat, BitVec.toNat_ofNat]
    exact Nat.mod_eq_of_lt (by omega)
  rw [BitVec.toInt_eq_toNat_of_lt (by omega), htwo]
  rfl

/-- The negative values but the least one, and the lower half of the others. -/
theorem encodeZigzagSigned_eq (v : BitVec w) :
    encodeZigzagSigned v =
      if -2 ^ (w - 1) < v.toInt ∧ v.toInt < 2 ^ (w - 2) then some (encodeZigzag v) else none := by
  have hhalf : (2 : Int) ^ (w - 1) = 2 * 2 ^ (w - 2) := by
    rw [← pow_succ']
    congr 1
    omega
  have hpos : (0 : Int) < 2 ^ (w - 2) := Int.pow_pos (by decide)
  have hleast := BitVec.le_toInt v
  have hsign : v.slt 0 = true ↔ v.toInt < 0 := by
    rw [BitVec.slt_iff_toInt_lt]
    simp
  unfold encodeZigzagSigned encodeZigzag
  by_cases hneg : v.toInt < 0
  · rw [if_pos (hsign.mpr hneg), if_pos (hsign.mpr hneg)]
    by_cases hmin : v.toInt = -2 ^ (w - 1)
    · rw [if_pos (by simp [BitVec.negOverflow, hmin]), if_neg (by omega)]
    · rw [if_neg (by simp [BitVec.negOverflow, hmin]), if_pos (by omega)]
  · rw [if_neg (hsign.not.mpr hneg), if_neg (hsign.not.mpr hneg)]
    have hover : v.smulOverflow 2 = true ↔ 2 ^ (w - 2) ≤ v.toInt := by
      simp only [BitVec.smulOverflow, toInt_two hw, Bool.or_eq_true, decide_eq_true_eq]
      omega
    by_cases hbig : 2 ^ (w - 2) ≤ v.toInt
    · rw [if_pos (hover.mpr hbig), if_neg (by omega)]
    · rw [if_neg (hover.not.mpr hbig), if_pos (by omega)]

theorem encodes_iff (v : BitVec w) :
    Encodes v ↔ -2 ^ (w - 1) < v.toInt ∧ v.toInt < 2 ^ (w - 2) := by
  rw [Encodes, encodeZigzagSigned_eq hw]
  by_cases h : -2 ^ (w - 1) < v.toInt ∧ v.toInt < 2 ^ (w - 2)
  · rw [if_pos h]
    exact ⟨fun _ => h, fun _ => ⟨_, rfl, decodeZigzag_encodeZigzag (by omega) v⟩⟩
  · rw [if_neg h]
    constructor
    · rintro ⟨u, hu, _⟩
      cases hu
    · exact fun h' => absurd h' h

/-- A code that is even stands for its half, and the last one for the least value. -/
theorem decodes_iff (u : BitVec w) :
    Decodes u ↔ u.toNat ≠ 2 ^ w - 1 ∧ (u.toNat % 2 = 0 → u.toNat < 2 ^ (w - 1)) := by
  have hlt := u.isLt
  have hfull : 2 ^ w = 4 * 2 ^ (w - 2) := by
    rw [show 4 = 2 ^ 2 from rfl, ← pow_add]
    congr 1
    omega
  have hhalf : 2 ^ (w - 1) = 2 * 2 ^ (w - 2) := by
    rw [← pow_succ']
    congr 1
    omega
  have hquarter : (2 : Int) ^ (w - 2) = ((2 ^ (w - 2) : Nat) : Int) := by norm_cast
  have hhalf' : (2 : Int) ^ (w - 1) = 2 * ((2 ^ (w - 2) : Nat) : Int) := by
    rw [← hquarter, ← pow_succ']
    congr 1
    omega
  have hvalue := toNat_decodeZigzag (by omega : 1 < w) u
  have hint := BitVec.toInt_eq_toNat_cond (decodeZigzag u)
  rw [Decodes, encodeZigzagSigned_eq hw, encodeZigzag_decodeZigzag (by omega),
    Option.ite_none_right_eq_some, and_iff_left rfl, hhalf', hquarter, hint, hvalue, hfull, hhalf]
  rw [hfull] at hlt
  generalize 2 ^ (w - 2) = p at hlt ⊢
  by_cases heven : u.toNat % 2 = 0
  · simp only [if_pos heven]
    split <;> omega
  · simp only [if_neg heven]
    split <;> omega

end Signed

/-- **Zigzag arithmetic.**  A value has a code without overflow exactly if it is not the
least one and lies below a quarter of the range, and is then read back.  A code is got back
from its value exactly if it is not the last one and, if it is even, lies in the lower
half. -/
theorem zigzag_defined_iff (v u : BitVec 32) (v' u' : BitVec 64) :
    ((Encodes v ↔ -2 ^ 31 < v.toInt ∧ v.toInt < 2 ^ 30) ∧
      (Decodes u ↔ u.toNat ≠ 2 ^ 32 - 1 ∧ (u.toNat % 2 = 0 → u.toNat < 2 ^ 31))) ∧
    ((Encodes v' ↔ -2 ^ 63 < v'.toInt ∧ v'.toInt < 2 ^ 62) ∧
      (Decodes u' ↔ u'.toNat ≠ 2 ^ 64 - 1 ∧ (u'.toNat % 2 = 0 → u'.toNat < 2 ^ 63))) :=
  ⟨⟨encodes_iff (by decide) v, decodes_iff (by decide) u⟩,
    ⟨encodes_iff (by decide) v', decodes_iff (by decide) u'⟩⟩

/-- The least `int32_t`, and a quarter of the range. -/
theorem zigzag_overflows :
    encodeZigzagSigned (0x80000000 : BitVec 32) = none ∧
      encodeZigzagSigned (0x40000000 : BitVec 32) = none ∧
      ¬ ∀ v : BitVec 32, Encodes v := by
  have hnone : encodeZigzagSigned (0x80000000 : BitVec 32) = none := by decide
  refine ⟨hnone, by decide, fun hall => ?_⟩
  obtain ⟨u, hu, _⟩ := hall 0x80000000
  rw [hnone] at hu
  cases hu

end ByteArray
end Network
end Hpgs
