import Mathlib.Data.BitVec

/-!
# Masks of leading bits

The mask of a prefix of `p` bits has its `p` highest bits set; its complement is a number
with only low bits set, which is how such masks are computed.

**Results.**
* `getMsbD_not_lowOnes`: the bits of a mask.
* `and_eq_and_not_iff`: what a mask and its complement both keep.
* `and_not_lowOnes_eq_iff`, `and_lowOnes_eq_zero_iff`: the parts of a number that a mask
  keeps and drops.
-/

namespace Hpgs
namespace PrefixMask

variable {w : Nat}

/-- The number whose `n` lowest bits are set. -/
def lowOnes (w n : Nat) : BitVec w :=
  BitVec.ofNat w (2 ^ n - 1)

theorem getLsbD_lowOnes (n i : Nat) :
    (lowOnes w n).getLsbD i = (decide (i < w) && decide (i < n)) := by
  rw [lowOnes, BitVec.getLsbD_ofNat, Nat.testBit_two_pow_sub_one]

theorem getMsbD_lowOnes {p : Nat} (hp : p ≤ w) (i : Nat) :
    (lowOnes w (w - p)).getMsbD i = (decide (i < w) && decide (p ≤ i)) := by
  rw [BitVec.getMsbD_eq_getLsbD, getLsbD_lowOnes]
  by_cases hi : i < w
  · simp only [hi, decide_true, Bool.true_and]
    rw [decide_eq_true (by omega), Bool.true_and, decide_eq_decide]
    omega
  · simp [hi]

/-- **The mask of a prefix** has exactly its first `p` bits set. -/
theorem getMsbD_not_lowOnes {p : Nat} (hp : p ≤ w) (i : Nat) :
    (~~~lowOnes w (w - p)).getMsbD i = (decide (i < w) && decide (i < p)) := by
  rw [BitVec.getMsbD_not, getMsbD_lowOnes hp]
  by_cases hi : i < w
  · simp only [hi, decide_true, Bool.true_and]
    rw [← decide_not, decide_eq_decide]
    omega
  · simp [hi]

theorem eq_zero_iff_getMsbD {x : BitVec w} : x = 0 ↔ ∀ i < w, x.getMsbD i = false := by
  constructor
  · rintro rfl i _
    simp
  · intro h
    refine BitVec.eq_of_getMsbD_eq fun i hi => ?_
    simpa using h i hi

/-- A mask and its complement keep the same of a number only if it is zero. -/
theorem and_eq_and_not_iff (x m : BitVec w) : x &&& m = x &&& ~~~m ↔ x = 0 := by
  constructor
  · intro h
    refine eq_zero_iff_getMsbD.mpr fun i hi => ?_
    have hbit := congrArg (fun v => v.getMsbD i) h
    simp only [BitVec.getMsbD_and, BitVec.getMsbD_not, hi, decide_true, Bool.true_and] at hbit
    cases hx : x.getMsbD i <;> cases hm : m.getMsbD i <;> simp [hx, hm] at hbit ⊢
  · rintro rfl
    simp

/-- The mask of a prefix keeps the same of two numbers that agree on the prefix. -/
theorem and_not_lowOnes_eq_iff {p : Nat} (hp : p ≤ w) (x y : BitVec w) :
    x &&& ~~~lowOnes w (w - p) = y &&& ~~~lowOnes w (w - p) ↔
      ∀ i < p, x.getMsbD i = y.getMsbD i := by
  constructor
  · intro h i hi
    have hbit := congrArg (fun v => v.getMsbD i) h
    simpa [getMsbD_not_lowOnes hp, hi, Nat.lt_of_lt_of_le hi hp] using hbit
  · intro h
    refine BitVec.eq_of_getMsbD_eq fun i hi => ?_
    rw [BitVec.getMsbD_and, BitVec.getMsbD_and, getMsbD_not_lowOnes hp]
    by_cases hip : i < p
    · rw [h i hip]
    · simp [hip]

/-- The other bits are zero. -/
theorem and_lowOnes_eq_zero_iff {p : Nat} (hp : p ≤ w) (x : BitVec w) :
    x &&& lowOnes w (w - p) = 0 ↔ ∀ i, p ≤ i → i < w → x.getMsbD i = false := by
  rw [eq_zero_iff_getMsbD]
  constructor
  · intro h i hpi hi
    simpa [getMsbD_lowOnes hp, hpi, hi] using h i hi
  · intro h i hi
    rw [BitVec.getMsbD_and, getMsbD_lowOnes hp]
    by_cases hip : p ≤ i
    · rw [h i hip hi, Bool.false_and]
    · simp [hip]

end PrefixMask
end Hpgs
