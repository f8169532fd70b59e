import Mathlib.Data.Nat.Bitwise

/-!
# Numbers as bytes

**Results.**
* `value_digits`, `digits_value`: the little-endian base-256 digits of a number.
* `getD_digits`, `testBit_value`: single digits, and the bits of a number.
* `or_shiftLeft`: two numbers with disjoint bits.
-/

namespace Hpgs
namespace Digits

/-- The `n` lowest base-256 digits of `v`, the lowest first. -/
def digits : Nat → Nat → List UInt8
  | 0, _ => []
  | n + 1, v => UInt8.ofNat v :: digits n (v / 256)

/-- The number with the given base-256 digits, the lowest first. -/
def value : List UInt8 → Nat
  | [] => 0
  | b :: bs => b.toNat + 256 * value bs

theorem length_digits (n v : Nat) : (digits n v).length = n := by
  induction n generalizing v with
  | zero => rfl
  | succ n ih => simp [digits, ih]

theorem value_lt (bs : List UInt8) : value bs < 256 ^ bs.length := by
  induction bs with
  | nil => simp [value]
  | cons b bs ih =>
      have hb := b.toNat_lt
      simp only [value, List.length_cons, Nat.pow_succ]
      omega

theorem value_digits {n v : Nat} (h : v < 256 ^ n) : value (digits n v) = v := by
  induction n generalizing v with
  | zero =>
      simp only [Nat.pow_zero] at h
      simp only [digits, value]
      omega
  | succ n ih =>
      have hdiv : v / 256 < 256 ^ n := by
        rw [Nat.div_lt_iff_lt_mul (by decide), ← Nat.pow_succ]
        exact h
      simp only [digits, value, ih hdiv, UInt8.toNat_ofNat']
      omega

theorem digits_value (bs : List UInt8) : digits bs.length (value bs) = bs := by
  induction bs with
  | nil => rfl
  | cons b bs ih =>
      have hb := b.toNat_lt
      have hlow : UInt8.ofNat (b.toNat + 256 * value bs) = b := by
        apply UInt8.toNat_inj.mp
        rw [UInt8.toNat_ofNat']
        omega
      have hrest : (b.toNat + 256 * value bs) / 256 = value bs := by omega
      rw [List.length_cons, digits, value, hlow, hrest, ih]

theorem getD_digits (n v k : Nat) :
    (digits n v).getD k 0 = if k < n then UInt8.ofNat (v / 256 ^ k) else 0 := by
  induction n generalizing v k with
  | zero => simp [digits]
  | succ n ih =>
      cases k with
      | zero => simp [digits]
      | succ k =>
          rw [digits, List.getD_cons_succ, ih, Nat.pow_succ', Nat.div_div_eq_div_mul]
          simp only [Nat.add_lt_add_iff_right]

theorem testBit_value (bs : List UInt8) (i : Nat) :
    (value bs).testBit i = (bs.getD (i / 8) 0).toNat.testBit (i % 8) := by
  induction bs generalizing i with
  | nil => simp [value]
  | cons b bs ih =>
      have hb : b.toNat < 2 ^ 8 := b.toNat_lt
      rw [value, Nat.add_comm, show 256 = 2 ^ 8 from rfl, Nat.testBit_two_pow_mul_add _ hb]
      split
      · rename_i hi
        rw [Nat.div_eq_of_lt hi, Nat.mod_eq_of_lt hi, List.getD_cons_zero]
      · rename_i hi
        obtain ⟨j, rfl⟩ := Nat.exists_eq_add_of_le (Nat.le_of_not_lt hi)
        rw [ih, Nat.add_div_left _ (by decide), List.getD_cons_succ, Nat.add_mod_left]
        simp

/-- Or-ing in bits above all that are set adds them. -/
theorem or_shiftLeft {r i : Nat} (x : Nat) (h : r < 2 ^ i) : r ||| x <<< i = r + x * 2 ^ i := by
  rw [Nat.shiftLeft_eq, Nat.mul_comm, Nat.lor_comm, ← Nat.two_pow_add_eq_or_of_lt h, Nat.add_comm]

end Digits
end Hpgs
