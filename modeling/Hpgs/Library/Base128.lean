import Mathlib.Algebra.Group.Nat.Defs
import Mathlib.Data.Nat.Size

/-!
# Numbers in groups of seven bits

A number is stored in bytes of seven bits each, the lowest first; every byte but the last
has the bit `0x80` set, so that a reader knows where the number ends.

**Results.**
* `encode_terminated`, `payload_encode`: the encoding ends itself and has its value.
* `length_encode_le`, `length_encode`: how many bytes the encoding takes.
* `front_eq_some_iff`: the encoding at the front of a list of bytes is the only one.
-/

namespace Hpgs
namespace Base128

/-- The encoding without superfluous bytes. -/
def encode (n : Nat) : List UInt8 :=
  if n < 128 then [UInt8.ofNat n] else UInt8.ofNat (n % 128 + 128) :: encode (n / 128)

/-- The number that the groups of some bytes make, whether or not the bytes go on. -/
def payload : List UInt8 → Nat
  | [] => 0
  | x :: xs => x.toNat % 128 + 128 * payload xs

/-- The bytes end with the first one that does not go on. -/
inductive Terminated : List UInt8 → Prop
  | last {x : UInt8} (h : x.toNat < 128) : Terminated [x]
  | more {x : UInt8} {xs : List UInt8} (h : 128 ≤ x.toNat) (hxs : Terminated xs) :
      Terminated (x :: xs)

/-- The bytes up to the first one that does not go on. -/
def front : List UInt8 → Option (List UInt8)
  | [] => none
  | x :: xs => if x.toNat < 128 then some [x] else (front xs).map (x :: ·)

theorem terminated_iff {bs : List UInt8} :
    Terminated bs ↔
      ∃ init last, bs = init ++ [last] ∧ (∀ x ∈ init, 128 ≤ x.toNat) ∧ last.toNat < 128 := by
  constructor
  · intro h
    induction h with
    | @last x h => exact ⟨[], x, rfl, fun _ hx => absurd hx List.not_mem_nil, h⟩
    | @more x xs h _ ih =>
        obtain ⟨init, last, rfl, hinit, hlast⟩ := ih
        exact ⟨x :: init, last, rfl, List.forall_mem_cons.mpr ⟨h, hinit⟩, hlast⟩
  · rintro ⟨init, last, rfl, hinit, hlast⟩
    induction init with
    | nil => exact .last hlast
    | cons x init ih =>
        obtain ⟨hx, hrest⟩ := List.forall_mem_cons.mp hinit
        exact .more hx (ih hrest)

/-! ## The encoding -/

theorem toNat_ofNat_continued {n : Nat} : (UInt8.ofNat (n % 128 + 128)).toNat = n % 128 + 128 := by
  rw [UInt8.toNat_ofNat']
  omega

theorem encode_terminated (n : Nat) : Terminated (encode n) := by
  induction n using encode.induct with
  | case1 n hlt =>
      rw [encode, if_pos hlt]
      refine .last ?_
      rw [UInt8.toNat_ofNat']
      omega
  | case2 n hge ih =>
      rw [encode, if_neg hge]
      refine .more ?_ ih
      rw [toNat_ofNat_continued]
      omega

theorem payload_encode (n : Nat) : payload (encode n) = n := by
  induction n using encode.induct with
  | case1 n hlt =>
      rw [encode, if_pos hlt]
      simp only [payload, UInt8.toNat_ofNat']
      omega
  | case2 n hge ih =>
      rw [encode, if_neg hge]
      simp only [payload, toNat_ofNat_continued, ih]
      omega

theorem encode_ne_nil (n : Nat) : encode n ≠ [] := by
  rw [encode]
  split <;> exact List.cons_ne_nil _ _

/-- `k + 1` bytes hold the numbers of `7 * (k + 1)` bits. -/
theorem length_encode_le (n k : Nat) : (encode n).length ≤ k + 1 ↔ n < 2 ^ (7 * (k + 1)) := by
  induction k generalizing n with
  | zero =>
      rw [encode]
      split
      · simpa using ‹n < 128›
      · have hpos := List.length_pos_iff.mpr (encode_ne_nil (n / 128))
        simp only [List.length_cons]
        omega
  | succ k ih =>
      have hpow : 2 ^ (7 * (k + 1 + 1)) = 2 ^ (7 * (k + 1)) * 128 := by
        rw [Nat.mul_succ, Nat.pow_add]
      rw [hpow, ← Nat.div_lt_iff_lt_mul (by decide), encode]
      split
      · have hpos := Nat.two_pow_pos (7 * (k + 1))
        simp only [List.length_singleton]
        omega
      · rw [List.length_cons, Nat.succ_le_succ_iff]
        exact ih (n / 128)

/-- The number of bytes is the number of bits divided by seven, rounded up, and one for
zero. -/
theorem length_encode (n : Nat) : (encode n).length = max 1 ((n.size + 6) / 7) := by
  have hpos := List.length_pos_iff.mpr (encode_ne_nil n)
  have hfits : ∀ k, (encode n).length ≤ k + 1 ↔ n.size ≤ 7 * (k + 1) := fun k =>
    (length_encode_le n k).trans Nat.size_le.symm
  have hself := (hfits ((encode n).length - 1)).mp (by omega)
  have hless := hfits ((encode n).length - 2)
  omega

/-- Only zero ends with a zero byte. -/
theorem eq_zero_of_getLast? {n : Nat} (h : (encode n).getLast? = some 0) : n = 0 := by
  induction n using encode.induct with
  | case1 n hlt =>
      rw [encode, if_pos hlt, List.getLast?_singleton, Option.some.injEq] at h
      have hzero := congrArg UInt8.toNat h
      rw [UInt8.toNat_ofNat', UInt8.toNat_zero] at hzero
      omega
  | case2 n hge ih =>
      rw [encode, if_neg hge, List.getLast?_cons_of_ne_nil (encode_ne_nil _)] at h
      have hdiv := ih h
      omega

/-! ## Bytes that end themselves -/

section Terminated

variable {bs cs r : List UInt8}

theorem Terminated.length_pos (h : Terminated bs) : 1 ≤ bs.length := by
  cases h <;> simp

/-- What ends itself is found at the front, whatever follows it. -/
theorem Terminated.front_append (h : Terminated bs) (r : List UInt8) :
    front (bs ++ r) = some bs := by
  induction h with
  | last h => simp [front, h]
  | more h _ ih => simp [front, ih, Nat.not_lt.mpr h]

theorem front_eq_some_iff {l : List UInt8} :
    front l = some bs ↔ Terminated bs ∧ bs <+: l := by
  constructor
  · intro h
    induction l generalizing bs with
    | nil => cases h
    | cons x xs ih =>
        rw [front] at h
        split at h
        · cases h
          exact ⟨.last ‹_›, List.prefix_append [x] xs⟩
        · rename_i hge
          obtain ⟨cs, hcs, rfl⟩ := Option.map_eq_some_iff.mp h
          obtain ⟨hterm, hpre⟩ := ih hcs
          exact ⟨.more (Nat.le_of_not_lt hge) hterm, List.cons_prefix_cons.mpr ⟨rfl, hpre⟩⟩
  · rintro ⟨hterm, r, rfl⟩
    exact hterm.front_append r

end Terminated

end Base128
end Hpgs
