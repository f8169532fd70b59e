import Hpgs.Library.OrderedSet
import Mathlib.Algebra.Group.Nat.Defs
import Mathlib.Data.List.Count
import Mathlib.Order.Lattice

/-!
# Where a value stands in a sorted list

The elements of a sorted list that are smaller than a value stand before those that are not,
and their number is the position where the value belongs.

A bisection that always goes on in the upper half has `n / 2 ^ k` of `n` elements before it
after `k` passes.

**Results.**
* `getElem_iff_lt_countP`: a condition that holds at the front only, by the position.
* `lt_below_iff`, `upTo_le_iff`: the comparisons with a value.
* `not_equivalent_iff`: the value is missing iff the two positions are the same.
* `div_two_pow_anti`, `upper_half`: passes into the upper half.
-/

namespace Hpgs
namespace Bisection

open OrderedSet

universe u

variable {κ : Type u}

/-- A strict order whose incomparable elements are equivalent. -/
structure StrictWeak (lt : κ → κ → Bool) : Prop extends Strict lt where
  split : ∀ a b c, lt a c = true → lt a b = true ∨ lt b c = true

/-- Neither is smaller. -/
def Equivalent (lt : κ → κ → Bool) (a b : κ) : Prop :=
  lt a b = false ∧ lt b a = false

/-- No element is smaller than one before it. -/
def NonDecreasing (lt : κ → κ → Bool) (l : List κ) : Prop :=
  l.Pairwise fun a b => lt b a = false

/-- The number of elements smaller than `v`. -/
def below (lt : κ → κ → Bool) (v : κ) (l : List κ) : Nat :=
  l.countP fun x => lt x v

/-- The number of elements that are not greater than `v`. -/
def upTo (lt : κ → κ → Bool) (v : κ) (l : List κ) : Nat :=
  l.countP fun x => !lt v x

theorem getElem_iff_lt_countP {p : κ → Bool} {l : List κ}
    (hp : l.Pairwise fun a b => p b = true → p a = true)
    {m : Nat} (hm : m < l.length) :
    p l[m] = true ↔ m < l.countP p := by
  induction l generalizing m with
  | nil => exact absurd hm (Nat.not_lt_zero _)
  | cons x l ih =>
      obtain ⟨hx, hl⟩ := List.pairwise_cons.mp hp
      cases hpx : p x with
      | true =>
          rw [List.countP_cons_of_pos hpx]
          cases m with
          | zero => simp [hpx]
          | succ m =>
              rw [List.getElem_cons_succ, ih hl (Nat.lt_of_succ_lt_succ hm)]
              omega
      | false =>
          -- nothing behind `x` meets `p` either
          have hnone : ∀ y ∈ x :: l, ¬ p y = true := by
            intro y hy hpy
            rcases List.mem_cons.mp hy with rfl | hy
            · rw [hpx] at hpy
              cases hpy
            · rw [hx y hy hpy] at hpx
              cases hpx
          rw [List.countP_eq_zero.mpr hnone]
          constructor
          · exact fun hpm => absurd hpm (hnone _ (List.getElem_mem hm))
          · exact fun hlt => absurd hlt (Nat.not_lt_zero _)

/-- The order of a linearly ordered type. -/
theorem strictWeak_lt [LinearOrder κ] : StrictWeak fun a b : κ => decide (a < b) where
  irrefl a := by simp
  trans a b c hab hbc := by
    rw [decide_eq_true_eq] at hab hbc ⊢
    exact hab.trans hbc
  split a b c hac := by
    simp only [decide_eq_true_eq] at hac ⊢
    exact (lt_or_ge a b).imp_right fun hba => hba.trans_lt hac

section Positions

variable {lt : κ → κ → Bool} {l : List κ}

theorem lt_below_iff (h : StrictWeak lt) (hl : NonDecreasing lt l) (v : κ)
    {m : Nat} (hm : m < l.length) :
    lt l[m] v = true ↔ m < below lt v l := by
  refine getElem_iff_lt_countP (p := fun x => lt x v) (hl.imp ?_) hm
  intro a b hba hb
  exact (h.split b a v hb).resolve_left (by simp [hba])

theorem upTo_le_iff (h : StrictWeak lt) (hl : NonDecreasing lt l) (v : κ)
    {m : Nat} (hm : m < l.length) :
    lt v l[m] = true ↔ upTo lt v l ≤ m := by
  have hcount : (!lt v l[m]) = true ↔ m < upTo lt v l := by
    refine getElem_iff_lt_countP (p := fun x => !lt v x) (hl.imp ?_) hm
    intro a b hba hb
    cases hva : lt v a with
    | false => rfl
    | true =>
        rcases h.split v b a hva with hvb | hab
        · simp [hvb] at hb
        · rw [hba] at hab
          cases hab
  rw [Bool.not_eq_true', ← Bool.not_eq_true] at hcount
  rw [← not_lt, ← hcount, not_not]

theorem below_le_upTo (h : StrictWeak lt) (v : κ) (l : List κ) :
    below lt v l ≤ upTo lt v l := by
  refine List.countP_mono_left fun x _ hx => ?_
  rw [h.toStrict.asymm hx]
  rfl

theorem upTo_le_length (lt : κ → κ → Bool) (v : κ) (l : List κ) :
    upTo lt v l ≤ l.length :=
  List.countP_le_length

/-- **A value is missing** iff no place lies between the two positions. -/
theorem not_equivalent_iff (h : StrictWeak lt) (hl : NonDecreasing lt l) (v : κ) :
    (¬ ∃ x ∈ l, Equivalent lt x v) ↔ below lt v l = upTo lt v l := by
  have hle := below_le_upTo h v l
  have hlen := upTo_le_length lt v l
  constructor
  · intro hnone
    by_contra hne
    have hm : below lt v l < l.length := by omega
    refine hnone ⟨l[below lt v l], List.getElem_mem hm, ?_, ?_⟩
    · rw [← Bool.not_eq_true, lt_below_iff h hl v hm]
      omega
    · rw [← Bool.not_eq_true, upTo_le_iff h hl v hm]
      omega
  · rintro heq ⟨x, hx, hxv, hvx⟩
    obtain ⟨m, hm, rfl⟩ := List.getElem_of_mem hx
    rw [← Bool.not_eq_true, lt_below_iff h hl v hm] at hxv
    rw [← Bool.not_eq_true, upTo_le_iff h hl v hm] at hvx
    omega

end Positions

theorem div_two_pow_anti (n : Nat) {j k : Nat} (h : k ≤ j) : n / 2 ^ j ≤ n / 2 ^ k :=
  Nat.div_le_div_left (Nat.pow_le_pow_right (by decide) h) (Nat.two_pow_pos k)

/-- **A pass into the upper half.** -/
theorem upper_half (n k : Nat) (h : 0 < n / 2 ^ k) :
    (n - n / 2 ^ k + (n - 1)) / 2 + 1 = n - n / 2 ^ (k + 1) := by
  have hle : n / 2 ^ k ≤ n := Nat.div_le_self n _
  rw [Nat.pow_succ, ← Nat.div_div_eq_div_mul]
  omega

end Bisection
end Hpgs
