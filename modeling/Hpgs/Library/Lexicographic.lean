import Hpgs.Library.OrderedSet
import Mathlib.Data.List.Lex
import Mathlib.Order.Lattice

/-!
# Comparison by the common front and the length

Two lists can be compared by as many elements as both have, and by their lengths if these
elements agree.  This is the lexicographic order.

**Results.**
* `compareFront_take`: only the front that is compared matters.
* `compareFront_eq_iff`: fronts that compare as equal are equal.
* `shorter_iff_lt`: the comparison is the lexicographic order.
* `keyOrder_shorter`: it orders whatever has a list as its key.
-/

namespace Hpgs
namespace Lexicographic

open OrderedSet

universe u v

/-- A comparator that is a strict total order for an equality. -/
structure KeyOrder {α : Type v} (lt eq : α → α → Bool) : Prop extends Strict lt where
  one : ∀ a b,
    (lt a b = true ∧ lt b a = false ∧ eq a b = false) ∨
    (lt a b = false ∧ lt b a = true ∧ eq a b = false) ∨
    (lt a b = false ∧ lt b a = false ∧ eq a b = true)

variable {κ : Type u} [LinearOrder κ] {l l' : List κ} {n : Nat}

/-- The first `n` elements, as far as both lists go. -/
def compareFront : Nat → List κ → List κ → Ordering
  | n + 1, x :: l, y :: l' =>
      if x < y then .lt
      else if y < x then .gt
      else compareFront n l l'
  | _, _, _ => .eq

/-- The common front first, and then the lengths. -/
def shorter (l l' : List κ) : Bool :=
  match compareFront (min l.length l'.length) l l' with
  | .lt => true
  | .gt => false
  | .eq => decide (l.length < l'.length)

theorem compareFront_take {m m' : Nat} (hm : n ≤ m) (hm' : n ≤ m') :
    compareFront n (l.take m) (l'.take m') = compareFront n l l' := by
  induction n generalizing l l' m m' with
  | zero => rw [compareFront.eq_def, compareFront.eq_def]
  | succ n ih =>
      obtain ⟨k, rfl⟩ := Nat.exists_eq_add_of_le' hm
      obtain ⟨k', rfl⟩ := Nat.exists_eq_add_of_le' hm'
      cases l with
      | nil => simp [compareFront]
      | cons x l =>
          cases l' with
          | nil => simp [compareFront]
          | cons y l' =>
              have hrest : compareFront n (l.take (k + n)) (l'.take (k' + n)) =
                  compareFront n l l' := ih (Nat.le_add_left n k) (Nat.le_add_left n k')
              simp only [← Nat.add_assoc, List.take_succ_cons, compareFront, hrest]

/-- The fronts compare as equal only if they are. -/
theorem compareFront_eq_iff (h : n ≤ l.length) (h' : n ≤ l'.length) :
    compareFront n l l' = .eq ↔ l.take n = l'.take n := by
  induction n generalizing l l' with
  | zero => simp [compareFront]
  | succ n ih =>
      cases l with
      | nil => cases h
      | cons x l =>
          cases l' with
          | nil => cases h'
          | cons y l' =>
              have hrest := ih (Nat.le_of_succ_le_succ h) (Nat.le_of_succ_le_succ h')
              rw [compareFront, List.take_succ_cons, List.take_succ_cons, List.cons.injEq]
              rcases lt_trichotomy x y with hlt | rfl | hgt
              · rw [if_pos hlt]
                simp [ne_of_lt hlt]
              · rw [if_neg (lt_irrefl x), if_neg (lt_irrefl x), hrest]
                simp
              · rw [if_neg (lt_asymm hgt), if_pos hgt]
                simp [ne_of_gt hgt]

/-- **The order is lexicographic.** -/
theorem shorter_iff_lt : shorter l l' = true ↔ l < l' := by
  induction l generalizing l' with
  | nil =>
      cases l' with
      | nil => simp [shorter, compareFront]
      | cons y l' => simp [shorter, compareFront]
  | cons x l ih =>
      cases l' with
      | nil => simp [shorter, compareFront]
      | cons y l' =>
          have hmin : min (x :: l).length (y :: l').length = min l.length l'.length + 1 := by
            simp only [List.length_cons]
            omega
          rw [List.cons_lt_cons_iff, ← ih, shorter, hmin, compareFront]
          rcases lt_trichotomy x y with hlt | rfl | hgt
          · simp [hlt]
          · simp [shorter]
          · simp [hgt, lt_asymm hgt, ne_of_gt hgt]

/-- What has a list as its key is ordered by it. -/
theorem keyOrder_shorter {α : Type v} {lt eq : α → α → Bool} (key : α → List κ)
    (hlt : ∀ a b, lt a b = shorter (key a) (key b))
    (heq : ∀ a b, eq a b = true ↔ key a = key b) : KeyOrder lt eq where
  irrefl a := by
    rw [hlt, ← Bool.not_eq_true, shorter_iff_lt]
    exact lt_irrefl _
  trans a b c hab hbc := by
    rw [hlt, shorter_iff_lt] at hab hbc ⊢
    exact lt_trans hab hbc
  one a b := by
    simp only [← Bool.not_eq_true, hlt, shorter_iff_lt, heq]
    rcases lt_trichotomy (key a) (key b) with h | h | h
    · exact Or.inl ⟨h, lt_asymm h, ne_of_lt h⟩
    · rw [h]
      exact Or.inr (Or.inr ⟨lt_irrefl _, lt_irrefl _, rfl⟩)
    · exact Or.inr (Or.inl ⟨lt_asymm h, h, ne_of_gt h⟩)

end Lexicographic
end Hpgs
