import Mathlib.Algebra.BigOperators.Group.Finset.Basic
import Mathlib.Algebra.Order.BigOperators.Group.Finset

/-!
# Sums over a family in which one member changes

A counter that is kept next to a family of objects is right if it is the sum of a
measure of the objects; the measure can as well be what the objects hold, as a multiset.
When one object changes, the sum changes by what its measure does; the equations are
additive, so that no truncated subtraction appears.
-/

namespace Hpgs
namespace Counting

universe u v w

variable {ι : Type u} {β : Type v} [DecidableEq ι]

/-- Changing the member at `i` exchanges its measure. -/
theorem sum_update {M : Type w} [AddCommMonoid M] (s : Finset ι) (g : β → M) (f : ι → β) {i : ι}
    (hi : i ∈ s) (b : β) :
    ∑ j ∈ s, g (Function.update f i b j) + g (f i) = ∑ j ∈ s, g (f j) + g b := by
  have hrest : ∀ j ∈ s.erase i, g (Function.update f i b j) = g (f j) := by
    intro j hj
    rw [Function.update_of_ne (Finset.ne_of_mem_erase hj)]
  have hnew := Finset.add_sum_erase s (fun j => g (Function.update f i b j)) hi
  have hold := Finset.add_sum_erase s (fun j => g (f j)) hi
  rw [Finset.sum_congr rfl hrest, Function.update_self] at hnew
  rw [← hnew, ← hold]
  ac_rfl

omit [DecidableEq ι] in
/-- The measure of one member is at most the sum. -/
theorem le_sum (s : Finset ι) (g : β → Nat) (f : ι → β) {i : ι} (hi : i ∈ s) :
    g (f i) ≤ ∑ j ∈ s, g (f j) :=
  Finset.single_le_sum (f := fun j => g (f j)) (fun _ _ => Nat.zero_le _) hi

end Counting
end Hpgs
