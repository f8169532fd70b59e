import Mathlib.Data.List.DropRight
import Mathlib.Data.List.TakeWhile

/-!
# Cutting a list at its ends

`dropWhile` and `rdropWhile` cut off what meets a condition at the front and at the back.
What they leave is the longest suffix, and the longest prefix, that does not meet it there.

**Results.**
* `longest_dropWhile`, `longest_rdropWhile`: what is left is longest.
* `rdropWhile_dropWhile`: the two ends can be cut in any order.
* `findIdx_some`, `findLast_some`: the cuts by the position of the first and the last
  element that does not meet the condition.
-/

namespace Hpgs
namespace Trimming

universe u

variable {α : Type u}

/-- `t` meets `P`, and nothing longer does. -/
def Longest (P : List α → Prop) (t : List α) : Prop :=
  P t ∧ ∀ u, P u → u.length ≤ t.length

/-- The position of the last element that does not meet `p`. -/
def findLast? (p : α → Bool) (s : List α) : Option Nat :=
  (s.reverse.findIdx? fun x => !p x).map fun i => s.length - 1 - i

/-- A suffix of `s` that does not start with an element that meets `p`. -/
def StartsOutside (p : α → Bool) (s t : List α) : Prop :=
  t <:+ s ∧ ∀ x ∈ t.head?, p x = false

/-- A prefix of `s` that does not end with an element that meets `p`. -/
def EndsOutside (p : α → Bool) (s t : List α) : Prop :=
  t <+: s ∧ ∀ x ∈ t.getLast?, p x = false

variable {p : α → Bool} {s t : List α}

theorem startsOutside_reverse :
    StartsOutside p s.reverse t.reverse ↔ EndsOutside p s t := by
  rw [StartsOutside, EndsOutside, List.reverse_suffix, List.head?_reverse]

/-! ## Cutting -/

theorem longest_dropWhile (p : α → Bool) (s : List α) :
    Longest (StartsOutside p s) (s.dropWhile p) := by
  constructor
  · refine ⟨List.dropWhile_suffix p, fun x hx => ?_⟩
    have hnot := List.head?_dropWhile_not p s
    rw [Option.mem_def.mp hx] at hnot
    simpa using hnot
  · rintro u ⟨hsuffix, hhead⟩
    induction s with
    | nil => exact hsuffix.length_le
    | cons x s ih =>
        cases hx : p x with
        | false =>
            rw [List.dropWhile_cons_of_neg (by simp [hx])]
            exact hsuffix.length_le
        | true =>
            rw [List.dropWhile_cons_of_pos hx]
            rcases List.suffix_cons_iff.mp hsuffix with rfl | hsuffix
            · -- the whole list starts with `x`
              rw [hhead x rfl] at hx
              cases hx
            · exact ih hsuffix

theorem longest_rdropWhile (p : α → Bool) (s : List α) :
    Longest (EndsOutside p s) (s.rdropWhile p) := by
  have hlongest := longest_dropWhile p s.reverse
  constructor
  · rw [← startsOutside_reverse, List.rdropWhile, List.reverse_reverse]
    exact hlongest.1
  · intro u hu
    have hle := hlongest.2 u.reverse (startsOutside_reverse.mpr hu)
    rwa [List.length_reverse, ← (s.reverse.dropWhile p).length_reverse] at hle

theorem rdropWhile_cons (p : α → Bool) (x : α) (s : List α) :
    (x :: s).rdropWhile p =
      if s.rdropWhile p = [] then (if p x then [] else [x]) else x :: s.rdropWhile p := by
  induction s using List.reverseRecOn with
  | nil => rw [List.rdropWhile_nil, if_pos rfl, List.rdropWhile_singleton]
  | append_singleton s y ih =>
      have hcons : x :: (s ++ [y]) = (x :: s) ++ [y] := rfl
      rw [hcons, List.rdropWhile_concat, List.rdropWhile_concat]
      split
      · exact ih
      · rw [if_neg (by simp), hcons]

/-- **The two ends can be cut in any order.** -/
theorem rdropWhile_dropWhile (p : α → Bool) (s : List α) :
    (s.dropWhile p).rdropWhile p = (s.rdropWhile p).dropWhile p := by
  induction s with
  | nil => rfl
  | cons x s ih =>
      rw [rdropWhile_cons]
      cases hx : p x with
      | false =>
          have hne : ¬ p x = true := by simp [hx]
          rw [List.dropWhile_cons_of_neg hne, rdropWhile_cons, hx]
          split
          · exact (List.dropWhile_cons_of_neg hne).symm
          · exact (List.dropWhile_cons_of_neg hne).symm
      | true =>
          rw [List.dropWhile_cons_of_pos hx, ih]
          split
          · rename_i hnil
            rw [hnil]
            rfl
          · rw [List.dropWhile_cons_of_pos hx]

/-! ## Cutting by a position -/

theorem findIdx_none (h : (s.findIdx? fun x => !p x) = none) :
    ∀ x ∈ s, p x = true := by
  simpa using h

theorem findIdx_some {i : Nat} (h : (s.findIdx? fun x => !p x) = some i) :
    s.take i = s.takeWhile p ∧ s.drop i = s.dropWhile p := by
  induction s generalizing i with
  | nil => cases h
  | cons x s ih =>
      rw [List.findIdx?_cons] at h
      cases hx : p x with
      | false =>
          rw [hx, Bool.not_false, if_pos rfl] at h
          obtain rfl := Option.some.inj h
          have hne : ¬ p x = true := by simp [hx]
          rw [List.takeWhile_cons_of_neg hne, List.dropWhile_cons_of_neg hne]
          exact ⟨rfl, rfl⟩
      | true =>
          rw [hx, Bool.not_true, if_neg Bool.false_ne_true] at h
          obtain ⟨j, hj, rfl⟩ := Option.map_eq_some_iff.mp h
          obtain ⟨htake, hdrop⟩ := ih hj
          rw [List.takeWhile_cons_of_pos hx, List.dropWhile_cons_of_pos hx, List.take_succ_cons,
            List.drop_succ_cons, htake]
          exact ⟨rfl, hdrop⟩

theorem findLast_isSome {i : Nat} (h : (s.findIdx? fun x => !p x) = some i) :
    ∃ j, findLast? p s = some j := by
  rw [← Option.isSome_iff_exists, findLast?, Option.isSome_map, List.findIdx?_isSome,
    List.any_reverse, ← List.findIdx?_isSome, h]
  rfl

theorem findLast_some {i : Nat} (h : findLast? p s = some i) :
    i < s.length ∧ s.take (i + 1) = s.rdropWhile p := by
  obtain ⟨j, hj, rfl⟩ := Option.map_eq_some_iff.mp h
  have hlt : j < s.length := by
    have hbound := (List.findIdx?_eq_some_iff_getElem.mp hj).choose
    rwa [List.length_reverse] at hbound
  refine ⟨by omega, ?_⟩
  have hsucc : s.length - 1 - j + 1 = s.length - j := by omega
  rw [hsucc, List.rdropWhile, ← (findIdx_some hj).2, List.drop_reverse, List.reverse_reverse]

theorem findIdx_le_findLast {i j : Nat} (hi : (s.findIdx? fun x => !p x) = some i)
    (hj : findLast? p s = some j) : i ≤ j := by
  obtain ⟨hlt, htake⟩ := findLast_some hj
  by_contra hgt
  have hne : s.rdropWhile p ≠ [] := by
    rw [← htake, ← List.length_pos_iff, List.length_take]
    omega
  -- the last element that is left stands before the first one that is not cut off
  have hmem : (s.rdropWhile p).getLast hne ∈ s.takeWhile p := by
    rw [← (findIdx_some hi).1]
    have hprefix : s.rdropWhile p <+: s.take i := by
      rw [← htake]
      exact List.take_prefix_take_left (by omega)
    exact hprefix.subset (List.getLast_mem hne)
  exact List.rdropWhile_last_not p s hne (List.mem_takeWhile_imp hmem)

/-- **What stands between the two positions.** -/
theorem take_drop_between {i j : Nat} (hi : (s.findIdx? fun x => !p x) = some i)
    (hj : findLast? p s = some j) :
    (s.drop i).take (j - i + 1) = (s.dropWhile p).rdropWhile p := by
  have hle := findIdx_le_findLast hi hj
  have hfirst : ((s.take (j + 1)).findIdx? fun x => !p x) = some i := by
    rw [List.findIdx?_take, hi]
    simpa using Nat.lt_succ_of_le hle
  have hdrop := (findIdx_some hfirst).2
  rw [List.drop_take, (findLast_some hj).2] at hdrop
  rw [rdropWhile_dropWhile, ← hdrop]
  congr 1
  omega

end Trimming
end Hpgs
