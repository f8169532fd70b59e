import Mathlib.Data.List.Basic

/-!
# Copying a list when it first changes

A loop over a list makes a new list, but begins to write it only where it differs from the
old one for the first time.  Until then it has no copy, and what stands for the new list is
the part of the old one that was passed.

**Results.**
* `text_keep`, `text_put`: what is written when an element is kept or replaced.
* `text_end`: what the loop returns.
-/

namespace Hpgs
namespace LazyCopy

universe u

variable {α : Type u}

/-- The new list, when `c` elements of `str` were passed. -/
def text (str : List α) (c : Nat) (copy : Option (List α)) : List α :=
  copy.getD (str.take c)

/-- An element is kept: it is appended to a copy, where there is one. -/
def keep (x : α) (copy : Option (List α)) : Option (List α) :=
  copy.map (· ++ [x])

/-- An element is replaced: a copy is made, where there is none. -/
def put (str : List α) (c : Nat) (xs : List α) (copy : Option (List α)) : Option (List α) :=
  some (text str c copy ++ xs)

variable {str rest : List α} {c : Nat}

theorem text_start (str : List α) : text str 0 none = [] :=
  rfl

theorem text_keep {x : α} (h : str.drop c = x :: rest) (copy : Option (List α)) :
    text str (c + 1) (keep x copy) = text str c copy ++ [x] := by
  cases copy with
  | none =>
      have hlt : c < str.length := by
        have hlen := congrArg List.length h
        rw [List.length_drop, List.length_cons] at hlen
        omega
      rw [List.drop_eq_getElem_cons hlt] at h
      simp only [text, keep, Option.map_none, Option.getD_none]
      rw [List.take_succ_eq_append_getElem hlt, (List.cons.inj h).1]
  | some xs => rfl

theorem text_put (n : Nat) (xs : List α) (copy : Option (List α)) :
    text str (c + n) (put str c xs copy) = text str c copy ++ xs :=
  rfl

theorem text_end (h : str.drop c = []) (copy : Option (List α)) :
    copy.getD str = text str c copy := by
  rw [text, List.take_of_length_le (List.drop_eq_nil_iff.mp h)]

theorem drop_add (xs : List α) (h : str.drop c = xs ++ rest) :
    str.drop (c + xs.length) = rest := by
  rw [← List.drop_drop, h, List.drop_left]

end LazyCopy
end Hpgs
