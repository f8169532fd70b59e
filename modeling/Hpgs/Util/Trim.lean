import Hpgs.Library.Trimming

/-!
# Trimming a string

`Trim`, `TrimLeft` and `TrimRight` cut the characters of a set off the ends of a string.
`TrimRight` looks for the first character that is not in the set where it should look for
the last one, and so keeps what it should look behind.

**Results.**
* `trimLeft_eq`, `trimRight_eq`, `trim_eq`: what each function leaves.
* `trimming_laws`: the laws of trimming hold exactly for strings of delimiters only.
* `trimRight_loses`: a word with a blank behind it.
-/

namespace Hpgs
namespace Util
namespace StringUtil

open Trimming

/-! ## Definitions -/

/-- The character is one of `delimit`. -/
def isDelimiter (delimit : List Char) (c : Char) : Bool :=
  decide (c ∈ delimit)

/-- `find_first_not_of`, where `none` is `npos`. -/
def findFirstNotOf (str delimit : List Char) : Option Nat :=
  str.findIdx? fun c => !isDelimiter delimit c

/-- `find_last_not_of`. -/
def findLastNotOf (str delimit : List Char) : Option Nat :=
  findLast? (isDelimiter delimit) str

/-- `substr(pos, count)` with `pos <= size()`. -/
def substr (str : List Char) (pos count : Nat) : List Char :=
  (str.drop pos).take count

/-- `Trim`.  Where the first search finds a character, the second one does. -/
def trim (str delimit : List Char) : List Char :=
  match findFirstNotOf str delimit with
  | none => []
  | some first =>
      match findLastNotOf str delimit with
      | none => []
      | some last => substr str first (last - first + 1)

/-- `TrimLeft`. -/
def trimLeft (str delimit : List Char) : List Char :=
  match findFirstNotOf str delimit with
  | none => []
  | some first => str.drop first

/-- `TrimRight`; it calls `find_first_not_of`. -/
def trimRight (str delimit : List Char) : List Char :=
  match findFirstNotOf str delimit with
  | none => []
  | some first => substr str 0 first

/-- What trimming should do with `str`. -/
structure Trims (delimit str : List Char) : Prop where
  left : Longest (StartsOutside (isDelimiter delimit) str) (trimLeft str delimit)
  right : Longest (EndsOutside (isDelimiter delimit) str) (trimRight str delimit)
  leftRight : trim str delimit = trimLeft (trimRight str delimit) delimit
  rightLeft : trim str delimit = trimRight (trimLeft str delimit) delimit
  trimTwice : trim (trim str delimit) delimit = trim str delimit
  leftTwice : trimLeft (trimLeft str delimit) delimit = trimLeft str delimit
  rightTwice : trimRight (trimRight str delimit) delimit = trimRight str delimit

/-! ## What is left -/

variable (str delimit : List Char)

theorem trimLeft_eq :
    trimLeft str delimit = str.dropWhile (isDelimiter delimit) := by
  unfold trimLeft findFirstNotOf
  split
  · rename_i hnone
    exact (List.dropWhile_eq_nil_iff.mpr (findIdx_none hnone)).symm
  · rename_i first hfirst
    exact (findIdx_some hfirst).2

/-- `TrimRight` leaves the delimiters at the front. -/
theorem trimRight_eq :
    trimRight str delimit =
      if str.all (isDelimiter delimit) = true then []
      else str.takeWhile (isDelimiter delimit) := by
  unfold trimRight findFirstNotOf
  split
  · rename_i hnone
    rw [if_pos (List.all_eq_true.mpr (findIdx_none hnone))]
  · rename_i first hfirst
    have hsome : ¬ str.all (isDelimiter delimit) = true := by
      intro hall
      have hnone : (str.findIdx? fun c => !isDelimiter delimit c) = none := by
        simpa using hall
      rw [hnone] at hfirst
      cases hfirst
    rw [if_neg hsome, substr, List.drop_zero]
    exact (findIdx_some hfirst).1

theorem trim_eq :
    trim str delimit =
      (str.dropWhile (isDelimiter delimit)).rdropWhile (isDelimiter delimit) := by
  unfold trim findFirstNotOf findLastNotOf
  split
  · rename_i hnone
    rw [List.dropWhile_eq_nil_iff.mpr (findIdx_none hnone), List.rdropWhile_nil]
  · rename_i first hfirst
    obtain ⟨last, hlast⟩ := findLast_isSome hfirst
    rw [hlast]
    exact take_drop_between hfirst hlast

/-- Of delimiters nothing is left. -/
theorem trim_delimiters (h : ∀ c ∈ str, isDelimiter delimit c = true) :
    trimLeft str delimit = [] ∧ trimRight str delimit = [] ∧ trim str delimit = [] := by
  have hnil := List.dropWhile_eq_nil_iff.mpr h
  refine ⟨(trimLeft_eq str delimit).trans hnil, ?_, ?_⟩
  · rw [trimRight_eq, if_pos (List.all_eq_true.mpr h)]
  · rw [trim_eq, hnil, List.rdropWhile_nil]

/-- `TrimLeft` keeps its law. -/
theorem trimLeft_longest :
    Longest (StartsOutside (isDelimiter delimit) str) (trimLeft str delimit) := by
  rw [trimLeft_eq]
  exact longest_dropWhile _ str

/-- The characters up to the first one that is no delimiter end with none. -/
theorem longer_prefix {c : Char} (hc : c ∈ str) (hout : isDelimiter delimit c = false) :
    ∃ u, EndsOutside (isDelimiter delimit) str u ∧
      (str.takeWhile (isDelimiter delimit)).length < u.length := by
  obtain ⟨x, rest, hrest⟩ : ∃ x rest, str.dropWhile (isDelimiter delimit) = x :: rest := by
    cases hdrop : str.dropWhile (isDelimiter delimit) with
    | nil =>
        rw [List.dropWhile_eq_nil_iff.mp hdrop c hc] at hout
        cases hout
    | cons x rest => exact ⟨x, rest, rfl⟩
  have hx : isDelimiter delimit x = false := by
    have hnot := List.head?_dropWhile_not (isDelimiter delimit) str
    rw [hrest] at hnot
    simpa using hnot
  refine ⟨str.takeWhile (isDelimiter delimit) ++ [x], ⟨⟨rest, ?_⟩, ?_⟩, ?_⟩
  · rw [List.append_assoc, List.singleton_append, ← hrest, List.takeWhile_append_dropWhile]
  · intro y hy
    rw [List.getLast?_concat] at hy
    obtain rfl := Option.some.inj hy
    exact hx
  · rw [List.length_append, List.length_singleton]
    omega

/-- **Trimming.**  For every string and every set of delimiters: `TrimLeft` and `TrimRight`
leave the longest suffix and prefix that they should, `Trim` is both of them in any order,
and each is idempotent, exactly if the string has no other characters than delimiters. -/
theorem trimming_laws (str delimit : List Char) :
    Trims delimit str ↔ ∀ c ∈ str, c ∈ delimit := by
  constructor
  · intro h c hc
    by_contra hout
    have hout' : isDelimiter delimit c = false := decide_eq_false hout
    obtain ⟨u, hu, hlt⟩ := longer_prefix str delimit hc hout'
    have hle := h.right.2 u hu
    have hsome : ¬ str.all (isDelimiter delimit) = true := by
      intro hall
      rw [List.all_eq_true.mp hall c hc] at hout'
      cases hout'
    rw [trimRight_eq, if_neg hsome] at hle
    omega
  · intro h
    have hall : ∀ c ∈ str, isDelimiter delimit c = true := fun c hc => decide_eq_true (h c hc)
    obtain ⟨hleft, hright, htrim⟩ := trim_delimiters str delimit hall
    obtain ⟨hleft', hright', htrim'⟩ := trim_delimiters [] delimit (by simp)
    refine ⟨trimLeft_longest str delimit, ?_, ?_, ?_, ?_, ?_, ?_⟩
    · have hlongest := longest_rdropWhile (isDelimiter delimit) str
      rwa [List.rdropWhile_eq_nil_iff.mpr hall, ← hright] at hlongest
    · rw [htrim, hright, hleft']
    · rw [htrim, hleft, hright']
    · rw [htrim, htrim']
    · rw [hleft, hleft']
    · rw [hright, hright']

/-- Of `"a "` nothing is left, where `"a"` should be. -/
theorem trimRight_loses :
    trimRight "a ".toList " \t\r\n".toList = [] ∧ ¬ Trims " \t\r\n".toList "a ".toList := by
  refine ⟨by decide, fun h => ?_⟩
  have hprefix : EndsOutside (isDelimiter " \t\r\n".toList) "a ".toList ['a'] := by
    refine ⟨⟨[' '], rfl⟩, fun c hc => ?_⟩
    obtain rfl := Option.some.inj hc
    decide
  exact absurd (h.right.2 _ hprefix) (by decide)

end StringUtil
end Util
end Hpgs
