import Mathlib.Data.List.Basic

/-!
# Escaping a string for JSON

`Escape` counts the characters of the result in a first pass and builds it in a second one.
Before the second pass it calls `resize` with the count, where `reserve` would not have put
anything into the string: the result is built behind as many null characters.

**Results.**
* `unescape_escaped`, `length_escaped`, `clean_escaped`: what the second pass appends.
* `escape_same_iff`: `Escape` returns the string itself iff `NeedEscape` is false.
* `escape_reversible`: escaping is reversible exactly if there is nothing to escape.
* `escape_newline`: one line break.
-/

namespace Hpgs
namespace Util
namespace JsonUtil

/-! ## Definitions -/

/-- The characters of the `switch` statements. -/
def escapes : List Char :=
  ['\x0c', '\t', '\r', '\n', '\x08', '"', '\\']

/-- `NeedEscape`. -/
def needEscape (v : List Char) : Bool :=
  v.any fun c => decide (c ∈ escapes)

/-- What the first pass adds for a character. -/
def width (c : Char) : Nat :=
  if c ∈ escapes then 2 else 1

/-- The size that the first pass computes. -/
def escapedSize (v : List Char) : Nat :=
  v.foldl (fun size c => size + width c) 0

/-- What the second pass appends for a character. -/
def escapedChar : Char → List Char
  | '\x0c' => ['\\', 'f']
  | '\t' => ['\\', 't']
  | '\n' => ['\\', 'n']
  | '\r' => ['\\', 'r']
  | '\x08' => ['\\', 'b']
  | '"' => ['\\', '"']
  | '\\' => ['\\', '\\']
  | c => [c]

/-- `Escape`. -/
def escape (v : List Char) : List Char :=
  if escapedSize v = v.length then v
  else
    v.foldl (fun rt c => rt ++ escapedChar c) (List.replicate (escapedSize v) (Char.ofNat 0))

/-- The character that the letter behind a backslash stands for. -/
def unescapedChar : Char → Option Char
  | 'f' => some '\x0c'
  | 't' => some '\t'
  | 'r' => some '\r'
  | 'n' => some '\n'
  | 'b' => some '\x08'
  | '"' => some '"'
  | '\\' => some '\\'
  | _ => none

/-- The escapes undone; whatever is none stays. -/
def unescape : List Char → List Char
  | [] => []
  | [c] => [c]
  | c :: e :: rest =>
      if c = '\\' then
        match unescapedChar e with
        | some x => x :: unescape rest
        | none => c :: unescape (e :: rest)
      else c :: unescape (e :: rest)

/-- Every character to be escaped belongs to an escape. -/
inductive Clean : List Char → Prop
  | nil : Clean []
  | plain {c : Char} {rest : List Char} : c ∉ escapes → Clean rest → Clean (c :: rest)
  | escaped {e : Char} {rest : List Char} :
      (unescapedChar e).isSome → Clean rest → Clean ('\\' :: e :: rest)

/-- What escaping should do with `v`. -/
structure Reversible (v : List Char) : Prop where
  undone : unescape (escape v) = v
  size : (escape v).length = escapedSize v
  clean : Clean (escape v)
  same : escape v = v ↔ needEscape v = false

/-! ## One character -/

theorem escapedChar_cases (c : Char) :
    (c ∉ escapes ∧ width c = 1 ∧ escapedChar c = [c]) ∨
      (c ∈ escapes ∧ width c = 2 ∧
        ∃ e, escapedChar c = ['\\', e] ∧ unescapedChar e = some c) := by
  by_cases hc : c ∈ escapes
  · right
    refine ⟨hc, if_pos hc, ?_⟩
    simp only [escapes, List.mem_cons, List.not_mem_nil, or_false] at hc
    rcases hc with rfl | rfl | rfl | rfl | rfl | rfl | rfl
    all_goals exact ⟨_, rfl, rfl⟩
  · left
    refine ⟨hc, if_neg hc, ?_⟩
    simp only [escapes, List.mem_cons, List.not_mem_nil, or_false, not_or] at hc
    unfold escapedChar
    split <;> simp_all

theorem unescape_plain {c : Char} (hc : c ≠ '\\') (rest : List Char) :
    unescape (c :: rest) = c :: unescape rest := by
  cases rest with
  | nil => rfl
  | cons e rest => rw [unescape, if_neg hc]

theorem unescape_pair {e c : Char} (he : unescapedChar e = some c) (rest : List Char) :
    unescape ('\\' :: e :: rest) = c :: unescape rest := by
  rw [unescape, if_pos rfl, he]

theorem backslash_mem : '\\' ∈ escapes := by decide

/-! ## The two passes -/

theorem escapedSize_append (v : List Char) (n : Nat) :
    v.foldl (fun size c => size + width c) n = n + escapedSize v := by
  induction v generalizing n with
  | nil => rfl
  | cons c v ih => rw [escapedSize, List.foldl_cons, List.foldl_cons, ih, ih (0 + width c)]; omega

theorem escapedSize_cons (c : Char) (v : List Char) :
    escapedSize (c :: v) = width c + escapedSize v := by
  rw [escapedSize, List.foldl_cons, escapedSize_append, Nat.zero_add]

theorem length_escaped (v : List Char) : (v.flatMap escapedChar).length = escapedSize v := by
  induction v with
  | nil => rfl
  | cons c v ih =>
      rw [List.flatMap_cons, List.length_append, ih, escapedSize_cons]
      rcases escapedChar_cases c with ⟨_, hwidth, hchar⟩ | ⟨_, hwidth, e, hchar, _⟩
      · rw [hwidth, hchar, List.length_singleton]
      · rw [hwidth, hchar, List.length_cons, List.length_singleton]

theorem unescape_escaped (v : List Char) : unescape (v.flatMap escapedChar) = v := by
  induction v with
  | nil => rfl
  | cons c v ih =>
      rw [List.flatMap_cons]
      rcases escapedChar_cases c with ⟨hc, _, hchar⟩ | ⟨_, _, e, hchar, he⟩
      · have hne : c ≠ '\\' := fun heq => hc (heq ▸ backslash_mem)
        rw [hchar, List.singleton_append, unescape_plain hne, ih]
      · rw [hchar, List.cons_append, List.singleton_append, unescape_pair he, ih]

theorem escaped_of_plain {v : List Char} (h : ∀ c ∈ v, c ∉ escapes) :
    v.flatMap escapedChar = v := by
  induction v with
  | nil => rfl
  | cons c v ih =>
      rw [List.forall_mem_cons] at h
      rw [List.flatMap_cons, ih h.2]
      rcases escapedChar_cases c with ⟨_, _, hchar⟩ | ⟨hc, _⟩
      · rw [hchar, List.singleton_append]
      · exact absurd hc h.1

theorem clean_escaped (v : List Char) : Clean (v.flatMap escapedChar) := by
  induction v with
  | nil => exact .nil
  | cons c v ih =>
      rw [List.flatMap_cons]
      rcases escapedChar_cases c with ⟨hc, _, hchar⟩ | ⟨_, _, e, hchar, he⟩
      · rw [hchar]
        exact .plain hc ih
      · rw [hchar]
        exact .escaped (by rw [he]; rfl) ih

theorem needEscape_false_iff (v : List Char) :
    needEscape v = false ↔ ∀ c ∈ v, c ∉ escapes := by
  simp [needEscape]

/-- The first pass tells the strings with nothing to escape. -/
theorem escapedSize_eq_length_iff (v : List Char) :
    v.length ≤ escapedSize v ∧ (escapedSize v = v.length ↔ ∀ c ∈ v, c ∉ escapes) := by
  induction v with
  | nil => exact ⟨Nat.le_refl 0, fun _ c hc => absurd hc List.not_mem_nil, fun _ => rfl⟩
  | cons c v ih =>
      rw [escapedSize_cons, List.length_cons, List.forall_mem_cons, ← ih.2]
      have hle := ih.1
      rcases escapedChar_cases c with ⟨hc, hwidth, _⟩ | ⟨hc, hwidth, _⟩
      · rw [hwidth]
        exact ⟨by omega, fun _ => ⟨hc, by omega⟩, fun h => by have := h.2; omega⟩
      · rw [hwidth]
        exact ⟨by omega, fun h => by omega, fun h => absurd hc h.1⟩

/-- The second pass appends to what `resize` left. -/
theorem foldl_escapedChar (v rt : List Char) :
    v.foldl (fun rt c => rt ++ escapedChar c) rt = rt ++ v.flatMap escapedChar := by
  induction v generalizing rt with
  | nil => rw [List.flatMap_nil, List.append_nil, List.foldl_nil]
  | cons c v ih => rw [List.foldl_cons, ih, List.append_assoc, List.flatMap_cons]

/-! ## The result -/

theorem escape_of_plain {v : List Char} (h : ∀ c ∈ v, c ∉ escapes) : escape v = v :=
  if_pos ((escapedSize_eq_length_iff v).2.mpr h)

/-- As many null characters as the result should have, and the result. -/
theorem escape_of_special {v : List Char} (h : ¬ ∀ c ∈ v, c ∉ escapes) :
    escape v = List.replicate (escapedSize v) (Char.ofNat 0) ++ v.flatMap escapedChar := by
  rw [escape, if_neg fun heq => h ((escapedSize_eq_length_iff v).2.mp heq), foldl_escapedChar]

theorem length_escape_of_special {v : List Char} (h : ¬ ∀ c ∈ v, c ∉ escapes) :
    (escape v).length = 2 * escapedSize v ∧ v.length < escapedSize v := by
  obtain ⟨hle, hiff⟩ := escapedSize_eq_length_iff v
  have hne : escapedSize v ≠ v.length := fun heq => h (hiff.mp heq)
  rw [escape_of_special h, List.length_append, List.length_replicate, length_escaped]
  omega

/-- No character to be escaped stands alone in the result. -/
theorem clean_escape (v : List Char) : Clean (escape v) := by
  by_cases h : ∀ c ∈ v, c ∉ escapes
  · have hclean := clean_escaped v
    rwa [escaped_of_plain h, ← escape_of_plain h] at hclean
  · rw [escape_of_special h]
    induction escapedSize v with
    | zero => exact clean_escaped v
    | succ n ih => exact .plain (by decide) ih

/-- The string itself is returned iff `NeedEscape` is false. -/
theorem escape_same_iff (v : List Char) : escape v = v ↔ needEscape v = false := by
  rw [needEscape_false_iff]
  constructor
  · intro heq
    by_contra h
    obtain ⟨hlen, hlt⟩ := length_escape_of_special h
    rw [heq] at hlen
    omega
  · exact escape_of_plain

/-- **Escaping is reversible** exactly for the strings without one of the seven
characters. -/
theorem escape_reversible (v : List Char) : Reversible v ↔ ∀ c ∈ v, c ∉ escapes := by
  constructor
  · intro hrev
    by_contra h
    obtain ⟨hlen, hlt⟩ := length_escape_of_special h
    have hsize := hrev.size
    omega
  · intro h
    have hsame := escape_of_plain h
    refine ⟨?_, ?_, clean_escape v, escape_same_iff v⟩
    · have hundone := unescape_escaped v
      rw [escaped_of_plain h] at hundone
      rwa [hsame]
    · rw [hsame]
      exact ((escapedSize_eq_length_iff v).2.mpr h).symm

/-- A line break becomes two null characters and the escape. -/
theorem escape_newline :
    escape ['\n'] = [Char.ofNat 0, Char.ofNat 0, '\\', 'n'] ∧ ¬ Reversible ['\n'] := by
  refine ⟨by decide, fun h => ?_⟩
  exact absurd h.size (by decide)

end JsonUtil
end Util
end Hpgs
