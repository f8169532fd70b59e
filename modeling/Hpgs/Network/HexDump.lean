import Hpgs.Network.ByteArrayRuns

/-!
# The dump of a `ByteArray`

`toHexString` puts a group of two hexadecimal digits and a blank for each byte that is
not read yet, and a line break before every 32nd group but the first.  The group is that
of the byte `str[1]`, whichever byte it stands for.

**Results.**
* `words_dump`, `rows_dump`: the groups and the lines of a dump.
* `hex_dump_faithful`: the dump shows the bytes, exactly if they are all equal to `str[1]`.
* `hex_dump_repeats`: two bytes that are shown as the second one twice.
-/

namespace Hpgs
namespace Network

open Transition

/-! ## Reading a text -/

/-- The digits of `std::hex`. -/
def hexDigits : List Char := "0123456789abcdef".toList

/-- The number that a group of digits stands for. -/
def groupValue (group : List Char) : Nat :=
  group.foldl (fun n c => 16 * n + hexDigits.idxOf c) 0

/-- A text split at whitespace. -/
def words (text : List Char) : List (List Char) :=
  (text.splitOnP Char.isWhitespace).filter (· ≠ [])

/-- The lines of a text. -/
def lines (text : List Char) : List (List Char) :=
  text.splitOnP (· == '\n')

/-- One group of two digits for each byte, 32 in a line, and the group of each byte has its
value. -/
structure Shows (str : List UInt8) (text : List Char) : Prop where
  digits : ∀ g ∈ words text, g.length = 2 ∧ ∀ c ∈ g, c ∈ hexDigits
  count : (words text).length = str.length
  full : ∀ line ∈ (lines text).dropLast, (words line).length = 32
  last : ∀ line ∈ (lines text).getLast?, (words line).length ≤ 32
  values : (words text).map groupValue = str.map UInt8.toNat

namespace ByteArray

/-- `std::setw(2) << std::setfill('0') << std::hex`. -/
def hex (v : Nat) : List Char :=
  (Nat.toDigits 16 v).leftpad 2 '0'

/-- `str[i]`, which is the null character behind the last one. -/
def charAt (str : List UInt8) (i : Nat) : UInt8 :=
  str.getD i 0

/-- What one pass of the loop puts. -/
def put (i : Nat) (x : UInt8) : List Char :=
  (if i > 0 ∧ i % 32 = 0 then ['\n'] else []) ++ (hex x.toNat ++ [' '])

/-- `toHexString`. -/
def toHexString (b : ByteArray) : Except Fault (List Char) :=
  b.toString.map fun str => (List.range str.length).flatMap fun i => put i (charAt str 1)

/-- The dump shows the bytes that `toString` returns, as many as there are to read. -/
def Dumped (b : ByteArray) : Prop :=
  ∃ str text, b.toString = .ok str ∧ b.toHexString = .ok text ∧ str.length = b.getReadSize ∧
    Shows str text

end ByteArray

open Hpgs.Network.ByteArray

/-! ## One group -/

/-- A byte is shown as its two digits. -/
theorem hex_digits {v : Nat} (h : v < 256) : hex v = [(v / 16).digitChar, (v % 16).digitChar] := by
  by_cases hlt : v < 16
  · rw [hex, Nat.toDigits_of_lt_base hlt, Nat.div_eq_of_lt hlt, Nat.mod_eq_of_lt hlt]
    rfl
  · rw [hex, Nat.toDigits_of_base_le (by decide) (by omega),
      Nat.toDigits_of_lt_base (by omega)]
    rfl

theorem hexDigits_digitChar {d : Nat} (h : d < 16) :
    d.digitChar ∈ hexDigits ∧ hexDigits.idxOf d.digitChar = d := by
  have hall : ∀ d : Fin 16, Nat.digitChar d ∈ hexDigits ∧ hexDigits.idxOf (Nat.digitChar d) = d.val := by
    decide
  exact hall ⟨d, h⟩

theorem hex_byte (x : UInt8) :
    (hex x.toNat).length = 2 ∧ (∀ c ∈ hex x.toNat, c ∈ hexDigits) ∧
      groupValue (hex x.toNat) = x.toNat := by
  have hlt : x.toNat < 256 := x.toNat_lt
  obtain ⟨hhigh, hhighIdx⟩ := hexDigits_digitChar (d := x.toNat / 16) (by omega)
  obtain ⟨hlow, hlowIdx⟩ := hexDigits_digitChar (d := x.toNat % 16) (by omega)
  rw [hex_digits hlt]
  refine ⟨rfl, fun c hc => ?_, ?_⟩
  · rcases List.mem_cons.mp hc with rfl | hc
    · exact hhigh
    · rw [List.mem_singleton.mp hc]
      exact hlow
  · simp only [groupValue, List.foldl_cons, List.foldl_nil, hhighIdx, hlowIdx]
    omega

/-- No digit ends a group or a line. -/
theorem hexDigits_black {c : Char} (h : c ∈ hexDigits) :
    c.isWhitespace = false ∧ (c == '\n') = false := by
  have hall : (hexDigits.all fun c => !c.isWhitespace && !(c == '\n')) = true := by decide
  simpa using List.all_eq_true.mp hall c h

/-! ## Splitting -/

section Splitting

variable {α : Type} {p : α → Bool}

/-- What holds no separator belongs to the first part. -/
theorem splitOnP_append (xs ys : List α) (h : ∀ x ∈ xs, p x = false) :
    (xs ++ ys).splitOnP p = (ys.splitOnP p).modifyHead (xs ++ ·) := by
  induction xs with
  | nil => cases hs : ys.splitOnP p <;> simp [hs]
  | cons x xs ih =>
      rw [List.forall_mem_cons] at h
      rw [List.cons_append, List.splitOnP_cons_eq_if_modifyHead, if_neg (by simp [h.1]), ih h.2,
        List.modifyHead_modifyHead]
      rfl

theorem words_blank {c : Char} (h : c.isWhitespace = true) (text : List Char) :
    words (c :: text) = words text := by
  rw [words, List.splitOnP_cons_eq_if_modifyHead, if_pos h, words]
  simp

theorem words_group {g : List Char} (hne : g ≠ []) (h : ∀ c ∈ g, c.isWhitespace = false)
    (text : List Char) : words (g ++ ' ' :: text) = g :: words text := by
  rw [words, List.splitOnP_append_cons_of_forall_mem h ' ' (by decide), words]
  simp [hne]

end Splitting

/-! ## The dump -/

section Dump

variable {f : Nat → UInt8}

theorem put_eq (i : Nat) (x : UInt8) (text : List Char) :
    put i x ++ text =
      (if i > 0 ∧ i % 32 = 0 then ['\n'] else []) ++ (hex x.toNat ++ ' ' :: text) := by
  simp [put]

/-- The group of each byte is a word. -/
theorem words_dump (f : Nat → UInt8) (k n : Nat) :
    words ((List.range' k n).flatMap fun i => put i (f i)) =
      (List.range' k n).map fun i => hex (f i).toNat := by
  induction n generalizing k with
  | zero => rfl
  | succ n ih =>
      obtain ⟨hlen, hdigits, _⟩ := hex_byte (f k)
      have hne : hex (f k).toNat ≠ [] := fun hnil => by simp [hnil] at hlen
      have hgroup := words_group hne (fun c hc => (hexDigits_black (hdigits c hc)).1)
      rw [List.range'_succ, List.flatMap_cons, List.map_cons, put_eq, ← ih (k + 1)]
      split
      · rw [List.singleton_append, words_blank (by decide), hgroup]
      · rw [List.nil_append, hgroup]

/-- All lines but the last are full, when `j` groups stand before the first of them. -/
inductive Rows : Nat → List (List Char) → Prop
  | last {j : Nat} {line : List Char} (h : j + (words line).length ≤ 32) : Rows j [line]
  | full {j : Nat} {line : List Char} {rest : List (List Char)}
      (h : j + (words line).length = 32) (hrest : Rows 0 rest) : Rows j (line :: rest)

theorem Rows.group {j : Nat} {g : List Char} (hne : g ≠ [])
    (hg : ∀ c ∈ g, c.isWhitespace = false) {ls : List (List Char)} (h : Rows (j + 1) ls) :
    Rows j (ls.modifyHead (g ++ ' ' :: ·)) := by
  cases h with
  | @last _ line hle =>
      refine .last ?_
      rw [words_group hne hg, List.length_cons]
      omega
  | @full _ line rest heq hrest =>
      refine .full ?_ hrest
      rw [words_group hne hg, List.length_cons]
      omega

/-- How many groups stand in the line before group `k`. -/
def column (k : Nat) : Nat :=
  if k = 0 then 0 else (k - 1) % 32 + 1

/-- The lines have 32 groups each. -/
theorem rows_dump (f : Nat → UInt8) (k n : Nat) :
    Rows (column k) (lines ((List.range' k n).flatMap fun i => put i (f i))) := by
  induction n generalizing k with
  | zero =>
      have hword : words [] = [] := by simp [words]
      have hle : column k + (words []).length ≤ 32 := by
        have hlt := Nat.mod_lt (k - 1) (by decide : 32 > 0)
        rw [hword, column, List.length_nil]
        split <;> omega
      exact .last hle
  | succ n ih =>
      obtain ⟨hlen, hdigits, _⟩ := hex_byte (f k)
      have hne : hex (f k).toNat ≠ [] := fun hnil => by simp [hnil] at hlen
      have hblack : ∀ c ∈ hex (f k).toNat, c.isWhitespace = false :=
        fun c hc => (hexDigits_black (hdigits c hc)).1
      have hnext : column (k + 1) = k % 32 + 1 := by simp [column]
      have hgroup : ∀ text, lines (hex (f k).toNat ++ ' ' :: text) =
          (lines text).modifyHead (hex (f k).toNat ++ ' ' :: ·) := by
        intro text
        have hline : ∀ c ∈ hex (f k).toNat ++ [' '], (c == '\n') = false := by
          intro c hc
          rcases List.mem_append.mp hc with hc | hc
          · exact (hexDigits_black (hdigits c hc)).2
          · rw [List.mem_singleton.mp hc]
            decide
        have hsplit := splitOnP_append _ text hline
        simpa only [lines, List.append_assoc, List.singleton_append] using hsplit
      have hrest := ih (k + 1)
      rw [hnext] at hrest
      rw [List.range'_succ, List.flatMap_cons, put_eq]
      split
      · -- the line before this group is full
        rename_i hbreak
        have hcol : column k = 32 := by
          rw [column, if_neg (by omega)]
          omega
        have hword : words [] = [] := by simp [words]
        rw [hbreak.2] at hrest
        rw [List.singleton_append, lines, List.splitOnP_cons_eq_if_modifyHead, if_pos (by decide),
          ← lines, hgroup, hcol]
        refine .full (by rw [hword]; rfl) (hrest.group hne hblack)
      · rename_i hsame
        have hcol : column k = k % 32 := by
          rw [column]
          split <;> omega
        rw [List.nil_append, hgroup, hcol]
        exact hrest.group hne hblack

theorem Rows.full_last {j : Nat} {ls : List (List Char)} (h : Rows j ls) (hj : j = 0) :
    (∀ line ∈ ls.dropLast, (words line).length = 32) ∧
      ∀ line ∈ ls.getLast?, (words line).length ≤ 32 := by
  induction h with
  | @last j line h =>
      refine ⟨fun _ hline => absurd hline List.not_mem_nil, fun l hl => ?_⟩
      rw [List.getLast?_singleton, Option.mem_some_iff] at hl
      rw [← hl]
      omega
  | @full j line rest h hrest ih =>
      obtain ⟨hfull, hlast⟩ := ih rfl
      have hne : rest ≠ [] := by
        rintro rfl
        cases hrest
      rw [List.dropLast_cons_of_ne_nil hne, List.getLast?_cons_of_ne_nil hne]
      exact ⟨List.forall_mem_cons.mpr ⟨by omega, hfull⟩, hlast⟩

end Dump

/-- A dump of the bytes `f i` shows `str`, exactly if these are its bytes. -/
theorem shows_iff (f : Nat → UInt8) (str : List UInt8) :
    Shows str ((List.range str.length).flatMap fun i => put i (f i)) ↔
      ∀ i (h : i < str.length), str[i] = f i := by
  have hwords := words_dump f 0 str.length
  have hrows := (rows_dump f 0 str.length).full_last rfl
  rw [← List.range_eq_range'] at hwords hrows
  have hvalues : ((List.range str.length).map fun i => hex (f i).toNat).map groupValue =
      (List.range str.length).map fun i => (f i).toNat := by
    rw [List.map_map]
    exact List.map_congr_left fun i _ => (hex_byte (f i)).2.2
  have hsame : (List.range str.length).map (fun i => (f i).toNat) = str.map UInt8.toNat ↔
      ∀ i (h : i < str.length), str[i] = f i := by
    rw [List.ext_getElem_iff]
    simp only [List.length_map, List.length_range, List.getElem_map, List.getElem_range,
      UInt8.toNat_inj, true_and]
    exact ⟨fun h i hi => (h i hi hi).symm, fun h i hi _ => (h i hi).symm⟩
  rw [← hsame, ← hvalues, ← hwords]
  constructor
  · exact Shows.values
  · intro hval
    refine ⟨fun g hg => ?_, ?_, hrows.1, hrows.2, hval⟩
    · rw [hwords] at hg
      obtain ⟨i, _, rfl⟩ := List.mem_map.mp hg
      exact ⟨(hex_byte (f i)).1, (hex_byte (f i)).2.1⟩
    · rw [hwords, List.length_map, List.length_range]

/-- **The dump is faithful** in a reachable state exactly if every byte that is not read
yet equals the second of them, or is zero where it is the only one. -/
theorem hex_dump_faithful (host : Endian) {B : Nat} (hB : 1 ≤ B) (fresh : Nat → Nat → UInt8)
    {b : ByteArray} (h : (calls host B fresh).Reachable anyStep b) :
    Dumped b ↔ ∀ x ∈ b.contents.toString, x = charAt b.contents.toString 1 := by
  have hwf := (reachable_compact hB h).wf
  have hstr := toString_spec hwf
  have hlen : b.contents.toString.length = b.getReadSize := by
    rw [hwf.getReadSize, ← hwf.contents_length]
    exact List.length_drop
  have htext : b.toHexString = .ok ((List.range b.contents.toString.length).flatMap fun i =>
      put i (charAt b.contents.toString 1)) := by
    rw [toHexString, hstr]
    rfl
  have hshows := shows_iff (fun _ => charAt b.contents.toString 1) b.contents.toString
  rw [List.forall_mem_iff_getElem, ← hshows]
  constructor
  · rintro ⟨str, text, hstr', htext', _, hdump⟩
    rw [hstr] at hstr'
    rw [htext] at htext'
    cases hstr'
    cases htext'
    exact hdump
  · exact fun hdump => ⟨_, _, hstr, htext, hlen, hdump⟩

theorem hex_dump_faithful_equal :
    ∃ b, (calls .little 2 fun _ _ => 0).Reachable anyStep b ∧
      b.contents.toString = [7, 7, 7] ∧ Dumped b := by
  obtain ⟨b, hreach, hahead⟩ := stored_reachable .little (B := 2) (by decide) (fun _ _ => 0) [7, 7, 7]
  have hstr : b.contents.toString = [7, 7, 7] := hahead.data
  refine ⟨b, hreach, hstr, (hex_dump_faithful .little (by decide) _ hreach).mpr ?_⟩
  rw [hstr]
  exact fun x hx => List.eq_of_mem_replicate (n := 3) hx

/-- The second byte is shown in the place of the first, too. -/
theorem hex_dump_repeats :
    ∃ b, (calls .little 2 fun _ _ => 0).Reachable anyStep b ∧ b.toString = .ok [1, 2] ∧
      b.toHexString = .ok "02 02 ".toList ∧ ¬ Dumped b := by
  obtain ⟨b, hreach, hahead⟩ := stored_reachable .little (B := 2) (by decide) (fun _ _ => 0) [1, 2]
  have hstr : b.toString = .ok [1, 2] := (toString_spec hahead.wf).trans (congrArg _ hahead.data)
  have htext : b.toHexString = .ok "02 02 ".toList := by
    rw [toHexString, hstr]
    decide
  refine ⟨b, hreach, hstr, htext, ?_⟩
  rintro ⟨str, text, hstr', htext', _, hdump⟩
  rw [hstr] at hstr'
  rw [htext] at htext'
  cases hstr'
  cases htext'
  exact absurd hdump.values (by decide)

end Network
end Hpgs
