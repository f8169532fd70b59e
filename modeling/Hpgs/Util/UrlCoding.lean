import Hpgs.Library.LazyCopy

/-!
# Coding a string for a URL

`UrlEncode` and `UrlDecode` go over the bytes of a string.  They return the string itself
where no byte changes, and begin a copy at the first one that does.  A `char` is signed: a
byte from 128 on is a negative argument of `isxdigit`, for which its behaviour is undefined.

**Results.**
* `urlEncode_eq`: the encoded string, byte by byte.
* `decodeLoop_byte`, `decodeLoop_encoded`: the loop of `UrlDecode` over what a byte, and a
  string, was encoded as.
* `url_round_trip`: decoding undoes encoding.
* `urlEncode_safe_iff`: the output is safe iff the string has no equals sign, which the
  table lets through.
-/

namespace Hpgs
namespace Util
namespace StringUtil

open LazyCopy

/-! ## Definitions -/

/-- `uri_chars`. -/
def uriChars : List UInt8 := [
  0, 0, 0, 0, 0, 0, 0, 0,   0, 0, 0, 0, 0, 0, 0, 0,
  0, 0, 0, 0, 0, 0, 0, 0,   0, 0, 0, 0, 0, 0, 0, 0,
  0, 0, 0, 0, 0, 0, 0, 0,   0, 0, 0, 0, 0, 1, 1, 0,
  1, 1, 1, 1, 1, 1, 1, 1,   1, 1, 0, 0, 0, 1, 0, 0,
  0, 1, 1, 1, 1, 1, 1, 1,   1, 1, 1, 1, 1, 1, 1, 1,
  1, 1, 1, 1, 1, 1, 1, 1,   1, 1, 1, 0, 0, 0, 0, 1,
  0, 1, 1, 1, 1, 1, 1, 1,   1, 1, 1, 1, 1, 1, 1, 1,
  1, 1, 1, 1, 1, 1, 1, 1,   1, 1, 1, 0, 0, 0, 1, 0,
  0, 0, 0, 0, 0, 0, 0, 0,   0, 0, 0, 0, 0, 0, 0, 0,
  0, 0, 0, 0, 0, 0, 0, 0,   0, 0, 0, 0, 0, 0, 0, 0,
  0, 0, 0, 0, 0, 0, 0, 0,   0, 0, 0, 0, 0, 0, 0, 0,
  0, 0, 0, 0, 0, 0, 0, 0,   0, 0, 0, 0, 0, 0, 0, 0,
  0, 0, 0, 0, 0, 0, 0, 0,   0, 0, 0, 0, 0, 0, 0, 0,
  0, 0, 0, 0, 0, 0, 0, 0,   0, 0, 0, 0, 0, 0, 0, 0,
  0, 0, 0, 0, 0, 0, 0, 0,   0, 0, 0, 0, 0, 0, 0, 0,
  0, 0, 0, 0, 0, 0, 0, 0,   0, 0, 0, 0, 0, 0, 0, 0]

/-- `xdigit_chars`. -/
def xdigitChars : List UInt8 := [
  0, 0, 0, 0, 0, 0, 0, 0, 0, 0, 0, 0, 0, 0, 0, 0,
  0, 0, 0, 0, 0, 0, 0, 0, 0, 0, 0, 0, 0, 0, 0, 0,
  0, 0, 0, 0, 0, 0, 0, 0, 0, 0, 0, 0, 0, 0, 0, 0,
  0, 1, 2, 3, 4, 5, 6, 7, 8, 9, 0, 0, 0, 0, 0, 0,
  0, 10, 11, 12, 13, 14, 15, 0, 0, 0, 0, 0, 0, 0, 0, 0,
  0, 0, 0, 0, 0, 0, 0, 0, 0, 0, 0, 0, 0, 0, 0, 0,
  0, 10, 11, 12, 13, 14, 15, 0, 0, 0, 0, 0, 0, 0, 0, 0,
  0, 0, 0, 0, 0, 0, 0, 0, 0, 0, 0, 0, 0, 0, 0, 0,
  0, 0, 0, 0, 0, 0, 0, 0, 0, 0, 0, 0, 0, 0, 0, 0,
  0, 0, 0, 0, 0, 0, 0, 0, 0, 0, 0, 0, 0, 0, 0, 0,
  0, 0, 0, 0, 0, 0, 0, 0, 0, 0, 0, 0, 0, 0, 0, 0,
  0, 0, 0, 0, 0, 0, 0, 0, 0, 0, 0, 0, 0, 0, 0, 0,
  0, 0, 0, 0, 0, 0, 0, 0, 0, 0, 0, 0, 0, 0, 0, 0,
  0, 0, 0, 0, 0, 0, 0, 0, 0, 0, 0, 0, 0, 0, 0, 0,
  0, 0, 0, 0, 0, 0, 0, 0, 0, 0, 0, 0, 0, 0, 0, 0,
  0, 0, 0, 0, 0, 0, 0, 0, 0, 0, 0, 0, 0, 0, 0, 0]

/-- `hexdigits`. -/
def hexdigits : List UInt8 :=
  "0123456789ABCDEF".toList.map Char.toUInt8

/-- `CHAR_IS_UNRESERVED`. -/
def charIsUnreserved (x : UInt8) : Bool :=
  uriChars.getD x.toNat 0 != 0

/-- What is appended for a byte that is not unreserved. -/
def encodedByte (spaceAsPlus : Bool) (x : UInt8) : List UInt8 :=
  if x = ' '.toUInt8 ∧ spaceAsPlus then ['+'.toUInt8]
  else
    ['%'.toUInt8, hexdigits.getD (x >>> 4).toNat 0, hexdigits.getD (x &&& 0xf).toNat 0]

/-- The loop of `UrlEncode` from the byte `c` on. -/
def encodeLoop (str : List UInt8) (spaceAsPlus : Bool) :
    Nat → List UInt8 → Option (List UInt8) → Option (List UInt8)
  | _, [], ss => ss
  | c, x :: rest, ss =>
      if charIsUnreserved x then encodeLoop str spaceAsPlus (c + 1) rest (keep x ss)
      else encodeLoop str spaceAsPlus (c + 1) rest (put str c (encodedByte spaceAsPlus x) ss)

/-- `UrlEncode`. -/
def urlEncode (str : List UInt8) (spaceAsPlus : Bool) : List UInt8 :=
  (encodeLoop str spaceAsPlus 0 str none).getD str

/-- `isxdigit` of a `char`; it is undefined for a negative one. -/
def isxdigit (x : UInt8) : Option Bool :=
  if x < 128 then
    some ((0x30 ≤ x && x ≤ 0x39) || (0x41 ≤ x && x ≤ 0x46) || (0x61 ≤ x && x ≤ 0x66))
  else none

/-- The test for an escape, on three bytes before the end. -/
def isEscape (x y z : UInt8) : Option Bool :=
  if x = '%'.toUInt8 then
    (isxdigit y).bind fun high => if high then isxdigit z else some false
  else some false

/-- The byte that an escape stands for. -/
def escapedByte (y z : UInt8) : UInt8 :=
  xdigitChars.getD y.toNat 0 <<< 4 ||| xdigitChars.getD z.toNat 0

/-- The loop of `UrlDecode` from the byte `c` on. -/
def decodeLoop (str : List UInt8) (spaceAsPlus : Bool) :
    Nat → List UInt8 → Option (List UInt8) → Option (Option (List UInt8))
  | _, [], ss => some ss
  | c, x :: rest, ss =>
      if x = '+'.toUInt8 ∧ spaceAsPlus then
        decodeLoop str spaceAsPlus (c + 1) rest (put str c [' '.toUInt8] ss)
      else
        match rest with
        | y :: z :: rest' =>
            match isEscape x y z with
            | none => none
            | some true =>
                decodeLoop str spaceAsPlus (c + 3) rest' (put str c [escapedByte y z] ss)
            | some false => decodeLoop str spaceAsPlus (c + 1) (y :: z :: rest') (keep x ss)
        | rest => decodeLoop str spaceAsPlus (c + 1) rest (keep x ss)

/-- `UrlDecode`. -/
def urlDecode (str : List UInt8) (spaceAsPlus : Bool) : Option (List UInt8) :=
  (decodeLoop str spaceAsPlus 0 str none).map fun ss => ss.getD str

/-! ## The tables -/

/-- Unreserved bytes do not begin anything else. -/
theorem unreserved_plain {x : UInt8} (h : charIsUnreserved x = true) :
    x ≠ '+'.toUInt8 ∧ x ≠ '%'.toUInt8 := by
  constructor
  · rintro rfl
    exact absurd h (by decide)
  · rintro rfl
    exact absurd h (by decide)

theorem xdigit_hexdigit {d : Nat} (hd : d < 16) :
    isxdigit (hexdigits.getD d 0) = some true ∧
      xdigitChars.getD (hexdigits.getD d 0).toNat 0 = UInt8.ofNat d := by
  have hall : ∀ d < 16, isxdigit (hexdigits.getD d 0) = some true ∧
      xdigitChars.getD (hexdigits.getD d 0).toNat 0 = UInt8.ofNat d := by
    decide
  exact hall d hd

theorem halves_lt (x : UInt8) : (x >>> 4).toNat < 16 ∧ (x &&& 0xf).toNat < 16 := by
  have hx := x.toNat_lt
  constructor
  · rw [UInt8.toNat_shiftRight]
    have hdiv : x.toNat >>> (UInt8.toNat 4 % 8) = x.toNat / 16 := Nat.shiftRight_eq_div_pow _ 4
    omega
  · rw [UInt8.toNat_and]
    exact Nat.lt_of_le_of_lt Nat.and_le_right (by decide)

theorem or_halves (x : UInt8) : x >>> 4 <<< 4 ||| x &&& 0xf = x := by
  have hall : ∀ n < 256, UInt8.ofNat n >>> 4 <<< 4 ||| UInt8.ofNat n &&& 0xf = UInt8.ofNat n := by
    decide +kernel
  have hx := hall x.toNat x.toNat_lt
  rwa [UInt8.ofNat_toNat] at hx

/-- The two digits of a byte stand for it. -/
theorem escape_hexdigits (x : UInt8) :
    isEscape '%'.toUInt8 (hexdigits.getD (x >>> 4).toNat 0) (hexdigits.getD (x &&& 0xf).toNat 0) =
        some true ∧
      escapedByte (hexdigits.getD (x >>> 4).toNat 0) (hexdigits.getD (x &&& 0xf).toNat 0) = x := by
  obtain ⟨hhigh, hlow⟩ := halves_lt x
  obtain ⟨hdigit, hvalue⟩ := xdigit_hexdigit hhigh
  obtain ⟨hdigit', hvalue'⟩ := xdigit_hexdigit hlow
  constructor
  · rw [isEscape, if_pos rfl, hdigit, Option.bind_some, if_pos rfl, hdigit']
  · rw [escapedByte, hvalue, hvalue', UInt8.ofNat_toNat, UInt8.ofNat_toNat, or_halves]

/-! ## Encoding -/

/-- What a byte is encoded as. -/
def encoded (spaceAsPlus : Bool) (x : UInt8) : List UInt8 :=
  if charIsUnreserved x then [x] else encodedByte spaceAsPlus x

variable {str : List UInt8} {b : Bool}

theorem encodeLoop_text {c : Nat} {rest : List UInt8} (h : str.drop c = rest)
    (ss : Option (List UInt8)) :
    (encodeLoop str b c rest ss).getD str = text str c ss ++ rest.flatMap (encoded b) := by
  induction rest generalizing c ss with
  | nil => rw [encodeLoop, text_end h, List.flatMap_nil, List.append_nil]
  | cons x rest ih =>
      have hnext : str.drop (c + 1) = rest := drop_add [x] h
      rw [encodeLoop, List.flatMap_cons, encoded, ← List.append_assoc]
      split
      · rw [ih hnext, text_keep h]
      · rw [ih hnext, text_put]

/-- **Encoding** goes byte by byte. -/
theorem urlEncode_eq (str : List UInt8) (b : Bool) :
    urlEncode str b = str.flatMap (encoded b) := by
  rw [urlEncode, encodeLoop_text List.drop_zero, text_start, List.nil_append]

/-! ## Decoding -/

/-- A byte that begins nothing is kept. -/
theorem decodeLoop_keep {x : UInt8} (hplus : x ≠ '+'.toUInt8) (hpercent : x ≠ '%'.toUInt8)
    (c : Nat) (rest : List UInt8) (ss : Option (List UInt8)) :
    decodeLoop str b c (x :: rest) ss = decodeLoop str b (c + 1) rest (keep x ss) := by
  have hno : ∀ y z, isEscape x y z = some false := fun y z => if_neg hpercent
  rw [decodeLoop.eq_def]
  simp only [hplus, false_and, if_false]
  split
  · rw [hno]
  · rfl

variable (str b) in
/-- An escape is replaced by its byte. -/
theorem decodeLoop_escape {y z : UInt8} (h : isEscape '%'.toUInt8 y z = some true)
    (c : Nat) (rest : List UInt8) (ss : Option (List UInt8)) :
    decodeLoop str b c ('%'.toUInt8 :: y :: z :: rest) ss =
      decodeLoop str b (c + 3) rest (put str c [escapedByte y z] ss) := by
  have hplus : '%'.toUInt8 ≠ '+'.toUInt8 := by decide
  rw [decodeLoop.eq_def]
  simp only [hplus, false_and, if_false, h]

theorem decodeLoop_plus (c : Nat) (rest : List UInt8) (ss : Option (List UInt8)) :
    decodeLoop str true c ('+'.toUInt8 :: rest) ss =
      decodeLoop str true (c + 1) rest (put str c [' '.toUInt8] ss) := by
  rw [decodeLoop.eq_def]
  simp only [true_and, if_true]

/-- What a byte was encoded as is read as the byte. -/
theorem decodeLoop_byte (x : UInt8) {c : Nat} {rest : List UInt8}
    (h : str.drop c = encoded b x ++ rest) (ss : Option (List UInt8)) :
    ∃ ss', decodeLoop str b c (encoded b x ++ rest) ss =
        decodeLoop str b (c + (encoded b x).length) rest ss' ∧
      text str (c + (encoded b x).length) ss' = text str c ss ++ [x] := by
  unfold encoded at h ⊢
  split at h
  · rename_i hkeep
    obtain ⟨hplus, hpercent⟩ := unreserved_plain hkeep
    rw [if_pos hkeep]
    exact ⟨keep x ss, decodeLoop_keep hplus hpercent c rest ss, text_keep h ss⟩
  · rename_i hput
    rw [if_neg hput]
    unfold encodedByte at h ⊢
    split at h
    · rename_i hspace
      obtain ⟨rfl, rfl⟩ := hspace
      rw [if_pos ⟨rfl, rfl⟩]
      exact ⟨put str c [' '.toUInt8] ss, decodeLoop_plus c rest ss, rfl⟩
    · rename_i hspace
      obtain ⟨hescape, hbyte⟩ := escape_hexdigits x
      rw [if_neg hspace]
      refine ⟨put str c [x] ss, ?_, rfl⟩
      have hrun := decodeLoop_escape str b hescape c rest ss
      rwa [hbyte] at hrun

/-- **Decoding an encoded string.** -/
theorem decodeLoop_encoded (s : List UInt8) {c : Nat}
    (h : str.drop c = s.flatMap (encoded b)) (ss : Option (List UInt8)) :
    ∃ copy, decodeLoop str b c (s.flatMap (encoded b)) ss = some copy ∧
      copy.getD str = text str c ss ++ s := by
  induction s generalizing c ss with
  | nil => exact ⟨ss, rfl, by rw [text_end h, List.append_nil]⟩
  | cons x s ih =>
      rw [List.flatMap_cons] at h ⊢
      obtain ⟨ss', hstep, htext⟩ := decodeLoop_byte x h ss
      obtain ⟨copy, hrun, hcopy⟩ := ih (drop_add (encoded b x) h) ss'
      refine ⟨copy, hstep.trans hrun, ?_⟩
      rw [hcopy, htext, List.append_assoc, List.singleton_append]

/-- **Round trip.**  For every string of bytes and both values of `space_as_plus`, decoding
is defined on what encoding returns, and undoes it. -/
theorem url_round_trip (s : List UInt8) (b : Bool) : urlDecode (urlEncode s b) b = some s := by
  rw [urlEncode_eq]
  have hwhole : (s.flatMap (encoded b)).drop 0 = s.flatMap (encoded b) := List.drop_zero
  obtain ⟨copy, hrun, hcopy⟩ := decodeLoop_encoded s hwhole none
  rw [urlDecode, hrun, Option.map_some, hcopy, text_start, List.nil_append]

/-! ## Safe output -/

/-- The bytes that the comment above `UrlEncode` lists. -/
def unreserved : List UInt8 :=
  "-.0123456789ABCDEFGHIJKLMNOPQRSTUVWXYZ_abcdefghijklmnopqrstuvwxyz~".toList.map Char.toUInt8

/-- What an encoded string is put together from. -/
inductive Piece
  | byte (x : UInt8)
  | plus
  | escape (high low : UInt8)
deriving DecidableEq, Repr

namespace Piece

def spell : Piece → List UInt8
  | byte x => [x]
  | plus => ['+'.toUInt8]
  | escape high low => ['%'.toUInt8, high, low]

def Allowed (spaceAsPlus : Bool) : Piece → Prop
  | byte x => x ∈ unreserved
  | plus => spaceAsPlus = true
  | escape high low => high ∈ hexdigits ∧ low ∈ hexdigits

/-- The piece that a byte becomes. -/
def of (spaceAsPlus : Bool) (x : UInt8) : Piece :=
  if charIsUnreserved x then byte x
  else if x = ' '.toUInt8 ∧ spaceAsPlus then plus
  else escape (hexdigits.getD (x >>> 4).toNat 0) (hexdigits.getD (x &&& 0xf).toNat 0)

theorem spell_of (x : UInt8) : (of b x).spell = encoded b x := by
  unfold of encoded encodedByte
  split
  · rfl
  · split
    · rfl
    · rfl

end Piece

/-- The output consists of allowed pieces, with a '+' for every space or none. -/
def SafeOutput (str : List UInt8) (spaceAsPlus : Bool) (out : List UInt8) : Prop :=
  ∃ pieces : List Piece, out = pieces.flatMap Piece.spell ∧
    (∀ p ∈ pieces, p.Allowed spaceAsPlus) ∧
    pieces.count .plus = if spaceAsPlus then str.count ' '.toUInt8 else 0

/-- The table lets through what is listed, and the equals sign. -/
theorem charIsUnreserved_iff (x : UInt8) :
    charIsUnreserved x = true ↔ x ∈ unreserved ∨ x = '='.toUInt8 := by
  -- the equals sign is between the digits and the letters
  have htable : (List.range 256).filter (fun n => uriChars.getD n 0 != 0) =
      (unreserved.take 12 ++ '='.toUInt8 :: unreserved.drop 12).map UInt8.toNat := by
    decide +kernel
  have hindex : charIsUnreserved x = true ↔
      x.toNat ∈ (List.range 256).filter fun n => uriChars.getD n 0 != 0 := by
    rw [List.mem_filter, List.mem_range, and_iff_right x.toNat_lt, charIsUnreserved]
  have hsplit : x ∈ unreserved ↔ x ∈ unreserved.take 12 ∨ x ∈ unreserved.drop 12 := by
    rw [← List.mem_append, List.take_append_drop]
  rw [hindex, htable, List.mem_map_of_injective fun _ _ => UInt8.toNat_inj.mp, List.mem_append,
    List.mem_cons, hsplit, or_left_comm, or_comm]

theorem Piece.of_allowed {x : UInt8} (h : x ≠ '='.toUInt8) : (of b x).Allowed b := by
  unfold of
  split
  · rename_i hkeep
    exact ((charIsUnreserved_iff x).mp hkeep).resolve_right h
  · split
    · rename_i hspace
      exact hspace.2
    · obtain ⟨hhigh, hlow⟩ := halves_lt x
      have hmem : ∀ d < 16, hexdigits.getD d 0 ∈ hexdigits := by decide
      exact ⟨hmem _ hhigh, hmem _ hlow⟩

theorem Piece.of_eq_plus_iff (x : UInt8) : of b x = plus ↔ x = ' '.toUInt8 ∧ b = true := by
  unfold of
  split
  · rename_i hkeep
    constructor
    · intro h
      cases h
    · rintro ⟨rfl, _⟩
      exact absurd hkeep (by decide)
  · split
    · rename_i hspace
      exact ⟨fun _ => hspace, fun _ => rfl⟩
    · rename_i hspace
      exact ⟨fun h => (by cases h), fun h => absurd h hspace⟩

/-- There is a '+' for every space. -/
theorem count_plus (str : List UInt8) :
    (str.map (Piece.of b)).count .plus = if b then str.count ' '.toUInt8 else 0 := by
  induction str with
  | nil => cases b <;> rfl
  | cons x str ih =>
      rw [List.map_cons, List.count_cons, ih, List.count_cons]
      cases b with
      | true => simp [Piece.of_eq_plus_iff]
      | false => simp [Piece.of_eq_plus_iff]

/-- No allowed piece has an equals sign in it. -/
theorem not_mem_spell {p : Piece} (h : p.Allowed b) : '='.toUInt8 ∉ p.spell := by
  cases p with
  | byte x =>
      intro hmem
      rw [Piece.spell, List.mem_singleton] at hmem
      subst hmem
      have hno : '='.toUInt8 ∉ unreserved := by decide
      exact hno h
  | plus => decide
  | escape high low =>
      intro hmem
      have hno : '='.toUInt8 ∉ hexdigits := by decide
      simp only [Piece.spell, List.mem_cons, List.not_mem_nil, or_false] at hmem
      rcases hmem with hpercent | rfl | rfl
      · exact absurd hpercent (by decide)
      · exact hno h.1
      · exact hno h.2

/-- An equals sign is copied. -/
theorem not_safe_of_mem {str : List UInt8} (h : '='.toUInt8 ∈ str) :
    ¬ SafeOutput str b (urlEncode str b) := by
  rintro ⟨pieces, hout, hallowed, _⟩
  have hmem : '='.toUInt8 ∈ urlEncode str b := by
    rw [urlEncode_eq, List.mem_flatMap]
    exact ⟨_, h, by cases b <;> decide⟩
  rw [hout, List.mem_flatMap] at hmem
  obtain ⟨p, hp, hin⟩ := hmem
  exact not_mem_spell (hallowed p hp) hin

/-- **Safe output.**  The encoded string consists of listed bytes, of escapes and of a '+'
for every space exactly if the string has no equals sign. -/
theorem urlEncode_safe_iff (str : List UInt8) (b : Bool) :
    SafeOutput str b (urlEncode str b) ↔ '='.toUInt8 ∉ str := by
  constructor
  · intro hsafe hmem
    exact not_safe_of_mem hmem hsafe
  · intro hno
    refine ⟨str.map (Piece.of b), ?_, ?_, count_plus str⟩
    · rw [urlEncode_eq, List.flatMap_map]
      simp only [Piece.spell_of]
    · intro p hp
      obtain ⟨x, hx, rfl⟩ := List.mem_map.mp hp
      exact Piece.of_allowed fun heq => hno (heq ▸ hx)

/-- The table lets the equals sign through. -/
theorem urlEncode_equals :
    urlEncode ['='.toUInt8] false = ['='.toUInt8] ∧
      ¬ SafeOutput ['='.toUInt8] false (urlEncode ['='.toUInt8] false) :=
  ⟨by decide, not_safe_of_mem (by decide)⟩

end StringUtil
end Util
end Hpgs
