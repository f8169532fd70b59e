import Mathlib.Algebra.Group.Nat.Defs
import Mathlib.Data.List.Basic
import Mathlib.Data.Nat.Notation

/-!
# Addresses of eight groups as text

An address is written as eight groups of hexadecimal digits with a colon between any two of
them.  One `::` may stand for one or more groups of zeros, and the last two groups may be
written as four decimal numbers with dots between them.

**Results.**
* `doubles_le_one`: a text that can be read has at most one `::`.
* `parse_join`: the eight groups are read back.
* `parse_double`: what is written with one `::` is read back, with the zeros.
* `dotted_toDigits`: four bytes with dots between them are read back.
* `dotted_of_colon`, `colon_of_parse`: no text is of both kinds.
-/

namespace Hpgs
namespace AddressText

/-! ## Reading -/

/-- The number that a hexadecimal digit of either case stands for. -/
def hexDigit (c : Char) : Option Nat :=
  if c.isDigit then some (c.toNat - 48)
  else if 'a' ≤ c ∧ c ≤ 'f' then some (c.toNat - 87)
  else if 'A' ≤ c ∧ c ≤ 'F' then some (c.toNat - 55)
  else none

/-- The number that hexadecimal digits stand for, with `n` from the digits before. -/
def hexNumber : Nat → List Char → Option Nat
  | n, [] => some n
  | n, c :: s => (hexDigit c).bind fun d => hexNumber (16 * n + d) s

/-- A group of one to four hexadecimal digits. -/
def group (s : List Char) : Option Nat :=
  if s.length = 0 ∨ 4 < s.length then none else hexNumber 0 s

/-- A byte in decimal digits, without leading zeros. -/
def decimal (s : List Char) : Option Nat :=
  if s.length = 0 ∨ 3 < s.length ∨ s.all Char.isDigit = false ∨
      (1 < s.length ∧ s.head? = some '0') ∨ 255 < Nat.ofDigitChars 10 s 0 then none
  else some (Nat.ofDigitChars 10 s 0)

/-- Four decimal bytes, which are two groups. -/
def dotted (s : List Char) : Option (List Nat) :=
  match (s.splitOn '.').map decimal with
  | [some a, some b, some c, some d] => some [256 * a + b, 256 * c + d]
  | _ => none

/-- What stands between colons.  The last of an address may be four decimal bytes. -/
def pieces (last : Bool) : List (List Char) → Option (List Nat)
  | [] => some []
  | s :: ss =>
      match group s with
      | some g => (pieces last ss).map (g :: ·)
      | none => if last ∧ ss = [] then dotted s else none

/-- A side of `::`, which may be empty. -/
def side (last : Bool) (s : List Char) : Option (List Nat) :=
  if s = [] then some [] else pieces last (s.splitOn ':')

/-- What stands before the first `::`, and what stands behind it. -/
def cut : List Char → List Char × Option (List Char)
  | [] => ([], none)
  | [c] => ([c], none)
  | c :: d :: s =>
      if c = ':' ∧ d = ':' then ([], some s) else ((c :: (cut (d :: s)).1), (cut (d :: s)).2)

/-- The eight groups of a text. -/
def groups (s : List Char) : Option (List Nat) :=
  match cut s with
  | (p, none) => (pieces true (p.splitOn ':')).bind fun gs =>
      if gs.length = 8 then some gs else none
  | (p, some q) => (side false p).bind fun gs => (side true q).bind fun hs =>
      if gs.length + hs.length < 8 then
        some (gs ++ List.replicate (8 - (gs.length + hs.length)) 0 ++ hs)
      else none

/-- The two bytes of each group. -/
def bytes (gs : List Nat) : List (BitVec 8) :=
  gs.flatMap fun g => [BitVec.ofNat 8 (g / 256), BitVec.ofNat 8 g]

/-- The sixteen bytes of the address that is written. -/
def parse (s : List Char) : Option (List (BitVec 8)) :=
  (groups s).map bytes

/-- How often `::` occurs, at any place. -/
def doubles : List Char → Nat
  | [] => 0
  | [_] => 0
  | c :: d :: s => (if c = ':' ∧ d = ':' then 1 else 0) + doubles (d :: s)

/-- The groups of hexadecimal digits, with a colon between any two. -/
def join (gs : List Nat) : List Char :=
  [':'].intercalate (gs.map (Nat.toDigits 16))

example : groups "1::a:0:8.8.4.4".toList = some [1, 0, 0, 0, 10, 0, 0x808, 0x404] := by
  decide +kernel

/-! ## Digits -/

theorem hexDigit_digitChar {d : Nat} (h : d < 16) : hexDigit d.digitChar = some d := by
  have hall : ∀ d : Fin 16, hexDigit (Nat.digitChar d) = some d.val := by decide
  exact hall ⟨d, h⟩

theorem hexNumber_append (n : Nat) (s t : List Char) :
    hexNumber n (s ++ t) = (hexNumber n s).bind fun m => hexNumber m t := by
  induction s generalizing n with
  | nil => rfl
  | cons c s ih =>
      rw [List.cons_append, hexNumber, hexNumber]
      cases hexDigit c with
      | none => rfl
      | some d => exact ih _

theorem hexNumber_toDigits (g : Nat) : hexNumber 0 (Nat.toDigits 16 g) = some g := by
  induction g using Nat.strongRecOn with
  | ind g ih =>
      by_cases hlt : g < 16
      · rw [Nat.toDigits_of_lt_base hlt, hexNumber, hexDigit_digitChar hlt]
        simp [hexNumber]
      · have hmod : g % 16 < 16 := Nat.mod_lt _ (by decide)
        rw [Nat.toDigits_of_base_le (by decide) (by omega), hexNumber_append, ih _ (by omega)]
        simp only [Option.bind_some, hexNumber, hexDigit_digitChar hmod, Option.some.injEq]
        omega

theorem group_toDigits {g : Nat} (h : g < 2 ^ 16) : group (Nat.toDigits 16 g) = some g := by
  have hpos : 0 < (Nat.toDigits 16 g).length := Nat.length_toDigits_pos
  have hle : (Nat.toDigits 16 g).length ≤ 4 :=
    (Nat.length_toDigits_le_iff (by decide) (by decide)).mpr h
  rw [group, if_neg (by omega), hexNumber_toDigits]

/-- What is no digit is not in a number. -/
theorem notMem_toDigits {c : Char} (hc : ∀ d < 16, c ≠ Nat.digitChar d) (g : Nat) :
    c ∉ Nat.toDigits 16 g := by
  induction g using Nat.strongRecOn with
  | ind g ih =>
      by_cases hlt : g < 16
      · rw [Nat.toDigits_of_lt_base hlt, List.mem_singleton]
        exact hc g hlt
      · rw [Nat.toDigits_of_base_le (by decide) (by omega), List.mem_append, List.mem_singleton]
        exact not_or.mpr ⟨ih _ (by omega), hc _ (Nat.mod_lt _ (by decide))⟩

/-- No digit is a colon. -/
theorem colon_not_mem (g : Nat) : ':' ∉ Nat.toDigits 16 g :=
  notMem_toDigits (by decide) g

/-- A byte is written without leading zeros. -/
theorem decimal_toDigits {b : Nat} (h : b < 256) : decimal (Nat.toDigits 10 b) = some b := by
  have hall : ∀ b : Fin 256, decimal (Nat.toDigits 10 b) = some b.val := by decide +kernel
  exact hall ⟨b, h⟩

theorem notMem_decimal {c : Char} (hc : c.isDigit = false) (n : Nat) : c ∉ Nat.toDigits 10 n := by
  intro hmem
  have hdigit := Nat.isDigit_of_mem_toDigits (by decide) (Nat.le_refl 10) hmem
  rw [hc] at hdigit
  cases hdigit

/-- Four bytes with dots between them. -/
theorem dotted_toDigits {a b c d : Nat} (ha : a < 256) (hb : b < 256) (hc : c < 256)
    (hd : d < 256) :
    dotted (['.'].intercalate ([a, b, c, d].map (Nat.toDigits 10))) =
      some [256 * a + b, 256 * c + d] := by
  have hsplit : (['.'].intercalate ([a, b, c, d].map (Nat.toDigits 10))).splitOn '.' =
      [a, b, c, d].map (Nat.toDigits 10) := by
    refine List.splitOn_intercalate '.' (fun s hs => ?_) (List.cons_ne_nil _ _)
    obtain ⟨n, _, rfl⟩ := List.mem_map.mp hs
    exact notMem_decimal (by decide) n
  rw [dotted, hsplit]
  simp [decimal_toDigits, ha, hb, hc, hd]

/-! ## Pieces between colons -/

theorem cut_cons {c : Char} (hc : c ≠ ':') (s : List Char) :
    cut (c :: s) = (c :: (cut s).1, (cut s).2) := by
  cases s with
  | nil => rfl
  | cons d s => rw [cut, if_neg (fun h => hc h.1)]

theorem cut_append {t : List Char} (ht : ':' ∉ t) (s : List Char) :
    cut (t ++ s) = (t ++ (cut s).1, (cut s).2) := by
  induction t with
  | nil => rfl
  | cons c t ih =>
      rw [List.mem_cons, not_or] at ht
      rw [List.cons_append, cut_cons (Ne.symm ht.1), ih ht.2]
      rfl

/-- One colon alone does not cut. -/
theorem cut_colon {c : Char} (hc : c ≠ ':') (s : List Char) :
    cut (':' :: c :: s) = (':' :: (cut (c :: s)).1, (cut (c :: s)).2) := by
  rw [cut, if_neg (fun h => hc h.2)]

theorem join_cons_cons (g h : Nat) (gs : List Nat) :
    join (g :: h :: gs) = Nat.toDigits 16 g ++ ':' :: join (h :: gs) := by
  simp [join]

theorem join_append_singleton {gs : List Nat} (hne : gs ≠ []) (h : Nat) :
    join (gs ++ [h]) = join gs ++ ':' :: Nat.toDigits 16 h := by
  induction gs with
  | nil => exact absurd rfl hne
  | cons g gs ih =>
      cases gs with
      | nil => simp [join]
      | cons g' gs =>
          have hrest := ih (List.cons_ne_nil g' gs)
          rw [List.cons_append] at hrest
          rw [List.cons_append, List.cons_append, join_cons_cons, join_cons_cons, hrest,
            List.append_assoc]
          rfl

/-- A text of groups starts with a digit. -/
theorem join_cons (g : Nat) (gs : List Nat) : ∃ c s, c ≠ ':' ∧ join (g :: gs) = c :: s := by
  obtain ⟨c, s, hs⟩ := List.exists_cons_of_ne_nil (Nat.toDigits_ne_nil (n := g) (b := 16))
  have hc : c ≠ ':' := fun h => colon_not_mem g (by rw [hs, h]; exact List.mem_cons_self)
  cases gs with
  | nil => exact ⟨c, s, hc, by simp [join, hs]⟩
  | cons h gs => exact ⟨c, s ++ ':' :: join (h :: gs), hc, by rw [join_cons_cons, hs]; rfl⟩

/-- What is written without `::` is not cut; behind it the first `::` cuts. -/
theorem cut_join (gs : List Nat) (s : List Char) :
    cut (join gs) = (join gs, none) ∧ cut (join gs ++ ':' :: ':' :: s) = (join gs, some s) := by
  have hsep : cut (':' :: ':' :: s) = ([], some s) := by rw [cut, if_pos ⟨rfl, rfl⟩]
  induction gs with
  | nil => exact ⟨rfl, hsep⟩
  | cons g gs ih =>
      cases gs with
      | nil =>
          have hjoin : join [g] = Nat.toDigits 16 g := by simp [join]
          have hnone := cut_append (colon_not_mem g) []
          rw [hjoin, cut_append (colon_not_mem g), hsep]
          simpa [cut] using hnone
      | cons h gs =>
          obtain ⟨c, t, hc, ht⟩ := join_cons h gs
          rw [join_cons_cons, cut_append (colon_not_mem g), List.append_assoc,
            cut_append (colon_not_mem g), ht]
          rw [ht] at ih
          rw [List.cons_append, List.cons_append, cut_colon hc, cut_colon hc, ih.1]
          rw [List.cons_append] at ih
          rw [ih.2]
          exact ⟨rfl, rfl⟩

theorem splitOn_join {gs : List Nat} (hne : gs ≠ []) :
    (join gs).splitOn ':' = gs.map (Nat.toDigits 16) := by
  refine List.splitOn_intercalate ':' (fun l hl => ?_) (by simpa using hne)
  obtain ⟨g, -, rfl⟩ := List.mem_map.mp hl
  exact colon_not_mem g

theorem pieces_toDigits (last : Bool) {gs : List Nat} (h : ∀ g ∈ gs, g < 2 ^ 16) :
    pieces last (gs.map (Nat.toDigits 16)) = some gs := by
  induction gs with
  | nil => rfl
  | cons g gs ih =>
      rw [List.forall_mem_cons] at h
      rw [List.map_cons, pieces, group_toDigits h.1, ih h.2]
      rfl

theorem side_join (last : Bool) {gs : List Nat} (h : ∀ g ∈ gs, g < 2 ^ 16) :
    side last (join gs) = some gs := by
  cases gs with
  | nil => rfl
  | cons g gs =>
      obtain ⟨c, s, -, hs⟩ := join_cons g gs
      rw [side, if_neg (by rw [hs]; exact List.cons_ne_nil c s),
        splitOn_join (List.cons_ne_nil g gs), pieces_toDigits last h]

/-! ## Round trips -/

theorem parse_join {gs : List Nat} (hlen : gs.length = 8) (h : ∀ g ∈ gs, g < 2 ^ 16) :
    parse (join gs) = some (bytes gs) := by
  have hne : gs ≠ [] := by
    rintro rfl
    simp at hlen
  have hpieces : pieces true ((join gs).splitOn ':') = some gs := by
    rw [splitOn_join hne, pieces_toDigits true h]
  rw [parse, groups, (cut_join gs []).1]
  simp only [hpieces, Option.bind_some, if_pos hlen, Option.map_some]

theorem parse_double {gs hs : List Nat} (hlen : gs.length + hs.length < 8)
    (hg : ∀ g ∈ gs, g < 2 ^ 16) (hh : ∀ g ∈ hs, g < 2 ^ 16) :
    parse (join gs ++ ':' :: ':' :: join hs) =
      some (bytes (gs ++ List.replicate (8 - (gs.length + hs.length)) 0 ++ hs)) := by
  rw [parse, groups, (cut_join gs (join hs)).2]
  simp only [side_join _ hg, side_join _ hh, Option.bind_some, if_pos hlen, Option.map_some]

/-! ## At most one double colon -/

theorem doubles_cons {c : Char} (hc : c ≠ ':') (s : List Char) :
    doubles (c :: s) = doubles s := by
  cases s with
  | nil => rfl
  | cons d s => rw [doubles, if_neg (fun h => hc h.1), Nat.zero_add]

/-- What is read between colons is not empty. -/
theorem ne_nil_of_pieces {last : Bool} {ss : List (List Char)} {gs : List Nat}
    (h : pieces last ss = some gs) : ∀ s ∈ ss, s ≠ [] := by
  induction ss generalizing gs with
  | nil => simp
  | cons s ss ih =>
      rw [pieces] at h
      refine List.forall_mem_cons.mpr ?_
      cases hg : group s with
      | some g =>
          rw [hg] at h
          obtain ⟨hs, hrest, -⟩ := Option.map_eq_some_iff.mp h
          exact ⟨fun hnil => by simp [hnil, group] at hg, ih hrest⟩
      | none =>
          rw [hg] at h
          by_cases hlast : last = true ∧ ss = []
          · refine ⟨fun hnil => ?_, by simp [hlast.2]⟩
            simp [hnil, hlast, dotted, decimal] at h
          · rw [if_neg hlast] at h
            exact nomatch h

/-- Where no piece behind the first is empty, no two colons follow each other. -/
theorem doubles_of_splitOn {s : List Char} (h : ∀ t ∈ (s.splitOn ':').tail, t ≠ []) :
    doubles s = 0 := by
  induction s with
  | nil => rfl
  | cons c s ih =>
      rw [List.splitOn_cons_eq_if_modifyHead] at h
      by_cases hc : c = ':'
      · subst hc
        rw [if_pos (by decide), List.tail_cons] at h
        have hrest := ih fun t ht => h t (List.mem_of_mem_tail ht)
        cases s with
        | nil => rfl
        | cons d s =>
            have hd : d ≠ ':' := by
              rintro rfl
              rw [List.splitOn_cons_eq_if_modifyHead, if_pos (by decide)] at h
              exact h [] List.mem_cons_self rfl
            rw [doubles, if_neg (fun h => hd h.2), hrest]
      · rw [if_neg (by simpa using hc), List.tail_modifyHead] at h
        rw [doubles_cons hc, ih h]

/-- The first `::` is the one where the text is cut. -/
theorem doubles_cut (s : List Char) :
    doubles s = match (cut s).2 with
      | none => 0
      | some q => 1 + doubles (':' :: q) := by
  induction s using cut.induct with
  | case1 => rfl
  | case2 c => rfl
  | case3 c d s h =>
      obtain ⟨rfl, rfl⟩ := h
      rw [cut, if_pos ⟨rfl, rfl⟩, doubles, if_pos ⟨rfl, rfl⟩]
  | case4 c d s h ih => rw [cut, if_neg h, doubles, if_neg h, Nat.zero_add, ih]

/-- The parts on both sides of `::` have none of their own. -/
theorem doubles_le_one {s : List Char} {v : List (BitVec 8)} (h : parse s = some v) :
    doubles s ≤ 1 := by
  obtain ⟨gs, hgs, -⟩ := Option.map_eq_some_iff.mp h
  have hcut := doubles_cut s
  rw [groups] at hgs
  rcases hs : cut s with ⟨p, _ | q⟩
  · rw [hs] at hcut
    exact Nat.le_succ_of_le (Nat.le_of_eq hcut)
  · rw [hs] at hcut hgs
    replace hcut : doubles s = 1 + doubles (':' :: q) := hcut
    obtain ⟨fore, -, hbehind⟩ := Option.bind_eq_some_iff.mp hgs
    obtain ⟨rest, hside, -⟩ := Option.bind_eq_some_iff.mp hbehind
    have hrest : doubles (':' :: q) = 0 := by
      rw [side] at hside
      by_cases hnil : q = []
      · rw [hnil]
        rfl
      · rw [if_neg hnil] at hside
        refine doubles_of_splitOn ?_
        rw [List.splitOn_cons_eq_if_modifyHead, if_pos (by decide)]
        exact ne_nil_of_pieces hside
    omega

/-! ## The two kinds of text -/

theorem isDigit_of_decimal {s : List Char} {b : Nat} (h : decimal s = some b) :
    ∀ c ∈ s, c.isDigit = true := by
  rw [decimal] at h
  split_ifs at h with hbad
  have hall : s.all Char.isDigit = true := by
    rw [← Bool.not_eq_false]
    exact fun hno => hbad (Or.inr (Or.inr (Or.inl hno)))
  exact List.all_eq_true.mp hall

/-- Four bytes have no colon. -/
theorem dotted_of_colon {s : List Char} (h : ':' ∈ s) : dotted s = none := by
  rw [dotted]
  have hjoin : ['.'].intercalate (s.splitOn '.') = s := List.intercalate_splitOn '.'
  split
  · rename_i a b c d hparts
    obtain ⟨p, ps, hs, hp, hps⟩ := List.map_eq_cons_iff.mp hparts
    obtain ⟨q, qs, rfl, hq, hqs⟩ := List.map_eq_cons_iff.mp hps
    obtain ⟨r, rs, rfl, hr, hrs⟩ := List.map_eq_cons_iff.mp hqs
    obtain ⟨t, ts, rfl, ht, hts⟩ := List.map_eq_cons_iff.mp hrs
    obtain rfl := List.map_eq_nil_iff.mp hts
    have hno : ∀ (u : List Char) (n : Nat), decimal u = some n → ':' ∉ u := by
      intro u n hu hmem
      have hdigit := isDigit_of_decimal hu _ hmem
      cases hdigit
    rw [← hjoin, hs] at h
    simp [List.intercalate, hno p a hp, hno q b hq, hno r c hr, hno t d ht] at h
  · rfl

/-- An address of eight groups has a colon. -/
theorem colon_of_parse {s : List Char} {v : List (BitVec 8)} (h : parse s = some v) :
    ':' ∈ s := by
  by_contra hno
  have hcut : cut s = (s, none) := by
    have hall := cut_append hno []
    rw [List.append_nil] at hall
    rw [hall, cut, List.append_nil]
  obtain ⟨gs, hgs, _⟩ := Option.map_eq_some_iff.mp h
  have hpieces : ∀ gs, pieces true [s] = some gs → gs.length ≤ 2 := by
    intro gs hgs
    rw [pieces] at hgs
    cases hgroup : group s with
    | some g =>
        rw [hgroup] at hgs
        obtain rfl := Option.some.inj hgs
        exact Nat.le_succ 1
    | none =>
        rw [hgroup] at hgs
        simp only [and_self, if_true] at hgs
        rw [dotted] at hgs
        split at hgs
        · obtain rfl := Option.some.inj hgs
          exact Nat.le_refl 2
        · cases hgs
  rw [groups, hcut] at hgs
  simp only [List.splitOn_eq_singleton hno] at hgs
  obtain ⟨hs, hone, height⟩ := Option.bind_eq_some_iff.mp hgs
  have hle := hpieces hs hone
  rw [if_neg (by omega)] at height
  cases height

end AddressText
end Hpgs
