import Hpgs.Library.Runs
import Hpgs.Logging.FileLogAppender

/-!
# Patterns of a log formatter

`LogFormatter::init` reads a pattern from the left.  A '%' begins an item: the letters and
closing braces behind it are its name, and a brace behind these opens its format.  A '%'
directly before another one is copied, and the reading goes on with the other one, which
may begin an item.  An item whose format is not closed and an item that is not in the map
raise the flag `m_error`, which the constructor does not set to anything first.

The index into the pattern is modelled by what is left of the pattern.  An item is never
empty, so what is left gets shorter, and `init` ends for every pattern.

What a pattern means is said by its segments.  The escape `%%` and the '%' that the code
copies are different segments, and a reading of a pattern has one or the other.

**Results.**
* `scan_reading`: the code finds the segments of a pattern without escapes.
* `init_items`: its items are the items of the segments and one text for each maximal run.
* `isError_iff`: the flag is up iff it was up in memory or the code cannot read the
  pattern.
-/

namespace Hpgs
namespace Logging

open Runs

/-- `DateTimeFormatItem(format)`. -/
def dateTimeFormatItem (format : List Char) : FormatItem :=
  .dateTime (if format.isEmpty then "%Y-%m-%d %H:%M:%S".toList else format)

/-- `s_format_items`. -/
def formatItems : List (List Char × (List Char → FormatItem)) :=
  [(['m'], fun _ => .message),
    (['p'], fun _ => .level),
    (['r'], fun _ => .elapse),
    (['c'], fun _ => .name),
    (['t'], fun _ => .threadId),
    (['n'], fun _ => .newLine),
    (['d'], dateTimeFormatItem),
    (['f'], fun _ => .fileName),
    (['l'], fun _ => .line),
    (['T'], fun _ => .tab),
    (['F'], fun _ => .fibreId),
    (['N'], fun _ => .threadName)]

/-- An entry of `vec`: a text, or the name and the format of an item. -/
abbrev Piece : Type :=
  List Char ⊕ List Char × List Char

/-- `LogFormatter` with the pattern it was made from. -/
structure PatternFormatter extends LogFormatter where
  pattern : List Char
  error : Bool

namespace PatternFormatter

/-- A character that ends the name of an item. -/
def endsName (c : Char) : Bool :=
  !c.isAlpha && c != '{' && c != '}'

/-- `fmt_status`, `str`, `fmt` and the pattern from `n` on. -/
structure ItemScan where
  fmtStatus : Bool
  str : List Char
  fmt : List Char
  rest : List Char
deriving DecidableEq

/-- The inner loop. -/
def scanItem (fmtStatus : Bool) (str fmt : List Char) : List Char → ItemScan
  | [] => ⟨fmtStatus, str, fmt, []⟩
  | c :: rest =>
      if !fmtStatus && endsName c then ⟨false, str, fmt, c :: rest⟩
      else if fmtStatus = false then
        if c = '{' then scanItem true str [] rest
        else scanItem false (str ++ [c]) fmt rest
      else
        if c = '}' then ⟨false, str, fmt, rest⟩
        else scanItem true str (fmt ++ [c]) rest

theorem scanItem_rest_length (fmtStatus : Bool) (str fmt rest : List Char) :
    (scanItem fmtStatus str fmt rest).rest.length ≤ rest.length := by
  induction rest generalizing fmtStatus str fmt with
  | nil => exact Nat.le_refl _
  | cons c rest ih =>
      rw [scanItem]
      split_ifs
      · exact Nat.le_refl _
      · exact Nat.le_succ_of_le (ih _ _ _)
      · exact Nat.le_succ_of_le (ih _ _ _)
      · exact Nat.le_succ _
      · exact Nat.le_succ_of_le (ih _ _ _)

/-- The outer loop: what it pushes to `vec`, and whether it sets `m_error`. -/
def scan (nstr : List Char) : List Char → List Piece × Bool
  | [] => (closeRun nstr, false)
  | c :: rest =>
      if c ≠ '%' then scan (nstr ++ [c]) rest
      else if rest.head? = some '%' then scan (nstr ++ ['%']) rest
      else
        let item := scanItem false [] [] rest
        if item.fmtStatus = false then
          let (vec, error) := scan [] item.rest
          (closeRun nstr ++ .inr (item.str, item.fmt) :: vec, error)
        else
          let (vec, _) := scan nstr rest
          (.inl "<Pattern Error>".toList :: vec, true)
termination_by rest => rest.length
decreasing_by
  · exact Nat.lt_succ_self _
  · exact Nat.lt_succ_self _
  · exact Nat.lt_succ_of_le (scanItem_rest_length false [] [] rest)
  · exact Nat.lt_succ_self _

/-- The item of an entry of `vec`. -/
def formatItem : Piece → FormatItem
  | .inl str => .string str
  | .inr (str, fmt) =>
      match formatItems.lookup str with
      | none => .string ("<<error_format %".toList ++ str ++ ">>".toList)
      | some item => item fmt

/-- An item that is not in the map. -/
def unknown : Piece → Bool
  | .inl _ => false
  | .inr (str, _) => (formatItems.lookup str).isNone

/-- `init`. -/
def init (f : PatternFormatter) : PatternFormatter :=
  let (vec, error) := scan [] f.pattern
  { f with
    items := f.items ++ vec.map formatItem
    error := f.error || error || vec.any unknown }

/-- `LogFormatter(pattern)`, where `memory` is in the place of `m_error`. -/
def new (memory : Bool) (pattern : List Char) : PatternFormatter :=
  init { items := [], pattern := pattern, error := memory }

/-- `isError`. -/
def isError (f : PatternFormatter) : Bool :=
  f.error

end PatternFormatter

/-! ## Segments -/

/-- The letters of the items. -/
inductive Letter
  | m | p | r | c | t | n | d | f | l | T | F | N
deriving DecidableEq

namespace Letter

/-- The letter in a pattern. -/
def char : Letter → Char
  | m => 'm'
  | p => 'p'
  | r => 'r'
  | c => 'c'
  | t => 't'
  | n => 'n'
  | d => 'd'
  | f => 'f'
  | l => 'l'
  | T => 'T'
  | F => 'F'
  | N => 'N'

/-- The item of the class of a letter, made with a format. -/
def item (format : List Char) : Letter → FormatItem
  | m => .message
  | p => .level
  | r => .elapse
  | c => .name
  | t => .threadId
  | n => .newLine
  | d => dateTimeFormatItem format
  | f => .fileName
  | l => .line
  | T => .tab
  | F => .fibreId
  | N => .threadName

theorem char_isAlpha (x : Letter) : x.char.isAlpha = true := by
  cases x <;> rfl

theorem char_ne_percent (x : Letter) : x.char ≠ '%' := by
  cases x <;> exact ne_of_beq_false rfl

theorem char_ne_brace (x : Letter) : x.char ≠ '{' := by
  cases x <;> exact ne_of_beq_false rfl

theorem char_injective : Function.Injective char := by
  intro x y h
  cases x <;> cases y <;> first | rfl | exact absurd h (ne_of_beq_false rfl)

theorem lookup_char (x : Letter) :
    formatItems.lookup [x.char] = some fun format => x.item format := by
  cases x <;> rfl

/-- Only the letters are in the map. -/
theorem exists_of_lookup {str : List Char} {item : List Char → FormatItem}
    (h : formatItems.lookup str = some item) : ∃ x : Letter, str = [x.char] := by
  obtain ⟨before, after, hmap, _⟩ := List.lookup_eq_some_iff.mp h
  have hmem : str ∈ formatItems.map Prod.fst := by
    rw [hmap]
    simp
  simp only [formatItems, List.map_cons, List.map_nil, List.mem_cons, List.not_mem_nil,
    or_false] at hmem
  obtain rfl | rfl | rfl | rfl | rfl | rfl | rfl | rfl | rfl | rfl | rfl | rfl := hmem
  exacts [⟨m, rfl⟩, ⟨p, rfl⟩, ⟨r, rfl⟩, ⟨c, rfl⟩, ⟨t, rfl⟩, ⟨n, rfl⟩, ⟨d, rfl⟩, ⟨f, rfl⟩,
    ⟨l, rfl⟩, ⟨T, rfl⟩, ⟨F, rfl⟩, ⟨N, rfl⟩]

end Letter

/-- A segment of a pattern. -/
inductive Segment
  | literal (text : List Char)
  /-- `%%`, which means a percent sign. -/
  | escape
  /-- A '%' directly before another one, which the code copies. -/
  | pass
  | item (x : Letter)
  | braced (x : Letter) (format : List Char)
deriving DecidableEq

namespace Segment

/-- The segment in a pattern. -/
def text : Segment → List Char
  | literal text => text
  | escape => ['%', '%']
  | pass => ['%']
  | item x => ['%', x.char]
  | braced x format => '%' :: x.char :: '{' :: (format ++ ['}'])

/-- A text or an item. -/
def meaning : Segment → List Char ⊕ FormatItem
  | literal text => .inl text
  | escape => .inl ['%']
  | pass => .inl ['%']
  | item x => .inr (x.item [])
  | braced x format => .inr (x.item format)

/-- What the segment writes. -/
def render (strftime : List Char → UInt64 → List Char) (logger : List Char) (level : Level)
    (event : LogEvent) (s : Segment) : List Char :=
  Sum.elim id (FormatItem.format strftime logger level event) s.meaning

end Segment

/-- The pattern of a sequence of segments. -/
def spelled (segments : List Segment) : List Char :=
  segments.flatMap Segment.text

/-- The segments can be told apart: literals are free of '%', an item without a format is
at the end or before a character that ends its name, and a format is free of '}'. -/
def WellFormed : List Segment → Prop
  | [] => True
  | .literal text :: rest => '%' ∉ text ∧ WellFormed rest
  | .escape :: rest => WellFormed rest
  | .pass :: rest => (spelled rest).head? = some '%' ∧ WellFormed rest
  | .item _ :: rest =>
      (spelled rest).head?.all PatternFormatter.endsName = true ∧ WellFormed rest
  | .braced _ format :: rest => '}' ∉ format ∧ WellFormed rest

instance wellFormedDecidable : ∀ segments, Decidable (WellFormed segments)
  | [] => isTrue trivial
  | .literal text :: rest =>
      have := wellFormedDecidable rest
      inferInstanceAs (Decidable ('%' ∉ text ∧ WellFormed rest))
  | .escape :: rest => wellFormedDecidable rest
  | .pass :: rest =>
      have := wellFormedDecidable rest
      inferInstanceAs (Decidable ((spelled rest).head? = some '%' ∧ WellFormed rest))
  | .item _ :: rest =>
      have := wellFormedDecidable rest
      inferInstanceAs (Decidable
        ((spelled rest).head?.all PatternFormatter.endsName = true ∧ WellFormed rest))
  | .braced _ format :: rest =>
      have := wellFormedDecidable rest
      inferInstanceAs (Decidable ('}' ∉ format ∧ WellFormed rest))

/-- One text for each maximal run of text and one item for each item. -/
def itemsOf (segments : List Segment) : List FormatItem :=
  (joinRuns (segments.map Segment.meaning)).map (Sum.elim .string id)

/-- The pattern is made of literals, escapes and items. -/
def Valid (pattern : List Char) : Prop :=
  ∃ segments, WellFormed segments ∧ .pass ∉ segments ∧ spelled segments = pattern

/-- The pattern is made of literals, items, and '%' directly before another one. -/
def Accepted (pattern : List Char) : Prop :=
  ∃ segments, WellFormed segments ∧ .escape ∉ segments ∧ spelled segments = pattern

/-- The pattern is made of literals and items. -/
def Plain (pattern : List Char) : Prop :=
  ∃ segments, WellFormed segments ∧ (.pass ∉ segments ∧ .escape ∉ segments) ∧
    spelled segments = pattern

namespace PatternFormatter

@[simp] theorem spelled_nil : spelled [] = [] :=
  rfl

@[simp] theorem spelled_cons (s : Segment) (rest : List Segment) :
    spelled (s :: rest) = s.text ++ spelled rest :=
  List.flatMap_cons

/-! ## The inner loop -/

/-- A format goes to its closing brace. -/
theorem scanItem_format (str fmt format rest : List Char) (h : '}' ∉ format) :
    scanItem true str fmt (format ++ '}' :: rest) = ⟨false, str, fmt ++ format, rest⟩ := by
  induction format generalizing fmt with
  | nil => simp [scanItem]
  | cons c format ih =>
      have hc := List.ne_of_not_mem_cons h
      have hrest := List.not_mem_of_not_mem_cons h
      rw [List.cons_append, scanItem]
      simp only [Bool.not_true, Bool.false_and, Bool.false_eq_true, if_false, reduceCtorEq,
        if_neg (Ne.symm hc)]
      rw [ih (fmt ++ [c]) hrest, List.append_assoc, List.singleton_append]

theorem endsName_char (x : Letter) : endsName x.char = false := by
  simp [endsName, x.char_isAlpha]

theorem scanItem_letter (x : Letter) (rest : List Char) :
    scanItem false [] [] (x.char :: rest) = scanItem false [x.char] [] rest := by
  rw [scanItem]
  simp [endsName_char, x.char_ne_brace]

theorem scanItem_item (x : Letter) (rest : List Char)
    (h : rest.head?.all endsName = true) :
    scanItem false [] [] (x.char :: rest) = ⟨false, [x.char], [], rest⟩ := by
  rw [scanItem_letter]
  cases rest with
  | nil => rfl
  | cons c rest =>
      have hc : endsName c = true := h
      rw [scanItem]
      simp [hc]

theorem scanItem_braced (x : Letter) (format rest : List Char) (h : '}' ∉ format) :
    scanItem false [] [] (x.char :: '{' :: (format ++ '}' :: rest)) =
      ⟨false, [x.char], format, rest⟩ := by
  have hbrace : endsName '{' = false := rfl
  rw [scanItem_letter, scanItem]
  simp only [hbrace, Bool.and_false, Bool.false_eq_true, if_false, if_true]
  exact scanItem_format [x.char] [] format rest h

/-- What was read where the format was closed. -/
theorem scanItem_true_closed {str fmt rest : List Char}
    (h : (scanItem true str fmt rest).fmtStatus = false) :
    ∃ format, '}' ∉ format ∧
      rest = format ++ '}' :: (scanItem true str fmt rest).rest ∧
      (scanItem true str fmt rest).str = str ∧
      (scanItem true str fmt rest).fmt = fmt ++ format := by
  induction rest generalizing fmt with
  | nil => exact absurd h (by simp [scanItem])
  | cons c rest ih =>
      by_cases hc : c = '}'
      · have heq : scanItem true str fmt (c :: rest) = ⟨false, str, fmt, rest⟩ := by
          simp [scanItem, hc]
        rw [heq]
        exact ⟨[], List.not_mem_nil, by rw [hc, List.nil_append], rfl,
          (List.append_nil fmt).symm⟩
      · have heq : scanItem true str fmt (c :: rest) = scanItem true str (fmt ++ [c]) rest := by
          simp [scanItem, hc]
        rw [heq] at h ⊢
        obtain ⟨format, hformat, hrest, hstr, hfmt⟩ := ih h
        refine ⟨c :: format, ?_, ?_, hstr, ?_⟩
        · exact List.not_mem_cons_of_ne_of_not_mem (Ne.symm hc) hformat
        · rw [List.cons_append, ← hrest]
        · rw [hfmt, List.append_assoc, List.singleton_append]

/-- What was read as an item: a name, and behind it the end of the name or a format. -/
theorem scanItem_false_closed {str rest : List Char}
    (h : (scanItem false str [] rest).fmtStatus = false) :
    ∃ name, (scanItem false str [] rest).str = str ++ name ∧
      ((rest = name ++ (scanItem false str [] rest).rest ∧
          (scanItem false str [] rest).rest.head?.all endsName = true ∧
          (scanItem false str [] rest).fmt = []) ∨
        ('}' ∉ (scanItem false str [] rest).fmt ∧
          rest = name ++ '{' :: ((scanItem false str [] rest).fmt ++
            '}' :: (scanItem false str [] rest).rest))) := by
  induction rest generalizing str with
  | nil => exact ⟨[], (List.append_nil str).symm, .inl ⟨rfl, rfl, rfl⟩⟩
  | cons c rest ih =>
      by_cases hend : endsName c = true
      · have heq : scanItem false str [] (c :: rest) = ⟨false, str, [], c :: rest⟩ := by
          simp [scanItem, hend]
        rw [heq]
        exact ⟨[], (List.append_nil str).symm, .inl ⟨rfl, hend, rfl⟩⟩
      · by_cases hbrace : c = '{'
        · have heq : scanItem false str [] (c :: rest) = scanItem true str [] rest := by
            subst hbrace
            rw [scanItem]
            simp [hend]
          rw [heq] at h ⊢
          obtain ⟨format, hformat, hrest, hstr, hfmt⟩ := scanItem_true_closed h
          rw [List.nil_append] at hfmt
          refine ⟨[], by rw [hstr, List.append_nil], .inr ?_⟩
          rw [hfmt]
          exact ⟨hformat, by rw [List.nil_append, hbrace, ← hrest]⟩
        · have heq : scanItem false str [] (c :: rest) =
              scanItem false (str ++ [c]) [] rest := by
            rw [scanItem]
            simp [hend, hbrace]
          rw [heq] at h ⊢
          obtain ⟨name, hname, hread⟩ := ih h
          refine ⟨c :: name, ?_, ?_⟩
          · rw [hname, List.append_assoc, List.singleton_append]
          · rcases hread with ⟨hrest, hstops, hfmt⟩ | ⟨hformat, hrest⟩
            · exact .inl ⟨by rw [List.cons_append, ← hrest], hstops, hfmt⟩
            · exact .inr ⟨hformat, by rw [List.cons_append, ← hrest]⟩

/-! ## The outer loop -/

theorem scan_nil (nstr : List Char) : scan nstr [] = (closeRun nstr, false) := by
  rw [scan]

theorem scan_char {c : Char} (hc : c ≠ '%') (nstr rest : List Char) :
    scan nstr (c :: rest) = scan (nstr ++ [c]) rest := by
  rw [scan, if_pos hc]

theorem scan_pass {rest : List Char} (h : rest.head? = some '%') (nstr : List Char) :
    scan nstr ('%' :: rest) = scan (nstr ++ ['%']) rest := by
  rw [scan, if_neg (not_not_intro rfl), if_pos h]

theorem scan_item {rest : List Char} (h : rest.head? ≠ some '%') (nstr : List Char) :
    scan nstr ('%' :: rest) =
      let item := scanItem false [] [] rest
      if item.fmtStatus = false then
        (closeRun nstr ++ .inr (item.str, item.fmt) :: (scan [] item.rest).1,
          (scan [] item.rest).2)
      else (.inl "<Pattern Error>".toList :: (scan nstr rest).1, true) := by
  rw [scan, if_neg (not_not_intro rfl), if_neg h]

theorem scan_literal (text nstr rest : List Char) (h : '%' ∉ text) :
    scan nstr (text ++ rest) = scan (nstr ++ text) rest := by
  induction text generalizing nstr with
  | nil => rw [List.nil_append, List.append_nil]
  | cons c text ih =>
      rw [List.cons_append, scan_char (Ne.symm (List.ne_of_not_mem_cons h)),
        ih (nstr ++ [c]) (List.not_mem_of_not_mem_cons h), List.append_assoc,
        List.singleton_append]

/-- What a segment is in `vec`. -/
def piece : Segment → Piece
  | .literal text => .inl text
  | .escape => .inl ['%']
  | .pass => .inl ['%']
  | .item x => .inr ([x.char], [])
  | .braced x format => .inr ([x.char], format)

/-- **Reading.**  Of segments without escapes the code finds the items and the maximal runs
of text, where the run that is open goes on. -/
theorem scan_reading (segments : List Segment) (h : WellFormed segments)
    (hescape : .escape ∉ segments) (nstr : List Char) :
    scan nstr (spelled segments) = (joinRuns (.inl nstr :: segments.map piece), false) := by
  induction segments generalizing nstr with
  | nil => rw [spelled_nil, scan_nil, List.map_nil, joinRuns_text_nil]
  | cons s rest ih =>
      have hrest := List.not_mem_of_not_mem_cons hescape
      rw [spelled_cons, List.map_cons]
      cases s with
      | literal text =>
          rw [piece, joinRuns_text_text]
          exact (scan_literal text nstr _ h.1).trans (ih h.2 hrest (nstr ++ text))
      | escape => exact absurd List.mem_cons_self hescape
      | pass =>
          rw [piece, joinRuns_text_text]
          exact (scan_pass h.1 nstr).trans (ih h.2 hrest (nstr ++ ['%']))
      | item x =>
          have hx : (x.char :: spelled rest).head? ≠ some '%' := by
            simp [x.char_ne_percent]
          have hread := scanItem_item x (spelled rest) h.1
          rw [piece, joinRuns_text_symbol]
          refine (scan_item hx nstr).trans ?_
          simp only [hread, if_true, ih h.2 hrest [], joinRuns_nil_text]
      | braced x format =>
          have hx : (x.char :: '{' :: (format ++ '}' :: spelled rest)).head? ≠ some '%' := by
            simp [x.char_ne_percent]
          have hread := scanItem_braced x format (spelled rest) h.1
          have htext : (Segment.braced x format).text ++ spelled rest =
              '%' :: x.char :: '{' :: (format ++ '}' :: spelled rest) := by
            simp [Segment.text]
          rw [piece, joinRuns_text_symbol, htext, scan_item hx nstr]
          simp only [hread, if_true, ih h.2 hrest [], joinRuns_nil_text]

theorem formatItem_piece (s : Segment) :
    Sum.map id (fun p => formatItem (.inr p)) (piece s) = s.meaning := by
  cases s with
  | item x => simp [piece, formatItem, x.lookup_char, Segment.meaning]
  | braced x format => simp [piece, formatItem, x.lookup_char, Segment.meaning]
  | _ => rfl

/-- The items that are made from the entries of the segments. -/
theorem map_formatItem_joinRuns (segments : List Segment) :
    (joinRuns (segments.map piece)).map formatItem = itemsOf segments := by
  have hmeaning : segments.map Segment.meaning =
      (segments.map piece).map (Sum.map id fun p => formatItem (.inr p)) := by
    rw [List.map_map]
    exact List.map_congr_left fun s _ => (formatItem_piece s).symm
  rw [itemsOf, hmeaning, joinRuns_map, List.map_map]
  refine List.map_congr_left fun p _ => ?_
  cases p with
  | inl text => rfl
  | inr p => rfl

theorem scan_spelled (segments : List Segment) (h : WellFormed segments)
    (hescape : .escape ∉ segments) :
    scan [] (spelled segments) = (joinRuns (segments.map piece), false) := by
  rw [scan_reading segments h hescape, joinRuns_nil_text]

/-- The items of a pattern that the code can read. -/
theorem new_items (memory : Bool) (segments : List Segment) (h : WellFormed segments)
    (hescape : .escape ∉ segments) :
    (new memory (spelled segments)).items = itemsOf segments := by
  simp only [new, init, scan_spelled segments h hescape, List.nil_append]
  exact map_formatItem_joinRuns segments

/-! ## The flag -/

theorem unknown_piece {segments : List Segment} :
    (joinRuns (segments.map piece)).any unknown = false := by
  rw [List.any_eq_false]
  intro p hp
  cases p with
  | inl text => simp [unknown]
  | inr p =>
      rw [mem_joinRuns_symbol, List.mem_map] at hp
      obtain ⟨s, _, hs⟩ := hp
      cases s with
      | item x =>
          obtain rfl := Sum.inr.inj hs
          simp [unknown, x.lookup_char]
      | braced x format =>
          obtain rfl := Sum.inr.inj hs
          simp [unknown, x.lookup_char]
      | literal _ => cases hs
      | escape => cases hs
      | pass => cases hs

/-- A pattern that goes on with a character of a literal. -/
theorem accepted_char {c : Char} {rest : List Char} (hc : c ≠ '%') (h : Accepted rest) :
    Accepted (c :: rest) := by
  obtain ⟨segments, hwell, hescape, rfl⟩ := h
  refine ⟨.literal [c] :: segments, ⟨?_, hwell⟩, ?_, rfl⟩
  · simpa using Ne.symm hc
  · simpa using hescape

theorem accepted_pass {rest : List Char} (hrest : rest.head? = some '%')
    (h : Accepted rest) : Accepted ('%' :: rest) := by
  obtain ⟨segments, hwell, hescape, rfl⟩ := h
  exact ⟨.pass :: segments, ⟨hrest, hwell⟩, by simpa using hescape, rfl⟩

theorem accepted_item (x : Letter) {rest : List Char}
    (hrest : rest.head?.all endsName = true) (h : Accepted rest) :
    Accepted ('%' :: x.char :: rest) := by
  obtain ⟨segments, hwell, hescape, rfl⟩ := h
  exact ⟨.item x :: segments, ⟨hrest, hwell⟩, by simpa using hescape, rfl⟩

theorem accepted_braced (x : Letter) {format rest : List Char} (hformat : '}' ∉ format)
    (h : Accepted rest) :
    Accepted ('%' :: x.char :: '{' :: (format ++ '}' :: rest)) := by
  obtain ⟨segments, hwell, hescape, rfl⟩ := h
  exact ⟨.braced x format :: segments, ⟨hformat, hwell⟩, by simpa using hescape,
    by simp [Segment.text]⟩

/-- An item that is in the map. -/
theorem exists_of_known {str fmt : List Char} (h : unknown (.inr (str, fmt)) = false) :
    ∃ x : Letter, str = [x.char] := by
  simp only [unknown, Option.isNone_eq_false_iff] at h
  obtain ⟨item, hitem⟩ := Option.isSome_iff_exists.mp h
  exact Letter.exists_of_lookup hitem

/-- Where nothing raises the flag the code has read the pattern. -/
theorem accepted_of_scan (nstr pattern : List Char) (herror : (scan nstr pattern).2 = false)
    (hknown : (scan nstr pattern).1.any unknown = false) : Accepted pattern := by
  induction hn : pattern.length using Nat.strong_induction_on generalizing nstr pattern with
  | _ n ih =>
  cases pattern with
  | nil => exact ⟨[], trivial, List.not_mem_nil, rfl⟩
  | cons c rest =>
      have hlt : rest.length < n := by
        rw [← hn]
        exact Nat.lt_succ_self _
      by_cases hc : c = '%'
      · subst hc
        by_cases hpass : rest.head? = some '%'
        · rw [scan_pass hpass] at herror hknown
          exact accepted_pass hpass (ih _ hlt _ _ herror hknown rfl)
        · rw [scan_item hpass] at herror hknown
          have hclosed : (scanItem false [] [] rest).fmtStatus = false := by
            by_contra hopen
            simp [hopen] at herror
          simp only [if_pos hclosed, List.any_append, List.any_cons, Bool.or_eq_false_iff]
            at herror hknown
          obtain ⟨x, hx⟩ := exists_of_known hknown.2.1
          obtain ⟨name, hname, hread⟩ := scanItem_false_closed hclosed
          obtain rfl : name = [x.char] := by rw [← hx, hname, List.nil_append]
          have hshort := scanItem_rest_length false [] [] rest
          have hrest := ih _ (Nat.lt_of_le_of_lt hshort hlt) _ _ herror hknown.2.2 rfl
          rcases hread with ⟨htext, hstops, _⟩ | ⟨hformat, htext⟩
          · rw [htext]
            exact accepted_item x hstops hrest
          · rw [htext]
            exact accepted_braced x hformat hrest
      · rw [scan_char hc] at herror hknown
        exact accepted_char hc (ih _ hlt _ _ herror hknown rfl)

/-- **The flag.**  It is up iff it was up in memory or the code cannot read the pattern. -/
theorem isError_iff (memory : Bool) (pattern : List Char) :
    (new memory pattern).isError = true ↔ memory = true ∨ ¬ Accepted pattern := by
  have hflag : (new memory pattern).isError =
      (memory || (scan [] pattern).2 || (scan [] pattern).1.any unknown) := rfl
  constructor
  · intro herror
    by_contra hno
    rw [not_or, not_not, Bool.not_eq_true] at hno
    obtain ⟨hmemory, segments, hwell, hescape, rfl⟩ := hno
    rw [hflag, hmemory, scan_spelled segments hwell hescape, unknown_piece] at herror
    simp at herror
  · rintro (hmemory | hno)
    · rw [hflag, hmemory, Bool.true_or, Bool.true_or]
    · by_contra herror
      rw [hflag, Bool.not_eq_true, Bool.or_eq_false_iff, Bool.or_eq_false_iff] at herror
      exact hno (accepted_of_scan [] pattern herror.1.2 herror.2)

end PatternFormatter

open PatternFormatter

/-- **Patterns without percent escapes.**  For every sequence of literals and items that can
be told apart, whatever is in the memory of the flag, the parser makes one text for each
maximal run of literals and one item of the class of each letter, with the format in the
braces, in order. -/
theorem init_items (memory : Bool) (segments : List Segment) (h : WellFormed segments)
    (hplain : .pass ∉ segments ∧ .escape ∉ segments) :
    (new memory (spelled segments)).items = itemsOf segments ∧
      Maximal (joinRuns (segments.map Segment.meaning)) :=
  ⟨new_items memory segments h hplain.2, joinRuns_maximal _⟩

/-- A text, a time with a format, and the message. -/
theorem init_items_time :
    (new false ['a', 't', ' ', '%', 'd', '{', '%', 'H', '}', '%', 'm']).items =
      [.string ['a', 't', ' '], .dateTime ['%', 'H'], .message] :=
  (init_items false [.literal ['a', 't', ' '], .braced .d ['%', 'H'], .item .m]
    (by decide) (by decide)).1

end Logging
end Hpgs
