import Hpgs.Logging.LogPattern

/-!
# Percent escapes in patterns

The escape `%%` is read as a '%' that is copied and a '%' that begins an item.  A pattern
with escapes has two readings then, the one that is meant and the one of the code, and the
code is right about the pattern only if both are one.  They part at the first escape, and
an event that has no percent signs and no letters of items shows it: in the text of the
meant reading half of the percent signs are left, and in that of the code all but one.

**Results.**
* `new_format`: a pattern that the code can read writes what its segments write.
* `same_or_part`: two readings are the same up to an escape.
* `marked_ne_of_part`: from there on they write different texts.
* `escapes_right_iff`: the flag and the text are those of the escapes iff there are none.
-/

namespace Hpgs
namespace Logging

open Runs

namespace PatternFormatter

/-! ## The text -/

section Render

variable (strftime : List Char → UInt64 → List Char) (logger : List Char) (level : Level)
  (event : LogEvent)

/-- What the segments write. -/
def rendered (segments : List Segment) : List Char :=
  segments.flatMap (Segment.render strftime logger level event)

@[simp] theorem rendered_cons (s : Segment) (rest : List Segment) :
    rendered strftime logger level event (s :: rest) =
      s.render strftime logger level event ++ rendered strftime logger level event rest :=
  List.flatMap_cons

/-- The items of the segments write what the segments write. -/
theorem format_itemsOf (segments : List Segment) :
    (LogFormatter.mk (itemsOf segments)).format strftime logger level event =
      rendered strftime logger level event segments := by
  have hitem : ∀ p : List Char ⊕ FormatItem,
      FormatItem.format strftime logger level event (Sum.elim .string id p) =
        Sum.elim id (FormatItem.format strftime logger level event) p := by
    intro p
    cases p with
    | inl text => rfl
    | inr item => rfl
  simp only [LogFormatter.format, itemsOf, List.flatMap_map, hitem]
  rw [joinRuns_flatMap, List.flatMap_map]
  rfl

theorem new_format (memory : Bool) (segments : List Segment) (h : WellFormed segments)
    (hescape : .escape ∉ segments) :
    (new memory (spelled segments)).format strftime logger level event =
      rendered strftime logger level event segments := by
  rw [LogFormatter.format, new_items memory segments h hescape]
  exact format_itemsOf strftime logger level event segments

end Render

/-- The flag says whether the pattern is valid, and a valid pattern writes what its segments
write, an escape one percent sign. -/
def EscapesRight (memory : Bool) (pattern : List Char) : Prop :=
  ((new memory pattern).isError = true ↔ ¬ Valid pattern) ∧
    ∀ segments, WellFormed segments → .pass ∉ segments → spelled segments = pattern →
      ∀ strftime logger level event,
        (new memory pattern).format strftime logger level event =
          rendered strftime logger level event segments

/-! ## Literals of one character -/

/-- A literal one character at a time. -/
def atoms : Segment → List Segment
  | .literal text => text.map fun c => .literal [c]
  | s => [s]

/-- Every literal has one character. -/
def Atomic (segments : List Segment) : Prop :=
  ∀ text, .literal text ∈ segments → ∃ c, text = [c]

theorem atomic_atoms (segments : List Segment) : Atomic (segments.flatMap atoms) := by
  intro text htext
  obtain ⟨s, _, hs⟩ := List.mem_flatMap.mp htext
  cases s with
  | literal text' =>
      obtain ⟨c, _, hc⟩ := List.mem_map.mp hs
      exact ⟨c, (Segment.literal.inj hc).symm⟩
  | _ => simp [atoms] at hs

/-- The other segments stay as they are. -/
theorem mem_atoms {s : Segment} (hs : ∀ text, s ≠ .literal text) (segments : List Segment) :
    s ∈ segments.flatMap atoms ↔ s ∈ segments := by
  have hone : ∀ s', s ∈ atoms s' ↔ s = s' := by
    intro s'
    cases s' with
    | literal text =>
        refine iff_of_false ?_ (hs text)
        rw [atoms, List.mem_map]
        rintro ⟨c, _, hc⟩
        exact hs [c] hc.symm
    | _ => simp [atoms]
  simp [List.mem_flatMap, hone]

theorem spelled_append (segments rest : List Segment) :
    spelled (segments ++ rest) = spelled segments ++ spelled rest :=
  List.flatMap_append

theorem spelled_atoms (segments : List Segment) :
    spelled (segments.flatMap atoms) = spelled segments := by
  have hone : ∀ s, spelled (atoms s) = s.text := by
    intro s
    cases s with
    | literal text => simp [atoms, spelled, List.flatMap_map, Segment.text]
    | _ => simp [atoms, spelled]
  simp only [spelled] at hone ⊢
  rw [List.flatMap_assoc]
  simp only [hone]

theorem rendered_atoms (strftime : List Char → UInt64 → List Char) (logger : List Char)
    (level : Level) (event : LogEvent) (segments : List Segment) :
    rendered strftime logger level event (segments.flatMap atoms) =
      rendered strftime logger level event segments := by
  have hone : ∀ s, rendered strftime logger level event (atoms s) =
      s.render strftime logger level event := by
    intro s
    cases s with
    | literal text =>
        simp [atoms, rendered, List.flatMap_map, Segment.render, Segment.meaning]
    | _ => simp [atoms, rendered]
  simp only [rendered] at hone ⊢
  rw [List.flatMap_assoc]
  simp only [hone]

theorem wellFormed_atoms {segments : List Segment} (h : WellFormed segments) :
    WellFormed (segments.flatMap atoms) := by
  induction segments with
  | nil => exact trivial
  | cons s rest ih =>
      have hhead : (spelled (rest.flatMap atoms)).head? = (spelled rest).head? := by
        rw [spelled_atoms]
      rw [List.flatMap_cons]
      cases s with
      | literal text =>
          obtain ⟨htext, hrest⟩ := h
          have hwell := ih hrest
          clear ih hhead
          induction text with
          | nil => exact hwell
          | cons c text ih =>
              refine ⟨?_, ih (List.not_mem_of_not_mem_cons htext)⟩
              simpa using List.ne_of_not_mem_cons htext
      | escape => exact ih h
      | pass => exact ⟨hhead.trans h.1, ih h.2⟩
      | item x => exact ⟨hhead ▸ h.1, ih h.2⟩
      | braced x format => exact ⟨h.1, ih h.2⟩

theorem wellFormed_of_append (before : List Segment) {after : List Segment}
    (h : WellFormed (before ++ after)) : WellFormed after := by
  induction before with
  | nil => exact h
  | cons s before ih =>
      cases s with
      | escape => exact ih h
      | literal text => exact ih h.2
      | pass => exact ih h.2
      | item x => exact ih h.2
      | braced x format => exact ih h.2

/-- The text of an item does not end in the middle of another one. -/
theorem format_unique {format format' rest rest' : List Char} (h : '}' ∉ format)
    (h' : '}' ∉ format') (heq : format ++ '}' :: rest = format' ++ '}' :: rest') :
    format = format' ∧ rest = rest' := by
  induction format generalizing format' with
  | nil =>
      cases format' with
      | nil => exact ⟨rfl, (List.cons.inj heq).2⟩
      | cons c format' =>
          exact absurd (List.cons.inj heq).1 (List.ne_of_not_mem_cons h')
  | cons c format ih =>
      cases format' with
      | nil => exact absurd (List.cons.inj heq).1.symm (List.ne_of_not_mem_cons h)
      | cons c' format' =>
          obtain ⟨rfl, htail⟩ := List.cons.inj heq
          obtain ⟨rfl, hrest⟩ := ih (List.not_mem_of_not_mem_cons h)
            (List.not_mem_of_not_mem_cons h') htail
          exact ⟨rfl, hrest⟩

/-! ## Two readings of one pattern -/

/-- What ends a name is not the brace of a format. -/
theorem ne_brace_of_ends {rest tail : List Char} (h : rest.head?.all endsName = true) :
    rest ≠ '{' :: tail := by
  rintro rfl
  exact Bool.false_ne_true h

section First

variable {s : Segment} {rest : List Segment} {tail : List Char}

/-- A literal is first. -/
theorem first_literal {c : Char} (hatomic : Atomic (s :: rest)) (hc : c ≠ '%')
    (heq : spelled (s :: rest) = c :: tail) : s = .literal [c] ∧ spelled rest = tail := by
  rw [spelled_cons] at heq
  cases s with
  | literal text =>
      obtain ⟨d, rfl⟩ := hatomic text List.mem_cons_self
      obtain ⟨rfl, htail⟩ := List.cons.inj heq
      exact ⟨rfl, htail⟩
  | escape => exact absurd (List.cons.inj heq).1.symm hc
  | pass => exact absurd (List.cons.inj heq).1.symm hc
  | item x => exact absurd (List.cons.inj heq).1.symm hc
  | braced x format => exact absurd (List.cons.inj heq).1.symm hc

/-- No literal is first. -/
theorem not_literal_first {text : List Char} (hwell : WellFormed (.literal text :: rest))
    (hatomic : Atomic (.literal text :: rest)) :
    spelled (.literal text :: rest) ≠ '%' :: tail := by
  intro heq
  obtain ⟨d, rfl⟩ := hatomic text List.mem_cons_self
  rw [spelled_cons] at heq
  exact hwell.1 (List.mem_singleton.mpr (List.cons.inj heq).1.symm)

/-- Two percent signs are first. -/
theorem first_pass (hwell : WellFormed (s :: rest)) (hatomic : Atomic (s :: rest))
    (hescape : s ≠ .escape) (heq : spelled (s :: rest) = '%' :: '%' :: tail) :
    s = .pass ∧ spelled rest = '%' :: tail := by
  cases s with
  | literal text => exact absurd heq (not_literal_first hwell hatomic)
  | escape => exact absurd rfl hescape
  | pass =>
      rw [spelled_cons] at heq
      exact ⟨rfl, (List.cons.inj heq).2⟩
  | item x =>
      rw [spelled_cons] at heq
      exact absurd (List.cons.inj (List.cons.inj heq).2).1 x.char_ne_percent
  | braced x format =>
      rw [spelled_cons] at heq
      exact absurd (List.cons.inj (List.cons.inj heq).2).1 x.char_ne_percent

/-- A letter follows the percent sign. -/
theorem first_letter {x : Letter} (hwell : WellFormed (s :: rest))
    (hatomic : Atomic (s :: rest)) (heq : spelled (s :: rest) = '%' :: x.char :: tail) :
    (s = .item x ∧ spelled rest = tail) ∨
      ∃ format, s = .braced x format ∧ '{' :: (format ++ '}' :: spelled rest) = tail := by
  cases s with
  | literal text => exact absurd heq (not_literal_first hwell hatomic)
  | escape =>
      rw [spelled_cons] at heq
      exact absurd (List.cons.inj (List.cons.inj heq).2).1.symm x.char_ne_percent
  | pass =>
      rw [spelled_cons] at heq
      have htail : spelled rest = x.char :: tail := (List.cons.inj heq).2
      have hnext := hwell.1
      rw [htail, List.head?_cons] at hnext
      exact absurd (Option.some.inj hnext) x.char_ne_percent
  | item x' =>
      rw [spelled_cons] at heq
      obtain ⟨hx, htail⟩ := List.cons.inj (List.cons.inj heq).2
      obtain rfl := Letter.char_injective hx
      exact .inl ⟨rfl, htail⟩
  | braced x' format =>
      rw [spelled_cons] at heq
      obtain ⟨hx, htail⟩ := List.cons.inj (List.cons.inj heq).2
      obtain rfl := Letter.char_injective hx
      refine .inr ⟨format, rfl, ?_⟩
      rw [← htail]
      simp

end First

theorem Atomic.tail {s : Segment} {rest : List Segment} (h : Atomic (s :: rest)) :
    Atomic rest :=
  fun text htext => h text (List.mem_cons_of_mem s htext)

theorem wellFormed_tail {s : Segment} {rest : List Segment} (h : WellFormed (s :: rest)) :
    WellFormed rest :=
  wellFormed_of_append [s] h

/-- Only the empty pattern has no segments. -/
theorem Atomic.spelled_ne_nil {s : Segment} {rest : List Segment} (h : Atomic (s :: rest)) :
    spelled (s :: rest) ≠ [] := by
  rw [spelled_cons]
  cases s with
  | literal text =>
      obtain ⟨c, rfl⟩ := h text List.mem_cons_self
      exact List.cons_ne_nil _ _
  | _ => exact List.cons_ne_nil _ _

/-- Two readings are the same, or part where one has an escape and the other copies a
percent sign. -/
theorem same_or_part {segments segments' : List Segment} (h : WellFormed segments)
    (h' : WellFormed segments') (hatomic : Atomic segments) (hatomic' : Atomic segments')
    (hpass : .pass ∉ segments) (hescape : .escape ∉ segments')
    (heq : spelled segments' = spelled segments) :
    segments' = segments ∨
      ∃ before after after', segments = before ++ .escape :: after ∧
        segments' = before ++ .pass :: after' := by
  induction segments generalizing segments' with
  | nil =>
      cases segments' with
      | nil => exact .inl rfl
      | cons s' rest' => exact absurd heq hatomic'.spelled_ne_nil
  | cons s rest ih =>
      cases segments' with
      | nil => exact absurd heq.symm hatomic.spelled_ne_nil
      | cons s' rest' =>
          -- the first segments are the same
          have hsame : s' = s → spelled rest' = spelled rest →
              s' :: rest' = s :: rest ∨ ∃ before after after',
                s :: rest = before ++ .escape :: after ∧
                  s' :: rest' = before ++ .pass :: after' := by
            rintro rfl hrest
            rcases ih (wellFormed_tail h) (wellFormed_tail h') hatomic.tail hatomic'.tail
                (List.not_mem_of_not_mem_cons hpass) (List.not_mem_of_not_mem_cons hescape)
                hrest with hrest | ⟨before, after, after', hafter, hafter'⟩
            · exact .inl (by rw [hrest])
            · exact .inr ⟨s' :: before, after, after', by rw [hafter, List.cons_append],
                by rw [hafter', List.cons_append]⟩
          cases s with
          | literal text =>
              obtain ⟨c, rfl⟩ := hatomic text List.mem_cons_self
              have hc : c ≠ '%' := fun hc => h.1 (List.mem_singleton.mpr hc.symm)
              obtain ⟨hs, hrest⟩ := first_literal hatomic' hc heq
              exact hsame hs hrest
          | escape =>
              obtain ⟨rfl, _⟩ := first_pass h' hatomic'
                (Ne.symm (List.ne_of_not_mem_cons hescape)) heq
              exact .inr ⟨[], rest, rest', rfl, rfl⟩
          | pass => exact absurd List.mem_cons_self hpass
          | item x =>
              rcases first_letter h' hatomic' heq with ⟨hs, hrest⟩ | ⟨format, _, hbrace⟩
              · exact hsame hs hrest
              · have hrest : spelled rest = '{' :: (format ++ '}' :: spelled rest') :=
                  hbrace.symm
                exact absurd hrest (ne_brace_of_ends h.1)
          | braced x format =>
              have htext : spelled (.braced x format :: rest) =
                  '%' :: x.char :: '{' :: (format ++ '}' :: spelled rest) := by
                simp [Segment.text]
              rw [htext] at heq
              rcases first_letter h' hatomic' heq with ⟨rfl, hrest⟩ | ⟨format', rfl, hbrace⟩
              · exact absurd hrest (ne_brace_of_ends h'.1)
              · obtain ⟨rfl, hrest⟩ := format_unique h'.1 h.1 (List.cons.inj hbrace).2
                exact hsame rfl hrest

/-! ## An event that tells the readings apart -/

/-- The number of percent signs in front. -/
def leading : List Char → Nat
  | [] => 0
  | c :: rest => if c = '%' then leading rest + 1 else 0

theorem leading_percent (rest : List Char) : leading ('%' :: rest) = leading rest + 1 := by
  rw [leading, if_pos rfl]

theorem leading_of_ne {c : Char} (hc : c ≠ '%') (rest : List Char) :
    leading (c :: rest) = 0 := by
  rw [leading, if_neg hc]

theorem leading_letter (x : Letter) (rest : List Char) :
    leading ('%' :: x.char :: rest) = 1 := by
  rw [leading_percent, leading_of_ne x.char_ne_percent]

/-- An event whose texts are marks. -/
def marks : LogEvent where
  file := ['!']
  line := 0
  elapse := 0
  threadId := 0
  fibreId := 0
  time := 0
  threadName := ['!']
  content := ['!']

/-- What the segments write for it, where the time is a mark as well. -/
def marked (segments : List Segment) : List Char :=
  rendered (fun _ _ => ['!']) ['!'] .unknow marks segments

/-- No item writes a percent sign or its own letter first. -/
theorem item_marked (x : Letter) (format : List Char) :
    ∃ c text, (x.item format).format (fun _ _ => ['!']) ['!'] .unknow marks = c :: text ∧
      c ≠ '%' ∧ c ≠ x.char := by
  cases x <;> exact ⟨_, _, rfl, ne_of_beq_false rfl, ne_of_beq_false rfl⟩

/-- An item is written without percent signs in front. -/
theorem leading_item (x : Letter) (format rest : List Char) :
    leading ((x.item format).format (fun _ _ => ['!']) ['!'] .unknow marks ++ rest) = 0 := by
  obtain ⟨c, text, htext, hc, _⟩ := item_marked x format
  rw [htext, List.cons_append, leading_of_ne hc]

theorem leading_literal {text : List Char} {rest : List Segment}
    (h : WellFormed (.literal text :: rest)) (hatomic : Atomic (.literal text :: rest))
    (tail : List Char) : leading (text ++ tail) = 0 := by
  obtain ⟨c, rfl⟩ := hatomic text List.mem_cons_self
  exact leading_of_ne (fun hc => h.1 (List.mem_singleton.mpr hc.symm)) tail

/-- One percent sign for each two of the escapes. -/
theorem leading_marked_escape {segments : List Segment} (h : WellFormed segments)
    (hatomic : Atomic segments) (hpass : .pass ∉ segments) :
    leading (marked segments) = leading (spelled segments) / 2 := by
  induction segments with
  | nil => rfl
  | cons s rest ih =>
      have hrest := ih (wellFormed_tail h) hatomic.tail (List.not_mem_of_not_mem_cons hpass)
      rw [spelled_cons, marked, rendered_cons]
      cases s with
      | literal text =>
          rw [Segment.render, Segment.meaning, Segment.text]
          simp only [Sum.elim_inl, id_eq, leading_literal h hatomic]
      | escape =>
          have htext : leading (Segment.escape.text ++ spelled rest) =
              leading (spelled rest) + 2 := by
            simp [Segment.text, leading_percent]
          rw [htext, Nat.add_div_right _ (by decide), ← hrest]
          exact leading_percent (marked rest)
      | pass => exact absurd List.mem_cons_self hpass
      | item x =>
          have htext : leading ((Segment.item x).text ++ spelled rest) = 1 :=
            leading_letter x (spelled rest)
          rw [htext]
          exact leading_item x [] _
      | braced x format =>
          have htext : leading ((Segment.braced x format).text ++ spelled rest) = 1 :=
            leading_letter x _
          rw [htext]
          exact leading_item x format _

/-- One percent sign for each that is copied. -/
theorem leading_marked_pass {segments : List Segment} (h : WellFormed segments)
    (hatomic : Atomic segments) (hescape : .escape ∉ segments) :
    leading (marked segments) = leading (spelled segments) - 1 := by
  induction segments with
  | nil => rfl
  | cons s rest ih =>
      have hrest := ih (wellFormed_tail h) hatomic.tail (List.not_mem_of_not_mem_cons hescape)
      rw [spelled_cons, marked, rendered_cons]
      cases s with
      | literal text =>
          rw [Segment.render, Segment.meaning, Segment.text]
          simp only [Sum.elim_inl, id_eq, leading_literal h hatomic]
      | escape => exact absurd List.mem_cons_self hescape
      | pass =>
          obtain ⟨tail, htail⟩ := List.head?_eq_some_iff.mp h.1
          have htext : leading (Segment.pass.text ++ spelled rest) =
              leading (spelled rest) + 1 := leading_percent (spelled rest)
          have hpos : 0 < leading (spelled rest) := by
            rw [htail, leading_percent]
            exact Nat.succ_pos _
          rw [htext, Nat.add_sub_cancel, ← Nat.sub_add_cancel hpos, ← hrest]
          exact leading_percent (marked rest)
      | item x =>
          have htext : leading ((Segment.item x).text ++ spelled rest) = 1 :=
            leading_letter x (spelled rest)
          rw [htext]
          exact leading_item x [] _
      | braced x format =>
          have htext : leading ((Segment.braced x format).text ++ spelled rest) = 1 :=
            leading_letter x _
          rw [htext]
          exact leading_item x format _

/-- Where two readings part they write different texts. -/
theorem marked_ne_of_part {after after' : List Segment} (h : WellFormed after)
    (h' : WellFormed after') (hatomic : Atomic after) (hatomic' : Atomic after')
    (hpass : .pass ∉ after) (hescape : .escape ∉ after')
    (heq : spelled after' = '%' :: spelled after) :
    marked after ≠ marked after' := by
  intro hmarked
  have hnone : leading (spelled after) = 0 := by
    have hone := leading_marked_escape h hatomic hpass
    have htwo := leading_marked_pass h' hatomic' hescape
    rw [heq, leading_percent, Nat.add_sub_cancel] at htwo
    rw [hmarked, htwo] at hone
    omega
  -- the copied percent sign is followed by an item, the escape by its letter
  have hitem : ∀ x format tail tail', spelled after = x.char :: tail →
      marked after' =
        (Letter.item format x).format (fun _ _ => ['!']) ['!'] .unknow marks ++ tail' →
      False := by
    intro x format tail tail' hletter hwritten
    cases after with
    | nil => exact absurd hletter (List.cons_ne_nil _ _).symm
    | cons s rest =>
        obtain ⟨rfl, _⟩ := first_literal hatomic x.char_ne_percent hletter
        obtain ⟨c, text, htext, _, hc⟩ := item_marked x format
        rw [hwritten, htext] at hmarked
        exact hc (List.cons.inj hmarked).1.symm
  cases after' with
  | nil => exact absurd heq (List.cons_ne_nil _ _).symm
  | cons s rest =>
      cases s with
      | literal text => exact not_literal_first h' hatomic' heq
      | escape => exact hescape List.mem_cons_self
      | pass =>
          have hrest : spelled rest = spelled after := (List.cons.inj heq).2
          obtain ⟨tail, htail⟩ := List.head?_eq_some_iff.mp h'.1
          rw [← hrest, htail, leading_percent] at hnone
          exact absurd hnone (Nat.succ_ne_zero _)
      | item x =>
          have hrest : x.char :: spelled rest = spelled after := (List.cons.inj heq).2
          exact hitem x [] _ _ hrest.symm rfl
      | braced x format =>
          have hrest : x.char :: ('{' :: (format ++ ['}']) ++ spelled rest) = spelled after :=
            (List.cons.inj heq).2
          exact hitem x format _ _ hrest.symm rfl

/-- Two readings of one pattern, one character of a literal at a time. -/
theorem atoms_same_or_part {segments segments' : List Segment} (h : WellFormed segments)
    (h' : WellFormed segments') (hpass : .pass ∉ segments) (hescape : .escape ∉ segments')
    (heq : spelled segments' = spelled segments) :
    segments'.flatMap atoms = segments.flatMap atoms ∨
      ∃ before after after', segments.flatMap atoms = before ++ .escape :: after ∧
        segments'.flatMap atoms = before ++ .pass :: after' := by
  refine same_or_part (wellFormed_atoms h) (wellFormed_atoms h') (atomic_atoms segments)
    (atomic_atoms segments') ?_ ?_ ?_
  · exact fun hmem => hpass ((mem_atoms (by nofun) segments).mp hmem)
  · exact fun hmem => hescape ((mem_atoms (by nofun) segments').mp hmem)
  · rw [spelled_atoms, spelled_atoms, heq]

/-- Two readings that write the same text for the event are the same. -/
theorem atoms_eq_of_marked {segments segments' : List Segment} (h : WellFormed segments)
    (h' : WellFormed segments') (hpass : .pass ∉ segments) (hescape : .escape ∉ segments')
    (heq : spelled segments' = spelled segments) (hmarked : marked segments = marked segments') :
    segments'.flatMap atoms = segments.flatMap atoms := by
  rcases atoms_same_or_part h h' hpass hescape heq with
    hsame | ⟨before, after, after', hafter, hafter'⟩
  · exact hsame
  · exfalso
    have hwell : WellFormed (before ++ .escape :: after) := hafter ▸ wellFormed_atoms h
    have hwell' : WellFormed (before ++ .pass :: after') := hafter' ▸ wellFormed_atoms h'
    have hatomic : Atomic (before ++ .escape :: after) := hafter ▸ atomic_atoms segments
    have hatomic' : Atomic (before ++ .pass :: after') := hafter' ▸ atomic_atoms segments'
    have hspelled : spelled after' = '%' :: spelled after := by
      rw [← spelled_atoms segments, ← spelled_atoms segments', hafter, hafter',
        spelled_append, spelled_append] at heq
      exact (List.cons.inj (List.append_cancel_left heq)).2
    have hrest : marked after = marked after' := by
      simp only [marked] at hmarked
      rw [← rendered_atoms _ _ _ _ segments, ← rendered_atoms _ _ _ _ segments', hafter,
        hafter'] at hmarked
      simp only [rendered, List.flatMap_append] at hmarked
      exact (List.cons.inj (List.append_cancel_left hmarked)).2
    refine marked_ne_of_part (wellFormed_tail (wellFormed_of_append before hwell))
      (wellFormed_tail (wellFormed_of_append before hwell')) ?_ ?_ ?_ ?_ hspelled hrest
    · exact fun text htext => hatomic text (by simp [htext])
    · exact fun text htext => hatomic' text (by simp [htext])
    · exact fun hmem => hpass ((mem_atoms (by nofun) segments).mp (by simp [hafter, hmem]))
    · exact fun hmem => hescape ((mem_atoms (by nofun) segments').mp (by simp [hafter', hmem]))

/-- A pattern without escapes has no other reading. -/
theorem rendered_eq_of_plain {segments plain : List Segment} (h : WellFormed segments)
    (hplain : WellFormed plain) (hpass : .pass ∉ segments) (hpass' : .pass ∉ plain)
    (hescape : .escape ∉ plain) (heq : spelled plain = spelled segments)
    (strftime : List Char → UInt64 → List Char) (logger : List Char) (level : Level)
    (event : LogEvent) :
    rendered strftime logger level event plain =
      rendered strftime logger level event segments := by
  rcases atoms_same_or_part h hplain hpass hescape heq with
    hsame | ⟨before, after, after', _, hafter'⟩
  · rw [← rendered_atoms _ _ _ _ plain, hsame, rendered_atoms]
  · exact absurd ((mem_atoms (by nofun) plain).mp (by simp [hafter'])) hpass'

end PatternFormatter

open PatternFormatter

/-- **Percent escapes.**  For every pattern and whatever is in the memory of the flag: the
flag is up exactly for the patterns that are not valid, and a valid pattern writes what its
segments write, each escape one percent sign, iff

* the pattern is made of literals and items, without an escape, and the memory was 0; or
* the pattern is not valid, and the memory was not 0 or the pattern cannot be read with a
  '%' directly before another one for itself. -/
theorem escapes_right_iff (memory : Bool) (pattern : List Char) :
    EscapesRight memory pattern ↔
      (Plain pattern ∧ memory = false) ∨
        (¬ Valid pattern ∧ (memory = true ∨ ¬ Accepted pattern)) := by
  constructor
  · rintro ⟨hflag, htext⟩
    rw [isError_iff] at hflag
    by_cases hvalid : Valid pattern
    · left
      have hno := hflag.not.mpr (not_not_intro hvalid)
      rw [not_or, not_not, Bool.not_eq_true] at hno
      obtain ⟨hmemory, segments', hwell', hescape', hspelled'⟩ := hno
      obtain ⟨segments, hwell, hpass, hspelled⟩ := hvalid
      have hmarked : marked segments = marked segments' := by
        have hcode := new_format (fun _ _ => ['!']) ['!'] .unknow marks memory segments'
          hwell' hescape'
        rw [hspelled'] at hcode
        exact (htext segments hwell hpass hspelled _ _ _ _).symm.trans hcode
      have hatoms := atoms_eq_of_marked hwell hwell' hpass hescape'
        (hspelled'.trans hspelled.symm) hmarked
      refine ⟨⟨segments, hwell, ⟨hpass, fun hmem => ?_⟩, hspelled⟩, hmemory⟩
      rw [← mem_atoms (by nofun), ← hatoms, mem_atoms (by nofun)] at hmem
      exact hescape' hmem
    · exact .inr ⟨hvalid, hflag.mpr hvalid⟩
  · rintro (⟨⟨plain, hwell, ⟨hpass, hescape⟩, rfl⟩, hmemory⟩ | ⟨hvalid, hflag⟩)
    · have haccepted : Accepted (spelled plain) := ⟨plain, hwell, hescape, rfl⟩
      refine ⟨?_, fun segments hwell' hpass' hspelled strftime logger level event => ?_⟩
      · rw [isError_iff, hmemory]
        refine iff_of_false ?_ (not_not_intro ⟨plain, hwell, hpass, rfl⟩)
        simpa using haccepted
      · rw [new_format strftime logger level event memory plain hwell hescape]
        exact rendered_eq_of_plain hwell' hwell hpass' hpass hescape hspelled.symm _ _ _ _
    · refine ⟨?_, fun segments hwell hpass hspelled => ?_⟩
      · rw [isError_iff]
        exact iff_of_true hflag hvalid
      · exact absurd ⟨segments, hwell, hpass, hspelled⟩ hvalid

/-- A pattern of one escape is valid, but the second percent sign is read as an item. -/
theorem escape_rejected :
    (new false ['%', '%']).isError = true ∧ Valid ['%', '%'] ∧
      ¬ EscapesRight false ['%', '%'] := by
  have hscan : scan [] ['%', '%'] = ([.inl ['%'], .inr ([], [])], false) := by
    rw [scan_pass rfl, scan_item (by decide)]
    simp [scanItem, scan_nil, closeRun]
  have herror : (new false ['%', '%']).isError = true := by
    simp only [isError, new, init, hscan]
    rfl
  have hvalid : Valid ['%', '%'] := ⟨[.escape], trivial, by decide, rfl⟩
  exact ⟨herror, hvalid, fun hright => hright.1.mp herror hvalid⟩

end Logging
end Hpgs
