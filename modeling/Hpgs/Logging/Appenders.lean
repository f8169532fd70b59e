import Hpgs.Library.Transition
import Hpgs.Logging.FileLogAppender
import Mathlib.Logic.Function.Basic

/-!
# The formatters of appenders

An appender writes with its own formatter, where one was set, and otherwise with the one
of its logger.  It has only one pointer for both: `addAppender` and `Logger::setFormatter`
copy the pointer of the logger into it, and the flag `hasFormatter` says whether the pointer
is the appender's own.  `addAppender` looks at the pointer, not at the flag, and
`LogAppender::setFormatter` copies nothing back when it takes the own formatter away.

Formatters are known by their pointers only.  A history beside the state has the formatter
that each appender was last given for its own.

**Results.**
* `step_usable_iff`: the calls after which every appender on exactly one logger has the
  right formatter.
* `appenders_usable_iff`: this is so after every call of a sequence iff all calls are such.
-/

namespace Hpgs
namespace Logging

open Transition

variable {L A F : Type}

/-- `LogAppender`. -/
structure LogAppender (F : Type) where
  level : Level
  hasFormatter : Bool
  formatter : Option F

namespace LogAppender

/-- `setFormatter`. -/
def setFormatter (a : LogAppender F) (val : Option F) : LogAppender F :=
  { a with formatter := val, hasFormatter := val.isSome }

/-- A null pointer gets the formatter of the logger. -/
def attach (a : LogAppender F) (formatter : Option F) : LogAppender F :=
  if a.formatter.isNone then { a with formatter := formatter } else a

/-- An appender without its own formatter gets the one of the logger. -/
def follow (a : LogAppender F) (formatter : Option F) : LogAppender F :=
  if a.hasFormatter then a else { a with formatter := formatter }

/-- `StdOutLogAppender::log` and `FileLogAppender::log`.  `reopen` is what the appender
does to its stream before it writes, and `format` writes to the stream with the formatter
behind a pointer; `none` where the null pointer is dereferenced. -/
def log {Out : Type} (reopen : Out → Out) (format : F → Out → Out) (a : LogAppender F)
    (level : Level) (out : Out) : Option Out :=
  if level.value ≥ a.level.value then
    a.formatter.map fun f => format f (reopen out)
  else some out

end LogAppender

/-- `Logger`, with its appenders by name. -/
structure Logger (A F : Type) where
  formatter : Option F
  appenders : List A

/-- The loggers and the appenders of a program. -/
structure Loggers (L A F : Type) where
  loggers : L → Logger A F
  appenders : A → LogAppender F

/-- The calls that change a formatter or an attachment. -/
inductive AppenderCall (L A F : Type)
  | addAppender (l : L) (a : A)
  | delAppender (l : L) (a : A)
  /-- `Logger::setFormatter` with a pointer. -/
  | setFormatter (l : L) (val : Option F)
  /-- `Logger::setFormatter` with a pattern, whose formatter is `new`. -/
  | setPattern (l : L) (new : F) (isError : Bool)
  /-- `LogAppender::setFormatter`. -/
  | setAppenderFormatter (a : A) (val : Option F)

namespace Loggers

variable [DecidableEq L] [DecidableEq A]

/-- `Logger::addAppender`. -/
def addAppender (s : Loggers L A F) (l : L) (a : A) : Loggers L A F :=
  let logger := s.loggers l
  { loggers :=
      Function.update s.loggers l { logger with appenders := logger.appenders ++ [a] }
    appenders :=
      Function.update s.appenders a ((s.appenders a).attach logger.formatter) }

/-- `Logger::delAppender`. -/
def delAppender (s : Loggers L A F) (l : L) (a : A) : Loggers L A F :=
  let logger := s.loggers l
  { s with
    loggers :=
      Function.update s.loggers l { logger with appenders := logger.appenders.erase a } }

/-- `Logger::setFormatter` with a pointer. -/
def setFormatter (s : Loggers L A F) (l : L) (val : Option F) : Loggers L A F :=
  let logger := s.loggers l
  { loggers := Function.update s.loggers l { logger with formatter := val }
    appenders := fun a =>
      if a ∈ logger.appenders then (s.appenders a).follow val else s.appenders a }

/-- `Logger::setFormatter` with a pattern: one with an error is turned down. -/
def setPattern (s : Loggers L A F) (l : L) (new : F) (isError : Bool) : Loggers L A F :=
  if isError then s else s.setFormatter l (some new)

/-- `LogAppender::setFormatter`. -/
def setAppenderFormatter (s : Loggers L A F) (a : A) (val : Option F) : Loggers L A F :=
  { s with appenders := Function.update s.appenders a ((s.appenders a).setFormatter val) }

/-- What a call does. -/
def apply (s : Loggers L A F) : AppenderCall L A F → Loggers L A F
  | .addAppender l a => s.addAppender l a
  | .delAppender l a => s.delAppender l a
  | .setFormatter l val => s.setFormatter l val
  | .setPattern l new isError => s.setPattern l new isError
  | .setAppenderFormatter a val => s.setAppenderFormatter a val

/-- The loggers as they are made, each with a formatter `first`, and appenders that were
given none. -/
def start (first : L → F) (level : A → Level) : Loggers L A F where
  loggers l := { formatter := some (first l), appenders := [] }
  appenders a := { level := level a, hasFormatter := false, formatter := none }

end Loggers

section Calls

variable [DecidableEq L] [DecidableEq A]

/-- The formatter that each appender was last given for its own. -/
def own (given : A → Option F) : AppenderCall L A F → A → Option F
  | .setAppenderFormatter a val => Function.update given a val
  | _ => given

/-- The calls, with the history of the own formatters. -/
def appenderCalls : System (Loggers L A F × (A → Option F)) (AppenderCall L A F) where
  init p := ∃ first level, p = (Loggers.start first level, fun _ => none)
  step p c := some (p.1.apply c, own p.2 c)

/-- `l` is the one logger that the appender is attached to. -/
def OnlyOn (s : Loggers L A F) (a : A) (l : L) : Prop :=
  ∀ l', a ∈ (s.loggers l').appenders ↔ l' = l

/-- `l` is the one logger that the appender stays on when `from'` loses it once. -/
def LeftOn (s : Loggers L A F) (from' : L) (a : A) (l : L) : Prop :=
  ∀ l', (if l' = from' then 2 else 1) ≤ (s.loggers l').appenders.count a ↔ l' = l

/-- The appender has a formatter: its own, or else the current one of the logger. -/
def Current (s : Loggers L A F) (given : A → Option F) (a : A) (l : L) : Prop :=
  ∃ f, (s.appenders a).formatter = some f ∧ (given a).or (s.loggers l).formatter = some f

/-- `log` never dereferences the null pointer. -/
def LogsSafely (a : LogAppender F) : Prop :=
  ∀ (Out : Type) (reopen : Out → Out) (format : F → Out → Out) level out,
    (a.log reopen format level out).isSome

/-- An appender on exactly one logger has the right formatter and can write. -/
def Usable (p : Loggers L A F × (A → Option F)) : Prop :=
  ∀ a l, OnlyOn p.1 a l → Current p.1 p.2 a l ∧ LogsSafely (p.1.appenders a)

/-- The calls that leave every appender on exactly one logger with the right formatter. -/
def KeepsUsable (p : Loggers L A F × (A → Option F)) : AppenderCall L A F → Prop
  | .addAppender l a =>
      (∀ l', a ∉ (p.1.loggers l').appenders) → p.2 a = none →
        ∃ f, (p.1.loggers l).formatter = some f ∧
          ((p.1.appenders a).formatter = none ∨ (p.1.appenders a).formatter = some f)
  | .delAppender l a => ∀ l', LeftOn p.1 l a l' → Current p.1 p.2 a l'
  | .setFormatter l val => val = none → ∀ a, OnlyOn p.1 a l → p.2 a ≠ none
  | .setPattern _ _ _ => True
  | .setAppenderFormatter a val => val = none → ∀ l, ¬ OnlyOn p.1 a l

/-- The flag and the pointer of an appender say what its own formatter is. -/
structure Owned (s : Loggers L A F) (given : A → Option F) : Prop where
  flag : ∀ a, (s.appenders a).hasFormatter = (given a).isSome
  pointer : ∀ a f, given a = some f → (s.appenders a).formatter = some f

end Calls

section Lemmas

variable {s : Loggers L A F} {given : A → Option F} {a : A} {l : L}

theorem Current.logsSafely (h : Current s given a l) : LogsSafely (s.appenders a) := by
  intro Out reopen format level out
  obtain ⟨f, hf, _⟩ := h
  by_cases hlevel : level.value ≥ (s.appenders a).level.value
  · simp [LogAppender.log, hlevel, hf]
  · simp [LogAppender.log, hlevel]

/-- `FileLogAppender::log` with a formatter: every three seconds it opens its file again. -/
theorem fileLogAppender_log (strftime : List Char → UInt64 → List Char)
    (a : FileLogAppender) (c : LogCall) (hasFormatter : Bool) :
    (LogAppender.mk a.level hasFormatter (some a.formatter)).log
        (fun a => if c.event.time ≥ a.lastTime + 3 then
          { a.reopen with lastTime := c.event.time } else a)
        (fun f a =>
          { a with
            filestream := f.formatTo strftime a.filestream c.logger c.level c.event })
        c.level a =
      some (a.log strftime c) := by
  by_cases hlevel : c.level.value ≥ a.level.value
  · by_cases hlate : c.event.time ≥ a.lastTime + 3
    · simp [LogAppender.log, FileLogAppender.log, FileLogAppender.reopen, hlevel, hlate]
    · simp [LogAppender.log, FileLogAppender.log, hlevel, hlate]
  · simp [LogAppender.log, FileLogAppender.log, hlevel]

/-- The appender and the logger have the same formatter. -/
def Shares (s : Loggers L A F) (a : A) (l : L) : Prop :=
  ∃ f, (s.appenders a).formatter = some f ∧ (s.loggers l).formatter = some f

/-- An appender with its own formatter has the right one on any logger. -/
theorem Owned.current (h : Owned s given) (hown : given a ≠ none) (l : L) :
    Current s given a l := by
  obtain ⟨f, hf⟩ := Option.ne_none_iff_exists'.mp hown
  exact ⟨f, h.pointer a f hf, by rw [hf, Option.some_or]⟩

/-- An appender without one has the right one iff it is that of the logger. -/
theorem current_iff_shares (hown : given a = none) : Current s given a l ↔ Shares s a l := by
  rw [Current, hown, Option.none_or, Shares]

/-- Only the appenders without their own formatter are in question. -/
theorem usable_iff (h : Owned s given) :
    Usable (s, given) ↔ ∀ a l, OnlyOn s a l → given a = none → Shares s a l := by
  constructor
  · intro hu a l honly hown
    exact (current_iff_shares hown).mp (hu a l honly).1
  · intro hs a l honly
    have hcur : Current s given a l := by
      by_cases hown : given a = none
      · exact (current_iff_shares hown).mpr (hs a l honly hown)
      · exact h.current hown l
    exact ⟨hcur, hcur.logsSafely⟩

theorem OnlyOn.mem (h : OnlyOn s a l) : a ∈ (s.loggers l).appenders :=
  (h l).mpr rfl

theorem shares_congr {t : Loggers L A F}
    (happ : (t.appenders a).formatter = (s.appenders a).formatter)
    (hlog : (t.loggers l).formatter = (s.loggers l).formatter) :
    Shares t a l ↔ Shares s a l := by
  rw [Shares, Shares, happ, hlog]

section Decidable

variable [DecidableEq L] [DecidableEq A]

/-! ## Attaching -/

@[simp] theorem formatter_addAppender (s : Loggers L A F) (l l' : L) (a : A) :
    ((s.addAppender l a).loggers l').formatter = (s.loggers l').formatter := by
  by_cases h : l' = l
  · simp [Loggers.addAppender, h]
  · simp [Loggers.addAppender, h]

@[simp] theorem mem_addAppender (s : Loggers L A F) (l l' : L) (a a' : A) :
    a' ∈ ((s.addAppender l a).loggers l').appenders ↔
      a' ∈ (s.loggers l').appenders ∨ (a' = a ∧ l' = l) := by
  by_cases h : l' = l
  · simp [Loggers.addAppender, h]
  · simp [Loggers.addAppender, h]

theorem appenders_addAppender_self (s : Loggers L A F) (l : L) (a : A) :
    ((s.addAppender l a).appenders a).formatter =
      (s.appenders a).formatter.or (s.loggers l).formatter := by
  cases hf : (s.appenders a).formatter with
  | none => simp [Loggers.addAppender, LogAppender.attach, hf]
  | some f => simp [Loggers.addAppender, LogAppender.attach, hf]

theorem appenders_addAppender_ne {a' : A} (h : a' ≠ a) (s : Loggers L A F) (l : L) :
    (s.addAppender l a).appenders a' = s.appenders a' := by
  simp [Loggers.addAppender, h]

theorem onlyOn_addAppender_ne {a' : A} (h : a' ≠ a) (l l' : L) :
    OnlyOn (s.addAppender l a) a' l' ↔ OnlyOn s a' l' := by
  simp [OnlyOn, h]

theorem onlyOn_addAppender_self (l l' : L) :
    OnlyOn (s.addAppender l a) a l' ↔
      l' = l ∧ (OnlyOn s a l ∨ ∀ l', a ∉ (s.loggers l').appenders) := by
  simp only [OnlyOn, mem_addAppender, true_and]
  constructor
  · intro h
    obtain rfl : l = l' := (h l).mp (.inr rfl)
    refine ⟨rfl, ?_⟩
    by_cases hmem : a ∈ (s.loggers l).appenders
    · left
      intro l'
      exact ⟨fun hl => (h l').mp (.inl hl), fun hl => hl ▸ hmem⟩
    · right
      intro l' hl
      exact hmem ((h l').mp (.inl hl) ▸ hl)
  · rintro ⟨rfl, honly | hnone⟩
    · intro l'
      rw [honly l', or_self]
    · intro l'
      exact ⟨fun hl => hl.resolve_left (hnone l'), .inr⟩

/-- An appender that keeps its pointer, or has none, may be attached. -/
theorem shares_addAppender_iff (s : Loggers L A F) (l : L) (a : A) :
    Shares (s.addAppender l a) a l ↔
      ∃ f, (s.loggers l).formatter = some f ∧
        ((s.appenders a).formatter = none ∨ (s.appenders a).formatter = some f) := by
  rw [Shares, formatter_addAppender, appenders_addAppender_self]
  cases hf : (s.appenders a).formatter with
  | none => simp
  | some f => simp [and_comm]

theorem addAppender_usable_iff (hu : ∀ a l, OnlyOn s a l → given a = none → Shares s a l)
    (l : L) (a : A) :
    (∀ a' l', OnlyOn (s.addAppender l a) a' l' → given a' = none →
        Shares (s.addAppender l a) a' l') ↔
      KeepsUsable (s, given) (.addAppender l a) := by
  constructor
  · intro hafter hnone hown
    have honly := (onlyOn_addAppender_self l l).mpr ⟨rfl, .inr hnone⟩
    exact (shares_addAppender_iff s l a).mp (hafter a l honly hown)
  · intro hkeep a' l' honly hown
    by_cases ha : a' = a
    · subst ha
      obtain ⟨rfl, hon | hnone⟩ := (onlyOn_addAppender_self l l').mp honly
      · obtain ⟨f, hf, hl⟩ := hu a' l' hon hown
        exact (shares_addAppender_iff s l' a').mpr ⟨f, hl, .inr hf⟩
      · exact (shares_addAppender_iff s l' a').mpr (hkeep hnone hown)
    · have hbefore := hu a' l' ((onlyOn_addAppender_ne ha l l').mp honly) hown
      exact (shares_congr (by rw [appenders_addAppender_ne ha])
        (formatter_addAppender s l l' a)).mpr hbefore

/-! ## Detaching -/

@[simp] theorem formatter_delAppender (s : Loggers L A F) (l l' : L) (a : A) :
    ((s.delAppender l a).loggers l').formatter = (s.loggers l').formatter := by
  by_cases h : l' = l
  · simp [Loggers.delAppender, h]
  · simp [Loggers.delAppender, h]

theorem mem_delAppender_self (s : Loggers L A F) (l l' : L) (a : A) :
    a ∈ ((s.delAppender l a).loggers l').appenders ↔
      (if l' = l then 2 else 1) ≤ (s.loggers l').appenders.count a := by
  by_cases h : l' = l
  · rw [if_pos h, ← List.count_pos_iff]
    simp [Loggers.delAppender, h]
    omega
  · rw [if_neg h, ← List.count_pos_iff]
    simp [Loggers.delAppender, h]

theorem mem_delAppender_ne {a' : A} (h : a' ≠ a) (s : Loggers L A F) (l l' : L) :
    a' ∈ ((s.delAppender l a).loggers l').appenders ↔ a' ∈ (s.loggers l').appenders := by
  by_cases hl : l' = l
  · simp [Loggers.delAppender, hl, List.mem_erase_of_ne h]
  · simp [Loggers.delAppender, hl]

theorem delAppender_usable_iff (h : Owned s given)
    (hu : ∀ a l, OnlyOn s a l → given a = none → Shares s a l) (l : L) (a : A) :
    (∀ a' l', OnlyOn (s.delAppender l a) a' l' → given a' = none →
        Shares (s.delAppender l a) a' l') ↔
      KeepsUsable (s, given) (.delAppender l a) := by
  have hleft : ∀ l', OnlyOn (s.delAppender l a) a l' ↔ LeftOn s l a l' := by
    intro l'
    simp only [OnlyOn, LeftOn, mem_delAppender_self]
  have hshares : ∀ a' l', Shares (s.delAppender l a) a' l' ↔ Shares s a' l' :=
    fun a' l' => shares_congr rfl (formatter_delAppender s l l' a)
  constructor
  · intro hafter l' hl
    by_cases hown : given a = none
    · exact (current_iff_shares hown).mpr
        ((hshares a l').mp (hafter a l' ((hleft l').mpr hl) hown))
    · exact h.current hown l'
  · intro hkeep a' l' honly hown
    rw [hshares]
    by_cases ha : a' = a
    · subst ha
      exact (current_iff_shares hown).mp (hkeep l' ((hleft l').mp honly))
    · refine hu a' l' (fun l'' => ?_) hown
      rw [← mem_delAppender_ne ha s l l'']
      exact honly l''

/-! ## The formatter of a logger -/

theorem appenders_setFormatter (s : Loggers L A F) (l l' : L) (val : Option F) :
    ((s.setFormatter l val).loggers l').appenders = (s.loggers l').appenders := by
  by_cases h : l' = l
  · simp [Loggers.setFormatter, h]
  · simp [Loggers.setFormatter, h]

theorem onlyOn_setFormatter (l l' : L) (val : Option F) :
    OnlyOn (s.setFormatter l val) a l' ↔ OnlyOn s a l' := by
  simp only [OnlyOn, appenders_setFormatter]

/-- The appenders of the logger without their own formatter get the new one. -/
theorem shares_setFormatter_self (h : Owned s given) (hown : given a = none)
    (hmem : a ∈ (s.loggers l).appenders) (val : Option F) :
    Shares (s.setFormatter l val) a l ↔ val ≠ none := by
  have hflag : (s.appenders a).hasFormatter = false := by
    rw [h.flag a, hown, Option.isSome_none]
  simp [Shares, Loggers.setFormatter, hmem, LogAppender.follow, hflag,
    Option.ne_none_iff_exists']

theorem shares_setFormatter_ne {l' : L} (hl : l' ≠ l) (hmem : a ∉ (s.loggers l).appenders)
    (val : Option F) : Shares (s.setFormatter l val) a l' ↔ Shares s a l' := by
  refine shares_congr ?_ ?_
  · simp [Loggers.setFormatter, hmem]
  · simp [Loggers.setFormatter, hl]

theorem setFormatter_usable_iff (h : Owned s given)
    (hu : ∀ a l, OnlyOn s a l → given a = none → Shares s a l) (l : L) (val : Option F) :
    (∀ a l', OnlyOn (s.setFormatter l val) a l' → given a = none →
        Shares (s.setFormatter l val) a l') ↔
      (val = none → ∀ a, OnlyOn s a l → given a ≠ none) := by
  constructor
  · intro hafter hval a honly hown
    have hshares := hafter a l ((onlyOn_setFormatter l l val).mpr honly) hown
    exact (shares_setFormatter_self h hown honly.mem val).mp hshares hval
  · intro hkeep a l' honly hown
    rw [onlyOn_setFormatter] at honly
    by_cases hl : l' = l
    · subst hl
      exact (shares_setFormatter_self h hown honly.mem val).mpr
        fun hval => hkeep hval a honly hown
    · have hmem : a ∉ (s.loggers l).appenders := fun hin => hl ((honly l).mp hin).symm
      exact (shares_setFormatter_ne hl hmem val).mpr (hu a l' honly hown)

/-! ## The formatter of an appender -/

theorem setAppenderFormatter_usable_iff
    (hu : ∀ a l, OnlyOn s a l → given a = none → Shares s a l) (a : A) (val : Option F) :
    (∀ a' l, OnlyOn (s.setAppenderFormatter a val) a' l →
        Function.update given a val a' = none → Shares (s.setAppenderFormatter a val) a' l) ↔
      KeepsUsable (s, given) (.setAppenderFormatter a val) := by
  constructor
  · rintro hafter rfl l honly
    obtain ⟨f, hf, _⟩ := hafter a l honly (Function.update_self a none given)
    simp [Loggers.setAppenderFormatter, LogAppender.setFormatter] at hf
  · intro hkeep a' l honly hown
    by_cases ha : a' = a
    · subst ha
      rw [Function.update_self] at hown
      exact absurd honly (hkeep hown l)
    · rw [Function.update_of_ne ha] at hown
      have happ : (s.setAppenderFormatter a val).appenders a' = s.appenders a' := by
        simp [Loggers.setAppenderFormatter, ha]
      have hiff : Shares (s.setAppenderFormatter a val) a' l ↔ Shares s a' l :=
        shares_congr (by rw [happ]) rfl
      exact hiff.mpr (hu a' l honly hown)

/-! ## Sequences of calls -/

theorem owned_addAppender (h : Owned s given) (l : L) (a : A) :
    Owned (s.addAppender l a) given := by
  refine ⟨fun a' => ?_, fun a' f hf => ?_⟩
  · rw [← h.flag a']
    by_cases ha : a' = a
    · subst ha
      simp only [Loggers.addAppender, Function.update_self, LogAppender.attach]
      split_ifs <;> rfl
    · rw [appenders_addAppender_ne ha]
  · have hp := h.pointer a' f hf
    by_cases ha : a' = a
    · subst ha
      rw [appenders_addAppender_self, hp, Option.some_or]
    · rw [appenders_addAppender_ne ha]
      exact hp

theorem owned_setFormatter (h : Owned s given) (l : L) (val : Option F) :
    Owned (s.setFormatter l val) given := by
  refine ⟨fun a => ?_, fun a f hf => ?_⟩
  · rw [← h.flag a]
    simp only [Loggers.setFormatter, LogAppender.follow]
    split_ifs <;> rfl
  · have hflag : (s.appenders a).hasFormatter = true := by
      rw [h.flag a, hf, Option.isSome_some]
    simp only [Loggers.setFormatter, LogAppender.follow, hflag, if_true, ite_self]
    exact h.pointer a f hf

omit [DecidableEq L] in
theorem owned_setAppenderFormatter (h : Owned s given) (a : A) (val : Option F) :
    Owned (s.setAppenderFormatter a val) (Function.update given a val) := by
  refine ⟨fun a' => ?_, fun a' f hf => ?_⟩
  · by_cases ha : a' = a
    · subst ha
      simp [Loggers.setAppenderFormatter, LogAppender.setFormatter]
    · simpa [Loggers.setAppenderFormatter, ha] using h.flag a'
  · by_cases ha : a' = a
    · subst ha
      rw [Function.update_self] at hf
      simpa [Loggers.setAppenderFormatter, LogAppender.setFormatter] using hf
    · rw [Function.update_of_ne ha] at hf
      simpa [Loggers.setAppenderFormatter, ha] using h.pointer a' f hf

/-- No call makes the flag or the pointer of an appender disagree with the history. -/
theorem owned_step (h : Owned s given) (c : AppenderCall L A F) :
    Owned (s.apply c) (own given c) := by
  cases c with
  | addAppender l a => exact owned_addAppender h l a
  | delAppender l a => exact ⟨h.flag, h.pointer⟩
  | setFormatter l val => exact owned_setFormatter h l val
  | setPattern l new isError =>
      cases isError with
      | true => exact h
      | false => exact owned_setFormatter h l (some new)
  | setAppenderFormatter a val => exact owned_setAppenderFormatter h a val

/-- **One call.**  It keeps the appenders usable iff it meets the condition. -/
theorem step_usable_iff (h : Owned s given) (hu : Usable (s, given))
    (c : AppenderCall L A F) :
    Usable (s.apply c, own given c) ↔ KeepsUsable (s, given) c := by
  rw [usable_iff (owned_step h c)]
  rw [usable_iff h] at hu
  cases c with
  | addAppender l a => exact addAppender_usable_iff hu l a
  | delAppender l a => exact delAppender_usable_iff h hu l a
  | setFormatter l val => exact setFormatter_usable_iff h hu l val
  | setPattern l new isError =>
      cases isError with
      | true => exact iff_of_true hu trivial
      | false =>
          refine iff_of_true ((setFormatter_usable_iff h hu l (some new)).mpr ?_) trivial
          rintro ⟨⟩
  | setAppenderFormatter a val => exact setAppenderFormatter_usable_iff hu a val

omit [DecidableEq L] [DecidableEq A] in
theorem start_owned (first : L → F) (level : A → Level) :
    Owned (Loggers.start first level) fun _ => none :=
  ⟨fun _ => rfl, fun _ _ h => nomatch h⟩

omit [DecidableEq L] [DecidableEq A] in
theorem start_usable (first : L → F) (level : A → Level) :
    Usable (Loggers.start first level, fun _ => none) :=
  fun _ _ honly => absurd honly.mem List.not_mem_nil

end Decidable

end Lemmas

/-- **The formatters of appenders.**  For all loggers and appenders as they are made and
every sequence of calls: after every call each appender on exactly one logger has its own
formatter, or else the current one of the logger, and can write, iff every call is such
that

* `addAppender`: an appender that is on no logger and has no formatter of its own has the
  null pointer or the formatter of the logger already, and the logger has one;
* `delAppender`: an appender that stays on one logger has the right formatter for it;
* `setFormatter` of a logger with the null pointer: the appenders that are on this logger
  alone have formatters of their own;
* `setFormatter` of an appender with the null pointer: it is not on exactly one logger. -/
theorem appenders_usable_iff [DecidableEq L] [DecidableEq A] (first : L → F)
    (level : A → Level) (calls : List (AppenderCall L A F)) :
    appenderCalls.Along Usable (Loggers.start first level, fun _ => none) calls ↔
      appenderCalls.StepsMeet KeepsUsable (Loggers.start first level, fun _ => none)
        calls := by
  have himp : ∀ p : Loggers L A F × (A → Option F),
      Owned p.1 p.2 ∧ Usable p → Usable p := fun _ h => h.2
  refine System.along_iff_stepsMeet himp ?_ ?_
    ⟨start_owned first level, start_usable first level⟩ ?_
  · rintro ⟨s, given⟩ c q ⟨ho, hu⟩ hc hs
    obtain rfl := Option.some.inj hs
    exact ⟨owned_step ho c, (step_usable_iff ho hu c).mpr hc⟩
  · rintro ⟨s, given⟩ c q ⟨ho, hu⟩ hc hs
    obtain rfl := Option.some.inj hs
    exact fun hafter => hc ((step_usable_iff ho hu c).mp hafter)
  · exact System.exec_isSome (fun _ _ => rfl) calls

/-- A logger with one appender, whose formatter is taken away. -/
def takenAway : List (AppenderCall Unit Unit Nat) :=
  [.addAppender () (), .setAppenderFormatter () none]

/-- The appender is left with the null pointer, though its logger has a formatter, and
`log` dereferences it. -/
theorem takenAway_dereferences_null :
    (∃ p, appenderCalls.exec (Loggers.start (fun _ => 7) (fun _ => .debug), fun _ => none)
        takenAway = some p ∧
      OnlyOn p.1 () () ∧ (p.1.loggers ()).formatter = some 7 ∧
      (p.1.appenders ()).formatter = none ∧
      (p.1.appenders ()).log id (fun _ out => out) .info () = none) ∧
    ¬ appenderCalls.Along Usable
      (Loggers.start (fun _ => 7) (fun _ => .debug), fun _ => none) takenAway := by
  have honly : OnlyOn (((Loggers.start (fun _ => 7) fun _ => .debug).addAppender () ()
      |>.setAppenderFormatter () none) : Loggers Unit Unit Nat) () () :=
    fun l' => iff_of_true (List.mem_singleton.mpr rfl) rfl
  refine ⟨⟨_, rfl, honly, rfl, rfl, rfl⟩, ?_⟩
  intro halong
  obtain ⟨⟨f, hf, _⟩, _⟩ := halong.of_exec rfl () () honly
  have hnull : (none : Option Nat) = some f := hf
  cases hnull

end Logging
end Hpgs
