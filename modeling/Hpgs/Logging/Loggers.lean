import Hpgs.Logging.Appenders

/-!
# Loggers and the events they write

`LoggerManager` makes a logger the first time its name is asked for and keeps it.  A log
macro tests the level of a logger, wraps an event, and lets the program fill it; the
destructor of the wrap gives the event to `Logger::log`, which tests the level once more
and hands it to every appender of the logger.  A logger without appenders hands it to the
root logger, with the root logger as the logger of the event.

Pointers are numbers, and the root logger is `0`.  Loggers can also be made outside the
manager.  Between its macro and its destructor a wrap stays open while other calls are
made.  The formatters and the attachments are those of `Appenders`; a record has all that
a formatter turns into text.  The destructor holds `s_log_mutex`, so it is one step.
Direct calls on `log` take no lock; they are one step too.

**Results.**
* `getLogger_eq_iff`: the manager gives one logger for one name in the whole run.
* `log_eq_some`: what `log` writes, through the root logger or not.
* `records_of_wrap`: the records of one event, in every run.
-/

namespace Hpgs
namespace Logging

open Transition

/-- What an appender formats.  `wrap` is the wrap of the event, if it has one. -/
structure Record (F : Type) where
  wrap : Option Nat
  formatter : F
  logger : Nat
  level : Level
  event : LogEvent

/-- `LogEventWrap`, with the logger and the level of its event. -/
structure LogEventWrap where
  logger : Nat
  level : Level
  event : LogEvent

/-- `LoggerManager`, the loggers and appenders of a program, the wraps that are open, and
what each appender has written. -/
structure LogState (F : Type) where
  loggers : List Char → Option Nat
  made : Nat
  name : Nat → List Char
  level : Nat → Level
  root : Nat → Option Nat
  outputs : Loggers Nat Nat F
  wraps : Nat → Option LogEventWrap
  wrapped : Nat
  written : Nat → List (Record F)

/-- The calls that a program makes. -/
inductive LoggerCall (F : Type)
  | getLogger (name : List Char)
  /-- The constructor of a logger outside the manager. -/
  | newLogger (name : List Char)
  | setLevel (l : Nat) (val : Level)
  | setAppenderLevel (a : Nat) (val : Level)
  | output (c : AppenderCall Nat Nat F)
  /-- `HPGS_LOG_LEVEL` as far as the stream of its wrap. -/
  | wrap (l : Nat) (level : Level) (event : LogEvent)
  /-- The destructor of a wrap whose stream has got `content`. -/
  | unwrap (w : Nat) (content : List Char)
  /-- `Logger::log`, and `debug` to `fatal` with their levels. -/
  | log (l : Nat) (level : Level) (event : LogEvent)

/-- The logger that a call on formatters or attachments is made on. -/
def AppenderCall.logger? {L A F : Type} : AppenderCall L A F → Option L
  | addAppender l _ => some l
  | delAppender l _ => some l
  | setFormatter l _ => some l
  | setPattern l _ _ => some l
  | setAppenderFormatter _ _ => none

namespace LogState

variable {F : Type}

/-- `Logger::Logger`, and the pointer to the root logger. -/
def newLogger (s : LogState F) (name : List Char) (root : Option Nat) : LogState F :=
  { s with
    made := s.made + 1
    name := Function.update s.name s.made name
    level := Function.update s.level s.made .debug
    root := Function.update s.root s.made root }

/-- `LoggerManager::getLogger`. -/
def getLogger (s : LogState F) (name : List Char) : Nat × LogState F :=
  match s.loggers name with
  | some l => (l, s)
  | none =>
      (s.made,
        { s.newLogger name (some 0) with
          loggers := Function.update s.loggers name (some s.made) })

/-- The loop of `Logger::log`: every appender in the list writes. -/
def write (s : LogState F) (wrap : Option Nat) (l : Nat) (level : Level)
    (event : LogEvent) :
    List Nat → (Nat → List (Record F)) → Option (Nat → List (Record F))
  | [], written => some written
  | a :: as, written =>
      ((s.outputs.appenders a).log id
          (fun f records => records ++ [⟨wrap, f, l, level, event⟩]) level (written a)).bind
        fun records => s.write wrap l level event as (Function.update written a records)

/-- `Logger::log`.  The first number bounds the calls on `m_root`. -/
def log (s : LogState F) (wrap : Option Nat) (level : Level) (event : LogEvent) :
    Nat → Nat → Option (Nat → List (Record F))
  | 0, _ => none
  | fuel + 1, l =>
      if level.value ≥ (s.level l).value then
        if !(s.outputs.loggers l).appenders.isEmpty then
          s.write wrap l level event (s.outputs.loggers l).appenders s.written
        else
          match s.root l with
          | some root => s.log wrap level event fuel root
          | none => some s.written
      else some s.written

/-- What a call does; `none` where it is made on a logger or a wrap that there is not,
and where `log` dereferences the null pointer. -/
def step (s : LogState F) : LoggerCall F → Option (LogState F)
  | .getLogger name => some (s.getLogger name).2
  | .newLogger name => some (s.newLogger name none)
  | .setLevel l val =>
      if l < s.made then some { s with level := Function.update s.level l val } else none
  | .setAppenderLevel a val =>
      let appender := { s.outputs.appenders a with level := val }
      some { s with
        outputs := { s.outputs with
          appenders := Function.update s.outputs.appenders a appender } }
  | .output c =>
      if ∀ l ∈ c.logger?, l < s.made then
        some { s with outputs := s.outputs.apply c }
      else none
  | .wrap l level event =>
      if l < s.made then
        if (s.level l).value ≤ level.value then
          some { s with
            wraps := Function.update s.wraps s.wrapped (some ⟨l, level, event⟩)
            wrapped := s.wrapped + 1 }
        else some s
      else none
  | .unwrap w content =>
      (s.wraps w).bind fun v =>
        (s.log (some w) v.level { v.event with content := content } s.made v.logger).map
          fun written =>
            { s with written := written, wraps := Function.update s.wraps w none }
  | .log l level event =>
      if l < s.made then
        (s.log none level event s.made l).map fun written => { s with written := written }
      else none

/-- `LoggerManager::LoggerManager`: the root logger with appender `0`.  The constructors
leave the levels of appenders to chance. -/
def start (first : Nat → F) (level : Nat → Level) : LogState F where
  loggers := Function.update (fun _ => none) "root".toList (some 0)
  made := 1
  name _ := "root".toList
  level _ := .debug
  root _ := none
  outputs := (Loggers.start first level).addAppender 0 0
  wraps _ := none
  wrapped := 0
  written _ := []

end LogState

/-- The programs that log. -/
def logSystem (F : Type) : System (LogState F) (LoggerCall F) where
  init s := ∃ first level, s = LogState.start first level
  step := LogState.step

namespace LogState

variable {F : Type} {s t : LogState F}

/-! ## What `log` writes -/

/-- The logger whose appenders get an event at `level` given to `l`. -/
def target (s : LogState F) (l : Nat) (level : Level) : Option Nat :=
  if level.value ≥ (s.level l).value then
    if !(s.outputs.loggers l).appenders.isEmpty then some l
    else (s.root l).filter fun root => level.value ≥ (s.level root).value
  else none

/-- The records of an appender that is `n` times on the logger `l`. -/
def copies (s : LogState F) (wrap : Option Nat) (l : Nat) (level : Level)
    (event : LogEvent) (a n : Nat) : List (Record F) :=
  if level.value ≥ (s.outputs.appenders a).level.value then
    (s.outputs.appenders a).formatter.toList.flatMap fun f =>
      List.replicate n ⟨wrap, f, l, level, event⟩
  else []

/-- The records of an appender for an event at `level` given to `l`. -/
def records (s : LogState F) (wrap : Option Nat) (l : Nat) (level : Level)
    (event : LogEvent) (a : Nat) : List (Record F) :=
  (s.target l level).toList.flatMap fun l' =>
    s.copies wrap l' level event a ((s.outputs.loggers l').appenders.count a)

section Log

variable {wrap : Option Nat} {l : Nat} {level : Level} {event : LogEvent}

theorem mem_copies {a n : Nat} {r : Record F}
    (h : r ∈ s.copies wrap l level event a n) : r.wrap = wrap := by
  rw [copies] at h
  split_ifs at h
  · simp only [List.mem_flatMap, List.mem_replicate] at h
    obtain ⟨_, _, _, rfl⟩ := h
    rfl
  · exact absurd h List.not_mem_nil

theorem mem_records {a : Nat} {r : Record F}
    (h : r ∈ s.records wrap l level event a) : r.wrap = wrap := by
  rw [records, List.mem_flatMap] at h
  obtain ⟨_, _, hr⟩ := h
  exact mem_copies hr

/-- An appender with a formatter writes one more record. -/
theorem copies_succ {a : Nat} {f : F} (hf : (s.outputs.appenders a).formatter = some f)
    (hlevel : level.value ≥ (s.outputs.appenders a).level.value) (n : Nat) :
    s.copies wrap l level event a (n + 1) =
      ⟨wrap, f, l, level, event⟩ :: s.copies wrap l level event a n := by
  simp [copies, hf, hlevel, List.replicate_succ]

/-- Every appender in the list appends its records. -/
theorem write_eq_some {as : List Nat} {written written' : Nat → List (Record F)}
    (h : s.write wrap l level event as written = some written') (a : Nat) :
    written' a = written a ++ s.copies wrap l level event a (as.count a) := by
  induction as generalizing written with
  | nil =>
      obtain rfl := Option.some.inj h
      simp [copies]
  | cons b as ih =>
      simp only [write, Option.bind_eq_some_iff] at h
      obtain ⟨records, hb, hrest⟩ := h
      have hafter := ih hrest
      by_cases hab : a = b
      · subst hab
        rw [Function.update_self] at hafter
        by_cases hlevel : level.value ≥ (s.outputs.appenders a).level.value
        · simp only [LogAppender.log, if_pos hlevel, Option.map_eq_some_iff] at hb
          obtain ⟨f, hf, rfl⟩ := hb
          rw [hafter, List.count_cons_self, copies_succ hf hlevel, List.append_assoc]
          rfl
        · simp only [LogAppender.log, if_neg hlevel, Option.some.injEq] at hb
          rw [hafter, ← hb, copies, copies, if_neg hlevel, if_neg hlevel]
      · rw [Function.update_of_ne hab] at hafter
        rw [hafter, List.count_cons_of_ne (Ne.symm hab)]

end Log

/-! ## What is known of every state -/

/-- The manager has each logger under its own name, the pointers to the root logger are
where `getLogger` puts them, and what is written belongs to wraps that are gone. -/
structure Consistent (s : LogState F) : Prop where
  root_made : 0 < s.made
  root_named : s.loggers "root".toList = some 0
  named : ∀ name l, s.loggers name = some l → l < s.made ∧ s.name l = name
  rooted : ∀ name l, s.loggers name = some l → s.root l = if l = 0 then none else some 0
  root_zero : ∀ l root, s.root l = some root → root = 0
  root_root : s.root 0 = none
  wraps_made : ∀ w v, s.wraps w = some v → w < s.wrapped ∧ v.logger < s.made
  written_gone : ∀ a r, r ∈ s.written a → ∀ w, r.wrap = some w →
    w < s.wrapped ∧ s.wraps w = none

/-- What calls leave as it is.  Nothing more is written for a wrap that is gone. -/
structure Later (s t : LogState F) : Prop where
  kept : ∀ name l, s.loggers name = some l → t.loggers name = some l
  wrapped : s.wrapped ≤ t.wrapped
  wraps : ∀ w, w < s.wrapped → t.wraps w = s.wraps w ∨ t.wraps w = none
  written : ∀ a, ∃ later, t.written a = s.written a ++ later ∧
    ∀ r ∈ later, ∀ w, w < s.wrapped → s.wraps w = none → r.wrap ≠ some w

theorem Later.gone (h : Later s t) {w : Nat} (hw : w < s.wrapped) (hnone : s.wraps w = none) :
    t.wraps w = none :=
  (h.wraps w hw).elim (fun heq => heq.trans hnone) id

theorem Later.refl (s : LogState F) : Later s s where
  kept _ _ h := h
  wrapped := Nat.le_refl _
  wraps _ _ := .inl rfl
  written _ := ⟨[], (List.append_nil _).symm, fun _ h => absurd h List.not_mem_nil⟩

theorem Later.trans {u : LogState F} (h : Later s t) (h' : Later t u) : Later s u where
  kept name l hl := h'.kept name l (h.kept name l hl)
  wrapped := Nat.le_trans h.wrapped h'.wrapped
  wraps w hw := by
    rcases h'.wraps w (Nat.lt_of_lt_of_le hw h.wrapped) with heq | hnone
    · rw [heq]
      exact h.wraps w hw
    · exact .inr hnone
  written a := by
    obtain ⟨later, heq, hlater⟩ := h.written a
    obtain ⟨later', heq', hlater'⟩ := h'.written a
    refine ⟨later ++ later', by rw [heq', heq, List.append_assoc], ?_⟩
    intro r hr w hw hnone
    rcases List.mem_append.mp hr with hr | hr
    · exact hlater r hr w hw hnone
    · exact hlater' r hr w (Nat.lt_of_lt_of_le hw h.wrapped) (h.gone hw hnone)

/-- A call that neither writes nor opens or closes a wrap. -/
theorem Later.of_eq (hkept : ∀ name l, s.loggers name = some l → t.loggers name = some l)
    (hwrapped : t.wrapped = s.wrapped) (hwraps : t.wraps = s.wraps)
    (hwritten : t.written = s.written) : Later s t where
  kept := hkept
  wrapped := Nat.le_of_eq hwrapped.symm
  wraps _ _ := .inl (congrFun hwraps _)
  written a := ⟨[], by rw [hwritten, List.append_nil], fun _ h => absurd h List.not_mem_nil⟩

theorem start_loggers {first : Nat → F} {level : Nat → Level} {name : List Char} {l : Nat}
    (h : (start first level).loggers name = some l) : name = "root".toList ∧ l = 0 := by
  simp only [start, Function.update_apply] at h
  split_ifs at h with hname
  exact ⟨hname, (Option.some.inj h).symm⟩

theorem start_consistent (first : Nat → F) (level : Nat → Level) :
    Consistent (start first level) where
  root_made := Nat.one_pos
  root_named := by simp [start]
  named := by
    intro name l h
    obtain ⟨rfl, rfl⟩ := start_loggers h
    exact ⟨Nat.one_pos, rfl⟩
  rooted := by
    intro name l h
    obtain ⟨_, rfl⟩ := start_loggers h
    rfl
  root_zero := by
    intro l root h
    cases h
  root_root := rfl
  wraps_made := by
    intro w v h
    cases h
  written_gone := by
    intro a r h
    cases h

/-! ## One call -/

/-- One more logger, whose pointer to the root logger is `root`. -/
theorem Consistent.newLogger (h : Consistent s) (name : List Char) {root : Option Nat}
    (hroot : root = none ∨ root = some 0) : Consistent (s.newLogger name root) where
  root_made := Nat.succ_pos _
  root_named := h.root_named
  named := by
    intro name' l hl
    obtain ⟨hlt, hname⟩ := h.named name' l hl
    exact ⟨Nat.lt_succ_of_lt hlt, (Function.update_of_ne (Nat.ne_of_lt hlt) _ _).trans hname⟩
  rooted := by
    intro name' l hl
    have hlt := (h.named name' l hl).1
    exact (Function.update_of_ne (Nat.ne_of_lt hlt) _ _).trans (h.rooted name' l hl)
  root_zero := by
    intro l r hr
    simp only [LogState.newLogger, Function.update_apply] at hr
    split_ifs at hr with hl
    · rcases hroot with rfl | rfl
      · cases hr
      · exact (Option.some.inj hr).symm
    · exact h.root_zero l r hr
  root_root := (Function.update_of_ne (Nat.ne_of_lt h.root_made) _ _).trans h.root_root
  wraps_made := by
    intro w v hv
    obtain ⟨hw, hl⟩ := h.wraps_made w v hv
    exact ⟨hw, Nat.lt_succ_of_lt hl⟩
  written_gone := h.written_gone

theorem later_getLogger (s : LogState F) (name : List Char) : Later s (s.getLogger name).2 := by
  rw [LogState.getLogger]
  cases hname : s.loggers name with
  | some l => exact Later.refl s
  | none =>
      refine Later.of_eq (fun name' l hl => ?_) rfl rfl rfl
      have hne : name' ≠ name := by
        rintro rfl
        rw [hname] at hl
        cases hl
      exact (Function.update_of_ne hne _ _).trans hl

theorem Consistent.getLogger (h : Consistent s) (name : List Char) :
    Consistent (s.getLogger name).2 := by
  rw [LogState.getLogger]
  cases hname : s.loggers name with
  | some l => exact h
  | none =>
      have hnew := h.newLogger name (.inr rfl : some 0 = none ∨ some 0 = some 0)
      have hmade : s.made ≠ 0 := Nat.ne_of_gt h.root_made
      refine { hnew with root_named := ?_, named := ?_, rooted := ?_ }
      · have hkept := (later_getLogger s name).kept _ _ h.root_named
        rwa [LogState.getLogger, hname] at hkept
      · intro name' l hl
        simp only [Function.update_apply] at hl
        split_ifs at hl with heq
        · obtain rfl := Option.some.inj hl
          exact ⟨Nat.lt_succ_self _, by simp [LogState.newLogger, heq]⟩
        · exact hnew.named name' l hl
      · intro name' l hl
        simp only [Function.update_apply] at hl
        split_ifs at hl with heq
        · obtain rfl := Option.some.inj hl
          simp [LogState.newLogger, hmade]
        · exact hnew.rooted name' l hl

theorem Consistent.wrap (h : Consistent s) {l : Nat} (hl : l < s.made) (level : Level)
    (event : LogEvent) :
    Consistent { s with
      wraps := Function.update s.wraps s.wrapped (some ⟨l, level, event⟩)
      wrapped := s.wrapped + 1 } :=
  { h with
    wraps_made := by
      intro w v hv
      simp only [Function.update_apply] at hv
      split_ifs at hv with hw
      · obtain rfl := Option.some.inj hv
        exact ⟨hw ▸ Nat.lt_succ_self _, hl⟩
      · obtain ⟨hlt, hmade⟩ := h.wraps_made w v hv
        exact ⟨Nat.lt_succ_of_lt hlt, hmade⟩
    written_gone := by
      intro a r hr w hw
      obtain ⟨hlt, hnone⟩ := h.written_gone a r hr w hw
      exact ⟨Nat.lt_succ_of_lt hlt,
        (Function.update_of_ne (Nat.ne_of_lt hlt) _ _).trans hnone⟩ }

theorem later_wrap (s : LogState F) (v : LogEventWrap) :
    Later s { s with
      wraps := Function.update s.wraps s.wrapped (some v)
      wrapped := s.wrapped + 1 } where
  kept _ _ h := h
  wrapped := Nat.le_succ _
  wraps _ hw := .inl (Function.update_of_ne (Nat.ne_of_lt hw) _ _)
  written _ := ⟨[], (List.append_nil _).symm, fun _ h => absurd h List.not_mem_nil⟩

section Log

variable {wrap : Option Nat} {l : Nat} {level : Level} {event : LogEvent}

/-- On the root logger one call is enough. -/
theorem Consistent.log_root (h : Consistent s) (fuel : Nat) :
    s.log wrap level event (fuel + 1) 0 =
      if level.value ≥ (s.level 0).value then
        s.write wrap 0 level event (s.outputs.loggers 0).appenders s.written
      else some s.written := by
  rw [log]
  by_cases hlevel : level.value ≥ (s.level 0).value
  · rw [if_pos hlevel, if_pos hlevel]
    cases happ : (s.outputs.loggers 0).appenders with
    | nil => simp [h.root_root, write]
    | cons a as => simp
  · rw [if_neg hlevel, if_neg hlevel]

/-- The logger that gets an event is found before the calls on `m_root` run out. -/
theorem Consistent.log_eq (h : Consistent s) (hl : l < s.made) :
    s.log wrap level event s.made l =
      match s.target l level with
      | some l' => s.write wrap l' level event (s.outputs.loggers l').appenders s.written
      | none => some s.written := by
  obtain ⟨fuel, hmade⟩ := Nat.exists_eq_succ_of_ne_zero (Nat.ne_of_gt h.root_made)
  rw [hmade, log, target]
  by_cases hlevel : level.value ≥ (s.level l).value
  · rw [if_pos hlevel, if_pos hlevel]
    cases happ : (s.outputs.loggers l).appenders with
    | cons a as => simp [happ]
    | nil =>
        cases hroot : s.root l with
        | none => simp
        | some root =>
            -- a logger with a pointer to the root logger is not the first one
            obtain rfl := h.root_zero l root hroot
            have hpos : l ≠ 0 := by
              rintro rfl
              rw [h.root_root] at hroot
              cases hroot
            obtain ⟨fuel', rfl⟩ : ∃ fuel', fuel = fuel' + 1 :=
              Nat.exists_eq_succ_of_ne_zero (by omega)
            by_cases hlevel' : level.value ≥ (s.level 0).value
            · simp [h.log_root fuel', hlevel', Option.filter]
            · simp [h.log_root fuel', hlevel', Option.filter]
  · rw [if_neg hlevel, if_neg hlevel]

/-- **One event.**  Every appender of the logger that gets it appends its records. -/
theorem log_eq_some (h : Consistent s) (hl : l < s.made) {written : Nat → List (Record F)}
    (hlog : s.log wrap level event s.made l = some written) (a : Nat) :
    written a = s.written a ++ s.records wrap l level event a := by
  rw [h.log_eq hl] at hlog
  cases htarget : s.target l level with
  | none =>
      rw [htarget] at hlog
      obtain rfl := Option.some.inj hlog
      simp [records, htarget]
  | some l' =>
      rw [htarget] at hlog
      simp [records, htarget, write_eq_some hlog a]

/-- What `log` writes for a wrap that it closes, or for none. -/
theorem Consistent.log (h : Consistent s) (hl : l < s.made)
    {written : Nat → List (Record F)} {wraps : Nat → Option LogEventWrap}
    (hlog : s.log wrap level event s.made l = some written)
    (hwraps : ∀ w, wraps w = s.wraps w ∨ wraps w = none)
    (hclosed : ∀ w, wrap = some w → s.wraps w ≠ none ∧ wraps w = none) :
    Consistent { s with written := written, wraps := wraps } ∧
      Later s { s with written := written, wraps := wraps } := by
  have hwritten := log_eq_some h hl hlog
  constructor
  · refine { h with wraps_made := fun w v hv => ?_, written_gone := fun a r hr w hw => ?_ }
    · rcases hwraps w with heq | hnone
      · exact h.wraps_made w v (heq ▸ hv)
      · exact absurd (hv.symm.trans hnone) (by simp)
    · simp only [hwritten a, List.mem_append] at hr
      rcases hr with hr | hr
      · obtain ⟨hlt, hgone⟩ := h.written_gone a r hr w hw
        exact ⟨hlt, (hwraps w).elim (fun heq => heq.trans hgone) id⟩
      · rw [mem_records hr] at hw
        obtain ⟨hopen, hclose⟩ := hclosed w hw
        obtain ⟨v, hv⟩ := Option.ne_none_iff_exists'.mp hopen
        exact ⟨(h.wraps_made w v hv).1, hclose⟩
  · refine ⟨fun _ _ hl => hl, Nat.le_refl _, fun w _ => hwraps w, fun a => ?_⟩
    refine ⟨_, hwritten a, fun r hr w _ hnone hw => ?_⟩
    rw [mem_records hr] at hw
    exact (hclosed w hw).1 hnone

end Log

/-- What one call leaves behind. -/
theorem Consistent.step (h : Consistent s) {c : LoggerCall F} (hstep : s.step c = some t) :
    Consistent t ∧ Later s t := by
  cases c with
  | getLogger name =>
      obtain rfl := Option.some.inj hstep
      exact ⟨h.getLogger name, later_getLogger s name⟩
  | newLogger name =>
      obtain rfl := Option.some.inj hstep
      exact ⟨h.newLogger name (.inl rfl), Later.of_eq (fun _ _ hl => hl) rfl rfl rfl⟩
  | setLevel l val =>
      simp only [LogState.step, Option.ite_none_right_eq_some, Option.some.injEq] at hstep
      obtain ⟨_, rfl⟩ := hstep
      exact ⟨{ h with }, Later.of_eq (fun _ _ hl => hl) rfl rfl rfl⟩
  | setAppenderLevel a val =>
      obtain rfl := Option.some.inj hstep
      exact ⟨{ h with }, Later.of_eq (fun _ _ hl => hl) rfl rfl rfl⟩
  | output c =>
      simp only [LogState.step, Option.ite_none_right_eq_some, Option.some.injEq] at hstep
      obtain ⟨_, rfl⟩ := hstep
      exact ⟨{ h with }, Later.of_eq (fun _ _ hl => hl) rfl rfl rfl⟩
  | wrap l level event =>
      simp only [LogState.step, Option.ite_none_right_eq_some] at hstep
      obtain ⟨hl, hstep⟩ := hstep
      split_ifs at hstep with hlevel
      · obtain rfl := Option.some.inj hstep
        exact ⟨h.wrap hl level event, later_wrap s _⟩
      · obtain rfl := Option.some.inj hstep
        exact ⟨h, Later.refl s⟩
  | unwrap w content =>
      simp only [LogState.step, Option.bind_eq_some_iff, Option.map_eq_some_iff] at hstep
      obtain ⟨v, hv, written, hlog, rfl⟩ := hstep
      obtain ⟨hw, hl⟩ := h.wraps_made w v hv
      refine h.log hl hlog (fun w' => ?_) (fun w' hw' => ?_)
      · by_cases heq : w' = w
        · exact .inr (heq ▸ Function.update_self _ _ _)
        · exact .inl (Function.update_of_ne heq _ _)
      · obtain rfl := Option.some.inj hw'
        exact ⟨by rw [hv]; exact Option.some_ne_none v, Function.update_self _ _ _⟩
  | log l level event =>
      simp only [LogState.step, Option.ite_none_right_eq_some, Option.map_eq_some_iff] at hstep
      obtain ⟨hl, written, hlog, rfl⟩ := hstep
      exact h.log hl hlog (fun _ => .inl rfl) fun _ hw => absurd hw (by simp)

/-! ## Runs -/

theorem consistent_of_reachable (h : (logSystem F).Reachable anyStep s) : Consistent s := by
  refine h.invariant Consistent ?_ fun _ _ _ hs _ hstep => (hs.step hstep).1
  rintro _ ⟨first, level, rfl⟩
  exact start_consistent first level

theorem Consistent.reaches (h : Consistent s) (hr : (logSystem F).Reaches anyStep s t) :
    Consistent t ∧ Later s t := by
  induction hr with
  | refl => exact ⟨h, Later.refl s⟩
  | step _ _ hstep ih =>
      obtain ⟨hcons, hlater⟩ := ih.1.step hstep
      exact ⟨hcons, ih.2.trans hlater⟩

/-- The manager has what it gives. -/
theorem loggers_getLogger (s : LogState F) (name : List Char) :
    (s.getLogger name).2.loggers name = some (s.getLogger name).1 := by
  rw [getLogger]
  cases hname : s.loggers name with
  | some l => exact hname
  | none => exact Function.update_self _ _ _

theorem getLogger_of_loggers {name : List Char} {l : Nat} (h : s.loggers name = some l) :
    s.getLogger name = (l, s) := by
  rw [getLogger, h]

end LogState

/-- **One logger for one name.**  Whatever a program does after it has asked for a logger,
it is given the same logger again for the same name and for no other; the logger keeps its
name, and hands on to the root logger unless it is the root logger itself. -/
theorem getLogger_eq_iff {F : Type} {s t : LogState F} (name name' : List Char)
    (hs : (logSystem F).Reachable anyStep s)
    (hr : (logSystem F).Reaches anyStep (s.getLogger name).2 t) :
    ((t.getLogger name').1 = (s.getLogger name).1 ↔ name' = name) ∧
      t.name (s.getLogger name).1 = name ∧
      t.root (s.getLogger name).1 =
        if name = "root".toList then none else some 0 := by
  have hgiven := LogState.loggers_getLogger s name
  have hs' : (logSystem F).Reachable anyStep (s.getLogger name).2 :=
    hs.step (a := .getLogger name) trivial rfl
  obtain ⟨hcons, hlater⟩ := (LogState.consistent_of_reachable hs').reaches hr
  have hkept := hlater.kept name _ hgiven
  obtain ⟨hmade, hname⟩ := hcons.named name _ hkept
  refine ⟨⟨fun heq => ?_, ?_⟩, hname, ?_⟩
  · cases hl : t.loggers name' with
    | some l =>
        rw [LogState.getLogger_of_loggers hl] at heq
        rw [← hname, ← heq]
        exact (hcons.named name' l hl).2.symm
    | none =>
        -- a new logger is none of the old ones
        rw [LogState.getLogger, hl] at heq
        exact absurd (heq ▸ hmade) (Nat.lt_irrefl _)
  · rintro rfl
    rw [LogState.getLogger_of_loggers hkept]
  · rw [hcons.rooted name _ hkept]
    have hiff : (s.getLogger name).1 = 0 ↔ name = "root".toList := by
      constructor
      · intro hzero
        rw [← hname, hzero]
        exact (hcons.named _ 0 hcons.root_named).2
      · rintro rfl
        exact Option.some.inj (hkept.symm.trans hcons.root_named)
    simp only [hiff]

/-- A program that asks for one logger and then for another. -/
def twoNames : List (LoggerCall Nat) :=
  [.newLogger "net".toList, .getLogger "db".toList, .setLevel 1 .error]

/-- `"net"` is still the logger `1` after them, and `"db"` is not. -/
theorem twoNames_getLogger :
    ∃ s t : LogState Nat, s = LogState.start id (fun _ => .debug) ∧
      (logSystem Nat).exec (s.getLogger "net".toList).2 twoNames = some t ∧
      (s.getLogger "net".toList).1 = 1 ∧
      (t.getLogger "net".toList).1 = (s.getLogger "net".toList).1 ∧
      (t.getLogger "db".toList).1 ≠ (s.getLogger "net".toList).1 := by
  have hs : (logSystem Nat).Reachable anyStep (LogState.start id fun _ => .debug) :=
    ⟨_, ⟨id, fun _ => .debug, rfl⟩, System.Reaches.refl⟩
  refine ⟨_, _, rfl, rfl, rfl, ?_, fun heq => ?_⟩
  · exact (getLogger_eq_iff _ "net".toList hs
      (System.exec_reaches (rfl : (logSystem Nat).exec _ twoNames = some _))).1.mpr rfl
  · have hname := (getLogger_eq_iff _ "db".toList hs
      (System.exec_reaches (rfl : (logSystem Nat).exec _ twoNames = some _))).1.mp heq
    exact absurd hname (by decide)

/-- **The records of one event.**  A macro opens a wrap, any calls follow, the destructor
closes it, and any calls follow.  Then each appender of the logger, or of the root logger
when the logger has none, has as many records of the event as it is attached there, if the
levels let the event pass when the wrap is closed; they stand together after all that it
wrote before, and neither earlier nor later is a record of this wrap written. -/
theorem records_of_wrap {F : Type} {s₀ s₁ s s' t : LogState F} {l : Nat} {level : Level}
    {event : LogEvent} {content : List Char}
    (hs : (logSystem F).Reachable anyStep s₀)
    (hcall : s₀.step (.wrap l level event) = some s₁)
    (hpass : (s₀.level l).value ≤ level.value)
    (hopen : (logSystem F).Reaches anyStep s₁ s)
    (hclose : s.step (.unwrap s₀.wrapped content) = some s')
    (hr : (logSystem F).Reaches anyStep s' t) (a : Nat) :
    ∃ later, t.written a =
        s.written a ++
          s.records (some s₀.wrapped) l level { event with content := content } a ++ later ∧
      ∀ r ∈ s.written a ++ later, r.wrap ≠ some s₀.wrapped := by
  have hcons := LogState.consistent_of_reachable hs
  -- the wrap is open with its event until it is closed
  have hfirst : s₁.wraps s₀.wrapped = some ⟨l, level, event⟩ ∧ s₀.wrapped < s₁.wrapped := by
    simp only [LogState.step, Option.ite_none_right_eq_some, if_pos hpass,
      Option.some.injEq] at hcall
    obtain ⟨_, rfl⟩ := hcall
    exact ⟨Function.update_self _ _ _, Nat.lt_succ_self _⟩
  obtain ⟨hcons₂, hlater₂⟩ := (hcons.step hcall).1.reaches hopen
  obtain ⟨hcons₃, hlater₃⟩ := (hcons₂.step hclose).1.reaches hr
  have hwrap : s.wraps s₀.wrapped = some ⟨l, level, event⟩ := by
    rcases hlater₂.wraps _ hfirst.2 with heq | hnone
    · rw [heq, hfirst.1]
    · simp [LogState.step, hnone] at hclose
  obtain ⟨hlt, hl⟩ := hcons₂.wraps_made _ _ hwrap
  simp only [LogState.step, hwrap, Option.bind_some, Option.map_eq_some_iff] at hclose
  obtain ⟨written, hlog, rfl⟩ := hclose
  obtain ⟨later, heq, hnot⟩ := hlater₃.written a
  have hwritten := LogState.log_eq_some hcons₂ hl hlog a
  refine ⟨later, heq.trans (congrArg (· ++ later) hwritten), fun r hmem hw => ?_⟩
  rcases List.mem_append.mp hmem with hbefore | hafter
  · have hgone := (hcons₂.written_gone a r hbefore _ hw).2
    rw [hwrap] at hgone
    cases hgone
  · exact hnot r hafter _ hlt (Function.update_self _ _ _) hw

/-- What a program logs. -/
def netEvent : LogEvent where
  file := "net.cc".toList
  line := 7
  elapse := 0
  threadId := 1
  fibreId := 0
  time := 3
  threadName := "main".toList
  content := []

/-- A logger without appenders, whose level changes while a wrap is open. -/
def netRun : List (LoggerCall Nat) :=
  [.getLogger "net".toList, .setLevel 0 .warning]

/-- The calls while the wrap is open. -/
def netOpen : List (LoggerCall Nat) :=
  [.setLevel 1 .fatal, .setLevel 1 .error]

/-- The calls after it is closed. -/
def netRest : List (LoggerCall Nat) :=
  [.log 0 .fatal netEvent]

/-- The event goes to the appender of the root logger, with the root logger as its own. -/
theorem netRun_records :
    ∃ s₀ s₁ s s' t : LogState Nat,
      (logSystem Nat).exec (LogState.start id fun _ => .debug) netRun = some s₀ ∧
      s₀.step (.wrap 1 .error netEvent) = some s₁ ∧
      (logSystem Nat).exec s₁ netOpen = some s ∧
      s.step (.unwrap 0 "up".toList) = some s' ∧
      (logSystem Nat).exec s' netRest = some t ∧
      ∃ later, t.written 0 =
          s.written 0 ++ [⟨some 0, 0, 0, .error, { netEvent with content := "up".toList }⟩] ++
            later ∧
        ∀ r ∈ s.written 0 ++ later, r.wrap ≠ some 0 := by
  refine ⟨_, _, _, _, _, rfl, rfl, rfl, rfl, rfl, ?_⟩
  exact records_of_wrap
    (System.exec_reachable (T := logSystem Nat) ⟨id, fun _ => .debug, rfl⟩
      (rfl : (logSystem Nat).exec _ netRun = some _))
    (rfl : LogState.step _ (.wrap 1 .error netEvent) = some _) (by decide)
    (System.exec_reaches (rfl : (logSystem Nat).exec _ netOpen = some _))
    (rfl : LogState.step _ (.unwrap 0 "up".toList) = some _)
    (System.exec_reaches (rfl : (logSystem Nat).exec _ netRest = some _)) 0

end Logging
end Hpgs
