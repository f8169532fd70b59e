import Hpgs.Library.Transition

/-!
# Log records in a file

A `LogEvent` is turned into text by the items of a `LogFormatter`.  A `FileLogAppender`
writes the texts of the events at its level or above to a file.  Three seconds after it
opened the file it closes it and opens it again, in the default mode of
`std::ofstream::open(name)`, which empties it.  Only the file of the appender is modelled,
with what is still in the buffer of the stream; the file system does not fail.

**Results.**
* `format_ready`: formatting into a stream appends the formatted text.
* `log_file`: what one call does to the file.
* `records_kept_iff`: the file has the texts of all events in the order of the calls iff
  it was empty whenever it was opened again.
-/

namespace Hpgs
namespace Logging

open Transition

/-- `LogLevel::Level`. -/
inductive Level
  | unknow
  | debug
  | info
  | warning
  | error
  | fatal
deriving DecidableEq, Repr

namespace Level

/-- The number of a level. -/
def value : Level → Nat
  | unknow => 0
  | debug => 1
  | info => 2
  | warning => 3
  | error => 4
  | fatal => 5

/-- `LogLevel::ToString`. -/
def toString : Level → List Char
  | debug => "DEBUG".toList
  | info => "INFO".toList
  | warning => "WARNING".toList
  | error => "ERROR".toList
  | fatal => "FATAL".toList
  | unknow => "UNKNOW".toList

end Level

/-- `LogEvent`; `content` is the text in its string stream. -/
structure LogEvent where
  file : List Char
  line : Int32
  elapse : UInt32
  threadId : UInt32
  fibreId : UInt32
  time : UInt64
  threadName : List Char
  content : List Char
deriving DecidableEq

/-- The `FormatItem` classes. -/
inductive FormatItem
  | message
  | level
  | elapse
  | name
  | threadId
  | fibreId
  | threadName
  | dateTime (format : List Char)
  | fileName
  | line
  | newLine
  | string (str : List Char)
  | tab
deriving DecidableEq, Repr

/-- What `<<` writes for a number. -/
def decimal (n : Int) : List Char :=
  if n < 0 then '-' :: Nat.toDigits 10 n.natAbs else Nat.toDigits 10 n.natAbs

/-- What an item writes.  `strftime` stands for `localtime_r` and `strftime`. -/
def FormatItem.format (strftime : List Char → UInt64 → List Char) (logger : List Char)
    (level : Level) (event : LogEvent) : FormatItem → List Char
  | .message => event.content
  | .level => level.toString
  | .elapse => decimal event.elapse.toNat
  | .name => logger
  | .threadId => decimal event.threadId.toNat
  | .fibreId => decimal event.fibreId.toNat
  | .threadName => event.threadName
  | .dateTime format => strftime format event.time
  | .fileName => event.file
  | .line => decimal event.line.toInt
  | .newLine => ['\n']
  | .string str => str
  | .tab => ['\t']

/-- A `std::ofstream` on one file: what is in the file, and whether the stream is open
and has failed. -/
structure Ofstream where
  file : List Char
  isOpen : Bool
  failed : Bool
deriving DecidableEq

namespace Ofstream

/-- `close`; it fails on a stream that is not open. -/
def close (s : Ofstream) : Ofstream :=
  if s.isOpen then { s with isOpen := false } else { s with failed := true }

/-- `open(name)` in the default mode: the file is emptied.  It fails on a stream that is
open. -/
def openFile (s : Ofstream) : Ofstream :=
  if s.isOpen then { s with failed := true }
  else { file := [], isOpen := true, failed := false }

/-- `<<`. -/
def put (s : Ofstream) (text : List Char) : Ofstream :=
  if s.isOpen && !s.failed then { s with file := s.file ++ text }
  else { s with failed := true }

/-- The stream is open and has not failed. -/
def Ready (s : Ofstream) : Prop :=
  s.isOpen = true ∧ s.failed = false

end Ofstream

/-- `LogFormatter`. -/
structure LogFormatter where
  items : List FormatItem

namespace LogFormatter

variable (strftime : List Char → UInt64 → List Char)

/-- `format(logger, level, event)`. -/
def format (f : LogFormatter) (logger : List Char) (level : Level) (event : LogEvent) :
    List Char :=
  f.items.flatMap (FormatItem.format strftime logger level event)

/-- `format(ofs, logger, level, event)`. -/
def formatTo (f : LogFormatter) (ofs : Ofstream) (logger : List Char) (level : Level)
    (event : LogEvent) : Ofstream :=
  f.items.foldl (fun ofs i => ofs.put (i.format strftime logger level event)) ofs

end LogFormatter

/-- The arguments of a call of `log`. -/
structure LogCall where
  logger : List Char
  level : Level
  event : LogEvent
deriving DecidableEq

/-- `FileLogAppender` with a formatter. -/
structure FileLogAppender where
  filestream : Ofstream
  lastTime : UInt64
  level : Level
  formatter : LogFormatter

namespace FileLogAppender

/-- `reopen`. -/
def reopen (a : FileLogAppender) : FileLogAppender :=
  let filestream := if a.filestream.failed then a.filestream else a.filestream.close
  { a with filestream := filestream.openFile }

/-- The constructor, `setLevel` and `setFormatter`, where `existing` is in the file. -/
def new (existing : List Char) (level : Level) (formatter : LogFormatter) :
    FileLogAppender :=
  reopen
    { filestream := { file := existing, isOpen := false, failed := false }
      lastTime := 0
      level := level
      formatter := formatter }

/-- `log`. -/
def log (strftime : List Char → UInt64 → List Char) (a : FileLogAppender) (c : LogCall) :
    FileLogAppender :=
  if c.level.value ≥ a.level.value then
    let now := c.event.time
    let a' := if now ≥ a.lastTime + 3 then { a.reopen with lastTime := now } else a
    { a' with
      filestream := a'.formatter.formatTo strftime a'.filestream c.logger c.level c.event }
  else a

variable (strftime : List Char → UInt64 → List Char)

/-- The calls of `log` on one appender. -/
def logging : System FileLogAppender LogCall where
  init a := ∃ existing level formatter, a = new existing level formatter
  step a c := some (a.log strftime c)

/-- The appender after a sequence of calls. -/
def logAll (a : FileLogAppender) (calls : List LogCall) : FileLogAppender :=
  calls.foldl (log strftime) a

/-- The texts that the calls should leave in the file. -/
def records (a : FileLogAppender) (calls : List LogCall) : List (List Char) :=
  (calls.filter fun c => decide (c.level.value ≥ a.level.value)).map
    fun c => a.formatter.format strftime c.logger c.level c.event

/-- A call that opens the file again finds it empty. -/
def FindsEmpty (a : FileLogAppender) (c : LogCall) : Prop :=
  c.level.value ≥ a.level.value → c.event.time ≥ a.lastTime + 3 → a.filestream.file = []

end FileLogAppender

/-- The texts stand in `content` one behind the other. -/
def InOrder {α : Type} : List (List α) → List α → Prop
  | [], _ => True
  | text :: texts, content =>
      ∃ before after, content = before ++ text ++ after ∧ InOrder texts after

/-! ## Texts in order -/

section InOrder

variable {α : Type}

theorem inOrder_flatten (texts : List (List α)) : InOrder texts texts.flatten := by
  induction texts with
  | nil => exact trivial
  | cons text texts ih => exact ⟨[], texts.flatten, by simp, ih⟩

/-- Texts in order do not share characters. -/
theorem InOrder.length_le {texts : List (List α)} {content : List α}
    (h : InOrder texts content) : texts.flatten.length ≤ content.length := by
  induction texts generalizing content with
  | nil => exact Nat.zero_le _
  | cons text texts ih =>
      obtain ⟨before, after, rfl, hrest⟩ := h
      have hle := ih hrest
      simp only [List.flatten_cons, List.length_append]
      omega

end InOrder

/-! ## The stream -/

variable (strftime : List Char → UInt64 → List Char)

/-- Formatting into a stream that works appends the formatted text. -/
theorem LogFormatter.format_ready (f : LogFormatter) {s : Ofstream} (h : s.Ready)
    (logger : List Char) (level : Level) (event : LogEvent) :
    f.formatTo strftime s logger level event =
      { s with file := s.file ++ f.format strftime logger level event } := by
  obtain ⟨items⟩ := f
  simp only [formatTo, format]
  induction items generalizing s with
  | nil => simp
  | cons i items ih =>
      have hput : s.put (i.format strftime logger level event) =
          { s with file := s.file ++ i.format strftime logger level event } := by
        simp [Ofstream.put, h.1, h.2]
      have hready : (s.put (i.format strftime logger level event)).Ready := by
        rw [hput]
        exact h
      rw [List.foldl_cons, ih hready, hput, List.flatMap_cons, List.append_assoc]

namespace FileLogAppender

/-- `reopen` empties the file. -/
theorem reopen_ready (a : FileLogAppender) (h : a.filestream.Ready) :
    a.reopen.filestream = { file := [], isOpen := true, failed := false } := by
  simp [reopen, h.1, h.2, Ofstream.close, Ofstream.openFile]

/-- The first `close` fails, and `open` clears the failure. -/
theorem new_ready (existing : List Char) (level : Level) (formatter : LogFormatter) :
    (new existing level formatter).filestream =
      { file := [], isOpen := true, failed := false } := by
  simp [new, reopen, Ofstream.close, Ofstream.openFile]

/-- What a call leaves alone. -/
structure Same (a a' : FileLogAppender) : Prop where
  ready : a'.filestream.Ready
  level : a'.level = a.level
  formatter : a'.formatter = a.formatter

variable {a : FileLogAppender} {c : LogCall}

theorem records_below (hlevel : ¬ c.level.value ≥ a.level.value) :
    a.records strftime [c] = [] := by
  simp [records, hlevel]

theorem records_above (hlevel : c.level.value ≥ a.level.value) :
    a.records strftime [c] = [a.formatter.format strftime c.logger c.level c.event] := by
  simp [records, hlevel]

theorem records_cons (c : LogCall) (calls : List LogCall) :
    a.records strftime (c :: calls) = a.records strftime [c] ++ a.records strftime calls := by
  simp only [records, ← List.map_append, ← List.filter_append, List.singleton_append]

/-- **One call.**  The record of the call, if it has one, is appended, to an empty file
if it was opened again. -/
theorem log_file (c : LogCall) (h : a.filestream.Ready) :
    Same a (a.log strftime c) ∧
      (a.log strftime c).filestream.file =
        (if c.level.value ≥ a.level.value ∧ c.event.time ≥ a.lastTime + 3 then []
          else a.filestream.file) ++ (a.records strftime [c]).flatten := by
  by_cases hlevel : c.level.value ≥ a.level.value
  · rw [records_above strftime hlevel, List.flatten_singleton, log, if_pos hlevel]
    by_cases hlate : c.event.time ≥ a.lastTime + 3
    · have hopen : a.reopen.filestream.Ready := by
        rw [reopen_ready a h]
        exact ⟨rfl, rfl⟩
      simp only [if_pos hlate, if_pos (And.intro hlevel hlate),
        LogFormatter.format_ready strftime _ hopen]
      refine ⟨⟨hopen, rfl, rfl⟩, ?_⟩
      rw [reopen_ready a h]
      rfl
    · have hkeep : ¬ (c.level.value ≥ a.level.value ∧ c.event.time ≥ a.lastTime + 3) :=
        fun hc => hlate hc.2
      simp only [if_neg hlate, if_neg hkeep, LogFormatter.format_ready strftime _ h]
      exact ⟨⟨h, rfl, rfl⟩, trivial⟩
  · have hsame : a.log strftime c = a := if_neg hlevel
    have hkeep : ¬ (c.level.value ≥ a.level.value ∧ c.event.time ≥ a.lastTime + 3) :=
      fun hc => hlevel hc.1
    rw [hsame, records_below strftime hlevel, if_neg hkeep]
    exact ⟨⟨h, rfl, rfl⟩, by simp⟩

/-- A call that finds the file empty when it opens it again appends its record. -/
theorem log_file_of_findsEmpty (h : a.filestream.Ready) (hempty : FindsEmpty a c) :
    (a.log strftime c).filestream.file =
      a.filestream.file ++ (a.records strftime [c]).flatten := by
  rw [(log_file strftime c h).2]
  split
  · rename_i hopen
    rw [hempty hopen.1 hopen.2]
  · rfl

/-- A call adds at most its record. -/
theorem log_length_le (c : LogCall) (h : a.filestream.Ready) :
    (a.log strftime c).filestream.file.length ≤
      a.filestream.file.length + (a.records strftime [c]).flatten.length := by
  rw [(log_file strftime c h).2, List.length_append]
  split
  · exact Nat.add_le_add_right (Nat.zero_le _) _
  · exact Nat.le_refl _

/-- A call that empties a file with something in it adds less. -/
theorem log_length_lt (h : a.filestream.Ready) (hempty : ¬ FindsEmpty a c) :
    (a.log strftime c).filestream.file.length <
      a.filestream.file.length + (a.records strftime [c]).flatten.length := by
  simp only [FindsEmpty, not_forall] at hempty
  obtain ⟨hlevel, hlate, hne⟩ := hempty
  have hpos := List.length_pos_iff.mpr hne
  rw [(log_file strftime c h).2, if_pos ⟨hlevel, hlate⟩, List.nil_append]
  omega

/-! ## Sequences of calls -/

theorem records_congr {a' : FileLogAppender} (h : Same a a') (calls : List LogCall) :
    a'.records strftime calls = a.records strftime calls := by
  simp only [records, h.level, h.formatter]

/-- The file never has more than what it had and the records. -/
theorem logAll_length_le (calls : List LogCall) (h : a.filestream.Ready) :
    (a.logAll strftime calls).filestream.file.length ≤
      a.filestream.file.length + (a.records strftime calls).flatten.length := by
  induction calls generalizing a with
  | nil => exact Nat.le_add_right _ _
  | cons c calls ih =>
      have hsame := (log_file strftime c h).1
      have hone := log_length_le strftime c h
      have hrest := ih hsame.ready
      rw [records_congr strftime hsame] at hrest
      rw [records_cons, List.flatten_append, List.length_append, ← Nat.add_assoc]
      exact Nat.le_trans hrest (Nat.add_le_add_right hone _)

/-- Where the file is empty whenever it is opened again, all records are in it. -/
theorem logAll_file (calls : List LogCall) (h : a.filestream.Ready)
    (hmeet : (logging strftime).StepsMeet FindsEmpty a calls) :
    (a.logAll strftime calls).filestream.file =
      a.filestream.file ++ (a.records strftime calls).flatten := by
  induction calls generalizing a with
  | nil => simp [logAll, records]
  | cons c calls ih =>
      obtain ⟨hempty, hnext⟩ := hmeet
      have hsame := (log_file strftime c h).1
      have hrest := ih hsame.ready (hnext _ rfl)
      rw [records_congr strftime hsame, log_file_of_findsEmpty strftime h hempty,
        List.append_assoc] at hrest
      rw [records_cons, List.flatten_append]
      exact hrest

/-- Where it is not, there is too little in it for all records. -/
theorem logAll_length_lt (calls : List LogCall) (h : a.filestream.Ready)
    (hmeet : ¬ (logging strftime).StepsMeet FindsEmpty a calls) :
    (a.logAll strftime calls).filestream.file.length <
      a.filestream.file.length + (a.records strftime calls).flatten.length := by
  induction calls generalizing a with
  | nil => exact absurd trivial hmeet
  | cons c calls ih =>
      have hsame := (log_file strftime c h).1
      rw [records_cons, List.flatten_append, List.length_append, ← Nat.add_assoc]
      by_cases hempty : FindsEmpty a c
      · -- the loss comes later
        have hlater : ¬ (logging strftime).StepsMeet FindsEmpty (a.log strftime c) calls := by
          intro hrest
          refine hmeet ⟨hempty, fun t ht => ?_⟩
          cases ht
          exact hrest
        have hone := log_length_le strftime c h
        have hrest := ih hsame.ready hlater
        rw [records_congr strftime hsame] at hrest
        exact Nat.lt_of_lt_of_le hrest (Nat.add_le_add_right hone _)
      · have hone := log_length_lt strftime h hempty
        have hrest := logAll_length_le strftime calls hsame.ready
        rw [records_congr strftime hsame] at hrest
        exact Nat.lt_of_le_of_lt hrest (Nat.add_lt_add_right hone _)

end FileLogAppender

open FileLogAppender in
/-- **Records in a log file.**  For every appender, whatever was in its file, and every
sequence of calls with any times and levels: the file has the formatted texts of all
events at the appender's level or above, one behind the other in the order of the calls,
iff no call opens the file again after a text has been written to it. -/
theorem records_kept_iff (strftime : List Char → UInt64 → List Char)
    (existing : List Char) (level : Level) (formatter : LogFormatter)
    (calls : List LogCall) :
    InOrder ((new existing level formatter).records strftime calls)
        ((new existing level formatter).logAll strftime calls).filestream.file ↔
      (logging strftime).StepsMeet FindsEmpty (new existing level formatter) calls := by
  have hnew := new_ready existing level formatter
  have hready : (new existing level formatter).filestream.Ready := by
    rw [hnew]
    exact ⟨rfl, rfl⟩
  constructor
  · intro hin
    by_contra hmeet
    have hle := hin.length_le
    have hlt := logAll_length_lt strftime calls hready hmeet
    rw [hnew] at hlt
    simp only [List.length_nil, Nat.zero_add] at hlt
    omega
  · intro hmeet
    rw [logAll_file strftime calls hready hmeet, hnew]
    exact inOrder_flatten _

/-- Two events at `INFO`, ten seconds apart. -/
def tenSecondsApart : List LogCall :=
  [⟨"root".toList, .info, ⟨"a.cc".toList, 1, 0, 1, 2, 10, "th1".toList, "first".toList⟩⟩,
    ⟨"root".toList, .info, ⟨"a.cc".toList, 2, 0, 1, 2, 20, "th1".toList, "second".toList⟩⟩]

open FileLogAppender in
/-- Of two records ten seconds apart only the second is in the file. -/
theorem first_record_lost :
    ((new [] .info ⟨[.message, .newLine]⟩).logAll (fun _ _ => [])
        tenSecondsApart).filestream.file = "second\n".toList ∧
      ¬ InOrder ((new [] .info ⟨[.message, .newLine]⟩).records (fun _ _ => [])
          tenSecondsApart)
        ((new [] .info ⟨[.message, .newLine]⟩).logAll (fun _ _ => [])
          tenSecondsApart).filestream.file := by
  refine ⟨by decide, ?_⟩
  intro hin
  exact absurd hin.length_le (by decide)

end Logging
end Hpgs
