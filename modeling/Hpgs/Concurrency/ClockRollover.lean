import Hpgs.Concurrency.TimerExpiry

/-!
# Detection of a clock that was set back

`listExpiredCb` expires all timers when its reading lies more than an hour before the
reading of the last call.  It stores that reading in `m_previousTime`, but only in a
call that finds timers in the set, and it subtracts the hour in `uint64_t`.
`Readings` keeps the reading of the last call beside the state, and every decision
with the two readings that it is about.

**Results.**
* `detectClockRollover_iff`: the test of the code in numbers.
* `rollover_exact_iff`: the decisions of a run are right iff every one is made with an
  `m_previousTime` that gives the answer of the last reading.
* `rollover_wrong`: two runs with a wrong decision.
-/

namespace Hpgs
namespace Concurrency

open Transition

/-- An hour in milliseconds. -/
def rolloverMs : Nat := 60 * 60 * 1000

/-- A decision about a timer set that was not empty: the reading of the call, the one
of the call before it, and whether all timers were expired. -/
structure Decision where
  now : Nat
  previous : Nat
  rollover : Bool
deriving DecidableEq, Repr

/-- The reading of the last call of `listExpiredCb` that returned, of the construction
before the first one, and the decisions made. -/
structure Readings where
  last : Nat
  decisions : List Decision

namespace Readings

/-- What a step adds to the readings.  A call returns from its read-locked section when
the set is empty, else from its write-locked one. -/
def note (g : Readings) (s : TimerSys) : TimerStep → Readings
  | .checkEmpty k =>
      match s.expiring[k]? with
      | some (now, false) => if s.mgr.timers = [] then { g with last := now } else g
      | _ => g
  | .expire k _ =>
      match s.expiring[k]? with
      | some (now, true) =>
          { last := now
            decisions :=
              if s.mgr.timers = [] then g.decisions
              else g.decisions ++ [⟨now, g.last, (s.mgr.detectClockRollover now).1⟩] }
      | _ => g
  | .construct .. | .insert _ | .cancel _ | .refresh .. | .reset .. | .getNextTimer _
  | .readClock _ => g

end Readings

/-- The decision is right: all timers expire iff the clock went back by more than an
hour since the call before. -/
def Decision.Exact (d : Decision) : Prop :=
  d.rollover = true ↔ d.now + rolloverMs < d.previous

namespace TimerSys

/-- Clock readings are of type `uint64_t`. -/
def InRange (_ : TimerSys) : TimerStep → Prop
  | .construct _ _ _ _ now | .reset _ _ _ now | .refresh _ now | .getNextTimer now
  | .readClock now => now < 2 ^ 64
  | .insert _ | .cancel _ | .checkEmpty _ | .expire _ _ => True

instance (s : TimerSys) : ∀ a, Decidable (InRange s a)
  | .construct _ _ _ _ now | .reset _ _ _ now | .refresh _ now | .getNextTimer now
  | .readClock now => inferInstanceAs (Decidable (now < 2 ^ 64))
  | .insert _ | .cancel _ | .checkEmpty _ | .expire _ _ => isTrue trivial

/-- The timer manager with the readings of `listExpiredCb`. -/
def readings : System (TimerSys × Readings) TimerStep :=
  system.watched InRange (fun s => ⟨s.clock, []⟩) Readings.note

/-- A manager made when the clock shows `now`, and no call of `listExpiredCb` yet. -/
def startReadings (now : Nat) : TimerSys × Readings :=
  (start now, ⟨now, []⟩)

/-- All decisions so far were right. -/
def DecisionsExact (p : TimerSys × Readings) : Prop :=
  ∀ d ∈ p.2.decisions, d.Exact

/-- `m_previousTime` answers for the last reading.  Below one hour the subtraction
underflows, and any reading before `m_previousTime` counts as a clock set back; above,
`m_previousTime` and the last reading have to lie on one side of `now` plus an hour. -/
def AnswersFor (previousTime last now : Nat) : Prop :=
  if previousTime < rolloverMs ∧ now < previousTime then now + rolloverMs < last
  else now + rolloverMs < previousTime ↔ now + rolloverMs < last

instance (previousTime last now : Nat) : Decidable (AnswersFor previousTime last now) := by
  unfold AnswersFor
  infer_instance

/-- Every decision is made with an `m_previousTime` that answers for the last
reading. -/
def PreviousKnown (p : TimerSys × Readings) : TimerStep → Prop
  | .expire k _ =>
      p.1.mgr.timers ≠ [] →
        ∀ r ∈ p.1.expiring[k]?, AnswersFor p.1.mgr.previousTime p.2.last r.1
  | _ => True

instance (p : TimerSys × Readings) : ∀ a, Decidable (PreviousKnown p a)
  | .expire k _ =>
      inferInstanceAs (Decidable (p.1.mgr.timers ≠ [] →
        ∀ r ∈ p.1.expiring[k]?, AnswersFor p.1.mgr.previousTime p.2.last r.1))
  | .construct .. | .insert _ | .cancel _ | .refresh .. | .reset .. | .getNextTimer _
  | .readClock _ | .checkEmpty _ => isTrue trivial

/-- A subtraction that does not underflow. -/
theorem sub64_of_le {a b : Nat} (hle : b ≤ a) (ha : a < 2 ^ 64) : sub64 a b = a - b := by
  unfold sub64
  omega

/-- A subtraction that underflows. -/
theorem sub64_of_lt {a b : Nat} (hlt : a < b) (hb : b < 2 ^ 64) :
    sub64 a b = a + 2 ^ 64 - b := by
  unfold sub64
  omega

/-- The test of the code in numbers. -/
theorem detectClockRollover_iff {m : TimerManager} {now : Nat}
    (hprev : m.previousTime < 2 ^ 64) :
    (m.detectClockRollover now).1 = true ↔
      now < m.previousTime ∧
        (m.previousTime < rolloverMs ∨ now + rolloverMs < m.previousTime) := by
  have hhour : 60 * 60 * 1000 = rolloverMs := rfl
  have hval : rolloverMs = 3600000 := by decide
  simp only [TimerManager.detectClockRollover, Bool.and_eq_true, decide_eq_true_eq, hhour]
  by_cases hsmall : m.previousTime < rolloverMs
  · rw [sub64_of_lt hsmall (by omega)]
    omega
  · rw [sub64_of_le (by omega) hprev]
    omega

/-- The decision is right iff `m_previousTime` answers for the last reading. -/
theorem exact_iff_answersFor {m : TimerManager} {now last : Nat}
    (hprev : m.previousTime < 2 ^ 64) :
    Decision.Exact ⟨now, last, (m.detectClockRollover now).1⟩ ↔
      AnswersFor m.previousTime last now := by
  simp only [Decision.Exact, detectClockRollover_iff hprev, AnswersFor]
  split_ifs with h
  · simp [h.1, h.2]
  · have hback : now + rolloverMs < m.previousTime → now < m.previousTime := by
      intro hlt
      omega
    constructor
    · intro hiff
      rw [← hiff]
      exact ⟨fun hlt => ⟨hback hlt, Or.inr hlt⟩,
        fun ⟨hlt, hor⟩ => hor.resolve_left fun hsmall => h ⟨hsmall, hlt⟩⟩
    · intro hiff
      rw [← hiff]
      exact ⟨fun ⟨hlt, hor⟩ => hor.resolve_left fun hsmall => h ⟨hsmall, hlt⟩,
        fun hlt => ⟨hback hlt, Or.inr hlt⟩⟩

/-! ## The stored reading -/

/-- The operations of a timer leave `m_previousTime` alone. -/
theorem cancel_previousTime {m : TimerManager} {i : Nat} {r : Bool × TimerManager}
    (h : m.cancel i = some r) : r.2.previousTime = m.previousTime := by
  unfold TimerManager.cancel at h
  split at h
  · cases h
    rfl
  · simp only at h
    split at h
    · cases h
    · cases h
      rfl

theorem refresh_previousTime (m : TimerManager) (i now : Nat) :
    (m.refresh i now).2.previousTime = m.previousTime := by
  unfold TimerManager.refresh
  split
  · rfl
  · split <;> rfl

theorem reset_previousTime (m : TimerManager) (i ms now : Nat) (fromNow : Bool) :
    (m.reset i ms fromNow now).manager.previousTime = m.previousTime := by
  unfold TimerManager.reset
  split
  · rfl
  · split
    · rfl
    · split <;> rfl

theorem getNextTimer_previousTime (m : TimerManager) (now : Nat) :
    (m.getNextTimer now).2.previousTime = m.previousTime := by
  unfold TimerManager.getNextTimer
  split
  · rfl
  · split <;> rfl

/-- All readings in use are of type `uint64_t`, and the decisions were right. -/
structure ReadingInv (p : TimerSys × Readings) : Prop where
  inv : Inv p.1
  previous : p.1.mgr.previousTime < 2 ^ 64
  reading : ∀ r ∈ p.1.expiring, r.1 < 2 ^ 64
  exact : DecisionsExact p

theorem startReadings_inv {now : Nat} (hnow : now < 2 ^ 64) :
    ReadingInv (startReadings now) where
  inv := start_inv now
  previous := hnow
  reading := by simp [startReadings, start]
  exact := by simp [DecisionsExact, startReadings]

section Steps

variable {s t : TimerSys} {g : Readings}

/-- A step leaves `m_previousTime` alone or stores the reading of a call in it. -/
theorem step_previousTime (h : Inv s) {a : TimerStep} (hs : step s a = some t) :
    t.mgr.previousTime = s.mgr.previousTime ∨
      ∃ r ∈ s.expiring, t.mgr.previousTime = r.1 := by
  cases a with
  | construct ms cb recurring addr now =>
      simp only [step, Option.ite_none_right_eq_some, Option.some.injEq] at hs
      obtain ⟨_, rfl⟩ := hs
      exact Or.inl rfl
  | insert k =>
      obtain ⟨v, _, rfl⟩ := step_insert hs
      exact Or.inl (by simp [TimerManager.addTimer])
  | cancel i =>
      simp only [step, Option.ite_none_right_eq_some, Option.map_eq_some_iff] at hs
      obtain ⟨_, r, hr, rfl⟩ := hs
      exact Or.inl (cancel_previousTime hr)
  | refresh i now =>
      simp only [step, Option.ite_none_right_eq_some, Option.some.injEq] at hs
      obtain ⟨_, rfl⟩ := hs
      exact Or.inl (refresh_previousTime _ _ _)
  | reset i ms fromNow now =>
      simp only [step, Option.ite_none_right_eq_some, Option.some.injEq] at hs
      obtain ⟨_, rfl⟩ := hs
      exact Or.inl (by simp [reset_previousTime])
  | getNextTimer now =>
      simp only [step, Option.some.injEq] at hs
      subst hs
      exact Or.inl (getNextTimer_previousTime _ _)
  | readClock now =>
      simp only [step, Option.some.injEq] at hs
      subst hs
      exact Or.inl rfl
  | checkEmpty k =>
      obtain ⟨_, rfl, _⟩ := step_checkEmpty hs
      exact Or.inl rfl
  | expire k probeAddr =>
      obtain ⟨now, hk, rfl⟩ := step_expire hs
      have hprev := (TimerManager.listExpired_spec h.wf.placed now probeAddr).2.previousTime
      simp only at hprev
      split at hprev
      · exact Or.inl hprev
      · exact Or.inr ⟨_, List.mem_of_getElem? hk, hprev⟩

/-- Only a write-locked section of `listExpiredCb` decides. -/
theorem note_decisions {a : TimerStep} (ha : ¬ ∃ k probeAddr, a = .expire k probeAddr) :
    (g.note s a).decisions = g.decisions := by
  cases a with
  | expire k probeAddr => exact absurd ⟨k, probeAddr, rfl⟩ ha
  | checkEmpty k =>
      simp only [Readings.note]
      split
      · split <;> rfl
      · rfl
  | _ => rfl

/-- The decision of a write-locked section is right iff it meets the condition. -/
theorem expire_exact_iff (h : ReadingInv (s, g)) {k probeAddr : Nat}
    (hs : step s (.expire k probeAddr) = some t) :
    DecisionsExact (t, g.note s (.expire k probeAddr)) ↔
      PreviousKnown (s, g) (.expire k probeAddr) := by
  obtain ⟨now, hk, rfl⟩ := step_expire hs
  simp only [DecisionsExact, PreviousKnown, Readings.note, hk, Option.mem_some_iff,
    forall_eq']
  by_cases hempty : s.mgr.timers = []
  · rw [if_pos hempty]
    exact ⟨fun _ hne => absurd hempty hne, fun _ => h.exact⟩
  · rw [if_neg hempty, ← exact_iff_answersFor h.previous]
    constructor
    · intro hall _
      exact hall _ (List.mem_append_right _ (List.mem_singleton.mpr rfl))
    · intro hnew d hd
      rcases List.mem_append.mp hd with hd | hd
      · exact h.exact d hd
      · simp only [List.mem_singleton] at hd
        subst hd
        exact hnew hempty

theorem step_readingInv (h : ReadingInv (s, g)) {a : TimerStep} (hrange : InRange s a)
    (hc : PreviousKnown (s, g) a) (hs : step s a = some t) :
    ReadingInv (t, g.note s a) where
  inv := step_inv h.inv hs
  previous := by
    rcases step_previousTime h.inv hs with hprev | ⟨r, hr, hprev⟩
    · simp only [hprev]
      exact h.previous
    · simp only [hprev]
      exact h.reading r hr
  reading := by
    intro r hr
    rcases step_reading hs hr with ⟨r', hr', heq⟩ | rfl
    · rw [← heq]
      exact h.reading r' hr'
    · exact hrange
  exact := by
    by_cases hexp : ∃ k probeAddr, a = .expire k probeAddr
    · obtain ⟨k, probeAddr, rfl⟩ := hexp
      exact (expire_exact_iff h hs).mpr hc
    · intro d hd
      simp only [note_decisions hexp] at hd
      exact h.exact d hd

end Steps

end TimerSys

/-- **Rollover detection.**  Over any run, with any clock readings, every call of
`listExpiredCb` on a set that is not empty expires all timers iff the reading of the
call before it (of the construction, for the first) lies more than an hour after its
own, iff every such call is made with an `m_previousTime` that answers for that
reading. -/
theorem rollover_exact_iff (now : Nat) (hnow : now < 2 ^ 64) (steps : List TimerStep)
    (hrun : (TimerSys.readings.exec (TimerSys.startReadings now) steps).isSome) :
    TimerSys.readings.Along TimerSys.DecisionsExact (TimerSys.startReadings now) steps ↔
      TimerSys.readings.StepsMeet TimerSys.PreviousKnown (TimerSys.startReadings now)
        steps := by
  have hkeep : ∀ p a q, TimerSys.ReadingInv p → TimerSys.PreviousKnown p a →
      TimerSys.readings.step p a = some q → TimerSys.ReadingInv q := by
    rintro ⟨s, g⟩ a ⟨t, g'⟩ h hc hs
    obtain ⟨hrange, hst, rfl⟩ := System.watched_step_iff.mp hs
    exact TimerSys.step_readingInv h hrange hc hst
  have hbreak : ∀ p a q, TimerSys.ReadingInv p → ¬ TimerSys.PreviousKnown p a →
      TimerSys.readings.step p a = some q → ¬ TimerSys.DecisionsExact q := by
    rintro ⟨s, g⟩ a ⟨t, g'⟩ h hc hs
    obtain ⟨_, hst, rfl⟩ := System.watched_step_iff.mp hs
    cases a with
    | expire k probeAddr => exact fun hq => hc ((TimerSys.expire_exact_iff h hst).mp hq)
    | _ => exact absurd trivial hc
  exact System.along_iff_stepsMeet (fun _ h => h.exact) hkeep hbreak
    (TimerSys.startReadings_inv hnow) hrun

/-- A call of `listExpiredCb` at the reading `now`, with a timer in the set. -/
def expireAt (now : Nat) : List TimerStep :=
  [.readClock now, .checkEmpty 0, .expire 0 8]

/-- The steps of a run with two calls on a set that is not empty, the second of them
after the clock went back by two hours. -/
def setBack : List TimerStep :=
  [.construct 10 7 true 64 7200000, .insert 0] ++ expireAt 7200000 ++ expireAt 0

theorem rollover_exact_setBack :
    TimerSys.readings.Along TimerSys.DecisionsExact (TimerSys.startReadings 7200000)
      setBack := by
  refine (rollover_exact_iff 7200000 (by decide) setBack (by decide)).mpr ?_
  exact System.stepsMeet_of_execIf (by decide)

/-- A call on an empty set, and after it one on a set with a timer. -/
def emptyThenSet (first second : Nat) : List TimerStep :=
  [.readClock first, .checkEmpty 0, .construct 10 7 false 64 second, .insert 0] ++
    expireAt second

/-- Two wrong decisions.  The reading of a call on an empty set is forgotten: a clock
that was set back by two hours goes unnoticed.  In the first hour the subtraction
underflows: a clock that went back by 1 ms expires all timers. -/
theorem rollover_wrong :
    (∃ p, TimerSys.readings.exec (TimerSys.startReadings 7200000)
        (emptyThenSet 14400000 7200000) = some p ∧
      ∃ d ∈ p.2.decisions, d.now + rolloverMs < d.previous ∧ d.rollover = false) ∧
    (∃ p, TimerSys.readings.exec (TimerSys.startReadings 1000)
        (emptyThenSet 1000 999) = some p ∧
      ∃ d ∈ p.2.decisions, ¬ d.now + rolloverMs < d.previous ∧ d.rollover = true) := by
  refine ⟨?_, ?_⟩
  · have hrun : (TimerSys.readings.exec (TimerSys.startReadings 7200000)
        (emptyThenSet 14400000 7200000)).map (fun p => p.2.decisions) =
          some [⟨7200000, 14400000, false⟩] := by
      decide
    obtain ⟨p, hp, hdec⟩ := Option.map_eq_some_iff.mp hrun
    exact ⟨p, hp, ⟨7200000, 14400000, false⟩, by simp [hdec], by decide, rfl⟩
  · have hrun : (TimerSys.readings.exec (TimerSys.startReadings 1000)
        (emptyThenSet 1000 999)).map (fun p => p.2.decisions) =
          some [⟨999, 1000, true⟩] := by
      decide
    obtain ⟨p, hp, hdec⟩ := Option.map_eq_some_iff.mp hrun
    exact ⟨p, hp, ⟨999, 1000, true⟩, by simp [hdec], by decide, rfl⟩

end Concurrency
end Hpgs
