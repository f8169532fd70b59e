import Hpgs.Concurrency.Timer
import Hpgs.Util.SocketTimeouts

/-!
# Hooked sleeps

`sleep`, `usleep` and `nanosleep` set a timer that schedules the fibre, and yield.  The
time is converted to milliseconds in three different types: an `unsigned int`, which
wraps; a quotient, which is cut off; and an `int`, which is converted to a `uint64_t` by
`addTimer`.

**Results.**
* `notShorter_iff`: a timer is late enough, exactly if its delay is and the clock does
  not wrap.
* `sleep_iff`, `usleep_iff`, `nanosleep_iff`: the three functions.
* `sleeps_not_shorter`: all of them.
* `sleep_returns_early`: 50 days, a microsecond and a millisecond and a half.
-/

namespace Hpgs
namespace Util

open Concurrency

/-- `timespec`. -/
structure Timespec where
  sec : Int
  nsec : Int
deriving DecidableEq, Repr

/-- A time that the kernel takes. -/
def Timespec.Valid (req : Timespec) : Prop :=
  0 ≤ req.sec ∧ InLong req.sec ∧ 0 ≤ req.nsec ∧ req.nsec < 1000000000

instance (req : Timespec) : Decidable req.Valid :=
  inferInstanceAs (Decidable (_ ∧ _))

/-! ## The delays -/

/-- `seconds * 1000` as an `unsigned int`. -/
def sleepMs (seconds : BitVec 32) : BitVec 64 :=
  (seconds * 1000).setWidth 64

/-- `usec / 1000`. -/
def usleepMs (usec : BitVec 32) : BitVec 64 :=
  (usec / 1000).setWidth 64

/-- `timeout_ms`, an `int`, as a `uint64_t`; `none` is an overflow of `long`. -/
def nanosleepMs (req : Timespec) : Option (BitVec 64) :=
  let ms := req.sec * 1000 + (req.nsec.tdiv 1000).tdiv 1000
  if InLong (req.sec * 1000) ∧ InLong ms then some ((BitVec.ofInt 32 ms).signExtend 64) else none

/-- What the three functions do before they yield: `addTimer` with a callback that
schedules the fibre. -/
def addSleep (m : TimerManager) (ms : BitVec 64) (cb addr : Nat) (now : BitVec 64) :
    Bool × TimerManager :=
  m.addTimer (Timer.new ms.toNat (some cb) false addr now.toNat)

/-- `sleep`. -/
def sleep (m : TimerManager) (seconds : BitVec 32) (cb addr : Nat) (now : BitVec 64) :
    Bool × TimerManager :=
  addSleep m (sleepMs seconds) cb addr now

/-- `usleep`. -/
def usleep (m : TimerManager) (usec : BitVec 32) (cb addr : Nat) (now : BitVec 64) :
    Bool × TimerManager :=
  addSleep m (usleepMs usec) cb addr now

/-- `nanosleep`. -/
def nanosleep (m : TimerManager) (req : Timespec) (cb addr : Nat) (now : BitVec 64) :
    Option (Bool × TimerManager) :=
  (nanosleepMs req).map fun ms => addSleep m ms cb addr now

/-- The delay is at least `ns` nanoseconds, and the deadline not before their end. -/
def NotShorter (t : Timer) (now : BitVec 64) (ns : Int) : Prop :=
  ns ≤ t.ms * 1000000 ∧ now.toNat * 1000000 + ns ≤ t.next * 1000000

instance (t : Timer) (now : BitVec 64) (ns : Int) : Decidable (NotShorter t now ns) :=
  inferInstanceAs (Decidable (_ ∧ _))

/-! ## The timer that is set -/

section Sleeps

variable (m : TimerManager) (cb addr : Nat) (now : BitVec 64)

theorem addSleep_store (ms : BitVec 64) :
    (addSleep m ms cb addr now).2.store m.count =
      Timer.new ms.toNat (some cb) false addr now.toNat := by
  simp [addSleep, TimerManager.addTimer, TimerManager.insertTimer, TimerManager.setTimer]

/-- A deadline that wraps lies before the present. -/
theorem notShorter_iff (ms : BitVec 64) {ns : Int} (hns : 0 ≤ ns) :
    NotShorter ((addSleep m ms cb addr now).2.store m.count) now ns ↔
      ns ≤ ms.toNat * 1000000 ∧ now.toNat + ms.toNat < 2 ^ 64 := by
  have hms := ms.isLt
  have hnow := now.isLt
  rw [addSleep_store, NotShorter]
  simp only [Timer.new, wrap64]
  by_cases hwrap : now.toNat + ms.toNat < 2 ^ 64
  · rw [Nat.mod_eq_of_lt hwrap]
    omega
  · have hmod : (now.toNat + ms.toNat) % 2 ^ 64 = now.toNat + ms.toNat - 2 ^ 64 := by omega
    rw [hmod]
    omega

theorem sleep_iff (seconds : BitVec 32) :
    NotShorter ((sleep m seconds cb addr now).2.store m.count) now
        (seconds.toNat * 1000000000) ↔
      seconds.toNat * 1000 < 2 ^ 32 ∧ now.toNat + seconds.toNat * 1000 < 2 ^ 64 := by
  have hms : (sleepMs seconds).toNat = seconds.toNat * 1000 % 2 ^ 32 := by
    rw [sleepMs, BitVec.toNat_setWidth, BitVec.toNat_mul]
    exact Nat.mod_eq_of_lt (by omega)
  rw [sleep, notShorter_iff m cb addr now _ (by omega), hms]
  omega

theorem usleep_iff (usec : BitVec 32) :
    NotShorter ((usleep m usec cb addr now).2.store m.count) now (usec.toNat * 1000) ↔
      usec.toNat % 1000 = 0 ∧ now.toNat + usec.toNat / 1000 < 2 ^ 64 := by
  have hlt := usec.isLt
  have hms : (usleepMs usec).toNat = usec.toNat / 1000 := by
    rw [usleepMs, BitVec.toNat_setWidth, BitVec.toNat_udiv]
    exact Nat.mod_eq_of_lt (Nat.lt_of_le_of_lt (Nat.div_le_self _ _) (by omega))
  rw [usleep, notShorter_iff m cb addr now _ (by omega), hms]
  omega

/-- The milliseconds of a `timespec`. -/
theorem nanosleepMs_eq {req : Timespec} (h : req.Valid) :
    nanosleepMs req =
      if req.sec * 1000 + req.nsec / 1000000 < 2 ^ 63 then
        some ((BitVec.ofInt 32 (req.sec * 1000 + req.nsec / 1000000)).signExtend 64)
      else none := by
  obtain ⟨hsec, _, hnsec, hlt⟩ := h
  have hdiv : (req.nsec.tdiv 1000).tdiv 1000 = req.nsec / 1000000 := by
    rw [Int.tdiv_eq_ediv_of_nonneg hnsec,
      Int.tdiv_eq_ediv_of_nonneg (Int.ediv_nonneg hnsec (by decide)),
      Int.ediv_ediv_of_nonneg (by decide)]
    rfl
  have hpos := Int.ediv_nonneg hnsec (by decide : (0 : Int) ≤ 1000000)
  rw [nanosleepMs, hdiv]
  unfold InLong
  by_cases hfit : req.sec * 1000 + req.nsec / 1000000 < 2 ^ 63
  · rw [if_pos ⟨⟨by omega, by omega⟩, by omega, hfit⟩, if_pos hfit]
  · rw [if_neg (fun hin => hfit hin.2.2), if_neg hfit]

/-- A negative `int` becomes a very large `uint64_t`. -/
theorem signExtend_toNat (ms : Int) :
    (((BitVec.ofInt 32 ms).signExtend 64).toNat : Int) =
      if ms % 2 ^ 32 < 2 ^ 31 then ms % 2 ^ 32 else 2 ^ 64 - 2 ^ 32 + ms % 2 ^ 32 := by
  have hnat : (BitVec.ofInt 32 ms).toNat = (ms % 2 ^ 32).toNat := by
    rw [BitVec.toNat_ofInt]
    rfl
  rw [BitVec.toNat_signExtend, BitVec.toNat_setWidth, hnat, BitVec.msb_eq_decide, hnat]
  split_ifs <;> simp_all <;> omega

theorem nanosleep_iff {req : Timespec} (h : req.Valid) :
    (∃ r, nanosleep m req cb addr now = some r ∧
        NotShorter (r.2.store m.count) now (req.sec * 1000000000 + req.nsec)) ↔
      (req.sec * 1000 + req.nsec / 1000000 < 2 ^ 31 ∧ req.nsec % 1000000 = 0 ∧
          now.toNat + (req.sec * 1000 + req.nsec / 1000000) < 2 ^ 64) ∨
        (req.sec * 1000 + req.nsec / 1000000 < 2 ^ 63 ∧
          2 ^ 31 ≤ (req.sec * 1000 + req.nsec / 1000000) % 2 ^ 32 ∧
          now.toNat + (req.sec * 1000 + req.nsec / 1000000) % 2 ^ 32 < 2 ^ 32) := by
  have hms := nanosleepMs_eq h
  obtain ⟨hsec, _, hnsec, hlt⟩ := h
  have hval := signExtend_toNat (req.sec * 1000 + req.nsec / 1000000)
  rw [nanosleep, hms]
  by_cases hfit : req.sec * 1000 + req.nsec / 1000000 < 2 ^ 63
  · rw [if_pos hfit, Option.map_some]
    have hns : 0 ≤ req.sec * 1000000000 + req.nsec := by omega
    simp only [Option.some.injEq, exists_eq_left']
    rw [notShorter_iff m cb addr now _ hns]
    split_ifs at hval <;> omega
  · rw [if_neg hfit]
    constructor
    · rintro ⟨r, hr, _⟩
      cases hr
    · rintro (hsmall | hwide)
      · omega
      · exact absurd hwide.1 hfit

end Sleeps

/-- **Hooked sleeps are never shorter than asked**, exactly if the time is whole
milliseconds and neither they nor the deadline wrap. -/
theorem sleeps_not_shorter (m : TimerManager) (cb addr : Nat) (now : BitVec 64) :
    (∀ seconds : BitVec 32,
      NotShorter ((sleep m seconds cb addr now).2.store m.count) now
          (seconds.toNat * 1000000000) ↔
        seconds.toNat * 1000 < 2 ^ 32 ∧ now.toNat + seconds.toNat * 1000 < 2 ^ 64) ∧
    (∀ usec : BitVec 32,
      NotShorter ((usleep m usec cb addr now).2.store m.count) now (usec.toNat * 1000) ↔
        usec.toNat % 1000 = 0 ∧ now.toNat + usec.toNat / 1000 < 2 ^ 64) ∧
    ∀ req : Timespec, req.Valid →
      ((∃ r, nanosleep m req cb addr now = some r ∧
          NotShorter (r.2.store m.count) now (req.sec * 1000000000 + req.nsec)) ↔
        (req.sec * 1000 + req.nsec / 1000000 < 2 ^ 31 ∧ req.nsec % 1000000 = 0 ∧
            now.toNat + (req.sec * 1000 + req.nsec / 1000000) < 2 ^ 64) ∨
          (req.sec * 1000 + req.nsec / 1000000 < 2 ^ 63 ∧
            2 ^ 31 ≤ (req.sec * 1000 + req.nsec / 1000000) % 2 ^ 32 ∧
            now.toNat + (req.sec * 1000 + req.nsec / 1000000) % 2 ^ 32 < 2 ^ 32)) :=
  ⟨sleep_iff m cb addr now, usleep_iff m cb addr now, fun _ h => nanosleep_iff m cb addr now h⟩

theorem sleeps_not_shorter_second :
    ∃ r, nanosleep (.new 0) ⟨1, 500000000⟩ 0 0 1000 = some r ∧
      NotShorter (r.2.store 0) 1000 1500000000 :=
  ((sleeps_not_shorter (.new 0) 0 0 1000).2.2 ⟨1, 500000000⟩ (by decide)).mpr (by decide)

/-- 4294968 seconds become 704 ms, one microsecond becomes nothing, and half a millisecond
is cut off. -/
theorem sleep_returns_early :
    (¬ ∀ seconds : BitVec 32, NotShorter ((sleep (.new 0) seconds 0 0 1000).2.store 0) 1000
        (seconds.toNat * 1000000000)) ∧
      (¬ ∀ usec : BitVec 32, NotShorter ((usleep (.new 0) usec 0 0 1000).2.store 0) 1000
        (usec.toNat * 1000)) ∧
      ¬ ∀ req : Timespec, req.Valid →
        ∃ r, nanosleep (.new 0) req 0 0 1000 = some r ∧
          NotShorter (r.2.store 0) 1000 (req.sec * 1000000000 + req.nsec) := by
  refine ⟨fun hall => ?_, fun hall => ?_, fun hall => ?_⟩
  · exact absurd ((sleep_iff (.new 0) 0 0 1000 4294968).mp (hall 4294968)) (by decide)
  · exact absurd ((usleep_iff (.new 0) 0 0 1000 1).mp (hall 1)) (by decide)
  · have hreq : (⟨0, 1500000⟩ : Timespec).Valid := by decide
    exact absurd ((nanosleep_iff (.new 0) 0 0 1000 hreq).mp (hall _ hreq)) (by decide)

end Util
end Hpgs
