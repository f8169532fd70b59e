import Hpgs.Concurrency.TimerExpiry
import Mathlib.Algebra.Group.Int.Defs

/-!
# The timeout of epoll_wait

`IOManager::idle` waits in `epoll_wait` for at most the time that `getNextTimer`
returned, a `uint64_t`, and for at most `MAX_TIMEOUT`.  The comparison with
`MAX_TIMEOUT` and the argument of `epoll_wait` are casts to a 32-bit `int`.  The loop
that repeats the wait after `EINTR` stores the clamped value back and clamps it again.

**Results.**
* `waits_eq`: every repetition waits as long as the first pass.
* `waits_bounded_iff`: the waits are the delay, cut at `MAX_TIMEOUT`, iff the delay
  survives the cast to `int`.
-/

namespace Hpgs
namespace Concurrency

/-- `(int)v` of a `uint64_t`: the lowest 32 bits in two's complement. -/
def castInt (v : BitVec 64) : Int := (v.setWidth 32).toInt

/-- `MAX_TIMEOUT`, in milliseconds. -/
def maxTimeout : Nat := 3000

/-- What `epoll_wait` returned: a failure with `EINTR`, or anything else. -/
inductive WaitResult
  | interrupted
  | returned (rt : Int)
deriving DecidableEq, Repr

/-- The assignment to `next_timeout` before a wait. -/
def clampTimeout (next_timeout : BitVec 64) : BitVec 64 :=
  if next_timeout ≠ BitVec.allOnes 64 then
    if castInt next_timeout > maxTimeout then BitVec.ofNat 64 maxTimeout else next_timeout
  else BitVec.ofNat 64 maxTimeout

/-- The timeouts that the loop passes to `epoll_wait`, when the calls return the given
results. -/
def waits (next_timeout : BitVec 64) : List WaitResult → List Int
  | [] => []
  | .interrupted :: results =>
      castInt (clampTimeout next_timeout) :: waits (clampTimeout next_timeout) results
  | .returned _ :: _ => [castInt (clampTimeout next_timeout)]

/-- The time that `idle` should wait: the delay, cut at `MAX_TIMEOUT`, and all of
`MAX_TIMEOUT` when there is no timer. -/
def properWait (delay : BitVec 64) : Nat :=
  if delay = BitVec.allOnes 64 then maxTimeout else min maxTimeout delay.toNat

theorem castInt_eq (v : BitVec 64) :
    castInt v =
      if v.toNat % 2 ^ 32 < 2 ^ 31 then ((v.toNat % 2 ^ 32 : Nat) : Int)
      else ((v.toNat % 2 ^ 32 : Nat) : Int) - 2 ^ 32 := by
  simp only [castInt, BitVec.toInt_eq_toNat_cond, BitVec.toNat_setWidth]
  split_ifs <;> omega

theorem castInt_max : castInt (BitVec.ofNat 64 maxTimeout) = maxTimeout := by decide

/-- A small delay survives the cast. -/
theorem castInt_of_le {v : BitVec 64} (h : v.toNat ≤ maxTimeout) : castInt v = v.toNat := by
  have hmax : maxTimeout = 3000 := rfl
  rw [castInt_eq, if_pos (by omega)]
  omega

/-- A delay whose cast is large is large. -/
theorem le_of_le_castInt {v : BitVec 64} (h : (maxTimeout : Int) ≤ castInt v) :
    maxTimeout ≤ v.toNat := by
  have hmax : maxTimeout = 3000 := rfl
  rw [castInt_eq] at h
  split_ifs at h <;> omega

/-- What is passed to `epoll_wait`. -/
theorem castInt_clampTimeout (v : BitVec 64) :
    castInt (clampTimeout v) =
      if v = BitVec.allOnes 64 ∨ (maxTimeout : Int) < castInt v then (maxTimeout : Int)
      else castInt v := by
  unfold clampTimeout
  by_cases hall : v = BitVec.allOnes 64
  · rw [if_neg (not_not.mpr hall), if_pos (Or.inl hall), castInt_max]
  · rw [if_pos hall]
    by_cases hlt : (maxTimeout : Int) < castInt v
    · rw [if_pos hlt, if_pos (Or.inr hlt), castInt_max]
    · rw [if_neg hlt, if_neg (fun h => h.elim hall hlt)]

/-- Clamping a clamped value changes nothing. -/
theorem clampTimeout_idem (v : BitVec 64) :
    clampTimeout (clampTimeout v) = clampTimeout v := by
  have hmax : clampTimeout (BitVec.ofNat 64 maxTimeout) = BitVec.ofNat 64 maxTimeout := by
    decide
  by_cases hall : v = BitVec.allOnes 64
  · have hv : clampTimeout v = BitVec.ofNat 64 maxTimeout := by
      rw [clampTimeout, if_neg (not_not.mpr hall)]
    rw [hv, hmax]
  · by_cases hlt : castInt v > maxTimeout
    · have hv : clampTimeout v = BitVec.ofNat 64 maxTimeout := by
        rw [clampTimeout, if_pos hall, if_pos hlt]
      rw [hv, hmax]
    · have hv : clampTimeout v = v := by
        rw [clampTimeout, if_pos hall, if_neg hlt]
      rw [hv, hv]

/-- Every repetition of the wait passes the timeout of the first pass. -/
theorem waits_eq (v : BitVec 64) (results : List WaitResult) :
    ∀ t ∈ waits v results, t = castInt (clampTimeout v) := by
  induction results generalizing v with
  | nil => exact fun t ht => absurd ht List.not_mem_nil
  | cons r results ih =>
      cases r with
      | interrupted =>
          intro t ht
          rcases List.mem_cons.mp ht with rfl | ht
          · rfl
          · rw [ih (clampTimeout v) t ht, clampTimeout_idem]
      | returned rt =>
          intro t ht
          exact List.mem_singleton.mp ht

/-- The delay survives the cast, or its cast is cut like the delay itself. -/
def SurvivesCast (delay : BitVec 64) : Prop :=
  delay = BitVec.allOnes 64 ∨ delay.toNat ≤ maxTimeout ∨
    (maxTimeout : Int) ≤ castInt delay

theorem castInt_clampTimeout_iff (v : BitVec 64) :
    castInt (clampTimeout v) = properWait v ↔ SurvivesCast v := by
  rw [castInt_clampTimeout]
  unfold properWait SurvivesCast
  by_cases hall : v = BitVec.allOnes 64
  · simp [hall]
  · rw [if_neg hall]
    by_cases hlt : (maxTimeout : Int) < castInt v
    · have hle := le_of_le_castInt (Int.le_of_lt hlt)
      rw [if_pos (Or.inr hlt), Nat.min_eq_left hle]
      exact ⟨fun _ => Or.inr (Or.inr (Int.le_of_lt hlt)), fun _ => rfl⟩
    · rw [if_neg fun h => h.elim hall hlt]
      by_cases hle : v.toNat ≤ maxTimeout
      · rw [Nat.min_eq_right hle, castInt_of_le hle]
        simp [hle]
      · rw [Nat.min_eq_left (by omega)]
        constructor
        · exact fun heq => Or.inr (Or.inr (Int.le_of_eq heq.symm))
        · rintro (hc | hc | hc)
          · exact absurd hc hall
          · exact absurd hc hle
          · omega

/-- **The waits of `idle`.**  Whatever `getNextTimer` returned and however often the
wait is interrupted: every timeout that the loop passes to `epoll_wait` lies between 0
and `MAX_TIMEOUT` and is the delay cut at `MAX_TIMEOUT` (all of it when there is no
timer), iff the delay survives the cast to `int`. -/
theorem waits_bounded_iff (delay : BitVec 64) (r : WaitResult) (results : List WaitResult) :
    (∀ t ∈ waits delay (r :: results),
        0 ≤ t ∧ t ≤ maxTimeout ∧ t = properWait delay) ↔
      SurvivesCast delay := by
  rw [← castInt_clampTimeout_iff]
  constructor
  · intro hall
    have hfirst : castInt (clampTimeout delay) ∈ waits delay (r :: results) := by
      cases r <;> exact List.mem_cons_self
    exact (hall _ hfirst).2.2
  · intro heq t ht
    have hwait := waits_eq delay (r :: results) t ht
    rw [heq] at hwait
    have hle : properWait delay ≤ maxTimeout := by
      unfold properWait
      split
      · exact Nat.le_refl _
      · exact Nat.min_le_left _ _
    rw [hwait]
    exact ⟨Int.natCast_nonneg _, Int.ofNat_le.mpr hle, rfl⟩

/-- A delay of `2 ^ 31` ms, some 25 days: the wait has no limit. -/
theorem wait_without_limit :
    waits (BitVec.ofNat 64 (2 ^ 31)) [.interrupted, .returned 1] = [-2 ^ 31, -2 ^ 31] := by
  decide

end Concurrency
end Hpgs
