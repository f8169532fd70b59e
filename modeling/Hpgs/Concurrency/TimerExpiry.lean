import Hpgs.Concurrency.TimerLifecycle

/-!
# Expiry and the results of the timer operations

What one call of `listExpiredCb` and `getNextTimer` does to any timer set, and what
the results of `cancel`, `refresh` and `reset` say about the timer.

**Results.**
* `listExpired_splits`: the expired timers are handed out in the order of their
  deadlines, and no other timer is touched.
* `getNextTimer_distance`: the distance to the earliest deadline.
* `timer_results_truthful_iff`: `reset` to the interval that the timer has, from its own
  start, is the only call that reports success for a timer that is not pending.
-/

namespace Hpgs
namespace Concurrency

open Transition

namespace TimerManager

section Expiry

variable {m : TimerManager}

/-- The timers that a call of `listExpiredCb` with the reading `now` finds expired. -/
def expiredAt (m : TimerManager) (now : Nat) : List Nat :=
  m.timers.filter (m.due (m.detectClockRollover now).1 now)

theorem mem_expiredAt {now i : Nat} :
    i ∈ m.expiredAt now ↔
      i ∈ m.timers ∧ ((m.detectClockRollover now).1 = true ∨ (m.store i).next ≤ now) := by
  simp [expiredAt, due]

/-- The set lists its timers in the order of their deadlines. -/
theorem Placed.next_sorted {l : List Nat} (h : Placed m l) :
    l.Pairwise fun i j => (m.store i).next ≤ (m.store j).next :=
  h.sorted.imp fun hij => Timer.next_le_of_Comparator hij

theorem listExpired_cbs (h : Placed m m.timers) (now probeAddr : Nat) :
    (m.listExpired now probeAddr).1 =
      (m.expiredAt now).map fun i => (i, (m.store i).cb) :=
  (listExpired_spec h now probeAddr).1

theorem listExpired_store (h : Placed m m.timers) (now probeAddr i : Nat) :
    (m.listExpired now probeAddr).2.store i =
      if i ∈ m.expiredAt now then expiredTimer now (m.store i) else m.store i :=
  (listExpired_spec h now probeAddr).2.store i

theorem listExpired_nodup (h : Placed m m.timers) (now probeAddr : Nat) :
    (m.listExpired now probeAddr).2.timers.Nodup :=
  (listExpired_spec h now probeAddr).2.placed.nodup

/-- The set afterwards: what has not expired, and the recurring timers. -/
theorem mem_listExpired (h : Placed m m.timers) (now probeAddr i : Nat) :
    i ∈ (m.listExpired now probeAddr).2.timers ↔
      i ∈ m.timers ∧ (i ∈ m.expiredAt now → (m.store i).recurring = true) := by
  rw [(listExpired_spec h now probeAddr).2.mem]
  simp only [expiredAt, List.mem_filter]
  by_cases hi : i ∈ m.timers
  · by_cases hd : m.due (m.detectClockRollover now).1 now i = true
    · simp [hi, hd]
    · simp [hi, hd]
  · simp [hi]

/-- The earliest deadline is that of the first timer. -/
theorem getNextTimer_cons (m : TimerManager) (now : Nat) {first : Nat} {rest : List Nat}
    (ht : m.timers = first :: rest) :
    (m.getNextTimer now).1 = (m.store first).next - now := by
  simp only [getNextTimer, ht]
  split
  · rename_i hle
    exact (Nat.sub_eq_zero_of_le hle).symm
  · rfl

theorem getNextTimer_nil (m : TimerManager) (now : Nat) (ht : m.timers = []) :
    (m.getNextTimer now).1 = noTimeout := by
  simp [getNextTimer, ht]

/-- `getNextTimer` returns the distance to the smallest deadline. -/
theorem getNextTimer_distance (h : Placed m m.timers) (now : Nat) :
    ((m.getNextTimer now).1 = 0 ↔ ∃ i ∈ m.timers, (m.store i).next ≤ now) ∧
      (m.timers ≠ [] →
        ∃ i ∈ m.timers, (∀ j ∈ m.timers, (m.store i).next ≤ (m.store j).next) ∧
          (m.getNextTimer now).1 = (m.store i).next - now) := by
  cases ht : m.timers with
  | nil =>
      rw [getNextTimer_nil m now ht]
      simp [noTimeout]
  | cons first rest =>
      have hmin : ∀ j ∈ first :: rest, (m.store first).next ≤ (m.store j).next :=
        fun j hj => (ht ▸ h).head_next_le hj
      rw [getNextTimer_cons m now ht]
      refine ⟨?_, fun _ => ⟨first, List.mem_cons_self, hmin, rfl⟩⟩
      constructor
      · intro hzero
        exact ⟨first, List.mem_cons_self, Nat.le_of_sub_eq_zero hzero⟩
      · rintro ⟨i, hi, hle⟩
        exact Nat.sub_eq_zero_of_le (Nat.le_trans (hmin i hi) hle)

end Expiry

/-- **`listExpiredCb` splits the timer set exactly.**  Of any set, at any reading and
with the probe at any address: the expired timers (all of them when the clock was set
back) are handed out in the order of their deadlines; every other timer stays as it
is; a recurring timer is set again, once, one interval from now; a one-shot timer is
out of the set without its callback.  `getNextTimer` at the same reading returns 0 iff
a deadline has come, else the distance to the earliest one. -/
theorem listExpired_splits (m : TimerManager) (h : Placed m m.timers)
    (now probeAddr : Nat) :
    (m.listExpired now probeAddr).1 =
        (m.timers.filter fun i => (m.detectClockRollover now).1 ||
          decide ((m.store i).next ≤ now)).map (fun i => (i, (m.store i).cb)) ∧
    ((m.listExpired now probeAddr).1.Pairwise fun p q =>
        (m.store p.1).next ≤ (m.store q.1).next) ∧
    (∀ i, i ∈ (m.listExpired now probeAddr).2.timers → i ∈ m.timers) ∧
    (∀ i ∈ m.timers,
      (m.detectClockRollover now).1 = false → now < (m.store i).next →
        i ∈ (m.listExpired now probeAddr).2.timers ∧
          (m.listExpired now probeAddr).2.store i = m.store i) ∧
    (∀ i ∈ m.timers,
      ((m.detectClockRollover now).1 = true ∨ (m.store i).next ≤ now) →
      (m.store i).recurring = true →
        (m.listExpired now probeAddr).2.timers.count i = 1 ∧
          (m.listExpired now probeAddr).2.store i =
            { m.store i with next := wrap64 (now + (m.store i).ms) }) ∧
    (∀ i ∈ m.timers,
      ((m.detectClockRollover now).1 = true ∨ (m.store i).next ≤ now) →
      (m.store i).recurring = false →
        i ∉ (m.listExpired now probeAddr).2.timers ∧
          ((m.listExpired now probeAddr).2.store i).cb = none) ∧
    ((m.getNextTimer now).1 = 0 ↔ ∃ i ∈ m.timers, (m.store i).next ≤ now) ∧
    (m.timers = [] → (m.getNextTimer now).1 = noTimeout) ∧
    (m.timers ≠ [] →
      ∃ i ∈ m.timers, (∀ j ∈ m.timers, (m.store i).next ≤ (m.store j).next) ∧
        (m.getNextTimer now).1 = (m.store i).next - now) := by
  refine ⟨listExpired_cbs h now probeAddr, ?_, ?_, ?_, ?_, ?_,
    (getNextTimer_distance h now).1, getNextTimer_nil m now,
    (getNextTimer_distance h now).2⟩
  · rw [listExpired_cbs h, List.pairwise_map]
    exact (h.next_sorted).sublist List.filter_sublist
  · intro i hi
    exact ((mem_listExpired h now probeAddr i).mp hi).1
  · intro i hi hroll hlt
    have hnot : i ∉ m.expiredAt now := by
      rw [mem_expiredAt, hroll]
      rintro ⟨_, hc | hle⟩
      · cases hc
      · omega
    refine ⟨?_, ?_⟩
    · rw [mem_listExpired h]
      exact ⟨hi, fun hc => absurd hc hnot⟩
    · rw [listExpired_store h, if_neg hnot]
  · intro i hi hdue hrec
    have hexp : i ∈ m.expiredAt now := mem_expiredAt.mpr ⟨hi, hdue⟩
    have hmem : i ∈ (m.listExpired now probeAddr).2.timers := by
      rw [mem_listExpired h]
      exact ⟨hi, fun _ => hrec⟩
    refine ⟨List.count_eq_one_of_mem (listExpired_nodup h now probeAddr) hmem, ?_⟩
    rw [listExpired_store h, if_pos hexp, expiredTimer, if_pos hrec]
  · intro i hi hdue hrec
    have hexp : i ∈ m.expiredAt now := mem_expiredAt.mpr ⟨hi, hdue⟩
    refine ⟨?_, ?_⟩
    · rw [mem_listExpired h]
      rintro ⟨_, hr⟩
      rw [hr hexp] at hrec
      cases hrec
    · rw [listExpired_store h, if_pos hexp, expiredTimer, hrec]
      rfl

/-- A set with a recurring timer, a one-shot timer due at 25 and a later one. -/
def threeTimers : TimerManager :=
  { store := fun i => match i with
      | 0 => { recurring := true, ms := 10, next := 20, cb := some 7, addr := 64 }
      | 1 => { recurring := false, ms := 25, next := 25, cb := some 8, addr := 32 }
      | _ => { recurring := false, ms := 40, next := 40, cb := some 9, addr := 96 }
    count := 3, timers := [0, 1, 2], tickled := false, previousTime := 0 }

theorem threeTimers_placed : Placed threeTimers threeTimers.timers :=
  ⟨by unfold OrderedSet.Sorted; decide, by decide⟩

theorem listExpired_splits_threeTimers :
    (threeTimers.listExpired 25 48).1 = [(0, some 7), (1, some 8)] ∧
      (threeTimers.listExpired 25 48).2.timers.count 0 = 1 ∧
      1 ∉ (threeTimers.listExpired 25 48).2.timers ∧
      (threeTimers.getNextTimer 25).1 = 0 := by
  obtain ⟨hcbs, _, _, _, hrec, hone, hzero, _⟩ :=
    listExpired_splits threeTimers threeTimers_placed 25 48
  refine ⟨hcbs.trans (by decide), ?_, ?_, hzero.mpr ⟨0, by decide, by decide⟩⟩
  · exact (hrec 0 (by decide) (by decide) (by decide)).1
  · exact (hone 1 (by decide) (by decide) (by decide)).1

namespace WellFormed

variable {m : TimerManager} {i : Nat}

/-- A timer of the manager is pending iff its callback is not empty. -/
theorem pending_iff (h : WellFormed m) (hi : i < m.count) :
    i ∈ m.timers ↔ (m.store i).cb ≠ none := by
  rw [h.mem_iff]
  simp [hi, Option.isSome_iff_ne_none]

/-- `cancel` tells whether the timer was pending. -/
theorem cancel_truthful (h : WellFormed m) (hi : i < m.count) :
    ∃ r, m.cancel i = some r ∧ (r.1 = true ↔ i ∈ m.timers) ∧ (r.1 = false → r.2 = m) := by
  rw [h.pending_iff hi]
  cases hcb : (m.store i).cb with
  | none => exact ⟨_, cancel_of_none hcb, by simp, fun _ => rfl⟩
  | some c =>
      obtain ⟨m', hm', _⟩ := h.cancel_of_some hi hcb
      exact ⟨_, hm', by simp, fun hc => by cases hc⟩

/-- `refresh` tells whether the timer was pending. -/
theorem refresh_truthful (h : WellFormed m) (hi : i < m.count) (now : Nat) :
    ((m.refresh i now).1 = true ↔ i ∈ m.timers) ∧
      ((m.refresh i now).1 = false → (m.refresh i now).2 = m) := by
  rw [h.pending_iff hi]
  cases hcb : (m.store i).cb with
  | none => simp [refresh_of_none hcb]
  | some c =>
      obtain ⟨m', hm', _⟩ := h.refresh_of_some hi hcb now
      simp [hm']

/-- What `reset` does to a timer that is not pending, past the shortcut. -/
theorem reset_of_out (h : WellFormed m) (hi : i < m.count) {ms now : Nat} {fromNow : Bool}
    (hsame : ¬(ms = (m.store i).ms ∧ fromNow = false)) (hout : i ∉ m.timers) :
    m.reset i ms fromNow now = ⟨false, false, m⟩ := by
  rw [h.pending_iff hi, ne_eq, not_not] at hout
  exact reset_of_none hsame hout

/-- What `reset` does to a pending timer. -/
theorem reset_of_pending (h : WellFormed m) (hi : i ∈ m.timers) (ms now : Nat)
    (fromNow : Bool) :
    (m.reset i ms fromNow now).result = true ∧
      i ∈ (m.reset i ms fromNow now).manager.timers ∧
      ((m.reset i ms fromNow now).manager.store i).ms = ms := by
  have hlt := h.lt_count hi
  by_cases hsame : ms = (m.store i).ms ∧ fromNow = false
  · rw [reset_of_same hsame]
    exact ⟨rfl, hi, hsame.1.symm⟩
  · obtain ⟨c, hcb⟩ := Option.ne_none_iff_exists'.mp ((h.pending_iff hlt).mp hi)
    rw [h.reset_of_some hsame hlt hcb]
    refine ⟨rfl, ((h.resetting_kept hi ms fromNow now).2 i).mpr hi, ?_⟩
    simp [resetting]

end WellFormed

end TimerManager

/-- What the result of `reset` should say: it tells whether the timer was pending, a
failed call changes nothing, and after a successful one the timer is pending with the
interval `ms`. -/
def ResetTruthful (m : TimerManager) (i ms : Nat) (fromNow : Bool) (now : Nat) : Prop :=
  ((m.reset i ms fromNow now).result = true ↔ i ∈ m.timers) ∧
    ((m.reset i ms fromNow now).result = false → (m.reset i ms fromNow now).manager = m) ∧
    ((m.reset i ms fromNow now).result = true →
      i ∈ (m.reset i ms fromNow now).manager.timers ∧
        ((m.reset i ms fromNow now).manager.store i).ms = ms)

/-- **The results of the timer operations.**  In every reachable state and for every
timer: `cancel` and `refresh` return true iff the timer is pending, and change nothing
when they return false.  `reset` does so iff the timer is pending, or gets another
interval, or starts anew from now. -/
theorem timer_results_truthful_iff (s : TimerSys)
    (h : TimerSys.system.Reachable anyStep s) (i : Nat) (hi : i < s.mgr.count)
    (ms : Nat) (fromNow : Bool) (now : Nat) :
    ((∃ r, s.mgr.cancel i = some r ∧ (r.1 = true ↔ i ∈ s.mgr.timers) ∧
        (r.1 = false → r.2 = s.mgr)) ∧
      (((s.mgr.refresh i now).1 = true ↔ i ∈ s.mgr.timers) ∧
        ((s.mgr.refresh i now).1 = false → (s.mgr.refresh i now).2 = s.mgr)) ∧
      ResetTruthful s.mgr i ms fromNow now) ↔
    (i ∈ s.mgr.timers ∨ ms ≠ (s.mgr.store i).ms ∨ fromNow = true) := by
  have hwf := (TimerSys.reachable_inv h).wf
  constructor
  · rintro ⟨_, _, hresult, _⟩
    by_contra hc
    simp only [not_or, not_not, Bool.not_eq_true] at hc
    obtain ⟨hout, hsame⟩ := hc
    rw [TimerManager.WellFormed.reset_of_same hsame] at hresult
    exact hout (hresult.mp rfl)
  · intro hcond
    refine ⟨hwf.cancel_truthful hi, hwf.refresh_truthful hi now, ?_⟩
    by_cases hmem : i ∈ s.mgr.timers
    · obtain ⟨hres, hin, hms⟩ := hwf.reset_of_pending hmem ms now fromNow
      refine ⟨⟨fun _ => hmem, fun _ => hres⟩, ?_, fun _ => ⟨hin, hms⟩⟩
      intro hfalse
      rw [hres] at hfalse
      cases hfalse
    · have hsame : ¬(ms = (s.mgr.store i).ms ∧ fromNow = false) := by
        rintro ⟨hms, hnow⟩
        rcases hcond with hc | hc | hc
        · exact hmem hc
        · exact hc hms
        · rw [hnow] at hc
          cases hc
      rw [ResetTruthful, hwf.reset_of_out hi hsame hmem]
      refine ⟨⟨nofun, fun hc => absurd hc hmem⟩, fun _ => rfl, nofun⟩

/-- A run that adds a one-shot timer and lets it expire. -/
def firedRun : Option TimerSys :=
  TimerSys.system.exec (TimerSys.start 0)
    [.construct 10 7 false 64 0, .insert 0, .readClock 20, .checkEmpty 0, .expire 0 8]

theorem firedRun_reachable :
    ∃ s, TimerSys.system.Reachable anyStep s ∧ s.mgr.count = 1 ∧ s.mgr.timers = [] ∧
      (s.mgr.store 0).ms = 10 := by
  have hrun : firedRun.map
      (fun s => (s.mgr.count, s.mgr.timers, (s.mgr.store 0).ms)) = some (1, [], 10) := by
    decide
  obtain ⟨s, hs, hfields⟩ := Option.map_eq_some_iff.mp hrun
  simp only [Prod.mk.injEq] at hfields
  exact ⟨s, System.exec_reachable ⟨0, rfl⟩ hs, hfields.1, hfields.2.1, hfields.2.2⟩

/-- The fired timer: `reset` to another interval fails as it should. -/
theorem timer_results_truthful_firedRun :
    ∃ s, TimerSys.system.Reachable anyStep s ∧ 0 < s.mgr.count ∧
      ResetTruthful s.mgr 0 25 false 30 := by
  obtain ⟨s, hreach, hcount, _, hms⟩ := firedRun_reachable
  have hlt : 0 < s.mgr.count := by omega
  have hne : 25 ≠ (s.mgr.store 0).ms := by omega
  exact ⟨s, hreach, hlt,
    ((timer_results_truthful_iff s hreach 0 hlt 25 false 30).mpr
      (Or.inr (Or.inl hne))).2.2⟩

/-- The fired timer: `reset` to its own interval reports success. -/
theorem reset_fired_succeeds :
    ∃ s, TimerSys.system.Reachable anyStep s ∧ 0 < s.mgr.count ∧ 0 ∉ s.mgr.timers ∧
      (s.mgr.reset 0 10 false 30).result = true ∧
      0 ∉ (s.mgr.reset 0 10 false 30).manager.timers := by
  obtain ⟨s, hreach, hcount, hempty, hms⟩ := firedRun_reachable
  have hsame : 10 = (s.mgr.store 0).ms ∧ false = false := ⟨hms.symm, rfl⟩
  refine ⟨s, hreach, by omega, by simp [hempty], ?_, ?_⟩
  · rw [TimerManager.WellFormed.reset_of_same hsame]
  · rw [TimerManager.WellFormed.reset_of_same hsame]
    simp [hempty]

end Concurrency
end Hpgs
