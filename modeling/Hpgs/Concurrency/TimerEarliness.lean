import Hpgs.Concurrency.TimerWakeup
import Hpgs.Concurrency.TimerExpiry

/-!
# Timers and the start of their periods

The period of a timer starts when the timer is made, when `refresh` or a `reset` from
now takes effect, and when the timer expires.  `m_next` stores only the end of it,
`start + m_ms` modulo `2 ^ 64`; `reset` without `from_now` gets the start back by a
subtraction.  `Periods` keeps the starts beside the state, by the address of the
object, and notes with every callback that is handed out the period that it ends.

Clock readings never decrease (`Clocked`), but a call of `listExpiredCb` may run with
a reading that is older than the one of a call before it.

**Results.**
* `step_ends`: over any history of arming, the deadline of a timer is the end of its
  period modulo `2 ^ 64`.
* `timers_never_early_iff`: no timer fires early iff no expiring timer's period ends
  at `2 ^ 64` or later, and none expires because the clock was taken to be set back.
* `timer_fires_at_once`: a timer with the largest interval fires at once.
-/

namespace Hpgs
namespace Concurrency

open Transition

/-- A callback handed out at the reading `now`, in a period of `ms` from `start`. -/
structure Firing where
  now : Nat
  start : Nat
  ms : Nat
deriving DecidableEq, Repr

/-- When the period of the object at each address started, and what has fired. -/
structure Periods where
  start : Nat → Nat
  fired : List Firing

namespace Periods

/-- Nothing has been made yet. -/
def none : Periods :=
  { start := fun _ => 0, fired := [] }

/-- The period of the object at `addr` starts at `now`. -/
def begin (g : Periods) (addr now : Nat) : Periods :=
  { g with start := fun a => if a = addr then now else g.start a }

/-- The timers `handed` of `m` fire at `now`. -/
def fire (g : Periods) (m : TimerManager) (now : Nat) (handed : List Nat) : Periods :=
  { start := fun a =>
      if a ∈ handed.map (fun i => (m.store i).addr) then now else g.start a
    fired := g.fired ++
      handed.map fun i => ⟨now, g.start (m.store i).addr, (m.store i).ms⟩ }

/-- What a step does to the periods. -/
def note (g : Periods) (s : TimerSys) : TimerStep → Periods
  | .construct _ _ _ addr now => g.begin addr now
  | .refresh i now =>
      if (s.mgr.refresh i now).1 then g.begin (s.mgr.store i).addr now else g
  | .reset i ms fromNow now =>
      if (s.mgr.reset i ms fromNow now).result && fromNow then
        g.begin (s.mgr.store i).addr now
      else g
  | .expire k probeAddr =>
      match s.expiring[k]? with
      | some (now, true) =>
          g.fire s.mgr now ((s.mgr.listExpired now probeAddr).1.map Prod.fst)
      | _ => g
  | .insert _ | .cancel _ | .getNextTimer _ | .readClock _ | .checkEmpty _ => g

end Periods

namespace TimerSys

/-- Clock readings never decrease; readings and intervals are of type `uint64_t`. -/
def Clocked (s : TimerSys) : TimerStep → Prop
  | .construct ms _ _ _ now | .reset _ ms _ now =>
      ms < 2 ^ 64 ∧ s.clock ≤ now ∧ now < 2 ^ 64
  | .refresh _ now | .getNextTimer now | .readClock now => s.clock ≤ now ∧ now < 2 ^ 64
  | .insert _ | .cancel _ | .checkEmpty _ | .expire _ _ => True

instance (s : TimerSys) : ∀ a, Decidable (Clocked s a)
  | .construct ms _ _ _ now | .reset _ ms _ now =>
      inferInstanceAs (Decidable (ms < 2 ^ 64 ∧ s.clock ≤ now ∧ now < 2 ^ 64))
  | .refresh _ now | .getNextTimer now | .readClock now =>
      inferInstanceAs (Decidable (s.clock ≤ now ∧ now < 2 ^ 64))
  | .insert _ | .cancel _ | .checkEmpty _ | .expire _ _ => isTrue trivial

/-- The timer manager with the periods of its timers. -/
def periods : System (TimerSys × Periods) TimerStep :=
  system.watched Clocked (fun _ => Periods.none) Periods.note

/-- No callback was handed out before the end of its period. -/
def NeverEarly (p : TimerSys × Periods) : Prop :=
  ∀ f ∈ p.2.fired, f.start + f.ms ≤ f.now

/-- The write-locked section of `listExpiredCb` does not expire a timer whose deadline is still
to come, as it does when it takes a late reading for a clock that was set back; and no timer
that is due has a period that ends at `2 ^ 64` or later. -/
def OnTime (p : TimerSys × Periods) : TimerStep → Prop
  | .expire k _ =>
      ∀ r ∈ p.1.expiring[k]?, ∀ i ∈ p.1.mgr.expiredAt r.1,
        (p.1.mgr.store i).next ≤ r.1 ∧
          p.2.start (p.1.mgr.store i).addr + (p.1.mgr.store i).ms < 2 ^ 64
  | _ => True

instance (p : TimerSys × Periods) : ∀ a, Decidable (OnTime p a)
  | .expire k _ =>
      inferInstanceAs (Decidable
        (∀ r ∈ p.1.expiring[k]?, ∀ i ∈ p.1.mgr.expiredAt r.1,
          (p.1.mgr.store i).next ≤ r.1 ∧
            p.2.start (p.1.mgr.store i).addr + (p.1.mgr.store i).ms < 2 ^ 64))
  | .construct .. | .insert _ | .cancel _ | .refresh .. | .reset .. | .getNextTimer _
  | .readClock _ | .checkEmpty _ => isTrue trivial

/-! ## The invariant -/

/-- The deadline of the timer `v` ends the period that it is in. -/
def EndsPeriod (start : Nat → Nat) (v : Timer) : Prop :=
  v.next = wrap64 (start v.addr + v.ms) ∧ start v.addr < 2 ^ 64

/-- Only the deadline, the interval and the address matter. -/
theorem EndsPeriod.congr {start start' : Nat → Nat} {v v' : Timer}
    (h : EndsPeriod start v) (hnext : v'.next = v.next) (hms : v'.ms = v.ms)
    (haddr : v'.addr = v.addr) (hstart : start' v.addr = start v.addr) :
    EndsPeriod start' v' := by
  unfold EndsPeriod
  rw [hnext, hms, haddr, hstart]
  exact h

/-- A period that starts at the reading `now`. -/
theorem EndsPeriod.of_now {start : Nat → Nat} {now : Nat} {v : Timer}
    (hnow : now < 2 ^ 64) (hstart : start v.addr = now)
    (hnext : v.next = wrap64 (now + v.ms)) : EndsPeriod start v := by
  refine ⟨?_, ?_⟩
  · rw [hstart, hnext]
  · rw [hstart]
    exact hnow

/-- The subtraction of `reset` gets the start of the period back. -/
theorem sub64_wrap64 {start ms : Nat} (h : start < 2 ^ 64) :
    sub64 (wrap64 (start + ms)) ms = start := by
  unfold sub64 wrap64
  omega

/-- A timer fires at the end of its period or later iff its deadline has come and its
period ends below `2 ^ 64`. -/
theorem EndsPeriod.end_le_iff {start : Nat → Nat} {now : Nat} {v : Timer}
    (h : EndsPeriod start v) (hnow : now < 2 ^ 64) :
    start v.addr + v.ms ≤ now ↔ v.next ≤ now ∧ start v.addr + v.ms < 2 ^ 64 := by
  have hnext := h.1
  constructor
  · intro hle
    have hlt : start v.addr + v.ms < 2 ^ 64 := Nat.lt_of_le_of_lt hle hnow
    rw [wrap64_of_lt hlt] at hnext
    exact ⟨by omega, hlt⟩
  · rintro ⟨hle, hlt⟩
    rw [wrap64_of_lt hlt] at hnext
    omega

/-- The deadlines of all objects end their periods. -/
structure AllEnd (s : TimerSys) (start : Nat → Nat) : Prop where
  pending : ∀ i ∈ s.mgr.timers, EndsPeriod start (s.mgr.store i)
  adding : ∀ v ∈ s.adding, EndsPeriod start v

/-- The deadlines end the periods, and no callback was handed out early. -/
structure PeriodInv (p : TimerSys × Periods) : Prop where
  inv : Inv p.1
  ends : AllEnd p.1 p.2.start
  reading : ∀ r ∈ p.1.expiring, r.1 < 2 ^ 64
  early : NeverEarly p

theorem start_periodInv (now : Nat) : PeriodInv (start now, Periods.none) where
  inv := start_inv now
  ends :=
    { pending := by simp [start, TimerManager.new]
      adding := by simp [start] }
  reading := by simp [start]
  early := by simp [NeverEarly, Periods.none]

/-- The period of another object is not touched. -/
theorem begin_start_of_ne (g : Periods) {addr a : Nat} (now : Nat) (h : a ≠ addr) :
    (g.begin addr now).start a = g.start a := by
  simp [Periods.begin, h]

theorem begin_start_self (g : Periods) (addr now : Nat) :
    (g.begin addr now).start addr = now := by
  simp [Periods.begin]

theorem fire_start_of_mem (g : Periods) {m : TimerManager} {now i : Nat} {handed : List Nat}
    (hi : i ∈ handed) : (g.fire m now handed).start (m.store i).addr = now := by
  have hmem : (m.store i).addr ∈ handed.map fun j => (m.store j).addr :=
    List.mem_map.mpr ⟨i, hi, rfl⟩
  simp only [Periods.fire, if_pos hmem]

theorem fire_start_of_ne (g : Periods) {m : TimerManager} {now a : Nat} {handed : List Nat}
    (ha : ∀ i ∈ handed, (m.store i).addr ≠ a) :
    (g.fire m now handed).start a = g.start a := by
  have hmem : a ∉ handed.map fun j => (m.store j).addr := by
    intro hc
    obtain ⟨i, hi, hia⟩ := List.mem_map.mp hc
    exact ha i hi hia
  simp only [Periods.fire, if_neg hmem]

/-! ## The steps -/

section Steps

variable {s t : TimerSys} {g : Periods}

/-- A section that leaves the deadlines, the intervals and the new objects alone. -/
theorem AllEnd.kept (h : AllEnd s g.start) (hkept : s.mgr.Kept t.mgr)
    (hfields : ∀ i, (t.mgr.store i).next = (s.mgr.store i).next ∧
      (t.mgr.store i).ms = (s.mgr.store i).ms)
    (hadd : t.adding = s.adding) : AllEnd t g.start where
  pending := fun i hi =>
    (h.pending i (hkept.sub i hi)).congr (hfields i).1 (hfields i).2 (hkept.addr i) rfl
  adding := by
    rw [hadd]
    exact h.adding

/-- One pending timer gets a new deadline that ends its period; the others keep
theirs. -/
theorem AllEnd.rearmed (h : AllEnd s g.start) (hinv : Inv s) {i : Nat} {v : Timer}
    {g' : Periods} (hi : i ∈ s.mgr.timers)
    (hmem : ∀ x, x ∈ t.mgr.timers ↔ x ∈ s.mgr.timers)
    (hstore : ∀ j, t.mgr.store j = if j = i then v else s.mgr.store j)
    (hadd : t.adding = s.adding) (hv : EndsPeriod g'.start v)
    (hstart : ∀ a, a ≠ (s.mgr.store i).addr → g'.start a = g.start a) :
    AllEnd t g'.start where
  pending := by
    intro j hj
    rw [hmem] at hj
    rw [hstore]
    split
    · exact hv
    · rename_i hne
      refine (h.pending j hj).congr rfl rfl rfl (hstart _ ?_)
      exact fun hab => hne (hinv.wf.placed.addr_inj j hj i hi hab)
  adding := by
    intro u hu
    rw [hadd] at hu
    exact (h.adding u hu).congr rfl rfl rfl (hstart _ (hinv.adding_out u hu i hi).symm)

theorem construct_ends (h : AllEnd s g.start) {ms cb addr now : Nat} {recurring : Bool}
    (hnow : now < 2 ^ 64) (hs : step s (.construct ms cb recurring addr now) = some t) :
    AllEnd t (g.note s (.construct ms cb recurring addr now)).start := by
  simp only [step, Option.ite_none_right_eq_some, Option.some.injEq] at hs
  obtain ⟨⟨hset, hadd⟩, rfl⟩ := hs
  refine ⟨?_, ?_⟩
  · intro i hi
    exact (h.pending i hi).congr rfl rfl rfl (begin_start_of_ne g now (hset i hi))
  · intro v hv
    rcases List.mem_append.mp hv with hv | hv
    · exact (h.adding v hv).congr rfl rfl rfl (begin_start_of_ne g now (hadd v hv))
    · simp only [List.mem_singleton] at hv
      subst hv
      exact EndsPeriod.of_now hnow (begin_start_self g addr now) rfl

theorem insert_ends (h : AllEnd s g.start) (hinv : Inv s) {k : Nat}
    (hs : step s (.insert k) = some t) : AllEnd t g.start := by
  obtain ⟨v, hv, rfl⟩ := step_insert hs
  have hvmem : v ∈ s.adding := List.mem_of_getElem? hv
  obtain ⟨_, hmem, _, hstore⟩ :=
    hinv.wf.addTimer_wf (hinv.adding_cb v hvmem) (hinv.adding_out v hvmem)
  refine ⟨?_, ?_⟩
  · intro i hi
    simp only [trigger_mgr] at hi ⊢
    rw [hstore]
    split
    · exact h.adding v hvmem
    · rename_i hne
      exact h.pending i (((hmem i).mp hi).resolve_left hne)
  · intro u hu
    simp only [trigger_adding] at hu
    exact h.adding u (List.mem_of_mem_eraseIdx hu)

theorem cancel_ends (h : AllEnd s g.start) (hinv : Inv s) {i : Nat}
    (hs : step s (.cancel i) = some t) : AllEnd t g.start := by
  simp only [step, Option.ite_none_right_eq_some, Option.map_eq_some_iff] at hs
  obtain ⟨hi, r, hr, rfl⟩ := hs
  cases hcb : (s.mgr.store i).cb with
  | none =>
      rw [TimerManager.WellFormed.cancel_of_none hcb] at hr
      cases hr
      exact h
  | some c =>
      obtain ⟨m', hm', hkept, _, _, hfields, _⟩ := hinv.wf.cancel_of_some hi hcb
      rw [hm'] at hr
      cases hr
      exact h.kept hkept hfields rfl

theorem refresh_ends (h : AllEnd s g.start) (hinv : Inv s) {i now : Nat}
    (hnow : now < 2 ^ 64) (hs : step s (.refresh i now) = some t) :
    AllEnd t (g.note s (.refresh i now)).start := by
  simp only [step, Option.ite_none_right_eq_some, Option.some.injEq] at hs
  obtain ⟨hi, rfl⟩ := hs
  cases hcb : (s.mgr.store i).cb with
  | none =>
      simp only [Periods.note, TimerManager.WellFormed.refresh_of_none hcb]
      exact ⟨h.pending, h.adding⟩
  | some c =>
      obtain ⟨m', hm', _, hmem, hstore, _⟩ := hinv.wf.refresh_of_some hi hcb now
      simp only [Periods.note, hm']
      refine h.rearmed hinv (hinv.wf.mem_of_cb hi hcb) hmem hstore rfl ?_
        (fun a ha => begin_start_of_ne g now ha)
      exact EndsPeriod.of_now hnow (begin_start_self g _ now) rfl

theorem reset_ends (h : AllEnd s g.start) (hinv : Inv s) {i ms now : Nat} {fromNow : Bool}
    (hnow : now < 2 ^ 64) (hs : step s (.reset i ms fromNow now) = some t) :
    AllEnd t (g.note s (.reset i ms fromNow now)).start := by
  simp only [step, Option.ite_none_right_eq_some, Option.some.injEq] at hs
  obtain ⟨hi, rfl⟩ := hs
  by_cases hsame : ms = (s.mgr.store i).ms ∧ fromNow = false
  · have hreset : s.mgr.reset i ms fromNow now = ⟨true, false, s.mgr⟩ :=
      TimerManager.WellFormed.reset_of_same hsame
    obtain ⟨_, rfl⟩ := hsame
    simp only [Periods.note, hreset, Bool.and_false]
    exact ⟨h.pending, h.adding⟩
  · cases hcb : (s.mgr.store i).cb with
    | none =>
        simp only [Periods.note, TimerManager.WellFormed.reset_of_none hsame hcb]
        exact ⟨h.pending, h.adding⟩
    | some c =>
        have hpending := hinv.wf.mem_of_cb hi hcb
        obtain ⟨_, hmem⟩ := hinv.wf.resetting_kept hpending ms fromNow now
        simp only [Periods.note, hinv.wf.reset_of_some hsame hi hcb, Bool.true_and]
        cases fromNow with
        | true =>
            refine h.rearmed hinv hpending (by simpa using hmem)
              (fun j => by simp only [trigger_mgr]; rfl) (by simp) ?_
              (fun a ha => begin_start_of_ne g now ha)
            exact EndsPeriod.of_now hnow (begin_start_self g _ now) rfl
        | false =>
            refine h.rearmed hinv hpending (by simpa using hmem)
              (fun j => by simp only [trigger_mgr]; rfl) (by simp) ?_ (fun _ _ => rfl)
            -- the start that the period had is recovered from the old deadline
            obtain ⟨hnext, hlt⟩ := h.pending i hpending
            have hstart : sub64 (s.mgr.store i).next (s.mgr.store i).ms =
                g.start (s.mgr.store i).addr := by
              rw [hnext]
              exact sub64_wrap64 hlt
            refine ⟨?_, hlt⟩
            simp [TimerManager.resetNext, hstart]

/-- What a write-locked section of `listExpiredCb` does. -/
theorem expire_cases (h : Inv s) {k probeAddr : Nat}
    (hs : step s (.expire k probeAddr) = some t) :
    ∃ now, s.expiring[k]? = some (now, true) ∧
      t.mgr = (s.mgr.listExpired now probeAddr).2 ∧ t.adding = s.adding ∧
      g.note s (.expire k probeAddr) = g.fire s.mgr now (s.mgr.expiredAt now) := by
  obtain ⟨now, hk, rfl⟩ := step_expire hs
  have hfst : (s.mgr.listExpired now probeAddr).1.map Prod.fst = s.mgr.expiredAt now := by
    rw [TimerManager.listExpired_cbs h.wf.placed, List.map_map]
    exact List.map_id _
  exact ⟨now, hk, rfl, rfl, by simp only [Periods.note, hk, hfst]⟩

theorem expire_ends (h : PeriodInv (s, g)) {k probeAddr : Nat}
    (hs : step s (.expire k probeAddr) = some t) :
    AllEnd t (g.note s (.expire k probeAddr)).start := by
  obtain ⟨now, hk, hmgr, hadd, hnote⟩ := expire_cases (g := g) h.inv hs
  have hp := h.inv.wf.placed
  have hnow := h.reading _ (List.mem_of_getElem? hk)
  have hexp : ∀ i ∈ s.mgr.expiredAt now, i ∈ s.mgr.timers :=
    fun i hi => (TimerManager.mem_expiredAt.mp hi).1
  rw [hnote]
  refine ⟨?_, ?_⟩
  · intro i hi
    rw [hmgr] at hi ⊢
    obtain ⟨himem, hrec⟩ := (TimerManager.mem_listExpired hp now probeAddr i).mp hi
    rw [TimerManager.listExpired_store hp]
    split
    · rename_i hie
      refine EndsPeriod.of_now hnow ?_ ?_
      · rw [TimerManager.expiredTimer_addr]
        exact fire_start_of_mem g hie
      · rw [TimerManager.expiredTimer, if_pos (hrec hie)]
    · rename_i hie
      refine (h.ends.pending i himem).congr rfl rfl rfl (fire_start_of_ne g ?_)
      intro j hj hab
      exact hie (hp.addr_inj j (hexp j hj) i himem hab ▸ hj)
  · intro v hv
    rw [hadd] at hv
    refine (h.ends.adding v hv).congr rfl rfl rfl (fire_start_of_ne g ?_)
    exact fun j hj => h.inv.adding_out v hv j (hexp j hj)

/-- A write-locked section fires no timer early iff it meets the condition. -/
theorem expire_early_iff (h : PeriodInv (s, g)) {k probeAddr : Nat}
    (hs : step s (.expire k probeAddr) = some t) :
    NeverEarly (t, g.note s (.expire k probeAddr)) ↔
      OnTime (s, g) (.expire k probeAddr) := by
  obtain ⟨now, hk, _, _, hnote⟩ := expire_cases (g := g) h.inv hs
  have hnow := h.reading _ (List.mem_of_getElem? hk)
  have hend : ∀ i ∈ s.mgr.expiredAt now,
      (g.start (s.mgr.store i).addr + (s.mgr.store i).ms ≤ now ↔
        (s.mgr.store i).next ≤ now ∧
          g.start (s.mgr.store i).addr + (s.mgr.store i).ms < 2 ^ 64) :=
    fun i hi =>
      (h.ends.pending i (TimerManager.mem_expiredAt.mp hi).1).end_le_iff hnow
  rw [hnote]
  simp only [NeverEarly, OnTime, Periods.fire, hk, Option.mem_some_iff, forall_eq']
  constructor
  · intro hearly i hi
    refine (hend i hi).mp (hearly ⟨now, g.start (s.mgr.store i).addr, _⟩ ?_)
    exact List.mem_append_right _ (List.mem_map.mpr ⟨i, hi, rfl⟩)
  · intro htime f hf
    rcases List.mem_append.mp hf with hf | hf
    · exact h.early f hf
    · obtain ⟨i, hi, rfl⟩ := List.mem_map.mp hf
      exact (hend i hi).mpr (htime i hi)

/-- Only a write-locked section of `listExpiredCb` fires timers. -/
theorem note_fired {a : TimerStep} (ha : ¬ ∃ k probeAddr, a = .expire k probeAddr) :
    (g.note s a).fired = g.fired := by
  cases a with
  | expire k probeAddr => exact absurd ⟨k, probeAddr, rfl⟩ ha
  | refresh i now =>
      simp only [Periods.note]
      split <;> rfl
  | reset i ms fromNow now =>
      simp only [Periods.note]
      split <;> rfl
  | _ => rfl

/-- Every step keeps the deadlines at the ends of the periods. -/
theorem step_ends (h : PeriodInv (s, g)) {a : TimerStep} (hclocked : Clocked s a)
    (hs : step s a = some t) : AllEnd t (g.note s a).start := by
  cases a with
  | construct ms cb recurring addr now => exact construct_ends h.ends hclocked.2.2 hs
  | insert k => exact insert_ends h.ends h.inv hs
  | cancel i => exact cancel_ends h.ends h.inv hs
  | refresh i now => exact refresh_ends h.ends h.inv hclocked.2 hs
  | reset i ms fromNow now => exact reset_ends h.ends h.inv hclocked.2.2 hs
  | expire k probeAddr => exact expire_ends h hs
  | getNextTimer now =>
      simp only [step, Option.some.injEq] at hs
      subst hs
      obtain ⟨hkept, hstore, _, _⟩ := h.inv.wf.getNextTimer_kept now
      exact h.ends.kept hkept (fun i => by simp [hstore]) rfl
  | readClock now =>
      simp only [step, Option.some.injEq] at hs
      subst hs
      exact ⟨h.ends.pending, h.ends.adding⟩
  | checkEmpty k =>
      obtain ⟨_, rfl, _⟩ := step_checkEmpty hs
      exact ⟨h.ends.pending, h.ends.adding⟩

theorem step_periodInv (h : PeriodInv (s, g)) {a : TimerStep} (hclocked : Clocked s a)
    (hc : OnTime (s, g) a) (hs : step s a = some t) : PeriodInv (t, g.note s a) where
  inv := step_inv h.inv hs
  ends := step_ends h hclocked hs
  reading := by
    intro r hr
    rcases step_reading hs hr with ⟨r', hr', heq⟩ | rfl
    · rw [← heq]
      exact h.reading r' hr'
    · exact hclocked.2
  early := by
    by_cases hexp : ∃ k probeAddr, a = .expire k probeAddr
    · obtain ⟨k, probeAddr, rfl⟩ := hexp
      exact (expire_early_iff h hs).mpr hc
    · intro f hf
      simp only [note_fired hexp] at hf
      exact h.early f hf

end Steps

end TimerSys

/-- **Timers that fire early.**  In a run whose clock readings never decrease, no
callback is handed out before the end of its period, as a number, iff no section of
`listExpiredCb` expires a timer whose period ends at `2 ^ 64` or later, or one whose
deadline is still to come, because its reading is taken for a clock that was set
back. -/
theorem timers_never_early_iff (now : Nat) (steps : List TimerStep)
    (hrun : (TimerSys.periods.exec (TimerSys.start now, Periods.none) steps).isSome) :
    TimerSys.periods.Along TimerSys.NeverEarly (TimerSys.start now, Periods.none) steps ↔
      TimerSys.periods.StepsMeet TimerSys.OnTime (TimerSys.start now, Periods.none) steps := by
  have hkeep : ∀ p a q, TimerSys.PeriodInv p → TimerSys.OnTime p a →
      TimerSys.periods.step p a = some q → TimerSys.PeriodInv q := by
    rintro ⟨s, g⟩ a ⟨t, g'⟩ h hc hs
    obtain ⟨hclocked, hst, rfl⟩ := System.watched_step_iff.mp hs
    exact TimerSys.step_periodInv h hclocked hc hst
  have hbreak : ∀ p a q, TimerSys.PeriodInv p → ¬ TimerSys.OnTime p a →
      TimerSys.periods.step p a = some q → ¬ TimerSys.NeverEarly q := by
    rintro ⟨s, g⟩ a ⟨t, g'⟩ h hc hs
    obtain ⟨_, hst, rfl⟩ := System.watched_step_iff.mp hs
    cases a with
    | expire k probeAddr => exact fun hq => hc ((TimerSys.expire_early_iff h hst).mp hq)
    | _ => exact absurd trivial hc
  exact System.along_iff_stepsMeet (fun _ h => h.early) hkeep hbreak
    (TimerSys.start_periodInv now) hrun

/-- The steps that make a one-shot timer with the interval `ms` at 1000 and expire it at
`now`. -/
def oneTimer (ms now : Nat) : List TimerStep :=
  [.construct ms 7 false 64 1000, .insert 0, .readClock now, .checkEmpty 0, .expire 0 8]

theorem timers_never_early_oneTimer :
    TimerSys.periods.Along TimerSys.NeverEarly (TimerSys.start 1000, Periods.none)
      (oneTimer 10 1010) := by
  refine (timers_never_early_iff 1000 (oneTimer 10 1010) (by decide)).mpr ?_
  exact System.stepsMeet_of_execIf (by decide)

/-- A timer with the largest interval fires at the reading at which it was made. -/
theorem timer_fires_at_once :
    ∃ p, TimerSys.periods.exec (TimerSys.start 1000, Periods.none)
        (oneTimer (2 ^ 64 - 1) 1000) = some p ∧
      ∃ f ∈ p.2.fired, f.now < f.start + f.ms := by
  have hrun : (TimerSys.periods.exec (TimerSys.start 1000, Periods.none)
      (oneTimer (2 ^ 64 - 1) 1000)).map (fun p => p.2.fired) =
        some [⟨1000, 1000, 2 ^ 64 - 1⟩] := by
    decide
  obtain ⟨p, hp, hfired⟩ := Option.map_eq_some_iff.mp hrun
  exact ⟨p, hp, ⟨1000, 1000, 2 ^ 64 - 1⟩, by simp [hfired], by decide⟩

end Concurrency
end Hpgs
