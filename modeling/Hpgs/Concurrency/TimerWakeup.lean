import Hpgs.Concurrency.TimerLifecycle

/-!
# The wake-up for a new earliest timer

A worker sleeps at most until the earliest deadline that its `getNextTimer` call saw.
When a timer with an earlier deadline is inserted, `addTimer` has to trigger
`onTimerInsertAtFront`, unless it has done so already since the last call
(`m_tickled`).  `refresh` and the loop of `listExpiredCb` insert without any trigger.

Clock readings never decrease here (`Timely`): every reading is at least the last
one, in the order in which the readings are made.  `listExpiredCb` reads the clock
before it takes the lock, so its section may run with a reading that is older than
the one of a section before it.  When it is older by more than an hour,
`detectClockRollover` takes it for a clock that was set back, all timers are expired,
and recurring ones get deadlines that lie in the past.

**Results.**
* `insertTimer_noEarlier`, `step_wakeInv`: no section moves the earliest deadline forward
  without the trigger, except for that one.
* `timer_wakeup`: as long as no section takes a late reading for a clock that was
  set back, no wake-up is lost.
* `timer_wakeup_lost`: otherwise one can be lost.
-/

namespace Hpgs
namespace Concurrency

open Transition

namespace TimerSys

/-- Clock readings never decrease and `now + ms` stays below `2 ^ 64`. -/
def Timely (s : TimerSys) : TimerStep → Prop
  | .construct ms _ _ _ now => s.clock ≤ now ∧ now + ms < 2 ^ 64
  | .insert _ => True
  | .cancel _ => True
  | .refresh i now => s.clock ≤ now ∧ now + (s.mgr.store i).ms < 2 ^ 64
  | .reset _ ms _ now => s.clock ≤ now ∧ now + ms < 2 ^ 64
  | .getNextTimer now => s.clock ≤ now
  | .readClock now => s.clock ≤ now
  | .checkEmpty _ => True
  | .expire k _ =>
      ∀ r ∈ s.expiring[k]?, ∀ i ∈ s.mgr.timers, r.1 + (s.mgr.store i).ms < 2 ^ 64

/-- No write-locked section of `listExpiredCb` takes its reading for a clock that
was set back. -/
def NoRollover (s : TimerSys) : TimerStep → Prop
  | .expire k _ => ∀ r ∈ s.expiring[k]?, (s.mgr.detectClockRollover r.1).1 = false
  | _ => True

instance (s : TimerSys) : ∀ a, Decidable (Timely s a)
  | .construct ms _ _ _ now => inferInstanceAs (Decidable (s.clock ≤ now ∧ now + ms < 2 ^ 64))
  | .insert _ => isTrue trivial
  | .cancel _ => isTrue trivial
  | .refresh i now =>
      inferInstanceAs (Decidable (s.clock ≤ now ∧ now + (s.mgr.store i).ms < 2 ^ 64))
  | .reset _ ms _ now => inferInstanceAs (Decidable (s.clock ≤ now ∧ now + ms < 2 ^ 64))
  | .getNextTimer now => inferInstanceAs (Decidable (s.clock ≤ now))
  | .readClock now => inferInstanceAs (Decidable (s.clock ≤ now))
  | .checkEmpty _ => isTrue trivial
  | .expire k _ =>
      inferInstanceAs (Decidable
        (∀ r ∈ s.expiring[k]?, ∀ i ∈ s.mgr.timers, r.1 + (s.mgr.store i).ms < 2 ^ 64))

instance (s : TimerSys) : ∀ a, Decidable (NoRollover s a)
  | .expire k _ =>
      inferInstanceAs (Decidable
        (∀ r ∈ s.expiring[k]?, (s.mgr.detectClockRollover r.1).1 = false))
  | .construct .. | .insert _ | .cancel _ | .refresh .. | .reset .. | .getNextTimer _
  | .readClock _ | .checkEmpty _ => isTrue trivial

/-- `earlier d D`: the deadline `d` comes before `D`; `none` is never. -/
def earlier : Option Nat → Option Nat → Prop
  | none, _ => False
  | some _, none => True
  | some d, some D => d < D

instance : ∀ d D, Decidable (earlier d D)
  | none, _ => isFalse fun h => h
  | some _, none => isTrue trivial
  | some d, some D => inferInstanceAs (Decidable (d < D))

/-- If the earliest deadline is now before the one that the last call of
`getNextTimer` saw, `m_tickled` is set. -/
def WakeupSignalled (s : TimerSys) : Prop :=
  ∀ c rest, s.seen = c :: rest → earlier (earliest s.mgr) c.deadline →
    s.mgr.tickled = true

/-- No wake-up is lost: it is signalled, and `onTimerInsertAtFront` was triggered
since every call of `getNextTimer` that saw a later deadline than there is now. -/
def NoLostWakeup (s : TimerSys) : Prop :=
  WakeupSignalled s ∧
    ∀ c ∈ s.seen, earlier (earliest s.mgr) c.deadline → c.triggered = true

/-! ## What a section does to the earliest deadline -/

/-- From `m` to `m'`, with `b` for a trigger of `onTimerInsertAtFront`: the flag
records the trigger, and without it no deadline comes before all the old ones. -/
structure NoEarlier (m m' : TimerManager) (b : Bool) : Prop where
  tickled : m'.tickled = (m.tickled || b)
  later : b = false → m.tickled = false →
    ∀ i ∈ m'.timers, ∃ j ∈ m.timers, (m.store j).next ≤ (m'.store i).next

open TimerManager in
/-- Inserting `i` into `m₂`: without a trigger some timer of the set comes first. -/
theorem insertTimer_noEarlier {m m₂ : TimerManager} {i : Nat}
    (hp : Placed m₂ m₂.timers)
    (hi : ∀ x ∈ m₂.timers, (m₂.store x).addr ≠ (m₂.store i).addr)
    (htick : m₂.tickled = m.tickled)
    (hsub : ∀ x ∈ m₂.timers, x ∈ m.timers ∧ (m.store x).next = (m₂.store x).next) :
    NoEarlier m (m₂.insertTimer i).2 (m₂.insertTimer i).1 where
  tickled := by rw [insertTimer_tickled, htick]
  later := by
    intro hb ht x hx
    rw [insertTimer_timers, hp.mem_insert hi] at hx
    rw [insertTimer_store]
    rcases hx with hx | hx
    · subst hx
      have hnot : ¬ ((∀ y ∈ m₂.timers, m₂.less x y = true) ∧ m₂.tickled = false) := by
        rw [← insertTimer_atFront_iff hp hi, hb]
        simp
      have hex : ∃ y ∈ m₂.timers, ¬ m₂.less x y = true := by
        by_contra hc
        refine hnot ⟨?_, htick.trans ht⟩
        intro y hy
        by_contra hxy
        exact hc ⟨y, hy, hxy⟩
      obtain ⟨y, hy, hxy⟩ := hex
      refine ⟨y, (hsub y hy).1, ?_⟩
      rw [(hsub y hy).2]
      rw [less_iff] at hxy
      omega
    · exact ⟨x, (hsub x hx).1, Nat.le_of_eq (hsub x hx).2⟩

/-- The period that a timer is in started before the clock's last reading. -/
def Started (clock : Nat) (t : Timer) : Prop :=
  t.ms ≤ t.next ∧ t.next ≤ clock + t.ms ∧ t.next < 2 ^ 64

theorem Started.mono {clock clock' : Nat} {t : Timer} (h : Started clock t)
    (hle : clock ≤ clock') : Started clock' t := by
  obtain ⟨h₁, h₂, h₃⟩ := h
  exact ⟨h₁, by omega, h₃⟩

theorem wrap64_of_lt {n : Nat} (h : n < 2 ^ 64) : wrap64 n = n :=
  Nat.mod_eq_of_lt h

/-- The deadline that `reset` sets lies one new interval after a start in the past. -/
theorem resetNext_started {clock now ms : Nat} {fromNow : Bool} {t : Timer}
    (h : Started clock t) (hclock : clock ≤ now) (hms : now + ms < 2 ^ 64) :
    ms ≤ TimerManager.resetNext t ms fromNow now ∧
      TimerManager.resetNext t ms fromNow now ≤ now + ms ∧
      TimerManager.resetNext t ms fromNow now < 2 ^ 64 := by
  obtain ⟨h₁, h₂, h₃⟩ := h
  cases fromNow with
  | true =>
      simp only [TimerManager.resetNext, if_true, wrap64_of_lt hms]
      omega
  | false =>
      have hstart : sub64 t.next t.ms = t.next - t.ms := by
        unfold sub64
        omega
      have hlt : t.next - t.ms + ms < 2 ^ 64 := by omega
      simp only [TimerManager.resetNext, Bool.false_eq_true, if_false, hstart,
        wrap64_of_lt hlt]
      omega

/-! ## The invariant -/

/-- Every armed timer started in the past, and as long as nothing was triggered
since a call of `getNextTimer` no deadline lies before the one that it saw. -/
structure WakeInv (s : TimerSys) : Prop where
  inv : Inv s
  started : ∀ i ∈ s.mgr.timers, Started s.clock (s.mgr.store i)
  adding : ∀ v ∈ s.adding, Started s.clock v
  reading : ∀ r ∈ s.expiring, r.1 ≤ s.clock
  untriggered : ∀ c ∈ s.seen, c.triggered = false →
    s.mgr.tickled = false ∧
      ∀ i ∈ s.mgr.timers, ¬ earlier (some (s.mgr.store i).next) c.deadline
  latest : ∀ c rest, s.seen = c :: rest → c.triggered = true → s.mgr.tickled = true

theorem not_earlier_of_le {d d' : Nat} {D : Option Nat}
    (h : ¬ earlier (some d) D) (hle : d ≤ d') : ¬ earlier (some d') D := by
  cases D with
  | none => exact fun _ => h trivial
  | some D =>
      simp only [earlier] at h ⊢
      omega

/-- A section that changes the earliest deadline only with a trigger keeps what is
known of the past calls of `getNextTimer`. -/
theorem seen_of_noEarlier {s : TimerSys} (h : WakeInv s) {m' : TimerManager} {b : Bool}
    (hne : NoEarlier s.mgr m' b) {t : TimerSys} (hmgr : t.mgr = m')
    (hseen : t.seen = ({ s with mgr := m' }.trigger b).seen) :
    (∀ c ∈ t.seen, c.triggered = false →
      t.mgr.tickled = false ∧
        ∀ i ∈ t.mgr.timers, ¬ earlier (some (t.mgr.store i).next) c.deadline) ∧
    (∀ c rest, t.seen = c :: rest → c.triggered = true → t.mgr.tickled = true) := by
  rw [hmgr, hseen]
  cases b with
  | true =>
      have htick : m'.tickled = true := by simp [hne.tickled]
      refine ⟨?_, fun _ _ _ _ => htick⟩
      intro c hc hfalse
      simp only [trigger, if_true, List.mem_map] at hc
      obtain ⟨c', _, rfl⟩ := hc
      simp at hfalse
  | false =>
      have htick : m'.tickled = s.mgr.tickled := by simp [hne.tickled]
      simp only [trigger, Bool.false_eq_true, if_false]
      refine ⟨?_, ?_⟩
      · intro c hc hfalse
        obtain ⟨ht, hall⟩ := h.untriggered c hc hfalse
        refine ⟨htick.trans ht, ?_⟩
        intro i hi
        obtain ⟨j, hj, hle⟩ := hne.later rfl ht i hi
        exact not_earlier_of_le (hall j hj) hle
      · intro c rest hs hc
        rw [htick]
        exact h.latest c rest hs hc

theorem start_wakeInv (now : Nat) : WakeInv (start now) where
  inv := start_inv now
  started := by simp [start, TimerManager.new]
  adding := by simp [start]
  reading := by simp [start]
  untriggered := by simp [start]
  latest := by simp [start]

/-! ## The steps -/

section Steps

variable {s : TimerSys}

theorem construct_wakeInv (h : WakeInv s) {ms cb addr now : Nat} {recurring : Bool}
    {t : TimerSys} (hc : Timely s (.construct ms cb recurring addr now))
    (hs : step s (.construct ms cb recurring addr now) = some t) : WakeInv t := by
  have hinv := step_inv h.inv hs
  obtain ⟨hclock, hlt⟩ := hc
  simp only [step, Option.ite_none_right_eq_some, Option.some.injEq] at hs
  obtain ⟨_, rfl⟩ := hs
  refine
    { inv := hinv
      started := fun i hi => (h.started i hi).mono hclock
      adding := ?_
      reading := fun r hr => Nat.le_trans (h.reading r hr) hclock
      untriggered := h.untriggered
      latest := h.latest }
  intro v hv
  rcases List.mem_append.mp hv with hv | hv
  · exact (h.adding v hv).mono hclock
  · simp only [List.mem_singleton] at hv
    subst hv
    refine ⟨?_, ?_, ?_⟩ <;> simp only [Timer.new, wrap64_of_lt hlt] <;> omega

theorem insert_wakeInv (h : WakeInv s) {k : Nat} {t : TimerSys}
    (hs : step s (.insert k) = some t) : WakeInv t := by
  have hinv := step_inv h.inv hs
  obtain ⟨v, hv, rfl⟩ := step_insert hs
  have hvmem : v ∈ s.adding := List.mem_of_getElem? hv
  obtain ⟨_, hmem, _, hstore⟩ :=
    h.inv.wf.addTimer_wf (h.inv.adding_cb v hvmem) (h.inv.adding_out v hvmem)
  have hne : ∀ i ∈ s.mgr.timers, i ≠ s.mgr.count :=
    fun i hi => Nat.ne_of_lt (h.inv.wf.lt_count hi)
  have hno : NoEarlier s.mgr (s.mgr.addTimer v).2 (s.mgr.addTimer v).1 := by
    set m' : TimerManager :=
      { s.mgr.setTimer s.mgr.count v with count := s.mgr.count + 1 } with hm'
    have hst : ∀ x ∈ s.mgr.timers, m'.store x = s.mgr.store x :=
      fun x hx => TimerManager.setTimer_store_of_ne s.mgr v (hne x hx)
    have hplaced : TimerManager.Placed m' m'.timers := h.inv.wf.placed.congr hst
    refine insertTimer_noEarlier (i := s.mgr.count) hplaced ?_ rfl ?_
    · intro x hx
      rw [hst x hx]
      simpa [m', TimerManager.setTimer] using h.inv.adding_out v hvmem x hx
    · intro x hx
      exact ⟨hx, by rw [hst x hx]⟩
  obtain ⟨hun, hlatest⟩ := seen_of_noEarlier h hno
    (t := ({ s with
      mgr := (s.mgr.addTimer v).2
      adding := s.adding.eraseIdx k } : TimerSys).trigger (s.mgr.addTimer v).1)
    (by simp) (by simp only [trigger]; split <;> rfl)
  exact
    { inv := hinv
      started := by
        intro i hi
        simp only [trigger_mgr, trigger_clock] at hi ⊢
        rw [hstore]
        rcases (hmem i).mp hi with rfl | hi
        · simpa using h.adding v hvmem
        · rw [if_neg (hne i hi)]
          exact h.started i hi
      adding := by
        intro u hu
        simp only [trigger_adding, trigger_clock] at hu ⊢
        exact h.adding u (List.mem_of_mem_eraseIdx hu)
      reading := by
        intro r hr
        simp only [trigger_expiring, trigger_clock] at hr ⊢
        exact h.reading r hr
      untriggered := hun
      latest := hlatest }

theorem cancel_wakeInv (h : WakeInv s) {i : Nat} {t : TimerSys}
    (hs : step s (.cancel i) = some t) : WakeInv t := by
  have hinv := step_inv h.inv hs
  simp only [step, Option.ite_none_right_eq_some, Option.map_eq_some_iff] at hs
  obtain ⟨hi, r, hr, rfl⟩ := hs
  cases hcb : (s.mgr.store i).cb with
  | none =>
      rw [TimerManager.WellFormed.cancel_of_none hcb] at hr
      cases hr
      exact h
  | some c =>
      obtain ⟨m', hm', _, _, hmem, hfields, htick⟩ := h.inv.wf.cancel_of_some hi hcb
      rw [hm'] at hr
      cases hr
      have hno : NoEarlier s.mgr m' false :=
        { tickled := by simp [htick]
          later := fun _ _ x hx =>
            ⟨x, ((hmem x).mp hx).1, Nat.le_of_eq (hfields x).1.symm⟩ }
      obtain ⟨hun, hlatest⟩ := seen_of_noEarlier h hno (t := { s with mgr := m' }) rfl rfl
      exact
        { inv := hinv
          started := by
            intro x hx
            have hst := h.started x ((hmem x).mp hx).1
            simp only [Started, (hfields x).1, (hfields x).2] at hst ⊢
            exact hst
          adding := h.adding
          reading := h.reading
          untriggered := hun
          latest := hlatest }

/-- A later reading of the clock. -/
theorem WakeInv.tick (h : WakeInv s) {now : Nat} (hclock : s.clock ≤ now) :
    WakeInv { s with clock := now } where
  inv := { h.inv with }
  started := fun x hx => (h.started x hx).mono hclock
  adding := fun v hv => (h.adding v hv).mono hclock
  reading := fun r hr => Nat.le_trans (h.reading r hr) hclock
  untriggered := h.untriggered
  latest := h.latest

theorem refresh_wakeInv (h : WakeInv s) {i now : Nat} {t : TimerSys}
    (hc : Timely s (.refresh i now)) (hs : step s (.refresh i now) = some t) :
    WakeInv t := by
  have hinv := step_inv h.inv hs
  obtain ⟨hclock, hlt⟩ := hc
  simp only [step, Option.ite_none_right_eq_some, Option.some.injEq] at hs
  obtain ⟨hi, rfl⟩ := hs
  have hticked := h.tick hclock
  cases hcb : (s.mgr.store i).cb with
  | none =>
      rw [TimerManager.WellFormed.refresh_of_none hcb]
      exact hticked
  | some c =>
      obtain ⟨m', hm', _, hmem, hstore, htick⟩ := h.inv.wf.refresh_of_some hi hcb now
      rw [hm'] at hinv ⊢
      have hnext : wrap64 (now + (s.mgr.store i).ms) = now + (s.mgr.store i).ms :=
        wrap64_of_lt hlt
      have hold : Started s.clock (s.mgr.store i) :=
        h.started i (h.inv.wf.mem_of_cb hi hcb)
      have hno : NoEarlier s.mgr m' false :=
        { tickled := by simp [htick]
          later := by
            intro _ _ x hx
            refine ⟨x, (hmem x).mp hx, ?_⟩
            rw [hstore]
            by_cases hxi : x = i
            · subst hxi
              have := hold.2.1
              simp only [if_true, hnext]
              omega
            · simp [hxi] }
      obtain ⟨hun, hlatest⟩ :=
        seen_of_noEarlier h hno (t := { s with mgr := m', clock := now }) rfl rfl
      exact
        { inv := hinv
          started := by
            intro x hx
            simp only at hx ⊢
            rw [hstore]
            by_cases hxi : x = i
            · rw [if_pos hxi]
              refine ⟨?_, ?_, ?_⟩ <;> simp only [hnext] <;> omega
            · rw [if_neg hxi]
              exact hticked.started x ((hmem x).mp hx)
          adding := hticked.adding
          reading := hticked.reading
          untriggered := hun
          latest := hlatest }

theorem reset_wakeInv (h : WakeInv s) {i ms now : Nat} {fromNow : Bool} {t : TimerSys}
    (hc : Timely s (.reset i ms fromNow now))
    (hs : step s (.reset i ms fromNow now) = some t) : WakeInv t := by
  have hinv := step_inv h.inv hs
  obtain ⟨hclock, hlt⟩ := hc
  simp only [step, Option.ite_none_right_eq_some, Option.some.injEq] at hs
  obtain ⟨hi, rfl⟩ := hs
  have hticked := h.tick hclock
  by_cases hsame : ms = (s.mgr.store i).ms ∧ fromNow = false
  · rw [TimerManager.WellFormed.reset_of_same hsame]
    exact hticked
  · cases hcb : (s.mgr.store i).cb with
    | none =>
        rw [TimerManager.WellFormed.reset_of_none hsame hcb]
        exact hticked
    | some c =>
        rw [h.inv.wf.reset_of_some hsame hi hcb] at hinv ⊢
        have hmemi := h.inv.wf.mem_of_cb hi hcb
        set m₂ := TimerManager.WellFormed.resetting s.mgr i ms fromNow now with hm₂
        obtain ⟨_, _, hplaced, hfresh⟩ :=
          TimerManager.rekey_spec h.inv.wf.placed hmemi
            { s.mgr.store i with
              ms := ms
              next := TimerManager.resetNext (s.mgr.store i) ms fromNow now } rfl hm₂
        have hmem : ∀ x, x ∈ (m₂.insertTimer i).2.timers ↔ x ∈ s.mgr.timers :=
          (h.inv.wf.resetting_kept hmemi ms fromNow now).2
        have hother : ∀ x, x ≠ i → m₂.store x = s.mgr.store x :=
          fun x hx => TimerManager.setTimer_store_of_ne _ _ hx
        have hself : m₂.store i =
            { s.mgr.store i with
              ms := ms
              next := TimerManager.resetNext (s.mgr.store i) ms fromNow now } :=
          TimerManager.setTimer_store_self _ _ _
        have herase : ∀ x ∈ m₂.timers, x ∈ s.mgr.timers ∧ x ≠ i :=
          fun x hx => (h.inv.wf.placed.mem_erase hmemi).mp hx
        have hno : NoEarlier s.mgr (m₂.insertTimer i).2 (m₂.insertTimer i).1 := by
          refine insertTimer_noEarlier hplaced hfresh rfl ?_
          intro x hx
          exact ⟨(herase x hx).1, by rw [hother x (herase x hx).2]⟩
        obtain ⟨hun, hlatest⟩ := seen_of_noEarlier h hno
          (t := ({ s with
            mgr := (m₂.insertTimer i).2
            clock := now } : TimerSys).trigger (m₂.insertTimer i).1)
          (by simp) (by simp only [trigger]; split <;> rfl)
        exact
          { inv := hinv
            started := by
              intro x hx
              simp only [trigger_mgr, trigger_clock] at hx ⊢
              rw [TimerManager.insertTimer_store]
              by_cases hxi : x = i
              · subst hxi
                rw [hself]
                exact resetNext_started (h.started x hmemi) hclock hlt
              · rw [hother x hxi]
                exact hticked.started x ((hmem x).mp hx)
            adding := by
              intro v hv
              simp only [trigger_adding, trigger_clock] at hv ⊢
              exact hticked.adding v hv
            reading := by
              intro r hr
              simp only [trigger_expiring, trigger_clock] at hr ⊢
              exact hticked.reading r hr
            untriggered := hun
            latest := hlatest }

theorem getNextTimer_wakeInv (h : WakeInv s) {now : Nat} {t : TimerSys}
    (hc : Timely s (.getNextTimer now)) (hs : step s (.getNextTimer now) = some t) :
    WakeInv t := by
  have hinv := step_inv h.inv hs
  have hclock : s.clock ≤ now := hc
  simp only [step, Option.some.injEq] at hs
  subst hs
  obtain ⟨_, hstore, htimers, htick⟩ := h.inv.wf.getNextTimer_kept now
  refine
    { inv := hinv
      started := ?_
      adding := (h.tick hclock).adding
      reading := (h.tick hclock).reading
      untriggered := ?_
      latest := ?_ }
  · intro x hx
    simp only [hstore, htimers] at hx ⊢
    exact (h.started x hx).mono hclock
  · intro c hc hfalse
    refine ⟨htick, ?_⟩
    intro i hi
    simp only [hstore, htimers] at hi ⊢
    rcases List.mem_cons.mp hc with rfl | hc
    · -- the call just made saw the first timer of the set
      unfold earliest
      cases ht : s.mgr.timers with
      | nil => simp [ht] at hi
      | cons first rest =>
          have hle := (ht ▸ h.inv.wf.placed).head_next_le (ht ▸ hi)
          simp only [List.head?_cons, Option.map_some, earlier]
          omega
    · exact (h.untriggered c hc hfalse).2 i hi
  · intro c rest hcons htrue
    simp only [List.cons.injEq] at hcons
    rw [← hcons.1] at htrue
    simp at htrue

theorem readClock_wakeInv (h : WakeInv s) {now : Nat} {t : TimerSys}
    (hc : Timely s (.readClock now)) (hs : step s (.readClock now) = some t) :
    WakeInv t := by
  have hinv := step_inv h.inv hs
  have hclock : s.clock ≤ now := hc
  simp only [step, Option.some.injEq] at hs
  subst hs
  have hticked := h.tick hclock
  refine
    { inv := hinv
      started := hticked.started
      adding := hticked.adding
      reading := ?_
      untriggered := h.untriggered
      latest := h.latest }
  intro r hr
  rcases List.mem_append.mp hr with hr | hr
  · exact hticked.reading r hr
  · simp only [List.mem_singleton] at hr
    subst hr
    exact Nat.le_refl _

theorem checkEmpty_wakeInv (h : WakeInv s) {k : Nat} {t : TimerSys}
    (hs : step s (.checkEmpty k) = some t) : WakeInv t := by
  have hinv := step_inv h.inv hs
  have hread : ∀ r ∈ t.expiring, r.1 ≤ s.clock := by
    intro r hr
    rcases step_reading hs hr with ⟨r', hr', heq⟩ | hc
    · rw [← heq]
      exact h.reading r' hr'
    · cases hc
  obtain ⟨expiring, rfl, _⟩ := step_checkEmpty hs
  exact
    { inv := hinv
      started := h.started
      adding := h.adding
      reading := hread
      untriggered := h.untriggered
      latest := h.latest }

theorem expire_wakeInv (h : WakeInv s) {k probeAddr : Nat} {t : TimerSys}
    (hc : Timely s (.expire k probeAddr)) (hroll : NoRollover s (.expire k probeAddr))
    (hs : step s (.expire k probeAddr) = some t) : WakeInv t := by
  have hinv := step_inv h.inv hs
  obtain ⟨now, hk, rfl⟩ := step_expire hs
  have hnow : now ≤ s.clock := h.reading _ (List.mem_of_getElem? hk)
  have hlt : ∀ i ∈ s.mgr.timers, now + (s.mgr.store i).ms < 2 ^ 64 := hc (now, true) hk
  have hno : (s.mgr.detectClockRollover now).1 = false := hroll (now, true) hk
  obtain ⟨_, hout⟩ := TimerManager.listExpired_spec h.inv.wf.placed now probeAddr
  have hsub := (h.inv.wf.listExpired_kept now probeAddr).1.sub
  rw [hno] at hout
  set m' := (s.mgr.listExpired now probeAddr).2 with hm'
  have hst : ∀ j, m'.store j =
      if j ∈ s.mgr.timers.filter (s.mgr.due false now) then
        TimerManager.expiredTimer now (s.mgr.store j)
      else s.mgr.store j := hout.store
  -- a timer that is set again was due, so its new deadline is not before the old one
  have hagain : ∀ j ∈ m'.timers, j ∈ s.mgr.timers.filter (s.mgr.due false now) →
      (s.mgr.store j).next ≤ now ∧
        m'.store j = { s.mgr.store j with next := now + (s.mgr.store j).ms } := by
    intro j hj hjE
    have hrec : (s.mgr.store j).recurring = true := by
      rcases (hout.mem j).mp hj with hj | ⟨_, hj⟩
      · have := (List.mem_filter.mp hj).2
        simp [(List.mem_filter.mp hjE).2] at this
      · exact hj
    refine ⟨?_, ?_⟩
    · simpa [TimerManager.due] using (List.mem_filter.mp hjE).2
    · rw [hst, if_pos hjE, TimerManager.expiredTimer, if_pos hrec,
        wrap64_of_lt (hlt j (hsub j hj))]
  have hne : NoEarlier s.mgr m' false :=
    { tickled := by simpa using hout.tickled
      later := by
        intro _ _ x hx
        refine ⟨x, hsub x hx, ?_⟩
        by_cases hxE : x ∈ s.mgr.timers.filter (s.mgr.due false now)
        · obtain ⟨hle, heq⟩ := hagain x hx hxE
          rw [heq]
          show (s.mgr.store x).next ≤ now + (s.mgr.store x).ms
          omega
        · rw [hst, if_neg hxE] }
  obtain ⟨hun, hlatest⟩ := seen_of_noEarlier h hne
    (t := { s with
      mgr := m'
      expiring := s.expiring.eraseIdx k
      handed := s.handed ++ (s.mgr.listExpired now probeAddr).1.map Prod.fst }) rfl rfl
  exact
    { inv := hinv
      started := by
        intro x hx
        by_cases hxE : x ∈ s.mgr.timers.filter (s.mgr.due false now)
        · obtain ⟨_, heq⟩ := hagain x hx hxE
          have := hlt x (hsub x hx)
          simp only [heq]
          refine ⟨?_, ?_, ?_⟩ <;> simp only <;> omega
        · simp only [hst, if_neg hxE]
          exact h.started x (hsub x hx)
      adding := h.adding
      reading := fun r hr => h.reading r (List.mem_of_mem_eraseIdx hr)
      untriggered := hun
      latest := hlatest }

end Steps

theorem step_wakeInv {s t : TimerSys} {a : TimerStep} (h : WakeInv s)
    (hc : Timely s a ∧ NoRollover s a) (hs : step s a = some t) : WakeInv t := by
  cases a with
  | construct => exact construct_wakeInv h hc.1 hs
  | insert => exact insert_wakeInv h hs
  | cancel => exact cancel_wakeInv h hs
  | refresh => exact refresh_wakeInv h hc.1 hs
  | reset => exact reset_wakeInv h hc.1 hs
  | getNextTimer => exact getNextTimer_wakeInv h hc.1 hs
  | readClock => exact readClock_wakeInv h hc.1 hs
  | checkEmpty => exact checkEmpty_wakeInv h hs
  | expire => exact expire_wakeInv h hc.1 hc.2 hs

theorem WakeInv.noLostWakeup {s : TimerSys} (h : WakeInv s) : NoLostWakeup s := by
  have hkey : ∀ c ∈ s.seen, earlier (earliest s.mgr) c.deadline → c.triggered = true := by
    intro c hc hearly
    by_contra hfalse
    have hall := (h.untriggered c hc (by simpa using hfalse)).2
    unfold earliest at hearly
    cases ht : s.mgr.timers with
    | nil => simp [ht, earlier] at hearly
    | cons first rest =>
        rw [ht] at hearly
        exact hall first (by simp [ht]) hearly
  refine ⟨?_, hkey⟩
  intro c rest hcons hearly
  exact h.latest c rest hcons (hkey c (by simp [hcons]) hearly)

end TimerSys

/-- **No lost timer wake-up** in runs whose clock readings never decrease and in
which no section of `listExpiredCb` takes a late reading for a clock set back. -/
theorem timer_wakeup (s : TimerSys)
    (h : TimerSys.system.Reachable
      (fun s a => TimerSys.Timely s a ∧ TimerSys.NoRollover s a) s) :
    TimerSys.NoLostWakeup s := by
  refine (h.invariant TimerSys.WakeInv ?_ ?_).noLostWakeup
  · rintro s ⟨now, rfl⟩
    exact TimerSys.start_wakeInv now
  · exact fun s a t hi hc hs => TimerSys.step_wakeInv hi hc hs

/-- A timer that is added while a worker sleeps for a later one. -/
theorem timer_wakeup_two_timers :
    ∃ s, TimerSys.system.execIf (fun s a => TimerSys.Timely s a ∧ TimerSys.NoRollover s a)
        (TimerSys.start 1000)
        [.construct 500 1 false 64 1000, .insert 0, .getNextTimer 1001,
          .construct 20 2 true 96 1002, .insert 0, .readClock 1030, .checkEmpty 0,
          .expire 0 8] = some s ∧
      TimerSys.NoLostWakeup s := by
  have hrun : (TimerSys.system.execIf
      (fun s a => TimerSys.Timely s a ∧ TimerSys.NoRollover s a)
      (TimerSys.start 1000)
      [.construct 500 1 false 64 1000, .insert 0, .getNextTimer 1001,
        .construct 20 2 true 96 1002, .insert 0, .readClock 1030, .checkEmpty 0,
        .expire 0 8]).isSome = true := by decide
  obtain ⟨s, hs⟩ := Option.isSome_iff_exists.mp hrun
  exact ⟨s, hs, timer_wakeup s (System.execIf_reachable ⟨1000, rfl⟩ hs)⟩

/-- A worker reads the clock in `listExpiredCb` and is delayed for an hour before it
takes the lock.  Meanwhile another worker has expired the timers and has seen the
next deadline.  The late section takes its old reading for a clock that was set back,
fires the recurring timer and gives it a deadline that has already passed. -/
def lateReadingRun : List TimerStep :=
  [.construct 20000 1 true 64 1700000000000, .insert 0,
    .readClock 1700000000000, .checkEmpty 0,
    .readClock 1700003600001, .checkEmpty 1, .expire 1 8,
    .getNextTimer 1700003600001, .expire 0 8]

theorem timer_wakeup_lost :
    ¬ ∀ s, TimerSys.system.Reachable TimerSys.Timely s → TimerSys.WakeupSignalled s := by
  intro hall
  have hrun : (TimerSys.system.execIf TimerSys.Timely (TimerSys.start 1700000000000)
      lateReadingRun).map (fun s => (s.seen, TimerSys.earliest s.mgr, s.mgr.tickled)) =
      some ([⟨some 1700003620001, false⟩], some 1700000020000, false) := by decide
  obtain ⟨s, hs, hfields⟩ := Option.map_eq_some_iff.mp hrun
  simp only [Prod.mk.injEq] at hfields
  obtain ⟨hseen, hearliest, htickled⟩ := hfields
  have hwake := hall s (System.execIf_reachable ⟨_, rfl⟩ hs)
    ⟨some 1700003620001, false⟩ [] hseen (by rw [hearliest]; decide)
  simp [htickled] at hwake

end Concurrency
end Hpgs
