import Hpgs.Library.Transition
import Hpgs.Concurrency.Timer

/-!
# The life of a timer

The timer manager under any number of threads.  Every locked section of `timer.cc`
is one step.  `addTimer` and `listExpiredCb` first run outside the lock: a timer
that has been made and not yet inserted waits in `adding`, and a call of
`listExpiredCb` that has read the clock waits in `expiring`, with a flag that says
whether it has passed the read-locked test for an empty set.

**Results.**
* `Inv`: the set is in order, a timer is in it iff its callback is not empty, and no
  two timers of the set share an address; kept by every step (`step_inv`).
* `step_out`: a timer that is out of the set stays out of it and is handed out no
  more.
* `timer_lifecycle`: the life of every timer in every reachable state.
-/

namespace Hpgs
namespace Concurrency

open Transition

namespace TimerManager

/-- What every locked section keeps. -/
structure WellFormed (m : TimerManager) : Prop where
  placed : Placed m m.timers
  mem_iff : ∀ i, i ∈ m.timers ↔ i < m.count ∧ (m.store i).cb.isSome = true

/-- A section that makes no timer and inserts none that was not in the set. -/
structure Kept (m m' : TimerManager) : Prop where
  wf : WellFormed m'
  count : m'.count = m.count
  recurring : ∀ j, (m'.store j).recurring = (m.store j).recurring
  addr : ∀ j, (m'.store j).addr = (m.store j).addr
  sub : ∀ x, x ∈ m'.timers → x ∈ m.timers

theorem Kept.refl {m : TimerManager} (h : WellFormed m) : Kept m m where
  wf := h
  count := rfl
  recurring := fun _ => rfl
  addr := fun _ => rfl
  sub := fun _ hx => hx

namespace WellFormed

variable {m : TimerManager}

theorem mem_of_cb (h : WellFormed m) {i : Nat} (hi : i < m.count) {c : Nat}
    (hcb : (m.store i).cb = some c) : i ∈ m.timers :=
  (h.mem_iff i).mpr ⟨hi, by simp [hcb]⟩

theorem lt_count (h : WellFormed m) {i : Nat} (hi : i ∈ m.timers) : i < m.count :=
  ((h.mem_iff i).mp hi).1

theorem find_eq (h : WellFormed m) {i : Nat} (hi : i ∈ m.timers) :
    OrderedSet.find m.less i m.timers = some i :=
  OrderedSet.find_of_mem m.less_strict h.placed.sorted hi

/-! ### The operations of a timer -/

theorem cancel_of_none {i : Nat} (hcb : (m.store i).cb = none) :
    m.cancel i = some (false, m) := by
  simp [cancel, hcb]

/-- The comparisons that the set makes do not read the callback. -/
theorem less_setTimer_cb (i : Nat) (cb : Option Nat) :
    (m.setTimer i { m.store i with cb := cb }).less = m.less := by
  funext a b
  have hkey : ∀ x, ((m.setTimer i { m.store i with cb := cb }).store x).next =
      (m.store x).next ∧
      ((m.setTimer i { m.store i with cb := cb }).store x).addr = (m.store x).addr := by
    intro x
    by_cases hx : x = i
    · subst hx
      simp
    · simp [setTimer_store_of_ne m _ hx]
  rw [Bool.eq_iff_iff, less_iff, less_iff, (hkey a).1, (hkey a).2, (hkey b).1, (hkey b).2]

/-- `cancel` of a pending timer. -/
theorem cancel_of_some (h : WellFormed m) {i c : Nat} (hi : i < m.count)
    (hcb : (m.store i).cb = some c) :
    ∃ m', m.cancel i = some (true, m') ∧ Kept m m' ∧ i ∉ m'.timers ∧
      (∀ x, x ∈ m'.timers ↔ x ∈ m.timers ∧ x ≠ i) ∧
      (∀ j, (m'.store j).next = (m.store j).next ∧ (m'.store j).ms = (m.store j).ms) ∧
      m'.tickled = m.tickled := by
  have hmem := h.mem_of_cb hi hcb
  set m₁ := m.setTimer i { m.store i with cb := none } with hm₁
  have hless : m₁.less = m.less := less_setTimer_cb i none
  have hfind : OrderedSet.find m₁.less i m₁.timers = some i := by
    rw [hless]
    exact h.find_eq hmem
  have htimers : ∀ x, x ∈ OrderedSet.erase m₁.less i m₁.timers ↔ x ∈ m.timers ∧ x ≠ i := by
    intro x
    rw [hless]
    exact h.placed.mem_erase hmem
  have hstore : ∀ x, x ≠ i → m₁.store x = m.store x :=
    fun x hx => setTimer_store_of_ne m _ hx
  refine ⟨{ m₁ with timers := OrderedSet.erase m₁.less i m₁.timers }, ?_, ?_, ?_, htimers,
    ?_, rfl⟩
  · simp [cancel, hcb, ← hm₁, hfind]
  · exact
      { wf :=
          { placed := by
              have herase := h.placed.erase hmem
              refine Placed.congr (m := m) ?_ ?_
              · rw [hless]
                exact herase
              · intro x hx
                exact hstore x ((htimers x).mp hx).2
            mem_iff := by
              intro x
              rw [htimers, h.mem_iff]
              by_cases hx : x = i
              · subst hx
                simp [m₁]
              · simp [hx, hstore x hx, m₁] }
        count := rfl
        recurring := by
          intro j
          by_cases hj : j = i
          · subst hj
            simp [m₁]
          · simp [hstore j hj]
        addr := by
          intro j
          by_cases hj : j = i
          · subst hj
            simp [m₁]
          · simp [hstore j hj]
        sub := fun x hx => ((htimers x).mp hx).1 }
  · intro hc
    exact ((htimers i).mp hc).2 rfl
  · intro j
    by_cases hj : j = i
    · subst hj
      simp [m₁]
    · simp [hstore j hj]

/-- Putting a pending timer back with a new deadline keeps the manager well formed. -/
theorem rekey_kept (h : WellFormed m) {i : Nat} (hi : i ∈ m.timers) (t : Timer)
    (haddr : t.addr = (m.store i).addr) (hcb : t.cb = (m.store i).cb)
    (hrec : t.recurring = (m.store i).recurring)
    {m₂ : TimerManager} (m₃ : TimerManager)
    (hm₂ : m₂ = TimerManager.setTimer
      { m with timers := OrderedSet.erase m.less i m.timers } i t)
    (hstore : m₃.store = m₂.store) (hcount : m₃.count = m.count)
    (htimers : m₃.timers = OrderedSet.insert m₂.less i m₂.timers) :
    Kept m m₃ ∧ (∀ x, x ∈ m₃.timers ↔ x ∈ m.timers) := by
  obtain ⟨hplaced, hmem, _, _⟩ := rekey_spec h.placed hi t haddr hm₂
  have hst : ∀ x, m₃.store x = if x = i then t else m.store x := by
    intro x
    rw [hstore, hm₂]
    rfl
  have hmem' : ∀ x, x ∈ m₃.timers ↔ x ∈ m.timers := by
    intro x
    rw [htimers, hmem]
  refine ⟨?_, hmem'⟩
  exact
    { wf :=
        { placed := by
            rw [htimers]
            exact hplaced.congr fun x _ => by rw [hstore]
          mem_iff := by
            intro x
            rw [hmem', h.mem_iff, hcount, hst]
            by_cases hx : x = i
            · subst hx
              simp [hcb]
            · simp [hx] }
      count := hcount
      recurring := by
        intro j
        rw [hst]
        by_cases hj : j = i
        · subst hj
          simp [hrec]
        · simp [hj]
      addr := by
        intro j
        rw [hst]
        by_cases hj : j = i
        · subst hj
          simp [haddr]
        · simp [hj]
      sub := fun x hx => (hmem' x).mp hx }

theorem refresh_of_none {i now : Nat} (hcb : (m.store i).cb = none) :
    m.refresh i now = (false, m) := by
  simp [refresh, hcb]

/-- `refresh` of a pending timer. -/
theorem refresh_of_some (h : WellFormed m) {i c : Nat} (hi : i < m.count)
    (hcb : (m.store i).cb = some c) (now : Nat) :
    ∃ m', m.refresh i now = (true, m') ∧ Kept m m' ∧
      (∀ x, x ∈ m'.timers ↔ x ∈ m.timers) ∧
      (∀ j, m'.store j =
        if j = i then { m.store i with next := wrap64 (now + (m.store i).ms) }
        else m.store j) ∧
      m'.tickled = m.tickled := by
  have hmem := h.mem_of_cb hi hcb
  refine ⟨(m.refresh i now).2, ?_, ?_⟩
  · simp [refresh, hcb, h.find_eq hmem]
  · have hkept := h.rekey_kept hmem
      { m.store i with next := wrap64 (now + (m.store i).ms) } rfl rfl rfl
      (m.refresh i now).2 rfl
      (by simp [refresh, hcb, h.find_eq hmem])
      (by simp [refresh, hcb, h.find_eq hmem])
      (by simp [refresh, hcb, h.find_eq hmem])
    refine ⟨hkept.1, hkept.2, ?_, ?_⟩
    · intro j
      simp [refresh, hcb, h.find_eq hmem, setTimer]
    · simp [refresh, hcb, h.find_eq hmem]

theorem reset_of_same {i ms now : Nat} {fromNow : Bool}
    (hsame : ms = (m.store i).ms ∧ fromNow = false) :
    m.reset i ms fromNow now = ⟨true, false, m⟩ := by
  rw [reset, if_pos hsame]

theorem reset_of_none {i ms now : Nat} {fromNow : Bool}
    (hsame : ¬(ms = (m.store i).ms ∧ fromNow = false)) (hcb : (m.store i).cb = none) :
    m.reset i ms fromNow now = ⟨false, false, m⟩ := by
  rw [reset, if_neg hsame]
  simp [hcb]

/-- The manager that `reset` inserts the timer `i` into: `i` is out of the set and
has its new interval and deadline. -/
def resetting (m : TimerManager) (i ms : Nat) (fromNow : Bool) (now : Nat) : TimerManager :=
  TimerManager.setTimer { m with timers := OrderedSet.erase m.less i m.timers } i
    { m.store i with ms := ms, next := resetNext (m.store i) ms fromNow now }

theorem reset_of_some (h : WellFormed m) {i c ms now : Nat} {fromNow : Bool}
    (hsame : ¬(ms = (m.store i).ms ∧ fromNow = false)) (hi : i < m.count)
    (hcb : (m.store i).cb = some c) :
    m.reset i ms fromNow now =
      ⟨true, ((resetting m i ms fromNow now).insertTimer i).1,
        ((resetting m i ms fromNow now).insertTimer i).2⟩ := by
  rw [reset, if_neg hsame]
  simp [hcb, h.find_eq (h.mem_of_cb hi hcb), resetting]

theorem resetting_kept (h : WellFormed m) {i : Nat} (hi : i ∈ m.timers) (ms : Nat)
    (fromNow : Bool) (now : Nat) :
    Kept m ((resetting m i ms fromNow now).insertTimer i).2 ∧
      (∀ x, x ∈ ((resetting m i ms fromNow now).insertTimer i).2.timers ↔ x ∈ m.timers) :=
  h.rekey_kept hi { m.store i with ms := ms, next := resetNext (m.store i) ms fromNow now }
    rfl rfl rfl _ rfl rfl rfl rfl

theorem getNextTimer_kept (h : WellFormed m) (now : Nat) :
    Kept m (m.getNextTimer now).2 ∧ (m.getNextTimer now).2.store = m.store ∧
      (m.getNextTimer now).2.timers = m.timers ∧
      (m.getNextTimer now).2.tickled = false := by
  have hm : (m.getNextTimer now).2 = { m with tickled := false } := by
    unfold getNextTimer
    split
    · rfl
    · split <;> rfl
  rw [hm]
  refine ⟨?_, rfl, rfl, rfl⟩
  exact
    { wf :=
        { placed := h.placed.congr fun _ _ => rfl
          mem_iff := h.mem_iff }
      count := rfl
      recurring := fun _ => rfl
      addr := fun _ => rfl
      sub := fun _ hx => hx }

/-- Insertion of a new object at an address of its own. -/
theorem addTimer_wf (h : WellFormed m) {t : Timer} (hcb : t.cb.isSome = true)
    (haddr : ∀ i ∈ m.timers, (m.store i).addr ≠ t.addr) :
    WellFormed (m.addTimer t).2 ∧
      (∀ x, x ∈ (m.addTimer t).2.timers ↔ x = m.count ∨ x ∈ m.timers) ∧
      (m.addTimer t).2.count = m.count + 1 ∧
      (∀ j, (m.addTimer t).2.store j = if j = m.count then t else m.store j) := by
  set m' : TimerManager := { m.setTimer m.count t with count := m.count + 1 } with hm'
  have hstore : ∀ j, m'.store j = if j = m.count then t else m.store j := fun _ => rfl
  have hne : ∀ x ∈ m.timers, x ≠ m.count := fun x hx => Nat.ne_of_lt (h.lt_count hx)
  have hplaced : Placed m' m'.timers := by
    refine Placed.congr (m := m) h.placed ?_
    intro x hx
    rw [hstore, if_neg (hne x hx)]
  have hfresh : ∀ x ∈ m'.timers, (m'.store x).addr ≠ (m'.store m.count).addr := by
    intro x hx
    rw [hstore, hstore, if_pos rfl, if_neg (hne x hx)]
    exact haddr x hx
  have hmem : ∀ x, x ∈ (m.addTimer t).2.timers ↔ x = m.count ∨ x ∈ m.timers :=
    fun x => hplaced.mem_insert hfresh
  refine ⟨?_, hmem, rfl, fun _ => rfl⟩
  exact
    { placed := (hplaced.insert hfresh).congr fun _ _ => rfl
      mem_iff := by
        intro x
        have hx' : (m.addTimer t).2.store x = if x = m.count then t else m.store x := rfl
        have hc' : (m.addTimer t).2.count = m.count + 1 := rfl
        rw [hmem, h.mem_iff, hx', hc']
        by_cases hx : x = m.count
        · subst hx
          simp [hcb]
        · rw [if_neg hx]
          constructor
          · rintro (hc | ⟨hlt, hs⟩)
            · exact absurd hc hx
            · exact ⟨by omega, hs⟩
          · rintro ⟨hlt, hs⟩
            exact Or.inr ⟨by omega, hs⟩ }

/-- Expiry keeps the manager well formed and only hands out timers of the set. -/
theorem listExpired_kept (h : WellFormed m) (now probeAddr : Nat) :
    Kept m (m.listExpired now probeAddr).2 ∧
      ((m.listExpired now probeAddr).1.map Prod.fst) =
        m.timers.filter (m.due (m.detectClockRollover now).1 now) ∧
      (∀ i ∈ m.timers.filter (m.due (m.detectClockRollover now).1 now),
        (m.store i).recurring = false → i ∉ (m.listExpired now probeAddr).2.timers) := by
  obtain ⟨hcbs, hout⟩ := listExpired_spec h.placed now probeAddr
  set E := m.timers.filter (m.due (m.detectClockRollover now).1 now) with hE
  set m' := (m.listExpired now probeAddr).2 with hm'
  have hmemE : ∀ x, x ∈ E ↔ x ∈ m.timers ∧ m.due (m.detectClockRollover now).1 now x = true :=
    fun x => List.mem_filter
  have hmem : ∀ x, x ∈ m'.timers ↔
      (x ∈ m.timers ∧ x ∉ E) ∨ (x ∈ E ∧ (m.store x).recurring = true) := by
    intro x
    rw [hout.mem]
    simp only [List.mem_filter, hmemE]
    by_cases hd : m.due (m.detectClockRollover now).1 now x = true
    · simp [hd]
    · simp [hd]
  have hst : ∀ j, m'.store j =
      if j ∈ E then expiredTimer now (m.store j) else m.store j := hout.store
  have hcount : m'.count = m.count := hout.count
  have hsub : ∀ x, x ∈ m'.timers → x ∈ m.timers := by
    intro x hx
    rcases (hmem x).mp hx with ⟨hx, _⟩ | ⟨hx, _⟩
    · exact hx
    · exact ((hmemE x).mp hx).1
  refine ⟨?_, ?_, ?_⟩
  · exact
      { wf :=
          { placed := hout.placed
            mem_iff := by
              intro x
              rw [hmem, hcount, hst]
              have hwf := h.mem_iff x
              by_cases hx : x ∈ E
              · have hxt := hwf.mp ((hmemE x).mp hx).1
                rw [if_pos hx, expiredTimer]
                cases hr : (m.store x).recurring with
                | true => simp [hx, hxt.1, hxt.2]
                | false => simp [hx]
              · rw [if_neg hx]
                simp [hx, hwf] }
        count := hcount
        recurring := by
          intro j
          rw [hst]
          split
          · exact expiredTimer_recurring now _
          · rfl
        addr := by
          intro j
          rw [hst]
          split
          · exact expiredTimer_addr now _
          · rfl
        sub := hsub }
  · rw [hcbs, List.map_map]
    exact List.map_id _
  · intro i hi hrec hc
    rcases (hmem i).mp hc with ⟨_, hx⟩ | ⟨_, hx⟩
    · exact hx hi
    · simp [hrec] at hx

end WellFormed

end TimerManager

/-! ## The manager under any number of threads -/

/-- A past call of `getNextTimer`: the earliest deadline that it saw, `none` for an
empty set, and whether `onTimerInsertAtFront` has been triggered since. -/
structure Seen where
  deadline : Option Nat
  triggered : Bool
deriving DecidableEq, Repr

/-- The manager, the calls in progress, and the history that the properties are
about: `handed` lists the timers whose callbacks were handed out, `clock` is the last
reading of the clock and `seen` the calls of `getNextTimer`, latest first. -/
structure TimerSys where
  mgr : TimerManager
  adding : List Timer
  expiring : List (Nat × Bool)
  handed : List Nat
  clock : Nat
  seen : List Seen

/-- The atomic steps.  `now` is a clock reading, `k` picks a call in progress. -/
inductive TimerStep
  /-- `addTimer(ms, cb, recurring)` makes its `Timer` object. -/
  | construct (ms cb : Nat) (recurring : Bool) (addr now : Nat)
  /-- The locked section of `addTimer`. -/
  | insert (k : Nat)
  | cancel (i : Nat)
  | refresh (i now : Nat)
  | reset (i ms : Nat) (fromNow : Bool) (now : Nat)
  | getNextTimer (now : Nat)
  /-- `listExpiredCb` reads the clock. -/
  | readClock (now : Nat)
  /-- The read-locked section of `listExpiredCb`. -/
  | checkEmpty (k : Nat)
  /-- The write-locked section of `listExpiredCb`. -/
  | expire (k probeAddr : Nat)
deriving DecidableEq, Repr

namespace TimerSys

/-- The earliest deadline in the set. -/
def earliest (m : TimerManager) : Option Nat :=
  m.timers.head?.map fun i => (m.store i).next

/-- Record that `onTimerInsertAtFront` is triggered if `b`. -/
def trigger (s : TimerSys) (b : Bool) : TimerSys :=
  if b then { s with seen := s.seen.map fun c => { c with triggered := true } } else s

/-- A manager made when the clock shows `now`. -/
def start (now : Nat) : TimerSys :=
  { mgr := TimerManager.new now, adding := [], expiring := [], handed := [],
    clock := now, seen := [] }

/-- One atomic step.  A new object gets an address at which no timer of the set and
no timer about to be inserted lives; a method is called on an existing timer. -/
def step (s : TimerSys) : TimerStep → Option TimerSys
  | .construct ms cb recurring addr now =>
      if (∀ i ∈ s.mgr.timers, (s.mgr.store i).addr ≠ addr) ∧
          (∀ t ∈ s.adding, t.addr ≠ addr) then
        some { s with
          adding := s.adding ++ [Timer.new ms (some cb) recurring addr now]
          clock := now }
      else none
  | .insert k =>
      match s.adding[k]? with
      | none => none
      | some t =>
          some (({ s with
            mgr := (s.mgr.addTimer t).2
            adding := s.adding.eraseIdx k } : TimerSys).trigger (s.mgr.addTimer t).1)
  | .cancel i =>
      if i < s.mgr.count then
        (s.mgr.cancel i).map fun r => { s with mgr := r.2 }
      else none
  | .refresh i now =>
      if i < s.mgr.count then
        some { s with mgr := (s.mgr.refresh i now).2, clock := now }
      else none
  | .reset i ms fromNow now =>
      if i < s.mgr.count then
        some (({ s with
          mgr := (s.mgr.reset i ms fromNow now).manager
          clock := now } : TimerSys).trigger (s.mgr.reset i ms fromNow now).atFront)
      else none
  | .getNextTimer now =>
      some { s with
        mgr := (s.mgr.getNextTimer now).2
        clock := now
        seen := ⟨earliest s.mgr, false⟩ :: s.seen }
  | .readClock now =>
      some { s with expiring := s.expiring ++ [(now, false)], clock := now }
  | .checkEmpty k =>
      match s.expiring[k]? with
      | some (now, false) =>
          if s.mgr.timers = [] then some { s with expiring := s.expiring.eraseIdx k }
          else some { s with expiring := s.expiring.set k (now, true) }
      | _ => none
  | .expire k probeAddr =>
      match s.expiring[k]? with
      | some (now, true) =>
          some { s with
            mgr := (s.mgr.listExpired now probeAddr).2
            expiring := s.expiring.eraseIdx k
            handed := s.handed ++ (s.mgr.listExpired now probeAddr).1.map Prod.fst }
      | _ => none

/-- The runs of one timer manager, made at any clock reading. -/
def system : System TimerSys TimerStep where
  init s := ∃ now, s = start now
  step := step

@[simp] theorem trigger_mgr (s : TimerSys) (b : Bool) : (s.trigger b).mgr = s.mgr := by
  unfold trigger; split <;> rfl

@[simp] theorem trigger_adding (s : TimerSys) (b : Bool) :
    (s.trigger b).adding = s.adding := by
  unfold trigger; split <;> rfl

@[simp] theorem trigger_expiring (s : TimerSys) (b : Bool) :
    (s.trigger b).expiring = s.expiring := by
  unfold trigger; split <;> rfl

@[simp] theorem trigger_handed (s : TimerSys) (b : Bool) :
    (s.trigger b).handed = s.handed := by
  unfold trigger; split <;> rfl

@[simp] theorem trigger_clock (s : TimerSys) (b : Bool) :
    (s.trigger b).clock = s.clock := by
  unfold trigger; split <;> rfl

theorem step_insert {s t : TimerSys} {k : Nat} (hs : step s (.insert k) = some t) :
    ∃ v, s.adding[k]? = some v ∧
      t = ({ s with
        mgr := (s.mgr.addTimer v).2
        adding := s.adding.eraseIdx k } : TimerSys).trigger (s.mgr.addTimer v).1 := by
  simp only [step] at hs
  split at hs
  · cases hs
  · rename_i v hv
    cases hs
    exact ⟨v, hv, rfl⟩

/-- The read-locked section drops its reading or marks it. -/
theorem step_checkEmpty {s t : TimerSys} {k : Nat} (hs : step s (.checkEmpty k) = some t) :
    ∃ expiring, t = { s with expiring := expiring } ∧
      ∀ r ∈ expiring, ∃ r' ∈ s.expiring, r'.1 = r.1 := by
  simp only [step] at hs
  split at hs
  · rename_i now hk
    split at hs
    · cases hs
      exact ⟨_, rfl, fun r hr => ⟨r, List.mem_of_mem_eraseIdx hr, rfl⟩⟩
    · cases hs
      refine ⟨_, rfl, fun r hr => ?_⟩
      rcases List.mem_or_eq_of_mem_set hr with hr | rfl
      · exact ⟨r, hr, rfl⟩
      · exact ⟨_, List.mem_of_getElem? hk, rfl⟩
  · cases hs

theorem step_expire {s t : TimerSys} {k probeAddr : Nat}
    (hs : step s (.expire k probeAddr) = some t) :
    ∃ now, s.expiring[k]? = some (now, true) ∧
      t = { s with
        mgr := (s.mgr.listExpired now probeAddr).2
        expiring := s.expiring.eraseIdx k
        handed := s.handed ++ (s.mgr.listExpired now probeAddr).1.map Prod.fst } := by
  simp only [step] at hs
  split at hs
  · rename_i now hk
    cases hs
    exact ⟨now, hk, rfl⟩
  · cases hs

/-- What one step can do to the timers. -/
inductive Change (s t : TimerSys) : Prop
  /-- A section that makes no timer; `addTimer` may have made an object to insert. -/
  | kept :
      s.mgr.Kept t.mgr →
      t.handed = s.handed →
      (t.adding = s.adding ∨
        ∃ v : Timer, v.cb.isSome = true ∧
          (∀ i ∈ s.mgr.timers, (s.mgr.store i).addr ≠ v.addr) ∧
          (∀ u ∈ s.adding, u.addr ≠ v.addr) ∧
          t.mgr = s.mgr ∧ t.adding = s.adding ++ [v]) →
      Change s t
  | inserted (k : Nat) (v : Timer) :
      s.adding[k]? = some v →
      t.mgr = (s.mgr.addTimer v).2 →
      t.adding = s.adding.eraseIdx k →
      t.handed = s.handed →
      Change s t
  | expired (now probeAddr : Nat) :
      t.mgr = (s.mgr.listExpired now probeAddr).2 →
      t.adding = s.adding →
      t.handed = s.handed ++ (s.mgr.listExpired now probeAddr).1.map Prod.fst →
      Change s t

open TimerManager in
/-- Every step of a well formed manager is one of these changes. -/
theorem step_change {s t : TimerSys} {a : TimerStep} (h : s.mgr.WellFormed)
    (hs : step s a = some t) : Change s t := by
  cases a with
  | construct ms cb recurring addr now =>
      simp only [step, Option.ite_none_right_eq_some, Option.some.injEq] at hs
      obtain ⟨⟨hset, hadd⟩, rfl⟩ := hs
      exact .kept (Kept.refl h) rfl
        (Or.inr ⟨Timer.new ms (some cb) recurring addr now, rfl, hset, hadd, rfl, rfl⟩)
  | insert k =>
      obtain ⟨v, hv, rfl⟩ := step_insert hs
      exact .inserted k v hv (by simp) (by simp) (by simp)
  | cancel i =>
      simp only [step, Option.ite_none_right_eq_some, Option.map_eq_some_iff] at hs
      obtain ⟨hi, r, hr, rfl⟩ := hs
      cases hcb : (s.mgr.store i).cb with
      | none =>
          rw [WellFormed.cancel_of_none hcb] at hr
          cases hr
          exact .kept (Kept.refl h) rfl (Or.inl rfl)
      | some c =>
          obtain ⟨m', hm', hkept, _⟩ := h.cancel_of_some hi hcb
          rw [hm'] at hr
          cases hr
          exact .kept hkept rfl (Or.inl rfl)
  | refresh i now =>
      simp only [step, Option.ite_none_right_eq_some, Option.some.injEq] at hs
      obtain ⟨hi, rfl⟩ := hs
      cases hcb : (s.mgr.store i).cb with
      | none =>
          rw [WellFormed.refresh_of_none hcb]
          exact .kept (Kept.refl h) rfl (Or.inl rfl)
      | some c =>
          obtain ⟨m', hm', hkept, _⟩ := h.refresh_of_some hi hcb now
          rw [hm']
          exact .kept hkept rfl (Or.inl rfl)
  | reset i ms fromNow now =>
      simp only [step, Option.ite_none_right_eq_some, Option.some.injEq] at hs
      obtain ⟨hi, rfl⟩ := hs
      refine .kept ?_ (by simp) (Or.inl (by simp))
      rw [trigger_mgr]
      by_cases hsame : ms = (s.mgr.store i).ms ∧ fromNow = false
      · rw [WellFormed.reset_of_same hsame]
        exact Kept.refl h
      · cases hcb : (s.mgr.store i).cb with
        | none =>
            rw [WellFormed.reset_of_none hsame hcb]
            exact Kept.refl h
        | some c =>
            rw [h.reset_of_some hsame hi hcb]
            exact (h.resetting_kept (h.mem_of_cb hi hcb) ms fromNow now).1
  | getNextTimer now =>
      simp only [step, Option.some.injEq] at hs
      subst hs
      exact .kept (h.getNextTimer_kept now).1 rfl (Or.inl rfl)
  | readClock now =>
      simp only [step, Option.some.injEq] at hs
      subst hs
      exact .kept (Kept.refl h) rfl (Or.inl rfl)
  | checkEmpty k =>
      obtain ⟨_, rfl, _⟩ := step_checkEmpty hs
      exact .kept (Kept.refl h) rfl (Or.inl rfl)
  | expire k probeAddr =>
      obtain ⟨now, _, rfl⟩ := step_expire hs
      exact .expired now probeAddr rfl rfl rfl

/-- The readings that calls of `listExpiredCb` are made with: a step makes one when it
reads the clock, and keeps the others. -/
theorem step_reading {s t : TimerSys} {a : TimerStep} (hs : step s a = some t)
    {r : Nat × Bool} (hr : r ∈ t.expiring) :
    (∃ r' ∈ s.expiring, r'.1 = r.1) ∨ a = .readClock r.1 := by
  cases a with
  | construct ms cb recurring addr now =>
      simp only [step, Option.ite_none_right_eq_some, Option.some.injEq] at hs
      obtain ⟨_, rfl⟩ := hs
      exact Or.inl ⟨r, hr, rfl⟩
  | insert k =>
      obtain ⟨v, _, rfl⟩ := step_insert hs
      exact Or.inl ⟨r, by simpa using hr, rfl⟩
  | cancel i =>
      simp only [step, Option.ite_none_right_eq_some, Option.map_eq_some_iff] at hs
      obtain ⟨_, _, _, rfl⟩ := hs
      exact Or.inl ⟨r, hr, rfl⟩
  | refresh i now =>
      simp only [step, Option.ite_none_right_eq_some, Option.some.injEq] at hs
      obtain ⟨_, rfl⟩ := hs
      exact Or.inl ⟨r, hr, rfl⟩
  | reset i ms fromNow now =>
      simp only [step, Option.ite_none_right_eq_some, Option.some.injEq] at hs
      obtain ⟨_, rfl⟩ := hs
      exact Or.inl ⟨r, by simpa using hr, rfl⟩
  | getNextTimer now =>
      simp only [step, Option.some.injEq] at hs
      subst hs
      exact Or.inl ⟨r, hr, rfl⟩
  | readClock now =>
      simp only [step, Option.some.injEq] at hs
      subst hs
      rcases List.mem_append.mp hr with hr | hr
      · exact Or.inl ⟨r, hr, rfl⟩
      · simp only [List.mem_singleton] at hr
        subst hr
        exact Or.inr rfl
  | checkEmpty k =>
      obtain ⟨expiring, rfl, hold⟩ := step_checkEmpty hs
      exact Or.inl (hold r hr)
  | expire k probeAddr =>
      obtain ⟨now, _, rfl⟩ := step_expire hs
      exact Or.inl ⟨r, List.mem_of_mem_eraseIdx hr, rfl⟩

/-- The invariant of the timer manager. -/
structure Inv (s : TimerSys) : Prop where
  wf : s.mgr.WellFormed
  adding_cb : ∀ v ∈ s.adding, v.cb.isSome = true
  adding_out : ∀ v ∈ s.adding, ∀ i ∈ s.mgr.timers, (s.mgr.store i).addr ≠ v.addr
  adding_ne : s.adding.Pairwise fun u v => u.addr ≠ v.addr
  handed_lt : ∀ i ∈ s.handed, i < s.mgr.count
  handed_once : ∀ i, (s.mgr.store i).recurring = false →
    s.handed.count i + (if i ∈ s.mgr.timers then 1 else 0) ≤ 1

theorem start_inv (now : Nat) : Inv (start now) where
  wf :=
    { placed := ⟨List.Pairwise.nil, by simp [start, TimerManager.new]⟩
      mem_iff := by simp [start, TimerManager.new] }
  adding_cb := by simp [start]
  adding_out := by simp [start]
  adding_ne := List.Pairwise.nil
  handed_lt := by simp [start]
  handed_once := by simp [start, TimerManager.new]

theorem inserted_inv {s t : TimerSys} (h : Inv s) {k : Nat} {v : Timer}
    (hk : s.adding[k]? = some v) (hmgr : t.mgr = (s.mgr.addTimer v).2)
    (hadd : t.adding = s.adding.eraseIdx k) (hhanded : t.handed = s.handed) :
    Inv t := by
  have hv : v ∈ s.adding := List.mem_of_getElem? hk
  obtain ⟨hwf, hmem, hcount, hstore⟩ :=
    h.wf.addTimer_wf (h.adding_cb v hv) (h.adding_out v hv)
  have hsub : ∀ u ∈ t.adding, u ∈ s.adding := by
    intro u hu
    rw [hadd] at hu
    exact List.mem_of_mem_eraseIdx hu
  have hcount₀ : s.handed.count s.mgr.count = 0 := by
    rw [List.count_eq_zero]
    intro hc
    exact absurd (h.handed_lt _ hc) (Nat.lt_irrefl _)
  have hne : ∀ i ∈ s.mgr.timers, i ≠ s.mgr.count :=
    fun i hi => Nat.ne_of_lt (h.wf.lt_count hi)
  -- the objects still waiting live elsewhere than the one just inserted
  have hrest : ∀ u ∈ t.adding, v.addr ≠ u.addr := by
    intro u hu hab
    rw [hadd, List.mem_eraseIdx_iff_getElem?] at hu
    obtain ⟨j, hjk, hj⟩ := hu
    obtain ⟨hjlt, hju⟩ := List.getElem?_eq_some_iff.mp hj
    obtain ⟨hklt, hkv⟩ := List.getElem?_eq_some_iff.mp hk
    have hpair := List.pairwise_iff_getElem.mp h.adding_ne
    rcases Nat.lt_or_gt_of_ne hjk with hlt | hlt
    · exact hpair j k hjlt hklt hlt (by rw [hju, hkv, hab])
    · exact hpair k j hklt hjlt hlt (by rw [hju, hkv, hab])
  exact
    { wf := hmgr ▸ hwf
      adding_cb := fun u hu => h.adding_cb u (hsub u hu)
      adding_out := by
        intro u hu i hi
        rw [hmgr] at hi ⊢
        rw [hstore]
        rcases (hmem i).mp hi with rfl | hi
        · simpa using hrest u hu
        · rw [if_neg (hne i hi)]
          exact h.adding_out u (hsub u hu) i hi
      adding_ne := by
        rw [hadd]
        exact List.Pairwise.sublist (List.eraseIdx_sublist _ _) h.adding_ne
      handed_lt := by
        intro i hi
        rw [hhanded] at hi
        rw [hmgr, hcount]
        exact Nat.lt_succ_of_lt (h.handed_lt i hi)
      handed_once := by
        intro i hi
        rw [hhanded, hmgr]
        rw [hmgr, hstore] at hi
        by_cases hic : i = s.mgr.count
        · subst hic
          rw [hcount₀]
          split <;> omega
        · rw [if_neg hic] at hi
          have := h.handed_once i hi
          simp only [hmem, hic, false_or]
          exact this }

theorem expired_inv {s t : TimerSys} (h : Inv s) {now probeAddr : Nat}
    (hmgr : t.mgr = (s.mgr.listExpired now probeAddr).2)
    (hadd : t.adding = s.adding)
    (hhanded : t.handed = s.handed ++ (s.mgr.listExpired now probeAddr).1.map Prod.fst) :
    Inv t := by
  obtain ⟨hkept, hcbs, hgone⟩ := h.wf.listExpired_kept now probeAddr
  rw [hcbs] at hhanded
  rw [← hmgr] at hkept hgone
  have hE : ∀ i ∈ s.mgr.timers.filter
      (s.mgr.due (s.mgr.detectClockRollover now).1 now), i ∈ s.mgr.timers :=
    fun i hi => (List.mem_filter.mp hi).1
  exact
    { wf := hkept.wf
      adding_cb := by
        rw [hadd]
        exact h.adding_cb
      adding_out := by
        intro v hv i hi
        rw [hadd] at hv
        rw [hkept.addr]
        exact h.adding_out v hv i (hkept.sub i hi)
      adding_ne := by
        rw [hadd]
        exact h.adding_ne
      handed_lt := by
        intro i hi
        rw [hhanded] at hi
        rw [hkept.count]
        rcases List.mem_append.mp hi with hi | hi
        · exact h.handed_lt i hi
        · exact h.wf.lt_count (hE i hi)
      handed_once := by
        intro i hi
        rw [hkept.recurring] at hi
        have hone := h.handed_once i hi
        have hnd : (s.mgr.timers.filter
            (s.mgr.due (s.mgr.detectClockRollover now).1 now)).count i ≤ 1 :=
          List.nodup_iff_count_le_one.mp (h.wf.placed.nodup.filter _) i
        rw [hhanded, List.count_append]
        by_cases hiE : i ∈ s.mgr.timers.filter
            (s.mgr.due (s.mgr.detectClockRollover now).1 now)
        · rw [if_pos (hE i hiE)] at hone
          rw [if_neg (hgone i hiE hi)]
          omega
        · rw [List.count_eq_zero_of_not_mem hiE]
          by_cases hit : i ∈ t.mgr.timers
          · rw [if_pos (hkept.sub i hit)] at hone
            rw [if_pos hit]
            omega
          · rw [if_neg hit]
            omega }

theorem step_inv {s t : TimerSys} {a : TimerStep} (h : Inv s)
    (hs : step s a = some t) : Inv t := by
  cases step_change h.wf hs with
  | inserted k v hk hmgr hadd hhanded => exact inserted_inv h hk hmgr hadd hhanded
  | expired now probeAddr hmgr hadd hhanded => exact expired_inv h hmgr hadd hhanded
  | kept hkept hhanded hadd =>
      have hout : ∀ v ∈ s.adding, ∀ i ∈ t.mgr.timers, (t.mgr.store i).addr ≠ v.addr := by
        intro v hv i hi
        rw [hkept.addr]
        exact h.adding_out v hv i (hkept.sub i hi)
      refine
        { wf := hkept.wf
          adding_cb := ?_
          adding_out := ?_
          adding_ne := ?_
          handed_lt := ?_
          handed_once := ?_ }
      · rcases hadd with hadd | ⟨v, hcb, _, _, _, hadd⟩
        · rw [hadd]
          exact h.adding_cb
        · intro u hu
          rw [hadd] at hu
          rcases List.mem_append.mp hu with hu | hu
          · exact h.adding_cb u hu
          · simp only [List.mem_singleton] at hu
            exact hu ▸ hcb
      · rcases hadd with hadd | ⟨v, _, hset, _, hmgr, hadd⟩
        · rw [hadd]
          exact hout
        · intro u hu i hi
          rw [hadd] at hu
          rcases List.mem_append.mp hu with hu | hu
          · exact hout u hu i hi
          · simp only [List.mem_singleton] at hu
            subst hu
            rw [hmgr] at hi ⊢
            exact hset i hi
      · rcases hadd with hadd | ⟨v, _, _, hne, _, hadd⟩
        · rw [hadd]
          exact h.adding_ne
        · rw [hadd]
          refine List.pairwise_append.mpr ⟨h.adding_ne, List.pairwise_singleton _ _, ?_⟩
          intro u hu w hw
          simp only [List.mem_singleton] at hw
          exact hw ▸ hne u hu
      · intro i hi
        rw [hhanded] at hi
        rw [hkept.count]
        exact h.handed_lt i hi
      · intro i hi
        rw [hkept.recurring] at hi
        rw [hhanded]
        have hone := h.handed_once i hi
        by_cases hit : i ∈ t.mgr.timers
        · rw [if_pos (hkept.sub i hit)] at hone
          rw [if_pos hit]
          exact hone
        · rw [if_neg hit]
          omega

theorem reachable_inv {cond : TimerSys → TimerStep → Prop} {s : TimerSys}
    (h : system.Reachable cond s) : Inv s := by
  refine h.invariant Inv ?_ fun s a t hi _ hs => step_inv hi hs
  rintro s ⟨now, rfl⟩
  exact start_inv now

/-- An existing timer that is out of the set. -/
def Out (i : Nat) (s : TimerSys) : Prop :=
  i < s.mgr.count ∧ i ∉ s.mgr.timers

/-- A timer that is out of the set stays out and is not handed out. -/
theorem step_out {s t : TimerSys} {a : TimerStep} {i : Nat} (h : Inv s)
    (hs : step s a = some t) (hout : Out i s) :
    Out i t ∧ t.handed.count i = s.handed.count i := by
  obtain ⟨hlt, hmem⟩ := hout
  cases step_change h.wf hs with
  | kept hkept hhanded _ =>
      refine ⟨⟨?_, fun hc => hmem (hkept.sub i hc)⟩, by rw [hhanded]⟩
      rw [hkept.count]
      exact hlt
  | inserted k v hk hmgr _ hhanded =>
      have hv : v ∈ s.adding := List.mem_of_getElem? hk
      obtain ⟨_, hmem', hcount, _⟩ :=
        h.wf.addTimer_wf (h.adding_cb v hv) (h.adding_out v hv)
      refine ⟨⟨?_, ?_⟩, by rw [hhanded]⟩
      · rw [hmgr, hcount]
        omega
      · rw [hmgr]
        intro hc
        rcases (hmem' i).mp hc with hc | hc
        · omega
        · exact hmem hc
  | expired now probeAddr hmgr _ hhanded =>
      obtain ⟨hkept, hcbs, _⟩ := h.wf.listExpired_kept now probeAddr
      rw [← hmgr] at hkept
      refine ⟨⟨?_, fun hc => hmem (hkept.sub i hc)⟩, ?_⟩
      · rw [hkept.count]
        exact hlt
      · have hnone : (s.mgr.timers.filter
            (s.mgr.due (s.mgr.detectClockRollover now).1 now)).count i = 0 :=
          List.count_eq_zero_of_not_mem fun hc => hmem (List.mem_filter.mp hc).1
        rw [hhanded, hcbs, List.count_append, hnone, Nat.add_zero]

/-- Over any run, a timer that is out of the set is not handed out again. -/
theorem reaches_out {cond : TimerSys → TimerStep → Prop} {s t : TimerSys} {i : Nat}
    (h : Inv s) (hout : Out i s) (hr : system.Reaches cond s t) :
    t.handed.count i = s.handed.count i := by
  have hall : Inv t ∧ Out i t ∧ t.handed.count i = s.handed.count i := by
    refine hr.invariant (fun u => Inv u ∧ Out i u ∧ u.handed.count i = s.handed.count i)
      ?_ ⟨h, hout, rfl⟩
    rintro u a v ⟨hi, ho, hc⟩ _ hs
    obtain ⟨ho', hc'⟩ := step_out hi hs ho
    exact ⟨step_inv hi hs, ho', hc'.trans hc⟩
  exact hall.2.2

/-- A `cancel` that returned true took its timer out of the set. -/
theorem cancel_true_out {s : TimerSys} {i : Nat} {m' : TimerManager} (h : Inv s)
    (hi : i < s.mgr.count) (hc : s.mgr.cancel i = some (true, m')) :
    i < m'.count ∧ i ∉ m'.timers := by
  cases hcb : (s.mgr.store i).cb with
  | none =>
      rw [TimerManager.WellFormed.cancel_of_none hcb] at hc
      cases hc
  | some c =>
      obtain ⟨m'', hm'', hkept, hnot, _⟩ := h.wf.cancel_of_some hi hcb
      rw [hm''] at hc
      cases hc
      exact ⟨by rw [hkept.count]; exact hi, hnot⟩

end TimerSys

/-- **The life of a timer.**  In every reachable state, whatever the clock showed:
the set is strictly ordered by deadline and address; a timer is in it iff its
callback is not empty, so that `cancel` always finds what it erases; a one-shot
timer has been handed out at most once; and once `cancel` has returned true the
timer is never handed out again. -/
theorem timer_lifecycle (s : TimerSys) (h : TimerSys.system.Reachable anyStep s) :
    (s.mgr.timers.Pairwise fun i j =>
      (s.mgr.store i).next < (s.mgr.store j).next ∨
        ((s.mgr.store i).next = (s.mgr.store j).next ∧
          (s.mgr.store i).addr < (s.mgr.store j).addr)) ∧
    (∀ i < s.mgr.count, i ∈ s.mgr.timers ↔ (s.mgr.store i).cb ≠ none) ∧
    (∀ i < s.mgr.count, ∃ r, s.mgr.cancel i = some r) ∧
    (∀ i < s.mgr.count, (s.mgr.store i).recurring = false → s.handed.count i ≤ 1) ∧
    (∀ i < s.mgr.count, ∀ t u, s.mgr.cancel i = some (true, t.mgr) →
      TimerSys.step s (.cancel i) = some t →
      TimerSys.system.Reaches anyStep t u →
      u.handed.count i = t.handed.count i) := by
  have hinv := TimerSys.reachable_inv h
  refine ⟨?_, ?_, ?_, ?_, ?_⟩
  · exact hinv.wf.placed.sorted.imp fun hij => (TimerManager.less_iff _ _ _).mp hij
  · intro i hi
    rw [hinv.wf.mem_iff]
    simp [hi, Option.isSome_iff_ne_none]
  · intro i hi
    cases hcb : (s.mgr.store i).cb with
    | none => exact ⟨_, TimerManager.WellFormed.cancel_of_none hcb⟩
    | some c =>
        obtain ⟨m', hm', _⟩ := hinv.wf.cancel_of_some hi hcb
        exact ⟨_, hm'⟩
  · intro i _ hrec
    have := hinv.handed_once i hrec
    omega
  · intro i hi t u hc hs hr
    exact TimerSys.reaches_out (TimerSys.step_inv hinv hs)
      (TimerSys.cancel_true_out hinv hi hc) hr

/-- A run that adds a one-shot timer, lets it expire and tries to cancel it. -/
def oneShotRun : Option TimerSys :=
  TimerSys.system.exec (TimerSys.start 0)
    [.construct 10 7 false 64 0, .insert 0, .readClock 20, .checkEmpty 0, .expire 0 8,
      .cancel 0]

theorem timer_lifecycle_oneShotRun :
    ∃ s, oneShotRun = some s ∧ s.handed = [0] ∧ s.handed.count 0 ≤ 1 := by
  have hrun : oneShotRun.map (fun s => (s.mgr.count, (s.mgr.store 0).recurring, s.handed)) =
      some (1, false, [0]) := by decide
  obtain ⟨s, hs, hfields⟩ := Option.map_eq_some_iff.mp hrun
  simp only [Prod.mk.injEq] at hfields
  obtain ⟨hcount, hrec, hhanded⟩ := hfields
  have hreach : TimerSys.system.Reachable anyStep s :=
    System.exec_reachable ⟨0, rfl⟩ hs
  exact ⟨s, hs, hhanded, (timer_lifecycle s hreach).2.2.2.1 0 (by omega) hrec⟩

end Concurrency
end Hpgs
