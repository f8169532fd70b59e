import Hpgs.Library.OrderedSet
import Mathlib.Algebra.Group.Nat.Defs

/-!
# Timers and the timer manager

The model of `timer.h` and `timer.cc`.  `Timer` objects live in a store and are
named by their index in it; `m_timers` is the in-order sequence of the indices that
the set holds.  The comparator reads the deadline `m_next` through the pointer, so
it depends on the store: an operation that changes a deadline has to take the timer
out of the set first.

A clock reading is a parameter of every operation that calls `GetCurrentMs`, and
the address of a new object is a parameter of the operation that allocates it.
Arithmetic on `uint64_t` is arithmetic on natural numbers modulo `2 ^ 64`.

`addTimer` and `listExpiredCb` read the clock before they take the lock, so each is
split at that point: `Timer.new` and `insertTimer`, the reading and `listExpired`.
-/

namespace Hpgs
namespace Concurrency

/-- The value of a `uint64_t` expression. -/
def wrap64 (n : Nat) : Nat := n % 2 ^ 64

/-- Subtraction on `uint64_t`. -/
def sub64 (a b : Nat) : Nat := (a + 2 ^ 64 - b % 2 ^ 64) % 2 ^ 64

/-- `~0ull`, the value of `getNextTimer` when there is no timer. -/
def noTimeout : Nat := 2 ^ 64 - 1

/-- A `Timer` object; `cb` is `none` when `m_cb` is empty. -/
structure Timer where
  recurring : Bool
  ms : Nat
  next : Nat
  cb : Option Nat
  addr : Nat
deriving DecidableEq, Repr, Inhabited

namespace Timer

/-- `Timer::Timer(ms, cb, recurring, manager)`, reading the clock as `now`. -/
def new (ms : Nat) (cb : Option Nat) (recurring : Bool) (addr now : Nat) : Timer :=
  { recurring := recurring, ms := ms, next := wrap64 (now + ms), cb := cb, addr := addr }

/-- `Timer::Timer(next)`, the probe of `listExpiredCb`. -/
def probe (next addr : Nat) : Timer :=
  { recurring := false, ms := 0, next := next, cb := none, addr := addr }

/-- `Timer::Comparator::operator()`; a null pointer is `none`. -/
def Comparator : Option Timer → Option Timer → Bool
  | none, none => false
  | none, some _ => true
  | some _, none => false
  | some lhs, some rhs =>
      if lhs.next < rhs.next then true
      else if rhs.next < lhs.next then false
      else decide (lhs.addr < rhs.addr)

theorem Comparator_iff (a b : Timer) :
    Comparator (some a) (some b) = true ↔
      a.next < b.next ∨ (a.next = b.next ∧ a.addr < b.addr) := by
  simp only [Comparator]
  split_ifs with h₁ h₂
  · simp [h₁]
  · simp only [false_iff]
    omega
  · simp only [decide_eq_true_eq]
    omega

theorem Comparator_total {a b : Timer} (h : a.addr ≠ b.addr) :
    Comparator (some a) (some b) = true ∨ Comparator (some b) (some a) = true := by
  rw [Comparator_iff, Comparator_iff]
  omega

theorem next_le_of_Comparator {a b : Timer}
    (h : Comparator (some a) (some b) = true) : a.next ≤ b.next := by
  rw [Comparator_iff] at h
  omega

end Timer

/-- `TimerManager`, with the store of all `Timer` objects made so far. -/
structure TimerManager where
  store : Nat → Timer
  count : Nat
  timers : List Nat
  tickled : Bool
  previousTime : Nat

namespace TimerManager

/-- The constructor, reading the clock as `now`. -/
def new (now : Nat) : TimerManager :=
  { store := fun _ => default, count := 0, timers := [], tickled := false,
    previousTime := now }

/-- Replace the object `i`. -/
def setTimer (m : TimerManager) (i : Nat) (t : Timer) : TimerManager :=
  { m with store := fun j => if j = i then t else m.store j }

/-- The comparison that the set makes between two of its elements. -/
def less (m : TimerManager) (i j : Nat) : Bool :=
  Timer.Comparator (some (m.store i)) (some (m.store j))

/-- The locked part of `addTimer(val, lock)`; the flag says whether
`onTimerInsertAtFront` is called after unlocking. -/
def insertTimer (m : TimerManager) (i : Nat) : Bool × TimerManager :=
  let atFront := OrderedSet.insertAtBegin m.less i m.timers && !m.tickled
  (atFront,
    { m with
      timers := OrderedSet.insert m.less i m.timers
      tickled := if atFront then true else m.tickled })

/-- `addTimer(ms, cb, recurring)` after its `Timer` object `t` was made. -/
def addTimer (m : TimerManager) (t : Timer) : Bool × TimerManager :=
  let m' := { m.setTimer m.count t with count := m.count + 1 }
  m'.insertTimer m.count

/-- `Timer::cancel`; `none` is an erase at the past-the-end iterator. -/
def cancel (m : TimerManager) (i : Nat) : Option (Bool × TimerManager) :=
  match (m.store i).cb with
  | none => some (false, m)
  | some _ =>
      let m' := m.setTimer i { m.store i with cb := none }
      match OrderedSet.find m'.less i m'.timers with
      | none => none
      | some it =>
          some (true, { m' with timers := OrderedSet.erase m'.less it m'.timers })

/-- `Timer::refresh`, reading the clock as `now`. -/
def refresh (m : TimerManager) (i now : Nat) : Bool × TimerManager :=
  match (m.store i).cb with
  | none => (false, m)
  | some _ =>
      match OrderedSet.find m.less i m.timers with
      | none => (false, m)
      | some it =>
          let m₁ := { m with timers := OrderedSet.erase m.less it m.timers }
          let m₂ := m₁.setTimer i
            { m.store i with next := wrap64 (now + (m.store i).ms) }
          (true, { m₂ with timers := OrderedSet.insert m₂.less i m₂.timers })

/-- What `Timer::reset` did: its result, whether `onTimerInsertAtFront` is called,
and the manager afterwards. -/
structure ResetResult where
  result : Bool
  atFront : Bool
  manager : TimerManager

/-- The deadline of `Timer::reset`: a period that starts now, or the one that the
timer is in. -/
def resetNext (t : Timer) (ms : Nat) (fromNow : Bool) (now : Nat) : Nat :=
  wrap64 ((if fromNow then now else sub64 t.next t.ms) + ms)

/-- `Timer::reset`, reading the clock as `now` when `fromNow` is set. -/
def reset (m : TimerManager) (i ms : Nat) (fromNow : Bool) (now : Nat) : ResetResult :=
  if ms = (m.store i).ms ∧ fromNow = false then ⟨true, false, m⟩
  else
    match (m.store i).cb with
    | none => ⟨false, false, m⟩
    | some _ =>
        match OrderedSet.find m.less i m.timers with
        | none => ⟨false, false, m⟩
        | some it =>
            let m₁ := { m with timers := OrderedSet.erase m.less it m.timers }
            let m₂ := m₁.setTimer i
              { m.store i with ms := ms, next := resetNext (m.store i) ms fromNow now }
            ⟨true, (m₂.insertTimer i).1, (m₂.insertTimer i).2⟩

/-- `getNextTimer`, reading the clock as `now`. -/
def getNextTimer (m : TimerManager) (now : Nat) : Nat × TimerManager :=
  let m' := { m with tickled := false }
  match m.timers with
  | [] => (noTimeout, m')
  | i :: _ =>
      if (m.store i).next ≤ now then (0, m') else ((m.store i).next - now, m')

/-- `detectClockRollover`. -/
def detectClockRollover (m : TimerManager) (now : Nat) : Bool × TimerManager :=
  (decide (now < m.previousTime) && decide (now < sub64 m.previousTime (60 * 60 * 1000)),
    { m with previousTime := now })

/-- One pass of the loop over the expired timers: the callback is handed out, and
the timer is set again or its callback dropped. -/
def handOut (now : Nat) (acc : List (Nat × Option Nat) × TimerManager) (i : Nat) :
    List (Nat × Option Nat) × TimerManager :=
  let m := acc.2
  let t := m.store i
  let cbs := acc.1 ++ [(i, t.cb)]
  if t.recurring then
    let m' := m.setTimer i { t with next := wrap64 (now + t.ms) }
    (cbs, { m' with timers := OrderedSet.insert m'.less i m'.timers })
  else
    (cbs, m.setTimer i { t with cb := none })

/-- The iterator that ends the expired prefix, as the two parts it cuts. -/
def expiredSplit (m : TimerManager) (rollover : Bool) (now probeAddr : Nat) :
    List Nat × List Nat :=
  if rollover then (m.timers, [])
  else
    let below : Nat → Bool := fun i =>
      Timer.Comparator (some (m.store i)) (some (Timer.probe now probeAddr))
    let sameTime : Nat → Bool := fun i => decide ((m.store i).next = now)
    let it := m.timers.dropWhile below
    (m.timers.takeWhile below ++ it.takeWhile sameTime, it.dropWhile sameTime)

/-- The write-locked part of `listExpiredCb` with the reading `now`: the timers
whose callbacks it appends to `cbs`, each with its callback. -/
def listExpired (m : TimerManager) (now probeAddr : Nat) :
    List (Nat × Option Nat) × TimerManager :=
  match m.timers with
  | [] => ([], m)
  | first :: _ =>
      let m₁ := (m.detectClockRollover now).2
      if (m.detectClockRollover now).1 = false ∧ now < (m.store first).next then
        ([], m₁)
      else
        let cut := m₁.expiredSplit (m.detectClockRollover now).1 now probeAddr
        cut.1.foldl (handOut now) ([], { m₁ with timers := cut.2 })

/-! ## The order of the set -/

@[simp] theorem setTimer_timers (m : TimerManager) (i : Nat) (t : Timer) :
    (m.setTimer i t).timers = m.timers := rfl

@[simp] theorem setTimer_count (m : TimerManager) (i : Nat) (t : Timer) :
    (m.setTimer i t).count = m.count := rfl

@[simp] theorem setTimer_tickled (m : TimerManager) (i : Nat) (t : Timer) :
    (m.setTimer i t).tickled = m.tickled := rfl

@[simp] theorem setTimer_previousTime (m : TimerManager) (i : Nat) (t : Timer) :
    (m.setTimer i t).previousTime = m.previousTime := rfl

@[simp] theorem setTimer_store_self (m : TimerManager) (i : Nat) (t : Timer) :
    (m.setTimer i t).store i = t := by
  simp [setTimer]

theorem setTimer_store_of_ne (m : TimerManager) {i j : Nat} (t : Timer) (h : j ≠ i) :
    (m.setTimer i t).store j = m.store j := by
  simp [setTimer, h]

theorem less_iff (m : TimerManager) (i j : Nat) :
    m.less i j = true ↔
      (m.store i).next < (m.store j).next ∨
        ((m.store i).next = (m.store j).next ∧ (m.store i).addr < (m.store j).addr) :=
  Timer.Comparator_iff _ _

theorem less_strict (m : TimerManager) : OrderedSet.Strict m.less where
  irrefl i := by
    have := less_iff m i i
    simp only [Nat.lt_irrefl, and_false, or_false, iff_false] at this
    simpa using this
  trans i j k hij hjk := by
    rw [less_iff] at *
    omega

/-- A sequence of timers in the order of the set, at pairwise different addresses. -/
structure Placed (m : TimerManager) (l : List Nat) : Prop where
  sorted : OrderedSet.Sorted m.less l
  addr_inj : ∀ i ∈ l, ∀ j ∈ l, (m.store i).addr = (m.store j).addr → i = j

namespace Placed

variable {m : TimerManager} {l : List Nat}

theorem nodup (h : Placed m l) : l.Nodup :=
  h.sorted.nodup m.less_strict

theorem less_total {i : Nat}
    (hi : ∀ x ∈ l, (m.store x).addr ≠ (m.store i).addr) :
    ∀ x ∈ l, m.less x i = true ∨ m.less i x = true :=
  fun x hx => Timer.Comparator_total (hi x hx)

theorem mem_insert (h : Placed m l) {i : Nat}
    (hi : ∀ x ∈ l, (m.store x).addr ≠ (m.store i).addr) {x : Nat} :
    x ∈ OrderedSet.insert m.less i l ↔ x = i ∨ x ∈ l :=
  OrderedSet.mem_insert m.less_strict h.sorted (less_total hi)

theorem insert (h : Placed m l) {i : Nat}
    (hi : ∀ x ∈ l, (m.store x).addr ≠ (m.store i).addr) :
    Placed m (OrderedSet.insert m.less i l) where
  sorted := OrderedSet.sorted_insert m.less_strict h.sorted (less_total hi)
  addr_inj := by
    intro a ha b hb hab
    rcases (h.mem_insert hi).mp ha with ha' | ha'
    · subst ha'
      rcases (h.mem_insert hi).mp hb with hb' | hb'
      · exact hb'.symm
      · exact absurd hab.symm (hi b hb')
    · rcases (h.mem_insert hi).mp hb with hb' | hb'
      · subst hb'
        exact absurd hab (hi a ha')
      · exact h.addr_inj a ha' b hb' hab

theorem sub (h : Placed m l) {l' : List Nat} (hsub : l'.Sublist l) :
    Placed m l' where
  sorted := List.Pairwise.sublist hsub h.sorted
  addr_inj := fun i hi j hj =>
    h.addr_inj i (hsub.subset hi) j (hsub.subset hj)

theorem erase (h : Placed m l) {i : Nat} (hi : i ∈ l) :
    Placed m (OrderedSet.erase m.less i l) where
  sorted := OrderedSet.sorted_erase m.less_strict h.sorted hi
  addr_inj := by
    intro a ha b hb
    exact h.addr_inj a ((OrderedSet.mem_erase m.less_strict h.sorted hi).mp ha).1
      b ((OrderedSet.mem_erase m.less_strict h.sorted hi).mp hb).1

theorem mem_erase (h : Placed m l) {i : Nat} (hi : i ∈ l) {x : Nat} :
    x ∈ OrderedSet.erase m.less i l ↔ x ∈ l ∧ x ≠ i :=
  OrderedSet.mem_erase m.less_strict h.sorted hi

/-- Only the objects of the sequence matter. -/
theorem congr (h : Placed m l) {m' : TimerManager}
    (heq : ∀ x ∈ l, m'.store x = m.store x) :
    Placed m' l where
  sorted := by
    refine h.sorted.congr ?_
    intro a ha b hb
    simp [less, heq a ha, heq b hb]
  addr_inj := by
    intro a ha b hb hab
    rw [heq a ha, heq b hb] at hab
    exact h.addr_inj a ha b hb hab

/-- The first timer of the sequence has the smallest deadline. -/
theorem head_next_le {first : Nat} {rest : List Nat} (h : Placed m (first :: rest))
    {x : Nat} (hx : x ∈ first :: rest) :
    (m.store first).next ≤ (m.store x).next := by
  rcases h.sorted.head_le hx with rfl | hlt
  · exact Nat.le_refl _
  · exact Timer.next_le_of_Comparator hlt

end Placed

/-- A timer of the set that is given new fields at the same address, outside the
set, and inserted again. -/
theorem rekey_spec {m : TimerManager} (h : Placed m m.timers) {i : Nat}
    (hi : i ∈ m.timers) (t : Timer) (haddr : t.addr = (m.store i).addr)
    {m₂ : TimerManager}
    (hm₂ : m₂ = TimerManager.setTimer
      { m with timers := OrderedSet.erase m.less i m.timers } i t) :
    Placed m₂ (OrderedSet.insert m₂.less i m₂.timers) ∧
      (∀ x, x ∈ OrderedSet.insert m₂.less i m₂.timers ↔ x ∈ m.timers) ∧
      Placed m₂ m₂.timers ∧
      (∀ x ∈ m₂.timers, (m₂.store x).addr ≠ (m₂.store i).addr) := by
  subst hm₂
  have hmem : ∀ x, x ∈ OrderedSet.erase m.less i m.timers ↔ x ∈ m.timers ∧ x ≠ i :=
    fun x => h.mem_erase hi
  have hplaced : Placed
      (TimerManager.setTimer
        { m with timers := OrderedSet.erase m.less i m.timers } i t)
      (OrderedSet.erase m.less i m.timers) := by
    refine (h.erase hi).congr ?_
    intro x hx
    exact setTimer_store_of_ne _ t ((hmem x).mp hx).2
  have hfresh : ∀ x ∈ OrderedSet.erase m.less i m.timers,
      ((TimerManager.setTimer
        { m with timers := OrderedSet.erase m.less i m.timers } i t).store x).addr ≠
      ((TimerManager.setTimer
        { m with timers := OrderedSet.erase m.less i m.timers } i t).store i).addr := by
    intro x hx hab
    obtain ⟨hxm, hxi⟩ := (hmem x).mp hx
    rw [setTimer_store_of_ne _ t hxi, setTimer_store_self, haddr] at hab
    exact hxi (h.addr_inj x hxm i hi hab)
  refine ⟨hplaced.insert hfresh, ?_, hplaced, hfresh⟩
  intro x
  rw [setTimer_timers, hplaced.mem_insert hfresh, hmem]
  constructor
  · rintro (rfl | ⟨hx, _⟩)
    · exact hi
    · exact hx
  · intro hx
    by_cases hxi : x = i
    · exact Or.inl hxi
    · exact Or.inr ⟨hx, hxi⟩

/-! ## The locked part of addTimer -/

section InsertTimer

variable {m : TimerManager} {i : Nat}

@[simp] theorem insertTimer_store : (m.insertTimer i).2.store = m.store := rfl

@[simp] theorem insertTimer_count : (m.insertTimer i).2.count = m.count := rfl

@[simp] theorem insertTimer_previousTime :
    (m.insertTimer i).2.previousTime = m.previousTime := rfl

@[simp] theorem insertTimer_timers :
    (m.insertTimer i).2.timers = OrderedSet.insert m.less i m.timers := rfl

theorem insertTimer_tickled :
    (m.insertTimer i).2.tickled = (m.tickled || (m.insertTimer i).1) := by
  simp only [insertTimer]
  split <;> simp_all

/-- `onTimerInsertAtFront` is called iff the flag was down and the new timer is
first. -/
theorem insertTimer_atFront_iff (h : Placed m m.timers)
    (hi : ∀ x ∈ m.timers, (m.store x).addr ≠ (m.store i).addr) :
    (m.insertTimer i).1 = true ↔
      (∀ x ∈ m.timers, m.less i x = true) ∧ m.tickled = false := by
  simp only [insertTimer, Bool.and_eq_true, Bool.not_eq_true']
  rw [OrderedSet.insertAtBegin_iff m.less_strict h.sorted (Placed.less_total hi)]

end InsertTimer

/-! ## Expiry -/

/-- What handing out its callback does to a `Timer` object. -/
def expiredTimer (now : Nat) (t : Timer) : Timer :=
  if t.recurring then { t with next := wrap64 (now + t.ms) } else { t with cb := none }

@[simp] theorem expiredTimer_addr (now : Nat) (t : Timer) :
    (expiredTimer now t).addr = t.addr := by
  unfold expiredTimer
  split <;> rfl

@[simp] theorem expiredTimer_recurring (now : Nat) (t : Timer) :
    (expiredTimer now t).recurring = t.recurring := by
  unfold expiredTimer
  split <;> rfl

/-- What handing out the timers `E` does to the manager. -/
structure HandedOut (now : Nat) (E : List Nat) (m m' : TimerManager) : Prop where
  store : ∀ j, m'.store j = if j ∈ E then expiredTimer now (m.store j) else m.store j
  mem : ∀ x, x ∈ m'.timers ↔ x ∈ m.timers ∨ (x ∈ E ∧ (m.store x).recurring = true)
  placed : Placed m' m'.timers
  count : m'.count = m.count
  tickled : m'.tickled = m.tickled
  previousTime : m'.previousTime = m.previousTime

section HandOut

variable (now : Nat) (acc : List (Nat × Option Nat)) (m : TimerManager) (e : Nat)

theorem handOut_cbs : (handOut now (acc, m) e).1 = acc ++ [(e, (m.store e).cb)] := by
  simp only [handOut]
  split <;> rfl

theorem handOut_store (j : Nat) :
    (handOut now (acc, m) e).2.store j =
      if j = e then expiredTimer now (m.store j) else m.store j := by
  by_cases hrec : (m.store e).recurring = true
  · by_cases hj : j = e
    · subst hj
      simp [handOut, hrec, expiredTimer]
    · simp [handOut, hrec, setTimer, hj]
  · by_cases hj : j = e
    · subst hj
      simp [handOut, hrec, expiredTimer]
    · simp [handOut, hrec, setTimer, hj]

theorem handOut_timers :
    (handOut now (acc, m) e).2.timers =
      if (m.store e).recurring then
        OrderedSet.insert (m.setTimer e (expiredTimer now (m.store e))).less e m.timers
      else m.timers := by
  by_cases hrec : (m.store e).recurring = true
  · simp [handOut, hrec, expiredTimer]
  · simp [handOut, hrec]

theorem handOut_rest :
    (handOut now (acc, m) e).2.count = m.count ∧
      (handOut now (acc, m) e).2.tickled = m.tickled ∧
      (handOut now (acc, m) e).2.previousTime = m.previousTime := by
  simp only [handOut]
  split <;> exact ⟨rfl, rfl, rfl⟩

/-- The set after one pass: a recurring timer is in it again. -/
theorem handOut_placed (hp : Placed m m.timers) (hout : e ∉ m.timers)
    (haddr : ∀ x ∈ m.timers, (m.store x).addr ≠ (m.store e).addr) :
    Placed (handOut now (acc, m) e).2 (handOut now (acc, m) e).2.timers ∧
      ∀ x, x ∈ (handOut now (acc, m) e).2.timers ↔
        x ∈ m.timers ∨ (x = e ∧ (m.store e).recurring = true) := by
  have hstore := handOut_store now acc m e
  have hne : ∀ x ∈ m.timers, x ≠ e := fun x hx h => hout (h ▸ hx)
  rw [handOut_timers]
  by_cases hrec : (m.store e).recurring = true
  · set me := m.setTimer e (expiredTimer now (m.store e)) with hme
    have hpe : Placed me m.timers :=
      hp.congr fun x hx => setTimer_store_of_ne m _ (hne x hx)
    have hfresh : ∀ x ∈ m.timers, (me.store x).addr ≠ (me.store e).addr := by
      intro x hx
      rw [hme, setTimer_store_of_ne m _ (hne x hx), setTimer_store_self,
        expiredTimer_addr]
      exact haddr x hx
    have hsame : ∀ x, (handOut now (acc, m) e).2.store x = me.store x := by
      intro x
      rw [hstore, hme]
      by_cases hx : x = e
      · subst hx
        simp
      · rw [if_neg hx, setTimer_store_of_ne m _ hx]
    rw [if_pos hrec]
    refine ⟨(hpe.insert hfresh).congr fun x _ => hsame x, ?_⟩
    intro x
    rw [hpe.mem_insert hfresh]
    simp only [hrec, and_true]
    exact Or.comm
  · rw [if_neg hrec]
    refine ⟨hp.congr ?_, ?_⟩
    · intro x hx
      rw [hstore, if_neg (hne x hx)]
    · intro x
      simp [hrec]

end HandOut

/-- The loop over the expired timers. -/
theorem foldl_handOut_spec (now : Nat) :
    ∀ (E : List Nat) (acc : List (Nat × Option Nat)) (m : TimerManager),
      E.Nodup →
      Placed m m.timers →
      (∀ e ∈ E, ∀ x, x ∈ m.timers ∨ x ∈ E → (m.store e).addr = (m.store x).addr → e = x) →
      (∀ e ∈ E, e ∉ m.timers) →
      (E.foldl (handOut now) (acc, m)).1 = acc ++ E.map (fun i => (i, (m.store i).cb)) ∧
        HandedOut now E m (E.foldl (handOut now) (acc, m)).2
  | [], acc, m, _, hp, _, _ => by
      refine ⟨by simp, ?_⟩
      exact
        { store := by simp
          mem := by simp
          placed := hp
          count := rfl
          tickled := rfl
          previousTime := rfl }
  | e :: E, acc, m, hnd, hp, haddr, hout => by
      obtain ⟨heE, hnd'⟩ := List.nodup_cons.mp hnd
      have hcbs := handOut_cbs now acc m e
      have hstore := handOut_store now acc m e
      obtain ⟨hcount, htick, hprev⟩ := handOut_rest now acc m e
      obtain ⟨hplaced, hmem⟩ := handOut_placed now acc m e hp (hout e (by simp)) (by
        intro x hx hab
        have hxe := haddr e (by simp) x (Or.inl hx) hab.symm
        exact hout e (by simp) (hxe ▸ hx))
      rw [List.foldl_cons]
      generalize hout₁ : handOut now (acc, m) e = r at hcbs hstore hcount htick hprev hplaced hmem
      obtain ⟨cbs₁, m₁⟩ := r
      simp only at hcbs hstore hcount htick hprev hplaced hmem
      have hsame : ∀ x ∈ E, m₁.store x = m.store x := by
        intro x hx
        rw [hstore x, if_neg fun h : x = e => heE (h ▸ hx)]
      have haddr₁ : ∀ x, (m₁.store x).addr = (m.store x).addr := by
        intro x
        rw [hstore x]
        split <;> simp
      obtain ⟨ih₁, ih₂⟩ := foldl_handOut_spec now E cbs₁ m₁ hnd' hplaced
        (by
          intro a ha x hx hab
          rw [haddr₁, haddr₁] at hab
          refine haddr a (List.mem_cons_of_mem _ ha) x ?_ hab
          rcases hx with hx | hx
          · rcases (hmem x).mp hx with hx | ⟨rfl, _⟩
            · exact Or.inl hx
            · exact Or.inr (by simp)
          · exact Or.inr (List.mem_cons_of_mem _ hx))
        (by
          intro a ha hc
          rcases (hmem a).mp hc with hc | ⟨hae, _⟩
          · exact hout a (List.mem_cons_of_mem _ ha) hc
          · exact heE (hae ▸ ha))
      refine ⟨?_, ?_⟩
      · rw [ih₁, hcbs, List.map_cons, List.append_assoc, List.singleton_append]
        congr 2
        refine List.map_congr_left ?_
        intro x hx
        rw [hsame x hx]
      · exact
          { store := by
              intro j
              rw [ih₂.store j, hstore j]
              by_cases hj : j = e
              · subst hj
                simp [heE]
              · simp [hj]
            mem := by
              intro x
              rw [ih₂.mem, hmem]
              by_cases hx : x = e
              · subst hx
                simp [heE]
              · by_cases hxE : x ∈ E
                · simp [hx, hxE, hsame x hxE]
                · simp [hx, hxE]
            placed := ih₂.placed
            count := ih₂.count.trans hcount
            tickled := ih₂.tickled.trans htick
            previousTime := ih₂.previousTime.trans hprev }

/-- Whether a timer is due: rollover makes all of them due. -/
def due (m : TimerManager) (rollover : Bool) (now i : Nat) : Bool :=
  rollover || decide ((m.store i).next ≤ now)

/-- The expired prefix consists of the timers that are due, wherever the probe
was allocated. -/
theorem expiredSplit_eq {m : TimerManager} (h : Placed m m.timers)
    (rollover : Bool) (now probeAddr : Nat) :
    m.expiredSplit rollover now probeAddr =
      (m.timers.filter (m.due rollover now), m.timers.filter fun i => !m.due rollover now i) := by
  unfold expiredSplit
  cases rollover with
  | true =>
      have hall : ∀ i ∈ m.timers, m.due true now i = true := fun i _ => rfl
      have hnone : ∀ i ∈ m.timers, ¬ (!m.due true now i) = true := fun i _ => by simp [due]
      simp [List.filter_eq_self.mpr hall, List.filter_eq_nil_iff.mpr hnone]
  | false =>
      set below : Nat → Bool := fun i =>
        Timer.Comparator (some (m.store i)) (some (Timer.probe now probeAddr)) with hbelow
      set sameTime : Nat → Bool := fun i => decide ((m.store i).next = now) with hsame
      have hbelow_iff : ∀ i, below i = true ↔
          (m.store i).next < now ∨ ((m.store i).next = now ∧ (m.store i).addr < probeAddr) :=
        fun i => Timer.Comparator_iff _ _
      have hdown : ∀ a ∈ m.timers, ∀ b ∈ m.timers,
          m.less a b = true → below b = true → below a = true := by
        intro a _ b _ hab hb
        rw [less_iff] at hab
        rw [hbelow_iff] at hb ⊢
        omega
      have hit := OrderedSet.dropWhile_eq_filter h.sorted hdown
      have hitSorted : OrderedSet.Sorted m.less (m.timers.dropWhile below) :=
        List.Pairwise.sublist (List.dropWhile_sublist _) h.sorted
      have hitMem : ∀ a ∈ m.timers.dropWhile below, now ≤ (m.store a).next := by
        intro a ha
        rw [hit, List.mem_filter] at ha
        have hna : ¬ below a = true := by simpa using ha.2
        rw [hbelow_iff] at hna
        omega
      have hdown' : ∀ a ∈ m.timers.dropWhile below, ∀ b ∈ m.timers.dropWhile below,
          m.less a b = true → sameTime b = true → sameTime a = true := by
        intro a ha b _ hab hb
        have hge := hitMem a ha
        rw [less_iff] at hab
        simp only [hsame, decide_eq_true_eq] at hb ⊢
        omega
      have hdue : ∀ a ∈ m.timers, ∀ b ∈ m.timers,
          m.less a b = true → m.due false now b = true → m.due false now a = true := by
        intro a _ b _ hab hb
        rw [less_iff] at hab
        simp only [due, Bool.false_or, decide_eq_true_eq] at hb ⊢
        omega
      have hrest : (m.timers.dropWhile below).dropWhile sameTime =
          m.timers.filter fun i => !m.due false now i := by
        rw [OrderedSet.dropWhile_eq_filter hitSorted hdown', hit, List.filter_filter]
        refine List.filter_congr ?_
        intro i _
        have hi := hbelow_iff i
        by_cases hb : below i = true
        · have hle : (m.store i).next ≤ now := by
            have := hi.mp hb
            omega
          simp [hb, due, hle]
        · have hge : now ≤ (m.store i).next := by
            have := mt hi.mpr hb
            omega
          have hb' : below i = false := by simpa using hb
          simp only [hb', hsame, due, Bool.false_or, Bool.not_false, Bool.and_true]
          congr 1
          simp only [decide_eq_decide]
          omega
      have hfirst : m.timers.takeWhile below ++
          (m.timers.dropWhile below).takeWhile sameTime =
          m.timers.filter (m.due false now) := by
        have hcut : (m.timers.takeWhile below ++
            (m.timers.dropWhile below).takeWhile sameTime) ++
              (m.timers.dropWhile below).dropWhile sameTime = m.timers := by
          rw [List.append_assoc, List.takeWhile_append_dropWhile,
            List.takeWhile_append_dropWhile]
        have hcut' : m.timers.filter (m.due false now) ++
            (m.timers.filter fun i => !m.due false now i) = m.timers := by
          rw [← OrderedSet.takeWhile_eq_filter h.sorted hdue,
            ← OrderedSet.dropWhile_eq_filter h.sorted hdue,
            List.takeWhile_append_dropWhile]
        rw [hrest] at hcut
        exact List.append_cancel_right (hcut.trans hcut'.symm)
      simp only [Bool.false_eq_true, if_false]
      rw [hfirst, hrest]

/-- **What `listExpiredCb` does.**  The timers that are due are handed out in the
order of the set; each recurring one is set again and each other one loses its
callback. -/
theorem listExpired_spec {m : TimerManager} (h : Placed m m.timers)
    (now probeAddr : Nat) :
    (m.listExpired now probeAddr).1 =
        (m.timers.filter (m.due (m.detectClockRollover now).1 now)).map
          (fun i => (i, (m.store i).cb)) ∧
      HandedOut now (m.timers.filter (m.due (m.detectClockRollover now).1 now))
        { m with
          timers := m.timers.filter fun i => !m.due (m.detectClockRollover now).1 now i
          previousTime := if m.timers = [] then m.previousTime else now }
        (m.listExpired now probeAddr).2 := by
  set roll := (m.detectClockRollover now).1 with hroll
  set E := m.timers.filter (m.due roll now) with hE
  set R := m.timers.filter fun i => !m.due roll now i with hR
  have hplacedR : Placed m R := h.sub List.filter_sublist
  have hdisj : ∀ e ∈ E, e ∉ R := by
    intro e he hr
    have h₁ := (List.mem_filter.mp he).2
    have h₂ := (List.mem_filter.mp hr).2
    simp [h₁] at h₂
  unfold listExpired
  cases ht : m.timers with
  | nil =>
      have hEnil : E = [] := by simp [hE, ht]
      have hRnil : R = [] := by simp [hR, ht]
      refine ⟨by simp [hEnil], ?_⟩
      exact
        { store := by simp [hEnil]
          mem := by simp [hEnil, hRnil, ht]
          placed := h
          count := rfl
          tickled := rfl
          previousTime := by simp }
  | cons first rest =>
      simp only [reduceCtorEq, if_false]
      split
      · rename_i hearly
        -- the first deadline has not come: no timer is due
        have hnone : ∀ i ∈ m.timers, m.due roll now i = false := by
          intro i hi
          have hle := (ht ▸ h).head_next_le (ht ▸ hi)
          have hlt := hearly.2
          simp only [due, hroll, hearly.1, Bool.false_or, decide_eq_false_iff_not]
          omega
        have hEnil : E = [] := by
          rw [hE, List.filter_eq_nil_iff]
          intro i hi
          simp [hnone i hi]
        have hRall : R = m.timers := by
          rw [hR, List.filter_eq_self]
          intro i hi
          simp [hnone i hi]
        refine ⟨by simp [hEnil], ?_⟩
        exact
          { store := by simp [hEnil, detectClockRollover]
            mem := by simp [hEnil, hRall, detectClockRollover]
            placed := h.congr fun _ _ => rfl
            count := rfl
            tickled := rfl
            previousTime := rfl }
      · have hsplit : (m.detectClockRollover now).2.expiredSplit roll now probeAddr = (E, R) := by
          have := expiredSplit_eq (m := (m.detectClockRollover now).2)
            (h.congr fun _ _ => rfl) roll now probeAddr
          exact this
        rw [hsplit]
        have hfold := foldl_handOut_spec now E []
          { (m.detectClockRollover now).2 with timers := R }
          (h.nodup.filter _) (hplacedR.congr fun _ _ => rfl)
          (by
            intro e he x hx hab
            refine h.addr_inj e (List.mem_filter.mp he).1 x ?_ hab
            rcases hx with hx | hx
            · exact (List.mem_filter.mp hx).1
            · exact (List.mem_filter.mp hx).1)
          hdisj
        refine ⟨by rw [hfold.1]; rfl, ?_⟩
        exact
          { store := hfold.2.store
            mem := hfold.2.mem
            placed := hfold.2.placed
            count := hfold.2.count
            tickled := hfold.2.tickled
            previousTime := hfold.2.previousTime }

end TimerManager

end Concurrency
end Hpgs
