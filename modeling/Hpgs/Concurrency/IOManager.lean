import Mathlib.Logic.Function.Basic
import Mathlib.Tactic.Cases

/-!
# The IO event registry: data model and operations

`IOManager` keeps one `FdContext` for each file descriptor.  A bit in its `events`
says that the event is registered in epoll, and the `EventContext` of the event says
which callback or fibre is to be scheduled where once the event is ready.

Every function here is one section under `fd_ctx->mutex` (or `m_mutex` for the
table).  `epoll_ctl` refuses what the kernel refuses, and may fail at any call.
A failing assertion and a call through a null scheduler end the process.

**Results.**
* `triggerEvent_spec`, `consume_ok`, `consume_spec`: what is moved out of a context.
-/

namespace Hpgs
namespace Concurrency

universe u v

/-- `Fibre::State`. -/
inductive State
  | init
  | hold
  | exec
  | term
  | ready
  | except
deriving DecidableEq, Repr

/-- `IOManager::Event`. -/
inductive Event
  | none
  | read
  | write
deriving DecidableEq, Repr

/-- A set of event bits, as in `fd_ctx->events`. -/
@[ext]
structure Events where
  read : Bool
  write : Bool
deriving DecidableEq, Repr

namespace Events

/-- `NONE`. -/
def empty : Events := ⟨false, false⟩

def union (a b : Events) : Events := ⟨a.read || b.read, a.write || b.write⟩

def inter (a b : Events) : Events := ⟨a.read && b.read, a.write && b.write⟩

def diff (a b : Events) : Events := ⟨a.read && !b.read, a.write && !b.write⟩

/-- Number of bits that are set. -/
def count (a : Events) : Nat := a.read.toNat + a.write.toNat

/-- `events & event`. -/
def has (a : Events) : Event → Bool
  | .none => false
  | .read => a.read
  | .write => a.write

/-- Every bit of `a` is set in `b`. -/
def Subset (a b : Events) : Prop := a.diff b = empty

instance (a b : Events) : Decidable (Subset a b) :=
  inferInstanceAs (Decidable (a.diff b = empty))

theorem subset_iff {a b : Events} :
    a.Subset b ↔ (a.read = true → b.read = true) ∧ (a.write = true → b.write = true) := by
  simp [Subset, diff, empty]

theorem subset_refl (a : Events) : a.Subset a := by
  simp [subset_iff]

theorem count_diff {a b : Events} (h : b.Subset a) :
    (a.diff b).count + b.count = a.count := by
  obtain ⟨hr, hw⟩ := subset_iff.mp h
  rcases a with ⟨_ | _, _ | _⟩ <;> rcases b with ⟨_ | _, _ | _⟩ <;>
    simp_all [diff, count]

end Events

/-- The bit set with this one event. -/
def Event.bits : Event → Events
  | .none => ⟨false, false⟩
  | .read => ⟨true, false⟩
  | .write => ⟨false, true⟩

theorem Events.count_union {a : Events} {e : Event} (h : a.has e = false) :
    (a.union e.bits).count = a.count + e.bits.count := by
  rcases a with ⟨_ | _, _ | _⟩ <;> cases e <;>
    simp_all [Events.union, Events.count, Event.bits, Events.has]

theorem Event.bits_subset {a : Events} {e : Event} (h : a.has e = true) :
    e.bits.Subset a := by
  cases e <;> simp_all [Events.subset_iff, Event.bits, Events.has]

/-- What a scheduler runs: a fibre or a callback. -/
inductive Task (φ : Type u) (κ : Type v)
  | fibre (f : φ)
  | cb (c : κ)
deriving DecidableEq

/-- A task and the scheduler that it was handed to. -/
structure Scheduled (φ : Type u) (κ : Type v) where
  scheduler : Nat
  task : Task φ κ
deriving DecidableEq

/-- `FdContext::EventContext`. -/
structure EventContext (φ : Type u) (κ : Type v) where
  scheduler : Option Nat
  fibre : Option φ
  cb : Option κ
deriving DecidableEq

namespace EventContext

variable {φ : Type u} {κ : Type v}

/-- A context in which nothing is stored. -/
def empty : EventContext φ κ := ⟨none, none, none⟩

/-- Exactly one of callback and fibre is stored. -/
def Holds (ctx : EventContext φ κ) : Prop :=
  ctx.fibre.isSome ≠ ctx.cb.isSome

/-- What `triggerEvent` moves out of the context: the callback, or else the fibre. -/
def task (ctx : EventContext φ κ) : Option (Task φ κ) :=
  match ctx.cb with
  | some c => some (.cb c)
  | none => ctx.fibre.map .fibre

/-- What triggering the context puts on a queue. -/
def scheduled (ctx : EventContext φ κ) : List (Scheduled φ κ) :=
  match ctx.scheduler, ctx.task with
  | some s, some t => [⟨s, t⟩]
  | _, _ => []

end EventContext

/-- `IOManager::FdContext`. -/
structure FdContext (φ : Type u) (κ : Type v) where
  read : EventContext φ κ
  write : EventContext φ κ
  fd : Nat
  events : Events
deriving DecidableEq

namespace FdContext

variable {φ : Type u} {κ : Type v}

/-- A context as `contextResize` makes it. -/
def new (fd : Nat) : FdContext φ κ where
  read := .empty
  write := .empty
  fd := fd
  events := .empty

/-- `FdContext::getContext`; for `NONE` it asserts. -/
def getContext (c : FdContext φ κ) : Event → Option (EventContext φ κ)
  | .none => none
  | .read => some c.read
  | .write => some c.write

/-- Write to the reference that `getContext` returned. -/
def setContext (c : FdContext φ κ) (event : Event) (ctx : EventContext φ κ) :
    FdContext φ κ :=
  match event with
  | .none => c
  | .read => { c with read := ctx }
  | .write => { c with write := ctx }

/-- The contexts agree with the bits: one of callback and fibre is stored for each
event that is set, nothing for one that is not. -/
structure WellFormed (c : FdContext φ κ) : Prop where
  holds : ∀ e ctx, c.getContext e = some ctx → c.events.has e = true → ctx.Holds
  empty : ∀ e ctx, c.getContext e = some ctx → c.events.has e = false → ctx = .empty

/-- The events of `s` are removed, with what is stored for them. -/
def drop (c : FdContext φ κ) (s : Events) : FdContext φ κ where
  read := if s.read then .empty else c.read
  write := if s.write then .empty else c.write
  fd := c.fd
  events := c.events.diff s

/-- What triggering the events of `s` puts on the queues. -/
def scheduled (c : FdContext φ κ) (s : Events) : List (Scheduled φ κ) :=
  (if s.read then c.read.scheduled else []) ++
    (if s.write then c.write.scheduled else [])

/-- Every event of `s` has a scheduler. -/
def HasScheduler (c : FdContext φ κ) (s : Events) : Prop :=
  (s.read = true → c.read.scheduler.isSome) ∧ (s.write = true → c.write.scheduler.isSome)

theorem new_wellFormed (fd : Nat) : WellFormed (new fd : FdContext φ κ) where
  holds := by
    intro e ctx _ h
    cases e <;> simp [new, Events.empty, Events.has] at h
  empty := by
    intro e ctx h _
    cases e <;> simp_all [new, getContext]

theorem drop_wellFormed {c : FdContext φ κ} (h : c.WellFormed) (s : Events) :
    (c.drop s).WellFormed where
  holds := by
    intro e ctx hctx hset
    cases e with
    | none => cases hctx
    | read =>
        simp only [drop, Events.has, Events.diff, Bool.and_eq_true, Bool.not_eq_true'] at hset
        refine h.holds .read ctx ?_ hset.1
        simpa [getContext, drop, hset.2] using hctx
    | write =>
        simp only [drop, Events.has, Events.diff, Bool.and_eq_true, Bool.not_eq_true'] at hset
        refine h.holds .write ctx ?_ hset.1
        simpa [getContext, drop, hset.2] using hctx
  empty := by
    intro e ctx hctx hset
    cases e with
    | none => cases hctx
    | read =>
        simp only [getContext, drop, Option.some.injEq] at hctx
        subst hctx
        by_cases hs : s.read = true
        · simp [hs]
        · simp only [hs, Bool.false_eq_true, if_false]
          refine h.empty .read _ rfl ?_
          simpa [drop, Events.has, Events.diff, hs] using hset
    | write =>
        simp only [getContext, drop, Option.some.injEq] at hctx
        subst hctx
        by_cases hs : s.write = true
        · simp [hs]
        · simp only [hs, Bool.false_eq_true, if_false]
          refine h.empty .write _ rfl ?_
          simpa [drop, Events.has, Events.diff, hs] using hset

theorem drop_drop (c : FdContext φ κ) :
    (c.drop ⟨true, false⟩).drop ⟨false, true⟩ = c.drop ⟨true, true⟩ := by
  simp [drop, Events.diff]

theorem drop_none (c : FdContext φ κ) : c.drop ⟨false, false⟩ = c := by
  simp [drop, Events.diff]

end FdContext

/-- What ends the process: a failing assertion, or a call through a null scheduler. -/
inductive Abort
  | addEvent
  | getContext
  | contextInUse
  | fibreState
  | triggerEvent
  | cancelAll
  | nullScheduler
deriving DecidableEq, Repr

/-- The operations of `epoll_ctl`. -/
inductive EpollCtlOp
  | add
  | mod
  | del
deriving DecidableEq, Repr

/-- The thread-local values that `addEvent` reads: `Scheduler::GetThis()`,
`Fibre::GetThis()` and the state of that fibre. -/
structure Caller (φ : Type u) where
  scheduler : Option Nat
  fibre : φ
  state : State
deriving DecidableEq

/-- `IOManager`.  `store` holds every `FdContext` that was allocated, by address, and
`fdContexts` is the table `m_fdContexts` of addresses.  `epoll` is the kernel's
registration of a descriptor: the address in `data.ptr` and the events (all with
`EPOLLET`).  `queue` lists what was handed to `Scheduler::schedule`. -/
structure IOManager (φ : Type u) (κ : Type v) where
  store : Nat → FdContext φ κ
  allocated : Nat
  fdContexts : List Nat
  epoll : Nat → Option (Nat × Events)
  pendingEventCount : Nat
  queue : List (Scheduled φ κ)

/-- One entry of the result of `epoll_wait`: `data.ptr`, the bits `EPOLLIN` and
`EPOLLOUT`, and whether `EPOLLERR` or `EPOLLHUP` is set. -/
structure Ready where
  ctx : Nat
  events : Events
  errHup : Bool
deriving DecidableEq, Repr

namespace IOManager

variable {φ : Type u} {κ : Type v}

/-! ## The operations -/

/-- Write the context at address `p`. -/
def setContext (m : IOManager φ κ) (p : Nat) (c : FdContext φ κ) : IOManager φ κ :=
  { m with store := Function.update m.store p c }

/-- `contextResize`: addresses beyond `size` are forgotten, new contexts fill up. -/
def contextResize (m : IOManager φ κ) (size : Nat) : IOManager φ κ :=
  let old := m.fdContexts.length
  { m with
    store := fun p =>
      if m.allocated ≤ p ∧ p < m.allocated + (size - old) then
        .new (old + (p - m.allocated))
      else m.store p
    allocated := m.allocated + (size - old)
    fdContexts := m.fdContexts.take size ++ List.range' m.allocated (size - old) }

/-- The lookup that every call begins with; it compares `(int)m_fdContexts.size()`. -/
def find (m : IOManager φ κ) (fd : Nat) : Option Nat :=
  if (BitVec.ofNat 32 m.fdContexts.length).toInt > fd then m.fdContexts[fd]? else none

theorem find_some {m : IOManager φ κ} {fd p : Nat} (h : m.find fd = some p) :
    m.fdContexts[fd]? = some p := by
  unfold find at h
  split at h
  · exact h
  · cases h

/-- The members before the constructor's body runs. -/
def blank : IOManager φ κ where
  store := fun _ => .new 0
  allocated := 0
  fdContexts := []
  epoll := fun _ => none
  pendingEventCount := 0
  queue := []

/-- The state after the constructor. -/
def new : IOManager φ κ := blank.contextResize 32

/-- `epoll_ctl`: the kernel does not add a descriptor twice, and does not modify or
delete one that is not registered; `fails` is a failure for any other reason. -/
def epollCtl (m : IOManager φ κ) (op : EpollCtlOp) (fd p : Nat) (events : Events)
    (fails : Bool) : Option (Nat → Option (Nat × Events)) :=
  if fails then none
  else
    match op, m.epoll fd with
    | .add, none => some (Function.update m.epoll fd (some (p, events)))
    | .mod, some _ => some (Function.update m.epoll fd (some (p, events)))
    | .del, some _ => some (Function.update m.epoll fd none)
    | _, _ => none

/-- `Scheduler::schedule` of what was moved out of a context; nothing is queued when
that is empty. -/
def schedule (m : IOManager φ κ) (s : Nat) : Option (Task φ κ) → IOManager φ κ
  | none => m
  | some t => { m with queue := m.queue ++ [⟨s, t⟩] }

/-- `FdContext::triggerEvent`. -/
def triggerEvent (m : IOManager φ κ) (p : Nat) (event : Event) :
    Except Abort (IOManager φ κ) :=
  let c := m.store p
  if c.events.has event then
    match c.getContext event with
    | none => .error .getContext
    | some ctx =>
        match ctx.scheduler with
        | none => .error .nullScheduler
        | some s =>
            let ctx' : EventContext φ κ :=
              if ctx.cb.isSome then { ctx with cb := none } else { ctx with fibre := none }
            let c' := { c with events := c.events.diff event.bits }
            .ok ((m.setContext p (c'.setContext event { ctx' with scheduler := none })).schedule
              s ctx.task)
  else .error .triggerEvent

/-- `triggerEvent(event)` and `--m_pendingEventCount`. -/
def consumeEvent (m : IOManager φ κ) (p : Nat) (event : Event) :
    Except Abort (IOManager φ κ) :=
  (m.triggerEvent p event).map fun m' =>
    { m' with pendingEventCount := m'.pendingEventCount - 1 }

/-- Trigger `READ` if `s` has it, then `WRITE` if `s` has it.  (`cancelAll` tests
`fd_ctx->events` again in between; triggering `READ` leaves `WRITE` as it was.) -/
def consume (m : IOManager φ κ) (p : Nat) (s : Events) : Except Abort (IOManager φ κ) :=
  match (if s.read then m.consumeEvent p .read else .ok m) with
  | .error r => .error r
  | .ok m' => if s.write then m'.consumeEvent p .write else .ok m'

/-- `addEvent` under `fd_ctx->mutex`; `true` is the return value `0`. -/
def addEvent (m : IOManager φ κ) (p fd : Nat) (event : Event) (cb : Option κ)
    (self : Caller φ) (fails : Bool) : Except Abort (Bool × IOManager φ κ) :=
  let c := m.store p
  if c.events.has event then .error .addEvent
  else
    let op := if c.events = .empty then EpollCtlOp.add else .mod
    match m.epollCtl op fd p (c.events.union event.bits) fails with
    | none => .ok (false, m)
    | some epoll =>
        match c.getContext event with
        | none => .error .getContext
        | some ctx =>
            if ctx.scheduler.isSome || ctx.fibre.isSome || ctx.cb.isSome then
              .error .contextInUse
            else if cb.isNone ∧ self.state ≠ .exec then .error .fibreState
            else
              -- without a callback the current fibre is stored
              let ctx' : EventContext φ κ :=
                { scheduler := self.scheduler
                  fibre := if cb.isSome then none else some self.fibre
                  cb := cb }
              let c' := { c with events := c.events.union event.bits }
              .ok (true,
                { m.setContext p (c'.setContext event ctx') with
                  epoll := epoll
                  pendingEventCount := m.pendingEventCount + 1 })

/-- `delEvent` under `fd_ctx->mutex`. -/
def delEvent (m : IOManager φ κ) (p fd : Nat) (event : Event) (fails : Bool) :
    Except Abort (Bool × IOManager φ κ) :=
  let c := m.store p
  if c.events.has event then
    let newEvents := c.events.diff event.bits
    let op := if newEvents = .empty then EpollCtlOp.del else .mod
    match m.epollCtl op fd p newEvents fails with
    | none => .ok (false, m)
    | some epoll =>
        match c.getContext event with
        | none => .error .getContext
        | some _ =>
            let c' := { c with events := newEvents }
            .ok (true,
              { m.setContext p (c'.setContext event .empty) with
                epoll := epoll
                pendingEventCount := m.pendingEventCount - 1 })
  else .ok (false, m)

/-- `cancelEvent` under `fd_ctx->mutex`. -/
def cancelEvent (m : IOManager φ κ) (p fd : Nat) (event : Event) (fails : Bool) :
    Except Abort (Bool × IOManager φ κ) :=
  let c := m.store p
  if c.events.has event then
    let newEvents := c.events.diff event.bits
    let op := if newEvents = .empty then EpollCtlOp.del else .mod
    match m.epollCtl op fd p newEvents fails with
    | none => .ok (false, m)
    | some epoll =>
        (consumeEvent { m with epoll := epoll } p event).map fun m' => (true, m')
  else .ok (false, m)

/-- `cancelAll` under `fd_ctx->mutex`. -/
def cancelAll (m : IOManager φ κ) (p fd : Nat) (fails : Bool) :
    Except Abort (Bool × IOManager φ κ) :=
  let c := m.store p
  if c.events = .empty then .ok (false, m)
  else
    match m.epollCtl .del fd p .empty fails with
    | none => .ok (false, m)
    | some epoll =>
        match consume { m with epoll := epoll } p c.events with
        | .error r => .error r
        | .ok m' =>
            if (m'.store p).events = .empty then .ok (true, m') else .error .cancelAll

/-- The events that `idle` takes from an entry: on `EPOLLERR` and `EPOLLHUP` the
registered ones count as ready. -/
def realEvents (c : FdContext φ κ) (r : Ready) : Events :=
  if r.errHup then r.events.union c.events else r.events

/-- The section of `idle` for one entry; `false` is a `continue`. -/
def deliver (m : IOManager φ κ) (r : Ready) (fails : Bool) :
    Except Abort (Bool × IOManager φ κ) :=
  let c := m.store r.ctx
  let real := realEvents c r
  if c.events.inter real = .empty then .ok (false, m)
  else
    let left := c.events.diff real
    let op := if left = .empty then EpollCtlOp.del else .mod
    match m.epollCtl op c.fd r.ctx left fails with
    | none => .ok (false, m)
    | some epoll => (consume { m with epoll := epoll } r.ctx real).map fun m' => (true, m')

/-! ## What a section changes -/

/-- The events of `s` leave the context at `p`. -/
def dropped (m : IOManager φ κ) (p : Nat) (s : Events) : IOManager φ κ :=
  { m.setContext p ((m.store p).drop s) with
    pendingEventCount := m.pendingEventCount - s.count }

/-- The events of `s` leave the context at `p` and what is stored for them is queued. -/
def scheduledDropped (m : IOManager φ κ) (p : Nat) (s : Events) : IOManager φ κ :=
  { m.dropped p s with queue := m.queue ++ (m.store p).scheduled s }

theorem triggerEvent_spec {m : IOManager φ κ} {p : Nat} {e : Event}
    (hwf : (m.store p).WellFormed)
    (hset : (m.store p).events.has e = true)
    (hsched : (m.store p).HasScheduler e.bits) :
    m.triggerEvent p e =
      .ok { m.setContext p ((m.store p).drop e.bits) with
        queue := m.queue ++ (m.store p).scheduled e.bits } := by
  have key : ∀ ctx s, (m.store p).getContext e = some ctx → ctx.scheduler = some s →
      m.triggerEvent p e =
        .ok { m.setContext p
            (({ m.store p with events := (m.store p).events.diff e.bits } : FdContext φ κ).setContext
              e .empty) with
          queue := m.queue ++ ctx.scheduled } := by
    intro ctx s hctx hs
    have hholds := hwf.holds e ctx hctx hset
    rcases ctx with ⟨sched, fibre, cb⟩
    simp only at hs
    subst hs
    simp only [triggerEvent, hset, if_true, hctx]
    cases cb with
    | some k =>
        have hfibre : fibre = none := by
          cases fibre <;> simp_all [EventContext.Holds]
        subst hfibre
        simp [schedule, EventContext.task, EventContext.scheduled, EventContext.empty,
          setContext]
    | none =>
        cases fibre with
        | none => simp [EventContext.Holds] at hholds
        | some f =>
            simp [schedule, EventContext.task, EventContext.scheduled, EventContext.empty,
              setContext]
  cases e with
  | none => simp [Events.has] at hset
  | read =>
      obtain ⟨s, hs⟩ := Option.isSome_iff_exists.mp (hsched.1 rfl)
      rw [key _ s rfl hs]
      simp [FdContext.setContext, FdContext.drop, FdContext.scheduled, Event.bits]
  | write =>
      obtain ⟨s, hs⟩ := Option.isSome_iff_exists.mp (hsched.2 rfl)
      rw [key _ s rfl hs]
      simp [FdContext.setContext, FdContext.drop, FdContext.scheduled, Event.bits]

theorem triggerEvent_ok {m m' : IOManager φ κ} {p : Nat} {e : Event}
    (h : m.triggerEvent p e = .ok m') :
    (m.store p).events.has e = true ∧ (m.store p).HasScheduler e.bits := by
  unfold triggerEvent at h
  simp only at h
  split at h
  · rename_i hset
    refine ⟨hset, ?_⟩
    cases e with
    | none => simp [Events.has] at hset
    | read =>
        cases hs : (m.store p).read.scheduler with
        | none => simp [FdContext.getContext, hs] at h
        | some s => simp [FdContext.HasScheduler, Event.bits, hs]
    | write =>
        cases hs : (m.store p).write.scheduler with
        | none => simp [FdContext.getContext, hs] at h
        | some s => simp [FdContext.HasScheduler, Event.bits, hs]
  · cases h

theorem triggerEvent_unset {m : IOManager φ κ} {p : Nat} {e : Event}
    (hset : (m.store p).events.has e = false) :
    m.triggerEvent p e = .error .triggerEvent := by
  simp [triggerEvent, hset]

theorem consumeEvent_spec {m : IOManager φ κ} {p : Nat} {e : Event}
    (hwf : (m.store p).WellFormed)
    (hset : (m.store p).events.has e = true)
    (hsched : (m.store p).HasScheduler e.bits) :
    m.consumeEvent p e = .ok (m.scheduledDropped p e.bits) := by
  have hcount : e.bits.count = 1 := by
    cases e with
    | none => simp [Events.has] at hset
    | read => rfl
    | write => rfl
  simp [consumeEvent, triggerEvent_spec hwf hset hsched, scheduledDropped, dropped, Except.map,
    hcount, setContext]

theorem scheduledDropped_none (m : IOManager φ κ) (p : Nat) :
    m.scheduledDropped p ⟨false, false⟩ = m := by
  simp [scheduledDropped, dropped, FdContext.drop_none, FdContext.scheduled,
    Events.count, setContext]

theorem scheduledDropped_read_write (m : IOManager φ κ) (p : Nat) :
    (m.scheduledDropped p ⟨true, false⟩).scheduledDropped p ⟨false, true⟩ =
      m.scheduledDropped p ⟨true, true⟩ := by
  simp [scheduledDropped, dropped, setContext, FdContext.drop_drop, FdContext.scheduled,
    Events.count, Nat.sub_sub]
  simp [FdContext.drop]

/-- The write event is left as it was by triggering the read event. -/
theorem store_scheduledDropped_read (m : IOManager φ κ) (p : Nat) :
    ((m.scheduledDropped p ⟨true, false⟩).store p).write = (m.store p).write ∧
      ((m.scheduledDropped p ⟨true, false⟩).store p).events.has .write =
        (m.store p).events.has .write := by
  simp [scheduledDropped, dropped, setContext, FdContext.drop, Events.has, Events.diff]

theorem scheduledDropped_wellFormed {m : IOManager φ κ} {p : Nat}
    (hwf : (m.store p).WellFormed) (s : Events) :
    ((m.scheduledDropped p s).store p).WellFormed := by
  simpa [scheduledDropped, dropped, setContext] using FdContext.drop_wellFormed hwf s

/-- Triggering the events of `s`, if they are all set and have a scheduler. -/
theorem consume_spec {m : IOManager φ κ} {p : Nat} {s : Events}
    (hwf : (m.store p).WellFormed)
    (hsub : s.Subset (m.store p).events)
    (hsched : (m.store p).HasScheduler s) :
    m.consume p s = .ok (m.scheduledDropped p s) := by
  obtain ⟨hread, hwrite⟩ := Events.subset_iff.mp hsub
  obtain ⟨hw, hset⟩ := store_scheduledDropped_read m p
  have hr : s.read = true → m.consumeEvent p .read = .ok (m.scheduledDropped p ⟨true, false⟩) :=
    fun h => consumeEvent_spec hwf (hread h) ⟨fun _ => hsched.1 h, by simp [Event.bits]⟩
  rcases s with ⟨_ | _, _ | _⟩
  · simp [consume, scheduledDropped_none]
  · simp only [consume, Bool.false_eq_true, if_false, if_true]
    exact consumeEvent_spec hwf (hwrite rfl) ⟨by simp [Event.bits], fun _ => hsched.2 rfl⟩
  · simp only [consume, if_true, Bool.false_eq_true, if_false, hr rfl]
  · simp only [consume, if_true, hr rfl]
    rw [← scheduledDropped_read_write]
    refine consumeEvent_spec (scheduledDropped_wellFormed hwf _) (hset.trans (hwrite rfl)) ?_
    exact ⟨by simp [Event.bits], fun _ => hw ▸ hsched.2 rfl⟩

/-- Triggering goes through only if the events are all set and have a scheduler. -/
theorem consume_ok {m m' : IOManager φ κ} {p : Nat} {s : Events}
    (hwf : (m.store p).WellFormed)
    (h : m.consume p s = .ok m') :
    s.Subset (m.store p).events ∧ (m.store p).HasScheduler s ∧
      m' = m.scheduledDropped p s := by
  have hconsumed : ∀ {n n' : IOManager φ κ} {e}, n.consumeEvent p e = .ok n' →
      (n.store p).events.has e = true ∧ (n.store p).HasScheduler e.bits := by
    intro n n' e hn
    unfold consumeEvent at hn
    cases ht : n.triggerEvent p e with
    | error r => simp [ht, Except.map] at hn
    | ok n₁ => exact triggerEvent_ok ht
  have hs : s.Subset (m.store p).events ∧ (m.store p).HasScheduler s := by
    obtain ⟨hw, hset⟩ := store_scheduledDropped_read m p
    rcases s with ⟨_ | _, _ | _⟩
    · simp [Events.subset_iff, FdContext.HasScheduler]
    · simp only [consume, Bool.false_eq_true, if_false, if_true] at h
      obtain ⟨hb, hsch⟩ := hconsumed h
      exact ⟨Event.bits_subset hb, hsch⟩
    · simp only [consume, if_true, Bool.false_eq_true, if_false] at h
      cases hr : m.consumeEvent p .read with
      | error r => simp [hr] at h
      | ok m₁ =>
          obtain ⟨hb, hsch⟩ := hconsumed hr
          exact ⟨Event.bits_subset hb, hsch⟩
    · simp only [consume, if_true] at h
      cases hr : m.consumeEvent p .read with
      | error r => simp [hr] at h
      | ok m₁ =>
          obtain ⟨hb, hsch⟩ := hconsumed hr
          rw [consumeEvent_spec hwf hb hsch] at hr
          cases hr
          simp only [consumeEvent_spec hwf hb hsch] at h
          obtain ⟨hb', hsch'⟩ := hconsumed h
          refine ⟨Events.subset_iff.mpr ⟨fun _ => hb, fun _ => hset.symm.trans hb'⟩, ?_⟩
          exact ⟨fun _ => hsch.1 rfl, fun _ => hw ▸ hsch'.2 rfl⟩
  refine ⟨hs.1, hs.2, ?_⟩
  rw [consume_spec hwf hs.1 hs.2] at h
  exact (Except.ok.inj h).symm

/-- If some event of `s` is not set, the assertion in `triggerEvent` fires. -/
theorem consume_abort {m : IOManager φ κ} {p : Nat} {s : Events}
    (hwf : (m.store p).WellFormed)
    (hsched : (m.store p).HasScheduler (m.store p).events)
    (hsub : ¬ s.Subset (m.store p).events) :
    m.consume p s = .error .triggerEvent := by
  have hunset : ∀ {n : IOManager φ κ} {e}, (n.store p).events.has e = false →
      n.consumeEvent p e = .error .triggerEvent := by
    intro n e he
    simp [consumeEvent, triggerEvent_unset he, Except.map]
  obtain ⟨_, hset⟩ := store_scheduledDropped_read m p
  by_cases hr : s.read = true
  · by_cases hread : (m.store p).events.read = true
    · -- the read event is triggered, so the write event is the one that is not set
      have hw : s.write = true ∧ (m.store p).events.has .write = false := by
        simp only [Events.subset_iff, hr, hread, forall_const, true_and] at hsub
        simpa [Events.has] using hsub
      have hspec : m.consumeEvent p .read = .ok (m.scheduledDropped p ⟨true, false⟩) :=
        consumeEvent_spec hwf hread ⟨fun _ => hsched.1 hread, by simp [Event.bits]⟩
      simp only [consume, hr, if_true, hspec, hw.1]
      exact hunset (hset.trans hw.2)
    · have hunread : (m.store p).events.has .read = false := by simpa [Events.has] using hread
      simp only [consume, hr, if_true, hunset hunread]
  · have hw : s.write = true ∧ (m.store p).events.has .write = false := by
      simp only [Events.subset_iff, hr] at hsub
      simpa [Events.has] using hsub
    simp only [consume, hr, hw.1, if_true]
    exact hunset hw.2

end IOManager

end Concurrency
end Hpgs
