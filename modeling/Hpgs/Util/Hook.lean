import Hpgs.Concurrency.EventRegistryRuns
import Hpgs.Util.FdManager

/-!
# Hooked IO with a timeout

`do_io` and `connect_with_timeout` on any number of fibres, with the condition timers
that they set, the event registry of the `IOManager`, and whatever other fibres do to
it.  A fibre that would block sets a timer, registers the event and yields; the timer's
callback sets `cancelled` and cancels the event.

Adding the timer, adding the event, yielding, cancelling the timer and looking at
`cancelled` are one step each; so are the two halves of the callback.  The registry is
the one of `IOManager`, with the sections of its operations as they are there.
-/

namespace Hpgs
namespace Util

open Transition Concurrency

/-- A function that waits: `do_io` with its event and `timeout_so`, or
`connect_with_timeout` with its `timeout_ms`. -/
inductive Hooked
  | doIo (event : Event) (recv : Bool)
  | connect (timeoutMs : Nat)
deriving DecidableEq

/-- The event that the function waits for. -/
def Hooked.event : Hooked → Event
  | .doIo event _ => event
  | .connect _ => .write

/-- The timeout of the wait. -/
def Hooked.timeout (ctx : FdCtx) : Hooked → Nat
  | .doIo _ recv => ctx.getTimeout recv
  | .connect timeoutMs => timeoutMs

/-- The checks before the first attempt; where one fails, the original function is
called instead, or the call fails with `EBADF`. -/
def intercepts (hookEnable : Bool) : Option FdCtx → Bool
  | none => false
  | some ctx => hookEnable && !ctx.isClosed && ctx.isSocket && !ctx.userNonblock

/-- What the original function came to. -/
inductive Outcome
  | interrupted
  | again
  | inProgress
  | other
deriving DecidableEq

/-- Where a fibre is in a hooked function. -/
inductive Pc
  | outside
  | trying
  | arming
  | adding
  | yielding
  | suspended
  | resumed
  | failed
  | checking
deriving DecidableEq

/-- The locals of a hooked function.  `info` numbers the `timer_info` that the call made,
and `cancelled` is its member. -/
structure Local where
  pc : Pc
  fn : Hooked
  fd : Nat
  timeout : Nat
  info : Nat
  cancelled : Bool
  timer : Option Nat
deriving DecidableEq

/-- Where the callback of a condition timer is: with its timer in the timer set, in a
`cbs` vector, in the task queue, or running, when it has set `cancelled` and is about to
call `cancelEvent`. -/
inductive Phase
  | set
  | listed
  | queued
  | running
  | finished
deriving DecidableEq

/-- A condition timer, with what its callback captured.  The `timer_info` numbered `info`
is that of a call of `fibre`. -/
structure CondTimer where
  fibre : Nat
  info : Nat
  fd : Nat
  event : Event
  phase : Phase
deriving DecidableEq

/-- The registry, the fibres, all condition timers ever set, and how many `timer_info`s
were made.  A fibre outside of hooked functions runs its own code. -/
structure Sys where
  mgr : IOManager Nat Nat
  fibre : Nat → Local
  timers : List CondTimer
  infos : Nat

/-- Who moves, and what the environment chooses. -/
inductive Label
  | enter (f : Nat) (fn : Hooked) (fd : Nat) (hookEnable : Bool) (ctx : Option FdCtx)
  | attempt (f : Nat) (r : Outcome)
  | addTimer (f : Nat)
  | addEvent (f : Nat) (fails : Bool)
  | yieldToHold (f : Nat)
  | resume (f : Nat)
  | cancelTimer (f : Nat)
  | check (f : Nat)
  | listExpired (i : Nat)
  | schedule (i : Nat)
  | callback (i : Nat)
  | cancelEvent (i : Nat) (fails : Bool)
  | deliver (r : Ready) (fails : Bool)
  | other (c : Call Nat Nat) (fails : Bool)
  | resize (fd : Nat)
  | push (x : Scheduled Nat Nat)
  | take (x : Scheduled Nat Nat)

namespace Sys

/-- The fibre goes on at `pc`. -/
def goto (s : Sys) (f : Nat) (pc : Pc) : Sys :=
  { s with fibre := Function.update s.fibre f { s.fibre f with pc := pc } }

/-- The callback of the `i`-th timer comes to `phase`. -/
def setPhase (s : Sys) (i : Nat) (phase : Phase) : Sys :=
  { s with timers := s.timers.modify i fun x => { x with phase := phase } }

/-- The queue holds the fibre. -/
def InQueue (s : Sys) (f : Nat) : Prop :=
  ∃ x ∈ s.mgr.queue, x.task = .fibre f

instance (s : Sys) (f : Nat) : Decidable (s.InQueue f) :=
  inferInstanceAs (Decidable (∃ x ∈ s.mgr.queue, x.task = .fibre f))

/-- `winfo.lock()`: the call that made the `timer_info` has not returned. -/
def Alive (s : Sys) (x : CondTimer) : Prop :=
  (s.fibre x.fibre).pc ≠ .outside ∧ (s.fibre x.fibre).info = x.info

instance (s : Sys) (x : CondTimer) : Decidable (s.Alive x) :=
  inferInstanceAs (Decidable (_ ∧ _))

/-- What follows one call of the original function. -/
def attempted : Hooked → Outcome → Pc
  | .doIo _ _, .interrupted => .trying
  | .doIo _ _, .again => .arming
  | .connect _, .inProgress => .arming
  | _, _ => .outside

/-- The entry of a hooked function. -/
def enter (s : Sys) (f : Nat) (fn : Hooked) (fd : Nat) (hookEnable : Bool)
    (ctx : Option FdCtx) : Sys :=
  match ctx with
  | none => s
  | some c =>
      if intercepts hookEnable (some c) then
        { s with
          infos := s.infos + 1
          fibre := Function.update s.fibre f
            { pc := .trying
              fn := fn
              fd := fd
              timeout := fn.timeout c
              info := s.infos
              cancelled := false
              timer := none } }
      else s

/-- `addConditionTimer`, unless there is no timeout. -/
def addTimer (s : Sys) (f : Nat) : Sys :=
  let l := s.fibre f
  if l.timeout = noTimeout then
    { s with fibre := Function.update s.fibre f { l with pc := .adding, timer := none } }
  else
    { s with
      timers := s.timers ++
        [{ fibre := f, info := l.info, fd := l.fd, event := l.fn.event, phase := .set }]
      fibre := Function.update s.fibre f
        { l with pc := .adding, timer := some s.timers.length } }

/-- `iom->addEvent(fd, event)` for the running fibre. -/
def addEvent (s : Sys) (f : Nat) (fails : Bool) : Option Sys :=
  let l := s.fibre f
  match s.mgr.fdContexts[l.fd]? with
  | none => none
  | some p =>
      match s.mgr.addEvent p l.fd l.fn.event none
          { scheduler := some 0, fibre := f, state := .exec } fails with
      | .error _ => none
      | .ok (true, m) => some ({ s with mgr := m }.goto f .yielding)
      | .ok (false, m) => some ({ s with mgr := m }.goto f .failed)

/-- `Timer::cancel`, which finds only a timer in the set. -/
def cancelTimer (s : Sys) : Option Nat → Sys
  | none => s
  | some i =>
      match s.timers[i]? with
      | some x => if x.phase = .set then s.setPhase i .finished else s
      | none => s

/-- A worker runs the callback, up to its `cancelEvent`. -/
def callback (s : Sys) (i : Nat) (x : CondTimer) : Sys :=
  if s.Alive x ∧ (s.fibre x.fibre).cancelled = false then
    { s.setPhase i .running with
      fibre := Function.update s.fibre x.fibre
        { s.fibre x.fibre with cancelled := true } }
  else s.setPhase i .finished

/-- The `cancelEvent` of the callback. -/
def cancelEvent (s : Sys) (i : Nat) (x : CondTimer) (fails : Bool) : Option Sys :=
  match s.mgr.fdContexts[x.fd]? with
  | none => some (s.setPhase i .finished)
  | some p =>
      match s.mgr.cancelEvent p x.fd x.event fails with
      | .error _ => none
      | .ok (_, m) => some ({ s with mgr := m }.setPhase i .finished)

/-- A fibre would register itself from within a hooked function, which is not what the
hooked functions do. -/
def RegistersInside (s : Sys) : Call Nat Nat → Prop
  | .addEvent _ _ none self => (s.fibre self.fibre).pc ≠ .outside
  | _ => False

instance (s : Sys) (c : Call Nat Nat) : Decidable (s.RegistersInside c) := by
  unfold RegistersInside
  split <;> infer_instance

/-- A section of the registry that some other code runs. -/
def other (s : Sys) (c : Call Nat Nat) (fails : Bool) : Option Sys :=
  match s.mgr.fdContexts[c.fd]? with
  | none => none
  | some p =>
      match s.mgr.perform p fails c with
      | .error _ => none
      | .ok (_, m) => some { s with mgr := m }

/-- The task is not a fibre that waits in a hooked function. -/
def Free (s : Sys) (x : Scheduled Nat Nat) : Prop :=
  match x.task with
  | .fibre f => (s.fibre f).pc = .outside
  | .cb _ => True

instance (s : Sys) (x : Scheduled Nat Nat) : Decidable (s.Free x) := by
  unfold Free
  split <;> infer_instance

def step (s : Sys) : Label → Option Sys
  | .enter f fn fd hookEnable ctx =>
      if (s.fibre f).pc = .outside then some (s.enter f fn fd hookEnable ctx) else none
  | .attempt f r =>
      if (s.fibre f).pc = .trying then some (s.goto f (attempted (s.fibre f).fn r)) else none
  | .addTimer f => if (s.fibre f).pc = .arming then some (s.addTimer f) else none
  | .addEvent f fails => if (s.fibre f).pc = .adding then s.addEvent f fails else none
  | .yieldToHold f =>
      if (s.fibre f).pc = .yielding then some (s.goto f .suspended) else none
  | .resume f =>
      if (s.fibre f).pc = .suspended ∧ s.InQueue f then
        some ({ s with
          mgr := { s.mgr with
            queue := s.mgr.queue.eraseP fun x => x.task = Task.fibre f } }.goto f .resumed)
      else none
  | .cancelTimer f =>
      match (s.fibre f).pc with
      | .resumed => some ((s.cancelTimer (s.fibre f).timer).goto f .checking)
      | .failed => some ((s.cancelTimer (s.fibre f).timer).goto f .outside)
      | _ => none
  | .check f =>
      if (s.fibre f).pc = .checking then
        match (s.fibre f).cancelled, (s.fibre f).fn with
        | false, .doIo _ _ => some (s.goto f .trying)
        | _, _ => some (s.goto f .outside)
      else none
  | .listExpired i =>
      match s.timers[i]? with
      | some x => if x.phase = .set then some (s.setPhase i .listed) else none
      | none => none
  | .schedule i =>
      match s.timers[i]? with
      | some x => if x.phase = .listed then some (s.setPhase i .queued) else none
      | none => none
  | .callback i =>
      match s.timers[i]? with
      | some x => if x.phase = .queued then some (s.callback i x) else none
      | none => none
  | .cancelEvent i fails =>
      match s.timers[i]? with
      | some x => if x.phase = .running then s.cancelEvent i x fails else none
      | none => none
  | .deliver r fails =>
      if r.ctx < s.mgr.allocated then
        match s.mgr.deliver r fails with
        | .error _ => none
        | .ok (_, m) => some { s with mgr := m }
      else none
  | .other c fails => if s.RegistersInside c then none else s.other c fails
  | .resize fd =>
      if 32 ≤ fd then some { s with mgr := s.mgr.contextResize (fd * 3 / 2) } else none
  | .push x => some { s with mgr := { s.mgr with queue := s.mgr.queue ++ [x] } }
  | .take x =>
      if x ∈ s.mgr.queue ∧ s.Free x then
        some { s with mgr := { s.mgr with queue := s.mgr.queue.erase x } }
      else none

def start : Sys where
  mgr := .new
  fibre := fun _ =>
    { pc := .outside
      fn := .connect noTimeout
      fd := 0
      timeout := noTimeout
      info := 0
      cancelled := false
      timer := none }
  timers := []
  infos := 0

/-- All runs of hooked functions and what is around them. -/
def system : System Sys Label where
  init := fun s => s = start
  step := step

end Sys
end Util
end Hpgs
