import Hpgs.Util.HookInvariant

/-!
# What `connect` returns

`connect_with_timeout` on any number of fibres, among all other hooked functions.  The
environment chooses what `connect_f` and `getsockopt` answer; beside the system stands a
history of what woke each fibre and of what each call returned.

A call whose event could not be registered goes on with `getsockopt`, while the
connection is still being made.

**Results.**
* `returns_eq`: no timer of a call is pending when the call returns.
* `returns_good`: what one step makes a call return.
* `connect_reports`: `connect` succeeds only when connected, exactly if `SO_ERROR` is not
  zero where the fibre was not woken by its socket.
* `connect_reports_unconnected`: a call that succeeds without being connected.
-/

namespace Hpgs
namespace Util

open Transition Concurrency

/-! ## Answers and results -/

/-- A step, and the answers of `connect_f` and `getsockopt` if they are called in it:
whether `connect_f` returns 0, and `SO_ERROR`, or `none` where `getsockopt` fails. -/
structure Move where
  label : Label
  connected : Bool
  soError : Option Int

/-- What took away the registration of a fibre. -/
inductive Waker
  | ready
  | timeout
  | other
deriving DecidableEq, Repr

/-- The result of a call, and the answers that led to it: whether `connect_f` returned 0,
what woke the fibre, and `SO_ERROR`. -/
structure Result where
  ret : Int
  connected : Bool
  waker : Option Waker
  error : Option Int
deriving DecidableEq, Repr

/-- The last lines, with the answer of `getsockopt`. -/
def soErrorResult (waker : Option Waker) : Option Int → Result
  | none => { ret := -1, connected := false, waker := waker, error := none }
  | some error =>
      { ret := if error = 0 then 0 else -1
        connected := false
        waker := waker
        error := some error }

/-- The result where the first attempt decides. -/
def attemptResult (connected : Bool) : Outcome → Option Result
  | .inProgress => none
  | .other =>
      some { ret := if connected then 0 else -1
             connected := connected
             waker := none
             error := none }
  | .interrupted | .again =>
      some { ret := -1, connected := false, waker := none, error := none }

/-- The call of `connect` that returns in a step. -/
def result (s : Sys) (waker : Nat → Option Waker) (m : Move) : Option (Nat × Result) :=
  match m.label with
  | .attempt f r =>
      match (s.fibre f).fn with
      | .connect _ => (attemptResult m.connected r).map fun res => (f, res)
      | .doIo _ _ => none
  | .cancelTimer f =>
      match (s.fibre f).fn, (s.fibre f).pc with
      | .connect _, .failed => some (f, soErrorResult none m.soError)
      | _, _ => none
  | .check f =>
      match (s.fibre f).fn, (s.fibre f).cancelled with
      | .connect _, true =>
          some (f, { ret := -1, connected := false, waker := waker f, error := none })
      | .connect _, false => some (f, soErrorResult (waker f) m.soError)
      | .doIo _ _, _ => none
  | _ => none

/-! ## The history -/

/-- What takes away a registration in a step. -/
def Label.wakes : Label → Waker
  | .deliver _ _ => .ready
  | .cancelEvent _ _ => .timeout
  | _ => .other

/-- What woke the fibre, after a step.  Nothing has when it comes to register. -/
def woken (s t : Sys) (a : Label) (waker : Nat → Option Waker) (f : Nat) : Option Waker :=
  match (s.fibre f).pc with
  | .adding => none
  | .yielding | .suspended =>
      if s.Registered f ∧ ¬ t.Registered f then some a.wakes else waker f
  | _ => waker f

/-- A timer of the call is in the timer set. -/
def Sys.Pending (s : Sys) (f info : Nat) : Prop :=
  ∃ x ∈ s.timers, x.fibre = f ∧ x.info = info ∧ x.phase = .set

instance (s : Sys) (f info : Nat) : Decidable (s.Pending f info) :=
  inferInstanceAs (Decidable (∃ x ∈ s.timers, _))

/-- A return of `connect`, and whether a timer of the call is pending then. -/
structure Returned where
  fibre : Nat
  result : Result
  pending : Bool
deriving DecidableEq, Repr

structure Connecting where
  sys : Sys
  waker : Nat → Option Waker
  returned : List Returned

namespace Connecting

/-- The returns in a step from `s.sys` to `t`. -/
def returns (s : Connecting) (t : Sys) (m : Move) : List Returned :=
  match Util.result s.sys s.waker m with
  | none => []
  | some (f, res) =>
      [{ fibre := f
         result := res
         pending := decide (t.Pending f (s.sys.fibre f).info) }]

def step (s : Connecting) (m : Move) : Option Connecting :=
  (s.sys.step m.label).map fun t =>
    { sys := t
      waker := woken s.sys t m.label s.waker
      returned := s.returned ++ s.returns t m }

def start : Connecting where
  sys := .start
  waker := fun _ => none
  returned := []

def system : System Connecting Move where
  init := fun s => s = start
  step := step

end Connecting

/-! ## What a result should say -/

/-- The socket is connected: `connect_f` said so, or the socket woke the fibre and had no
error. -/
def Result.Connected (r : Result) : Prop :=
  r.connected = true ∨ r.waker = some .ready ∧ r.error = some 0

instance (r : Result) : Decidable r.Connected :=
  inferInstanceAs (Decidable (_ ∨ _))

/-- Success means connected, and every other result is a failure. -/
def Result.Reports (r : Result) : Prop :=
  (r.ret = 0 → r.Connected) ∧ (¬ r.Connected → r.ret = -1)

instance (r : Result) : Decidable r.Reports :=
  inferInstanceAs (Decidable (_ ∧ _))

/-- The result reports whether the socket is connected, and if it is not then no timer of
the call is pending. -/
def Returned.Good (r : Returned) : Prop :=
  r.result.Reports ∧ (¬ r.result.Connected → r.pending = false)

instance (r : Returned) : Decidable r.Good :=
  inferInstanceAs (Decidable (_ ∧ _))

/-- **The condition.**  `SO_ERROR` is not zero where `connect` asks for it though the event
was not registered, or though something other than the socket woke the fibre. -/
def Honest (s : Connecting) (m : Move) : Prop :=
  match m.label with
  | .cancelTimer f =>
      match (s.sys.fibre f).fn, (s.sys.fibre f).pc with
      | .connect _, .failed => m.soError ≠ some 0
      | _, _ => True
  | .check f =>
      match (s.sys.fibre f).fn, (s.sys.fibre f).cancelled with
      | .connect _, false => s.waker f ≠ some .ready → m.soError ≠ some 0
      | _, _ => True
  | _ => True

instance (s : Connecting) (m : Move) : Decidable (Honest s m) := by
  unfold Honest
  split
  · split <;> infer_instance
  · split <;> infer_instance
  · infer_instance

/-! ## One return -/

section Results

variable {s : Connecting} {t : Sys} {m : Move}

/-- `SO_ERROR` tells whether the socket is connected if the socket woke the fibre, and
otherwise only if it is not zero. -/
theorem soErrorResult_reports (waker : Option Waker) (error : Option Int) :
    (soErrorResult waker error).Reports ↔ (waker ≠ some .ready → error ≠ some 0) := by
  cases error with
  | none => simp [soErrorResult, Result.Reports]
  | some error =>
      by_cases herror : error = 0
      · simp [soErrorResult, Result.Reports, Result.Connected, herror]
      · simp [soErrorResult, Result.Reports, Result.Connected, herror]

theorem attemptResult_reports {connected : Bool} {r : Outcome} {res : Result}
    (h : attemptResult connected r = some res) : res.Reports := by
  cases r with
  | inProgress => cases h
  | other =>
      cases h
      cases connected <;> decide
  | interrupted =>
      cases h
      decide
  | again =>
      cases h
      decide

theorem attempted_of_result {connected : Bool} {r : Outcome} {res : Result} {timeoutMs : Nat}
    (h : attemptResult connected r = some res) :
    Sys.attempted (.connect timeoutMs) r = .outside := by
  cases r with
  | inProgress => cases h
  | other => rfl
  | interrupted => rfl
  | again => rfl

/-- The result of a call, under the condition and only then, reports what is so. -/
theorem result_reports {f : Nat} {res : Result}
    (h : result s.sys s.waker m = some (f, res)) : res.Reports ↔ Honest s m := by
  unfold result at h
  unfold Honest
  split at h
  · -- the first attempt
    rename_i hm
    split at h
    · obtain ⟨res', hres, heq⟩ := Option.map_eq_some_iff.mp h
      cases heq
      simp only [hm, iff_true]
      exact attemptResult_reports hres
    · cases h
  · -- the event could not be registered
    rename_i hm
    split at h
    · rename_i hfn hpc
      cases h
      simp only [hm, hfn, hpc, soErrorResult_reports]
      simp
    · cases h
  · rename_i hm
    split at h
    · rename_i hfn hcancelled
      cases h
      simp only [hm, hfn, hcancelled, iff_true]
      exact ⟨fun hret => (nomatch hret), fun _ => rfl⟩
    · rename_i hfn hcancelled
      cases h
      simp only [hm, hfn, hcancelled]
      exact soErrorResult_reports _ _
    · cases h
  · cases h

theorem honest_of_no_result (h : result s.sys s.waker m = none) : Honest s m := by
  unfold result at h
  unfold Honest
  split
  · rename_i hm
    simp only [hm] at h
    split
    · rename_i hfn hpc
      simp [hfn, hpc] at h
    · trivial
  · rename_i hm
    simp only [hm] at h
    split
    · rename_i hfn hcancelled
      simp [hfn, hcancelled] at h
    · trivial
  · trivial

/-- A call that returns is left. -/
theorem result_outside {waker : Nat → Option Waker} {s : Sys} {f : Nat} {res : Result}
    (hres : result s waker m = some (f, res)) (h : s.step m.label = some t) :
    (t.fibre f).pc = .outside := by
  unfold result at hres
  split at hres
  · rename_i hm
    rw [hm] at h
    simp only [Sys.step, Option.ite_none_right_eq_some, Option.some.injEq] at h
    obtain ⟨_, rfl⟩ := h
    split at hres
    · rename_i hfn
      obtain ⟨res', hattempt, heq⟩ := Option.map_eq_some_iff.mp hres
      cases heq
      rw [Sys.goto_self, hfn]
      exact attempted_of_result hattempt
    · cases hres
  · rename_i hm
    rw [hm] at h
    split at hres
    · rename_i hfn hpc
      cases hres
      simp only [Sys.step, hpc, Option.some.injEq] at h
      subst h
      rw [Sys.goto_self]
    · cases hres
  · rename_i hm
    rw [hm] at h
    simp only [Sys.step, Option.ite_none_right_eq_some] at h
    obtain ⟨_, h⟩ := h
    split at hres
    · rename_i hfn hcancelled
      cases hres
      simp only [hfn, hcancelled, Option.some.injEq] at h
      subst h
      rw [Sys.goto_self]
    · rename_i hfn hcancelled
      cases hres
      simp only [hfn, hcancelled, Option.some.injEq] at h
      subst h
      rw [Sys.goto_self]
    · cases hres
  · cases hres

/-- No timer of a call is pending when it returns. -/
theorem returns_eq (hown : s.sys.OwnTimers) (h : s.sys.step m.label = some t) {f : Nat}
    {res : Result} (hres : result s.sys s.waker m = some (f, res)) :
    s.returns t m = [{ fibre := f, result := res, pending := false }] := by
  have harmed : (t.fibre f).pc.armed = false := by
    rw [result_outside hres h]
    rfl
  have hpending : ¬ t.Pending f (s.sys.fibre f).info := by
    rintro ⟨x, hx, hxf, _, hset⟩
    exact (Sys.step_ownTimers hown h).none_set harmed hx hset hxf
  simp only [Connecting.returns, hres, hpending, decide_false]

/-- **Step lemma.**  What a step makes a call return is as it should be, exactly under the
condition. -/
theorem returns_good (hown : s.sys.OwnTimers) (h : s.sys.step m.label = some t) :
    (∀ r ∈ s.returns t m, r.Good) ↔ Honest s m := by
  cases hres : result s.sys s.waker m with
  | none =>
      have hnone : s.returns t m = [] := by simp only [Connecting.returns, hres]
      rw [hnone]
      exact iff_of_true (fun r hr => absurd hr List.not_mem_nil) (honest_of_no_result hres)
  | some p =>
      obtain ⟨f, res⟩ := p
      rw [returns_eq hown h hres, ← result_reports hres]
      constructor
      · exact fun hall => (hall _ List.mem_cons_self).1
      · intro hreports r hr
        obtain rfl := List.mem_singleton.mp hr
        exact ⟨hreports, fun _ => rfl⟩

end Results

/-! ## Runs -/

section Runs

variable {s t : Connecting} {m : Move}

theorem connecting_step (h : s.step m = some t) :
    s.sys.step m.label = some t.sys ∧ t.returned = s.returned ++ s.returns t.sys m := by
  obtain ⟨u, hu, rfl⟩ := Option.map_eq_some_iff.mp h
  exact ⟨hu, rfl⟩

/-- What holds in every run under the condition. -/
structure Connecting.Inv (s : Connecting) : Prop where
  own : s.sys.OwnTimers
  good : ∀ r ∈ s.returned, r.Good

theorem Connecting.start_inv : Connecting.start.Inv where
  own := Sys.start_ownTimers
  good := fun _ hr => absurd hr List.not_mem_nil

theorem Connecting.Inv.step (h : s.Inv) (hm : Honest s m) (hst : s.step m = some t) : t.Inv := by
  obtain ⟨hsys, hreturned⟩ := connecting_step hst
  refine ⟨Sys.step_ownTimers h.own hsys, ?_⟩
  rw [hreturned]
  intro r hr
  rcases List.mem_append.mp hr with hold | hnew
  · exact h.good r hold
  · exact (returns_good h.own hsys).mpr hm r hnew

end Runs

/-- **`connect` reports success only when connected**, and leaves no timer otherwise, in a
run in which `SO_ERROR` is never zero where the fibre was not woken by its socket, and in
no other run. -/
theorem connect_reports {moves : List Move}
    (hrun : (Connecting.system.exec Connecting.start moves).isSome) :
    Connecting.system.Along (fun s => ∀ r ∈ s.returned, r.Good) Connecting.start moves ↔
      Connecting.system.StepsMeet Honest Connecting.start moves := by
  refine System.along_iff_stepsMeet (fun _ h => h.good)
    (fun s m t h hm hst => h.step hm hst) ?_ Connecting.start_inv hrun
  intro s m t h hm hst hgood
  obtain ⟨hsys, hreturned⟩ := connecting_step hst
  refine hm ((returns_good h.own hsys).mp fun r hr => ?_)
  exact hgood r (hreturned ▸ List.mem_append_right _ hr)

/-- A step in which neither `connect_f` nor `getsockopt` is called. -/
def quiet (a : Label) : Move where
  label := a
  connected := false
  soError := none

/-- `connect` on a blocking socket, with a timeout of one second. -/
def connectCall : Move :=
  quiet (.enter 0 (.connect 1000) 5 true (some (FdCtx.new 5 (some true) 0).1))

/-- The connection is made while the fibre is suspended. -/
def connectedRun : List Move :=
  [connectCall, quiet (.attempt 0 .inProgress), quiet (.addTimer 0), quiet (.addEvent 0 false),
    quiet (.yieldToHold 0), quiet (.deliver ⟨5, Event.write.bits, false⟩ false),
    quiet (.resume 0), quiet (.cancelTimer 0), ⟨.check 0, false, some 0⟩]

theorem connect_reports_connected :
    Connecting.system.Along (fun s => ∀ r ∈ s.returned, r.Good) Connecting.start
      connectedRun := by
  refine (connect_reports (by decide)).mpr ?_
  exact System.stepsMeet_of_execIf (by decide)

/-- `epoll_ctl` fails, and the connection is still being made. -/
def unregisteredRun : List Move :=
  [connectCall, quiet (.attempt 0 .inProgress), quiet (.addTimer 0), quiet (.addEvent 0 true),
    ⟨.cancelTimer 0, false, some 0⟩]

theorem connect_reports_unconnected :
    (Connecting.system.exec Connecting.start unregisteredRun).map Connecting.returned =
        some [⟨0, ⟨0, false, none, some 0⟩, false⟩] ∧
      ¬ Connecting.system.Along (fun s => ∀ r ∈ s.returned, r.Good) Connecting.start
        unregisteredRun := by
  have hreturned : (Connecting.system.exec Connecting.start unregisteredRun).map
      Connecting.returned = some [⟨0, ⟨0, false, none, some 0⟩, false⟩] := by decide
  refine ⟨hreturned, fun halong => ?_⟩
  obtain ⟨s, hs, hlist⟩ := Option.map_eq_some_iff.mp hreturned
  have hgood := halong.of_exec hs
  rw [hlist] at hgood
  exact absurd (hgood _ List.mem_cons_self) (by decide)

end Util
end Hpgs
