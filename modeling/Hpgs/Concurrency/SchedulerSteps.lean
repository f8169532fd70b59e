import Hpgs.Concurrency.Scheduler

/-!
# What a step of the scheduler does

The steps of `Sys.step` are listed once, with what each of them finds and leaves, so
that a proof about a step is a proof about each entry of the list.

**Results.**
* `step_cases`: every step is one of those listed in `Step`.
-/

namespace Hpgs
namespace Concurrency

open Transition

namespace Sys

variable {n m : Nat}

attribute [simp] setWorker goto setTodo setState schedule scheduleMany

/-- Giving up the `cb_fibre` and going on is one change of the worker. -/
theorem dropCb_goto (s : Sys n m) (w : Fin n) (viaCb : Bool) (pc : Pc) :
    (s.dropCb w viaCb).goto w pc =
      s.setWorker w { s.worker w with
        pc := pc
        cbFibre := if viaCb then none else (s.worker w).cbFibre } := by
  cases viaCb <;> simp [dropCb]

/-- The steps of `run`, `idle` and `stop` that only move the worker on. -/
inductive Goes (s : Sys n m) (wk : Worker) : Pc → Pc → Prop
  | enter {f : Nat} (hstate : s.state f ≠ .term ∧ s.state f ≠ .except) :
      Goes s wk (.dispatch (.fibre f)) (.entering f false)
  | ended {f : Nat} (hstate : ¬ (s.state f ≠ .term ∧ s.state f ≠ .except)) :
      Goes s wk (.dispatch (.fibre f)) .dropped
  | swapOut {f : Nat} {viaCb : Bool} :
      Goes s wk (.leaving f viaCb) (.swapped f viaCb)
  | leave (hterm : wk.idleTerm = true) :
      Goes s wk .empty .returned
  | timers {site : Site} (hread : s.passes .timers = true) :
      Goes s wk (.test site .timers) (.test site .pending)
  | pending {site : Site} (hread : s.passes .pending = true) :
      Goes s wk (.test site .pending) (.test site .locked)
  | early (hread : s.passes .locked = true) :
      Goes s wk (.test .early .locked) .returned
  | stop (hread : s.passes .locked = true) :
      Goes s wk (.test .stop .locked) .returned
  | stay {read : Read} (hread : s.passes read = false) :
      Goes s wk (.test .idle read) .blocking
  | join {read : Read} (hread : s.passes read = false) :
      Goes s wk (.test .stop read) .scan
  | block : Goes s wk .blocking .blocked
  | rest : Goes s wk .delivering .idleOut

/-- What code can do to the manager. -/
inductive Performs (s : Sys n m) (th : Thread n m) (self : Option Nat) :
    Op → Sys n m → Prop
  | schedule {task : Option Job} {thread : Option Nat} (hmade : ∀ t ∈ task, t.Made s.made) :
      Performs s th self (.schedule task thread) (s.schedule th task thread [])
  | scheduleAll {tasks : List (Option Job)}
      (hmade : ∀ task ∈ tasks, ∀ t ∈ task, t.Made s.made) :
      Performs s th self (.scheduleAll tasks) (s.scheduleMany th tasks)
  | newFibre :
      Performs s th self .newFibre ({ s with made := s.made + 1 }.setState s.made .init)
  | addTimer {timer : PendingTimer} {atFront : Bool} :
      Performs s th self (.addTimer timer atFront)
        ({ s with timers := timer :: s.timers }.setTodo th
          (if atFront then [.checkIdle false] else []))
  | cancelTimer {timer : PendingTimer} (hmem : timer ∈ s.timers) :
      Performs s th self (.cancelTimer timer) { s with timers := s.timers.erase timer }
  | resetTimer {timer : PendingTimer} {atFront : Bool} (hmem : timer ∈ s.timers) :
      Performs s th self (.resetTimer timer atFront)
        (s.setTodo th (if atFront then [.checkIdle false] else []))
  | addEvent {cb : Option Nat} {t : Job} {w : Fin n} (hth : th = .inl w)
      (hself : ∀ f, t = .fibre f → self = some f) :
      Performs s th self (.addEvent cb)
        { s with
          events := s.events ++ [t]
          pendingEventCount := s.pendingEventCount + 1 }
  | delEvent {i : Nat} (hi : i < s.events.length) :
      Performs s th self (.delEvent i)
        { s with
          events := s.events.eraseIdx i
          pendingEventCount := s.pendingEventCount - 1 }
  | cancelEvent {i : Nat} {t : Job} (hi : s.events[i]? = some t) :
      Performs s th self (.cancelEvent i)
        ({ s with events := s.events.eraseIdx i }.schedule th (some t) none [.decPending])

/-- What a step of the scheduler can do. -/
inductive Step (s : Sys n m) : Label n m → Sys n m → Prop
  | goes {w : Fin n} {pc pc' : Pc}
      (htodo : s.todo (.inl w) = []) (hpc : (s.worker w).pc = pc)
      (hgoes : s.Goes (s.worker w) pc pc') :
      Step s (.next w) (s.goto w pc')
  | take {w : Fin n} {ft : Job}
      (htodo : s.todo (.inl w) = []) (hpc : (s.worker w).pc = .scan)
      (hft : (scanQueue s.state w s.fibres).ft = some ft) :
      Step s (.next w)
        (({ s with
            fibres := (scanQueue s.state w s.fibres).left
            activeThreadCount := s.activeThreadCount + 1 }.setTodo (.inl w)
              (tickleIf (scanQueue s.state w s.fibres).tickleMe)).goto w (.dispatch ft))
  | miss {w : Fin n}
      (htodo : s.todo (.inl w) = []) (hpc : (s.worker w).pc = .scan)
      (hft : (scanQueue s.state w s.fibres).ft = none) :
      Step s (.next w)
        ((s.setTodo (.inl w) (tickleIf (scanQueue s.state w s.fibres).tickleMe)).goto w .empty)
  | reuse {w : Fin n} {c f : Nat}
      (htodo : s.todo (.inl w) = []) (hpc : (s.worker w).pc = .dispatch (.cb c))
      (hcb : (s.worker w).cbFibre = some f)
      (hstate : s.state f = .term ∨ s.state f = .except ∨ s.state f = .init) :
      Step s (.next w) ((s.setState f .init).goto w (.entering f true))
  | create {w : Fin n} {c : Nat}
      (htodo : s.todo (.inl w) = []) (hpc : (s.worker w).pc = .dispatch (.cb c))
      (hcb : (s.worker w).cbFibre = none) :
      Step s (.next w)
        (({ s with made := s.made + 1 }.setState s.made .init).setWorker w
          { s.worker w with pc := .entering s.made true, cbFibre := some s.made })
  | swapIn {w : Fin n} {f : Nat} {viaCb : Bool}
      (htodo : s.todo (.inl w) = []) (hpc : (s.worker w).pc = .entering f viaCb)
      (hstate : s.state f ≠ .exec) :
      Step s (.next w) ((s.setState f .exec).goto w (.running f viaCb))
  | giveUp {w : Fin n} {f : Nat} {viaCb : Bool}
      (htodo : s.todo (.inl w) = []) (hpc : (s.worker w).pc = .swapped f viaCb) :
      Step s (.next w)
        ({ s with activeThreadCount := s.activeThreadCount - 1 }.goto w (.check f viaCb))
  | dropped {w : Fin n}
      (htodo : s.todo (.inl w) = []) (hpc : (s.worker w).pc = .dropped) :
      Step s (.next w)
        ({ s with activeThreadCount := s.activeThreadCount - 1 }.goto w .scan)
  | ready {w : Fin n} {f : Nat} {viaCb : Bool}
      (htodo : s.todo (.inl w) = []) (hpc : (s.worker w).pc = .check f viaCb)
      (hstate : s.state f = .ready) :
      Step s (.next w) ((s.dropCb w viaCb).goto w (.requeue f))
  | finished {w : Fin n} {f : Nat} {viaCb : Bool}
      (htodo : s.todo (.inl w) = []) (hpc : (s.worker w).pc = .check f viaCb)
      (hstate : s.state f = .term ∨ s.state f = .except) :
      Step s (.next w) ((if viaCb then s.setState f .init else s).goto w .scan)
  | hold {w : Fin n} {f : Nat} {viaCb : Bool}
      (htodo : s.todo (.inl w) = []) (hpc : (s.worker w).pc = .check f viaCb)
      (hstate : s.state f ≠ .ready ∧ ¬ (s.state f = .term ∨ s.state f = .except)) :
      Step s (.next w) (((s.setState f .hold).dropCb w viaCb).goto w .scan)
  | requeue {w : Fin n} {f : Nat}
      (htodo : s.todo (.inl w) = []) (hpc : (s.worker w).pc = .requeue f) :
      Step s (.next w) ((s.schedule (.inl w) (some (.fibre f)) none []).goto w .scan)
  | enterIdle {w : Fin n}
      (htodo : s.todo (.inl w) = []) (hpc : (s.worker w).pc = .empty)
      (hterm : (s.worker w).idleTerm = false) :
      Step s (.next w)
        ({ s with idleThreadCount := s.idleThreadCount + 1 }.goto w (.test .idle .timers))
  | endIdle {w : Fin n}
      (htodo : s.todo (.inl w) = []) (hpc : (s.worker w).pc = .test .idle .locked)
      (hread : s.passes .locked = true) :
      Step s (.next w) (s.setWorker w { s.worker w with pc := .idleOut, idleTerm := true })
  | goOn {w : Fin n} {read : Read}
      (htodo : s.todo (.inl w) = []) (hpc : (s.worker w).pc = .test .early read)
      (hread : s.passes read = false) :
      Step s (.next w) ((s.setTodo (.inl w) (stopTodo n)).goto w (.test .stop .timers))
  | pushExpired {w : Fin n} {cbs : List Nat}
      (htodo : s.todo (.inl w) = []) (hpc : (s.worker w).pc = .expired cbs) :
      Step s (.next w)
        ((s.scheduleMany (.inl w) (cbs.map fun c => some (.cb c))).goto w .delivering)
  | leaveIdle {w : Fin n}
      (htodo : s.todo (.inl w) = []) (hpc : (s.worker w).pc = .idleOut) :
      Step s (.next w)
        ({ s with idleThreadCount := s.idleThreadCount - 1 }.goto w .scan)
  | seeIdle {th : Thread n m} {forTask : Bool} {rest : List Micro}
      (htodo : s.todo th = .checkIdle forTask :: rest) (hidle : s.idleThreadCount > 0) :
      Step s (.micro th) (s.setTodo th (.writePipe forTask :: rest))
  | seeBusy {th : Thread n m} {forTask : Bool} {rest : List Micro}
      (htodo : s.todo th = .checkIdle forTask :: rest) (hidle : s.idleThreadCount = 0) :
      Step s (.micro th) (s.setTodo th rest)
  | writePipe {th : Thread n m} {forTask : Bool} {rest : List Micro}
      (htodo : s.todo th = .writePipe forTask :: rest) :
      Step s (.micro th) ({ s with pipe := s.pipe + 1 }.setTodo th rest)
  | decPending {th : Thread n m} {rest : List Micro}
      (htodo : s.todo th = .decPending :: rest) :
      Step s (.micro th)
        ({ s with pendingEventCount := s.pendingEventCount - 1 }.setTodo th rest)
  | setStopping {th : Thread n m} {rest : List Micro}
      (htodo : s.todo th = .setStopping :: rest) :
      Step s (.micro th) ({ s with stopping := true }.setTodo th rest)
  | user {w : Fin n} {self : Option Nat} {op : Op} {t : Sys n m}
      (htodo : s.todo (.inl w) = [])
      (hpc : (∃ f viaCb, (s.worker w).pc = .running f viaCb ∧ self = some f) ∨
        (s.worker w).pc = .caller ∧ self = none)
      (hop : s.Performs (.inl w) self op t) :
      Step s (.user w op) t
  | external {j : Fin m} {op : Op} {t : Sys n m}
      (htodo : s.todo (.inr j) = [])
      (hop : s.Performs (.inr j) none op t) :
      Step s (.external j op) t
  | write {w : Fin n} {f : Nat} {viaCb : Bool} {st : State}
      (htodo : s.todo (.inl w) = []) (hpc : (s.worker w).pc = .running f viaCb)
      (hst : st ≠ .init ∧ st ≠ .exec) :
      Step s (.write w st) ((s.setState f st).goto w (.leaving f viaCb))
  | wake {w : Fin n} (hpc : (s.worker w).pc = .blocked) :
      Step s (.wake w) (s.goto w .woken)
  | listExpired {w : Fin n} {due : List PendingTimer}
      (hpc : (s.worker w).pc = .woken) (hdue : due.Subperm s.timers) :
      Step s (.listExpired w due)
        ({ s with
            timers := due.filter PendingTimer.recurring ++ s.timers.diff due }.goto w
              (.expired (due.map PendingTimer.cb)))
  | readPipe {w : Fin n}
      (htodo : s.todo (.inl w) = []) (hpc : (s.worker w).pc = .delivering) :
      Step s (.readPipe w) { s with pipe := 0 }
  | deliver {w : Fin n} {i : Nat} {t : Job}
      (htodo : s.todo (.inl w) = []) (hpc : (s.worker w).pc = .delivering)
      (hi : s.events[i]? = some t) :
      Step s (.deliver w i)
        ({ s with events := s.events.eraseIdx i }.schedule (.inl w) (some t) none
          [.decPending])
  | stopEarly {w : Fin n}
      (htodo : s.todo (.inl w) = []) (hpc : (s.worker w).pc = .caller) :
      Step s (.stop (.inl w))
        (({ s with autoStop := true }.setTodo (.inl w) [.setStopping]).goto w
          (.test .early .timers))
  | stopCaller {w : Fin n}
      (htodo : s.todo (.inl w) = []) (hpc : (s.worker w).pc = .caller) :
      Step s (.stop (.inl w))
        (({ s with autoStop := true }.setTodo (.inl w) (stopTodo n)).goto w
          (.test .stop .timers))
  | stopOther {j : Fin m} (htodo : s.todo (.inr j) = []) (hcaller : ¬ s.HasCaller) :
      Step s (.stop (.inr j))
        ({ s with autoStop := true }.setTodo (.inr j) (stopTodo n))

/-- What an operation puts on the queue. -/
def pushes (s : Sys n m) : Op → List FibreAndThread
  | .schedule task thread => task.toList.map fun t => ⟨t, thread⟩
  | .scheduleAll tasks => tasks.reduceOption.map fun t => ⟨t, none⟩
  | .cancelEvent i => s.events[i]?.toList.map fun t => ⟨t, none⟩
  | _ => []

theorem perform_cases {s t : Sys n m} {th : Thread n m} {self : Option Nat} {op : Op}
    (h : s.perform th self op = some t) :
    s.Performs th self op t := by
  cases op with
  | schedule task thread =>
      simp only [perform, Option.ite_none_right_eq_some, Option.some.injEq] at h
      exact h.2 ▸ .schedule h.1
  | scheduleAll tasks =>
      simp only [perform, Option.ite_none_right_eq_some, Option.some.injEq] at h
      exact h.2 ▸ .scheduleAll h.1
  | newFibre =>
      simp only [perform, Option.some.injEq] at h
      exact h ▸ .newFibre
  | addTimer timer atFront =>
      simp only [perform, Option.some.injEq] at h
      exact h ▸ .addTimer
  | cancelTimer timer =>
      simp only [perform, Option.ite_none_right_eq_some, Option.some.injEq] at h
      exact h.2 ▸ .cancelTimer h.1
  | resetTimer timer atFront =>
      simp only [perform, Option.ite_none_right_eq_some, Option.some.injEq] at h
      exact h.2 ▸ .resetTimer h.1
  | addEvent cb =>
      rcases th with w | j
      · cases cb with
        | some c =>
            simp only [perform, Option.some.injEq] at h
            exact h ▸ .addEvent rfl (by simp)
        | none =>
            cases self with
            | none => simp [perform] at h
            | some f =>
                simp only [perform, Option.ite_none_right_eq_some, Option.some.injEq] at h
                exact h.2 ▸ .addEvent rfl (by simp)
      · simp [perform] at h
  | delEvent i =>
      simp only [perform, Option.ite_none_right_eq_some, Option.some.injEq] at h
      exact h.2 ▸ .delEvent h.1
  | cancelEvent i =>
      cases hi : s.events[i]? with
      | none => simp [perform, hi] at h
      | some x =>
          simp only [perform, hi, Option.some.injEq] at h
          exact h ▸ .cancelEvent hi

theorem Performs.worker {s t : Sys n m} {th : Thread n m} {self : Option Nat} {op : Op}
    (hop : s.Performs th self op t) :
    t.worker = s.worker := by
  cases hop <;> rfl

theorem Performs.activeThreadCount {s t : Sys n m} {th : Thread n m} {self : Option Nat}
    {op : Op} (hop : s.Performs th self op t) :
    t.activeThreadCount = s.activeThreadCount := by
  cases hop <;> rfl

/-- An operation only appends to the queue. -/
theorem Performs.fibres {s t : Sys n m} {th : Thread n m} {self : Option Nat} {op : Op}
    (hop : s.Performs th self op t) :
    t.fibres = s.fibres ++ s.pushes op := by
  cases hop with
  | schedule _ => rfl
  | @scheduleAll tasks _ => exact (scheduleAll_eq tasks s.fibres).1
  | @cancelEvent i x hi => simp [pushes, hi, scheduleNoLock]
  | _ => simp [pushes]

theorem testStopping_cases {s : Sys n m} {w : Fin n} {site : Site} {read : Read}
    (htodo : s.todo (.inl w) = []) (hpc : (s.worker w).pc = .test site read) :
    Step s (.next w) (s.testStopping w site read) := by
  unfold testStopping
  by_cases hread : s.passes read = true
  · rw [if_pos hread]
    cases read with
    | timers => exact .goes htodo hpc (.timers hread)
    | pending => exact .goes htodo hpc (.pending hread)
    | locked =>
        cases site with
        | idle => exact .endIdle htodo hpc hread
        | early => exact .goes htodo hpc (.early hread)
        | stop => exact .goes htodo hpc (.stop hread)
  · rw [if_neg hread]
    rw [Bool.not_eq_true] at hread
    cases site with
    | idle => exact .goes htodo hpc (.stay hread)
    | early => exact .goOn htodo hpc hread
    | stop => exact .goes htodo hpc (.join hread)

theorem checkState_cases {s : Sys n m} {w : Fin n} {f : Nat} {viaCb : Bool}
    (htodo : s.todo (.inl w) = []) (hpc : (s.worker w).pc = .check f viaCb) :
    Step s (.next w) (s.checkState w f viaCb) := by
  unfold checkState
  split
  · rename_i hready
    exact .ready htodo hpc hready
  · rename_i hready
    split
    · rename_i hover
      exact .finished htodo hpc hover
    · rename_i hover
      exact .hold htodo hpc ⟨hready, hover⟩

theorem dispatch_cases {s t : Sys n m} {w : Fin n} {ft : Job}
    (htodo : s.todo (.inl w) = []) (hpc : (s.worker w).pc = .dispatch ft)
    (h : s.dispatch w ft = some t) :
    Step s (.next w) t := by
  cases ft with
  | fibre f =>
      simp only [dispatch] at h
      split at h
      · rename_i hstate
        exact Option.some.inj h ▸ .goes htodo hpc (.enter hstate)
      · rename_i hstate
        exact Option.some.inj h ▸ .goes htodo hpc (.ended hstate)
  | cb c =>
      cases hcb : (s.worker w).cbFibre with
      | none =>
          simp only [dispatch, hcb, Option.some.injEq] at h
          exact h ▸ .create htodo hpc hcb
      | some f =>
          simp only [dispatch, hcb, Option.ite_none_right_eq_some, Option.some.injEq] at h
          exact h.2 ▸ .reuse htodo hpc hcb h.1

theorem next_cases {s t : Sys n m} {w : Fin n}
    (htodo : s.todo (.inl w) = []) (h : s.next w = some t) :
    Step s (.next w) t := by
  cases hpc : (s.worker w).pc with
  | scan =>
      simp only [next, hpc, Option.some.injEq, dequeue] at h
      subst h
      split
      · rename_i ft hft
        exact .take htodo hpc hft
      · rename_i hft
        exact .miss htodo hpc hft
  | dispatch ft =>
      simp only [next, hpc] at h
      exact dispatch_cases htodo hpc h
  | entering f viaCb =>
      simp only [next, hpc, Sys.swapIn, Option.ite_none_left_eq_some, Option.some.injEq] at h
      exact h.2 ▸ .swapIn htodo hpc h.1
  | leaving f viaCb =>
      simp only [next, hpc, Option.some.injEq] at h
      exact h ▸ .goes htodo hpc .swapOut
  | swapped f viaCb =>
      simp only [next, hpc, Option.some.injEq] at h
      exact h ▸ .giveUp htodo hpc
  | check f viaCb =>
      simp only [next, hpc, Option.some.injEq] at h
      exact h ▸ checkState_cases htodo hpc
  | requeue f =>
      simp only [next, hpc, Option.some.injEq] at h
      exact h ▸ .requeue htodo hpc
  | dropped =>
      simp only [next, hpc, Option.some.injEq] at h
      exact h ▸ .dropped htodo hpc
  | empty =>
      cases hterm : (s.worker w).idleTerm with
      | true =>
          simp only [next, hpc, hterm, if_true, Option.some.injEq] at h
          exact h ▸ .goes htodo hpc (.leave hterm)
      | false =>
          simp only [next, hpc, hterm, Bool.false_eq_true, if_false, Option.some.injEq] at h
          exact h ▸ .enterIdle htodo hpc hterm
  | test site read =>
      simp only [next, hpc, Option.some.injEq] at h
      exact h ▸ testStopping_cases htodo hpc
  | blocking =>
      simp only [next, hpc, Option.some.injEq] at h
      exact h ▸ .goes htodo hpc .block
  | expired cbs =>
      simp only [next, hpc, Option.some.injEq] at h
      exact h ▸ .pushExpired htodo hpc
  | delivering =>
      simp only [next, hpc, Option.some.injEq] at h
      exact h ▸ .goes htodo hpc .rest
  | idleOut =>
      simp only [next, hpc, Option.some.injEq] at h
      exact h ▸ .leaveIdle htodo hpc
  | caller => simp [next, hpc] at h
  | running f viaCb => simp [next, hpc] at h
  | blocked => simp [next, hpc] at h
  | woken => simp [next, hpc] at h
  | returned => simp [next, hpc] at h

theorem micro_cases {s t : Sys n m} {th : Thread n m} (h : s.micro th = some t) :
    Step s (.micro th) t := by
  cases htodo : s.todo th with
  | nil => simp [micro, htodo] at h
  | cons x rest =>
      cases x with
      | checkIdle forTask =>
          by_cases hidle : s.idleThreadCount > 0
          · simp only [micro, htodo, hidle, if_true, Option.some.injEq] at h
            exact h ▸ .seeIdle htodo hidle
          · simp only [micro, htodo, hidle, if_false, Option.some.injEq] at h
            exact h ▸ .seeBusy htodo (by omega)
      | writePipe forTask =>
          simp only [micro, htodo, Option.some.injEq] at h
          exact h ▸ .writePipe htodo
      | decPending =>
          simp only [micro, htodo, Option.some.injEq] at h
          exact h ▸ .decPending htodo
      | setStopping =>
          simp only [micro, htodo, Option.some.injEq] at h
          exact h ▸ .setStopping htodo

theorem write_cases {s t : Sys n m} {w : Fin n} {st : State}
    (h : s.step (.write w st) = some t) :
    Step s (.write w st) t := by
  simp only [step, Option.ite_none_right_eq_some] at h
  obtain ⟨htodo, h⟩ := h
  split at h
  · rename_i f viaCb hpc
    simp only [Option.ite_none_right_eq_some, Option.some.injEq] at h
    exact h.2 ▸ .write htodo hpc (by simp)
  · rename_i f viaCb hpc
    simp only [Option.ite_none_right_eq_some, Option.some.injEq] at h
    exact h.2 ▸ .write htodo hpc (by simp)
  · rename_i f viaCb hpc
    exact Option.some.inj h ▸ .write htodo hpc (by simp)
  · rename_i f viaCb hpc
    exact Option.some.inj h ▸ .write htodo hpc (by simp)
  · cases h

/-- **Inversion.**  Every step is one of those listed. -/
theorem step_cases {s t : Sys n m} {a : Label n m} (h : s.step a = some t) :
    Step s a t := by
  cases a with
  | next w =>
      simp only [step, Option.ite_none_right_eq_some] at h
      exact next_cases h.1 h.2
  | micro th => exact micro_cases h
  | user w op =>
      simp only [step, Option.ite_none_right_eq_some] at h
      obtain ⟨htodo, h⟩ := h
      split at h
      · rename_i f viaCb hpc
        exact .user htodo (Or.inl ⟨f, viaCb, hpc, rfl⟩) (perform_cases h)
      · rename_i hpc
        exact .user htodo (Or.inr ⟨hpc, rfl⟩) (perform_cases h)
      · cases h
  | external j op =>
      simp only [step, Option.ite_none_right_eq_some] at h
      exact .external h.1 (perform_cases h.2)
  | write w st => exact write_cases h
  | wake w =>
      simp only [step, Option.ite_none_right_eq_some, Option.some.injEq] at h
      exact h.2 ▸ .wake h.1
  | listExpired w due =>
      simp only [step, Option.ite_none_right_eq_some, Option.some.injEq] at h
      exact h.2 ▸ .listExpired h.1.1 h.1.2
  | readPipe w =>
      simp only [step, Option.ite_none_right_eq_some, Option.some.injEq] at h
      exact h.2 ▸ .readPipe h.1.1 h.1.2
  | deliver w i =>
      simp only [step, Option.ite_none_right_eq_some] at h
      obtain ⟨⟨htodo, hpc⟩, h⟩ := h
      cases hi : s.events[i]? with
      | none => simp [hi] at h
      | some x =>
          simp only [hi, Option.some.injEq] at h
          exact h ▸ .deliver htodo hpc hi
  | stop th =>
      simp only [step, Option.ite_none_right_eq_some] at h
      obtain ⟨⟨htodo, _⟩, h⟩ := h
      rcases th with w | j
      · simp only [Sys.stop, Option.ite_none_right_eq_some] at h
        obtain ⟨hpc, h⟩ := h
        split at h
        · exact Option.some.inj h ▸ .stopEarly htodo hpc
        · exact Option.some.inj h ▸ .stopCaller htodo hpc
      · simp only [Sys.stop, Option.ite_none_left_eq_some, Option.some.injEq] at h
        exact h.2 ▸ .stopOther htodo h.1

end Sys
end Concurrency
end Hpgs
