import Hpgs.Concurrency.IOManager
import Hpgs.Library.Transition
import Mathlib.Data.List.Perm.Subperm
import Mathlib.Data.List.ReduceOption
import Mathlib.Data.Fintype.Sum
import Mathlib.Algebra.Ring.Nat

/-!
# The scheduler

`Scheduler::run` on any number of worker threads, with the overrides of `IOManager`,
the tasks that run on the workers, and threads that are no workers.  Every locked
section, every access to an atomic counter, every read of the exit test, every write
of a fibre's state and every write to the pipe is one step.

A thread that still owes something before its code goes on (a `tickle` after a push, a
decrement after a trigger) keeps it in `todo`.  A failing assertion ends the process:
there is no step.

The timer set and the table of `FdContext`s are kept here as the timers that are
pending and the tasks that are stored for registered events.

**Results.**
* `scanQueue_found`, `scanQueue_none`: what the scan of `run` takes and what it leaves.
* `scheduleAll_eq`: what a batch of tasks puts on the queue.
-/

namespace Hpgs
namespace Concurrency

open Transition

/-- Fibres and callbacks are told apart by numbers. -/
abbrev Job := Task Nat Nat

/-- `Scheduler::FibreAndThread`; the thread is `none` for `-1`. -/
structure FibreAndThread where
  task : Job
  thread : Option Nat
deriving DecidableEq

/-- A timer in the set of the `TimerManager`. -/
structure PendingTimer where
  cb : Nat
  recurring : Bool
deriving DecidableEq

/-- Where `IOManager::stopping` is called: in `idle`, or at one of two places of `stop`. -/
inductive Site
  | idle
  | early
  | stop
deriving DecidableEq, Repr

/-- The three reads of `IOManager::stopping`. -/
inductive Read
  | timers
  | pending
  | locked
deriving DecidableEq, Repr

/-- Where a worker is in `Scheduler::run`, in `IOManager::idle` or in `stop`.  A fibre
comes with a flag that says if it is the worker's `cb_fibre`. -/
inductive Pc
  | caller
  | scan
  | dispatch (ft : Job)
  | entering (f : Nat) (viaCb : Bool)
  | running (f : Nat) (viaCb : Bool)
  | leaving (f : Nat) (viaCb : Bool)
  | swapped (f : Nat) (viaCb : Bool)
  | check (f : Nat) (viaCb : Bool)
  | requeue (f : Nat)
  | dropped
  | empty
  | test (site : Site) (read : Read)
  | blocking
  | blocked
  | woken
  | expired (cbs : List Nat)
  | delivering
  | idleOut
  | returned
deriving DecidableEq

/-- What a thread owes before its code goes on.  `tickle` first reads the idle count and
then writes to the pipe; the flag says if it follows a push or a scan. -/
inductive Micro
  | checkIdle (forTask : Bool)
  | writePipe (forTask : Bool)
  | decPending
  | setStopping
deriving DecidableEq, Repr

/-- The locals of `Scheduler::run` on one thread. -/
structure Worker where
  pc : Pc
  cbFibre : Option Nat
  idleTerm : Bool
deriving DecidableEq

/-- The workers and the other threads. -/
abbrev Thread (n m : Nat) := Fin n ⊕ Fin m

/-- An `IOManager` with `n` workers, and `m` threads outside of it. -/
structure Sys (n m : Nat) where
  worker : Fin n → Worker
  todo : Thread n m → List Micro
  state : Nat → State
  made : Nat
  fibres : List FibreAndThread
  activeThreadCount : Nat
  idleThreadCount : Nat
  autoStop : Bool
  stopping : Bool
  timers : List PendingTimer
  events : List Job
  pendingEventCount : Nat
  pipe : Nat

/-- What code can ask of the manager. -/
inductive Op
  | schedule (task : Option Job) (thread : Option Nat)
  | scheduleAll (tasks : List (Option Job))
  | newFibre
  | addTimer (timer : PendingTimer) (atFront : Bool)
  | cancelTimer (timer : PendingTimer)
  | resetTimer (timer : PendingTimer) (atFront : Bool)
  | addEvent (cb : Option Nat)
  | delEvent (i : Nat)
  | cancelEvent (i : Nat)

/-- Who moves, and what the environment chooses. -/
inductive Label (n m : Nat)
  | next (w : Fin n)
  | micro (th : Thread n m)
  | user (w : Fin n) (op : Op)
  | external (j : Fin m) (op : Op)
  | write (w : Fin n) (st : State)
  | wake (w : Fin n)
  | listExpired (w : Fin n) (due : List PendingTimer)
  | readPipe (w : Fin n)
  | deliver (w : Fin n) (i : Nat)
  | stop (th : Thread n m)

/-- The threads of a system with one or two workers can be written as numbers. -/
instance neZero_one : NeZero 1 :=
  ⟨Nat.one_ne_zero⟩

instance neZero_two : NeZero 2 :=
  ⟨Nat.succ_ne_zero 1⟩

/-! ## The queue -/

/-- The task is a fibre whose state is `EXEC`. -/
def Task.executing (state : Nat → State) : Job → Bool
  | .fibre f => state f = .exec
  | .cb _ => false

/-- The fibre exists, if the task is one. -/
def Task.Made (made : Nat) : Job → Prop
  | .fibre f => f < made
  | .cb _ => True

instance (made : Nat) (t : Job) : Decidable (t.Made made) :=
  match t with
  | .fibre f => inferInstanceAs (Decidable (f < made))
  | .cb _ => inferInstanceAs (Decidable True)

/-- `Scheduler::scheduleNoLock`: whether a tickle is needed, and the queue. -/
def scheduleNoLock (fibres : List FibreAndThread) (task : Option Job) (thread : Option Nat) :
    Bool × List FibreAndThread :=
  (fibres.isEmpty, fibres ++ task.toList.map fun t => ⟨t, thread⟩)

/-- The loop of the batch `Scheduler::schedule`. -/
def scheduleAll (fibres : List FibreAndThread) : List (Option Job) → Bool × List FibreAndThread
  | [] => (false, fibres)
  | task :: tasks =>
      let one := scheduleNoLock fibres task none
      let rest := scheduleAll one.2 tasks
      (one.1 || rest.1, rest.2)

/-- What the scan of `run` comes to. -/
structure Scan where
  tickleMe : Bool
  left : List FibreAndThread
  ft : Option Job

/-- The locked scan of `Scheduler::run` on thread `me`. -/
def scanQueue (state : Nat → State) (me : Nat) : List FibreAndThread → Scan
  | [] => ⟨false, [], none⟩
  | it :: rest =>
      if it.thread ≠ none ∧ it.thread ≠ some me then
        let next := scanQueue state me rest
        ⟨true, it :: next.left, next.ft⟩
      else if it.task.executing state then
        let next := scanQueue state me rest
        ⟨next.tickleMe, it :: next.left, next.ft⟩
      else
        ⟨!rest.isEmpty, rest, some it.task⟩

/-- The entry is bound to another thread, or its fibre is executing. -/
def FibreAndThread.Skipped (state : Nat → State) (me : Nat) (it : FibreAndThread) : Prop :=
  it.thread ≠ none ∧ it.thread ≠ some me ∨ it.task.executing state = true

/-- A scan that found a task took the first entry that is not skipped. -/
theorem scanQueue_found {state : Nat → State} {me : Nat} {q : List FibreAndThread} {ft : Job}
    (h : (scanQueue state me q).ft = some ft) :
    ∃ pre it post,
      q = pre ++ it :: post ∧
      (scanQueue state me q).left = pre ++ post ∧
      it.task = ft ∧
      ¬ it.Skipped state me ∧
      (∀ x ∈ pre, x.Skipped state me) ∧
      (post ≠ [] → (scanQueue state me q).tickleMe = true) := by
  induction q with
  | nil => simp [scanQueue] at h
  | cons it rest ih =>
      by_cases hpin : it.thread ≠ none ∧ it.thread ≠ some me
      · simp only [scanQueue, hpin, if_true, ne_eq, not_false_eq_true, and_self] at h ⊢
        obtain ⟨pre, x, post, hq, hleft, hx, hskip, hpre, _⟩ := ih h
        refine ⟨it :: pre, x, post, by simp [hq], by simp [hleft], hx, hskip, ?_, by simp⟩
        intro y hy
        rcases List.mem_cons.mp hy with rfl | hy
        · exact Or.inl hpin
        · exact hpre y hy
      · by_cases hexec : it.task.executing state = true
        · simp only [scanQueue, hpin, hexec, if_true, if_false] at h ⊢
          obtain ⟨pre, x, post, hq, hleft, hx, hskip, hpre, htick⟩ := ih h
          refine ⟨it :: pre, x, post, by simp [hq], by simp [hleft], hx, hskip, ?_, htick⟩
          intro y hy
          rcases List.mem_cons.mp hy with rfl | hy
          · exact Or.inr hexec
          · exact hpre y hy
        · simp only [scanQueue, hpin, hexec, if_false] at h ⊢
          refine ⟨[], it, rest, rfl, rfl, by simpa using h, ?_, by simp, by simp⟩
          rintro (hp | he)
          · exact hpin hp
          · exact hexec he

/-- A scan that found nothing skipped every entry. -/
theorem scanQueue_none {state : Nat → State} {me : Nat} {q : List FibreAndThread}
    (h : (scanQueue state me q).ft = none) :
    ∀ x ∈ q, x.Skipped state me := by
  induction q with
  | nil => simp
  | cons it rest ih =>
      intro x hx
      by_cases hpin : it.thread ≠ none ∧ it.thread ≠ some me
      · simp only [scanQueue, hpin, if_true, ne_eq, not_false_eq_true, and_self] at h
        rcases List.mem_cons.mp hx with rfl | hx
        · exact Or.inl hpin
        · exact ih h x hx
      · by_cases hexec : it.task.executing state = true
        · simp only [scanQueue, hpin, hexec, if_true, if_false] at h
          rcases List.mem_cons.mp hx with rfl | hx
          · exact Or.inr hexec
          · exact ih h x hx
        · simp [scanQueue, hpin, hexec] at h

/-- A batch is pushed task by task; a tickle is needed if the queue was empty. -/
theorem scheduleAll_eq (tasks : List (Option Job)) :
    ∀ q : List FibreAndThread,
      (scheduleAll q tasks).2 = q ++ (tasks.reduceOption.map fun t => ⟨t, none⟩) ∧
        (q = [] → tasks ≠ [] → (scheduleAll q tasks).1 = true) := by
  induction tasks with
  | nil => simp [scheduleAll]
  | cons task tasks ih =>
      intro q
      constructor
      · cases task with
        | none => simp [scheduleAll, scheduleNoLock, (ih q).1]
        | some t =>
            simp [scheduleAll, scheduleNoLock, (ih (q ++ [⟨t, none⟩])).1]
      · rintro rfl _
        simp [scheduleAll, scheduleNoLock]

/-! ## The steps -/

namespace Sys

variable {n m : Nat}

def setWorker (s : Sys n m) (w : Fin n) (wk : Worker) : Sys n m :=
  { s with worker := Function.update s.worker w wk }

/-- The worker goes on at `pc`. -/
def goto (s : Sys n m) (w : Fin n) (pc : Pc) : Sys n m :=
  s.setWorker w { s.worker w with pc := pc }

def setTodo (s : Sys n m) (th : Thread n m) (todo : List Micro) : Sys n m :=
  { s with todo := Function.update s.todo th todo }

/-- `Fibre::setState`. -/
def setState (s : Sys n m) (f : Nat) (st : State) : Sys n m :=
  { s with state := Function.update s.state f st }

/-- The `tickle` that follows a push or a scan, if one is needed. -/
def tickleIf (need : Bool) : List Micro :=
  if need then [.checkIdle true] else []

/-- `Scheduler::schedule`, and what the thread owes after it. -/
def schedule (s : Sys n m) (th : Thread n m) (task : Option Job) (thread : Option Nat)
    (rest : List Micro) : Sys n m :=
  let pushed := scheduleNoLock s.fibres task thread
  { s with fibres := pushed.2 }.setTodo th (tickleIf pushed.1 ++ rest)

/-- The batch `Scheduler::schedule`. -/
def scheduleMany (s : Sys n m) (th : Thread n m) (tasks : List (Option Job)) : Sys n m :=
  let pushed := scheduleAll s.fibres tasks
  { s with fibres := pushed.2 }.setTodo th (tickleIf pushed.1)

/-- The locked scan of `run`. -/
def dequeue (s : Sys n m) (w : Fin n) : Sys n m :=
  let found := scanQueue s.state w s.fibres
  match found.ft with
  | some ft =>
      ({ s with
          fibres := found.left
          activeThreadCount := s.activeThreadCount + 1 }.setTodo (.inl w)
            (tickleIf found.tickleMe)).goto w (.dispatch ft)
  | none => (s.setTodo (.inl w) (tickleIf found.tickleMe)).goto w .empty

/-- `run` looks at what it took: it enters a fibre, or makes one for a callback, or has
nothing to do for a fibre that ended. -/
def dispatch (s : Sys n m) (w : Fin n) : Job → Option (Sys n m)
  | .fibre f =>
      if s.state f ≠ .term ∧ s.state f ≠ .except then
        some (s.goto w (.entering f false))
      else
        some (s.goto w .dropped)
  | .cb _ =>
      match (s.worker w).cbFibre with
      | some f =>
          -- `Fibre::reset` asserts that the fibre ended or never ran
          if s.state f = .term ∨ s.state f = .except ∨ s.state f = .init then
            some ((s.setState f .init).goto w (.entering f true))
          else
            none
      | none =>
          some (({ s with made := s.made + 1 }.setState s.made .init).setWorker w
            { s.worker w with pc := .entering s.made true, cbFibre := some s.made })

/-- `Fibre::swapIn`. -/
def swapIn (s : Sys n m) (w : Fin n) (f : Nat) (viaCb : Bool) : Option (Sys n m) :=
  if s.state f = .exec then none
  else some ((s.setState f .exec).goto w (.running f viaCb))

/-- The worker gives up its `cb_fibre`. -/
def dropCb (s : Sys n m) (w : Fin n) (viaCb : Bool) : Sys n m :=
  if viaCb then s.setWorker w { s.worker w with cbFibre := none } else s

/-- What `run` does with a fibre that was swapped out. -/
def checkState (s : Sys n m) (w : Fin n) (f : Nat) (viaCb : Bool) : Sys n m :=
  if s.state f = .ready then
    (s.dropCb w viaCb).goto w (.requeue f)
  else if s.state f = .term ∨ s.state f = .except then
    (if viaCb then s.setState f .init else s).goto w .scan
  else
    ((s.setState f .hold).dropCb w viaCb).goto w .scan

/-- One read of `IOManager::stopping` passes. -/
def passes (s : Sys n m) : Read → Bool
  | .timers => s.timers.isEmpty
  | .pending => s.pendingEventCount = 0
  | .locked => s.autoStop && s.stopping && s.fibres.isEmpty && s.activeThreadCount = 0

/-- What `stop` owes once it has looked at a manager without threads. -/
def stopTodo (n : Nat) : List Micro :=
  .setStopping :: List.replicate n (.checkIdle false)

/-- One read of `IOManager::stopping`, and what follows its result. -/
def testStopping (s : Sys n m) (w : Fin n) (site : Site) (read : Read) : Sys n m :=
  if s.passes read then
    match read with
    | .timers => s.goto w (.test site .pending)
    | .pending => s.goto w (.test site .locked)
    | .locked =>
        match site with
        | .idle => s.setWorker w { s.worker w with pc := .idleOut, idleTerm := true }
        | .early => s.goto w .returned
        | .stop => s.goto w .returned
  else
    match site with
    | .idle => s.goto w .blocking
    | .early => (s.setTodo (.inl w) (stopTodo n)).goto w (.test .stop .timers)
    | .stop => s.goto w .scan

/-- The steps of a worker that nobody else has a choice in. -/
def next (s : Sys n m) (w : Fin n) : Option (Sys n m) :=
  match (s.worker w).pc with
  | .scan => some (s.dequeue w)
  | .dispatch ft => s.dispatch w ft
  | .entering f viaCb => s.swapIn w f viaCb
  | .leaving f viaCb => some (s.goto w (.swapped f viaCb))
  | .swapped f viaCb =>
      some ({ s with activeThreadCount := s.activeThreadCount - 1 }.goto w (.check f viaCb))
  | .check f viaCb => some (s.checkState w f viaCb)
  | .requeue f => some ((s.schedule (.inl w) (some (.fibre f)) none []).goto w .scan)
  | .dropped =>
      some ({ s with activeThreadCount := s.activeThreadCount - 1 }.goto w .scan)
  | .empty =>
      if (s.worker w).idleTerm then
        some (s.goto w .returned)
      else
        some ({ s with idleThreadCount := s.idleThreadCount + 1 }.goto w (.test .idle .timers))
  | .test site read => some (s.testStopping w site read)
  | .blocking => some (s.goto w .blocked)
  | .expired cbs =>
      some ((s.scheduleMany (.inl w) (cbs.map fun c => some (.cb c))).goto w .delivering)
  | .delivering => some (s.goto w .idleOut)
  | .idleOut =>
      some ({ s with idleThreadCount := s.idleThreadCount - 1 }.goto w .scan)
  | .caller | .running .. | .blocked | .woken | .returned => none

/-- A thread does what it owes. -/
def micro (s : Sys n m) (th : Thread n m) : Option (Sys n m) :=
  match s.todo th with
  | [] => none
  | .checkIdle forTask :: rest =>
      if s.idleThreadCount > 0 then some (s.setTodo th (.writePipe forTask :: rest))
      else some (s.setTodo th rest)
  | .writePipe _ :: rest => some ({ s with pipe := s.pipe + 1 }.setTodo th rest)
  | .decPending :: rest =>
      some ({ s with pendingEventCount := s.pendingEventCount - 1 }.setTodo th rest)
  | .setStopping :: rest => some ({ s with stopping := true }.setTodo th rest)

/-- Code on thread `th` asks something of the manager; `self` is the fibre it runs on. -/
def perform (s : Sys n m) (th : Thread n m) (self : Option Nat) : Op → Option (Sys n m)
  | .schedule task thread =>
      if ∀ t ∈ task, t.Made s.made then some (s.schedule th task thread []) else none
  | .scheduleAll tasks =>
      if ∀ task ∈ tasks, ∀ t ∈ task, t.Made s.made then some (s.scheduleMany th tasks)
      else none
  | .newFibre => some ({ s with made := s.made + 1 }.setState s.made .init)
  | .addTimer timer atFront =>
      some ({ s with timers := timer :: s.timers }.setTodo th
        (if atFront then [.checkIdle false] else []))
  | .cancelTimer timer =>
      if timer ∈ s.timers then some { s with timers := s.timers.erase timer } else none
  | .resetTimer timer atFront =>
      if timer ∈ s.timers then
        some (s.setTodo th (if atFront then [.checkIdle false] else []))
      else none
  | .addEvent cb =>
      -- `triggerEvent` needs the scheduler of the thread that registers
      match th, cb, self with
      | .inl _, some c, _ =>
          some { s with
            events := s.events ++ [.cb c]
            pendingEventCount := s.pendingEventCount + 1 }
      | .inl _, none, some f =>
          if s.state f = .exec then
            some { s with
              events := s.events ++ [.fibre f]
              pendingEventCount := s.pendingEventCount + 1 }
          else none
      | _, _, _ => none
  | .delEvent i =>
      if i < s.events.length then
        some { s with
          events := s.events.eraseIdx i
          pendingEventCount := s.pendingEventCount - 1 }
      else none
  | .cancelEvent i =>
      match s.events[i]? with
      | some t =>
          some ({ s with events := s.events.eraseIdx i }.schedule th (some t) none [.decPending])
      | none => none

/-- Some worker is the thread that made the manager and has not yet called `stop`. -/
def HasCaller (s : Sys n m) : Prop :=
  ∃ w, (s.worker w).pc = .caller

instance (s : Sys n m) : Decidable s.HasCaller :=
  inferInstanceAs (Decidable (∃ w, (s.worker w).pc = .caller))

/-- `Scheduler::stop`, up to what it owes. -/
def stop (s : Sys n m) : Thread n m → Option (Sys n m)
  | .inl w =>
      if (s.worker w).pc = .caller then
        if n = 1 then
          some (({ s with autoStop := true }.setTodo (.inl w) [.setStopping]).goto w
            (.test .early .timers))
        else
          some (({ s with autoStop := true }.setTodo (.inl w) (stopTodo n)).goto w
            (.test .stop .timers))
      else none
  | .inr j =>
      if s.HasCaller then none
      else some ({ s with autoStop := true }.setTodo (.inr j) (stopTodo n))

def step (s : Sys n m) : Label n m → Option (Sys n m)
  | .micro th => s.micro th
  | .next w => if s.todo (.inl w) = [] then s.next w else none
  | .user w op =>
      if s.todo (.inl w) = [] then
        match (s.worker w).pc with
        | .running f _ => s.perform (.inl w) (some f) op
        | .caller => s.perform (.inl w) none op
        | _ => none
      else none
  | .external j op =>
      if s.todo (.inr j) = [] then s.perform (.inr j) none op else none
  | .write w st =>
      if s.todo (.inl w) = [] then
        match (s.worker w).pc, st with
        | .running f viaCb, .hold | .running f viaCb, .ready =>
            if s.state f = .exec then
              some ((s.setState f st).goto w (.leaving f viaCb))
            else none
        | .running f viaCb, .term | .running f viaCb, .except =>
            some ((s.setState f st).goto w (.leaving f viaCb))
        | _, _ => none
      else none
  | .wake w => if (s.worker w).pc = .blocked then some (s.goto w .woken) else none
  | .listExpired w due =>
      if (s.worker w).pc = .woken ∧ due.Subperm s.timers then
        some ({ s with
            timers := due.filter PendingTimer.recurring ++ s.timers.diff due }.goto w
              (.expired (due.map PendingTimer.cb)))
      else none
  | .readPipe w =>
      if s.todo (.inl w) = [] ∧ (s.worker w).pc = .delivering then some { s with pipe := 0 }
      else none
  | .deliver w i =>
      if s.todo (.inl w) = [] ∧ (s.worker w).pc = .delivering then
        match s.events[i]? with
        | some t =>
            some ({ s with events := s.events.eraseIdx i }.schedule (.inl w) (some t) none
              [.decPending])
        | none => none
      else none
  | .stop th => if s.todo th = [] ∧ s.autoStop = false then s.stop th else none

/-- A manager that was started; with `useCaller` its first worker is the thread that
made it, which joins the work in `stop`. -/
def start (n m : Nat) (useCaller : Bool) : Sys n m where
  worker := fun w =>
    { pc := if useCaller ∧ w.val = 0 then .caller else .scan
      cbFibre := none
      idleTerm := false }
  todo := fun _ => []
  state := fun _ => .init
  made := 0
  fibres := []
  activeThreadCount := 0
  idleThreadCount := 0
  autoStop := false
  stopping := false
  timers := []
  events := []
  pendingEventCount := 0
  pipe := 0

/-- The runs of a manager with at least one worker. -/
def system (n m : Nat) : System (Sys n m) (Label n m) where
  init := fun s => 0 < n ∧ ∃ useCaller, s = start n m useCaller
  step := step

end Sys
end Concurrency
end Hpgs
