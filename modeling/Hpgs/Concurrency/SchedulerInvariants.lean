import Hpgs.Concurrency.SchedulerSteps
import Hpgs.Library.Counting

/-!
# Invariants of the scheduler

Two invariants that no step of the scheduler breaks, whatever the tasks do.  The counters
are right: the active count is the number of workers between taking a task and giving it
up, the idle count is the number of workers in `idle`, and the pending count is the
number of registered events together with the decrements that some thread still owes.
And workers, queue and events speak only of fibres that were made.

**Results.**
* `Counted.step`, `counted_of_reachable`: the counters are right.
* `Known.step`: every pointer is to a fibre that was made.
-/

namespace Hpgs
namespace Concurrency

open Transition

/-! ## The counters -/

/-- The worker counts as active: it took a task and has not given it up. -/
def Pc.active : Pc → Nat
  | .dispatch _ | .entering .. | .running .. | .leaving .. | .swapped .. | .dropped => 1
  | _ => 0

/-- The worker counts as idle. -/
def Pc.idle : Pc → Nat
  | .test .idle _ | .blocking | .blocked | .woken | .expired _ | .delivering | .idleOut => 1
  | _ => 0

/-- How many decrements of the pending count are owed. -/
def owedDecs (todo : List Micro) : Nat := todo.count .decPending

namespace Sys

variable {n m : Nat}

/-- The counters agree with what the workers and the other threads are doing. -/
structure Counted (s : Sys n m) : Prop where
  active : s.activeThreadCount = ∑ w, (s.worker w).pc.active
  idle : s.idleThreadCount = ∑ w, (s.worker w).pc.idle
  pending : s.pendingEventCount = s.events.length + ∑ th, owedDecs (s.todo th)

@[simp] theorem owedDecs_nil : owedDecs [] = 0 := rfl

@[simp] theorem owedDecs_tickleIf (need : Bool) (rest : List Micro) :
    owedDecs (tickleIf need ++ rest) = owedDecs rest := by
  cases need <;> simp [tickleIf, owedDecs]

@[simp] theorem owedDecs_tickleIf' (need : Bool) : owedDecs (tickleIf need) = 0 := by
  cases need <;> simp [tickleIf, owedDecs]

@[simp] theorem owedDecs_stopTodo (k : Nat) : owedDecs (stopTodo k) = 0 := by
  simp [stopTodo, owedDecs, List.count_replicate]

namespace Counted

variable {s t : Sys n m}

/-- Only one worker and what one thread owes change; the counters follow. -/
theorem update (h : s.Counted) (w : Fin n) (wk : Worker) (th : Thread n m)
    (todo : List Micro)
    (hworker : t.worker = Function.update s.worker w wk)
    (htodo : t.todo = Function.update s.todo th todo)
    (hactive : t.activeThreadCount + (s.worker w).pc.active =
      s.activeThreadCount + wk.pc.active)
    (hidle : t.idleThreadCount + (s.worker w).pc.idle = s.idleThreadCount + wk.pc.idle)
    (hpending : t.pendingEventCount + s.events.length + owedDecs (s.todo th) =
      s.pendingEventCount + t.events.length + owedDecs todo) :
    t.Counted := by
  have ha := Counting.sum_update Finset.univ (fun x : Worker => x.pc.active) s.worker
    (Finset.mem_univ w) wk
  have hi := Counting.sum_update Finset.univ (fun x : Worker => x.pc.idle) s.worker
    (Finset.mem_univ w) wk
  have hp := Counting.sum_update Finset.univ owedDecs s.todo (Finset.mem_univ th) todo
  have h1 := h.active
  have h2 := h.idle
  have h3 := h.pending
  constructor
  · rw [hworker]
    omega
  · rw [hworker]
    omega
  · rw [htodo]
    omega

/-- Only a worker changes. -/
theorem worker (h : s.Counted) (w : Fin n) (wk : Worker)
    (hworker : t.worker = Function.update s.worker w wk)
    (htodo : t.todo = s.todo)
    (hactive : t.activeThreadCount + (s.worker w).pc.active =
      s.activeThreadCount + wk.pc.active)
    (hidle : t.idleThreadCount + (s.worker w).pc.idle = s.idleThreadCount + wk.pc.idle)
    (hpending : t.pendingEventCount + s.events.length =
      s.pendingEventCount + t.events.length) :
    t.Counted := by
  refine h.update w wk (.inl w) (s.todo (.inl w)) hworker ?_ hactive hidle ?_
  · rw [htodo, Function.update_eq_self]
  · omega

/-- No worker changes. -/
theorem thread (h : s.Counted) (th : Thread n m) (todo : List Micro)
    (hworker : t.worker = s.worker)
    (htodo : t.todo = Function.update s.todo th todo)
    (hactive : t.activeThreadCount = s.activeThreadCount)
    (hidle : t.idleThreadCount = s.idleThreadCount)
    (hpending : t.pendingEventCount + s.events.length + owedDecs (s.todo th) =
      s.pendingEventCount + t.events.length + owedDecs todo) :
    t.Counted := by
  have hp := Counting.sum_update Finset.univ owedDecs s.todo (Finset.mem_univ th) todo
  have h3 := h.pending
  constructor
  · rw [hworker, hactive]
    exact h.active
  · rw [hworker, hidle]
    exact h.idle
  · rw [htodo]
    omega

theorem le_active (h : s.Counted) (w : Fin n) :
    (s.worker w).pc.active ≤ s.activeThreadCount := by
  rw [h.active]
  exact Counting.le_sum Finset.univ (fun x : Worker => x.pc.active) s.worker
    (Finset.mem_univ w)

theorem le_idle (h : s.Counted) (w : Fin n) :
    (s.worker w).pc.idle ≤ s.idleThreadCount := by
  rw [h.idle]
  exact Counting.le_sum Finset.univ (fun x : Worker => x.pc.idle) s.worker (Finset.mem_univ w)

theorem le_pending (h : s.Counted) (th : Thread n m) :
    s.events.length + owedDecs (s.todo th) ≤ s.pendingEventCount := by
  rw [h.pending]
  exact Nat.add_le_add_left
    (Counting.le_sum Finset.univ owedDecs s.todo (Finset.mem_univ th)) _

theorem goes (h : s.Counted) {w : Fin n} {pc pc' : Pc} (hpc : (s.worker w).pc = pc)
    (hgoes : s.Goes (s.worker w) pc pc') :
    (s.goto w pc').Counted := by
  refine h.worker w { s.worker w with pc := pc' } rfl rfl ?_ ?_ rfl
  · rw [hpc]
    cases hgoes <;> rfl
  · rw [hpc]
    cases hgoes with
    | @timers site _ => cases site <;> rfl
    | @pending site _ => cases site <;> rfl
    | _ => rfl

theorem perform (h : s.Counted) {th : Thread n m} {self : Option Nat} {op : Op}
    (htodo : s.todo th = []) (hop : s.Performs th self op t) :
    t.Counted := by
  cases hop with
  | schedule _ => exact h.thread th _ rfl rfl rfl rfl (by simp [htodo])
  | scheduleAll _ => exact h.thread th _ rfl rfl rfl rfl (by simp [htodo])
  | newFibre => exact ⟨h.active, h.idle, h.pending⟩
  | @addTimer timer atFront =>
      exact h.thread th _ rfl rfl rfl rfl (by cases atFront <;> simp [htodo, owedDecs])
  | cancelTimer _ => exact ⟨h.active, h.idle, h.pending⟩
  | @resetTimer timer atFront hmem =>
      exact h.thread th _ rfl rfl rfl rfl (by cases atFront <;> simp [htodo, owedDecs])
  | addEvent _ _ =>
      refine h.thread th (s.todo th) rfl (by simp) rfl rfl ?_
      simp only [List.length_append, List.length_singleton]
      omega
  | delEvent hi =>
      refine h.thread th (s.todo th) rfl (by simp) rfl rfl ?_
      have hle := h.le_pending th
      simp only [List.length_eraseIdx_of_lt hi]
      omega
  | cancelEvent hi =>
      refine h.thread th _ rfl rfl rfl rfl ?_
      obtain ⟨hlt, _⟩ := List.getElem?_eq_some_iff.mp hi
      simp only [schedule, setTodo, List.length_eraseIdx_of_lt hlt, owedDecs_tickleIf, htodo,
        owedDecs_nil]
      simp only [owedDecs, List.count_singleton_self]
      omega

/-- **Step lemma.**  Every step keeps the counters right. -/
theorem step (h : s.Counted) {a : Label n m} (hst : s.step a = some t) :
    t.Counted := by
  cases step_cases hst with
  | goes htodo hpc hgoes => exact h.goes hpc hgoes
  | @take w ft htodo hpc hft =>
      exact h.update w _ (.inl w) _ rfl rfl (by simp [hpc, Pc.active])
        (by simp [hpc, Pc.idle]) (by simp [htodo])
  | @miss w htodo hpc hft =>
      exact h.update w _ (.inl w) _ rfl rfl (by simp [hpc, Pc.active])
        (by simp [hpc, Pc.idle]) (by simp [htodo])
  | @reuse w c f htodo hpc hcb hstate =>
      exact h.worker w _ rfl rfl (by simp [hpc, Pc.active]) (by simp [hpc, Pc.idle]) rfl
  | @create w c htodo hpc hcb =>
      exact h.worker w _ rfl rfl (by simp [hpc, Pc.active]) (by simp [hpc, Pc.idle]) rfl
  | @swapIn w f viaCb htodo hpc hstate =>
      exact h.worker w _ rfl rfl (by simp [hpc, Pc.active]) (by simp [hpc, Pc.idle]) rfl
  | @giveUp w f viaCb htodo hpc =>
      have hle := h.le_active w
      rw [hpc] at hle
      simp only [Pc.active] at hle
      refine h.worker w _ rfl rfl ?_ (by simp [hpc, Pc.idle]) rfl
      simp only [hpc, Pc.active, goto, setWorker]
      omega
  | @dropped w htodo hpc =>
      have hle := h.le_active w
      rw [hpc] at hle
      simp only [Pc.active] at hle
      refine h.worker w _ rfl rfl ?_ (by simp [hpc, Pc.idle]) rfl
      simp only [hpc, Pc.active, goto, setWorker]
      omega
  | @ready w f viaCb htodo hpc hstate =>
      rw [dropCb_goto]
      exact h.worker w _ rfl rfl (by simp [hpc, Pc.active]) (by simp [hpc, Pc.idle]) rfl
  | @finished w f viaCb htodo hpc hstate =>
      cases viaCb <;>
        exact h.worker w _ rfl rfl (by simp [hpc, Pc.active]) (by simp [hpc, Pc.idle]) rfl
  | @hold w f viaCb htodo hpc hstate =>
      rw [dropCb_goto]
      exact h.worker w _ rfl rfl (by simp [hpc, Pc.active]) (by simp [hpc, Pc.idle]) rfl
  | @requeue w f htodo hpc =>
      exact h.update w _ (.inl w) _ rfl rfl (by simp [hpc, Pc.active])
        (by simp [hpc, Pc.idle]) (by simp [htodo])
  | @enterIdle w htodo hpc hterm =>
      exact h.worker w _ rfl rfl (by simp [hpc, Pc.active]) (by simp [hpc, Pc.idle]) rfl
  | @endIdle w htodo hpc hread =>
      exact h.worker w _ rfl rfl (by simp [hpc, Pc.active]) (by simp [hpc, Pc.idle]) rfl
  | @goOn w read htodo hpc hread =>
      exact h.update w _ (.inl w) _ rfl rfl (by simp [hpc, Pc.active])
        (by simp [hpc, Pc.idle]) (by simp [htodo])
  | @pushExpired w cbs htodo hpc =>
      exact h.update w _ (.inl w) _ rfl rfl (by simp [hpc, Pc.active])
        (by simp [hpc, Pc.idle]) (by simp [htodo])
  | @leaveIdle w htodo hpc =>
      have hle := h.le_idle w
      rw [hpc] at hle
      simp only [Pc.idle] at hle
      refine h.worker w _ rfl rfl (by simp [hpc, Pc.active]) ?_ rfl
      simp only [hpc, Pc.idle, goto, setWorker]
      omega
  | @seeIdle th forTask rest htodo hidle =>
      exact h.thread th _ rfl rfl rfl rfl (by simp [htodo, owedDecs])
  | @seeBusy th forTask rest htodo hidle =>
      exact h.thread th _ rfl rfl rfl rfl (by simp [htodo, owedDecs])
  | @writePipe th forTask rest htodo =>
      exact h.thread th _ rfl rfl rfl rfl (by simp [htodo, owedDecs])
  | @decPending th rest htodo =>
      have hle := h.le_pending th
      refine h.thread th _ rfl rfl rfl rfl ?_
      simp only [htodo, owedDecs, List.count_cons_self, setTodo] at hle ⊢
      omega
  | @setStopping th rest htodo =>
      exact h.thread th _ rfl rfl rfl rfl (by simp [htodo, owedDecs])
  | user htodo hpc hop => exact h.perform htodo hop
  | external htodo hop => exact h.perform htodo hop
  | @write w f viaCb st htodo hpc hst =>
      exact h.worker w _ rfl rfl (by simp [hpc, Pc.active]) (by simp [hpc, Pc.idle]) rfl
  | @wake w hpc =>
      exact h.worker w _ rfl rfl (by simp [hpc, Pc.active]) (by simp [hpc, Pc.idle]) rfl
  | @listExpired w due hpc hdue =>
      exact h.worker w _ rfl rfl (by simp [hpc, Pc.active]) (by simp [hpc, Pc.idle]) rfl
  | readPipe htodo hpc => exact ⟨h.active, h.idle, h.pending⟩
  | @deliver w i x htodo hpc hi =>
      refine h.thread (.inl w) _ rfl rfl rfl rfl ?_
      obtain ⟨hlt, _⟩ := List.getElem?_eq_some_iff.mp hi
      simp only [schedule, setTodo, List.length_eraseIdx_of_lt hlt, owedDecs_tickleIf, htodo,
        owedDecs_nil]
      simp only [owedDecs, List.count_singleton_self]
      omega
  | @stopEarly w htodo hpc =>
      exact h.update w _ (.inl w) _ rfl rfl (by simp [hpc, Pc.active])
        (by simp [hpc, Pc.idle]) (by simp [htodo, owedDecs])
  | @stopCaller w htodo hpc =>
      exact h.update w _ (.inl w) _ rfl rfl (by simp [hpc, Pc.active])
        (by simp [hpc, Pc.idle]) (by simp [htodo])
  | @stopOther j htodo hcaller =>
      exact h.thread (.inr j) _ rfl rfl rfl rfl (by simp [htodo])

theorem start (useCaller : Bool) : (Sys.start n m useCaller).Counted where
  active := by
    symm
    refine Finset.sum_eq_zero fun w _ => ?_
    simp only [Sys.start]
    split <;> rfl
  idle := by
    symm
    refine Finset.sum_eq_zero fun w _ => ?_
    simp only [Sys.start]
    split <;> rfl
  pending := by
    simp [Sys.start]

end Counted

/-- **The counters.**  In every reachable state they agree with the workers. -/
theorem counted_of_reachable {cond : Sys n m → Label n m → Prop} {s : Sys n m}
    (h : (system n m).Reachable cond s) :
    s.Counted := by
  refine h.invariant Counted ?_ (fun s a t hs _ hst => hs.step hst)
  rintro s ⟨_, useCaller, rfl⟩
  exact Counted.start useCaller

end Sys

/-! ## The fibres that the manager knows -/

/-- The worker took the fibre and has not looked at its state after `swapIn` returned. -/
def Pc.InHand (f : Nat) : Pc → Prop
  | .dispatch ft => ft = .fibre f
  | .entering g _ | .running g _ | .leaving g _ | .swapped g _ | .check g _ => g = f
  | _ => False

instance (f : Nat) (pc : Pc) : Decidable (pc.InHand f) :=
  match pc with
  | .dispatch ft => inferInstanceAs (Decidable (ft = .fibre f))
  | .entering g _ | .running g _ | .leaving g _ | .swapped g _ | .check g _ =>
      inferInstanceAs (Decidable (g = f))
  | .caller | .scan | .requeue _ | .dropped | .empty | .test _ _ | .blocking | .blocked
  | .woken | .expired _ | .delivering | .idleOut | .returned => isFalse id

/-- The worker has a pointer to the fibre. -/
def Worker.Refers (wk : Worker) (f : Nat) : Prop :=
  wk.pc.InHand f ∨ wk.pc = .requeue f ∨ wk.cbFibre = some f

theorem Task.Made.mono {k l : Nat} (h : k ≤ l) {x : Job} (hx : x.Made k) : x.Made l := by
  cases x with
  | fibre f => exact Nat.lt_of_lt_of_le hx h
  | cb c => trivial

namespace Sys

variable {n m : Nat}

/-- Workers, queue and events speak of fibres that were made; the others are `INIT`. -/
structure Known (s : Sys n m) : Prop where
  worker : ∀ w f, (s.worker w).Refers f → f < s.made
  queue : ∀ it ∈ s.fibres, it.task.Made s.made
  events : ∀ x ∈ s.events, x.Made s.made
  fresh : ∀ f, s.made ≤ f → s.state f = .init

namespace Known

variable {s t : Sys n m}

theorem inHand (h : s.Known) {w : Fin n} {f : Nat} (hin : (s.worker w).pc.InHand f) :
    f < s.made :=
  h.worker w f (Or.inl hin)

/-- One worker changes to `wk`. -/
theorem update (h : s.Known) (w : Fin n) (wk : Worker)
    (hworker : t.worker = Function.update s.worker w wk)
    (hmade : s.made ≤ t.made)
    (hrefers : ∀ f, wk.Refers f → f < t.made)
    (hqueue : ∀ it ∈ t.fibres, it.task.Made t.made)
    (hevents : ∀ x ∈ t.events, x.Made t.made)
    (hstate : ∀ f, t.made ≤ f → t.state f = s.state f) :
    t.Known where
  worker := by
    intro v f href
    rw [hworker] at href
    by_cases hv : v = w
    · subst hv
      rw [Function.update_self] at href
      exact hrefers f href
    · rw [Function.update_of_ne hv] at href
      exact Nat.lt_of_lt_of_le (h.worker v f href) hmade
  queue := hqueue
  events := hevents
  fresh := fun f hf => (hstate f hf).trans (h.fresh f (Nat.le_trans hmade hf))

/-- The worker goes on, with no pointer that it did not have. -/
theorem advance (h : s.Known) (w : Fin n) (wk : Worker)
    (hworker : t.worker = Function.update s.worker w wk)
    (hcb : wk.cbFibre = none ∨ wk.cbFibre = (s.worker w).cbFibre)
    (hhand : ∀ f, wk.pc.InHand f ∨ wk.pc = .requeue f → (s.worker w).Refers f)
    (hmade : t.made = s.made)
    (hqueue : ∀ it ∈ t.fibres, it.task.Made s.made)
    (hevents : t.events = s.events)
    (hstate : ∀ f, t.state f = s.state f ∨ (s.worker w).Refers f) :
    t.Known := by
  refine h.update w wk hworker hmade.ge ?_ (hmade ▸ hqueue) ?_ ?_
  · intro f href
    rw [hmade]
    refine h.worker w f ?_
    rcases href with hin | hpc | hf
    · exact hhand f (Or.inl hin)
    · exact hhand f (Or.inr hpc)
    · rcases hcb with hcb | hcb
      · rw [hcb] at hf
        cases hf
      · exact Or.inr (Or.inr (hcb ▸ hf))
  · rw [hevents, hmade]
    exact h.events
  · intro f hf
    rcases hstate f with heq | href
    · exact heq
    · have hlt := h.worker w f href
      rw [hmade] at hf
      omega

/-- No worker changes. -/
theorem thread (h : s.Known)
    (hworker : t.worker = s.worker)
    (hmade : t.made = s.made)
    (hstate : t.state = s.state)
    (hqueue : ∀ it ∈ t.fibres, it.task.Made s.made)
    (hevents : ∀ x ∈ t.events, x.Made s.made) :
    t.Known where
  worker := by
    rw [hworker, hmade]
    exact h.worker
  queue := hmade ▸ hqueue
  events := hmade ▸ hevents
  fresh := by
    rw [hmade, hstate]
    exact h.fresh

theorem schedule_made (h : s.Known) (th : Thread n m) {task : Option Job}
    (htask : ∀ x ∈ task, x.Made s.made) (thread : Option Nat) (rest : List Micro) :
    ∀ it ∈ (s.schedule th task thread rest).fibres, it.task.Made s.made := by
  intro it hit
  simp only [schedule, scheduleNoLock, setTodo, List.mem_append, List.mem_map,
    Option.mem_toList] at hit
  rcases hit with hit | ⟨x, hx, rfl⟩
  · exact h.queue it hit
  · exact htask x hx

theorem scheduleMany_made (h : s.Known) (th : Thread n m) {tasks : List (Option Job)}
    (htasks : ∀ task ∈ tasks, ∀ x ∈ task, x.Made s.made) :
    ∀ it ∈ (s.scheduleMany th tasks).fibres, it.task.Made s.made := by
  intro it hit
  simp only [scheduleMany, setTodo, (scheduleAll_eq tasks s.fibres).1, List.mem_append,
    List.mem_map, List.reduceOption_mem_iff] at hit
  rcases hit with hit | ⟨x, hx, rfl⟩
  · exact h.queue it hit
  · exact htasks (some x) hx x rfl

/-- Making a fibre changes no state. -/
theorem setState_made (h : s.Known) : (s.setState s.made .init).state = s.state := by
  rw [setState, ← h.fresh s.made le_rfl, Function.update_eq_self]

theorem newFibre (h : s.Known) :
    ({ s with made := s.made + 1 }.setState s.made .init).Known where
  worker := fun w f href => Nat.lt_succ_of_lt (h.worker w f href)
  queue := fun it hit => (h.queue it hit).mono (Nat.le_succ _)
  events := fun x hx => (h.events x hx).mono (Nat.le_succ _)
  fresh := by
    intro f hf
    have hsame : ({ s with made := s.made + 1 }.setState s.made .init).state = s.state :=
      h.setState_made
    rw [hsame]
    exact h.fresh f (Nat.le_of_succ_le hf)

theorem perform (h : s.Known) {th : Thread n m} {self : Option Nat} {op : Op}
    (hself : ∀ f ∈ self, f < s.made) (hop : s.Performs th self op t) :
    t.Known := by
  cases hop with
  | schedule hmade => exact h.thread rfl rfl rfl (h.schedule_made th hmade _ _) h.events
  | scheduleAll hmade => exact h.thread rfl rfl rfl (h.scheduleMany_made th hmade) h.events
  | newFibre => exact h.newFibre
  | addTimer => exact h.thread rfl rfl rfl h.queue h.events
  | cancelTimer _ => exact h.thread rfl rfl rfl h.queue h.events
  | resetTimer _ => exact h.thread rfl rfl rfl h.queue h.events
  | @addEvent cb x w hth hfib =>
      refine h.thread rfl rfl rfl h.queue ?_
      intro y hy
      rcases List.mem_append.mp hy with hy | hy
      · exact h.events y hy
      · obtain rfl := List.mem_singleton.mp hy
        cases y with
        | fibre f => exact hself f (hfib f rfl)
        | cb c => trivial
  | delEvent hi =>
      exact h.thread rfl rfl rfl h.queue
        (fun x hx => h.events x (List.mem_of_mem_eraseIdx hx))
  | cancelEvent hi =>
      refine h.thread rfl rfl rfl ?_ (fun x hx => h.events x (List.mem_of_mem_eraseIdx hx))
      intro it hit
      refine h.schedule_made th ?_ none [.decPending] it hit
      rintro x ⟨⟩
      exact h.events _ (List.mem_of_getElem? hi)

theorem goes (h : s.Known) {w : Fin n} {pc pc' : Pc} (hpc : (s.worker w).pc = pc)
    (hgoes : s.Goes (s.worker w) pc pc') :
    (s.goto w pc').Known := by
  refine h.advance w { s.worker w with pc := pc' } rfl (Or.inr rfl) ?_ rfl h.queue rfl
    (fun _ => Or.inl rfl)
  intro f hf
  cases hgoes with
  | enter _ | swapOut =>
      rcases hf with rfl | hf
      · exact Or.inl (by rw [hpc]; rfl)
      · cases hf
  | _ => rcases hf with hf | hf <;> cases hf

/-- The worker writes the state of a fibre that it points to, and goes on. -/
theorem writes (h : s.Known) {w : Fin n} {f : Nat} {st : State} {wk : Worker}
    (href : (s.worker w).Refers f)
    (hcb : wk.cbFibre = none ∨ wk.cbFibre = (s.worker w).cbFibre)
    (hhand : ∀ g, wk.pc.InHand g ∨ wk.pc = .requeue g → g = f) :
    ((s.setState f st).setWorker w wk).Known := by
  refine h.advance w wk rfl hcb ?_ rfl h.queue rfl ?_
  · intro g hg
    exact (hhand g hg).symm ▸ href
  · intro g
    by_cases hgf : g = f
    · exact Or.inr (hgf ▸ href)
    · exact Or.inl (by simp [Function.update_of_ne hgf])

/-- **Step lemma.** -/
theorem step (h : s.Known) {a : Label n m} (hst : s.step a = some t) :
    t.Known := by
  cases step_cases hst with
  | goes htodo hpc hgoes => exact h.goes hpc hgoes
  | @take w ft htodo hpc hft =>
      obtain ⟨pre, it, post, hq, hleft, hit, _, _, _⟩ := scanQueue_found hft
      have hmade : ft.Made s.made := by
        rw [← hit]
        exact h.queue it (by rw [hq]; simp)
      refine h.update w { s.worker w with pc := .dispatch ft } rfl le_rfl ?_ ?_ h.events
        (fun _ _ => rfl)
      · rintro f (rfl | hf | hf)
        · exact hmade
        · cases hf
        · exact h.worker w f (Or.inr (Or.inr hf))
      · intro x hx
        refine h.queue x ?_
        simp only [goto, setWorker, setTodo, hleft] at hx
        rw [hq]
        rcases List.mem_append.mp hx with hx | hx
        · exact List.mem_append_left _ hx
        · exact List.mem_append_right _ (List.mem_cons_of_mem _ hx)
  | @miss w htodo hpc hft =>
      exact h.advance w _ rfl (Or.inr rfl) (by rintro f (hf | hf) <;> cases hf) rfl h.queue
        rfl (fun _ => Or.inl rfl)
  | @reuse w c f htodo hpc hcb hstate =>
      exact h.writes (Or.inr (Or.inr hcb)) (Or.inr rfl)
        (by rintro g (rfl | hg) <;> first | rfl | cases hg)
  | @create w c htodo hpc hcb =>
      have hnew := h.newFibre
      refine hnew.update w
        { s.worker w with pc := .entering s.made true, cbFibre := some s.made } rfl le_rfl ?_
        hnew.queue hnew.events (fun _ _ => rfl)
      rintro f (rfl | hf | hf)
      · exact Nat.lt_succ_self _
      · cases hf
      · cases hf
        exact Nat.lt_succ_self _
  | @swapIn w f viaCb htodo hpc hstate =>
      exact h.writes (Or.inl (by rw [hpc]; rfl)) (Or.inr rfl)
        (by rintro g (rfl | hg) <;> first | rfl | cases hg)
  | @giveUp w f viaCb htodo hpc =>
      refine h.advance w { s.worker w with pc := .check f viaCb } rfl (Or.inr rfl) ?_ rfl
        h.queue rfl (fun _ => Or.inl rfl)
      rintro g (rfl | hg)
      · exact Or.inl (by rw [hpc]; rfl)
      · cases hg
  | @ready w f viaCb htodo hpc hstate =>
      rw [dropCb_goto]
      refine h.advance w _ rfl ?_ ?_ rfl h.queue rfl (fun _ => Or.inl rfl)
      · cases viaCb
        · exact Or.inr rfl
        · exact Or.inl rfl
      · rintro g (hg | hg)
        · cases hg
        · cases hg
          exact Or.inl (by rw [hpc]; rfl)
  | @finished w f viaCb htodo hpc hstate =>
      cases viaCb with
      | false =>
          exact h.advance w _ rfl (Or.inr rfl) (by rintro g (hg | hg) <;> cases hg) rfl
            h.queue rfl (fun _ => Or.inl rfl)
      | true =>
          exact h.writes (Or.inl (by rw [hpc]; rfl)) (Or.inr rfl)
            (by rintro g (hg | hg) <;> cases hg)
  | @hold w f viaCb htodo hpc hstate =>
      rw [dropCb_goto]
      refine h.writes (Or.inl (by rw [hpc]; rfl)) ?_ (by rintro g (hg | hg) <;> cases hg)
      cases viaCb
      · exact Or.inr rfl
      · exact Or.inl rfl
  | @requeue w f htodo hpc =>
      refine h.advance w _ rfl (Or.inr rfl) (by rintro g (hg | hg) <;> cases hg) rfl ?_ rfl
        (fun _ => Or.inl rfl)
      refine h.schedule_made (.inl w) ?_ none []
      rintro x ⟨⟩
      exact h.worker w f (Or.inr (Or.inl hpc))
  | @pushExpired w cbs htodo hpc =>
      refine h.advance w _ rfl (Or.inr rfl) (by rintro g (hg | hg) <;> cases hg) rfl ?_ rfl
        (fun _ => Or.inl rfl)
      refine h.scheduleMany_made (.inl w) ?_
      intro task htask x hx
      obtain ⟨c, _, rfl⟩ := List.mem_map.mp htask
      cases hx
      trivial
  | @write w f viaCb st htodo hpc hst =>
      exact h.writes (Or.inl (by rw [hpc]; rfl)) (Or.inr rfl)
        (by rintro g (rfl | hg) <;> first | rfl | cases hg)
  | @user w self op t htodo hpc hop =>
      refine h.perform ?_ hop
      rcases hpc with ⟨f, viaCb, hpc, rfl⟩ | ⟨_, rfl⟩
      · rintro g ⟨⟩
        exact h.inHand (by rw [hpc]; rfl)
      · simp
  | external htodo hop => exact h.perform (by simp) hop
  | @deliver w i x htodo hpc hi =>
      refine h.thread rfl rfl rfl ?_ (fun y hy => h.events y (List.mem_of_mem_eraseIdx hy))
      intro it hit
      refine h.schedule_made (.inl w) ?_ none [.decPending] it hit
      rintro y ⟨⟩
      exact h.events _ (List.mem_of_getElem? hi)
  | dropped _ _ | enterIdle _ _ _ | endIdle _ _ _ | goOn _ _ _ | leaveIdle _ _ | wake _
  | listExpired _ _ | stopEarly _ _ | stopCaller _ _ =>
      exact h.advance _ _ rfl (Or.inr rfl) (by rintro g (hg | hg) <;> cases hg) rfl h.queue
        rfl (fun _ => Or.inl rfl)
  | seeIdle _ _ | seeBusy _ _ | writePipe _ | decPending _ | setStopping _ | readPipe _ _
  | stopOther _ _ => exact h.thread rfl rfl rfl h.queue h.events

theorem start (useCaller : Bool) : (Sys.start n m useCaller).Known where
  worker := by
    intro w f href
    simp only [Sys.start, Worker.Refers] at href
    split at href <;> simp [Pc.InHand] at href
  queue := by simp [Sys.start]
  events := by simp [Sys.start]
  fresh := fun _ _ => rfl

end Known

end Sys
end Concurrency
end Hpgs
