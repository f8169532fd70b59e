import Hpgs.Concurrency.SchedulerInvariants

/-!
# Wake-ups for queued tasks

A push wakes a worker only if the queue was empty, and `tickle` writes to the pipe only
if some worker counts as idle.  A worker counts as idle only some steps after its scan
found nothing.

**Results.**
* `Covered`: what makes it certain that a task on the queue is seen.
* `WakeInv.step`: a runnable task stays covered as long as every push that needs no
  tickle, and every tickle that finds no idle worker, comes in a covered state.
* `no_lost_wakeup`: no worker sleeps while a runnable task is queued and nobody comes.
* `lost_wakeup`: a tickle comes between a worker's scan and its idle count.
-/

namespace Hpgs
namespace Concurrency

open Transition

/-- An unpinned task whose fibre is not executing. -/
def FibreAndThread.Runnable (state : Nat → State) (it : FibreAndThread) : Prop :=
  it.thread = none ∧ it.task.executing state = false

instance (state : Nat → State) (it : FibreAndThread) : Decidable (it.Runnable state) :=
  inferInstanceAs (Decidable (_ ∧ _))

/-- The worker comes to its next scan without help. -/
def Pc.Awake : Pc → Prop
  | .scan | .leaving .. | .swapped .. | .check .. | .requeue _ | .dropped | .woken
  | .expired _ | .delivering | .idleOut => True
  | _ => False

instance (pc : Pc) : Decidable pc.Awake :=
  match pc with
  | .scan | .leaving .. | .swapped .. | .check .. | .requeue _ | .dropped | .woken
  | .expired _ | .delivering | .idleOut => isTrue trivial
  | .caller | .dispatch _ | .entering .. | .running .. | .empty | .test _ _ | .blocking
  | .blocked | .returned => isFalse id

/-- The worker found nothing to do and is on its way to `epoll_wait`, or in it. -/
def Worker.Sleepy (wk : Worker) : Prop :=
  match wk.pc with
  | .empty => wk.idleTerm = false
  | .test .idle _ | .blocking | .blocked => True
  | _ => False

instance (wk : Worker) : Decidable wk.Sleepy := by
  unfold Worker.Sleepy
  split <;> infer_instance

namespace Sys

variable {n m : Nat}

/-- Some task on the queue could be run by any worker. -/
def HasRunnable (s : Sys n m) : Prop :=
  ∃ it ∈ s.fibres, it.Runnable s.state

/-- Some thread is between a push, or a scan, and the end of the `tickle` for it. -/
def OwesTickle (s : Sys n m) : Prop :=
  ∃ th, .checkIdle true ∈ s.todo th ∨ .writePipe true ∈ s.todo th

instance (s : Sys n m) : Decidable s.HasRunnable :=
  inferInstanceAs (Decidable (∃ it ∈ s.fibres, it.Runnable s.state))

instance (s : Sys n m) : Decidable s.OwesTickle :=
  inferInstanceAs
    (Decidable (∃ th, .checkIdle true ∈ s.todo th ∨ .writePipe true ∈ s.todo th))

/-- Outside of the scheduler's own code: a task runs, or the thread is not in its loop. -/
def Elsewhere (s : Sys n m) (w : Fin n) : Prop :=
  match (s.worker w).pc with
  | .running .. | .caller | .returned => True
  | _ => False

/-- A worker is blocked while a runnable task is queued, no byte is in the pipe, nobody
is about to tickle, and every other worker is blocked or elsewhere. -/
structure LostWakeup (s : Sys n m) : Prop where
  blocked : ∃ w, (s.worker w).pc = .blocked
  runnable : s.HasRunnable
  pipe : s.pipe = 0
  nobody : ¬ s.OwesTickle
  others : ∀ w, (s.worker w).pc = .blocked ∨ s.Elsewhere w

/-- What makes it certain that the queue is looked at: a byte in the pipe, a tickle that
is owed, a worker on its way to a scan, or that no worker goes to sleep. -/
def Covered (s : Sys n m) : Prop :=
  0 < s.pipe ∨ s.OwesTickle ∨ (∃ w, (s.worker w).pc.Awake) ∨ ∀ w, ¬ (s.worker w).Sleepy

instance (s : Sys n m) : Decidable s.Covered :=
  inferInstanceAs (Decidable (_ ∨ _ ∨ _ ∨ _))

/-- **The condition.**  A runnable task is pushed on a queue that is not empty, and a
`tickle` for a runnable task finds no idle worker, only where it is certain anyway that
the queue is looked at. -/
def Signalled (s : Sys n m) : Label n m → Prop
  | .user _ op | .external _ op =>
      s.fibres ≠ [] → (∃ it ∈ s.pushes op, it.Runnable s.state) → s.Covered
  | .micro th =>
      match s.todo th with
      | .checkIdle true :: rest =>
          s.idleThreadCount = 0 → s.HasRunnable → (s.setTodo th rest).Covered
      | _ => True
  | _ => True

instance (s : Sys n m) : ∀ a : Label n m, Decidable (s.Signalled a)
  | .user _ op | .external _ op =>
      inferInstanceAs (Decidable
        (s.fibres ≠ [] → (∃ it ∈ s.pushes op, it.Runnable s.state) → s.Covered))
  | .micro th =>
      (fun
        | .checkIdle true :: rest =>
            inferInstanceAs (Decidable
              (s.idleThreadCount = 0 → s.HasRunnable → (s.setTodo th rest).Covered))
        | [] | .checkIdle false :: _ | .writePipe _ :: _ | .decPending :: _
        | .setStopping :: _ => isTrue trivial :
        ∀ todo : List Micro, Decidable (match todo with
          | .checkIdle true :: rest =>
              s.idleThreadCount = 0 → s.HasRunnable → (s.setTodo th rest).Covered
          | _ => True)) (s.todo th)
  | .next _ | .write .. | .wake _ | .listExpired .. | .readPipe _ | .deliver ..
  | .stop _ => isTrue trivial

/-! ## The invariant -/

/-- Where a runnable task is queued, it is certain that the queue is looked at. -/
structure WakeInv (s : Sys n m) : Prop where
  known : s.Known
  covered : s.HasRunnable → s.Covered

/-- No wake-up is lost where runnable tasks are covered. -/
theorem WakeInv.not_lost {s : Sys n m} (h : s.WakeInv) : ¬ s.LostWakeup := by
  intro hl
  rcases h.covered hl.runnable with hpipe | howes | ⟨w, hawake⟩ | hsleepy
  · rw [hl.pipe] at hpipe
    exact Nat.lt_irrefl 0 hpipe
  · exact hl.nobody howes
  · rcases hl.others w with hb | he
    · rw [hb] at hawake
      exact hawake
    · unfold Elsewhere at he
      cases hpc : (s.worker w).pc <;> simp_all [Pc.Awake]
  · obtain ⟨w, hb⟩ := hl.blocked
    exact hsleepy w (by rw [Worker.Sleepy, hb]; trivial)

namespace Covered

variable {s t : Sys n m}

/-- Nothing that covers is taken away, and no worker goes to sleep. -/
theorem mono (h : s.Covered)
    (hpipe : s.pipe ≤ t.pipe)
    (howes : s.OwesTickle → t.OwesTickle)
    (hawake : ∀ w, (s.worker w).pc.Awake → (t.worker w).pc.Awake)
    (hsleepy : ∀ w, (t.worker w).Sleepy → (s.worker w).Sleepy) :
    t.Covered := by
  rcases h with h | h | ⟨w, h⟩ | h
  · exact Or.inl (Nat.lt_of_lt_of_le h hpipe)
  · exact Or.inr (Or.inl (howes h))
  · exact Or.inr (Or.inr (Or.inl ⟨w, hawake w h⟩))
  · exact Or.inr (Or.inr (Or.inr fun w hw => h w (hsleepy w hw)))

theorem of_awake {w : Fin n} (h : (t.worker w).pc.Awake) : t.Covered :=
  Or.inr (Or.inr (Or.inl ⟨w, h⟩))

end Covered

/-- A tickle that a thread owes is not forgotten where another list is put in place of an
empty one. -/
theorem owesTickle_setTodo {s t : Sys n m} {th : Thread n m} {todo : List Micro}
    (htodo : s.todo th = []) (ht : t.todo = Function.update s.todo th todo)
    (h : s.OwesTickle) : t.OwesTickle := by
  obtain ⟨th', h⟩ := h
  have hne : th' ≠ th := by
    rintro rfl
    simp [htodo] at h
  exact ⟨th', by rwa [ht, Function.update_of_ne hne]⟩

/-- A tickle is owed after a push or a scan that needs one. -/
theorem owesTickle_tickleIf {t : Sys n m} {th : Thread n m} {need : Bool} {rest : List Micro}
    (ht : t.todo th = tickleIf need ++ rest) (hneed : need = true) : t.OwesTickle :=
  ⟨th, Or.inl (by simp [ht, hneed, tickleIf])⟩

/-! ## Steps -/

/-- No task became runnable. -/
theorem HasRunnable.back {s t : Sys n m} (hfibres : ∀ it ∈ t.fibres, it ∈ s.fibres)
    (hstate : ∀ f, s.state f = .exec → t.state f = .exec) (h : t.HasRunnable) :
    s.HasRunnable := by
  obtain ⟨it, hit, hthread, hexec⟩ := h
  refine ⟨it, hfibres it hit, hthread, ?_⟩
  cases htask : it.task with
  | fibre f =>
      simp only [htask, Task.executing, decide_eq_false_iff_not] at hexec ⊢
      exact fun hf => hexec (hstate f hf)
  | cb c => rfl

namespace WakeInv

variable {s t : Sys n m}

/-- One worker changes, which was not on its way to a scan and does not go to sleep. -/
theorem worker (h : s.WakeInv) (w : Fin n) (wk : Worker)
    (hworker : t.worker = Function.update s.worker w wk)
    (hpipe : s.pipe ≤ t.pipe)
    (howes : s.OwesTickle → t.OwesTickle)
    (hawake : ¬ (s.worker w).pc.Awake)
    (hsleepy : wk.Sleepy → (s.worker w).Sleepy)
    (hback : t.HasRunnable → s.HasRunnable) :
    t.HasRunnable → t.Covered := by
  intro hrun
  refine (h.covered (hback hrun)).mono hpipe howes ?_ ?_
  · intro v hv
    have hne : v ≠ w := by
      rintro rfl
      exact hawake hv
    rwa [hworker, Function.update_of_ne hne]
  · intro v hv
    rw [hworker] at hv
    by_cases hvw : v = w
    · subst hvw
      rw [Function.update_self] at hv
      exact hsleepy hv
    · rwa [Function.update_of_ne hvw] at hv

/-- The worker that moved is on its way to a scan. -/
theorem awake (w : Fin n) (wk : Worker)
    (hworker : t.worker = Function.update s.worker w wk) (hpc : wk.pc.Awake) :
    t.HasRunnable → t.Covered := by
  intro _
  refine Covered.of_awake (w := w) ?_
  rwa [hworker, Function.update_self]

/-- No worker changes. -/
theorem thread (h : s.WakeInv) (hworker : t.worker = s.worker) (hpipe : s.pipe ≤ t.pipe)
    (howes : s.OwesTickle → t.OwesTickle) (hback : t.HasRunnable → s.HasRunnable) :
    t.HasRunnable → t.Covered := by
  intro hrun
  refine (h.covered (hback hrun)).mono hpipe howes ?_ ?_
  · intro v hv
    rwa [hworker]
  · intro v hv
    rwa [hworker] at hv

/-- A push on an empty queue owes a tickle; any other comes in a covered state. -/
theorem push (h : s.WakeInv) (th : Thread n m) {new : List FibreAndThread} {need : Bool}
    {rest : List Micro}
    (hworker : t.worker = s.worker) (hpipe : t.pipe = s.pipe) (hstate : t.state = s.state)
    (hfibres : t.fibres = s.fibres ++ new)
    (htodo : s.todo th = [])
    (ht : t.todo = Function.update s.todo th (tickleIf need ++ rest))
    (hneed : s.fibres = [] → new ≠ [] → need = true)
    (hcond : s.fibres ≠ [] → (∃ it ∈ new, it.Runnable s.state) → s.Covered) :
    t.HasRunnable → t.Covered := by
  intro hrun
  obtain ⟨it, hit, hrunnable⟩ := hrun
  rw [hstate] at hrunnable
  rw [hfibres] at hit
  by_cases hempty : s.fibres = []
  · rw [hempty, List.nil_append] at hit
    have hthis := hneed hempty (List.ne_nil_of_mem hit)
    exact Or.inr (Or.inl (owesTickle_tickleIf (by rw [ht, Function.update_self]) hthis))
  · have hcov : s.Covered := by
      rcases List.mem_append.mp hit with hit | hit
      · exact h.covered ⟨it, hit, hrunnable⟩
      · exact hcond hempty ⟨it, hit, hrunnable⟩
    refine hcov.mono hpipe.ge (owesTickle_setTodo htodo ht) ?_ ?_
    · intro v hv
      rwa [hworker]
    · intro v hv
      rwa [hworker] at hv

theorem perform (h : s.WakeInv) {th : Thread n m} {self : Option Nat} {op : Op}
    (htodo : s.todo th = [])
    (hcond : s.fibres ≠ [] → (∃ it ∈ s.pushes op, it.Runnable s.state) → s.Covered)
    (hop : s.Performs th self op t) :
    t.HasRunnable → t.Covered := by
  have hsame : ∀ f, s.state f = .exec → s.state f = .exec := fun _ hf => hf
  cases hop with
  | @schedule task thread hmade =>
      refine h.push th rfl rfl rfl rfl htodo rfl ?_ hcond
      intro hempty _
      simp [scheduleNoLock, hempty]
  | @scheduleAll tasks hmade =>
      have htick : (s.scheduleMany th tasks).todo =
          Function.update s.todo th (tickleIf (scheduleAll s.fibres tasks).1 ++ []) := by
        simp
      refine h.push th rfl rfl rfl (scheduleAll_eq tasks s.fibres).1 htodo htick ?_ hcond
      intro hempty hne
      refine (scheduleAll_eq tasks s.fibres).2 hempty ?_
      rintro rfl
      exact hne rfl
  | newFibre =>
      refine h.thread rfl le_rfl (fun ho => ho) (HasRunnable.back (fun _ hit => hit) ?_)
      intro f hf
      have hmade := h.known.setState_made
      simp only [setState] at hmade ⊢
      rwa [hmade]
  | addTimer =>
      exact h.thread rfl le_rfl (owesTickle_setTodo htodo rfl)
        (HasRunnable.back (fun _ hit => hit) hsame)
  | cancelTimer _ =>
      exact h.thread rfl le_rfl (fun ho => ho) (HasRunnable.back (fun _ hit => hit) hsame)
  | resetTimer _ =>
      exact h.thread rfl le_rfl (owesTickle_setTodo htodo rfl)
        (HasRunnable.back (fun _ hit => hit) hsame)
  | addEvent _ _ =>
      exact h.thread rfl le_rfl (fun ho => ho) (HasRunnable.back (fun _ hit => hit) hsame)
  | delEvent _ =>
      exact h.thread rfl le_rfl (fun ho => ho) (HasRunnable.back (fun _ hit => hit) hsame)
  | @cancelEvent i x hi =>
      refine h.push th rfl rfl rfl rfl htodo rfl ?_ ?_
      · intro hempty _
        simp [scheduleNoLock, hempty]
      · simpa only [pushes, hi] using hcond

theorem goes (h : s.WakeInv) {w : Fin n} {pc pc' : Pc} (hpc : (s.worker w).pc = pc)
    (hgoes : s.Goes (s.worker w) pc pc') :
    (s.goto w pc').HasRunnable → (s.goto w pc').Covered := by
  cases hgoes with
  | ended _ | swapOut | join _ | rest => exact awake w _ rfl trivial
  | @timers site _ | @pending site _ =>
      refine h.worker w _ rfl le_rfl (fun ho => ho) (by simp [hpc, Pc.Awake]) ?_
        (fun hr => hr)
      rw [Worker.Sleepy, Worker.Sleepy, hpc]
      cases site <;> exact id
  | enter _ | leave _ | early _ | stop _ | stay _ | block =>
      refine h.worker w _ rfl le_rfl (fun ho => ho) (by simp [hpc, Pc.Awake]) ?_
        (fun hr => hr)
      rw [Worker.Sleepy, Worker.Sleepy, hpc]
      first | exact fun _ => trivial | exact False.elim

/-- The scan takes a task.  Another runnable task is behind it, and is tickled for. -/
theorem take {w : Fin n} {ft : Job}
    (hft : (scanQueue s.state w s.fibres).ft = some ft)
    (hfibres : t.fibres = (scanQueue s.state w s.fibres).left)
    (hstate : t.state = s.state)
    (ht : t.todo (.inl w) = tickleIf (scanQueue s.state w s.fibres).tickleMe) :
    t.HasRunnable → t.Covered := by
  rintro ⟨it, hit, hthread, hexec⟩
  obtain ⟨pre, x, post, _, hleft, _, _, hpre, htick⟩ := scanQueue_found hft
  rw [hfibres, hleft] at hit
  rw [hstate] at hexec
  rcases List.mem_append.mp hit with hit | hit
  · rcases hpre it hit with ⟨hpin, _⟩ | he
    · exact (hpin hthread).elim
    · rw [hexec] at he
      cases he
  · have hneed := htick (List.ne_nil_of_mem hit)
    have howed : t.todo (.inl w) =
        tickleIf (scanQueue s.state w s.fibres).tickleMe ++ [] := by
      rw [List.append_nil]
      exact ht
    exact Or.inr (Or.inl (owesTickle_tickleIf howed hneed))

/-- A thread that owes a tickle for a task does the next thing it owes. -/
theorem owes_rest {th : Thread n m} {x : Micro} {todo rest : List Micro}
    (htodo : s.todo th = x :: rest)
    (ht : t.todo = Function.update s.todo th todo)
    (hrest : ∀ y ∈ rest, y ∈ todo)
    (hx : x = .checkIdle true ∨ x = .writePipe true → t.OwesTickle) :
    s.OwesTickle → t.OwesTickle := by
  rintro ⟨th', h⟩
  by_cases hth : th' = th
  · subst hth
    rw [htodo, List.mem_cons, List.mem_cons] at h
    have hmem : ∀ y ∈ rest, y ∈ t.todo th' := by
      intro y hy
      rw [ht, Function.update_self]
      exact hrest y hy
    rcases h with (h | h) | (h | h)
    · exact hx (Or.inl h.symm)
    · exact ⟨th', Or.inl (hmem _ h)⟩
    · exact hx (Or.inr h.symm)
    · exact ⟨th', Or.inr (hmem _ h)⟩
  · exact ⟨th', by rwa [ht, Function.update_of_ne hth]⟩

/-- **Step lemma.**  A step that meets the condition keeps runnable tasks covered. -/
theorem step (h : s.WakeInv) {a : Label n m} (hcond : s.Signalled a)
    (hst : s.step a = some t) :
    t.WakeInv := by
  refine ⟨h.known.step hst, ?_⟩
  have hsame : ∀ f, s.state f = .exec → s.state f = .exec := fun _ hf => hf
  cases step_cases hst with
  | goes htodo hpc hgoes => exact h.goes hpc hgoes
  | take htodo hpc hft => exact take hft rfl rfl (by simp)
  | @miss w htodo hpc hft =>
      rintro ⟨it, hit, hthread, hexec⟩
      rcases scanQueue_none hft it hit with ⟨hpin, _⟩ | he
      · exact (hpin hthread).elim
      · have hexec' : it.task.executing s.state = false := hexec
        rw [hexec'] at he
        cases he
  | @reuse w c f htodo hpc hcb hstate =>
      refine h.worker w _ rfl le_rfl (fun ho => ho) (by simp [hpc, Pc.Awake])
        (fun hw => hw.elim) (HasRunnable.back (fun _ hit => hit) ?_)
      intro g hg
      have hgf : g ≠ f := by
        rintro rfl
        rcases hstate with hs | hs | hs <;> rw [hs] at hg <;> cases hg
      simpa [Function.update_of_ne hgf] using hg
  | @create w c htodo hpc hcb =>
      refine h.worker w _ rfl le_rfl (fun ho => ho) (by simp [hpc, Pc.Awake])
        (fun hw => hw.elim) (HasRunnable.back (fun _ hit => hit) ?_)
      intro g hg
      have hmade := h.known.setState_made
      simp only [setState] at hmade
      simp only [setWorker, setState]
      rwa [hmade]
  | @swapIn w f viaCb htodo hpc hstate =>
      refine h.worker w _ rfl le_rfl (fun ho => ho) (by simp [hpc, Pc.Awake])
        (fun hw => hw.elim) (HasRunnable.back (fun _ hit => hit) ?_)
      intro g hg
      by_cases hgf : g = f
      · simp [hgf]
      · simpa [Function.update_of_ne hgf] using hg
  | @ready w f viaCb htodo hpc hstate =>
      rw [dropCb_goto]
      exact awake w _ rfl trivial
  | @finished w f viaCb htodo hpc hstate =>
      cases viaCb <;> exact awake w _ rfl trivial
  | @hold w f viaCb htodo hpc hstate =>
      rw [dropCb_goto]
      exact awake w _ rfl trivial
  | @enterIdle w htodo hpc hterm =>
      refine h.worker w _ rfl le_rfl (fun ho => ho) (by simp [hpc, Pc.Awake]) ?_
        (fun hr => hr)
      intro _
      rw [Worker.Sleepy, hpc]
      exact hterm
  | @goOn w read htodo hpc hread =>
      exact h.worker w _ rfl le_rfl (owesTickle_setTodo htodo rfl) (by simp [hpc, Pc.Awake])
        (fun hw => hw.elim) (fun hr => hr)
  | @stopEarly w htodo hpc | @stopCaller w htodo hpc =>
      exact h.worker w _ rfl le_rfl (owesTickle_setTodo htodo rfl) (by simp [hpc, Pc.Awake])
        (fun hw => hw.elim) (fun hr => hr)
  | stopOther htodo hcaller =>
      exact h.thread rfl le_rfl (owesTickle_setTodo htodo rfl) (fun hr => hr)
  | @giveUp w f viaCb htodo hpc | @dropped w htodo hpc | @requeue w f htodo hpc
  | @endIdle w htodo hpc hread | @pushExpired w cbs htodo hpc | @leaveIdle w htodo hpc
  | @write w f viaCb st htodo hpc hst | @wake w hpc | @listExpired w due hpc hdue =>
      exact awake w _ rfl trivial
  | @readPipe w htodo hpc =>
      intro _
      exact Covered.of_awake (w := w) (by rw [hpc]; trivial)
  | @deliver w i x htodo hpc hi =>
      intro _
      refine Covered.of_awake (w := w) ?_
      simp only [schedule, setTodo, hpc]
      trivial
  | @seeIdle th forTask rest htodo hidle =>
      refine h.thread rfl le_rfl ?_ (fun hr => hr)
      refine owes_rest htodo rfl (fun y hy => List.mem_cons_of_mem _ hy) ?_
      rintro (hx | hx)
      · cases hx
        exact ⟨th, Or.inr (by simp)⟩
      · cases hx
  | @seeBusy th forTask rest htodo hidle =>
      cases forTask with
      | false =>
          refine h.thread rfl le_rfl ?_ (fun hr => hr)
          exact owes_rest htodo rfl (fun y hy => hy) (by simp)
      | true =>
          simp only [Signalled, htodo] at hcond
          exact hcond hidle
  | @writePipe th forTask rest htodo =>
      intro _
      exact Or.inl (Nat.succ_pos s.pipe)
  | decPending htodo | setStopping htodo =>
      refine h.thread rfl le_rfl ?_ (fun hr => hr)
      exact owes_rest htodo rfl (fun y hy => hy) (by simp)
  | user htodo hpc hop => exact h.perform htodo hcond hop
  | external htodo hop => exact h.perform htodo hcond hop

theorem start (useCaller : Bool) : (Sys.start n m useCaller).WakeInv where
  known := Known.start useCaller
  covered := by
    rintro ⟨it, hit, _⟩
    cases hit

end WakeInv
end Sys

/-- **No lost wake-up** in runs in which every push that needs no tickle, and every tickle
that finds no idle worker, comes where it is certain that the queue is looked at. -/
theorem no_lost_wakeup {n m : Nat} (s : Sys n m)
    (h : (Sys.system n m).Reachable Sys.Signalled s) :
    ¬ s.LostWakeup := by
  refine (h.invariant Sys.WakeInv ?_ (fun s a t hs hc hst => hs.step hc hst)).not_lost
  rintro s ⟨_, useCaller, rfl⟩
  exact Sys.WakeInv.start useCaller

/-- A worker is blocked when a callback is pushed, and is woken by the tickle. -/
theorem no_lost_wakeup_one_worker :
    ∃ s, (Sys.system 1 1).execIf Sys.Signalled (Sys.start 1 1 false)
        [.next 0, .next 0, .next 0, .next 0, .next 0, .next 0,
          .external 0 (.schedule (some (.cb 7)) none), .micro (.inr 0), .micro (.inr 0),
          .wake 0, .listExpired 0 [], .next 0, .readPipe 0] = some s ∧
      ¬ s.LostWakeup := by
  have hrun : ((Sys.system 1 1).execIf Sys.Signalled (Sys.start 1 1 false)
      [.next 0, .next 0, .next 0, .next 0, .next 0, .next 0,
        .external 0 (.schedule (some (.cb 7)) none), .micro (.inr 0), .micro (.inr 0),
        .wake 0, .listExpired 0 [], .next 0, .readPipe 0]).isSome = true := by decide
  obtain ⟨s, hs⟩ := Option.isSome_iff_exists.mp hrun
  exact ⟨s, hs, no_lost_wakeup s (System.execIf_reachable ⟨by decide, false, rfl⟩ hs)⟩

/-- The only worker has scanned an empty queue and does not yet count as idle when a
callback is pushed.  The tickle finds no idle worker, and the worker goes to sleep. -/
def earlyTickleRun : List (Label 1 1) :=
  [.next 0, .external 0 (.schedule (some (.cb 7)) none), .micro (.inr 0), .next 0, .next 0,
    .next 0, .next 0, .next 0]

theorem lost_wakeup :
    ¬ ∀ (n m : Nat) (s : Sys n m), (Sys.system n m).Reachable anyStep s →
      ¬ s.LostWakeup := by
  intro hall
  have hrun : ((Sys.system 1 1).exec (Sys.start 1 1 false) earlyTickleRun).map
      (fun s => ((s.worker 0).pc, decide s.HasRunnable, s.pipe, decide s.OwesTickle)) =
      some (.blocked, true, 0, false) := by decide
  obtain ⟨s, hs, hfields⟩ := Option.map_eq_some_iff.mp hrun
  simp only [Prod.mk.injEq, decide_eq_true_eq, decide_eq_false_iff_not] at hfields
  obtain ⟨hpc, hrunnable, hpipe, hnobody⟩ := hfields
  refine hall 1 1 s (System.exec_reachable ⟨by decide, false, rfl⟩ hs)
    ⟨⟨0, hpc⟩, hrunnable, hpipe, hnobody, fun w => Or.inl ?_⟩
  obtain rfl : w = 0 := Subsingleton.elim _ _
  exact hpc

end Concurrency
end Hpgs
