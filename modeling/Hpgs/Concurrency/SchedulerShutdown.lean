import Hpgs.Concurrency.SchedulerInvariants

/-!
# What is left when all workers have returned

`IOManager::stopping` reads the timer set, then the pending count, and then, under the
queue lock, the flags of `stop`, the queue and the active count.  A worker whose idle
fibre passed the test once does not test again, although it still runs what it finds on
the queue.

**Results.**
* `follows_or_exits`: a step either leaves every worker before its exit, or is the
  locked read that lets one worker pass.
* `Quiet.step`: once every worker passed and nothing is left, nothing comes back.
* `no_work_lost`: nothing is left when all workers have returned, if nothing was left at
  the locked read that let the last worker pass.
* `work_lost`: a timer that is added between two reads of the test is lost.
-/

namespace Hpgs
namespace Concurrency

open Transition

/-- The worker will not look at the exit test again. -/
def Worker.Passed (wk : Worker) : Prop :=
  wk.idleTerm = true ∨ wk.pc = .returned

instance (wk : Worker) : Decidable wk.Passed :=
  inferInstanceAs (Decidable (_ ∨ _))

/-- The worker is before the outcome of the exit test. -/
def Pc.Waits : Pc → Prop
  | .caller | .test _ _ | .blocking | .blocked | .woken | .expired _ | .delivering => True
  | _ => False

/-- Code that submits work to the manager. -/
def Op.Submits : Op → Prop
  | .schedule .. | .scheduleAll _ | .addTimer .. | .addEvent _ => True
  | _ => False

instance (op : Op) : Decidable op.Submits :=
  match op with
  | .schedule .. | .scheduleAll _ | .addTimer .. | .addEvent _ =>
      inferInstanceAs (Decidable True)
  | .newFibre | .cancelTimer _ | .resetTimer .. | .delEvent _ | .cancelEvent _ =>
      inferInstanceAs (Decidable False)

namespace Sys

variable {n m : Nat}

/-- All loops of `Scheduler::run` have returned. -/
def AllReturned (s : Sys n m) : Prop :=
  ∀ w, (s.worker w).pc = .returned

/-- No task is queued, no timer is set and no event is pending. -/
structure NoWorkLeft (s : Sys n m) : Prop where
  fibres : s.fibres = []
  timers : s.timers = []
  pending : s.pendingEventCount = 0

/-- After `stop` was called, only the tasks on the workers submit work. -/
def SubmitsBeforeStop (s : Sys n m) : Label n m → Prop
  | .external _ op => op.Submits → s.autoStop = false
  | _ => True

instance (s : Sys n m) : ∀ a : Label n m, Decidable (s.SubmitsBeforeStop a)
  | .external _ op => inferInstanceAs (Decidable (op.Submits → s.autoStop = false))
  | .next _ | .micro _ | .user .. | .write .. | .wake _ | .listExpired .. | .readPipe _
  | .deliver .. | .stop _ => isTrue trivial

/-- The worker gave up a fibre that is ready and has not yet put it back. -/
def Requeues (s : Sys n m) (w : Fin n) : Prop :=
  match (s.worker w).pc with
  | .check f _ => s.state f = .ready
  | .requeue _ => True
  | _ => False

instance (s : Sys n m) (w : Fin n) : Decidable (s.Requeues w) :=
  (fun
    | .check f _ => inferInstanceAs (Decidable (s.state f = .ready))
    | .requeue _ => isTrue trivial
    | .caller | .scan | .dispatch _ | .entering .. | .running .. | .leaving ..
    | .swapped .. | .dropped | .empty | .test .. | .blocking | .blocked | .woken
    | .expired _ | .delivering | .idleOut | .returned => isFalse id :
    ∀ pc : Pc, Decidable (match pc with
      | .check f _ => s.state f = .ready
      | .requeue _ => True
      | _ => False)) (s.worker w).pc

/-- **The condition.**  At the locked read that lets the last worker pass the exit test,
no timer is set, no event is pending, and no ready fibre is on its way to the queue. -/
def LastExitQuiet (s : Sys n m) : Label n m → Prop
  | .next w =>
      match (s.worker w).pc with
      | .test _ .locked =>
          s.passes .locked = true → (∀ w', w' ≠ w → (s.worker w').Passed) →
            s.timers = [] ∧ s.pendingEventCount = 0 ∧ ∀ w', ¬ s.Requeues w'
      | _ => True
  | _ => True

instance (s : Sys n m) : ∀ a : Label n m, Decidable (s.LastExitQuiet a)
  | .next w =>
      (fun
        | .test _ .locked =>
            inferInstanceAs (Decidable
              (s.passes .locked = true → (∀ w', w' ≠ w → (s.worker w').Passed) →
                s.timers = [] ∧ s.pendingEventCount = 0 ∧ ∀ w', ¬ s.Requeues w'))
        | .test _ .timers | .test _ .pending | .caller | .scan | .dispatch _ | .entering ..
        | .running .. | .leaving .. | .swapped .. | .check .. | .requeue _ | .dropped
        | .empty | .blocking | .blocked | .woken | .expired _ | .delivering | .idleOut
        | .returned => isTrue trivial :
        ∀ pc : Pc, Decidable (match pc with
          | .test _ .locked =>
              s.passes .locked = true → (∀ w', w' ≠ w → (s.worker w').Passed) →
                s.timers = [] ∧ s.pendingEventCount = 0 ∧ ∀ w', ¬ s.Requeues w'
          | _ => True)) (s.worker w).pc
  | .micro _ | .user .. | .external .. | .write .. | .wake _ | .listExpired ..
  | .readPipe _ | .deliver .. | .stop _ => isTrue trivial

/-! ## Passing the exit test -/

end Sys

/-- The worker changed, but did not come closer to its exit. -/
structure Worker.Follows (old new : Worker) : Prop where
  idleTerm : new.idleTerm = old.idleTerm
  returned : new.pc = .returned → old.Passed
  waits : new.idleTerm = true → new.pc.Waits → old.pc.Waits

theorem Worker.Follows.refl (wk : Worker) : wk.Follows wk :=
  ⟨rfl, fun h => Or.inr h, fun _ h => h⟩

theorem Worker.Follows.passed {old new : Worker} (h : old.Follows new) (hp : new.Passed) :
    old.Passed := by
  rcases hp with hp | hp
  · exact Or.inl (h.idleTerm ▸ hp)
  · exact h.returned hp

namespace Sys

variable {n m : Nat} {s t : Sys n m}

/-- The locked read that lets a worker pass. -/
structure Exits (s : Sys n m) (a : Label n m) (t : Sys n m) (w : Fin n) (wk : Worker) :
    Prop where
  label : a = .next w
  test : ∃ site, (s.worker w).pc = .test site .locked
  read : s.passes .locked = true
  result : t = s.setWorker w wk
  leaves : wk.pc = .idleOut ∨ wk.pc = .returned

theorem follows_update {w : Fin n} {wk : Worker}
    (hworker : t.worker = Function.update s.worker w wk)
    (hfollows : (s.worker w).Follows wk) :
    ∀ v, (s.worker v).Follows (t.worker v) := by
  intro v
  rw [hworker]
  by_cases hv : v = w
  · subst hv
    rw [Function.update_self]
    exact hfollows
  · rw [Function.update_of_ne hv]
    exact Worker.Follows.refl _

theorem follows_same (hworker : t.worker = s.worker) :
    ∀ v, (s.worker v).Follows (t.worker v) := by
  intro v
  rw [hworker]
  exact Worker.Follows.refl _

theorem goes_follows {w : Fin n} {pc pc' : Pc} (hpc : (s.worker w).pc = pc)
    (hgoes : s.Goes (s.worker w) pc pc') :
    (∀ v, (s.worker v).Follows ((s.goto w pc').worker v)) ∨
      s.Exits (.next w) (s.goto w pc') w { s.worker w with pc := pc' } := by
  cases hgoes with
  | early hread => exact Or.inr ⟨rfl, ⟨_, hpc⟩, hread, rfl, Or.inr rfl⟩
  | stop hread => exact Or.inr ⟨rfl, ⟨_, hpc⟩, hread, rfl, Or.inr rfl⟩
  | leave hterm =>
      exact Or.inl (follows_update rfl ⟨rfl, fun _ => Or.inl hterm, fun _ hw => hw.elim⟩)
  | _ =>
      refine Or.inl (follows_update rfl ⟨rfl, by simp, fun _ _ => ?_⟩)
      rw [hpc]
      trivial

/-- A step leaves every worker before its exit, or lets one pass. -/
theorem follows_or_exits {a : Label n m} (hst : s.step a = some t) :
    (∀ v, (s.worker v).Follows (t.worker v)) ∨ ∃ w wk, s.Exits a t w wk := by
  cases step_cases hst with
  | goes htodo hpc hgoes => exact (goes_follows hpc hgoes).imp_right fun h => ⟨_, _, h⟩
  | @endIdle w htodo hpc hread =>
      exact Or.inr ⟨w, _, rfl, ⟨_, hpc⟩, hread, rfl, Or.inl rfl⟩
  | ready htodo hpc _ =>
      rw [dropCb_goto]
      exact Or.inl (follows_update rfl ⟨rfl, by simp, fun _ h => h.elim⟩)
  | @finished w f viaCb htodo hpc _ =>
      cases viaCb <;>
        exact Or.inl (follows_update rfl ⟨rfl, by simp, fun _ h => h.elim⟩)
  | hold htodo hpc _ =>
      rw [dropCb_goto]
      exact Or.inl (follows_update rfl ⟨rfl, by simp, fun _ h => h.elim⟩)
  | enterIdle htodo hpc hterm =>
      refine Or.inl (follows_update rfl ⟨rfl, by simp, fun hterm' _ => ?_⟩)
      simp [hterm] at hterm'
  -- the worker is not before the outcome of the test afterwards
  | take _ _ _ | miss _ _ _ | reuse _ _ _ _ | create _ _ _ | swapIn _ _ _ | giveUp _ _
  | dropped _ _ | requeue _ _ | leaveIdle _ _ | write _ _ _ =>
      exact Or.inl (follows_update rfl ⟨rfl, by simp, fun _ h => h.elim⟩)
  -- it was there already
  | goOn _ hpc _ | pushExpired _ hpc | wake hpc | listExpired hpc _ | stopEarly _ hpc
  | stopCaller _ hpc =>
      refine Or.inl (follows_update rfl ⟨rfl, by simp, fun _ _ => ?_⟩)
      rw [hpc]
      trivial
  | user _ _ hop => exact Or.inl (follows_same hop.worker)
  | external _ hop => exact Or.inl (follows_same hop.worker)
  | seeIdle _ _ | seeBusy _ _ | writePipe _ | decPending _ | setStopping _ | readPipe _ _
  | deliver _ _ _ | stopOther _ _ => exact Or.inl (follows_same rfl)

/-! ## Nothing comes back -/

/-- No worker whose idle fibre terminated is before the outcome of the exit test. -/
def Tested (s : Sys n m) : Prop :=
  ∀ w, (s.worker w).idleTerm = true → ¬ (s.worker w).pc.Waits

theorem Tested.step {a : Label n m} (h : s.Tested) (hst : s.step a = some t) : t.Tested := by
  rcases follows_or_exits hst with hf | ⟨w, wk, hex⟩
  · intro v hterm hw
    exact h v ((hf v).idleTerm ▸ hterm) ((hf v).waits hterm hw)
  · intro v hterm hw
    obtain ⟨_, _, _, rfl, hleaves⟩ := hex
    by_cases hv : v = w
    · subst hv
      simp only [setWorker, Function.update_self] at hw
      rcases hleaves with hpc | hpc <;> simp [hpc, Pc.Waits] at hw
    · simp only [setWorker, Function.update_of_ne hv] at hterm hw
      exact h v hterm hw

/-- Nothing is left, and nothing is on its way. -/
structure Quiet (s : Sys n m) : Prop where
  left : s.NoWorkLeft
  active : s.activeThreadCount = 0
  autoStop : s.autoStop = true
  requeues : ∀ w, ¬ s.Requeues w

namespace Quiet

/-- Only workers change, and none of them is about to put a fibre back. -/
theorem of_worker (h : s.Quiet)
    (hfibres : t.fibres = s.fibres) (htimers : t.timers = s.timers)
    (hpending : t.pendingEventCount = s.pendingEventCount)
    (hactive : t.activeThreadCount = s.activeThreadCount)
    (hauto : t.autoStop = s.autoStop)
    (hrequeues : ∀ v, t.Requeues v → s.Requeues v) :
    t.Quiet where
  left := ⟨hfibres.trans h.left.fibres, htimers.trans h.left.timers,
    hpending.trans h.left.pending⟩
  active := hactive.trans h.active
  autoStop := hauto.trans h.autoStop
  requeues := fun v hv => h.requeues v (hrequeues v hv)

end Quiet

/-- The worker that moved is not about to put a fibre back, and no fibre became ready. -/
theorem requeues_update {w : Fin n} {wk : Worker}
    (hworker : t.worker = Function.update s.worker w wk)
    (hstate : ∀ f, t.state f = .ready → s.state f = .ready)
    (hcheck : ∀ f b, wk.pc = .check f b → t.state f ≠ .ready)
    (hrequeue : ∀ f, wk.pc ≠ .requeue f) :
    ∀ v, t.Requeues v → s.Requeues v := by
  intro v hv
  unfold Requeues at hv ⊢
  rw [hworker] at hv
  by_cases hvw : v = w
  · subst hvw
    rw [Function.update_self] at hv
    cases hpc : wk.pc with
    | check f b =>
        rw [hpc] at hv
        exact (hcheck f b hpc hv).elim
    | requeue f => exact (hrequeue f hpc).elim
    | _ => simp [hpc] at hv
  · rw [Function.update_of_ne hvw] at hv
    cases hpc : (s.worker v).pc with
    | check f b =>
        rw [hpc] at hv
        exact hstate f hv
    | requeue f => trivial
    | _ => simp [hpc] at hv

namespace Quiet

/-- No worker counts as active. -/
theorem not_active (h : s.Quiet) (hcount : s.Counted) {w : Fin n} {pc : Pc}
    (hpc : (s.worker w).pc = pc) : pc.active = 0 := by
  have hle := hcount.le_active w
  rw [h.active, hpc] at hle
  omega

theorem no_events (h : s.Quiet) (hcount : s.Counted) : s.events = [] := by
  have hpending := hcount.pending
  rw [h.left.pending] at hpending
  exact List.eq_nil_of_length_eq_zero (by omega)

theorem perform (h : s.Quiet) (hcount : s.Counted) {th : Thread n m} {self : Option Nat}
    {op : Op} (hop : s.Performs th self op t) (hsub : ¬ op.Submits) :
    t.Quiet := by
  cases hop with
  | schedule _ => exact (hsub trivial).elim
  | scheduleAll _ => exact (hsub trivial).elim
  | newFibre =>
      refine h.of_worker rfl rfl rfl rfl rfl ?_
      intro v hv
      unfold Requeues at hv ⊢
      simp only [setState] at hv
      cases hpc : (s.worker v).pc with
      | check f b =>
          rw [hpc] at hv
          by_cases hf : f = s.made
          · simp [hf] at hv
          · simpa [Function.update_of_ne hf] using hv
      | requeue f => trivial
      | _ => simp [hpc] at hv
  | addTimer => exact (hsub trivial).elim
  | cancelTimer hmem =>
      rw [h.left.timers] at hmem
      cases hmem
  | resetTimer hmem =>
      rw [h.left.timers] at hmem
      cases hmem
  | addEvent _ _ => exact (hsub trivial).elim
  | delEvent hi =>
      rw [h.no_events hcount] at hi
      simp at hi
  | cancelEvent hi =>
      rw [h.no_events hcount] at hi
      simp at hi

/-- **Step lemma.**  Where every worker passed and nothing is left, nothing comes back. -/
theorem step (h : s.Quiet) (hcount : s.Counted) (htested : s.Tested)
    (hpassed : ∀ w, (s.worker w).Passed) {a : Label n m} (hsub : s.SubmitsBeforeStop a)
    (hst : s.step a = some t) :
    t.Quiet := by
  -- a worker that passed is not before the outcome of the test
  have hwaits : ∀ {w : Fin n} {pc : Pc}, (s.worker w).pc = pc → ¬ pc.Waits := by
    rintro w pc rfl hw
    rcases hpassed w with hterm | hret
    · exact htested w hterm hw
    · rw [hret] at hw
      exact hw
  have hrun : ∀ {w : Fin n} {pc : Pc}, (s.worker w).pc = pc → pc.active = 0 :=
    fun hpc => h.not_active hcount hpc
  cases step_cases hst with
  | goes htodo hpc hgoes =>
      cases hgoes with
      | leave hterm =>
          exact h.of_worker rfl rfl rfl rfl rfl
            (requeues_update rfl (fun _ hf => hf) (by simp) (by simp))
      | enter _ | ended _ | swapOut => exact absurd (hrun hpc) (by simp [Pc.active])
      | _ => exact (hwaits hpc trivial).elim
  | take htodo hpc hft => simp [h.left.fibres, scanQueue] at hft
  | miss htodo hpc hft =>
      exact h.of_worker rfl rfl rfl rfl rfl
        (requeues_update rfl (fun _ hf => hf) (by simp) (by simp))
  | reuse _ hpc _ _ | create _ hpc _ | swapIn _ hpc _ | giveUp _ hpc | dropped _ hpc
  | write _ hpc _ => exact absurd (hrun hpc) (by simp [Pc.active])
  | @ready w f viaCb htodo hpc hstate =>
      exact (h.requeues w (by rw [Requeues, hpc]; exact hstate)).elim
  | @finished w f viaCb htodo hpc hstate =>
      cases viaCb with
      | false =>
          exact h.of_worker rfl rfl rfl rfl rfl
            (requeues_update rfl (fun _ hf => hf) (by simp) (by simp))
      | true =>
          refine h.of_worker rfl rfl rfl rfl rfl
            (requeues_update rfl (fun g hg => ?_) (by simp) (by simp))
          by_cases hgf : g = f
          · simp [hgf] at hg
          · simpa [Function.update_of_ne hgf] using hg
  | @hold w f viaCb htodo hpc hstate =>
      rw [dropCb_goto]
      refine h.of_worker rfl rfl rfl rfl rfl
        (requeues_update rfl (fun g hg => ?_) (by simp) (by simp))
      by_cases hgf : g = f
      · simp [hgf] at hg
      · simpa [Function.update_of_ne hgf] using hg
  | @requeue w f htodo hpc => exact (h.requeues w (by rw [Requeues, hpc]; trivial)).elim
  | @enterIdle w htodo hpc hterm =>
      rcases hpassed w with hp | hp
      · simp [hterm] at hp
      · simp [hpc] at hp
  | endIdle _ hpc _ | goOn _ hpc _ | pushExpired _ hpc | wake hpc | listExpired hpc _
  | readPipe _ hpc | deliver _ hpc _ | stopEarly _ hpc | stopCaller _ hpc =>
      exact (hwaits hpc trivial).elim
  | leaveIdle htodo hpc =>
      exact h.of_worker rfl rfl rfl rfl rfl
        (requeues_update rfl (fun _ hf => hf) (by simp) (by simp))
  | seeIdle _ _ | seeBusy _ _ | writePipe _ | setStopping _ =>
      exact h.of_worker rfl rfl rfl rfl rfl (fun _ hv => hv)
  | @decPending th rest htodo =>
      have hle := hcount.le_pending th
      rw [h.left.pending, htodo] at hle
      simp [owedDecs] at hle
  | user htodo hpc hop =>
      rcases hpc with ⟨f, viaCb, hpc, _⟩ | ⟨hpc, _⟩
      · exact absurd (hrun hpc) (by simp [Pc.active])
      · exact (hwaits hpc trivial).elim
  | external htodo hop =>
      refine h.perform hcount hop (fun hs => ?_)
      have hauto := hsub hs
      rw [h.autoStop] at hauto
      cases hauto
  | stopOther _ _ =>
      exact
        { left := ⟨h.left.fibres, h.left.timers, h.left.pending⟩
          active := h.active
          autoStop := rfl
          requeues := fun v hv => h.requeues v hv }

end Quiet

/-- The invariant: where every worker passed, nothing is left. -/
structure ShutdownInv (s : Sys n m) : Prop where
  counted : s.Counted
  tested : s.Tested
  quiet : (∀ w, (s.worker w).Passed) → s.Quiet

/-- The last worker passes in a state where nothing is left. -/
theorem Exits.quiet {a : Label n m} {w : Fin n} {wk : Worker} (hex : s.Exits a t w wk)
    (hcond : s.LastExitQuiet a) (hothers : ∀ v, v ≠ w → (s.worker v).Passed) :
    t.Quiet := by
  obtain ⟨rfl, ⟨site, hpc⟩, hread, rfl, hleaves⟩ := hex
  simp only [LastExitQuiet, hpc] at hcond
  obtain ⟨htimers, hpending, hrequeues⟩ := hcond hread hothers
  simp only [passes, Bool.and_eq_true, List.isEmpty_iff, decide_eq_true_eq] at hread
  obtain ⟨⟨⟨hauto, _⟩, hfibres⟩, hactive⟩ := hread
  refine ⟨⟨hfibres, htimers, hpending⟩, hactive, hauto, fun v hv => hrequeues v ?_⟩
  refine requeues_update (t := s.setWorker w wk) rfl (fun _ hf => hf) ?_ ?_ v hv
  · intro f b hf
    rcases hleaves with hl | hl <;> simp [hl] at hf
  · intro f hf
    rcases hleaves with hl | hl <;> simp [hl] at hf

theorem ShutdownInv.step (h : s.ShutdownInv) {a : Label n m}
    (hcond : s.SubmitsBeforeStop a ∧ s.LastExitQuiet a) (hst : s.step a = some t) :
    t.ShutdownInv where
  counted := h.counted.step hst
  tested := h.tested.step hst
  quiet := by
    intro hpassed
    rcases follows_or_exits hst with hf | ⟨w, wk, hex⟩
    · have hbefore : ∀ w, (s.worker w).Passed := fun w => (hf w).passed (hpassed w)
      exact (h.quiet hbefore).step h.counted h.tested hbefore hcond.1 hst
    · refine hex.quiet hcond.2 fun v hv => ?_
      have hp := hpassed v
      rw [hex.result] at hp
      simpa only [setWorker, Function.update_of_ne hv] using hp

theorem ShutdownInv.start (hn : 0 < n) (useCaller : Bool) :
    (Sys.start n m useCaller).ShutdownInv where
  counted := Counted.start useCaller
  tested := by
    intro w hterm
    simp [Sys.start] at hterm
  quiet := by
    intro hpassed
    have hp := hpassed ⟨0, hn⟩
    cases useCaller <;> simp [Sys.start, Worker.Passed] at hp

end Sys

/-- **No work is lost at shutdown**, in every run in which nothing is left at the locked
read that lets the last worker pass the exit test. -/
theorem no_work_lost {n m : Nat} (s : Sys n m)
    (h : (Sys.system n m).Reachable
      (fun s a => s.SubmitsBeforeStop a ∧ s.LastExitQuiet a) s) :
    s.AllReturned → s.NoWorkLeft := by
  intro hreturned
  have hinv : s.ShutdownInv := by
    refine h.invariant Sys.ShutdownInv ?_ (fun s a t hs hc hst => hs.step hc hst)
    rintro s ⟨hn, useCaller, rfl⟩
    exact Sys.ShutdownInv.start hn useCaller
  exact (hinv.quiet fun w => Or.inr (hreturned w)).left

/-- One worker runs a callback, stops and returns. -/
theorem no_work_lost_one_worker :
    ∃ s, (Sys.system 1 1).execIf (fun s a => s.SubmitsBeforeStop a ∧ s.LastExitQuiet a)
        (Sys.start 1 1 false)
        [.external 0 (.schedule (some (.cb 7)) none), .micro (.inr 0), .next 0, .next 0,
          .next 0, .stop (.inr 0), .micro (.inr 0), .write 0 .term, .next 0, .next 0,
          .next 0, .next 0, .next 0, .next 0, .next 0, .next 0, .next 0, .next 0,
          .next 0] = some s ∧
      s.AllReturned ∧ (s.AllReturned → s.NoWorkLeft) := by
  have hrun : ((Sys.system 1 1).execIf
      (fun s a => s.SubmitsBeforeStop a ∧ s.LastExitQuiet a) (Sys.start 1 1 false)
      [.external 0 (.schedule (some (.cb 7)) none), .micro (.inr 0), .next 0, .next 0,
        .next 0, .stop (.inr 0), .micro (.inr 0), .write 0 .term, .next 0, .next 0,
        .next 0, .next 0, .next 0, .next 0, .next 0, .next 0, .next 0, .next 0,
        .next 0]).map (fun s => (s.worker 0).pc) = some .returned := by decide
  obtain ⟨s, hs, hpc⟩ := Option.map_eq_some_iff.mp hrun
  refine ⟨s, hs, fun w => ?_, no_work_lost s
    (System.execIf_reachable ⟨by decide, false, rfl⟩ hs)⟩
  obtain rfl : w = 0 := Subsingleton.elim _ _
  exact hpc

/-- An idle worker has read that no timer is set when another thread adds one and then
calls `stop`.  The other two reads pass, and the worker returns. -/
def lateTimerRun : List (Label 1 1) :=
  [.next 0, .next 0, .next 0, .external 0 (.addTimer ⟨7, false⟩ true), .micro (.inr 0),
    .micro (.inr 0), .stop (.inr 0), .micro (.inr 0), .next 0, .next 0, .next 0, .next 0,
    .next 0]

theorem work_lost :
    ¬ ∀ (n m : Nat) (s : Sys n m), (Sys.system n m).Reachable Sys.SubmitsBeforeStop s →
      s.AllReturned → s.NoWorkLeft := by
  intro hall
  have hrun : ((Sys.system 1 1).execIf Sys.SubmitsBeforeStop (Sys.start 1 1 false)
      lateTimerRun).map (fun s => ((s.worker 0).pc, s.timers)) =
      some (.returned, [⟨7, false⟩]) := by decide
  obtain ⟨s, hs, hfields⟩ := Option.map_eq_some_iff.mp hrun
  simp only [Prod.mk.injEq] at hfields
  have hreturned : s.AllReturned := by
    intro w
    obtain rfl : w = 0 := Subsingleton.elim _ _
    exact hfields.1
  have hleft := hall 1 1 s (System.execIf_reachable ⟨by decide, false, rfl⟩ hs) hreturned
  rw [hleft.timers] at hfields
  exact absurd hfields.2 (by decide)

end Concurrency
end Hpgs
