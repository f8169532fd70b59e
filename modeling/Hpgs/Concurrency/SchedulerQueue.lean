import Hpgs.Concurrency.SchedulerInvariants
import Hpgs.Library.Ledger
import Mathlib.Algebra.BigOperators.Group.Finset.Piecewise

/-!
# The task queue loses nothing

Every entry that is pushed on `m_fibres` gets a number, and a history is kept beside the
scheduler: which numbers are queued, which worker dequeued which number, and which
dequeued entries the worker has counted down for again.

**Results.**
* `step_kind`: a step appends to the queue, takes its first eligible entry, or counts
  down `m_activeThreadCount`.
* `queue_conservation`: every entry is queued, or was dequeued by one worker that it is
  eligible for, and `m_activeThreadCount` is the number of workers that have dequeued an
  entry and not yet counted down.
-/

namespace Hpgs
namespace Concurrency

open Counting Transition

/-- The scan of thread `me` does not pass over the entry. -/
def FibreAndThread.Eligible (state : Nat → State) (me : Nat) (it : FibreAndThread) : Prop :=
  (it.thread = none ∨ it.thread = some me) ∧ it.task.executing state = false

instance (state : Nat → State) (me : Nat) (it : FibreAndThread) :
    Decidable (it.Eligible state me) :=
  inferInstanceAs (Decidable (_ ∧ _))

theorem FibreAndThread.eligible_iff {state : Nat → State} {me : Nat} {it : FibreAndThread} :
    it.Eligible state me ↔ ¬ it.Skipped state me := by
  unfold Eligible Skipped
  cases it.thread <;> cases it.task.executing state <;> simp

namespace Sys

variable {n m : Nat}

/-- What a step appends to `m_fibres`. -/
def appended (s : Sys n m) : Label n m → List FibreAndThread
  | .user _ op | .external _ op => s.pushes op
  | .next w =>
      match (s.worker w).pc with
      | .requeue f => [⟨.fibre f, none⟩]
      | .expired cbs => cbs.map fun c => ⟨.cb c, none⟩
      | _ => []
  | .deliver _ i => s.events[i]?.toList.map fun t => ⟨t, none⟩
  | _ => []

/-- The worker dequeues `it`: no entry before it is eligible for the worker, and the
others stay in order. -/
def Dequeues (s : Sys n m) (w : Fin n) (it : FibreAndThread) (t : Sys n m) : Prop :=
  ∃ pre post,
    s.fibres = pre ++ it :: post ∧
    t.fibres = pre ++ post ∧
    it.Eligible s.state w ∧
    ∀ x ∈ pre, ¬ x.Eligible s.state w

/-- The worker is at `m_activeThreadCount--`. -/
def AtDecrement (s : Sys n m) (w : Fin n) : Prop :=
  match (s.worker w).pc with
  | .swapped .. | .dropped => True
  | _ => False

/-- What a step does to the queue and to the active workers. -/
inductive StepKind (s : Sys n m) : Label n m → Sys n m → Prop
  | takes {w : Fin n} {it : FibreAndThread} {t : Sys n m}
      (hpc : (s.worker w).pc = .scan)
      (hdeq : s.Dequeues w it t)
      (hcount : t.activeThreadCount = s.activeThreadCount + 1)
      (hworker : t.worker = Function.update s.worker w
        { s.worker w with pc := .dispatch it.task }) :
      StepKind s (.next w) t
  | gives {w : Fin n} {pc : Pc} {t : Sys n m}
      (hat : s.AtDecrement w)
      (hfibres : t.fibres = s.fibres)
      (hcount : t.activeThreadCount = s.activeThreadCount - 1)
      (hworker : t.worker = Function.update s.worker w { s.worker w with pc := pc })
      (hpc : pc.active = 0) :
      StepKind s (.next w) t
  | other {a : Label n m} {t : Sys n m}
      (hnext : ∀ w, a = .next w → ¬ s.AtDecrement w ∧
        ((s.worker w).pc = .scan → ∀ x ∈ s.fibres, ¬ x.Eligible s.state w))
      (hfibres : t.fibres = s.fibres ++ s.appended a)
      (hcount : t.activeThreadCount = s.activeThreadCount)
      (hactive : ∀ w, (t.worker w).pc.active = (s.worker w).pc.active) :
      StepKind s a t

/-- Only one worker changes, and it stays as active as it was. -/
theorem active_update {s t : Sys n m} (w : Fin n) (wk : Worker)
    (hworker : t.worker = Function.update s.worker w wk)
    (hactive : wk.pc.active = (s.worker w).pc.active) :
    ∀ v, (t.worker v).pc.active = (s.worker v).pc.active := by
  intro v
  rw [hworker]
  by_cases hv : v = w
  · subst hv
    rw [Function.update_self, hactive]
  · rw [Function.update_of_ne hv]

namespace StepKind

variable {s t : Sys n m}

/-- A step of a worker elsewhere in its loop. -/
theorem next {w : Fin n} {pc : Pc} (wk : Worker) (hpc : (s.worker w).pc = pc)
    (hat : ¬ s.AtDecrement w) (hscan : pc ≠ .scan)
    (hfibres : t.fibres = s.fibres ++ s.appended (.next w))
    (hcount : t.activeThreadCount = s.activeThreadCount)
    (hworker : t.worker = Function.update s.worker w wk)
    (hactive : wk.pc.active = pc.active) :
    StepKind s (.next w) t := by
  refine .other ?_ hfibres hcount (active_update w wk hworker (hpc ▸ hactive))
  rintro v ⟨⟩
  exact ⟨hat, fun h => absurd (hpc ▸ h) hscan⟩

/-- A step that is no step of `run`. -/
theorem outside {a : Label n m} (ha : ∀ w, a ≠ .next w)
    (hfibres : t.fibres = s.fibres ++ s.appended a)
    (hcount : t.activeThreadCount = s.activeThreadCount)
    (hactive : ∀ w, (t.worker w).pc.active = (s.worker w).pc.active) :
    StepKind s a t :=
  .other (fun w h => absurd h (ha w)) hfibres hcount hactive

theorem goes {w : Fin n} {pc pc' : Pc} (hpc : (s.worker w).pc = pc)
    (hgoes : s.Goes (s.worker w) pc pc') :
    StepKind s (.next w) (s.goto w pc') := by
  refine next { s.worker w with pc := pc' } hpc ?_ ?_ ?_ rfl rfl ?_
  · rw [AtDecrement, hpc]
    cases hgoes <;> exact id
  · cases hgoes <;> simp
  · simp only [appended, hpc]
    cases hgoes <;> simp
  · cases hgoes <;> rfl

end StepKind

/-- **Inversion for the queue.** -/
theorem step_kind {s t : Sys n m} {a : Label n m} (hst : s.step a = some t) :
    StepKind s a t := by
  cases step_cases hst with
  | goes htodo hpc hgoes => exact .goes hpc hgoes
  | @take w ft htodo hpc hft =>
      obtain ⟨pre, it, post, hq, hleft, hit, hskip, hpre, _⟩ := scanQueue_found hft
      subst hit
      refine .takes hpc ⟨pre, post, hq, hleft, ?_, ?_⟩ rfl rfl
      · exact FibreAndThread.eligible_iff.mpr hskip
      · intro x hx
        rw [FibreAndThread.eligible_iff, not_not]
        exact hpre x hx
  | @miss w htodo hpc hft =>
      refine .other ?_ (by simp [appended, hpc]) rfl
        (active_update w { s.worker w with pc := .empty } rfl (by rw [hpc]; rfl))
      rintro v ⟨⟩
      refine ⟨by simp [AtDecrement, hpc], fun _ x hx => ?_⟩
      rw [FibreAndThread.eligible_iff, not_not]
      exact scanQueue_none hft x hx
  | @giveUp w f viaCb htodo hpc =>
      exact .gives (by simp [AtDecrement, hpc]) rfl rfl rfl rfl
  | @dropped w htodo hpc =>
      exact .gives (by simp [AtDecrement, hpc]) rfl rfl rfl rfl
  | @ready w f viaCb htodo hpc hstate =>
      rw [dropCb_goto]
      exact .next _ hpc (by simp [AtDecrement, hpc]) (by simp) (by simp [appended, hpc]) rfl rfl
        rfl
  | @finished w f viaCb htodo hpc hstate =>
      cases viaCb <;>
        exact .next { s.worker w with pc := .scan } hpc (by simp [AtDecrement, hpc]) (by simp)
          (by simp [appended, hpc]) rfl rfl rfl
  | @hold w f viaCb htodo hpc hstate =>
      rw [dropCb_goto]
      exact .next _ hpc (by simp [AtDecrement, hpc]) (by simp) (by simp [appended, hpc]) rfl rfl
        rfl
  | @pushExpired w cbs htodo hpc =>
      refine .next { s.worker w with pc := .delivering } hpc (by simp [AtDecrement, hpc])
        (by simp) ?_ rfl rfl rfl
      have hall := (scheduleAll_eq (cbs.map fun c => some (.cb c)) s.fibres).1
      have hnone : (cbs.map fun c => some (Task.cb c : Job)).reduceOption = cbs.map .cb := by
        simp [List.reduceOption, List.filterMap_map]
      rw [hnone, List.map_map] at hall
      simp only [appended, hpc]
      exact hall
  | @reuse w c f htodo hpc hcb hstate =>
      exact .next { s.worker w with pc := .entering f true } hpc (by simp [AtDecrement, hpc])
        (by simp) (by simp [appended, hpc]) rfl rfl rfl
  | @create w c htodo hpc hcb =>
      exact .next { s.worker w with pc := .entering s.made true, cbFibre := some s.made } hpc
        (by simp [AtDecrement, hpc]) (by simp) (by simp [appended, hpc]) rfl rfl rfl
  | @swapIn w f viaCb htodo hpc hstate =>
      exact .next { s.worker w with pc := .running f viaCb } hpc (by simp [AtDecrement, hpc])
        (by simp) (by simp [appended, hpc]) rfl rfl rfl
  | @requeue w f htodo hpc =>
      exact .next { s.worker w with pc := .scan } hpc (by simp [AtDecrement, hpc])
        (by simp) (by simp [appended, hpc, scheduleNoLock]) rfl rfl rfl
  | @enterIdle w htodo hpc hterm =>
      exact .next { s.worker w with pc := .test .idle .timers } hpc (by simp [AtDecrement, hpc])
        (by simp) (by simp [appended, hpc]) rfl rfl rfl
  | @endIdle w htodo hpc hread =>
      exact .next { s.worker w with pc := .idleOut, idleTerm := true } hpc
        (by simp [AtDecrement, hpc]) (by simp) (by simp [appended, hpc]) rfl rfl rfl
  | @goOn w read htodo hpc hread =>
      exact .next { s.worker w with pc := .test .stop .timers } hpc (by simp [AtDecrement, hpc])
        (by simp) (by simp [appended, hpc]) rfl rfl rfl
  | @leaveIdle w htodo hpc =>
      exact .next { s.worker w with pc := .scan } hpc (by simp [AtDecrement, hpc])
        (by simp) (by simp [appended, hpc]) rfl rfl rfl
  | @user w self op t htodo hpc hop =>
      exact .outside (by simp) hop.fibres hop.activeThreadCount
        (fun v => by rw [hop.worker])
  | @external j op t htodo hop =>
      exact .outside (by simp) hop.fibres hop.activeThreadCount
        (fun v => by rw [hop.worker])
  | @write w f viaCb st htodo hpc hst =>
      exact .outside (by simp) (by simp [appended]) rfl
        (active_update w { s.worker w with pc := .leaving f viaCb } rfl (by rw [hpc]; rfl))
  | @wake w hpc =>
      exact .outside (by simp) (by simp [appended]) rfl
        (active_update w { s.worker w with pc := .woken } rfl (by rw [hpc]; rfl))
  | @listExpired w due hpc hdue =>
      exact .outside (by simp) (by simp [appended]) rfl
        (active_update w { s.worker w with pc := .expired (due.map PendingTimer.cb) } rfl
          (by rw [hpc]; rfl))
  | @deliver w i x htodo hpc hi =>
      exact .outside (by simp) (by simp [appended, hi, scheduleNoLock]) rfl (fun _ => rfl)
  | @stopEarly w htodo hpc =>
      exact .outside (by simp) (by simp [appended]) rfl
        (active_update w { s.worker w with pc := .test .early .timers } rfl (by rw [hpc]; rfl))
  | @stopCaller w htodo hpc =>
      exact .outside (by simp) (by simp [appended]) rfl
        (active_update w { s.worker w with pc := .test .stop .timers } rfl (by rw [hpc]; rfl))
  | seeIdle _ _ | seeBusy _ _ | writePipe _ | decPending _ | setStopping _ | readPipe _ _
  | stopOther _ _ =>
      exact .outside (by simp) (by simp [appended]) rfl (fun _ => rfl)

end Sys

/-! ## The history -/

/-- What is noted beside the scheduler: the ledger of `m_fibres`, the number of the entry
that each worker dequeued and has not counted down for, and those it has. -/
structure QueueHistory (n : Nat) where
  ledger : Counting.Ledger FibreAndThread (Fin n)
  holding : Fin n → Option Nat
  released : List (Nat × Fin n)

namespace QueueHistory

variable {n : Nat}

def start : QueueHistory n where
  ledger := .start
  holding := fun _ => none
  released := []

def push (h : QueueHistory n) (new : List FibreAndThread) : QueueHistory n :=
  { h with ledger := h.ledger.push new }

/-- The worker dequeues the entry at place `k`. -/
def take (h : QueueHistory n) (w : Fin n) (k : Nat) : QueueHistory n :=
  { h with
    ledger := h.ledger.take k w
    holding := Function.update h.holding w h.ledger.queued[k]? }

/-- The worker counts down. -/
def release (h : QueueHistory n) (w : Fin n) : QueueHistory n :=
  { h with
    holding := Function.update h.holding w none
    released := h.released ++ (h.holding w).toList.map fun i => (i, w) }

end QueueHistory

/-- The scheduler with its history. -/
structure Logged (n m : Nat) where
  sys : Sys n m
  history : QueueHistory n

namespace Logged

variable {n m : Nat}

/-- The history after a step. -/
def record (s : Logged n m) (a : Label n m) : QueueHistory n :=
  match a with
  | .next w =>
      match (s.sys.worker w).pc with
      | .scan =>
          match s.sys.fibres.findIdx? fun it => decide (it.Eligible s.sys.state w) with
          | some k => s.history.take w k
          | none => s.history
      | .swapped .. | .dropped => s.history.release w
      | _ => s.history.push (s.sys.appended a)
  | _ => s.history.push (s.sys.appended a)

def step (s : Logged n m) (a : Label n m) : Option (Logged n m) :=
  (s.sys.step a).map fun t => ⟨t, s.record a⟩

/-- The runs of the scheduler, with what is noted of them. -/
def system (n m : Nat) : System (Logged n m) (Label n m) where
  init := fun s => (Sys.system n m).init s.sys ∧ s.history = .start
  step := step

/-- The worker fits the entry: it is the one the entry is bound to, if any. -/
def Fits (it : FibreAndThread) (w : Fin n) : Prop :=
  it.thread = none ∨ it.thread = some w.val

/-- Nothing is lost and nothing counted wrongly.  Every entry is either queued once or
was dequeued once; each dequeue is either followed by one count-down or the worker is
still between the two, and the active count is the number of workers that are. -/
structure Conserved (s : Logged n m) : Prop where
  accounts : s.history.ledger.Accounts Fits s.sys.fibres
  released : ∀ i w, s.history.ledger.taken.count (i, w) =
    s.history.released.count (i, w) + if s.history.holding w = some i then 1 else 0
  holding : ∀ w, (s.history.holding w).isSome.toNat = (s.sys.worker w).pc.active
  active : s.sys.activeThreadCount =
    (Finset.univ.filter fun w => (s.history.holding w).isSome = true).card

theorem findIdx_dequeued {s : Sys n m} {w : Fin n} {pre post : List FibreAndThread}
    {it : FibreAndThread} (hq : s.fibres = pre ++ it :: post) (hit : it.Eligible s.state w)
    (hpre : ∀ x ∈ pre, ¬ x.Eligible s.state w) :
    s.fibres.findIdx? (fun it => decide (it.Eligible s.state w)) = some pre.length := by
  have hnone : pre.findIdx? (fun it => decide (it.Eligible s.state w)) = none := by
    rw [List.findIdx?_eq_none_iff]
    intro x hx
    simpa using hpre x hx
  rw [hq, List.findIdx?_append, hnone, List.findIdx?_cons]
  simp [hit]

theorem push_nil (h : QueueHistory n) : h.push [] = h := by
  simp [QueueHistory.push, Counting.Ledger.push]

/-- A step that neither takes an entry nor counts down notes what it appends. -/
theorem record_other {s : Logged n m} {a : Label n m}
    (hnext : ∀ w, a = .next w → ¬ s.sys.AtDecrement w ∧
      ((s.sys.worker w).pc = .scan → ∀ x ∈ s.sys.fibres, ¬ x.Eligible s.sys.state w)) :
    s.record a = s.history.push (s.sys.appended a) := by
  cases a with
  | next w =>
      obtain ⟨hat, hscan⟩ := hnext w rfl
      unfold Sys.AtDecrement at hat
      cases hpc : (s.sys.worker w).pc with
      | scan =>
          have hnone : s.sys.fibres.findIdx?
              (fun it => decide (it.Eligible s.sys.state w)) = none := by
            rw [List.findIdx?_eq_none_iff]
            intro x hx
            simpa using hscan hpc x hx
          simp only [record, hpc, hnone, Sys.appended, push_nil]
      | swapped f viaCb => simp [hpc] at hat
      | dropped => simp [hpc] at hat
      | _ => simp only [record, hpc]
  | _ => rfl

/-- The active workers, counted one by one. -/
theorem active_of_holding {s : Logged n m} (hc : s.sys.Counted)
    (hh : ∀ w, (s.history.holding w).isSome.toNat = (s.sys.worker w).pc.active) :
    s.sys.activeThreadCount =
      (Finset.univ.filter fun w => (s.history.holding w).isSome = true).card := by
  rw [hc.active, Finset.card_filter]
  refine Finset.sum_congr rfl fun w _ => ?_
  rw [← hh w]
  cases (s.history.holding w).isSome <;> rfl

/-- **Step lemma.** -/
theorem Conserved.step {s t : Logged n m} {a : Label n m} (h : s.Conserved)
    (hc : t.sys.Counted) (hst : s.step a = some t) :
    t.Conserved := by
  obtain ⟨t', hst', rfl⟩ := Option.map_eq_some_iff.mp hst
  cases Sys.step_kind hst' with
  | @takes w it t hpc hdeq hcount hworker =>
      obtain ⟨pre, post, hq, hleft, hit, hpre⟩ := hdeq
      have hrecord : s.record (.next w) = s.history.take w pre.length := by
        simp only [record, hpc, findIdx_dequeued hq hit hpre]
      have hacc := h.accounts
      rw [hq] at hacc
      obtain ⟨i, hget, _, htaken, hacc'⟩ := hacc.take (o := w) hit.1
      have hold : s.history.holding w = none := by
        have hzero := h.holding w
        rw [hpc] at hzero
        cases hw : s.history.holding w with
        | none => rfl
        | some j =>
            rw [hw] at hzero
            cases hzero
      have hholding : ∀ v, ((s.history.take w pre.length).holding v).isSome.toNat =
          (t'.worker v).pc.active := by
        intro v
        rw [hworker, QueueHistory.take, hget]
        by_cases hv : v = w
        · subst hv
          simp [Pc.active]
        · simp [Function.update_of_ne hv, h.holding v]
      rw [hrecord]
      refine
        { accounts := ?_
          released := ?_
          holding := hholding
          active := active_of_holding hc hholding }
      · rw [hleft]
        exact hacc'
      · intro j v
        have hrel := h.released j v
        simp only [QueueHistory.take, hget, htaken, List.count_append, hrel]
        by_cases hv : v = w
        · subst hv
          by_cases hj : j = i
          · subst hj
            simp [hold]
          · simp [hold, Ne.symm hj]
        · simp [Function.update_of_ne hv, Ne.symm hv]
  | @gives w pc t hat hfibres hcount hworker hpc =>
      have hrecord : s.record (.next w) = s.history.release w := by
        unfold Sys.AtDecrement at hat
        unfold record
        cases hp : (s.sys.worker w).pc <;> simp [hp] at hat ⊢
      have hholding : ∀ v, ((s.history.release w).holding v).isSome.toNat =
          (t'.worker v).pc.active := by
        intro v
        rw [hworker, QueueHistory.release]
        by_cases hv : v = w
        · subst hv
          simp [hpc]
        · simp [Function.update_of_ne hv, h.holding v]
      rw [hrecord]
      refine
        { accounts := ?_
          released := ?_
          holding := hholding
          active := active_of_holding hc hholding }
      · rw [hfibres]
        exact h.accounts
      · intro j v
        have hrel := h.released j v
        simp only [QueueHistory.release, List.count_append, hrel]
        by_cases hv : v = w
        · subst hv
          cases hw : s.history.holding v with
          | none => simp
          | some i =>
              by_cases hj : i = j
              · subst hj
                simp
              · simp [hj]
        · cases hw : s.history.holding w with
          | none => simp [Function.update_of_ne hv]
          | some i => simp [Function.update_of_ne hv, Ne.symm hv]
  | @other a t hnext hfibres hcount hactive =>
      rw [record_other hnext]
      have hholding : ∀ v, (s.history.holding v).isSome.toNat = (t'.worker v).pc.active :=
        fun v => (h.holding v).trans (hactive v).symm
      refine
        { accounts := ?_
          released := h.released
          holding := hholding
          active := active_of_holding hc hholding }
      rw [hfibres]
      exact h.accounts.push _

theorem Conserved.start {s : Logged n m} (h : (system n m).init s) : s.Conserved := by
  obtain ⟨⟨_, useCaller, hsys⟩, hhist⟩ := h
  have hholding : ∀ w, (s.history.holding w).isSome.toNat = (s.sys.worker w).pc.active := by
    intro w
    rw [hsys, hhist]
    simp only [Sys.start, QueueHistory.start]
    split <;> rfl
  refine
    { accounts := ?_
      released := ?_
      holding := hholding
      active := active_of_holding (hsys ▸ Sys.Counted.start useCaller) hholding }
  · rw [hsys, hhist]
    exact Counting.Ledger.Accounts.start
  · intro i w
    simp [hhist, QueueHistory.start, Counting.Ledger.start]

/-- The scheduler runs as it does without the history. -/
theorem sys_reachable {s : Logged n m} (h : (system n m).Reachable anyStep s) :
    (Sys.system n m).Reachable anyStep s.sys := by
  obtain ⟨s₀, hinit, hreach⟩ := h
  induction hreach with
  | refl => exact ⟨s₀.sys, hinit.1, System.Reaches.refl⟩
  | step _ _ hst ih =>
      obtain ⟨t, ht, rfl⟩ := Option.map_eq_some_iff.mp hst
      exact System.Reachable.step ih trivial ht

theorem conserved_of_reachable {s : Logged n m} (h : (system n m).Reachable anyStep s) :
    s.Conserved := by
  have hinv : s.sys.Counted ∧ s.Conserved := by
    refine h.invariant (fun s => s.sys.Counted ∧ s.Conserved) ?_ ?_
    · intro s hs
      obtain ⟨⟨_, useCaller, hsys⟩, _⟩ := id hs
      exact ⟨hsys ▸ Sys.Counted.start useCaller, Conserved.start hs⟩
    · rintro s a t ⟨hc, hs⟩ _ hst
      obtain ⟨t', ht', rfl⟩ := Option.map_eq_some_iff.mp hst
      exact ⟨hc.step ht', hs.step (hc.step ht') hst⟩
  exact hinv.2

end Logged

/-- **Task queue conservation.**  In every reachable state every entry that was pushed is
queued or was dequeued by one worker that it fits, and the active count is the number of
workers between their dequeue and their count-down, none of which is at the top of its
loop.  A step appends to the queue or takes the first entry that is eligible for its
worker, and a count-down finds a positive count. -/
theorem queue_conservation {n m : Nat} {s : Logged n m}
    (h : (Logged.system n m).Reachable anyStep s) :
    s.Conserved ∧
      (∀ w, (s.sys.worker w).pc = .scan → s.history.holding w = none) ∧
      ∀ a t, s.sys.step a = some t →
        (t.fibres = s.sys.fibres ++ s.sys.appended a ∨
          ∃ w it, a = .next w ∧ s.sys.Dequeues w it t) ∧
        ∀ w, a = .next w → s.sys.AtDecrement w →
          t.activeThreadCount + 1 = s.sys.activeThreadCount := by
  have hcons := Logged.conserved_of_reachable h
  refine ⟨hcons, ?_, ?_⟩
  · intro w hpc
    have hzero := hcons.holding w
    rw [hpc] at hzero
    cases hw : s.history.holding w with
    | none => rfl
    | some i =>
        rw [hw] at hzero
        cases hzero
  · intro a t hst
    have hc := Sys.counted_of_reachable (Logged.sys_reachable h)
    cases Sys.step_kind hst with
    | @takes w it t hpc hdeq hcount hworker =>
        refine ⟨Or.inr ⟨w, it, rfl, hdeq⟩, ?_⟩
        rintro v ⟨⟩ hat
        rw [Sys.AtDecrement, hpc] at hat
        exact hat.elim
    | @gives w pc t hat hfibres hcount hworker hpc =>
        have happ : s.sys.appended (.next w) = [] := by
          unfold Sys.AtDecrement at hat
          unfold Sys.appended
          cases hp : (s.sys.worker w).pc <;> simp [hp] at hat ⊢
        refine ⟨Or.inl (by rw [hfibres, happ, List.append_nil]), ?_⟩
        rintro v ⟨⟩ _
        have hle := hc.le_active w
        have hone : (s.sys.worker w).pc.active = 1 := by
          unfold Sys.AtDecrement at hat
          cases hp : (s.sys.worker w).pc <;> simp [hp, Pc.active] at hat ⊢
        omega
    | @other a t hnext hfibres hcount hactive =>
        exact ⟨Or.inl hfibres, fun w hw hat => absurd hat (hnext w hw).1⟩

/-- A batch with an empty task, a callback bound to the second worker and a fibre: the
first worker passes over the bound callback. -/
def boundCallbackRun : List (Label 2 1) :=
  [.external 0 (.schedule (some (.cb 7)) (some 1)), .micro (.inr 0), .external 0 .newFibre,
    .external 0 (.scheduleAll [none, some (.fibre 0), some (.cb 8)]), .next 0, .micro (.inl 0),
    .next 1, .micro (.inl 1), .next 0, .next 0, .write 0 .term, .next 0, .next 0]

theorem queue_conservation_boundCallback :
    ∃ s, (Logged.system 2 1).exec ⟨Sys.start 2 1 false, .start⟩ boundCallbackRun = some s ∧
      s.history.ledger.taken = [(1, 0), (0, 1)] ∧ s.history.ledger.queued = [2] ∧
      s.sys.activeThreadCount = 1 ∧ s.Conserved := by
  have hrun : ((Logged.system 2 1).exec ⟨Sys.start 2 1 false, .start⟩ boundCallbackRun).map
      (fun s => (s.history.ledger.taken, s.history.ledger.queued, s.sys.activeThreadCount)) =
      some ([(1, 0), (0, 1)], [2], 1) := by decide
  obtain ⟨s, hs, hseen⟩ := Option.map_eq_some_iff.mp hrun
  simp only [Prod.mk.injEq] at hseen
  exact ⟨s, hs, hseen.1, hseen.2.1, hseen.2.2,
    (queue_conservation (System.exec_reachable ⟨⟨by decide, false, rfl⟩, rfl⟩ hs)).1⟩

end Concurrency
end Hpgs
