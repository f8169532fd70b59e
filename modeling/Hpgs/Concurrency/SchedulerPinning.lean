import Hpgs.Concurrency.SchedulerQueue

/-!
# A fibre that is bound to a thread

The thread that a fibre is bound to is kept in its queue entry only.  When the fibre
yields with `YieldToReady`, `run` queues it again with `schedule(ft.fibre)`, and so for
any thread.

**Results.**
* `step_hand`: how a fibre comes into a worker's hand.
* `pinned_fibre_stays`: the fibre runs on its thread only, as long as no other worker's
  scan comes to the entry that the yield left.
* `pinned_fibre_moves`: a fibre bound to the first worker runs on the second.
-/

namespace Hpgs
namespace Concurrency

open Counting Transition

/-- The worker has the fibre, or is about to queue it again. -/
def Pc.Holds (f : Nat) (pc : Pc) : Prop :=
  pc.InHand f ∨ pc = .requeue f

namespace Sys

variable {n m : Nat}

/-- The fibre was made, but it is not queued and no worker refers to it. -/
structure Unscheduled (s : Sys n m) (f : Nat) : Prop where
  queue : ∀ it ∈ s.fibres, it.task ≠ .fibre f
  worker : ∀ w, ¬ (s.worker w).Refers f

/-- The step is a call of `schedule` that binds the fibre to thread `t`. -/
def Schedules (f t : Nat) : Label n m → Prop
  | .user _ op | .external _ op => op = .schedule (some (.fibre f)) (some t)
  | _ => False

/-- Nobody but `run` queues the fibre, and it yields with `YieldToReady` only. -/
def Undisturbed (f : Nat) (s : Sys n m) : Label n m → Prop
  | .next _ => True
  | .write w st => (∃ viaCb, (s.worker w).pc = .running f viaCb) → st ≠ .hold
  | a => ∀ it ∈ s.appended a, it.task ≠ .fibre f

/-- **The condition.**  Where a worker other than thread `t` scans the queue, the first
entry that is eligible for it is not an unbound entry of the fibre. -/
def LeavesFibre (f t : Nat) (s : Sys n m) : Label n m → Prop
  | .next w =>
      (s.worker w).pc = .scan → w.val ≠ t →
        s.fibres.find? (fun it => decide (it.Eligible s.state w)) ≠ some ⟨.fibre f, none⟩
  | _ => True

instance (wk : Worker) (f : Nat) : Decidable (wk.Refers f) :=
  inferInstanceAs (Decidable (_ ∨ _ ∨ _))

instance (s : Sys n m) (f : Nat) : Decidable (s.Unscheduled f) :=
  decidable_of_iff ((∀ it ∈ s.fibres, it.task ≠ .fibre f) ∧ ∀ w, ¬ (s.worker w).Refers f)
    ⟨fun h => ⟨h.1, h.2⟩, fun h => ⟨h.queue, h.worker⟩⟩

instance (f : Nat) (s : Sys n m) : ∀ a : Label n m, Decidable (s.Undisturbed f a)
  | .next _ => isTrue trivial
  | .write w st =>
      inferInstanceAs
        (Decidable ((∃ viaCb, (s.worker w).pc = .running f viaCb) → st ≠ .hold))
  | .micro _ | .user .. | .external .. | .wake _ | .listExpired .. | .readPipe _
  | .deliver .. | .stop _ =>
      inferInstanceAs (Decidable (∀ it ∈ s.appended _, it.task ≠ .fibre f))

instance (f t : Nat) (s : Sys n m) : ∀ a : Label n m, Decidable (s.LeavesFibre f t a)
  | .next w =>
      inferInstanceAs (Decidable
        ((s.worker w).pc = .scan → w.val ≠ t →
          s.fibres.find? (fun it => decide (it.Eligible s.state w)) ≠ some ⟨.fibre f, none⟩))
  | .micro _ | .user .. | .external .. | .write .. | .wake _ | .listExpired ..
  | .readPipe _ | .deliver .. | .stop _ => isTrue trivial

/-! ## How a fibre changes hands -/

/-- How a worker came to hold the fibre. -/
def Got (s : Sys n m) (a : Label n m) (t : Sys n m) (f : Nat) (w : Fin n) : Prop :=
  (s.worker w).pc.Holds f ∨
    (a = .next w ∧ (s.worker w).pc = .scan ∧ ∃ it, s.Dequeues w it t ∧ it.task = .fibre f) ∨
    (s.worker w).cbFibre = some f ∨
    f = s.made

/-- Only the worker `w` changes. -/
theorem got_update {s t : Sys n m} {a : Label n m} {f : Nat} (w : Fin n) (wk : Worker)
    (hworker : t.worker = Function.update s.worker w wk)
    (hwk : wk.pc.Holds f → s.Got a t f w) :
    ∀ v, (t.worker v).pc.Holds f → s.Got a t f v := by
  intro v hv
  rw [hworker] at hv
  by_cases hvw : v = w
  · subst hvw
    rw [Function.update_self] at hv
    exact hwk hv
  · rw [Function.update_of_ne hvw] at hv
    exact Or.inl hv

theorem got_same {s t : Sys n m} {a : Label n m} {f : Nat} (hworker : t.worker = s.worker) :
    ∀ v, (t.worker v).pc.Holds f → s.Got a t f v := by
  intro v hv
  rw [hworker] at hv
  exact Or.inl hv

/-- The worker goes on to a place where it holds nothing. -/
theorem got_none {s t : Sys n m} {a : Label n m} {f : Nat} (w : Fin n) (wk : Worker)
    (hworker : t.worker = Function.update s.worker w wk) (hwk : ¬ wk.pc.Holds f) :
    ∀ v, (t.worker v).pc.Holds f → s.Got a t f v :=
  got_update w wk hworker fun h => absurd h hwk

/-- The worker goes on with what it had. -/
theorem got_kept {s t : Sys n m} {a : Label n m} {f : Nat} {w : Fin n} {pc : Pc}
    (hpc : (s.worker w).pc = pc) (wk : Worker)
    (hworker : t.worker = Function.update s.worker w wk)
    (hwk : wk.pc.Holds f → pc.Holds f) :
    ∀ v, (t.worker v).pc.Holds f → s.Got a t f v :=
  got_update w wk hworker fun h => Or.inl (hpc ▸ hwk h)

theorem Goes.holds {s : Sys n m} {wk : Worker} {pc pc' : Pc} {f : Nat}
    (hgoes : s.Goes wk pc pc') :
    pc'.Holds f → pc.Holds f := by
  cases hgoes <;> simp [Pc.Holds, Pc.InHand]

/-- **How a fibre comes into a worker's hand.** -/
theorem step_hand {s t : Sys n m} {a : Label n m} {f : Nat} (hst : s.step a = some t) :
    ∀ v, (t.worker v).pc.Holds f → s.Got a t f v := by
  have hkind := step_kind hst
  cases step_cases hst with
  | @goes w pc pc' htodo hpc hgoes =>
      exact got_kept hpc { s.worker w with pc := pc' } rfl hgoes.holds
  | @take w ft htodo hpc hft =>
      cases hkind with
      | @takes w it t hpc hdeq hcount hworker =>
          refine got_update w _ hworker fun h => Or.inr (Or.inl ⟨rfl, hpc, it, hdeq, ?_⟩)
          simpa [Pc.Holds, Pc.InHand] using h
      | @gives w pc t hat hfibres hcount hworker hpc' =>
          rw [AtDecrement, hpc] at hat
          exact hat.elim
      | @other a t hnext hfibres hcount hactive =>
          have hone := hactive w
          simp [hpc, Pc.active] at hone
  | @reuse w c g htodo hpc hcb hstate =>
      refine got_update w { s.worker w with pc := .entering g true } rfl fun h => ?_
      have hg : g = f := by simpa [Pc.Holds, Pc.InHand] using h
      exact Or.inr (Or.inr (Or.inl (hg ▸ hcb)))
  | @create w c htodo hpc hcb =>
      refine got_update w
        { s.worker w with pc := .entering s.made true, cbFibre := some s.made } rfl fun h => ?_
      have hg : s.made = f := by simpa [Pc.Holds, Pc.InHand] using h
      exact Or.inr (Or.inr (Or.inr hg.symm))
  | @swapIn w g viaCb htodo hpc hstate =>
      exact got_kept hpc { s.worker w with pc := .running g viaCb } rfl
        (by simp [Pc.Holds, Pc.InHand])
  | @giveUp w g viaCb htodo hpc =>
      exact got_kept hpc { s.worker w with pc := .check g viaCb } rfl
        (by simp [Pc.Holds, Pc.InHand])
  | @ready w g viaCb htodo hpc hstate =>
      rw [dropCb_goto]
      exact got_kept hpc _ rfl (by simp [Pc.Holds, Pc.InHand])
  | @finished w g viaCb htodo hpc hstate =>
      cases viaCb <;> exact got_none w { s.worker w with pc := .scan } rfl
        (by simp [Pc.Holds, Pc.InHand])
  | @hold w g viaCb htodo hpc hstate =>
      rw [dropCb_goto]
      exact got_none w _ rfl (by simp [Pc.Holds, Pc.InHand])
  | @write w g viaCb st htodo hpc hst =>
      exact got_kept hpc { s.worker w with pc := .leaving g viaCb } rfl
        (by simp [Pc.Holds, Pc.InHand])
  | @miss w _ _ _ | @dropped w _ _ | @requeue w _ _ _ | @enterIdle w _ _ _ | @endIdle w _ _ _
  | @goOn w _ _ _ _ | @pushExpired w _ _ _ | @leaveIdle w _ _ | @wake w _
  | @listExpired w _ _ _ | @stopEarly w _ _ | @stopCaller w _ _ =>
      exact got_none w _ rfl (by simp [Pc.Holds, Pc.InHand])
  | user _ _ hop => exact got_same hop.worker
  | external _ hop => exact got_same hop.worker
  | seeIdle _ _ | seeBusy _ _ | writePipe _ | decPending _ | setStopping _ | readPipe _ _
  | deliver _ _ _ | stopOther _ _ => exact got_same rfl

/-- Only the worker `w` changes, and it gets no other `cb_fibre` than a new one. -/
theorem cbFibre_update {s t : Sys n m} {f : Nat} (w : Fin n) (wk : Worker)
    (hworker : t.worker = Function.update s.worker w wk)
    (hwk : wk.cbFibre = some f → (s.worker w).cbFibre = some f ∨ f = s.made) :
    ∀ v, (t.worker v).cbFibre = some f → (s.worker v).cbFibre = some f ∨ f = s.made := by
  intro v hv
  rw [hworker] at hv
  by_cases hvw : v = w
  · subst hvw
    rw [Function.update_self] at hv
    exact hwk hv
  · rw [Function.update_of_ne hvw] at hv
    exact Or.inl hv

theorem cbFibre_dropped {s : Sys n m} {f : Nat} (w : Fin n) (viaCb : Bool) :
    (if viaCb then none else (s.worker w).cbFibre) = some f →
      (s.worker w).cbFibre = some f ∨ f = s.made := by
  cases viaCb with
  | false => exact Or.inl
  | true => exact fun h => nomatch h

/-- **How a fibre becomes a `cb_fibre`.**  The worker has just made it. -/
theorem step_cbFibre {s t : Sys n m} {a : Label n m} {f : Nat} (hst : s.step a = some t) :
    ∀ v, (t.worker v).cbFibre = some f → (s.worker v).cbFibre = some f ∨ f = s.made := by
  cases step_cases hst with
  | @create w c htodo hpc hcb =>
      refine cbFibre_update w
        { s.worker w with pc := .entering s.made true, cbFibre := some s.made } rfl fun h => ?_
      exact Or.inr (Option.some.inj h).symm
  | @ready w g viaCb htodo hpc hstate =>
      rw [dropCb_goto]
      exact cbFibre_update w _ rfl (cbFibre_dropped w viaCb)
  | @hold w g viaCb htodo hpc hstate =>
      rw [dropCb_goto]
      exact cbFibre_update w _ rfl (cbFibre_dropped w viaCb)
  | @finished w g viaCb htodo hpc hstate =>
      cases viaCb <;> exact cbFibre_update w { s.worker w with pc := .scan } rfl Or.inl
  | @goes w _ _ _ _ _ | @take w _ _ _ _ | @reuse w _ _ _ _ _ _ | @swapIn w _ _ _ _ _
  | @giveUp w _ _ _ _ | @write w _ _ _ _ _ _ | @miss w _ _ _ | @dropped w _ _
  | @requeue w _ _ _ | @enterIdle w _ _ _ | @endIdle w _ _ _ | @goOn w _ _ _ _
  | @pushExpired w _ _ _ | @leaveIdle w _ _ | @wake w _ | @listExpired w _ _ _
  | @stopEarly w _ _ | @stopCaller w _ _ =>
      exact cbFibre_update w _ rfl Or.inl
  | user _ _ hop =>
      intro v hv
      rw [hop.worker] at hv
      exact Or.inl hv
  | external _ hop =>
      intro v hv
      rw [hop.worker] at hv
      exact Or.inl hv
  | seeIdle _ _ | seeBusy _ _ | writePipe _ | decPending _ | setStopping _ | readPipe _ _
  | deliver _ _ _ | stopOther _ _ => exact fun v hv => Or.inl hv

/-- No fibre is unmade. -/
theorem step_made {s t : Sys n m} {a : Label n m} (hst : s.step a = some t) :
    s.made ≤ t.made := by
  cases step_cases hst with
  | create _ _ _ => exact Nat.le_succ _
  | ready _ _ _ | hold _ _ _ => rw [dropCb_goto]; exact le_rfl
  | @finished w g viaCb htodo hpc hstate => cases viaCb <;> exact le_rfl
  | user _ _ hop => cases hop <;> first | exact le_rfl | exact Nat.le_succ _
  | external _ hop => cases hop <;> first | exact le_rfl | exact Nat.le_succ _
  | _ => exact le_rfl

/-! ## The invariant -/

/-- Only thread `t` holds the fibre, it is no `cb_fibre`, and its queue entries are bound
to `t` or were left by a yield. -/
structure Bound (s : Sys n m) (f t : Nat) : Prop where
  made : f < s.made
  hand : ∀ w, (s.worker w).pc.Holds f → w.val = t
  cbFibre : ∀ w, (s.worker w).cbFibre ≠ some f
  queue : ∀ it ∈ s.fibres, it.task = .fibre f → it.thread = some t ∨ it.thread = none

/-- The entry that a scan takes is the first that is eligible. -/
theorem Dequeues.find {s t : Sys n m} {w : Fin n} {it : FibreAndThread}
    (h : s.Dequeues w it t) :
    s.fibres.find? (fun it => decide (it.Eligible s.state w)) = some it := by
  obtain ⟨pre, post, hq, _, hit, hpre⟩ := h
  rw [List.find?_eq_some_iff_append]
  refine ⟨by simpa using hit, pre, post, hq, ?_⟩
  intro x hx
  simpa using hpre x hx

/-- What `run` itself appends for a fibre is bound to no thread. -/
theorem appended_next {s : Sys n m} {w : Fin n} {it : FibreAndThread}
    (hit : it ∈ s.appended (.next w)) :
    it.thread = none := by
  simp only [appended] at hit
  split at hit
  · rw [List.mem_singleton.mp hit]
  · obtain ⟨c, _, rfl⟩ := List.mem_map.mp hit
    rfl
  · cases hit

/-- What others append is not the fibre. -/
theorem Undisturbed.appended {s : Sys n m} {f : Nat} {a : Label n m}
    (h : s.Undisturbed f a) {it : FibreAndThread} (hit : it ∈ s.appended a)
    (htask : it.task = .fibre f) :
    it.thread = none := by
  cases a with
  | next w => exact appended_next hit
  | write w st => cases hit
  | _ => exact absurd htask (h it hit)

/-- **Step lemma.** -/
theorem Bound.step {s u : Sys n m} {f t : Nat} {a : Label n m} (h : s.Bound f t)
    (hpremise : s.Undisturbed f a) (hcond : s.LeavesFibre f t a)
    (hst : s.step a = some u) :
    u.Bound f t where
  made := Nat.lt_of_lt_of_le h.made (step_made hst)
  hand := by
    intro w hw
    rcases step_hand hst w hw with hold | ⟨rfl, hpc, it, hdeq, htask⟩ | hcb | hnew
    · exact h.hand w hold
    · -- an entry of the fibre is bound to `t`, or the condition keeps others from it
      by_contra hne
      obtain ⟨pre, post, hq, _, hit, _⟩ := id hdeq
      have hmem : it ∈ s.fibres := by rw [hq]; simp
      rcases h.queue it hmem htask with hthread | hthread
      · rcases hit.1 with hnone | hme
        · rw [hthread] at hnone
          cases hnone
        · rw [hthread] at hme
          exact hne (Option.some.inj hme).symm
      · refine hcond hpc hne ?_
        rw [hdeq.find, ← htask, ← hthread]
    · exact absurd hcb (h.cbFibre w)
    · exact absurd h.made (by omega)
  cbFibre := by
    intro w hw
    rcases step_cbFibre hst w hw with hold | hnew
    · exact h.cbFibre w hold
    · exact absurd h.made (by omega)
  queue := by
    intro it hit htask
    cases step_kind hst with
    | @takes w x u hpc hdeq hcount hworker =>
        obtain ⟨pre, post, hq, hleft, _, _⟩ := hdeq
        refine h.queue it ?_ htask
        rw [hleft] at hit
        rw [hq]
        exact (List.sublist_cons_self x post |>.append_left pre).subset hit
    | @gives w pc u hat hfibres hcount hworker hpc =>
        rw [hfibres] at hit
        exact h.queue it hit htask
    | @other a u hnext hfibres hcount hactive =>
        rw [hfibres] at hit
        rcases List.mem_append.mp hit with hit | hit
        · exact h.queue it hit htask
        · exact Or.inr (hpremise.appended hit htask)

theorem Performs.bound {s u : Sys n m} {th : Thread n m} {self : Option Nat} {f t : Nat}
    (hfree : s.Unscheduled f)
    (hop : s.Performs th self (.schedule (some (.fibre f)) (some t)) u) :
    u.Bound f t := by
  have hfibres := hop.fibres
  have hworker := hop.worker
  have hmade : u.made = s.made := by cases hop; rfl
  refine
    { made := ?_
      hand := ?_
      cbFibre := ?_
      queue := ?_ }
  · rw [hmade]
    cases hop with
    | schedule hm => exact hm (.fibre f) rfl
  · intro w hw
    rw [hworker] at hw
    refine absurd ?_ (hfree.worker w)
    rcases hw with hin | hreq
    · exact Or.inl hin
    · exact Or.inr (Or.inl hreq)
  · intro w hw
    rw [hworker] at hw
    exact hfree.worker w (Or.inr (Or.inr hw))
  · intro it hit htask
    rw [hfibres] at hit
    rcases List.mem_append.mp hit with hit | hit
    · exact absurd htask (hfree.queue it hit)
    · simp only [pushes, Option.toList_some, List.map_cons, List.map_nil,
        List.mem_singleton] at hit
      exact Or.inl (by rw [hit])

/-- The call that binds the fibre. -/
theorem bound_of_schedules {s u : Sys n m} {f t : Nat} {a : Label n m}
    (hfree : s.Unscheduled f) (ha : Schedules f t a) (hst : s.step a = some u) :
    u.Bound f t := by
  cases a with
  | user w op =>
      obtain rfl := ha
      cases step_cases hst with
      | user _ _ hop => exact hop.bound hfree
  | external j op =>
      obtain rfl := ha
      cases step_cases hst with
      | external _ hop => exact hop.bound hfree
  | _ => exact ha.elim

end Sys

/-- **Pinned fibres stay pinned**, in every run in which no scan of another worker comes
to the entry that a yield left. -/
theorem pinned_fibre_stays {n m f t : Nat} {s₀ s₁ s : Sys n m} {a : Label n m}
    (hfree : s₀.Unscheduled f) (ha : Sys.Schedules f t a) (hst : s₀.step a = some s₁)
    (hrun : (Sys.system n m).Reaches
      (fun s a => s.Undisturbed f a ∧ s.LeavesFibre f t a) s₁ s)
    (w : Fin n) (viaCb : Bool) (hpc : (s.worker w).pc = .running f viaCb) :
    w.val = t := by
  have hbound : s.Bound f t :=
    hrun.invariant (fun s => s.Bound f t)
      (fun s b u hs hc hu => hs.step hc.1 hc.2 hu)
      (Sys.bound_of_schedules hfree ha hst)
  exact hbound.hand w (Or.inl (by rw [hpc]; rfl))

/-- A fibre was made, and is not scheduled yet. -/
def madeFibre : Sys 2 1 :=
  { Sys.start 2 1 false with made := 1 }.setState 0 .init

/-- It is scheduled, bound to the first worker. -/
def bindFibre : Label 2 1 :=
  .external 0 (.schedule (some (.fibre 0)) (some 0))

/-- The first worker runs the fibre until it yields and is queued again. -/
def yieldingRun : List (Label 2 1) :=
  [.micro (.inr 0), .next 0, .next 0, .next 0, .write 0 .ready, .next 0, .next 0, .next 0,
    .next 0, .micro (.inl 0)]

/-- The first worker takes it back before the second one looks. -/
theorem pinned_fibre_stays_takenBack :
    ∃ s₁ s, madeFibre.step bindFibre = some s₁ ∧
      (Sys.system 2 1).execIf (fun s a => s.Undisturbed 0 a ∧ s.LeavesFibre 0 0 a) s₁
        (yieldingRun ++ [.next 0, .next 0, .next 0, .next 1]) = some s ∧
      (s.worker 0).pc = .running 0 false ∧
      ∀ w viaCb, (s.worker w).pc = .running 0 viaCb → w.val = 0 := by
  have hrun : (((madeFibre.step bindFibre).bind
      fun s₁ => (Sys.system 2 1).execIf (fun s a => s.Undisturbed 0 a ∧ s.LeavesFibre 0 0 a) s₁
        (yieldingRun ++ [.next 0, .next 0, .next 0, .next 1])).map fun s => (s.worker 0).pc) =
      some (.running 0 false) := by decide
  obtain ⟨s, hs, hpc⟩ := Option.map_eq_some_iff.mp hrun
  obtain ⟨s₁, hs₁, hs⟩ := Option.bind_eq_some_iff.mp hs
  exact ⟨s₁, s, hs₁, hs, hpc,
    pinned_fibre_stays (a := bindFibre) (by decide) rfl hs₁ (System.execIf_reaches hs)⟩

/-- The entry that the yield left is taken by the second worker. -/
theorem pinned_fibre_moves :
    ¬ ∀ (n m f t : Nat) (s₀ s₁ s : Sys n m) (a : Label n m),
      (Sys.system n m).Reachable anyStep s₀ → s₀.Unscheduled f → Sys.Schedules f t a →
      s₀.step a = some s₁ →
      (Sys.system n m).Reaches (fun s a => s.Undisturbed f a) s₁ s →
      ∀ w viaCb, (s.worker w).pc = .running f viaCb → w.val = t := by
  intro hall
  have hrun : (((madeFibre.step bindFibre).bind
      fun s₁ => (Sys.system 2 1).execIf (fun s a => s.Undisturbed 0 a) s₁
        (yieldingRun ++ [.next 1, .next 1, .next 1])).map fun s => (s.worker 1).pc) =
      some (.running 0 false) := by decide
  obtain ⟨s, hs, hpc⟩ := Option.map_eq_some_iff.mp hrun
  obtain ⟨s₁, hs₁, hs⟩ := Option.bind_eq_some_iff.mp hs
  have hmade : (Sys.system 2 1).exec (Sys.start 2 1 false) [.external 0 .newFibre] =
      some madeFibre := rfl
  have hone := hall 2 1 0 0 madeFibre s₁ s bindFibre
    (System.exec_reachable ⟨by decide, false, rfl⟩ hmade) (by decide) rfl hs₁
    (System.execIf_reaches hs) 1 false hpc
  exact absurd hone (by decide)

end Concurrency
end Hpgs
