import Hpgs.Concurrency.SchedulerInvariants

/-!
# A fibre runs on one worker at a time

A fibre that is on its way out may be queued again by another thread.  The scan of
`run` skips a fibre whose state is `EXEC`, but the fibre itself writes `HOLD` or `READY`
before its context is saved, and `run` looks at the state once more after `swapIn`
returned.

**Results.**
* `Exclusive`: at most one worker executes a fibre, and no other worker touches it.
* `exclusive_of_takesFree`: this holds as long as no worker takes a fibre that another
  one still has in hand.
* `exclusive_fails`: two workers execute one fibre that was queued while it ran.
-/

namespace Hpgs
namespace Concurrency

open Transition

/-- The state of a fibre that ran to its end. -/
def State.Ended (st : State) : Prop :=
  st = .term ∨ st = .except

instance (st : State) : Decidable st.Ended :=
  inferInstanceAs (Decidable (_ ∨ _))

/-- The worker is between `swapIn` of the fibre and the completion of its swap-out. -/
def Pc.Executes (f : Nat) : Pc → Prop
  | .running g _ | .leaving g _ => g = f
  | _ => False

/-- The fibre, where the worker runs its `cb_fibre`. -/
def Pc.cbOf : Pc → Option Nat
  | .entering f true | .running f true | .leaving f true | .swapped f true
  | .check f true => some f
  | _ => none

theorem Pc.Executes.inHand {f : Nat} {pc : Pc} (h : pc.Executes f) : pc.InHand f := by
  cases pc <;> first | exact h | exact h.elim

namespace Sys

variable {n m : Nat}

/-- The fibre that the next step of the worker swaps in, resets, or overwrites the
state of. -/
def touched (s : Sys n m) (w : Fin n) : Option Nat :=
  match (s.worker w).pc with
  | .entering f _ => some f
  | .dispatch (.cb _) => (s.worker w).cbFibre
  | .check f viaCb =>
      if s.state f = .ready then none
      else if s.state f = .term ∨ s.state f = .except then (if viaCb then some f else none)
      else some f
  | _ => none

/-- At most one worker executes a fibre, and the next step of another worker does not
touch it. -/
structure Exclusive (s : Sys n m) : Prop where
  one : ∀ w w' f, (s.worker w).pc.Executes f → (s.worker w').pc.Executes f → w = w'
  undisturbed : ∀ w w' f, (s.worker w).pc.Executes f → w' ≠ w → s.touched w' = some f →
    s.step (.next w') = none

/-- **The condition.**  The scan of a worker takes no fibre that another worker keeps as
its `cb_fibre`, or has in hand while the fibre has not ended. -/
def TakesFree (s : Sys n m) : Label n m → Prop
  | .next w =>
      match (s.worker w).pc, (scanQueue s.state w s.fibres).ft with
      | .scan, some (.fibre f) =>
          ∀ w', w' ≠ w → (s.worker w').cbFibre ≠ some f ∧
            ((s.worker w').pc.InHand f → (s.state f).Ended)
      | _, _ => True
  | _ => True

instance (s : Sys n m) (a : Label n m) : Decidable (s.TakesFree a) := by
  unfold TakesFree
  split
  · split <;> infer_instance
  · infer_instance

/-! ## The invariant -/

/-- Only a fibre that ended is in hand twice, and then one of the two workers is about to
see that. -/
structure Separated (s : Sys n m) : Prop where
  kept : ∀ w f, (s.worker w).cbFibre = some f → ∀ w', w' ≠ w →
    ¬ (s.worker w').pc.InHand f ∧ (s.worker w').cbFibre ≠ some f
  shared : ∀ w w' f, w ≠ w' → (s.worker w).pc.InHand f → (s.worker w').pc.InHand f →
    (s.state f).Ended ∧
      ((s.worker w).pc = .dispatch (.fibre f) ∨ (s.worker w').pc = .dispatch (.fibre f))
  alive : ∀ w f b, (s.worker w).pc = .entering f b ∨ (s.worker w).pc = .running f b →
    ¬ (s.state f).Ended
  viaCb : ∀ w f, (s.worker w).pc.cbOf = some f → (s.worker w).cbFibre = some f

theorem Separated.exclusive {s : Sys n m} (h : s.Separated) : s.Exclusive where
  one := by
    intro w w' f hw hw'
    by_contra hne
    obtain ⟨_, hd | hd⟩ := h.shared w w' f hne hw.inHand hw'.inHand
    · rw [hd] at hw
      exact hw
    · rw [hd] at hw'
      exact hw'
  undisturbed := by
    intro w w' f hw hne htouch
    exfalso
    -- whoever touches the fibre has it in hand or keeps it
    have hin : ¬ (s.worker w').pc.InHand f ∨ (s.worker w').pc = .dispatch (.fibre f) := by
      by_cases hin : (s.worker w').pc.InHand f
      · obtain ⟨_, hd | hd⟩ := h.shared w w' f (Ne.symm hne) hw.inHand hin
        · rw [hd] at hw
          exact hw.elim
        · exact Or.inr hd
      · exact Or.inl hin
    have hkept : (s.worker w').cbFibre ≠ some f :=
      fun hcb => (h.kept w' f hcb w (Ne.symm hne)).1 hw.inHand
    unfold touched at htouch
    cases hpc : (s.worker w').pc with
    | entering g b =>
        rw [hpc] at htouch hin
        simp only [Option.some.injEq] at htouch
        simp [Pc.InHand, htouch] at hin
    | dispatch ft =>
        rw [hpc] at htouch
        cases ft with
        | fibre g => simp at htouch
        | cb c => exact hkept htouch
    | check g b =>
        rw [hpc] at htouch hin
        have hg : g = f := by
          revert htouch
          cases b <;> (simp only; split_ifs <;> simp)
        simp [Pc.InHand, hg] at hin
    | _ => simp [hpc] at htouch

namespace Separated

variable {s t : Sys n m}

/-- A fibre in hand that has not ended is in nobody else's hand. -/
theorem sole (h : s.Separated) {w : Fin n} {f : Nat} (hin : (s.worker w).pc.InHand f)
    (halive : ¬ (s.state f).Ended) :
    ∀ w', w' ≠ w → ¬ (s.worker w').pc.InHand f := by
  intro w' hne hin'
  exact halive (h.shared w w' f (Ne.symm hne) hin hin').1

/-- One worker changes to `wk`, and with it only states of fibres that no other worker
has in hand. -/
theorem update (h : s.Separated) (w : Fin n) (wk : Worker)
    (hworker : t.worker = Function.update s.worker w wk)
    (hstate : ∀ f, t.state f ≠ s.state f → ∀ w', w' ≠ w → ¬ (s.worker w').pc.InHand f)
    (hkept : ∀ f, wk.cbFibre = some f → ∀ w', w' ≠ w →
      ¬ (s.worker w').pc.InHand f ∧ (s.worker w').cbFibre ≠ some f)
    (hfree : ∀ f, wk.pc.InHand f → ∀ w', w' ≠ w → (s.worker w').cbFibre ≠ some f ∧
      ((s.worker w').pc.InHand f → (s.state f).Ended ∧
        (wk.pc = .dispatch (.fibre f) ∨ (s.worker w').pc = .dispatch (.fibre f))))
    (halive : ∀ f b, wk.pc = .entering f b ∨ wk.pc = .running f b → ¬ (t.state f).Ended)
    (hvia : ∀ f, wk.pc.cbOf = some f → wk.cbFibre = some f) :
    t.Separated := by
  have hself : t.worker w = wk := by rw [hworker, Function.update_self]
  have hother : ∀ w', w' ≠ w → t.worker w' = s.worker w' := by
    intro w' hne
    rw [hworker, Function.update_of_ne hne]
  have hsame : ∀ w' f, w' ≠ w → (s.worker w').pc.InHand f → t.state f = s.state f := by
    intro w' f hne hin
    by_contra hch
    exact hstate f hch w' hne hin
  constructor
  · intro v f hcb v' hne
    by_cases hv : v = w
    · subst hv
      rw [hself] at hcb
      rw [hother v' hne]
      exact hkept f hcb v' hne
    · rw [hother v hv] at hcb
      by_cases hv' : v' = w
      · subst hv'
        rw [hself]
        refine ⟨fun hin => (hfree f hin v hv).1 hcb, fun hcb' => ?_⟩
        exact (hkept f hcb' v hv).2 hcb
      · rw [hother v' hv']
        exact h.kept v f hcb v' hne
  · intro v v' f hne hin hin'
    by_cases hv : v = w
    · subst hv
      have hv' : v' ≠ v := Ne.symm hne
      rw [hself] at hin ⊢
      rw [hother v' hv'] at hin' ⊢
      rw [hsame v' f hv' hin']
      exact (hfree f hin v' hv').2 hin'
    · rw [hother v hv] at hin ⊢
      rw [hsame v f hv hin]
      by_cases hv' : v' = w
      · subst hv'
        rw [hself] at hin' ⊢
        obtain ⟨hended, hd⟩ := (hfree f hin' v hv).2 hin
        exact ⟨hended, hd.symm⟩
      · rw [hother v' hv'] at hin' ⊢
        exact h.shared v v' f hne hin hin'
  · intro v f b hpc
    by_cases hv : v = w
    · subst hv
      rw [hself] at hpc
      exact halive f b hpc
    · rw [hother v hv] at hpc
      have hin : (s.worker v).pc.InHand f := by
        rcases hpc with hpc | hpc <;> (rw [hpc]; rfl)
      rw [hsame v f hv hin]
      exact h.alive v f b hpc
  · intro v f hcb
    by_cases hv : v = w
    · subst hv
      rw [hself] at hcb ⊢
      exact hvia f hcb
    · rw [hother v hv] at hcb ⊢
      exact h.viaCb v f hcb

/-- The worker gets nothing new into its hands. -/
theorem advance (h : s.Separated) (w : Fin n) (wk : Worker)
    (hworker : t.worker = Function.update s.worker w wk)
    (hstate : ∀ f, t.state f ≠ s.state f → ∀ w', w' ≠ w → ¬ (s.worker w').pc.InHand f)
    (hcb : wk.cbFibre = none ∨ wk.cbFibre = (s.worker w).cbFibre)
    (hhand : ∀ f, wk.pc.InHand f →
      (s.worker w).pc.InHand f ∧ (s.worker w).pc ≠ .dispatch (.fibre f))
    (halive : ∀ f b, wk.pc = .entering f b ∨ wk.pc = .running f b → ¬ (t.state f).Ended)
    (hvia : ∀ f, wk.pc.cbOf = some f → wk.cbFibre = some f) :
    t.Separated := by
  have hkeeps : ∀ f, wk.cbFibre = some f → (s.worker w).cbFibre = some f := by
    intro f hf
    rcases hcb with hcb | hcb
    · rw [hcb] at hf
      cases hf
    · rw [← hcb]
      exact hf
  refine h.update w wk hworker hstate ?_ ?_ halive hvia
  · intro f hf
    exact h.kept w f (hkeeps f hf)
  · intro f hin w' hne
    obtain ⟨hold, hnd⟩ := hhand f hin
    refine ⟨fun hcb' => (h.kept w' f hcb' w (Ne.symm hne)).1 hold, fun hin' => ?_⟩
    obtain ⟨hended, hd⟩ := h.shared w w' f (Ne.symm hne) hold hin'
    exact ⟨hended, Or.inr (hd.resolve_left hnd)⟩

/-- The worker goes on with nothing in its hands. -/
theorem release (h : s.Separated) (w : Fin n) (wk : Worker)
    (hworker : t.worker = Function.update s.worker w wk)
    (hstate : ∀ f, t.state f ≠ s.state f → ∀ w', w' ≠ w → ¬ (s.worker w').pc.InHand f)
    (hcb : wk.cbFibre = none ∨ wk.cbFibre = (s.worker w).cbFibre)
    (hhand : ∀ f, ¬ wk.pc.InHand f) :
    t.Separated := by
  refine h.advance w wk hworker hstate hcb (fun f hin => (hhand f hin).elim) ?_ ?_
  · intro f b hpc
    refine (hhand f ?_).elim
    rcases hpc with hpc | hpc <;> (rw [hpc]; rfl)
  · intro f hcbOf
    refine (hhand f ?_).elim
    cases hpc : wk.pc with
    | entering g b | running g b | leaving g b | swapped g b | check g b =>
        exact absurd (by rw [hpc]; rfl) (hhand g)
    | _ => simp [hpc, Pc.cbOf] at hcbOf

/-- No worker and no state changes. -/
theorem thread (h : s.Separated) (hworker : t.worker = s.worker)
    (hstate : t.state = s.state) :
    t.Separated := by
  constructor
  · rw [hworker]
    exact h.kept
  · rw [hworker, hstate]
    exact h.shared
  · rw [hworker, hstate]
    exact h.alive
  · rw [hworker]
    exact h.viaCb

theorem perform (h : s.Separated) (hknown : s.Known) {th : Thread n m} {self : Option Nat}
    {op : Op} (hop : s.Performs th self op t) :
    t.Separated := by
  cases hop with
  | newFibre => exact h.thread rfl hknown.setState_made
  | _ => exact h.thread rfl rfl

/-- A step that keeps the worker's `cb_fibre` and moves it on as `Goes` says. -/
theorem goes (h : s.Separated) {w : Fin n} {pc pc' : Pc} (hpc : (s.worker w).pc = pc)
    (hgoes : s.Goes (s.worker w) pc pc') :
    (s.goto w pc').Separated := by
  have hsame : ∀ f, (s.goto w pc').state f ≠ s.state f → ∀ w', w' ≠ w →
      ¬ (s.worker w').pc.InHand f := fun f hf => (hf rfl).elim
  cases hgoes with
  | @enter f hstate =>
      have halive : ¬ (s.state f).Ended := by
        rintro (he | he)
        · exact hstate.1 he
        · exact hstate.2 he
      have hin : (s.worker w).pc.InHand f := by rw [hpc]; rfl
      refine h.update w { s.worker w with pc := .entering f false } rfl hsame
        (fun g hg => h.kept w g hg) ?_ ?_ ?_
      · rintro g rfl w' hne
        refine ⟨fun hcb => (h.kept w' f hcb w (Ne.symm hne)).1 hin, fun hin' => ?_⟩
        exact (h.sole hin halive w' hne hin').elim
      · rintro g b (hg | hg)
        · cases hg
          exact halive
        · cases hg
      · intro g hg
        simp [Pc.cbOf] at hg
  | @swapOut f viaCb =>
      refine h.advance w { s.worker w with pc := .swapped f viaCb } rfl hsame (Or.inr rfl)
        ?_ (by simp) ?_
      · rintro g rfl
        exact ⟨by rw [hpc]; rfl, by simp [hpc]⟩
      · intro g hg
        exact h.viaCb w g (by rw [hpc]; cases viaCb <;> exact hg)
  | _ =>
      exact h.release w _ rfl hsame (Or.inr rfl) (fun f hf => hf)

/-- The worker takes a task. -/
theorem take (h : s.Separated) {w : Fin n} {ft : Job} (hpc : (s.worker w).pc = .scan)
    (hft : (scanQueue s.state w s.fibres).ft = some ft)
    (hfree : s.TakesFree (.next w)) (active : Nat) (todo : List Micro) :
    (({ s with
        fibres := (scanQueue s.state w s.fibres).left
        activeThreadCount := active }.setTodo (.inl w) todo).goto w
          (.dispatch ft)).Separated := by
  refine h.update w { s.worker w with pc := .dispatch ft } rfl (fun f hf => (hf rfl).elim)
    (fun g hg => h.kept w g hg) ?_ (by simp) ?_
  · rintro f rfl w' hne
    simp only [TakesFree, hpc, hft] at hfree
    obtain ⟨hcb, hended⟩ := hfree w' hne
    exact ⟨hcb, fun hin => ⟨hended hin, Or.inl rfl⟩⟩
  · intro f hf
    simp [Pc.cbOf] at hf

/-- The worker runs a callback on the `cb_fibre` that it keeps. -/
theorem reuse (h : s.Separated) {w : Fin n} {f : Nat}
    (hcb : (s.worker w).cbFibre = some f) :
    ((s.setState f .init).goto w (.entering f true)).Separated := by
  refine h.update w { s.worker w with pc := .entering f true } rfl ?_
    (fun g hg => h.kept w g hg) ?_ ?_ ?_
  · intro g hg w' hne hin
    by_cases hgf : g = f
    · subst hgf
      exact (h.kept w g hcb w' hne).1 hin
    · exact hg (by simp [Function.update_of_ne hgf])
  · rintro g rfl w' hne
    have hkept := h.kept w f hcb w' hne
    exact ⟨hkept.2, fun hin => (hkept.1 hin).elim⟩
  · rintro g b (hg | hg)
    · cases hg
      simp [State.Ended]
    · cases hg
  · intro g hg
    obtain rfl : f = g := by simpa [Pc.cbOf] using hg
    exact hcb

/-- The worker makes a fibre for a callback. -/
theorem create (h : s.Separated) (hknown : s.Known) (w : Fin n) :
    (({ s with made := s.made + 1 }.setState s.made .init).setWorker w
      { s.worker w with
        pc := .entering s.made true
        cbFibre := some s.made }).Separated := by
  have hnew : ∀ w', ¬ (s.worker w').Refers s.made :=
    fun w' href => Nat.lt_irrefl _ (hknown.worker w' s.made href)
  refine h.update w { s.worker w with pc := .entering s.made true, cbFibre := some s.made }
    rfl ?_ ?_ ?_ ?_ ?_
  · intro g hg w' _ hin
    by_cases hgf : g = s.made
    · subst hgf
      exact hnew w' (Or.inl hin)
    · exact hg (by simp [Function.update_of_ne hgf])
  · rintro g ⟨⟩ w' _
    exact ⟨fun hin => hnew w' (Or.inl hin), fun hcb => hnew w' (Or.inr (Or.inr hcb))⟩
  · rintro g rfl w' _
    exact ⟨fun hcb => hnew w' (Or.inr (Or.inr hcb)), fun hin => (hnew w' (Or.inl hin)).elim⟩
  · rintro g b (hg | hg)
    · cases hg
      simp [State.Ended]
    · cases hg
  · intro g hg
    simpa [Pc.cbOf] using hg

/-- The worker, which has the fibre in hand, writes its state and goes on. -/
theorem writes (h : s.Separated) {w : Fin n} {f : Nat} {pc : Pc} {st : State}
    (hin : (s.worker w).pc.InHand f) (hd : (s.worker w).pc ≠ .dispatch (.fibre f))
    (hsole : ∀ w', w' ≠ w → ¬ (s.worker w').pc.InHand f)
    (hhand : ∀ g, pc.InHand g → g = f)
    (halive : ∀ g b, pc = .entering g b ∨ pc = .running g b → ¬ st.Ended)
    (hvia : ∀ g, pc.cbOf = some g → (s.worker w).pc.cbOf = some g) :
    ((s.setState f st).goto w pc).Separated := by
  refine h.advance w { s.worker w with pc := pc } rfl ?_ (Or.inr rfl) ?_ ?_ ?_
  · intro g hg w' hne hin'
    by_cases hgf : g = f
    · subst hgf
      exact hsole w' hne hin'
    · exact hg (by simp [Function.update_of_ne hgf])
  · intro g hg
    obtain rfl := hhand g hg
    exact ⟨hin, hd⟩
  · intro g b hg
    have hgf : g = f := hhand g (by rcases hg with rfl | rfl <;> rfl)
    subst hgf
    simpa using halive g b hg
  · intro g hg
    exact h.viaCb w g (hvia g hg)

/-- **Step lemma.**  A step that meets the condition keeps the workers separated. -/
theorem step (h : s.Separated) (hknown : s.Known) {a : Label n m} (hfree : s.TakesFree a)
    (hst : s.step a = some t) :
    t.Separated := by
  have hsame : ∀ w : Fin n, ∀ f, s.state f ≠ s.state f → ∀ w', w' ≠ w →
      ¬ (s.worker w').pc.InHand f := fun _ f hf => (hf rfl).elim
  cases step_cases hst with
  | goes htodo hpc hgoes => exact h.goes hpc hgoes
  | take htodo hpc hft => exact h.take hpc hft hfree _ _
  | reuse htodo hpc hcb hstate => exact h.reuse hcb
  | create htodo hpc hcb => exact h.create hknown _
  | @swapIn w f viaCb htodo hpc hstate =>
      have hin : (s.worker w).pc.InHand f := by rw [hpc]; rfl
      refine h.writes hin (by simp [hpc])
        (h.sole hin (h.alive w f viaCb (Or.inl hpc))) (fun g hg => hg.symm) ?_ ?_
      · intro g b _
        simp [State.Ended]
      · intro g hg
        rw [hpc]
        cases viaCb <;> exact hg
  | @giveUp w f viaCb htodo hpc =>
      refine h.advance w { s.worker w with pc := .check f viaCb } rfl (hsame w) (Or.inr rfl)
        ?_ (by simp) ?_
      · rintro g rfl
        exact ⟨by rw [hpc]; rfl, by simp [hpc]⟩
      · intro g hg
        exact h.viaCb w g (by rw [hpc]; cases viaCb <;> exact hg)
  | @ready w f viaCb htodo hpc hstate =>
      rw [dropCb_goto]
      refine h.release w _ rfl (hsame w) ?_ (fun f hf => hf)
      cases viaCb
      · exact Or.inr rfl
      · exact Or.inl rfl
  | @finished w f viaCb htodo hpc hstate =>
      cases viaCb with
      | false => exact h.release w _ rfl (hsame w) (Or.inr rfl) (fun f hf => hf)
      | true =>
          have hcb : (s.worker w).cbFibre = some f := h.viaCb w f (by rw [hpc]; rfl)
          exact h.writes (by rw [hpc]; rfl) (by simp [hpc])
            (fun w' hne => (h.kept w f hcb w' hne).1) (fun g hg => hg.elim) (by simp)
            (by simp [Pc.cbOf])
  | @hold w f viaCb htodo hpc hstate =>
      have hin : (s.worker w).pc.InHand f := by rw [hpc]; rfl
      rw [dropCb_goto]
      refine h.release w _ rfl ?_ ?_ (fun f hf => hf)
      · intro g hg w' hne
        by_cases hgf : g = f
        · subst hgf
          exact h.sole hin hstate.2 w' hne
        · exact (hg (by simp [Function.update_of_ne hgf])).elim
      · cases viaCb
        · exact Or.inr rfl
        · exact Or.inl rfl
  | @write w f viaCb st htodo hpc hstate =>
      have hin : (s.worker w).pc.InHand f := by rw [hpc]; rfl
      refine h.writes hin (by simp [hpc])
        (h.sole hin (h.alive w f viaCb (Or.inr hpc))) (fun g hg => hg.symm) (by simp) ?_
      intro g hg
      rw [hpc]
      cases viaCb <;> exact hg
  | user htodo hpc hop => exact h.perform hknown hop
  | external htodo hop => exact h.perform hknown hop
  | miss _ _ _ | dropped _ _ | requeue _ _ | enterIdle _ _ _ | endIdle _ _ _ | goOn _ _ _
  | pushExpired _ _ | leaveIdle _ _ | wake _ | listExpired _ _ | stopEarly _ _
  | stopCaller _ _ =>
      exact h.release _ _ rfl (hsame _) (Or.inr rfl) (fun f hf => hf)
  | seeIdle _ _ | seeBusy _ _ | writePipe _ | decPending _ | setStopping _ | readPipe _ _
  | deliver _ _ _ | stopOther _ _ => exact h.thread rfl rfl

theorem start (useCaller : Bool) : (Sys.start n m useCaller).Separated where
  kept := by simp [Sys.start]
  shared := by
    intro w w' f _ hin _
    simp only [Sys.start] at hin
    split at hin <;> exact hin.elim
  alive := by
    intro w f b hpc
    simp only [Sys.start] at hpc
    split at hpc <;> simp at hpc
  viaCb := by
    intro w f hcb
    simp only [Sys.start] at hcb
    split at hcb <;> cases hcb

end Separated

theorem separated_of_takesFree {s : Sys n m} (h : (system n m).Reachable TakesFree s) :
    s.Known ∧ s.Separated := by
  refine h.invariant (fun s => s.Known ∧ s.Separated) ?_
    (fun s a t hs hc hst => ⟨hs.1.step hst, hs.2.step hs.1 hc hst⟩)
  rintro s ⟨_, useCaller, rfl⟩
  exact ⟨Known.start useCaller, Separated.start useCaller⟩

end Sys

/-- **Fibre exclusivity**, in every run in which no worker takes a fibre that another
one keeps or has in hand. -/
theorem exclusive_of_takesFree {n m : Nat} (s : Sys n m)
    (h : (Sys.system n m).Reachable Sys.TakesFree s) :
    s.Exclusive := by
  exact (Sys.separated_of_takesFree h).2.exclusive

/-- A fibre is queued while it runs on the first worker; the second worker takes it once
the first has let go of it. -/
theorem exclusive_of_takesFree_two_workers :
    ∃ s, (Sys.system 2 1).execIf Sys.TakesFree (Sys.start 2 1 false)
        [.external 0 .newFibre, .external 0 (.schedule (some (.fibre 0)) none),
          .micro (.inr 0), .next 0, .next 0, .next 0,
          .user 0 (.schedule (some (.fibre 0)) none), .micro (.inl 0), .write 0 .hold,
          .next 0, .next 0, .next 0, .next 1, .next 1, .next 1] = some s ∧
      s.Exclusive := by
  have hrun : ((Sys.system 2 1).execIf Sys.TakesFree (Sys.start 2 1 false)
      [.external 0 .newFibre, .external 0 (.schedule (some (.fibre 0)) none),
        .micro (.inr 0), .next 0, .next 0, .next 0,
        .user 0 (.schedule (some (.fibre 0)) none), .micro (.inl 0), .write 0 .hold,
        .next 0, .next 0, .next 0, .next 1, .next 1, .next 1]).isSome = true := by decide
  obtain ⟨s, hs⟩ := Option.isSome_iff_exists.mp hrun
  exact ⟨s, hs, exclusive_of_takesFree s
    (System.execIf_reachable ⟨by decide, false, rfl⟩ hs)⟩

/-- A fibre schedules itself and holds, as `switchTo` does.  It has written `HOLD` and is
about to save its context on the first worker when the second takes it and swaps it in. -/
def requeuedFibreRun : List (Label 2 1) :=
  [.external 0 .newFibre, .external 0 (.schedule (some (.fibre 0)) none), .micro (.inr 0),
    .next 0, .next 0, .next 0,
    .user 0 (.schedule (some (.fibre 0)) none), .micro (.inl 0), .write 0 .hold,
    .next 1, .next 1, .next 1]

theorem exclusive_fails :
    ¬ ∀ (n m : Nat) (s : Sys n m), (Sys.system n m).Reachable anyStep s → s.Exclusive := by
  intro hall
  have hrun : ((Sys.system 2 1).exec (Sys.start 2 1 false) requeuedFibreRun).map
      (fun s => ((s.worker 0).pc, (s.worker 1).pc)) =
      some (.leaving 0 false, .running 0 false) := by decide
  obtain ⟨s, hs, hpcs⟩ := Option.map_eq_some_iff.mp hrun
  simp only [Prod.mk.injEq] at hpcs
  have hex := hall 2 1 s (System.exec_reachable ⟨by decide, false, rfl⟩ hs)
  have hone := hex.one 0 1 0 (by rw [hpcs.1]; rfl) (by rw [hpcs.2]; rfl)
  exact absurd hone (by decide)

end Concurrency
end Hpgs
