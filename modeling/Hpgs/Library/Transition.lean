import Mathlib.Data.List.Basic

/-!
# Runs of a labelled transition system

A transition system is given by its initial states and a partial step function.
The label of a step carries every choice that the environment makes: which thread
moves, what a system call returns, what a clock shows.  A step that is not
possible in a state is `none`.

Two ways of speaking about runs are used.

* `Reachable cond`: the states reached by runs all of whose steps meet a condition
  on the state before the step and its label.
* `Along` and `StepsMeet`: what holds in every state, and at every step, of the
  run of one given list of labels.

**Results.**
* `Reachable.invariant`: what holds initially and is kept by every step that meets
  the condition holds in every reachable state.
* `Reachable.simulated`: a relation to the states of another system that every step keeps
  holds of every reachable state and some reachable state of that system.
* `exec_reachable`, `execIf_reachable`: executing a list of labels reaches a
  reachable state.
* `along_iff_stepsMeet`: a property that each step meeting the condition keeps, and
  each other step breaks, holds along a run iff every step meets the condition.
* `between_iff_stepsMeet`: the same for a relation between the states of a run.
* `watched_step_iff`: the steps of a system that keeps a history beside its state.
-/

namespace Hpgs
namespace Transition

universe u v

/-- A transition system with initial states and a partial step function. -/
structure System (σ : Type u) (α : Type v) where
  init : σ → Prop
  step : σ → α → Option σ

/-- The condition that every step meets. -/
def anyStep {σ : Type u} {α : Type v} : σ → α → Prop :=
  fun _ _ => True

namespace System

variable {σ : Type u} {α : Type v}
variable (T : System σ α)

/-- Execute a list of labels; `none` if some step is not possible. -/
def exec : σ → List α → Option σ
  | s, [] => some s
  | s, a :: as => (T.step s a).bind fun t => exec t as

/-- The states reached from `s` by steps that all meet `cond`. -/
inductive Reaches (cond : σ → α → Prop) (s : σ) : σ → Prop
  | refl : Reaches cond s s
  | step {t u : σ} {a : α} :
      Reaches cond s t →
      cond t a →
      T.step t a = some u →
      Reaches cond s u

/-- The states reached from an initial state by steps that all meet `cond`. -/
def Reachable (cond : σ → α → Prop) (t : σ) : Prop :=
  ∃ s, T.init s ∧ T.Reaches cond s t

variable {T} {cond : σ → α → Prop}

theorem Reaches.trans {s t u : σ}
    (hst : T.Reaches cond s t) (htu : T.Reaches cond t u) :
    T.Reaches cond s u := by
  induction htu with
  | refl => exact hst
  | step _ hc hs ih => exact Reaches.step ih hc hs

theorem Reachable.step {s t : σ} {a : α}
    (h : T.Reachable cond s) (hc : cond s a) (hs : T.step s a = some t) :
    T.Reachable cond t := by
  obtain ⟨s₀, hinit, hr⟩ := h
  exact ⟨s₀, hinit, Reaches.step hr hc hs⟩

theorem Reachable.reaches {s t : σ}
    (h : T.Reachable cond s) (hr : T.Reaches cond s t) :
    T.Reachable cond t := by
  obtain ⟨s₀, hinit, h₀⟩ := h
  exact ⟨s₀, hinit, h₀.trans hr⟩

/-- What every step meeting the condition keeps holds in every state reached. -/
theorem Reaches.invariant (Inv : σ → Prop) {s t : σ}
    (hstep : ∀ s a t, Inv s → cond s a → T.step s a = some t → Inv t)
    (h : T.Reaches cond s t) (hs : Inv s) :
    Inv t := by
  induction h with
  | refl => exact hs
  | step _ hc hst ih => exact hstep _ _ _ ih hc hst

/-- **Invariant rule.** -/
theorem Reachable.invariant (Inv : σ → Prop) {t : σ}
    (hinit : ∀ s, T.init s → Inv s)
    (hstep : ∀ s a t, Inv s → cond s a → T.step s a = some t → Inv t)
    (h : T.Reachable cond t) :
    Inv t := by
  obtain ⟨s, hs, hr⟩ := h
  exact hr.invariant Inv hstep (hinit s hs)

/-- **Simulation rule.**  If `R` relates every initial state to a reachable state of another
system, and every step is matched by steps of that system, then `R` relates every reachable
state to a reachable one. -/
theorem Reachable.simulated {σ' : Type u} {β : Type v} {U : System σ' β}
    {cond' : σ' → β → Prop} (R : σ → σ' → Prop) {t : σ}
    (hinit : ∀ s, T.init s → ∃ k, U.Reachable cond' k ∧ R s k)
    (hstep : ∀ s a t k, T.Reachable cond s → U.Reachable cond' k → R s k → cond s a →
      T.step s a = some t → ∃ k', U.Reaches cond' k k' ∧ R t k')
    (h : T.Reachable cond t) :
    ∃ k, U.Reachable cond' k ∧ R t k := by
  obtain ⟨s, hs, hr⟩ := h
  induction hr with
  | refl => exact hinit s hs
  | step hr hc hst ih =>
      obtain ⟨k, hk, hrel⟩ := ih
      obtain ⟨k', hk', hrel'⟩ := hstep _ _ _ k ⟨s, hs, hr⟩ hk hrel hc hst
      exact ⟨k', hk.reaches hk', hrel'⟩

theorem exec_reaches {as : List α} {s t : σ}
    (h : T.exec s as = some t) :
    T.Reaches anyStep s t := by
  induction as generalizing s with
  | nil =>
      simp only [exec, Option.some.injEq] at h
      subst h
      exact Reaches.refl
  | cons a as ih =>
      simp only [exec, Option.bind_eq_some_iff] at h
      obtain ⟨u, hu, hrest⟩ := h
      exact (Reaches.step Reaches.refl trivial hu).trans (ih hrest)

theorem exec_append {as bs : List α} {s : σ} :
    T.exec s (as ++ bs) = (T.exec s as).bind fun t => T.exec t bs := by
  induction as generalizing s with
  | nil => rfl
  | cons a as ih =>
      simp only [List.cons_append, exec, Option.bind_assoc]
      exact congrArg _ (funext fun _ => ih)

/-- Where every step is possible every list of labels can be executed. -/
theorem exec_isSome (h : ∀ s a, (T.step s a).isSome) (as : List α) {s : σ} :
    (T.exec s as).isSome := by
  induction as generalizing s with
  | nil => rfl
  | cons a as ih =>
      obtain ⟨t, ht⟩ := Option.isSome_iff_exists.mp (h s a)
      rw [exec, ht]
      exact ih

/-- Executing labels from an initial state reaches a reachable state. -/
theorem exec_reachable {as : List α} {s t : σ}
    (hinit : T.init s) (h : T.exec s as = some t) :
    T.Reachable anyStep t :=
  ⟨s, hinit, exec_reaches h⟩

section Checked

variable (T) (C : σ → α → Prop) [∀ s a, Decidable (C s a)]

/-- Execute a list of labels; `none` also if some step does not meet `C`. -/
def execIf : σ → List α → Option σ
  | s, [] => some s
  | s, a :: as => if C s a then (T.step s a).bind fun t => execIf t as else none

variable {T} {C}

theorem execIf_reaches {as : List α} {s t : σ}
    (h : T.execIf C s as = some t) :
    T.Reaches C s t := by
  induction as generalizing s with
  | nil =>
      simp only [execIf, Option.some.injEq] at h
      subst h
      exact Reaches.refl
  | cons a as ih =>
      simp only [execIf, Option.ite_none_right_eq_some, Option.bind_eq_some_iff] at h
      obtain ⟨hc, u, hu, hrest⟩ := h
      exact (Reaches.step Reaches.refl hc hu).trans (ih hrest)

/-- Executing labels that meet `C` from an initial state. -/
theorem execIf_reachable {as : List α} {s t : σ}
    (hinit : T.init s) (h : T.execIf C s as = some t) :
    T.Reachable C t :=
  ⟨s, hinit, execIf_reaches h⟩

end Checked

variable (T)

/-- `P` holds in every state of the run of `as` from `s`. -/
def Along (P : σ → Prop) : σ → List α → Prop
  | s, [] => P s
  | s, a :: as => P s ∧ ∀ t, T.step s a = some t → Along P t as

/-- Every step of the run of `as` from `s` meets `C`. -/
def StepsMeet (C : σ → α → Prop) : σ → List α → Prop
  | _, [] => True
  | s, a :: as => C s a ∧ ∀ t, T.step s a = some t → StepsMeet C t as

variable {T}

theorem Along.of_exec {P : σ → Prop} {as : List α} {s t : σ}
    (h : T.Along P s as) (hrun : T.exec s as = some t) :
    P t := by
  induction as generalizing s with
  | nil =>
      simp only [exec, Option.some.injEq] at hrun
      exact hrun ▸ h
  | cons a as ih =>
      simp only [exec, Option.bind_eq_some_iff] at hrun
      obtain ⟨u, hu, hrest⟩ := hrun
      exact ih (h.2 u hu) hrest

theorem stepsMeet_of_forall {C : σ → α → Prop} (h : ∀ s a, C s a) (as : List α) :
    ∀ s, T.StepsMeet C s as := by
  induction as with
  | nil => exact fun _ => trivial
  | cons a as ih => exact fun s => ⟨h s a, fun t _ => ih t⟩

/-- Executing labels with a check of `C` shows that all steps meet it. -/
theorem stepsMeet_of_execIf {C : σ → α → Prop} [∀ s a, Decidable (C s a)] {as : List α}
    {s : σ} (h : (T.execIf C s as).isSome) : T.StepsMeet C s as := by
  induction as generalizing s with
  | nil => exact trivial
  | cons a as ih =>
      obtain ⟨u, hu⟩ := Option.isSome_iff_exists.mp h
      simp only [execIf, Option.ite_none_right_eq_some, Option.bind_eq_some_iff] at hu
      obtain ⟨hc, t, ht, hrest⟩ := hu
      refine ⟨hc, fun t' ht' => ?_⟩
      obtain rfl : t = t' := Option.some.inj (ht.symm.trans ht')
      exact ih (by simp [hrest])

/-- A condition on the labels alone. -/
theorem stepsMeet_iff_forall_mem {C : α → Prop} {as : List α} {s : σ}
    (hrun : (T.exec s as).isSome) :
    T.StepsMeet (fun _ a => C a) s as ↔ ∀ a ∈ as, C a := by
  induction as generalizing s with
  | nil => exact ⟨fun _ a ha => (List.not_mem_nil ha).elim, fun _ => trivial⟩
  | cons a as ih =>
      obtain ⟨u, hu⟩ := Option.isSome_iff_exists.mp hrun
      simp only [exec, Option.bind_eq_some_iff] at hu
      obtain ⟨t, ht, hrest⟩ := hu
      have htail := ih (s := t) (by simp [hrest])
      rw [List.forall_mem_cons, ← htail]
      constructor
      · exact fun h => ⟨h.1, h.2 t ht⟩
      · rintro ⟨hc, hall⟩
        refine ⟨hc, fun t' ht' => ?_⟩
        obtain rfl : t = t' := Option.some.inj (ht.symm.trans ht')
        exact hall

/-- **Exactness of a step condition.**  If `Inv` implies `P`, every step meeting
`C` keeps `Inv` and every other step leads to a state without `P`, then `P` holds
along a run iff all its steps meet `C`. -/
theorem along_iff_stepsMeet {Inv P : σ → Prop} {C : σ → α → Prop}
    (himp : ∀ s, Inv s → P s)
    (hkeep : ∀ s a t, Inv s → C s a → T.step s a = some t → Inv t)
    (hbreak : ∀ s a t, Inv s → ¬ C s a → T.step s a = some t → ¬ P t)
    {as : List α} {s : σ}
    (hs : Inv s) (hrun : (T.exec s as).isSome) :
    T.Along P s as ↔ T.StepsMeet C s as := by
  induction as generalizing s with
  | nil => exact ⟨fun _ => trivial, fun _ => himp s hs⟩
  | cons a as ih =>
      obtain ⟨u, hu⟩ := Option.isSome_iff_exists.mp hrun
      simp only [exec, Option.bind_eq_some_iff] at hu
      obtain ⟨t, ht, hrest⟩ := hu
      have hrun' : (T.exec t as).isSome := by simp [hrest]
      have hP : ∀ bs : List α, T.Along P t bs → P t := by
        intro bs hbs
        cases bs with
        | nil => exact hbs
        | cons b bs => exact hbs.1
      constructor
      · rintro ⟨_, hall⟩
        have hc : C s a := by
          by_contra hn
          exact hbreak s a t hs hn ht (hP as (hall t ht))
        refine ⟨hc, fun t' ht' => ?_⟩
        obtain rfl : t = t' := Option.some.inj (ht.symm.trans ht')
        exact (ih (hkeep s a t hs hc ht) hrun').mp (hall t ht)
      · rintro ⟨hc, hall⟩
        refine ⟨himp s hs, fun t' ht' => ?_⟩
        obtain rfl : t = t' := Option.some.inj (ht.symm.trans ht')
        exact (ih (hkeep s a t hs hc ht) hrun').mpr (hall t ht)

theorem stepsMeet_append {C : σ → α → Prop} {as bs : List α} {s : σ} :
    T.StepsMeet C s (as ++ bs) ↔
      T.StepsMeet C s as ∧ ∀ t, T.exec s as = some t → T.StepsMeet C t bs := by
  induction as generalizing s with
  | nil => simp [StepsMeet, exec]
  | cons a as ih =>
      simp only [List.cons_append, StepsMeet, exec, Option.bind_eq_some_iff]
      constructor
      · rintro ⟨hc, hall⟩
        exact ⟨⟨hc, fun t ht => (ih.mp (hall t ht)).1⟩,
          fun u ⟨t, ht, hu⟩ => (ih.mp (hall t ht)).2 u hu⟩
      · rintro ⟨⟨hc, hall⟩, hrest⟩
        exact ⟨hc, fun t ht => ih.mpr ⟨hall t ht, fun u hu => hrest u ⟨t, ht, hu⟩⟩⟩

variable (T)

/-- `R` relates every state of the run of `as` from `s` to every later one. -/
def Between (R : σ → σ → Prop) (s : σ) (as : List α) : Prop :=
  ∀ as₁ as₂ as₃ t u, as = as₁ ++ (as₂ ++ as₃) →
    T.exec s as₁ = some t → T.exec t as₂ = some u → R t u

variable {T}

/-- A run of steps that meet `C` keeps the invariant and relates its ends. -/
theorem StepsMeet.related {Inv : σ → Prop} {R : σ → σ → Prop} {C : σ → α → Prop}
    (hrefl : ∀ s, Inv s → R s s)
    (htrans : ∀ s t u, R s t → R t u → R s u)
    (hkeep : ∀ s a t, Inv s → C s a → T.step s a = some t → Inv t ∧ R s t)
    {as : List α} {s t : σ}
    (h : T.StepsMeet C s as) (hs : Inv s) (hrun : T.exec s as = some t) :
    Inv t ∧ R s t := by
  induction as generalizing s with
  | nil =>
      simp only [exec, Option.some.injEq] at hrun
      exact hrun ▸ ⟨hs, hrefl s hs⟩
  | cons a as ih =>
      simp only [exec, Option.bind_eq_some_iff] at hrun
      obtain ⟨u, hu, hrest⟩ := hrun
      obtain ⟨hinv, hrel⟩ := hkeep s a u hs h.1 hu
      obtain ⟨hinv', hrel'⟩ := ih (h.2 u hu) hinv hrest
      exact ⟨hinv', htrans s u t hrel hrel'⟩

/-- **Exactness for a relation.**  If the steps that meet `C` relate their states, and no
other step does, then the states of a run are related iff all its steps meet `C`. -/
theorem between_iff_stepsMeet {Inv : σ → Prop} {R : σ → σ → Prop} {C : σ → α → Prop}
    (hrefl : ∀ s, Inv s → R s s)
    (htrans : ∀ s t u, R s t → R t u → R s u)
    (hkeep : ∀ s a t, Inv s → C s a → T.step s a = some t → Inv t ∧ R s t)
    (hbreak : ∀ s a t, T.step s a = some t → R s t → R t t → C s a)
    {as : List α} {s : σ}
    (hs : Inv s) (hrun : (T.exec s as).isSome) :
    T.Between R s as ↔ T.StepsMeet C s as := by
  constructor
  · intro h
    clear hs
    induction as generalizing s with
    | nil => exact trivial
    | cons a as ih =>
        obtain ⟨u, hu⟩ := Option.isSome_iff_exists.mp hrun
        simp only [exec, Option.bind_eq_some_iff] at hu
        obtain ⟨t, ht, hrest⟩ := hu
        have hone : T.exec s [a] = some t := by simp [exec, ht]
        refine ⟨hbreak s a t ht (h [] [a] as s t rfl rfl hone)
          (h [a] [] as t t rfl hone rfl), ?_⟩
        intro t' ht'
        obtain rfl : t = t' := Option.some.inj (ht.symm.trans ht')
        refine ih (by simp [hrest]) ?_
        rintro as₁ as₂ as₃ v w rfl hv hw
        exact h (a :: as₁) as₂ as₃ v w rfl (by simp [exec, ht, hv]) hw
  · rintro h as₁ as₂ as₃ t u rfl ht hu
    obtain ⟨h₁, hrest⟩ := stepsMeet_append.mp h
    have hinv := (h₁.related hrefl htrans hkeep hs ht).1
    exact ((stepsMeet_append.mp (hrest t ht)).1.related hrefl htrans hkeep hinv hu).2

section Watched

universe w

variable {γ : Type w}

/-- `T` with a history beside its state, and with the steps that `guard` allows.  The
history is written and never read: `note` adds what a step does in a state. -/
def watched (T : System σ α) (guard : σ → α → Prop) [∀ s a, Decidable (guard s a)]
    (first : σ → γ) (note : γ → σ → α → γ) : System (σ × γ) α where
  init p := T.init p.1 ∧ p.2 = first p.1
  step p a :=
    if guard p.1 a then (T.step p.1 a).map fun t => (t, note p.2 p.1 a) else none

theorem watched_step_iff {guard : σ → α → Prop} [∀ s a, Decidable (guard s a)]
    {first : σ → γ} {note : γ → σ → α → γ} {p q : σ × γ} {a : α} :
    (T.watched guard first note).step p a = some q ↔
      guard p.1 a ∧ T.step p.1 a = some q.1 ∧ q.2 = note p.2 p.1 a := by
  simp only [watched, Option.ite_none_right_eq_some, Option.map_eq_some_iff]
  constructor
  · rintro ⟨hg, t, ht, rfl⟩
    exact ⟨hg, ht, rfl⟩
  · rintro ⟨hg, ht, hq⟩
    exact ⟨hg, q.1, ht, by rw [← hq]⟩

end Watched

end System

end Transition
end Hpgs
