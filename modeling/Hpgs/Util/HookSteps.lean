import Hpgs.Util.Hook

/-!
# What a step does to fibres and timers

Most steps of hooked functions move one fibre to another place, or work on the registry
and leave fibres and timers alone.  `Moves` lists what a step can do to them.

**Results.**
* `step_moves`: there is nothing else.
* `step_ownTimers`: a timer that is set belongs to a call that may be waiting for it.
* `OwnTimers.none_set`: no timer of any other call is set.
-/

namespace Hpgs
namespace Util

open Transition Concurrency

/-- The places at which the timer of a call may be set. -/
def Pc.armed : Pc → Bool
  | .adding | .yielding | .suspended | .resumed | .failed => true
  | .outside | .trying | .arming | .checking => false

namespace Sys

/-! ## Fibres and timers -/

section Primitives

variable {s : Sys} {f g : Nat}

theorem goto_self (s : Sys) (f : Nat) (pc : Pc) :
    (s.goto f pc).fibre f = { s.fibre f with pc := pc } := by
  simp [goto]

theorem goto_ne (s : Sys) {f g : Nat} (pc : Pc) (h : g ≠ f) :
    (s.goto f pc).fibre g = s.fibre g := by
  simp [goto, Function.update_of_ne h]

theorem setPhase_get {i j : Nat} {p : Phase} {x : CondTimer}
    (hx : s.timers[j]? = some x) :
    (s.setPhase i p).timers[j]? =
      some (if i = j then { x with phase := p } else x) := by
  simp only [setPhase, List.getElem?_modify, hx, Option.map_eq_map, Option.map_some]

/-- Only the `i`-th timer moves, and it does not come back to the set. -/
theorem set_of_setPhase {i j : Nat} {p : Phase} {y : CondTimer} (hp : p ≠ .set)
    (hy : (s.setPhase i p).timers[j]? = some y) (hset : y.phase = .set) :
    i ≠ j ∧ s.timers[j]? = some y := by
  cases hx : s.timers[j]? with
  | none => simp [setPhase, List.getElem?_modify, hx] at hy
  | some x =>
      rw [setPhase_get hx, Option.some.injEq] at hy
      by_cases hij : i = j
      · rw [if_pos hij] at hy
        subst hy
        exact absurd hset hp
      · rw [if_neg hij] at hy
        exact ⟨hij, congrArg some hy⟩

theorem addTimer_ne (s : Sys) {f g : Nat} (h : g ≠ f) :
    (s.addTimer f).fibre g = s.fibre g := by
  unfold addTimer
  simp only
  split <;> exact Function.update_of_ne h _ _

theorem addTimer_self (s : Sys) (f : Nat) :
    (s.addTimer f).fibre f =
      { s.fibre f with pc := .adding, timer := ((s.addTimer f).fibre f).timer } := by
  unfold addTimer
  simp only
  split <;> simp

theorem addTimer_rest (s : Sys) (f : Nat) :
    (s.addTimer f).mgr = s.mgr ∧ (s.addTimer f).infos = s.infos := by
  unfold addTimer
  simp only
  split <;> exact ⟨rfl, rfl⟩

/-- The timer that a fibre sets. -/
def newTimer (s : Sys) (f : Nat) : CondTimer where
  fibre := f
  info := (s.fibre f).info
  fd := (s.fibre f).fd
  event := (s.fibre f).fn.event
  phase := .set

/-- The timers stay at their places. -/
theorem addTimer_old {j : Nat} {y : CondTimer} (hy : s.timers[j]? = some y) :
    (s.addTimer f).timers[j]? = some y := by
  unfold addTimer
  simp only
  split
  · exact hy
  · rw [List.getElem?_append_left (List.getElem?_eq_some_iff.mp hy).1]
    exact hy

/-- The fibre's timer is the new one. -/
theorem addTimer_own {j : Nat} (hj : ((s.addTimer f).fibre f).timer = some j) :
    (s.addTimer f).timers[j]? = some (s.newTimer f) := by
  unfold addTimer at hj ⊢
  simp only at hj ⊢
  split at hj
  · simp at hj
  · rename_i hno
    simp only [Function.update_self, Option.some.injEq] at hj
    subst hj
    rw [if_neg hno]
    exact List.getElem?_concat_length

/-- A timer that was not there before is the fibre's own. -/
theorem addTimer_get {j : Nat} {y : CondTimer} (hy : (s.addTimer f).timers[j]? = some y) :
    s.timers[j]? = some y ∨
      y = s.newTimer f ∧ ((s.addTimer f).fibre f).timer = some j := by
  unfold addTimer at hy ⊢
  simp only at hy ⊢
  split at hy
  · exact Or.inl hy
  · rename_i hno
    simp only [if_neg hno, Function.update_self]
    rw [List.getElem?_append] at hy
    split at hy
    · exact Or.inl hy
    · rename_i hlt
      obtain ⟨hj, rfl⟩ := List.getElem?_eq_some_iff.mp hy
      have hj' : s.timers.length = j := by
        simp only [List.length_singleton] at hj
        omega
      exact Or.inr ⟨by simp [newTimer], congrArg some hj'⟩

theorem cancelTimer_cases (s : Sys) (o : Option Nat) :
    s.cancelTimer o = s ∨ ∃ i x, o = some i ∧ s.timers[i]? = some x ∧ x.phase = .set ∧
      s.cancelTimer o = s.setPhase i .finished := by
  cases o with
  | none => exact Or.inl rfl
  | some i =>
      cases hx : s.timers[i]? with
      | none => exact Or.inl (by simp [cancelTimer, hx])
      | some x =>
          by_cases hset : x.phase = .set
          · exact Or.inr ⟨i, x, rfl, hx, hset, by simp [cancelTimer, hx, hset]⟩
          · exact Or.inl (by simp [cancelTimer, hx, hset])

theorem cancelTimer_fibre (s : Sys) (o : Option Nat) : (s.cancelTimer o).fibre = s.fibre := by
  rcases cancelTimer_cases s o with heq | ⟨i, x, _, _, _, heq⟩ <;> rw [heq]
  rfl

/-- A timer that is still set was not the one to be cancelled. -/
theorem set_of_cancelTimer {o : Option Nat} {j : Nat} {y : CondTimer}
    (hy : (s.cancelTimer o).timers[j]? = some y) (hset : y.phase = .set) :
    o ≠ some j ∧ s.timers[j]? = some y := by
  rcases cancelTimer_cases s o with heq | ⟨i, x, rfl, hx, _, heq⟩
  · rw [heq] at hy
    refine ⟨?_, hy⟩
    rintro rfl
    have hphase : (s.cancelTimer (some j)).timers[j]? = (s.setPhase j .finished).timers[j]? := by
      simp only [cancelTimer, hy, if_pos hset]
    rw [heq, hy, setPhase_get hy, if_pos rfl, Option.some.injEq] at hphase
    rw [hphase] at hset
    cases hset
  · rw [heq] at hy
    obtain ⟨hne, hget⟩ := set_of_setPhase (p := .finished) (by decide) hy hset
    exact ⟨fun h => hne (Option.some.inj h), hget⟩

end Primitives

/-! ## One step -/

/-- The locals of a call that has just been entered. -/
def entered (s : Sys) (fn : Hooked) (fd : Nat) (c : FdCtx) : Local where
  pc := .trying
  fn := fn
  fd := fd
  timeout := fn.timeout c
  info := s.infos
  cancelled := false
  timer := none

/-- The fibres and timers after a step. -/
inductive Moves (s : Sys) : Label → (Nat → Local) → List CondTimer → Prop
  | stay {a : Label} : Moves s a s.fibre s.timers
  | enter {f fd : Nat} {fn : Hooked} {hookEnable : Bool} {c : FdCtx}
      (hpc : (s.fibre f).pc = .outside) :
      Moves s (.enter f fn fd hookEnable (some c))
        (Function.update s.fibre f (s.entered fn fd c)) s.timers
  | goto {a : Label} {f : Nat} {pc : Pc} (hpc : pc.armed = (s.fibre f).pc.armed) :
      Moves s a (s.goto f pc).fibre s.timers
  | addTimer {f : Nat} (hpc : (s.fibre f).pc = .arming) :
      Moves s (.addTimer f) (s.addTimer f).fibre (s.addTimer f).timers
  | cancelTimer {f : Nat} {pc : Pc} (hpc : pc.armed = false) :
      Moves s (.cancelTimer f) (s.goto f pc).fibre (s.cancelTimer (s.fibre f).timer).timers
  | advance {a : Label} {i : Nat} {phase : Phase} (hphase : phase ≠ .set) :
      Moves s a s.fibre (s.setPhase i phase).timers
  | cancelled {i f : Nat} :
      Moves s (.callback i) (Function.update s.fibre f { s.fibre f with cancelled := true })
        (s.setPhase i .running).timers

section Moves

variable {s t : Sys} {a : Label}

/-- **What a step does.** -/
theorem step_moves (h : s.step a = some t) : Moves s a t.fibre t.timers := by
  cases a with
  | enter f fn fd hookEnable ctx =>
      simp only [step, Option.ite_none_right_eq_some, Option.some.injEq] at h
      obtain ⟨hpc, rfl⟩ := h
      cases ctx with
      | none => exact .stay
      | some c =>
          unfold enter
          simp only
          split
          · exact .enter hpc
          · exact .stay
  | attempt f r =>
      simp only [step, Option.ite_none_right_eq_some, Option.some.injEq] at h
      obtain ⟨hpc, rfl⟩ := h
      refine .goto ?_
      rw [hpc]
      cases (s.fibre f).fn <;> cases r <;> rfl
  | addTimer f =>
      simp only [step, Option.ite_none_right_eq_some, Option.some.injEq] at h
      obtain ⟨hpc, rfl⟩ := h
      exact .addTimer hpc
  | addEvent f fails =>
      simp only [step, Option.ite_none_right_eq_some] at h
      obtain ⟨hpc, h⟩ := h
      have harmed : true = (s.fibre f).pc.armed := by
        rw [hpc]
        rfl
      unfold addEvent at h
      simp only at h
      split at h
      · cases h
      · split at h
        · cases h
        · cases h
          exact .goto harmed
        · cases h
          exact .goto harmed
  | yieldToHold f =>
      simp only [step, Option.ite_none_right_eq_some, Option.some.injEq] at h
      obtain ⟨hpc, rfl⟩ := h
      refine .goto ?_
      rw [hpc]
      rfl
  | resume f =>
      simp only [step, Option.ite_none_right_eq_some, Option.some.injEq] at h
      obtain ⟨⟨hpc, _⟩, rfl⟩ := h
      refine .goto ?_
      rw [hpc]
      rfl
  | cancelTimer f =>
      simp only [step] at h
      split at h
      · cases h
        have hfibre : ((s.cancelTimer (s.fibre f).timer).goto f .checking).fibre =
            (s.goto f .checking).fibre := by
          simp only [goto, cancelTimer_fibre]
        rw [hfibre]
        exact .cancelTimer rfl
      · cases h
        have hfibre : ((s.cancelTimer (s.fibre f).timer).goto f .outside).fibre =
            (s.goto f .outside).fibre := by
          simp only [goto, cancelTimer_fibre]
        rw [hfibre]
        exact .cancelTimer rfl
      · cases h
  | check f =>
      simp only [step, Option.ite_none_right_eq_some] at h
      obtain ⟨hpc, h⟩ := h
      have harmed : false = (s.fibre f).pc.armed := by
        rw [hpc]
        rfl
      split at h
      · cases h
        exact .goto harmed
      · cases h
        exact .goto harmed
  | listExpired i =>
      simp only [step] at h
      split at h
      · obtain ⟨_, rfl⟩ := (Option.ite_none_right_eq_some.mp h).imp_right Option.some.inj
        exact .advance fun hset => nomatch hset
      · cases h
  | schedule i =>
      simp only [step] at h
      split at h
      · obtain ⟨_, rfl⟩ := (Option.ite_none_right_eq_some.mp h).imp_right Option.some.inj
        exact .advance fun hset => nomatch hset
      · cases h
  | callback i =>
      simp only [step] at h
      split at h
      · obtain ⟨_, rfl⟩ := (Option.ite_none_right_eq_some.mp h).imp_right Option.some.inj
        unfold callback
        split
        · exact .cancelled
        · exact .advance fun hset => nomatch hset
      · cases h
  | cancelEvent i fails =>
      simp only [step] at h
      split at h
      · obtain ⟨_, h⟩ := Option.ite_none_right_eq_some.mp h
        unfold cancelEvent at h
        split at h
        · cases h
          exact .advance fun hset => nomatch hset
        · split at h
          · cases h
          · cases h
            exact .advance fun hset => nomatch hset
      · cases h
  | deliver r fails =>
      simp only [step, Option.ite_none_right_eq_some] at h
      obtain ⟨_, h⟩ := h
      split at h
      · cases h
      · cases h
        exact .stay
  | other c fails =>
      simp only [step, Option.ite_none_left_eq_some] at h
      obtain ⟨_, h⟩ := h
      unfold other at h
      split at h
      · cases h
      · split at h
        · cases h
        · cases h
          exact .stay
  | resize fd =>
      simp only [step, Option.ite_none_right_eq_some, Option.some.injEq] at h
      obtain ⟨_, rfl⟩ := h
      exact .stay
  | push x =>
      cases h
      exact .stay
  | take x =>
      simp only [step, Option.ite_none_right_eq_some, Option.some.injEq] at h
      obtain ⟨_, rfl⟩ := h
      exact .stay

end Moves

/-! ## The timeout of a call -/

section Timeout

variable {s t : Sys} {a : Label}

end Timeout

/-! ## The timers that are set -/

/-- The timers that are set belong to calls that may be waiting for them. -/
def OwnTimers (s : Sys) : Prop :=
  ∀ (i : Nat) x, s.timers[i]? = some x → x.phase = .set →
    (s.fibre x.fibre).timer = some i ∧ (s.fibre x.fibre).pc.armed = true

section OwnTimers

variable {s t : Sys} {a : Label}

theorem start_ownTimers : start.OwnTimers := by
  intro i x hx
  cases hx

/-- No timer of a call is set that does not wait and is not about to. -/
theorem OwnTimers.none_set (h : s.OwnTimers) {f : Nat} (hf : (s.fibre f).pc.armed = false)
    {x : CondTimer} (hx : x ∈ s.timers) (hset : x.phase = .set) : x.fibre ≠ f := by
  rintro rfl
  obtain ⟨i, hi⟩ := List.mem_iff_getElem?.mp hx
  rw [(h i x hi hset).2] at hf
  cases hf

/-- **Step lemma.**  Every step keeps this. -/
theorem step_ownTimers (hown : s.OwnTimers) (h : s.step a = some t) : t.OwnTimers := by
  have hmoves := step_moves h
  unfold OwnTimers
  generalize t.fibre = fibre, t.timers = timers at hmoves ⊢
  intro j y hy hset
  cases hmoves with
  | stay => exact hown j y hy hset
  | @enter g fd fn hookEnable c hpc =>
      have hne : y.fibre ≠ g :=
        hown.none_set (by rw [hpc]; rfl) (List.mem_of_getElem? hy) hset
      rw [Function.update_of_ne hne]
      exact hown j y hy hset
  | @goto _ g pc hpc =>
      obtain ⟨htimer, harmed⟩ := hown j y hy hset
      by_cases hg : y.fibre = g
      · subst hg
        rw [goto_self]
        exact ⟨htimer, hpc.trans harmed⟩
      · rw [goto_ne s pc hg]
        exact ⟨htimer, harmed⟩
  | @addTimer g hpc =>
      have hnone : ∀ x ∈ s.timers, x.phase = .set → x.fibre ≠ g := fun x =>
        hown.none_set (by rw [hpc]; rfl)
      rcases addTimer_get hy with hold | ⟨rfl, htimer⟩
      · rw [addTimer_ne s (hnone y (List.mem_of_getElem? hold) hset)]
        exact hown j y hold hset
      · refine ⟨htimer, ?_⟩
        change ((s.addTimer g).fibre g).pc.armed = true
        rw [addTimer_self]
        rfl
  | @cancelTimer g pc _ =>
      obtain ⟨hne, hold⟩ := set_of_cancelTimer hy hset
      obtain ⟨htimer, harmed⟩ := hown j y hold hset
      have hg : y.fibre ≠ g := by
        rintro rfl
        exact hne htimer
      rw [goto_ne s pc hg]
      exact ⟨htimer, harmed⟩
  | advance hphase => exact hown j y (set_of_setPhase hphase hy hset).2 hset
  | @cancelled i g =>
      obtain ⟨htimer, harmed⟩ := hown j y (set_of_setPhase (by decide) hy hset).2 hset
      by_cases hg : y.fibre = g
      · subst hg
        rw [Function.update_self]
        exact ⟨htimer, harmed⟩
      · rw [Function.update_of_ne hg]
        exact ⟨htimer, harmed⟩

end OwnTimers

end Sys
end Util
end Hpgs
