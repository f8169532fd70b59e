import Hpgs.Util.HookSteps
import Hpgs.Concurrency.RegisteredFibres

/-!
# What holds of a fibre in a hooked call

A fibre that waits has its own timer, and its event is registered or it is scheduled.
Where `cancelled` is set while the event is still registered, a callback is about to
cancel the event.

**Results.**
* `Inv.noLostTimeout`: a fibre that is suspended waits for its callback or is scheduled.
* `Watched.keep`, `Watched.pause`: what a step has to leave as it was.
* `deliver_inv`, `other_inv`, `resize_inv`: sections of the registry keep the invariant.
-/

namespace Hpgs
namespace Util

open Transition Concurrency

/-- The callback has not been run. -/
def CondTimer.NotRun (x : CondTimer) : Prop :=
  x.phase = .set ∨ x.phase = .listed ∨ x.phase = .queued

namespace Sys

/-- The fibre's event is registered, and for this fibre. -/
def Registered (s : Sys) (f : Nat) : Prop :=
  s.mgr.stored (s.fibre f).fd (s.fibre f).fn.event = some f

instance (s : Sys) (f : Nat) : Decidable (s.Registered f) :=
  inferInstanceAs (Decidable (_ = some f))

/-- A callback of the fibre's call is running and has not yet called `cancelEvent`. -/
def Cancelling (s : Sys) (f : Nat) : Prop :=
  ∃ x ∈ s.timers, x.fibre = f ∧ x.info = (s.fibre f).info ∧ x.phase = .running

instance (s : Sys) (f : Nat) : Decidable (s.Cancelling f) :=
  inferInstanceAs (Decidable (∃ x ∈ s.timers, _))

/-- The callback of the timer has not run to its end. -/
def CallbackPending (s : Sys) (f i : Nat) : Prop :=
  (∃ x, s.timers[i]? = some x ∧ x.NotRun) ∨ s.Cancelling f

/-- A fibre that is suspended with a timeout waits for its callback, or its event was
consumed and it is scheduled. -/
def NoLostTimeout (s : Sys) : Prop :=
  ∀ f i, (s.fibre f).pc = .suspended → (s.fibre f).timer = some i →
    s.CallbackPending f i ∨ ¬ s.Registered f ∧ s.InQueue f

/-- The fibre has registered its event with a timeout, and has not been resumed. -/
def Waits (s : Sys) (f : Nat) : Prop :=
  ((s.fibre f).pc = .yielding ∨ (s.fibre f).pc = .suspended) ∧ (s.fibre f).timer ≠ none

instance (s : Sys) (f : Nat) : Decidable (s.Waits f) :=
  inferInstanceAs (Decidable (_ ∧ _))

/-- The event is registered for a fibre that waits for it. -/
def Awaited (s : Sys) (fd : Nat) (e : Event) : Prop :=
  match s.mgr.stored fd e with
  | some f => s.Waits f ∧ (s.fibre f).fd = fd ∧ (s.fibre f).fn.event = e
  | none => False

instance (s : Sys) (fd : Nat) (e : Event) : Decidable (s.Awaited fd e) := by
  unfold Awaited
  split <;> infer_instance

/-- **The condition.**  No event is registered after a callback of the call came to its
end; `epoll_ctl` does not fail in a callback that would wake its fibre; nobody deletes an
event that is waited for, by `delEvent` or by making the table smaller. -/
def Guarded (s : Sys) : Label → Prop
  | .addEvent f fails => fails = false → (s.fibre f).cancelled = true → s.Cancelling f
  | .cancelEvent i fails =>
      fails = true → ∀ x ∈ s.timers[i]?, s.Alive x → s.Waits x.fibre → ¬ s.Registered x.fibre
  | .other (.delEvent fd e) fails => fails = false → ¬ s.Awaited fd e
  | .resize fd =>
      ∀ fd' < s.mgr.fdContexts.length, fd * 3 / 2 ≤ fd' →
        ¬ s.Awaited fd' .read ∧ ¬ s.Awaited fd' .write
  | _ => True

instance (s : Sys) (a : Label) : Decidable (s.Guarded a) := by
  unfold Guarded
  split <;> infer_instance

/-! ## The invariant -/

/-- What holds of a fibre: its timer is its own, its callback has not run or `cancelled`
is set, and where it waits with `cancelled` set a callback is about to wake it. -/
structure Watched (s : Sys) (f : Nat) : Prop where
  own : ∀ i, (s.fibre f).pc ≠ .outside → (s.fibre f).timer = some i →
    ∃ x, s.timers[i]? = some x ∧ x.fibre = f ∧ x.info = (s.fibre f).info
  timer : ∀ i x, ((s.fibre f).pc = .adding ∨ s.Waits f) → (s.fibre f).timer = some i →
    s.timers[i]? = some x → x.NotRun ∨ (s.fibre f).cancelled = true
  woken : s.Waits f → s.Registered f ∨ s.InQueue f
  cancels : s.Waits f → (s.fibre f).cancelled = true → s.Registered f → s.Cancelling f

structure Inv (s : Sys) : Prop where
  mgr : s.mgr.WellFormed
  infos : ∀ x ∈ s.timers, x.info < s.infos
  locals : ∀ f, (s.fibre f).pc ≠ .outside → (s.fibre f).info < s.infos
  captured : ∀ x ∈ s.timers, s.Alive x →
    x.fd = (s.fibre x.fibre).fd ∧ x.event = (s.fibre x.fibre).fn.event
  watched : ∀ f, s.Watched f

theorem Inv.noLostTimeout {s : Sys} (h : s.Inv) : s.NoLostTimeout := by
  intro f i hpc htimer
  have hwaits : s.Waits f := ⟨Or.inr hpc, by simp [htimer]⟩
  have hw := h.watched f
  by_cases hreg : s.Registered f
  · left
    obtain ⟨x, hx, _, _⟩ := hw.own i (by simp [hpc]) htimer
    rcases hw.timer i x (Or.inr hwaits) htimer hx with hrun | hcancelled
    · exact Or.inl ⟨x, hx, hrun⟩
    · exact Or.inr (hw.cancels hwaits hcancelled hreg)
  · exact Or.inr ⟨hreg, (hw.woken hwaits).resolve_left hreg⟩

/-! ## What a step leaves as it was -/

/-- The callback of a timer moved on, and nothing else about the timer. -/
structure Moved (x y : CondTimer) : Prop where
  fibre : y.fibre = x.fibre
  info : y.info = x.info
  fd : y.fd = x.fd
  event : y.event = x.event

theorem Moved.refl (x : CondTimer) : Moved x x :=
  ⟨rfl, rfl, rfl, rfl⟩

section Frame

variable {s t : Sys} {f : Nat}

/-- The fibre goes on with the call that it is in. -/
structure Continues (s t : Sys) (f : Nat) : Prop where
  inside : (t.fibre f).pc ≠ .outside → (s.fibre f).pc ≠ .outside
  info : (t.fibre f).info = (s.fibre f).info
  fd : (t.fibre f).fd = (s.fibre f).fd
  fn : (t.fibre f).fn = (s.fibre f).fn

theorem Continues.of_eq (h : t.fibre f = s.fibre f) : Continues s t f :=
  ⟨by rw [h]; exact id, by rw [h], by rw [h], by rw [h]⟩

theorem Continues.registered (h : Continues s t f) (hmgr : t.mgr = s.mgr) :
    t.Registered f ↔ s.Registered f := by
  rw [Registered, Registered, h.fd, h.fn, hmgr]

/-- Every fibre goes on with its call, and timers only move on. -/
theorem Inv.update (h : s.Inv) (hmgr : t.mgr.WellFormed) (hinfos : t.infos = s.infos)
    (hcall : ∀ f, Continues s t f)
    (htimers : ∀ y ∈ t.timers, ∃ x ∈ s.timers, Moved x y)
    (hwatched : ∀ f, t.Watched f) : t.Inv where
  mgr := hmgr
  infos := by
    intro y hy
    obtain ⟨x, hx, hm⟩ := htimers y hy
    rw [hm.info, hinfos]
    exact h.infos x hx
  locals := by
    intro f hpc
    rw [(hcall f).info, hinfos]
    exact h.locals f ((hcall f).inside hpc)
  captured := by
    rintro y hy ⟨hpc, hinfo⟩
    obtain ⟨x, hx, hm⟩ := htimers y hy
    rw [hm.fibre] at hpc hinfo ⊢
    have hc := hcall x.fibre
    rw [hm.fd, hm.event, hc.fd, hc.fn]
    refine h.captured x hx ⟨hc.inside hpc, ?_⟩
    rw [← hc.info, hinfo, hm.info]
  watched := hwatched

/-- The fibre does not move.  Its own timers only move on, its registration is still
there or was consumed, and a callback that is about to wake it still is. -/
theorem Watched.keep (h : s.Watched f) (hlocal : t.fibre f = s.fibre f)
    (htimers : ∀ (i : Nat) x, s.timers[i]? = some x → s.Alive x → x.fibre = f →
      ∃ y, t.timers[i]? = some y ∧ Moved x y ∧
        (x.NotRun → y.NotRun ∨ (s.fibre f).cancelled = true))
    (hreg : s.Waits f → s.Registered f → t.Registered f ∨ t.InQueue f)
    (hqueue : s.Waits f → s.InQueue f → t.InQueue f)
    (hcancels : s.Waits f → t.Registered f →
      s.Registered f ∧ (s.Cancelling f → t.Cancelling f)) :
    t.Watched f := by
  have hwaits : t.Waits f ↔ s.Waits f := by rw [Waits, Waits, hlocal]
  have hinside : s.Waits f → (s.fibre f).pc ≠ .outside := by
    rintro ⟨hpc | hpc, _⟩ <;> simp [hpc]
  have hmine : ∀ i, (s.fibre f).pc ≠ .outside → (s.fibre f).timer = some i →
      ∃ x y, s.timers[i]? = some x ∧ t.timers[i]? = some y ∧ Moved x y ∧ x.fibre = f ∧
        x.info = (s.fibre f).info ∧ (x.NotRun → y.NotRun ∨ (s.fibre f).cancelled = true) := by
    intro i hpc htimer
    obtain ⟨x, hx, hxf, hxi⟩ := h.own i hpc htimer
    obtain ⟨y, hy, hm, hrun⟩ := htimers i x hx ⟨by rwa [hxf], by rw [hxf, hxi]⟩ hxf
    exact ⟨x, y, hx, hy, hm, hxf, hxi, hrun⟩
  constructor
  · intro i hpc htimer
    rw [hlocal] at hpc htimer ⊢
    obtain ⟨x, y, _, hy, hm, hxf, hxi, _⟩ := hmine i hpc htimer
    exact ⟨y, hy, hm.fibre.trans hxf, hm.info.trans hxi⟩
  · intro i y hpc htimer hy
    rw [hwaits, hlocal] at hpc
    rw [hlocal] at htimer ⊢
    have hin : (s.fibre f).pc ≠ .outside := by
      rcases hpc with hpc | hpc
      · simp [hpc]
      · exact hinside hpc
    obtain ⟨x, y', hx, hy', _, _, _, hrun⟩ := hmine i hin htimer
    obtain rfl : y' = y := Option.some.inj (hy'.symm.trans hy)
    rcases h.timer i x hpc htimer hx with hx | hx
    · exact hrun hx
    · exact Or.inr hx
  · intro hw
    rw [hwaits] at hw
    rcases h.woken hw with hr | hq
    · exact hreg hw hr
    · exact Or.inr (hqueue hw hq)
  · intro hw hcancelled hr
    rw [hwaits] at hw
    rw [hlocal] at hcancelled
    obtain ⟨hr', hc⟩ := hcancels hw hr
    exact hc (h.cancels hw hcancelled hr')

/-- The fibre comes to a place where it does not wait. -/
theorem Watched.pause (h : s.Watched f) (hcall : Continues s t f)
    (htimer : (t.fibre f).timer = (s.fibre f).timer)
    (hpc : (t.fibre f).pc ≠ .adding ∧ (t.fibre f).pc ≠ .yielding ∧
      (t.fibre f).pc ≠ .suspended)
    (htimers : ∀ (i : Nat) x, s.timers[i]? = some x →
      ∃ y, t.timers[i]? = some y ∧ Moved x y) :
    t.Watched f := by
  have hno : ¬ t.Waits f := by
    rintro ⟨hy | hs, _⟩
    · exact hpc.2.1 hy
    · exact hpc.2.2 hs
  constructor
  · intro i hin hti
    rw [htimer] at hti
    obtain ⟨x, hx, hxf, hxi⟩ := h.own i (hcall.inside hin) hti
    obtain ⟨y, hy, hm⟩ := htimers i x hx
    exact ⟨y, hy, hm.fibre.trans hxf, by rw [hm.info, hxi, hcall.info]⟩
  · rintro i x (ha | hw) _ _
    · exact (hpc.1 ha).elim
    · exact (hno hw).elim
  · exact fun hw => (hno hw).elim
  · exact fun hw => (hno hw).elim

end Frame

/-! ## The timers -/

section Timers

variable {s : Sys}

theorem setPhase_moved {i j : Nat} {p : Phase} {x : CondTimer}
    (hx : s.timers[j]? = some x) :
    ∃ y, (s.setPhase i p).timers[j]? = some y ∧ Moved x y := by
  refine ⟨_, setPhase_get hx, ?_⟩
  split <;> exact ⟨rfl, rfl, rfl, rfl⟩

theorem mem_setPhase {i : Nat} {phase : Phase} {y : CondTimer}
    (hy : y ∈ (s.setPhase i phase).timers) :
    ∃ x ∈ s.timers, Moved x y := by
  obtain ⟨j, hj⟩ := List.mem_iff_getElem?.mp hy
  cases hx : s.timers[j]? with
  | none => simp [setPhase, List.getElem?_modify, hx] at hj
  | some x =>
      obtain ⟨y', hy', hm⟩ := setPhase_moved (i := i) (p := phase) hx
      obtain rfl : y' = y := Option.some.inj (hy'.symm.trans hj)
      exact ⟨x, List.mem_of_getElem? hx, hm⟩

/-- A callback that is about to wake a fibre is not touched by moving another one. -/
theorem cancelling_setPhase {t : Sys} {i f : Nat} {phase : Phase} {x : CondTimer}
    (hx : s.timers[i]? = some x) (htimers : t.timers = (s.setPhase i phase).timers)
    (hinfo : (t.fibre f).info = (s.fibre f).info)
    (hother : x.phase = .running → x.fibre = f → x.info = (s.fibre f).info → False)
    (h : s.Cancelling f) : t.Cancelling f := by
  obtain ⟨z, hz, hzf, hzi, hzp⟩ := h
  obtain ⟨j, hj⟩ := List.mem_iff_getElem?.mp hz
  have hne : i ≠ j := by
    rintro rfl
    obtain rfl : x = z := Option.some.inj (hx.symm.trans hj)
    exact hother hzp hzf hzi
  have hget : t.timers[j]? = some z := by
    rw [htimers, setPhase_get hj, if_neg hne]
  exact ⟨z, List.mem_of_getElem? hget, hzf, hzi.trans hinfo.symm, hzp⟩

end Timers

/-! ## Sections of the registry -/

section Registry

variable {s t : Sys}

/-- Only the registry changes; what the fibres wait for is still there, or scheduled. -/
theorem Inv.registry (h : s.Inv) (hmgr : t.mgr.WellFormed)
    (hrest : t.fibre = s.fibre ∧ t.timers = s.timers ∧ t.infos = s.infos)
    (hreg : ∀ f, s.Waits f → s.Registered f → t.Registered f ∨ t.InQueue f)
    (hqueue : ∀ f, s.Waits f → s.InQueue f → t.InQueue f)
    (hback : ∀ f, s.Waits f → t.Registered f → s.Registered f) :
    t.Inv := by
  obtain ⟨hfibre, htimers, hinfos⟩ := hrest
  have hlocal : ∀ f, t.fibre f = s.fibre f := fun f => by rw [hfibre]
  refine h.update hmgr hinfos (fun f => .of_eq (hlocal f)) ?_ ?_
  · intro y hy
    exact ⟨y, htimers ▸ hy, .refl y⟩
  · intro f
    refine (h.watched f).keep (hlocal f) ?_ (hreg f) (hqueue f) ?_
    · intro i x hx _ _
      exact ⟨x, htimers ▸ hx, .refl x, Or.inl⟩
    · intro hw hr
      refine ⟨hback f hw hr, ?_⟩
      rintro ⟨x, hx, hxf, hxi, hxp⟩
      exact ⟨x, htimers ▸ hx, hxf, by rw [hlocal, hxi], hxp⟩

/-- Triggering: a fibre whose registration is gone was scheduled. -/
theorem registered_triggered (h : s.mgr.WellFormed) {p : Nat} {es : Events}
    (hsched : (s.mgr.store p).HasScheduler es) {f : Nat}
    (hlocal : t.fibre f = s.fibre f) (hmgr : t.mgr = s.mgr.triggered p es)
    (hr : s.Registered f) : t.Registered f ∨ t.InQueue f := by
  by_cases hhit : s.mgr.fdContexts[(s.fibre f).fd]? = some p ∧
      es.has (s.fibre f).fn.event = true
  · right
    have hstored : (s.mgr.store p).storedFibre (s.fibre f).fn.event = some f := by
      rw [Registered, IOManager.stored, hhit.1, Option.bind_some] at hr
      exact hr
    obtain ⟨x, hx, htask⟩ := FdContext.mem_scheduled_of_stored (h.ctx p) hsched hhit.2 hstored
    refine ⟨x, ?_, htask⟩
    rw [hmgr]
    exact List.mem_append_right _ hx
  · left
    rw [Registered, hlocal, hmgr, IOManager.stored_triggered, if_neg hhit]
    exact hr

theorem registered_of_triggered {p : Nat} {es : Events} {f : Nat}
    (hlocal : t.fibre f = s.fibre f) (hmgr : t.mgr = s.mgr.triggered p es)
    (hr : t.Registered f) : s.Registered f := by
  rw [Registered, hlocal, hmgr, IOManager.stored_triggered] at hr
  split at hr
  · cases hr
  · exact hr

theorem inQueue_triggered {p : Nat} {es : Events} {f : Nat}
    (hmgr : t.mgr = s.mgr.triggered p es) (hq : s.InQueue f) : t.InQueue f := by
  obtain ⟨x, hx, htask⟩ := hq
  refine ⟨x, ?_, htask⟩
  rw [hmgr]
  exact List.mem_append_left _ hx

/-- A section that triggers events. -/
theorem Inv.triggered (h : s.Inv) {p : Nat} {es : Events} {m : IOManager Nat Nat}
    (hm : m.WellFormed) (hsched : (s.mgr.store p).HasScheduler es)
    (hmgr : m = s.mgr.triggered p es) : ({ s with mgr := m } : Sys).Inv :=
  h.registry hm ⟨rfl, rfl, rfl⟩
    (fun _ _ hr => registered_triggered h.mgr hsched rfl hmgr hr)
    (fun _ _ hq => inQueue_triggered hmgr hq)
    (fun _ _ hr => registered_of_triggered (t := { s with mgr := m }) rfl hmgr hr)

theorem Inv.same (h : s.Inv) {m : IOManager Nat Nat} (hmgr : m = s.mgr) :
    ({ s with mgr := m } : Sys).Inv := by
  rw [hmgr]
  exact h

theorem deliver_inv (h : s.Inv) {r : Ready} {fails : Bool}
    (hst : s.step (.deliver r fails) = some t) : t.Inv := by
  simp only [step, Option.ite_none_right_eq_some] at hst
  obtain ⟨hlt, hst⟩ := hst
  cases hd : s.mgr.deliver r fails with
  | error a => simp [hd] at hst
  | ok res =>
      obtain ⟨b, m⟩ := res
      simp only [hd, Option.some.injEq] at hst
      subst hst
      have hwf := (IOManager.deliver_effect h.mgr hlt hd).wellFormed h.mgr
      rcases IOManager.deliver_ok h.mgr hlt hd with ⟨_, hm⟩ | ⟨_, _, _, hsched, hm⟩
      · exact h.same hm
      · exact h.triggered hwf hsched hm

/-- Some other code stores a callback, or a fibre that is in no hooked function. -/
theorem Inv.added (h : s.Inv) {p : Nat} {e : Event} {ctx : EventContext Nat Nat}
    {m : IOManager Nat Nat} (hm : m.WellFormed) (he : e ≠ .none)
    (hset : (s.mgr.store p).events.has e = false)
    (hctx : ∀ f, ctx.fibre = some f → (s.fibre f).pc = .outside)
    (hmgr : m = s.mgr.added p e ctx) : ({ s with mgr := m } : Sys).Inv := by
  have hinside : ∀ f, s.Waits f → (s.fibre f).pc ≠ .outside := by
    rintro f ⟨hpc | hpc, _⟩ <;> simp [hpc]
  refine h.registry hm ⟨rfl, rfl, rfl⟩ ?_ (fun f _ hq => hmgr ▸ hq) ?_
  · intro f _ hr
    left
    rw [Registered, hmgr, IOManager.stored_added _ _ he, if_neg]
    · exact hr
    · rintro ⟨hp, hev⟩
      rw [Registered, IOManager.stored, hp, Option.bind_some] at hr
      have hhas := FdContext.storedFibre_has hr
      simp only [hev, hset, Bool.false_eq_true] at hhas
  · intro f hw hr
    rw [Registered, hmgr, IOManager.stored_added _ _ he] at hr
    split at hr
    · exact absurd (hctx f hr) (hinside f hw)
    · exact hr

/-- Some other code deletes an event that no fibre awaits. -/
theorem Inv.removed (h : s.Inv) {p fd : Nat} {e : Event} {m : IOManager Nat Nat}
    (hm : m.WellFormed) (hp : s.mgr.fdContexts[fd]? = some p) (hfree : ¬ s.Awaited fd e)
    (hmgr : m = s.mgr.removed p e.bits) : ({ s with mgr := m } : Sys).Inv := by
  refine h.registry hm ⟨rfl, rfl, rfl⟩ ?_ (fun f _ hq => hmgr ▸ hq) ?_
  · intro f hw hr
    left
    rw [Registered, hmgr, IOManager.stored_removed, if_neg]
    · exact hr
    · rintro ⟨hp', hev⟩
      have hfd := h.mgr.table_inj hp' hp
      have hee : (s.fibre f).fn.event = e := by
        cases he : (s.fibre f).fn.event <;> cases e <;> simp_all [Event.bits, Events.has]
      apply hfree
      have hr' : s.mgr.stored fd e = some f := by
        rw [← hfd, ← hee]
        exact hr
      rw [Awaited, hr']
      exact ⟨hw, hfd, hee⟩
  · intro f _ hr
    rw [Registered, hmgr, IOManager.stored_removed] at hr
    split at hr
    · cases hr
    · exact hr

theorem other_inv (h : s.Inv) {c : Call Nat Nat} {fails : Bool}
    (hcond : s.Guarded (.other c fails)) (hst : s.step (.other c fails) = some t) :
    t.Inv := by
  simp only [step, Option.ite_none_left_eq_some] at hst
  obtain ⟨houtside, hst⟩ := hst
  unfold other at hst
  cases hp : s.mgr.fdContexts[c.fd]? with
  | none => simp [hp] at hst
  | some p =>
      obtain ⟨hlt, hfd⟩ := h.mgr.table _ _ hp
      simp only [hp] at hst
      cases hc : s.mgr.perform p fails c with
      | error a => simp [hc] at hst
      | ok res =>
          obtain ⟨b, m⟩ := res
          simp only [hc, Option.some.injEq] at hst
          subst hst
          have hwf := (IOManager.perform_effect h.mgr hlt hfd hc).wellFormed h.mgr
          cases c with
          | addEvent fd e cb self =>
              rcases IOManager.addEvent_ok h.mgr hlt hfd hc with
                ⟨_, hm⟩ | ⟨_, he, hset, _, hm⟩
              · exact h.same hm
              · refine h.added hwf he hset ?_ hm
                intro f hf
                cases cb with
                | some k => simp at hf
                | none =>
                    simp only [Option.isSome_none, Bool.false_eq_true, if_false,
                      Option.some.injEq] at hf
                    by_contra hin
                    exact houtside (by rw [RegistersInside, hf]; exact hin)
          | delEvent fd e =>
              rcases IOManager.delEvent_ok h.mgr hlt hfd hc with ⟨_, hm⟩ | ⟨rfl, _, hm⟩
              · exact h.same hm
              · exact h.removed hwf hp (hcond (IOManager.delEvent_fails hc)) hm
          | cancelEvent fd e =>
              rcases IOManager.cancelEvent_ok h.mgr hlt hfd hc with
                ⟨_, hm⟩ | ⟨_, _, hsched, hm⟩
              · exact h.same hm
              · exact h.triggered hwf hsched hm
          | cancelAll fd =>
              rcases IOManager.cancelAll_ok h.mgr hlt hfd hc with
                ⟨_, hm⟩ | ⟨_, _, hsched, hm⟩
              · exact h.same hm
              · exact h.triggered hwf hsched hm

theorem resize_inv (h : s.Inv) {fd : Nat} (hcond : s.Guarded (.resize fd))
    (hst : s.step (.resize fd) = some t) : t.Inv := by
  simp only [step, Option.ite_none_right_eq_some, Option.some.injEq] at hst
  obtain ⟨_, rfl⟩ := hst
  refine h.registry (IOManager.contextResize_wellFormed h.mgr _) ⟨rfl, rfl, rfl⟩ ?_
    (fun f _ hq => hq) ?_
  · intro f hw hr
    left
    rw [Registered, IOManager.stored_contextResize h.mgr, if_pos]
    · exact hr
    · by_contra hge
      have hlt : (s.fibre f).fd < s.mgr.fdContexts.length := by
        by_contra hle
        rw [Registered, IOManager.stored, List.getElem?_eq_none (Nat.le_of_not_lt hle)] at hr
        cases hr
      obtain ⟨hread, hwrite⟩ := hcond _ hlt (Nat.le_of_not_lt hge)
      have haw : s.Awaited (s.fibre f).fd (s.fibre f).fn.event := by
        rw [Awaited, show s.mgr.stored (s.fibre f).fd (s.fibre f).fn.event = some f from hr]
        exact ⟨hw, rfl, rfl⟩
      cases he : (s.fibre f).fn.event with
      | none =>
          rw [Registered, he] at hr
          cases hq : s.mgr.fdContexts[(s.fibre f).fd]? <;>
            simp [IOManager.stored, hq, FdContext.storedFibre, Events.has] at hr
      | read => exact hread (he ▸ haw)
      | write => exact hwrite (he ▸ haw)
  · intro f _ hr
    rw [Registered, IOManager.stored_contextResize h.mgr] at hr
    split at hr
    · exact hr
    · cases hr

end Registry

end Sys
end Util
end Hpgs
