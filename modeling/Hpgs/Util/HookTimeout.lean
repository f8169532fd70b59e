import Hpgs.Util.HookInvariant

/-!
# The timeout of a hooked call

The callback of the condition timer may run before the fibre has registered its event.
It then sets `cancelled` and finds nothing to cancel, and nobody looks at `cancelled`
again before the fibre yields.

**Results.**
* `addTimer_inv`, `addEvent_inv`, `cancelTimer_inv`: the steps of the fibre.
* `callback_inv`, `cancelEvent_inv`: the steps of the callback.
* `no_lost_timeout`: a fibre that is suspended with a finite timeout is woken by its
  callback or is scheduled, as long as no event is registered after the callback ran.
* `lost_timeout`: a callback that runs before `addEvent` is lost.
-/

namespace Hpgs
namespace Util

open Transition Concurrency

namespace Sys

/-! ## Steps of a fibre -/

section Fibre

variable {s t : Sys} {f : Nat}

theorem goto_continues (pc : Pc) (hin : (s.fibre f).pc ≠ .outside)
    (ht : t.fibre = (s.goto f pc).fibre) (g : Nat) :
    Continues s t g := by
  by_cases hg : g = f
  · subst hg
    refine ⟨fun _ => hin, ?_, ?_, ?_⟩ <;> simp [ht, goto]
  · exact .of_eq (by rw [ht, goto_ne s pc hg])

/-- Another fibre moves, and the registry stays as it is. -/
theorem Watched.other (h : s.Watched f) {pc : Pc} {g : Nat} (hg : f ≠ g) :
    (s.goto g pc).Watched f := by
  refine h.keep (goto_ne s pc hg) ?_ ?_ (fun _ hq => hq) ?_
  · exact fun i x hx _ _ => ⟨x, hx, .refl x, Or.inl⟩
  · intro _ hr
    left
    rwa [Continues.registered (.of_eq (goto_ne s pc hg)) rfl]
  · intro _ hr
    rw [Continues.registered (.of_eq (goto_ne s pc hg)) rfl] at hr
    refine ⟨hr, ?_⟩
    rintro ⟨x, hx, hxf, hxi, hxp⟩
    exact ⟨x, hx, hxf, by rw [goto_ne s pc hg, hxi], hxp⟩

/-- A fibre comes to a place where it does not wait. -/
theorem Inv.pause (h : s.Inv) {pc : Pc} (hin : (s.fibre f).pc ≠ .outside)
    (hpc : pc ≠ .adding ∧ pc ≠ .yielding ∧ pc ≠ .suspended) :
    (s.goto f pc).Inv := by
  refine h.update h.mgr rfl (goto_continues _ hin rfl) (fun y hy => ⟨y, hy, .refl y⟩) ?_
  intro g
  by_cases hg : g = f
  · subst hg
    refine (h.watched g).pause (goto_continues _ hin rfl g) (by simp [goto]) ?_
      (fun i x hx => ⟨x, hx, .refl x⟩)
    rw [goto_self]
    exact hpc
  · exact (h.watched g).other hg

theorem attempted_pause (fn : Hooked) (r : Outcome) :
    attempted fn r ≠ .adding ∧ attempted fn r ≠ .yielding ∧ attempted fn r ≠ .suspended := by
  cases fn <;> cases r <;> simp [attempted]

theorem attempt_inv (h : s.Inv) {r : Outcome} (hst : s.step (.attempt f r) = some t) :
    t.Inv := by
  simp only [step, Option.ite_none_right_eq_some, Option.some.injEq] at hst
  obtain ⟨hpc, rfl⟩ := hst
  exact h.pause (by simp [hpc]) (attempted_pause _ _)

theorem check_inv (h : s.Inv) (hst : s.step (.check f) = some t) : t.Inv := by
  simp only [step, Option.ite_none_right_eq_some] at hst
  obtain ⟨hpc, hst⟩ := hst
  split at hst
  · exact Option.some.inj hst ▸ h.pause (by simp [hpc]) (by simp)
  · exact Option.some.inj hst ▸ h.pause (by simp [hpc]) (by simp)

/-- A fibre that has registered its event yields. -/
theorem yieldToHold_inv (h : s.Inv) (hst : s.step (.yieldToHold f) = some t) : t.Inv := by
  simp only [step, Option.ite_none_right_eq_some, Option.some.injEq] at hst
  obtain ⟨hpc, rfl⟩ := hst
  have hin : (s.fibre f).pc ≠ .outside := by simp [hpc]
  refine h.update h.mgr rfl (goto_continues _ hin rfl) (fun y hy => ⟨y, hy, .refl y⟩) ?_
  intro g
  by_cases hg : g = f
  · subst hg
    have hw := h.watched g
    have hcall : Continues s (s.goto g .suspended) g := goto_continues _ hin rfl g
    have hreg := hcall.registered rfl
    have hwaits : (s.goto g .suspended).Waits g → s.Waits g := by
      rintro ⟨_, htimer⟩
      rw [goto_self] at htimer
      exact ⟨Or.inl hpc, htimer⟩
    constructor
    · intro i _ htimer
      rw [goto_self] at htimer ⊢
      exact hw.own i hin htimer
    · intro i x hadd htimer hx
      rw [goto_self] at htimer ⊢
      refine hw.timer i x (Or.inr (hwaits ?_)) htimer hx
      rcases hadd with hadd | hadd
      · rw [goto_self] at hadd
        cases hadd
      · exact hadd
    · exact fun hwt => (hw.woken (hwaits hwt)).imp hreg.mpr id
    · intro hwt hcancelled hr
      rw [goto_self] at hcancelled
      obtain ⟨x, hx, hxf, hxi, hxp⟩ := hw.cancels (hwaits hwt) hcancelled (hreg.mp hr)
      exact ⟨x, hx, hxf, by rw [goto_self, hxi], hxp⟩
  · exact (h.watched g).other hg

/-- A suspended fibre is taken from the queue. -/
theorem resume_inv (h : s.Inv) (hst : s.step (.resume f) = some t) : t.Inv := by
  simp only [step, Option.ite_none_right_eq_some, Option.some.injEq] at hst
  obtain ⟨⟨hpc, _⟩, rfl⟩ := hst
  have hin : (s.fibre f).pc ≠ .outside := by simp [hpc]
  refine h.update ⟨h.mgr.ctx, h.mgr.count, h.mgr.registered, h.mgr.events, h.mgr.table⟩ rfl
    (goto_continues _ hin rfl) (fun y hy => ⟨y, hy, .refl y⟩) ?_
  intro g
  by_cases hg : g = f
  · subst hg
    refine (h.watched g).pause ?_ (by simp [goto]) ?_ (fun i x hx => ⟨x, hx, .refl x⟩)
    · refine goto_continues .resumed hin ?_ g
      rfl
    · simp [goto]
  · refine (h.watched g).keep (goto_ne s .resumed hg)
      (fun i x hx _ _ => ⟨x, hx, .refl x, Or.inl⟩) ?_ ?_ ?_
    · intro _ hr
      left
      rw [Registered, goto_ne _ _ hg]
      exact hr
    · rintro _ ⟨x, hx, htask⟩
      refine ⟨x, ?_, htask⟩
      simp only [goto]
      rw [List.mem_eraseP_of_neg (by simp [htask, hg])]
      exact hx
    · intro _ hr
      rw [Registered, goto_ne _ _ hg] at hr
      refine ⟨hr, ?_⟩
      rintro ⟨x, hx, hxf, hxi, hxp⟩
      exact ⟨x, hx, hxf, by rw [goto_ne _ _ hg]; exact hxi, hxp⟩

/-- The entry of a hooked function. -/
theorem enter_inv (h : s.Inv) {fn : Hooked} {fd : Nat} {hookEnable : Bool}
    {ctx : Option FdCtx} (hst : s.step (.enter f fn fd hookEnable ctx) = some t) : t.Inv := by
  simp only [step, Option.ite_none_right_eq_some, Option.some.injEq] at hst
  obtain ⟨hpc, rfl⟩ := hst
  unfold enter
  split
  · exact h
  · rename_i c
    split
    · -- no timer knows the new `timer_info`
      have hother : ∀ (l : Local) g, g ≠ f → Function.update s.fibre f l g = s.fibre g :=
        fun l g hg => Function.update_of_ne hg _ _
      constructor
      · exact h.mgr
      · exact fun x hx => Nat.lt_succ_of_lt (h.infos x hx)
      · intro g hin
        by_cases hg : g = f
        · subst hg
          simp
        · simp only [hother _ g hg] at hin ⊢
          exact Nat.lt_succ_of_lt (h.locals g hin)
      · rintro x hx ⟨hin, hinfo⟩
        by_cases hg : x.fibre = f
        · simp only [hg, Function.update_self] at hinfo
          have := h.infos x hx
          omega
        · simp only [hother _ _ hg] at hin hinfo ⊢
          exact h.captured x hx ⟨hin, hinfo⟩
      · intro g
        by_cases hg : g = f
        · subst hg
          constructor
          · intro i _ htimer
            simp at htimer
          · intro i x _ htimer
            simp at htimer
          · rintro ⟨hw, _⟩
            simp at hw
          · rintro ⟨hw, _⟩
            simp at hw
        · refine (h.watched g).keep (hother _ g hg)
            (fun i x hx _ _ => ⟨x, hx, .refl x, Or.inl⟩) ?_ (fun _ hq => hq) ?_
          · intro _ hr
            left
            simpa only [Registered, hother _ g hg] using hr
          · intro _ hr
            refine ⟨by simpa only [Registered, hother _ g hg] using hr, ?_⟩
            rintro ⟨x, hx, hxf, hxi, hxp⟩
            exact ⟨x, hx, hxf, by simpa only [hother _ g hg] using hxi, hxp⟩
    · exact h

/-- A fibre cancels its timer, and comes to a place where it does not wait. -/
theorem Inv.cancelTimer (h : s.Inv) {pc : Pc} (hin : (s.fibre f).pc ≠ .outside)
    (hpc : pc ≠ .adding ∧ pc ≠ .yielding ∧ pc ≠ .suspended) :
    ((s.cancelTimer (s.fibre f).timer).goto f pc).Inv := by
  rcases cancelTimer_cases s (s.fibre f).timer with hc | ⟨i, x, htimer, hx, hset, hc⟩
  · rw [hc]
    exact h.pause hin hpc
  · rw [hc]
    have hcall : ∀ g, Continues s ((s.setPhase i .finished).goto f pc) g := by
      refine fun g => goto_continues pc hin ?_ g
      rfl
    refine h.update h.mgr rfl hcall (fun y hy => mem_setPhase hy) ?_
    intro g
    by_cases hg : g = f
    · subst hg
      refine (h.watched g).pause (hcall g) (by simp [goto, setPhase]) ?_
        (fun j z hz => setPhase_moved hz)
      rw [goto_self]
      exact hpc
    · have hlocal : ((s.setPhase i .finished).goto f pc).fibre g = s.fibre g := goto_ne _ pc hg
      have hreg := (hcall g).registered rfl
      refine (h.watched g).keep hlocal ?_ (fun _ hr => Or.inl (hreg.mpr hr))
        (fun _ hq => hq) ?_
      · intro j z hz _ hzg
        have hne : i ≠ j := by
          rintro rfl
          obtain ⟨y, hy, hyf, _⟩ := (h.watched f).own i hin htimer
          obtain rfl : y = z := Option.some.inj (hy.symm.trans hz)
          exact hg (hzg.symm.trans hyf)
        refine ⟨z, ?_, .refl z, Or.inl⟩
        have hget := setPhase_get (i := i) (p := .finished) hz
        rwa [if_neg hne] at hget
      · intro _ hr
        refine ⟨hreg.mp hr, ?_⟩
        refine cancelling_setPhase hx rfl (by rw [hlocal]) ?_
        intro hrun
        rw [hset] at hrun
        cases hrun

theorem cancelTimer_inv (h : s.Inv) (hst : s.step (.cancelTimer f) = some t) : t.Inv := by
  simp only [step] at hst
  split at hst
  · rename_i hpc
    exact Option.some.inj hst ▸ h.cancelTimer (by simp [hpc]) (by simp)
  · rename_i hpc
    exact Option.some.inj hst ▸ h.cancelTimer (by simp [hpc]) (by simp)
  · cases hst

/-- A fibre sets its timer, if it has a timeout. -/
theorem addTimer_inv (h : s.Inv) (hst : s.step (.addTimer f) = some t) : t.Inv := by
  simp only [step, Option.ite_none_right_eq_some, Option.some.injEq] at hst
  obtain ⟨hpc, rfl⟩ := hst
  have hinfo := h.locals f (by simp [hpc])
  obtain ⟨hmgr, hinfos⟩ := addTimer_rest s f
  have hself := addTimer_self s f
  constructor
  · rw [hmgr]
    exact h.mgr
  · intro y hy
    obtain ⟨j, hj⟩ := List.mem_iff_getElem?.mp hy
    rw [hinfos]
    rcases addTimer_get hj with hold | ⟨rfl, _⟩
    · exact h.infos y (List.mem_of_getElem? hold)
    · exact hinfo
  · intro g hg
    rw [hinfos]
    by_cases hgf : g = f
    · subst hgf
      rw [hself]
      exact hinfo
    · rw [addTimer_ne s hgf] at hg ⊢
      exact h.locals g hg
  · rintro y hy ⟨hyin, hyinfo⟩
    obtain ⟨j, hj⟩ := List.mem_iff_getElem?.mp hy
    rcases addTimer_get hj with hold | ⟨rfl, _⟩
    · have hcaptured := h.captured y (List.mem_of_getElem? hold)
      by_cases hyf : y.fibre = f
      · rw [hyf, hself] at hyinfo ⊢
        rw [hyf] at hcaptured
        exact hcaptured ⟨by simp [hyf, hpc], by rw [hyf]; exact hyinfo⟩
      · rw [addTimer_ne s hyf] at hyin hyinfo ⊢
        exact hcaptured ⟨hyin, hyinfo⟩
    · change (s.fibre f).fd = ((s.addTimer f).fibre f).fd ∧
        (s.fibre f).fn.event = ((s.addTimer f).fibre f).fn.event
      rw [hself]
      exact ⟨rfl, rfl⟩
  · intro g
    by_cases hg : g = f
    · subst hg
      have hno : ¬ (s.addTimer g).Waits g := by
        rintro ⟨hw, _⟩
        rw [hself] at hw
        simp at hw
      constructor
      · intro i _ htimer
        exact ⟨_, addTimer_own htimer, rfl, by rw [hself]; rfl⟩
      · intro i x _ htimer hx
        obtain rfl := Option.some.inj ((addTimer_own htimer).symm.trans hx)
        exact Or.inl (Or.inl rfl)
      · exact fun hw => absurd hw hno
      · exact fun hw => absurd hw hno
    · -- the other fibres do not notice
      have hother := addTimer_ne s hg
      refine (h.watched g).keep hother
        (fun i x hx _ _ => ⟨x, addTimer_old hx, .refl x, Or.inl⟩) ?_ (fun _ hq => ?_) ?_
      · intro _ hr
        left
        rwa [Registered, hother, hmgr]
      · rwa [InQueue, hmgr]
      · intro _ hr
        rw [Registered, hother, hmgr] at hr
        refine ⟨hr, ?_⟩
        rintro ⟨x, hx, hxf, hxi, hxp⟩
        obtain ⟨i, hi⟩ := List.mem_iff_getElem?.mp hx
        exact ⟨x, List.mem_of_getElem? (addTimer_old hi), hxf, by rw [hother, hxi], hxp⟩

/-- A fibre registers its event.  If `cancelled` is set, a callback is still to come. -/
theorem addEvent_inv (h : s.Inv) {fails : Bool} (hcond : s.Guarded (.addEvent f fails))
    (hst : s.step (.addEvent f fails) = some t) : t.Inv := by
  simp only [step, Option.ite_none_right_eq_some] at hst
  obtain ⟨hpc, hst⟩ := hst
  have hin : (s.fibre f).pc ≠ .outside := by simp [hpc]
  unfold addEvent at hst
  cases hp : s.mgr.fdContexts[(s.fibre f).fd]? with
  | none => simp [hp] at hst
  | some p =>
      obtain ⟨hlt, hfd⟩ := h.mgr.table _ _ hp
      simp only [hp] at hst
      split at hst
      · cases hst
      · rename_i m hadd
        obtain rfl := Option.some.inj hst
        have hwf := (IOManager.perform_effect (c := .addEvent (s.fibre f).fd
          (s.fibre f).fn.event none _) h.mgr hlt hfd hadd).wellFormed h.mgr
        have hfails := IOManager.addEvent_fails hadd
        rcases IOManager.addEvent_ok h.mgr hlt hfd hadd with ⟨hb, _⟩ | ⟨_, he, hset, _, hm⟩
        · cases hb
        · have hcall : ∀ g, Continues s (({ s with mgr := m } : Sys).goto f .yielding) g := by
            refine fun g => goto_continues .yielding hin ?_ g
            rfl
          refine h.update hwf rfl hcall (fun y hy => ⟨y, hy, .refl y⟩) ?_
          intro g
          have hw := h.watched g
          by_cases hg : g = f
          · subst hg
            have hreg : (({ s with mgr := m } : Sys).goto g .yielding).Registered g := by
              rw [Registered, (hcall g).fd, (hcall g).fn]
              show m.stored _ _ = _
              rw [hm, IOManager.stored_added _ _ he, if_pos ⟨hp, rfl⟩]
              rfl
            constructor
            · intro i _ htimer
              rw [goto_self] at htimer ⊢
              exact hw.own i hin htimer
            · intro i x _ htimer hx
              rw [goto_self] at htimer ⊢
              exact hw.timer i x (Or.inl hpc) htimer hx
            · exact fun _ => Or.inl hreg
            · intro _ hcancelled _
              rw [goto_self] at hcancelled
              obtain ⟨x, hx, hxf, hxi, hxp⟩ := hcond hfails hcancelled
              exact ⟨x, hx, hxf, by rw [goto_self]; exact hxi, hxp⟩
          · have hlocal := goto_ne ({ s with mgr := m } : Sys) .yielding hg
            have hslot : ¬ (s.mgr.fdContexts[(s.fibre g).fd]? = some p ∧
                (s.fibre g).fn.event = (s.fibre f).fn.event) ∨ ¬ s.Registered g := by
              by_cases hr : s.Registered g
              · left
                rintro ⟨hp', hev⟩
                rw [Registered, IOManager.stored, hp', Option.bind_some] at hr
                have hhas := FdContext.storedFibre_has hr
                simp only [hev, hset, Bool.false_eq_true] at hhas
              · exact Or.inr hr
            refine hw.keep hlocal (fun i x hx _ _ => ⟨x, hx, .refl x, Or.inl⟩) ?_ ?_ ?_
            · intro _ hr
              left
              rw [Registered, hlocal]
              show m.stored _ _ = _
              rw [hm, IOManager.stored_added _ _ he, if_neg (hslot.resolve_right (not_not.mpr hr))]
              exact hr
            · intro _ hq
              show ∃ x ∈ m.queue, x.task = .fibre g
              rw [hm]
              exact hq
            · intro _ hr
              have hr' : m.stored (s.fibre g).fd (s.fibre g).fn.event = some g := by
                rw [Registered, hlocal] at hr
                exact hr
              rw [hm, IOManager.stored_added _ _ he] at hr'
              split at hr'
              · simp only [Option.isSome_none, Bool.false_eq_true, if_false,
                  Option.some.injEq] at hr'
                exact absurd hr'.symm hg
              · refine ⟨hr', ?_⟩
                rintro ⟨x, hx, hxf, hxi, hxp⟩
                exact ⟨x, hx, hxf, by rw [hlocal]; exact hxi, hxp⟩
      · rename_i m hadd
        obtain rfl := Option.some.inj hst
        rcases IOManager.addEvent_ok h.mgr hlt hfd hadd with ⟨_, hm⟩ | ⟨hb, _⟩
        · rw [hm]
          exact h.pause hin (by simp)
        · cases hb

end Fibre

/-! ## Steps of a callback -/

section Callback

variable {s t : Sys} {i : Nat} {x : CondTimer}

/-- The callback of a timer moves on.  It has not been run afterwards if it was not
before, unless `cancelled` is set; and it was not about to wake its fibre, unless the
fibre's event is no longer registered. -/
theorem Inv.setPhase (h : s.Inv) {phase : Phase} (hx : s.timers[i]? = some x)
    (hfibre : t.fibre = s.fibre) (htimers : t.timers = (s.setPhase i phase).timers)
    (hinfos : t.infos = s.infos) (hmgr : t.mgr.WellFormed)
    (hrun : s.Alive x → x.NotRun →
      (phase = .listed ∨ phase = .queued) ∨ (s.fibre x.fibre).cancelled = true)
    (hreg : ∀ f, s.Waits f → s.Registered f → t.Registered f ∨ t.InQueue f)
    (hqueue : ∀ f, s.Waits f → s.InQueue f → t.InQueue f)
    (hback : ∀ f, s.Waits f → t.Registered f → s.Registered f)
    (hrunning : x.phase = .running → s.Alive x → s.Waits x.fibre →
      ¬ t.Registered x.fibre) :
    t.Inv := by
  have hlocal : ∀ f, t.fibre f = s.fibre f := fun f => by rw [hfibre]
  refine h.update hmgr hinfos (fun f => .of_eq (hlocal f)) (fun y hy => ?_) ?_
  · rw [htimers] at hy
    exact mem_setPhase hy
  · intro f
    refine (h.watched f).keep (hlocal f) ?_ (hreg f) (hqueue f) ?_
    · intro j z hz halive hzf
      have hget := setPhase_get (i := i) (p := phase) hz
      rw [← htimers] at hget
      by_cases hij : i = j
      · subst hij
        obtain rfl : x = z := Option.some.inj (hx.symm.trans hz)
        rw [if_pos rfl] at hget
        refine ⟨_, hget, ⟨rfl, rfl, rfl, rfl⟩, fun hn => ?_⟩
        rcases hrun halive hn with hp | hc
        · exact Or.inl (Or.inr hp)
        · exact Or.inr (hzf ▸ hc)
      · rw [if_neg hij] at hget
        exact ⟨z, hget, .refl z, Or.inl⟩
    · intro hw hr
      refine ⟨hback f hw hr, ?_⟩
      refine cancelling_setPhase hx htimers (by rw [hlocal]) ?_
      intro hp hxf hxi
      have halive : s.Alive x := by
        refine ⟨?_, by rw [hxf, hxi]⟩
        rw [hxf]
        rcases hw.1 with hpc | hpc <;> simp [hpc]
      exact hrunning hp halive (hxf ▸ hw) (hxf ▸ hr)

/-- A callback moves on and the registry stays as it is. -/
theorem Inv.advance (h : s.Inv) {phase : Phase} (hx : s.timers[i]? = some x)
    (hphase : x.phase ≠ .running)
    (hrun : s.Alive x → x.NotRun →
      (phase = .listed ∨ phase = .queued) ∨ (s.fibre x.fibre).cancelled = true) :
    (s.setPhase i phase).Inv :=
  h.setPhase hx rfl rfl rfl h.mgr hrun (fun _ _ hr => Or.inl hr) (fun _ _ hq => hq)
    (fun _ _ hr => hr) (fun hp => (hphase hp).elim)

theorem listExpired_inv (h : s.Inv) (hst : s.step (.listExpired i) = some t) : t.Inv := by
  cases hx : s.timers[i]? with
  | none => simp [step, hx] at hst
  | some x =>
      simp only [step, hx, Option.ite_none_right_eq_some, Option.some.injEq] at hst
      obtain ⟨hset, rfl⟩ := hst
      exact h.advance hx (by simp [hset]) (fun _ _ => Or.inl (Or.inl rfl))

theorem schedule_inv (h : s.Inv) (hst : s.step (.schedule i) = some t) : t.Inv := by
  cases hx : s.timers[i]? with
  | none => simp [step, hx] at hst
  | some x =>
      simp only [step, hx, Option.ite_none_right_eq_some, Option.some.injEq] at hst
      obtain ⟨hlisted, rfl⟩ := hst
      exact h.advance hx (by simp [hlisted]) (fun _ _ => Or.inl (Or.inr rfl))

/-- A callback that finds its call going on sets `cancelled`; any other ends. -/
theorem callback_inv (h : s.Inv) (hst : s.step (.callback i) = some t) : t.Inv := by
  cases hx : s.timers[i]? with
  | none => simp [step, hx] at hst
  | some x =>
      simp only [step, hx, Option.ite_none_right_eq_some, Option.some.injEq] at hst
      obtain ⟨hqueued, rfl⟩ := hst
      unfold callback
      by_cases hgo : s.Alive x ∧ (s.fibre x.fibre).cancelled = false
      · rw [if_pos hgo]
        obtain ⟨halive, _⟩ := hgo
        have hother : ∀ (l : Local) g, g ≠ x.fibre →
            Function.update s.fibre x.fibre l g = s.fibre g :=
          fun l g hg => Function.update_of_ne hg _ _
        have hget := setPhase_get (i := i) (p := .running) hx
        rw [if_pos rfl] at hget
        refine h.update h.mgr rfl ?_ (fun y hy => mem_setPhase hy) ?_
        · intro g
          by_cases hg : g = x.fibre
          · subst hg
            refine ⟨fun _ => halive.1, ?_, ?_, ?_⟩ <;> simp
          · exact .of_eq (hother _ g hg)
        · intro g
          by_cases hg : g = x.fibre
          · subst hg
            have hw := h.watched x.fibre
            have hwaits : ∀ u : Sys, (u.fibre x.fibre).pc = (s.fibre x.fibre).pc →
                (u.fibre x.fibre).timer = (s.fibre x.fibre).timer →
                u.Waits x.fibre → s.Waits x.fibre := by
              rintro u hpc htimer ⟨hw, ht⟩
              rw [hpc] at hw
              rw [htimer] at ht
              exact ⟨hw, ht⟩
            constructor
            · intro j hin htimer
              simp only [Function.update_self] at hin htimer ⊢
              obtain ⟨z, hz, hzf, hzi⟩ := hw.own j hin htimer
              obtain ⟨y, hy, hm⟩ := setPhase_moved (i := i) (p := .running) hz
              exact ⟨y, hy, hm.fibre.trans hzf, hm.info.trans hzi⟩
            · intro j y _ _ _
              right
              simp
            · intro hwt
              refine (hw.woken (hwaits _ (by simp) (by simp) hwt)).imp (fun hr => ?_) id
              simpa [Registered, Sys.setPhase] using hr
            · intro _ _ _
              exact ⟨_, List.mem_of_getElem? hget, rfl, by simpa using halive.2.symm, rfl⟩
          · refine (h.watched g).keep (hother _ g hg) ?_ ?_ (fun _ hq => hq) ?_
            · intro j z hz _ hzg
              have hij : i ≠ j := by
                rintro rfl
                obtain rfl : x = z := Option.some.inj (hx.symm.trans hz)
                exact hg hzg.symm
              have hgetz := setPhase_get (i := i) (p := .running) hz
              rw [if_neg hij] at hgetz
              exact ⟨z, hgetz, .refl z, Or.inl⟩
            · intro _ hr
              left
              simpa only [Registered, Sys.setPhase, hother _ g hg] using hr
            · intro _ hr
              refine ⟨by simpa only [Registered, Sys.setPhase, hother _ g hg] using hr, ?_⟩
              refine cancelling_setPhase hx rfl (by simp only [hother _ g hg]) ?_
              intro hrun
              rw [hqueued] at hrun
              cases hrun
      · rw [if_neg hgo]
        refine h.advance hx (by simp [hqueued]) (fun halive _ => Or.inr ?_)
        by_contra hc
        exact hgo ⟨halive, by simpa using hc⟩

/-- The `cancelEvent` of a callback wakes the fibre whose call it belongs to. -/
theorem cancelEvent_inv (h : s.Inv) {fails : Bool} (hcond : s.Guarded (.cancelEvent i fails))
    (hst : s.step (.cancelEvent i fails) = some t) : t.Inv := by
  cases hx : s.timers[i]? with
  | none => simp [step, hx] at hst
  | some x =>
      simp only [step, hx, Option.ite_none_right_eq_some] at hst
      obtain ⟨hrunning, hst⟩ := hst
      have hnot : s.Alive x → x.NotRun →
          (Phase.finished = .listed ∨ Phase.finished = .queued) ∨
            (s.fibre x.fibre).cancelled = true := by
        rintro _ (hp | hp | hp) <;> rw [hrunning] at hp <;> cases hp
      have hcap := h.captured x (List.mem_of_getElem? hx)
      unfold Sys.cancelEvent at hst
      cases hp : s.mgr.fdContexts[x.fd]? with
      | none =>
          simp only [hp, Option.some.injEq] at hst
          subst hst
          refine h.setPhase hx rfl rfl rfl h.mgr hnot (fun _ _ hr => Or.inl hr)
            (fun _ _ hq => hq) (fun _ _ hr => hr) ?_
          intro _ halive _ hr
          have hr' : s.mgr.stored (s.fibre x.fibre).fd (s.fibre x.fibre).fn.event =
              some x.fibre := hr
          rw [← (hcap halive).1, IOManager.stored, hp] at hr'
          cases hr'
      | some p =>
          obtain ⟨hlt, hfd⟩ := h.mgr.table _ _ hp
          simp only [hp] at hst
          cases hc : s.mgr.cancelEvent p x.fd x.event fails with
          | error a => simp [hc] at hst
          | ok res =>
              obtain ⟨b, m⟩ := res
              simp only [hc, Option.some.injEq] at hst
              subst hst
              have hwf := (IOManager.perform_effect (c := .cancelEvent x.fd x.event) h.mgr hlt
                hfd hc).wellFormed h.mgr
              rcases IOManager.cancelEvent_ok h.mgr hlt hfd hc with
                ⟨hb, hm⟩ | ⟨_, hset, hsched, hm⟩
              · subst hm
                refine h.setPhase hx rfl rfl rfl hwf hnot (fun _ _ hr => Or.inl hr)
                  (fun _ _ hq => hq) (fun _ _ hr => hr) ?_
                intro _ halive hw hr
                have hr' : s.mgr.stored (s.fibre x.fibre).fd (s.fibre x.fibre).fn.event =
                    some x.fibre := hr
                obtain ⟨hxfd, hxev⟩ := hcap halive
                rw [← hxfd, ← hxev, IOManager.stored, hp, Option.bind_some] at hr'
                cases fails with
                | true => exact hcond rfl x (by simp [hx]) halive hw hr
                | false =>
                    have htrue := IOManager.cancelEvent_true h.mgr hlt hfd
                      (FdContext.storedFibre_has hr') hc
                    rw [hb] at htrue
                    cases htrue
              · refine h.setPhase hx rfl rfl rfl hwf hnot
                  (fun _ _ hr => registered_triggered h.mgr hsched rfl hm hr)
                  (fun _ _ hq => inQueue_triggered hm hq)
                  (fun _ _ hr => registered_of_triggered
                    (t := ({ s with mgr := m } : Sys).setPhase i .finished) rfl hm hr) ?_
                intro _ halive _ hr
                have hr' : m.stored (s.fibre x.fibre).fd (s.fibre x.fibre).fn.event =
                    some x.fibre := hr
                obtain ⟨hxfd, hxev⟩ := hcap halive
                rw [← hxfd, ← hxev, hm, IOManager.stored_triggered, if_pos] at hr'
                · cases hr'
                · refine ⟨hp, ?_⟩
                  cases he : x.event with
                  | none => simp [he, Events.has] at hset
                  | read => rfl
                  | write => rfl

end Callback

/-! ## The queue -/

section Queue

variable {s t : Sys} {x : Scheduled Nat Nat}

theorem push_inv (h : s.Inv) (hst : s.step (.push x) = some t) : t.Inv := by
  simp only [step, Option.some.injEq] at hst
  subst hst
  refine h.registry ⟨h.mgr.ctx, h.mgr.count, h.mgr.registered, h.mgr.events, h.mgr.table⟩
    ⟨rfl, rfl, rfl⟩ (fun _ _ hr => Or.inl hr) ?_ (fun _ _ hr => hr)
  rintro f _ ⟨y, hy, htask⟩
  exact ⟨y, List.mem_append_left _ hy, htask⟩

theorem take_inv (h : s.Inv) (hst : s.step (.take x) = some t) : t.Inv := by
  simp only [step, Option.ite_none_right_eq_some, Option.some.injEq] at hst
  obtain ⟨⟨_, hfree⟩, rfl⟩ := hst
  refine h.registry ⟨h.mgr.ctx, h.mgr.count, h.mgr.registered, h.mgr.events, h.mgr.table⟩
    ⟨rfl, rfl, rfl⟩ (fun _ _ hr => Or.inl hr) ?_ (fun _ _ hr => hr)
  rintro f hw ⟨y, hy, htask⟩
  refine ⟨y, ?_, htask⟩
  have hne : y ≠ x := by
    rintro rfl
    simp only [Free, htask] at hfree
    rcases hw.1 with hpc | hpc <;> simp [hpc] at hfree
  exact (List.mem_erase_of_ne hne).mpr hy

end Queue

/-- **Step lemma.**  A step that meets the condition keeps what holds of the fibres. -/
theorem Inv.step {s t : Sys} {a : Label} (h : s.Inv) (hcond : s.Guarded a)
    (hst : s.step a = some t) : t.Inv := by
  cases a with
  | enter => exact enter_inv h hst
  | attempt => exact attempt_inv h hst
  | addTimer => exact addTimer_inv h hst
  | addEvent => exact addEvent_inv h hcond hst
  | yieldToHold => exact yieldToHold_inv h hst
  | resume => exact resume_inv h hst
  | cancelTimer => exact cancelTimer_inv h hst
  | check => exact check_inv h hst
  | listExpired => exact listExpired_inv h hst
  | schedule => exact schedule_inv h hst
  | callback => exact callback_inv h hst
  | cancelEvent => exact cancelEvent_inv h hcond hst
  | deliver => exact deliver_inv h hst
  | other => exact other_inv h hcond hst
  | resize => exact resize_inv h hcond hst
  | push => exact push_inv h hst
  | take => exact take_inv h hst

theorem start_inv : start.Inv where
  mgr := IOManager.new_wellFormed
  infos := by simp [start]
  locals := by simp [start]
  captured := by simp [start]
  watched := by
    intro f
    constructor
    · intro i hin
      simp [start] at hin
    · intro i x _ htimer
      simp [start] at htimer
    · rintro ⟨hw, _⟩
      simp [start] at hw
    · rintro ⟨hw, _⟩
      simp [start] at hw

end Sys

/-- **No lost timeout**, in every run in which no event is registered after a callback of
the call came to its end, and nothing keeps a callback from waking its fibre. -/
theorem no_lost_timeout (s : Sys) (h : Sys.system.Reachable Sys.Guarded s) :
    s.NoLostTimeout := by
  refine (h.invariant Sys.Inv ?_ (fun s a t hs hc hst => hs.step hc hst)).noLostTimeout
  rintro s rfl
  exact Sys.start_inv

/-- A read on a blocking socket with a timeout of one second. -/
def readCall : Label :=
  .enter 0 (.doIo .read true) 5 true
    (some ((FdCtx.new 5 (some true) 0).1.setTimeout true 1000))

/-- The timeout of a read passes while the fibre is suspended. -/
theorem no_lost_timeout_read :
    ∃ s, Sys.system.execIf Sys.Guarded Sys.start
        [readCall, .attempt 0 .again, .addTimer 0, .addEvent 0 false, .yieldToHold 0,
          .listExpired 0, .schedule 0, .callback 0, .cancelEvent 0 false] = some s ∧
      s.NoLostTimeout := by
  have hrun : (Sys.system.execIf Sys.Guarded Sys.start
      [readCall, .attempt 0 .again, .addTimer 0, .addEvent 0 false, .yieldToHold 0,
        .listExpired 0, .schedule 0, .callback 0, .cancelEvent 0 false]).isSome = true := by
    decide
  obtain ⟨s, hs⟩ := Option.isSome_iff_exists.mp hrun
  exact ⟨s, hs, no_lost_timeout s (System.execIf_reachable rfl hs)⟩

/-- The fibre is held up between its timer and its event for as long as the timeout
lasts.  The callback runs, finds no event, and is spent when the fibre is suspended. -/
def earlyCallbackRun : List Label :=
  [readCall, .attempt 0 .again, .addTimer 0, .listExpired 0, .schedule 0, .callback 0,
    .cancelEvent 0 false, .addEvent 0 false, .yieldToHold 0]

theorem lost_timeout :
    ¬ ∀ s, Sys.system.Reachable anyStep s → s.NoLostTimeout := by
  intro hall
  have hrun : (Sys.system.exec Sys.start earlyCallbackRun).map
      (fun s => ((s.fibre 0).pc, (s.fibre 0).timer, s.timers.map CondTimer.phase,
        decide (s.Registered 0))) =
      some (.suspended, some 0, [.finished], true) := by decide
  obtain ⟨s, hs, hfields⟩ := Option.map_eq_some_iff.mp hrun
  simp only [Prod.mk.injEq, decide_eq_true_eq] at hfields
  obtain ⟨hpc, htimer, hphases, hreg⟩ := hfields
  have hover : ∀ x ∈ s.timers, x.phase = .finished := by
    intro x hx
    have hmem := List.mem_map_of_mem (f := CondTimer.phase) hx
    rw [hphases] at hmem
    exact List.mem_singleton.mp hmem
  rcases hall s (System.exec_reachable rfl hs) 0 0 hpc htimer with
    (⟨x, hx, hrun⟩ | ⟨x, hx, _, _, hrun⟩) | ⟨hnot, _⟩
  · have hx' := hover x (List.mem_of_getElem? hx)
    rcases hrun with hrun | hrun | hrun <;> rw [hx'] at hrun <;> cases hrun
  · rw [hover x hx] at hrun
    cases hrun
  · exact hnot hreg

end Util
end Hpgs
