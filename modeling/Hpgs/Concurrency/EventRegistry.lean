import Hpgs.Library.Transition
import Hpgs.Library.Counting
import Hpgs.Concurrency.IOManager

/-!
# Well-formed event registries

`m_pendingEventCount`, the stored callbacks and fibres, and the registration in epoll
say the same as the bits in `fd_ctx->events`.

**Results.**
* `WellFormed.added`, `WellFormed.removed`, `WellFormed.triggered`: the three ways in
  which a section changes a registry keep it well formed.
* `addEvent_ok`, `delEvent_ok`, `cancelEvent_ok`, `cancelAll_ok`, `deliver_ok`: which
  of them each operation makes.
* `contextResize_wellFormed`: the table may grow or shrink.
-/

namespace Hpgs
namespace Concurrency

open Transition

universe u v

/-- Storing a callback or fibre for one event keeps a context well formed. -/
theorem FdContext.set_wellFormed {φ : Type u} {κ : Type v} {c : FdContext φ κ} {e : Event}
    {ctx : EventContext φ κ} (h : c.WellFormed) (hctx : ctx.Holds) :
    (({ c with events := c.events.union e.bits } : FdContext φ κ).setContext e ctx).WellFormed := by
  have hother : ∀ e' ctx', e' ≠ e →
      (({ c with events := c.events.union e.bits } : FdContext φ κ).setContext e ctx).getContext
        e' = some ctx' →
      c.getContext e' = some ctx' ∧ (c.events.union e.bits).has e' = c.events.has e' := by
    intro e' ctx' hne hget
    cases e <;> cases e' <;>
      simp_all [setContext, getContext, Events.has, Events.union, Event.bits]
  have hsame : ∀ ctx',
      (({ c with events := c.events.union e.bits } : FdContext φ κ).setContext e ctx).getContext
        e = some ctx' →
      ctx' = ctx ∧ (c.events.union e.bits).has e = true := by
    intro ctx' hget
    cases e <;>
      simp_all [setContext, getContext, Events.has, Events.union, Event.bits]
  have hevents :
      (({ c with events := c.events.union e.bits } : FdContext φ κ).setContext e ctx).events =
        c.events.union e.bits := by
    cases e <;> rfl
  constructor
  · intro e' ctx' hget hset
    rw [hevents] at hset
    by_cases he : e' = e
    · subst he
      exact (hsame ctx' hget).1 ▸ hctx
    · obtain ⟨hget', heq⟩ := hother e' ctx' he hget
      exact h.holds e' ctx' hget' (heq ▸ hset)
  · intro e' ctx' hget hset
    rw [hevents] at hset
    by_cases he : e' = e
    · subst he
      rw [(hsame ctx' hget).2] at hset
      cases hset
    · obtain ⟨hget', heq⟩ := hother e' ctx' he hget
      exact h.empty e' ctx' hget' (heq ▸ hset)

namespace IOManager

variable {φ : Type u} {κ : Type v}

/-! ## Well-formed registries -/

/-- The event bits that are set, over all contexts. -/
def registeredEvents (m : IOManager φ κ) : Nat :=
  ∑ p ∈ Finset.range m.allocated, (m.store p).events.count

/-- The counter, the contexts and the kernel agree with the event bits. -/
structure WellFormed (m : IOManager φ κ) : Prop where
  ctx : ∀ p, (m.store p).WellFormed
  count : m.pendingEventCount = m.registeredEvents
  registered : ∀ p < m.allocated, (m.store p).events ≠ .empty →
    m.epoll (m.store p).fd = some (p, (m.store p).events)
  events : ∀ fd p es, m.epoll fd = some (p, es) →
    p < m.allocated ∧ (m.store p).fd = fd ∧ (m.store p).events = es ∧ es ≠ .empty
  table : ∀ i p, m.fdContexts[i]? = some p → p < m.allocated ∧ (m.store p).fd = i

/-- Every event that is set has a scheduler. -/
def HasSchedulers (m : IOManager φ κ) : Prop :=
  ∀ p < m.allocated, (m.store p).HasScheduler (m.store p).events

/-- The registration after the events of `s` left the context at `p`. -/
def epollDropped (m : IOManager φ κ) (p : Nat) (s : Events) : Nat → Option (Nat × Events) :=
  let left := (m.store p).events.diff s
  Function.update m.epoll (m.store p).fd (if left = .empty then none else some (p, left))

/-- A section that takes the events of `s` out of the context at `p`. -/
def removed (m : IOManager φ κ) (p : Nat) (s : Events) : IOManager φ κ :=
  { m.dropped p s with epoll := m.epollDropped p s }

/-- A section that takes the events of `s` out and schedules what is stored for them. -/
def triggered (m : IOManager φ κ) (p : Nat) (s : Events) : IOManager φ κ :=
  { m.removed p s with queue := m.queue ++ (m.store p).scheduled s }

/-- A section that sets `event` in the context at `p` and stores `ctx` for it. -/
def added (m : IOManager φ κ) (p : Nat) (event : Event) (ctx : EventContext φ κ) :
    IOManager φ κ :=
  let c := m.store p
  let es := c.events.union event.bits
  { m.setContext p ({ c with events := es }.setContext event ctx) with
    epoll := Function.update m.epoll c.fd (some (p, es))
    pendingEventCount := m.pendingEventCount + 1 }

section Update

variable {m : IOManager φ κ} {p : Nat}

theorem sum_setContext (g : FdContext φ κ → Nat) (hp : p < m.allocated) (c : FdContext φ κ) :
    ∑ q ∈ Finset.range m.allocated, g ((m.setContext p c).store q) + g (m.store p) =
      ∑ q ∈ Finset.range m.allocated, g (m.store q) + g c :=
  Counting.sum_update _ g m.store (Finset.mem_range.mpr hp) c

/-- A context, its registration and the counter are changed together. -/
theorem WellFormed.update (h : m.WellFormed) (hp : p < m.allocated) {c : FdContext φ κ}
    {n : Nat} {q : List (Scheduled φ κ)}
    (hc : c.WellFormed)
    (hfd : c.fd = (m.store p).fd)
    (hfree : (m.store p).events = .empty → m.epoll (m.store p).fd = none)
    (hcount : n + (m.store p).events.count = m.pendingEventCount + c.events.count) :
    WellFormed
      { m.setContext p c with
        epoll := Function.update m.epoll (m.store p).fd
          (if c.events = .empty then none else some (p, c.events))
        pendingEventCount := n
        queue := q } := by
  -- no other context is registered for this descriptor
  have hother : ∀ r es, m.epoll (m.store p).fd = some (r, es) → r = p := by
    intro r es hr
    by_cases he : (m.store p).events = .empty
    · rw [hfree he] at hr
      cases hr
    · rw [h.registered p hp he] at hr
      cases hr
      rfl
  refine
    { ctx := ?_
      count := ?_
      registered := ?_
      events := ?_
      table := ?_ }
  · intro r
    by_cases hr : r = p
    · subst hr
      simpa [setContext] using hc
    · simpa [setContext, Function.update_of_ne hr] using h.ctx r
  · have hsum := sum_setContext (fun c : FdContext φ κ => c.events.count) hp c
    have hm := h.count
    unfold registeredEvents at hm
    show n = ∑ q ∈ Finset.range m.allocated, ((m.setContext p c).store q).events.count
    omega
  · intro r hr hne
    by_cases hrp : r = p
    · subst hrp
      simp only [setContext, Function.update_self] at hne ⊢
      simp [hfd, hne]
    · simp only [setContext, Function.update_of_ne hrp] at hne hr ⊢
      have hreg := h.registered r hr hne
      have hfdne : (m.store r).fd ≠ (m.store p).fd := by
        intro heq
        rw [heq] at hreg
        exact hrp (hother r _ hreg)
      rw [Function.update_of_ne hfdne]
      exact hreg
  · intro fd r es hreg
    by_cases hf : fd = (m.store p).fd
    · subst hf
      simp only [Function.update_self] at hreg
      split at hreg
      · cases hreg
      · rename_i hne
        cases hreg
        exact ⟨hp, by simp [setContext, hfd], by simp [setContext], hne⟩
    · simp only [Function.update_of_ne hf] at hreg
      obtain ⟨hlt, hrfd, hes, hne⟩ := h.events fd r es hreg
      have hrp : r ≠ p := by
        rintro rfl
        exact hf hrfd.symm
      refine ⟨hlt, ?_, ?_, hne⟩
      · simpa [setContext, Function.update_of_ne hrp] using hrfd
      · simpa [setContext, Function.update_of_ne hrp] using hes
  · intro i r hr
    obtain ⟨hlt, hfdr⟩ := h.table i r hr
    refine ⟨hlt, ?_⟩
    by_cases hrp : r = p
    · subst hrp
      simpa [setContext, hfd] using hfdr
    · simpa [setContext, Function.update_of_ne hrp] using hfdr

/-- Taking set events out keeps the registry well formed. -/
theorem WellFormed.triggered (h : m.WellFormed) (hp : p < m.allocated) {s : Events}
    (hsub : s.Subset (m.store p).events) (hne : (m.store p).events ≠ .empty) :
    (m.triggered p s).WellFormed := by
  have hcount := Events.count_diff hsub
  have hle : (m.store p).events.count ≤ m.registeredEvents :=
    Counting.le_sum _ (fun c : FdContext φ κ => c.events.count) m.store
      (Finset.mem_range.mpr hp)
  have hm := h.count
  refine h.update hp (FdContext.drop_wellFormed (h.ctx p) s) rfl (fun he => absurd he hne) ?_
  have hn : (m.removed p s).pendingEventCount = m.pendingEventCount - s.count := rfl
  have hevents : ((m.store p).drop s).events = (m.store p).events.diff s := rfl
  rw [hn, hevents]
  omega

theorem WellFormed.removed (h : m.WellFormed) (hp : p < m.allocated) {s : Events}
    (hsub : s.Subset (m.store p).events) (hne : (m.store p).events ≠ .empty) :
    (m.removed p s).WellFormed := by
  obtain ⟨hctx, hcount, hreg, hev, htable⟩ := h.triggered hp hsub hne
  exact ⟨hctx, hcount, hreg, hev, htable⟩

/-- Storing a callback or fibre for an event that is not set keeps the registry well
formed. -/
theorem WellFormed.added (h : m.WellFormed) (hp : p < m.allocated) {e : Event}
    {ctx : EventContext φ κ}
    (he : e ≠ .none)
    (hset : (m.store p).events.has e = false)
    (hctx : ctx.Holds)
    (hfree : (m.store p).events = .empty → m.epoll (m.store p).fd = none) :
    (m.added p e ctx).WellFormed := by
  set c : FdContext φ κ := { m.store p with events := (m.store p).events.union e.bits }
  have hne : (c.setContext e ctx).events ≠ .empty := by
    cases e with
    | none => exact absurd rfl he
    | read => simp [c, FdContext.setContext, Events.union, Event.bits, Events.empty]
    | write => simp [c, FdContext.setContext, Events.union, Event.bits, Events.empty]
  have hcount : (c.setContext e ctx).events.count = (m.store p).events.count + 1 := by
    cases e with
    | none => exact absurd rfl he
    | read => exact Events.count_union hset
    | write => exact Events.count_union hset
  have hwf : (c.setContext e ctx).WellFormed := FdContext.set_wellFormed (h.ctx p) hctx
  have hfd : (c.setContext e ctx).fd = (m.store p).fd := by cases e <;> rfl
  have hevents : (c.setContext e ctx).events = c.events := by cases e <;> rfl
  have hup := h.update hp (q := m.queue) hwf hfd hfree
    (n := m.pendingEventCount + 1) (by omega)
  rw [if_neg hne, hevents] at hup
  exact hup

/-! ## What a section does to a well-formed registry -/

/-- The registration of a context with events is there, so that only a failure for
another reason keeps `epoll_ctl` from changing it. -/
theorem epollCtl_drop (h : m.WellFormed) (hp : p < m.allocated)
    (hne : (m.store p).events ≠ .empty) (s : Events) (fails : Bool) :
    m.epollCtl (if (m.store p).events.diff s = .empty then EpollCtlOp.del else .mod)
        (m.store p).fd p ((m.store p).events.diff s) fails =
      if fails = true then none else some (m.epollDropped p s) := by
  have hreg := h.registered p hp hne
  unfold epollCtl epollDropped
  rw [hreg]
  by_cases hleft : (m.store p).events.diff s = .empty
  · simp [hleft]
  · simp [hleft]

theorem epollCtl_add (h : m.WellFormed) (hp : p < m.allocated) {es : Events} {fails : Bool}
    {epoll : Nat → Option (Nat × Events)}
    (hctl : m.epollCtl (if (m.store p).events = .empty then EpollCtlOp.add else .mod)
      (m.store p).fd p es fails = some epoll) :
    fails = false ∧ epoll = Function.update m.epoll (m.store p).fd (some (p, es)) ∧
      ((m.store p).events = .empty → m.epoll (m.store p).fd = none) := by
  unfold epollCtl at hctl
  cases fails with
  | true => simp at hctl
  | false =>
      by_cases he : (m.store p).events = .empty
      · cases hfd : m.epoll (m.store p).fd with
        | none =>
            simp only [he, hfd, if_true, Bool.false_eq_true, if_false, Option.some.injEq] at hctl
            exact ⟨rfl, hctl.symm, fun _ => rfl⟩
        | some r => simp [he, hfd] at hctl
      · rw [h.registered p hp he] at hctl
        simp only [he, if_false, Bool.false_eq_true, Option.some.injEq] at hctl
        exact ⟨rfl, hctl.symm, fun hemp => absurd hemp he⟩

theorem ne_empty_of_has {es : Events} {e : Event} (h : es.has e = true) : es ≠ .empty := by
  rintro rfl
  cases e <;> simp [Events.has, Events.empty] at h

/-- `addEvent` changes nothing, or it stores the callback or the calling fibre. -/
theorem addEvent_ok (h : m.WellFormed) (hp : p < m.allocated) {fd : Nat} {e : Event}
    {cb : Option κ} {self : Caller φ} {fails b : Bool} {m' : IOManager φ κ}
    (hfd : (m.store p).fd = fd)
    (hadd : m.addEvent p fd e cb self fails = .ok (b, m')) :
    (b = false ∧ m' = m) ∨
      (b = true ∧ e ≠ .none ∧ (m.store p).events.has e = false ∧
        ((m.store p).events = .empty → m.epoll (m.store p).fd = none) ∧
        m' = m.added p e
          { scheduler := self.scheduler
            fibre := if cb.isSome then none else some self.fibre
            cb := cb }) := by
  subst hfd
  unfold addEvent at hadd
  simp only at hadd
  split at hadd
  · cases hadd
  · rename_i hset
    split at hadd
    · cases hadd
      exact Or.inl ⟨rfl, rfl⟩
    · rename_i epoll hctl
      obtain ⟨_, rfl, hfree⟩ := epollCtl_add h hp hctl
      split at hadd
      · cases hadd
      · rename_i ctx hctx
        split at hadd
        · cases hadd
        · split at hadd
          · cases hadd
          · cases hadd
            refine Or.inr ⟨rfl, ?_, by simpa using hset, hfree, rfl⟩
            rintro rfl
            cases hctx

theorem delEvent_ok (h : m.WellFormed) (hp : p < m.allocated) {fd : Nat} {e : Event}
    {fails b : Bool} {m' : IOManager φ κ}
    (hfd : (m.store p).fd = fd)
    (hdel : m.delEvent p fd e fails = .ok (b, m')) :
    (b = false ∧ m' = m) ∨
      (b = true ∧ (m.store p).events.has e = true ∧ m' = m.removed p e.bits) := by
  subst hfd
  unfold delEvent at hdel
  simp only at hdel
  split at hdel
  · rename_i hset
    rw [epollCtl_drop h hp (ne_empty_of_has hset)] at hdel
    cases fails with
    | true =>
        cases hdel
        exact Or.inl ⟨rfl, rfl⟩
    | false =>
        cases e with
        | none => simp [Events.has] at hset
        | read =>
            cases hdel
            exact Or.inr ⟨rfl, hset, rfl⟩
        | write =>
            cases hdel
            exact Or.inr ⟨rfl, hset, rfl⟩
  · cases hdel
    exact Or.inl ⟨rfl, rfl⟩

/-- Triggering after `epoll_ctl` has dropped the same events. -/
theorem consume_epoll_ok (h : m.WellFormed) {s : Events} {m' : IOManager φ κ}
    (hc : consume { m with epoll := m.epollDropped p s } p s = .ok m') :
    s.Subset (m.store p).events ∧ (m.store p).HasScheduler s ∧ m' = m.triggered p s := by
  obtain ⟨hsub, hsched, rfl⟩ :=
    consume_ok (m := { m with epoll := m.epollDropped p s }) (h.ctx p) hc
  exact ⟨hsub, hsched, rfl⟩

theorem cancelEvent_ok (h : m.WellFormed) (hp : p < m.allocated) {fd : Nat} {e : Event}
    {fails b : Bool} {m' : IOManager φ κ}
    (hfd : (m.store p).fd = fd)
    (hcancel : m.cancelEvent p fd e fails = .ok (b, m')) :
    (b = false ∧ m' = m) ∨
      (b = true ∧ (m.store p).events.has e = true ∧ (m.store p).HasScheduler e.bits ∧
        m' = m.triggered p e.bits) := by
  subst hfd
  unfold cancelEvent at hcancel
  simp only at hcancel
  split at hcancel
  · rename_i hset
    rw [epollCtl_drop h hp (ne_empty_of_has hset)] at hcancel
    cases fails with
    | true =>
        cases hcancel
        exact Or.inl ⟨rfl, rfl⟩
    | false =>
        simp only [Bool.false_eq_true, if_false] at hcancel
        cases hm : consumeEvent { m with epoll := m.epollDropped p e.bits } p e with
        | error r => simp [hm, Except.map] at hcancel
        | ok m₁ =>
            have hc : consume { m with epoll := m.epollDropped p e.bits } p e.bits = .ok m₁ := by
              cases e with
              | none => simp [Events.has] at hset
              | read => simp [consume, Event.bits] at hm ⊢; simp [hm]
              | write => simpa [consume, Event.bits] using hm
            obtain ⟨_, hsched, rfl⟩ := consume_epoll_ok h hc
            simp only [hm, Except.map, Except.ok.injEq, Prod.mk.injEq] at hcancel
            exact Or.inr ⟨hcancel.1.symm, hset, hsched, hcancel.2.symm⟩
  · cases hcancel
    exact Or.inl ⟨rfl, rfl⟩

theorem cancelAll_ok (h : m.WellFormed) (hp : p < m.allocated) {fd : Nat}
    {fails b : Bool} {m' : IOManager φ κ}
    (hfd : (m.store p).fd = fd)
    (hcancel : m.cancelAll p fd fails = .ok (b, m')) :
    (b = false ∧ m' = m) ∨
      (b = true ∧ (m.store p).events ≠ .empty ∧
        (m.store p).HasScheduler (m.store p).events ∧
        m' = m.triggered p (m.store p).events) := by
  subst hfd
  have hdiff : (m.store p).events.diff (m.store p).events = .empty := by
    simp [Events.diff, Events.empty]
  unfold cancelAll at hcancel
  simp only at hcancel
  split at hcancel
  · cases hcancel
    exact Or.inl ⟨rfl, rfl⟩
  · rename_i hne
    have hctl := epollCtl_drop h hp hne (m.store p).events fails
    rw [if_pos hdiff, hdiff] at hctl
    rw [hctl] at hcancel
    cases fails with
    | true =>
        cases hcancel
        exact Or.inl ⟨rfl, rfl⟩
    | false =>
        simp only [Bool.false_eq_true, if_false] at hcancel
        split at hcancel
        · cases hcancel
        · rename_i m₁ hm
          obtain ⟨_, hsched, rfl⟩ := consume_epoll_ok h hm
          split at hcancel
          · cases hcancel
            exact Or.inr ⟨rfl, hne, hsched, rfl⟩
          · cases hcancel

/-- The section of `idle` for one entry. -/
theorem deliver_ok (h : m.WellFormed) {r : Ready} (hp : r.ctx < m.allocated)
    {fails b : Bool} {m' : IOManager φ κ}
    (hdel : m.deliver r fails = .ok (b, m')) :
    (b = false ∧ m' = m) ∨
      (b = true ∧ (realEvents (m.store r.ctx) r).Subset (m.store r.ctx).events ∧
        (m.store r.ctx).events ≠ .empty ∧
        (m.store r.ctx).HasScheduler (realEvents (m.store r.ctx) r) ∧
        m' = m.triggered r.ctx (realEvents (m.store r.ctx) r)) := by
  unfold deliver at hdel
  simp only at hdel
  split at hdel
  · cases hdel
    exact Or.inl ⟨rfl, rfl⟩
  · rename_i hinter
    have hne : (m.store r.ctx).events ≠ .empty := by
      intro he
      simp [he, Events.inter, Events.empty] at hinter
    rw [epollCtl_drop h hp hne] at hdel
    cases fails with
    | true =>
        cases hdel
        exact Or.inl ⟨rfl, rfl⟩
    | false =>
        simp only [Bool.false_eq_true, if_false] at hdel
        cases hm : consume { m with epoll := m.epollDropped r.ctx (realEvents (m.store r.ctx) r) }
            r.ctx (realEvents (m.store r.ctx) r) with
        | error a => simp [hm, Except.map] at hdel
        | ok m₁ =>
            obtain ⟨hsub, hsched, rfl⟩ := consume_epoll_ok h hm
            simp only [hm, Except.map, Except.ok.injEq, Prod.mk.injEq] at hdel
            exact Or.inr ⟨hdel.1.symm, hsub, hne, hsched, hdel.2.symm⟩

/-- An entry with some, but not all, of its events still set. -/
theorem deliver_abort (h : m.WellFormed) (hsched : m.HasSchedulers) {r : Ready}
    (hp : r.ctx < m.allocated)
    (hinter : (m.store r.ctx).events.inter (realEvents (m.store r.ctx) r) ≠ .empty)
    (hsub : ¬ (realEvents (m.store r.ctx) r).Subset (m.store r.ctx).events) :
    m.deliver r false = .error .triggerEvent := by
  have hne : (m.store r.ctx).events ≠ .empty := by
    intro he
    simp [he, Events.inter, Events.empty] at hinter
  have hc := consume_abort
    (m := { m with epoll := m.epollDropped r.ctx (realEvents (m.store r.ctx) r) })
    (h.ctx r.ctx) (hsched r.ctx hp) hsub
  unfold deliver
  simp only [if_neg hinter, epollCtl_drop h hp hne, Bool.false_eq_true, if_false, hc, Except.map]

/-- What one section under a context's mutex does to the registry. -/
inductive Effect (m : IOManager φ κ) : IOManager φ κ → Prop
  | same : Effect m m
  | added {p : Nat} {e : Event} {ctx : EventContext φ κ}
      (hp : p < m.allocated)
      (he : e ≠ .none)
      (hset : (m.store p).events.has e = false)
      (hctx : ctx.Holds)
      (hfree : (m.store p).events = .empty → m.epoll (m.store p).fd = none) :
      Effect m (m.added p e ctx)
  | removed {p : Nat} {s : Events}
      (hp : p < m.allocated)
      (hsub : s.Subset (m.store p).events)
      (hne : (m.store p).events ≠ .empty) :
      Effect m (m.removed p s)
  | triggered {p : Nat} {s : Events}
      (hp : p < m.allocated)
      (hsub : s.Subset (m.store p).events)
      (hne : (m.store p).events ≠ .empty)
      (hsched : (m.store p).HasScheduler s) :
      Effect m (m.triggered p s)

theorem Effect.wellFormed {m' : IOManager φ κ} (he : Effect m m') (h : m.WellFormed) :
    m'.WellFormed := by
  cases he with
  | same => exact h
  | added hp he hset hctx hfree => exact h.added hp he hset hctx hfree
  | removed hp hsub hne => exact h.removed hp hsub hne
  | triggered hp hsub hne _ => exact h.triggered hp hsub hne

/-- Contexts stay where they are and keep their descriptor. -/
structure Frame (m m' : IOManager φ κ) : Prop where
  allocated : m.allocated ≤ m'.allocated
  fd : ∀ p < m.allocated, (m'.store p).fd = (m.store p).fd

theorem setContext_fd {c : FdContext φ κ} (hfd : c.fd = (m.store p).fd) (q : Nat) :
    ((m.setContext p c).store q).fd = (m.store q).fd := by
  by_cases hq : q = p
  · subst hq
    simpa [setContext] using hfd
  · simp [setContext, Function.update_of_ne hq]

theorem Effect.frame {m' : IOManager φ κ} (he : Effect m m') : Frame m m' := by
  cases he with
  | same => exact ⟨Nat.le_refl _, fun _ _ => rfl⟩
  | @added p e ctx _ _ _ _ _ =>
      refine ⟨Nat.le_refl _, fun q _ => setContext_fd ?_ q⟩
      cases e <;> rfl
  | @removed p s _ _ _ =>
      exact ⟨Nat.le_refl _, fun q _ => setContext_fd (c := (m.store p).drop s) rfl q⟩
  | @triggered p s _ _ _ _ =>
      exact ⟨Nat.le_refl _, fun q _ => setContext_fd (c := (m.store p).drop s) rfl q⟩

theorem Effect.size {m' : IOManager φ κ} (he : Effect m m') :
    m'.fdContexts = m.fdContexts ∧ m'.allocated = m.allocated := by
  cases he <;> exact ⟨rfl, rfl⟩

theorem Effect.queue_prefix {m' : IOManager φ κ} (he : Effect m m') :
    m.queue <+: m'.queue := by
  cases he with
  | same => exact List.prefix_rfl
  | added => exact List.prefix_rfl
  | removed => exact List.prefix_rfl
  | triggered => exact List.prefix_append _ _

/-- Taking events out of a context leaves a scheduler with every event. -/
theorem HasSchedulers.dropped (h : m.HasSchedulers) (s : Events) :
    (m.dropped p s).HasSchedulers := by
  intro q hq
  by_cases hqp : q = p
  · subst hqp
    obtain ⟨hr, hw⟩ := h q hq
    constructor
    · intro hset
      simp only [IOManager.dropped, setContext, Function.update_self, FdContext.drop,
        Events.diff, Bool.and_eq_true, Bool.not_eq_true'] at hset ⊢
      simpa [hset.2] using hr hset.1
    · intro hset
      simp only [IOManager.dropped, setContext, Function.update_self, FdContext.drop,
        Events.diff, Bool.and_eq_true, Bool.not_eq_true'] at hset ⊢
      simpa [hset.2] using hw hset.1
  · simpa [IOManager.dropped, setContext, Function.update_of_ne hqp] using h q hq

theorem HasSchedulers.added (h : m.HasSchedulers) {e : Event} {ctx : EventContext φ κ}
    (hctx : ctx.scheduler.isSome) : (m.added p e ctx).HasSchedulers := by
  intro q hq
  by_cases hqp : q = p
  · subst hqp
    obtain ⟨hr, hw⟩ := h q hq
    cases e with
    | none =>
        simpa [IOManager.added, setContext, FdContext.setContext, FdContext.HasScheduler,
          Events.union, Event.bits] using ⟨hr, hw⟩
    | read =>
        simpa [IOManager.added, setContext, FdContext.setContext, FdContext.HasScheduler,
          Events.union, Event.bits, hctx] using hw
    | write =>
        simpa [IOManager.added, setContext, FdContext.setContext, FdContext.HasScheduler,
          Events.union, Event.bits, hctx] using hr
  · simpa [IOManager.added, setContext, Function.update_of_ne hqp] using h q hq

/-- A registered event without a scheduler. -/
theorem not_hasSchedulers_added {e : Event} {ctx : EventContext φ κ} (hp : p < m.allocated)
    (he : e ≠ .none) (hctx : ctx.scheduler = none) : ¬ (m.added p e ctx).HasSchedulers := by
  intro h
  obtain ⟨hr, hw⟩ := h p hp
  cases e with
  | none => exact he rfl
  | read =>
      have hs := hr (by simp [IOManager.added, setContext, FdContext.setContext, Events.union,
        Event.bits])
      simp [IOManager.added, setContext, FdContext.setContext, hctx] at hs
  | write =>
      have hs := hw (by simp [IOManager.added, setContext, FdContext.setContext, Events.union,
        Event.bits])
      simp [IOManager.added, setContext, FdContext.setContext, hctx] at hs

end Update

/-! ## The table -/

theorem contextResize_store (m : IOManager φ κ) (size : Nat) {p : Nat} (hp : p < m.allocated) :
    (m.contextResize size).store p = m.store p := by
  simp only [contextResize]
  rw [if_neg (by omega)]

theorem contextResize_new (m : IOManager φ κ) (size : Nat) {p : Nat} (hp : m.allocated ≤ p)
    (hlt : p < (m.contextResize size).allocated) :
    (m.contextResize size).store p = .new (m.fdContexts.length + (p - m.allocated)) := by
  simp only [contextResize] at hlt ⊢
  rw [if_pos ⟨hp, hlt⟩]

/-- The new contexts do not count for a measure that is zero on them. -/
theorem contextResize_sum (m : IOManager φ κ) (size : Nat) (g : FdContext φ κ → Nat)
    (hg : ∀ fd, g (.new fd) = 0) :
    ∑ p ∈ Finset.range (m.contextResize size).allocated, g ((m.contextResize size).store p) =
      ∑ p ∈ Finset.range m.allocated, g (m.store p) := by
  set k := size - m.fdContexts.length with hk
  have halloc : (m.contextResize size).allocated = m.allocated + k := rfl
  rw [halloc, Finset.sum_range_add]
  have hold : ∀ p ∈ Finset.range m.allocated,
      g ((m.contextResize size).store p) = g (m.store p) := by
    intro p hp
    rw [contextResize_store m size (Finset.mem_range.mp hp)]
  have hnew : ∀ i ∈ Finset.range k,
      g ((m.contextResize size).store (m.allocated + i)) = 0 := by
    intro i hi
    have hi' := Finset.mem_range.mp hi
    rw [contextResize_new m size (Nat.le_add_right _ _) (by omega)]
    exact hg _
  rw [Finset.sum_congr rfl hold, Finset.sum_congr rfl hnew]
  simp

theorem contextResize_frame (m : IOManager φ κ) (size : Nat) :
    Frame m (m.contextResize size) where
  allocated := Nat.le_add_right _ _
  fd := fun p hp => by rw [contextResize_store m size hp]

theorem contextResize_wellFormed {m : IOManager φ κ} (h : m.WellFormed) (size : Nat) :
    (m.contextResize size).WellFormed where
  ctx := by
    intro p
    simp only [contextResize]
    split
    · exact FdContext.new_wellFormed _
    · exact h.ctx p
  count := h.count.trans (contextResize_sum m size (fun c => c.events.count) fun _ => rfl).symm
  registered := by
    intro p hp hne
    by_cases hlt : p < m.allocated
    · rw [contextResize_store m size hlt] at hne ⊢
      exact h.registered p hlt hne
    · rw [contextResize_new m size (by omega) hp] at hne
      exact absurd rfl hne
  events := by
    intro fd p es hreg
    obtain ⟨hlt, hrest⟩ := h.events fd p es hreg
    rw [contextResize_store m size hlt]
    exact ⟨Nat.lt_of_lt_of_le hlt (Nat.le_add_right _ _), hrest⟩
  table := by
    intro i p hi
    simp only [contextResize] at hi
    by_cases hlen : i < (m.fdContexts.take size).length
    · rw [List.getElem?_append_left hlen] at hi
      have hold : m.fdContexts[i]? = some p := by
        rw [List.getElem?_take] at hi
        split at hi
        · exact hi
        · cases hi
      obtain ⟨hlt, hfd⟩ := h.table i p hold
      rw [contextResize_store m size hlt]
      exact ⟨Nat.lt_of_lt_of_le hlt (Nat.le_add_right _ _), hfd⟩
    · have hle : (m.fdContexts.take size).length ≤ i := by omega
      rw [List.getElem?_append_right hle] at hi
      have htake : (m.fdContexts.take size).length = min size m.fdContexts.length := by simp
      have hk : i - (m.fdContexts.take size).length < size - m.fdContexts.length := by
        simpa using (List.getElem?_eq_some_iff.mp hi).1
      rw [List.getElem?_range' hk, Option.some.injEq, Nat.one_mul] at hi
      have halloc : (m.contextResize size).allocated =
          m.allocated + (size - m.fdContexts.length) := rfl
      have hpnew : p < (m.contextResize size).allocated := by omega
      rw [contextResize_new m size (by omega) hpnew]
      refine ⟨hpnew, ?_⟩
      simp only [FdContext.new]
      omega

theorem contextResize_length (m : IOManager φ κ) (size : Nat) :
    (m.contextResize size).fdContexts.length = size := by
  simp only [contextResize, List.length_append, List.length_take, List.length_range']
  omega

theorem contextResize_hasSchedulers {m : IOManager φ κ} (h : m.HasSchedulers) (size : Nat) :
    (m.contextResize size).HasSchedulers := by
  intro p hp
  by_cases hlt : p < m.allocated
  · rw [contextResize_store m size hlt]
    exact h p hlt
  · rw [contextResize_new m size (by omega) hp]
    simp [FdContext.HasScheduler, FdContext.new, Events.empty]

theorem new_wellFormed : (new : IOManager φ κ).WellFormed :=
  contextResize_wellFormed
    { ctx := fun _ => FdContext.new_wellFormed 0
      count := by simp [registeredEvents, blank]
      registered := by simp [blank]
      events := by simp [blank]
      table := by simp [blank] } 32

theorem new_hasSchedulers : (new : IOManager φ κ).HasSchedulers :=
  contextResize_hasSchedulers (by simp [HasSchedulers, blank]) 32

end IOManager

end Concurrency
end Hpgs
