import Hpgs.Concurrency.EventRegistryRuns

/-!
# The fibres that wait for an event

`addEvent` without a callback stores the calling fibre.  What is stored for an event of a
descriptor is followed through the sections of the registry.

**Results.**
* `stored_added`, `stored_removed`, `stored_triggered`, `stored_contextResize`: what is
  stored after a section.
* `mem_scheduled_of_stored`: the fibre that is stored for an event is scheduled when the
  event is triggered.
* `addEvent_fails`, `delEvent_fails`, `cancelEvent_true`: what a section returns.
-/

namespace Hpgs
namespace Concurrency

universe u v

variable {φ : Type u} {κ : Type v}

/-- The fibre that is stored for an event that is set. -/
def FdContext.storedFibre (c : FdContext φ κ) (e : Event) : Option φ :=
  if c.events.has e then (c.getContext e).bind EventContext.fibre else none

theorem FdContext.storedFibre_new (fd : Nat) (e : Event) :
    (FdContext.new fd : FdContext φ κ).storedFibre e = none := by
  cases e <;> simp [storedFibre, new, Events.empty, Events.has]

theorem FdContext.storedFibre_has {c : FdContext φ κ} {e : Event} {f : φ}
    (h : c.storedFibre e = some f) : c.events.has e = true := by
  by_contra hn
  simp [storedFibre, hn] at h

theorem FdContext.storedFibre_drop (c : FdContext φ κ) (s : Events) (e : Event) :
    (c.drop s).storedFibre e = if s.has e then none else c.storedFibre e := by
  rcases s with ⟨sr, sw⟩
  cases e with
  | none => simp [storedFibre, Events.has]
  | read =>
      cases hc : c.events.read <;> cases sr <;>
        simp [storedFibre, drop, Events.has, Events.diff, getContext, hc]
  | write =>
      cases hc : c.events.write <;> cases sw <;>
        simp [storedFibre, drop, Events.has, Events.diff, getContext, hc]

theorem FdContext.storedFibre_set (c : FdContext φ κ) {e : Event} (he : e ≠ .none)
    (ctx : EventContext φ κ) (e' : Event) :
    (({ c with events := c.events.union e.bits } : FdContext φ κ).setContext e ctx).storedFibre
        e' =
      if e' = e then ctx.fibre else c.storedFibre e' := by
  cases hr : c.events.read <;> cases hw : c.events.write <;> cases e <;> cases e' <;>
    simp_all [storedFibre, setContext, getContext, Events.has, Events.union, Event.bits]

/-- Triggering an event schedules the fibre that is stored for it. -/
theorem FdContext.mem_scheduled_of_stored {c : FdContext φ κ} (h : c.WellFormed) {s : Events}
    {e : Event} {f : φ} (hsched : c.HasScheduler s) (hs : s.has e = true)
    (hf : c.storedFibre e = some f) :
    ∃ x ∈ c.scheduled s, x.task = .fibre f := by
  have key : ∀ ctx : EventContext φ κ, c.getContext e = some ctx → ctx.scheduler.isSome →
      ctx.fibre = some f → ∃ x ∈ ctx.scheduled, x.task = .fibre f := by
    intro ctx hctx hsome hfibre
    have hholds := h.holds e ctx hctx (storedFibre_has hf)
    rcases ctx with ⟨sch, fibre, cb⟩
    simp only at hfibre hsome
    subst hfibre
    obtain ⟨sch, rfl⟩ := Option.isSome_iff_exists.mp hsome
    cases cb with
    | none => exact ⟨⟨sch, .fibre f⟩, by simp [EventContext.scheduled, EventContext.task], rfl⟩
    | some k => simp [EventContext.Holds] at hholds
  have hhas := storedFibre_has hf
  cases e with
  | none => simp [Events.has] at hs
  | read =>
      simp only [Events.has] at hs
      obtain ⟨x, hx, htask⟩ := key c.read rfl (hsched.1 hs)
        (by simpa [storedFibre, hhas, getContext] using hf)
      exact ⟨x, by simp [scheduled, hs, hx], htask⟩
  | write =>
      simp only [Events.has] at hs
      obtain ⟨x, hx, htask⟩ := key c.write rfl (hsched.2 hs)
        (by simpa [storedFibre, hhas, getContext] using hf)
      exact ⟨x, by simp [scheduled, hs, hx], htask⟩

namespace IOManager

/-- The fibre that is stored for an event of a descriptor in the table. -/
def stored (m : IOManager φ κ) (fd : Nat) (e : Event) : Option φ :=
  m.fdContexts[fd]?.bind fun p => (m.store p).storedFibre e

variable {m : IOManager φ κ}

/-- Two descriptors do not share a context. -/
theorem WellFormed.table_inj (h : m.WellFormed) {fd fd' p : Nat}
    (hp : m.fdContexts[fd]? = some p) (hp' : m.fdContexts[fd']? = some p) : fd = fd' := by
  rw [← (h.table fd p hp).2, ← (h.table fd' p hp').2]

/-- The events of `s` leave the context of a descriptor; other descriptors keep theirs. -/
theorem stored_removed (m : IOManager φ κ) (p : Nat) (s : Events) (fd : Nat) (e : Event) :
    (m.removed p s).stored fd e =
      if m.fdContexts[fd]? = some p ∧ s.has e = true then none else m.stored fd e := by
  have htable : (m.removed p s).fdContexts = m.fdContexts := rfl
  cases hq : m.fdContexts[fd]? with
  | none => simp [stored, htable, hq]
  | some q =>
      by_cases hqp : q = p
      · subst hqp
        have hstore : (m.removed q s).store q = (m.store q).drop s := by
          simp [removed, dropped, setContext]
        simp only [stored, htable, hq, Option.bind_some, hstore, FdContext.storedFibre_drop,
          true_and]
      · have hstore : (m.removed p s).store q = m.store q := by
          simp [removed, dropped, setContext, Function.update_of_ne hqp]
        simp [stored, htable, hq, hstore, hqp]

theorem stored_triggered (m : IOManager φ κ) (p : Nat) (s : Events) (fd : Nat) (e : Event) :
    (m.triggered p s).stored fd e =
      if m.fdContexts[fd]? = some p ∧ s.has e = true then none else m.stored fd e :=
  stored_removed m p s fd e

theorem stored_added (m : IOManager φ κ) (p : Nat) {e : Event} (he : e ≠ .none)
    (ctx : EventContext φ κ) (fd : Nat) (e' : Event) :
    (m.added p e ctx).stored fd e' =
      if m.fdContexts[fd]? = some p ∧ e' = e then ctx.fibre else m.stored fd e' := by
  have htable : (m.added p e ctx).fdContexts = m.fdContexts := rfl
  cases hq : m.fdContexts[fd]? with
  | none => simp [stored, htable, hq]
  | some q =>
      by_cases hqp : q = p
      · subst hqp
        simp only [stored, htable, hq, Option.bind_some, true_and]
        rw [← FdContext.storedFibre_set (m.store q) he ctx e']
        simp [added, setContext]
      · have hstore : (m.added p e ctx).store q = m.store q := by
          simp [added, setContext, Function.update_of_ne hqp]
        simp [stored, htable, hq, hstore, hqp]

/-- Descriptors that are left in the table keep what is stored; new contexts are empty. -/
theorem stored_contextResize (h : m.WellFormed) (size fd : Nat) (e : Event) :
    (m.contextResize size).stored fd e = if fd < size then m.stored fd e else none := by
  have hlen := contextResize_length m size
  by_cases hsize : fd < size
  · rw [if_pos hsize]
    have hnth : ∃ q, (m.contextResize size).fdContexts[fd]? = some q :=
      ⟨_, List.getElem?_eq_getElem (by omega)⟩
    obtain ⟨q, hq⟩ := hnth
    by_cases hfd : fd < m.fdContexts.length
    · have hget : m.fdContexts[fd]? = some q := by
        rw [← hq]
        simp only [contextResize]
        rw [List.getElem?_append_left (by simp; omega), List.getElem?_take_of_lt hsize]
      have hstore := contextResize_store m size (h.table fd q hget).1
      simp [stored, hq, hget, hstore]
    · have hnew := (contextResize_wellFormed h size).table fd q hq
      have hle : m.allocated ≤ q := by
        simp only [contextResize] at hq
        rw [List.getElem?_append_right (by simp; omega)] at hq
        have hk := (List.getElem?_eq_some_iff.mp hq).1
        rw [List.length_range'] at hk
        rw [List.getElem?_range' hk, Option.some.injEq] at hq
        omega
      have hold : m.stored fd e = none := by
        simp [stored, List.getElem?_eq_none (Nat.le_of_not_lt hfd)]
      rw [hold, stored, hq, Option.bind_some, contextResize_new m size hle hnew.1]
      exact FdContext.storedFibre_new _ _
  · rw [if_neg hsize]
    simp [stored, List.getElem?_eq_none (l := (m.contextResize size).fdContexts) (i := fd)
      (by omega)]

/-- A registration goes through only if `epoll_ctl` does not fail. -/
theorem addEvent_fails {p fd : Nat} {e : Event} {cb : Option κ} {self : Caller φ}
    {fails : Bool} {m' : IOManager φ κ}
    (h : m.addEvent p fd e cb self fails = .ok (true, m')) : fails = false := by
  cases fails with
  | false => rfl
  | true =>
      simp only [addEvent, epollCtl, if_true] at h
      split at h <;> cases h

theorem delEvent_fails {p fd : Nat} {e : Event} {fails : Bool} {m' : IOManager φ κ}
    (h : m.delEvent p fd e fails = .ok (true, m')) : fails = false := by
  cases fails with
  | false => rfl
  | true =>
      simp only [delEvent, epollCtl, if_true] at h
      split at h <;> cases h

/-- Cancelling does what it should where the event is set and `epoll_ctl` does not
fail. -/
theorem cancelEvent_true (h : m.WellFormed) {p fd : Nat} (hp : p < m.allocated) {e : Event}
    (hfd : (m.store p).fd = fd) {b : Bool} {m' : IOManager φ κ}
    (hset : (m.store p).events.has e = true)
    (hc : m.cancelEvent p fd e false = .ok (b, m')) : b = true := by
  subst hfd
  unfold cancelEvent at hc
  simp only [hset, if_true] at hc
  rw [epollCtl_drop h hp (ne_empty_of_has hset)] at hc
  simp only [Bool.false_eq_true, if_false] at hc
  obtain ⟨_, _, hx⟩ := ok_of_map hc
  exact (congrArg Prod.fst hx).symm

end IOManager
end Concurrency

end Hpgs
