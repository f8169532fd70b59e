import Hpgs.Concurrency.EventRegistry

/-!
# The event registry in every run

Any number of threads call `addEvent`, `delEvent`, `cancelEvent` and `cancelAll`, and
idle loops handle what their `epoll_wait` returned.  A call looks its context up
before it takes the context's mutex, so it may run with a context that the table has
lost in between; an entry of `epoll_wait` may be arbitrarily old.

`idle` does not mask an entry with the events that are still registered.  If only
some of its events are, `triggerEvent` is called for one that is not set.

**Results.**
* `step_wellFormed`: every step keeps the registry well formed.
* `event_registry`: the registry stays consistent along a run exactly if no such entry
  is handled and every event is registered by a thread with a scheduler.
* `event_registry_stale`: a run in which the assertion of `triggerEvent` fires.
-/

namespace Hpgs
namespace Concurrency

open Transition

universe u v

/-! ## Calls and deliveries -/

/-- A call of one of the four operations, with its arguments. -/
inductive Call (φ : Type u) (κ : Type v)
  | addEvent (fd : Nat) (event : Event) (cb : Option κ) (self : Caller φ)
  | delEvent (fd : Nat) (event : Event)
  | cancelEvent (fd : Nat) (event : Event)
  | cancelAll (fd : Nat)
deriving DecidableEq

def Call.fd {φ : Type u} {κ : Type v} : Call φ κ → Nat
  | .addEvent fd _ _ _ => fd
  | .delEvent fd _ => fd
  | .cancelEvent fd _ => fd
  | .cancelAll fd => fd

/-- The section of a call under the mutex of the context at `p`. -/
def IOManager.perform {φ : Type u} {κ : Type v} (m : IOManager φ κ) (p : Nat) (fails : Bool) :
    Call φ κ → Except Abort (Bool × IOManager φ κ)
  | .addEvent fd event cb self => m.addEvent p fd event cb self fails
  | .delEvent fd event => m.delEvent p fd event fails
  | .cancelEvent fd event => m.cancelEvent p fd event fails
  | .cancelAll fd => m.cancelAll p fd fails

/-- The registry with what the threads have in hand: calls that looked up a context
and wait for its mutex, `addEvent` calls that found the table too small, and entries
that an `epoll_wait` returned. -/
structure IOSys (φ : Type u) (κ : Type v) where
  mgr : IOManager φ κ
  calls : List (Call φ κ × Nat)
  growing : List (Call φ κ)
  ready : List Ready

/-- The steps of the threads; `fails` says whether `epoll_ctl` fails in the section. -/
inductive IOStep (φ : Type u) (κ : Type v)
  /-- the lookup under the read lock -/
  | call (c : Call φ κ)
  /-- `contextResize` and the second lookup of `addEvent` -/
  | resize (k : Nat)
  /-- the section of a call -/
  | locked (k : Nat) (fails : Bool)
  /-- `epoll_wait` returns an entry for `fd` -/
  | epollWait (fd : Nat) (events : Events) (errHup : Bool)
  /-- `idle` handles an entry -/
  | deliver (k : Nat) (fails : Bool)

namespace IOSys

variable {φ : Type u} {κ : Type v}

def start : IOSys φ κ where
  mgr := .new
  calls := []
  growing := []
  ready := []

/-- The lookup; all calls but `addEvent` return when the table is too small. -/
def lookup (s : IOSys φ κ) (c : Call φ κ) : IOSys φ κ :=
  match s.mgr.find c.fd, c with
  | some p, _ => { s with calls := s.calls ++ [(c, p)] }
  | none, .addEvent .. => { s with growing := s.growing ++ [c] }
  | none, _ => s

/-- A step of a running process; the result may be that the process ends. -/
def step : Except Abort (IOSys φ κ) → IOStep φ κ → Option (Except Abort (IOSys φ κ))
  | .error _, _ => none
  | .ok s, .call c => some (.ok (s.lookup c))
  | .ok s, .resize k =>
      match s.growing[k]? with
      | none => none
      | some c =>
          let m := s.mgr.contextResize (c.fd * 3 / 2)
          m.fdContexts[c.fd]?.map fun p =>
            .ok { s with
              mgr := m
              growing := s.growing.eraseIdx k
              calls := s.calls ++ [(c, p)] }
  | .ok s, .locked k fails =>
      match s.calls[k]? with
      | none => none
      | some (c, p) =>
          some ((s.mgr.perform p fails c).map fun r =>
            { s with mgr := r.2, calls := s.calls.eraseIdx k })
  | .ok s, .epollWait fd events errHup =>
      match s.mgr.epoll fd with
      | none => none
      | some (p, es) =>
          if events.Subset es then
            some (.ok { s with ready := s.ready ++ [⟨p, events, errHup⟩] })
          else none
  | .ok s, .deliver k fails =>
      match s.ready[k]? with
      | none => none
      | some r =>
          some ((s.mgr.deliver r fails).map fun x =>
            { s with mgr := x.2, ready := s.ready.eraseIdx k })

/-- The process from the end of the constructor on. -/
def system (φ : Type u) (κ : Type v) : System (Except Abort (IOSys φ κ)) (IOStep φ κ) where
  init := fun s => s = .ok start
  step := step

/-- The registry is well formed, and what is in hand refers to allocated contexts of
the right descriptor. -/
structure WellFormed (s : IOSys φ κ) : Prop where
  mgr : s.mgr.WellFormed
  calls : ∀ c ∈ s.calls, c.2 < s.mgr.allocated ∧ (s.mgr.store c.2).fd = c.1.fd
  ready : ∀ r ∈ s.ready, r.ctx < s.mgr.allocated

end IOSys

namespace IOManager

variable {φ : Type u} {κ : Type v} {m m' : IOManager φ κ}

theorem ok_of_map {ε α β : Type*} {x : Except ε α} {f : α → β} {y : β}
    (h : x.map f = .ok y) : ∃ a, x = .ok a ∧ f a = y := by
  cases x with
  | error e => cases h
  | ok a => exact ⟨a, rfl, Except.ok.inj h⟩

/-- The section of a call has one of the effects. -/
theorem perform_effect (h : m.WellFormed) {p : Nat} (hp : p < m.allocated) {c : Call φ κ}
    {fails b : Bool} (hfd : (m.store p).fd = c.fd)
    (hc : m.perform p fails c = .ok (b, m')) : Effect m m' := by
  cases c with
  | addEvent fd e cb self =>
      rcases addEvent_ok h hp hfd hc with ⟨_, rfl⟩ | ⟨_, he, hset, hfree, rfl⟩
      · exact .same
      · refine .added hp he hset ?_ hfree
        cases cb <;> simp [EventContext.Holds]
  | delEvent fd e =>
      rcases delEvent_ok h hp hfd hc with ⟨_, rfl⟩ | ⟨_, hset, rfl⟩
      · exact .same
      · exact .removed hp (Event.bits_subset hset) (ne_empty_of_has hset)
  | cancelEvent fd e =>
      rcases cancelEvent_ok h hp hfd hc with ⟨_, rfl⟩ | ⟨_, hset, hsched, rfl⟩
      · exact .same
      · exact .triggered hp (Event.bits_subset hset) (ne_empty_of_has hset) hsched
  | cancelAll fd =>
      rcases cancelAll_ok h hp hfd hc with ⟨_, rfl⟩ | ⟨_, hne, hsched, rfl⟩
      · exact .same
      · exact .triggered hp (Events.subset_refl _) hne hsched

theorem deliver_effect (h : m.WellFormed) {r : Ready} (hp : r.ctx < m.allocated)
    {fails b : Bool} (hd : m.deliver r fails = .ok (b, m')) : Effect m m' := by
  rcases deliver_ok h hp hd with ⟨_, rfl⟩ | ⟨_, hsub, hne, hsched, rfl⟩
  · exact .same
  · exact .triggered hp hsub hne hsched

/-- A section that reports failure changes nothing. -/
theorem perform_false {p : Nat} {c : Call φ κ} {fails : Bool}
    (hc : m.perform p fails c = .ok (false, m')) : m' = m := by
  cases c with
  | addEvent fd e cb self =>
      simp only [perform, addEvent] at hc
      repeat' split at hc
      all_goals simp_all
  | delEvent fd e =>
      simp only [perform, delEvent] at hc
      repeat' split at hc
      all_goals simp_all
  | cancelEvent fd e =>
      simp only [perform, cancelEvent] at hc
      repeat' split at hc
      · cases hc
        rfl
      · obtain ⟨_, _, hx⟩ := ok_of_map hc
        cases hx
      · cases hc
        rfl
  | cancelAll fd =>
      simp only [perform, cancelAll] at hc
      repeat' split at hc
      all_goals simp_all

theorem deliver_false {r : Ready} {fails : Bool}
    (hd : m.deliver r fails = .ok (false, m')) : m' = m := by
  simp only [deliver] at hd
  repeat' split at hd
  · cases hd
    rfl
  · cases hd
    rfl
  · obtain ⟨_, _, hx⟩ := ok_of_map hd
    cases hx

end IOManager

namespace IOSys

variable {φ : Type u} {κ : Type v} {s t : IOSys φ κ}

/-! ## What a step does -/

theorem step_resize {q : Except Abort (IOSys φ κ)} {k : Nat}
    (hs : step (.ok s) (.resize k) = some q) :
    ∃ c p, s.growing[k]? = some c ∧
      (s.mgr.contextResize (c.fd * 3 / 2)).fdContexts[c.fd]? = some p ∧
      q = .ok { s with
        mgr := s.mgr.contextResize (c.fd * 3 / 2)
        growing := s.growing.eraseIdx k
        calls := s.calls ++ [(c, p)] } := by
  simp only [step] at hs
  split at hs
  · cases hs
  · rename_i c hc
    obtain ⟨p, hp, rfl⟩ := Option.map_eq_some_iff.mp hs
    exact ⟨c, p, hc, hp, rfl⟩

theorem step_locked {k : Nat} {fails : Bool}
    (hs : step (.ok s) (.locked k fails) = some (.ok t)) :
    ∃ c p b m, s.calls[k]? = some (c, p) ∧ s.mgr.perform p fails c = .ok (b, m) ∧
      t = { s with mgr := m, calls := s.calls.eraseIdx k } := by
  simp only [step] at hs
  split at hs
  · cases hs
  · rename_i c p hc
    obtain ⟨⟨b, m⟩, hperf, rfl⟩ := IOManager.ok_of_map (Option.some.inj hs)
    exact ⟨c, p, b, m, hc, hperf, rfl⟩

theorem step_epollWait {q : Except Abort (IOSys φ κ)} {fd : Nat} {es : Events} {errHup : Bool}
    (hs : step (.ok s) (.epollWait fd es errHup) = some q) :
    ∃ p reg, s.mgr.epoll fd = some (p, reg) ∧ es.Subset reg ∧
      q = .ok { s with ready := s.ready ++ [⟨p, es, errHup⟩] } := by
  simp only [step] at hs
  split at hs
  · cases hs
  · rename_i p reg hreg
    split at hs
    · rename_i hsub
      cases hs
      exact ⟨p, reg, hreg, hsub, rfl⟩
    · cases hs

theorem step_deliver {k : Nat} {fails : Bool}
    (hs : step (.ok s) (.deliver k fails) = some (.ok t)) :
    ∃ r b m, s.ready[k]? = some r ∧ s.mgr.deliver r fails = .ok (b, m) ∧
      t = { s with mgr := m, ready := s.ready.eraseIdx k } := by
  simp only [step] at hs
  split at hs
  · cases hs
  · rename_i r hr
    obtain ⟨⟨b, m⟩, hdel, rfl⟩ := IOManager.ok_of_map (Option.some.inj hs)
    exact ⟨r, b, m, hr, hdel, rfl⟩

/-! ## Well-formedness is kept -/

/-- What a step of a running process that goes on does to the registry. -/
theorem step_mgr (h : s.WellFormed) {a : IOStep φ κ} (hs : step (.ok s) a = some (.ok t)) :
    IOManager.Effect s.mgr t.mgr ∨
      ∃ k c, a = .resize k ∧ s.growing[k]? = some c ∧
        t.mgr = s.mgr.contextResize (c.fd * 3 / 2) := by
  cases a with
  | call c =>
      simp only [step, Option.some.injEq, Except.ok.injEq] at hs
      subst hs
      left
      unfold lookup
      split <;> exact .same
  | resize k =>
      obtain ⟨c, p, hc, _, ht⟩ := step_resize hs
      cases ht
      exact Or.inr ⟨k, c, rfl, hc, rfl⟩
  | locked k fails =>
      obtain ⟨c, p, b, m', hc, hperf, rfl⟩ := step_locked hs
      obtain ⟨hlt, hfd⟩ := h.calls _ (List.mem_of_getElem? hc)
      exact Or.inl (IOManager.perform_effect h.mgr hlt hfd hperf)
  | epollWait fd es errHup =>
      obtain ⟨p, reg, _, _, ht⟩ := step_epollWait hs
      cases ht
      exact Or.inl .same
  | deliver k fails =>
      obtain ⟨r, b, m', hr, hdel, rfl⟩ := step_deliver hs
      exact Or.inl (IOManager.deliver_effect h.mgr (h.ready r (List.mem_of_getElem? hr)) hdel)

theorem step_frame (h : s.WellFormed) {a : IOStep φ κ} (hs : step (.ok s) a = some (.ok t)) :
    IOManager.Frame s.mgr t.mgr := by
  rcases step_mgr h hs with he | ⟨k, c, _, _, hm⟩
  · exact he.frame
  · exact hm ▸ IOManager.contextResize_frame s.mgr (c.fd * 3 / 2)

/-- The calls and entries after a step were in hand before, or were just taken up. -/
theorem step_inHand (h : s.WellFormed) {a : IOStep φ κ}
    (hs : step (.ok s) a = some (.ok t)) :
    (∀ c ∈ t.calls, c ∈ s.calls ∨ t.mgr.fdContexts[c.1.fd]? = some c.2) ∧
      (∀ r ∈ t.ready, r ∈ s.ready ∨ r.ctx < s.mgr.allocated) := by
  cases a with
  | call c =>
      simp only [step, Option.some.injEq, Except.ok.injEq] at hs
      subst hs
      unfold lookup
      split
      · rename_i p hp
        refine ⟨?_, fun r hr => Or.inl hr⟩
        intro x hx
        rcases List.mem_append.mp hx with hx | hx
        · exact Or.inl hx
        · simp only [List.mem_singleton] at hx
          subst hx
          exact Or.inr (IOManager.find_some hp)
      · exact ⟨fun c hc => Or.inl hc, fun r hr => Or.inl hr⟩
      · exact ⟨fun c hc => Or.inl hc, fun r hr => Or.inl hr⟩
  | resize k =>
      obtain ⟨c, p, _, hp, ht⟩ := step_resize hs
      cases ht
      refine ⟨?_, fun r hr => Or.inl hr⟩
      intro x hx
      rcases List.mem_append.mp hx with hx | hx
      · exact Or.inl hx
      · simp only [List.mem_singleton] at hx
        subst hx
        exact Or.inr hp
  | locked k fails =>
      obtain ⟨_, _, _, _, _, _, rfl⟩ := step_locked hs
      exact ⟨fun c hc => Or.inl (List.mem_of_mem_eraseIdx hc), fun r hr => Or.inl hr⟩
  | epollWait fd es errHup =>
      obtain ⟨p, reg, hreg, _, ht⟩ := step_epollWait hs
      cases ht
      refine ⟨fun c hc => Or.inl hc, ?_⟩
      intro r hr
      rcases List.mem_append.mp hr with hr | hr
      · exact Or.inl hr
      · simp only [List.mem_singleton] at hr
        subst hr
        exact Or.inr (h.mgr.events fd p reg hreg).1
  | deliver k fails =>
      obtain ⟨_, _, _, _, _, rfl⟩ := step_deliver hs
      exact ⟨fun c hc => Or.inl hc, fun r hr => Or.inl (List.mem_of_mem_eraseIdx hr)⟩

/-- Every step of a process that goes on keeps the registry well formed. -/
theorem step_wellFormed (h : s.WellFormed) {a : IOStep φ κ}
    (hs : step (.ok s) a = some (.ok t)) : t.WellFormed := by
  have hframe := step_frame h hs
  obtain ⟨hcalls, hready⟩ := step_inHand h hs
  have hmgr : t.mgr.WellFormed := by
    rcases step_mgr h hs with he | ⟨k, c, _, _, hm⟩
    · exact he.wellFormed h.mgr
    · exact hm ▸ IOManager.contextResize_wellFormed h.mgr (c.fd * 3 / 2)
  refine
    { mgr := hmgr
      calls := ?_
      ready := ?_ }
  · intro c hc
    rcases hcalls c hc with hold | hnew
    · obtain ⟨hlt, hfd⟩ := h.calls c hold
      exact ⟨Nat.lt_of_lt_of_le hlt hframe.allocated, (hframe.fd _ hlt).trans hfd⟩
    · exact hmgr.table _ _ hnew
  · intro r hr
    rcases hready r hr with hold | hnew
    · exact Nat.lt_of_lt_of_le (h.ready r hold) hframe.allocated
    · exact Nat.lt_of_lt_of_le hnew hframe.allocated

theorem start_wellFormed : (start : IOSys φ κ).WellFormed where
  mgr := IOManager.new_wellFormed
  calls := by simp [start]
  ready := by simp [start]

end IOSys

/-! ## Consistency -/

namespace IOManager

variable {φ : Type u} {κ : Type v} {m m' : IOManager φ κ}

/-- The counter is the number of event bits; a bit is set iff its context holds a
scheduler and exactly one of callback and fibre, and iff it is registered in epoll.  This is
about all contexts, those that `m_fdContexts` has lost among them: epoll still points to them. -/
structure Consistent (m : IOManager φ κ) : Prop where
  count : m.pendingEventCount = m.registeredEvents
  context : ∀ p < m.allocated, ∀ e ctx, (m.store p).getContext e = some ctx →
    ((m.store p).events.has e = true ↔ ctx.scheduler.isSome ∧ ctx.Holds)
  epoll : ∀ p < m.allocated, ∀ e,
    ((m.store p).events.has e = true ↔
      ∃ es, m.epoll (m.store p).fd = some (p, es) ∧ es.has e = true)

theorem consistent_of_wellFormed (h : m.WellFormed) (hs : m.HasSchedulers) :
    m.Consistent where
  count := h.count
  context := by
    intro p hp e ctx hctx
    constructor
    · intro hset
      refine ⟨?_, (h.ctx p).holds e ctx hctx hset⟩
      cases e with
      | none => cases hctx
      | read =>
          cases hctx
          exact (hs p hp).1 hset
      | write =>
          cases hctx
          exact (hs p hp).2 hset
    · rintro ⟨hsched, _⟩
      by_contra hset
      rw [(h.ctx p).empty e ctx hctx (by simpa using hset)] at hsched
      cases hsched
  epoll := by
    intro p hp e
    constructor
    · intro hset
      exact ⟨_, h.registered p hp (ne_empty_of_has hset), hset⟩
    · rintro ⟨es, hreg, hset⟩
      obtain ⟨_, _, hes, _⟩ := h.events _ _ _ hreg
      rw [hes]
      exact hset

theorem hasSchedulers_of_consistent (h : m.Consistent) : m.HasSchedulers := by
  intro p hp
  exact ⟨fun hset => ((h.context p hp .read _ rfl).mp hset).1,
    fun hset => ((h.context p hp .write _ rfl).mp hset).1⟩

/-- `addEvent` goes through: `epoll_ctl` does not fail, the event is one of `READ` and
`WRITE` and not set, and there is a callback or the calling fibre is running. -/
def Registers (m : IOManager φ κ) (p : Nat) (event : Event) (cb : Option κ)
    (self : Caller φ) (fails : Bool) : Prop :=
  fails = false ∧ event ≠ .none ∧ (m.store p).events.has event = false ∧
    ((m.store p).events = .empty → m.epoll (m.store p).fd = none) ∧
    (cb.isNone → self.state = .exec)

theorem registers_of_addEvent (h : m.WellFormed) {p : Nat} (hp : p < m.allocated) {e : Event}
    {cb : Option κ} {self : Caller φ} {fails : Bool}
    (hadd : m.addEvent p (m.store p).fd e cb self fails = .ok (true, m')) :
    m.Registers p e cb self fails := by
  rcases addEvent_ok h hp rfl hadd with ⟨hb, _⟩ | ⟨_, he, hset, hfree, _⟩
  · cases hb
  · unfold addEvent at hadd
    simp only at hadd
    split at hadd
    · cases hadd
    · split at hadd
      · cases hadd
      · rename_i epoll hctl
        obtain ⟨hfails, _, _⟩ := epollCtl_add h hp hctl
        refine ⟨hfails, he, hset, hfree, ?_⟩
        split at hadd
        · cases hadd
        · split at hadd
          · cases hadd
          · split at hadd
            · cases hadd
            · rename_i hstate
              intro hnone
              by_contra hne
              exact hstate ⟨hnone, hne⟩

theorem addEvent_of_registers (h : m.WellFormed) {p : Nat} (hp : p < m.allocated) {e : Event}
    {cb : Option κ} {self : Caller φ} {fails : Bool}
    (hreg : m.Registers p e cb self fails) :
    m.addEvent p (m.store p).fd e cb self fails =
      .ok (true, m.added p e
        { scheduler := self.scheduler
          fibre := if cb.isSome then none else some self.fibre
          cb := cb }) := by
  obtain ⟨rfl, he, hset, hfree, hstate⟩ := hreg
  have hctl : m.epollCtl (if (m.store p).events = .empty then EpollCtlOp.add else .mod)
      (m.store p).fd p ((m.store p).events.union e.bits) false =
      some (Function.update m.epoll (m.store p).fd
        (some (p, (m.store p).events.union e.bits))) := by
    by_cases hemp : (m.store p).events = .empty
    · simp [epollCtl, hemp, hfree hemp]
    · simp [epollCtl, hemp, h.registered p hp hemp]
  have hctx : (m.store p).getContext e = some .empty := by
    cases e with
    | none => exact absurd rfl he
    | read => exact congrArg some ((h.ctx p).empty .read _ rfl hset)
    | write => exact congrArg some ((h.ctx p).empty .write _ rfl hset)
  have hrun : ¬ (cb.isNone = true ∧ self.state ≠ .exec) := fun hn => hn.2 (hstate hn.1)
  unfold addEvent
  simp only [hset, Bool.false_eq_true, if_false, hctl, hctx, EventContext.empty,
    Option.isSome_none, Bool.or_self, if_neg hrun]
  rfl

/-- The caller has a scheduler if its `addEvent` goes through. -/
def CallerHasScheduler (m : IOManager φ κ) (p : Nat) (fails : Bool) : Call φ κ → Prop
  | .addEvent _ event cb self => m.Registers p event cb self fails → self.scheduler.isSome
  | _ => True

/-- The entry is ignored, or all its events are still set. -/
def Current (m : IOManager φ κ) (r : Ready) (fails : Bool) : Prop :=
  let c := m.store r.ctx
  fails = false → c.events.inter (realEvents c r) ≠ .empty → (realEvents c r).Subset c.events

theorem HasSchedulers.triggered (h : m.HasSchedulers) (p : Nat) (s : Events) :
    (m.triggered p s).HasSchedulers :=
  h.dropped (p := p) s

theorem perform_hasSchedulers (h : m.WellFormed) (hs : m.HasSchedulers) {p : Nat}
    (hp : p < m.allocated) {c : Call φ κ} {fails b : Bool} (hfd : (m.store p).fd = c.fd)
    (hcall : m.CallerHasScheduler p fails c)
    (hc : m.perform p fails c = .ok (b, m')) : m'.HasSchedulers := by
  cases c with
  | addEvent fd e cb self =>
      cases hfd
      rcases addEvent_ok h hp rfl hc with ⟨_, rfl⟩ | ⟨rfl, _, _, _, rfl⟩
      · exact hs
      · exact hs.added (hcall (registers_of_addEvent h hp hc))
  | delEvent fd e =>
      rcases delEvent_ok h hp hfd hc with ⟨_, rfl⟩ | ⟨_, _, rfl⟩
      · exact hs
      · exact hs.dropped (p := p) e.bits
  | cancelEvent fd e =>
      rcases cancelEvent_ok h hp hfd hc with ⟨_, rfl⟩ | ⟨_, _, _, rfl⟩
      · exact hs
      · exact hs.triggered p e.bits
  | cancelAll fd =>
      rcases cancelAll_ok h hp hfd hc with ⟨_, rfl⟩ | ⟨_, _, _, rfl⟩
      · exact hs
      · exact hs.triggered p _

theorem HasSchedulers.bits (h : m.HasSchedulers) {p : Nat} (hp : p < m.allocated) {e : Event}
    (hset : (m.store p).events.has e = true) : (m.store p).HasScheduler e.bits := by
  obtain ⟨hr, hw⟩ := h p hp
  cases e with
  | none => simp [Events.has] at hset
  | read => exact ⟨fun _ => hr hset, by simp [Event.bits]⟩
  | write => exact ⟨by simp [Event.bits], fun _ => hw hset⟩

/-- No call makes the assertion of `triggerEvent` fire. -/
theorem perform_error (h : m.WellFormed) (hs : m.HasSchedulers) {p : Nat}
    (hp : p < m.allocated) {c : Call φ κ} {fails : Bool} {r : Abort}
    (hc : m.perform p fails c = .error r) : r ≠ .triggerEvent := by
  rintro rfl
  cases c with
  | addEvent fd e cb self =>
      simp only [perform, addEvent] at hc
      repeat' split at hc
      all_goals cases hc
  | delEvent fd e =>
      simp only [perform, delEvent] at hc
      repeat' split at hc
      all_goals cases hc
  | cancelEvent fd e =>
      simp only [perform, cancelEvent] at hc
      split at hc
      · rename_i hset
        split at hc
        · cases hc
        · rename_i epoll _
          rw [consumeEvent_spec (m := { m with epoll := epoll }) (h.ctx p) hset
            (hs.bits hp hset)] at hc
          cases hc
      · cases hc
  | cancelAll fd =>
      simp only [perform, cancelAll] at hc
      split at hc
      · cases hc
      · split at hc
        · cases hc
        · rename_i epoll _
          rw [consume_spec (m := { m with epoll := epoll }) (h.ctx p)
            (Events.subset_refl _) (hs p hp)] at hc
          simp only at hc
          split at hc
          · cases hc
          · cases hc

theorem HasScheduler.mono {c : FdContext φ κ} {a b : Events} (h : c.HasScheduler b)
    (hsub : a.Subset b) : c.HasScheduler a := by
  obtain ⟨hr, hw⟩ := Events.subset_iff.mp hsub
  exact ⟨fun ha => h.1 (hr ha), fun ha => h.2 (hw ha)⟩

theorem deliver_error (h : m.WellFormed) (hs : m.HasSchedulers) {r : Ready}
    (hp : r.ctx < m.allocated) {fails : Bool} {a : Abort} (hcur : m.Current r fails)
    (hd : m.deliver r fails = .error a) : a ≠ .triggerEvent := by
  unfold deliver at hd
  simp only at hd
  split at hd
  · cases hd
  · rename_i hinter
    have hne : (m.store r.ctx).events ≠ .empty := by
      intro he
      simp [he, Events.inter, Events.empty] at hinter
    rw [epollCtl_drop h hp hne] at hd
    cases fails with
    | true => cases hd
    | false =>
        have hsub := hcur rfl hinter
        rw [if_neg (by simp)] at hd
        simp only at hd
        have hspec := consume_spec
          (m := { m with epoll := m.epollDropped r.ctx (realEvents (m.store r.ctx) r) })
          (h.ctx r.ctx) hsub (HasScheduler.mono (hs r.ctx hp) hsub)
        rw [hspec] at hd
        cases hd

end IOManager

namespace IOSys

variable {φ : Type u} {κ : Type v} {s t : IOSys φ κ}

/-- What the assertions about the registry come to: it is consistent as
long as the process runs, and the process does not end in `triggerEvent`. -/
def RegistryConsistent : Except Abort (IOSys φ κ) → Prop
  | .ok s => s.mgr.Consistent
  | .error r => r ≠ .triggerEvent

/-- A call or a handled entry that reports failure leaves the registry unchanged. -/
def FailureUnchanged : Except Abort (IOSys φ κ) → IOStep φ κ → Prop
  | .ok s, .call c => s.mgr.find c.fd = none → (s.lookup c).mgr = s.mgr
  | .ok s, .locked k fails =>
      ∀ c p m', s.calls[k]? = some (c, p) → s.mgr.perform p fails c = .ok (false, m') →
        m' = s.mgr
  | .ok s, .deliver k fails =>
      ∀ r m', s.ready[k]? = some r → s.mgr.deliver r fails = .ok (false, m') → m' = s.mgr
  | _, _ => True

/-- Every thread whose `addEvent` goes through has a scheduler, and every entry that
is not ignored finds all its events still set. -/
def Attended : Except Abort (IOSys φ κ) → IOStep φ κ → Prop
  | .ok s, .locked k fails =>
      ∀ c p, s.calls[k]? = some (c, p) → s.mgr.CallerHasScheduler p fails c
  | .ok s, .deliver k fails => ∀ r, s.ready[k]? = some r → s.mgr.Current r fails
  | _, _ => True

/-- The invariant behind `RegistryConsistent`. -/
def RegistryInv : Except Abort (IOSys φ κ) → Prop
  | .ok s => s.WellFormed ∧ s.mgr.HasSchedulers
  | .error r => r ≠ .triggerEvent

theorem failureUnchanged (p : Except Abort (IOSys φ κ)) (a : IOStep φ κ) :
    FailureUnchanged p a := by
  cases p with
  | error r => trivial
  | ok s =>
      cases a with
      | call c =>
          intro hnone
          unfold lookup
          split
          · rfl
          · rfl
          · rfl
      | resize k => trivial
      | locked k fails => exact fun c p m' _ hc => IOManager.perform_false hc
      | epollWait fd es errHup => trivial
      | deliver k fails => exact fun r m' _ hd => IOManager.deliver_false hd

theorem registryConsistent_of_inv (p : Except Abort (IOSys φ κ)) (h : RegistryInv p) :
    RegistryConsistent p := by
  cases p with
  | ok s => exact IOManager.consistent_of_wellFormed h.1.mgr h.2
  | error r => exact h

/-- Every step that meets the condition keeps the invariant. -/
theorem step_registryInv {p : Except Abort (IOSys φ κ)} {a : IOStep φ κ}
    {q : Except Abort (IOSys φ κ)} (h : RegistryInv p) (hc : Attended p a)
    (hs : step p a = some q) : RegistryInv q := by
  cases p with
  | error r => cases hs
  | ok s =>
      obtain ⟨hwf, hsched⟩ := h
      have hwf' : ∀ t, q = .ok t → t.WellFormed := by
        rintro t rfl
        exact step_wellFormed hwf hs
      cases a with
      | call c =>
          cases hs
          refine ⟨hwf' _ rfl, ?_⟩
          unfold lookup
          split <;> exact hsched
      | resize k =>
          obtain ⟨_, _, _, _, rfl⟩ := step_resize hs
          exact ⟨hwf' _ rfl, IOManager.contextResize_hasSchedulers hsched _⟩
      | locked k fails =>
          simp only [step] at hs
          split at hs
          · cases hs
          · rename_i c p hget
            obtain ⟨hlt, hfd⟩ := hwf.calls _ (List.mem_of_getElem? hget)
            cases hs
            cases hperf : s.mgr.perform p fails c with
            | error r => exact IOManager.perform_error hwf.mgr hsched hlt hperf
            | ok x =>
                refine ⟨hwf' _ (by rw [hperf]; rfl), ?_⟩
                exact IOManager.perform_hasSchedulers hwf.mgr hsched hlt hfd
                  (hc c p hget) hperf
      | epollWait fd es errHup =>
          obtain ⟨_, _, _, _, rfl⟩ := step_epollWait hs
          exact ⟨hwf' _ rfl, hsched⟩
      | deliver k fails =>
          simp only [step] at hs
          split at hs
          · cases hs
          · rename_i r hget
            have hlt := hwf.ready r (List.mem_of_getElem? hget)
            cases hs
            cases hdel : s.mgr.deliver r fails with
            | error a =>
                exact IOManager.deliver_error hwf.mgr hsched hlt (hc r hget) hdel
            | ok x =>
                refine ⟨hwf' _ (by rw [hdel]; rfl), ?_⟩
                rcases IOManager.deliver_ok hwf.mgr hlt hdel with ⟨_, hm⟩ | ⟨_, _, _, _, hm⟩
                · simpa [hm] using hsched
                · simpa [hm] using hsched.triggered r.ctx _

/-- Every other step breaks consistency. -/
theorem step_not_attended {p : Except Abort (IOSys φ κ)} {a : IOStep φ κ}
    {q : Except Abort (IOSys φ κ)} (h : RegistryInv p) (hc : ¬ Attended p a)
    (hs : step p a = some q) : ¬ RegistryConsistent q := by
  cases p with
  | error r => cases hs
  | ok s =>
      obtain ⟨hwf, hsched⟩ := h
      cases a with
      | call c => exact absurd trivial hc
      | resize k => exact absurd trivial hc
      | epollWait fd es errHup => exact absurd trivial hc
      | locked k fails =>
          simp only [Attended, not_forall] at hc
          obtain ⟨c, p, hget, hcall⟩ := hc
          obtain ⟨hlt, hfd⟩ := hwf.calls _ (List.mem_of_getElem? hget)
          cases c with
          | addEvent fd e cb self =>
              simp only [IOManager.CallerHasScheduler, Classical.not_imp] at hcall
              obtain ⟨hreg, hnone⟩ := hcall
              have hadd := IOManager.addEvent_of_registers hwf.mgr hlt hreg
              simp only [Call.fd] at hfd
              rw [hfd] at hadd
              simp only [step, hget, IOManager.perform, hadd, Except.map, Option.some.injEq] at hs
              subst hs
              intro hcons
              exact IOManager.not_hasSchedulers_added hlt hreg.2.1
                (by simpa using hnone) (IOManager.hasSchedulers_of_consistent hcons)
          | delEvent fd e => exact absurd trivial hcall
          | cancelEvent fd e => exact absurd trivial hcall
          | cancelAll fd => exact absurd trivial hcall
      | deliver k fails =>
          simp only [Attended, IOManager.Current, not_forall] at hc
          obtain ⟨r, hget, hfails, hinter, hsub⟩ := hc
          have hlt := hwf.ready r (List.mem_of_getElem? hget)
          subst hfails
          simp only [step, hget, IOManager.deliver_abort hwf.mgr hsched hlt hinter hsub,
            Except.map, Option.some.injEq] at hs
          subst hs
          exact fun hne => hne rfl

/-- **The event registry.**  Along any run, the registry is consistent, `triggerEvent`
is called for registered events only and failing calls change nothing, exactly if
every event is registered by a thread with a scheduler and every entry of
`epoll_wait` that is not ignored finds all its events still set. -/
theorem event_registry (as : List (IOStep φ κ))
    (hrun : ((system φ κ).exec (.ok start) as).isSome) :
    ((system φ κ).Along RegistryConsistent (.ok start) as ∧
        (system φ κ).StepsMeet FailureUnchanged (.ok start) as) ↔
      (system φ κ).StepsMeet Attended (.ok start) as := by
  have hfail := (system φ κ).stepsMeet_of_forall failureUnchanged as (.ok start)
  have hexact := System.along_iff_stepsMeet (T := system φ κ) (C := Attended)
    registryConsistent_of_inv
    (fun _ _ _ h hc hs => step_registryInv h hc hs)
    (fun _ _ _ h hc hs => step_not_attended h hc hs)
    (s := .ok start) ⟨start_wellFormed, IOManager.new_hasSchedulers⟩ hrun
  exact ⟨fun h => hexact.mp h.1, fun h => ⟨hexact.mpr h, hfail⟩⟩

/-- A thread of scheduler `0` waits for both events of descriptor 5, and `idle` handles
an entry with both. -/
def bothReadyRun : List (IOStep Nat Nat) :=
  [ .call (.addEvent 5 .read (some 1) ⟨some 0, 0, .exec⟩),
    .locked 0 false,
    .call (.addEvent 5 .write none ⟨some 0, 7, .exec⟩),
    .locked 0 false,
    .epollWait 5 ⟨true, true⟩ false,
    .deliver 0 false ]

theorem event_registry_bothReady :
    ((system Nat Nat).Along RegistryConsistent (.ok start) bothReadyRun ∧
        (system Nat Nat).StepsMeet FailureUnchanged (.ok start) bothReadyRun) ↔
      (system Nat Nat).StepsMeet Attended (.ok start) bothReadyRun :=
  event_registry bothReadyRun rfl

/-- The same entry, but another thread cancels the read event before `idle` handles
the entry. -/
def staleRun : List (IOStep Nat Nat) :=
  [ .call (.addEvent 5 .read (some 1) ⟨some 0, 0, .exec⟩),
    .locked 0 false,
    .call (.addEvent 5 .write none ⟨some 0, 7, .exec⟩),
    .locked 0 false,
    .epollWait 5 ⟨true, true⟩ false,
    .call (.cancelEvent 5 .read),
    .locked 0 false,
    .deliver 0 false ]

/-- `triggerEvent` is called for the read event, which is not registered any more, and
its assertion ends the process. -/
theorem event_registry_stale :
    (system Nat Nat).exec (.ok start) staleRun = some (.error .triggerEvent) ∧
      ¬ (system Nat Nat).Along RegistryConsistent (.ok start) staleRun := by
  have hrun : (system Nat Nat).exec (.ok start) staleRun = some (.error .triggerEvent) := rfl
  exact ⟨hrun, fun h => h.of_exec hrun rfl⟩

end IOSys

end Concurrency
end Hpgs
