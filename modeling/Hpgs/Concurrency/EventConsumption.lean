import Hpgs.Concurrency.EventRegistryRuns

/-!
# Every event registration is consumed once

Each call of `addEvent` is given a number, which travels with its callback and its
fibre: into the `EventContext`, and from there onto a scheduler's queue.  Next to the
registry the history of a run is kept: the registrations that succeeded, and which
section cleared the event bit of each.

**Results.**
* `step_ledger`: what one section registers and consumes is what it adds to the contexts
  and takes out of them.
* `event_consumption`: at every moment each registration is either pending, or consumed
  by one section, and it is scheduled once or, after `delEvent`, never.
-/

namespace Hpgs
namespace Concurrency

open Transition

universe u v

variable {φ : Type u} {κ : Type v}

/-- The operations that consume a registration. -/
inductive Consumer
  | delEvent
  | cancelEvent
  | cancelAll
  | idle
deriving DecidableEq, Repr

/-- The number of the `addEvent` call that a task comes from. -/
def Task.id : Task (φ × Nat) (κ × Nat) → Nat
  | .fibre f => f.2
  | .cb c => c.2

/-- What an `addEvent` call stores: its thread's scheduler, and the callback or fibre. -/
structure Registration (φ : Type u) (κ : Type v) where
  scheduler : Option Nat
  task : Task (φ × Nat) (κ × Nat)

def Registration.id (x : Registration φ κ) : Nat := x.task.id

/-- The registration that a call makes if it succeeds. -/
def Call.registration : Call (φ × Nat) (κ × Nat) → Option (Registration φ κ)
  | .addEvent _ _ (some k) self => some ⟨self.scheduler, .cb k⟩
  | .addEvent _ _ none self => some ⟨self.scheduler, .fibre self.fibre⟩
  | _ => none

/-- Mark callback and fibre of a call with its number. -/
def Call.number (n : Nat) : Call φ κ → Call (φ × Nat) (κ × Nat)
  | .addEvent fd event cb self =>
      .addEvent fd event (cb.map fun k => (k, n))
        { scheduler := self.scheduler, fibre := (self.fibre, n), state := self.state }
  | .delEvent fd event => .delEvent fd event
  | .cancelEvent fd event => .cancelEvent fd event
  | .cancelAll fd => .cancelAll fd

def IOStep.number (n : Nat) : IOStep φ κ → IOStep (φ × Nat) (κ × Nat)
  | .call c => .call (c.number n)
  | .resize k => .resize k
  | .locked k fails => .locked k fails
  | .epollWait fd events errHup => .epollWait fd events errHup
  | .deliver k fails => .deliver k fails

def IOStep.isAddEvent : IOStep φ κ → Bool
  | .call (.addEvent ..) => true
  | _ => false

/-- What consumes the registrations whose bits the section of a call clears. -/
def Call.consumer : Call φ κ → Option Consumer
  | .addEvent .. => none
  | .delEvent .. => some .delEvent
  | .cancelEvent .. => some .cancelEvent
  | .cancelAll .. => some .cancelAll

def EventContext.registration (ctx : EventContext (φ × Nat) (κ × Nat)) :
    List (Registration φ κ) :=
  ctx.task.toList.map fun t => ⟨ctx.scheduler, t⟩

/-- The registrations that are stored under the events of `s`. -/
def FdContext.registrations (c : FdContext (φ × Nat) (κ × Nat)) (s : Events) :
    List (Registration φ κ) :=
  (if s.read then c.read.registration else []) ++
    (if s.write then c.write.registration else [])

/-- How often a number is stored under the events of `s`. -/
def FdContext.stored (c : FdContext (φ × Nat) (κ × Nat)) (s : Events) (id : Nat) : Nat :=
  ((c.registrations s).map Registration.id).count id

/-- How often a number is pending: stored under an event bit that is set. -/
def IOManager.pending (m : IOManager (φ × Nat) (κ × Nat)) (id : Nat) : Nat :=
  ∑ p ∈ Finset.range m.allocated, (m.store p).stored (m.store p).events id

/-- The registry with the history of its registrations. -/
structure History (φ : Type u) (κ : Type v) where
  sys : IOSys (φ × Nat) (κ × Nat)
  made : Nat
  registered : List (Registration φ κ)
  consumed : List (Nat × Consumer)

namespace History

/-- What the section of a call adds to the registrations that succeeded. -/
def registering (s : IOSys (φ × Nat) (κ × Nat)) :
    IOStep (φ × Nat) (κ × Nat) → List (Registration φ κ)
  | .locked k fails =>
      match s.calls[k]? with
      | none => []
      | some (c, p) =>
          match s.mgr.perform p fails c with
          | .ok (true, _) => c.registration.toList
          | _ => []
  | _ => []

/-- The context that a section works on, and what consumes the registrations whose bits
it clears there. -/
def consumer (s : IOSys (φ × Nat) (κ × Nat)) :
    IOStep (φ × Nat) (κ × Nat) → Option (Nat × Consumer)
  | .locked k _ => s.calls[k]?.bind fun c => c.1.consumer.map fun who => (c.2, who)
  | .deliver k _ => s.ready[k]?.map fun r => (r.ctx, .idle)
  | _ => none

/-- The registrations stored under the bits that a section clears. -/
def consuming (s t : IOSys (φ × Nat) (κ × Nat)) (a : IOStep (φ × Nat) (κ × Nat)) :
    List (Nat × Consumer) :=
  match consumer s a with
  | none => []
  | some (p, who) =>
      ((s.mgr.store p).registrations
        ((s.mgr.store p).events.diff (t.mgr.store p).events)).map fun x => (x.id, who)

def start : History φ κ where
  sys := .start
  made := 0
  registered := []
  consumed := []

/-- A step of a process that goes on, with the history. -/
def step (s : History φ κ) (a : IOStep φ κ) : Option (History φ κ) :=
  match IOSys.step (.ok s.sys) (a.number s.made) with
  | some (.ok t) =>
      some
        { sys := t
          made := if a.isAddEvent then s.made + 1 else s.made
          registered := s.registered ++ registering s.sys (a.number s.made)
          consumed := s.consumed ++ consuming s.sys t (a.number s.made) }
  | _ => none

def system (φ : Type u) (κ : Type v) : System (History φ κ) (IOStep φ κ) where
  init := fun s => s = start
  step := step

/-! ## The statement -/

/-- What was scheduled for a registration. -/
def scheduled (s : History φ κ) (id : Nat) : List (Scheduled (φ × Nat) (κ × Nat)) :=
  s.sys.mgr.queue.filter fun q => q.task.id = id

/-- What consumed a registration. -/
def consumers (s : History φ κ) (id : Nat) : List Consumer :=
  (s.consumed.filter fun e => e.1 = id).map Prod.snd

/-- The registration `x` is pending, or consumed by one section; it was scheduled once,
on its own scheduler with its own callback or fibre, unless it is pending or was
consumed by `delEvent`. -/
inductive Accounted (s : History φ κ) (x : Registration φ κ) : Prop
  | pending
      (hpending : s.sys.mgr.pending x.id = 1)
      (hconsumers : s.consumers x.id = [])
      (hscheduled : s.scheduled x.id = [])
  | deleted
      (hpending : s.sys.mgr.pending x.id = 0)
      (hconsumers : s.consumers x.id = [.delEvent])
      (hscheduled : s.scheduled x.id = [])
  | triggered (who : Consumer) (sch : Nat)
      (hpending : s.sys.mgr.pending x.id = 0)
      (hwho : who ≠ .delEvent)
      (hconsumers : s.consumers x.id = [who])
      (hsch : x.scheduler = some sch)
      (hscheduled : s.scheduled x.id = [⟨sch, x.task⟩])

/-- Registrations are told apart by their number, each is accounted for, and nothing
else is scheduled. -/
structure ExactlyOnce (s : History φ κ) : Prop where
  distinct : (s.registered.map Registration.id).Nodup
  accounted : ∀ x ∈ s.registered, s.Accounted x
  only : ∀ q ∈ s.sys.mgr.queue, ∃ x ∈ s.registered, x.id = q.task.id

/-- The history of `s` is part of that of `t`. -/
structure Extends (s t : History φ κ) : Prop where
  registered : s.registered <+: t.registered
  consumed : s.consumed <+: t.consumed
  queue : s.sys.mgr.queue <+: t.sys.mgr.queue

end History

/-! ## The registrations of a context -/

theorem Events.diff_diff {a b : Events} (h : b.Subset a) : a.diff (a.diff b) = b := by
  obtain ⟨hr, hw⟩ := Events.subset_iff.mp h
  rcases a with ⟨_ | _, _ | _⟩ <;> rcases b with ⟨_ | _, _ | _⟩ <;>
    simp_all [Events.diff]

namespace FdContext

variable {c : FdContext (φ × Nat) (κ × Nat)} {s : Events}

theorem stored_new (fd id : Nat) :
    (new fd : FdContext (φ × Nat) (κ × Nat)).stored (new fd : FdContext (φ × Nat) (κ × Nat)).events
      id = 0 := by
  simp [stored, registrations, new, Events.empty]

/-- What is dropped was stored before. -/
theorem stored_drop (hsub : s.Subset c.events) (id : Nat) :
    (c.drop s).stored (c.drop s).events id + c.stored s id = c.stored c.events id := by
  obtain ⟨hr, hw⟩ := Events.subset_iff.mp hsub
  rcases hc : c.events with ⟨cr, cw⟩
  rcases s with ⟨sr, sw⟩
  rw [hc] at hr hw
  cases sr <;> cases sw <;> cases cr <;> cases cw <;>
    simp_all [stored, registrations, drop, Events.diff, Nat.add_comm]

theorem mem_registrations_drop {x : Registration φ κ}
    (hx : x ∈ (c.drop s).registrations (c.drop s).events) : x ∈ c.registrations c.events := by
  rcases hc : c.events with ⟨cr, cw⟩
  rcases s with ⟨sr, sw⟩
  cases sr <;> cases sw <;> cases cr <;> cases cw <;>
    simp_all [registrations, drop, Events.diff]

theorem mem_registrations_of_subset {x : Registration φ κ} (hsub : s.Subset c.events)
    (hx : x ∈ c.registrations s) : x ∈ c.registrations c.events := by
  obtain ⟨hr, hw⟩ := Events.subset_iff.mp hsub
  unfold registrations at hx ⊢
  rcases List.mem_append.mp hx with hx | hx
  · split at hx
    · rename_i hs
      simp [hr hs, hx]
    · cases hx
  · split at hx
    · rename_i hs
      simp [hw hs, hx]
    · cases hx

theorem stored_set {e : Event} {ctx : EventContext (φ × Nat) (κ × Nat)} (he : e ≠ .none)
    (hset : c.events.has e = false) (id : Nat) :
    (({ c with events := c.events.union e.bits } : FdContext _ _).setContext e ctx).stored
        (({ c with events := c.events.union e.bits } : FdContext _ _).setContext e ctx).events id =
      c.stored c.events id + (ctx.registration.map Registration.id).count id := by
  rcases hc : c.events with ⟨cr, cw⟩
  rw [hc] at hset
  cases e with
  | none => exact absurd rfl he
  | read =>
      simp only [Events.has] at hset
      subst hset
      simp [stored, registrations, setContext, Events.union, Event.bits, Nat.add_comm]
  | write =>
      simp only [Events.has] at hset
      subst hset
      simp [stored, registrations, setContext, Events.union, Event.bits]

theorem mem_registrations_set {e : Event} {ctx : EventContext (φ × Nat) (κ × Nat)}
    {x : Registration φ κ}
    (hx : x ∈ (({ c with events := c.events.union e.bits } : FdContext _ _).setContext e
      ctx).registrations
        (({ c with events := c.events.union e.bits } : FdContext _ _).setContext e ctx).events) :
    x ∈ c.registrations c.events ∨ x ∈ ctx.registration := by
  cases e with
  | none =>
      left
      simpa [registrations, setContext, Events.union, Event.bits] using hx
  | read =>
      simp only [registrations, setContext, Events.union, Event.bits, Bool.or_true, if_true,
        Bool.or_false] at hx ⊢
      rcases List.mem_append.mp hx with hx | hx
      · exact Or.inr hx
      · exact Or.inl (List.mem_append_right _ hx)
  | write =>
      simp only [registrations, setContext, Events.union, Event.bits, Bool.or_true, if_true,
        Bool.or_false] at hx ⊢
      rcases List.mem_append.mp hx with hx | hx
      · exact Or.inl (List.mem_append_left _ hx)
      · exact Or.inr hx

/-- What is scheduled are the registrations, each on its own scheduler. -/
theorem mem_scheduled {q : Scheduled (φ × Nat) (κ × Nat)} (hq : q ∈ c.scheduled s) :
    ∃ x ∈ c.registrations s, x.scheduler = some q.scheduler ∧ x.task = q.task := by
  have key : ∀ ctx : EventContext (φ × Nat) (κ × Nat), q ∈ ctx.scheduled →
      ∃ x ∈ ctx.registration, x.scheduler = some q.scheduler ∧ x.task = q.task := by
    intro ctx hctx
    unfold EventContext.scheduled at hctx
    split at hctx
    · rename_i sch t hs ht
      simp only [List.mem_singleton] at hctx
      subst hctx
      exact ⟨⟨ctx.scheduler, t⟩, by simp [EventContext.registration, ht], hs, rfl⟩
    · cases hctx
  unfold scheduled at hq
  rcases List.mem_append.mp hq with hq | hq
  · split at hq
    · rename_i hs
      obtain ⟨x, hx, hrest⟩ := key _ hq
      exact ⟨x, by simp [registrations, hs, hx], hrest⟩
    · cases hq
  · split at hq
    · rename_i hs
      obtain ⟨x, hx, hrest⟩ := key _ hq
      exact ⟨x, by simp [registrations, hs, hx], hrest⟩
    · cases hq

theorem scheduled_ids (hsched : c.HasScheduler s) :
    (c.scheduled s).map (fun q => q.task.id) = (c.registrations s).map Registration.id := by
  have key : ∀ ctx : EventContext (φ × Nat) (κ × Nat), ctx.scheduler.isSome →
      ctx.scheduled.map (fun q => q.task.id) = ctx.registration.map Registration.id := by
    intro ctx hs
    obtain ⟨sch, hsch⟩ := Option.isSome_iff_exists.mp hs
    cases ht : ctx.task with
    | none => simp [EventContext.scheduled, EventContext.registration, ht]
    | some t =>
        simp [EventContext.scheduled, EventContext.registration, ht, hsch, Registration.id]
  rcases s with ⟨_ | _, _ | _⟩
  · simp [scheduled, registrations]
  · simp [scheduled, registrations, key _ (hsched.2 rfl)]
  · simp [scheduled, registrations, key _ (hsched.1 rfl)]
  · simp [scheduled, registrations, key _ (hsched.1 rfl), key _ (hsched.2 rfl)]

end FdContext

/-! ## The balance of registrations -/

/-- Every registration that succeeded is pending or was consumed, and the queue holds
those that were consumed, except by `delEvent`. -/
structure Ledger (m : IOManager (φ × Nat) (κ × Nat)) (registered : List (Registration φ κ))
    (consumed : List (Nat × Consumer)) : Prop where
  balance : ∀ id, m.pending id + (consumed.map Prod.fst).count id =
    (registered.map Registration.id).count id
  queued : ∀ id, (m.queue.map fun q => q.task.id).count id =
    ((consumed.filter fun e => e.2 ≠ .delEvent).map Prod.fst).count id
  stored : ∀ p < m.allocated, ∀ x ∈ (m.store p).registrations (m.store p).events,
    x ∈ registered
  source : ∀ q ∈ m.queue, ∃ x ∈ registered, x.scheduler = some q.scheduler ∧ x.task = q.task

namespace Ledger

variable {m : IOManager (φ × Nat) (κ × Nat)} {registered : List (Registration φ κ)}
variable {consumed : List (Nat × Consumer)} {p : Nat} {e : Event} {s : Events}

theorem pending_removed (hp : p < m.allocated) (hsub : s.Subset (m.store p).events) (id : Nat) :
    (m.removed p s).pending id + (m.store p).stored s id = m.pending id := by
  have hsum := IOManager.sum_setContext (fun c => c.stored c.events id) hp ((m.store p).drop s)
  have hdrop := FdContext.stored_drop hsub id
  have hleft : (m.removed p s).pending id =
      ∑ q ∈ Finset.range m.allocated,
        ((m.setContext p ((m.store p).drop s)).store q).stored
          ((m.setContext p ((m.store p).drop s)).store q).events id := rfl
  have hright : m.pending id =
      ∑ q ∈ Finset.range m.allocated, (m.store q).stored (m.store q).events id := rfl
  rw [hleft, hright]
  omega

theorem mem_stored_removed (h : Ledger m registered consumed) {q : Nat} (hq : q < m.allocated)
    {x : Registration φ κ}
    (hx : x ∈ ((m.removed p s).store q).registrations ((m.removed p s).store q).events) :
    x ∈ registered := by
  by_cases hqp : q = p
  · subst hqp
    simp only [IOManager.removed, IOManager.dropped, IOManager.setContext,
      Function.update_self] at hx
    exact h.stored q hq x (FdContext.mem_registrations_drop hx)
  · simp only [IOManager.removed, IOManager.dropped, IOManager.setContext,
      Function.update_of_ne hqp] at hx
    exact h.stored q hq x hx

/-- `delEvent` consumes what it clears and schedules nothing. -/
theorem removed (h : Ledger m registered consumed) (hp : p < m.allocated)
    (hsub : s.Subset (m.store p).events) :
    Ledger (m.removed p s) registered
      (consumed ++ ((m.store p).registrations s).map fun x => (x.id, .delEvent)) where
  balance := by
    intro id
    have hpend := pending_removed hp hsub id
    have hold := h.balance id
    have hmap : (((m.store p).registrations s).map fun x => (x.id, Consumer.delEvent)).map
        Prod.fst = ((m.store p).registrations s).map Registration.id := by
      simp [Function.comp_def]
    rw [List.map_append, List.count_append, hmap]
    unfold FdContext.stored at hpend
    omega
  queued := by
    intro id
    have hnone : (((m.store p).registrations s).map
        fun x => (x.id, Consumer.delEvent)).filter (fun e => e.2 ≠ .delEvent) = [] := by
      simp [List.filter_eq_nil_iff]
    rw [List.filter_append, hnone, List.append_nil]
    exact h.queued id
  stored := fun q hq x hx => h.mem_stored_removed hq hx
  source := h.source

/-- The other sections schedule what they clear. -/
theorem triggered (h : Ledger m registered consumed) (hp : p < m.allocated)
    (hsub : s.Subset (m.store p).events) (hsched : (m.store p).HasScheduler s)
    {who : Consumer} (hwho : who ≠ .delEvent) :
    Ledger (m.triggered p s) registered
      (consumed ++ ((m.store p).registrations s).map fun x => (x.id, who)) where
  balance := by
    intro id
    have hpend := pending_removed hp hsub id
    have hold := h.balance id
    have hsame : (m.triggered p s).pending id = (m.removed p s).pending id := rfl
    have hmap : (((m.store p).registrations s).map fun x => (x.id, who)).map Prod.fst =
        ((m.store p).registrations s).map Registration.id := by
      simp [Function.comp_def]
    rw [List.map_append, List.count_append, hmap, hsame]
    unfold FdContext.stored at hpend
    omega
  queued := by
    intro id
    have hall : (((m.store p).registrations s).map fun x => (x.id, who)).filter
        (fun e => e.2 ≠ .delEvent) = ((m.store p).registrations s).map fun x => (x.id, who) := by
      rw [List.filter_eq_self]
      intro e he
      obtain ⟨x, _, rfl⟩ := List.mem_map.mp he
      simpa using hwho
    have hmap : (((m.store p).registrations s).map fun x => (x.id, who)).map Prod.fst =
        ((m.store p).registrations s).map Registration.id := by
      simp [Function.comp_def]
    have hqueue : (m.triggered p s).queue = m.queue ++ (m.store p).scheduled s := rfl
    rw [List.filter_append, hall, List.map_append, hmap, hqueue, List.map_append,
      FdContext.scheduled_ids hsched, List.count_append, List.count_append, h.queued id]
  stored := fun q hq x hx => h.mem_stored_removed hq hx
  source := by
    intro q hq
    rcases List.mem_append.mp hq with hq | hq
    · exact h.source q hq
    · obtain ⟨x, hx, hrest⟩ := FdContext.mem_scheduled hq
      exact ⟨x, h.stored p hp x (FdContext.mem_registrations_of_subset hsub hx), hrest⟩

/-- A successful `addEvent` makes one registration pending. -/
theorem added (h : Ledger m registered consumed) (hp : p < m.allocated) (he : e ≠ .none)
    (hset : (m.store p).events.has e = false)
    {ctx : EventContext (φ × Nat) (κ × Nat)} {x : Registration φ κ}
    (hctx : ctx.registration = [x]) :
    Ledger (m.added p e ctx) (registered ++ [x]) consumed where
  balance := by
    intro id
    set c' : FdContext (φ × Nat) (κ × Nat) :=
      { m.store p with events := (m.store p).events.union e.bits }
    have hsum := IOManager.sum_setContext (fun c => c.stored c.events id) hp
      (c'.setContext e ctx)
    have hstored : (c'.setContext e ctx).stored (c'.setContext e ctx).events id =
        (m.store p).stored (m.store p).events id + (ctx.registration.map Registration.id).count id :=
      FdContext.stored_set he hset id
    have hold := h.balance id
    have hleft : (m.added p e ctx).pending id =
        ∑ q ∈ Finset.range m.allocated,
          ((m.setContext p (c'.setContext e ctx)).store q).stored
            ((m.setContext p (c'.setContext e ctx)).store q).events id := rfl
    have hright : m.pending id =
        ∑ q ∈ Finset.range m.allocated, (m.store q).stored (m.store q).events id := rfl
    rw [hctx] at hstored
    rw [List.map_append, List.count_append, hleft]
    simp only [List.map_cons, List.map_nil] at hstored ⊢
    omega
  queued := h.queued
  stored := by
    intro q hq y hy
    by_cases hqp : q = p
    · subst hqp
      simp only [IOManager.added, IOManager.setContext, Function.update_self] at hy
      rcases FdContext.mem_registrations_set hy with hy | hy
      · exact List.mem_append_left _ (h.stored q hq y hy)
      · exact List.mem_append_right _ (hctx ▸ hy)
    · simp only [IOManager.added, IOManager.setContext, Function.update_of_ne hqp] at hy
      exact List.mem_append_left _ (h.stored q hq y hy)
  source := by
    intro q hq
    obtain ⟨y, hy, hrest⟩ := h.source q hq
    exact ⟨y, List.mem_append_left _ hy, hrest⟩

theorem resize (h : Ledger m registered consumed) (size : Nat) :
    Ledger (m.contextResize size) registered consumed where
  balance := by
    intro id
    have hsum : (m.contextResize size).pending id = m.pending id :=
      IOManager.contextResize_sum m size (fun c => c.stored c.events id)
        fun fd => FdContext.stored_new fd id
    rw [hsum]
    exact h.balance id
  queued := h.queued
  stored := by
    intro p hp x hx
    by_cases hlt : p < m.allocated
    · rw [IOManager.contextResize_store m size hlt] at hx
      exact h.stored p hlt x hx
    · rw [IOManager.contextResize_new m size (by omega) hp] at hx
      simp [FdContext.registrations, FdContext.new, Events.empty] at hx
  source := h.source

end Ledger

namespace History

variable {s t : History φ κ}

/-! ## Numbers are used once -/

/-- The registrations that calls in hand may still make. -/
def issued (s : IOSys (φ × Nat) (κ × Nat)) : List (Registration φ κ) :=
  s.calls.filterMap (fun c => c.1.registration) ++ s.growing.filterMap Call.registration

theorem count_eraseIdx {α : Type*} {l : List α} {k : Nat} {x : α} (h : l[k]? = some x)
    (f : α → Option (Registration φ κ)) (id : Nat) :
    (((l.eraseIdx k).filterMap f).map Registration.id).count id +
        ((f x).toList.map Registration.id).count id =
      ((l.filterMap f).map Registration.id).count id := by
  obtain ⟨hk, rfl⟩ := List.getElem?_eq_some_iff.mp h
  have hperm := ((List.getElem_cons_eraseIdx_perm hk).filterMap f).map Registration.id
  rw [← hperm.count_eq, List.filterMap_cons]
  cases f l[k] with
  | none => simp
  | some y => simp [List.count_cons]

theorem number_registration (c : Call φ κ) (n : Nat) :
    (c.number n).registration.toList.map Registration.id =
      if (IOStep.call c).isAddEvent then [n] else [] := by
  cases c with
  | addEvent fd e cb self =>
      cases cb <;> simp [Call.number, Call.registration, Registration.id, Task.id,
        IOStep.isAddEvent]
  | delEvent fd e => rfl
  | cancelEvent fd e => rfl
  | cancelAll fd => rfl

/-- A lookup takes its call in hand, unless the call returns at once; `addEvent` does
not. -/
theorem issued_lookup (s : IOSys (φ × Nat) (κ × Nat)) (c : Call (φ × Nat) (κ × Nat)) (id : Nat) :
    ((issued (s.lookup c)).map Registration.id).count id =
      ((issued s).map Registration.id).count id +
        (c.registration.toList.map Registration.id).count id := by
  have hadd : (c.registration.toList.map Registration.id).count id =
      (([c].filterMap Call.registration).map Registration.id).count id := by
    cases hreg : c.registration <;> simp [hreg]
  have hnone : ∀ fd, s.mgr.find fd = none → c.fd = fd → c.registration = none →
      s.lookup c = s := by
    intro fd hfd hc hreg
    subst hc
    unfold IOSys.lookup
    rw [hfd]
    cases c with
    | addEvent fd e cb self => cases cb <;> cases hreg
    | delEvent fd e => rfl
    | cancelEvent fd e => rfl
    | cancelAll fd => rfl
  cases hfd : s.mgr.find c.fd with
  | some p =>
      have hl : s.lookup c = { s with calls := s.calls ++ [(c, p)] } := by
        unfold IOSys.lookup
        rw [hfd]
      rw [hl, hadd]
      cases hreg : c.registration with
      | none => simp [issued, hreg]
      | some x =>
          simp [issued, hreg, List.count_cons]
          omega
  | none =>
      cases hreg : c.registration with
      | none => simp [hnone _ hfd rfl hreg]
      | some x =>
          have hl : s.lookup c = { s with growing := s.growing ++ [c] } := by
            unfold IOSys.lookup
            rw [hfd]
            cases c with
            | addEvent fd e cb self => rfl
            | delEvent fd e => cases hreg
            | cancelEvent fd e => cases hreg
            | cancelAll fd => cases hreg
          rw [hl]
          simp [issued, List.count_append, hreg]
          omega

/-- A number is in hand or registered once, and only if it was given out. -/
structure Inv (s : History φ κ) : Prop where
  wf : s.sys.WellFormed
  fresh : ∀ id, ((issued s.sys).map Registration.id).count id +
    (s.registered.map Registration.id).count id ≤ if id < s.made then 1 else 0
  ledger : Ledger s.sys.mgr s.registered s.consumed

theorem start_inv : Inv (start : History φ κ) where
  wf := IOSys.start_wellFormed
  fresh := by simp [start, IOSys.start, issued]
  ledger :=
    Ledger.resize
      { balance := by simp [IOManager.pending, IOManager.blank, start]
        queued := by simp [IOManager.blank, start]
        stored := by simp [IOManager.blank]
        source := by simp [IOManager.blank] } 32

/-- The parts of a step. -/
theorem step_eq {a : IOStep φ κ} (hs : step s a = some t) :
    IOSys.step (.ok s.sys) (a.number s.made) = some (.ok t.sys) ∧
      t.made = (if a.isAddEvent then s.made + 1 else s.made) ∧
      t.registered = s.registered ++ registering s.sys (a.number s.made) ∧
      t.consumed = s.consumed ++ consuming s.sys t.sys (a.number s.made) := by
  unfold step at hs
  split at hs
  · rename_i t' hstep
    cases hs
    exact ⟨hstep, rfl, rfl, rfl⟩
  · cases hs

/-- No bit is cleared, so nothing is consumed. -/
theorem consuming_same {s t : IOSys (φ × Nat) (κ × Nat)} (hm : t.mgr = s.mgr)
    (a : IOStep (φ × Nat) (κ × Nat)) : consuming s t a = [] := by
  unfold consuming
  split
  · rfl
  · simp [hm, Events.diff, FdContext.registrations]

/-- The bits of `es` are cleared in the context that the section works on. -/
theorem consuming_drop {s t : IOSys (φ × Nat) (κ × Nat)} {a : IOStep (φ × Nat) (κ × Nat)}
    {p : Nat} {es : Events} (who : Consumer) (hsub : es.Subset (s.mgr.store p).events)
    (hwho : consumer s a = some (p, who))
    (ht : t.mgr.store p = (s.mgr.store p).drop es) :
    consuming s t a = ((s.mgr.store p).registrations es).map fun x => (x.id, who) := by
  simp only [consuming, hwho, ht, FdContext.drop, Events.diff_diff hsub]

/-- A step keeps the balance. -/
theorem step_ledger (h : Inv s) {a : IOStep (φ × Nat) (κ × Nat)} {u : IOSys (φ × Nat) (κ × Nat)}
    (hs : IOSys.step (.ok s.sys) a = some (.ok u)) :
    Ledger u.mgr (s.registered ++ registering s.sys a)
      (s.consumed ++ consuming s.sys u a) := by
  have hwf := h.wf
  -- nothing changes
  have hsame : u.mgr = s.sys.mgr → registering s.sys a = [] →
      Ledger u.mgr (s.registered ++ registering s.sys a)
        (s.consumed ++ consuming s.sys u a) := by
    intro hm hreg
    rw [consuming_same hm, hreg, List.append_nil, List.append_nil, hm]
    exact h.ledger
  -- events are cleared and scheduled
  have htriggered : ∀ {p es} (who), p < s.sys.mgr.allocated →
      es.Subset (s.sys.mgr.store p).events → (s.sys.mgr.store p).HasScheduler es →
      who ≠ .delEvent → consumer s.sys a = some (p, who) → registering s.sys a = [] →
      u.mgr = s.sys.mgr.triggered p es →
      Ledger u.mgr (s.registered ++ registering s.sys a)
        (s.consumed ++ consuming s.sys u a) := by
    intro p es who hlt hsub hsched hdel hwho hreg hm
    have hstore : u.mgr.store p = (s.sys.mgr.store p).drop es := by
      simp [hm, IOManager.triggered, IOManager.removed, IOManager.dropped, IOManager.setContext]
    rw [consuming_drop who hsub hwho hstore, hreg, List.append_nil, hm]
    exact h.ledger.triggered hlt hsub hsched hdel
  cases a with
  | call c =>
      simp only [IOSys.step, Option.some.injEq, Except.ok.injEq] at hs
      subst hs
      refine hsame ?_ rfl
      unfold IOSys.lookup
      split <;> rfl
  | resize k =>
      obtain ⟨_, _, _, _, ht⟩ := IOSys.step_resize hs
      cases ht
      simpa [registering, consuming, consumer] using h.ledger.resize _
  | epollWait fd es errHup =>
      obtain ⟨_, _, _, _, ht⟩ := IOSys.step_epollWait hs
      cases ht
      exact hsame rfl rfl
  | deliver k fails =>
      obtain ⟨r, b, m', hget, hdel, rfl⟩ := IOSys.step_deliver hs
      have hlt := hwf.ready r (List.mem_of_getElem? hget)
      rcases IOManager.deliver_ok hwf.mgr hlt hdel with ⟨_, hm⟩ | ⟨_, hsub, _, hsched, hm⟩
      · exact hsame hm rfl
      · exact htriggered .idle hlt hsub hsched (by decide)
          (by simp [consumer, hget]) rfl hm
  | locked k fails =>
      obtain ⟨c, p, b, m', hget, hperf, rfl⟩ := IOSys.step_locked hs
      obtain ⟨hlt, hfd⟩ := hwf.calls _ (List.mem_of_getElem? hget)
      have hreg : c.registration = none → registering s.sys (.locked k fails) = [] := by
        intro hnone
        simp only [registering, hget, hperf]
        cases b <;> simp [hnone]
      have hfalse : b = false → registering s.sys (.locked k fails) = [] := by
        intro hb
        simp only [registering, hget, hperf, hb]
      cases c with
      | addEvent fd e cb self =>
          rcases IOManager.addEvent_ok hwf.mgr hlt hfd hperf with
            ⟨hb, hm⟩ | ⟨hb, he, hset, _, hm⟩
          · exact hsame hm (hfalse hb)
          · have hcons : consuming s.sys
                { s.sys with mgr := m', calls := s.sys.calls.eraseIdx k }
                (.locked k fails) = [] := by
              simp [consuming, consumer, hget, Call.consumer]
            subst hb hm
            rw [hcons, List.append_nil]
            cases cb with
            | none =>
                simp only [registering, hget, hperf, Call.registration, Option.toList_some]
                exact h.ledger.added hlt he hset rfl
            | some x =>
                simp only [registering, hget, hperf, Call.registration, Option.toList_some]
                exact h.ledger.added hlt he hset rfl
      | delEvent fd e =>
          rcases IOManager.delEvent_ok hwf.mgr hlt hfd hperf with ⟨_, hm⟩ | ⟨_, hset, hm⟩
          · exact hsame hm (hreg rfl)
          · have hsub := Event.bits_subset hset
            have hcons := consuming_drop (s := s.sys)
              (t := { s.sys with mgr := m', calls := s.sys.calls.eraseIdx k })
              (a := .locked k fails) .delEvent hsub
              (by simp [consumer, hget, Call.consumer])
              (by simp [hm, IOManager.removed, IOManager.dropped, IOManager.setContext])
            rw [hcons, hreg rfl, List.append_nil, hm]
            exact h.ledger.removed hlt hsub
      | cancelEvent fd e =>
          rcases IOManager.cancelEvent_ok hwf.mgr hlt hfd hperf with
            ⟨_, hm⟩ | ⟨_, hset, hsched, hm⟩
          · exact hsame hm (hreg rfl)
          · exact htriggered .cancelEvent hlt (Event.bits_subset hset) hsched
              (by decide) (by simp [consumer, hget, Call.consumer]) (hreg rfl) hm
      | cancelAll fd =>
          rcases IOManager.cancelAll_ok hwf.mgr hlt hfd hperf with
            ⟨_, hm⟩ | ⟨_, _, hsched, hm⟩
          · exact hsame hm (hreg rfl)
          · exact htriggered .cancelAll hlt (Events.subset_refl _) hsched
              (by decide) (by simp [consumer, hget, Call.consumer]) (hreg rfl) hm

/-- A number is registered only if its call was in hand, and leaves it then. -/
theorem step_issued {s u : IOSys (φ × Nat) (κ × Nat)} {a : IOStep φ κ} {n : Nat}
    (hs : IOSys.step (.ok s) (a.number n) = some (.ok u)) (id : Nat) :
    ((issued u).map Registration.id).count id +
        ((registering s (a.number n)).map Registration.id).count id ≤
      ((issued s).map Registration.id).count id +
        if a.isAddEvent = true ∧ id = n then 1 else 0 := by
  cases a with
  | call c =>
      simp only [IOStep.number, IOSys.step, Option.some.injEq, Except.ok.injEq] at hs
      subst hs
      rw [issued_lookup, number_registration]
      have hnone : registering s ((IOStep.call c).number n) = ([] : List (Registration φ κ)) := rfl
      rw [hnone]
      by_cases hadd : (IOStep.call c).isAddEvent = true
      · by_cases hid : id = n
        · simp [hadd, hid]
        · simp [hadd, hid, Ne.symm hid]
      · simp [hadd]
  | resize k =>
      obtain ⟨c, p, hget, _, ht⟩ := IOSys.step_resize hs
      cases ht
      have hcount := count_eraseIdx hget Call.registration id
      simp only [issued, List.filterMap_append, List.map_append, List.count_append,
        registering, IOStep.number, List.map_nil, List.count_nil]
      cases hreg : c.registration with
      | none => simp [hreg] at hcount ⊢; omega
      | some x => simp [hreg] at hcount ⊢; omega
  | epollWait fd es errHup =>
      obtain ⟨_, _, _, _, ht⟩ := IOSys.step_epollWait hs
      cases ht
      simp [registering, IOStep.number, issued]
  | deliver k fails =>
      obtain ⟨_, _, _, _, _, rfl⟩ := IOSys.step_deliver hs
      simp [registering, IOStep.number, issued]
  | locked k fails =>
      obtain ⟨c, p, b, m', hget, hperf, rfl⟩ := IOSys.step_locked hs
      have hcount := count_eraseIdx hget (fun c => Call.registration c.1) id
      have hreg : ((registering s (.locked k fails)).map Registration.id).count id ≤
          (c.registration.toList.map Registration.id).count id := by
        simp only [registering, hget, hperf]
        cases b <;> simp
      simp only [issued, List.map_append, List.count_append, IOStep.number] at hreg ⊢
      simp only at hcount
      omega

/-- Every step keeps the invariant. -/
theorem step_inv {a : IOStep φ κ} (h : Inv s) (hs : step s a = some t) : Inv t := by
  obtain ⟨hstep, hmade, hreg, hcons⟩ := step_eq hs
  refine
    { wf := IOSys.step_wellFormed h.wf hstep
      fresh := ?_
      ledger := ?_ }
  · intro id
    have hissued := step_issued hstep id
    have hfresh := h.fresh id
    rw [hreg, hmade, List.map_append, List.count_append]
    cases hadd : a.isAddEvent with
    | true =>
        simp only [hadd, true_and, if_true] at hissued ⊢
        split at hissued
        · rename_i hid
          subst hid
          simp only [Nat.lt_irrefl, if_false] at hfresh
          simp only [Nat.lt_succ_self, if_true]
          omega
        · split at hfresh
          · rw [if_pos (by omega)]
            omega
          · omega
    | false =>
        simp only [hadd, Bool.false_eq_true, false_and, if_false] at hissued ⊢
        omega
  · rw [hreg, hcons]
    exact step_ledger h hstep

theorem reachable_inv (h : (system φ κ).Reachable anyStep s) : Inv s := by
  refine h.invariant Inv ?_ fun _ _ _ hi _ hs => step_inv hi hs
  rintro _ rfl
  exact start_inv

/-! ## Exactly once -/

theorem Inv.distinct (h : Inv s) : (s.registered.map Registration.id).Nodup := by
  rw [List.nodup_iff_count_le_one]
  intro id
  have hfresh := h.fresh id
  split at hfresh <;> omega

theorem eq_nil_of_count_eq_zero {α : Type*} {l : List α} {f : α → Nat} {id : Nat}
    (h : (l.map f).count id = 0) : l.filter (fun x => f x = id) = [] := by
  rw [List.filter_eq_nil_iff]
  intro x hx hid
  have hmem : id ∈ l.map f := List.mem_map.mpr ⟨x, hx, by simpa using hid⟩
  exact absurd h (Nat.ne_of_gt (List.count_pos_iff.mpr hmem))

theorem exists_of_count_eq_one {α : Type*} {l : List α} {f : α → Nat} {id : Nat}
    (h : (l.map f).count id = 1) : ∃ x ∈ l, f x = id ∧ l.filter (fun y => f y = id) = [x] := by
  have hlen : (l.filter fun y => f y = id).length = 1 := by
    rw [← h, List.count, List.countP_map, List.countP_eq_length_filter]
    congr 1
  obtain ⟨x, hx⟩ := List.length_eq_one_iff.mp hlen
  have hmem : x ∈ l.filter fun y => f y = id := by simp [hx]
  obtain ⟨hxl, hid⟩ := List.mem_filter.mp hmem
  exact ⟨x, hxl, by simpa using hid, hx⟩

/-- In a balanced history each registration is accounted for. -/
theorem Inv.accounted (h : Inv s) {x : Registration φ κ} (hx : x ∈ s.registered) :
    s.Accounted x := by
  have hone : (s.registered.map Registration.id).count x.id = 1 := by
    have hle := List.nodup_iff_count_le_one.mp h.distinct x.id
    have hpos : 0 < (s.registered.map Registration.id).count x.id :=
      List.count_pos_iff.mpr (List.mem_map_of_mem hx)
    omega
  have hbalance := h.ledger.balance x.id
  have hqueued := h.ledger.queued x.id
  rw [hone] at hbalance
  have hfilter : ((s.consumed.filter fun e => e.2 ≠ .delEvent).map Prod.fst).count x.id ≤
      (s.consumed.map Prod.fst).count x.id :=
    ((List.filter_sublist (l := s.consumed)).map Prod.fst).count_le x.id
  by_cases hpend : s.sys.mgr.pending x.id = 1
  · refine .pending hpend ?_ ?_
    · have hzero : (s.consumed.map Prod.fst).count x.id = 0 := by omega
      simp [consumers, eq_nil_of_count_eq_zero hzero]
    · exact eq_nil_of_count_eq_zero (f := fun q : Scheduled _ _ => q.task.id) (by omega)
  · have hpend0 : s.sys.mgr.pending x.id = 0 := by omega
    have hcons : (s.consumed.map Prod.fst).count x.id = 1 := by omega
    obtain ⟨⟨id, who⟩, hmem, hid, hfilt⟩ := exists_of_count_eq_one hcons
    simp only at hid
    subst hid
    have hconsumers : s.consumers x.id = [who] := by
      simp [consumers, hfilt]
    -- the entries of `x` that are not for `delEvent`
    have hsched : ((s.consumed.filter fun e => e.2 ≠ .delEvent).map Prod.fst).count x.id =
        if who = .delEvent then 0 else 1 := by
      have hcomm : ((s.consumed.filter fun e => e.2 ≠ .delEvent).filter
          fun e => e.1 = x.id) =
          (s.consumed.filter fun e => e.1 = x.id).filter fun e => e.2 ≠ .delEvent := by
        rw [List.filter_filter, List.filter_filter]
        congr 1
        funext e
        exact Bool.and_comm _ _
      have hlen : ((s.consumed.filter fun e => e.2 ≠ .delEvent).map Prod.fst).count x.id =
          ((s.consumed.filter fun e => e.2 ≠ .delEvent).filter fun e => e.1 = x.id).length := by
        rw [List.count, List.countP_map, List.countP_eq_length_filter]
        congr 1
      rw [hlen, hcomm, hfilt]
      by_cases hwho : who = .delEvent <;> simp [hwho]
    by_cases hwho : who = .delEvent
    · rw [if_pos hwho] at hsched
      refine .deleted hpend0 (hwho ▸ hconsumers) ?_
      exact eq_nil_of_count_eq_zero (f := fun q : Scheduled _ _ => q.task.id)
        (hqueued.trans hsched)
    · rw [if_neg hwho] at hsched
      obtain ⟨q, hq, hqid, hqfilt⟩ :=
        exists_of_count_eq_one (f := fun q : Scheduled _ _ => q.task.id) (hqueued.trans hsched)
      obtain ⟨y, hy, hysch, hytask⟩ := h.ledger.source q hq
      have hxy : y = x := by
        refine List.inj_on_of_nodup_map h.distinct hy hx ?_
        rw [Registration.id, hytask]
        exact hqid
      subst hxy
      refine .triggered who q.scheduler hpend0 hwho hconsumers hysch ?_
      rw [hytask]
      exact hqfilt

theorem Extends.refl (s : History φ κ) : Extends s s :=
  ⟨List.prefix_rfl, List.prefix_rfl, List.prefix_rfl⟩

theorem step_extends {a : IOStep φ κ} (h : Inv s) (hs : step s a = some t) : Extends s t := by
  obtain ⟨hstep, _, hreg, hcons⟩ := step_eq hs
  refine ⟨hreg ▸ List.prefix_append _ _, hcons ▸ List.prefix_append _ _, ?_⟩
  rcases IOSys.step_mgr h.wf hstep with he | ⟨k, c, _, _, hm⟩
  · exact he.queue_prefix
  · exact hm ▸ List.prefix_rfl

theorem reaches_extends (h : Inv s) (hr : (system φ κ).Reaches anyStep s t) : Extends s t := by
  have hboth : Inv t ∧ Extends s t := by
    refine hr.invariant (fun t => Inv t ∧ Extends s t) ?_ ⟨h, Extends.refl s⟩
    rintro u a v ⟨hu, hext⟩ _ hs
    have hnext := step_extends hu hs
    exact ⟨step_inv hu hs, hext.registered.trans hnext.registered,
      hext.consumed.trans hnext.consumed, hext.queue.trans hnext.queue⟩
  exact hboth.2

/-- **Registrations are consumed exactly once.**  In every reachable state each
registration that succeeded is pending, or was consumed by one section; after
`delEvent` it is not scheduled, and otherwise it was scheduled once with its own
callback or fibre.  Later states only add to this history. -/
theorem event_consumption (h : (system φ κ).Reachable anyStep s) :
    ExactlyOnce s ∧ ∀ t, (system φ κ).Reaches anyStep s t → ExactlyOnce t ∧ Extends s t := by
  have honce : ∀ u : History φ κ, Inv u → ExactlyOnce u := by
    intro u hu
    refine
      { distinct := hu.distinct
        accounted := fun x hx => hu.accounted hx
        only := ?_ }
    intro q hq
    obtain ⟨x, hx, _, htask⟩ := hu.ledger.source q hq
    exact ⟨x, hx, congrArg Task.id htask⟩
  have hinv := reachable_inv h
  exact ⟨honce s hinv,
    fun t ht => ⟨honce t (reachable_inv (h.reaches ht)), reaches_extends hinv ht⟩⟩

/-- Descriptor 5 is waited for by a callback and a fibre; the read event is cancelled
and registered again, and `delEvent` removes the write event. -/
def registerAgainRun : List (IOStep Nat Nat) :=
  [ .call (.addEvent 5 .read (some 1) ⟨some 0, 0, .exec⟩),
    .locked 0 false,
    .call (.addEvent 5 .write none ⟨some 0, 7, .exec⟩),
    .locked 0 false,
    .call (.cancelEvent 5 .read),
    .locked 0 false,
    .call (.addEvent 5 .read (some 1) ⟨some 0, 0, .exec⟩),
    .locked 0 false,
    .call (.delEvent 5 .write),
    .locked 0 false ]

theorem event_consumption_registerAgain :
    ((system Nat Nat).exec start registerAgainRun).map
        (fun s => (s.registered.map Registration.id, s.consumed)) =
      some ([0, 1, 2], [(0, .cancelEvent), (1, .delEvent)]) ∧
    ∀ s, (system Nat Nat).exec start registerAgainRun = some s → ExactlyOnce s :=
  ⟨rfl, fun _ hs => (event_consumption (System.exec_reachable rfl hs)).1⟩

end History

end Concurrency
end Hpgs
