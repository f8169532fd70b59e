import Hpgs.Concurrency.FibreProtocol
import Hpgs.Concurrency.SchedulerExclusion

/-!
# The scheduler on the contexts of its fibres

The model of `Scheduler::run` knows of a fibre only its state, and of a worker only where it is.
Here its steps are carried out on contexts: what `run` swaps in is swapped in, with an idle
fibre for each worker, a root fibre on the thread that made the manager, and whatever `stop`
and the ends of the fibres switch to.

**Results.**
* `Represents`: the fibres and threads of a state of the scheduler.
* `scheduler_simulated`: as long as no worker takes a fibre that another one has in hand, the
  steps of the scheduler are calls that keep every context intact.
-/

namespace Hpgs
namespace Concurrency

open Transition

/-! ## What is represented -/

/-- Whose code a worker runs: that of a main fibre in `stop`, that of `run`, that of a fibre
which may be on its way out, or that of the idle fibre. -/
inductive Place
  | home
  | loop
  | fibre (f : Nat) (leaving : Bool)
  | idle
  | gone
deriving DecidableEq

def Pc.place : Pc → Place
  | .caller | .test .early _ | .test .stop _ => .home
  | .scan | .dispatch _ | .entering .. | .swapped .. | .check .. | .requeue _ | .dropped
  | .empty => .loop
  | .running f _ => .fibre f false
  | .leaving f _ => .fibre f true
  | .test .idle _ | .blocking | .blocked | .woken | .expired _ | .delivering | .idleOut => .idle
  | .returned => .gone

/-- What the contexts depend on. -/
structure View (n : Nat) where
  place : Fin n → Place
  idleTerm : Fin n → Bool
  state : Nat → State
  made : Nat

/-- The fibres that stand for those of the scheduler, and the idle fibres of the workers. -/
structure Names (n : Nat) where
  fibre : Nat → Nat
  idle : Fin n → Option Nat

variable {n m : Nat}

def Sys.view (s : Sys n m) : View n where
  place w := (s.worker w).pc.place
  idleTerm w := (s.worker w).idleTerm
  state := s.state
  made := s.made

/-- The worker goes on somewhere else. -/
def View.move (v : View n) (w : Fin n) (p : Place) : View n :=
  { v with place := Function.update v.place w p }

def View.setState (v : View n) (f : Nat) (st : State) : View n :=
  { v with state := Function.update v.state f st }

/-- Whose code the thread of a worker runs. -/
def Names.At (names : Names n) (made : Nat) (w : Fin n) (x : ThreadLocals) : Place → Prop
  | .home => x.code = x.threadFibre
  | .loop => x.code = x.schedulerFibre
  | .fibre f _ => x.code = some (names.fibre f) ∧ f < made
  | .idle => x.code = names.idle w
  | .gone => x.code = x.schedulerFibre ∨ x.code = x.threadFibre

namespace FibreSys

/-- The fibre was not made for a caller. -/
def Plain (k : FibreSys) (f : Nat) : Prop :=
  (k.progress f).caller = false ∧ (k.fibre f).ctx ≠ .entry true

end FibreSys

/-- The fibres and threads are there, and every thread runs the code it should.  A thread that
has not joined the work yet has a root fibre to call. -/
structure Shape (v : View n) (k : FibreSys) (names : Names n) : Prop where
  code : ∀ w : Fin n, names.At v.made w (k.thread w) (v.place w)
  outside : ∀ t, n ≤ t → (k.thread t).code = none
  scheduler : ∀ w : Fin n, v.place w ≠ .gone → ∃ g, (k.thread w).schedulerFibre = some g ∧
    (v.place w = .home → (k.progress g).ended = false ∧ (k.thread w).code ≠ some g ∧
      (k.thread w).code ≠ none)
  made : ∀ f, f < v.made →
    names.fibre f < k.made ∧ k.Task (names.fibre f) ∧ k.Plain (names.fibre f)
  inj : ∀ f g, f < v.made → g < v.made → names.fibre f = names.fibre g → f = g
  idle : ∀ w, v.place w ≠ .home → v.place w ≠ .gone → ∃ i, names.idle w = some i
  idleMade : ∀ w i, names.idle w = some i → i < k.made ∧ k.Task i ∧ k.Plain i ∧
    ∀ f, f < v.made → names.fibre f ≠ i
  idleInj : ∀ w u i, names.idle w = some i → names.idle u = some i → w = u

/-- The state and the end of a fibre.  One that wrote its state and has not left yet is still
`EXEC` here: both happens in one call. -/
structure FibreState (v : View n) (k : FibreSys) (f x : Nat) : Prop where
  state : (∀ w, v.place w ≠ .fibre f true) → (k.fibre x).state = v.state f
  leaving : ∀ w, v.place w = .fibre f true → (k.fibre x).state = .exec ∧ v.state f ≠ .init
  running : ∀ w, v.place w = .fibre f false → v.state f = .exec
  ended : (k.progress x).ended = true → (v.state f).Ended

/-- The state and the end of the idle fibre of a worker. -/
structure IdleState (v : View n) (k : FibreSys) (w : Fin n) (i : Nat) : Prop where
  state : (k.fibre i).state = .exec ↔ v.place w = .idle
  ended : (k.progress i).ended = true → v.idleTerm w = true ∧ v.place w ≠ .idle

/-- The contexts of a state of the scheduler. -/
structure Represents (v : View n) (k : FibreSys) (names : Names n) : Prop where
  shape : Shape v k names
  fibres : ∀ f, f < v.made → FibreState v k f (names.fibre f)
  idles : ∀ w i, names.idle w = some i → IdleState v k w i

/-! ## Views -/

section Views

variable {v : View n} {w u : Fin n} {p : Place}

@[simp] theorem View.move_self : (v.move w p).place w = p := by
  simp [View.move]

theorem View.move_of_ne (h : u ≠ w) : (v.move w p).place u = v.place u := by
  simp [View.move, h]

theorem View.move_same (h : v.place w = p) : v.move w p = v := by
  rw [View.move, ← h, Function.update_eq_self]

theorem Sys.view_goto (s : Sys n m) (w : Fin n) (pc : Pc) :
    (s.goto w pc).view = s.view.move w pc.place := by
  simp only [Sys.view, Sys.goto, Sys.setWorker, View.move, View.mk.injEq, and_true]
  constructor
  · funext u
    by_cases hu : u = w
    · rw [hu, Function.update_self, Function.update_self]
    · rw [Function.update_of_ne hu, Function.update_of_ne hu]
  · funext u
    by_cases hu : u = w
    · rw [hu, Function.update_self]
    · rw [Function.update_of_ne hu]

end Views

/-! ## Fibres and threads -/

namespace Shape

open FibreSys

variable {v : View n} {k k' : FibreSys} {names : Names n} {w : Fin n}

/-- The code of a task runs on a worker that is at this fibre or is idle. -/
theorem runs_task (hs : Shape v k names) (hr : k.Roles) {x t : Nat} (hx : k.Task x)
    (ht : (k.thread t).code = some x) :
    ∃ w : Fin n, w.val = t ∧ ((∃ f b, v.place w = .fibre f b ∧ f < v.made ∧ x = names.fibre f) ∨
      v.place w = .idle ∧ names.idle w = some x) := by
  have hlt : t < n := by
    by_contra hge
    rw [hs.outside t (Nat.le_of_not_lt hge)] at ht
    cases ht
  have hnomain : (k.thread t).threadFibre ≠ some x := by
    intro hm
    have hstack := hx.1
    rw [(hr.main t x hm).1] at hstack
    cases hstack
  refine ⟨⟨t, hlt⟩, rfl, ?_⟩
  have hat := hs.code ⟨t, hlt⟩
  cases hp : v.place ⟨t, hlt⟩ with
  | home =>
      rw [hp] at hat
      exact absurd ((hat : _ = _).symm.trans ht) hnomain
  | loop =>
      rw [hp] at hat
      exact absurd ((hat : _ = _).symm.trans ht) (hx.2 t)
  | fibre f b =>
      rw [hp] at hat
      exact Or.inl ⟨f, b, rfl, hat.2, Option.some.inj (ht.symm.trans hat.1)⟩
  | idle =>
      rw [hp] at hat
      exact Or.inr ⟨rfl, (hat : _ = _).symm.trans ht⟩
  | gone =>
      rw [hp] at hat
      rcases hat with hat | hat
      · exact absurd (hat.symm.trans ht) (hx.2 t)
      · exact absurd (hat.symm.trans ht) hnomain

theorem fibre_rests (hs : Shape v k names) (hr : k.Roles) {f : Nat} (hf : f < v.made)
    (hno : ∀ u b, v.place u ≠ .fibre f b) : k.Resting (names.fibre f) := by
  intro t ht
  obtain ⟨w, _, ⟨g, b, hp, hg, hgf⟩ | ⟨_, hi⟩⟩ := hs.runs_task hr (hs.made f hf).2.1 ht
  · obtain rfl := hs.inj f g hf hg hgf
    exact hno w b hp
  · exact (hs.idleMade w _ hi).2.2.2 f hf rfl

theorem idle_rests (hs : Shape v k names) (hr : k.Roles) {i : Nat} (hi : names.idle w = some i)
    (hno : v.place w ≠ .idle) : k.Resting i := by
  obtain ⟨_, htask, _, hdiff⟩ := hs.idleMade w i hi
  intro t ht
  obtain ⟨u, _, ⟨g, b, _, hg, hgi⟩ | ⟨hp, hi'⟩⟩ := hs.runs_task hr htask ht
  · exact hdiff g hg hgi.symm
  · obtain rfl := hs.idleInj w u i hi hi'
    exact hno hp

/-- A fibre is on one worker. -/
theorem alone (hs : Shape v k names) (hi : k.Intact) {u : Fin n} {f : Nat} {b c : Bool}
    (hw : v.place w = .fibre f b) (hu : v.place u = .fibre f c) : u = w := by
  have hatw := hs.code w
  have hatu := hs.code u
  rw [hw] at hatw
  rw [hu] at hatu
  exact Fin.ext (hi.alone u w _ hatu.1 hatw.1)

theorem congr {v' : View n} (hs : Shape v k names) (hplace : v'.place = v.place)
    (hmade : v'.made = v.made) : Shape v' k names where
  code := by
    rw [hplace, hmade]
    exact hs.code
  outside := hs.outside
  scheduler := by
    rw [hplace]
    exact hs.scheduler
  made := by
    rw [hmade]
    exact hs.made
  inj := by
    rw [hmade]
    exact hs.inj
  idle := by
    rw [hplace]
    exact hs.idle
  idleMade := by
    rw [hmade]
    exact hs.idleMade
  idleInj := hs.idleInj

end Shape

namespace FibreSys

variable {k k' : FibreSys} {t c x source : Nat} {ends : Bool}

theorem Moved.plain (hm : Moved k t c source ends k') (hx : k.Plain x) : k'.Plain x := by
  obtain ⟨hcaller, hctx⟩ := hx
  constructor
  · by_cases hentry : x = source ∧ source ≠ c ∧ ∃ b, (k.fibre x).ctx = .entry b
    · obtain ⟨rfl, hne, b, hb⟩ := hentry
      rw [hm.caller b hne hb]
      cases b with
      | true => exact absurd hb hctx
      | false => rfl
    · rw [hm.callerKept x, hcaller]
      rintro rfl
      by_contra hno
      rw [not_or] at hno
      refine hentry ⟨rfl, hno.1, ?_⟩
      by_contra hnone
      exact hno.2 fun b hb => hnone ⟨b, hb⟩
  · by_cases hxc : x = c
    · obtain ⟨m, hplace⟩ := hm.ctxLeft
      rw [hxc, hplace]
      simp
    · rw [hm.ctx x hxc]
      exact hctx

theorem setState_task_plain (k : FibreSys) (f x : Nat) (st : State)
    (h : k.Task x ∧ k.Plain x) : (k.setState f st).Task x ∧ (k.setState f st).Plain x := by
  have hsame : ((k.setState f st).fibre x).hasStack = (k.fibre x).hasStack ∧
      ((k.setState f st).fibre x).ctx = (k.fibre x).ctx := by
    by_cases hx : x = f <;> simp [setState, setFibre, Function.update, hx]
  refine ⟨⟨?_, h.1.2⟩, h.2.1, ?_⟩
  · rw [hsame.1]
    exact h.1.1
  · rw [hsame.2]
    exact h.2.2

end FibreSys

namespace Shape

open FibreSys

variable {v : View n} {k k' : FibreSys} {names : Names n} {w : Fin n} {c source : Nat}
variable {ends : Bool} {p : Place}

/-- No thread goes on with other code. -/
theorem quiet (hs : Shape v k names) (hthread : k'.thread = k.thread) (hmade : k.made ≤ k'.made)
    (hkeep : ∀ x, x < k.made → k.Task x ∧ k.Plain x → k'.Task x ∧ k'.Plain x)
    (hended : ∀ t g, (k.thread t).schedulerFibre = some g →
      (k'.progress g).ended = (k.progress g).ended) :
    Shape v k' names where
  code := by
    rw [hthread]
    exact hs.code
  outside := by
    rw [hthread]
    exact hs.outside
  scheduler := fun u hu => by
    rw [hthread]
    obtain ⟨g, hg, hhome⟩ := hs.scheduler u hu
    exact ⟨g, hg, by rw [hended u g hg]; exact hhome⟩
  made := fun f hf => by
    obtain ⟨hlt, htask, hplain⟩ := hs.made f hf
    exact ⟨Nat.lt_of_lt_of_le hlt hmade, hkeep _ hlt ⟨htask, hplain⟩⟩
  inj := hs.inj
  idle := hs.idle
  idleMade := fun u i hi => by
    obtain ⟨hlt, htask, hplain, hdiff⟩ := hs.idleMade u i hi
    obtain ⟨htask', hplain'⟩ := hkeep i hlt ⟨htask, hplain⟩
    exact ⟨Nat.lt_of_lt_of_le hlt hmade, htask', hplain', hdiff⟩
  idleInj := hs.idleInj

/-- A worker's thread goes on with other code. -/
theorem switch (hs : Shape v k names) (hr : k.Roles) (hc : (k.thread w).code = some c)
    (hm : Moved k w c source ends k') (hp : p ≠ .home)
    (hat : names.At v.made w (k'.thread w) p)
    (hsched : p ≠ .gone → ∃ g, (k.thread w).schedulerFibre = some g)
    (hidle : p ≠ .gone → ∃ i, names.idle w = some i) :
    Shape (v.move w p) k' names where
  code := fun u => by
    by_cases hu : u = w
    · rw [hu, View.move_self]
      exact hat
    · rw [View.move_of_ne hu, hm.others u fun heq => hu (Fin.ext heq)]
      exact hs.code u
  outside := fun t ht => by
    rw [hm.others t (Nat.ne_of_gt (Nat.lt_of_lt_of_le w.isLt ht))]
    exact hs.outside t ht
  scheduler := fun u hu => by
    by_cases huw : u = w
    · rw [huw, View.move_self] at hu ⊢
      obtain ⟨g, hg⟩ := hsched hu
      exact ⟨g, by rw [hm.thread, ← hg], fun hhome => absurd hhome hp⟩
    · rw [View.move_of_ne huw] at hu ⊢
      rw [hm.others u fun heq => huw (Fin.ext heq)]
      obtain ⟨g, hg, hhome⟩ := hs.scheduler u hu
      refine ⟨g, hg, fun hplace => ?_⟩
      obtain ⟨halive, hrest⟩ := hhome hplace
      refine ⟨?_, hrest⟩
      rw [← Bool.not_eq_true, hm.ended, halive]
      rintro (hend | ⟨_, rfl⟩)
      · cases hend
      · exact huw (Fin.ext (hr.only hg hc).symm)
  made := fun f hf => by
    obtain ⟨hlt, htask, hplain⟩ := hs.made f hf
    exact ⟨hm.made ▸ hlt, (hm.task _).mpr htask, hm.plain hplain⟩
  inj := hs.inj
  idle := fun u hhome hgone => by
    by_cases huw : u = w
    · rw [huw, View.move_self] at hgone
      rw [huw]
      exact hidle hgone
    · rw [View.move_of_ne huw] at hhome hgone
      exact hs.idle u hhome hgone
  idleMade := fun u i hi => by
    obtain ⟨hlt, htask, hplain, hdiff⟩ := hs.idleMade u i hi
    exact ⟨hm.made ▸ hlt, (hm.task _).mpr htask, hm.plain hplain, hdiff⟩
  idleInj := hs.idleInj

end Shape

/-! ## What the steps do to the contexts -/

section Frame

variable {v v' : View n} {k k' : FibreSys} {f x i : Nat} {w : Fin n}

/-- A fibre that is not touched. -/
theorem FibreState.same (h : FibreState v k f x)
    (hplace : ∀ u b, v'.place u = .fibre f b ↔ v.place u = .fibre f b)
    (hv : v'.state f = v.state f) (hk : (k'.fibre x).state = (k.fibre x).state)
    (hend : (k'.progress x).ended = true → (k.progress x).ended = true) :
    FibreState v' k' f x where
  state := fun hno => by
    rw [hk, hv]
    exact h.state fun u hu => hno u ((hplace u true).mpr hu)
  leaving := fun u hu => by
    rw [hk, hv]
    exact h.leaving u ((hplace u true).mp hu)
  running := fun u hu => by
    rw [hv]
    exact h.running u ((hplace u false).mp hu)
  ended := fun he => by
    rw [hv]
    exact h.ended (hend he)

theorem IdleState.same (h : IdleState v k w i)
    (hplace : v'.place w = .idle ↔ v.place w = .idle)
    (hterm : v.idleTerm w = true → v'.idleTerm w = true)
    (hk : (k'.fibre i).state = .exec ↔ (k.fibre i).state = .exec)
    (hend : (k'.progress i).ended = true → (k.progress i).ended = true) :
    IdleState v' k' w i where
  state := by rw [hk, h.state, hplace]
  ended := fun he => by
    obtain ⟨ht, hno⟩ := h.ended (hend he)
    exact ⟨hterm ht, fun hidle => hno (hplace.mp hidle)⟩

/-- A move that neither comes from the fibre nor goes to it. -/
theorem View.move_fibre_iff {p : Place} (hfrom : ∀ b, v.place w ≠ .fibre f b)
    (hto : ∀ b, p ≠ .fibre f b) (u : Fin n) (b : Bool) :
    (v.move w p).place u = .fibre f b ↔ v.place u = .fibre f b := by
  by_cases hu : u = w
  · rw [hu, View.move_self]
    exact iff_of_false (hto b) (hfrom b)
  · rw [View.move_of_ne hu]

theorem View.move_idle_iff {p : Place} {u : Fin n} (h : u = w → (p = .idle ↔ v.place w = .idle)) :
    (v.move w p).place u = .idle ↔ v.place u = .idle := by
  by_cases hu : u = w
  · rw [hu, View.move_self]
    exact h hu
  · rw [View.move_of_ne hu]

end Frame

/-- Calls of the protocol lead to a state that represents the view. -/
def Carries (k : FibreSys) (v : View n) : Prop :=
  ∃ k' names, FibreSys.machine.Reaches FibreSys.Protocol k k' ∧ Represents v k' names

namespace Represents

open FibreSys

variable {v : View n} {k k' : FibreSys} {names : Names n} {w : Fin n} {f : Nat}

theorem carries (h : Represents v k names) : Carries k v :=
  ⟨k, names, .refl, h⟩

theorem fibre_ne (h : Represents v k names) {g : Nat} (hf : f < v.made) (hg : g < v.made)
    (hne : g ≠ f) : names.fibre g ≠ names.fibre f :=
  fun heq => hne (h.shape.inj g f hg hf heq)

theorem idle_ne (h : Represents v k names) {i : Nat} (hf : f < v.made)
    (hi : names.idle w = some i) : i ≠ names.fibre f :=
  fun heq => (h.shape.idleMade w i hi).2.2.2 f hf heq.symm

/-- A worker swaps a fibre in that no worker has. -/
theorem swapIn (h : Represents v k names) (hk : machine.Reachable Protocol k)
    (hw : v.place w = .loop) (hf : f < v.made) (hno : ∀ u b, v.place u ≠ .fibre f b)
    (hne : v.state f ≠ .exec) (halive : ¬ (v.state f).Ended) :
    Carries k ((v.setState f .exec).move w (.fibre f false)) := by
  obtain ⟨hi, _, hr⟩ := protocol_invariant hk
  obtain ⟨hlt, htask, hplain⟩ := h.shape.made f hf
  have hat := h.shape.code w
  rw [hw] at hat
  obtain ⟨g, hg, _⟩ := h.shape.scheduler w (by rw [hw]; simp)
  have hend : (k.progress (names.fibre f)).ended = false := by
    rw [← Bool.not_eq_true]
    exact fun hend => halive ((h.fibres f hf).ended hend)
  have hp : k.Protocol (.swapIn w (names.fibre f)) :=
    ⟨hat, htask, h.shape.fibre_rests hr hf hno, hend⟩
  have hstate : (k.fibre (names.fibre f)).state ≠ .exec := by
    rw [(h.fibres f hf).state fun u => hno u true]
    exact hne
  obtain ⟨k', hk', hm, hst⟩ := swapIn_possible hi hlt hg hp hstate
  have hended : ∀ y, (k'.progress y).ended = true → (k.progress y).ended = true := by
    intro y hy
    rcases (hm.ended y).mp hy with hy | ⟨hfalse, _⟩
    · exact hy
    · cases hfalse
  refine ⟨k', names, .step .refl hp hk', ?_, ?_, ?_⟩
  · refine (h.shape.switch hr ((hat : _ = _).trans hg) hm (by simp) ?_ (fun _ => ⟨g, hg⟩)
      (fun _ => h.shape.idle w (by rw [hw]; simp) (by rw [hw]; simp))).congr rfl rfl
    rw [hm.thread]
    exact ⟨rfl, hf⟩
  · intro y hy
    by_cases hyf : y = f
    · subst hyf
      exact {
        state := fun _ => by rw [hst]; simp [View.move, View.setState]
        leaving := fun u hu => by
          by_cases huw : u = w
          · rw [huw, View.move_self] at hu
            cases hu
          · rw [View.move_of_ne huw] at hu
            exact absurd hu (hno u true)
        running := fun u hu => by simp [View.move, View.setState]
        ended := fun he => by
          rw [hended _ he] at hend
          cases hend }
    · refine (h.fibres y hy).same (View.move_fibre_iff (fun b => ?_) fun b heq => ?_) ?_ ?_
        (hended _)
      · rw [show (v.setState f .exec).place w = v.place w from rfl, hw]
        simp
      · exact hyf (Place.fibre.inj heq).1.symm
      · simp [View.move, View.setState, hyf]
      · rw [hst, if_neg (h.fibre_ne hf hy hyf)]
  · intro u i hu
    refine (h.idles u i hu).same (View.move_idle_iff fun _ => ?_) id ?_ (hended _)
    · rw [show (v.setState f .exec).place w = v.place w from rfl, hw]
      simp
    · rw [hst, if_neg (h.idle_ne hf hu)]

/-- A fibre leaves its worker with the state that it wrote. -/
theorem leave (h : Represents v k names) (hk : machine.Reachable Protocol k)
    (hw : v.place w = .fibre f true) : Carries k (v.move w .loop) := by
  obtain ⟨hi, hkn, hr⟩ := protocol_invariant hk
  have hat := h.shape.code w
  rw [hw] at hat
  obtain ⟨hc, hf⟩ := hat
  obtain ⟨hlt, htask, hplain⟩ := h.shape.made f hf
  obtain ⟨g, hg, _⟩ := h.shape.scheduler w (by rw [hw]; simp)
  obtain ⟨hexec, hinit⟩ := (h.fibres f hf).leaving w hw
  obtain ⟨hp, k', hk', hm, hst⟩ := leave_possible hi hkn hr _ hinit hc htask hg hexec hplain.1
  refine ⟨k', names, .step .refl hp hk', ?_, ?_, ?_⟩
  · refine h.shape.switch hr hc hm (by simp) ?_ (fun _ => ⟨g, hg⟩)
      (fun _ => h.shape.idle w (by rw [hw]; simp) (by rw [hw]; simp))
    rw [hm.thread]
    exact hg.symm
  · intro y hy
    by_cases hyf : y = f
    · subst hyf
      have hgone : ∀ u b, (v.move w .loop).place u ≠ .fibre y b := by
        intro u b hu
        by_cases huw : u = w
        · rw [huw, View.move_self] at hu
          cases hu
        · rw [View.move_of_ne huw] at hu
          exact huw (h.shape.alone hi hw hu)
      exact {
        state := fun _ => by rw [hst, if_pos rfl]; rfl
        leaving := fun u hu => absurd hu (hgone u true)
        running := fun u hu => absurd hu (hgone u false)
        ended := fun he => by
          rcases (hm.ended _).mp he with he | ⟨he, _⟩
          · exact (h.fibres y hy).ended he
          · exact of_decide_eq_true he }
    · refine (h.fibres y hy).same (View.move_fibre_iff (fun b heq => ?_) fun b heq => ?_) rfl ?_ ?_
      · rw [hw] at heq
        exact hyf (Place.fibre.inj heq).1.symm
      · cases heq
      · rw [hst, if_neg (h.fibre_ne hf hy hyf)]
      · intro he
        rcases (hm.ended _).mp he with he | ⟨_, heq⟩
        · exact he
        · exact absurd heq (h.fibre_ne hf hy hyf)
  · intro u i hu
    refine (h.idles u i hu).same (View.move_idle_iff fun _ => ?_) id ?_ ?_
    · rw [hw]
      simp
    · rw [hst, if_neg (h.idle_ne hf hu)]
    · intro he
      rcases (hm.ended _).mp he with he | ⟨_, heq⟩
      · exact he
      · exact absurd heq (h.idle_ne hf hu)

/-- A worker without a task swaps its idle fibre in. -/
theorem enterIdle (h : Represents v k names) (hk : machine.Reachable Protocol k)
    (hw : v.place w = .loop) (hterm : v.idleTerm w = false) : Carries k (v.move w .idle) := by
  obtain ⟨hi, _, hr⟩ := protocol_invariant hk
  have hat := h.shape.code w
  rw [hw] at hat
  obtain ⟨g, hg, _⟩ := h.shape.scheduler w (by rw [hw]; simp)
  obtain ⟨i, hidle⟩ := h.shape.idle w (by rw [hw]; simp) (by rw [hw]; simp)
  obtain ⟨hlt, htask, _, hdiff⟩ := h.shape.idleMade w i hidle
  have hold := h.idles w i hidle
  have hend : (k.progress i).ended = false := by
    rw [← Bool.not_eq_true]
    intro hend
    rw [(hold.ended hend).1] at hterm
    cases hterm
  have hp : k.Protocol (.swapIn w i) :=
    ⟨hat, htask, h.shape.idle_rests hr hidle (by rw [hw]; simp), hend⟩
  obtain ⟨k', hk', hm, hst⟩ := swapIn_possible hi hlt hg hp (by rw [Ne, hold.state, hw]; simp)
  have hended : ∀ y, (k'.progress y).ended = true → (k.progress y).ended = true := by
    intro y hy
    rcases (hm.ended y).mp hy with hy | ⟨hfalse, _⟩
    · exact hy
    · cases hfalse
  refine ⟨k', names, .step .refl hp hk', ?_, ?_, ?_⟩
  · refine h.shape.switch hr ((hat : _ = _).trans hg) hm (by simp) ?_ (fun _ => ⟨g, hg⟩)
      (fun _ => ⟨i, hidle⟩)
    rw [hm.thread]
    exact hidle.symm
  · intro y hy
    refine (h.fibres y hy).same (View.move_fibre_iff (fun b => ?_) fun b => ?_) rfl ?_ (hended _)
    · rw [hw]
      simp
    · simp
    · rw [hst, if_neg (hdiff y hy)]
  · intro u j hu
    by_cases huw : u = w
    · subst huw
      obtain rfl := Option.some.inj (hidle.symm.trans hu)
      refine ⟨?_, fun he => ?_⟩
      · rw [hst, if_pos rfl, View.move_self]
        simp
      · rw [hended _ he] at hend
        cases hend
    · refine (h.idles u j hu).same (View.move_idle_iff fun heq => absurd heq huw) id ?_ (hended _)
      have hji : j ≠ i := fun heq => huw (h.shape.idleInj u w i (heq ▸ hu) hidle)
      rw [hst, if_neg hji]

/-- The idle fibre leaves its worker: for good, or until the worker is idle again. -/
theorem leaveIdle (h : Represents v k names) (hk : machine.Reachable Protocol k)
    (hw : v.place w = .idle) : Carries k (v.move w .loop) := by
  obtain ⟨hi, hkn, hr⟩ := protocol_invariant hk
  have hat := h.shape.code w
  rw [hw] at hat
  obtain ⟨g, hg, _⟩ := h.shape.scheduler w (by rw [hw]; simp)
  obtain ⟨i, hidle⟩ := h.shape.idle w (by rw [hw]; simp) (by rw [hw]; simp)
  have hc : (k.thread w).code = some i := (hat : _ = _).trans hidle
  obtain ⟨hlt, htask, hplain, hdiff⟩ := h.shape.idleMade w i hidle
  have hexec := (h.idles w i hidle).state.mpr hw
  -- what is left to show once the fibre is gone and its state is not `EXEC`
  have hdone : ∀ (ends : Bool) (k₁ k' : FibreSys), Moved k w i g ends k₁ →
      Shape (v.move w .loop) k' names →
      (∀ y, y ≠ i → (k'.fibre y).state = (k.fibre y).state) → (k'.fibre i).state ≠ .exec →
      (∀ y, (k'.progress y).ended = (k₁.progress y).ended) →
      (ends = true → v.idleTerm w = true) → Represents (v.move w .loop) k' names := by
    intro ends k₁ k' hm hshape hst hne hend hterm
    have hended : ∀ y, y ≠ i → (k'.progress y).ended = true → (k.progress y).ended = true := by
      intro y hyi hy
      rw [hend] at hy
      rcases (hm.ended y).mp hy with hy | ⟨_, heq⟩
      · exact hy
      · exact absurd heq hyi
    refine ⟨hshape, fun y hy => ?_, fun u j hu => ?_⟩
    · refine (h.fibres y hy).same (View.move_fibre_iff (fun b => ?_) fun b => ?_) rfl
        (hst _ (hdiff y hy)) (hended _ (hdiff y hy))
      · rw [hw]
        simp
      · simp
    · by_cases huw : u = w
      · subst huw
        obtain rfl := Option.some.inj (hidle.symm.trans hu)
        refine ⟨iff_of_false hne (by rw [View.move_self]; simp), fun he => ?_⟩
        rw [hend] at he
        rw [View.move_self]
        rcases (hm.ended i).mp he with he | ⟨he, _⟩
        · exact absurd hw ((h.idles u i hidle).ended he).2
        · exact ⟨hterm he, by simp⟩
      · have hji : j ≠ i := fun heq => huw (h.shape.idleInj u w i (heq ▸ hu) hidle)
        refine (h.idles u j hu).same (View.move_idle_iff fun heq => absurd heq huw) id ?_
          (hended _ hji)
        rw [hst _ hji]
  have hshape : ∀ {ends k₁}, Moved k w i g ends k₁ → Shape (v.move w .loop) k₁ names := by
    intro ends k₁ hm
    refine h.shape.switch hr hc hm (by simp) ?_ (fun _ => ⟨g, hg⟩) (fun _ => ⟨i, hidle⟩)
    rw [hm.thread]
    exact hg.symm
  cases hterm : v.idleTerm w with
  | true =>
      obtain ⟨hp, k', hk', hm, hst⟩ := leave_possible hi hkn hr .term (by simp) hc htask hg
        hexec hplain.1
      refine ⟨k', names, .step .refl hp hk', hdone _ k' k' hm (hshape hm) ?_ ?_ (fun _ => rfl)
        fun _ => hterm⟩
      · exact fun y hy => by rw [hst, if_neg hy]
      · rw [hst, if_pos rfl]
        simp
  | false =>
      obtain ⟨hp, k₁, hk₁, hm, hst⟩ := leave_possible hi hkn hr .exec (by simp) hc htask hg
        hexec hplain.1
      -- `run` sets the state of the idle fibre
      have hhold : k₁.step (.setHold i) = some (k₁.setState i .hold) := by
        rw [step, if_pos (hm.made ▸ hlt)]
      have hstate : ∀ y, ((k₁.setState i .hold).fibre y).state =
          if y = i then .hold else (k₁.fibre y).state := fun y => by
        by_cases hy : y = i <;> simp [setState, setFibre, Function.update, hy]
      refine ⟨_, names, .step (a := .setHold i) (.step .refl hp hk₁) trivial hhold, hdone _ k₁ _ hm ?_ ?_ ?_
        (fun _ => rfl) ?_⟩
      · exact (hshape hm).quiet rfl (Nat.le_refl _)
          (fun x _ => setState_task_plain k₁ i x .hold) fun _ _ _ => rfl
      · exact fun y hy => by rw [hstate, if_neg hy, hst, if_neg hy]
      · rw [hstate, if_pos rfl]
        simp
      · exact fun he => absurd (of_decide_eq_true he) (by simp)

/-- `run` sets the state of a fibre that no worker has: after `swapIn`, or where its callback
is set anew. -/
theorem setHold (h : Represents v k names) (hno : ∀ u b, v.place u ≠ .fibre f b)
    (halive : ¬ (v.state f).Ended) (hf : f < v.made) : Carries k (v.setState f .hold) := by
  have hlt := (h.shape.made f hf).1
  have hstate : ∀ y, ((k.setState (names.fibre f) .hold).fibre y).state =
      if y = names.fibre f then .hold else (k.fibre y).state := fun y => by
    by_cases hy : y = names.fibre f <;> simp [FibreSys.setState, setFibre, Function.update, hy]
  refine ⟨k.setState (names.fibre f) .hold, names,
    .step (a := .setHold (names.fibre f)) .refl trivial ?_, ?_, ?_, ?_⟩
  · show k.step (.setHold (names.fibre f)) = _
    rw [step, if_pos hlt]
  · have hs : Shape v (k.setState (names.fibre f) .hold) names := h.shape.quiet rfl (Nat.le_refl _)
      (fun x _ => setState_task_plain k (names.fibre f) x .hold) fun _ _ _ => rfl
    exact hs.congr rfl rfl
  · intro y hy
    by_cases hyf : y = f
    · subst hyf
      exact {
        state := fun _ => by rw [hstate, if_pos rfl]; simp [View.setState]
        leaving := fun u hu => absurd hu (hno u true)
        running := fun u hu => absurd hu (hno u false)
        ended := fun he => absurd ((h.fibres y hy).ended he) halive }
    · refine (h.fibres y hy).same (fun _ _ => Iff.rfl) ?_ ?_ id
      · simp [View.setState, hyf]
      · rw [hstate, if_neg (h.fibre_ne hf hy hyf)]
  · intro u i hu
    refine (h.idles u i hu).same Iff.rfl id ?_ id
    rw [hstate, if_neg (h.idle_ne hf hu)]

theorem reset (h : Represents v k names) (hk : machine.Reachable Protocol k)
    (hno : ∀ u b, v.place u ≠ .fibre f b) (hf : f < v.made)
    (hst : v.state f = .term ∨ v.state f = .except ∨ v.state f = .init) :
    Carries k (v.setState f .init) := by
  obtain ⟨_, _, hr⟩ := protocol_invariant hk
  obtain ⟨hlt, htask, hplain⟩ := h.shape.made f hf
  have hstate := (h.fibres f hf).state fun u => hno u true
  obtain ⟨k', hk'⟩ : ∃ k', k.reset (names.fibre f) = some k' :=
    ⟨_, reset_eq_some_iff.mpr ⟨⟨htask.1, by rw [hstate]; exact hst⟩, rfl⟩⟩
  have hp : k.Protocol (.reset (names.fibre f)) := ⟨htask, h.shape.fibre_rests hr hf hno⟩
  have hother : ∀ y, y ≠ names.fibre f → k'.fibre y = k.fibre y ∧ k'.progress y = k.progress y := by
    obtain ⟨-, rfl⟩ := reset_eq_some_iff.mp hk'
    intro y hy
    simp [setProgress, setFibre, hy]
  have hself : (k'.fibre (names.fibre f)).state = .init ∧
      (k'.fibre (names.fibre f)).hasStack = true ∧
      (k'.fibre (names.fibre f)).ctx = .entry false ∧
      (k'.progress (names.fibre f)).caller = (k.progress (names.fibre f)).caller ∧
      (k'.progress (names.fibre f)).ended = false := by
    obtain ⟨-, rfl⟩ := reset_eq_some_iff.mp hk'
    simp [setProgress, setFibre, htask.1]
  have hthread : k'.thread = k.thread ∧ k'.made = k.made := by
    obtain ⟨-, rfl⟩ := reset_eq_some_iff.mp hk'
    exact ⟨rfl, rfl⟩
  refine ⟨k', names, .step .refl hp ?_, ?_, ?_, ?_⟩
  · show k.step (.reset (names.fibre f)) = _
    rw [step, if_pos hlt, hk']
  · refine (h.shape.quiet hthread.1 (Nat.le_of_eq hthread.2.symm) ?_ fun t g hg => ?_).congr rfl rfl
    · rintro x _ ⟨hx, hpx⟩
      have hsched : ∀ t, (k'.thread t).schedulerFibre ≠ some x := by
        rw [hthread.1]
        exact hx.2
      by_cases hxf : x = names.fibre f
      · subst hxf
        refine ⟨⟨hself.2.1, hsched⟩, ?_, ?_⟩
        · rw [hself.2.2.2.1]
          exact hpx.1
        · rw [hself.2.2.1]
          simp
      · rw [FibreSys.Task, Plain, (hother x hxf).1, (hother x hxf).2]
        exact ⟨⟨hx.1, hsched⟩, hpx⟩
    · have hgf : g ≠ names.fibre f := fun heq => htask.2 t (heq ▸ hg)
      rw [(hother g hgf).2]
  · intro y hy
    by_cases hyf : y = f
    · subst hyf
      exact {
        state := fun _ => by rw [hself.1]; simp [View.setState]
        leaving := fun u hu => absurd hu (hno u true)
        running := fun u hu => absurd hu (hno u false)
        ended := fun he => by
          rw [hself.2.2.2.2] at he
          cases he }
    · obtain ⟨hfib, hprog⟩ := hother _ (h.fibre_ne hf hy hyf)
      refine (h.fibres y hy).same (fun _ _ => Iff.rfl) ?_ (by rw [hfib]) (by rw [hprog]; exact id)
      simp [View.setState, hyf]
  · intro u i hu
    obtain ⟨hfib, hprog⟩ := hother _ (h.idle_ne hf hu)
    exact (h.idles u i hu).same Iff.rfl id (by rw [hfib]) (by rw [hprog]; exact id)

/-- A fibre that somebody makes. -/
theorem newFibre (h : Represents v k names) (hk : machine.Reachable Protocol k) :
    Carries k ({ v with made := v.made + 1 }.setState v.made .init) := by
  obtain ⟨_, hkn, _⟩ := protocol_invariant hk
  have hnames : ∀ f, f < v.made →
      Function.update names.fibre v.made k.made f = names.fibre f := fun f hf =>
    Function.update_of_ne (Nat.ne_of_lt hf) _ _
  have hfibre : ∀ x, x < k.made → (k.newFibre false).fibre x = k.fibre x := fun x hx => by
    simp [FibreSys.newFibre, setProgress, setFibre, Nat.ne_of_lt hx]
  have hprogress : ∀ x, x < k.made → (k.newFibre false).progress x = k.progress x := fun x hx => by
    simp [FibreSys.newFibre, setProgress, setFibre, Nat.ne_of_lt hx]
  have hself : (k.newFibre false).fibre k.made =
      { state := .init, hasStack := true, ctx := .entry false } ∧
      (k.newFibre false).progress k.made =
        { left := 0, entered := false, caller := false, ended := false } := by
    simp [FibreSys.newFibre, setProgress, setFibre]
  have hs : Shape v (k.newFibre false) names := by
    refine h.shape.quiet rfl (Nat.le_succ _) (fun x hx hboth => ?_) fun t g hg => ?_
    · rw [FibreSys.Task, Plain, hfibre x hx, hprogress x hx]
      exact hboth
    · rw [hprogress g (hkn.schedulerFibre t g hg)]
  have hnew : (k.newFibre false).Task k.made ∧ (k.newFibre false).Plain k.made := by
    rw [FibreSys.Task, Plain, hself.1, hself.2]
    exact ⟨⟨rfl, fun t ht => Nat.lt_irrefl _ (hkn.schedulerFibre t _ ht)⟩, rfl, by simp⟩
  refine ⟨k.newFibre false, { names with fibre := Function.update names.fibre v.made k.made },
    .step (a := .newFibre false) .refl trivial rfl, ⟨?_, hs.outside, hs.scheduler, ?_, ?_, hs.idle,
      ?_, hs.idleInj⟩, ?_, ?_⟩
  · intro w
    have hat := hs.code w
    show Names.At _ _ w _ (v.place w)
    cases hp : v.place w with
    | fibre f b =>
        rw [hp] at hat
        exact ⟨hat.1.trans (congrArg some (hnames f hat.2).symm), Nat.lt_succ_of_lt hat.2⟩
    | home | loop | idle | gone =>
        rw [hp] at hat
        exact hat
  · intro f hf
    rcases Nat.lt_succ_iff_lt_or_eq.mp hf with hf | rfl
    · simp only [hnames f hf]
      exact hs.made f hf
    · simp only [Function.update_self]
      exact ⟨Nat.lt_succ_self _, hnew⟩
  · intro f g hf hg heq
    rcases Nat.lt_succ_iff_lt_or_eq.mp hf with hf | rfl
    · rcases Nat.lt_succ_iff_lt_or_eq.mp hg with hg | rfl
      · simp only [hnames f hf, hnames g hg] at heq
        exact hs.inj f g hf hg heq
      · simp only [hnames f hf, Function.update_self] at heq
        exact absurd (h.shape.made f hf).1 (by rw [heq]; exact Nat.lt_irrefl _)
    · rcases Nat.lt_succ_iff_lt_or_eq.mp hg with hg | rfl
      · simp only [hnames g hg, Function.update_self] at heq
        exact absurd (h.shape.made g hg).1 (by rw [← heq]; exact Nat.lt_irrefl _)
      · rfl
  · intro w i hi
    obtain ⟨hlt, htask, hplain, hdiff⟩ := hs.idleMade w i hi
    refine ⟨hlt, htask, hplain, fun f hf => ?_⟩
    rcases Nat.lt_succ_iff_lt_or_eq.mp hf with hf | rfl
    · simp only [hnames f hf]
      exact hdiff f hf
    · simp only [Function.update_self]
      exact Nat.ne_of_gt (h.shape.idleMade w i hi).1
  · intro y hy
    rcases Nat.lt_succ_iff_lt_or_eq.mp hy with hy | rfl
    · simp only [hnames y hy]
      obtain ⟨hlt, _⟩ := h.shape.made y hy
      refine (h.fibres y hy).same (fun _ _ => Iff.rfl) ?_ ?_ ?_
      · simp [View.setState, Nat.ne_of_lt hy]
      · rw [hfibre _ hlt]
      · rw [hprogress _ hlt]
        exact id
    · have hno : ∀ u b, v.place u ≠ .fibre v.made b := by
        intro u b hu
        have hat := h.shape.code u
        rw [hu] at hat
        exact Nat.lt_irrefl _ hat.2
      simp only [Function.update_self]
      exact {
        state := fun _ => by rw [hself.1]; simp [View.setState]
        leaving := fun u hu => absurd hu (hno u true)
        running := fun u hu => absurd hu (hno u false)
        ended := fun he => by
          rw [hself.2] at he
          cases he }
  · intro w i hi
    have hlt := (h.shape.idleMade w i hi).1
    exact (h.idles w i hi).same Iff.rfl id (by rw [hfibre i hlt]) (by rw [hprogress i hlt]; exact id)

/-- A fibre writes its state and is about to leave. -/
theorem write (h : Represents v k names) (hi : k.Intact) (hw : v.place w = .fibre f false)
    {st : State} (hst : st ≠ .init) :
    Represents ((v.setState f st).move w (.fibre f true)) k names := by
  have hat := h.shape.code w
  rw [hw] at hat
  obtain ⟨hc, hf⟩ := hat
  have hexec := (h.fibres f hf).running w hw
  have honly : ∀ u b, v.place u = .fibre f b → u = w := fun u b hu => h.shape.alone hi hw hu
  have hkexec : (k.fibre (names.fibre f)).state = .exec := by
    rw [(h.fibres f hf).state, hexec]
    intro u hu
    obtain rfl := honly u true hu
    rw [hw] at hu
    cases hu
  refine ⟨?_, ?_, ?_⟩
  · refine Shape.congr (v := v.move w (.fibre f true)) ?_ rfl rfl
    have hcongr : ∀ u, names.At v.made u (k.thread u) ((v.move w (.fibre f true)).place u) := by
      intro u
      by_cases hu : u = w
      · rw [hu, View.move_self]
        exact ⟨hc, hf⟩
      · rw [View.move_of_ne hu]
        exact h.shape.code u
    refine ⟨hcongr, h.shape.outside, fun u hu => ?_, h.shape.made, h.shape.inj,
      fun u hhome hgone => ?_, h.shape.idleMade, h.shape.idleInj⟩
    · by_cases huw : u = w
      · rw [huw, View.move_self]
        obtain ⟨g, hg, _⟩ := h.shape.scheduler w (by rw [hw]; simp)
        exact ⟨g, hg, fun hhome => absurd hhome (by simp)⟩
      · rw [View.move_of_ne huw] at hu ⊢
        exact h.shape.scheduler u hu
    · by_cases huw : u = w
      · rw [huw]
        exact h.shape.idle w (by rw [hw]; simp) (by rw [hw]; simp)
      · rw [View.move_of_ne huw] at hhome hgone
        exact h.shape.idle u hhome hgone
  · intro y hy
    by_cases hyf : y = f
    · subst hyf
      exact {
        state := fun hno => absurd View.move_self (hno w)
        leaving := fun u _ => ⟨hkexec, by simpa [View.move, View.setState] using hst⟩
        running := fun u hu => by
          by_cases huw : u = w
          · rw [huw, View.move_self] at hu
            cases hu
          · rw [View.move_of_ne huw] at hu
            exact absurd (honly u false hu) huw
        ended := fun he => by
          have hold := (h.fibres y hy).ended he
          rw [hexec] at hold
          rcases hold with hold | hold <;> cases hold }
    · refine (h.fibres y hy).same (View.move_fibre_iff (fun b heq => ?_) fun b heq => ?_) ?_ rfl id
      · rw [show (v.setState f st).place w = v.place w from rfl, hw] at heq
        exact hyf (Place.fibre.inj heq).1.symm
      · exact hyf (Place.fibre.inj heq).1.symm
      · simp [View.move, View.setState, hyf]
  · intro u i hu
    refine (h.idles u i hu).same (View.move_idle_iff fun _ => ?_) id Iff.rfl id
    rw [show (v.setState f st).place w = v.place w from rfl, hw]
    simp

/-- The idle fibre of a worker has seen that the manager stops. -/
theorem setIdleTerm (h : Represents v k names) :
    Represents { v with idleTerm := Function.update v.idleTerm w true } k names := by
  refine ⟨h.shape.congr rfl rfl, fun y hy => ?_, fun u i hu => ?_⟩
  · exact (h.fibres y hy).same (fun _ _ => Iff.rfl) rfl rfl id
  · refine (h.idles u i hu).same Iff.rfl (fun ht => ?_) Iff.rfl id
    by_cases huw : u = w
    · simp [huw]
    · simpa [Function.update_of_ne huw] using ht

/-- A worker is somewhere else, and its thread runs the code that belongs there already. -/
theorem moveTo (h : Represents v k names) {p : Place} (hat : names.At v.made w (k.thread w) p)
    (hsched : p ≠ .gone → ∃ g, (k.thread w).schedulerFibre = some g ∧
      (p = .home → (k.progress g).ended = false ∧ (k.thread w).code ≠ some g ∧
        (k.thread w).code ≠ none))
    (hidle : p ≠ .home → p ≠ .gone → ∃ i, names.idle w = some i)
    (hfrom : ∀ f b, v.place w ≠ .fibre f b) (hto : ∀ f b, p ≠ .fibre f b)
    (hidles : p = .idle ↔ v.place w = .idle) : Represents (v.move w p) k names := by
  refine ⟨⟨fun u => ?_, h.shape.outside, fun u hu => ?_, h.shape.made, h.shape.inj,
    fun u hhome hgone => ?_, h.shape.idleMade, h.shape.idleInj⟩, fun y hy => ?_, fun u i hu => ?_⟩
  · by_cases hu : u = w
    · rw [hu, View.move_self]
      exact hat
    · rw [View.move_of_ne hu]
      exact h.shape.code u
  · by_cases huw : u = w
    · rw [huw, View.move_self] at hu ⊢
      exact hsched hu
    · rw [View.move_of_ne huw] at hu ⊢
      exact h.shape.scheduler u hu
  · by_cases huw : u = w
    · rw [huw, View.move_self] at hhome hgone
      rw [huw]
      exact hidle hhome hgone
    · rw [View.move_of_ne huw] at hhome hgone
      exact h.shape.idle u hhome hgone
  · exact (h.fibres y hy).same (View.move_fibre_iff (hfrom y) (hto y)) rfl rfl id
  · exact (h.idles u i hu).same (View.move_idle_iff fun _ => hidles) id Iff.rfl id

/-- A thread that is about to join the work, or has left it, is set up anew. -/
theorem setup (h : Represents v k names) (hkn : k.Known) (hw : v.place w = .gone)
    (hothers : ∀ t : Nat, t ≠ w → k'.thread t = k.thread t)
    (hat : (k'.thread w).code = (k'.thread w).schedulerFibre ∨
      (k'.thread w).code = (k'.thread w).threadFibre)
    (hsched : ∀ x, x < k.made → (k.thread w).schedulerFibre ≠ some x →
      (k'.thread w).schedulerFibre ≠ some x)
    (hmade : k.made ≤ k'.made) (hfibre : ∀ x, x < k.made → k'.fibre x = k.fibre x)
    (hprogress : ∀ x, x < k.made → k'.progress x = k.progress x) : Represents v k' names := by
  have htask : ∀ x, x < k.made → k.Task x ∧ k.Plain x → k'.Task x ∧ k'.Plain x := by
    rintro x hx ⟨⟨hstack, hfree⟩, hplain⟩
    rw [FibreSys.Task, Plain, hfibre x hx, hprogress x hx]
    refine ⟨⟨hstack, fun t => ?_⟩, hplain⟩
    by_cases ht : t = w
    · rw [ht]
      exact hsched x hx (hfree w)
    · rw [hothers t ht]
      exact hfree t
  refine ⟨⟨fun u => ?_, fun t ht => ?_, fun u hu => ?_, fun f hf => ?_, h.shape.inj, h.shape.idle,
    fun u i hi => ?_, h.shape.idleInj⟩, fun y hy => ?_, fun u i hu => ?_⟩
  · by_cases huw : u = w
    · rw [huw, hw]
      exact hat
    · rw [hothers u fun heq => huw (Fin.ext heq)]
      exact h.shape.code u
  · rw [hothers t (Nat.ne_of_gt (Nat.lt_of_lt_of_le w.isLt ht))]
    exact h.shape.outside t ht
  · have huw : u ≠ w := fun heq => hu (heq ▸ hw)
    rw [hothers u fun heq => huw (Fin.ext heq)]
    obtain ⟨g, hg, hhome⟩ := h.shape.scheduler u hu
    exact ⟨g, hg, by rw [hprogress g (hkn.schedulerFibre u g hg)]; exact hhome⟩
  · obtain ⟨hlt, hboth⟩ := h.shape.made f hf
    exact ⟨Nat.lt_of_lt_of_le hlt hmade, htask _ hlt hboth⟩
  · obtain ⟨hlt, hx, hp, hdiff⟩ := h.shape.idleMade u i hi
    obtain ⟨hx', hp'⟩ := htask i hlt ⟨hx, hp⟩
    exact ⟨Nat.lt_of_lt_of_le hlt hmade, hx', hp', hdiff⟩
  · have hlt := (h.shape.made y hy).1
    exact (h.fibres y hy).same (fun _ _ => Iff.rfl) rfl (by rw [hfibre _ hlt])
      (by rw [hprogress _ hlt]; exact id)
  · have hlt := (h.shape.idleMade u i hu).1
    exact (h.idles u i hu).same Iff.rfl id (by rw [hfibre i hlt])
      (by rw [hprogress i hlt]; exact id)

/-- `run` begins: it makes the idle fibre of its worker. -/
theorem beginRun (h : Represents v k names) (hkn : k.Known) (hw : v.place w = .gone)
    (hat : (k.thread w).code = (k.thread w).schedulerFibre) (hcode : (k.thread w).code ≠ none) :
    ∃ names', Represents (v.move w .loop) (k.newFibre false) names' := by
  have hfibre : ∀ x, x < k.made → (k.newFibre false).fibre x = k.fibre x := fun x hx => by
    simp [FibreSys.newFibre, setProgress, setFibre, Nat.ne_of_lt hx]
  have hprogress : ∀ x, x < k.made → (k.newFibre false).progress x = k.progress x := fun x hx => by
    simp [FibreSys.newFibre, setProgress, setFibre, Nat.ne_of_lt hx]
  have hself : (k.newFibre false).fibre k.made =
      { state := .init, hasStack := true, ctx := .entry false } ∧
      (k.newFibre false).progress k.made =
        { left := 0, entered := false, caller := false, ended := false } := by
    simp [FibreSys.newFibre, setProgress, setFibre]
  have hset : Represents v (k.newFibre false) names := h.setup hkn hw (fun _ _ => rfl)
    (Or.inl hat) (fun _ _ hx => hx) (Nat.le_succ _) hfibre hprogress
  obtain ⟨g, hg⟩ : ∃ g, (k.thread w).schedulerFibre = some g :=
    Option.ne_none_iff_exists'.mp (hat ▸ hcode)
  have hold : ∀ u i, names.idle u = some i → i ≠ k.made := fun u i hi =>
    Nat.ne_of_lt (h.shape.idleMade u i hi).1
  have hidle : ∀ u i, Function.update names.idle w (some k.made) u = some i →
      u = w ∧ i = k.made ∨ u ≠ w ∧ names.idle u = some i := by
    intro u i hi
    by_cases huw : u = w
    · rw [huw, Function.update_self, Option.some.injEq] at hi
      exact Or.inl ⟨huw, hi.symm⟩
    · rw [Function.update_of_ne huw] at hi
      exact Or.inr ⟨huw, hi⟩
  have hnew : Represents v (k.newFibre false)
      { names with idle := Function.update names.idle w (some k.made) } := by
    refine ⟨⟨fun u => ?_, hset.shape.outside, hset.shape.scheduler, hset.shape.made,
      hset.shape.inj, fun u hhome hgone => ?_, fun u i hi => ?_, fun u u' i hi hi' => ?_⟩,
      hset.fibres, fun u i hi => ?_⟩
    · have hatu := hset.shape.code u
      cases hp : v.place u with
      | idle =>
          rw [hp] at hatu
          have huw : u ≠ w := by
            rintro rfl
            rw [hw] at hp
            cases hp
          show _ = Function.update names.idle w (some k.made) u
          rw [Function.update_of_ne huw]
          exact hatu
      | home | loop | fibre f b | gone =>
          rw [hp] at hatu
          exact hatu
    · have huw : u ≠ w := fun heq => hgone (heq ▸ hw)
      obtain ⟨i, hi⟩ := hset.shape.idle u hhome hgone
      exact ⟨i, (Function.update_of_ne huw _ _).trans hi⟩
    · rcases hidle u i hi with ⟨rfl, rfl⟩ | ⟨_, hi⟩
      · refine ⟨Nat.lt_succ_self _, ⟨?_, fun t ht => ?_⟩, ⟨?_, ?_⟩, fun f hf heq => ?_⟩
        · rw [hself.1]
        · exact Nat.lt_irrefl _ (hkn.schedulerFibre t _ ht)
        · rw [hself.2]
        · rw [hself.1]
          simp
        · exact Nat.lt_irrefl _ (heq ▸ (h.shape.made f hf).1)
      · exact hset.shape.idleMade u i hi
    · rcases hidle u i hi with ⟨hu, hik⟩ | ⟨_, hi⟩
      · rcases hidle u' i hi' with ⟨hu', _⟩ | ⟨_, hi'⟩
        · rw [hu, hu']
        · exact absurd hik (hold u' i hi')
      · rcases hidle u' i hi' with ⟨_, hik⟩ | ⟨_, hi'⟩
        · exact absurd hik (hold u i hi)
        · exact hset.shape.idleInj u u' i hi hi'
    · rcases hidle u i hi with ⟨rfl, rfl⟩ | ⟨_, hi⟩
      · refine ⟨iff_of_false ?_ (by rw [hw]; simp), fun he => ?_⟩
        · rw [hself.1]
          simp
        · rw [hself.2] at he
          cases he
      · exact hset.idles u i hi
  refine ⟨_, hnew.moveTo hat (fun _ => ⟨g, hg, fun hhome => absurd hhome (by simp)⟩)
      (fun _ _ => ⟨k.made, Function.update_self ..⟩) ?_ ?_ ?_⟩
  · intro f b
    rw [hw]
    simp
  · simp
  · rw [hw]
    simp

/-- `stop` calls the root fibre of its thread, which runs `run`. -/
theorem join (h : Represents v k names) (hk : machine.Reachable Protocol k)
    (hw : v.place w = .home) : Carries k (v.move w .loop) := by
  obtain ⟨hi, hkn, hr⟩ := protocol_invariant hk
  have hat := h.shape.code w
  rw [hw] at hat
  obtain ⟨g, hg, hhome⟩ := h.shape.scheduler w (by rw [hw]; simp)
  obtain ⟨halive, hne, hcode⟩ := hhome hw
  obtain ⟨c, hc⟩ := Option.ne_none_iff_exists'.mp hcode
  have hgm := hkn.schedulerFibre w g hg
  have hp : k.Protocol (.call w g) := ⟨hat, hg, hne, halive⟩
  obtain ⟨k₁, hk₁, hm, hst⟩ := call_possible hi hr hgm ((hat : _ = _).symm.trans hc) hp
  have hthread := hm.thread
  have hgone : Represents (v.move w .gone) k₁ names := by
    have hnotask : ¬ k.Task g := fun htask => htask.2 w hg
    have hsame : ∀ y, k.Task y → (k₁.fibre y).state = (k.fibre y).state ∧
        ((k₁.progress y).ended = true → (k.progress y).ended = true) := by
      intro y hy
      refine ⟨?_, fun he => ?_⟩
      · have hyg : y ≠ g := fun heq => hnotask (heq ▸ hy)
        rw [hst, if_neg hyg]
      · rcases (hm.ended y).mp he with he | ⟨hfalse, _⟩
        · exact he
        · cases hfalse
    refine ⟨h.shape.switch hr hc hm (by simp) (Or.inl ?_) (fun hno => absurd rfl hno)
      (fun hno => absurd rfl hno), fun y hy => ?_, fun u i hu => ?_⟩
    · rw [hthread, hg]
    · obtain ⟨hstate, hend⟩ := hsame _ (h.shape.made y hy).2.1
      refine (h.fibres y hy).same (View.move_fibre_iff (fun b => ?_) fun b => ?_) rfl hstate hend
      · rw [hw]
        simp
      · simp
    · obtain ⟨hstate, hend⟩ := hsame i (h.shape.idleMade u i hu).2.1
      refine (h.idles u i hu).same (View.move_idle_iff fun _ => ?_) id (by rw [hstate]) hend
      rw [hw]
      simp
  have hkn₁ := (protocol_invariant (hk.step hp hk₁)).2.1
  obtain ⟨names₂, hrep⟩ := hgone.beginRun hkn₁ View.move_self
    (by rw [hthread, hg]) (by rw [hthread]; simp)
  refine ⟨k₁.newFibre false, names₂,
    .step (a := .newFibre false) (.step .refl hp hk₁) trivial rfl, ?_⟩
  have htwice : (v.move w .gone).move w .loop = v.move w .loop := by
    simp [View.move]
  exact htwice ▸ hrep

/-- `run` returns: on a worker the thread ends, and a root fibre goes back to `stop`. -/
theorem exit (h : Represents v k names) (hk : machine.Reachable Protocol k)
    (hw : v.place w = .loop) : Carries k (v.move w .gone) := by
  obtain ⟨hi, hkn, hr⟩ := protocol_invariant hk
  have hat := h.shape.code w
  rw [hw] at hat
  obtain ⟨g, hg, _⟩ := h.shape.scheduler w (by rw [hw]; simp)
  have hc : (k.thread w).code = some g := (hat : _ = _).trans hg
  cases hstack : (k.fibre g).hasStack with
  | false =>
      have hgone : names.At v.made w (k.thread w) .gone := Or.inl hat
      refine (h.moveTo hgone (fun hno => absurd rfl hno) (fun _ hno => absurd rfl hno)
        ?_ ?_ ?_).carries
      · intro f b
        rw [hw]
        simp
      · simp
      · rw [hw]
        simp
  | true =>
      obtain ⟨hp, k', m, hk', hmain, hm, hst⟩ := exit_possible hi hkn hr hc hg hstack
      have hsame : ∀ y, k.Task y → (k'.fibre y).state = (k.fibre y).state ∧
          ((k'.progress y).ended = true → (k.progress y).ended = true) := by
        intro y hy
        have hyg : y ≠ g := fun heq => hy.2 w (heq ▸ hg)
        refine ⟨hst y hyg, fun he => ?_⟩
        rcases (hm.ended y).mp he with he | ⟨_, heq⟩
        · exact he
        · exact absurd heq hyg
      refine ⟨k', names, .step .refl hp hk', h.shape.switch hr hc hm (by simp) (Or.inr ?_)
        (fun hno => absurd rfl hno) (fun hno => absurd rfl hno), fun y hy => ?_, fun u i hu => ?_⟩
      · rw [hm.thread, hmain]
      · obtain ⟨hstate, hend⟩ := hsame _ (h.shape.made y hy).2.1
        refine (h.fibres y hy).same (View.move_fibre_iff (fun b => ?_) fun b => ?_) rfl hstate hend
        · rw [hw]
          simp
        · simp
      · obtain ⟨hstate, hend⟩ := hsame i (h.shape.idleMade u i hu).2.1
        refine (h.idles u i hu).same (View.move_idle_iff fun _ => ?_) id (by rw [hstate]) hend
        rw [hw]
        simp

/-- `stop` returns. -/
theorem leaveHome (h : Represents v k names) (hw : v.place w = .home) :
    Represents (v.move w .gone) k names := by
  have hat := h.shape.code w
  rw [hw] at hat
  have hgone : names.At v.made w (k.thread w) .gone := Or.inr hat
  refine h.moveTo hgone (fun hno => absurd rfl hno) (fun _ hno => absurd rfl hno) ?_ ?_ ?_
  · intro f b
    rw [hw]
    simp
  · simp
  · rw [hw]
    simp

end Represents

/-! ## The start -/

section Start

open FibreSys

variable {v : View n} {k : FibreSys} {names : Names n} {w : Fin n}

/-- The thread has not made any fibre yet. -/
def Blank (k : FibreSys) (t : Nat) : Prop :=
  k.thread t = { fibre := none, threadFibre := none, schedulerFibre := none, code := none }

/-- The main fibre of a thread without fibres. -/
theorem newMain_blank (hb : Blank k w) :
    (k.getThis w).1 = k.newMain w ∧
      (k.newMain w).thread w =
        { fibre := some k.made
          threadFibre := some k.made
          schedulerFibre := none
          code := some k.made } ∧
      (∀ t : Nat, t ≠ w → (k.newMain w).thread t = k.thread t) ∧
      (∀ x, x < k.made → (k.newMain w).fibre x = k.fibre x ∧
        (k.newMain w).progress x = k.progress x) := by
  rw [Blank] at hb
  refine ⟨by rw [getThis, hb], ?_, fun t ht => ?_, fun x hx => ⟨?_, ?_⟩⟩
  · simp [newMain, setThread, hb]
  · simp [newMain, setThread, setProgress, setFibre, ht]
  · simp [newMain, setThread, setProgress, setFibre, Nat.ne_of_lt hx]
  · simp [newMain, setThread, setProgress, setFibre, Nat.ne_of_lt hx]

/-- A new worker schedules on its main fibre. -/
theorem Represents.startWorker (h : Represents v k names) (hk : machine.Reachable Protocol k)
    (hw : v.place w = .gone) (hb : Blank k w) :
    ∃ k' names', machine.Reachable Protocol k' ∧ Represents (v.move w .loop) k' names' ∧
      ∀ t : Nat, t ≠ w → k'.thread t = k.thread t := by
  have hkn := (protocol_invariant hk).2.1
  obtain ⟨hthis, hself, hothers, hbelow⟩ := newMain_blank hb
  have hk₁ : machine.Reachable Protocol (k.newMain w) :=
    hk.step (a := .getThis w) trivial (congrArg some hthis)
  have hp : (k.newMain w).Protocol (.setScheduler w k.made) := by
    rw [Protocol, hself]
    exact ⟨rfl, rfl, Or.inl rfl⟩
  have hk₂ := hk₁.step hp (show (k.newMain w).step (.setScheduler w k.made) = _ from
    if_pos (Nat.lt_succ_self k.made))
  have hset : Represents v ((k.newMain w).setThread w
      { (k.newMain w).thread w with schedulerFibre := some k.made }) names := by
    refine h.setup hkn hw (fun t ht => ?_) (Or.inl ?_) (fun x hx _ => ?_)
      (Nat.le_succ _) (fun x hx => (hbelow x hx).1) (fun x hx => (hbelow x hx).2)
    · rw [← hothers t ht]
      simp [setThread, ht]
    · simp [setThread, hself]
    · simp only [setThread, Function.update_self, ne_eq, Option.some.injEq]
      omega
  obtain ⟨names', hrep⟩ := hset.beginRun (protocol_invariant hk₂).2.1 hw
    (by simp [setThread, hself]) (by simp [setThread, hself])
  refine ⟨_, names', hk₂.step (a := .newFibre false) trivial rfl, hrep, fun t ht => ?_⟩
  rw [← hothers t ht]
  simp [FibreSys.newFibre, setProgress, setFibre, setThread, ht]

/-- The thread that makes the manager makes the root fibre. -/
theorem Represents.startCaller (h : Represents v k names) (hk : machine.Reachable Protocol k)
    (hw : v.place w = .gone) (hb : Blank k w) :
    ∃ k' names', machine.Reachable Protocol k' ∧ Represents (v.move w .home) k' names' ∧
      ∀ t : Nat, t ≠ w → k'.thread t = k.thread t := by
  have hkn := (protocol_invariant hk).2.1
  obtain ⟨hthis, hself, hothers, hbelow⟩ := newMain_blank hb
  have hk₁ : machine.Reachable Protocol (k.newMain w) :=
    hk.step (a := .getThis w) trivial (congrArg some hthis)
  have hkn₁ := (protocol_invariant hk₁).2.1
  have hk₂ : machine.Reachable Protocol ((k.newMain w).newFibre true) :=
    hk₁.step (a := .newFibre true) trivial rfl
  have hroot : ((k.newMain w).newFibre true).fibre (k.made + 1) =
      { state := .init, hasStack := true, ctx := .entry true } ∧
      ((k.newMain w).newFibre true).progress (k.made + 1) =
        { left := 0, entered := false, caller := false, ended := false } := by
    simp [FibreSys.newFibre, newMain, setThread, setProgress, setFibre]
  have hp : ((k.newMain w).newFibre true).Protocol (.setScheduler w (k.made + 1)) := by
    refine ⟨?_, ?_, Or.inr ⟨⟨by rw [hroot.1], fun t ht => ?_⟩, by rw [hroot.2], by rw [hroot.1]⟩⟩
    · show ((k.newMain w).thread w).schedulerFibre = none
      rw [hself]
    · show ((k.newMain w).thread w).code = ((k.newMain w).thread w).threadFibre
      rw [hself]
    · exact absurd (hkn₁.schedulerFibre t _ ht) (Nat.lt_irrefl _)
  have hk₃ := hk₂.step hp (show ((k.newMain w).newFibre true).step
    (.setScheduler w (k.made + 1)) = _ from if_pos (Nat.lt_succ_self (k.made + 1)))
  have hfibre : ∀ x, x < k.made → ((k.newMain w).newFibre true).fibre x = k.fibre x ∧
      ((k.newMain w).newFibre true).progress x = k.progress x := by
    intro x hx
    have hne : x ≠ (k.newMain w).made := Nat.ne_of_lt (Nat.lt_succ_of_lt hx)
    rw [← (hbelow x hx).1, ← (hbelow x hx).2]
    simp [FibreSys.newFibre, setProgress, setFibre, hne]
  have hset : Represents v (((k.newMain w).newFibre true).setThread w
      { ((k.newMain w).newFibre true).thread w with schedulerFibre := some (k.made + 1) })
      names := by
    refine h.setup hkn hw (fun t ht => ?_) (Or.inr ?_) (fun x hx _ => ?_)
      (Nat.le_add_right k.made 2) (fun x hx => (hfibre x hx).1) (fun x hx => (hfibre x hx).2)
    · rw [← hothers t ht]
      simp [FibreSys.newFibre, setProgress, setFibre, setThread, ht]
    · simp [FibreSys.newFibre, setProgress, setFibre, setThread, hself]
    · simp only [setThread, Function.update_self, ne_eq, Option.some.injEq]
      omega
  refine ⟨_, names, hk₃, hset.moveTo ?_ (fun _ => ⟨k.made + 1, ?_, fun _ => ⟨?_, ?_, ?_⟩⟩) ?_ ?_ ?_ ?_,
    fun t ht => ?_⟩
  · simp [Names.At, FibreSys.newFibre, setProgress, setFibre, setThread, hself]
  · simp [setThread]
  · show (((k.newMain w).newFibre true).progress (k.made + 1)).ended = false
    rw [hroot.2]
  · simp [FibreSys.newFibre, setProgress, setFibre, setThread, hself]
  · simp [FibreSys.newFibre, setProgress, setFibre, setThread, hself]
  · exact fun hno => absurd rfl hno
  · intro f b
    rw [hw]
    simp
  · simp
  · rw [hw]
    simp
  · rw [← hothers t ht]
    simp [FibreSys.newFibre, setProgress, setFibre, setThread, ht]

/-- The contexts of a manager that was started. -/
theorem started (n m : Nat) (useCaller : Bool) :
    ∃ k, machine.Reachable Protocol k ∧
      ∃ names, Represents (Sys.start n m useCaller).view k names := by
  have hsome : ∀ j, j ≤ n → ∃ k names, machine.Reachable Protocol k ∧
      Represents { (Sys.start n m useCaller).view with
        place := fun w => if w.val < j then (Sys.start n m useCaller).view.place w else .gone }
        k names ∧ ∀ t, j ≤ t → Blank k t := by
    intro j
    induction j with
    | zero =>
        intro _
        refine ⟨FibreSys.start, ⟨id, fun _ => none⟩, ⟨_, rfl, .refl⟩, ⟨⟨fun _ => Or.inl rfl,
          fun _ _ => rfl, fun u hu => absurd rfl hu, fun f hf => absurd hf (Nat.not_lt_zero f),
          fun f _ hf => absurd hf (Nat.not_lt_zero f), fun u _ hu => absurd rfl hu, ?_, ?_⟩,
          fun f hf => absurd hf (Nat.not_lt_zero f), ?_⟩, fun _ _ => rfl⟩
        · intro _ _ hi
          cases hi
        · intro _ _ _ hi
          cases hi
        · intro _ _ hi
          cases hi
    | succ j ih =>
        intro hj
        obtain ⟨k, names, hk, hrep, hblank⟩ := ih (Nat.le_of_succ_le hj)
        let w : Fin n := ⟨j, hj⟩
        have hrest : ∀ {k'}, (∀ t : Nat, t ≠ w → k'.thread t = k.thread t) →
            ∀ t, j + 1 ≤ t → Blank k' t := by
          intro k' hothers t ht
          rw [Blank, hothers t (Nat.ne_of_gt ht)]
          exact hblank t (Nat.le_of_succ_le ht)
        have hview : ∀ p, (Sys.start n m useCaller).view.place w = p →
            View.move { (Sys.start n m useCaller).view with
              place := fun u => if u.val < j then (Sys.start n m useCaller).view.place u
                else .gone } w p =
            { (Sys.start n m useCaller).view with
              place := fun u => if u.val < j + 1 then (Sys.start n m useCaller).view.place u
                else .gone } := by
          rintro p rfl
          simp only [View.move, View.mk.injEq, and_true]
          funext u
          by_cases huw : u = w
          · subst huw
            simp [w]
          · have hne : u.val ≠ j := fun heq => huw (Fin.ext heq)
            rw [Function.update_of_ne huw]
            by_cases hu : u.val < j
            · rw [if_pos hu, if_pos (Nat.lt_succ_of_lt hu)]
            · rw [if_neg hu, if_neg (by omega)]
        have hgone : (if w.val < j then (Sys.start n m useCaller).view.place w else .gone) =
            Place.gone := if_neg (Nat.lt_irrefl j)
        by_cases hcaller : useCaller = true ∧ w.val = 0
        · obtain ⟨k', names', hk', hrep', hothers⟩ :=
            hrep.startCaller hk hgone (hblank j (Nat.le_refl j))
          refine ⟨k', names', hk', ?_, hrest hothers⟩
          rw [← hview .home (by simp [Sys.view, Sys.start, hcaller, Pc.place])]
          exact hrep'
        · obtain ⟨k', names', hk', hrep', hothers⟩ :=
            hrep.startWorker hk hgone (hblank j (Nat.le_refl j))
          refine ⟨k', names', hk', ?_, hrest hothers⟩
          rw [← hview .loop (by simp [Sys.view, Sys.start, hcaller, Pc.place])]
          exact hrep'
  obtain ⟨k, names, hk, hrep, _⟩ := hsome n (Nat.le_refl n)
  refine ⟨k, hk, names, ?_⟩
  simpa using hrep

end Start

/-! ## The steps -/

section Steps

open FibreSys

variable {s t : Sys n m} {k : FibreSys} {names : Names n} {w : Fin n} {f : Nat}

theorem Pc.place_eq_fibre {pc : Pc} {b : Bool} (h : pc.place = .fibre f b) : pc.Executes f := by
  cases pc with
  | running g c =>
      simp only [Pc.place, Place.fibre.injEq] at h
      exact h.1
  | leaving g c =>
      simp only [Pc.place, Place.fibre.injEq] at h
      exact h.1
  | test site read => cases site <;> cases h
  | _ => cases h

/-- No worker is at a fibre that another worker has in hand. -/
theorem Sys.Separated.free (hsep : s.Separated) (hin : (s.worker w).pc.InHand f)
    (hw : ∀ b, (s.worker w).pc.place ≠ .fibre f b)
    (hd : (s.worker w).pc ≠ .dispatch (.fibre f)) (u : Fin n) (b : Bool) :
    s.view.place u ≠ .fibre f b := by
  intro hu
  have hex := Pc.place_eq_fibre hu
  by_cases huw : u = w
  · exact hw b (huw ▸ hu)
  · obtain ⟨_, hdu | hdw⟩ := hsep.shared u w f huw hex.inHand hin
    · rw [hdu] at hex
      exact hex
    · exact hd hdw

/-- A step on which no context depends. -/
theorem Represents.stays (h : Represents s.view k names) {pc pc' : Pc} {s' : Sys n m}
    (hs' : s'.view = s.view) (hpc : (s.worker w).pc = pc) (hplace : pc.place = pc'.place) :
    Carries k (s'.goto w pc').view := by
  have hsame : s.view.move w pc'.place = s.view :=
    View.move_same ((congrArg Pc.place hpc).trans hplace)
  rw [Sys.view_goto, hs', hsame]
  exact h.carries

theorem Sys.view_dropCb (s : Sys n m) (w : Fin n) (viaCb : Bool) :
    (s.dropCb w viaCb).view = s.view := by
  cases viaCb with
  | false => rfl
  | true =>
      simp only [Sys.view, Sys.dropCb, Sys.setWorker, if_true, View.mk.injEq, and_true]
      constructor <;> funext u <;> by_cases hu : u = w <;> simp [hu]

theorem Represents.goes (h : Represents s.view k names) (hk : machine.Reachable Protocol k)
    {pc pc' : Pc} (hpc : (s.worker w).pc = pc) (hgoes : s.Goes (s.worker w) pc pc') :
    Carries k (s.goto w pc').view := by
  have hplace : s.view.place w = pc.place := congrArg Pc.place hpc
  cases hgoes with
  | enter hstate => exact h.stays rfl hpc rfl
  | ended hstate => exact h.stays rfl hpc rfl
  | swapOut =>
      rw [Sys.view_goto]
      exact h.leave hk hplace
  | leave hterm =>
      rw [Sys.view_goto]
      exact h.exit hk hplace
  | @timers site hread => exact h.stays rfl hpc (by cases site <;> rfl)
  | @pending site hread => exact h.stays rfl hpc (by cases site <;> rfl)
  | early hread =>
      rw [Sys.view_goto]
      exact (h.leaveHome hplace).carries
  | stop hread =>
      rw [Sys.view_goto]
      exact (h.leaveHome hplace).carries
  | stay hread => exact h.stays rfl hpc rfl
  | join hread =>
      rw [Sys.view_goto]
      exact h.join hk hplace
  | block => exact h.stays rfl hpc rfl
  | rest => exact h.stays rfl hpc rfl

theorem Represents.performs (h : Represents s.view k names) (hk : machine.Reachable Protocol k)
    {th : Thread n m} {self : Option Nat} {op : Op} (hop : s.Performs th self op t) :
    Carries k t.view := by
  cases hop with
  | newFibre => exact h.newFibre hk
  | schedule | scheduleAll | addTimer | cancelTimer | resetTimer | addEvent | delEvent
  | cancelEvent => exact h.carries

/-- A step of the scheduler is made of calls of the protocol. -/
theorem Represents.step (h : Represents s.view k names) (hk : machine.Reachable Protocol k)
    (hknown : s.Known) (hsep : s.Separated) {a : Label n m} (hst : s.step a = some t) :
    Carries k t.view := by
  cases Sys.step_cases hst with
  | goes htodo hpc hgoes => exact h.goes hk hpc hgoes
  | take htodo hpc hft => exact h.stays rfl hpc rfl
  | miss htodo hpc hft => exact h.stays rfl hpc rfl
  | @reuse w c f htodo hpc hcb hstate =>
      have hfree : ∀ u b, s.view.place u ≠ .fibre f b := by
        intro u b hu
        by_cases huw : u = w
        · subst huw
          rw [show s.view.place u = .loop from congrArg Pc.place hpc] at hu
          cases hu
        · exact (hsep.kept w f hcb u huw).1 (Pc.place_eq_fibre hu).inHand
      obtain ⟨k', names', hreach, hrep⟩ :=
        h.reset hk hfree (hknown.worker w f (Or.inr (Or.inr hcb))) hstate
      refine ⟨k', names', hreach, ?_⟩
      have hloop : s.view.place w = .loop := congrArg Pc.place hpc
      rw [Sys.view_goto, View.move_same]
      · exact hrep
      · exact hloop
  | @create w c htodo hpc hcb =>
      obtain ⟨k', names', hreach, hrep⟩ := h.newFibre hk
      refine ⟨k', names', hreach, ?_⟩
      have hview : (({ s with made := s.made + 1 }.setState s.made .init).setWorker w
          { s.worker w with pc := .entering s.made true, cbFibre := some s.made }).view =
          { s.view with made := s.made + 1 }.setState s.made .init := by
        simp only [Sys.view, Sys.setWorker, Sys.setState, View.setState, View.mk.injEq, and_true]
        constructor <;> funext u <;> by_cases hu : u = w
        · rw [hu, Function.update_self, hpc]
          rfl
        · rw [Function.update_of_ne hu]
        · rw [hu, Function.update_self]
        · rw [Function.update_of_ne hu]
      rw [hview]
      exact hrep
  | @swapIn w f viaCb htodo hpc hstate =>
      have hin : (s.worker w).pc.InHand f := by
        rw [hpc]
        rfl
      rw [Sys.view_goto]
      refine h.swapIn hk (congrArg Pc.place hpc) (hknown.inHand hin) ?_ hstate
        (hsep.alive w f viaCb (Or.inl hpc))
      exact hsep.free hin (by rw [hpc]; simp [Pc.place]) (by rw [hpc]; simp)
  | giveUp htodo hpc => exact h.stays rfl hpc rfl
  | dropped htodo hpc => exact h.stays rfl hpc rfl
  | ready htodo hpc hstate => exact h.stays (Sys.view_dropCb _ _ _) hpc rfl
  | @finished w f viaCb htodo hpc hstate =>
      have hin : (s.worker w).pc.InHand f := by
        rw [hpc]
        rfl
      cases viaCb with
      | false => exact h.stays rfl hpc rfl
      | true =>
          obtain ⟨k', names', hreach, hrep⟩ := h.reset hk
            (hsep.free hin (by rw [hpc]; simp [Pc.place]) (by rw [hpc]; simp))
            (hknown.inHand hin) (hstate.imp_right Or.inl)
          refine ⟨k', names', hreach, ?_⟩
          have hloop : s.view.place w = .loop := congrArg Pc.place hpc
          rw [if_pos rfl, Sys.view_goto, View.move_same]
          · exact hrep
          · exact hloop
  | @hold w f viaCb htodo hpc hstate =>
      have hin : (s.worker w).pc.InHand f := by
        rw [hpc]
        rfl
      obtain ⟨k', names', hreach, hrep⟩ := h.setHold
        (hsep.free hin (by rw [hpc]; simp [Pc.place]) (by rw [hpc]; simp)) hstate.2
        (hknown.inHand hin)
      refine ⟨k', names', hreach, ?_⟩
      have hloop : s.view.place w = .loop := congrArg Pc.place hpc
      rw [Sys.view_goto, Sys.view_dropCb, View.move_same]
      · exact hrep
      · exact hloop
  | requeue htodo hpc => exact h.stays rfl hpc rfl
  | enterIdle htodo hpc hterm =>
      rw [Sys.view_goto]
      exact h.enterIdle hk (congrArg Pc.place hpc) hterm
  | @endIdle w htodo hpc hread =>
      have hview : (s.setWorker w { s.worker w with pc := .idleOut, idleTerm := true }).view =
          { s.view with idleTerm := Function.update s.view.idleTerm w true } := by
        simp only [Sys.view, Sys.setWorker, View.mk.injEq, and_true]
        constructor <;> funext u <;> by_cases hu : u = w
        · rw [hu, Function.update_self, hpc]
          rfl
        · rw [Function.update_of_ne hu]
        · rw [hu, Function.update_self, Function.update_self]
        · rw [Function.update_of_ne hu, Function.update_of_ne hu]
      rw [hview]
      exact h.setIdleTerm.carries
  | goOn htodo hpc hread => exact h.stays rfl hpc rfl
  | pushExpired htodo hpc => exact h.stays rfl hpc rfl
  | leaveIdle htodo hpc =>
      rw [Sys.view_goto]
      exact h.leaveIdle hk (congrArg Pc.place hpc)
  | user htodo hpc hop => exact h.performs hk hop
  | external htodo hop => exact h.performs hk hop
  | write htodo hpc hwritten =>
      rw [Sys.view_goto]
      exact (h.write (protocol_invariant hk).1 (congrArg Pc.place hpc) hwritten.1).carries
  | wake hpc => exact h.stays rfl hpc rfl
  | listExpired hpc hdue => exact h.stays rfl hpc rfl
  | seeIdle | seeBusy | writePipe | decPending | setStopping | readPipe | deliver | stopOther =>
      exact h.carries
  | stopEarly htodo hpc => exact h.stays rfl hpc rfl
  | stopCaller htodo hpc => exact h.stays rfl hpc rfl

end Steps

/-- **The scheduler keeps its contexts**: as long as no worker takes a fibre that another one
keeps or has in hand, its steps are calls of the protocol.  Its states are represented; and
whatever represents one has all contexts intact, a worker that executes a fibre runs its code,
with `t_fibre` the fibre, a fibre that no worker executes goes on where it was left, and calls
of the protocol lead to what represents the next state. -/
theorem scheduler_simulated {n m : Nat} (s : Sys n m)
    (h : (Sys.system n m).Reachable Sys.TakesFree s) :
    (∃ k names, FibreSys.machine.Reachable FibreSys.Protocol k ∧ Represents s.view k names) ∧
      ∀ k names, FibreSys.machine.Reachable FibreSys.Protocol k → Represents s.view k names →
        k.Intact ∧
        (∀ w f, (s.worker w).pc.Executes f → (k.thread w).fibre = some (names.fibre f)) ∧
        (∀ f, f < s.made → (∀ w, ¬ (s.worker w).pc.Executes f) → k.Own (names.fibre f)) ∧
        ∀ a t, s.step a = some t → ∃ k' names',
          FibreSys.machine.Reaches FibreSys.Protocol k k' ∧ Represents t.view k' names' := by
  constructor
  · obtain ⟨k, hk, names, hrep⟩ := h.simulated (fun s k => ∃ names, Represents s.view k names)
      (fun s hs => by
        obtain ⟨_, useCaller, rfl⟩ := hs
        exact started n m useCaller)
      (fun s a t k hreach hk hs _ hst => by
        obtain ⟨names, hrep⟩ := hs
        obtain ⟨hknown, hsep⟩ := Sys.separated_of_takesFree hreach
        obtain ⟨k', names', hsteps, hrep'⟩ := hrep.step hk hknown hsep hst
        exact ⟨k', hsteps, names', hrep'⟩)
    exact ⟨k, names, hk, hrep⟩
  · intro k names hk hrep
    obtain ⟨hi, _, hr⟩ := FibreSys.protocol_invariant hk
    obtain ⟨hknown, hsep⟩ := Sys.separated_of_takesFree h
    refine ⟨hi, fun w f hex => ?_, fun f hf hno => ?_, fun a t hst => hrep.step hk hknown hsep hst⟩
    · have hat := hrep.shape.code w
      obtain ⟨b, hp⟩ : ∃ b, s.view.place w = .fibre f b := by
        show ∃ b, (s.worker w).pc.place = .fibre f b
        cases hpc : (s.worker w).pc with
        | running g b =>
            rw [hpc] at hex
            exact ⟨false, congrArg (Place.fibre · false) hex⟩
        | leaving g b =>
            rw [hpc] at hex
            exact ⟨true, congrArg (Place.fibre · true) hex⟩
        | _ =>
            rw [hpc] at hex
            exact hex.elim
      rw [hp] at hat
      rw [hi.this, hat.1]
    · refine hi.own _ (hrep.shape.made f hf).1 (hrep.shape.fibre_rests hr hf fun w b hw => ?_)
      exact hno w (Pc.place_eq_fibre hw)

/-- One worker runs a fibre that the other one then takes over. -/
def handedOverRun : List (Label 2 1) :=
  [.external 0 .newFibre, .external 0 (.schedule (some (.fibre 0)) none), .micro (.inr 0),
    .next 0, .next 0, .next 0, .user 0 (.schedule (some (.fibre 0)) none), .micro (.inl 0),
    .write 0 .hold, .next 0, .next 0, .next 0, .next 1, .next 1, .next 1]

theorem handedOverRun_simulated :
    ∃ s, (Sys.system 2 1).execIf Sys.TakesFree (Sys.start 2 1 false) handedOverRun = some s ∧
      (s.worker 1).pc = .running 0 false ∧
      ∃ k names, Represents s.view k names ∧ k.Intact := by
  have hrun : ((Sys.system 2 1).execIf Sys.TakesFree (Sys.start 2 1 false) handedOverRun).map
      (fun s => (s.worker 1).pc) = some (.running 0 false) := by decide
  obtain ⟨s, hs, hpc⟩ := Option.map_eq_some_iff.mp hrun
  obtain ⟨⟨k, names, hk, hrep⟩, hall⟩ := scheduler_simulated s
    (System.execIf_reachable ⟨by decide, false, rfl⟩ hs)
  exact ⟨s, hs, hpc, k, names, hrep, (hall k names hk hrep).1⟩

end Concurrency
end Hpgs
