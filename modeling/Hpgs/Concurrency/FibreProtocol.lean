import Hpgs.Concurrency.FibreContexts

/-!
# How the scheduler uses its fibres

The calls that `Scheduler` and `IOManager` make, and when they make them: on a worker the main
fibre schedules, on the thread that made the manager a root fibre does, and all other fibres
are tasks.

**Results.**
* `protocol_intact`: such calls keep all contexts intact, if no task is swapped in that runs.
* `swapIn_possible`, `leave_possible`, `call_possible`, `exit_possible`: none of their switches
  fails.
-/

namespace Hpgs
namespace Concurrency

open Transition

namespace FibreSys

/-! ## The protocol of the scheduler -/

/-- A fibre that a scheduler may swap in: it has a stack, and no thread schedules on it. -/
def Task (s : FibreSys) (f : Nat) : Prop :=
  (s.fibre f).hasStack ∧ ∀ t, (s.thread t).schedulerFibre ≠ some f

/-- How the repository makes the calls.  A thread gets its scheduler fibre once, while its main
fibre runs: that fibre itself, or a root fibre that was just made.  `run` swaps in and resets
tasks that run nowhere.  The tasks swap themselves out, as `IOManager::idle` does, or yield, and
they end.  `stop` calls the root fibre. -/
def Protocol (s : FibreSys) : FibreCall → Prop
  | .getThis _ | .createMainFibre _ | .newFibre _ | .setHold _ => True
  | .setScheduler t f =>
      (s.thread t).schedulerFibre = none ∧ (s.thread t).code = (s.thread t).threadFibre ∧
        ((s.thread t).threadFibre = some f ∨
          s.Task f ∧ (s.progress f).entered = false ∧ (s.fibre f).ctx = .entry true)
  | .reset f => s.Task f ∧ s.Resting f
  | .swapIn t f =>
      (s.thread t).code = (s.thread t).schedulerFibre ∧
        s.Task f ∧ s.Resting f ∧ (s.progress f).ended = false
  | .swapOut t f => (s.thread t).code = some f ∧ s.Task f
  | .back .. => False
  | .call t f =>
      (s.thread t).code = (s.thread t).threadFibre ∧ (s.thread t).schedulerFibre = some f ∧
        (s.thread t).code ≠ some f ∧ (s.progress f).ended = false
  | .yield t _ => ∃ c, (s.thread t).code = some c ∧ s.Task c
  | .finish t _ => ∃ c, (s.thread t).code = some c ∧
      (s.Task c ∨ (s.thread t).schedulerFibre = some c)

/-- What the fibres are for.  Main fibres run on their own threads and do not end.  A root
fibre runs on its own thread, and goes back to the main fibre at its end.  While a task runs,
the fibre that scheduled it was entered and has not ended. -/
structure Roles (s : FibreSys) : Prop where
  main : ∀ t m, (s.thread t).threadFibre = some m →
    (s.fibre m).hasStack = false ∧ (s.progress m).ended = false
  mains : ∀ t u m, (s.thread t).threadFibre = some m → (s.thread u).threadFibre = some m → t = u
  home : ∀ t c, (s.thread t).code = some c → (s.fibre c).hasStack = false →
    (s.thread t).threadFibre = some c
  roots : ∀ t u g, (s.thread t).schedulerFibre = some g → (s.thread u).schedulerFibre = some g →
    t = u
  root : ∀ t g, (s.thread t).schedulerFibre = some g →
    (s.thread t).threadFibre = some g ∨
      (s.fibre g).hasStack = true ∧ (∀ u, (s.thread u).code = some g → u = t) ∧
        (if (s.progress g).entered then (s.progress g).caller = true
          else (s.fibre g).ctx = .entry true)
  serving : ∀ t c g, (s.thread t).code = some c → s.Task c →
    (s.thread t).schedulerFibre = some g →
      (s.progress g).entered = true ∧ (s.progress g).ended = false

section Protocol

variable {s s₁ s' : FibreSys} {t c source target : Nat} {ends : Bool}

/-- The code of a scheduler fibre runs only on the thread that it schedules for. -/
theorem Roles.only (hr : s.Roles) {g u : Nat} (hg : (s.thread t).schedulerFibre = some g)
    (hu : (s.thread u).code = some g) : u = t := by
  rcases hr.root t g hg with hmain | ⟨_, honly, _⟩
  · exact hr.mains u t g (hr.home u g hu (hr.main t g hmain).1) hmain
  · exact honly u hu

theorem Roles.main_rests (hr : s.Roles) {m : Nat} (hm : (s.thread t).threadFibre = some m)
    (hne : (s.thread t).code ≠ some m) : s.Resting m := by
  intro u hu
  obtain rfl := hr.mains u t m (hr.home u m hu (hr.main t m hm).1) hm
  exact hne hu

theorem Roles.scheduler_rests (hr : s.Roles) {g : Nat} (hg : (s.thread t).schedulerFibre = some g)
    (hne : (s.thread t).code ≠ some g) : s.Resting g := by
  intro u hu
  obtain rfl := hr.only hg hu
  exact hne hu

/-- A good switch of a whole call, from the state before it to the state after. -/
structure Moved (s : FibreSys) (t c source : Nat) (ends : Bool) (s' : FibreSys) : Prop where
  made : s'.made = s.made
  others : ∀ u, u ≠ t → s'.thread u = s.thread u
  thread : s'.thread t = { s.thread t with fibre := some source, code := some source }
  hasStack : ∀ f, (s'.fibre f).hasStack = (s.fibre f).hasStack
  ctx : ∀ f, f ≠ c → (s'.fibre f).ctx = (s.fibre f).ctx
  ctxLeft : ∃ n, (s'.fibre c).ctx = .place c n
  entered : ∀ f, (s'.progress f).entered = true ↔
    (s.progress f).entered = true ∨ f = source ∧ source ≠ c ∧ ∃ b, (s.fibre f).ctx = .entry b
  caller : ∀ b, source ≠ c → (s.fibre source).ctx = .entry b → (s'.progress source).caller = b
  callerKept : ∀ f, (f = source → source = c ∨ ∀ b, (s.fibre f).ctx ≠ .entry b) →
    (s'.progress f).caller = (s.progress f).caller
  ended : ∀ f, (s'.progress f).ended = true ↔
    (s.progress f).ended = true ∨ ends = true ∧ f = c

theorem Prepared.moved (hp : Prepared s t source ends s₁) (hi : s.Intact)
    (hc : (s.thread t).code = some c) (hsource : source < s.made)
    (h : s₁.swapcontext t c source = some s') : Moved s t c source ends s' := by
  have hl := hp.leaving hi hc
  have hsw := swapcontext_switched hl.code (hp.made ▸ hsource) hl.names h
  exact {
    made := by rw [hsw.made, hp.made]
    others := fun u hu => by rw [hsw.others u hu, hp.others u hu]
    thread := by
      rw [hsw.thread, hp.thread]
      by_cases hself : source = c <;> simp [hself]
    hasStack := fun f => by rw [hsw.hasStack, hp.hasStack]
    ctx := fun f hf => by rw [hsw.ctx, if_neg hf, hp.ctx]
    ctxLeft := ⟨_, by rw [hsw.ctx, if_pos rfl]⟩
    entered := fun f => by rw [hsw.entered, hp.entered, hp.ctx]
    caller := fun b hne hb => hsw.caller b hne (by rw [hp.ctx, hb])
    callerKept := fun f hf => by
      rw [hsw.callerKept f, hp.caller]
      simpa only [hp.ctx] using hf
    ended := fun f => by
      rw [hsw.ended, hp.ended, hc, Option.some.injEq, eq_comm (a := c)] }

theorem Moved.task (hm : Moved s t c source ends s') (f : Nat) : s'.Task f ↔ s.Task f := by
  have hsched : ∀ u, (s'.thread u).schedulerFibre = (s.thread u).schedulerFibre := fun u => by
    by_cases hu : u = t
    · subst hu
      rw [hm.thread]
    · rw [hm.others u hu]
  simp only [Task, hm.hasStack, hsched]

theorem Moved.roles (hm : Moved s t c source ends s') (hi : s.Intact) (hr : s.Roles)
    (hsource : source < s.made) (hgood : s.GoodSwitch t c source ends)
    (hends : ends = true → (s.fibre c).hasStack = true)
    (hhome : (s.fibre source).hasStack = false → (s.thread t).threadFibre = some source)
    (hroot : ∀ u, (s.thread u).schedulerFibre = some source → u = t)
    (hserving : s.Task source → ends = false ∧
      ∀ g, (s.thread t).schedulerFibre = some g →
        (s.progress g).entered = true ∧ (s.progress g).ended = false) :
    s'.Roles := by
  obtain ⟨hc, _, hrest⟩ := hgood
  have hthread : ∀ u, (s'.thread u).threadFibre = (s.thread u).threadFibre := fun u => by
    by_cases hu : u = t
    · subst hu
      rw [hm.thread]
    · rw [hm.others u hu]
  have hsched : ∀ u, (s'.thread u).schedulerFibre = (s.thread u).schedulerFibre := fun u => by
    by_cases hu : u = t
    · subst hu
      rw [hm.thread]
    · rw [hm.others u hu]
  have hcodes : ∀ u f, (s'.thread u).code = some f →
      u = t ∧ f = source ∨ u ≠ t ∧ (s.thread u).code = some f := by
    intro u f hf
    by_cases hu : u = t
    · subst hu
      rw [hm.thread] at hf
      exact Or.inl ⟨rfl, (Option.some.inj hf).symm⟩
    · rw [hm.others u hu] at hf
      exact Or.inr ⟨hu, hf⟩
  have hend : ∀ f, (s.progress f).ended = false → ¬ (ends = true ∧ f = c) →
      (s'.progress f).ended = false := by
    intro f hf hne
    rw [← Bool.not_eq_true, hm.ended, hf]
    rintro (h | h)
    · cases h
    · exact hne h
  refine ⟨?_, ?_, ?_, ?_, ?_, ?_⟩
  · intro u m hu
    rw [hthread] at hu
    obtain ⟨hstack, halive⟩ := hr.main u m hu
    refine ⟨by rw [hm.hasStack, hstack], hend m halive ?_⟩
    rintro ⟨he, rfl⟩
    rw [hends he] at hstack
    cases hstack
  · exact fun u v m hu hv => hr.mains u v m (by rw [← hthread, hu]) (by rw [← hthread, hv])
  · intro u f hu hstack
    rw [hm.hasStack] at hstack
    rw [hthread]
    rcases hcodes u f hu with ⟨rfl, rfl⟩ | ⟨_, hu'⟩
    · exact hhome hstack
    · exact hr.home u f hu' hstack
  · exact fun u v g hu hv => hr.roots u v g (by rw [← hsched, hu]) (by rw [← hsched, hv])
  · intro u g hu
    rw [hsched] at hu
    rw [hthread, hm.hasStack]
    rcases hr.root u g hu with hmain | ⟨hstack, honly, hway⟩
    · exact Or.inl hmain
    · refine Or.inr ⟨hstack, ?_, ?_⟩
      · intro v hv
        rcases hcodes v g hv with ⟨rfl, rfl⟩ | ⟨_, hv'⟩
        · exact (hroot u hu).symm
        · exact honly v hv'
      · -- what is said of the way a root fibre was entered stays true when it is entered
        by_cases hent : (s.progress g).entered = true
        · rw [if_pos hent] at hway
          rw [if_pos ((hm.entered g).mpr (Or.inl hent)), hm.callerKept g, hway]
          rintro rfl
          rcases hrest with ⟨heq, _⟩ | hrest
          · exact Or.inl heq
          · have hown := hi.own g hsource hrest
            rw [Own, if_pos hent] at hown
            exact Or.inr fun b hb => by rw [hown] at hb; cases hb
        · rw [if_neg hent] at hway
          have hgc : g ≠ c := fun heq => hent (heq ▸ hi.entered t c hc)
          by_cases hgs : g = source
          · subst hgs
            rw [if_pos ((hm.entered g).mpr (Or.inr ⟨rfl, hgc, true, hway⟩)),
              hm.caller true hgc hway]
          · rw [if_neg, hm.ctx g hgc, hway]
            rw [hm.entered]
            rintro (h | ⟨h, _⟩)
            · exact hent h
            · exact hgs h
  · intro u f g hu hf hg
    rw [hm.task] at hf
    rw [hsched] at hg
    rcases hcodes u f hu with ⟨rfl, rfl⟩ | ⟨hut, hu'⟩
    · obtain ⟨hno, hserves⟩ := hserving hf
      obtain ⟨hent, halive⟩ := hserves g hg
      refine ⟨(hm.entered g).mpr (Or.inl hent), hend g halive ?_⟩
      rintro ⟨he, _⟩
      rw [hno] at he
      cases he
    · obtain ⟨hent, halive⟩ := hr.serving u f g hu' hf hg
      refine ⟨(hm.entered g).mpr (Or.inl hent), hend g halive ?_⟩
      rintro ⟨_, rfl⟩
      exact hut (hr.only hg hc).symm

/-! What each call keeps of the roles. -/

theorem newMain_roles (hk : s.Known) (hr : s.Roles) (hnone : (s.thread t).code = none) :
    (s.newMain t).Roles := by
  have hfibre : ∀ f, f < s.made → (s.newMain t).fibre f = s.fibre f := fun f hf => by
    simp [newMain, setThread, setProgress, setFibre, Nat.ne_of_lt hf]
  have hprogress : ∀ f, f < s.made → (s.newMain t).progress f = s.progress f := fun f hf => by
    simp [newMain, setThread, setProgress, setFibre, Nat.ne_of_lt hf]
  have hsched : ∀ u, ((s.newMain t).thread u).schedulerFibre = (s.thread u).schedulerFibre :=
    fun u => by
      by_cases hu : u = t
      · subst hu
        simp [newMain, setThread, setProgress, setFibre]
      · simp [newMain, setThread, setProgress, setFibre, hu]
  have hself : (s.newMain t).thread t =
      { s.thread t with fibre := some s.made, threadFibre := some s.made, code := some s.made } := by
    simp [newMain, setThread, hnone]
  have hother : ∀ u, u ≠ t → (s.newMain t).thread u = s.thread u := fun u hu => by
    simp [newMain, setThread, setProgress, setFibre, hu]
  have hfresh : ((s.newMain t).fibre s.made).hasStack = false ∧
      ((s.newMain t).progress s.made).ended = false := by
    simp [newMain, setThread, setProgress, setFibre]
  refine ⟨?_, ?_, ?_, ?_, ?_, ?_⟩
  · intro u m hm
    by_cases hu : u = t
    · subst hu
      rw [hself, Option.some.injEq] at hm
      exact hm ▸ hfresh
    · rw [hother u hu] at hm
      have hlt := hk.threadFibre u m hm
      rw [hfibre m hlt, hprogress m hlt]
      exact hr.main u m hm
  · intro u v m hu' hv'
    by_cases hu : u = t
    · by_cases hv : v = t
      · rw [hu, hv]
      · subst hu
        rw [hself, Option.some.injEq] at hu'
        rw [hother v hv] at hv'
        exact absurd (hk.threadFibre v m hv') (by rw [← hu']; exact Nat.lt_irrefl _)
    · rw [hother u hu] at hu'
      by_cases hv : v = t
      · subst hv
        rw [hself, Option.some.injEq] at hv'
        exact absurd (hk.threadFibre u m hu') (by rw [← hv']; exact Nat.lt_irrefl _)
      · rw [hother v hv] at hv'
        exact hr.mains u v m hu' hv'
  · intro u c hc hstack
    by_cases hu : u = t
    · subst hu
      rw [hself] at hc ⊢
      exact hc
    · rw [hother u hu] at hc ⊢
      rw [hfibre c (hk.code u c hc)] at hstack
      exact hr.home u c hc hstack
  · exact fun u v g hu hv => hr.roots u v g (by rw [← hsched, hu]) (by rw [← hsched, hv])
  · intro u g hg
    rw [hsched] at hg
    have hlt := hk.schedulerFibre u g hg
    rw [hfibre g hlt, hprogress g hlt]
    rcases hr.root u g hg with hmain | ⟨hstack, honly, hway⟩
    · have hu : u ≠ t := by
        rintro rfl
        rw [(hk.main u).mpr hnone] at hmain
        cases hmain
      rw [hother u hu]
      exact Or.inl hmain
    · refine Or.inr ⟨hstack, fun v hv => ?_, hway⟩
      by_cases hvt : v = t
      · subst hvt
        rw [hself, Option.some.injEq] at hv
        omega
      · rw [hother v hvt] at hv
        exact honly v hv
  · intro u c g hc htask hg
    rw [hsched] at hg
    by_cases hu : u = t
    · subst hu
      rw [hself, Option.some.injEq] at hc
      have hno := htask.1
      rw [← hc, hfresh.1] at hno
      cases hno
    · rw [hother u hu] at hc
      rw [hprogress g (hk.schedulerFibre u g hg)]
      refine hr.serving u c g hc ⟨?_, fun v => ?_⟩ hg
      · rw [← hfibre c (hk.code u c hc)]
        exact htask.1
      · rw [← hsched]
        exact htask.2 v

/-- A change of fibres that are no main or scheduler fibres keeps the roles. -/
theorem Roles.of_same (hr : s.Roles) (hthread : s'.thread = s.thread)
    (hstack : ∀ f, f < s.made → (s'.fibre f).hasStack = (s.fibre f).hasStack)
    (hmain : ∀ t m, (s.thread t).threadFibre = some m →
      (s'.progress m).ended = (s.progress m).ended)
    (hsched : ∀ t g, (s.thread t).schedulerFibre = some g →
      s'.progress g = s.progress g ∧ (s'.fibre g).ctx = (s.fibre g).ctx)
    (hk : s.Known) : s'.Roles where
  main := fun t m hm => by
    rw [hthread] at hm
    rw [hstack m (hk.threadFibre t m hm), hmain t m hm]
    exact hr.main t m hm
  mains := by
    rw [hthread]
    exact hr.mains
  home := fun t c hc hs => by
    rw [hthread] at hc ⊢
    rw [hstack c (hk.code t c hc)] at hs
    exact hr.home t c hc hs
  roots := by
    rw [hthread]
    exact hr.roots
  root := fun t g hg => by
    rw [hthread] at hg ⊢
    obtain ⟨hp, hx⟩ := hsched t g hg
    rw [hstack g (hk.schedulerFibre t g hg), hp, hx]
    exact hr.root t g hg
  serving := fun t c g hc htask hg => by
    rw [hthread] at hc hg
    rw [(hsched t g hg).1]
    refine hr.serving t c g hc ⟨?_, fun u => ?_⟩ hg
    · rw [← hstack c (hk.code t c hc)]
      exact htask.1
    · rw [← hthread]
      exact htask.2 u

theorem newFibre_roles (hk : s.Known) (hr : s.Roles) (b : Bool) : (s.newFibre b).Roles := by
  have hfibre : ∀ f, f < s.made → (s.newFibre b).fibre f = s.fibre f := fun f hf => by
    simp [newFibre, setProgress, setFibre, Nat.ne_of_lt hf]
  have hprogress : ∀ f, f < s.made → (s.newFibre b).progress f = s.progress f := fun f hf => by
    simp [newFibre, setProgress, setFibre, Nat.ne_of_lt hf]
  exact hr.of_same rfl (fun f hf => by rw [hfibre f hf])
    (fun t m hm => by rw [hprogress m (hk.threadFibre t m hm)])
    (fun t g hg => ⟨hprogress g (hk.schedulerFibre t g hg),
      by rw [hfibre g (hk.schedulerFibre t g hg)]⟩) hk

theorem setState_roles (hk : s.Known) (hr : s.Roles) (f : Nat) (st : State) :
    (s.setState f st).Roles := by
  have hsame : ∀ g, ((s.setState f st).fibre g).hasStack = (s.fibre g).hasStack ∧
      ((s.setState f st).fibre g).ctx = (s.fibre g).ctx := fun g => by
    by_cases hg : g = f <;> simp [setState, setFibre, Function.update, hg]
  exact hr.of_same rfl (fun g _ => (hsame g).1) (fun _ _ _ => rfl)
    (fun _ g _ => ⟨rfl, (hsame g).2⟩) hk

theorem reset_roles {f : Nat} (hk : s.Known) (hr : s.Roles) (hf : s.Task f)
    (h : s.reset f = some s') : s'.Roles := by
  obtain ⟨-, rfl⟩ := reset_eq_some_iff.mp h
  refine hr.of_same rfl ?_ ?_ ?_ hk
  · intro g _
    by_cases hg : g = f <;> simp [setProgress, setFibre, Function.update, hg]
  · intro t m hm
    have hne : m ≠ f := by
      rintro rfl
      rw [Task, (hr.main t m hm).1] at hf
      cases hf.1
    simp [setProgress, setFibre, hne]
  · intro t g hg
    have hne : g ≠ f := fun heq => hf.2 t (heq ▸ hg)
    simp [setProgress, setFibre, hne]

theorem setScheduler_roles {f : Nat} (hi : s.Intact) (hr : s.Roles)
    (hp : s.Protocol (.setScheduler t f)) :
    (s.setThread t { s.thread t with schedulerFibre := some f }).Roles := by
  obtain ⟨hnone, hatmain, hf⟩ := hp
  have hself : (s.setThread t { s.thread t with schedulerFibre := some f }).thread t =
      { s.thread t with schedulerFibre := some f } := by
    simp [setThread]
  have hother : ∀ u, u ≠ t →
      (s.setThread t { s.thread t with schedulerFibre := some f }).thread u = s.thread u :=
    fun u hu => by simp [setThread, hu]
  have hcode : ∀ u, ((s.setThread t { s.thread t with schedulerFibre := some f }).thread u).code =
      (s.thread u).code := fun u => by
    by_cases hu : u = t
    · rw [hu, hself]
    · rw [hother u hu]
  have hthread : ∀ u, ((s.setThread t { s.thread t with schedulerFibre := some f }).thread
      u).threadFibre = (s.thread u).threadFibre := fun u => by
    by_cases hu : u = t
    · rw [hu, hself]
    · rw [hother u hu]
  -- nobody schedules on the fibre yet
  have hfree : ∀ u, (s.thread u).schedulerFibre ≠ some f := by
    intro u hu
    rcases hf with hmain | ⟨htask, _⟩
    · rcases hr.root u f hu with hmain' | ⟨hstack, _⟩
      · obtain rfl := hr.mains t u f hmain hmain'
        rw [hnone] at hu
        cases hu
      · rw [(hr.main t f hmain).1] at hstack
        cases hstack
    · exact htask.2 u hu
  refine ⟨?_, ?_, ?_, ?_, ?_, ?_⟩
  · exact fun u m hm => hr.main u m (by rw [← hthread, hm])
  · exact fun u v m hu hv => hr.mains u v m (by rw [← hthread, hu]) (by rw [← hthread, hv])
  · intro u c hc hstack
    rw [hthread]
    exact hr.home u c (by rw [← hcode, hc]) hstack
  · intro u v g hu' hv'
    by_cases hu : u = t
    · by_cases hv : v = t
      · rw [hu, hv]
      · rw [hu, hself, Option.some.injEq] at hu'
        rw [hother v hv, ← hu'] at hv'
        exact absurd hv' (hfree v)
    · rw [hother u hu] at hu'
      by_cases hv : v = t
      · rw [hv, hself, Option.some.injEq] at hv'
        rw [← hv'] at hu'
        exact absurd hu' (hfree u)
      · rw [hother v hv] at hv'
        exact hr.roots u v g hu' hv'
  · intro u g hg
    simp only [hthread, hcode]
    by_cases hu : u = t
    · subst hu
      rw [hself, Option.some.injEq] at hg
      subst hg
      rcases hf with hmain | ⟨htask, hent, hctx⟩
      · exact Or.inl hmain
      · refine Or.inr ⟨htask.1, fun v hv => ?_, ?_⟩
        · have hrun := hi.entered v f hv
          rw [hent] at hrun
          cases hrun
        · show if (s.progress f).entered = true then _ else (s.fibre f).ctx = .entry true
          rw [if_neg (by simp [hent]), hctx]
    · rw [hother u hu] at hg
      exact hr.root u g hg
  · intro u c g hc htask hg
    have htask' : s.Task c := by
      refine ⟨htask.1, fun v hv => ?_⟩
      by_cases hvt : v = t
      · rw [hvt, hnone] at hv
        cases hv
      · exact htask.2 v (by rw [hother v hvt, hv])
    rw [hcode] at hc
    by_cases hu : u = t
    · subst hu
      -- the thread is at its main fibre, which is no task
      have hno := htask'.1
      rw [(hr.main u c (by rw [← hatmain, hc])).1] at hno
      cases hno
    · rw [hother u hu] at hg
      exact hr.serving u c g hc htask' hg

theorem swapIn_protocol {f : Nat} (hi : s.Intact) (hr : s.Roles)
    (hf : f < s.made) (hp : s.Protocol (.swapIn t f)) (h : s.swapIn t f = some s') :
    s.Proper (.swapIn t f) ∧ s'.Roles := by
  obtain ⟨hcode, htask, hrest, halive⟩ := hp
  rw [swapIn] at h
  cases hg : (s.thread t).schedulerFibre with
  | none =>
      rw [hg] at h
      cases h
  | some g =>
      rw [hg] at hcode
      simp only [hg, Option.ite_none_left_eq_some] at h
      have hgood : s.GoodSwitch t g f false := ⟨hcode, halive, Or.inr hrest⟩
      have hm := (prepared_setState s t f .exec f).moved hi hcode hf h.2
      refine ⟨fun g' hg' => Option.some.inj (hg.symm.trans hg') ▸ hgood, ?_⟩
      refine hm.roles hi hr hf hgood (fun he => absurd he Bool.false_ne_true) ?_ ?_ ?_
      · intro hno
        rw [htask.1] at hno
        cases hno
      · exact fun u hu => absurd hu (htask.2 u)
      · refine fun _ => ⟨rfl, fun g' hg' => ?_⟩
        obtain rfl := Option.some.inj (hg.symm.trans hg')
        exact ⟨hi.entered t g hcode, hi.alive t g hcode⟩

theorem call_protocol {f : Nat} (hi : s.Intact) (hr : s.Roles)
    (hf : f < s.made) (hp : s.Protocol (.call t f)) (h : s.call t f = some s') :
    s.Proper (.call t f) ∧ s'.Roles := by
  obtain ⟨hcode, hsched, hne, halive⟩ := hp
  rw [call] at h
  cases hg : (s.thread t).threadFibre with
  | none =>
      rw [hg] at h
      cases h
  | some g =>
      rw [hg] at hcode
      simp only [hg] at h
      have hgood : s.GoodSwitch t g f false :=
        ⟨hcode, halive, Or.inr (hr.scheduler_rests hsched hne)⟩
      have hm := (prepared_setState s t f .exec f).moved hi hcode hf h
      refine ⟨fun g' hg' => Option.some.inj (hg.symm.trans hg') ▸ hgood, ?_⟩
      refine hm.roles hi hr hf hgood (fun he => absurd he Bool.false_ne_true) ?_ ?_ ?_
      · intro hno
        rcases hr.root t f hsched with hmain | ⟨hstack, _⟩
        · exact hmain
        · rw [hstack] at hno
          cases hno
      · exact fun u hu => hr.roots u t f hu hsched
      · exact fun htask => absurd hsched (htask.2 t)

/-- A task goes back to the fibre that scheduled it. -/
theorem swapOut_moves {g : Nat} (hi : s.Intact) (hr : s.Roles) (hc : (s.thread t).code = some c)
    (htask : s.Task c) (hg : (s.thread t).schedulerFibre = some g) (hgm : g < s.made)
    (hp : Prepared s t g ends s₁) (h : s₁.swapcontext t c g = some s') :
    s.GoodSwitch t c g ends ∧ s'.Roles := by
  have hne : (s.thread t).code ≠ some g := by
    rintro heq
    rw [hc, Option.some.injEq] at heq
    exact htask.2 t (heq ▸ hg)
  have hgood : s.GoodSwitch t c g ends :=
    ⟨hc, (hr.serving t c g hc htask hg).2, Or.inr (hr.scheduler_rests hg hne)⟩
  refine ⟨hgood, (hp.moved hi hc hgm h).roles hi hr hgm hgood (fun _ => htask.1) ?_ ?_ ?_⟩
  · intro hno
    rcases hr.root t g hg with hmain | ⟨hstack, _⟩
    · exact hmain
    · rw [hstack] at hno
      cases hno
  · exact fun u hu => hr.roots u t g hu hg
  · exact fun hno => absurd hg (hno.2 t)

/-- A fibre with a stack goes back to the main fibre of its thread. -/
theorem back_moves {g : Nat} (hi : s.Intact) (hr : s.Roles) (hc : (s.thread t).code = some c)
    (hstack : (s.fibre c).hasStack = true) (hg : (s.thread t).threadFibre = some g)
    (hgm : g < s.made) (hp : Prepared s t g ends s₁) (h : s₁.swapcontext t c g = some s') :
    s.GoodSwitch t c g ends ∧ s'.Roles := by
  obtain ⟨hmain, halive⟩ := hr.main t g hg
  have hne : (s.thread t).code ≠ some g := by
    rintro heq
    rw [hc, Option.some.injEq] at heq
    rw [heq, hmain] at hstack
    cases hstack
  have hgood : s.GoodSwitch t c g ends := ⟨hc, halive, Or.inr (hr.main_rests hg hne)⟩
  refine ⟨hgood, (hp.moved hi hc hgm h).roles hi hr hgm hgood (fun _ => hstack) ?_ ?_ ?_⟩
  · exact fun _ => hg
  · intro u hu
    rcases hr.root u g hu with hmain' | ⟨hyes, _⟩
    · exact hr.mains u t g hmain' hg
    · rw [hmain] at hyes
      cases hyes
  · intro hno
    rw [Task, hmain] at hno
    cases hno.1

theorem swapOut_protocol {f : Nat} (hi : s.Intact) (hk : s.Known) (hr : s.Roles)
    (hp : s.Protocol (.swapOut t f)) (h : s.swapOut t f = some s') :
    s.Proper (.swapOut t f) ∧ s'.Roles := by
  obtain ⟨hc, htask⟩ := hp
  rw [swapOut] at h
  cases hg : (s.thread t).schedulerFibre with
  | none =>
      rw [hg] at h
      cases h
  | some g =>
      simp only [hg] at h
      obtain ⟨hgood, hroles⟩ :=
        swapOut_moves hi hr hc htask hg (hk.schedulerFibre t g hg) (prepared_setThis s t g) h
      exact ⟨fun g' hg' => Option.some.inj (hg.symm.trans hg') ▸ hgood, hroles⟩

theorem yieldTo_protocol {ready : Bool} (hi : s.Intact) (hk : s.Known) (hr : s.Roles)
    (hp : s.Protocol (.yield t ready)) (h : s.yieldTo t ready = some s') :
    s.Proper (.yield t ready) ∧ s'.Roles := by
  obtain ⟨c, hc, htask⟩ := hp
  have hthis : s.getThis t = (s, c) := by
    rw [getThis, hi.this, hc]
  simp only [yieldTo, hthis, Option.ite_none_right_eq_some] at h
  obtain ⟨-, h⟩ := h
  rw [swapOut, setState, setFibre] at h
  cases hg : (s.thread t).schedulerFibre with
  | none =>
      simp only [hg] at h
      cases h
  | some g =>
      simp only [hg] at h
      obtain ⟨hgood, hroles⟩ := swapOut_moves hi hr hc htask hg (hk.schedulerFibre t g hg)
        (prepared_state s t g (if ready then .ready else .hold) c) h
      refine ⟨fun g' hg' => ?_, hroles⟩
      obtain rfl := Option.some.inj (hg.symm.trans hg')
      rw [hthis]
      exact hgood

theorem finish_protocol {except : Bool} (hi : s.Intact) (hk : s.Known) (hr : s.Roles)
    (hp : s.Protocol (.finish t except)) (h : s.finish t except = some s') :
    s.Proper (.finish t except) ∧ s'.Roles := by
  obtain ⟨c, hc, hrole⟩ := hp
  simp only [finish, hc, Option.ite_none_right_eq_some] at h
  obtain ⟨hstack, h⟩ := h
  have hprep := fun g => prepared_finish s t g
    (if except then .except else .term) hc
  cases hcaller : (s.progress c).caller with
  | true =>
      rw [if_pos (by simpa [setProgress] using hcaller), back] at h
      cases hg : (s.thread t).threadFibre with
      | none =>
          simp only [setProgress, setState, setFibre, hg] at h
          cases h
      | some g =>
          simp only [setProgress, setState, setFibre, hg] at h
          rw [proper_finish_iff hc (by rw [if_pos hcaller, hg])]
          exact back_moves hi hr hc hstack hg (hk.threadFibre t g hg) (hprep g) h
  | false =>
      rw [if_neg (by simpa [setProgress] using hcaller), swapOut] at h
      cases hg : (s.thread t).schedulerFibre with
      | none =>
          simp only [setProgress, setState, setFibre, hg] at h
          cases h
      | some g =>
          simp only [setProgress, setState, setFibre, hg] at h
          rw [proper_finish_iff hc (by rw [if_neg (by simp [hcaller]), hg])]
          refine swapOut_moves hi hr hc ?_ hg (hk.schedulerFibre t g hg) (hprep g) h
          -- a root fibre that ends was entered by `CallerMainFunc`
          rcases hrole with htask | hself
          · exact htask
          · rcases hr.root t c hself with hmain | ⟨_, _, hway⟩
            · rw [(hr.main t c hmain).1] at hstack
              cases hstack
            · rw [if_pos (hi.entered t c hc), hcaller] at hway
              cases hway

theorem step_protocol {a : FibreCall} (hi : s.Intact) (hk : s.Known) (hr : s.Roles)
    (hp : s.Protocol a) (h : s.step a = some s') : s.Proper a ∧ s'.Roles := by
  cases a with
  | getThis t =>
      obtain rfl := Option.some.inj h
      refine ⟨trivial, ?_⟩
      rw [getThis]
      cases ht : (s.thread t).fibre with
      | some f => exact hr
      | none => exact newMain_roles hk hr (by rw [← hi.this, ht])
  | createMainFibre t =>
      obtain rfl := Option.some.inj h
      refine ⟨trivial, ?_⟩
      rw [createMainFibre]
      cases hm : (s.thread t).threadFibre with
      | some m => exact hr
      | none => exact newMain_roles hk hr ((hk.main t).mp hm)
  | newFibre useCaller =>
      obtain rfl := Option.some.inj h
      exact ⟨trivial, newFibre_roles hk hr useCaller⟩
  | setScheduler t f =>
      simp only [step, Option.ite_none_right_eq_some, Option.some.injEq] at h
      obtain ⟨-, rfl⟩ := h
      exact ⟨trivial, setScheduler_roles hi hr hp⟩
  | reset f =>
      simp only [step, Option.ite_none_right_eq_some] at h
      exact ⟨hp.2, reset_roles hk hr hp.1 h.2⟩
  | setHold f =>
      simp only [step, Option.ite_none_right_eq_some, Option.some.injEq] at h
      obtain ⟨-, rfl⟩ := h
      exact ⟨trivial, setState_roles hk hr f .hold⟩
  | swapIn t f =>
      simp only [step, Option.ite_none_right_eq_some] at h
      exact swapIn_protocol hi hr h.1 hp h.2
  | swapOut t f =>
      simp only [step, Option.ite_none_right_eq_some] at h
      exact swapOut_protocol hi hk hr hp h.2
  | call t f =>
      simp only [step, Option.ite_none_right_eq_some] at h
      exact call_protocol hi hr h.1 hp h.2
  | back t f => exact hp.elim
  | yield t ready => exact yieldTo_protocol hi hk hr hp h
  | finish t except => exact finish_protocol hi hk hr hp h

end Protocol

theorem start_roles : start.Roles := by
  refine ⟨?_, ?_, ?_, ?_, ?_, ?_⟩
  · intro _ _ h
    cases h
  · intro _ _ _ h
    cases h
  · intro _ _ h
    cases h
  · intro _ _ _ h
    cases h
  · intro _ _ h
    cases h
  · intro _ _ _ h
    cases h

theorem protocol_invariant {s : FibreSys} (h : machine.Reachable Protocol s) :
    s.Intact ∧ s.Known ∧ s.Roles := by
  refine h.invariant (fun s => s.Intact ∧ s.Known ∧ s.Roles) ?_ ?_
  · rintro s rfl
    exact ⟨start_intact, start_known, start_roles⟩
  · rintro s a s' ⟨hi, hk, hr⟩ hp hs
    obtain ⟨hproper, hroles⟩ := step_protocol hi hk hr hp hs
    obtain ⟨hiff, hknown⟩ := step_intact_iff hi hk hs
    exact ⟨hiff.mpr hproper, hknown, hroles⟩

/-- **The scheduler's calls keep the contexts intact**: on every thread `t_fibre` is the fibre
whose code runs, and every other fibre goes on where it was left.  While a task runs, the
fibre that scheduled it waits where it swapped the task in. -/
theorem protocol_intact {s : FibreSys} (h : machine.Reachable Protocol s) :
    s.Intact ∧ ∀ t c g, (s.thread t).code = some c → s.Task c →
      (s.thread t).schedulerFibre = some g →
        s.Resting g ∧ (s.progress g).ended = false ∧
          (s.fibre g).ctx = .place g (s.progress g).left := by
  obtain ⟨hi, hk, hr⟩ := protocol_invariant h
  refine ⟨hi, fun t c g hc htask hg => ?_⟩
  obtain ⟨hent, halive⟩ := hr.serving t c g hc htask hg
  have hrest : s.Resting g := by
    refine hr.scheduler_rests hg fun hg' => ?_
    rw [hc, Option.some.injEq] at hg'
    exact htask.2 t (hg' ▸ hg)
  have hown := hi.own g (hk.schedulerFibre t g hg) hrest
  rw [Own, if_pos hent] at hown
  exact ⟨hrest, halive, hown⟩

/-- A worker that makes a fibre and swaps it in. -/
def workerRun : List FibreCall :=
  [.getThis 0, .setScheduler 0 0, .newFibre false, .swapIn 0 1]

theorem workerRun_intact : ∃ s, machine.exec start workerRun = some s ∧ s.Intact ∧
    (s.thread 0).code = some 1 ∧ (s.fibre 0).ctx = .place 0 1 := by
  refine ⟨_, rfl, ?_, rfl, rfl⟩
  refine (protocol_intact ((((System.Reachable.step (a := .getThis 0) ⟨start, rfl, .refl⟩ trivial
    rfl).step (a := .setScheduler 0 0) ⟨rfl, rfl, Or.inl rfl⟩ rfl).step (a := .newFibre false)
      trivial rfl).step (a := .swapIn 0 1) ⟨rfl, ⟨rfl, fun t ht => ?_⟩, fun t ht => ?_, rfl⟩
        rfl)).1
  -- only thread `0` runs code or has a scheduler fibre, and that is fibre `0`
  all_goals
    by_cases h0 : t = 0
    · subst h0
      revert ht
      decide
    · simp [newFibre, getThis, start, newMain, setThread, setProgress, setFibre, h0] at ht

/-! ## What the calls come to -/

section Calls

variable {s s' : FibreSys} {t c f g : Nat}

theorem Own.ctx_ne (h : s.Own f) : (s.fibre f).ctx ≠ .constructor := by
  rw [Own] at h
  split at h
  · rw [h]
    simp
  · obtain ⟨caller, hcaller⟩ := h
    rw [hcaller]
    simp

theorem swapcontext_possible (target : Nat) {source : Nat} (hc : (s.thread t).code = some c)
    (hctx : (s.fibre source).ctx ≠ .constructor) :
    ∃ s', s.swapcontext t target source = some s' := by
  rw [swapcontext, hc]
  simp only [load]
  by_cases hself : source = target
  · subst hself
    simp [save, setCtx, setFibre]
  · have hsame : ((s.save c target).fibre source).ctx = (s.fibre source).ctx := by
      simp [save, setCtx, setFibre, setProgress, hself]
    rw [hsame]
    cases hload : (s.fibre source).ctx with
    | constructor => exact absurd hload hctx
    | entry caller => exact ⟨_, rfl⟩
    | place d n => exact ⟨_, rfl⟩

/-- A prepared switch to a fibre that rests is possible. -/
theorem Prepared.possible {s₁ : FibreSys} {ends : Bool} (hp : Prepared s t g ends s₁)
    (hi : s.Intact) (hc : (s.thread t).code = some c) (hg : g < s.made) (hrest : s.Resting g) :
    ∃ s', s₁.swapcontext t c g = some s' ∧ Moved s t c g ends s' ∧
      ∀ h, (s'.fibre h).state = (s₁.fibre h).state := by
  obtain ⟨s', hs'⟩ := swapcontext_possible c (by rw [hp.code, hc])
    (by rw [hp.ctx]; exact (hi.own g hg hrest).ctx_ne)
  have hsw := swapcontext_switched (by rw [hp.code, hc]) (hp.made ▸ hg)
    (hp.leaving hi hc).names hs'
  exact ⟨s', hs', hp.moved hi hc hg hs', hsw.state⟩

theorem swapIn_possible (hi : s.Intact) (hf : f < s.made)
    (hg : (s.thread t).schedulerFibre = some g) (hp : s.Protocol (.swapIn t f))
    (hstate : (s.fibre f).state ≠ .exec) :
    ∃ s', s.step (.swapIn t f) = some s' ∧ Moved s t g f false s' ∧
      ∀ h, (s'.fibre h).state = if h = f then .exec else (s.fibre h).state := by
  obtain ⟨hcode, _, hrest, _⟩ := hp
  rw [hg] at hcode
  obtain ⟨s', hs', hm, hst⟩ :=
    (prepared_setState s t f .exec f).possible hi hcode hf hrest
  refine ⟨s', ?_, hm, fun h => ?_⟩
  · rw [step, if_pos hf, swapIn, hg]
    simp only [if_neg hstate]
    exact hs'
  · rw [hst]
    by_cases hh : h = f <;> simp [setState, setFibre, setThis, setThread, Function.update, hh]

theorem call_possible {m : Nat} (hi : s.Intact) (hr : s.Roles) (hf : f < s.made)
    (hm : (s.thread t).threadFibre = some m) (hp : s.Protocol (.call t f)) :
    ∃ s', s.step (.call t f) = some s' ∧ Moved s t m f false s' ∧
      ∀ h, (s'.fibre h).state = if h = f then .exec else (s.fibre h).state := by
  obtain ⟨hcode, hsched, hne, _⟩ := hp
  rw [hm] at hcode
  obtain ⟨s', hs', hmoved, hst⟩ := (prepared_setState s t f .exec f).possible hi
    hcode hf (hr.scheduler_rests hsched hne)
  refine ⟨s', ?_, hmoved, fun h => ?_⟩
  · rw [step, if_pos hf, call, hm]
    exact hs'
  · rw [hst]
    by_cases hh : h = f <;> simp [setState, setFibre, setThis, setThread, Function.update, hh]

/-- How a task leaves its thread with a state: it yields, it ends, or it swaps itself out as it
is. -/
def leaveCall (t c : Nat) : State → FibreCall
  | .hold => .yield t false
  | .ready => .yield t true
  | .term => .finish t false
  | .except => .finish t true
  | .init | .exec => .swapOut t c

theorem leave_possible (hi : s.Intact) (hk : s.Known) (hr : s.Roles) (st : State)
    (hst : st ≠ .init) (hc : (s.thread t).code = some c) (htask : s.Task c)
    (hg : (s.thread t).schedulerFibre = some g) (hstate : (s.fibre c).state = .exec)
    (hplain : (s.progress c).caller = false) :
    s.Protocol (leaveCall t c st) ∧ ∃ s', s.step (leaveCall t c st) = some s' ∧
      Moved s t c g (decide (st = .term ∨ st = .except)) s' ∧
      ∀ h, (s'.fibre h).state = if h = c then st else (s.fibre h).state := by
  have hgm := hk.schedulerFibre t g hg
  have hrest : s.Resting g := by
    refine hr.scheduler_rests hg fun hg' => ?_
    rw [hc, Option.some.injEq] at hg'
    exact htask.2 t (hg' ▸ hg)
  have hthis : s.getThis t = (s, c) := by
    rw [getThis, hi.this, hc]
  have hupdate : ∀ st' h, (((s.setState c st').setThis t g).fibre h).state =
      if h = c then st' else (s.fibre h).state := fun st' h => by
    by_cases hh : h = c <;> simp [setState, setFibre, setThis, setThread, Function.update, hh]
  have hmark : ∀ st' h, ((((s.setState c st').setProgress c
      { s.progress c with ended := true }).setThis t g).fibre h).state =
      if h = c then st' else (s.fibre h).state := fun st' h => by
    by_cases hh : h = c <;>
      simp [setState, setFibre, setThis, setThread, setProgress, Function.update, hh]
  have hyield : ∀ ready, ∃ s', s.step (.yield t ready) = some s' ∧ Moved s t c g false s' ∧
      ∀ h, (s'.fibre h).state =
        if h = c then (if ready then .ready else .hold) else (s.fibre h).state := by
    intro ready
    obtain ⟨s', hs', hm, hsame⟩ := (prepared_state s t g
      (if ready then .ready else .hold) c).possible hi hc hgm hrest
    refine ⟨s', ?_, hm, fun h => by rw [hsame, hupdate]⟩
    simp only [step, yieldTo, hthis, if_pos hstate]
    rw [swapOut]
    simp only [setState, setFibre, hg]
    exact hs'
  have hfinish : ∀ except, ∃ s', s.step (.finish t except) = some s' ∧ Moved s t c g true s' ∧
      ∀ h, (s'.fibre h).state =
        if h = c then (if except then .except else .term) else (s.fibre h).state := by
    intro except
    obtain ⟨s', hs', hm, hsame⟩ := (prepared_finish s t g
      (if except then .except else .term) hc).possible hi hc hgm hrest
    refine ⟨s', ?_, hm, fun h => by rw [hsame, hmark]⟩
    simp only [step, finish, hc, if_pos htask.1]
    rw [if_neg (by simp [setProgress, hplain]), swapOut]
    simp only [setState, setFibre, setProgress, hg]
    exact hs'
  cases st with
  | hold => exact ⟨⟨c, hc, htask⟩, hyield false⟩
  | ready => exact ⟨⟨c, hc, htask⟩, hyield true⟩
  | term => exact ⟨⟨c, hc, Or.inl htask⟩, hfinish false⟩
  | except => exact ⟨⟨c, hc, Or.inl htask⟩, hfinish true⟩
  | init => exact absurd rfl hst
  | exec =>
      obtain ⟨s', hs', hm, hsame⟩ := (prepared_setThis s t g).possible
        hi hc hgm hrest
      refine ⟨⟨hc, htask⟩, s', ?_, hm, fun h => ?_⟩
      · rw [leaveCall, step, if_pos (hk.code t c hc), swapOut, hg]
        exact hs'
      · rw [hsame]
        by_cases hh : h = c <;> simp [setThis, setThread, hh, hstate]

/-- A root fibre ends, and its thread goes back to the main fibre. -/
theorem exit_possible (hi : s.Intact) (hk : s.Known) (hr : s.Roles)
    (hc : (s.thread t).code = some c) (hg : (s.thread t).schedulerFibre = some c)
    (hstack : (s.fibre c).hasStack = true) :
    s.Protocol (.finish t false) ∧ ∃ s' m, s.step (.finish t false) = some s' ∧
      (s.thread t).threadFibre = some m ∧ Moved s t c m true s' ∧
      ∀ h, h ≠ c → (s'.fibre h).state = (s.fibre h).state := by
  refine ⟨⟨c, hc, Or.inr hg⟩, ?_⟩
  have hcaller : (s.progress c).caller = true := by
    rcases hr.root t c hg with hmain | ⟨_, _, hway⟩
    · rw [(hr.main t c hmain).1] at hstack
      cases hstack
    · rwa [if_pos (hi.entered t c hc)] at hway
  cases hm : (s.thread t).threadFibre with
  | none =>
      rw [(hk.main t).mp hm] at hc
      cases hc
  | some m =>
      have hne : (s.thread t).code ≠ some m := by
        rintro heq
        rw [hc, Option.some.injEq] at heq
        rw [heq, (hr.main t m hm).1] at hstack
        cases hstack
      obtain ⟨s', hs', hmoved, hsame⟩ := (prepared_finish s t m .term hc).possible hi hc
        (hk.threadFibre t m hm) (hr.main_rests hm hne)
      refine ⟨s', m, ?_, rfl, hmoved, fun h hh => ?_⟩
      · simp only [step, finish, hc, if_pos hstack]
        rw [if_pos (by simpa [setProgress] using hcaller), back]
        simp only [setState, setFibre, setProgress, hm]
        exact hs'
      · rw [hsame]
        simp [setState, setFibre, setThis, setThread, setProgress, hh]

end Calls

end FibreSys
end Concurrency
end Hpgs
