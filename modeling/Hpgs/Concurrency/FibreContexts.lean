import Hpgs.Concurrency.IOManager
import Hpgs.Library.Transition

/-!
# The contexts of fibres

The functions of `Fibre` that switch between fibres, on any number of threads, down to
`swapcontext`: what is saved into which `m_ctx`, what is loaded from which, and what the
thread-local pointers say.  A context that was saved is the place at which the code of some
fibre was left; a place is good only until the code goes on.

**Results.**
* `switch_intact`, `switch_broken`: one `swapcontext`.
* `contexts_intact_iff`: every fibre goes on where it was left, and `t_fibre` is the fibre
  whose code runs, as long as every switch saves into the context of the running fibre and
  loads one that runs nowhere and has not ended.
-/

namespace Hpgs
namespace Concurrency

open Transition

/-! ## Definitions -/

/-- What `m_ctx` holds: what `getcontext` saved in the constructor of a main fibre, what
`makecontext` prepared, or the place at which the code of a fibre was left for the `n`-th
time. -/
inductive Context
  | constructor
  | entry (caller : Bool)
  | place (code n : Nat)
deriving DecidableEq, Repr

/-- `Fibre`, without its number and its callback.  A main fibre has no stack of its own. -/
structure Fibre where
  state : State
  hasStack : Bool
  ctx : Context
deriving DecidableEq

/-- `t_fibre`, `t_threadFibre` and `t_scheduler_fibre`.  `code` is the fibre whose code the
thread runs: no code reads it. -/
structure ThreadLocals where
  fibre : Option Nat
  threadFibre : Option Nat
  schedulerFibre : Option Nat
  code : Option Nat
deriving DecidableEq

/-- What is known of the code of a fibre, and read by no code: how often it was left, if it
has been entered since its context was made, if by `CallerMainFunc`, and if it has ended. -/
structure Progress where
  left : Nat
  entered : Bool
  caller : Bool
  ended : Bool
deriving DecidableEq

/-- All fibres ever made, and the threads. -/
structure FibreSys where
  fibre : Nat → Fibre
  progress : Nat → Progress
  made : Nat
  thread : Nat → ThreadLocals

/-- The calls, each with the thread that makes it.  `yield` is `YieldToReady` or
`YieldToHold`, and `finish` the end of `MainFunc` or `CallerMainFunc`. -/
inductive FibreCall
  | getThis (t : Nat)
  | createMainFibre (t : Nat)
  | newFibre (useCaller : Bool)
  | setScheduler (t f : Nat)
  | reset (f : Nat)
  | setHold (f : Nat)
  | swapIn (t f : Nat)
  | swapOut (t f : Nat)
  | call (t f : Nat)
  | back (t f : Nat)
  | yield (t : Nat) (ready : Bool)
  | finish (t : Nat) (except : Bool)
deriving DecidableEq, Repr

namespace FibreSys

def setFibre (s : FibreSys) (f : Nat) (x : Fibre) : FibreSys :=
  { s with fibre := Function.update s.fibre f x }

def setState (s : FibreSys) (f : Nat) (st : State) : FibreSys :=
  s.setFibre f { s.fibre f with state := st }

def setCtx (s : FibreSys) (f : Nat) (ctx : Context) : FibreSys :=
  s.setFibre f { s.fibre f with ctx := ctx }

def setProgress (s : FibreSys) (f : Nat) (p : Progress) : FibreSys :=
  { s with progress := Function.update s.progress f p }

def setThread (s : FibreSys) (t : Nat) (x : ThreadLocals) : FibreSys :=
  { s with thread := Function.update s.thread t x }

/-- `SetThis`. -/
def setThis (s : FibreSys) (t f : Nat) : FibreSys :=
  s.setThread t { s.thread t with fibre := some f }

/-- The thread goes on with the code of the fibre. -/
def run (s : FibreSys) (t f : Nat) : FibreSys :=
  s.setThread t { s.thread t with code := some f }

/-- The first half of `swapcontext`, on the code `c`. -/
def save (s : FibreSys) (c target : Nat) : FibreSys :=
  let p := s.progress c
  (s.setProgress c { p with left := p.left + 1 }).setCtx target (.place c (p.left + 1))

/-- The second half of `swapcontext`.  What the constructor of a main fibre saved cannot be
gone back to, since the constructor has returned. -/
def load (s : FibreSys) (t source : Nat) : Option FibreSys :=
  match (s.fibre source).ctx with
  | .constructor => none
  | .entry caller =>
      some ((s.setProgress source
        { s.progress source with entered := true, caller := caller }).run t source)
  | .place c _ => some (s.run t c)

/-- `swapcontext(&target->m_ctx, &source->m_ctx)`. -/
def swapcontext (s : FibreSys) (t target source : Nat) : Option FibreSys :=
  match (s.thread t).code with
  | none => none
  | some c => (s.save c target).load t source

/-- The constructor of a main fibre. -/
def newMain (s : FibreSys) (t : Nat) : FibreSys :=
  let f := s.made
  { ((s.setFibre f { state := .exec, hasStack := false, ctx := .constructor }).setProgress f
      { left := 0, entered := true, caller := false, ended := false }).setThread t
        { s.thread t with
          fibre := some f
          threadFibre := some f
          -- the fibre stands for the code that the thread runs already
          code := some ((s.thread t).code.getD f) } with
    made := f + 1 }

/-- `GetThis`. -/
def getThis (s : FibreSys) (t : Nat) : FibreSys × Nat :=
  match (s.thread t).fibre with
  | some f => (s, f)
  | none => (s.newMain t, s.made)

def createMainFibre (s : FibreSys) (t : Nat) : FibreSys :=
  match (s.thread t).threadFibre with
  | some _ => s
  | none => s.newMain t

/-- The constructor of a fibre with a callback. -/
def newFibre (s : FibreSys) (useCaller : Bool) : FibreSys :=
  let f := s.made
  { (s.setFibre f { state := .init, hasStack := true, ctx := .entry useCaller }).setProgress f
      { left := 0, entered := false, caller := false, ended := false } with
    made := f + 1 }

/-- `reset`, which asserts that the fibre ended or never ran. -/
def reset (s : FibreSys) (f : Nat) : Option FibreSys :=
  let x := s.fibre f
  if x.hasStack ∧ (x.state = .term ∨ x.state = .except ∨ x.state = .init) then
    some ((s.setFibre f { x with state := .init, ctx := .entry false }).setProgress f
      { s.progress f with entered := false, ended := false })
  else none

/-- `swapIn`; without a scheduler there is no fibre to save into. -/
def swapIn (s : FibreSys) (t f : Nat) : Option FibreSys :=
  match (s.thread t).schedulerFibre with
  | none => none
  | some g =>
      if (s.fibre f).state = .exec then none
      else ((s.setThis t f).setState f .exec).swapcontext t g f

def swapOut (s : FibreSys) (t f : Nat) : Option FibreSys :=
  match (s.thread t).schedulerFibre with
  | none => none
  | some g => (s.setThis t g).swapcontext t f g

def call (s : FibreSys) (t f : Nat) : Option FibreSys :=
  match (s.thread t).threadFibre with
  | none => none
  | some g => ((s.setThis t f).setState f .exec).swapcontext t g f

def back (s : FibreSys) (t f : Nat) : Option FibreSys :=
  match (s.thread t).threadFibre with
  | none => none
  | some g => (s.setThis t g).swapcontext t f g

/-- `YieldToReady` and `YieldToHold`. -/
def yieldTo (s : FibreSys) (t : Nat) (ready : Bool) : Option FibreSys :=
  let cur := (s.getThis t).2
  let s := (s.getThis t).1
  if (s.fibre cur).state = .exec then
    (s.setState cur (if ready then .ready else .hold)).swapOut t cur
  else none

/-- The end of `MainFunc` or of `CallerMainFunc`; the fibre that they asked `GetThis` for at
their start is the one whose code they are. -/
def finish (s : FibreSys) (t : Nat) (except : Bool) : Option FibreSys :=
  match (s.thread t).code with
  | none => none
  | some c =>
      if (s.fibre c).hasStack then
        let s := (s.setState c (if except then .except else .term)).setProgress c
          { s.progress c with ended := true }
        if (s.progress c).caller then s.back t c else s.swapOut t c
      else none

def step (s : FibreSys) : FibreCall → Option FibreSys
  | .getThis t => some (s.getThis t).1
  | .createMainFibre t => some (s.createMainFibre t)
  | .newFibre useCaller => some (s.newFibre useCaller)
  | .setScheduler t f =>
      if f < s.made then some (s.setThread t { s.thread t with schedulerFibre := some f })
      else none
  | .reset f => if f < s.made then s.reset f else none
  | .setHold f => if f < s.made then some (s.setState f .hold) else none
  | .swapIn t f => if f < s.made then s.swapIn t f else none
  | .swapOut t f => if f < s.made then s.swapOut t f else none
  | .call t f => if f < s.made then s.call t f else none
  | .back t f => if f < s.made then s.back t f else none
  | .yield t ready => s.yieldTo t ready
  | .finish t except => s.finish t except

/-- Before any fibre is made. -/
def start : FibreSys where
  fibre _ := { state := .init, hasStack := false, ctx := .constructor }
  progress _ := { left := 0, entered := false, caller := false, ended := false }
  made := 0
  thread _ := { fibre := none, threadFibre := none, schedulerFibre := none, code := none }

/-- All calls, in any order, on any threads. -/
def machine : System FibreSys FibreCall where
  init s := s = start
  step := step

/-! ## Intact contexts -/

/-- The context of the fibre is where its code goes on. -/
def Own (s : FibreSys) (f : Nat) : Prop :=
  if (s.progress f).entered then (s.fibre f).ctx = .place f (s.progress f).left
  else ∃ caller, (s.fibre f).ctx = .entry caller

/-- The fibre runs on no thread. -/
def Resting (s : FibreSys) (f : Nat) : Prop :=
  ∀ t, (s.thread t).code ≠ some f

/-- `t_fibre` is the fibre whose code runs, no code runs on two threads or after its end,
no context names the code of another fibre, and every fibre that does not run goes on where
it was left. -/
structure Intact (s : FibreSys) : Prop where
  this : ∀ t, (s.thread t).fibre = (s.thread t).code
  alone : ∀ t u f, (s.thread t).code = some f → (s.thread u).code = some f → t = u
  entered : ∀ t f, (s.thread t).code = some f → (s.progress f).entered = true
  alive : ∀ t f, (s.thread t).code = some f → (s.progress f).ended = false
  names : ∀ f c n, f < s.made → (s.fibre f).ctx = .place c n → c = f
  own : ∀ f, f < s.made → s.Resting f → s.Own f

/-- All pointers are to fibres that were made, and only a thread with a main fibre is known
to run code. -/
structure Known (s : FibreSys) : Prop where
  code : ∀ t f, (s.thread t).code = some f → f < s.made
  main : ∀ t, (s.thread t).threadFibre = none ↔ (s.thread t).code = none
  threadFibre : ∀ t f, (s.thread t).threadFibre = some f → f < s.made
  schedulerFibre : ∀ t f, (s.thread t).schedulerFibre = some f → f < s.made

/-- A switch on the thread saves into the context of the running fibre, and loads that of a
fibre that runs nowhere and has not ended.  A fibre may switch to itself, unless it ends. -/
def GoodSwitch (s : FibreSys) (t target source : Nat) (ends : Bool) : Prop :=
  (s.thread t).code = some target ∧ (s.progress source).ended = false ∧
    (source = target ∧ ends = false ∨ s.Resting source)

/-- **The condition**: every switch is good, and no fibre that runs is reset. -/
def Proper (s : FibreSys) : FibreCall → Prop
  | .getThis _ | .createMainFibre _ | .newFibre _ | .setScheduler .. | .setHold _ => True
  | .reset f => s.Resting f
  | .swapIn t f => ∀ g, (s.thread t).schedulerFibre = some g → s.GoodSwitch t g f false
  | .swapOut t f => ∀ g, (s.thread t).schedulerFibre = some g → s.GoodSwitch t f g false
  | .call t f => ∀ g, (s.thread t).threadFibre = some g → s.GoodSwitch t g f false
  | .back t f => ∀ g, (s.thread t).threadFibre = some g → s.GoodSwitch t f g false
  | .yield t _ => ∀ g, (s.thread t).schedulerFibre = some g →
      (s.getThis t).1.GoodSwitch t (s.getThis t).2 g false
  | .finish t _ => ∀ c g, (s.thread t).code = some c →
      (if (s.progress c).caller then (s.thread t).threadFibre else (s.thread t).schedulerFibre) =
        some g → s.GoodSwitch t c g true

/-! ## One switch -/

section Switch

variable {s s' : FibreSys} {t c target source : Nat}

/-- A thread is about to leave the code `c`: it has set `t_fibre`, and `c` may have ended. -/
structure Leaving (s : FibreSys) (t c : Nat) : Prop where
  code : (s.thread t).code = some c
  this : ∀ u, u ≠ t → (s.thread u).fibre = (s.thread u).code
  alone : ∀ t u f, (s.thread t).code = some f → (s.thread u).code = some f → t = u
  entered : ∀ t f, (s.thread t).code = some f → (s.progress f).entered = true
  alive : ∀ u f, u ≠ t → (s.thread u).code = some f → (s.progress f).ended = false
  names : ∀ f c n, f < s.made → (s.fibre f).ctx = .place c n → c = f
  own : ∀ f, f < s.made → s.Resting f → s.Own f

/-- What `swapcontext` does when contexts name the code of their own fibres: it leaves `c`
and goes on with the source, or with `c` again where it saved into the source. -/
structure Switched (s : FibreSys) (t c target source : Nat) (s' : FibreSys) : Prop where
  made : s'.made = s.made
  others : ∀ u, u ≠ t → s'.thread u = s.thread u
  thread : s'.thread t =
    { s.thread t with code := some (if source = target then c else source) }
  state : ∀ f, (s'.fibre f).state = (s.fibre f).state
  hasStack : ∀ f, (s'.fibre f).hasStack = (s.fibre f).hasStack
  ctx : ∀ f, (s'.fibre f).ctx =
    if f = target then .place c ((s.progress c).left + 1) else (s.fibre f).ctx
  left : ∀ f, (s'.progress f).left = (s.progress f).left + (if f = c then 1 else 0)
  ended : ∀ f, (s'.progress f).ended = (s.progress f).ended
  entered : ∀ f, (s'.progress f).entered = true ↔
    (s.progress f).entered = true ∨ f = source ∧ source ≠ target ∧ ∃ b, (s.fibre f).ctx = .entry b
  caller : ∀ b, source ≠ target → (s.fibre source).ctx = .entry b →
    (s'.progress source).caller = b
  callerKept : ∀ f, (f = source → source = target ∨ ∀ b, (s.fibre f).ctx ≠ .entry b) →
    (s'.progress f).caller = (s.progress f).caller

theorem swapcontext_switched (hcode : (s.thread t).code = some c) (hsource : source < s.made)
    (hnames : ∀ f c n, f < s.made → (s.fibre f).ctx = .place c n → c = f)
    (h : s.swapcontext t target source = some s') : Switched s t c target source s' := by
  simp only [swapcontext, hcode] at h
  unfold load at h
  by_cases hself : source = target
  · subst hself
    simp only [save, setCtx, setFibre, Function.update_self, Option.some.injEq] at h
    subst h
    exact {
      made := rfl
      others := fun u hu => by simp [run, setThread, setProgress, hu]
      thread := by simp [run, setThread, setProgress]
      ctx := fun f => by
        by_cases hf : f = source <;> simp [run, setThread, setProgress, Function.update, hf]
      left := fun f => by
        by_cases hf : f = c <;> simp [run, setThread, setProgress, Function.update, hf]
      ended := fun f => by
        by_cases hf : f = c <;> simp [run, setThread, setProgress, Function.update, hf]
      state := fun f => by
        by_cases hf : f = source <;> simp [run, setThread, setProgress, Function.update, hf]
      hasStack := fun f => by
        by_cases hf : f = source <;> simp [run, setThread, setProgress, Function.update, hf]
      entered := fun f => by
        by_cases hf : f = c <;> simp [run, setThread, setProgress, Function.update, hf]
      caller := fun _ hne => absurd rfl hne
      callerKept := fun f _ => by
        by_cases hf : f = c <;> simp [run, setThread, setProgress, Function.update, hf] }
  · have hctx : ((s.save c target).fibre source).ctx = (s.fibre source).ctx := by
      simp [save, setCtx, setFibre, setProgress, Function.update, hself]
    rw [hctx] at h
    cases hload : (s.fibre source).ctx with
    | constructor =>
        rw [hload] at h
        cases h
    | entry b =>
        rw [hload] at h
        simp only [Option.some.injEq] at h
        subst h
        exact {
          made := rfl
          others := fun u hu => by simp [run, setThread, save, setProgress, setCtx, setFibre, hu]
          thread := by simp [run, setThread, save, setProgress, setCtx, setFibre, hself]
          ctx := fun f => by
            by_cases hf : f = target <;>
              simp [run, setThread, save, setProgress, setCtx, setFibre, Function.update, hf]
          left := fun f => by
            by_cases hf : f = source <;> by_cases hc : f = c <;>
              simp_all [run, setThread, save, setProgress, setCtx, setFibre, Function.update]
          ended := fun f => by
            by_cases hf : f = source <;> by_cases hc : f = c <;>
              simp_all [run, setThread, save, setProgress, setCtx, setFibre, Function.update]
          state := fun f => by
            by_cases hf : f = target <;>
              simp [run, setThread, save, setProgress, setCtx, setFibre, Function.update, hf]
          hasStack := fun f => by
            by_cases hf : f = target <;>
              simp [run, setThread, save, setProgress, setCtx, setFibre, Function.update, hf]
          entered := fun f => by
            by_cases hf : f = source <;> by_cases hc : f = c <;>
              simp_all [run, setThread, save, setProgress, setCtx, setFibre, Function.update]
          caller := fun b' _ hb' => by
            simp_all [run, setThread, save, setProgress, setCtx, setFibre]
          callerKept := fun f hf => by
            have hne : f ≠ source := by
              rintro rfl
              exact (hf rfl).elim hself fun hb => hb b hload
            by_cases hc : f = c <;>
              simp_all [run, setThread, save, setProgress, setCtx, setFibre, Function.update] }
    | place c' n =>
        rw [hload] at h
        obtain rfl := hnames source c' n hsource hload
        simp only [Option.some.injEq] at h
        subst h
        exact {
          made := rfl
          others := fun u hu => by simp [run, setThread, save, setProgress, setCtx, setFibre, hu]
          thread := by simp [run, setThread, save, setProgress, setCtx, setFibre, hself]
          ctx := fun f => by
            by_cases hf : f = target <;>
              simp [run, setThread, save, setProgress, setCtx, setFibre, Function.update, hf]
          left := fun f => by
            by_cases hc : f = c <;>
              simp [run, setThread, save, setProgress, setCtx, setFibre, Function.update, hc]
          ended := fun f => by
            by_cases hc : f = c <;>
              simp [run, setThread, save, setProgress, setCtx, setFibre, Function.update, hc]
          state := fun f => by
            by_cases hf : f = target <;>
              simp [run, setThread, save, setProgress, setCtx, setFibre, Function.update, hf]
          hasStack := fun f => by
            by_cases hf : f = target <;>
              simp [run, setThread, save, setProgress, setCtx, setFibre, Function.update, hf]
          entered := fun f => by
            by_cases hc : f = c <;>
              simp_all [run, setThread, save, setProgress, setCtx, setFibre, Function.update]
          caller := fun b _ hb => by
            rw [hload] at hb
            cases hb
          callerKept := fun f _ => by
            by_cases hc : f = c <;>
              simp [run, setThread, save, setProgress, setCtx, setFibre, Function.update, hc] }

/-- A switch that saves where it should, and loads what rests, keeps the contexts. -/
theorem switch_intact (hl : s.Leaving t c) (hthis : (s.thread t).fibre = some source)
    (hsource : source < s.made) (hended : (s.progress source).ended = false)
    (hrest : source = c ∨ s.Resting source)
    (h : s.swapcontext t c source = some s') : s'.Intact := by
  have hsw := swapcontext_switched hl.code hsource hl.names h
  have hcode : (s'.thread t).code = some source := by
    rw [hsw.thread]
    by_cases hself : source = c <;> simp [hself]
  have hcodes : ∀ u f, (s'.thread u).code = some f →
      u = t ∧ f = source ∨ u ≠ t ∧ (s.thread u).code = some f := by
    intro u f hf
    by_cases hu : u = t
    · subst hu
      rw [hcode, Option.some.injEq] at hf
      exact Or.inl ⟨rfl, hf.symm⟩
    · rw [hsw.others u hu] at hf
      exact Or.inr ⟨hu, hf⟩
  -- the fibre that is loaded runs on no other thread
  have hfree : ∀ u, u ≠ t → (s.thread u).code ≠ some source := by
    intro u hu hu'
    rcases hrest with rfl | hrest
    · exact hu (hl.alone u t _ hu' hl.code)
    · exact hrest u hu'
  exact {
    this := by
      intro u
      by_cases hu : u = t
      · subst hu
        rw [hcode, hsw.thread]
        exact hthis
      · rw [hsw.others u hu]
        exact hl.this u hu
    alone := by
      intro u v f hu hv
      rcases hcodes u f hu with ⟨rfl, rfl⟩ | ⟨hut, hu'⟩
      · rcases hcodes v f hv with ⟨rfl, _⟩ | ⟨hvt, hv'⟩
        · rfl
        · exact absurd hv' (hfree v hvt)
      · rcases hcodes v f hv with ⟨rfl, rfl⟩ | ⟨_, hv'⟩
        · exact absurd hu' (hfree u hut)
        · exact hl.alone u v f hu' hv'
    entered := by
      intro u f hu
      rw [hsw.entered]
      rcases hcodes u f hu with ⟨rfl, rfl⟩ | ⟨_, hu'⟩
      · by_cases hent : (s.progress f).entered = true
        · exact Or.inl hent
        · rcases hrest with rfl | hrest
          · exact Or.inl (hl.entered u f hl.code)
          · have hown := hl.own f hsource hrest
            rw [Own, if_neg hent] at hown
            exact Or.inr ⟨rfl, fun heq => hrest u (heq ▸ hl.code), hown⟩
      · exact Or.inl (hl.entered u f hu')
    alive := by
      intro u f hu
      rw [hsw.ended]
      rcases hcodes u f hu with ⟨_, rfl⟩ | ⟨hut, hu'⟩
      · exact hended
      · exact hl.alive u f hut hu'
    names := by
      intro f d n hf hd
      rw [hsw.made] at hf
      rw [hsw.ctx] at hd
      split at hd
      · rename_i heq
        cases hd
        exact heq.symm
      · exact hl.names f d n hf hd
    own := by
      intro f hf hrests
      rw [hsw.made] at hf
      have hne : f ≠ source := fun heq => hrests t (heq ▸ hcode)
      rw [Own, hsw.ctx, hsw.left]
      by_cases hfc : f = c
      · subst hfc
        rw [if_pos ((hsw.entered f).mpr (Or.inl (hl.entered t f hl.code))), if_pos rfl, if_pos rfl]
      · have hbefore : s.Resting f := by
          intro u hu
          by_cases hut : u = t
          · subst hut
            rw [hl.code, Option.some.injEq] at hu
            exact hfc hu.symm
          · refine hrests u ?_
            rw [hsw.others u hut]
            exact hu
        have hown := hl.own f hf hbefore
        have hent : (s'.progress f).entered = (s.progress f).entered := by
          rw [Bool.eq_iff_iff, hsw.entered]
          simp [hne]
        rw [Own] at hown
        rw [hent, if_neg hfc, if_neg hfc, Nat.add_zero]
        exact hown }

/-- Any other switch breaks them. -/
theorem switch_broken (hl : s.Leaving t c) (htarget : target < s.made)
    (hsource : source < s.made) (h : s.swapcontext t target source = some s')
    (hs' : s'.Intact) :
    target = c ∧ (s.progress source).ended = false ∧ (source = c ∨ s.Resting source) := by
  have hsw := swapcontext_switched hl.code hsource hl.names h
  have htc : target = c := by
    have hctx := hsw.ctx target
    rw [if_pos rfl] at hctx
    exact (hs'.names target c _ (hsw.made ▸ htarget) hctx).symm
  subst htc
  have hcode : (s'.thread t).code = some source := by
    rw [hsw.thread]
    by_cases hself : source = target <;> simp [hself]
  refine ⟨rfl, ?_, ?_⟩
  · rw [← hsw.ended]
    exact hs'.alive t source hcode
  · rw [or_iff_not_imp_left]
    intro hne u hu
    have hut : u ≠ t := by
      rintro rfl
      rw [hl.code, Option.some.injEq] at hu
      exact hne hu.symm
    refine hut (hs'.alone u t source ?_ hcode)
    rw [hsw.others u hut]
    exact hu

end Switch

/-! ## One call -/

section Calls

variable {s s₁ s' : FibreSys} {t source target : Nat} {ends : Bool}

theorem Known.made_rests (hk : s.Known) : s.Resting s.made :=
  fun t ht => absurd (hk.code t s.made ht) (Nat.lt_irrefl _)

/-- What the calls do before they switch: they set `t_fibre` to the fibre that they are about
to load, perhaps a state, and at its end the running fibre is marked. -/
structure Prepared (s : FibreSys) (t source : Nat) (ends : Bool) (s₁ : FibreSys) : Prop where
  made : s₁.made = s.made
  others : ∀ u, u ≠ t → s₁.thread u = s.thread u
  thread : s₁.thread t = { s.thread t with fibre := some source }
  ctx : ∀ f, (s₁.fibre f).ctx = (s.fibre f).ctx
  hasStack : ∀ f, (s₁.fibre f).hasStack = (s.fibre f).hasStack
  left : ∀ f, (s₁.progress f).left = (s.progress f).left
  entered : ∀ f, (s₁.progress f).entered = (s.progress f).entered
  caller : ∀ f, (s₁.progress f).caller = (s.progress f).caller
  ended : ∀ f, (s₁.progress f).ended = true ↔
    (s.progress f).ended = true ∨ ends = true ∧ (s.thread t).code = some f

theorem Prepared.code (hp : Prepared s t source ends s₁) (u : Nat) :
    (s₁.thread u).code = (s.thread u).code := by
  by_cases hu : u = t
  · subst hu
    rw [hp.thread]
  · rw [hp.others u hu]

theorem Prepared.resting (hp : Prepared s t source ends s₁) (f : Nat) :
    s₁.Resting f ↔ s.Resting f := by
  simp only [Resting, hp.code]

theorem Prepared.own (hp : Prepared s t source ends s₁) (f : Nat) :
    s₁.Own f ↔ s.Own f := by
  simp only [Own, hp.ctx, hp.left, hp.entered]

theorem Prepared.leaving (hp : Prepared s t source ends s₁) (hi : s.Intact) {c : Nat}
    (hc : (s.thread t).code = some c) : s₁.Leaving t c where
  code := by rw [hp.code, hc]
  this := fun u hu => by rw [hp.others u hu, hi.this]
  alone := fun u v f hu hv => hi.alone u v f (by rw [← hp.code, hu]) (by rw [← hp.code, hv])
  entered := fun u f hu => by
    rw [hp.entered]
    exact hi.entered u f (by rw [← hp.code, hu])
  alive := fun u f hu hf => by
    rw [hp.others u hu] at hf
    rw [← Bool.not_eq_true, hp.ended]
    rintro (hend | ⟨_, hthis⟩)
    · rw [hi.alive u f hf] at hend
      cases hend
    · exact hu (hi.alone u t f hf hthis)
  names := fun f c n hf hc => hi.names f c n (hp.made ▸ hf) (by rw [← hp.ctx, hc])
  own := fun f hf hr => (hp.own f).mpr (hi.own f (hp.made ▸ hf) ((hp.resting f).mp hr))

theorem swapcontext_code (h : s₁.swapcontext t target source = some s') :
    ∃ c, (s₁.thread t).code = some c := by
  rw [swapcontext] at h
  cases hc : (s₁.thread t).code with
  | none =>
      rw [hc] at h
      cases h
  | some c => exact ⟨c, rfl⟩

/-- **One switch**: the contexts stay intact exactly when the switch is good. -/
theorem Prepared.intact_iff (hp : Prepared s t source ends s₁) (hi : s.Intact)
    (htarget : target < s.made) (hsource : source < s.made)
    (h : s₁.swapcontext t target source = some s') :
    s'.Intact ↔ s.GoodSwitch t target source ends := by
  obtain ⟨c, hc₁⟩ := swapcontext_code h
  have hc : (s.thread t).code = some c := by rw [← hp.code, hc₁]
  have hl := hp.leaving hi hc
  have hended : (s₁.progress source).ended = false ↔
      (s.progress source).ended = false ∧ ¬ (ends = true ∧ source = c) := by
    rw [← Bool.not_eq_true, hp.ended, hc, Option.some.injEq, not_or, Bool.not_eq_true,
      eq_comm (a := c)]
  constructor
  · intro hs'
    obtain ⟨rfl, hend, hrest⟩ := switch_broken hl (hp.made ▸ htarget) (hp.made ▸ hsource) h hs'
    obtain ⟨hend, hself⟩ := hended.mp hend
    refine ⟨hc, hend, ?_⟩
    rcases hrest with heq | hrest
    · refine Or.inl ⟨heq, ?_⟩
      rw [← Bool.not_eq_true]
      exact fun he => hself ⟨he, heq⟩
    · exact Or.inr ((hp.resting source).mp hrest)
  · rintro ⟨htc, hend, hrest⟩
    obtain rfl : c = target := Option.some.inj (hc.symm.trans htc)
    refine switch_intact hl (by rw [hp.thread]) (hp.made ▸ hsource) ?_ ?_ h
    · refine hended.mpr ⟨hend, ?_⟩
      rintro ⟨he, heq⟩
      rcases hrest with ⟨_, hne⟩ | hrest
      · rw [he] at hne
        cases hne
      · exact hrest t (heq ▸ hc)
    · rcases hrest with ⟨heq, _⟩ | hrest
      · exact Or.inl heq
      · exact Or.inr ((hp.resting source).mpr hrest)

theorem Prepared.known (hp : Prepared s t source ends s₁) (hi : s.Intact) (hk : s.Known)
    (hsource : source < s.made) (h : s₁.swapcontext t target source = some s') :
    s'.Known := by
  obtain ⟨c, hc₁⟩ := swapcontext_code h
  have hc : (s.thread t).code = some c := by rw [← hp.code, hc₁]
  have hsw := swapcontext_switched hc₁ (hp.made ▸ hsource) (hp.leaving hi hc).names h
  have hmade : s'.made = s.made := by rw [hsw.made, hp.made]
  have hother : ∀ u, u ≠ t → s'.thread u = s.thread u := fun u hu => by
    rw [hsw.others u hu, hp.others u hu]
  have hthread : s'.thread t =
      { s.thread t with
        fibre := some source
        code := some (if source = target then c else source) } := by
    rw [hsw.thread, hp.thread]
  constructor
  · intro u f hf
    rw [hmade]
    by_cases hu : u = t
    · subst hu
      rw [hthread] at hf
      simp only [Option.some.injEq] at hf
      subst hf
      split
      · exact hk.code u c hc
      · exact hsource
    · rw [hother u hu] at hf
      exact hk.code u f hf
  · intro u
    by_cases hu : u = t
    · subst hu
      rw [hthread]
      refine iff_of_false (fun hnone => ?_) (by simp)
      rw [(hk.main u).mp hnone] at hc
      cases hc
    · rw [hother u hu]
      exact hk.main u
  · intro u f hf
    rw [hmade]
    by_cases hu : u = t
    · subst hu
      rw [hthread] at hf
      exact hk.threadFibre u f hf
    · rw [hother u hu] at hf
      exact hk.threadFibre u f hf
  · intro u f hf
    rw [hmade]
    by_cases hu : u = t
    · subst hu
      rw [hthread] at hf
      exact hk.schedulerFibre u f hf
    · rw [hother u hu] at hf
      exact hk.schedulerFibre u f hf

/-! What each call does before it switches. -/

section Prepare

variable (s : FibreSys) (t source : Nat)

theorem prepared_setThis : Prepared s t source false (s.setThis t source) := by
  constructor <;> intros <;> simp_all [setThis, setThread]

theorem prepared_setState (st : State) (f : Nat) :
    Prepared s t source false ((s.setThis t source).setState f st) := by
  constructor <;> intros <;>
    simp_all [setThis, setThread, setState, setFibre, Function.update] <;> split <;> simp_all

theorem prepared_state (st : State) (f : Nat) :
    Prepared s t source false ((s.setState f st).setThis t source) := by
  constructor <;> intros <;>
    simp_all [setThis, setThread, setState, setFibre, Function.update] <;> split <;> simp_all

theorem prepared_finish (st : State) {c : Nat} (hc : (s.thread t).code = some c) :
    Prepared s t source true
      (((s.setState c st).setProgress c { s.progress c with ended := true }).setThis t source) := by
  have hended : ∀ f, (Function.update s.progress c { s.progress c with ended := true } f).ended =
      true ↔ (s.progress f).ended = true ∨ c = f := by
    intro f
    by_cases hf : f = c
    · simp [hf]
    · simp [Function.update, hf, Ne.symm hf]
  constructor
  case ended =>
    intro f
    rw [hc, Option.some.injEq]
    simpa [setThis, setThread, setState, setFibre, setProgress] using hended f
  all_goals
    intros
    simp_all [setThis, setThread, setState, setFibre, setProgress, Function.update] <;>
      split <;> simp_all

end Prepare

/-! The calls that switch no context. -/

theorem newMain_intact (hi : s.Intact) (hk : s.Known) (hnone : (s.thread t).code = none) :
    (s.newMain t).Intact ∧ (s.newMain t).Known := by
  have hcodes : ∀ u f, ((s.newMain t).thread u).code = some f →
      u = t ∧ f = s.made ∨ u ≠ t ∧ (s.thread u).code = some f := by
    intro u f hf
    by_cases hu : u = t
    · subst hu
      simp [newMain, setThread, hnone] at hf
      exact Or.inl ⟨rfl, hf.symm⟩
    · simp [newMain, setThread, setProgress, setFibre, hu] at hf
      exact Or.inr ⟨hu, hf⟩
  have hfresh : ∀ u, (s.thread u).code ≠ some s.made := hk.made_rests
  have hfibre : ∀ f, f ≠ s.made → (s.newMain t).fibre f = s.fibre f := fun f hf => by
    simp [newMain, setThread, setProgress, setFibre, hf]
  have hprogress : ∀ f, f ≠ s.made → (s.newMain t).progress f = s.progress f := fun f hf => by
    simp [newMain, setThread, setProgress, setFibre, hf]
  have hmain : (s.newMain t).progress s.made =
      { left := 0, entered := true, caller := false, ended := false } := by
    simp [newMain, setThread, setProgress]
  refine ⟨⟨?_, ?_, ?_, ?_, ?_, ?_⟩, ⟨?_, ?_, ?_, ?_⟩⟩
  · intro u
    by_cases hu : u = t
    · subst hu
      simp [newMain, setThread, hnone]
    · simp [newMain, setThread, setProgress, setFibre, hu, hi.this]
  · intro u v f hu hv
    rcases hcodes u f hu with ⟨rfl, rfl⟩ | ⟨_, hu'⟩
    · rcases hcodes v _ hv with ⟨rfl, _⟩ | ⟨_, hv'⟩
      · rfl
      · exact absurd hv' (hfresh v)
    · rcases hcodes v f hv with ⟨rfl, rfl⟩ | ⟨_, hv'⟩
      · exact absurd hu' (hfresh u)
      · exact hi.alone u v f hu' hv'
  · intro u f hu
    rcases hcodes u f hu with ⟨_, rfl⟩ | ⟨_, hu'⟩
    · rw [hmain]
    · rw [hprogress f (fun heq => hfresh u (heq ▸ hu'))]
      exact hi.entered u f hu'
  · intro u f hu
    rcases hcodes u f hu with ⟨_, rfl⟩ | ⟨_, hu'⟩
    · rw [hmain]
    · rw [hprogress f (fun heq => hfresh u (heq ▸ hu'))]
      exact hi.alive u f hu'
  · intro f c n hf hc
    by_cases hfm : f = s.made
    · subst hfm
      simp [newMain, setThread, setProgress, setFibre] at hc
    · rw [hfibre f hfm] at hc
      exact hi.names f c n (by simp [newMain] at hf; omega) hc
  · intro f hf hr
    by_cases hfm : f = s.made
    · subst hfm
      exact absurd (by simp [newMain, setThread, hnone]) (hr t)
    · have hold : s.Own f := by
        refine hi.own f (by simp [newMain] at hf; omega) fun u hu => hr u ?_
        have hut : u ≠ t := by
          rintro rfl
          rw [hnone] at hu
          cases hu
        simpa [newMain, setThread, setProgress, setFibre, hut] using hu
      rw [Own, hfibre f hfm, hprogress f hfm]
      exact hold
  · intro u f hu
    have hmade : (s.newMain t).made = s.made + 1 := rfl
    rcases hcodes u f hu with ⟨_, rfl⟩ | ⟨_, hu'⟩
    · omega
    · have := hk.code u f hu'
      omega
  · intro u
    by_cases hu : u = t
    · subst hu
      simp [newMain, setThread]
    · simp only [newMain, setThread, setProgress, setFibre, Function.update_of_ne hu]
      exact hk.main u
  · intro u f hu'
    by_cases hu : u = t
    · subst hu
      simp [newMain, setThread] at hu'
      simp [newMain, hu']
    · simp only [newMain, setThread, setProgress, setFibre, Function.update_of_ne hu] at hu' ⊢
      exact Nat.lt_succ_of_lt (hk.threadFibre u f hu')
  · intro u f hu'
    have hsame : ((s.newMain t).thread u).schedulerFibre = (s.thread u).schedulerFibre := by
      by_cases hu : u = t
      · subst hu
        simp [newMain, setThread, setProgress, setFibre]
      · simp [newMain, setThread, setProgress, setFibre, hu]
    rw [hsame] at hu'
    exact Nat.lt_succ_of_lt (hk.schedulerFibre u f hu')

theorem getThis_intact (hi : s.Intact) (hk : s.Known) :
    (s.getThis t).1.Intact ∧ (s.getThis t).1.Known := by
  rw [getThis]
  cases ht : (s.thread t).fibre with
  | some f => exact ⟨hi, hk⟩
  | none => exact newMain_intact hi hk (by rw [← hi.this, ht])

theorem newFibre_intact (hi : s.Intact) (hk : s.Known) (b : Bool) :
    (s.newFibre b).Intact ∧ (s.newFibre b).Known := by
  have hne : ∀ u f, (s.thread u).code = some f → f ≠ s.made := fun u f hu heq =>
    hk.made_rests u (heq ▸ hu)
  refine ⟨⟨hi.this, hi.alone, ?_, ?_, ?_, ?_⟩, ⟨?_, hk.main, ?_, ?_⟩⟩
  · intro u f hu
    simpa [newFibre, setProgress, setFibre, Function.update, hne u f hu] using hi.entered u f hu
  · intro u f hu
    simpa [newFibre, setProgress, setFibre, Function.update, hne u f hu] using hi.alive u f hu
  · intro f c n hf hc
    by_cases hfm : f = s.made
    · subst hfm
      simp [newFibre, setProgress, setFibre] at hc
    · simp only [newFibre, setProgress, setFibre, Function.update_of_ne hfm] at hc hf
      exact hi.names f c n (by omega) hc
  · intro f hf hr
    by_cases hfm : f = s.made
    · subst hfm
      simp [Own, newFibre, setProgress, setFibre]
    · have hold := hi.own f (by simp [newFibre] at hf; omega) hr
      simpa only [Own, newFibre, setProgress, setFibre, Function.update_of_ne hfm] using hold
  · exact fun u f hu => Nat.lt_succ_of_lt (hk.code u f hu)
  · exact fun u f hu => Nat.lt_succ_of_lt (hk.threadFibre u f hu)
  · exact fun u f hu => Nat.lt_succ_of_lt (hk.schedulerFibre u f hu)

theorem setScheduler_intact (hi : s.Intact) (hk : s.Known) (hsource : source < s.made) :
    (s.setThread t { s.thread t with schedulerFibre := some source }).Intact ∧
      (s.setThread t { s.thread t with schedulerFibre := some source }).Known := by
  have hcode : ∀ u, ((s.setThread t { s.thread t with schedulerFibre := some source }).thread u).code
      = (s.thread u).code := fun u => by
    by_cases hu : u = t <;> simp [setThread, Function.update, hu]
  have hfibre : ∀ u, ((s.setThread t { s.thread t with schedulerFibre := some source }).thread
      u).fibre = (s.thread u).fibre := fun u => by
    by_cases hu : u = t <;> simp [setThread, Function.update, hu]
  have hthread : ∀ u, ((s.setThread t { s.thread t with schedulerFibre := some source }).thread
      u).threadFibre = (s.thread u).threadFibre := fun u => by
    by_cases hu : u = t <;> simp [setThread, Function.update, hu]
  refine ⟨⟨?_, ?_, ?_, ?_, hi.names, ?_⟩, ⟨?_, ?_, ?_, ?_⟩⟩
  · exact fun u => by rw [hcode, hfibre, hi.this]
  · exact fun u v f hu hv => hi.alone u v f (hcode u ▸ hu) (hcode v ▸ hv)
  · exact fun u f hu => hi.entered u f (hcode u ▸ hu)
  · exact fun u f hu => hi.alive u f (hcode u ▸ hu)
  · exact fun f hf hr => hi.own f hf fun u hu => hr u (by rw [hcode, hu])
  · exact fun u f hu => hk.code u f (hcode u ▸ hu)
  · exact fun u => by rw [hcode, hthread, hk.main]
  · exact fun u f hu => hk.threadFibre u f (hthread u ▸ hu)
  · intro u f hu'
    by_cases hu : u = t
    · subst hu
      simp [setThread] at hu'
      exact hu' ▸ hsource
    · simp only [setThread, Function.update_of_ne hu] at hu'
      exact hk.schedulerFibre u f hu'

theorem setState_intact (hi : s.Intact) (hk : s.Known) (f : Nat) (st : State) :
    (s.setState f st).Intact ∧ (s.setState f st).Known := by
  have hctx : ∀ g, ((s.setState f st).fibre g).ctx = (s.fibre g).ctx := fun g => by
    by_cases hg : g = f <;> simp [setState, setFibre, Function.update, hg]
  refine ⟨⟨hi.this, hi.alone, hi.entered, hi.alive, ?_, ?_⟩,
    ⟨hk.code, hk.main, hk.threadFibre, hk.schedulerFibre⟩⟩
  · exact fun g c n hg hc => hi.names g c n hg (by rw [← hctx, hc])
  · intro g hg hr
    have hold := hi.own g hg hr
    rw [Own] at hold ⊢
    rw [hctx]
    exact hold

theorem reset_eq_some_iff {f : Nat} :
    s.reset f = some s' ↔ ((s.fibre f).hasStack ∧ ((s.fibre f).state = .term ∨
      (s.fibre f).state = .except ∨ (s.fibre f).state = .init)) ∧
      (s.setFibre f { s.fibre f with state := .init, ctx := .entry false }).setProgress f
        { s.progress f with entered := false, ended := false } = s' := by
  simp only [reset, Option.ite_none_right_eq_some, Option.some.injEq]

theorem reset_known (hk : s.Known) {f : Nat} (h : s.reset f = some s') : s'.Known := by
  obtain ⟨-, rfl⟩ := reset_eq_some_iff.mp h
  exact ⟨hk.code, hk.main, hk.threadFibre, hk.schedulerFibre⟩

/-- A reset keeps the contexts intact exactly when the fibre runs on no thread. -/
theorem reset_intact_iff (hi : s.Intact) {f : Nat} (h : s.reset f = some s') :
    s'.Intact ↔ s.Resting f := by
  obtain ⟨-, rfl⟩ := reset_eq_some_iff.mp h
  constructor
  · intro hs' u hu
    have hent := hs'.entered u f hu
    simp [setProgress] at hent
  · intro hrest
    have hne : ∀ u g, (s.thread u).code = some g → g ≠ f := fun u g hu heq =>
      hrest u (heq ▸ hu)
    refine ⟨hi.this, hi.alone, ?_, ?_, ?_, ?_⟩
    · intro u g hu
      simpa [setProgress, setFibre, Function.update, hne u g hu] using hi.entered u g hu
    · intro u g hu
      simpa [setProgress, setFibre, Function.update, hne u g hu] using hi.alive u g hu
    · intro g c n hg hc
      by_cases hgf : g = f
      · subst hgf
        simp [setProgress, setFibre] at hc
      · simp only [setProgress, setFibre, Function.update_of_ne hgf] at hc
        exact hi.names g c n hg hc
    · intro g hg hr
      by_cases hgf : g = f
      · subst hgf
        simp [Own, setProgress, setFibre]
      · have hold := hi.own g hg hr
        simpa only [Own, setProgress, setFibre, Function.update_of_ne hgf] using hold

/-! The calls that switch. -/

theorem swapIn_intact_iff {f : Nat} (hi : s.Intact) (hk : s.Known) (hf : f < s.made)
    (h : s.swapIn t f = some s') : (s'.Intact ↔ s.Proper (.swapIn t f)) ∧ s'.Known := by
  rw [swapIn] at h
  cases hg : (s.thread t).schedulerFibre with
  | none =>
      rw [hg] at h
      cases h
  | some g =>
      simp only [hg, Option.ite_none_left_eq_some] at h
      have hp := prepared_setState s t f .exec f
      simp only [Proper, hg, Option.some.injEq, forall_eq']
      exact ⟨hp.intact_iff hi (hk.schedulerFibre t g hg) hf h.2, hp.known hi hk hf h.2⟩

theorem swapOut_intact_iff {f : Nat} (hi : s.Intact) (hk : s.Known) (hf : f < s.made)
    (h : s.swapOut t f = some s') : (s'.Intact ↔ s.Proper (.swapOut t f)) ∧ s'.Known := by
  rw [swapOut] at h
  cases hg : (s.thread t).schedulerFibre with
  | none =>
      rw [hg] at h
      cases h
  | some g =>
      simp only [hg] at h
      have hp := prepared_setThis s t g
      have hgm := hk.schedulerFibre t g hg
      simp only [Proper, hg, Option.some.injEq, forall_eq']
      exact ⟨hp.intact_iff hi hf hgm h, hp.known hi hk hgm h⟩

theorem call_intact_iff {f : Nat} (hi : s.Intact) (hk : s.Known) (hf : f < s.made)
    (h : s.call t f = some s') : (s'.Intact ↔ s.Proper (.call t f)) ∧ s'.Known := by
  rw [call] at h
  cases hg : (s.thread t).threadFibre with
  | none =>
      rw [hg] at h
      cases h
  | some g =>
      simp only [hg] at h
      have hp := prepared_setState s t f .exec f
      simp only [Proper, hg, Option.some.injEq, forall_eq']
      exact ⟨hp.intact_iff hi (hk.threadFibre t g hg) hf h, hp.known hi hk hf h⟩

theorem back_intact_iff {f : Nat} (hi : s.Intact) (hk : s.Known) (hf : f < s.made)
    (h : s.back t f = some s') : (s'.Intact ↔ s.Proper (.back t f)) ∧ s'.Known := by
  rw [back] at h
  cases hg : (s.thread t).threadFibre with
  | none =>
      rw [hg] at h
      cases h
  | some g =>
      simp only [hg] at h
      have hp := prepared_setThis s t g
      have hgm := hk.threadFibre t g hg
      simp only [Proper, hg, Option.some.injEq, forall_eq']
      exact ⟨hp.intact_iff hi hf hgm h, hp.known hi hk hgm h⟩

/-- Setting a state first changes nothing. -/
theorem yieldTo_intact_iff {ready : Bool} (hi : s.Intact) (hk : s.Known)
    (h : s.yieldTo t ready = some s') : (s'.Intact ↔ s.Proper (.yield t ready)) ∧ s'.Known := by
  obtain ⟨hi₁, hk₁⟩ := getThis_intact (t := t) hi hk
  have hsched : ((s.getThis t).1.thread t).schedulerFibre = (s.thread t).schedulerFibre := by
    rw [getThis]
    cases (s.thread t).fibre <;> simp [newMain, setThread, setProgress, setFibre]
  have hcur : (s.getThis t).2 < (s.getThis t).1.made := by
    rw [getThis]
    cases hfib : (s.thread t).fibre with
    | some f => exact hk.code t f (by rw [← hi.this, hfib])
    | none => exact Nat.lt_succ_self _
  simp only [yieldTo, Option.ite_none_right_eq_some] at h
  obtain ⟨-, h⟩ := h
  rw [swapOut, setState, setFibre, hsched] at h
  cases hg : (s.thread t).schedulerFibre with
  | none =>
      simp only [hg] at h
      cases h
  | some g =>
      simp only [hg] at h
      have hp := prepared_state (s.getThis t).1 t g
        (if ready then .ready else .hold) (s.getThis t).2
      have hgm := hk₁.schedulerFibre t g (hsched.trans hg)
      simp only [Proper, hg, Option.some.injEq, forall_eq']
      exact ⟨hp.intact_iff hi₁ hcur hgm h, hp.known hi₁ hk₁ hgm h⟩

theorem proper_finish_iff {except : Bool} {c g : Nat} (hc : (s.thread t).code = some c)
    (hg : (if (s.progress c).caller then (s.thread t).threadFibre
      else (s.thread t).schedulerFibre) = some g) :
    s.Proper (.finish t except) ↔ s.GoodSwitch t c g true := by
  constructor
  · exact fun h => h c g hc hg
  · intro h d g' hd hg'
    obtain rfl : c = d := Option.some.inj (hc.symm.trans hd)
    obtain rfl : g = g' := Option.some.inj (hg.symm.trans hg')
    exact h

theorem finish_intact_iff {except : Bool} (hi : s.Intact) (hk : s.Known)
    (h : s.finish t except = some s') :
    (s'.Intact ↔ s.Proper (.finish t except)) ∧ s'.Known := by
  rw [finish] at h
  cases hc : (s.thread t).code with
  | none =>
      rw [hc] at h
      cases h
  | some c =>
      simp only [hc, Option.ite_none_right_eq_some] at h
      obtain ⟨-, h⟩ := h
      have hcm := hk.code t c hc
      have hp := fun g => prepared_finish s t g
        (if except then .except else .term) hc
      cases hcaller : (s.progress c).caller with
      | true =>
          rw [if_pos (by simpa [setProgress] using hcaller), back] at h
          cases hg : (s.thread t).threadFibre with
          | none =>
              simp only [setProgress, setState, setFibre, hg] at h
              cases h
          | some g =>
              simp only [setProgress, setState, setFibre, hg] at h
              have hgm := hk.threadFibre t g hg
              rw [proper_finish_iff hc (by rw [if_pos hcaller, hg])]
              exact ⟨(hp g).intact_iff hi hcm hgm h, (hp g).known hi hk hgm h⟩
      | false =>
          rw [if_neg (by simpa [setProgress] using hcaller), swapOut] at h
          cases hg : (s.thread t).schedulerFibre with
          | none =>
              simp only [setProgress, setState, setFibre, hg] at h
              cases h
          | some g =>
              simp only [setProgress, setState, setFibre, hg] at h
              have hgm := hk.schedulerFibre t g hg
              rw [proper_finish_iff hc (by rw [if_neg (by simp [hcaller]), hg])]
              exact ⟨(hp g).intact_iff hi hcm hgm h, (hp g).known hi hk hgm h⟩

theorem step_intact_iff {a : FibreCall} (hi : s.Intact) (hk : s.Known)
    (h : s.step a = some s') : (s'.Intact ↔ s.Proper a) ∧ s'.Known := by
  cases a with
  | getThis t =>
      obtain rfl := Option.some.inj h
      exact ⟨iff_of_true (getThis_intact hi hk).1 trivial, (getThis_intact hi hk).2⟩
  | createMainFibre t =>
      obtain rfl := Option.some.inj h
      have hboth : (s.createMainFibre t).Intact ∧ (s.createMainFibre t).Known := by
        rw [createMainFibre]
        cases hm : (s.thread t).threadFibre with
        | some m => exact ⟨hi, hk⟩
        | none => exact newMain_intact hi hk ((hk.main t).mp hm)
      exact ⟨iff_of_true hboth.1 trivial, hboth.2⟩
  | newFibre useCaller =>
      obtain rfl := Option.some.inj h
      exact ⟨iff_of_true (newFibre_intact hi hk _).1 trivial, (newFibre_intact hi hk _).2⟩
  | setScheduler t f =>
      simp only [step, Option.ite_none_right_eq_some, Option.some.injEq] at h
      obtain ⟨hf, rfl⟩ := h
      exact ⟨iff_of_true (setScheduler_intact hi hk hf).1 trivial, (setScheduler_intact hi hk hf).2⟩
  | reset f =>
      simp only [step, Option.ite_none_right_eq_some] at h
      exact ⟨reset_intact_iff hi h.2, reset_known hk h.2⟩
  | setHold f =>
      simp only [step, Option.ite_none_right_eq_some, Option.some.injEq] at h
      obtain ⟨-, rfl⟩ := h
      exact ⟨iff_of_true (setState_intact hi hk _ _).1 trivial, (setState_intact hi hk _ _).2⟩
  | swapIn t f =>
      simp only [step, Option.ite_none_right_eq_some] at h
      exact swapIn_intact_iff hi hk h.1 h.2
  | swapOut t f =>
      simp only [step, Option.ite_none_right_eq_some] at h
      exact swapOut_intact_iff hi hk h.1 h.2
  | call t f =>
      simp only [step, Option.ite_none_right_eq_some] at h
      exact call_intact_iff hi hk h.1 h.2
  | back t f =>
      simp only [step, Option.ite_none_right_eq_some] at h
      exact back_intact_iff hi hk h.1 h.2
  | yield t ready => exact yieldTo_intact_iff hi hk h
  | finish t except => exact finish_intact_iff hi hk h

end Calls

/-! ## Runs -/

theorem start_intact : start.Intact := by
  refine ⟨fun _ => rfl, ?_, ?_, ?_, ?_, ?_⟩
  · intro _ _ _ h
    cases h
  · intro _ _ h
    cases h
  · intro _ _ h
    cases h
  · exact fun f _ _ hf => absurd hf (Nat.not_lt_zero f)
  · exact fun f hf => absurd hf (Nat.not_lt_zero f)

theorem start_known : start.Known :=
  ⟨fun _ _ h => absurd h (by simp [start]), fun _ => Iff.rfl,
    fun _ _ h => absurd h (by simp [start]), fun _ _ h => absurd h (by simp [start])⟩

/-- **In a run of any calls on any threads, the contexts are intact throughout exactly when
every switch is good and no fibre that runs is reset.** -/
theorem contexts_intact_iff {as : List FibreCall} (hrun : (machine.exec start as).isSome) :
    machine.Along Intact start as ↔ machine.StepsMeet Proper start as := by
  refine System.along_iff_stepsMeet (fun s (h : s.Intact ∧ s.Known) => h.1) ?_ ?_
    ⟨start_intact, start_known⟩ hrun
  · rintro s a s' ⟨hi, hk⟩ hp hs
    obtain ⟨hiff, hknown⟩ := step_intact_iff hi hk hs
    exact ⟨hiff.mpr hp, hknown⟩
  · rintro s a s' ⟨hi, hk⟩ hp hs hs'
    exact hp ((step_intact_iff hi hk hs).1.mp hs')

/-- The root fibre of thread `0` runs a fibre that yields and then ends. -/
def rootRun : List FibreCall :=
  [.getThis 0, .newFibre true, .setScheduler 0 1, .newFibre false, .call 0 1, .swapIn 0 2,
    .yield 0 true, .swapIn 0 2, .finish 0 false, .finish 0 false]

theorem rootRun_intact_iff :
    (machine.exec start rootRun).isSome ∧
      (machine.Along Intact start rootRun ↔ machine.StepsMeet Proper start rootRun) :=
  ⟨by decide, contexts_intact_iff (by decide)⟩

end FibreSys
end Concurrency
end Hpgs
