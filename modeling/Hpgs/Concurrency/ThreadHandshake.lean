import Hpgs.Library.Transition

/-!
# The start of a thread

The constructor of `Thread` makes a thread of the system and waits on a semaphore;
`Thread::run` fills in the object on the new thread, moves the callback to its own stack and
posts the semaphore.  Every access to the object by `run` is one step, and any number of
threads are constructed, joined, renamed and destroyed in any order.

A destructor detaches the thread, whose `t_thread` goes on pointing to the object.  An
access to an object that is gone is noted.

**Results.**
* `step_cases`: what a step does, at one object and its thread.
* `Linked.step`: what an object and its thread know of each other.
* `thread_handshake`: the constructor returns an object that is complete, and afterwards
  nothing but `SetName` touches it; `SetName` does so after the destructor, too.
-/

namespace Hpgs
namespace Concurrency

open Transition

universe u

/-- Where `Thread::run` is. -/
inductive RunPc
  | setThis
  | setName
  | setId
  | setKernelName
  | swapCb
  | notify
  | call
  | inCb
  | done
deriving DecidableEq, Repr

/-- How many statements of `run` are behind it. -/
def RunPc.passed : RunPc → Nat
  | setThis => 0
  | setName => 1
  | setId => 2
  | setKernelName => 3
  | swapCb => 4
  | notify => 5
  | call => 6
  | inCb => 7
  | done => 8

/-- A `Thread`, with the count of its semaphore.  `handle` is `m_thread`, which is `none` for
`0`; callbacks are values of `κ`, and the empty one is `none`. -/
structure ThreadObject (κ : Type u) where
  id : Int
  handle : Option Nat
  cb : Option κ
  name : String
  count : Nat
  constructed : Bool
  alive : Bool

/-- A thread of the system, with its `t_thread` and `t_thread_name`, and how often it was
joined or detached. -/
structure OsThread (κ : Type u) where
  pc : RunPc
  arg : Nat
  tid : Int
  this : Option Nat
  name : String
  cb : Option κ
  releases : Nat

/-- All `Thread`s and the threads that they stand for, by number, with the callbacks that
the constructors were given and those that were called. -/
structure ThreadSys (κ : Type u) where
  given : List (Option κ)
  object : Nat → ThreadObject κ
  thread : Nat → OsThread κ
  calls : List (Nat × κ)
  misused : Bool

/-- Who moves.  `create` is a constructor up to its wait, with the new thread's id, or
`none` if `pthread_create` fails; `caller` is the thread that joins, if it is one of
these. -/
inductive ThreadStep (κ : Type u)
  | create (cb : Option κ) (name : String) (tid : Option Int)
  | wait (o : Nat)
  | waitFails (o : Nat)
  | run (w : Nat)
  | setName (w : Nat) (name : String)
  | join (o : Nat) (caller : Option Nat)
  | destroy (o : Nat)

namespace ThreadSys

variable {κ : Type u}

def setObject (s : ThreadSys κ) (o : Nat) (obj : ThreadObject κ) : ThreadSys κ :=
  { s with object := Function.update s.object o obj }

def setThread (s : ThreadSys κ) (w : Nat) (th : OsThread κ) : ThreadSys κ :=
  { s with thread := Function.update s.thread w th }

/-- An access to an object by a thread. -/
def touch (s : ThreadSys κ) (o : Nat) : ThreadSys κ :=
  { s with misused := s.misused || !(s.object o).alive }

/-- The constructor, up to `m_semaphore.wait()`.  It throws if `pthread_create` fails. -/
def create (s : ThreadSys κ) (cb : Option κ) (name : String) : Option Int → ThreadSys κ
  | none => s
  | some tid =>
      let k := s.given.length
      { s with
        given := s.given ++ [cb]
        object := Function.update s.object k
          { id := -1
            handle := some k
            cb := cb
            name := if name = "" then "UNKNOW" else name
            count := 0
            constructed := false
            alive := true }
        thread := Function.update s.thread k
          { pc := .setThis
            arg := k
            tid := tid
            this := none
            name := "UNKNOW"
            cb := none
            releases := 0 } }

/-- One statement of `Thread::run`; to call an empty callback ends the process. -/
def run (s : ThreadSys κ) (w : Nat) : Option (ThreadSys κ) :=
  let th := s.thread w
  let obj := s.object th.arg
  let touched := s.touch th.arg
  match th.pc with
  | .setThis => some (s.setThread w { th with pc := .setName, this := some th.arg })
  | .setName => some (touched.setThread w { th with pc := .setId, name := obj.name })
  | .setId =>
      some ((touched.setObject th.arg { obj with id := th.tid }).setThread w
        { th with pc := .setKernelName })
  | .setKernelName => some (touched.setThread w { th with pc := .swapCb })
  | .swapCb =>
      some ((touched.setObject th.arg { obj with cb := th.cb }).setThread w
        { th with pc := .notify, cb := obj.cb })
  | .notify =>
      some ((touched.setObject th.arg { obj with count := obj.count + 1 }).setThread w
        { th with pc := .call })
  | .call =>
      th.cb.map fun c =>
        { s with calls := s.calls ++ [(w, c)] }.setThread w { th with pc := .inCb }
  | .inCb => some (s.setThread w { th with pc := .done })
  | .done => none

/-- `Thread::SetName`, called by the callback of a thread. -/
def setName (s : ThreadSys κ) (w : Nat) (name : String) : ThreadSys κ :=
  let th := s.thread w
  if name = "" then s
  else
    match th.this with
    | some o =>
        ((s.touch o).setObject o { s.object o with name := name }).setThread w
          { th with name := name }
    | none => s.setThread w { th with name := name }

/-- `Thread::join`.  It throws if a thread joins itself. -/
def join (s : ThreadSys κ) (o : Nat) (caller : Option Nat) : Option (ThreadSys κ) :=
  let obj := s.object o
  match obj.handle with
  | none => some s
  | some w =>
      if caller = some w then some s
      else if (s.thread w).pc = .done then
        some ((s.setObject o { obj with handle := none }).setThread w
          { s.thread w with releases := (s.thread w).releases + 1 })
      else none

/-- `~Thread`. -/
def destroy (s : ThreadSys κ) (o : Nat) : ThreadSys κ :=
  let obj := s.object o
  let gone := s.setObject o { obj with alive := false }
  match obj.handle with
  | none => gone
  | some w => gone.setThread w { s.thread w with releases := (s.thread w).releases + 1 }

/-- The constructor has returned and the destructor has not been called. -/
def Usable (s : ThreadSys κ) (o : Nat) : Prop :=
  o < s.given.length ∧ (s.object o).constructed = true ∧ (s.object o).alive = true

/-- The constructor waits. -/
def Waiting (s : ThreadSys κ) (o : Nat) : Prop :=
  o < s.given.length ∧ (s.object o).constructed = false ∧ (s.object o).alive = true

instance (s : ThreadSys κ) (o : Nat) : Decidable (s.Usable o) :=
  inferInstanceAs (Decidable (_ ∧ _))

instance (s : ThreadSys κ) (o : Nat) : Decidable (s.Waiting o) :=
  inferInstanceAs (Decidable (_ ∧ _))

def step (s : ThreadSys κ) : ThreadStep κ → Option (ThreadSys κ)
  | .create cb name tid => some (s.create cb name tid)
  | .wait o =>
      if s.Waiting o ∧ 0 < (s.object o).count then
        some (s.setObject o
          { s.object o with count := (s.object o).count - 1, constructed := true })
      else none
  | .waitFails o =>
      if s.Waiting o then some (s.setObject o { s.object o with alive := false }) else none
  | .run w => if w < s.given.length then s.run w else none
  | .setName w name =>
      if w < s.given.length ∧ (s.thread w).pc = .inCb then some (s.setName w name) else none
  | .join o caller => if s.Usable o then s.join o caller else none
  | .destroy o => if s.Usable o then some (s.destroy o) else none

/-- No `Thread` was constructed. -/
def start : ThreadSys κ where
  given := []
  object := fun _ => ⟨-1, none, none, "", 0, false, false⟩
  thread := fun _ => ⟨.setThis, 0, 0, none, "UNKNOW", none, 0⟩
  calls := []
  misused := false

/-- All runs of `Thread`. -/
def system (κ : Type u) : System (ThreadSys κ) (ThreadStep κ) where
  init s := s = start
  step := step

/-- No wait of a constructor is interrupted by a signal. -/
def Uninterrupted (_ : ThreadSys κ) : ThreadStep κ → Prop
  | .waitFails _ => False
  | _ => True

instance (s : ThreadSys κ) (a : ThreadStep κ) : Decidable (s.Uninterrupted a) := by
  unfold Uninterrupted
  cases a <;> infer_instance

/-- The callbacks that the thread has called. -/
def callsOf (s : ThreadSys κ) (i : Nat) : List κ :=
  (s.calls.filter fun x => x.1 = i).map Prod.snd

end ThreadSys

/-! ## One object and its thread -/

section Pairs

variable {κ : Type u}

/-- What a step does to an object and its thread, and what it calls. -/
inductive PairStep (obj : ThreadObject κ) (th : OsThread κ) :
    ThreadObject κ → OsThread κ → List κ → Prop
  | same : PairStep obj th obj th []
  | wait : obj.constructed = false → 0 < obj.count →
      PairStep obj th { obj with count := obj.count - 1, constructed := true } th []
  | setThis : th.pc = .setThis →
      PairStep obj th obj { th with pc := .setName, this := some th.arg } []
  | setName : th.pc = .setName →
      PairStep obj th obj { th with pc := .setId, name := obj.name } []
  | setId : th.pc = .setId →
      PairStep obj th { obj with id := th.tid } { th with pc := .setKernelName } []
  | setKernelName : th.pc = .setKernelName → PairStep obj th obj { th with pc := .swapCb } []
  | swapCb : th.pc = .swapCb →
      PairStep obj th { obj with cb := th.cb } { th with pc := .notify, cb := obj.cb } []
  | notify : th.pc = .notify →
      PairStep obj th { obj with count := obj.count + 1 } { th with pc := .call } []
  | call {c : κ} : th.pc = .call → th.cb = some c → PairStep obj th obj { th with pc := .inCb } [c]
  | ends : th.pc = .inCb → PairStep obj th obj { th with pc := .done } []
  | rename (name : String) : th.pc = .inCb →
      PairStep obj th { obj with name := name } { th with name := name } []
  | join {w : Nat} : obj.handle = some w → obj.alive = true → th.pc = .done →
      PairStep obj th { obj with handle := none } { th with releases := th.releases + 1 } []
  | destroyJoined : obj.handle = none → obj.constructed = true →
      PairStep obj th { obj with alive := false } th []
  | destroy {w : Nat} : obj.handle = some w → obj.constructed = true → obj.alive = true →
      PairStep obj th { obj with alive := false } { th with releases := th.releases + 1 } []

/-- What object number `i`, made with `cb`, and its thread know of each other. -/
structure Linked (i : Nat) (cb : Option κ) (obj : ThreadObject κ) (th : OsThread κ)
    (calls : List κ) : Prop where
  arg : th.arg = i
  handle : obj.handle = some i ∨ obj.handle = none ∧ th.pc = .done
  this : th.this = if 1 ≤ th.pc.passed then some i else none
  name : obj.alive = true → th.name = if 2 ≤ th.pc.passed then obj.name else "UNKNOW"
  id : obj.id = if 3 ≤ th.pc.passed then th.tid else -1
  stored : obj.cb = if th.pc.passed ≤ 4 then cb else none
  moved : th.cb = if 5 ≤ th.pc.passed then cb else none
  count : obj.count + obj.constructed.toNat = if 6 ≤ th.pc.passed then 1 else 0
  calls : calls = if 7 ≤ th.pc.passed then cb.toList else []
  called : if 7 ≤ th.pc.passed then cb ≠ none else True
  alive : obj.alive = false → obj.constructed = true
  released : th.releases = if obj.handle = none ∨ obj.alive = false then 1 else 0

namespace Linked

variable {i : Nat} {cb : Option κ} {obj obj' : ThreadObject κ} {th th' : OsThread κ}
  {calls new : List κ}

/-- When the constructor has returned, `run` is past its last access. -/
theorem passed (h : Linked i cb obj th calls) (hc : obj.constructed = true) :
    6 ≤ th.pc.passed := by
  have hcount := h.count
  rw [hc] at hcount
  by_contra hlt
  rw [if_neg hlt] at hcount
  exact absurd hcount (Nat.succ_ne_zero _)

/-- Before that the object is there. -/
theorem alive_of_lt (h : Linked i cb obj th calls) (hlt : th.pc.passed < 6) :
    obj.alive = true := by
  rw [← Bool.not_eq_false]
  intro hgone
  exact absurd (h.passed (h.alive hgone)) (Nat.not_le_of_lt hlt)

/-- The thread was not joined while it runs. -/
theorem handle_of_ne (h : Linked i cb obj th calls) (hpc : th.pc ≠ .done) :
    obj.handle = some i :=
  h.handle.resolve_right fun hdone => hpc hdone.2

theorem handle_eq (h : Linked i cb obj th calls) {w : Nat} (hw : obj.handle = some w) :
    w = i := by
  rcases h.handle with hsame | ⟨hnone, _⟩
  · exact Option.some.inj (hw.symm.trans hsame)
  · cases hw.symm.trans hnone

/-- **Step lemma for a pair.** -/
theorem step (h : Linked i cb obj th calls) (hstep : PairStep obj th obj' th' new) :
    Linked i cb obj' th' (calls ++ new) := by
  have hold := List.append_nil calls
  cases hstep with
  | same =>
      rw [hold]
      exact h
  | wait hc hcount =>
      rw [hold]
      have hone := h.count
      rw [hc] at hone
      exact {
        h with
        count := by
          rw [← hone]
          exact Nat.sub_add_cancel hcount
        alive := fun _ => rfl }
  | setThis hpc =>
      rw [hold]
      have hhandle := h.handle_of_ne (by rw [hpc]; decide)
      obtain ⟨pc, arg, tid, this, name, moved, releases⟩ := th
      obtain rfl : pc = .setThis := hpc
      exact {
        h with
        this := congrArg some h.arg
        handle := Or.inl hhandle }
  | setName hpc =>
      rw [hold]
      have hhandle := h.handle_of_ne (by rw [hpc]; decide)
      obtain ⟨pc, arg, tid, this, name, moved, releases⟩ := th
      obtain rfl : pc = .setName := hpc
      exact {
        h with
        name := fun _ => rfl
        handle := Or.inl hhandle }
  | setId hpc =>
      rw [hold]
      have hhandle := h.handle_of_ne (by rw [hpc]; decide)
      obtain ⟨pc, arg, tid, this, name, moved, releases⟩ := th
      obtain rfl : pc = .setId := hpc
      exact {
        h with
        id := rfl
        handle := Or.inl hhandle }
  | setKernelName hpc =>
      rw [hold]
      have hhandle := h.handle_of_ne (by rw [hpc]; decide)
      obtain ⟨pc, arg, tid, this, name, moved, releases⟩ := th
      obtain rfl : pc = .setKernelName := hpc
      exact {
        h with
        handle := Or.inl hhandle }
  | swapCb hpc =>
      rw [hold]
      have hhandle := h.handle_of_ne (by rw [hpc]; decide)
      obtain ⟨pc, arg, tid, this, name, moved, releases⟩ := th
      obtain rfl : pc = .swapCb := hpc
      exact {
        h with
        stored := h.moved
        moved := h.stored
        handle := Or.inl hhandle }
  | notify hpc =>
      rw [hold]
      have hhandle := h.handle_of_ne (by rw [hpc]; decide)
      have hcount := h.count
      obtain ⟨pc, arg, tid, this, name, moved, releases⟩ := th
      obtain rfl : pc = .notify := hpc
      exact {
        h with
        count := by
          rw [Nat.add_right_comm, hcount]
          rfl
        handle := Or.inl hhandle }
  | @call c hpc hcb =>
      have hhandle := h.handle_of_ne (by rw [hpc]; decide)
      obtain ⟨pc, arg, tid, this, name, moved, releases⟩ := th
      obtain rfl : pc = .call := hpc
      obtain rfl : moved = some c := hcb
      have hgiven : some c = cb := h.moved
      have hnone : calls = [] := h.calls
      exact {
        h with
        calls := by
          rw [hnone, ← hgiven]
          rfl
        called := by
          rw [← hgiven]
          exact Option.some_ne_none c
        handle := Or.inl hhandle }
  | ends hpc =>
      rw [hold]
      have hhandle := h.handle_of_ne (by rw [hpc]; decide)
      obtain ⟨pc, arg, tid, this, name, moved, releases⟩ := th
      obtain rfl : pc = .inCb := hpc
      exact {
        h with
        handle := Or.inl hhandle }
  | rename name hpc =>
      rw [hold]
      obtain ⟨pc, arg, tid, this, name', moved, releases⟩ := th
      obtain rfl : pc = .inCb := hpc
      exact {
        h with
        name := fun _ => rfl }
  | join hw halive hpc =>
      rw [hold]
      have hreleased := h.released
      rw [if_neg (by simp [hw, halive])] at hreleased
      exact {
        h with
        handle := Or.inr ⟨rfl, hpc⟩
        released := by
          rw [if_pos (Or.inl rfl), hreleased] }
  | destroyJoined hw hc =>
      rw [hold]
      have hreleased := h.released
      rw [if_pos (Or.inl hw)] at hreleased
      exact {
        h with
        name := fun hgone => absurd hgone Bool.false_ne_true
        alive := fun _ => hc
        released := by
          rw [if_pos (Or.inr rfl), hreleased] }
  | destroy hw hc halive =>
      rw [hold]
      have hreleased := h.released
      rw [if_neg (by simp [hw, halive])] at hreleased
      exact {
        h with
        name := fun hgone => absurd hgone Bool.false_ne_true
        alive := fun _ => hc
        released := by
          rw [if_pos (Or.inr rfl), hreleased] }

end Linked

end Pairs

/-! ## All objects -/

namespace ThreadSys

variable {κ : Type u} {s t : ThreadSys κ}

/-- Every object is linked to its thread. -/
structure Inv (s : ThreadSys κ) : Prop where
  linked : ∀ i cb, s.given[i]? = some cb →
    Linked i cb (s.object i) (s.thread i) (s.callsOf i)
  calls : ∀ x ∈ s.calls, x.1 < s.given.length

/-- The step touches an object that is gone. -/
def Misuses (s : ThreadSys κ) : ThreadStep κ → Prop
  | .setName w name => name ≠ "" ∧ (s.object w).alive = false
  | _ => False

/-- What changes at object `i` and its thread. -/
structure Changes (s t : ThreadSys κ) (i : Nat) (obj : ThreadObject κ) (th : OsThread κ)
    (new : List κ) : Prop where
  given : t.given = s.given
  object : t.object = Function.update s.object i obj
  thread : t.thread = Function.update s.thread i th
  calls : t.calls = s.calls ++ new.map (Prod.mk i)

/-- What a step does. -/
inductive Moves (s : ThreadSys κ) : ThreadSys κ → Prop
  | same : Moves s s
  | created (cb : Option κ) (name : String) (tid : Int) :
      Moves s (s.create cb name (some tid))
  | pair {t : ThreadSys κ} {i : Nat} {obj : ThreadObject κ} {th : OsThread κ} {new : List κ} :
      i < s.given.length →
      PairStep (s.object i) (s.thread i) obj th new →
      Changes s t i obj th new →
      Moves s t

theorem Inv.linked_of_lt (h : s.Inv) {i : Nat} (hi : i < s.given.length) :
    ∃ cb, Linked i cb (s.object i) (s.thread i) (s.callsOf i) :=
  ⟨_, h.linked i _ (List.getElem?_eq_getElem hi)⟩

theorem touch_eq {o : Nat} (h : (s.object o).alive = true) : s.touch o = s := by
  rw [touch, h]
  simp

/-- One statement of `run`, which finds its object. -/
theorem run_cases {i : Nat} {cb : Option κ} {calls : List κ}
    (h : Linked i cb (s.object i) (s.thread i) calls) (hrun : s.run i = some t) :
    ∃ obj th new, PairStep (s.object i) (s.thread i) obj th new ∧ Changes s t i obj th new ∧
      t.misused = s.misused := by
  have hobject := (Function.update_eq_self i s.object).symm
  have hcalls := (List.append_nil s.calls).symm
  have harg := h.arg
  rw [run] at hrun
  cases hth : s.thread i with
  | mk pc arg tid this name moved releases =>
      rw [hth] at hrun harg
      obtain rfl : arg = i := harg
      have htouch : pc.passed < 6 → s.touch arg = s := fun hlt =>
        touch_eq (h.alive_of_lt (by rw [hth]; exact hlt))
      cases pc with
      | setThis =>
          obtain rfl := Option.some.inj hrun
          exact ⟨_, _, _, .setThis rfl, ⟨rfl, hobject, rfl, hcalls⟩, rfl⟩
      | setName =>
          rw [htouch (by decide)] at hrun
          obtain rfl := Option.some.inj hrun
          exact ⟨_, _, _, .setName rfl, ⟨rfl, hobject, rfl, hcalls⟩, rfl⟩
      | setId =>
          rw [htouch (by decide)] at hrun
          obtain rfl := Option.some.inj hrun
          exact ⟨_, _, _, .setId rfl, ⟨rfl, rfl, rfl, hcalls⟩, rfl⟩
      | setKernelName =>
          rw [htouch (by decide)] at hrun
          obtain rfl := Option.some.inj hrun
          exact ⟨_, _, _, .setKernelName rfl, ⟨rfl, hobject, rfl, hcalls⟩, rfl⟩
      | swapCb =>
          rw [htouch (by decide)] at hrun
          obtain rfl := Option.some.inj hrun
          exact ⟨_, _, _, .swapCb rfl, ⟨rfl, rfl, rfl, hcalls⟩, rfl⟩
      | notify =>
          rw [htouch (by decide)] at hrun
          obtain rfl := Option.some.inj hrun
          exact ⟨_, _, _, .notify rfl, ⟨rfl, rfl, rfl, hcalls⟩, rfl⟩
      | call =>
          obtain ⟨c, hc, rfl⟩ := Option.map_eq_some_iff.mp hrun
          exact ⟨_, _, _, .call rfl hc, ⟨rfl, hobject, rfl, rfl⟩, rfl⟩
      | inCb =>
          obtain rfl := Option.some.inj hrun
          exact ⟨_, _, _, .ends rfl, ⟨rfl, hobject, rfl, hcalls⟩, rfl⟩
      | done => cases hrun

/-- `SetName`, in the callback of a thread. -/
theorem setName_cases {i : Nat} {cb : Option κ} {calls : List κ}
    (h : Linked i cb (s.object i) (s.thread i) calls) (hpc : (s.thread i).pc = .inCb)
    {name : String} (hname : name ≠ "") :
    ∃ obj th new, PairStep (s.object i) (s.thread i) obj th new ∧
      Changes s (s.setName i name) i obj th new ∧
      ((s.setName i name).misused = true ↔
        s.misused = true ∨ (s.object i).alive = false) := by
  have hthis : (s.thread i).this = some i := by
    rw [h.this, hpc]
    rfl
  have heq : s.setName i name =
      ((s.touch i).setObject i { s.object i with name := name }).setThread i
        { s.thread i with name := name } := by
    unfold setName
    dsimp only
    rw [if_neg hname]
    split
    · rename_i o ho
      obtain rfl : o = i := Option.some.inj (ho.symm.trans hthis)
      rfl
    · rename_i hnone
      cases hnone.symm.trans hthis
  rw [heq]
  refine ⟨_, _, _, .rename name hpc, ⟨rfl, rfl, rfl, (List.append_nil _).symm⟩, ?_⟩
  simp [touch, setObject, setThread]

/-- Only the handle of an object that is not joined yet leads to its thread. -/
theorem join_cases {i : Nat} {cb : Option κ} {calls : List κ}
    (h : Linked i cb (s.object i) (s.thread i) calls) (halive : (s.object i).alive = true)
    {caller : Option Nat} (hjoin : s.join i caller = some t) :
    t = s ∨ ∃ obj th new, PairStep (s.object i) (s.thread i) obj th new ∧
      Changes s t i obj th new ∧ t.misused = s.misused := by
  unfold join at hjoin
  dsimp only at hjoin
  split at hjoin
  · exact Or.inl (Option.some.inj hjoin).symm
  · rename_i w hsome
    obtain rfl := h.handle_eq hsome
    split_ifs at hjoin with hself hdone
    · exact Or.inl (Option.some.inj hjoin).symm
    · obtain rfl := Option.some.inj hjoin
      exact Or.inr ⟨_, _, _, .join hsome halive hdone,
        ⟨rfl, rfl, rfl, (List.append_nil _).symm⟩, rfl⟩

theorem destroy_cases {i : Nat} {cb : Option κ} {calls : List κ}
    (h : Linked i cb (s.object i) (s.thread i) calls) (hc : (s.object i).constructed = true)
    (halive : (s.object i).alive = true) :
    ∃ obj th new, PairStep (s.object i) (s.thread i) obj th new ∧
      Changes s (s.destroy i) i obj th new ∧ (s.destroy i).misused = s.misused := by
  unfold destroy
  dsimp only
  split
  · rename_i hnone
    exact ⟨_, _, _, .destroyJoined hnone hc,
      ⟨rfl, rfl, (Function.update_eq_self i s.thread).symm, (List.append_nil _).symm⟩, rfl⟩
  · rename_i w hsome
    obtain rfl := h.handle_eq hsome
    exact ⟨_, _, _, .destroy hsome hc halive, ⟨rfl, rfl, rfl, (List.append_nil _).symm⟩, rfl⟩

/-- **Inversion.**  A step is at one object and its thread, or makes them. -/
theorem step_cases (h : s.Inv) {a : ThreadStep κ} (hu : s.Uninterrupted a)
    (hst : s.step a = some t) :
    Moves s t ∧ (t.misused = true ↔ s.misused = true ∨ s.Misuses a) := by
  have hkeep : ¬ s.Misuses a → t.misused = s.misused →
      (t.misused = true ↔ s.misused = true ∨ s.Misuses a) := fun hno heq => by
    rw [heq, or_iff_left hno]
  cases a with
  | create cb name tid =>
      obtain rfl := Option.some.inj hst
      cases tid with
      | none => exact ⟨.same, hkeep id rfl⟩
      | some tid => exact ⟨.created cb name tid, hkeep id rfl⟩
  | wait o =>
      rw [step] at hst
      obtain ⟨⟨hwaiting, hcount⟩, heq⟩ := Option.ite_none_right_eq_some.mp hst
      obtain rfl := Option.some.inj heq
      exact ⟨.pair hwaiting.1 (.wait hwaiting.2.1 hcount)
        ⟨rfl, rfl, (Function.update_eq_self o s.thread).symm, (List.append_nil _).symm⟩,
        hkeep id rfl⟩
  | waitFails o => exact hu.elim
  | run w =>
      rw [step] at hst
      obtain ⟨hw, hrun⟩ := Option.ite_none_right_eq_some.mp hst
      obtain ⟨cb, hlinked⟩ := h.linked_of_lt hw
      obtain ⟨obj, th, new, hpair, hchanges, hmisused⟩ := run_cases hlinked hrun
      exact ⟨.pair hw hpair hchanges, hkeep id hmisused⟩
  | setName w name =>
      rw [step] at hst
      obtain ⟨⟨hw, hpc⟩, heq⟩ := Option.ite_none_right_eq_some.mp hst
      obtain rfl := Option.some.inj heq
      by_cases hname : name = ""
      · rw [setName, if_pos hname]
        exact ⟨.same, (or_iff_left fun hm => hm.1 hname).symm⟩
      · obtain ⟨cb, hlinked⟩ := h.linked_of_lt hw
        obtain ⟨obj, th, new, hpair, hchanges, hmisused⟩ := setName_cases hlinked hpc hname
        exact ⟨.pair hw hpair hchanges, hmisused.trans (or_congr_right (and_iff_right hname).symm)⟩
  | join o caller =>
      rw [step] at hst
      obtain ⟨⟨ho, hc, halive⟩, hjoin⟩ := Option.ite_none_right_eq_some.mp hst
      obtain ⟨cb, hlinked⟩ := h.linked_of_lt ho
      rcases join_cases hlinked halive hjoin with rfl | ⟨obj, th, new, hpair, hchanges, hmisused⟩
      · exact ⟨.same, hkeep id rfl⟩
      · exact ⟨.pair ho hpair hchanges, hkeep id hmisused⟩
  | destroy o =>
      rw [step] at hst
      obtain ⟨⟨ho, hc, halive⟩, heq⟩ := Option.ite_none_right_eq_some.mp hst
      obtain rfl := Option.some.inj heq
      obtain ⟨cb, hlinked⟩ := h.linked_of_lt ho
      obtain ⟨obj, th, new, hpair, hchanges, hmisused⟩ := destroy_cases hlinked hc halive
      exact ⟨.pair ho hpair hchanges, hkeep id hmisused⟩

/-! ## Every run -/

theorem callsOf_eq_nil {i : Nat} (h : ∀ x ∈ s.calls, x.1 ≠ i) : s.callsOf i = [] := by
  rw [callsOf, List.map_eq_nil_iff, List.filter_eq_nil_iff]
  intro x hx
  simpa using h x hx

theorem callsOf_changes {i : Nat} {obj : ThreadObject κ} {th : OsThread κ} {new : List κ}
    (h : Changes s t i obj th new) (j : Nat) :
    t.callsOf j = s.callsOf j ++ if j = i then new else [] := by
  have hnew : ((new.map (Prod.mk i)).filter fun x => x.1 = j).map Prod.snd =
      if j = i then new else [] := by
    rw [List.filter_map, List.map_map]
    split
    · rename_i heq
      subst heq
      simp [Function.comp_def]
    · rename_i hne
      simp [Function.comp_def, Ne.symm hne]
  rw [callsOf, h.calls, List.filter_append, List.map_append, hnew]
  rfl

/-- What `create` makes. -/
theorem linked_create (h : s.Inv) (cb : Option κ) (name : String) (tid : Int) :
    Linked s.given.length cb ((s.create cb name (some tid)).object s.given.length)
      ((s.create cb name (some tid)).thread s.given.length)
      ((s.create cb name (some tid)).callsOf s.given.length) := by
  have hcalls : (s.create cb name (some tid)).callsOf s.given.length = [] :=
    callsOf_eq_nil fun x hx => Nat.ne_of_lt (h.calls x hx)
  rw [hcalls, create]
  simp only [Function.update_self]
  exact {
    arg := rfl
    handle := Or.inl rfl
    this := rfl
    name := fun _ => rfl
    id := rfl
    stored := rfl
    moved := rfl
    count := rfl
    calls := rfl
    called := trivial
    alive := fun hgone => absurd hgone.symm Bool.false_ne_true
    released := by simp }

/-- **Step lemma.** -/
theorem Inv.step (h : s.Inv) (hmoves : Moves s t) : t.Inv := by
  cases hmoves with
  | same => exact h
  | created cb name tid =>
      refine ⟨fun i cb' hi => ?_, fun x hx => ?_⟩
      · rcases Nat.lt_or_ge i s.given.length with hlt | hge
        · have hold : s.given[i]? = some cb' := by
            rw [← hi]
            exact (List.getElem?_append_left hlt).symm
          have hlinked := h.linked i cb' hold
          rw [create, callsOf]
          simp only [Function.update_of_ne (Nat.ne_of_lt hlt)]
          exact hlinked
        · have hbound := (List.getElem?_eq_some_iff.mp hi).1
          have hlen : (s.create cb name (some tid)).given.length = s.given.length + 1 :=
            List.length_append
          obtain rfl : i = s.given.length := by omega
          have hsame : (s.create cb name (some tid)).given[s.given.length]? = some cb :=
            List.getElem?_concat_length
          obtain rfl := Option.some.inj (hsame.symm.trans hi)
          exact linked_create h cb name tid
      · have hlt := h.calls x hx
        have hlen : (s.create cb name (some tid)).given.length = s.given.length + 1 :=
          List.length_append
        omega
  | @pair t i obj th new hi hpair hchanges =>
      refine ⟨fun j cb hj => ?_, fun x hx => ?_⟩
      · rw [hchanges.given] at hj
        have hlinked := h.linked j cb hj
        rw [callsOf_changes hchanges, hchanges.object, hchanges.thread]
        by_cases hji : j = i
        · subst hji
          rw [Function.update_self, Function.update_self, if_pos rfl]
          exact hlinked.step hpair
        · rw [Function.update_of_ne hji, Function.update_of_ne hji, if_neg hji, List.append_nil]
          exact hlinked
      · rw [hchanges.calls] at hx
        rw [hchanges.given]
        rcases List.mem_append.mp hx with hold | hnew
        · exact h.calls x hold
        · obtain ⟨c, _, rfl⟩ := List.mem_map.mp hnew
          exact hi

theorem inv_of_reachable (h : (system κ).Reachable Uninterrupted s) : s.Inv := by
  refine h.invariant Inv ?_ ?_
  · rintro s rfl
    exact {
      linked := fun i cb hi => by cases hi
      calls := fun x hx => by cases hx }
  · intro s a t hs hu hst
    exact hs.step (step_cases hs hu hst).1

/-- What the threads can rely on for `Thread` number `i`, made with `cb`. -/
structure Handshake (s : ThreadSys κ) (i : Nat) (cb : Option κ) : Prop where
  complete : (s.object i).constructed = true →
    (s.object i).id = (s.thread i).tid ∧ (s.object i).cb = none ∧ (s.thread i).this = some i
  names : (s.object i).alive = true → 2 ≤ (s.thread i).pc.passed →
    (s.thread i).name = (s.object i).name
  called : ((s.thread i).pc.passed < 7 ∧ s.callsOf i = []) ∨
    7 ≤ (s.thread i).pc.passed ∧ ∃ c, cb = some c ∧ s.callsOf i = [c]
  joined : (s.object i).handle = none → (s.thread i).pc = .done
  released : (s.thread i).releases =
    if (s.object i).handle = none ∨ (s.object i).alive = false then 1 else 0

theorem Inv.handshake (h : s.Inv) {i : Nat} {cb : Option κ} (hi : s.given[i]? = some cb) :
    s.Handshake i cb := by
  have hlinked := h.linked i cb hi
  refine
    { complete := fun hc => ?_
      names := fun halive hpassed => ?_
      called := ?_
      joined := fun hnone => ?_
      released := hlinked.released }
  · have hpassed := hlinked.passed hc
    refine ⟨?_, ?_, ?_⟩
    · rw [hlinked.id, if_pos (by omega)]
    · rw [hlinked.stored, if_neg (by omega)]
    · rw [hlinked.this, if_pos (by omega)]
  · rw [hlinked.name halive, if_pos hpassed]
  · have hcalls := hlinked.calls
    have hcalled := hlinked.called
    by_cases hpassed : 7 ≤ (s.thread i).pc.passed
    · rw [if_pos hpassed] at hcalls hcalled
      obtain ⟨c, hc⟩ := Option.ne_none_iff_exists'.mp hcalled
      refine Or.inr ⟨hpassed, c, hc, ?_⟩
      rw [hcalls, hc]
      rfl
    · rw [if_neg hpassed] at hcalls
      exact Or.inl ⟨Nat.lt_of_not_le hpassed, hcalls⟩
  · rcases hlinked.handle with hsome | ⟨_, hdone⟩
    · cases hnone.symm.trans hsome
    · exact hdone

end ThreadSys

open ThreadSys

/-- **The handshake.**  In every state, of all `Thread`s whose waits were not interrupted: a
constructor has returned only when the object has the thread's id and `run` has its
callback; the thread and the object agree on the name while the object is there; the
callback is called once; and the thread is joined, when it has ended, or detached, once.
The next step touches an object that is gone if and only if it is a `SetName` of a thread
whose object was destroyed. -/
theorem thread_handshake {κ : Type u} {s : ThreadSys κ}
    (h : (ThreadSys.system κ).Reachable Uninterrupted s) :
    (∀ i cb, s.given[i]? = some cb → s.Handshake i cb) ∧
      ∀ a t, s.Uninterrupted a → s.step a = some t →
        (t.misused = true ↔ s.misused = true ∨ s.Misuses a) :=
  ⟨fun _ _ hi => (inv_of_reachable h).handshake hi,
    fun _ _ hu hst => (step_cases (inv_of_reachable h) hu hst).2⟩

/-- A `Thread` is destroyed while its callback, which has renamed it, goes on. -/
def detachedRun : List (ThreadStep Nat) :=
  [.create (some 5) "io" (some 42), .run 0, .run 0, .run 0, .run 0, .run 0, .run 0, .wait 0, .run 0,
    .setName 0 "net", .destroy 0]

theorem thread_handshake_detached :
    ∃ s, (ThreadSys.system Nat).execIf Uninterrupted ThreadSys.start detachedRun = some s ∧
      (∀ i cb, s.given[i]? = some cb → s.Handshake i cb) ∧
        ∀ a t, s.Uninterrupted a → s.step a = some t →
          (t.misused = true ↔ s.misused = true ∨ s.Misuses a) := by
  obtain ⟨s, hs⟩ : ∃ s, (ThreadSys.system Nat).execIf Uninterrupted ThreadSys.start detachedRun =
      some s := ⟨_, rfl⟩
  exact ⟨s, hs, thread_handshake (System.execIf_reachable rfl hs)⟩

end Concurrency
end Hpgs
