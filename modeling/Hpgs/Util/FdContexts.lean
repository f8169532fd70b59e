import Hpgs.Library.Transition
import Hpgs.Util.FdManager

/-!
# One context for an open file descriptor

Any number of threads call `get` and `del` of `FdManager`.  A `get` that finds no context
lets go of the read lock before it takes the write lock, and another thread can come in
between.

**Results.**
* `step_keeps`: what was handed out and not deleted since stays in its slot, if no
  creation finds its slot filled or cuts the table.
* `one_context`: two calls of `get` without a `del` between them return one context, in
  every run with such creations only.
* `two_contexts`: two threads that both found no context.
-/

namespace Hpgs
namespace Util

open Transition

/-- What has happened to a descriptor: a `get` has returned a context, or `del` was called. -/
inductive FdEvent
  | got (fd : Int) (c : Nat)
  | del (fd : Int)
deriving DecidableEq

/-- The table, the descriptor that a thread is about to create a context for, and what
happened so far. -/
structure FdSys where
  mgr : FdManager
  creating : Nat → Option Int
  history : List FdEvent

/-- The sections that a thread runs. -/
inductive FdLabel
  | lookup (t : Nat) (fd : Int) (autoCreate : Bool)
  | create (t : Nat) (fstat : Option Bool) (flags : BitVec 32)
  | del (t : Nat) (fd : Int)
deriving DecidableEq

/-- All calls of `get` on a descriptor that return a context, without a `del` between
them, return the same one. -/
def OneContext (history : List FdEvent) : Prop :=
  ∀ fd c c' h₁ h₂ h₃, history = h₁ ++ .got fd c :: (h₂ ++ .got fd c' :: h₃) →
    .del fd ∉ h₂ → c = c'

namespace FdSys

/-- The read-locked section of `get`. -/
def lookup (s : FdSys) (t : Nat) (fd : Int) (autoCreate : Bool) : Option FdSys :=
  match s.mgr.lookup fd autoCreate with
  | .returns none => some s
  | .returns (some c) => some { s with history := s.history ++ [.got fd c] }
  | .creates => some { s with creating := Function.update s.creating t (some fd) }
  | .outOfBounds => none

/-- The write-locked section of `get`. -/
def create (s : FdSys) (t : Nat) (fd : Int) (fstat : Option Bool) (flags : BitVec 32) :
    Option FdSys :=
  match s.mgr.create fd fstat flags with
  | none => none
  | some (c, m) =>
      some
        { mgr := m
          creating := Function.update s.creating t none
          history := s.history ++ [.got fd c] }

def step (s : FdSys) : FdLabel → Option FdSys
  | .lookup t fd autoCreate =>
      match s.creating t with
      | none => s.lookup t fd autoCreate
      | some _ => none
  | .create t fstat flags =>
      match s.creating t with
      | none => none
      | some fd => s.create t fd fstat flags
  | .del t fd =>
      match s.creating t with
      | none => (s.mgr.del fd).map fun m => { s with mgr := m, history := s.history ++ [.del fd] }
      | some _ => none

def start : FdSys where
  mgr := .new
  creating := fun _ => none
  history := []

/-- All runs of `get` and `del`. -/
def system : System FdSys FdLabel where
  init s := s = start
  step := step

/-- A creation finds its slot empty, and a growth of the table does not cut it. -/
def FindsEmpty (s : FdSys) : FdLabel → Prop
  | .create t _ _ =>
      ∀ fd ∈ s.creating t,
        (∀ c ∈ s.mgr.slot fd, c = none) ∧
          (s.mgr.intSize ≤ fd → s.mgr.datas.length ≤ fd.toNat * 3 / 2)
  | _ => True

instance (s : FdSys) (a : FdLabel) : Decidable (s.FindsEmpty a) := by
  unfold FindsEmpty
  cases a <;> infer_instance

/-! ## What a section keeps -/

/-- Every context that was handed out, and not deleted since, is in its slot. -/
def Handed (m : FdManager) (history : List FdEvent) : Prop :=
  ∀ fd c h₁ h₂, history = h₁ ++ .got fd c :: h₂ → .del fd ∉ h₂ → m.slot fd = some (some c)

variable {m m' : FdManager} {h : List FdEvent} {fd : Int} {c : Nat}

/-- The last event is the one split off, or it lies behind it. -/
theorem split_concat {h₁ h₂ : List FdEvent} {e x : FdEvent}
    (heq : h ++ [e] = h₁ ++ x :: h₂) :
    (h₂ = [] ∧ h = h₁ ∧ e = x) ∨ ∃ h₂', h₂ = h₂' ++ [e] ∧ h = h₁ ++ x :: h₂' := by
  rcases List.eq_nil_or_concat h₂ with rfl | ⟨h₂', y, rfl⟩
  · obtain ⟨hinit, hlast⟩ := List.append_inj' heq rfl
    exact Or.inl ⟨rfl, hinit, List.singleton_inj.mp hlast⟩
  · have hassoc : h ++ [e] = (h₁ ++ x :: h₂') ++ [y] := by
      rw [heq, List.append_assoc, List.cons_append, List.concat_eq_append]
    obtain ⟨hinit, hlast⟩ := List.append_inj' hassoc rfl
    obtain rfl := List.singleton_inj.mp hlast
    exact Or.inr ⟨h₂', List.concat_eq_append, hinit⟩

/-- One more event, which is no `get` of another context. -/
theorem oneContext_concat {e : FdEvent} (hone : OneContext h)
    (hsame : ∀ fd c, e = .got fd c → ∀ c' h₁ h₂, h = h₁ ++ .got fd c' :: h₂ →
      .del fd ∉ h₂ → c' = c) :
    OneContext (h ++ [e]) := by
  intro fd c₁ c₂ h₁ h₂ h₃ heq hdel
  have hsplit : h ++ [e] = (h₁ ++ .got fd c₁ :: h₂) ++ .got fd c₂ :: h₃ := by
    rw [heq, List.append_assoc, List.cons_append]
  rcases split_concat hsplit with ⟨_, hhist, hlast⟩ | ⟨h₃', _, hhist⟩
  · exact hsame fd c₂ hlast c₁ h₁ h₂ hhist hdel
  · rw [List.append_assoc, List.cons_append] at hhist
    exact hone fd c₁ c₂ h₁ h₂ h₃' hhist hdel

/-- A `get` that returns the context that was handed out last. -/
theorem oneContext_got (hone : OneContext h)
    (hsame : ∀ c' h₁ h₂, h = h₁ ++ .got fd c' :: h₂ → .del fd ∉ h₂ → c' = c) :
    OneContext (h ++ [.got fd c]) := by
  refine oneContext_concat hone fun fd' c₀ he => ?_
  cases he
  exact hsame

theorem oneContext_del (hone : OneContext h) : OneContext (h ++ [.del fd]) :=
  oneContext_concat hone fun _ _ he => nomatch he

/-- A `get` of what is in the slot keeps what was handed out in its slots. -/
theorem handed_got (hkeep : ∀ fd' c', m.slot fd' = some (some c') → fd' ≠ fd →
      m'.slot fd' = some (some c'))
    (hsame : ∀ c' h₁ h₂, h = h₁ ++ .got fd c' :: h₂ → .del fd ∉ h₂ → c' = c)
    (hslot : m'.slot fd = some (some c)) (hhanded : Handed m h) :
    Handed m' (h ++ [.got fd c]) := by
  intro fd' c' h₁ h₂ heq hdel
  rcases split_concat heq with ⟨_, _, hlast⟩ | ⟨h₂', rfl, hhist⟩
  · cases hlast
    exact hslot
  · have hdel' : .del fd' ∉ h₂' := fun hmem => hdel (List.mem_append_left _ hmem)
    by_cases hfd : fd' = fd
    · subst hfd
      rw [hsame c' h₁ h₂' hhist hdel']
      exact hslot
    · exact hkeep fd' c' (hhanded fd' c' h₁ h₂' hhist hdel') hfd

theorem handed_del (hkeep : ∀ fd', fd' ≠ fd → m'.slot fd' = m.slot fd') (hhanded : Handed m h) :
    Handed m' (h ++ [.del fd]) := by
  intro fd' c' h₁ h₂ heq hdel
  rcases split_concat heq with ⟨_, _, hlast⟩ | ⟨h₂', rfl, hhist⟩
  · cases hlast
  · rw [List.mem_append, List.mem_singleton, not_or] at hdel
    have hfd : fd' ≠ fd := fun hfd => hdel.2 (by rw [hfd])
    rw [hkeep fd' hfd]
    exact hhanded fd' c' h₁ h₂' hhist hdel.1

structure Inv (s : FdSys) : Prop where
  one : OneContext s.history
  handed : Handed s.mgr s.history

theorem start_inv : start.Inv where
  one := by
    intro fd c c' h₁ h₂ h₃ heq
    exact absurd heq.symm (List.append_ne_nil_of_right_ne_nil _ (List.cons_ne_nil _ _))
  handed := by
    intro fd c h₁ h₂ heq
    exact absurd heq.symm (List.append_ne_nil_of_right_ne_nil _ (List.cons_ne_nil _ _))

/-- **What was handed out stays in its slot.** -/
theorem step_keeps {s s' : FdSys} {a : FdLabel} (hs : s.Inv) (hc : s.FindsEmpty a)
    (hst : s.step a = some s') : s'.Inv := by
  cases a with
  | lookup t fd autoCreate =>
      simp only [step] at hst
      split at hst
      · unfold lookup at hst
        split at hst
        · cases hst
          exact hs
        · rename_i c hlook
          cases hst
          have hslot := FdManager.slot_of_lookup hlook
          have hsame : ∀ c' h₁ h₂, s.history = h₁ ++ .got fd c' :: h₂ → .del fd ∉ h₂ → c' = c := by
            intro c' h₁ h₂ hhist hdel
            have hslot' := hs.handed fd c' h₁ h₂ hhist hdel
            rw [hslot] at hslot'
            cases hslot'
            rfl
          exact ⟨oneContext_got hs.one hsame,
            handed_got (fun _ _ h _ => h) hsame hslot hs.handed⟩
        · cases hst
          exact ⟨hs.one, hs.handed⟩
        · cases hst
      · cases hst
  | create t fstat flags =>
      simp only [step] at hst
      split at hst
      · cases hst
      · rename_i fd hfd
        obtain ⟨hempty, hcut⟩ := hc fd hfd
        unfold create at hst
        split at hst
        · cases hst
        · rename_i c m hcreate
          cases hst
          obtain ⟨hslot, hothers⟩ := FdManager.create_slot hcreate hcut
          -- nothing was handed out, for it would be in the slot
          have hsame : ∀ c' h₁ h₂, s.history = h₁ ++ .got fd c' :: h₂ → .del fd ∉ h₂ → c' = c := by
            intro c' h₁ h₂ hhist hdel
            have hslot' := hs.handed fd c' h₁ h₂ hhist hdel
            exact absurd (hempty _ hslot') (Option.some_ne_none c')
          exact ⟨oneContext_got hs.one hsame,
            handed_got (fun fd' c' h hne => hothers fd' _ hne h) hsame hslot hs.handed⟩
  | del t fd =>
      simp only [step] at hst
      split at hst
      · rw [Option.map_eq_some_iff] at hst
        obtain ⟨m, hdel, rfl⟩ := hst
        exact ⟨oneContext_del hs.one,
          handed_del (fun fd' hne => FdManager.del_slot hdel hne) hs.handed⟩
      · cases hst

end FdSys

/-- **One context for an open descriptor.**  In every run in which each creation finds its
slot empty and does not cut the table, two calls of `get` on a descriptor without a `del`
between them return the same context. -/
theorem one_context {s : FdSys} (h : FdSys.system.Reachable FdSys.FindsEmpty s) :
    OneContext s.history := by
  refine (h.invariant FdSys.Inv ?_ (fun s a t hs hc hst => FdSys.step_keeps hs hc hst)).one
  rintro s rfl
  exact FdSys.start_inv

/-- A socket is opened, used, and closed; its descriptor comes back behind the table. -/
def reopened : List FdLabel :=
  [.lookup 0 5 true, .create 0 (some true) 2, .lookup 1 5 false, .lookup 1 70 true, .del 0 5,
    .create 1 (some true) 2, .lookup 0 5 true, .create 0 (some true) 2, .lookup 2 70 true]

theorem one_context_reopened :
    ∃ s, FdSys.system.execIf FdSys.FindsEmpty FdSys.start reopened = some s ∧
      s.history = [.got 5 0, .got 5 0, .del 5, .got 70 1, .got 5 2, .got 70 1] ∧
      OneContext s.history := by
  have hrun : (FdSys.system.execIf FdSys.FindsEmpty FdSys.start reopened).map FdSys.history =
      some [.got 5 0, .got 5 0, .del 5, .got 70 1, .got 5 2, .got 70 1] := by
    decide
  obtain ⟨s, hs, hhist⟩ := Option.map_eq_some_iff.mp hrun
  exact ⟨s, hs, hhist, one_context (System.execIf_reachable rfl hs)⟩

/-- Two threads find no context, and both create one. -/
theorem two_contexts :
    ¬ ∀ s, FdSys.system.Reachable anyStep s → OneContext s.history := by
  intro hall
  have hrun : (FdSys.system.exec FdSys.start
      [.lookup 0 5 true, .lookup 1 5 true, .create 0 (some true) 2, .create 1 (some true) 2]).map
        FdSys.history = some [.got 5 0, .got 5 1] := by
    decide
  obtain ⟨s, hs, hhist⟩ := Option.map_eq_some_iff.mp hrun
  have hone := hall s (System.exec_reachable rfl hs)
  rw [hhist] at hone
  have hsame : 0 = 1 := hone 5 0 1 [] [] [] rfl List.not_mem_nil
  cases hsame

end Util
end Hpgs
