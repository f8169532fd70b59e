import Hpgs.Util.SocketTimeouts
import Mathlib.Logic.Function.Basic

/-!
# Descriptors that are opened and closed

The hooked `socket` and `accept` create a context for the descriptor that they got, and the
hooked `close` deletes it before it closes the descriptor.  A thread whose hook is off opens
and closes descriptors behind the back of `FdManager`, and the system gives a descriptor
that was closed to the next file.  The sections of `FdManager` are steps of their own, and
threads take their steps in any order.

Files are numbered as they are opened.  Beside the table there is, for each context, the
file that was open on its descriptor when it was created, and for each file the timeouts
that were set on it since it was opened; no code reads them.

**Results.**
* `own_context_iff`: the context of an open descriptor is one of its own file in every state
  of a run, exactly if no descriptor is opened while its slot is occupied.
* `closed_hooked`: this is so where all threads close with the hook on, and leave a
  descriptor alone that another one opens or closes; and the timeouts of a context are
  those that were set on its own file.
-/

namespace Hpgs
namespace Util

open Transition

/-- What a thread is about to do inside a hooked function. -/
inductive Doing
  | idle
  /-- `socket` or `accept`, before the read-locked section of `get`. -/
  | get (fd : Int)
  /-- The same, before the write-locked section. -/
  | create (fd : Int)
  /-- `close`, before `del`. -/
  | del (fd : Int)
  /-- `close`, before `close_f`. -/
  | close (fd : Int)
deriving DecidableEq

/-- The descriptor that a thread works on. -/
def Doing.fd? : Doing → Option Int
  | idle => none
  | get fd => some fd
  | create fd => some fd
  | del fd => some fd
  | close fd => some fd

/-- The table, the files that are open, and what the threads are doing. -/
structure HookedFds where
  mgr : FdManager
  files : Int → Option Nat
  opened : Nat
  doing : Nat → Doing
  /-- The file that a context was created for. -/
  born : Nat → Option Nat
  /-- The receive timeout of a file, with `true`, and its send timeout. -/
  asked : Nat → Bool → Nat

/-- The steps of threads. -/
inductive HookedStep
  /-- `socket_f`, `accept_f` or another function of the system has opened `fd`. -/
  | opens (t : Nat) (hook : Bool) (fd : Int)
  | lookup (t : Nat)
  | create (t : Nat) (fstat : Option Bool) (flags : BitVec 32)
  /-- `close`, with its `get`. -/
  | close (t : Nat) (hook : Bool) (fd : Int)
  | del (t : Nat)
  | closeF (t : Nat)
  /-- The hooked `setsockopt`. -/
  | setsockopt (t : Nat) (fd : Int) (setting : Setting)
deriving DecidableEq

namespace HookedFds

/-- A thread goes on. -/
def goes (s : HookedFds) (t : Nat) (d : Doing) : HookedFds :=
  { s with doing := Function.update s.doing t d }

/-- A file is opened on a descriptor that has none. -/
def opens (s : HookedFds) (t : Nat) (hook : Bool) (fd : Int) : HookedFds :=
  { s.goes t (if hook then .get fd else .idle) with
    files := Function.update s.files fd (some s.opened)
    opened := s.opened + 1
    asked := Function.update s.asked s.opened fun _ => noTimeout }

/-- The read-locked section of `get(fd, true)`. -/
def lookup (s : HookedFds) (t : Nat) (fd : Int) : Option HookedFds :=
  match s.mgr.lookup fd true with
  | .returns _ => some (s.goes t .idle)
  | .creates => some (s.goes t (.create fd))
  | .outOfBounds => none

/-- The write-locked section. -/
def create (s : HookedFds) (t : Nat) (fd : Int) (fstat : Option Bool) (flags : BitVec 32) :
    Option HookedFds :=
  (s.mgr.create fd fstat flags).map fun r =>
    { s.goes t .idle with
      mgr := r.2
      born := Function.update s.born r.1 (s.files fd) }

/-- The beginning of `close`. -/
def close (s : HookedFds) (t : Nat) (hook : Bool) (fd : Int) : Option HookedFds :=
  if hook then
    match s.mgr.lookup fd false with
    | .returns (some _) => some (s.goes t (.del fd))
    | .returns none => some (s.goes t (.close fd))
    | _ => none
  else some (s.goes t (.close fd))

/-- A setting is asked for a file. -/
def ask (asked : Bool → Nat) (setting : Setting) : Bool → Nat :=
  fun recv => if setting.sets recv then setting.v.ms.getD noTimeout else asked recv

/-- `setsockopt`, with its `get`: the context takes the setting, and the file is asked it.  A
descriptor without a context has none to take it, and the setting is not recorded. -/
def setsockopt (s : HookedFds) (fd : Int) (setting : Setting) : Option HookedFds :=
  match s.mgr.lookup fd false with
  | .returns (some c) =>
      (s.mgr.contexts[c]?.bind fun ctx => settings.step ctx setting).map fun ctx =>
        { s with
          mgr := { s.mgr with contexts := s.mgr.contexts.set c ctx }
          asked := match s.files fd with
            | some f => Function.update s.asked f (ask (s.asked f) setting)
            | none => s.asked }
  | .returns none => some s
  | _ => none

/-- One step; `none` where the thread is not about to take it, and for an access out of
bounds. -/
def step (s : HookedFds) : HookedStep → Option HookedFds
  | .opens t hook fd =>
      if s.doing t = .idle ∧ 0 ≤ fd ∧ s.files fd = none then some (s.opens t hook fd)
      else none
  | .lookup t =>
      match s.doing t with
      | .get fd => s.lookup t fd
      | _ => none
  | .create t fstat flags =>
      match s.doing t with
      | .create fd =>
          if fstat.isSome = (s.files fd).isSome then s.create t fd fstat flags else none
      | _ => none
  | .close t hook fd => if s.doing t = .idle then s.close t hook fd else none
  | .del t =>
      match s.doing t with
      | .del fd => (s.mgr.del fd).map fun mgr => { s.goes t (.close fd) with mgr := mgr }
      | _ => none
  | .closeF t =>
      match s.doing t with
      | .close fd => some { s.goes t .idle with files := Function.update s.files fd none }
      | _ => none
  | .setsockopt t fd setting =>
      if s.doing t = .idle then s.setsockopt fd setting else none

/-- The constructor of the table, with no file open. -/
def start : HookedFds where
  mgr := .new
  files _ := none
  opened := 0
  doing _ := .idle
  born _ := none
  asked _ _ := noTimeout

end HookedFds

/-- The runs of all threads. -/
def hookedFds : System HookedFds HookedStep where
  init s := s = HookedFds.start
  step := HookedFds.step

namespace HookedFds

variable {s s' : HookedFds}

/-! ## The properties -/

/-- The context `c` is in the slot of `fd`. -/
def Occupied (s : HookedFds) (fd : Int) (c : Nat) : Prop :=
  s.mgr.slot fd = some (some c)

instance (s : HookedFds) (fd : Int) (c : Nat) : Decidable (s.Occupied fd c) :=
  inferInstanceAs (Decidable (_ = _))

/-- The contexts of open descriptors were created for the files that are open on them. -/
def OwnContexts (s : HookedFds) : Prop :=
  ∀ fd f c, s.files fd = some f → s.Occupied fd c → s.born c = some f

/-- The timeouts of these contexts are those that were set on the files. -/
def OwnTimeouts (s : HookedFds) : Prop :=
  ∀ fd f c, s.files fd = some f → s.Occupied fd c →
    ∃ ctx, s.mgr.contexts[c]? = some ctx ∧ ∀ recv, ctx.getTimeout recv = s.asked f recv

/-- No descriptor is opened while its slot is occupied. -/
def OpensEmpty (s : HookedFds) : HookedStep → Prop
  | .opens _ _ fd => ∀ c, ¬ s.Occupied fd c
  | _ => True

/-- No thread is about to work on the descriptor. -/
def Free (s : HookedFds) (fd : Int) : Prop :=
  ∀ t, (s.doing t).fd? ≠ some fd

/-- Threads close with the hook on, and only what is open and what no other thread works on; they
set timeouts of what no other thread works on; and descriptors are below `2 ^ 30`, so that the
size of the table is an `int`. -/
def ClosesHooked (s : HookedFds) : HookedStep → Prop
  | .opens _ _ fd => fd < 2 ^ 30
  | .close _ hook fd => hook = true ∧ s.files fd ≠ none ∧ s.Free fd
  | .setsockopt _ fd _ => s.Free fd
  | _ => True

/-! ## The table -/

section Table

variable {m m' : FdManager} {fd fd' : Int} {c c' : Nat}

/-- What is in the table after a creation is the new context or was there before. -/
theorem slot_create {fstat : Option Bool} {flags : BitVec 32}
    (h : m.create fd fstat flags = some (c, m')) :
    c = m.contexts.length ∧ m'.contexts = m.contexts ++ [(FdCtx.new fd fstat flags).1] ∧
      m'.slot fd = some (some c) ∧
      ∀ fd' c', fd' ≠ fd → m'.slot fd' = some (some c') → m.slot fd' = some (some c') := by
  simp only [FdManager.create, Option.ite_none_right_eq_some, Option.some.injEq,
    Prod.mk.injEq] at h
  obtain ⟨⟨hpos, hlt⟩, rfl, rfl⟩ := h
  refine ⟨rfl, rfl, ?_, fun fd' c' hne hslot => ?_⟩
  · rw [FdManager.slot_of_nonneg hpos, List.getElem?_set_self hlt]
  · have hpos' := FdManager.nonneg_of_slot hslot
    rw [FdManager.slot_of_nonneg hpos', List.getElem?_set_ne (by omega)] at hslot
    rw [FdManager.slot_of_nonneg hpos']
    simp only [FdManager.enlarged] at hslot
    split_ifs at hslot
    · rw [FdManager.resize, List.getElem?_append] at hslot
      split_ifs at hslot with hin
      · rw [List.getElem?_take] at hslot
        split_ifs at hslot
        exact hslot
      · rw [List.getElem?_replicate] at hslot
        split_ifs at hslot
        cases Option.some.inj hslot
    · exact hslot

/-- The size of the table is an `int`. -/
def Small (m : FdManager) : Prop :=
  m.datas.length < 2 ^ 31

theorem intSize_of_small (h : Small m) : m.intSize = m.datas.length := by
  rw [Small] at h
  rw [FdManager.intSize, BitVec.toInt_eq_toNat_of_lt]
  · simp only [BitVec.toNat_ofNat]
    omega
  · simp only [BitVec.toNat_ofNat]
    omega

theorem small_create {fstat : Option Bool} {flags : BitVec 32} (hm : Small m)
    (hfd : fd < 2 ^ 30) (h : m.create fd fstat flags = some (c, m')) : Small m' := by
  simp only [FdManager.create, Option.ite_none_right_eq_some, Option.some.injEq,
    Prod.mk.injEq] at h
  obtain ⟨_, _, rfl⟩ := h
  rw [Small] at *
  simp only [List.length_set, FdManager.enlarged]
  split_ifs
  · simp only [FdManager.resize, List.length_append, List.length_take, List.length_replicate]
    omega
  · exact hm

/-- A table of this size has no slot for a descriptor behind its end. -/
theorem slot_eq_none (hm : Small m) (h : m.intSize ≤ fd) : m.slot fd = none := by
  rw [intSize_of_small hm] at h
  rw [FdManager.slot_of_nonneg (by omega), List.getElem?_eq_none (by omega)]

/-- `del` empties the slot. -/
theorem slot_del (hm : Small m) (h : m.del fd = some m') : m'.slot fd ≠ some (some c) := by
  simp only [FdManager.del] at h
  split_ifs at h with hbehind
  · obtain rfl := Option.some.inj h
    simp [slot_eq_none hm hbehind]
  · rw [Option.map_eq_some_iff] at h
    obtain ⟨ctx, hslot, rfl⟩ := h
    have hpos := FdManager.nonneg_of_slot hslot
    rw [FdManager.slot_of_nonneg hpos] at hslot ⊢
    rw [List.getElem?_set_self (List.getElem?_eq_some_iff.mp hslot).1]
    simp

/-- What is in the table after a deletion was there before. -/
theorem slot_of_del (h : m.del fd = some m') (hslot : m'.slot fd' = some (some c)) :
    m.slot fd' = some (some c) := by
  by_cases hfd : fd' = fd
  · subst hfd
    simp only [FdManager.del] at h
    split_ifs at h
    · obtain rfl := Option.some.inj h
      exact hslot
    · obtain ⟨ctx, hin, rfl⟩ := Option.map_eq_some_iff.mp h
      have hpos := FdManager.nonneg_of_slot hin
      rw [FdManager.slot_of_nonneg hpos] at hin hslot
      rw [List.getElem?_set_self (List.getElem?_eq_some_iff.mp hin).1] at hslot
      cases Option.some.inj hslot
  · rw [← FdManager.del_slot h hfd]
    exact hslot

theorem datas_length_del (h : m.del fd = some m') :
    m'.datas.length = m.datas.length ∧ m'.contexts = m.contexts := by
  simp only [FdManager.del] at h
  split_ifs at h
  · obtain rfl := Option.some.inj h
    exact ⟨rfl, rfl⟩
  · rw [Option.map_eq_some_iff] at h
    obtain ⟨ctx, _, rfl⟩ := h
    exact ⟨List.length_set .., rfl⟩

/-- `get` finds nothing where there is nothing. -/
theorem lookup_returns_none {autoCreate : Bool} (hm : Small m)
    (h : m.lookup fd autoCreate = .returns none) : m.slot fd ≠ some (some c) := by
  simp only [FdManager.lookup] at h
  split_ifs at h with hminus hbehind
  · simp [hminus, FdManager.slot]
  · simp [slot_eq_none hm hbehind]
  · split at h
    · cases h
    · next ctx hslot =>
        split_ifs at h
        obtain rfl := Looked.returns.inj h
        simp [hslot]

/-- A context is created where there is none. -/
theorem lookup_creates {autoCreate : Bool} (hm : Small m)
    (h : m.lookup fd autoCreate = .creates) : m.slot fd ≠ some (some c) := by
  simp only [FdManager.lookup] at h
  split_ifs at h with _ hbehind
  · simp [slot_eq_none hm hbehind]
  · split at h
    · cases h
    · next ctx hslot =>
        split_ifs at h with hsome
        rw [Bool.or_eq_true, not_or] at hsome
        intro heq
        rw [hslot, Option.some.injEq] at heq
        simp [heq] at hsome

end Table

/-! ## What a step does -/

theorem opens_eq_some {t : Nat} {hook : Bool} {fd : Int}
    (h : s.step (.opens t hook fd) = some s') :
    s.doing t = .idle ∧ 0 ≤ fd ∧ s.files fd = none ∧ s' = s.opens t hook fd := by
  simp only [step, Option.ite_none_right_eq_some, Option.some.injEq] at h
  obtain ⟨⟨hidle, hpos, hnone⟩, rfl⟩ := h
  exact ⟨hidle, hpos, hnone, rfl⟩

theorem lookup_eq_some {t : Nat} (h : s.step (.lookup t) = some s') :
    ∃ fd, s.doing t = .get fd ∧
      ((∃ c, s.mgr.lookup fd true = .returns c ∧ s' = s.goes t .idle) ∨
        (s.mgr.lookup fd true = .creates ∧ s' = s.goes t (.create fd))) := by
  simp only [step] at h
  split at h
  · next fd hdoing =>
      refine ⟨fd, hdoing, ?_⟩
      simp only [lookup] at h
      split at h
      · next c hlook => exact .inl ⟨c, hlook, (Option.some.inj h).symm⟩
      · next hlook => exact .inr ⟨hlook, (Option.some.inj h).symm⟩
      · cases h
  · cases h

theorem create_eq_some {t : Nat} {fstat : Option Bool} {flags : BitVec 32}
    (h : s.step (.create t fstat flags) = some s') :
    ∃ fd c m, s.doing t = .create fd ∧ fstat.isSome = (s.files fd).isSome ∧
      s.mgr.create fd fstat flags = some (c, m) ∧
      s' = { s.goes t .idle with mgr := m, born := Function.update s.born c (s.files fd) } := by
  simp only [step] at h
  split at h
  · next fd hdoing =>
      split_ifs at h with hstat
      simp only [create, Option.map_eq_some_iff] at h
      obtain ⟨⟨c, m⟩, hcreate, rfl⟩ := h
      exact ⟨fd, c, m, hdoing, hstat, hcreate, rfl⟩
  · cases h

theorem close_eq_some {t : Nat} {hook : Bool} {fd : Int}
    (h : s.step (.close t hook fd) = some s') :
    s.doing t = .idle ∧
      (s' = s.goes t (.del fd) ∨
        (s' = s.goes t (.close fd) ∧
          (hook = true → s.mgr.lookup fd false = .returns none))) := by
  simp only [step, Option.ite_none_right_eq_some] at h
  obtain ⟨hidle, h⟩ := h
  refine ⟨hidle, ?_⟩
  cases hook with
  | false => exact .inr ⟨(Option.some.inj h).symm, fun hf => by cases hf⟩
  | true =>
      simp only [close, if_true] at h
      split at h
      · exact .inl (Option.some.inj h).symm
      · next hlook => exact .inr ⟨(Option.some.inj h).symm, fun _ => hlook⟩
      · cases h

theorem del_eq_some {t : Nat} (h : s.step (.del t) = some s') :
    ∃ fd m, s.doing t = .del fd ∧ s.mgr.del fd = some m ∧
      s' = { s.goes t (.close fd) with mgr := m } := by
  simp only [step] at h
  split at h
  · next fd hdoing =>
      obtain ⟨m, hdel, rfl⟩ := Option.map_eq_some_iff.mp h
      exact ⟨fd, m, hdoing, hdel, rfl⟩
  · cases h

theorem closeF_eq_some {t : Nat} (h : s.step (.closeF t) = some s') :
    ∃ fd, s.doing t = .close fd ∧
      s' = { s.goes t .idle with files := Function.update s.files fd none } := by
  simp only [step] at h
  split at h
  · next fd hdoing => exact ⟨fd, hdoing, (Option.some.inj h).symm⟩
  · cases h

theorem setsockopt_eq_some {t : Nat} {fd : Int} {setting : Setting}
    (h : s.step (.setsockopt t fd setting) = some s') :
    s' = s ∨ ∃ c ctx ctx', s.Occupied fd c ∧ s.mgr.contexts[c]? = some ctx ∧
      settings.step ctx setting = some ctx' ∧
      s' = { s with
        mgr := { s.mgr with contexts := s.mgr.contexts.set c ctx' }
        asked := match s.files fd with
          | some f => Function.update s.asked f (ask (s.asked f) setting)
          | none => s.asked } := by
  simp only [step, Option.ite_none_right_eq_some, setsockopt] at h
  obtain ⟨_, h⟩ := h
  split at h
  · next c hlook =>
      obtain ⟨ctx', hset, rfl⟩ := Option.map_eq_some_iff.mp h
      obtain ⟨ctx, hctx, hset⟩ := Option.bind_eq_some_iff.mp hset
      exact .inr ⟨c, ctx, ctx', FdManager.slot_of_lookup hlook, hctx, hset, rfl⟩
  · exact .inl (Option.some.inj h).symm
  · cases h

/-! ## Contexts and files -/

/-- Contexts in the table were created, for files that were opened. -/
structure Tracked (s : HookedFds) : Prop where
  created : ∀ fd c, s.Occupied fd c → c < s.mgr.contexts.length
  opened : ∀ fd f, s.files fd = some f → f < s.opened
  born : ∀ c f, s.born c = some f → f < s.opened

theorem start_not_occupied {fd : Int} {c : Nat} : ¬ start.Occupied fd c := by
  intro h
  have hpos := FdManager.nonneg_of_slot h
  rw [Occupied, FdManager.slot_of_nonneg hpos, start, FdManager.new,
    List.getElem?_replicate] at h
  split_ifs at h
  cases Option.some.inj h

theorem start_tracked : Tracked start where
  created := fun _ _ h => absurd h start_not_occupied
  opened := by
    intro fd f h
    cases h
  born := by
    intro c f h
    cases h

/-- A context after one step was there before, or was created by the step. -/
theorem occupied_step {a : HookedStep} (hstep : s.step a = some s') {fd : Int} {c : Nat}
    (h : s'.Occupied fd c) :
    s.Occupied fd c ∨ ∃ t fstat flags, a = .create t fstat flags ∧ s.doing t = .create fd ∧
      c = s.mgr.contexts.length := by
  cases a with
  | opens t hook fd' =>
      obtain ⟨_, _, _, rfl⟩ := opens_eq_some hstep
      exact .inl h
  | lookup t =>
      obtain ⟨fd', _, ⟨_, _, rfl⟩ | ⟨_, rfl⟩⟩ := lookup_eq_some hstep
      · exact .inl h
      · exact .inl h
  | create t fstat flags =>
      obtain ⟨fd', c', m, hdoing, _, hcreate, rfl⟩ := create_eq_some hstep
      obtain ⟨hc, _, hslot, hothers⟩ := slot_create hcreate
      by_cases hfd : fd = fd'
      · subst hfd
        rw [Occupied, hslot, Option.some.injEq, Option.some.injEq] at h
        exact .inr ⟨t, fstat, flags, rfl, hdoing, h ▸ hc⟩
      · exact .inl (hothers fd c hfd h)
  | close t hook fd' =>
      obtain ⟨_, rfl | ⟨rfl, _⟩⟩ := close_eq_some hstep
      · exact .inl h
      · exact .inl h
  | del t =>
      obtain ⟨fd', m, _, hdel, rfl⟩ := del_eq_some hstep
      exact .inl (slot_of_del hdel h)
  | closeF t =>
      obtain ⟨fd', _, rfl⟩ := closeF_eq_some hstep
      exact .inl h
  | setsockopt t fd' setting =>
      rcases setsockopt_eq_some hstep with rfl | ⟨c', _, _, _, _, _, rfl⟩
      · exact .inl h
      · exact .inl h

/-- The files after one step. -/
theorem files_step {a : HookedStep} (hstep : s.step a = some s') :
    (s'.files = s.files ∧ s'.opened = s.opened) ∨
      (∃ t hook fd, a = .opens t hook fd ∧
        s'.files = Function.update s.files fd (some s.opened) ∧ s'.opened = s.opened + 1) ∨
      (∃ t fd, a = .closeF t ∧ s.doing t = .close fd ∧
        s'.files = Function.update s.files fd none ∧ s'.opened = s.opened) := by
  cases a with
  | opens t hook fd =>
      obtain ⟨_, _, _, rfl⟩ := opens_eq_some hstep
      exact .inr (.inl ⟨t, hook, fd, rfl, rfl, rfl⟩)
  | lookup t =>
      obtain ⟨fd, _, ⟨_, _, rfl⟩ | ⟨_, rfl⟩⟩ := lookup_eq_some hstep
      · exact .inl ⟨rfl, rfl⟩
      · exact .inl ⟨rfl, rfl⟩
  | create t fstat flags =>
      obtain ⟨fd, c, m, _, _, _, rfl⟩ := create_eq_some hstep
      exact .inl ⟨rfl, rfl⟩
  | close t hook fd =>
      obtain ⟨_, rfl | ⟨rfl, _⟩⟩ := close_eq_some hstep
      · exact .inl ⟨rfl, rfl⟩
      · exact .inl ⟨rfl, rfl⟩
  | del t =>
      obtain ⟨fd, m, _, _, rfl⟩ := del_eq_some hstep
      exact .inl ⟨rfl, rfl⟩
  | closeF t =>
      obtain ⟨fd, hdoing, rfl⟩ := closeF_eq_some hstep
      exact .inr (.inr ⟨t, fd, rfl, hdoing, rfl, rfl⟩)
  | setsockopt t fd setting =>
      rcases setsockopt_eq_some hstep with rfl | ⟨_, _, _, _, _, _, rfl⟩
      · exact .inl ⟨rfl, rfl⟩
      · exact .inl ⟨rfl, rfl⟩

/-- A file after one step was open before, or is the one that the step opens. -/
theorem file_step {a : HookedStep} (hstep : s.step a = some s') {fd : Int} {f : Nat}
    (h : s'.files fd = some f) :
    s.files fd = some f ∨ ∃ t hook, a = .opens t hook fd ∧ f = s.opened := by
  rcases files_step hstep with ⟨hfiles, _⟩ | ⟨t, hook, fd', rfl, hfiles, _⟩ |
    ⟨t, fd', _, _, hfiles, _⟩
  · exact .inl (hfiles ▸ h)
  · rw [hfiles, Function.update_apply] at h
    split_ifs at h with hfd
    · exact .inr ⟨t, hook, hfd ▸ rfl, (Option.some.inj h).symm⟩
    · exact .inl h
  · rw [hfiles, Function.update_apply] at h
    split_ifs at h
    exact .inl h

theorem opened_le_step {a : HookedStep} (hstep : s.step a = some s') :
    s.opened ≤ s'.opened := by
  rcases files_step hstep with ⟨_, h⟩ | ⟨_, _, _, _, _, h⟩ | ⟨_, _, _, _, _, h⟩
  · exact Nat.le_of_eq h.symm
  · rw [h]
    exact Nat.le_succ _
  · exact Nat.le_of_eq h.symm

/-- A creation notes the file that is open; no other step notes anything. -/
theorem born_step {a : HookedStep} (hstep : s.step a = some s') :
    (∃ t fstat flags fd, a = .create t fstat flags ∧ s.doing t = .create fd ∧
      s'.born = Function.update s.born s.mgr.contexts.length (s.files fd) ∧
      s'.mgr.contexts.length = s.mgr.contexts.length + 1) ∨
    ((∀ t fstat flags, a ≠ .create t fstat flags) ∧ s'.born = s.born ∧
      s'.mgr.contexts.length = s.mgr.contexts.length) := by
  cases a with
  | opens t hook fd =>
      obtain ⟨_, _, _, rfl⟩ := opens_eq_some hstep
      exact .inr ⟨by simp, rfl, rfl⟩
  | lookup t =>
      obtain ⟨fd, _, ⟨_, _, rfl⟩ | ⟨_, rfl⟩⟩ := lookup_eq_some hstep
      · exact .inr ⟨by simp, rfl, rfl⟩
      · exact .inr ⟨by simp, rfl, rfl⟩
  | create t fstat flags =>
      obtain ⟨fd, c, m, hdoing, _, hcreate, rfl⟩ := create_eq_some hstep
      obtain ⟨rfl, hcontexts, _⟩ := slot_create hcreate
      exact .inl ⟨t, fstat, flags, fd, rfl, hdoing, rfl, by simp [hcontexts]⟩
  | close t hook fd =>
      obtain ⟨_, rfl | ⟨rfl, _⟩⟩ := close_eq_some hstep
      · exact .inr ⟨by simp, rfl, rfl⟩
      · exact .inr ⟨by simp, rfl, rfl⟩
  | del t =>
      obtain ⟨fd, m, _, hdel, rfl⟩ := del_eq_some hstep
      exact .inr ⟨by simp, rfl, congrArg List.length (datas_length_del hdel).2⟩
  | closeF t =>
      obtain ⟨fd, _, rfl⟩ := closeF_eq_some hstep
      exact .inr ⟨by simp, rfl, rfl⟩
  | setsockopt t fd setting =>
      rcases setsockopt_eq_some hstep with rfl | ⟨_, _, _, _, _, _, rfl⟩
      · exact .inr ⟨by simp, rfl, rfl⟩
      · exact .inr ⟨by simp, rfl, List.length_set ..⟩

theorem Tracked.step (h : Tracked s) {a : HookedStep} (hstep : s.step a = some s') :
    Tracked s' := by
  have hlen : s.mgr.contexts.length ≤ s'.mgr.contexts.length := by
    rcases born_step hstep with ⟨_, _, _, _, _, _, _, hlen⟩ | ⟨_, _, hlen⟩
    · omega
    · omega
  refine ⟨fun fd c hc => ?_, fun fd f hf => ?_, fun c f hb => ?_⟩
  · rcases occupied_step hstep hc with hold | ⟨t, fstat, flags, rfl, _, rfl⟩
    · exact Nat.lt_of_lt_of_le (h.created fd c hold) hlen
    · rcases born_step hstep with ⟨_, _, _, _, _, _, _, hlen⟩ | ⟨hnot, _, _⟩
      · omega
      · exact absurd rfl (hnot t fstat flags)
  · rcases file_step hstep hf with hold | ⟨t, hook, rfl, rfl⟩
    · exact Nat.lt_of_lt_of_le (h.opened fd f hold) (opened_le_step hstep)
    · obtain ⟨_, _, _, rfl⟩ := opens_eq_some hstep
      exact Nat.lt_succ_self _
  · refine Nat.lt_of_lt_of_le ?_ (opened_le_step hstep)
    rcases born_step hstep with ⟨_, _, _, fd, _, _, hborn, _⟩ | ⟨_, hborn, _⟩
    · rw [hborn, Function.update_apply] at hb
      split_ifs at hb
      · exact h.opened fd f hb
      · exact h.born c f hb
    · exact h.born c f (hborn ▸ hb)

/-- A step that opens no occupied slot. -/
theorem own_step (ht : Tracked s) (h : OwnContexts s) {a : HookedStep} (hc : OpensEmpty s a)
    (hstep : s.step a = some s') : OwnContexts s' := by
  intro fd f c hf hocc
  rcases file_step hstep hf with hold | ⟨t, hook, rfl, rfl⟩
  · rcases occupied_step hstep hocc with hocc | ⟨t, fstat, flags, rfl, hdoing, rfl⟩
    · have hlt := ht.created fd c hocc
      rcases born_step hstep with ⟨_, _, _, _, _, _, hborn, _⟩ | ⟨_, hborn, _⟩
      · rw [hborn, Function.update_of_ne (Nat.ne_of_lt hlt)]
        exact h fd f c hold hocc
      · rw [hborn]
        exact h fd f c hold hocc
    · rcases born_step hstep with ⟨_, _, _, fd', hcreate, hdoing', hborn, _⟩ | ⟨hnot, _, _⟩
      · cases hcreate
        rw [hdoing, Doing.create.injEq] at hdoing'
        rw [hborn, Function.update_self, ← hdoing', hold]
      · exact absurd rfl (hnot t fstat flags)
  · rcases occupied_step hstep hocc with hocc | ⟨_, _, _, hcreate, _, _⟩
    · exact absurd hocc (hc c)
    · cases hcreate

/-- The file that is opened is not the one of the context that it finds. -/
theorem opensEmpty_of_own (ht : Tracked s) {a : HookedStep} (hstep : s.step a = some s')
    (h : OwnContexts s') : OpensEmpty s a := by
  cases a with
  | opens t hook fd =>
      obtain ⟨_, _, _, rfl⟩ := opens_eq_some hstep
      intro c hocc
      have hfile : (s.opens t hook fd).files fd = some s.opened := by simp [opens]
      have hborn : s.born c = some s.opened := h fd s.opened c hfile hocc
      exact absurd (ht.born c s.opened hborn) (Nat.lt_irrefl _)
  | lookup t => trivial
  | create t fstat flags => trivial
  | close t hook fd => trivial
  | del t => trivial
  | closeF t => trivial
  | setsockopt t fd setting => trivial

/-! ## Programs that close with the hook on -/

theorem new_fd (fd : Int) (fstat : Option Bool) (flags : BitVec 32) :
    (FdCtx.new fd fstat flags).1.fd = fd := by
  rfl

theorem new_getTimeout (fd : Int) (fstat : Option Bool) (flags : BitVec 32) (recv : Bool) :
    (FdCtx.new fd fstat flags).1.getTimeout recv = noTimeout := by
  cases recv <;> rfl

/-- `setsockopt` leaves the descriptor of a context. -/
theorem step_fd {ctx ctx' : FdCtx} {setting : Setting}
    (h : settings.step ctx setting = some ctx') : ctx'.fd = ctx.fd := by
  rcases setsockopt_cases h with ⟨recv, ms, _, _, _, rfl⟩ | ⟨_, rfl⟩
  · cases recv <;> rfl
  · rfl

/-- Threads work on different descriptors, which are open; before the context of a
descriptor is created and after it is deleted there is none; and what has a context is
open, with the timeouts that were set on its file. -/
structure Disciplined (s : HookedFds) : Prop where
  small : Small s.mgr
  bounded : ∀ fd f, s.files fd = some f → fd < 2 ^ 30 ∧ f < s.opened
  different : ∀ fd fd' f, s.files fd = some f → s.files fd' = some f → fd = fd'
  alone : ∀ t t' fd, (s.doing t).fd? = some fd → (s.doing t').fd? = some fd → t = t'
  works : ∀ t fd, (s.doing t).fd? = some fd → s.files fd ≠ none
  empty : ∀ t fd, s.doing t = .get fd ∨ s.doing t = .create fd ∨ s.doing t = .close fd →
    ∀ c, ¬ s.Occupied fd c
  fresh : ∀ t fd f, s.doing t = .get fd ∨ s.doing t = .create fd → s.files fd = some f →
    s.asked f = fun _ => noTimeout
  owned : ∀ fd c, s.Occupied fd c → ∃ f ctx, s.files fd = some f ∧
    s.mgr.contexts[c]? = some ctx ∧ ctx.fd = fd ∧ ∀ recv, ctx.getTimeout recv = s.asked f recv

namespace Disciplined

variable {t : Nat} {fd : Int}

theorem start : Disciplined start where
  small := by
    simp [Small, HookedFds.start, FdManager.new]
  bounded := by
    intro fd f h
    cases h
  different := by
    intro fd fd' f h
    cases h
  alone := by
    intro t t' fd h
    cases h
  works := by
    intro t fd h
    cases h
  empty := fun _ _ _ _ => start_not_occupied
  fresh := fun _ _ _ _ _ => rfl
  owned := fun _ _ h => absurd h start_not_occupied

/-- A thread stops, goes on with its descriptor, or begins with one that is free. -/
theorem goes (h : Disciplined s) (t : Nat) {d : Doing}
    (hfree : ∀ fd, d.fd? = some fd →
      s.files fd ≠ none ∧ ((s.doing t).fd? = some fd ∨ s.Free fd))
    (hempty : ∀ fd, d = .get fd ∨ d = .create fd ∨ d = .close fd → ∀ c, ¬ s.Occupied fd c)
    (hfresh : ∀ fd f, d = .get fd ∨ d = .create fd → s.files fd = some f →
      s.asked f = fun _ => noTimeout) :
    Disciplined (s.goes t d) := by
  have hdoing : ∀ t', (s.goes t d).doing t' = if t' = t then d else s.doing t' :=
    fun t' => Function.update_apply s.doing t d t'
  refine { h with alone := ?_, works := ?_, empty := ?_, fresh := ?_ }
  · intro t₁ t₂ fd h₁ h₂
    rw [hdoing] at h₁ h₂
    split_ifs at h₁ h₂ with heq₁ heq₂ heq₂
    · rw [heq₁, heq₂]
    · rcases (hfree fd h₁).2 with hsame | hnot
      · exact heq₁.trans (h.alone t t₂ fd hsame h₂)
      · exact absurd h₂ (hnot t₂)
    · rcases (hfree fd h₂).2 with hsame | hnot
      · exact (h.alone t₁ t fd h₁ hsame).trans heq₂.symm
      · exact absurd h₁ (hnot t₁)
    · exact h.alone t₁ t₂ fd h₁ h₂
  · intro t' fd h'
    rw [hdoing] at h'
    split_ifs at h'
    · exact (hfree fd h').1
    · exact h.works t' fd h'
  · intro t' fd h'
    simp only [hdoing] at h'
    split_ifs at h'
    · exact hempty fd h'
    · exact h.empty t' fd h'
  · intro t' fd f h'
    simp only [hdoing] at h'
    split_ifs at h'
    · exact hfresh fd f h'
    · exact h.fresh t' fd f h'

theorem goes_idle (h : Disciplined s) (t : Nat) : Disciplined (s.goes t .idle) :=
  h.goes t (by simp [Doing.fd?]) (by simp) (by simp)

/-- A thread that stops leaves its descriptor free. -/
theorem free_goes_idle (h : Disciplined s) (hfd : (s.doing t).fd? = some fd) :
    (s.goes t .idle).Free fd := by
  intro t' h'
  simp only [HookedFds.goes, Function.update_apply] at h'
  split_ifs at h' with heq
  · cases h'
  · exact heq (h.alone t' t fd h' hfd)

/-- A file is opened. -/
theorem opened (h : Disciplined s) (hbound : fd < 2 ^ 30) (hnone : s.files fd = none) :
    Disciplined { s with
      files := Function.update s.files fd (some s.opened)
      opened := s.opened + 1
      asked := Function.update s.asked s.opened fun _ => noTimeout } := by
  have hold : ∀ fd' f, s.files fd' = some f →
      Function.update s.asked s.opened (fun _ => noTimeout) f = s.asked f :=
    fun fd' f hf => Function.update_of_ne (Nat.ne_of_lt (h.bounded fd' f hf).2) _ _
  refine { h with bounded := ?_, different := ?_, works := ?_, fresh := ?_, owned := ?_ }
  · intro fd' f hf
    simp only [Function.update_apply] at hf
    split_ifs at hf with heq
    · obtain rfl := Option.some.inj hf
      exact ⟨heq ▸ hbound, Nat.lt_succ_self _⟩
    · exact ⟨(h.bounded fd' f hf).1, Nat.lt_succ_of_lt (h.bounded fd' f hf).2⟩
  · intro fd₁ fd₂ f h₁ h₂
    simp only [Function.update_apply] at h₁ h₂
    split_ifs at h₁ h₂ with heq₁ heq₂ heq₂
    · rw [heq₁, heq₂]
    · obtain rfl := Option.some.inj h₁
      exact absurd (h.bounded fd₂ _ h₂).2 (Nat.lt_irrefl _)
    · obtain rfl := Option.some.inj h₂
      exact absurd (h.bounded fd₁ _ h₁).2 (Nat.lt_irrefl _)
    · exact h.different fd₁ fd₂ f h₁ h₂
  · intro t fd' h'
    have hne : fd' ≠ fd := by
      rintro rfl
      exact h.works t fd' h' hnone
    simp only [Function.update_of_ne hne]
    exact h.works t fd' h'
  · intro t fd' f h' hf
    simp only [Function.update_apply] at hf
    split_ifs at hf
    · obtain rfl := Option.some.inj hf
      exact Function.update_self _ _ _
    · exact (hold fd' f hf).trans (h.fresh t fd' f h' hf)
  · intro fd' c hocc
    obtain ⟨f, ctx, hf, hctx, hfd, htime⟩ := h.owned fd' c hocc
    have hne : fd' ≠ fd := by
      rintro rfl
      rw [hnone] at hf
      cases hf
    refine ⟨f, ctx, (Function.update_of_ne hne _ _).trans hf, hctx, hfd, fun recv => ?_⟩
    simp only [hold fd' f hf]
    exact htime recv

/-- A context is created on a descriptor that nobody works on any more. -/
theorem created (h : Disciplined s) {f c : Nat} {m : FdManager} {fstat : Option Bool}
    {flags : BitVec 32} (hfree : s.Free fd) (hfile : s.files fd = some f)
    (hasked : s.asked f = fun _ => noTimeout)
    (hcreate : s.mgr.create fd fstat flags = some (c, m)) (born : Nat → Option Nat) :
    Disciplined { s with mgr := m, born := born } := by
  obtain ⟨rfl, hcontexts, hslot, hothers⟩ := slot_create hcreate
  have hbound := (h.bounded fd f hfile).1
  refine { h with small := small_create h.small hbound hcreate, empty := ?_, owned := ?_ }
  · intro t' fd' h' c hocc
    have hne : fd' ≠ fd := by
      rintro rfl
      refine hfree t' ?_
      rcases h' with h' | h' | h' <;> rw [h', Doing.fd?]
    exact h.empty t' fd' h' c (hothers fd' c hne hocc)
  · intro fd' c hocc
    by_cases hfd : fd' = fd
    · subst hfd
      obtain rfl : s.mgr.contexts.length = c :=
        Option.some.inj (Option.some.inj (hslot.symm.trans hocc))
      refine ⟨f, (FdCtx.new fd' fstat flags).1, hfile, ?_, new_fd fd' fstat flags, fun recv => ?_⟩
      · simp [hcontexts]
      · simp only [hasked]
        exact new_getTimeout fd' fstat flags recv
    · obtain ⟨f', ctx, hf', hctx, hrest⟩ := h.owned fd' c (hothers fd' c hfd hocc)
      refine ⟨f', ctx, hf', ?_, hrest⟩
      simp only [hcontexts]
      rw [List.getElem?_append_left (List.getElem?_eq_some_iff.mp hctx).1]
      exact hctx

theorem deleted (h : Disciplined s) {m : FdManager} (hdel : s.mgr.del fd = some m) :
    Disciplined { s with mgr := m } := by
  obtain ⟨hlen, hcontexts⟩ := datas_length_del hdel
  refine { h with small := ?_, empty := ?_, owned := ?_ }
  · rw [Small, hlen]
    exact h.small
  · intro t fd' h' c hocc
    exact h.empty t fd' h' c (slot_of_del hdel hocc)
  · intro fd' c hocc
    simp only [hcontexts]
    exact h.owned fd' c (slot_of_del hdel hocc)

/-- A descriptor that nobody works on is closed. -/
theorem closed (h : Disciplined s) (hfree : s.Free fd) (hempty : ∀ c, ¬ s.Occupied fd c) :
    Disciplined { s with files := Function.update s.files fd none } := by
  have hold : ∀ fd' f, Function.update s.files fd none fd' = some f → s.files fd' = some f := by
    intro fd' f hf
    rw [Function.update_apply] at hf
    split_ifs at hf
    exact hf
  refine { h with bounded := ?_, different := ?_, works := ?_, fresh := ?_, owned := ?_ }
  · exact fun fd' f hf => h.bounded fd' f (hold fd' f hf)
  · exact fun fd₁ fd₂ f h₁ h₂ => h.different fd₁ fd₂ f (hold fd₁ f h₁) (hold fd₂ f h₂)
  · intro t fd' h'
    have hne : fd' ≠ fd := by
      rintro rfl
      exact hfree t h'
    simp only [Function.update_of_ne hne]
    exact h.works t fd' h'
  · exact fun t fd' f h' hf => h.fresh t fd' f h' (hold fd' f hf)
  · intro fd' c hocc
    obtain ⟨f, ctx, hf, hrest⟩ := h.owned fd' c hocc
    have hne : fd' ≠ fd := by
      rintro rfl
      exact hempty c hocc
    exact ⟨f, ctx, (Function.update_of_ne hne _ _).trans hf, hrest⟩

/-- A setting is made on a descriptor that nobody works on. -/
theorem set (h : Disciplined s) {c : Nat} {ctx ctx' : FdCtx} {setting : Setting}
    (hfree : s.Free fd) (hocc : s.Occupied fd c) (hctx : s.mgr.contexts[c]? = some ctx)
    (hset : settings.step ctx setting = some ctx') :
    Disciplined { s with
      mgr := { s.mgr with contexts := s.mgr.contexts.set c ctx' }
      asked := match s.files fd with
        | some f => Function.update s.asked f (ask (s.asked f) setting)
        | none => s.asked } := by
  obtain ⟨f, ctx₀, hf, hctx₀, hfd, htime⟩ := h.owned fd c hocc
  obtain rfl := Option.some.inj (hctx.symm.trans hctx₀)
  simp only [hf]
  -- a context in another slot is another context, of another file
  have hother : ∀ fd' f', fd' ≠ fd → s.files fd' = some f' → f' ≠ f := by
    rintro fd' f' hne hf' rfl
    exact hne (h.different fd' fd f' hf' hf)
  refine { h with fresh := ?_, owned := ?_ }
  · intro t fd' f' h' hf'
    have hne : fd' ≠ fd := by
      rintro rfl
      refine hfree t ?_
      rcases h' with h' | h' <;> rw [h', Doing.fd?]
    simp only [Function.update_of_ne (hother fd' f' hne hf')]
    exact h.fresh t fd' f' h' hf'
  · intro fd' c' hocc'
    obtain ⟨f', ctx₁, hf', hctx₁, hfd₁, htime₁⟩ := h.owned fd' c' hocc'
    by_cases hc : c' = c
    · subst hc
      obtain rfl := Option.some.inj (hctx.symm.trans hctx₁)
      obtain rfl := hfd.symm.trans hfd₁
      refine ⟨f, ctx', hf, ?_, (step_fd hset).trans hfd, fun recv => ?_⟩
      · exact List.getElem?_set_self (List.getElem?_eq_some_iff.mp hctx).1
      · simp only [Function.update_self, ask, step_getTimeout hset recv, htime recv]
    · have hne : fd' ≠ fd := by
        rintro rfl
        exact hc (Option.some.inj (Option.some.inj (hocc'.symm.trans hocc)))
      refine ⟨f', ctx₁, hf', ?_, hfd₁, fun recv => ?_⟩
      · exact (List.getElem?_set_ne (Ne.symm hc)).trans hctx₁
      · simp only [Function.update_of_ne (hother fd' f' hne hf')]
        exact htime₁ recv

/-- A descriptor that is opened has no context. -/
theorem opensEmpty (h : Disciplined s) {a : HookedStep} (hstep : s.step a = some s') :
    OpensEmpty s a := by
  cases a with
  | opens t hook fd =>
      obtain ⟨_, _, hnone, _⟩ := opens_eq_some hstep
      intro c hocc
      obtain ⟨f, _, hf, _⟩ := h.owned fd c hocc
      rw [hnone] at hf
      cases hf
  | lookup t => trivial
  | create t fstat flags => trivial
  | close t hook fd => trivial
  | del t => trivial
  | closeF t => trivial
  | setsockopt t fd setting => trivial

theorem step (h : Disciplined s) {a : HookedStep} (hc : ClosesHooked s a)
    (hstep : s.step a = some s') : Disciplined s' := by
  cases a with
  | opens t hook fd =>
      obtain ⟨hidle, _, hnone, rfl⟩ := opens_eq_some hstep
      have hempty : ∀ c, ¬ s.Occupied fd c := h.opensEmpty hstep
      have hfree : s.Free fd := fun t' h' => h.works t' fd h' hnone
      have hdoing : ∀ fd', (if hook then Doing.get fd else Doing.idle).fd? = some fd' →
          fd' = fd := by
        intro fd' h'
        cases hook with
        | false => cases h'
        | true => exact (Option.some.inj h').symm
      refine (h.opened hc hnone).goes t (fun fd' h' => ?_) (fun fd' h' => ?_) fun fd' f h' => ?_
      · obtain rfl := hdoing fd' h'
        exact ⟨by simp, .inr hfree⟩
      · obtain rfl := hdoing fd' (by rcases h' with h' | h' | h' <;> rw [h', Doing.fd?])
        exact hempty
      · obtain rfl := hdoing fd' (by rcases h' with h' | h' <;> rw [h', Doing.fd?])
        intro hf
        simp only [Function.update_self, Option.some.injEq] at hf
        simp [← hf]
  | lookup t =>
      obtain ⟨fd, hdoing, ⟨_, _, rfl⟩ | ⟨hlook, rfl⟩⟩ := lookup_eq_some hstep
      · exact h.goes_idle t
      · have hfd : (s.doing t).fd? = some fd := by rw [hdoing, Doing.fd?]
        refine h.goes t ?_ ?_ ?_
        · rintro _ ⟨⟩
          exact ⟨h.works t fd hfd, .inl hfd⟩
        · simp only [reduceCtorEq, Doing.create.injEq, or_false, false_or]
          rintro _ rfl c
          exact lookup_creates h.small hlook
        · simp only [reduceCtorEq, Doing.create.injEq, false_or]
          rintro _ f rfl
          exact h.fresh t fd f (.inl hdoing)
  | create t fstat flags =>
      obtain ⟨fd, c, m, hdoing, _, hcreate, rfl⟩ := create_eq_some hstep
      have hfd : (s.doing t).fd? = some fd := by rw [hdoing, Doing.fd?]
      obtain ⟨f, hf⟩ := Option.ne_none_iff_exists'.mp (h.works t fd hfd)
      exact (h.goes_idle t).created (h.free_goes_idle hfd) hf
        (h.fresh t fd f (.inr hdoing) hf) hcreate _
  | close t hook fd =>
      obtain ⟨hhook, hopen, hfree⟩ := hc
      obtain ⟨_, rfl | ⟨rfl, hlook⟩⟩ := close_eq_some hstep
      · refine h.goes t ?_ (by simp) (by simp)
        rintro _ ⟨⟩
        exact ⟨hopen, .inr hfree⟩
      · refine h.goes t ?_ ?_ (by simp)
        · rintro _ ⟨⟩
          exact ⟨hopen, .inr hfree⟩
        · simp only [reduceCtorEq, Doing.close.injEq, false_or]
          rintro _ rfl c
          exact lookup_returns_none h.small (hlook hhook)
  | del t =>
      obtain ⟨fd, m, hdoing, hdel, rfl⟩ := del_eq_some hstep
      have hfd : (s.doing t).fd? = some fd := by rw [hdoing, Doing.fd?]
      refine (h.deleted hdel).goes t ?_ ?_ (by simp)
      · rintro _ ⟨⟩
        exact ⟨h.works t fd hfd, .inl hfd⟩
      · simp only [reduceCtorEq, Doing.close.injEq, false_or]
        rintro _ rfl c
        exact slot_del h.small hdel
  | closeF t =>
      obtain ⟨fd, hdoing, rfl⟩ := closeF_eq_some hstep
      have hfd : (s.doing t).fd? = some fd := by rw [hdoing, Doing.fd?]
      exact (h.goes_idle t).closed (h.free_goes_idle hfd) (h.empty t fd (.inr (.inr hdoing)))
  | setsockopt t fd setting =>
      rcases setsockopt_eq_some hstep with rfl | ⟨c, ctx, ctx', hocc, hctx, hset, rfl⟩
      · exact h
      · exact h.set hc hocc hctx hset

end Disciplined

end HookedFds

/-- **Contexts of their own.**  In a run of hooked and other calls on any threads, the
context of every open descriptor was created for the file that is open on it, in every
state of the run, iff no descriptor is opened while a context is in its slot. -/
theorem own_context_iff (steps : List HookedStep)
    (hrun : (hookedFds.exec HookedFds.start steps).isSome) :
    hookedFds.Along HookedFds.OwnContexts HookedFds.start steps ↔
      hookedFds.StepsMeet HookedFds.OpensEmpty HookedFds.start steps := by
  have himp : ∀ s, HookedFds.Tracked s ∧ HookedFds.OwnContexts s → HookedFds.OwnContexts s :=
    fun _ h => h.2
  have hstart : HookedFds.OwnContexts HookedFds.start := by
    intro fd f c hf
    cases hf
  refine System.along_iff_stepsMeet himp ?_ ?_ ⟨HookedFds.start_tracked, hstart⟩ hrun
  · rintro s a s' ⟨ht, hown⟩ hc hstep
    exact ⟨ht.step hstep, HookedFds.own_step ht hown hc hstep⟩
  · rintro s a s' ⟨ht, hown⟩ hc hstep hafter
    exact hc (HookedFds.opensEmpty_of_own ht hstep hafter)

/-- Settings of one second and of two seconds. -/
def setReceive : Setting := ⟨true, .rcvTimeo, ⟨1, 0⟩⟩

def setSend : Setting := ⟨true, .sndTimeo, ⟨2, 0⟩⟩

/-- A socket with a timeout is closed with the hook off, and its descriptor comes back. -/
def closedUnhooked : List HookedStep :=
  [.opens 0 true 5, .lookup 0, .create 0 (some true) 2,
    .setsockopt 0 5 setReceive, .close 1 false 5, .closeF 1, .opens 0 true 5]

/-- The new socket has the old context. -/
theorem closedUnhooked_context :
    ¬ hookedFds.Along HookedFds.OwnContexts HookedFds.start closedUnhooked := by
  intro h
  have hmeet := (own_context_iff closedUnhooked (by decide)).mp h
  have hlast := ((((((hmeet.2 _ rfl).2 _ rfl).2 _ rfl).2 _ rfl).2 _ rfl).2 _ rfl).1
  exact hlast 0 (by decide)

/-- **Closing with the hook on.**  Where every thread closes only open descriptors, with the hook
on, and works on none that another thread is opening or closing, and descriptors are below
`2 ^ 30`, the context of every open descriptor was created for the file that is open on it, and
its timeouts are those that were set on this file since it was opened and had a context, in
every state of every run. -/
theorem closed_hooked {s : HookedFds} (h : hookedFds.Reachable HookedFds.ClosesHooked s) :
    HookedFds.OwnContexts s ∧ HookedFds.OwnTimeouts s := by
  have hinv : HookedFds.Disciplined s ∧ HookedFds.Tracked s ∧ HookedFds.OwnContexts s := by
    refine h.invariant (fun s => HookedFds.Disciplined s ∧ HookedFds.Tracked s ∧
      HookedFds.OwnContexts s) ?_ ?_
    · rintro _ rfl
      refine ⟨HookedFds.Disciplined.start, HookedFds.start_tracked, ?_⟩
      intro fd f c hf
      cases hf
    · rintro s a s' ⟨hd, ht, hown⟩ hc hstep
      exact ⟨hd.step hc hstep, ht.step hstep,
        HookedFds.own_step ht hown (hd.opensEmpty hstep) hstep⟩
  obtain ⟨hd, _, hown⟩ := hinv
  refine ⟨hown, fun fd f c hf hocc => ?_⟩
  obtain ⟨f', ctx, hf', hctx, _, htime⟩ := hd.owned fd c hocc
  obtain rfl := Option.some.inj (hf.symm.trans hf')
  exact ⟨ctx, hctx, htime⟩

/-- The same socket, closed with the hook on; the next one gets a timeout for sending. -/
def closedHooked : List HookedStep :=
  [.opens 0 true 5, .lookup 0, .create 0 (some true) 2, .setsockopt 0 5 setReceive,
    .close 0 true 5, .del 0, .closeF 0,
    .opens 1 true 5, .lookup 1, .create 1 (some true) 2, .setsockopt 1 5 setSend]

/-- A run in which every thread but two is idle throughout. -/
theorem free_of_two {s : HookedFds} {fd : Int} (h₀ : s.doing 0 = .idle)
    (h₁ : s.doing 1 = .idle) (hrest : ∀ t, s.doing (t + 2) = .idle) : s.Free fd := by
  intro t
  match t with
  | 0 => simp [h₀, Doing.fd?]
  | 1 => simp [h₁, Doing.fd?]
  | t + 2 => simp [hrest t, Doing.fd?]

/-- The second socket has no timeout for receiving, and its own for sending. -/
theorem closedHooked_timeouts :
    ∃ s, hookedFds.exec HookedFds.start closedHooked = some s ∧
      (HookedFds.OwnContexts s ∧ HookedFds.OwnTimeouts s) ∧ s.Occupied 5 1 ∧
      s.files 5 = some 1 ∧ s.asked 1 true = noTimeout ∧ s.asked 1 false = 2000 := by
  have hfree : ∀ s : HookedFds, s.doing 0 = .idle → s.doing 1 = .idle →
      (∀ t, s.doing (t + 2) = .idle) → s.Free 5 := fun s => free_of_two
  have hfd : (5 : Int) < 2 ^ 30 := by decide
  have first : hookedFds.Reaches HookedFds.ClosesHooked HookedFds.start _ :=
    .step (a := .create 0 (some true) 2) (.step (a := .lookup 0)
      (.step (a := .opens 0 true 5) .refl hfd rfl) trivial rfl) trivial rfl
  have timeout := System.Reaches.step (a := HookedStep.setsockopt 0 5 setReceive) first
    (hfree _ rfl rfl fun _ => rfl) rfl
  have closed := System.Reaches.step (a := HookedStep.closeF 0) (.step (a := .del 0)
    (.step (a := .close 0 true 5) timeout
      ⟨rfl, by decide, hfree _ rfl rfl fun _ => rfl⟩ rfl) trivial rfl) trivial rfl
  have second := System.Reaches.step (a := HookedStep.create 1 (some true) 2) (.step (a := .lookup 1)
    (.step (a := .opens 1 true 5) closed hfd rfl) trivial rfl) trivial rfl
  have last := System.Reaches.step (a := HookedStep.setsockopt 1 5 setSend) second
    (hfree _ rfl rfl fun _ => rfl) rfl
  exact ⟨_, rfl, closed_hooked ⟨_, rfl, last⟩, by decide, rfl, rfl, rfl⟩

end Util
end Hpgs
