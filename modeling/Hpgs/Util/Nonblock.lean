import Hpgs.Library.Transition
import Hpgs.Util.FdManager

/-!
# Non-blocking mode as the user sees it

A managed socket is non-blocking for the kernel, and the hooked `fcntl` and `ioctl` keep
in its context whether the user wants it to be.  The system calls succeed.

**Results.**
* `managed_nonblock`: a context that is created for a socket makes it non-blocking.
* `nonblock_virtualized`: the flag of the kernel stays set, and the user reads back the
  last request, exactly if no request is an `ioctl` that clears the flag.
* `nonblock_cleared`: such an `ioctl`.
-/

namespace Hpgs
namespace Util

open Transition

/-- A file with its context, if it has one.  `requested` is what the user asked for last:
no code reads it. -/
structure HookedFile where
  flags : BitVec 32
  ctx : Option FdCtx
  requested : Bool
deriving DecidableEq

/-- The calls on the file. -/
inductive FlagCall
  | setfl (arg : BitVec 32)
  | fionbio (value : BitVec 32)
  | getfl
deriving DecidableEq

/-- The context is one that the hooked functions act on. -/
def managedCtx (ctx : Option FdCtx) : Option FdCtx :=
  ctx.filter fun c => !c.isClosed && c.isSocket

/-- `arg & O_NONBLOCK`, as a condition. -/
def nonblockIn (arg : BitVec 32) : Bool :=
  arg &&& oNonblock != 0

namespace HookedFile

/-- `socket` or `accept` with the hook enabled, for a file that is a socket. -/
def opened (fd : Int) (flags : BitVec 32) : HookedFile where
  flags := (FdCtx.new fd (some true) flags).2
  ctx := some (FdCtx.new fd (some true) flags).1
  requested := false

/-- `fcntl` with `F_SETFL`. -/
def fcntlSetfl (s : HookedFile) (arg : BitVec 32) : HookedFile :=
  match managedCtx s.ctx with
  | none => { s with flags := setStatusFlags s.flags arg }
  | some ctx =>
      { s with
        flags := setStatusFlags s.flags
          (if ctx.sysNonblock then arg ||| oNonblock else arg &&& ~~~oNonblock)
        ctx := some { ctx with userNonblock := nonblockIn arg } }

/-- `fcntl` with `F_GETFL`: the value returned. -/
def fcntlGetfl (s : HookedFile) : BitVec 32 :=
  match managedCtx s.ctx with
  | none => s.flags
  | some ctx => if ctx.userNonblock then s.flags ||| oNonblock else s.flags &&& ~~~oNonblock

/-- `ioctl` with `FIONBIO`; the value goes on to `ioctl_f` as it is. -/
def ioctlFionbio (s : HookedFile) (value : BitVec 32) : HookedFile :=
  match managedCtx s.ctx with
  | none => { s with flags := setNonblock s.flags value }
  | some ctx =>
      { s with
        flags := setNonblock s.flags value
        ctx := some { ctx with userNonblock := value != 0 } }

/-- A call, after which the request is on record. -/
def call (s : HookedFile) : FlagCall → HookedFile
  | .setfl arg => { s.fcntlSetfl arg with requested := nonblockIn arg }
  | .fionbio value => { s.ioctlFionbio value with requested := value != 0 }
  | .getfl => s

/-- Sequences of calls on a managed socket. -/
def flagCalls : System HookedFile FlagCall where
  init s := ∃ fd flags, s = opened fd flags
  step s c := some (s.call c)

/-- The kernel's flag is set, and `F_GETFL` shows the flag that the user asked for. -/
def Virtualized (s : HookedFile) : Prop :=
  nonblockIn s.flags = true ∧ nonblockIn s.fcntlGetfl = s.requested

/-! ## One call -/

/-- The flag is bit 11. -/
theorem nonblockIn_eq (arg : BitVec 32) : nonblockIn arg = arg.getLsbD 11 := by
  have hpow : oNonblock = BitVec.twoPow 32 11 := rfl
  rw [nonblockIn, hpow, BitVec.and_twoPow]
  cases arg.getLsbD 11 <;> rfl

theorem nonblockIn_setStatusFlags (flags arg : BitVec 32) :
    nonblockIn (setStatusFlags flags arg) = nonblockIn arg := by
  have hkept : (~~~settable).getLsbD 11 = false := rfl
  have hset : settable.getLsbD 11 = true := rfl
  rw [nonblockIn_eq, nonblockIn_eq, setStatusFlags, BitVec.getLsbD_or, BitVec.getLsbD_and,
    BitVec.getLsbD_and, hkept, hset, Bool.and_false, Bool.and_true, Bool.false_or]

theorem nonblockIn_or (flags : BitVec 32) : nonblockIn (flags ||| oNonblock) = true := by
  have hset : oNonblock.getLsbD 11 = true := rfl
  rw [nonblockIn_eq, BitVec.getLsbD_or, hset, Bool.or_true]

theorem nonblockIn_and_not (flags : BitVec 32) :
    nonblockIn (flags &&& ~~~oNonblock) = false := by
  have hclear : (~~~oNonblock).getLsbD 11 = false := rfl
  rw [nonblockIn_eq, BitVec.getLsbD_and, hclear, Bool.and_false]

theorem nonblockIn_setNonblock (flags value : BitVec 32) :
    nonblockIn (setNonblock flags value) = (value != 0) := by
  unfold setNonblock
  split
  · rename_i hzero
    rw [nonblockIn_and_not, hzero]
    rfl
  · rename_i hset
    rw [nonblockIn_or]
    exact (bne_iff_ne.mpr hset).symm

/-- A context that is created for a socket makes it non-blocking. -/
theorem managed_nonblock (fd : Int) (flags : BitVec 32) :
    nonblockIn (FdCtx.new fd (some true) flags).2 = true := by
  simp only [FdCtx.new, FdCtx.init, Bool.false_eq_true, if_false, Option.getD_some, true_and]
  split
  · rw [nonblockIn_setStatusFlags, nonblockIn_or]
  · rename_i hset
    exact bne_iff_ne.mpr hset

/-- What the calls keep: the context of a socket is there and shows the request, and the
kernel's flag is set. -/
structure Managed (s : HookedFile) : Prop where
  flags : nonblockIn s.flags = true
  ctx : ∃ c, s.ctx = some c ∧ c.isSocket = true ∧ c.isClosed = false ∧ c.sysNonblock = true ∧
    c.userNonblock = s.requested

theorem managedCtx_some {c : FdCtx} (hsocket : c.isSocket = true) (hopen : c.isClosed = false) :
    managedCtx (some c) = some c := by
  simp [managedCtx, hsocket, hopen]

theorem opened_managed (fd : Int) (flags : BitVec 32) : (opened fd flags).Managed where
  flags := managed_nonblock fd flags
  ctx := ⟨_, rfl, rfl, rfl, rfl, rfl⟩

/-- The user reads back the request. -/
theorem Managed.virtualized {s : HookedFile} (h : s.Managed) : s.Virtualized := by
  obtain ⟨c, hctx, hsocket, hopen, _, huser⟩ := h.ctx
  refine ⟨h.flags, ?_⟩
  simp only [fcntlGetfl, hctx, managedCtx_some hsocket hopen]
  rw [← huser]
  cases c.userNonblock with
  | true => exact nonblockIn_or s.flags
  | false => exact nonblockIn_and_not s.flags

/-- A call keeps the kernel's flag, unless it is an `ioctl` that clears it. -/
theorem call_managed {s : HookedFile} (h : s.Managed) {c : FlagCall} (hc : c ≠ .fionbio 0) :
    (s.call c).Managed := by
  obtain ⟨ctx, hctx, hsocket, hopen, hsys, _⟩ := h.ctx
  have hmanaged := managedCtx_some hsocket hopen
  cases c with
  | setfl arg =>
      simp only [call, fcntlSetfl, hctx, hmanaged]
      refine ⟨?_, _, rfl, hsocket, hopen, hsys, rfl⟩
      simp only [hsys, if_true]
      rw [nonblockIn_setStatusFlags, nonblockIn_or]
  | fionbio value =>
      simp only [call, ioctlFionbio, hctx, hmanaged]
      refine ⟨?_, _, rfl, hsocket, hopen, hsys, rfl⟩
      simp only
      rw [nonblockIn_setNonblock]
      exact bne_iff_ne.mpr fun hzero => hc (by rw [hzero])
  | getfl => exact h

theorem call_fionbio_zero {s : HookedFile} (h : s.Managed) :
    ¬ (s.call (.fionbio 0)).Virtualized := by
  obtain ⟨ctx, hctx, hsocket, hopen, _⟩ := h.ctx
  rintro ⟨hflags, _⟩
  simp only [call, ioctlFionbio, hctx, managedCtx_some hsocket hopen] at hflags
  rw [nonblockIn_setNonblock] at hflags
  cases hflags

theorem flagCalls_exec (s : HookedFile) (calls : List FlagCall) :
    (flagCalls.exec s calls).isSome := by
  induction calls generalizing s with
  | nil => rfl
  | cons c calls ih => exact ih (s.call c)

end HookedFile

open HookedFile in
/-- **The virtual flag.**  Along a sequence of calls on a managed socket the kernel's flag
stays set and the user reads back the last request, exactly if no call is an `ioctl` that
clears the flag. -/
theorem nonblock_virtualized (fd : Int) (flags : BitVec 32) (calls : List FlagCall) :
    flagCalls.Along Virtualized (opened fd flags) calls ↔ ∀ c ∈ calls, c ≠ .fionbio 0 := by
  have hrun := flagCalls_exec (opened fd flags) calls
  rw [← System.stepsMeet_iff_forall_mem (C := fun c => c ≠ .fionbio 0) hrun]
  have himp : ∀ s : HookedFile, s.Managed → s.Virtualized := fun s hs => hs.virtualized
  have hkeep : ∀ (s : HookedFile) (c : FlagCall) (t : HookedFile), s.Managed →
      c ≠ .fionbio 0 → flagCalls.step s c = some t → t.Managed := by
    rintro s c t hs hc hst
    rw [← Option.some.inj hst]
    exact call_managed hs hc
  have hbreak : ∀ (s : HookedFile) (c : FlagCall) (t : HookedFile), s.Managed →
      ¬ c ≠ .fionbio 0 → flagCalls.step s c = some t → ¬ t.Virtualized := by
    rintro s c t hs hc hst
    rw [← Option.some.inj hst, not_ne_iff.mp hc]
    exact call_fionbio_zero hs
  exact System.along_iff_stepsMeet himp hkeep hbreak (opened_managed fd flags) hrun

open HookedFile in
/-- A user who wants a blocking socket clears the kernel's flag. -/
theorem nonblock_cleared :
    ¬ ∀ (fd : Int) (flags : BitVec 32) (calls : List FlagCall),
      flagCalls.Along Virtualized (opened fd flags) calls := by
  intro hall
  have hafter := (hall 5 2 [.setfl oNonblock, .fionbio 0]).2 _ rfl |>.2 _ rfl
  have hflag : (false : Bool) = true := hafter.1
  cases hflag

end Util
end Hpgs
