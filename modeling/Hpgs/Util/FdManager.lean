import Mathlib.Algebra.Group.Nat.Defs
import Mathlib.Data.List.Basic

/-!
# Contexts of file descriptors

`FdCtx` is what the hooked functions know of a file descriptor, and `FdManager` has a table
of them.  A context is named by the number of contexts that were created before it, so
that two pointers are equal exactly if their numbers are.

`get` looks at the table under the read lock and creates a context under the write lock;
the two sections are functions of their own.  The size of the table is cast to `int` where
it is compared with a descriptor.
-/

namespace Hpgs
namespace Util

/-- `~0ull`: no timeout. -/
def noTimeout : Nat := 2 ^ 64 - 1

/-! ## File status flags -/

/-- `O_NONBLOCK`. -/
def oNonblock : BitVec 32 := 0x800

/-- The flags that `F_SETFL` changes: `O_APPEND`, `O_NONBLOCK`, `O_ASYNC`, `O_DIRECT` and
`O_NOATIME`. -/
def settable : BitVec 32 := 0x46C00

/-- `fcntl_f` with `F_SETFL`. -/
def setStatusFlags (flags arg : BitVec 32) : BitVec 32 :=
  (flags &&& ~~~settable) ||| (arg &&& settable)

/-- `ioctl_f` with `FIONBIO`. -/
def setNonblock (flags value : BitVec 32) : BitVec 32 :=
  if value = 0 then flags &&& ~~~oNonblock else flags ||| oNonblock

/-! ## A context -/

structure FdCtx where
  isInit : Bool
  isSocket : Bool
  sysNonblock : Bool
  userNonblock : Bool
  isClosed : Bool
  fd : Int
  recvTimeout : Nat
  sendTimeout : Nat
deriving DecidableEq

namespace FdCtx

/-- `init`, with the flags of the file after it.  `fstat` says whether the file is a
socket, or is `none` if it fails. -/
def init (ctx : FdCtx) (fstat : Option Bool) (flags : BitVec 32) : FdCtx × BitVec 32 :=
  if ctx.isInit then (ctx, flags)
  else
    let isSocket := fstat.getD false
    ({ ctx with
        isInit := fstat.isSome
        isSocket := isSocket
        sysNonblock := isSocket
        userNonblock := false
        isClosed := false
        recvTimeout := noTimeout
        sendTimeout := noTimeout },
      if isSocket ∧ flags &&& oNonblock = 0 then setStatusFlags flags (flags ||| oNonblock)
      else flags)

/-- The constructor. -/
def new (fd : Int) (fstat : Option Bool) (flags : BitVec 32) : FdCtx × BitVec 32 :=
  init
    { isInit := false
      isSocket := false
      sysNonblock := false
      userNonblock := false
      isClosed := false
      fd := fd
      recvTimeout := noTimeout
      sendTimeout := noTimeout } fstat flags

/-- `recv` says that the type is `SO_RCVTIMEO`. -/
def setTimeout (ctx : FdCtx) (recv : Bool) (v : Nat) : FdCtx :=
  if recv then { ctx with recvTimeout := v } else { ctx with sendTimeout := v }

def getTimeout (ctx : FdCtx) (recv : Bool) : Nat :=
  if recv then ctx.recvTimeout else ctx.sendTimeout

end FdCtx

/-! ## The table -/

/-- `FdManager`.  `contexts` are all contexts ever created. -/
structure FdManager where
  datas : List (Option Nat)
  contexts : List FdCtx

/-- How the read-locked section of `get` ends. -/
inductive Looked
  | returns (ctx : Option Nat)
  | creates
  | outOfBounds
deriving DecidableEq

namespace FdManager

def new : FdManager where
  datas := List.replicate 64 none
  contexts := []

/-- `(int)m_datas.size()`. -/
def intSize (m : FdManager) : Int :=
  (BitVec.ofNat 32 m.datas.length).toInt

/-- `m_datas[fd]`; `none` is an access out of bounds. -/
def slot (m : FdManager) (fd : Int) : Option (Option Nat) :=
  if 0 ≤ fd then m.datas[fd.toNat]? else none

/-- `get` up to the end of the read-locked section. -/
def lookup (m : FdManager) (fd : Int) (autoCreate : Bool) : Looked :=
  if fd = -1 then .returns none
  else if m.intSize ≤ fd then
    if autoCreate then .creates else .returns none
  else
    match m.slot fd with
    | none => .outOfBounds
    | some ctx => if ctx.isSome || !autoCreate then .returns ctx else .creates

/-- `std::vector::resize`. -/
def resize (datas : List (Option Nat)) (n : Nat) : List (Option Nat) :=
  datas.take n ++ List.replicate (n - datas.length) none

/-- The table with room for `fd`, as the write-locked section of `get` makes it. -/
def enlarged (m : FdManager) (fd : Int) : List (Option Nat) :=
  if m.intSize ≤ fd then resize m.datas (fd.toNat * 3 / 2) else m.datas

/-- The write-locked section of `get`: the new context; `none` is an access out of
bounds. -/
def create (m : FdManager) (fd : Int) (fstat : Option Bool) (flags : BitVec 32) :
    Option (Nat × FdManager) :=
  if 0 ≤ fd ∧ fd.toNat < (m.enlarged fd).length then
    some (m.contexts.length,
      { datas := (m.enlarged fd).set fd.toNat (some m.contexts.length)
        contexts := m.contexts ++ [(FdCtx.new fd fstat flags).1] })
  else none

/-- `del`; `none` is an access out of bounds. -/
def del (m : FdManager) (fd : Int) : Option FdManager :=
  if m.intSize ≤ fd then some m
  else (m.slot fd).map fun _ => { m with datas := m.datas.set fd.toNat none }

/-! ## What the sections do to a slot -/

variable {m m' : FdManager} {fd fd' : Int}

theorem slot_of_nonneg (h : 0 ≤ fd) : m.slot fd = m.datas[fd.toNat]? :=
  if_pos h

theorem nonneg_of_slot {ctx : Option Nat} (h : m.slot fd = some ctx) : 0 ≤ fd := by
  by_contra hneg
  rw [slot, if_neg hneg] at h
  cases h

/-- What `get` returns without creating is in the slot. -/
theorem slot_of_lookup {autoCreate : Bool} {c : Nat}
    (h : m.lookup fd autoCreate = .returns (some c)) : m.slot fd = some (some c) := by
  unfold lookup at h
  split at h
  · cases h
  · split at h
    · split at h <;> cases h
    · split at h
      · cases h
      · rename_i ctx hslot
        split at h
        · cases h
          exact hslot
        · cases h

/-- A slot that is in the table before and after is not changed by its growth. -/
theorem enlarged_keeps (hcut : m.intSize ≤ fd → m.datas.length ≤ fd.toNat * 3 / 2) {k : Nat}
    {ctx : Option Nat} (h : m.datas[k]? = some ctx) : (m.enlarged fd)[k]? = some ctx := by
  unfold enlarged
  split
  · rename_i hgrow
    obtain ⟨hlt, _⟩ := List.getElem?_eq_some_iff.mp h
    have hlen := hcut hgrow
    rw [resize, List.take_of_length_le hlen, List.getElem?_append_left hlt]
    exact h
  · exact h

/-- Creation fills the slot of its descriptor and keeps the others. -/
theorem create_slot {fstat : Option Bool} {flags : BitVec 32} {c : Nat}
    (h : m.create fd fstat flags = some (c, m'))
    (hcut : m.intSize ≤ fd → m.datas.length ≤ fd.toNat * 3 / 2) :
    m'.slot fd = some (some c) ∧
      ∀ fd' ctx, fd' ≠ fd → m.slot fd' = some ctx → m'.slot fd' = some ctx := by
  unfold create at h
  split at h
  · rename_i hin
    obtain ⟨hpos, hlt⟩ := hin
    simp only [Option.some.injEq, Prod.mk.injEq] at h
    obtain ⟨rfl, rfl⟩ := h
    constructor
    · rw [slot_of_nonneg hpos, List.getElem?_set_self hlt]
    · intro fd' ctx hne hslot
      have hpos' := nonneg_of_slot hslot
      rw [slot_of_nonneg hpos'] at hslot ⊢
      rw [List.getElem?_set_ne (by omega)]
      exact enlarged_keeps hcut hslot
  · cases h

/-- Deletion touches the slot of its descriptor only. -/
theorem del_slot (h : m.del fd = some m') (hne : fd' ≠ fd) : m'.slot fd' = m.slot fd' := by
  unfold del at h
  split at h
  · cases h
    rfl
  · rw [Option.map_eq_some_iff] at h
    obtain ⟨ctx, hslot, rfl⟩ := h
    have hpos := nonneg_of_slot hslot
    unfold slot
    split
    · rw [List.getElem?_set_ne (by omega)]
    · rfl

end FdManager

end Util
end Hpgs
