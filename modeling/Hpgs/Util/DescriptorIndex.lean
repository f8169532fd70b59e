import Hpgs.Concurrency.ContextTable
import Hpgs.Util.FdContexts

/-!
# Descriptors as indices

`IOManager` and `FdManager` index a vector by a descriptor of type `int`.  Each compares
the descriptor with the size of its vector, cast to `int`, and makes the vector longer
where it is not large enough; only `get` looks for the descriptor `-1`.

Here the lookups are those of `IOManager`, with any `int` in the place of the descriptor.

**Results.**
* `perform_isSome_iff`: a call stays within its vector, exactly if it meets `InBounds`.
* `descriptors_in_bounds`: the same for runs of calls.
* `small_descriptors`: runs of calls on open descriptors stay within the vectors, and
  cancelling the events of a closed socket after one does not.
-/

namespace Hpgs
namespace Concurrency
namespace IOManager

universe u v

variable {φ : Type u} {κ : Type v}

/-- `(int)m_fdContexts.size()`. -/
def intSize (m : IOManager φ κ) : Int :=
  (BitVec.ofNat 32 m.fdContexts.length).toInt

/-- `m_fdContexts[fd]`; `none` is an access out of bounds. -/
def slot (m : IOManager φ κ) (fd : Int) : Option Nat :=
  if 0 ≤ fd then m.fdContexts[fd.toNat]? else none

/-- How `addEvent` gets the context of a descriptor; `none` is an access out of bounds.  A
negative product is no `size_t`, and the access after it is out of bounds in any case. -/
def addEventCtx (m : IOManager φ κ) (fd : Int) : Option (Nat × IOManager φ κ) :=
  if m.intSize > fd then (m.slot fd).map fun p => (p, m)
  else
    let m' := m.contextResize (fd.toNat * 3 / 2)
    (m'.slot fd).map fun p => (p, m')

/-- The lookup that `delEvent`, `cancelEvent` and `cancelAll` share: no context, or one;
`none` is an access out of bounds. -/
def lookupCtx (m : IOManager φ κ) (fd : Int) : Option (Option Nat) :=
  if m.intSize ≤ fd then some none else (m.slot fd).map some

def delEventCtx (m : IOManager φ κ) (fd : Int) : Option (Option Nat) :=
  m.lookupCtx fd

def cancelEventCtx (m : IOManager φ κ) (fd : Int) : Option (Option Nat) :=
  m.lookupCtx fd

def cancelAllCtx (m : IOManager φ κ) (fd : Int) : Option (Option Nat) :=
  m.lookupCtx fd

end IOManager
end Concurrency

namespace Util

open Transition Concurrency

universe u v

/-- The calls that index a vector. -/
inductive IndexCall
  | addEvent (fd : Int)
  | delEvent (fd : Int)
  | cancelEvent (fd : Int)
  | cancelAll (fd : Int)
  | get (fd : Int) (autoCreate : Bool) (fstat : Option Bool) (flags : BitVec 32)
  | del (fd : Int)
deriving DecidableEq

namespace Socket

/-- `Socket::cancelRead`, with `m_sock`. -/
def cancelRead (sock : Int) : IndexCall := .cancelEvent sock

def cancelWrite (sock : Int) : IndexCall := .cancelEvent sock

def cancelAccept (sock : Int) : IndexCall := .cancelEvent sock

def cancelAll (sock : Int) : IndexCall := .cancelAll sock

def cancels (sock : Int) : List IndexCall :=
  [cancelRead sock, cancelWrite sock, cancelAccept sock, cancelAll sock]

end Socket

/-- `FdManager::get`; `none` is an access out of bounds. -/
def FdManager.get (m : FdManager) (fd : Int) (autoCreate : Bool) (fstat : Option Bool)
    (flags : BitVec 32) : Option (Option Nat × FdManager) :=
  match m.lookup fd autoCreate with
  | .returns ctx => some (ctx, m)
  | .outOfBounds => none
  | .creates => (m.create fd fstat flags).map fun r => (some r.1, r.2)

/-- The two tables. -/
structure Tables (φ : Type u) (κ : Type v) where
  io : IOManager φ κ
  fds : FdManager

namespace Tables

variable {φ : Type u} {κ : Type v}

/-- The tables after a call; `none` is an access out of bounds. -/
def perform (t : Tables φ κ) : IndexCall → Option (Tables φ κ)
  | .addEvent fd => (t.io.addEventCtx fd).map fun r => { t with io := r.2 }
  | .delEvent fd => (t.io.delEventCtx fd).map fun _ => t
  | .cancelEvent fd => (t.io.cancelEventCtx fd).map fun _ => t
  | .cancelAll fd => (t.io.cancelAllCtx fd).map fun _ => t
  | .get fd autoCreate fstat flags =>
      (t.fds.get fd autoCreate fstat flags).map fun r => { t with fds := r.2 }
  | .del fd => (t.fds.del fd).map fun fds => { t with fds := fds }

def start : Tables φ κ where
  io := .new
  fds := .new

/-- Runs of calls.  What follows an access out of bounds is `none`. -/
def system (φ : Type u) (κ : Type v) : System (Option (Tables φ κ)) IndexCall where
  init t := t = some start
  step t c := some (t.bind fun t => t.perform c)

/-- **The condition.**  The descriptor is not negative, and is at least 2 where the vector
has to grow, which it does if its size as an `int` is not above the descriptor; the others
return then. -/
def InBounds (t : Tables φ κ) : IndexCall → Prop
  | .addEvent fd => 0 ≤ fd ∧ (t.io.intSize ≤ fd → 2 ≤ fd)
  | .delEvent fd => 0 ≤ fd ∨ t.io.intSize ≤ fd
  | .cancelEvent fd => 0 ≤ fd ∨ t.io.intSize ≤ fd
  | .cancelAll fd => 0 ≤ fd ∨ t.io.intSize ≤ fd
  | .get fd autoCreate _ _ =>
      fd = -1 ∨ if t.fds.intSize ≤ fd then autoCreate = true → 2 ≤ fd else 0 ≤ fd
  | .del fd => 0 ≤ fd ∨ t.fds.intSize ≤ fd

/-- The condition on a step; nothing is asked of what follows an access out of bounds. -/
def Bounded : Option (Tables φ κ) → IndexCall → Prop
  | some t, c => t.InBounds c
  | none, _ => True

end Tables

/-! ## Single calls -/

/-- A descriptor below the size as an `int` is below the size. -/
theorem toNat_lt_of_intSize {n : Nat} {fd : Int} (hpos : 0 ≤ fd)
    (h : fd < (BitVec.ofNat 32 n).toInt) : fd.toNat < n := by
  have hle : (BitVec.ofNat 32 n).toInt ≤ n := by
    rw [BitVec.toInt_eq_toNat_cond, BitVec.toNat_ofNat]
    have hmod := Nat.mod_le n (2 ^ 32)
    split <;> omega
  omega

/-- One and a half times a descriptor is more than the descriptor, from 2 on. -/
theorem grown_iff {fd : Int} (hpos : 0 ≤ fd) : fd.toNat < fd.toNat * 3 / 2 ↔ 2 ≤ fd := by
  omega

section Calls

variable {φ : Type u} {κ : Type v}

theorem slot_isSome_iff (m : IOManager φ κ) (fd : Int) :
    (m.slot fd).isSome ↔ 0 ≤ fd ∧ fd.toNat < m.fdContexts.length := by
  unfold IOManager.slot
  split
  · rename_i hpos
    simp [hpos]
  · rename_i hneg
    simp [hneg]

theorem lookupCtx_isSome_iff (m : IOManager φ κ) (fd : Int) :
    (m.lookupCtx fd).isSome ↔ 0 ≤ fd ∨ m.intSize ≤ fd := by
  unfold IOManager.lookupCtx
  split
  · rename_i hle
    exact iff_of_true rfl (Or.inr hle)
  · rename_i hlt
    rw [Option.isSome_map, slot_isSome_iff]
    constructor
    · exact fun h => Or.inl h.1
    · rintro (hpos | hle)
      · exact ⟨hpos, toNat_lt_of_intSize hpos (Int.lt_of_not_ge hlt)⟩
      · exact absurd hle hlt

theorem addEventCtx_isSome_iff (m : IOManager φ κ) (fd : Int) :
    (m.addEventCtx fd).isSome ↔ 0 ≤ fd ∧ (m.intSize ≤ fd → 2 ≤ fd) := by
  unfold IOManager.addEventCtx
  split
  · rename_i hlt
    rw [Option.isSome_map, slot_isSome_iff]
    constructor
    · exact fun h => ⟨h.1, fun hle => absurd hle (Int.not_le.mpr hlt)⟩
    · exact fun h => ⟨h.1, toNat_lt_of_intSize h.1 hlt⟩
  · rename_i hge
    rw [Option.isSome_map, slot_isSome_iff, IOManager.contextResize_length]
    constructor
    · exact fun h => ⟨h.1, fun _ => (grown_iff h.1).mp h.2⟩
    · exact fun h => ⟨h.1, (grown_iff h.1).mpr (h.2 (Int.not_lt.mp hge))⟩

theorem resize_length (datas : List (Option Nat)) (n : Nat) :
    (FdManager.resize datas n).length = n := by
  rw [FdManager.resize, List.length_append, List.length_take, List.length_replicate]
  omega

/-- The table is long enough for `fd`, where it had to grow for a descriptor from 2 on. -/
theorem create_isSome_iff (m : FdManager) (fd : Int) (fstat : Option Bool) (flags : BitVec 32) :
    (m.create fd fstat flags).isSome ↔ 0 ≤ fd ∧ (m.intSize ≤ fd → 2 ≤ fd) := by
  have hlen : 0 ≤ fd → (fd.toNat < (m.enlarged fd).length ↔ (m.intSize ≤ fd → 2 ≤ fd)) := by
    intro hpos
    unfold FdManager.enlarged
    split
    · rename_i hle
      rw [resize_length, grown_iff hpos]
      exact ⟨fun h _ => h, fun h => h hle⟩
    · rename_i hlt
      exact iff_of_true (toNat_lt_of_intSize hpos (Int.not_le.mp hlt)) fun hle => absurd hle hlt
  unfold FdManager.create
  split
  · rename_i hin
    exact iff_of_true rfl ⟨hin.1, (hlen hin.1).mp hin.2⟩
  · rename_i hout
    refine iff_of_false Bool.false_ne_true fun h => hout ⟨h.1, (hlen h.1).mpr h.2⟩

theorem slot_some_iff (m : FdManager) {fd : Int} (hlt : ¬ m.intSize ≤ fd) :
    (m.slot fd).isSome ↔ 0 ≤ fd := by
  unfold FdManager.slot
  split
  · rename_i hpos
    have hin := toNat_lt_of_intSize hpos (Int.not_le.mp hlt)
    rw [List.getElem?_eq_getElem hin]
    exact iff_of_true rfl hpos
  · rename_i hneg
    exact iff_of_false Bool.false_ne_true hneg

theorem del_isSome_iff (m : FdManager) (fd : Int) :
    (m.del fd).isSome ↔ 0 ≤ fd ∨ m.intSize ≤ fd := by
  unfold FdManager.del
  split
  · rename_i hle
    exact iff_of_true rfl (Or.inr hle)
  · rename_i hlt
    rw [Option.isSome_map, slot_some_iff m hlt]
    exact ⟨Or.inl, fun h => h.resolve_right hlt⟩

theorem get_isSome_iff (m : FdManager) (fd : Int) (autoCreate : Bool) (fstat : Option Bool)
    (flags : BitVec 32) :
    (m.get fd autoCreate fstat flags).isSome ↔
      fd = -1 ∨ if m.intSize ≤ fd then autoCreate = true → 2 ≤ fd else 0 ≤ fd := by
  unfold FdManager.get FdManager.lookup
  by_cases hminus : fd = -1
  · rw [if_pos hminus]
    exact iff_of_true rfl (Or.inl hminus)
  · rw [if_neg hminus]
    simp only [hminus, false_or]
    by_cases hle : m.intSize ≤ fd
    · rw [if_pos hle, if_pos hle]
      cases autoCreate with
      | false => exact iff_of_true rfl fun h => nomatch h
      | true =>
          simp only [if_true, Option.isSome_map, create_isSome_iff, true_implies]
          exact ⟨fun h => h.2 hle, fun h => ⟨by omega, fun _ => h⟩⟩
    · rw [if_neg hle, if_neg hle, ← slot_some_iff m hle]
      cases hslot : m.slot fd with
      | none => exact iff_of_false Bool.false_ne_true Bool.false_ne_true
      | some ctx =>
          have hpos := (slot_some_iff m hle).mp (by rw [hslot]; rfl)
          have hcreate := (create_isSome_iff m fd fstat flags).mpr ⟨hpos, fun h => absurd h hle⟩
          simp only
          split
          · exact iff_of_true rfl rfl
          · rename_i heq
            split at heq <;> cases heq
          · rw [Option.isSome_map]
            exact iff_of_true hcreate rfl

/-- **Single calls.** -/
theorem perform_isSome_iff (t : Tables φ κ) (c : IndexCall) :
    (t.perform c).isSome ↔ t.InBounds c := by
  cases c with
  | addEvent fd => rw [Tables.perform, Option.isSome_map]; exact addEventCtx_isSome_iff t.io fd
  | delEvent fd => rw [Tables.perform, Option.isSome_map]; exact lookupCtx_isSome_iff t.io fd
  | cancelEvent fd => rw [Tables.perform, Option.isSome_map]; exact lookupCtx_isSome_iff t.io fd
  | cancelAll fd => rw [Tables.perform, Option.isSome_map]; exact lookupCtx_isSome_iff t.io fd
  | get fd autoCreate fstat flags =>
      rw [Tables.perform, Option.isSome_map]
      exact get_isSome_iff t.fds fd autoCreate fstat flags
  | del fd => rw [Tables.perform, Option.isSome_map]; exact del_isSome_iff t.fds fd

end Calls

/-! ## Runs -/

namespace Tables

variable {φ : Type u} {κ : Type v}

/-- The sizes are `int`s, and are not below the first ones. -/
structure Sized (t : Tables φ κ) : Prop where
  io : 32 ≤ t.io.fdContexts.length ∧ t.io.fdContexts.length < 2 ^ 31
  fds : 64 ≤ t.fds.datas.length ∧ t.fds.datas.length < 2 ^ 31

/-- The descriptor of a call. -/
def fdOf : IndexCall → Int
  | .addEvent fd | .delEvent fd | .cancelEvent fd | .cancelAll fd | .get fd _ _ _ | .del fd => fd

section Sized

variable {t t' : Tables φ κ} {c : IndexCall}

theorem Sized.ioSize (h : t.Sized) : t.io.intSize = t.io.fdContexts.length :=
  IOManager.toInt_ofNat_of_lt h.io.2

theorem Sized.fdsSize (h : t.Sized) : t.fds.intSize = t.fds.datas.length :=
  IOManager.toInt_ofNat_of_lt h.fds.2

theorem Sized.inBounds (h : t.Sized) (hpos : 0 ≤ fdOf c) : t.InBounds c := by
  have hio := h.ioSize
  have hfds := h.fdsSize
  have hlow := h.io.1
  have hlow' := h.fds.1
  cases c with
  | addEvent fd => exact ⟨hpos, fun hle => by omega⟩
  | delEvent fd => exact Or.inl hpos
  | cancelEvent fd => exact Or.inl hpos
  | cancelAll fd => exact Or.inl hpos
  | get fd autoCreate fstat flags =>
      refine Or.inr ?_
      split
      · rename_i hle
        exact fun _ => by omega
      · exact hpos
  | del fd => exact Or.inl hpos

/-- A creation leaves a table as long as it is or makes it longer. -/
theorem create_size {m m' : FdManager} {fd : Int} {fstat : Option Bool} {flags : BitVec 32}
    {x : Nat} (hsize : m.intSize = m.datas.length) (h : m.create fd fstat flags = some (x, m')) :
    m'.datas.length = m.datas.length ∨
      (m.datas.length : Int) ≤ fd ∧ m'.datas.length = fd.toNat * 3 / 2 := by
  unfold FdManager.create at h
  split at h
  · simp only [Option.some.injEq, Prod.mk.injEq] at h
    obtain ⟨_, rfl⟩ := h
    rw [List.length_set, FdManager.enlarged]
    split
    · rename_i hle
      exact Or.inr ⟨hsize ▸ hle, resize_length _ _⟩
    · exact Or.inl rfl
  · cases h

/-- **Step lemma.** -/
theorem Sized.perform (h : t.Sized) (hpos : 0 ≤ fdOf c) (hlt : fdOf c < 2 ^ 30)
    (hc : t.perform c = some t') : t'.Sized := by
  have hlow := h.io.1
  have hlow' := h.fds.1
  cases c with
  | addEvent fd =>
      obtain ⟨⟨p, m⟩, hctx, rfl⟩ := Option.map_eq_some_iff.mp hc
      refine ⟨?_, h.fds⟩
      have hpos' : 0 ≤ fd := hpos
      have hlt' : fd < 2 ^ 30 := hlt
      unfold IOManager.addEventCtx at hctx
      split at hctx
      · obtain ⟨q, _, heq⟩ := Option.map_eq_some_iff.mp hctx
        cases heq
        exact h.io
      · rename_i hge
        obtain ⟨q, _, heq⟩ := Option.map_eq_some_iff.mp hctx
        cases heq
        rw [h.ioSize] at hge
        rw [IOManager.contextResize_length]
        omega
  | delEvent fd =>
      obtain ⟨_, _, rfl⟩ := Option.map_eq_some_iff.mp hc
      exact h
  | cancelEvent fd =>
      obtain ⟨_, _, rfl⟩ := Option.map_eq_some_iff.mp hc
      exact h
  | cancelAll fd =>
      obtain ⟨_, _, rfl⟩ := Option.map_eq_some_iff.mp hc
      exact h
  | get fd autoCreate fstat flags =>
      obtain ⟨⟨x, m⟩, hget, rfl⟩ := Option.map_eq_some_iff.mp hc
      refine ⟨h.io, ?_⟩
      have hpos' : 0 ≤ fd := hpos
      have hlt' : fd < 2 ^ 30 := hlt
      unfold FdManager.get at hget
      split at hget
      · cases hget
        exact h.fds
      · cases hget
      · obtain ⟨⟨y, m'⟩, hcreate, heq⟩ := Option.map_eq_some_iff.mp hget
        cases heq
        have hhigh := h.fds.2
        rcases create_size h.fdsSize hcreate with hsame | ⟨hle, hgrown⟩
        · simp only [hsame]
          exact h.fds
        · simp only [hgrown]
          omega
  | del fd =>
      obtain ⟨m, hdel, rfl⟩ := Option.map_eq_some_iff.mp hc
      refine ⟨h.io, ?_⟩
      unfold FdManager.del at hdel
      split at hdel
      · cases hdel
        exact h.fds
      · obtain ⟨_, _, rfl⟩ := Option.map_eq_some_iff.mp hdel
        simp only [List.length_set]
        exact h.fds

end Sized

theorem start_sized : (start : Tables φ κ).Sized where
  io := by
    have hlen : (start : Tables φ κ).io.fdContexts.length = 32 :=
      IOManager.contextResize_length _ 32
    rw [hlen]
    decide
  fds := by
    have hlen : (start : Tables φ κ).fds.datas.length = 64 := List.length_replicate
    rw [hlen]
    decide

end Tables

open Tables

/-- A socket that was closed has no descriptor, and each of its cancel functions reads
before the first context. -/
theorem cancel_of_closed {φ : Type u} {κ : Type v} {t : Tables φ κ} (h : t.Sized) {c : IndexCall}
    (hc : c ∈ Socket.cancels (-1)) : t.perform c = none := by
  have hsize : 0 ≤ t.io.intSize := by
    rw [h.ioSize]
    exact Int.natCast_nonneg _
  have hout : ¬ ((0 : Int) ≤ -1 ∨ t.io.intSize ≤ -1) := by omega
  have hnone : ∀ c, ¬ t.InBounds c → t.perform c = none := fun c hc =>
    Option.not_isSome_iff_eq_none.mp fun hsome => hc ((perform_isSome_iff t c).mp hsome)
  simp only [Socket.cancels, List.mem_cons, List.not_mem_nil, or_false] at hc
  rcases hc with rfl | rfl | rfl | rfl <;> exact hnone _ hout

/-- **Run lemma.**  Calls on small descriptors keep the sizes, and stay within the vectors. -/
theorem Tables.Sized.exec {φ : Type u} {κ : Type v} {s : Tables φ κ} (hs : s.Sized)
    (calls : List IndexCall) (hall : ∀ c ∈ calls, 0 ≤ fdOf c ∧ fdOf c < 2 ^ 30) :
    ∃ t : Tables φ κ, (system φ κ).exec (some s) calls = some (some t) ∧ t.Sized ∧
      (system φ κ).Along (fun t => t.isSome) (some s) calls := by
  induction calls generalizing s with
  | nil => exact ⟨s, rfl, hs, rfl⟩
  | cons c calls ih =>
      obtain ⟨hc, hrest⟩ := List.forall_mem_cons.mp hall
      obtain ⟨s', hs'⟩ := Option.isSome_iff_exists.mp
        ((perform_isSome_iff s c).mpr (hs.inBounds hc.1))
      obtain ⟨t, ht, hsized, halong⟩ := ih (hs.perform hc.1 hc.2 hs') hrest
      have hstep : (system φ κ).step (some s) c = some (some s') := congrArg some hs'
      refine ⟨t, ?_, hsized, rfl, ?_⟩
      · rw [System.exec, hstep]
        exact ht
      · intro u hu
        rw [hstep] at hu
        cases hu
        exact halong

/-- **Descriptors as indices.**  In every run of calls, on whatever descriptors, the
vectors are indexed within their bounds, exactly if each call meets the condition. -/
theorem descriptors_in_bounds (φ : Type u) (κ : Type v) (calls : List IndexCall) :
    (system φ κ).Along (fun t => t.isSome) (some start) calls ↔
      (system φ κ).StepsMeet Bounded (some start) calls := by
  refine System.along_iff_stepsMeet (fun _ h => h) ?_ ?_ rfl
    (System.exec_isSome (fun _ _ => rfl) calls)
  · rintro s c s' hs hc hstep
    obtain ⟨t, rfl⟩ := Option.isSome_iff_exists.mp hs
    cases hstep
    exact (perform_isSome_iff t c).mpr hc
  · rintro s c s' hs hc hstep hs'
    obtain ⟨t, rfl⟩ := Option.isSome_iff_exists.mp hs
    cases hstep
    exact hc ((perform_isSome_iff t c).mp hs')

/-- Cancelling the events of a socket that was closed. -/
theorem descriptor_out_of_bounds :
    ¬ ∀ calls, (system Nat Nat).Along (fun t => t.isSome) (some start) calls := by
  intro hall
  have hsome : (perform (start : Tables Nat Nat) (Socket.cancelAll (-1))).isSome :=
    (hall [Socket.cancelAll (-1)]).2 _ rfl
  have hbound : (0 : Int) ≤ -1 ∨ (start : Tables Nat Nat).io.intSize ≤ -1 :=
    (perform_isSome_iff start _).mp hsome
  exact absurd hbound (by decide)

end Util
end Hpgs
