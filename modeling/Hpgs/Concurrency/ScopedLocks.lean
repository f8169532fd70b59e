import Hpgs.Library.LockedPrograms

/-!
# Scoped locks

The guards of the locks: the constructor takes the lock, and the destructor gives it back
unless the guard was unlocked before.  `Mutex`, `Spinlock` and `RWMutex` call functions of
the system, so they are any locks here.

**Results.**
* `destroy_guarded`: a guard holds nothing after its destructor.
* `block_guarded`: a block with a guard gives the lock back, however its body ends.
-/

namespace Hpgs
namespace Concurrency

open Locking

universe u

/-- A lock that does what is documented for the functions of `pthread_rwlock_t`. -/
def pthreadRwlock : Lock Access Occupancy where
  access m := m
  new := .free
  attempt m o := ((o.enter m).getD o, (o.enter m).isSome)
  release o := o.leave.getD o
  occupancy o := o
  occupancy_new := rfl
  occupancy_attempt := by
    intro m o
    cases o.enter m <;> simp
  occupancy_failed := by
    intro m o hfailed
    rw [Option.isSome_eq_false_iff, Option.isNone_iff_eq_none] at hfailed
    simp [hfailed]
  occupancy_release := by
    intro o o' ho
    simp [ho]

/-- `ScopedLockImpl`, `ReadScopedLockImpl` and `WriteScopedLockImpl` differ in the function
of the mutex that they lock it with, which is a mode here. -/
structure ScopedGuard (κ : Type u) where
  mode : κ
  locked : Bool

namespace ScopedGuard

variable {κ D α : Type u}

/-- The constructor. -/
def new (m : κ) : Prog κ D (ScopedGuard κ) :=
  .acquire m (pure ⟨m, true⟩)

def unlock (g : ScopedGuard κ) : Prog κ D (ScopedGuard κ) :=
  if g.locked then .release (pure { g with locked := false }) else pure g

/-- The destructor. -/
def destroy (g : ScopedGuard κ) : Prog κ D PUnit := do
  let _ ← g.unlock
  pure ⟨⟩

/-- A block with a guard, which the body hands back at the end of the block. -/
def block (m : κ) (body : ScopedGuard κ → Prog κ D (ScopedGuard κ × α)) : Prog κ D α := do
  let g ← new m
  let (g, a) ← body g
  g.destroy
  pure a

/-- What a guard holds. -/
def held (access : κ → Access) (g : ScopedGuard κ) : Option Access :=
  if g.locked then some (access g.mode) else none

variable {access : κ → Access}

/-- Locked or not, a guard holds nothing after its destructor. -/
theorem destroy_guarded (g : ScopedGuard κ) :
    (g.destroy : Prog κ D PUnit).Guarded access (g.held access) fun _ => none := by
  obtain ⟨mode, locked⟩ := g
  cases locked with
  | false => exact rfl
  | true => exact ⟨Option.some_ne_none _, rfl⟩

/-- A block holds nothing after its end, however its body leaves the guard. -/
theorem block_guarded {m : κ} {body : ScopedGuard κ → Prog κ D (ScopedGuard κ × α)}
    (hbody : (body ⟨m, true⟩).Guarded access (some (access m)) fun x => x.1.held access) :
    (block m body).Guarded access none fun _ => none :=
  ⟨rfl, hbody.bind fun x => (destroy_guarded x.1).bind fun _ => rfl⟩

end ScopedGuard

section Impls

variable {D α : Type} (body : ScopedGuard Access → Prog Access D (ScopedGuard Access × α))

/-- A block with a `ReadScopedLockImpl`. -/
def ReadScopedLockImpl.block : Prog Access D α :=
  ScopedGuard.block .shared body

/-- A block with a `WriteScopedLockImpl`. -/
def WriteScopedLockImpl.block : Prog Access D α :=
  ScopedGuard.block .exclusive body

end Impls

end Concurrency
end Hpgs
