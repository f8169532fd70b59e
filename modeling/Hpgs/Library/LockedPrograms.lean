import Hpgs.Library.Transition
import Mathlib.Data.List.Nodup
import Mathlib.Logic.Function.Basic

/-!
# Programs that share data under a lock

A lock lets several shared holders in, or one exclusive holder.  A program reads and writes
the data in single steps, and steps of several programs are interleaved.  A section of a
program is what lies between an `acquire` and the next `release`.

**Results.**
* `Occupied.enter`, `Occupied.leave`, `Occupied.apart`: what a lock knows of its holders.
* `Guarded.bind`: pre- and postconditions that say what a program holds.
* `inv_step`: one step, by the statement that the program is at.
* `sections_atomic`: if every program touches the data in its sections only, and writes in
  exclusive ones only, then each run is matched by one in which sections are single steps.
-/

namespace Hpgs
namespace Locking

open Transition

universe u v w x

/-! ## Locks -/

/-- How a lock is held. -/
inductive Access
  | shared
  | exclusive
deriving DecidableEq, Repr

/-- What a lock knows of its holders: nobody, one shared holder and some others, or one
exclusive holder. -/
inductive Occupancy
  | free
  | shared (others : Nat)
  | exclusive
deriving DecidableEq, Repr

namespace Occupancy

/-- `none` if there is no room. -/
def enter : Access → Occupancy → Option Occupancy
  | .shared, .free => some (.shared 0)
  | .shared, .shared n => some (.shared (n + 1))
  | .exclusive, .free => some .exclusive
  | _, _ => none

/-- `none` if there is nobody inside. -/
def leave : Occupancy → Option Occupancy
  | .free => none
  | .shared 0 => some .free
  | .shared (n + 1) => some (.shared n)
  | .exclusive => some .free

end Occupancy

/-- A lock with states `σ` that is asked for in the modes `κ`.  An attempt that fails is
made again, or waits, and does not let anybody in or out. -/
structure Lock (κ : Type u) (σ : Type v) where
  access : κ → Access
  new : σ
  attempt : κ → σ → σ × Bool
  release : σ → σ
  occupancy : σ → Occupancy
  occupancy_new : occupancy new = .free
  occupancy_attempt : ∀ m s, (occupancy s).enter (access m) =
    if (attempt m s).2 then some (occupancy (attempt m s).1) else none
  occupancy_failed : ∀ m s, (attempt m s).2 = false → occupancy (attempt m s).1 = occupancy s
  occupancy_release : ∀ s o, (occupancy s).leave = some o → occupancy (release s) = o

/-- A free lock can be taken in every mode. -/
theorem Lock.attempt_free {κ : Type u} {σ : Type v} (L : Lock κ σ) {s : σ} (m : κ)
    (h : L.occupancy s = .free) : (L.attempt m s).2 = true := by
  have hroom := L.occupancy_attempt m s
  rw [h] at hroom
  by_contra hfailed
  rw [if_neg hfailed] at hroom
  cases hm : L.access m <;> rw [hm] at hroom <;> cases hroom

/-- The holders in `l` are those that the lock knows of. -/
inductive Fits {ι : Type u} (holding : ι → Option Access) : List ι → Occupancy → Prop
  | free : Fits holding [] .free
  | shared {l : List ι} {n : Nat} :
      l.length = n + 1 →
      (∀ t ∈ l, holding t = some .shared) →
      Fits holding l (.shared n)
  | exclusive {t : ι} :
      holding t = some .exclusive →
      Fits holding [t] .exclusive

/-- The lock knows how many hold it, and how. -/
def Occupied {ι : Type u} (holding : ι → Option Access) (o : Occupancy) : Prop :=
  ∃ l : List ι, l.Nodup ∧ (∀ t, t ∈ l ↔ holding t ≠ none) ∧ Fits holding l o

section Occupied

variable {ι : Type u} {holding : ι → Option Access} {o o' : Occupancy} {a : Access} {t : ι}

theorem occupied_nobody : Occupied (fun _ : ι => none) .free :=
  ⟨[], List.nodup_nil, fun _ => by simp, .free⟩

/-- Nobody is inside exactly if the lock is free. -/
theorem Occupied.free_iff (h : Occupied holding o) : o = .free ↔ ∀ t, holding t = none := by
  obtain ⟨l, _, hmem, hfits⟩ := h
  cases hfits with
  | free =>
      refine iff_of_true rfl fun t => ?_
      by_contra hne
      exact List.not_mem_nil ((hmem t).mpr hne)
  | shared hlen hall =>
      refine iff_of_false Occupancy.noConfusion fun hnone => ?_
      obtain ⟨t, ht⟩ := List.exists_mem_of_length_pos (l := l) (by omega)
      exact (hmem t).mp ht (hnone t)
  | @exclusive t ht =>
      refine iff_of_false Occupancy.noConfusion fun hnone => ?_
      rw [hnone t] at ht
      cases ht

/-- Where somebody can enter, there is no exclusive holder, and nobody at all if he asks
for exclusive access. -/
theorem Occupied.enter_room (h : Occupied holding o) (ho : o.enter a = some o') :
    (∀ t, holding t ≠ some .exclusive) ∧ (a = .exclusive → ∀ t, holding t = none) := by
  have hfree := h.free_iff
  obtain ⟨l, _, hmem, hfits⟩ := h
  cases hfits with
  | free =>
      have hnone := hfree.mp rfl
      exact ⟨fun t => by simp [hnone t], fun _ => hnone⟩
  | shared hlen hall =>
      constructor
      · intro t ht
        have hin := hall t ((hmem t).mpr (by rw [ht]; exact Option.some_ne_none _))
        rw [ht] at hin
        cases hin
      · rintro rfl
        cases ho
  | exclusive ht => cases a <;> cases ho

/-- Two holders are both shared. -/
theorem Occupied.apart {b : Access} {u : ι} (h : Occupied holding o) (ht : holding t = some a)
    (hu : holding u = some b) (hne : t ≠ u) : a = .shared ∧ b = .shared := by
  obtain ⟨l, _, hmem, hfits⟩ := h
  have hinside : ∀ {c : ι} {d : Access}, holding c = some d → c ∈ l :=
    fun hc => (hmem _).mpr (by rw [hc]; exact Option.some_ne_none _)
  have htl := hinside ht
  have hul := hinside hu
  cases hfits with
  | free => cases htl
  | shared hlen hall =>
      exact ⟨Option.some.inj (ht.symm.trans (hall t htl)),
        Option.some.inj (hu.symm.trans (hall u hul))⟩
  | exclusive _ =>
      exact absurd ((List.mem_singleton.mp htl).trans (List.mem_singleton.mp hul).symm) hne

variable [DecidableEq ι]

/-- Somebody who was not inside enters. -/
theorem Occupied.enter (h : Occupied holding o) (ht : holding t = none)
    (ho : o.enter a = some o') : Occupied (Function.update holding t (some a)) o' := by
  have hothers : ∀ s, s ≠ t → Function.update holding t (some a) s = holding s :=
    fun s hs => Function.update_of_ne hs _ _
  obtain ⟨l, hnodup, hmem, hfits⟩ := h
  have hnotin : t ∉ l := fun hin => (hmem t).mp hin ht
  refine ⟨t :: l, List.nodup_cons.mpr ⟨hnotin, hnodup⟩, fun s => ?_, ?_⟩
  · by_cases hs : s = t
    · subst hs
      simp
    · rw [hothers s hs, ← hmem s, List.mem_cons]
      exact ⟨fun hin => hin.resolve_left hs, Or.inr⟩
  · cases hfits with
    | free =>
        cases a with
        | shared =>
            cases ho
            exact .shared rfl (by simp)
        | exclusive =>
            cases ho
            exact .exclusive (Function.update_self _ _ _)
    | shared hlen hall =>
        cases a with
        | shared =>
            cases ho
            refine .shared (by rw [List.length_cons, hlen]) fun s hs => ?_
            rcases List.mem_cons.mp hs with rfl | hs
            · exact Function.update_self _ _ _
            · rw [hothers s (fun heq => hnotin (heq ▸ hs)), hall s hs]
        | exclusive => cases ho
    | exclusive _ => cases a <;> cases ho

/-- Somebody who is inside can leave. -/
theorem Occupied.leave (h : Occupied holding o) (ht : holding t = some a) :
    ∃ o', o.leave = some o' ∧ Occupied (Function.update holding t none) o' := by
  have hothers : ∀ s, s ≠ t → Function.update holding t none s = holding s :=
    fun s hs => Function.update_of_ne hs _ _
  obtain ⟨l, hnodup, hmem, hfits⟩ := h
  have hin : t ∈ l := (hmem t).mpr (by rw [ht]; exact Option.some_ne_none _)
  have hmem' : ∀ s, s ∈ l.erase t ↔ Function.update holding t none s ≠ none := by
    intro s
    rw [hnodup.mem_erase_iff, hmem s]
    by_cases hs : s = t
    · subst hs
      simp
    · rw [hothers s hs]
      exact and_iff_right hs
  cases hfits with
  | free => cases hin
  | @shared _ n hlen hall =>
      have hlen' : (l.erase t).length = n := by
        rw [List.length_erase_of_mem hin, hlen]
        rfl
      have hall' : ∀ s ∈ l.erase t, Function.update holding t none s = some .shared := by
        intro s hs
        obtain ⟨hne, hsl⟩ := hnodup.mem_erase_iff.mp hs
        rw [hothers s hne, hall s hsl]
      cases n with
      | zero =>
          have hnil := List.length_eq_zero_iff.mp hlen'
          exact ⟨.free, rfl, l.erase t, hnodup.erase t, hmem', by rw [hnil]; exact .free⟩
      | succ n => exact ⟨.shared n, rfl, l.erase t, hnodup.erase t, hmem', .shared hlen' hall'⟩
  | exclusive _ =>
      obtain rfl := List.mem_singleton.mp hin
      refine ⟨.free, rfl, [t].erase t, hnodup.erase t, hmem', ?_⟩
      rw [List.erase_cons_head]
      exact .free

end Occupied

/-! ## Programs -/

/-- A program that uses data `D` under a lock.  It is stuck where its behaviour is not
defined. -/
inductive Prog (κ : Type u) (D : Type v) (α : Type w) : Type (max u v w)
  | ret (a : α)
  | stuck
  | acquire (m : κ) (rest : Prog κ D α)
  | release (rest : Prog κ D α)
  | read (rest : D → Prog κ D α)
  | write (f : D → D) (rest : Prog κ D α)

namespace Prog

variable {κ : Type u} {D : Type v} {α β : Type w}

/-- The second program goes on with the result of the first. -/
def andThen : Prog κ D α → (α → Prog κ D β) → Prog κ D β
  | ret a, k => k a
  | stuck, _ => stuck
  | acquire m rest, k => acquire m (andThen rest k)
  | release rest, k => release (andThen rest k)
  | read rest, k => read fun d => andThen (rest d) k
  | write f rest, k => write f (andThen rest k)

instance : Monad (Prog κ D) where
  pure := ret
  bind := andThen

/-- The value of a function of the data. -/
def gets (f : D → α) : Prog κ D α :=
  .read fun d => .ret (f d)

/-- A change of the data. -/
def modify (f : D → D) : Prog κ D PUnit :=
  .write f (.ret ⟨⟩)

/-- From `held` on, the program touches the data and releases the lock only where it holds
it, writes only where it holds it exclusively, asks for it only where it does not hold it,
and ends with what `post` says that it holds then. -/
def Guarded (access : κ → Access) : Option Access → Prog κ D α → (α → Option Access) → Prop
  | held, ret a, post => held = post a
  | _, stuck, _ => True
  | held, acquire m rest, post => held = none ∧ Guarded access (some (access m)) rest post
  | held, release rest, post => held ≠ none ∧ Guarded access none rest post
  | held, read rest, post => held ≠ none ∧ ∀ d, Guarded access held (rest d) post
  | held, write _ rest, post => held = some .exclusive ∧ Guarded access held rest post

/-- The rest of a section, and what the data is at its end. -/
def runSection : Prog κ D α → D → Option (D × Prog κ D α)
  | release rest, d => some (d, rest)
  | read rest, d => runSection (rest d) d
  | write f rest, d => runSection rest (f d)
  | _, _ => none

theorem andThen_ret (p : Prog κ D α) : p.andThen ret = p := by
  induction p with
  | ret a => rfl
  | stuck => rfl
  | acquire m rest ih => rw [andThen, ih]
  | release rest ih => rw [andThen, ih]
  | read rest ih => rw [andThen, funext ih]
  | write f rest ih => rw [andThen, ih]

theorem andThen_assoc {γ : Type w} (p : Prog κ D α) (k : α → Prog κ D β) (l : β → Prog κ D γ) :
    (p.andThen k).andThen l = p.andThen fun a => (k a).andThen l := by
  induction p with
  | ret a => rfl
  | stuck => rfl
  | acquire m rest ih => rw [andThen, andThen, andThen, ih]
  | release rest ih => rw [andThen, andThen, andThen, ih]
  | read rest ih => rw [andThen, andThen, andThen, funext ih]
  | write f rest ih => rw [andThen, andThen, andThen, ih]

variable {access : κ → Access} {held : Option Access} {p : Prog κ D α}

/-- **Sequence.** -/
theorem Guarded.bind {mid : α → Option Access} {post : β → Option Access}
    {k : α → Prog κ D β} (hp : Guarded access held p mid)
    (hk : ∀ a, Guarded access (mid a) (k a) post) : Guarded access held (p >>= k) post := by
  change Guarded access held (p.andThen k) post
  induction p generalizing held with
  | ret a =>
      obtain rfl := hp
      exact hk a
  | stuck => trivial
  | acquire m rest ih => exact ⟨hp.1, ih hp.2⟩
  | release rest ih => exact ⟨hp.1, ih hp.2⟩
  | read rest ih => exact ⟨hp.1, fun d => ih d (hp.2 d)⟩
  | write f rest ih => exact ⟨hp.1, ih hp.2⟩

/-- Whoever holds the lock can read. -/
theorem gets_guarded {a : Access} (f : D → α) :
    (gets f : Prog κ D α).Guarded access (some a) fun _ => some a :=
  ⟨Option.some_ne_none _, fun _ => rfl⟩

/-- Whoever holds it exclusively can write. -/
theorem modify_guarded (f : D → D) :
    (modify f : Prog κ D PUnit).Guarded access (some .exclusive) fun _ => some .exclusive :=
  ⟨rfl, rfl⟩

end Prog

/-! ## Runs in single steps -/

/-- A thread starts a call, or does what its program does next. -/
inductive Move (ι : Type u) (χ : Type v)
  | call (t : ι) (c : χ)
  | next (t : ι)
deriving DecidableEq

/-- The lock, the data, the call that each thread is in with the rest of its program, and
the results so far.  `holding` says who is between an `acquire` and a `release`. -/
structure Threads (ι κ σ D χ ρ : Type u) where
  mutex : σ
  data : D
  running : ι → Option (χ × Prog κ D ρ)
  holding : ι → Option Access
  returned : List (ι × χ × ρ)

/-- The same without the lock. -/
structure Sections (ι κ D χ ρ : Type u) where
  data : D
  running : ι → Option (χ × Prog κ D ρ)
  returned : List (ι × χ × ρ)

section Systems

variable {ι κ σ D χ ρ : Type u} [DecidableEq ι]
variable (L : Lock κ σ) (code : χ → Prog κ D ρ)

namespace Threads

/-- The next statement of a thread. -/
def next (s : Threads ι κ σ D χ ρ) (t : ι) : Option (Threads ι κ σ D χ ρ) :=
  match s.running t with
  | none => none
  | some (c, .ret r) =>
      some { s with
        running := Function.update s.running t none
        returned := s.returned ++ [(t, c, r)] }
  | some (_, .stuck) => none
  | some (c, .acquire m rest) =>
      if (L.attempt m s.mutex).2 then
        some { s with
          mutex := (L.attempt m s.mutex).1
          running := Function.update s.running t (some (c, rest))
          holding := Function.update s.holding t (some (L.access m)) }
      else some { s with mutex := (L.attempt m s.mutex).1 }
  | some (c, .release rest) =>
      some { s with
        mutex := L.release s.mutex
        running := Function.update s.running t (some (c, rest))
        holding := Function.update s.holding t none }
  | some (c, .read rest) =>
      some { s with running := Function.update s.running t (some (c, rest s.data)) }
  | some (c, .write f rest) =>
      some { s with
        data := f s.data
        running := Function.update s.running t (some (c, rest)) }

def step (s : Threads ι κ σ D χ ρ) : Move ι χ → Option (Threads ι κ σ D χ ρ)
  | .call t c =>
      match s.running t with
      | none => some { s with running := Function.update s.running t (some (c, code c)) }
      | some _ => none
  | .next t => s.next L t

def start (d : D) : Threads ι κ σ D χ ρ where
  mutex := L.new
  data := d
  running := fun _ => none
  holding := fun _ => none
  returned := []

/-- All runs of any threads. -/
def system (d : D) : System (Threads ι κ σ D χ ρ) (Move ι χ) where
  init s := s = start L d
  step := step L code

end Threads

namespace Sections

/-- A whole section of a thread, or the end of its call. -/
def next (s : Sections ι κ D χ ρ) (t : ι) : Option (Sections ι κ D χ ρ) :=
  match s.running t with
  | some (c, .ret r) =>
      some { s with
        running := Function.update s.running t none
        returned := s.returned ++ [(t, c, r)] }
  | some (c, .acquire _ rest) =>
      (rest.runSection s.data).map fun x =>
        { s with
          data := x.1
          running := Function.update s.running t (some (c, x.2)) }
  | _ => none

def step (s : Sections ι κ D χ ρ) : Move ι χ → Option (Sections ι κ D χ ρ)
  | .call t c =>
      match s.running t with
      | none => some { s with running := Function.update s.running t (some (c, code c)) }
      | some _ => none
  | .next t => s.next t

def start (d : D) : Sections ι κ D χ ρ where
  data := d
  running := fun _ => none
  returned := []

/-- All runs in which sections are single steps. -/
def system (d : D) : System (Sections ι κ D χ ρ) (Move ι χ) where
  init s := s = start d
  step := step code

variable {code} {s : Sections ι κ D χ ρ} {t : ι} {c : χ}

theorem step_call (h : s.running t = none) :
    s.step code (.call t c) =
      some { s with running := Function.update s.running t (some (c, code c)) } := by
  simp only [step, h]

theorem next_ret {r : ρ} (h : s.running t = some (c, .ret r)) :
    s.next t = some { s with
      running := Function.update s.running t none
      returned := s.returned ++ [(t, c, r)] } := by
  simp only [next, h]

theorem next_acquire {m : κ} {rest rest' : Prog κ D ρ} {d : D}
    (h : s.running t = some (c, .acquire m rest)) (hd : rest.runSection s.data = some (d, rest')) :
    s.next t = some { s with
      data := d
      running := Function.update s.running t (some (c, rest')) } := by
  simp only [next, h, hd, Option.map_some]

/-- What a section has done. -/
theorem of_next_acquire {s' : Sections ι κ D χ ρ} {m : κ} {rest : Prog κ D ρ}
    (h : s.running t = some (c, .acquire m rest)) (hst : s.next t = some s') :
    ∃ d rest', rest.runSection s.data = some (d, rest') ∧
      s' = { s with
        data := d
        running := Function.update s.running t (some (c, rest')) } := by
  simp only [next, h] at hst
  obtain ⟨⟨d, rest'⟩, hd, rfl⟩ := Option.map_eq_some_iff.mp hst
  exact ⟨d, rest', hd, rfl⟩

end Sections

/-! ## Sections are as good as single steps -/

/-- A thread is where its counterpart is, or is inside the section that its counterpart is
in front of, and goes to the end that the section has for its counterpart. -/
inductive Follows (d d' : D) :
    Option Access → Option (χ × Prog κ D ρ) → Option (χ × Prog κ D ρ) → Prop
  | idle : Follows d d' none none none
  | outside {c : χ} {p : Prog κ D ρ} :
      p.Guarded L.access none (fun _ => none) →
      Follows d d' none (some (c, p)) (some (c, p))
  | inside {c : χ} {m : κ} {p q : Prog κ D ρ} :
      p.Guarded L.access (some (L.access m)) (fun _ => none) →
      q.runSection d' = p.runSection d →
      Follows d d' (some (L.access m)) (some (c, p)) (some (c, .acquire m q))

/-- The data are those at the last end of an exclusive section, and the same without an
exclusive holder. -/
structure Matches (f : Threads ι κ σ D χ ρ) (s : Sections ι κ D χ ρ) : Prop where
  occupied : Occupied f.holding (L.occupancy f.mutex)
  returned : s.returned = f.returned
  data : (∀ t, f.holding t ≠ some .exclusive) → s.data = f.data
  thread : ∀ t, Follows L f.data s.data (f.holding t) (f.running t) (s.running t)

variable {L} {code} {f f' : Threads ι κ σ D χ ρ} {s : Sections ι κ D χ ρ} {t : ι}

theorem Follows.data {d d' e e' : D} {held : Option Access}
    {r r' : Option (χ × Prog κ D ρ)} (h : Follows L d d' held r r')
    (hsame : held ≠ none → e = d ∧ e' = d') : Follows L e e' held r r' := by
  cases h with
  | idle => exact .idle
  | outside hp => exact .outside hp
  | inside hp hq =>
      obtain ⟨rfl, rfl⟩ := hsame (Option.some_ne_none _)
      exact .inside hp hq

omit [DecidableEq ι] in
/-- A thread between two calls holds nothing. -/
theorem Matches.holding_of_idle (h : Matches L f s) (hf : f.running t = none) :
    f.holding t = none := by
  have hthread := h.thread t
  rw [hf] at hthread
  generalize f.holding t = held at hthread ⊢
  generalize s.running t = r at hthread
  cases hthread with
  | idle => rfl

omit [DecidableEq ι] in
/-- A thread that is about to release holds something. -/
theorem Matches.holding_of_release {c : χ} {rest : Prog κ D ρ} (h : Matches L f s)
    (hf : f.running t = some (c, .release rest)) : f.holding t ≠ none := by
  have hthread := h.thread t
  rw [hf] at hthread
  generalize f.holding t = held at hthread ⊢
  generalize s.running t = r at hthread
  cases hthread with
  | outside hp => exact absurd rfl hp.1
  | inside _ _ => exact Option.some_ne_none _

omit [DecidableEq ι] in
theorem start_matches (d : D) :
    Matches L (Threads.start L d : Threads ι κ σ D χ ρ) (Sections.start d) where
  occupied := by
    rw [Threads.start, L.occupancy_new]
    exact occupied_nobody
  returned := rfl
  data := fun _ => rfl
  thread := fun _ => .idle

/-- Only `t` has moved, and the data are the same for whoever is inside besides. -/
theorem Matches.moved {s' : Sections ι κ D χ ρ} (h : Matches L f s)
    (hrunning : ∀ u, u ≠ t → f'.running u = f.running u ∧ s'.running u = s.running u)
    (hholding : ∀ u, u ≠ t → f'.holding u = f.holding u)
    (hinside : ∀ u, u ≠ t → f.holding u ≠ none → f'.data = f.data ∧ s'.data = s.data)
    (hoccupied : Occupied f'.holding (L.occupancy f'.mutex))
    (hreturned : s'.returned = f'.returned)
    (hdata : (∀ u, f'.holding u ≠ some .exclusive) → s'.data = f'.data)
    (ht : Follows L f'.data s'.data (f'.holding t) (f'.running t) (s'.running t)) :
    Matches L f' s' where
  occupied := hoccupied
  returned := hreturned
  data := hdata
  thread := by
    intro u
    by_cases hu : u = t
    · rw [hu]
      exact ht
    · rw [hholding u hu, (hrunning u hu).1, (hrunning u hu).2]
      exact (h.thread u).data (hinside u hu)

/-- What the others have is not changed by a change at `t`. -/
theorem update_others {β : Type v} (g : ι → β) (b : β) :
    ∀ u, u ≠ t → Function.update g t b u = g u :=
  fun _ hu => Function.update_of_ne hu _ _

/-- A call starts. -/
theorem matches_call {c : χ} (hcode : (code c).Guarded L.access none fun _ => none)
    (h : Matches L f s) (hst : f.step L code (.call t c) = some f') :
    ∃ s', s.step code (.call t c) = some s' ∧ Matches L f' s' := by
  have hthread := h.thread t
  cases hf : f.running t with
  | some x => simp [Threads.step, hf] at hst
  | none =>
      simp only [Threads.step, hf, Option.some.injEq] at hst
      subst hst
      rw [hf] at hthread
      generalize hheld : f.holding t = held at hthread
      generalize hs : s.running t = r at hthread
      cases hthread with
      | idle =>
          refine ⟨_, Sections.step_call hs, h.moved (t := t) ?_ ?_ ?_ h.occupied h.returned
            h.data ?_⟩
          · exact fun u hu => ⟨update_others _ _ u hu, update_others _ _ u hu⟩
          · exact fun _ _ => rfl
          · exact fun _ _ _ => ⟨rfl, rfl⟩
          · simp only [hheld, Function.update_self]
            exact .outside hcode

/-- A call ends. -/
theorem matches_ret {c : χ} {r : ρ} (h : Matches L f s)
    (hf : f.running t = some (c, .ret r)) (hst : f.next L t = some f') :
    ∃ s', s.next t = some s' ∧ Matches L f' s' := by
  have hthread := h.thread t
  simp only [Threads.next, hf, Option.some.injEq] at hst
  subst hst
  rw [hf] at hthread
  generalize hheld : f.holding t = held at hthread
  generalize hs : s.running t = r' at hthread
  cases hthread with
  | inside hp _ => cases hp
  | outside _ =>
      refine ⟨_, Sections.next_ret hs, h.moved (t := t) ?_ ?_ ?_ h.occupied ?_ h.data ?_⟩
      · exact fun u hu => ⟨update_others _ _ u hu, update_others _ _ u hu⟩
      · exact fun _ _ => rfl
      · exact fun _ _ _ => ⟨rfl, rfl⟩
      · simp only [h.returned]
      · simp only [hheld, Function.update_self]
        exact .idle

/-- A thread asks for the lock: its counterpart waits in front of the section. -/
theorem matches_acquire {c : χ} {m : κ} {rest : Prog κ D ρ} (h : Matches L f s)
    (hf : f.running t = some (c, .acquire m rest)) (hst : f.next L t = some f') :
    Matches L f' s := by
  have hthread := h.thread t
  simp only [Threads.next, hf] at hst
  rw [hf] at hthread
  generalize hheld : f.holding t = held at hthread
  generalize hs : s.running t = r' at hthread
  cases hthread with
  | inside hp _ => cases hp.1
  | outside hp =>
      split at hst
      · rename_i hgot
        obtain rfl := Option.some.inj hst
        have henter := L.occupancy_attempt m f.mutex
        rw [if_pos hgot] at henter
        have hdata := h.data (h.occupied.enter_room henter).1
        refine h.moved (t := t) ?_ ?_ ?_ ?_ h.returned (fun _ => hdata) ?_
        · exact fun u hu => ⟨update_others _ _ u hu, rfl⟩
        · exact update_others _ _
        · exact fun _ _ _ => ⟨rfl, rfl⟩
        · exact h.occupied.enter hheld henter
        · simp only [Function.update_self, hs]
          exact .inside hp.2 (by rw [hdata])
      · rename_i hmissed
        obtain rfl := Option.some.inj hst
        refine { h with occupied := ?_ }
        rw [L.occupancy_failed m f.mutex (by simpa using hmissed)]
        exact h.occupied

/-- A thread reads. -/
theorem matches_read {c : χ} {rest : D → Prog κ D ρ} (h : Matches L f s)
    (hf : f.running t = some (c, .read rest)) (hst : f.next L t = some f') :
    Matches L f' s := by
  have hthread := h.thread t
  simp only [Threads.next, hf, Option.some.injEq] at hst
  subst hst
  rw [hf] at hthread
  generalize hheld : f.holding t = held at hthread
  generalize hs : s.running t = r' at hthread
  cases hthread with
  | outside hp => exact absurd rfl hp.1
  | inside hp hq =>
      refine h.moved (t := t) ?_ ?_ ?_ h.occupied h.returned h.data ?_
      · exact fun u hu => ⟨update_others _ _ u hu, rfl⟩
      · exact fun _ _ => rfl
      · exact fun _ _ _ => ⟨rfl, rfl⟩
      · simp only [hheld, hs, Function.update_self]
        exact .inside (hp.2 f.data) hq

/-- A thread writes: nobody else is inside. -/
theorem matches_write {c : χ} {g : D → D} {rest : Prog κ D ρ} (h : Matches L f s)
    (hf : f.running t = some (c, .write g rest)) (hst : f.next L t = some f') :
    Matches L f' s := by
  have hthread := h.thread t
  simp only [Threads.next, hf, Option.some.injEq] at hst
  subst hst
  rw [hf] at hthread
  generalize hheld : f.holding t = held at hthread
  generalize hs : s.running t = r' at hthread
  cases hthread with
  | outside hp => cases hp.1
  | inside hp hq =>
      rw [hp.1] at hheld
      refine h.moved (t := t) ?_ ?_ ?_ h.occupied h.returned ?_ ?_
      · exact fun u hu => ⟨update_others _ _ u hu, rfl⟩
      · exact fun _ _ => rfl
      · intro u hu hin
        obtain ⟨b, hb⟩ := Option.ne_none_iff_exists'.mp hin
        cases (h.occupied.apart hheld hb (Ne.symm hu)).1
      · exact fun hnone => absurd hheld (hnone t)
      · simp only [hheld, hs, Function.update_self, ← hp.1]
        exact .inside hp.2 hq

/-- A section ends: its counterpart runs the whole of it. -/
theorem matches_release {c : χ} {rest : Prog κ D ρ} (h : Matches L f s)
    (hf : f.running t = some (c, .release rest)) (hst : f.next L t = some f') :
    ∃ s', s.next t = some s' ∧ Matches L f' s' := by
  have hthread := h.thread t
  simp only [Threads.next, hf, Option.some.injEq] at hst
  subst hst
  rw [hf] at hthread
  generalize hheld : f.holding t = held at hthread
  generalize hs : s.running t = r' at hthread
  cases hthread with
  | outside hp => exact absurd rfl hp.1
  | @inside _ m _ q hp hq =>
      rw [Prog.runSection] at hq
      refine ⟨_, Sections.next_acquire hs hq, ?_⟩
      obtain ⟨o', hleave, hoccupied⟩ := h.occupied.leave hheld
      refine h.moved (t := t) ?_ ?_ ?_ ?_ h.returned (fun _ => rfl) ?_
      · exact fun u hu => ⟨update_others _ _ u hu, update_others _ _ u hu⟩
      · exact update_others _ _
      · -- Whoever else is inside is shared, as `t` is, so nobody has written.
        intro u hu hin
        obtain ⟨b, hb⟩ := Option.ne_none_iff_exists'.mp hin
        have hapart := h.occupied.apart hheld hb (Ne.symm hu)
        refine ⟨rfl, (h.data fun v hv => ?_).symm⟩
        by_cases hvt : v = t
        · rw [hvt, hheld, hapart.1] at hv
          cases hv
        · cases (h.occupied.apart hheld hv (Ne.symm hvt)).2
      · rw [L.occupancy_release f.mutex o' hleave]
        exact hoccupied
      · simp only [Function.update_self]
        exact .outside hp.2

/-- **One step.** -/
theorem inv_step (hcode : ∀ c, (code c).Guarded L.access none fun _ => none) {a : Move ι χ}
    (h : Matches L f s) (hst : f.step L code a = some f') :
    Matches L f' s ∨ ∃ s', s.step code a = some s' ∧ Matches L f' s' := by
  cases a with
  | call t c => exact Or.inr (matches_call (hcode c) h hst)
  | next t =>
      change f.next L t = some f' at hst
      cases hf : f.running t with
      | none => simp [Threads.next, hf] at hst
      | some x =>
          obtain ⟨c, p⟩ := x
          cases p with
          | ret r => exact Or.inr (matches_ret h hf hst)
          | stuck => simp [Threads.next, hf] at hst
          | acquire m rest => exact Or.inl (matches_acquire h hf hst)
          | release rest => exact Or.inr (matches_release h hf hst)
          | read rest => exact Or.inl (matches_read h hf hst)
          | write g rest => exact Or.inl (matches_write h hf hst)

/-- **Sections are single steps.** -/
theorem sections_atomic (hcode : ∀ c, (code c).Guarded L.access none fun _ => none) {d : D}
    (h : (Threads.system L code d).Reachable anyStep f) :
    ∃ s, (Sections.system code d).Reachable anyStep s ∧ Matches (ι := ι) L f s := by
  refine h.simulated (Matches L) ?_ ?_
  · rintro f rfl
    exact ⟨Sections.start d, ⟨_, rfl, .refl⟩, start_matches d⟩
  · intro f a f' s _ _ hmatch _ hst
    rcases inv_step hcode hmatch hst with hmatch' | ⟨s', hs', hmatch'⟩
    · exact ⟨s, .refl, hmatch'⟩
    · exact ⟨s', .step .refl trivial hs', hmatch'⟩

end Systems

end Locking
end Hpgs
