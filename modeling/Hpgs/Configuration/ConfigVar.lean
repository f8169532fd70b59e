import Hpgs.Library.Transition

/-!
# Changes of a config variable

`setValue` compares and tells the listeners under the read lock, and commits under the
write lock.  Several calls can be between the two at once.  The value type is any type
with an `operator==`, and `fromStr` is the conversion that `fromString` uses, `none` if
it throws.

**Results.**
* `step_keeps`: a change that is told while no other one waits to be committed is told
  and committed as one.
* `listeners_truthful`: then every listener knows the committed value, and was told the
  value that each change replaced.
* `listeners_misled`: two changes of which the second is told before the first is
  committed.
-/

namespace Hpgs
namespace Configuration

open Transition

universe u

variable {T : Type u}

/-- What a listener is told. -/
structure Change (T : Type u) where
  old : T
  new : T
deriving DecidableEq

/-- A variable with its listeners, the changes that were told and wait to be committed,
what each listener was told so far, and the commits so far, each with the value that it
replaced. -/
structure ConfigVar (T : Type u) where
  val : T
  cbs : List Nat
  waiting : List (Change T)
  told : Nat → List (Change T)
  commits : List (Change T × T)

/-- The sections that a thread runs.  `throwsAt` is the place of a listener that throws,
at which the call ends. -/
inductive VarCall (T : Type u)
  | setValue (v : T) (throwsAt : Option Nat)
  | fromString (val : String) (throwsAt : Option Nat)
  | commit (i : Nat)

namespace ConfigVar

/-- The listeners `ids` are called with `c`. -/
def tell (x : ConfigVar T) (ids : List Nat) (c : Change T) : Nat → List (Change T) :=
  fun l => if l ∈ ids then x.told l ++ [c] else x.told l

/-- The read-locked section of `setValue`. -/
def setValue [BEq T] (x : ConfigVar T) (v : T) : Option Nat → Option (ConfigVar T)
  | none =>
      if v == x.val then some x
      else
        some { x with
          told := x.tell x.cbs ⟨x.val, v⟩
          waiting := x.waiting ++ [⟨x.val, v⟩] }
  | some k =>
      if v == x.val then some x
      else if k < x.cbs.length then
        some { x with told := x.tell (x.cbs.take (k + 1)) ⟨x.val, v⟩ }
      else none

/-- The write-locked section of the `i`-th call that waits for it. -/
def commit (x : ConfigVar T) (i : Nat) : Option (ConfigVar T) :=
  match x.waiting[i]? with
  | none => none
  | some c =>
      some { x with
        val := c.new
        waiting := x.waiting.eraseIdx i
        commits := x.commits ++ [(c, x.val)] }

def step [BEq T] (fromStr : String → Option T) (x : ConfigVar T) :
    VarCall T → Option (ConfigVar T)
  | .setValue v throwsAt => x.setValue v throwsAt
  | .fromString val throwsAt =>
      match fromStr val with
      | none => some x
      | some v => x.setValue v throwsAt
  | .commit i => x.commit i

/-- The constructor, with listeners that were added before the first change. -/
def new (defaultValue : T) (cbs : List Nat) : ConfigVar T where
  val := defaultValue
  cbs := cbs
  waiting := []
  told := fun _ => []
  commits := []

/-- All runs of `setValue` and `fromString`. -/
def system [BEq T] (fromStr : String → Option T) : System (ConfigVar T) (VarCall T) where
  init x := ∃ defaultValue cbs, x = new defaultValue cbs
  step := step fromStr

/-- The listeners know the value, and were told what each change replaced. -/
def Truthful (x : ConfigVar T) : Prop :=
  x.waiting = [] → x.commits ≠ [] → ∀ l ∈ x.cbs,
    (∃ c, (x.told l).getLast? = some c ∧ c.new = x.val) ∧
      ∀ p ∈ x.commits, p.1 ∈ x.told l ∧ p.1.old = p.2

/-- `setValue v` has nothing to tell, or is alone and no listener throws. -/
def TellsAlone [BEq T] (x : ConfigVar T) (v : T) (throwsAt : Option Nat) : Prop :=
  (v == x.val) = true ∨ (x.waiting = [] ∧ throwsAt = none)

/-- No change is told while another one waits to be committed, and no listener throws. -/
def OneAtATime [BEq T] (fromStr : String → Option T) (x : ConfigVar T) : VarCall T → Prop
  | .setValue v throwsAt => x.TellsAlone v throwsAt
  | .fromString val throwsAt => ∀ v ∈ fromStr val, x.TellsAlone v throwsAt
  | .commit _ => True

instance [BEq T] (x : ConfigVar T) (v : T) (throwsAt : Option Nat) :
    Decidable (x.TellsAlone v throwsAt) :=
  inferInstanceAs (Decidable (_ ∨ _))

instance [BEq T] (fromStr : String → Option T) (x : ConfigVar T) (a : VarCall T) :
    Decidable (x.OneAtATime fromStr a) := by
  unfold OneAtATime
  cases a <;> infer_instance

/-! ## What a section keeps -/

variable {x x' : ConfigVar T}

/-- The last change that every listener was told is `c`. -/
def LastTold (x : ConfigVar T) (c : Change T) : Prop :=
  ∀ l ∈ x.cbs, (x.told l).getLast? = some c

/-- At most one change waits; it was told last and replaces the value that it names. -/
structure Inv (x : ConfigVar T) : Prop where
  commits : ∀ p ∈ x.commits, p.1.old = p.2 ∧ ∀ l ∈ x.cbs, p.1 ∈ x.told l
  last : (x.waiting = [] ∧ (x.commits ≠ [] → ∃ c, x.LastTold c ∧ c.new = x.val)) ∨
    ∃ c, x.waiting = [c] ∧ c.old = x.val ∧ x.LastTold c

theorem Inv.truthful (h : x.Inv) : x.Truthful := by
  intro hidle hchanged l hl
  refine ⟨?_, fun p hp => ⟨(h.commits p hp).2 l hl, (h.commits p hp).1⟩⟩
  rcases h.last with ⟨_, hlast⟩ | ⟨c, hwait, _⟩
  · obtain ⟨c, htold, hnew⟩ := hlast hchanged
    exact ⟨c, htold l hl, hnew⟩
  · rw [hidle] at hwait
    cases hwait

theorem new_inv (defaultValue : T) (cbs : List Nat) : (new defaultValue cbs).Inv where
  commits := fun _ hp => (List.not_mem_nil hp).elim
  last := Or.inl ⟨rfl, fun hne => absurd rfl hne⟩

theorem tell_of_mem {ids : List Nat} {l : Nat} (hl : l ∈ ids) (c : Change T) :
    x.tell ids c l = x.told l ++ [c] :=
  if_pos hl

/-- A call that is alone tells every listener, and waits. -/
theorem setValue_keeps [BEq T] {v : T} {throwsAt : Option Nat} (h : x.Inv)
    (hc : x.TellsAlone v throwsAt) (hst : x.setValue v throwsAt = some x') : x'.Inv := by
  by_cases hsame : (v == x.val) = true
  · have hx : x' = x := by
      cases throwsAt with
      | none =>
          rw [setValue, if_pos hsame] at hst
          exact (Option.some.inj hst).symm
      | some k =>
          rw [setValue, if_pos hsame] at hst
          exact (Option.some.inj hst).symm
    rw [hx]
    exact h
  · obtain ⟨hidle, rfl⟩ := hc.resolve_left hsame
    rw [setValue, if_neg hsame] at hst
    obtain rfl := Option.some.inj hst
    constructor
    · intro p hp
      obtain ⟨hold, htold⟩ := h.commits p hp
      refine ⟨hold, fun l hl => ?_⟩
      simp only [tell_of_mem hl]
      exact List.mem_append_left _ (htold l hl)
    · refine Or.inr ⟨⟨x.val, v⟩, ?_, rfl, ?_⟩
      · simp only [hidle, List.nil_append]
      · intro l hl
        simp only [tell_of_mem hl, List.getLast?_append, List.getLast?_singleton,
          Option.some_or]

/-- The change that waits replaces the value that it names. -/
theorem commit_keeps {i : Nat} (h : x.Inv) (hst : x.commit i = some x') : x'.Inv := by
  unfold commit at hst
  split at hst
  · cases hst
  · rename_i c hget
    obtain rfl := Option.some.inj hst
    rcases h.last with ⟨hidle, _⟩ | ⟨c', hwait, hold, hlast⟩
    · rw [hidle] at hget
      cases hget
    · have hmem := List.mem_of_getElem? hget
      rw [hwait, List.mem_singleton] at hmem
      subst hmem
      have hrest : x.waiting.eraseIdx i = [] := by
        rw [hwait] at hget ⊢
        cases i with
        | zero => rfl
        | succ i => cases hget
      constructor
      · intro p hp
        rcases List.mem_append.mp hp with hp | hp
        · exact h.commits p hp
        · obtain rfl := List.mem_singleton.mp hp
          exact ⟨hold, fun l hl => List.mem_of_getLast? (hlast l hl)⟩
      · exact Or.inl ⟨hrest, fun _ => ⟨c, hlast, rfl⟩⟩

/-- **A change that is told alone is told and committed as one.** -/
theorem step_keeps [BEq T] {fromStr : String → Option T} {a : VarCall T} (h : x.Inv)
    (hc : x.OneAtATime fromStr a) (hst : step fromStr x a = some x') : x'.Inv := by
  cases a with
  | setValue v throwsAt => exact setValue_keeps h hc hst
  | fromString val throwsAt =>
      simp only [step] at hst
      split at hst
      · obtain rfl := Option.some.inj hst
        exact h
      · rename_i v hv
        exact setValue_keeps h (hc v hv) hst
  | commit i => exact commit_keeps h hst

end ConfigVar

/-- **Listeners see the committed value.**  In every run in which no change is told while
another one waits to be committed, and no listener throws: when no call is in progress and
something has changed, the last change that each listener was told has the value of the
variable, and every change was told with the value that it replaced. -/
theorem listeners_truthful [BEq T] (fromStr : String → Option T) {x : ConfigVar T}
    (h : (ConfigVar.system fromStr).Reachable (ConfigVar.OneAtATime fromStr) x) :
    x.Truthful := by
  refine (h.invariant ConfigVar.Inv ?_
    (fun x a x' hx hc hst => ConfigVar.step_keeps hx hc hst)).truthful
  rintro x ⟨defaultValue, cbs, rfl⟩
  exact ConfigVar.new_inv defaultValue cbs

/-- A conversion to milliseconds that knows one text. -/
def parseMs (val : String) : Option Nat :=
  if val = "250" then some 250 else none

/-- Two changes one after the other, a call without one, and a text that is no number. -/
def timeoutCalls : List (VarCall Nat) :=
  [.setValue 3000 none, .commit 0, .fromString "none" none, .setValue 3000 none,
    .fromString "250" none, .commit 0]

open ConfigVar in
theorem listeners_truthful_timeout :
    ∃ x, (system parseMs).execIf (OneAtATime parseMs) (new 5000 [1, 2]) timeoutCalls = some x ∧
      x.val = 250 ∧ x.Truthful := by
  have hrun : ((system parseMs).execIf (OneAtATime parseMs) (new 5000 [1, 2]) timeoutCalls).map
      ConfigVar.val = some 250 := by
    decide
  obtain ⟨x, hx, hval⟩ := Option.map_eq_some_iff.mp hrun
  exact ⟨x, hx, hval, listeners_truthful parseMs (System.execIf_reachable ⟨5000, [1, 2], rfl⟩ hx)⟩

open ConfigVar in
/-- The changes are told in one order and committed in the other. -/
theorem listeners_misled :
    ¬ ∀ (fromStr : String → Option Nat) (x : ConfigVar Nat),
      (system fromStr).Reachable anyStep x → x.Truthful := by
  intro hall
  obtain ⟨x, hx⟩ := Option.isSome_iff_exists.mp
    (rfl : ((system parseMs).exec (new 5000 [1])
      [.setValue 3000 none, .setValue 250 none, .commit 1, .commit 0]).isSome = true)
  have htrue := hall parseMs x (System.exec_reachable ⟨5000, [1], rfl⟩ hx)
  obtain rfl := Option.some.inj hx
  obtain ⟨⟨c, hlast, hnew⟩, _⟩ := htrue rfl (List.cons_ne_nil _ _) 1 (List.mem_singleton.mpr rfl)
  obtain rfl : (⟨5000, 250⟩ : Change Nat) = c := Option.some.inj hlast
  cases hnew

end Configuration
end Hpgs
