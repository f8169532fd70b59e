import Hpgs.Concurrency.EventRegistryRuns

/-!
# The table of contexts

`addEvent` compares the size of `m_fdContexts` under the read lock and calls
`contextResize(fd * 1.5)` under the write lock, without looking at the size again.

**Results.**
* `context_table_grows`: along a run no context is lost and every call uses the context
  of its descriptor, exactly if every `contextResize` asks for at least what there is.
* `context_table_shrinks`: two calls of `addEvent` after which a context is gone.
-/

namespace Hpgs
namespace Concurrency

open Transition

universe u v

namespace IOSys

variable {φ : Type u} {κ : Type v}

/-- From `s` to a later state the table did not shrink, a lookup finds the context that a
descriptor had, and a call in hand on such a descriptor uses it. -/
def Grown : Except Abort (IOSys φ κ) → Except Abort (IOSys φ κ) → Prop
  | .ok s, .ok t =>
      s.mgr.fdContexts.length ≤ t.mgr.fdContexts.length ∧
        ∀ (fd p : Nat), s.mgr.fdContexts[fd]? = some p →
          t.mgr.find fd = some p ∧ ∀ c q, (c, q) ∈ t.calls → c.fd = fd → q = p
  | .error _, .ok _ => False
  | _, .error _ => True

/-- **The condition.**  Where `addEvent` takes the write lock, the table has at most the
size `fd * 1.5` that it then asks for, and that size is an `int`. -/
def Enlarges : Except Abort (IOSys φ κ) → IOStep φ κ → Prop
  | .ok s, .resize k =>
      ∀ c ∈ s.growing[k]?, s.mgr.fdContexts.length ≤ c.fd * 3 / 2 ∧ c.fd * 3 / 2 < 2 ^ 31
  | _, _ => True

/-- The size of the table is an `int`, and the calls in hand use the contexts that are in
the table now. -/
def TableInv : Except Abort (IOSys φ κ) → Prop
  | .ok s =>
      s.WellFormed ∧ s.mgr.fdContexts.length < 2 ^ 31 ∧
        ∀ c ∈ s.calls, s.mgr.fdContexts[c.1.fd]? = some c.2
  | .error _ => True

end IOSys

namespace IOManager

variable {φ : Type u} {κ : Type v} {m m' : IOManager φ κ}

/-- A table that is not cut off keeps its contexts. -/
theorem contextResize_prefix {size : Nat} (h : m.fdContexts.length ≤ size) :
    m.fdContexts <+: (m.contextResize size).fdContexts := by
  unfold contextResize
  simp only
  rw [List.take_of_length_le h]
  exact List.prefix_append _ _

/-- A size that is an `int` is compared as it is. -/
theorem toInt_ofNat_of_lt {k : Nat} (h : k < 2 ^ 31) : (BitVec.ofNat 32 k).toInt = k := by
  rw [BitVec.toInt_eq_toNat_of_lt, BitVec.toNat_ofNat, Nat.mod_eq_of_lt (by omega)]
  rw [BitVec.toNat_ofNat, Nat.mod_eq_of_lt (by omega)]
  omega

/-- Every context is found while the size of the table is an `int`. -/
theorem find_eq (h : m.fdContexts.length < 2 ^ 31) (fd : Nat) :
    m.find fd = m.fdContexts[fd]? := by
  unfold find
  rw [toInt_ofNat_of_lt h]
  split
  · rfl
  · rename_i hle
    exact (List.getElem?_eq_none (by omega)).symm

/-- No other table is searched to its end. -/
theorem find_last (h : ¬ m.fdContexts.length < 2 ^ 31) :
    m.find (m.fdContexts.length - 1) = none := by
  unfold find
  rw [if_neg]
  have hlt := BitVec.toInt_lt (x := BitVec.ofNat 32 m.fdContexts.length)
  omega

end IOManager

namespace IOSys

variable {φ : Type u} {κ : Type v}

theorem grown_refl (p : Except Abort (IOSys φ κ)) (h : TableInv p) : Grown p p := by
  cases p with
  | error r => trivial
  | ok s =>
      refine ⟨le_rfl, fun fd p hp => ⟨(IOManager.find_eq h.2.1 fd).trans hp, ?_⟩⟩
      rintro c q hc rfl
      exact Option.some.inj ((h.2.2 (c, q) hc).symm.trans hp)

theorem grown_trans (p q r : Except Abort (IOSys φ κ)) (hpq : Grown p q) (hqr : Grown q r) :
    Grown p r := by
  cases r with
  | error e => cases p <;> trivial
  | ok u =>
      cases q with
      | error e => exact hqr.elim
      | ok t =>
          cases p with
          | error e => exact hpq.elim
          | ok s =>
              refine ⟨hpq.1.trans hqr.1, fun fd p hp => ?_⟩
              exact hqr.2 fd p (IOManager.find_some (hpq.2 fd p hp).1)

/-- A step that meets the condition extends the table. -/
theorem step_prefix {s t : IOSys φ κ} {a : IOStep φ κ} (h : s.WellFormed)
    (hc : Enlarges (.ok s) a) (hs : step (.ok s) a = some (.ok t)) :
    s.mgr.fdContexts <+: t.mgr.fdContexts := by
  rcases step_mgr h hs with he | ⟨k, c, rfl, hget, hm⟩
  · rw [he.size.1]
  · rw [hm]
    exact IOManager.contextResize_prefix (hc c hget).1

/-- It keeps the size an `int`. -/
theorem step_size {s t : IOSys φ κ} {a : IOStep φ κ} (h : s.WellFormed)
    (hsize : s.mgr.fdContexts.length < 2 ^ 31) (hc : Enlarges (.ok s) a)
    (hs : step (.ok s) a = some (.ok t)) :
    t.mgr.fdContexts.length < 2 ^ 31 := by
  rcases step_mgr h hs with he | ⟨k, c, rfl, hget, hm⟩
  · rw [he.size.1]
    exact hsize
  · rw [hm, IOManager.contextResize_length]
    exact (hc c hget).2

theorem getElem_of_prefix {l l' : List Nat} (h : l <+: l') {i p : Nat} (hp : l[i]? = some p) :
    l'[i]? = some p := by
  obtain ⟨r, rfl⟩ := h
  obtain ⟨hi, _⟩ := List.getElem?_eq_some_iff.mp hp
  rw [List.getElem?_append_left hi, hp]

/-- **Step lemma.** -/
theorem step_tableInv (p : Except Abort (IOSys φ κ)) (a : IOStep φ κ)
    (q : Except Abort (IOSys φ κ)) (h : TableInv p) (hc : Enlarges p a)
    (hs : step p a = some q) :
    TableInv q ∧ Grown p q := by
  cases p with
  | error r => cases hs
  | ok s =>
      cases q with
      | error r => exact ⟨trivial, trivial⟩
      | ok t =>
          obtain ⟨hwf, hsize, hcalls⟩ := h
          have hprefix := step_prefix hwf hc hs
          have hsize' := step_size hwf hsize hc hs
          have hinv : TableInv (.ok t) := by
            refine ⟨step_wellFormed hwf hs, hsize', fun c hmem => ?_⟩
            rcases (step_inHand hwf hs).1 c hmem with hold | hnew
            · exact getElem_of_prefix hprefix (hcalls c hold)
            · exact hnew
          refine ⟨hinv, hprefix.length_le, fun fd p hp => ?_⟩
          have hp' := getElem_of_prefix hprefix hp
          refine ⟨(IOManager.find_eq hsize' fd).trans hp', ?_⟩
          rintro c q hmem rfl
          exact Option.some.inj ((hinv.2.2 (c, q) hmem).symm.trans hp')

/-- A step after which the table did not shrink and is searched to its end meets the
condition. -/
theorem enlarges_of_grown (p : Except Abort (IOSys φ κ)) (a : IOStep φ κ)
    (q : Except Abort (IOSys φ κ)) (hs : step p a = some q) (h : Grown p q)
    (hself : Grown q q) :
    Enlarges p a := by
  cases p with
  | error r => trivial
  | ok s =>
      cases a with
      | resize k =>
          intro c hget
          simp only [step, Option.mem_def.mp hget] at hs
          obtain ⟨p, hp, rfl⟩ := Option.map_eq_some_iff.mp hs
          have hlen := IOManager.contextResize_length s.mgr (c.fd * 3 / 2)
          refine ⟨by rw [← hlen]; exact h.1, ?_⟩
          -- otherwise the last context is not found
          rw [← hlen]
          by_contra hbig
          have hlast := IOManager.find_last hbig
          obtain ⟨hlt, _⟩ := List.getElem?_eq_some_iff.mp hp
          have hget' := List.getElem?_eq_getElem (l := (s.mgr.contextResize
            (c.fd * 3 / 2)).fdContexts) (Nat.sub_lt (Nat.zero_lt_of_lt hlt) Nat.one_pos)
          rw [(hself.2 _ _ hget').1] at hlast
          cases hlast
      | _ => trivial

/-- **The table of contexts.**  Along any run the table never shrinks, and once a
descriptor has a context every later call on it finds and uses that context, exactly if
no `contextResize` of `addEvent` asks for less than the size that the table has, or for
more than an `int` holds. -/
theorem context_table_grows (as : List (IOStep φ κ))
    (hrun : ((system φ κ).exec (.ok start) as).isSome) :
    (system φ κ).Between Grown (.ok start) as ↔
      (system φ κ).StepsMeet Enlarges (.ok start) as :=
  System.between_iff_stepsMeet (T := system φ κ) grown_refl grown_trans step_tableInv
    enlarges_of_grown
    ⟨start_wellFormed, by simp [start, IOManager.new, IOManager.contextResize_length],
      by simp [start]⟩ hrun

/-- Descriptors 32 and 50 are added one after the other, and descriptor 32 once more. -/
def growingRun : List (IOStep Nat Nat) :=
  [ .call (.addEvent 32 .read (some 1) ⟨some 0, 0, .exec⟩),
    .resize 0,
    .locked 0 false,
    .call (.addEvent 50 .read (some 2) ⟨some 0, 0, .exec⟩),
    .resize 0,
    .locked 0 false,
    .call (.addEvent 32 .write (some 3) ⟨some 0, 0, .exec⟩) ]

theorem context_table_grows_twice :
    (system Nat Nat).Between Grown (.ok start) growingRun ↔
      (system Nat Nat).StepsMeet Enlarges (.ok start) growingRun :=
  context_table_grows growingRun rfl

/-- Both calls find 32 contexts.  The second one asks for 48 of the 75 that the first has
made in between. -/
def racingRun : List (IOStep Nat Nat) :=
  [ .call (.addEvent 50 .read (some 1) ⟨some 0, 0, .exec⟩),
    .call (.addEvent 32 .read (some 2) ⟨some 0, 0, .exec⟩),
    .resize 0,
    .locked 0 false,
    .resize 0,
    .call (.cancelEvent 50 .read) ]

/-- Descriptor 50 had a context with an event; after the second `contextResize` it has none. -/
theorem context_table_shrinks :
    (¬ ∀ as : List (IOStep Nat Nat), ((system Nat Nat).exec (.ok start) as).isSome →
        (system Nat Nat).Between Grown (.ok start) as) ∧
      ∃ s t : IOSys Nat Nat,
        (system Nat Nat).exec (.ok start) (racingRun.take 4) = some (.ok s) ∧
          s.mgr.find 50 = some 50 ∧
        (system Nat Nat).exec (.ok start) racingRun = some (.ok t) ∧ t.mgr.find 50 = none := by
  refine ⟨fun hall => ?_, _, _, rfl, rfl, rfl, rfl⟩
  have hrun : ((system Nat Nat).exec (.ok start) racingRun).isSome := rfl
  have hgrown := hall racingRun hrun (racingRun.take 3) (racingRun.drop 3) [] _ _ rfl rfl rfl
  have hle : 75 ≤ 48 := hgrown.1
  omega

end IOSys
end Concurrency
end Hpgs
