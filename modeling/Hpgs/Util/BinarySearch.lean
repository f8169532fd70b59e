import Hpgs.Library.Bisection
import Mathlib.Algebra.Group.Int.Defs

/-!
# Binary search

`BinarySearch` keeps two bounds of type `int` and looks at the element in their middle,
which it finds by the sum of the bounds.  In a long array the sum leaves `int`.

**Results.**
* `pass_eq`: one pass of the loop.
* `searchLoop_answers`: with bounds whose sums fit, the search gives the right answer.
* `binarySearch_correct`: it does exactly if the sums fit on the way into the upper half.
* `binarySearch_overflows`: the longest array, all of whose elements are smaller.
-/

namespace Hpgs
namespace Util

open OrderedSet Bisection

universe u

variable {T : Type u} (less : T → T → Bool)

/-! ## Definitions -/

/-- The values of type `int`. -/
def InInt (x : Int) : Prop :=
  -2 ^ 31 ≤ x ∧ x < 2 ^ 31

instance (x : Int) : Decidable (InInt x) :=
  inferInstanceAs (Decidable (_ ∧ _))

/-- A result of type `int`; the behaviour is undefined where it is `none`. -/
def int (x : Int) : Option Int :=
  if InInt x then some x else none

theorem int_eq_some {x y : Int} : int x = some y ↔ InInt x ∧ x = y := by
  rw [int, Option.ite_none_right_eq_some, Option.some.injEq]

theorem int_of_inInt {x : Int} (h : InInt x) : int x = some x :=
  if_pos h

/-- What a pass of the loop comes to: the index that is returned, or new bounds. -/
inductive Pass
  | found (m : Int)
  | bounds (first last : Int)
deriving DecidableEq

/-- The body of the loop, with the bounds `first` and `last`. -/
def pass (arr : List T) (v : T) (first last : Int) : Option Pass :=
  (int (first + last)).bind fun sum =>
    let m := sum / 2
    (arr[m.toNat]?).bind fun x =>
      if less v x then (int (m - 1)).map fun last' => .bounds first last'
      else if less x v then (int (m + 1)).map fun first' => .bounds first' last
      else some (.found m)

theorem pass_shrinks {arr : List T} {v : T} {first last first' last' : Int}
    (hle : first ≤ last) (h : pass less arr v first last = some (.bounds first' last')) :
    (last' + 1 - first').toNat < (last + 1 - first).toNat := by
  obtain ⟨sum, hsum, h⟩ := Option.bind_eq_some_iff.mp h
  obtain ⟨x, _, h⟩ := Option.bind_eq_some_iff.mp h
  obtain ⟨_, rfl⟩ := int_eq_some.mp hsum
  split at h
  · obtain ⟨y, hy, hb⟩ := Option.map_eq_some_iff.mp h
    obtain ⟨_, rfl⟩ := int_eq_some.mp hy
    cases hb
    omega
  · split at h
    · obtain ⟨y, hy, hb⟩ := Option.map_eq_some_iff.mp h
      obtain ⟨_, rfl⟩ := int_eq_some.mp hy
      cases hb
      omega
    · cases h

/-- The loop of `BinarySearch`, and what is returned behind it. -/
def searchLoop (arr : List T) (v : T) (first last : Int) : Option Int :=
  if hle : first ≤ last then
    match h : pass less arr v first last with
    | none => none
    | some (.found m) => some m
    | some (.bounds first' last') =>
        have := pass_shrinks less hle h
        searchLoop arr v first' last'
  else (int (-first)).bind fun x => int (x - 1)
termination_by (last + 1 - first).toNat

/-- `BinarySearch` with the length of `arr`. -/
def binarySearch (arr : List T) (v : T) : Option Int :=
  (int ((arr.length : Int) - 1)).bind fun last => searchLoop less arr v 0 last

/-- What `BinarySearch` should return. -/
structure Answers (arr : List T) (v : T) (rt : Int) : Prop where
  found : (∃ x ∈ arr, Equivalent less x v) →
    ∃ (m : Nat) (x : T), arr[m]? = some x ∧ Equivalent less x v ∧ rt = m
  missing : (¬ ∃ x ∈ arr, Equivalent less x v) → rt = -(below less v arr : Int) - 1

/-- The sum of the bounds `n - n / 2 ^ j` and `n - 1` is an `int` for every `j` from `k` on
for which there are elements between the bounds, and smaller ones only before them. -/
def SumsFit (n smaller k : Nat) : Prop :=
  ∀ j, k ≤ j → 0 < n / 2 ^ j → n - n / 2 ^ j ≤ smaller → n - n / 2 ^ j + (n - 1) < 2 ^ 31

/-! ## One pass -/

variable {less} {arr : List T} {v : T}

variable (less v) in
/-- A pass whose sum is an `int` compares with the element in the middle. -/
theorem pass_eq {f l m : Nat} (hlen : arr.length < 2 ^ 31) (hf : f < l) (hl : l ≤ arr.length)
    (hfit : f + (l - 1) < 2 ^ 31) (hm : m = (f + (l - 1)) / 2) (hlt : m < arr.length) :
    pass less arr v f ((l : Int) - 1) =
      if less v arr[m] then some (.bounds f ((m : Int) - 1))
      else if less arr[m] v then some (.bounds ((m + 1 : Nat) : Int) ((l : Int) - 1))
      else some (.found m) := by
  have hsum : int ((f : Int) + ((l : Int) - 1)) = some ((f : Int) + ((l : Int) - 1)) :=
    int_of_inInt ⟨by omega, by omega⟩
  have hmid : ((f : Int) + ((l : Int) - 1)) / 2 = m := by omega
  have hget : arr[m]? = some arr[m] := List.getElem?_eq_getElem hlt
  have hdown : int ((m : Int) - 1) = some ((m : Int) - 1) := int_of_inInt ⟨by omega, by omega⟩
  have hup : int ((m : Int) + 1) = some ((m : Int) + 1) := int_of_inInt ⟨by omega, by omega⟩
  rw [pass, hsum, Option.bind_some, hmid]
  simp only [Int.toNat_natCast, hget, Option.bind_some, hdown, hup, Option.map_some,
    Int.natCast_succ]

theorem pass_overflows {f l : Nat} (hf : f < l) (hbig : ¬ f + (l - 1) < 2 ^ 31) :
    pass less arr v f ((l : Int) - 1) = none := by
  have hsum : int ((f : Int) + ((l : Int) - 1)) = none :=
    if_neg fun h => hbig (by have := h.2; omega)
  rw [pass, hsum, Option.bind_none]

section Loop

variable {first last : Int} (hle : first ≤ last)
include hle

/-- The loop goes on as a pass says. -/
theorem searchLoop_pass :
    searchLoop less arr v first last =
      match pass less arr v first last with
      | none => none
      | some (.found m) => some m
      | some (.bounds first' last') => searchLoop less arr v first' last' := by
  rw [searchLoop, dif_pos hle]
  split
  · rename_i hnone
    rw [hnone]
  · rename_i m hfound
    rw [hfound]
  · rename_i first' last' hbounds
    simp only [hbounds]

theorem searchLoop_none (h : pass less arr v first last = none) :
    searchLoop less arr v first last = none := by
  rw [searchLoop_pass hle, h]

theorem searchLoop_found {m : Int} (h : pass less arr v first last = some (.found m)) :
    searchLoop less arr v first last = some m := by
  rw [searchLoop_pass hle, h]

theorem searchLoop_bounds {first' last' : Int}
    (h : pass less arr v first last = some (.bounds first' last')) :
    searchLoop less arr v first last = searchLoop less arr v first' last' := by
  rw [searchLoop_pass hle, h]

end Loop

/-- The loop ends where the value belongs. -/
theorem searchLoop_done {f : Nat} (h : StrictWeak less) (hs : NonDecreasing less arr)
    (hlen : arr.length < 2 ^ 31) (hlow : f ≤ below less v arr) (hhigh : upTo less v arr ≤ f) :
    ∃ rt, searchLoop less arr v f ((f : Int) - 1) = some rt ∧ Answers less arr v rt := by
  have hle := below_le_upTo h v arr
  have hn := upTo_le_length less v arr
  have hneg : int (-(f : Int)) = some (-(f : Int)) := int_of_inInt ⟨by omega, by omega⟩
  have hrt : int (-(f : Int) - 1) = some (-(f : Int) - 1) := int_of_inInt ⟨by omega, by omega⟩
  refine ⟨-(f : Int) - 1, ?_, ?_, ?_⟩
  · rw [searchLoop, dif_neg (by omega), hneg, Option.bind_some, hrt]
  · exact fun hex => absurd hex ((not_equivalent_iff h hs v).mpr (by omega))
  · intro _
    have heq : f = below less v arr := by omega
    rw [heq]

/-- An element that neither comparison tells from the value. -/
theorem answers_found {m : Nat} (hm : m < arr.length) (hvm : less v arr[m] = false)
    (hmv : less arr[m] v = false) : Answers less arr v m := by
  have heq : Equivalent less arr[m] v := ⟨hmv, hvm⟩
  exact ⟨fun _ => ⟨m, arr[m], List.getElem?_eq_getElem hm, heq, rfl⟩,
    fun hnone => absurd ⟨arr[m], List.getElem_mem hm, heq⟩ hnone⟩

/-- The last index of the array is an `int`. -/
theorem binarySearch_eq (hlen : arr.length < 2 ^ 31) :
    binarySearch less arr v = searchLoop less arr v (0 : Nat) ((arr.length : Int) - 1) := by
  rw [binarySearch, int_of_inInt ⟨by omega, by omega⟩]
  rfl

/-! ## The sums -/

theorem sumsFit_step {n smaller k : Nat} (hpos : 0 < n / 2 ^ k) (hlow : n - n / 2 ^ k ≤ smaller) :
    SumsFit n smaller k ↔ n - n / 2 ^ k + (n - 1) < 2 ^ 31 ∧ SumsFit n smaller (k + 1) := by
  constructor
  · exact fun h => ⟨h k (Nat.le_refl k) hpos hlow, fun j hj => h j (Nat.le_of_succ_le hj)⟩
  · rintro ⟨hone, hrest⟩ j hj
    rcases Nat.eq_or_lt_of_le hj with rfl | hj
    · exact fun _ _ => hone
    · exact hrest j hj

/-- A way that is left takes no more passes. -/
theorem sumsFit_of_lt {n smaller k : Nat} (hlt : smaller < n - n / 2 ^ k) :
    SumsFit n smaller k := by
  intro j hj _ hlow
  have hanti := div_two_pow_anti n hj
  omega

theorem sumsFit_of_zero {n smaller k : Nat} (hzero : n / 2 ^ k = 0) : SumsFit n smaller k := by
  intro j hj hpos
  have hanti := div_two_pow_anti n hj
  omega

/-! ## The search -/

section Search

variable (h : StrictWeak less) (hs : NonDecreasing less arr) (hlen : arr.length < 2 ^ 31)
include h hs hlen

/-- **Bounds in the lower part.**  Where twice the upper bound is an `int`, the search
gives the right answer. -/
theorem searchLoop_answers {f l : Nat} (hfl : f ≤ l) (hl : l ≤ arr.length)
    (hlow : f ≤ below less v arr) (hhigh : upTo less v arr ≤ l)
    (hsmall : 2 * (l - 1) < 2 ^ 31) :
    ∃ rt, searchLoop less arr v f ((l : Int) - 1) = some rt ∧ Answers less arr v rt := by
  induction hd : l - f using Nat.strong_induction_on generalizing f l with
  | h d ih =>
      by_cases hlt : f < l
      · have hle : (f : Int) ≤ (l : Int) - 1 := by omega
        obtain ⟨m, hm⟩ : ∃ m, m = (f + (l - 1)) / 2 := ⟨_, rfl⟩
        have hmlt : m < arr.length := by omega
        have hpass := pass_eq less v hlen hlt hl (by omega) hm hmlt
        cases hvm : less v arr[m] with
        | true =>
            -- the value belongs before the middle
            have hup := (upTo_le_iff h hs v hmlt).mp hvm
            have hbelow := below_le_upTo h v arr
            rw [if_pos hvm] at hpass
            rw [searchLoop_bounds hle hpass]
            exact ih (m - f) (by omega) (by omega) (by omega) hlow hup (by omega) rfl
        | false =>
            rw [if_neg (by simp [hvm])] at hpass
            cases hmv : less arr[m] v with
            | true =>
                -- the value belongs behind the middle
                have hdown := (lt_below_iff h hs v hmlt).mp hmv
                have hupper := below_le_upTo h v arr
                rw [if_pos hmv] at hpass
                rw [searchLoop_bounds hle hpass]
                exact ih (l - (m + 1)) (by omega) (by omega) hl hdown hhigh hsmall rfl
            | false =>
                rw [if_neg (by simp [hmv])] at hpass
                exact ⟨m, searchLoop_found hle hpass, answers_found hmlt hvm hmv⟩
      · obtain rfl : f = l := by omega
        exact searchLoop_done h hs hlen hlow hhigh

/-- **The way into the upper half.**  After `k` passes that went on behind the middle, the
search gives the right answer exactly if no later pass on that way has a sum that leaves
`int`. -/
theorem searchLoop_upper {f k : Nat} (hf : f = arr.length - arr.length / 2 ^ k)
    (hlow : f ≤ below less v arr) :
    (∃ rt, searchLoop less arr v f ((arr.length : Int) - 1) = some rt ∧
        Answers less arr v rt) ↔ SumsFit arr.length (below less v arr) k := by
  have hsub : arr.length / 2 ^ k ≤ arr.length := Nat.div_le_self _ _
  induction hd : arr.length / 2 ^ k using Nat.strong_induction_on generalizing f k with
  | h d ih =>
      by_cases hpos : 0 < arr.length / 2 ^ k
      · have hlt : f < arr.length := by omega
        have hle : (f : Int) ≤ (arr.length : Int) - 1 := by omega
        rw [sumsFit_step hpos (by omega), ← hf]
        by_cases hfit : f + (arr.length - 1) < 2 ^ 31
        · obtain ⟨m, hm⟩ : ∃ m, m = (f + (arr.length - 1)) / 2 := ⟨_, rfl⟩
          have hmlt : m < arr.length := by omega
          have hpass := pass_eq less v hlen hlt (Nat.le_refl _) hfit hm hmlt
          have hnext : m + 1 = arr.length - arr.length / 2 ^ (k + 1) := by
            rw [hm, hf]
            exact upper_half arr.length k hpos
          cases hvm : less v arr[m] with
          | true =>
              have hup := (upTo_le_iff h hs v hmlt).mp hvm
              have hbelow := below_le_upTo h v arr
              rw [if_pos hvm] at hpass
              rw [searchLoop_bounds hle hpass]
              refine ⟨fun _ => ⟨hfit, sumsFit_of_lt (by omega)⟩, fun _ => ?_⟩
              exact searchLoop_answers h hs hlen (by omega) (by omega) hlow hup (by omega)
          | false =>
              rw [if_neg (by simp [hvm])] at hpass
              cases hmv : less arr[m] v with
              | true =>
                  have hdown := (lt_below_iff h hs v hmlt).mp hmv
                  have hrest := ih (arr.length / 2 ^ (k + 1)) (by omega) hnext hdown (by omega) rfl
                  rw [if_pos hmv] at hpass
                  rw [searchLoop_bounds hle hpass]
                  exact hrest.trans ⟨fun hfits => ⟨hfit, hfits⟩, And.right⟩
              | false =>
                  have hdown := (lt_below_iff h hs v hmlt).not.mp (by simp [hmv])
                  rw [if_neg (by simp [hmv])] at hpass
                  rw [searchLoop_found hle hpass]
                  exact ⟨fun _ => ⟨hfit, sumsFit_of_lt (by omega)⟩,
                    fun _ => ⟨m, rfl, answers_found hmlt hvm hmv⟩⟩
        · rw [searchLoop_none hle (pass_overflows hlt hfit)]
          constructor
          · rintro ⟨rt, hrt, _⟩
            cases hrt
          · exact fun hfits => absurd hfits.1 hfit
      · obtain rfl : f = arr.length := by omega
        exact ⟨fun _ => sumsFit_of_zero (by omega),
          fun _ => searchLoop_done h hs hlen hlow (upTo_le_length _ v arr)⟩

end Search

/-- **Binary search.**  For every strict weak order, every array of at most `2 ^ 31 - 1`
elements that is sorted by it and every value: the search comes to an end without a sum or
an index outside of `int`, and with the right answer, exactly if no pass on the way into the
upper half has a sum that leaves `int`. -/
theorem binarySearch_correct {less : T → T → Bool} (h : StrictWeak less) {arr : List T}
    (hs : NonDecreasing less arr) (hlen : arr.length < 2 ^ 31) (v : T) :
    (∃ rt, binarySearch less arr v = some rt ∧ Answers less arr v rt) ↔
      SumsFit arr.length (below less v arr) 0 := by
  rw [binarySearch_eq hlen]
  exact searchLoop_upper h hs hlen (by simp) (Nat.zero_le _)

/-- A number that is missing between two others. -/
theorem binarySearch_correct_missing :
    (∃ rt, binarySearch (fun a b : Nat => decide (a < b)) [1, 3, 5] 4 = some rt ∧
      Answers (fun a b : Nat => decide (a < b)) [1, 3, 5] 4 rt) := by
  refine (binarySearch_correct strictWeak_lt ?_ (by decide) 4).mpr fun j _ _ _ => ?_
  · simp [NonDecreasing]
  · exact Nat.lt_of_le_of_lt (Nat.add_le_add_right (Nat.sub_le 3 _) 2) (by decide)

/-- The longest array, all of whose elements are smaller than the value: the sum of the
second pass is `2 ^ 30 + (2 ^ 31 - 2)`. -/
theorem binarySearch_overflows :
    ¬ ∀ (less : Nat → Nat → Bool) (arr : List Nat) (v : Nat), StrictWeak less →
      NonDecreasing less arr → arr.length < 2 ^ 31 →
      ∃ rt, binarySearch less arr v = some rt ∧ Answers less arr v rt := by
  intro hall
  obtain ⟨arr, harr⟩ : ∃ arr, arr = List.replicate (2 ^ 31 - 1) 0 := ⟨_, rfl⟩
  have hlen : arr.length = 2 ^ 31 - 1 := by rw [harr, List.length_replicate]
  have hs : NonDecreasing (fun a b : Nat => decide (a < b)) arr := by
    rw [harr, NonDecreasing, List.pairwise_replicate]
    exact Or.inr (by decide)
  have hbelow : below (fun a b : Nat => decide (a < b)) 1 arr = 2 ^ 31 - 1 := by
    rw [harr, below, List.countP_replicate, if_pos (by decide)]
  have hfound := hall (fun a b : Nat => decide (a < b)) arr 1 strictWeak_lt hs (by omega)
  have hupper := searchLoop_upper (v := 1) (k := 0) strictWeak_lt hs (by omega) rfl (by simp)
  rw [binarySearch_eq (by omega)] at hfound
  simp only [Nat.pow_zero, Nat.div_one, Nat.sub_self] at hupper
  have hfit := hupper.mp hfound
  rw [hlen, hbelow] at hfit
  exact absurd (hfit 1 (Nat.zero_le 1) (by decide) (by decide)) (by decide)

end Util
end Hpgs
