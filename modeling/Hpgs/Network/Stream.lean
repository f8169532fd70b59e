import Mathlib.Algebra.BigOperators.Group.List.Basic
import Mathlib.Algebra.Ring.Int.Defs
import Mathlib.Algebra.Ring.Nat

/-!
# Transfers of a fixed size

`readFixSize` and `writeFixSize` call `read` or `write` until nothing is left.  The length is
a `size_t`, what is left an `int64_t`, and the returned value an `int`.

**Results.**
* `transferFrom_ends`: the loop goes on to the first result that is not positive, or to the
  last byte.
* `inOrder_firstCalls`: its calls follow each other without gaps.
* `fix_size`: the four functions keep to their contract exactly if the length is an `int`, or
  an `int64_t` of which not all is transferred.
* `fix_size_negative`: a transfer that succeeds and is reported as an error.
-/

namespace Hpgs
namespace Network
namespace Stream

/-! ## Definitions -/

/-- A call of `read` or `write`. -/
structure Call where
  offset : Nat
  length : Nat
  result : Int
deriving DecidableEq, Repr

/-- The loop of the four functions, from call number `i` on.  `offset` is where the next bytes
go or come from: it is counted by the loop, or is the position of a `ByteArray` that moves
with each call.  It returns a result that is not positive, and `none` when nothing is left. -/
def transferFrom (result : Nat → Int) (i offset : Nat) (left : Int) : Option Int × List Call :=
  if 0 < left then
    let len := result i
    if len ≤ 0 then (some len, [⟨offset, left.toNat, len⟩])
    else
      let rest := transferFrom result (i + 1) (offset + len.toNat) (left - len)
      (rest.1, ⟨offset, left.toNat, len⟩ :: rest.2)
  else (none, [])
termination_by left.toNat

/-- The body of the four functions. -/
def fixSize (result : Nat → Int) (offset : Nat) (length : BitVec 64) : Int × List Call :=
  let loop := transferFrom result 0 offset length.toInt
  (loop.1.getD (length.setWidth 32).toInt, loop.2)

section Functions

variable (result : Nat → Int)

/-- `readFixSize` into a buffer, with what `read` returns. -/
def readFixSize (length : BitVec 64) : Int × List Call :=
  fixSize result 0 length

/-- `readFixSize` into a `ByteArray` from `position` on. -/
def readFixSizeByteArray (position : Nat) (length : BitVec 64) : Int × List Call :=
  fixSize result position length

/-- `writeFixSize` from a buffer, with what `write` returns. -/
def writeFixSize (length : BitVec 64) : Int × List Call :=
  fixSize result 0 length

/-- `writeFixSize` from a `ByteArray` from `position` on. -/
def writeFixSizeByteArray (position : Nat) (length : BitVec 64) : Int × List Call :=
  fixSize result position length

end Functions

/-! ## Contracts -/

/-- What the first `k` calls return together. -/
def moved (result : Nat → Int) (k : Nat) : Int :=
  ((List.range k).map result).sum

/-- `int`s that `read` or `write` return one after another, each at most the number of bytes
requested, which is what is left of `length`. -/
structure Results (length : Nat) where
  result : Nat → Int
  int : ∀ k, -2 ^ 31 ≤ result k ∧ result k < 2 ^ 31
  most : ∀ k, (∀ j < k, 0 < result j) → moved result k < length →
    result k ≤ length - moved result k

/-- Each call starts where the one before has stopped. -/
def InOrder : Nat → List Call → Prop
  | _, [] => True
  | offset, c :: calls => c.offset = offset ∧ InOrder (offset + c.result.toNat) calls

/-- The number of bytes transferred. -/
def total (calls : List Call) : Nat :=
  (calls.map fun c => c.result.toNat).sum

/-- The contract of the functions. -/
structure Fixed (start length : Nat) (r : Int × List Call) : Prop where
  inOrder : InOrder start r.2
  success : 0 < r.1 ↔ total r.2 = length
  value : 0 < r.1 → r.1 = length
  failure : ¬ 0 < r.1 → ∃ before last, r.2 = before ++ [last] ∧ (∀ c ∈ before, 0 < c.result) ∧
    last.result = r.1

/-- A result that is not positive comes before `length` bytes are transferred. -/
def EndsEarly (result : Nat → Int) (length : Nat) : Prop :=
  ∃ k, (∀ j < k, 0 < result j) ∧ moved result k < length ∧ result k ≤ 0

/-- The length is an `int`, or an `int64_t` of which not all is transferred. -/
def Fits (result : Nat → Int) (length : Nat) : Prop :=
  length < 2 ^ 31 ∨ (length < 2 ^ 63 ∧ EndsEarly result length)

/-! ## The loop -/

section Loop

variable {result : Nat → Int} {start length : Nat}

theorem moved_succ (k : Nat) : moved result (k + 1) = moved result k + result k :=
  List.sum_range_succ result k

theorem moved_nonneg {k : Nat} (h : ∀ j < k, 0 < result j) : 0 ≤ moved result k := by
  induction k with
  | zero => exact Int.le_refl 0
  | succ k ih =>
      obtain ⟨hfore, hlast⟩ := Nat.forall_lt_succ_right.mp h
      have hnonneg := ih hfore
      rw [moved_succ]
      omega

theorem moved_mono {k m : Nat} (hkm : k ≤ m) (h : ∀ j < m, 0 < result j) :
    moved result k ≤ moved result m := by
  induction m with
  | zero =>
      obtain rfl := Nat.le_zero.mp hkm
      exact Int.le_refl _
  | succ m ih =>
      rcases Nat.eq_or_lt_of_le hkm with rfl | hlt
      · exact Int.le_refl _
      · obtain ⟨hfore, hlast⟩ := Nat.forall_lt_succ_right.mp h
        have hle := ih (Nat.le_of_lt_succ hlt) hfore
        rw [moved_succ]
        omega

/-- A call that transfers something is followed by what is left. -/
theorem transferFrom_pos {i offset : Nat} {left : Int} (hleft : 0 < left) (hpos : 0 < result i) :
    transferFrom result i offset left =
      ((transferFrom result (i + 1) (offset + (result i).toNat) (left - result i)).1,
        ⟨offset, left.toNat, result i⟩ ::
          (transferFrom result (i + 1) (offset + (result i).toNat) (left - result i)).2) := by
  rw [transferFrom, if_pos hleft, if_neg (Int.not_le.mpr hpos)]

/-- Nothing is left. -/
theorem transferFrom_nil {i offset : Nat} {left : Int} (hleft : left ≤ 0) :
    transferFrom result i offset left = (none, []) := by
  rw [transferFrom, if_neg (Int.not_lt.mpr hleft)]

/-- The first `k` calls. -/
def firstCalls (result : Nat → Int) (start length k : Nat) : List Call :=
  (List.range k).map fun j =>
    ⟨start + (moved result j).toNat, (length - moved result j).toNat, result j⟩

theorem firstCalls_succ (k : Nat) :
    firstCalls result start length (k + 1) = firstCalls result start length k ++
      [⟨start + (moved result k).toNat, (length - moved result k).toNat, result k⟩] := by
  rw [firstCalls, List.range_succ, List.map_append]
  rfl

/-- How the loop ends. -/
inductive Ends (result : Nat → Int) (start length : Nat) : Option Int × List Call → Prop
  | early {k : Nat} : (∀ j < k, 0 < result j) → moved result k < length → result k ≤ 0 →
      Ends result start length (some (result k), firstCalls result start length (k + 1))
  | complete {k : Nat} : (∀ j < k, 0 < result j) → moved result k = length →
      Ends result start length (none, firstCalls result start length k)

theorem transferFrom_ends (start : Nat) (results : Results length) {i : Nat}
    (hpos : ∀ j < i, 0 < results.result j) (hle : moved results.result i ≤ length) :
    Ends results.result start length
      ((transferFrom results.result i (start + (moved results.result i).toNat)
          (length - moved results.result i)).1,
        firstCalls results.result start length i ++
          (transferFrom results.result i (start + (moved results.result i).toNat)
            (length - moved results.result i)).2) := by
  induction hn : (length - moved results.result i).toNat using Nat.strongRecOn generalizing i with
  | ind n ih =>
      by_cases hleft : 0 < (length : Int) - moved results.result i
      · by_cases hfail : results.result i ≤ 0
        · rw [transferFrom, if_pos hleft, if_pos hfail, ← firstCalls_succ]
          exact .early hpos (by omega) hfail
        · have hmost := results.most i hpos (by omega)
          have hnonneg := moved_nonneg hpos
          have hpos' : ∀ j < i + 1, 0 < results.result j :=
            Nat.forall_lt_succ_right.mpr ⟨hpos, Int.lt_of_not_ge hfail⟩
          have hoffset : start + (moved results.result i).toNat + (results.result i).toNat =
              start + (moved results.result (i + 1)).toNat := by
            rw [moved_succ]
            omega
          have hrest : (length : Int) - moved results.result i - results.result i =
              length - moved results.result (i + 1) := by
            rw [moved_succ]
            omega
          have hnext := ih _ (by omega) hpos' (by omega) rfl
          rw [transferFrom_pos hleft (Int.lt_of_not_ge hfail), hoffset, hrest]
          rw [firstCalls_succ, List.append_assoc] at hnext
          exact hnext
      · rw [transferFrom_nil (Int.not_lt.mp hleft), List.append_nil]
        exact .complete hpos (by omega)

/-! ## Calls -/

theorem total_append (calls : List Call) (c : Call) :
    total (calls ++ [c]) = total calls + c.result.toNat := by
  rw [total, List.map_append, List.sum_append, total]
  simp

theorem inOrder_append {start : Nat} {calls : List Call} {c : Call} :
    InOrder start (calls ++ [c]) ↔ InOrder start calls ∧ c.offset = start + total calls := by
  induction calls generalizing start with
  | nil => simp [InOrder, total]
  | cons d calls ih =>
      rw [List.cons_append, InOrder, InOrder, ih, and_assoc, total, total, List.map_cons,
        List.sum_cons, Nat.add_assoc]

variable (start length)

/-- Positive results are transferred one behind the other. -/
theorem inOrder_firstCalls {k : Nat} (h : ∀ j < k, 0 < result j) :
    InOrder start (firstCalls result start length k) ∧
      (total (firstCalls result start length k) : Int) = moved result k := by
  induction k with
  | zero => exact ⟨trivial, rfl⟩
  | succ k ih =>
      obtain ⟨hfore, hlast⟩ := Nat.forall_lt_succ_right.mp h
      obtain ⟨hin, htotal⟩ := ih hfore
      rw [firstCalls_succ, inOrder_append, total_append, moved_succ]
      simp only
      exact ⟨⟨hin, by omega⟩, by omega⟩

/-- The last call moves nothing if its result is not positive. -/
theorem inOrder_early {k : Nat} (h : ∀ j < k, 0 < result j) (hfail : result k ≤ 0) :
    InOrder start (firstCalls result start length (k + 1)) ∧
      (total (firstCalls result start length (k + 1)) : Int) = moved result k := by
  obtain ⟨hin, htotal⟩ := inOrder_firstCalls start length h
  rw [firstCalls_succ, inOrder_append, total_append]
  simp only
  exact ⟨⟨hin, by omega⟩, by omega⟩

end Loop

/-! ## Returned values -/

/-- The value that is returned when nothing is left. -/
theorem toInt_length (length : BitVec 64) :
    (length.setWidth 32).toInt < 2 ^ 31 ∧
      (length.toNat < 2 ^ 31 → (length.setWidth 32).toInt = length.toNat) := by
  have hset : (length.setWidth 32).toNat = length.toNat % 2 ^ 32 := BitVec.toNat_setWidth 32 length
  rw [BitVec.toInt_eq_toNat_cond, hset]
  split <;> omega

theorem left_toInt (length : BitVec 64) :
    (length.toNat < 2 ^ 63 → length.toInt = length.toNat) ∧
      (2 ^ 63 ≤ length.toNat → length.toInt < 0) := by
  have hlt := length.isLt
  rw [BitVec.toInt_eq_toNat_cond]
  split <;> omega

/-- Nothing comes early where all bytes are transferred. -/
theorem not_endsEarly {result : Nat → Int} {length k : Nat} (hpos : ∀ j < k, 0 < result j)
    (hall : moved result k = length) : ¬ EndsEarly result length := by
  rintro ⟨m, hm, hlt, hfail⟩
  rcases Nat.lt_or_ge m k with hmk | hmk
  · have hone := hpos m hmk
    omega
  · have hmono := moved_mono hmk hm
    omega

/-- A length that is no `int64_t` makes no call. -/
theorem fixSize_negative (result : Nat → Int) (start : Nat) {length : BitVec 64}
    (h : 2 ^ 63 ≤ length.toNat) :
    fixSize result start length = ((length.setWidth 32).toInt, []) := by
  have hneg := (left_toInt length).2 h
  rw [fixSize, transferFrom_nil (Int.le_of_lt hneg)]
  rfl

/-- A transfer that ends early returns the result that ends it. -/
theorem fixed_early {result : Nat → Int} {start length k : Nat} (hpos : ∀ j < k, 0 < result j)
    (hmoved : moved result k < length) (hfail : result k ≤ 0) :
    Fixed start length (result k, firstCalls result start length (k + 1)) := by
  obtain ⟨hin, htotal⟩ := inOrder_early start length hpos hfail
  have hnot : ¬ 0 < result k := Int.not_lt.mpr hfail
  refine ⟨hin, ⟨fun hp => absurd hp hnot, fun hall => ?_⟩, fun hp => absurd hp hnot, fun _ => ?_⟩
  · replace hall : total (firstCalls result start length (k + 1)) = length := hall
    omega
  · refine ⟨_, _, firstCalls_succ k, fun c hc => ?_, rfl⟩
    obtain ⟨j, hj, rfl⟩ := List.mem_map.mp hc
    exact hpos j (List.mem_range.mp hj)

/-- A complete transfer is reported if the length is an `int`. -/
theorem fixed_complete {result : Nat → Int} {start k : Nat} {length : BitVec 64}
    (h : 1 ≤ length.toNat) (hpos : ∀ j < k, 0 < result j) (hmoved : moved result k = length.toNat) :
    Fixed start length.toNat
        ((length.setWidth 32).toInt, firstCalls result start length.toNat k) ↔
      length.toNat < 2 ^ 31 := by
  obtain ⟨hlt, hint⟩ := toInt_length length
  obtain ⟨hin, htotal⟩ := inOrder_firstCalls start length.toNat hpos
  have hall : total (firstCalls result start length.toNat k) = length.toNat := by omega
  constructor
  · intro hfixed
    have hvalue := hfixed.value (hfixed.success.mpr hall)
    omega
  · intro hsmall
    have hvalue := hint hsmall
    have hp : 0 < (length.setWidth 32).toInt := by omega
    exact ⟨hin, ⟨fun _ => hall, fun _ => hp⟩, fun _ => hvalue, fun hn => absurd hp hn⟩

theorem fixed_iff {length : BitVec 64} (h : 1 ≤ length.toNat) (results : Results length.toNat)
    (start : Nat) :
    Fixed start length.toNat (fixSize results.result start length) ↔
      Fits results.result length.toNat := by
  rcases Nat.lt_or_ge length.toNat (2 ^ 63) with hleft | hleft
  · have hends := transferFrom_ends start results (i := 0)
      (fun j hj => absurd hj (Nat.not_lt_zero j)) (Int.natCast_nonneg _)
    have hfirst : (length.toNat : Int) - moved results.result 0 = length.toInt := by
      rw [(left_toInt length).1 hleft]
      exact Int.sub_zero _
    have hnil : firstCalls results.result start length.toNat 0 = [] := rfl
    have hstart : start + (moved results.result 0).toNat = start := rfl
    rw [hfirst, hnil, hstart, List.nil_append] at hends
    rw [fixSize]
    generalize transferFrom results.result 0 start length.toInt = loop at hends
    obtain ⟨r, calls⟩ := loop
    cases hends with
    | @early k hpos hmoved hfail =>
        exact ⟨fun _ => Or.inr ⟨hleft, k, hpos, hmoved, hfail⟩,
          fun _ => fixed_early hpos hmoved hfail⟩
    | @complete k hpos hmoved =>
        refine (fixed_complete h hpos hmoved).trans ⟨Or.inl, fun hfits => ?_⟩
        rcases hfits with hsmall | ⟨-, hearly⟩
        · exact hsmall
        · exact absurd hearly (not_endsEarly hpos hmoved)
  · rw [fixSize_negative _ _ hleft]
    constructor
    · intro hfixed
      have hlt := (toInt_length length).1
      by_cases hp : 0 < (length.setWidth 32).toInt
      · have hvalue : (length.setWidth 32).toInt = length.toNat := hfixed.value hp
        omega
      · obtain ⟨before, last, hcalls, -⟩ := hfixed.failure hp
        simp at hcalls
    · rintro (hsmall | ⟨hsmall, -⟩) <;> omega

/-- The functions keep to their contract exactly if the length is an `int`, or an `int64_t` of
which not all is transferred. -/
theorem fix_size (length : BitVec 64) (h : 1 ≤ length.toNat) (results : Results length.toNat)
    (position : Nat) :
    (Fixed 0 length.toNat (readFixSize results.result length) ↔
        Fits results.result length.toNat) ∧
      (Fixed position length.toNat (readFixSizeByteArray results.result position length) ↔
        Fits results.result length.toNat) ∧
      (Fixed 0 length.toNat (writeFixSize results.result length) ↔
        Fits results.result length.toNat) ∧
      (Fixed position length.toNat (writeFixSizeByteArray results.result position length) ↔
        Fits results.result length.toNat) :=
  ⟨fixed_iff h results 0, fixed_iff h results position, fixed_iff h results 0,
    fixed_iff h results position⟩

/-- Calls of two bytes, two bytes and one byte. -/
def parts : Results 5 where
  result k := [2, 2, 1].getD k (-1)
  int k := by
    match k with
    | 0 | 1 | 2 => decide
    | k + 3 => exact ⟨by simp, by simp⟩
  most k _ h := by
    match k with
    | 0 | 1 | 2 => decide
    | k + 3 =>
        have hlast : ([2, 2, 1] : List Int).getD (k + 3) (-1) = -1 := by simp
        rw [hlast]
        omega

/-- Five bytes that are read in three calls. -/
theorem fix_size_parts : Fixed 0 5 (readFixSize parts.result 5) :=
  (fix_size 5 (by decide) parts 0).1.mpr (Or.inl (by decide))

/-- Two calls of `2 ^ 30` bytes. -/
def halves : Results (2 ^ 31) where
  result _ := 2 ^ 30
  int _ := by decide
  most k _ h := by
    have hmoved : moved (fun _ => 2 ^ 30) k = k * 2 ^ 30 := by simp [moved]
    rw [hmoved] at h ⊢
    omega

/-- All of `2 ^ 31` bytes are read, and the value is `- 2 ^ 31`. -/
theorem fix_size_negative :
    readFixSize halves.result 0x80000000 =
        (-2 ^ 31, [⟨0, 2 ^ 31, 2 ^ 30⟩, ⟨2 ^ 30, 2 ^ 30, 2 ^ 30⟩]) ∧
      ¬ Fixed 0 (2 ^ 31) (readFixSize halves.result 0x80000000) := by
  have hcalls : readFixSize halves.result 0x80000000 =
      (-2 ^ 31, [⟨0, 2 ^ 31, 2 ^ 30⟩, ⟨2 ^ 30, 2 ^ 30, 2 ^ 30⟩]) := by
    have hleft : BitVec.toInt (0x80000000 : BitVec 64) = 2 ^ 31 := by decide
    rw [readFixSize, fixSize, hleft, transferFrom_pos (by decide) (by decide),
      transferFrom_pos (by decide) (by decide), transferFrom_nil (by decide)]
    rfl
  refine ⟨hcalls, fun h => ?_⟩
  rw [hcalls] at h
  exact absurd (h.success.mpr rfl) (by decide)

end Stream
end Network
end Hpgs
