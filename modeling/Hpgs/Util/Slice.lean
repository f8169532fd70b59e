import Mathlib.Data.List.Basic

/-!
# Slicing a vector

`Slice` appends pieces of a vector to a vector of vectors.  It takes pieces of the given
size while more than that is left, and then what is left.  Pieces of size 0 leave as much as
there was.

The loop has a bound on its passes here, and gives `none` where it is not done within them;
`none` as well is an index outside of the vector.

**Results.**
* `copyLoop_eq`, `sliceLoop_ends`, `sliceLoop_hangs`: the inner and the outer loop.
* `slice_partitions`: `Slice` returns with a partition, exactly if the size is positive or
  the vector is empty.
* `slice_never_returns`: one element in pieces of size 0.
-/

namespace Hpgs
namespace Util

universe u

variable {T : Type u}

/-- The loop that fills `tmp` with `n` more elements, from `src[pos + i]` on. -/
def copyLoop (src : List T) (pos : Nat) : Nat → Nat → List T → Option (List T)
  | 0, _, tmp => some tmp
  | n + 1, i, tmp =>
      (src[pos + i]?).bind fun x => copyLoop src pos n (i + 1) (tmp ++ [x])

/-- The loop of `Slice` and what is behind it, with at most `passes` tests of its condition. -/
def sliceLoop (src : List T) (size : Nat) :
    Nat → List (List T) → Nat → Nat → Option (List (List T))
  | 0, _, _, _ => none
  | passes + 1, dst, pos, left =>
      if left > size then
        (copyLoop src pos size 0 []).bind fun tmp =>
          sliceLoop src size passes (dst ++ [tmp]) (pos + size) (left - size)
      else if left > 0 then
        (copyLoop src pos left 0 []).map fun tmp => dst ++ [tmp]
      else some dst

/-- `Slice`. -/
def slice (passes : Nat) (dst : List (List T)) (src : List T) (size : Nat) :
    Option (List (List T)) :=
  sliceLoop src size passes dst 0 src.length

/-- The call returns with `out` in `dst`. -/
def Returns (dst : List (List T)) (src : List T) (size : Nat) (out : List (List T)) : Prop :=
  ∃ n, ∀ passes, n ≤ passes → slice passes dst src size = some out

/-- `chunks` cut `src` into pieces of the given size, of which the last may be smaller. -/
structure Partitions (src : List T) (size : Nat) (chunks : List (List T)) : Prop where
  whole : chunks.flatten = src
  nonempty : ∀ c ∈ chunks, c ≠ []
  full : ∀ c ∈ chunks.dropLast, c.length = size
  last : ∀ c ∈ chunks.getLast?, c.length ≤ size
  empty : src = [] → chunks = []

/-! ## Partitions -/

theorem partitions_nil (size : Nat) : Partitions ([] : List T) size [] where
  whole := rfl
  nonempty := fun c hc => absurd hc List.not_mem_nil
  full := fun c hc => absurd hc List.not_mem_nil
  last := fun c hc => absurd hc (by simp)
  empty := fun _ => rfl

/-- What is left is one piece. -/
theorem partitions_single {src : List T} {size : Nat} (hne : src ≠ [])
    (hle : src.length ≤ size) : Partitions src size [src] where
  whole := List.flatten_singleton
  nonempty := by simpa using hne
  full := fun c hc => absurd hc List.not_mem_nil
  last := by simpa using hle
  empty := fun h => absurd h hne

/-- A piece of the given size in front of a partition of what is behind it. -/
theorem Partitions.cons {src : List T} {size : Nat} (hsize : 0 < size)
    (hlt : size < src.length) {chunks : List (List T)}
    (h : Partitions (src.drop size) size chunks) :
    Partitions src size (src.take size :: chunks) := by
  have hlen : (src.take size).length = size := List.length_take_of_le (Nat.le_of_lt hlt)
  have hne : chunks ≠ [] := by
    rintro rfl
    have hnil : src.drop size = [] := h.whole.symm
    rw [List.drop_eq_nil_iff] at hnil
    omega
  constructor
  · rw [List.flatten_cons, h.whole, List.take_append_drop]
  · refine List.forall_mem_cons.mpr ⟨?_, h.nonempty⟩
    rw [← List.length_pos_iff, hlen]
    exact hsize
  · rw [List.dropLast_cons_of_ne_nil hne]
    exact List.forall_mem_cons.mpr ⟨hlen, h.full⟩
  · rw [List.getLast?_cons_of_ne_nil hne]
    exact h.last
  · rintro rfl
    exact absurd hlt (Nat.not_lt_zero size)

/-! ## The loops -/

theorem copyLoop_eq {src : List T} {pos : Nat} (n : Nat) {i : Nat} (tmp : List T)
    (h : pos + i + n ≤ src.length) :
    copyLoop src pos n i tmp = some (tmp ++ (src.drop (pos + i)).take n) := by
  induction n generalizing i tmp with
  | zero => simp [copyLoop]
  | succ n ih =>
      have hlt : pos + i < src.length := by omega
      have hrest := ih (i := i + 1) (tmp ++ [src[pos + i]]) (by omega)
      rw [copyLoop, List.getElem?_eq_getElem hlt, Option.bind_some, hrest,
        List.drop_eq_getElem_cons hlt, List.take_succ_cons, List.append_assoc,
        List.singleton_append, Nat.add_assoc]

/-- **With a positive size** the loop is done after at most as many passes as elements are
left, and appends a partition of them. -/
theorem sliceLoop_ends {src : List T} {size : Nat} (hsize : 0 < size)
    {pos left : Nat} (hleft : pos + left = src.length) :
    ∃ chunks, Partitions (src.drop pos) size chunks ∧
      ∀ passes dst, left < passes →
        sliceLoop src size passes dst pos left = some (dst ++ chunks) := by
  induction left using Nat.strongRecOn generalizing pos with
  | ind left ih =>
      have hlen : (src.drop pos).length = left := by
        rw [List.length_drop]
        omega
      by_cases hmore : left > size
      · have hnext : pos + size + (left - size) = src.length := by omega
        obtain ⟨chunks, hparts, hrun⟩ := ih (left - size) (by omega) hnext
        rw [← List.drop_drop] at hparts
        refine ⟨_, hparts.cons hsize (by omega), fun passes dst hpasses => ?_⟩
        obtain ⟨k, rfl⟩ := Nat.exists_eq_add_of_lt hpasses
        rw [sliceLoop, if_pos hmore, copyLoop_eq size [] (by omega), Option.bind_some,
          Nat.add_zero, List.nil_append, hrun _ _ (by omega), List.append_assoc,
          List.singleton_append]
      · by_cases hsome : left > 0
        · have hne : src.drop pos ≠ [] := by
            rw [← List.length_pos_iff, hlen]
            exact hsome
          refine ⟨_, partitions_single hne (by omega), fun passes dst hpasses => ?_⟩
          obtain ⟨k, rfl⟩ := Nat.exists_eq_add_of_lt hpasses
          rw [sliceLoop, if_neg hmore, if_pos hsome, copyLoop_eq left [] (by omega),
            Option.map_some, Nat.add_zero, List.nil_append, ← hlen, List.take_length]
        · have hnil : src.drop pos = [] := by
            rw [← List.length_eq_zero_iff, hlen]
            omega
          rw [hnil]
          refine ⟨[], partitions_nil size, fun passes dst hpasses => ?_⟩
          obtain ⟨k, rfl⟩ := Nat.exists_eq_add_of_lt hpasses
          rw [sliceLoop, if_neg hmore, if_neg hsome, List.append_nil]

/-- **With size 0** every pass leaves as much as there was. -/
theorem sliceLoop_hangs (src : List T) (passes : Nat) (dst : List (List T)) (pos : Nat) {left : Nat}
    (hleft : 0 < left) : sliceLoop src 0 passes dst pos left = none := by
  induction passes generalizing dst with
  | zero => rfl
  | succ passes ih =>
      rw [sliceLoop, if_pos hleft, copyLoop, Option.bind_some]
      exact ih (dst ++ [[]])

/-- **Slicing.**  For every vector, every size and every vector of vectors: `Slice` returns
and has appended a partition of the vector, exactly if the size is positive or the vector is
empty. -/
theorem slice_partitions (dst : List (List T)) (src : List T) (size : Nat) :
    (∃ chunks, Returns dst src size (dst ++ chunks) ∧ Partitions src size chunks) ↔
      0 < size ∨ src = [] := by
  constructor
  · rintro ⟨chunks, ⟨n, hreturns⟩, _⟩
    by_contra hcond
    obtain ⟨hsize, hne⟩ := not_or.mp hcond
    obtain rfl : size = 0 := by omega
    have hhangs := sliceLoop_hangs src n dst 0 (List.length_pos_iff.mpr hne)
    have hrun := hreturns n (Nat.le_refl n)
    rw [slice, hhangs] at hrun
    cases hrun
  · rintro (hsize | rfl)
    · obtain ⟨chunks, hparts, hrun⟩ := sliceLoop_ends hsize (Nat.zero_add src.length)
      exact ⟨chunks, ⟨src.length + 1, fun passes hpasses => hrun passes dst hpasses⟩, hparts⟩
    · refine ⟨[], ⟨1, fun passes hpasses => ?_⟩, partitions_nil size⟩
      obtain ⟨k, rfl⟩ := Nat.exists_eq_add_of_le' hpasses
      rw [List.append_nil]
      rfl

/-- One element in pieces of size 0. -/
theorem slice_never_returns :
    ¬ ∃ chunks, Returns [] [7] 0 ([] ++ chunks) ∧ Partitions [7] 0 chunks := by
  rintro ⟨chunks, ⟨n, hreturns⟩, _⟩
  have hrun := hreturns n (Nat.le_refl n)
  rw [slice, sliceLoop_hangs [7] n [] 0 (by decide)] at hrun
  cases hrun

end Util
end Hpgs
