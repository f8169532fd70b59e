import Mathlib.Algebra.BigOperators.Group.List.Basic
import Mathlib.Algebra.Ring.Nat
import Mathlib.Data.List.Basic

/-!
# Sequences kept in blocks of one size

A sequence is cut into blocks of equal length, and a range of it is overwritten.

**Results.**
* `splice_append`: overwriting a range that crosses from one part into the next.
* `Uniform.length_flatten`, `Uniform.flatten_drop`: positions and blocks.
* `places_prefix_iff`: when the fronts of some blocks are the front of all.
-/

namespace Hpgs
namespace Blocks

universe u

variable {α : Type u}

/-- Overwrite `l` from position `p` on with `bs`. -/
def splice (l : List α) (p : Nat) (bs : List α) : List α :=
  l.take p ++ bs ++ l.drop (p + bs.length)

theorem length_splice {l : List α} {p : Nat} {bs : List α} (h : p + bs.length ≤ l.length) :
    (splice l p bs).length = l.length := by
  simp only [splice, List.length_append, List.length_take, List.length_drop]
  omega

theorem splice_nil (l : List α) (p : Nat) : splice l p [] = l := by
  simp [splice]

/-- A range of one element. -/
theorem splice_singleton {l : List α} {p : Nat} (h : p < l.length) (a : α) :
    splice l p [a] = l.set p a := by
  rw [splice, List.set_eq_take_append_cons_drop, if_pos h, List.append_assoc,
    List.singleton_append, List.length_singleton]

/-- The range lies in the first part. -/
theorem splice_append_left {a b : List α} {p : Nat} {bs : List α}
    (h : p + bs.length ≤ a.length) :
    splice (a ++ b) p bs = splice a p bs ++ b := by
  simp only [splice, List.take_append_of_le_length (by omega : p ≤ a.length),
    List.drop_append_of_le_length h, List.append_assoc]

/-- The range lies in the second part. -/
theorem splice_append_right (a b : List α) (p : Nat) (bs : List α) :
    splice (a ++ b) (a.length + p) bs = a ++ splice b p bs := by
  simp only [splice, Nat.add_assoc, List.take_length_add_append, List.drop_length_add_append,
    List.append_assoc]

/-- The range starts in the first part and reaches the second. -/
theorem splice_append {a b : List α} {p : Nat} {bs : List α} (hp : p ≤ a.length)
    (h : a.length ≤ p + bs.length) :
    splice (a ++ b) p bs =
      splice a p (bs.take (a.length - p)) ++ splice b 0 (bs.drop (a.length - p)) := by
  have hlen : p + (bs.take (a.length - p)).length = a.length := by
    rw [List.length_take]
    omega
  have hdrop : p + bs.length = a.length + (bs.drop (a.length - p)).length := by
    rw [List.length_drop]
    omega
  simp only [splice, hlen, List.drop_length, List.append_nil, List.take_zero, List.nil_append,
    Nat.zero_add, List.take_append_of_le_length hp]
  rw [hdrop, List.drop_length_add_append, List.append_assoc, List.append_assoc,
    ← List.append_assoc (bs.take _), List.take_append_drop]

/-- Overwriting a prefix, which grows if the range passes its end. -/
theorem take_splice {l : List α} {p n : Nat} {bs : List α} (hp : p ≤ n)
    (hfit : p + bs.length ≤ l.length) :
    (splice l p bs).take (max n (p + bs.length)) = splice (l.take n) p bs := by
  have hlen : (l.take p ++ bs).length = p + bs.length := by
    rw [List.length_append, List.length_take]
    omega
  have hsub : max n (p + bs.length) - (p + bs.length) = n - (p + bs.length) := by omega
  rw [splice, splice, List.take_append, hlen, hsub,
    List.take_of_length_le (by rw [hlen]; exact Nat.le_max_right _ _), List.take_take,
    Nat.min_eq_left hp, List.drop_take]

/-- All blocks have length `B`. -/
def Uniform (B : Nat) (blocks : List (List α)) : Prop :=
  ∀ b ∈ blocks, b.length = B

namespace Uniform

variable {B : Nat} {blocks : List (List α)}

theorem length_flatten (h : Uniform B blocks) : blocks.flatten.length = B * blocks.length := by
  induction blocks with
  | nil => simp
  | cons b blocks ih =>
      have hb : b.length = B := h b List.mem_cons_self
      have hrest := ih fun c hc => h c (List.mem_cons_of_mem _ hc)
      simp only [List.flatten_cons, List.length_append, hrest, hb, List.length_cons, Nat.mul_add,
        Nat.mul_one]
      omega

theorem drop (h : Uniform B blocks) (k : Nat) : Uniform B (blocks.drop k) :=
  fun b hb => h b (List.mem_of_mem_drop hb)

theorem take (h : Uniform B blocks) (k : Nat) : Uniform B (blocks.take k) :=
  fun b hb => h b (List.mem_of_mem_take hb)

theorem append {blocks' : List (List α)} (h : Uniform B blocks) (h' : Uniform B blocks') :
    Uniform B (blocks ++ blocks') := by
  intro b hb
  rcases List.mem_append.mp hb with hb | hb
  · exact h b hb
  · exact h' b hb

/-- The blocks from number `k` on hold the sequence from position `B * k` on. -/
theorem flatten_drop (h : Uniform B blocks) (k : Nat) :
    (blocks.drop k).flatten = blocks.flatten.drop (B * k) := by
  induction k generalizing blocks with
  | zero => simp
  | succ k ih =>
      cases blocks with
      | nil => simp
      | cons b blocks =>
          have hb : b.length = B := h b List.mem_cons_self
          rw [List.drop_succ_cons, ih fun c hc => h c (List.mem_cons_of_mem _ hc),
            List.flatten_cons, Nat.mul_succ, Nat.add_comm, ← hb, List.drop_length_add_append]

end Uniform

/-! ## Fronts of blocks -/

/-- The places, by block and offset, of the first `n` elements of each block from number `i`
on. -/
def places : Nat → List Nat → List (Nat × Nat)
  | _, [] => []
  | i, n :: ns => (List.range n).map (i, ·) ++ places (i + 1) ns

theorem length_places (i : Nat) (ns : List Nat) : (places i ns).length = ns.sum := by
  induction ns generalizing i with
  | nil => rfl
  | cons n ns ih => simp [places, ih]

/-- Fronts that are not empty are the front of all blocks in order iff all but the last are
whole blocks. -/
theorem places_prefix_iff {counts lens : List Nat} (i : Nat)
    (h : ∀ j < counts.length, 0 < counts.getD j 0 ∧ counts.getD j 0 ≤ lens.getD j 0) :
    places i counts <+: places i lens ↔
      ∀ j, j + 1 < counts.length → counts.getD j 0 = lens.getD j 0 := by
  induction counts generalizing lens i with
  | nil => exact ⟨fun _ j hj => absurd hj (Nat.not_lt_zero _), fun _ => List.nil_prefix⟩
  | cons c cs ih =>
      obtain ⟨hc, hle⟩ := h 0 (Nat.succ_pos _)
      have hrest : ∀ j < cs.length, 0 < cs.getD j 0 ∧ cs.getD j 0 ≤ lens.tail.getD j 0 := by
        intro j hj
        have hj' := h (j + 1) (Nat.succ_lt_succ hj)
        cases lens with
        | nil => simpa using hj'
        | cons l ls => simpa using hj'
      cases lens with
      | nil => exact absurd (Nat.lt_of_lt_of_le hc hle) (Nat.lt_irrefl 0)
      | cons l ls =>
          replace ih := ih (i + 1) hrest
          rw [List.getD_cons_zero] at hc
          rw [List.getD_cons_zero, List.getD_cons_zero] at hle
          rcases Nat.eq_or_lt_of_le hle with heq | hlt
          · subst heq
            rw [List.tail_cons] at ih
            rw [places, places, List.prefix_append_right_inj, ih]
            refine ⟨fun hall j hj => ?_, fun hall j hj => hall (j + 1) (Nat.succ_lt_succ hj)⟩
            cases j with
            | zero => rfl
            | succ j => exact hall j (Nat.lt_of_succ_lt_succ hj)
          · -- block `i` goes on where its front ends
            obtain ⟨k, rfl⟩ := Nat.exists_eq_add_of_lt hlt
            obtain ⟨behind, hplaces⟩ : ∃ behind, places i ((c + k + 1) :: ls) =
                (List.range c).map (i, ·) ++ (i, c) :: behind := by
              rw [places, Nat.add_assoc, List.range_add, List.map_append, List.range_succ_eq_map,
                List.map_cons, List.map_cons, List.append_assoc]
              exact ⟨_, rfl⟩
            rw [hplaces, places, List.prefix_append_right_inj]
            cases cs with
            | nil => exact ⟨fun _ j hj => absurd hj (by simp), fun _ => List.nil_prefix⟩
            | cons d ds =>
                have hd : 0 < d := (hrest 0 (Nat.succ_pos _)).1
                constructor
                · intro hprefix
                  obtain ⟨d, rfl⟩ := Nat.exists_eq_succ_of_ne_zero (Nat.ne_of_gt hd)
                  rw [places, List.range_succ_eq_map, List.map_cons, List.cons_append,
                    List.cons_prefix_cons] at hprefix
                  simp at hprefix
                · intro hall
                  have hfirst := hall 0 (by simp)
                  simp at hfirst
                  omega

end Blocks
end Hpgs
