import Mathlib.Data.List.Basic
import Mathlib.Data.List.Count
import Mathlib.Data.List.Nodup
import Mathlib.Data.List.Range

/-!
# A ledger for a queue

Entries are pushed at the end of a queue and taken from any place in it.  The ledger
numbers them as they are pushed, so that equal entries are told apart, and notes who
took which number.

**Results.**
* `Accounts.push`, `Accounts.take`: every number that was given is either queued once or
  was taken once, by somebody who fits its entry, and the queue is in order of pushing.
* `InOrder.push`, `InOrder.take`: nothing is taken before what its taker must take first, if
  each time nothing of that kind was passed over.
* `ahead_push`, `ahead_take`: how many are ahead of an entry.
-/

namespace Hpgs
namespace Counting

universe u v

/-- The entries by number, the numbers that are queued, and who took which number. -/
structure Ledger (α : Type u) (ω : Type v) where
  pushed : List α
  queued : List Nat
  taken : List (Nat × ω)

namespace Ledger

variable {α : Type u} {ω : Type v}

def start : Ledger α ω where
  pushed := []
  queued := []
  taken := []

def push (l : Ledger α ω) (new : List α) : Ledger α ω :=
  { l with
    pushed := l.pushed ++ new
    queued := l.queued ++ List.range' l.pushed.length new.length }

/-- `o` takes what is at place `k` of the queue. -/
def take (l : Ledger α ω) (k : Nat) (o : ω) : Ledger α ω :=
  match l.queued[k]? with
  | none => l
  | some i =>
      { l with
        queued := l.queued.eraseIdx k
        taken := l.taken ++ [(i, o)] }

/-- The ledger accounts for the queue; `P` says who fits which entry. -/
structure Accounts (P : α → ω → Prop) (l : Ledger α ω) (queue : List α) : Prop where
  entries : l.queued.map (fun i => l.pushed[i]?) = queue.map some
  order : l.queued.Pairwise (· < ·)
  once : ∀ i, l.queued.count i + (l.taken.map Prod.fst).count i =
    if i < l.pushed.length then 1 else 0
  fits : ∀ x ∈ l.taken, ∀ it, l.pushed[x.1]? = some it → P it x.2

namespace Accounts

variable {P : α → ω → Prop} {l : Ledger α ω} {queue : List α}

theorem start : Accounts P (.start : Ledger α ω) [] where
  entries := rfl
  order := List.Pairwise.nil
  once := by simp [Ledger.start]
  fits := by simp [Ledger.start]

/-- Only numbers that were given are queued. -/
theorem lt_of_queued (h : Accounts P l queue) {i : Nat} (hi : i ∈ l.queued) :
    i < l.pushed.length := by
  have hpos := List.count_pos_iff.mpr hi
  have honce := h.once i
  by_contra hlt
  rw [if_neg hlt] at honce
  omega

theorem lt_of_taken (h : Accounts P l queue) {x : Nat × ω} (hx : x ∈ l.taken) :
    x.1 < l.pushed.length := by
  have hpos := List.count_pos_iff.mpr (List.mem_map_of_mem (f := Prod.fst) hx)
  have honce := h.once x.1
  by_contra hlt
  rw [if_neg hlt] at honce
  omega

theorem push (h : Accounts P l queue) (new : List α) :
    Accounts P (l.push new) (queue ++ new) where
  entries := by
    have hold : l.queued.map (fun i => (l.pushed ++ new)[i]?) = queue.map some := by
      rw [← h.entries]
      refine List.map_congr_left fun i hi => ?_
      exact List.getElem?_append_left (h.lt_of_queued hi)
    have hnew : (List.range' l.pushed.length new.length).map (fun i => (l.pushed ++ new)[i]?) =
        new.map some := by
      refine List.ext_getElem (by simp) fun k hk hk' => ?_
      simp only [List.length_map] at hk'
      simp [hk']
    rw [Ledger.push]
    simp only [List.map_append]
    rw [hold, hnew]
  order := by
    refine List.pairwise_append.mpr ⟨h.order, List.pairwise_lt_range' .., ?_⟩
    intro i hi j hj
    have hlt := h.lt_of_queued hi
    have hle := (List.mem_range'_1.mp hj).1
    omega
  once := by
    intro i
    have honce := h.once i
    simp only [Ledger.push, List.count_append, List.length_append]
    by_cases hnew : l.pushed.length ≤ i ∧ i < l.pushed.length + new.length
    · have hone : (List.range' l.pushed.length new.length).count i = 1 :=
        List.count_eq_one_of_mem List.nodup_range' (List.mem_range'_1.mpr hnew)
      rw [if_neg (by omega)] at honce
      rw [if_pos hnew.2]
      omega
    · have hzero : (List.range' l.pushed.length new.length).count i = 0 :=
        List.count_eq_zero_of_not_mem fun hmem => hnew (List.mem_range'_1.mp hmem)
      rw [hzero]
      by_cases hlt : i < l.pushed.length
      · rw [if_pos hlt] at honce
        rw [if_pos (by omega)]
        omega
      · rw [if_neg hlt] at honce
        rw [if_neg (by omega)]
        omega
  fits := by
    intro x hx it hit
    refine h.fits x hx it ?_
    rw [← hit]
    exact (List.getElem?_append_left (h.lt_of_taken hx)).symm

/-- What is taken is the entry at that place, and the others stay in order. -/
theorem take {pre post : List α} {x : α} (h : Accounts P l (pre ++ x :: post)) {o : ω}
    (hfits : P x o) :
    ∃ i, l.queued[pre.length]? = some i ∧
      l.pushed[i]? = some x ∧
      (l.take pre.length o).taken = l.taken ++ [(i, o)] ∧
      Accounts P (l.take pre.length o) (pre ++ post) := by
  have hentries := h.entries
  rw [List.map_append, List.map_cons] at hentries
  obtain ⟨a, r, hqueued, ha, hr⟩ := List.map_eq_append_iff.mp hentries
  obtain ⟨i, b, rfl, hi, hb⟩ := List.map_eq_cons_iff.mp hr
  have hlen : a.length = pre.length := by
    have hlen := congrArg List.length ha
    simpa using hlen
  have hget : l.queued[pre.length]? = some i := by
    rw [hqueued, ← hlen, List.getElem?_append_right (Nat.le_refl _)]
    simp
  have herase : l.queued.eraseIdx pre.length = a ++ b := by
    rw [hqueued, ← hlen, List.eraseIdx_append_of_length_le (Nat.le_refl _)]
    simp
  have htake : l.take pre.length o =
      { l with queued := a ++ b, taken := l.taken ++ [(i, o)] } := by
    rw [Ledger.take, hget]
    simp only [herase]
  refine ⟨i, hget, hi, by rw [htake], ?_⟩
  rw [htake]
  refine
    { entries := ?_
      order := ?_
      once := ?_
      fits := ?_ }
  · simp only [List.map_append, ha, hb]
  · have hsub : (a ++ b).Sublist l.queued := by
      rw [hqueued]
      exact (List.Sublist.refl a).append (List.sublist_cons_self i b)
    exact h.order.sublist hsub
  · intro j
    have honce := h.once j
    rw [hqueued] at honce
    simp only [List.count_append, List.count_cons, List.map_append, List.map_cons, List.map_nil,
      List.count_nil] at honce ⊢
    omega
  · intro y hy it hit
    rcases List.mem_append.mp hy with hy | hy
    · exact h.fits y hy it hit
    · rw [List.mem_singleton.mp hy] at hit ⊢
      obtain rfl : x = it := Option.some.inj (hi.symm.trans hit)
      exact hfits

/-- What is ahead of a place in the queue has a smaller number, and the other way round. -/
theorem entry_of_lt {pre post : List α} {x : α} (h : Accounts P l (pre ++ x :: post))
    {i i' : Nat} (hi : l.queued[pre.length]? = some i) (hi' : i' ∈ l.queued) (hlt : i' < i) :
    ∃ x' ∈ pre, l.pushed[i']? = some x' := by
  obtain ⟨k, hk⟩ := List.mem_iff_getElem?.mp hi'
  obtain ⟨hlast, hgetLast⟩ := List.getElem?_eq_some_iff.mp hi
  obtain ⟨hbound, hget⟩ := List.getElem?_eq_some_iff.mp hk
  have hplace : k < pre.length := by
    by_contra hge
    rcases Nat.lt_or_eq_of_le (Nat.le_of_not_lt hge) with hgt | heq
    · have hless := List.pairwise_iff_getElem.mp h.order _ _ hlast hbound hgt
      omega
    · subst heq
      omega
  have hentry := congrArg (fun r => r[k]?) h.entries
  simp only [List.getElem?_map, hk, Option.map_some] at hentry
  rw [List.getElem?_append_left hplace, List.getElem?_eq_getElem hplace, Option.map_some,
    Option.some.injEq] at hentry
  exact ⟨pre[k], List.getElem_mem hplace, hentry⟩

end Accounts

/-! ## Order -/

/-- `B` says which entries somebody must take before any later one. -/
def InOrder (B : α → ω → Prop) (l : Ledger α ω) : Prop :=
  ∀ before after j o, l.taken = before ++ (j, o) :: after →
    ∀ i x, i < j → l.pushed[i]? = some x → B x o → i ∈ before.map Prod.fst

namespace InOrder

variable {B P : α → ω → Prop} {l : Ledger α ω}

theorem start : InOrder B (.start : Ledger α ω) := by
  intro before after j o h
  simp [Ledger.start] at h

theorem push {queue : List α} (h : InOrder B l) (hacc : Accounts P l queue) (new : List α) :
    InOrder B (l.push new) := by
  intro before after j o htaken i x hlt hi hx
  have hmem : (j, o) ∈ l.taken := by
    have htaken' : l.taken = before ++ (j, o) :: after := htaken
    rw [htaken']
    exact List.mem_append_right _ List.mem_cons_self
  have hold : l.pushed[i]? = some x := by
    rw [← hi]
    exact (List.getElem?_append_left (hlt.trans (hacc.lt_of_taken hmem))).symm
  exact h before after j o htaken i x hlt hold hx

/-- Somebody takes an entry, and passes over nothing that is to be taken first. -/
theorem take {pre post : List α} {x : α} {o : ω} (h : InOrder B l)
    (hacc : Accounts P l (pre ++ x :: post)) (hfits : P x o) (hpre : ∀ x' ∈ pre, ¬ B x' o) :
    InOrder B (l.take pre.length o) := by
  obtain ⟨i, hget, hentry, htaken, _⟩ := hacc.take (o := o) hfits
  have hpushed : (l.take pre.length o).pushed = l.pushed := by
    rw [Ledger.take, hget]
  intro before after j o' hsplit i' x' hlt hi' hx'
  rw [hpushed] at hi'
  rw [htaken] at hsplit
  rcases List.eq_nil_or_concat after with rfl | ⟨after', last, rfl⟩
  · obtain ⟨rfl, hnew⟩ := List.append_inj' hsplit rfl
    obtain ⟨rfl, rfl⟩ := Prod.mk.inj (List.singleton_inj.mp hnew)
    -- what was given before the new number is queued ahead of it, or taken
    have honce := hacc.once i'
    rw [if_pos (List.getElem?_eq_some_iff.mp hi').1] at honce
    by_contra hnot
    rw [List.count_eq_zero_of_not_mem hnot] at honce
    have hqueued : i' ∈ l.queued := List.count_pos_iff.mp (by omega)
    obtain ⟨y, hy, hentry'⟩ := hacc.entry_of_lt hget hqueued hlt
    rw [hentry', Option.some.injEq] at hi'
    exact hpre y hy (hi' ▸ hx')
  · rw [List.concat_eq_append, ← List.cons_append, ← List.append_assoc] at hsplit
    obtain ⟨hold, _⟩ := List.append_inj' hsplit rfl
    exact h before after' j o' hold i' x' hlt hi' hx'

end InOrder

/-- How many entries are ahead of number `i`. -/
def ahead (l : Ledger α ω) (i : Nat) : Nat :=
  l.queued.countP fun j => j < i

variable {l : Ledger α ω} {i : Nat}

theorem ahead_push (new : List α) (hi : i < l.pushed.length) :
    (l.push new).ahead i = l.ahead i := by
  have hnone : (List.range' l.pushed.length new.length).countP (fun j => j < i) = 0 := by
    refine List.countP_eq_zero.mpr fun j hj => ?_
    have hle := (List.mem_range'_1.mp hj).1
    simp only [decide_eq_true_eq]
    omega
  rw [ahead, Ledger.push, List.countP_append, hnone]
  rfl

theorem countP_eraseIdx {p : Nat → Bool} {queued : List Nat} {k j : Nat}
    (hk : queued[k]? = some j) :
    (queued.eraseIdx k).countP p + (if p j then 1 else 0) = queued.countP p := by
  induction queued generalizing k with
  | nil => cases hk
  | cons x rest ih =>
      cases k with
      | zero =>
          obtain rfl := Option.some.inj hk
          rw [List.eraseIdx_cons_zero, List.countP_cons]
      | succ k =>
          rw [List.eraseIdx_cons_succ, List.countP_cons, List.countP_cons, ← ih hk]
          omega

theorem ahead_take {k j : Nat} {o : ω} (hk : l.queued[k]? = some j) :
    (l.take k o).ahead i + (if j < i then 1 else 0) = l.ahead i := by
  have hcount := countP_eraseIdx (p := fun j => j < i) hk
  rw [ahead, Ledger.take, hk, ahead, ← hcount]
  simp

end Ledger
end Counting
end Hpgs
