import Mathlib.Data.List.Basic
import Mathlib.Data.List.TakeWhile
import Mathlib.Data.List.Nodup

/-!
# Ordered sets over a comparator

The in-order sequence of an ordered set whose elements are compared by a Boolean
comparator.  The comparator may read mutable data behind an element, so it is a
parameter of every operation; an operation only means what it should while the
sequence is sorted for the comparator it is given.

**Results.**
* `takeWhile_eq_filter`, `dropWhile_eq_filter`: on a sorted sequence a cut at a
  downward closed condition splits the elements by that condition.
* `mem_insert`, `sorted_insert`, `insertAtBegin_iff`: insertion of a new element.
* `find_of_mem`, `mem_erase`, `sorted_erase`: an element of a sorted sequence is found, and
  erasing it removes it and nothing else.
* `Sorted.congr`: only the comparisons of elements of the sequence matter.
-/

namespace Hpgs
namespace OrderedSet

universe u

variable {κ : Type u}

/-- Strictly increasing for the comparator. -/
def Sorted (lt : κ → κ → Bool) (l : List κ) : Prop :=
  l.Pairwise fun a b => lt a b = true

/-- A comparator that is a strict order. -/
structure Strict (lt : κ → κ → Bool) : Prop where
  irrefl : ∀ a, lt a a = false
  trans : ∀ a b c, lt a b = true → lt b c = true → lt a c = true

/-- Insertion: the position is found by the comparator, and an element that is
equivalent to one already present is not inserted. -/
def insert (lt : κ → κ → Bool) (k : κ) (l : List κ) : List κ :=
  match l.dropWhile fun x => lt x k with
  | [] => l ++ [k]
  | x :: rest =>
      if lt k x then (l.takeWhile fun x => lt x k) ++ k :: x :: rest else l

/-- Whether the iterator returned by an insertion is the first position. -/
def insertAtBegin (lt : κ → κ → Bool) (k : κ) (l : List κ) : Bool :=
  (l.takeWhile fun x => lt x k).isEmpty

/-- The element equivalent to `k`, `none` for the past-the-end iterator. -/
def find (lt : κ → κ → Bool) (k : κ) (l : List κ) : Option κ :=
  match l.dropWhile fun x => lt x k with
  | [] => none
  | x :: _ => if lt k x then none else some x

/-- Removal at the position that the comparator finds for `k`. -/
def erase (lt : κ → κ → Bool) (k : κ) (l : List κ) : List κ :=
  (l.takeWhile fun x => lt x k) ++ (l.dropWhile fun x => lt x k).tail

variable {lt : κ → κ → Bool} {l : List κ} {k : κ}

theorem Strict.asymm (h : Strict lt) {a b : κ} (hab : lt a b = true) :
    lt b a = false := by
  cases hba : lt b a with
  | false => rfl
  | true =>
      have := h.trans a b a hab hba
      simp [h.irrefl a] at this

theorem Sorted.nodup (h : Strict lt) (hl : Sorted lt l) : l.Nodup := by
  refine hl.imp ?_
  intro a b hab heq
  subst heq
  simp [h.irrefl a] at hab

theorem Sorted.congr {lt' : κ → κ → Bool}
    (heq : ∀ a ∈ l, ∀ b ∈ l, lt' a b = lt a b) (hl : Sorted lt l) :
    Sorted lt' l := by
  induction l with
  | nil => exact List.Pairwise.nil
  | cons x rest ih =>
      obtain ⟨hx, hrest⟩ := List.pairwise_cons.mp hl
      refine List.Pairwise.cons ?_ (ih ?_ hrest)
      · intro y hy
        rw [heq x (by simp) y (List.mem_cons_of_mem _ hy)]
        exact hx y hy
      · intro a ha b hb
        exact heq a (List.mem_cons_of_mem _ ha) b (List.mem_cons_of_mem _ hb)

/-! ## Cutting a sorted sequence -/

section Cut

variable {p : κ → Bool}

theorem takeWhile_eq_filter (hl : Sorted lt l)
    (hp : ∀ a ∈ l, ∀ b ∈ l, lt a b = true → p b = true → p a = true) :
    l.takeWhile p = l.filter p := by
  induction l with
  | nil => rfl
  | cons x rest ih =>
      obtain ⟨hx, hrest⟩ := List.pairwise_cons.mp hl
      have ih' := ih hrest fun a ha b hb =>
        hp a (List.mem_cons_of_mem _ ha) b (List.mem_cons_of_mem _ hb)
      cases hpx : p x with
      | true => simp [hpx, ih']
      | false =>
          have hnone : ∀ y ∈ rest, p y = false := by
            intro y hy
            by_contra hpy
            have := hp x (by simp) y (List.mem_cons_of_mem _ hy) (hx y hy)
              (by simpa using hpy)
            simp [hpx] at this
          have hempty : rest.filter p = [] := by
            simpa [List.filter_eq_nil_iff] using hnone
          simp [hpx, hempty]

theorem dropWhile_eq_filter (hl : Sorted lt l)
    (hp : ∀ a ∈ l, ∀ b ∈ l, lt a b = true → p b = true → p a = true) :
    l.dropWhile p = l.filter fun x => !p x := by
  induction l with
  | nil => rfl
  | cons x rest ih =>
      obtain ⟨hx, hrest⟩ := List.pairwise_cons.mp hl
      have ih' := ih hrest fun a ha b hb =>
        hp a (List.mem_cons_of_mem _ ha) b (List.mem_cons_of_mem _ hb)
      cases hpx : p x with
      | true => simp [hpx, ih']
      | false =>
          have hall : ∀ y ∈ rest, p y = false := by
            intro y hy
            by_contra hpy
            have := hp x (by simp) y (List.mem_cons_of_mem _ hy) (hx y hy)
              (by simpa using hpy)
            simp [hpx] at this
          have hfull : rest.filter (fun y => !p y) = rest := by
            rw [List.filter_eq_self]
            intro y hy
            simp [hall y hy]
          simp [hpx, hfull]

end Cut

/-- Being below `k` is downward closed. -/
theorem below_downward (h : Strict lt) (k : κ) :
    ∀ a ∈ l, ∀ b ∈ l, lt a b = true → lt b k = true → lt a k = true :=
  fun a _ b _ hab hbk => h.trans a b k hab hbk

theorem mem_takeWhile_below (h : Strict lt) (hl : Sorted lt l) {x : κ} :
    x ∈ (l.takeWhile fun x => lt x k) ↔ x ∈ l ∧ lt x k = true := by
  rw [takeWhile_eq_filter hl (below_downward h k), List.mem_filter]

theorem mem_dropWhile_below (h : Strict lt) (hl : Sorted lt l) {x : κ} :
    x ∈ (l.dropWhile fun x => lt x k) ↔ x ∈ l ∧ lt x k = false := by
  rw [dropWhile_eq_filter hl (below_downward h k), List.mem_filter]
  simp

/-! ## Insertion of a new element -/

section Insert

variable (h : Strict lt) (hl : Sorted lt l)
  (hnew : ∀ x ∈ l, lt x k = true ∨ lt k x = true)
include h hl hnew

theorem insert_eq :
    insert lt k l =
      (l.takeWhile fun x => lt x k) ++ k :: l.dropWhile fun x => lt x k := by
  unfold insert
  cases hd : l.dropWhile fun x => lt x k with
  | nil =>
      have htake : (l.takeWhile fun x => lt x k) = l := by
        have := List.takeWhile_append_dropWhile (p := fun x => lt x k) (l := l)
        rw [hd, List.append_nil] at this
        exact this
      simp [htake]
  | cons x rest =>
      have hx : x ∈ l ∧ lt x k = false :=
        (mem_dropWhile_below h hl).mp (by simp [hd])
      have hkx : lt k x = true := by
        rcases hnew x hx.1 with hxk | hkx
        · simp [hx.2] at hxk
        · exact hkx
      simp [hkx]

theorem mem_insert {x : κ} : x ∈ insert lt k l ↔ x = k ∨ x ∈ l := by
  rw [insert_eq h hl hnew]
  constructor
  · intro hx
    rcases List.mem_append.mp hx with hx | hx
    · exact Or.inr ((mem_takeWhile_below h hl).mp hx).1
    · rcases List.mem_cons.mp hx with hx | hx
      · exact Or.inl hx
      · exact Or.inr ((mem_dropWhile_below h hl).mp hx).1
  · rintro (rfl | hx)
    · simp
    · cases hxk : lt x k with
      | true =>
          exact List.mem_append_left _ ((mem_takeWhile_below h hl).mpr ⟨hx, hxk⟩)
      | false =>
          exact List.mem_append_right _
            (List.mem_cons_of_mem _ ((mem_dropWhile_below h hl).mpr ⟨hx, hxk⟩))

theorem sorted_insert : Sorted lt (insert lt k l) := by
  have happ := List.takeWhile_append_dropWhile (p := fun x => lt x k) (l := l)
  have hsplit : Sorted lt
      ((l.takeWhile fun x => lt x k) ++ l.dropWhile fun x => lt x k) := by
    rw [happ]; exact hl
  obtain ⟨htake, hdrop, hcross⟩ := List.pairwise_append.mp hsplit
  have habove : ∀ y ∈ (l.dropWhile fun x => lt x k), lt k y = true := by
    intro y hy
    obtain ⟨hyl, hyk⟩ := (mem_dropWhile_below h hl).mp hy
    rcases hnew y hyl with hc | hc
    · simp [hyk] at hc
    · exact hc
  rw [insert_eq h hl hnew]
  refine List.pairwise_append.mpr ⟨htake, List.Pairwise.cons habove hdrop, ?_⟩
  intro a ha b hb
  have hak := ((mem_takeWhile_below h hl).mp ha).2
  rcases List.mem_cons.mp hb with rfl | hb
  · exact hak
  · exact h.trans a k b hak (habove b hb)

/-- The new element is first iff it is below every element. -/
theorem insertAtBegin_iff :
    insertAtBegin lt k l = true ↔ ∀ x ∈ l, lt k x = true := by
  unfold insertAtBegin
  rw [List.isEmpty_iff, takeWhile_eq_filter hl (below_downward h k),
    List.filter_eq_nil_iff]
  constructor
  · intro hnone x hx
    rcases hnew x hx with hc | hc
    · exact absurd hc (hnone x hx)
    · exact hc
  · intro hall x hx hxk
    simp [h.asymm (hall x hx)] at hxk

end Insert

/-! ## Finding and erasing an element -/

section Erase

variable (h : Strict lt) (hl : Sorted lt l) (hk : k ∈ l)
include h hl hk

theorem dropWhile_below_eq :
    ∃ rest, (l.dropWhile fun x => lt x k) = k :: rest := by
  have hmem : k ∈ (l.dropWhile fun x => lt x k) :=
    (mem_dropWhile_below h hl).mpr ⟨hk, h.irrefl k⟩
  have hsub : Sorted lt (l.dropWhile fun x => lt x k) :=
    List.Pairwise.sublist (List.dropWhile_sublist _) hl
  cases hd : l.dropWhile fun x => lt x k with
  | nil => simp [hd] at hmem
  | cons x rest =>
      rw [hd] at hmem hsub
      rcases List.mem_cons.mp hmem with rfl | hrest
      · exact ⟨rest, rfl⟩
      · have hxk : lt x k = true := (List.pairwise_cons.mp hsub).1 k hrest
        have hnot : lt x k = false :=
          ((mem_dropWhile_below h hl).mp (by simp [hd] : x ∈ _)).2
        simp [hxk] at hnot

theorem find_of_mem : find lt k l = some k := by
  obtain ⟨rest, hd⟩ := dropWhile_below_eq h hl hk
  simp [find, hd, h.irrefl k]

theorem eq_append_erase :
    ∃ pre post, l = pre ++ k :: post ∧ erase lt k l = pre ++ post := by
  obtain ⟨rest, hd⟩ := dropWhile_below_eq h hl hk
  refine ⟨l.takeWhile fun x => lt x k, rest, ?_, ?_⟩
  · rw [← hd, List.takeWhile_append_dropWhile]
  · simp [erase, hd]

theorem sorted_erase : Sorted lt (erase lt k l) := by
  obtain ⟨pre, post, hl', he⟩ := eq_append_erase h hl hk
  rw [he]
  refine List.Pairwise.sublist ?_ hl
  rw [hl']
  exact List.Sublist.append (List.Sublist.refl _) (List.sublist_cons_self _ _)

theorem mem_erase {x : κ} : x ∈ erase lt k l ↔ x ∈ l ∧ x ≠ k := by
  obtain ⟨pre, post, hl', he⟩ := eq_append_erase h hl hk
  have hnd : (pre ++ k :: post).Nodup := hl' ▸ hl.nodup h
  have hkpre : k ∉ pre := by
    intro hc
    exact (List.nodup_append.mp hnd).2.2 k hc k (by simp) rfl
  have hkpost : k ∉ post :=
    (List.nodup_cons.mp (List.nodup_append.mp hnd).2.1).1
  rw [he, hl']
  constructor
  · intro hx
    refine ⟨?_, ?_⟩
    · rcases List.mem_append.mp hx with hx | hx
      · exact List.mem_append_left _ hx
      · exact List.mem_append_right _ (List.mem_cons_of_mem _ hx)
    · rintro rfl
      rcases List.mem_append.mp hx with hx | hx
      · exact hkpre hx
      · exact hkpost hx
  · rintro ⟨hx, hne⟩
    rcases List.mem_append.mp hx with hx | hx
    · exact List.mem_append_left _ hx
    · rcases List.mem_cons.mp hx with rfl | hx
      · exact absurd rfl hne
      · exact List.mem_append_right _ hx

end Erase

/-- The first element of a sorted sequence is below all others. -/
theorem Sorted.head_le {x : κ} {rest : List κ} (hl : Sorted lt (x :: rest)) {y : κ}
    (hy : y ∈ x :: rest) : y = x ∨ lt x y = true := by
  rcases List.mem_cons.mp hy with rfl | hy
  · exact Or.inl rfl
  · exact Or.inr ((List.pairwise_cons.mp hl).1 y hy)

end OrderedSet
end Hpgs
