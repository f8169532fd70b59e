import Mathlib.Data.List.Induction
import Mathlib.Data.List.Nodup

/-!
# Hierarchies

A hierarchy assigns what is there to paths, which are lists of names.  Whatever has a name
is in something that can hold entries.  Only what holds no entries can be erased.

**Results.**
* `find?_eq_some_iff`, `mem_names_iff`: what is found at a path, and the names under it.
* `find?_front`, `find?_behind`: paths lead through what holds entries.
* `erase`: the rest is a hierarchy, so the type has hierarchies only.
* `exists_depth`: the paths have a common bound.
-/

namespace Hpgs

universe u v

/-- A finite hierarchy in which what `holds` is true of can have entries. -/
structure Hierarchy (ν : Type u) (β : Type v) (holds : β → Bool) where
  entries : List (List ν × β)
  nodup : (entries.map Prod.fst).Nodup
  closed : ∀ p n b, (p ++ [n], b) ∈ entries → ∃ d, (p, d) ∈ entries ∧ holds d = true

namespace Hierarchy

variable {ν : Type u} {β : Type v} {holds : β → Bool} [DecidableEq ν]

/-- What is at a path. -/
def find? (t : Hierarchy ν β holds) (p : List ν) : Option β :=
  (t.entries.find? fun e => e.1 = p).map Prod.snd

/-- The name under `p` that `q` is the path of. -/
def nameUnder (p q : List ν) : Option ν :=
  q.getLast?.bind fun n => if q = p ++ [n] then some n else none

/-- The names under a path. -/
def names (t : Hierarchy ν β holds) (p : List ν) : List ν :=
  t.entries.filterMap fun e => nameUnder p e.1

variable {t : Hierarchy ν β holds} {p q : List ν} {n : ν} {b : β}

theorem find?_eq_some_iff : t.find? p = some b ↔ (p, b) ∈ t.entries := by
  unfold find?
  constructor
  · intro h
    obtain ⟨e, he, rfl⟩ := Option.map_eq_some_iff.mp h
    have hkey : e.1 = p := by simpa using List.find?_some he
    rw [← hkey]
    exact List.mem_of_find?_eq_some he
  · intro h
    have hnodup := t.nodup
    generalize t.entries = l at h hnodup
    induction l with
    | nil => cases h
    | cons e l ih =>
        obtain ⟨hnotin, hnodup'⟩ := List.nodup_cons.mp hnodup
        rcases List.mem_cons.mp h with rfl | h
        · simp
        · have hne : e.1 ≠ p := by
            rintro rfl
            exact hnotin (List.mem_map.mpr ⟨_, h, rfl⟩)
          rw [List.find?_cons_of_neg (by simpa using hne)]
          exact ih h hnodup'

theorem nameUnder_eq_some_iff : nameUnder p q = some n ↔ q = p ++ [n] := by
  unfold nameUnder
  rw [Option.bind_eq_some_iff]
  constructor
  · rintro ⟨m, hlast, h⟩
    obtain ⟨hq, hm⟩ := Option.ite_none_right_eq_some.mp h
    rw [hq, Option.some.inj hm]
  · rintro rfl
    exact ⟨n, List.getLast?_concat, if_pos rfl⟩

theorem mem_names_iff : n ∈ t.names p ↔ ∃ b, t.find? (p ++ [n]) = some b := by
  unfold names
  rw [List.mem_filterMap]
  constructor
  · rintro ⟨⟨q, b⟩, hmem, h⟩
    rw [nameUnder_eq_some_iff] at h
    simp only at h
    subst h
    exact ⟨b, find?_eq_some_iff.mpr hmem⟩
  · rintro ⟨b, h⟩
    exact ⟨(p ++ [n], b), find?_eq_some_iff.mp h, nameUnder_eq_some_iff.mpr rfl⟩

/-- No name comes twice under a path. -/
theorem nodup_names (t : Hierarchy ν β holds) (p : List ν) : (t.names p).Nodup := by
  have hnames : t.names p = (t.entries.map Prod.fst).filterMap (nameUnder p) := by
    rw [List.filterMap_map]
    rfl
  rw [hnames]
  refine t.nodup.filterMap fun q q' n hq hq' => ?_
  rw [nameUnder_eq_some_iff.mp hq, nameUnder_eq_some_iff.mp hq']

/-- What has a name under a path is in something there. -/
theorem find?_parent (h : t.find? (p ++ [n]) = some b) :
    ∃ d, t.find? p = some d ∧ holds d = true := by
  obtain ⟨d, hd, hholds⟩ := t.closed p n b (find?_eq_some_iff.mp h)
  exact ⟨d, find?_eq_some_iff.mpr hd, hholds⟩

/-- A path leads through what is at its fronts. -/
theorem find?_front {rest : List ν} (h : t.find? (p ++ rest) = some b) :
    ∃ d, t.find? p = some d := by
  induction rest using List.reverseRecOn generalizing b with
  | nil =>
      rw [List.append_nil] at h
      exact ⟨b, h⟩
  | append_singleton rest n ih =>
      rw [← List.append_assoc] at h
      obtain ⟨d, hd, _⟩ := find?_parent h
      exact ih hd

/-- Nothing is behind a path at which nothing is. -/
theorem find?_behind (h : t.find? p = none) (hpq : p <+: q) : t.find? q = none := by
  obtain ⟨rest, rfl⟩ := hpq
  cases hq : t.find? (p ++ rest) with
  | none => rfl
  | some b =>
      obtain ⟨d, hd⟩ := find?_front hq
      rw [h] at hd
      cases hd

/-- What cannot have entries has none. -/
theorem names_eq_nil (h : ∀ d, t.find? p = some d → holds d = false) : t.names p = [] := by
  rw [List.eq_nil_iff_forall_not_mem]
  intro n hn
  obtain ⟨b, hb⟩ := mem_names_iff.mp hn
  obtain ⟨d, hd, hholds⟩ := find?_parent hb
  rw [h d hd] at hholds
  cases hholds

/-- Erase what has no entries. -/
def erase (t : Hierarchy ν β holds) (p : List ν) (h : t.names p = []) : Hierarchy ν β holds where
  entries := t.entries.filter fun e => e.1 ≠ p
  nodup := t.nodup.sublist (List.filter_sublist.map Prod.fst)
  closed := by
    intro q n b hmem
    have hin := (List.mem_filter.mp hmem).1
    obtain ⟨d, hd, hholds⟩ := t.closed q n b hin
    refine ⟨d, List.mem_filter.mpr ⟨hd, ?_⟩, hholds⟩
    rw [decide_eq_true_iff]
    rintro rfl
    have hname := mem_names_iff.mpr ⟨b, find?_eq_some_iff.mpr hin⟩
    rw [h] at hname
    cases hname

theorem find?_erase (h : t.names p = []) (q : List ν) :
    (t.erase p h).find? q = if q = p then none else t.find? q := by
  ext b
  rw [find?_eq_some_iff, erase, List.mem_filter, decide_eq_true_iff, ← find?_eq_some_iff]
  split
  · rename_i heq
    simp [heq]
  · rename_i hne
    simp [hne]

/-- No path is longer than a common bound. -/
theorem exists_depth (t : Hierarchy ν β holds) :
    ∃ depth, ∀ q b, t.find? q = some b → q.length < depth := by
  have hall : ∀ l : List (List ν × β), ∃ depth, ∀ e ∈ l, e.1.length < depth := by
    intro l
    induction l with
    | nil => exact ⟨0, fun e he => by cases he⟩
    | cons e l ih =>
        obtain ⟨depth, hdepth⟩ := ih
        refine ⟨max depth (e.1.length + 1), fun e' he' => ?_⟩
        rcases List.mem_cons.mp he' with rfl | hin
        · omega
        · have := hdepth e' hin
          omega
  obtain ⟨depth, hdepth⟩ := hall t.entries
  exact ⟨depth, fun q b hq => hdepth (q, b) (find?_eq_some_iff.mp hq)⟩

end Hierarchy
end Hpgs
