import Mathlib.Data.List.Basic
import Mathlib.Order.Lattice

/-!
# Maps as sorted lists of entries

A map with keys from a linear order is the list of its entries, by increasing key.  Two
such maps with the same entries are equal, and iteration goes by key.

`put f k v` inserts the value `v` under a new key, and changes the value under a key that
is there by `f`.

**Results.**
* `put`: the entries stay sorted, so the type has sorted maps only.
* `find?_put`: what is found after an insertion.
* `mem_entries_iff`: the entries are what is found.
-/

namespace Hpgs

universe u v

/-- A map with its entries by increasing key. -/
structure SortedMap (κ : Type u) (ν : Type v) [LinearOrder κ] where
  entries : List (κ × ν)
  sorted : entries.Pairwise fun e e' => e.1 < e'.1

namespace SortedMap

variable {κ : Type u} {ν : Type v} [LinearOrder κ]

instance [DecidableEq ν] : DecidableEq (SortedMap κ ν) :=
  fun m m' =>
    decidable_of_iff (m.entries = m'.entries) ⟨fun h => by cases m; cases m'; congr, congrArg _⟩

/-- The map without entries. -/
def empty : SortedMap κ ν where
  entries := []
  sorted := List.Pairwise.nil

/-- Insert `v` at its place, or change the value that is there by `f`. -/
def putEntry (f : ν → ν) (k : κ) (v : ν) : List (κ × ν) → List (κ × ν)
  | [] => [(k, v)]
  | e :: rest =>
      if k < e.1 then (k, v) :: e :: rest
      else if k = e.1 then (k, f e.2) :: rest
      else e :: putEntry f k v rest

/-- The value of the first entry with key `k`. -/
def findEntry (k : κ) : List (κ × ν) → Option ν
  | [] => none
  | e :: rest => if k = e.1 then some e.2 else findEntry k rest

variable {f : ν → ν} {k k' : κ} {v : ν} {l : List (κ × ν)}

theorem key_of_mem_putEntry {e : κ × ν} (he : e ∈ putEntry f k v l) :
    e.1 = k ∨ e ∈ l := by
  induction l with
  | nil => exact Or.inl (by rw [List.mem_singleton.mp he])
  | cons x rest ih =>
      rw [putEntry] at he
      split at he
      · rcases List.mem_cons.mp he with rfl | he
        · exact Or.inl rfl
        · exact Or.inr he
      · split at he
        · rcases List.mem_cons.mp he with rfl | he
          · exact Or.inl rfl
          · exact Or.inr (List.mem_cons_of_mem _ he)
        · rcases List.mem_cons.mp he with rfl | he
          · exact Or.inr List.mem_cons_self
          · rcases ih he with hk | hmem
            · exact Or.inl hk
            · exact Or.inr (List.mem_cons_of_mem _ hmem)

theorem sorted_putEntry (f : ν → ν) (k : κ) (v : ν) (h : l.Pairwise fun e e' => e.1 < e'.1) :
    (putEntry f k v l).Pairwise fun e e' => e.1 < e'.1 := by
  induction l with
  | nil => exact List.pairwise_singleton _ _
  | cons x rest ih =>
      obtain ⟨hx, hrest⟩ := List.pairwise_cons.mp h
      rw [putEntry]
      split
      · rename_i hlt
        refine List.pairwise_cons.mpr ⟨fun e he => ?_, h⟩
        rcases List.mem_cons.mp he with rfl | he
        · exact hlt
        · exact hlt.trans (hx e he)
      · split
        · rename_i heq
          exact List.pairwise_cons.mpr ⟨fun e he => heq ▸ hx e he, hrest⟩
        · rename_i hnlt hne
          refine List.pairwise_cons.mpr ⟨fun e he => ?_, ih hrest⟩
          rcases key_of_mem_putEntry he with hk | he
          · rw [hk]
            exact lt_of_le_of_ne (not_lt.mp hnlt) (Ne.symm hne)
          · exact hx e he

/-- A key behind all the others goes to the end. -/
theorem putEntry_of_forall_lt (h : ∀ e ∈ l, e.1 < k) : putEntry f k v l = l ++ [(k, v)] := by
  induction l with
  | nil => rfl
  | cons x rest ih =>
      have hx := h x List.mem_cons_self
      rw [putEntry, if_neg hx.not_gt, if_neg hx.ne', ih fun e he => h e (List.mem_cons_of_mem _ he)]
      rfl

def put (f : ν → ν) (k : κ) (v : ν) (m : SortedMap κ ν) : SortedMap κ ν where
  entries := putEntry f k v m.entries
  sorted := sorted_putEntry f k v m.sorted

/-- Insert a new key; a value that is there stays. -/
def insert (k : κ) (v : ν) (m : SortedMap κ ν) : SortedMap κ ν :=
  m.put id k v

/-- Insert a key, or replace its value. -/
def set (k : κ) (v : ν) (m : SortedMap κ ν) : SortedMap κ ν :=
  m.put (fun _ => v) k v

def find? (k : κ) (m : SortedMap κ ν) : Option ν :=
  findEntry k m.entries

/-! ## What is found -/

theorem findEntry_of_lt (h : ∀ e ∈ l, k < e.1) : findEntry k l = none := by
  induction l with
  | nil => rfl
  | cons x rest ih =>
      rw [findEntry, if_neg (h x List.mem_cons_self).ne,
        ih fun e he => h e (List.mem_cons_of_mem _ he)]

theorem findEntry_putEntry (h : l.Pairwise fun e e' => e.1 < e'.1) :
    findEntry k' (putEntry f k v l) =
      if k' = k then some (((findEntry k l).map f).getD v) else findEntry k' l := by
  induction l with
  | nil => rfl
  | cons x rest ih =>
      obtain ⟨hx, hrest⟩ := List.pairwise_cons.mp h
      rw [putEntry]
      split
      · rename_i hlt
        have hnone : findEntry k (x :: rest) = none := by
          refine findEntry_of_lt fun e he => ?_
          rcases List.mem_cons.mp he with rfl | he
          · exact hlt
          · exact hlt.trans (hx e he)
        rw [hnone, findEntry]
        rfl
      · split
        · rename_i heq
          subst heq
          by_cases hk : k' = x.1
          · simp [findEntry, hk]
          · simp [findEntry, hk]
        · rename_i hne
          have hfind : findEntry k (x :: rest) = findEntry k rest := if_neg hne
          rw [hfind, findEntry, findEntry, ih hrest]
          by_cases hk : k' = x.1
          · rw [if_pos hk, if_pos hk, if_neg (fun h' => hne (h'.symm.trans hk))]
          · rw [if_neg hk, if_neg hk]

theorem find?_put (m : SortedMap κ ν) :
    (m.put f k v).find? k' =
      if k' = k then some (((m.find? k).map f).getD v) else m.find? k' :=
  findEntry_putEntry m.sorted

theorem find?_set (m : SortedMap κ ν) :
    (m.set k v).find? k' = if k' = k then some v else m.find? k' := by
  rw [set, find?_put]
  cases m.find? k <;> rfl

@[simp] theorem find?_empty : (empty : SortedMap κ ν).find? k = none := rfl

theorem mem_of_findEntry (h : findEntry k l = some v) : (k, v) ∈ l := by
  induction l with
  | nil => cases h
  | cons x rest ih =>
      rw [findEntry] at h
      split at h
      · rename_i heq
        cases h
        rw [heq]
        exact List.mem_cons_self
      · exact List.mem_cons_of_mem _ (ih h)

theorem findEntry_of_mem (hl : l.Pairwise fun e e' => e.1 < e'.1) (h : (k, v) ∈ l) :
    findEntry k l = some v := by
  induction l with
  | nil => cases h
  | cons x rest ih =>
      obtain ⟨hx, hrest⟩ := List.pairwise_cons.mp hl
      rcases List.mem_cons.mp h with rfl | h
      · exact if_pos rfl
      · rw [findEntry, if_neg (hx _ h).ne']
        exact ih hrest h

theorem mem_entries_iff (m : SortedMap κ ν) : (k, v) ∈ m.entries ↔ m.find? k = some v :=
  ⟨findEntry_of_mem m.sorted, mem_of_findEntry⟩

/-- A map is given by its entries. -/
theorem eq_some_iff_entries {o : Option (SortedMap κ ν)} {m : SortedMap κ ν} :
    o = some m ↔ o.map entries = some m.entries := by
  cases o with
  | none => simp
  | some m' =>
      rw [Option.map_some, Option.some.injEq, Option.some.injEq]
      exact ⟨congrArg entries, fun h => by cases m; cases m'; congr⟩

/-- No key comes twice. -/
theorem nodup_keys (m : SortedMap κ ν) : (m.entries.map Prod.fst).Nodup := by
  rw [List.Nodup, List.pairwise_map]
  exact m.sorted.imp fun h => h.ne

end SortedMap
end Hpgs
