import Mathlib.Data.List.Chain

/-!
# Runs of text

A list of texts and other symbols has its texts joined: texts that stand side by side
become one, and empty texts are dropped.  What is left of the texts are the maximal runs.

**Results.**
* `joinRuns_maximal`: no text is empty and no two texts stand side by side.
* `joinRuns_flatMap`: joining keeps what the list spells.
* `joinRuns_text_text`, `joinRuns_text_symbol`: joining from the left, with a run that is
  still open.
-/

namespace Hpgs
namespace Runs

universe u v

variable {α : Type u} {β γ : Type v}

/-- Join the texts that stand side by side, and drop the empty ones. -/
def joinRuns : List (List α ⊕ β) → List (List α ⊕ β)
  | [] => []
  | .inr b :: rest => .inr b :: joinRuns rest
  | .inl t :: rest =>
      match joinRuns rest with
      | .inl u :: rest' => .inl (t ++ u) :: rest'
      | rest' => if t.isEmpty then rest' else .inl t :: rest'

/-- The run that ends here: nothing where it is empty. -/
def closeRun (t : List α) : List (List α ⊕ β) :=
  if t.isEmpty then [] else [.inl t]

/-- No text is empty and no two texts stand side by side. -/
structure Maximal (l : List (List α ⊕ β)) : Prop where
  nonempty : .inl [] ∉ l
  apart : l.IsChain fun x y => ¬ (x.isLeft ∧ y.isLeft)

/-- How a text joins what is behind it. -/
theorem joinRuns_text (t : List α) (rest : List (List α ⊕ β)) :
    (∃ u rest', joinRuns rest = .inl u :: rest' ∧
        joinRuns (.inl t :: rest) = .inl (t ++ u) :: rest') ∨
      ((∀ u rest', joinRuns rest ≠ .inl u :: rest') ∧
        joinRuns (.inl t :: rest) = closeRun t ++ joinRuns rest) := by
  cases hjoin : joinRuns rest with
  | nil =>
      right
      refine ⟨nofun, ?_⟩
      cases t with
      | nil => simp [joinRuns, hjoin, closeRun]
      | cons c t => simp [joinRuns, hjoin, closeRun]
  | cons s rest' =>
      cases s with
      | inl u => exact .inl ⟨u, rest', rfl, by simp [joinRuns, hjoin]⟩
      | inr b =>
          right
          refine ⟨nofun, ?_⟩
          cases t with
          | nil => simp [joinRuns, hjoin, closeRun]
          | cons c t => simp [joinRuns, hjoin, closeRun]

theorem joinRuns_maximal (l : List (List α ⊕ β)) : Maximal (joinRuns l) := by
  induction l with
  | nil => exact ⟨List.not_mem_nil, List.isChain_nil⟩
  | cons s rest ih =>
      obtain ⟨hne, hapart⟩ := ih
      cases s with
      | inr b =>
          refine ⟨by simpa [joinRuns] using hne, ?_⟩
          exact List.isChain_cons.mpr ⟨fun _ _ => by simp, hapart⟩
      | inl t =>
          obtain ⟨u, rest', hrest, htext⟩ | ⟨hnone, htext⟩ := joinRuns_text t rest
          · rw [htext]
            rw [hrest] at hne hapart
            have hu : u ≠ [] := fun hnil => hne (by simp [hnil])
            refine ⟨?_, ?_⟩
            · simp only [List.mem_cons, not_or] at hne ⊢
              refine ⟨fun heq => ?_, hne.2⟩
              have htu : t = [] ∧ u = [] := by simpa using heq
              exact hu htu.2
            · rw [List.isChain_cons] at hapart ⊢
              exact ⟨fun y hy => by simpa using hapart.1 y hy, hapart.2⟩
          · rw [htext]
            cases t with
            | nil => exact ⟨hne, hapart⟩
            | cons c t =>
                refine ⟨by simpa [closeRun] using hne, ?_⟩
                refine List.isChain_cons.mpr ⟨fun y hy => ?_, hapart⟩
                cases y with
                | inl u =>
                    obtain ⟨rest', hrest'⟩ := List.head?_eq_some_iff.mp hy
                    exact absurd hrest' (hnone u rest')
                | inr b => simp

/-- Joining keeps the symbols. -/
theorem mem_joinRuns_symbol (b : β) (l : List (List α ⊕ β)) :
    .inr b ∈ joinRuns l ↔ .inr b ∈ l := by
  induction l with
  | nil => rfl
  | cons s rest ih =>
      cases s with
      | inr b' => simp [joinRuns, ih]
      | inl t =>
          obtain ⟨u, rest', hrest, htext⟩ | ⟨_, htext⟩ := joinRuns_text t rest
          · rw [htext, List.mem_cons, List.mem_cons, ← ih, hrest, List.mem_cons]
            simp
          · rw [htext, List.mem_append, List.mem_cons, ih]
            cases t with
            | nil => simp [closeRun]
            | cons c t => simp [closeRun]

/-- Joining keeps what the texts and the symbols spell. -/
theorem joinRuns_flatMap (spell : β → List α) (l : List (List α ⊕ β)) :
    (joinRuns l).flatMap (Sum.elim id spell) = l.flatMap (Sum.elim id spell) := by
  induction l with
  | nil => rfl
  | cons s rest ih =>
      cases s with
      | inr b => simp [joinRuns, ih]
      | inl t =>
          obtain ⟨u, rest', hrest, htext⟩ | ⟨_, htext⟩ := joinRuns_text t rest
          · rw [htext, List.flatMap_cons, List.flatMap_cons, ← ih, hrest, List.flatMap_cons]
            simp
          · rw [htext, List.flatMap_append, List.flatMap_cons, ih]
            cases t with
            | nil => simp [closeRun]
            | cons c t => simp [closeRun]

/-- Symbols may be replaced before or after. -/
theorem joinRuns_map (f : β → γ) (l : List (List α ⊕ β)) :
    joinRuns (l.map (Sum.map id f)) = (joinRuns l).map (Sum.map id f) := by
  induction l with
  | nil => rfl
  | cons s rest ih =>
      cases s with
      | inr b => simp [joinRuns, ih]
      | inl t =>
          simp only [List.map_cons, Sum.map_inl, joinRuns, ih]
          cases hjoin : joinRuns rest with
          | nil => cases t <;> simp
          | cons s rest' =>
              cases s with
              | inl u => simp
              | inr b => cases t <;> simp

/-- An empty open run. -/
@[simp] theorem joinRuns_nil_text (rest : List (List α ⊕ β)) :
    joinRuns (.inl [] :: rest) = joinRuns rest := by
  obtain ⟨u, rest', hrest, htext⟩ | ⟨_, htext⟩ := joinRuns_text [] rest
  · rw [htext, hrest, List.nil_append]
  · rw [htext]
    rfl

/-- A text makes the open run longer. -/
theorem joinRuns_text_text (t u : List α) (rest : List (List α ⊕ β)) :
    joinRuns (.inl t :: .inl u :: rest) = joinRuns (.inl (t ++ u) :: rest) := by
  cases hjoin : joinRuns rest with
  | nil => cases u <;> simp [joinRuns, hjoin]
  | cons s rest' =>
      cases s with
      | inl v => simp [joinRuns, hjoin]
      | inr b => cases u <;> simp [joinRuns, hjoin]

/-- A symbol closes the open run. -/
theorem joinRuns_text_symbol (t : List α) (b : β) (rest : List (List α ⊕ β)) :
    joinRuns (.inl t :: .inr b :: rest) = closeRun t ++ .inr b :: joinRuns rest := by
  cases t with
  | nil => rfl
  | cons c t => simp [joinRuns, closeRun]

/-- At the end there is only the open run. -/
theorem joinRuns_text_nil (t : List α) :
    joinRuns [(.inl t : List α ⊕ β)] = closeRun t := by
  cases t with
  | nil => rfl
  | cons c t => simp [joinRuns, closeRun]

end Runs
end Hpgs
