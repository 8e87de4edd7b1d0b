import Mathlib.Data.List.Induction
import Mathlib.Data.List.Nodup

/-!
# Lists that grow by a relation

A list that has grown from nothing by appending, where every element stands in a
relation to the elements before it.
-/

namespace Growth

variable {α β : Type*} {E E' : List α → α → Prop} {l : List α} {a : α}

/-- Every element is related to the elements before it. -/
inductive Grown (E : List α → α → Prop) : List α → Prop
  | nil : Grown E []
  | concat {l : List α} {a : α} (grown : Grown E l) (ext : E l a) : Grown E (l ++ [a])

namespace Grown

theorem of_concat (h : Grown E (l ++ [a])) : Grown E l ∧ E l a := by
  generalize hl : l ++ [a] = l' at h
  cases h with
  | nil => simp at hl
  | concat grown ext =>
      obtain ⟨rfl, ha⟩ := List.append_inj' hl rfl
      cases ha
      exact ⟨grown, ext⟩

theorem of_append (l' : List α) (h : Grown E (l ++ l')) : Grown E l := by
  induction l' using List.reverseRecOn with
  | nil => simpa using h
  | append_singleton rest a ih =>
      rw [← List.append_assoc] at h
      exact ih h.of_concat.1

/-- An element anywhere in the list is related to the elements before it. -/
theorem of_split {pre post : List α} (h : Grown E (pre ++ a :: post)) : E pre a := by
  have hsplit : pre ++ a :: post = (pre ++ [a]) ++ post := by simp
  rw [hsplit] at h
  exact (h.of_append post).of_concat.2

theorem imp (hE : ∀ l a, E l a → E' l a) (h : Grown E l) : Grown E' l := by
  induction h with
  | nil => exact .nil
  | concat _ ext ih => exact ih.concat (hE _ _ ext)

end Grown

/-- A list splits at its last element or at one of the elements before. -/
theorem forall_split_concat_iff :
    (∀ pre x post, l ++ [a] = pre ++ x :: post → E pre x) ↔
      (∀ pre x post, l = pre ++ x :: post → E pre x) ∧ E l a := by
  constructor
  · intro h
    exact ⟨fun pre x post hsplit => h pre x (post ++ [a]) (by simp [hsplit]), h l a [] rfl⟩
  · rintro ⟨hrest, hlast⟩ pre x post hsplit
    cases post using List.reverseRecOn with
    | nil =>
        obtain ⟨rfl, hx⟩ := List.append_inj' hsplit rfl
        cases hx
        exact hlast
    | append_singleton post y =>
        have hsplit' : l ++ [a] = (pre ++ x :: post) ++ [y] := by simp [hsplit]
        exact hrest pre x post (List.append_inj' hsplit' rfl).1

/-- The images of the elements differ where each differs from those before it. -/
theorem nodup_map_iff_forall_split {f : α → β} :
    (l.map f).Nodup ↔ ∀ pre x post, l = pre ++ x :: post → f x ∉ pre.map f := by
  induction l using List.reverseRecOn with
  | nil => simp
  | append_singleton l a ih =>
      rw [forall_split_concat_iff (E := fun pre x => f x ∉ pre.map f), ← ih, List.map_append,
        List.map_singleton, ← List.concat_eq_append, List.nodup_concat, and_comm]

end Growth
