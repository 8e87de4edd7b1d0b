import Mathlib.Data.List.Basic
import Mathlib.Data.List.Infix
import Mathlib.Algebra.BigOperators.Group.List.Basic
import Mathlib.Algebra.GroupWithZero.Nat

/-!
# The shortest beginning of a list that weighs enough

Elements are taken in turn for as long as they do not weigh the goal together.
What is taken is the shortest beginning that weighs the goal, or the whole list
where that weighs less.
-/

namespace Covering

universe u

variable {α : Type u} (weight : α → Nat)

def total (l : List α) : Nat := (l.map weight).sum

@[simp] theorem total_nil : total weight [] = 0 := rfl

@[simp] theorem total_cons (x : α) (l : List α) :
    total weight (x :: l) = weight x + total weight l := by
  simp [total]

@[simp] theorem total_append (l l' : List α) :
    total weight (l ++ l') = total weight l + total weight l' := by
  simp [total]

/-- The elements that are taken until they weigh the goal. -/
def cover : Nat → List α → List α
  | _, [] => []
  | goal, x :: rest => if goal = 0 then [] else x :: cover (goal - weight x) rest

variable {weight} {goal : Nat}

theorem cover_zero (l : List α) : cover weight 0 l = [] := by
  cases l with
  | nil => rfl
  | cons x rest => rw [cover, if_pos rfl]

theorem cover_cons (x : α) (rest : List α) (h : 0 < goal) :
    cover weight goal (x :: rest) = x :: cover weight (goal - weight x) rest := by
  rw [cover, if_neg h.ne']

/-- An element is taken exactly where those before it weigh less than the goal. -/
theorem concat_isPrefix_cover_iff {before l : List α} {x : α} :
    before ++ [x] <+: cover weight goal l ↔
      before ++ [x] <+: l ∧ total weight before < goal := by
  induction l generalizing goal before with
  | nil => simp [cover]
  | cons y rest ih =>
      rcases Nat.eq_zero_or_pos goal with rfl | hgoal
      · simp [cover]
      · rw [cover_cons y rest hgoal]
        cases before with
        | nil => simp [hgoal]
        | cons z before =>
            rw [List.cons_append, List.cons_prefix_cons, List.cons_prefix_cons, ih, total_cons,
              and_assoc]
            refine and_congr_right fun heq => ?_
            subst heq
            refine and_congr_right fun _ => ?_
            omega

/-- Without the last element that is taken, the others weigh less than the goal. -/
theorem of_cover_eq {before l : List α} {x : α} (h : cover weight goal l = before ++ [x]) :
    before ++ [x] <+: l ∧ total weight before < goal := by
  apply concat_isPrefix_cover_iff.mp
  rw [h]

theorem cover_isPrefix (goal : Nat) (l : List α) : cover weight goal l <+: l := by
  rcases List.eq_nil_or_concat (cover weight goal l) with hnil | ⟨before, x, heq⟩
  · rw [hnil]
    exact List.nil_prefix
  · rw [List.concat_eq_append] at heq
    rw [heq]
    exact (of_cover_eq heq).1

theorem cover_eq_self {l : List α} (h : total weight l < goal) : cover weight goal l = l := by
  induction l generalizing goal with
  | nil => rfl
  | cons x rest ih =>
      rw [total_cons] at h
      rw [cover_cons x rest (Nat.zero_lt_of_lt h), ih (by omega)]

/-- What is taken weighs the goal where the whole list does. -/
theorem total_cover_lt_iff {l : List α} :
    total weight (cover weight goal l) < goal ↔ total weight l < goal := by
  constructor
  · intro h
    induction l generalizing goal with
    | nil => exact h
    | cons x rest ih =>
        have hgoal : 0 < goal := Nat.zero_lt_of_lt h
        rw [cover_cons x rest hgoal, total_cons] at h
        have hrest : total weight rest < goal - weight x := ih (by omega)
        rw [total_cons]
        omega
  · intro h
    rwa [cover_eq_self h]

/-- Of two lists the second one is for what the first one leaves. -/
theorem cover_append (l l' : List α) :
    cover weight goal (l ++ l') =
      cover weight goal l ++ cover weight (goal - total weight (cover weight goal l)) l' := by
  induction l generalizing goal with
  | nil => rfl
  | cons x rest ih =>
      rcases Nat.eq_zero_or_pos goal with rfl | hgoal
      · simp [cover_zero]
      · rw [List.cons_append, cover_cons x _ hgoal, cover_cons x _ hgoal, ih, total_cons,
          Nat.sub_sub, List.cons_append]

/-- What holds of each element that is taken and of those before it. -/
theorem forall_split_cover_iff {l : List α} {P : List α → α → Prop} :
    (∀ before x after, cover weight goal l = before ++ x :: after → P before x) ↔
      ∀ before x after, l = before ++ x :: after → total weight before < goal → P before x := by
  constructor
  · intro h before x after hsplit hbefore
    have htaken : before ++ [x] <+: cover weight goal l :=
      concat_isPrefix_cover_iff.mpr ⟨⟨after, by simp [hsplit]⟩, hbefore⟩
    obtain ⟨more, hmore⟩ := htaken
    exact h before x more (by simp [← hmore])
  · intro h before x after hsplit
    have htaken : before ++ [x] <+: cover weight goal l := ⟨after, by simp [hsplit]⟩
    obtain ⟨⟨more, hmore⟩, hbefore⟩ := concat_isPrefix_cover_iff.mp htaken
    exact h before x more (by simp [← hmore]) hbefore

/-- What is taken stays below a bound where it does so with each element that is taken. -/
theorem total_cover_lt_bound_iff {l : List α} {bound : Nat} (hbound : 0 < bound) :
    total weight (cover weight goal l) < bound ↔
      ∀ before x after, l = before ++ x :: after → total weight before < goal →
        total weight before + weight x < bound := by
  rw [← forall_split_cover_iff (P := fun before x => total weight before + weight x < bound)]
  constructor
  · intro h before x after hsplit
    rw [hsplit, total_append, total_cons] at h
    omega
  · intro h
    rcases List.eq_nil_or_concat (cover weight goal l) with hnil | ⟨before, x, heq⟩
    · rw [hnil]
      exact hbound
    · rw [List.concat_eq_append] at heq
      have hlast := h before x [] heq
      rw [heq]
      simpa using hlast

end Covering
