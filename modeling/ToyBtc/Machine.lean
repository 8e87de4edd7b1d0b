import Mathlib.Logic.Basic

/-!
# Runs of a labelled partial machine

A machine takes one labelled step at a time and may refuse it. Properties of
whole runs come from properties of one step: an invariant holds in every
reached state, and what a condition on a step implies in every reachable state
it implies at every step of a run.
-/

namespace Machine

variable {σ α : Type*} (step : σ → α → Option σ)

/-- The states reached from `start` by steps that all meet `C`. -/
inductive Reach (C : σ → α → Prop) (start : σ) : σ → Prop
  | refl : Reach C start start
  | tail {s t : σ} {a : α} (reach : Reach C start s) (meets : C s a)
      (next : step s a = some t) : Reach C start t

/-- The states reached from `start` by any steps. -/
abbrev Reachable (start : σ) : σ → Prop := Reach step (fun _ _ => True) start

variable {step}

/-- What holds at the start and survives every step that meets `C` holds in
every state such steps reach. -/
theorem Reach.invariant {C : σ → α → Prop} {start s : σ} (P : σ → Prop) (hstart : P start)
    (hstep : ∀ s a t, P s → C s a → step s a = some t → P t)
    (reach : Reach step C start s) : P s := by
  induction reach with
  | refl => exact hstart
  | tail _ meets next ih => exact hstep _ _ _ ih meets next

theorem Reach.imp {C D : σ → α → Prop} {start s : σ} (h : ∀ s a, C s a → D s a)
    (reach : Reach step C start s) : Reach step D start s := by
  induction reach with
  | refl => exact .refl
  | tail _ meets next ih => exact ih.tail (h _ _ meets) next

theorem Reach.trans {C : σ → α → Prop} {start s t : σ} (first : Reach step C start s)
    (second : Reach step C s t) : Reach step C start t := by
  induction second with
  | refl => exact first
  | tail _ meets next ih => exact .tail ih meets next

/-- A property that a step keeps exactly when it meets `C` holds exactly in the
states that steps meeting `C` reach. -/
theorem reach_iff {C : σ → α → Prop} {start s : σ} (P : σ → Prop) (hstart : P start)
    (hkeep : ∀ s a t, Reachable step start s → step s a = some t → (P t ↔ P s ∧ C s a)) :
    Reach step C start s ↔ Reachable step start s ∧ P s := by
  constructor
  · intro reach
    induction reach with
    | refl => exact ⟨.refl, hstart⟩
    | tail _ meets next ih =>
        exact ⟨ih.1.tail trivial next, (hkeep _ _ _ ih.1 next).mpr ⟨ih.2, meets⟩⟩
  · rintro ⟨reach, hs⟩
    induction reach with
    | refl => exact .refl
    | tail reach _ next ih =>
        obtain ⟨hbefore, meets⟩ := (hkeep _ _ _ reach next).mp hs
        exact (ih hbefore).tail meets next

variable (step)

/-- Every step of the run over `labels` meets `C`, up to the first refusal. -/
def StepsMeet (C : σ → α → Prop) : σ → List α → Prop
  | _, [] => True
  | s, a :: rest => C s a ∧ ∀ t, step s a = some t → StepsMeet C t rest

instance decidableStepsMeet {C : σ → α → Prop} [∀ s a, Decidable (C s a)] :
    ∀ s labels, Decidable (StepsMeet step C s labels)
  | _, [] => isTrue trivial
  | s, a :: rest =>
      match hnext : step s a with
      | none => decidable_of_iff (C s a) ⟨fun h => ⟨h, by simp [hnext]⟩, And.left⟩
      | some t =>
          have := decidableStepsMeet (C := C) t rest
          decidable_of_iff (C s a ∧ StepsMeet step C t rest) <| by simp [StepsMeet, hnext]

variable {step}

/-- Taking listed steps in turn is a run. -/
theorem reach_of_foldlM {C : σ → α → Prop} {start s : σ} (labels : List α)
    (meets : StepsMeet step C start labels) (h : labels.foldlM step start = some s) :
    Reach step C start s := by
  induction labels generalizing start with
  | nil =>
      obtain rfl : start = s := by simpa using h
      exact .refl
  | cons a rest ih =>
      rw [List.foldlM_cons] at h
      obtain ⟨t, hstep, hrest⟩ := Option.bind_eq_some_iff.mp h
      exact (Reach.tail .refl meets.1 hstep).trans (ih (meets.2 t hstep) hrest)

theorem StepsMeet.of_forall {C : σ → α → Prop} (h : ∀ s a, C s a) (s : σ) (labels : List α) :
    StepsMeet step C s labels := by
  induction labels generalizing s with
  | nil => trivial
  | cons a rest ih => exact ⟨h s a, fun t _ => ih t⟩

/-- What a condition implies in every reachable state, it implies throughout a run. -/
theorem StepsMeet.imp {C D : σ → α → Prop} {start : σ} {labels : List α}
    (h : ∀ s a, Reachable step start s → C s a → D s a)
    (meets : StepsMeet step C start labels) : StepsMeet step D start labels := by
  suffices ∀ s, Reachable step start s → StepsMeet step C s labels →
      StepsMeet step D s labels from this start .refl meets
  clear meets
  induction labels with
  | nil => intro s _ _; trivial
  | cons a rest ih =>
      intro s reach meets
      refine ⟨h s a reach meets.1, fun t next => ?_⟩
      exact ih t (reach.tail trivial next) (meets.2 t next)

/-- Two conditions that agree wherever an invariant holds agree along runs whose
steps keep the invariant. -/
theorem stepsMeet_iff {C D : σ → α → Prop} (I : σ → Prop) (h : ∀ s a, I s → (C s a ↔ D s a))
    (hkeep : ∀ s a t, I s → C s a → step s a = some t → I t) {start : σ} (hstart : I start)
    (labels : List α) : StepsMeet step C start labels ↔ StepsMeet step D start labels := by
  induction labels generalizing start with
  | nil => exact Iff.rfl
  | cons a rest ih =>
      have hfirst := h start a hstart
      constructor
      · rintro ⟨hc, hrest⟩
        exact ⟨hfirst.mp hc, fun t next => (ih (hkeep _ _ _ hstart hc next)).mp (hrest t next)⟩
      · rintro ⟨hd, hrest⟩
        have hc := hfirst.mpr hd
        exact ⟨hc, fun t next => (ih (hkeep _ _ _ hstart hc next)).mpr (hrest t next)⟩

/-! ### How often something happens -/

section Occurrences

variable (step) (P : σ → α → Prop) [∀ s a, Decidable (P s a)]

/-- How many steps of the run over `labels` are taken where `P` holds, up to the
first refusal. -/
def occurrences : σ → List α → Nat
  | _, [] => 0
  | s, a :: rest =>
      match step s a with
      | none => 0
      | some t => (if P s a then 1 else 0) + occurrences t rest

variable {step P}

/-- A potential that no step of a run raises and every counted step lowers bounds the
count. -/
theorem StepsMeet.occurrences_le {C : σ → α → Prop} (I : σ → Prop) (μ : σ → Nat)
    (hstep : ∀ s a t, I s → C s a → step s a = some t →
      I t ∧ μ t ≤ μ s ∧ (P s a → μ t < μ s)) {start : σ} (hstart : I start) {labels : List α}
    (meets : StepsMeet step C start labels) : occurrences step P start labels ≤ μ start := by
  induction labels generalizing start with
  | nil => exact Nat.zero_le _
  | cons a rest ih =>
      rw [occurrences]
      cases hnext : step start a with
      | none => exact Nat.zero_le _
      | some t =>
          obtain ⟨hinv, hle, hlt⟩ := hstep start a t hstart meets.1 hnext
          have hrest := ih hinv (meets.2 t hnext)
          by_cases hp : P start a
          · have hlt := hlt hp
            simp only [hp, if_true]
            omega
          · simp only [hp, if_false]
            omega

theorem occurrences_le (I : σ → Prop) (μ : σ → Nat)
    (hstep : ∀ s a t, I s → step s a = some t →
      I t ∧ μ t ≤ μ s ∧ (P s a → μ t < μ s)) {start : σ} (hstart : I start) (labels : List α) :
    occurrences step P start labels ≤ μ start :=
  (StepsMeet.of_forall (C := fun _ _ => True) (fun _ _ => trivial) start labels).occurrences_le I μ
    (fun s a t hs _ => hstep s a t hs) hstart

theorem occurrences_mono {Q : σ → α → Prop} [∀ s a, Decidable (Q s a)]
    (h : ∀ s a, P s a → Q s a) (s : σ) (labels : List α) :
    occurrences step P s labels ≤ occurrences step Q s labels := by
  induction labels generalizing s with
  | nil => exact Nat.le_refl _
  | cons a rest ih =>
      rw [occurrences, occurrences]
      cases hnext : step s a with
      | none => exact Nat.le_refl _
      | some t =>
          have hrest := ih t
          by_cases hp : P s a
          · simp only [hp, h s a hp, if_true]
            omega
          · simp only [hp, if_false]
            omega

end Occurrences

end Machine
