import Mathlib.Data.UInt

/-!
# Sums of 64-bit words

A machine sum wraps modulo `2 ^ 64`. It never exceeds the exact sum of its
terms, and equals it exactly when that sum still fits a word.
-/

namespace WordSum

/-- The exact sum of a list of words. -/
def exact (words : List UInt64) : Nat := (words.map UInt64.toNat).sum

@[simp] theorem exact_nil : exact [] = 0 := rfl

@[simp] theorem exact_cons (w : UInt64) (words : List UInt64) :
    exact (w :: words) = w.toNat + exact words := by
  simp [exact]

theorem toNat_sum (words : List UInt64) :
    words.sum.toNat = exact words % 2 ^ 64 := by
  induction words with
  | nil => simp
  | cons w rest ih =>
      rw [List.sum_cons, UInt64.toNat_add, ih, exact_cons, Nat.add_mod_mod]

/-- Wrapping can only lose value. -/
theorem toNat_sum_le (words : List UInt64) : words.sum.toNat ≤ exact words := by
  rw [toNat_sum]
  exact Nat.mod_le _ _

theorem toNat_sum_of_lt {words : List UInt64} (h : exact words < 2 ^ 64) :
    words.sum.toNat = exact words := by
  rw [toNat_sum, Nat.mod_eq_of_lt h]

theorem toNat_add_le (v w : UInt64) : (v + w).toNat ≤ v.toNat + w.toNat := by
  rw [UInt64.toNat_add]
  exact Nat.mod_le _ _

theorem toNat_add_of_lt {v w : UInt64} (h : v.toNat + w.toNat < 2 ^ 64) :
    (v + w).toNat = v.toNat + w.toNat := by
  rw [UInt64.toNat_add, Nat.mod_eq_of_lt h]

/-- Term by term, a machine sum of exact differences stays below the exact
difference of the totals. -/
theorem exact_sub_add {ι : Type*} (items : List ι) (gain loss : ι → UInt64)
    (h : ∀ i ∈ items, loss i ≤ gain i) :
    exact (items.map fun i => gain i - loss i) + exact (items.map loss) =
      exact (items.map gain) := by
  induction items with
  | nil => simp
  | cons i rest ih =>
      have hi := h i (by simp)
      have hrest := ih fun j hj => h j (by simp [hj])
      have hle : (loss i).toNat ≤ (gain i).toNat := UInt64.le_iff_toNat_le.mp hi
      simp only [List.map_cons, exact_cons, UInt64.toNat_sub_of_le _ _ hi]
      omega

end WordSum
