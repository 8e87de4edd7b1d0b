import Mathlib.Algebra.BigOperators.Group.List.Basic
import Mathlib.Algebra.GroupWithZero.Nat
import Mathlib.Algebra.Order.Group.Nat

/-!
# Accounts settled by transfers

An account of every owner, and transfers that debit and credit accounts. Where no
transfer overdraws an account, what is left there is what it was credited, less
what it was debited.
-/

namespace Accounts

variable {κ : Type*}

structure Transfer (κ : Type*) where
  debit : κ → Nat
  credit : κ → Nat

namespace Transfer

/-- No account is overdrawn. -/
def Covered (t : Transfer κ) (accounts : κ → Nat) : Prop := ∀ k, t.debit k ≤ accounts k

def apply (t : Transfer κ) (accounts : κ → Nat) : κ → Nat :=
  fun k => accounts k - t.debit k + t.credit k

end Transfer

/-- Every transfer is covered in its turn. -/
def NeverOverdrawn : (κ → Nat) → List (Transfer κ) → Prop
  | _, [] => True
  | accounts, t :: rest => t.Covered accounts ∧ NeverOverdrawn (t.apply accounts) rest

def settle (accounts : κ → Nat) (ts : List (Transfer κ)) : κ → Nat :=
  ts.foldl (fun accounts t => t.apply accounts) accounts

def debited (ts : List (Transfer κ)) (k : κ) : Nat := (ts.map fun t => t.debit k).sum

def credited (ts : List (Transfer κ)) (k : κ) : Nat := (ts.map fun t => t.credit k).sum

@[simp] theorem settle_nil (accounts : κ → Nat) : settle accounts [] = accounts := rfl

@[simp] theorem settle_cons (accounts : κ → Nat) (t : Transfer κ) (ts : List (Transfer κ)) :
    settle accounts (t :: ts) = settle (t.apply accounts) ts := rfl

@[simp] theorem debited_nil (k : κ) : debited [] k = 0 := rfl

@[simp] theorem debited_cons (t : Transfer κ) (ts : List (Transfer κ)) (k : κ) :
    debited (t :: ts) k = t.debit k + debited ts k :=
  List.sum_cons

@[simp] theorem credited_nil (k : κ) : credited [] k = 0 := rfl

@[simp] theorem credited_cons (t : Transfer κ) (ts : List (Transfer κ)) (k : κ) :
    credited (t :: ts) k = t.credit k + credited ts k :=
  List.sum_cons

/-- What is left on an account. -/
theorem NeverOverdrawn.settle_add {accounts : κ → Nat} {ts : List (Transfer κ)}
    (h : NeverOverdrawn accounts ts) (k : κ) :
    settle accounts ts k + debited ts k = accounts k + credited ts k := by
  induction ts generalizing accounts with
  | nil => rfl
  | cons t rest ih =>
      have hcovered := h.1 k
      have hrest := ih h.2
      rw [settle_cons, debited_cons, credited_cons]
      simp only [Transfer.apply] at hrest ⊢
      omega

end Accounts
