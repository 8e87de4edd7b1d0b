import Mathlib.Algebra.Group.Nat.Defs
import Mathlib.Data.List.Basic
import Mathlib.Data.Nat.Log
import Mathlib.Data.Set.Function
import Mathlib.Logic.Function.Iterate

/-!
# Trees built by pairing neighbours

A list is reduced layer by layer: neighbours are combined, and a last element
without a neighbour is combined with itself. In the completed list everything
that a layer uses twice is written twice. Where the combination is injective,
the top of the tree determines the completed list.
-/

namespace PairTree

universe u

variable {α β : Type u}

/-- Neighbours in pairs. A last element without a neighbour is paired with itself. -/
def pairUp : List α → List (α × α)
  | [] => []
  | [x] => [(x, x)]
  | x :: y :: rest => (x, y) :: pairUp rest

def unpair (ps : List (α × α)) : List α := ps.flatMap fun p => [p.1, p.2]

/-- The next layer of the tree. -/
def layer (f : α → α → α) (l : List α) : List α := (pairUp l).map fun p => f p.1 p.2

/-- The leaves of the full tree of depth `d` whose layers are those of `l`. -/
def complete : (d : Nat) → {α : Type u} → List α → List α
  | 0, _, l => l
  | d + 1, _, l => unpair (complete d (pairUp l))

@[simp] theorem complete_zero (l : List α) : complete 0 l = l := rfl

@[simp] theorem complete_succ (d : Nat) (l : List α) :
    complete (d + 1) l = unpair (complete d (pairUp l)) := rfl

@[simp] theorem unpair_nil : unpair ([] : List (α × α)) = [] := rfl

@[simp] theorem unpair_cons (p : α × α) (ps : List (α × α)) :
    unpair (p :: ps) = p.1 :: p.2 :: unpair ps := rfl

theorem mem_unpair {ps : List (α × α)} {x : α} :
    x ∈ unpair ps ↔ ∃ p ∈ ps, x = p.1 ∨ x = p.2 := by
  simp [unpair]

theorem length_pairUp (l : List α) : (pairUp l).length = (l.length + 1) / 2 := by
  induction l using pairUp.induct with
  | case1 => simp [pairUp]
  | case2 x => simp [pairUp]
  | case3 x y rest ih =>
      simp only [pairUp, List.length_cons, ih]
      omega

theorem mem_of_mem_pairUp {l : List α} {p : α × α} (h : p ∈ pairUp l) : p.1 ∈ l ∧ p.2 ∈ l := by
  induction l using pairUp.induct with
  | case1 => simp [pairUp] at h
  | case2 x =>
      obtain rfl := List.mem_singleton.mp h
      simp
  | case3 x y rest ih =>
      rcases List.mem_cons.mp h with rfl | h
      · simp
      · obtain ⟨h1, h2⟩ := ih h
        simp [h1, h2]

theorem map_pairUp (g : α → β) (l : List α) :
    pairUp (l.map g) = (pairUp l).map (Prod.map g g) := by
  induction l using pairUp.induct with
  | case1 => rfl
  | case2 x => rfl
  | case3 x y rest ih => simp [pairUp, ih]

theorem map_unpair (g : α → β) (ps : List (α × α)) :
    (unpair ps).map g = unpair (ps.map (Prod.map g g)) := by
  induction ps with
  | nil => rfl
  | cons p rest ih => simp [ih]

theorem map_complete (d : Nat) (g : α → β) (l : List α) :
    complete d (l.map g) = (complete d l).map g := by
  induction d generalizing α β with
  | zero => rfl
  | succ d ih => rw [complete_succ, map_pairUp, ih, complete_succ, map_unpair]

theorem mem_of_mem_complete {d : Nat} {l : List α} {x : α} (h : x ∈ complete d l) : x ∈ l := by
  induction d generalizing α with
  | zero => exact h
  | succ d ih =>
      obtain ⟨p, hp, hx⟩ := mem_unpair.mp h
      obtain ⟨h1, h2⟩ := mem_of_mem_pairUp (ih hp)
      rcases hx with rfl | rfl
      · exact h1
      · exact h2

theorem prefix_unpair_pairUp (l : List α) : l <+: unpair (pairUp l) := by
  induction l using pairUp.induct with
  | case1 => exact List.prefix_rfl
  | case2 x => exact ⟨[x], rfl⟩
  | case3 x y rest ih => simpa [pairUp] using ih

theorem unpair_isPrefix {ps qs : List (α × α)} (h : ps <+: qs) : unpair ps <+: unpair qs := by
  obtain ⟨rest, rfl⟩ := h
  exact ⟨unpair rest, by simp [unpair]⟩

/-- A list is where its completion starts. -/
theorem prefix_complete (d : Nat) (l : List α) : l <+: complete d l := by
  induction d generalizing α with
  | zero => exact List.prefix_rfl
  | succ d ih => exact (prefix_unpair_pairUp l).trans (unpair_isPrefix (ih (pairUp l)))

/-- No completion to a tree that `l` needs repeats the first element. -/
theorem mem_tail_of_complete {d : Nat} {x : α} {rest : List α}
    (hd : 2 ^ d < 2 * (rest.length + 1)) :
    ∃ more, complete d (x :: rest) = x :: more ∧ ∀ y ∈ more, y ∈ rest := by
  induction d generalizing α with
  | zero => exact ⟨rest, rfl, fun y hy => hy⟩
  | succ d ih =>
      cases rest with
      | nil =>
          have hpos := Nat.two_pow_pos d
          rw [Nat.pow_succ, List.length_nil] at hd
          omega
      | cons y rest =>
          have hlen : 2 ^ d < 2 * ((pairUp rest).length + 1) := by
            rw [length_pairUp]
            rw [Nat.pow_succ, List.length_cons] at hd
            omega
          have hpairs : ∃ more, complete d ((x, y) :: pairUp rest) = (x, y) :: more ∧
              ∀ p ∈ more, p ∈ pairUp rest := ih hlen
          obtain ⟨more, hmore, hmem⟩ := hpairs
          refine ⟨y :: unpair more, by rw [complete_succ, pairUp, hmore, unpair_cons], ?_⟩
          intro z hz
          rcases List.mem_cons.mp hz with rfl | hz
          · exact List.mem_cons_self
          · obtain ⟨p, hp, hz⟩ := mem_unpair.mp hz
            obtain ⟨h1, h2⟩ := mem_of_mem_pairUp (hmem p hp)
            rcases hz with rfl | rfl
            · exact List.mem_cons_of_mem _ h1
            · exact List.mem_cons_of_mem _ h2

/-- Writing the last element of an odd list twice does not change its pairs. -/
theorem pairUp_repeat_last {l : List α} (heven : l.length % 2 = 0) (x : α) :
    pairUp (l ++ [x, x]) = pairUp (l ++ [x]) := by
  induction l using pairUp.induct with
  | case1 => rfl
  | case2 y => simp at heven
  | case3 y z rest ih =>
      have hrest : rest.length % 2 = 0 := by
        rw [List.length_cons, List.length_cons] at heven
        omega
      simp only [List.cons_append, pairUp, ih hrest]

/-- A map that is injective on the elements of two lists is injective on the lists. -/
theorem map_inj_on {g : α → β} {l l' : List α}
    (hg : ∀ x ∈ l, ∀ y ∈ l', g x = g y → x = y) (h : l.map g = l'.map g) : l = l' := by
  induction l generalizing l' with
  | nil => exact (List.map_eq_nil_iff.mp h.symm).symm
  | cons x rest ih =>
      cases l' with
      | nil => cases h
      | cons y rest' =>
          obtain ⟨hhead, htail⟩ := List.cons.inj h
          rw [hg x (by simp) y (by simp) hhead,
            ih (fun a ha b hb => hg a (by simp [ha]) b (by simp [hb])) htail]

/-- The pairs that the first `d` layers over `l` combine. -/
def Combines (f : α → α → α) (d : Nat) (l : List α) (p : α × α) : Prop :=
  ∃ k < d, p ∈ pairUp ((layer f)^[k] l)

theorem Combines.of_layer {f : α → α → α} {d : Nat} {l : List α} {p : α × α}
    (h : Combines f d (layer f l) p) : Combines f (d + 1) l p := by
  obtain ⟨k, hk, hp⟩ := h
  exact ⟨k + 1, Nat.succ_lt_succ hk, by rwa [Function.iterate_succ_apply]⟩

/-- Equal layers at depth `d` come from equal completions, if the pairs combined
on the way are told apart. -/
theorem complete_eq_of_layers_eq {f : α → α → α} {d : Nat} {l l' : List α}
    (hf : ∀ p q, Combines f d l p → Combines f d l' q → f p.1 p.2 = f q.1 q.2 → p = q)
    (h : (layer f)^[d] l = (layer f)^[d] l') : complete d l = complete d l' := by
  induction d generalizing l l' with
  | zero => exact h
  | succ d ih =>
      rw [Function.iterate_succ_apply, Function.iterate_succ_apply] at h
      have hlayers := ih (fun p q hp hq => hf p q hp.of_layer hq.of_layer) h
      rw [layer, layer, map_complete, map_complete] at hlayers
      rw [complete_succ, complete_succ]
      refine congrArg unpair (map_inj_on (fun p hp q hq => ?_) hlayers)
      exact hf p q ⟨0, Nat.succ_pos d, mem_of_mem_complete hp⟩
        ⟨0, Nat.succ_pos d, mem_of_mem_complete hq⟩

/-- The rounds it takes to reduce a list of `n` elements to one. -/
def depth (n : Nat) : Nat := Nat.clog 2 n

theorem depth_of_two_le {n : Nat} (h : 2 ≤ n) : depth n = depth ((n + 1) / 2) + 1 :=
  Nat.clog_of_two_le (by decide) h

/-- Before the last round more than one element is left. -/
theorem one_lt_iterate_half {n k : Nat} (hk : k < depth n) :
    1 < (fun m => (m + 1) / 2)^[k] n := by
  induction k generalizing n with
  | zero =>
      rw [Function.iterate_zero_apply]
      by_contra hle
      rw [depth, Nat.clog_of_right_le_one (not_lt.mp hle)] at hk
      exact Nat.not_lt_zero _ hk
  | succ k ih =>
      have hn : 2 ≤ n := by
        by_contra hlt
        rw [depth, Nat.clog_of_right_le_one (by omega)] at hk
        exact Nat.not_lt_zero _ hk
      rw [Function.iterate_succ_apply]
      apply ih
      rw [depth_of_two_le hn] at hk
      exact Nat.lt_of_succ_lt_succ hk

theorem two_pow_depth_lt {n : Nat} (h : 0 < n) : 2 ^ depth n < 2 * n := by
  rcases Nat.lt_or_ge 1 n with hn | hn
  · have hpred := Nat.pow_pred_clog_lt_self (b := 2) (by decide) hn
    have hpos : 0 < depth n := Nat.clog_pos (by decide) hn
    have hsucc : depth n = (depth n).pred.succ := (Nat.succ_pred_eq_of_pos hpos).symm
    calc
      2 ^ depth n = 2 ^ (depth n).pred * 2 := by rw [← Nat.pow_succ, ← hsucc]
      _ < n * 2 := Nat.mul_lt_mul_of_pos_right hpred (by decide)
      _ = 2 * n := Nat.mul_comm n 2
  · obtain rfl : n = 1 := le_antisymm hn h
    simp [depth]

end PairTree
