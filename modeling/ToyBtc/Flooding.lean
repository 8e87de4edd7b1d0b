import ToyBtc.Growth
import Mathlib.Algebra.BigOperators.Group.Finset.Basic
import Mathlib.Algebra.Order.BigOperators.Group.Finset
import Mathlib.Data.Finset.Card
import Mathlib.Data.List.Infix
import Mathlib.Logic.Relation

/-!
# Append-only logs flooded over ordered links

Every node keeps a log, to which it appends an item where the item may follow.
It passes on what it appends, over links that keep the order, and what may not
follow when it arrives is dropped for good. On a link without anything under
way, the target is then never behind the source: its log is the same, or the
two have parted for good.

## Implementation notes

A step is given by what it does to the logs and to each link that is still
there, so that links may be cut at any step. A link may be left out when an
item is passed on if that leaves its target not behind, for instance because the
target has the item.
-/

namespace Flooding

open Growth

variable {ι lam α : Type*}

/-- A link with the items under way on it. -/
structure Link (ι α : Type*) where
  source : ι
  target : ι
  queue : List α

structure State (ι lam α : Type*) where
  log : ι → List α
  link : lam → Option (Link ι α)

/-- A proper prefix. -/
def Behind (l l' : List α) : Prop := l <+: l' ∧ l ≠ l'

instance [DecidableEq α] (l l' : List α) : Decidable (Behind l l') :=
  inferInstanceAs (Decidable (_ ∧ _))

/-- Neither log is a prefix of the other. -/
def Parted (l l' : List α) : Prop := ¬ l <+: l' ∧ ¬ l' <+: l

instance [DecidableEq α] (l l' : List α) : Decidable (Parted l l') :=
  inferInstanceAs (Decidable (_ ∧ _))

/-- Who has the item that comes next is not behind with it. -/
theorem not_behind_concat {l l' : List α} {x : α} (hx : x ∈ l) (hnew : x ∉ l') :
    ¬ Behind l (l' ++ [x]) := by
  rintro ⟨hpre, hne⟩
  rcases List.prefix_concat_iff.mp hpre with heq | hpre
  · exact hne heq
  · exact hnew (hpre.subset hx)

/-- Logs that have parted do not meet again however they grow. -/
theorem Parted.grow {l l' m m' : List α} (h : Parted l l') (hl : l <+: m) (hl' : l' <+: m') :
    Parted m m' := by
  constructor
  · intro hpre
    rcases List.prefix_or_prefix_of_prefix (hl.trans hpre) hl' with hle | hle
    · exact h.1 hle
    · exact h.2 hle
  · intro hpre
    rcases List.prefix_or_prefix_of_prefix hl (hl'.trans hpre) with hle | hle
    · exact h.1 hle
    · exact h.2 hle

variable (Follows : List α → α → Prop)

/-- A change of links that keeps their ends, and after which each queue has `Q`. -/
def State.Relinks (s t : State ι lam α) (Q : Link ι α → List α → Prop) : Prop :=
  ∀ ℓ k', t.link ℓ = some k' →
    ∃ k, s.link ℓ = some k ∧ k'.source = k.source ∧ k'.target = k.target ∧ Q k k'.queue

/-- What can happen. -/
inductive Step [DecidableEq ι] (s t : State ι lam α) : Prop
  /-- A node appends an item and passes it on, but for links to nodes that are not
  behind with it. -/
  | append (i : ι) (x : α) (follows : Follows (s.log i) x)
      (log : t.log = Function.update s.log i (s.log i ++ [x]))
      (links : s.Relinks t fun k queue =>
        (k.source = i ∧ queue = k.queue ++ [x]) ∨
          (queue = k.queue ∧ (k.source = i → ¬ Behind (s.log k.target) (s.log i ++ [x]))))
  /-- Items that may not follow are dropped. -/
  | drop (log : t.log = s.log)
      (links : s.Relinks t fun k queue =>
        queue = k.queue ∨ ∃ x, k.queue = x :: queue ∧ ¬ Follows (s.log k.target) x)
  /-- Links are opened to nodes that are not behind. -/
  | connect (log : t.log = s.log)
      (links : ∀ ℓ k, t.link ℓ = some k →
        s.link ℓ = some k ∨ (k.queue = [] ∧ ¬ Behind (s.log k.target) (s.log k.source)))

/-- The logs have grown by items that may follow, what is under way has been
appended by the source, and what the target lacks is under way. -/
structure Invariant (s : State ι lam α) : Prop where
  grown : ∀ i, Grown Follows (s.log i)
  sent : ∀ ℓ k, s.link ℓ = some k → ∀ x ∈ k.queue, x ∈ s.log k.source
  carries : ∀ ℓ k, s.link ℓ = some k → s.log k.target <+: s.log k.source →
    ((s.log k.source).drop (s.log k.target).length).Sublist k.queue

variable {Follows}

/-- What a target that is behind lacks next may follow its log. -/
theorem follows_next {l l' : List α} (h : Grown Follows l') {x : α} {rest : List α}
    (hdrop : l <+: l') (hnext : l'.drop l.length = x :: rest) : Follows l x := by
  obtain ⟨rest', rfl⟩ := hdrop
  rw [List.drop_left] at hnext
  rw [hnext] at h
  exact h.of_split

section Step

variable {s t : State ι lam α}

theorem Invariant.append [DecidableEq ι] (inv : Invariant Follows s) {i : ι} {x : α}
    (follows : Follows (s.log i) x)
    (log : t.log = Function.update s.log i (s.log i ++ [x]))
    (links : s.Relinks t fun k queue =>
      (k.source = i ∧ queue = k.queue ++ [x]) ∨
        (queue = k.queue ∧ (k.source = i → ¬ Behind (s.log k.target) (s.log i ++ [x])))) :
    Invariant Follows t := by
  have hself : t.log i = s.log i ++ [x] := by rw [log, Function.update_self]
  have hother : ∀ j, j ≠ i → t.log j = s.log j := fun j hj => by
    rw [log, Function.update_of_ne hj]
  have hgrows : ∀ j, s.log j <+: t.log j := by
    intro j
    by_cases hj : j = i
    · rw [hj, hself]
      exact List.prefix_append _ _
    · rw [hother j hj]
  refine ⟨fun j => ?_, fun ℓ k' hk' y hy => ?_, fun ℓ k' hk' hpre => ?_⟩
  · by_cases hj : j = i
    · rw [hj, hself]
      exact (inv.grown i).concat follows
    · rw [hother j hj]
      exact inv.grown j
  · obtain ⟨k, hk, hsource, -, hqueue⟩ := links ℓ k' hk'
    rw [hsource]
    rcases hqueue with ⟨hi, hqueue⟩ | ⟨hqueue, -⟩
    · rw [hqueue] at hy
      rcases List.mem_append.mp hy with hold | hnew
      · exact (hgrows k.source).subset (inv.sent ℓ k hk y hold)
      · rw [hi, hself]
        exact List.mem_append_right _ hnew
    · rw [hqueue] at hy
      exact (hgrows k.source).subset (inv.sent ℓ k hk y hy)
  · obtain ⟨k, hk, hsource, htarget, hqueue⟩ := links ℓ k' hk'
    rw [hsource, htarget] at hpre ⊢
    by_cases hi : k.source = i
    · rw [hi, hself] at hpre ⊢
      rcases List.prefix_concat_iff.mp hpre with hall | hpre'
      · -- the target is abreast
        rw [hall, List.drop_length]
        exact List.nil_sublist _
      · -- the target was abreast or behind, and now lacks the item as well
        have hbehind : s.log k.target <+: s.log k.source := by
          rw [hi]
          exact (hgrows k.target).trans hpre'
        have hcarries := inv.carries ℓ k hk hbehind
        have hsame : t.log k.target = s.log k.target := by
          apply hother
          intro htargeti
          rw [htargeti, hself] at hpre'
          simpa using hpre'.length_le
        rcases hqueue with ⟨-, hqueue⟩ | ⟨-, habreast⟩
        · rw [hsame] at hpre' ⊢
          rw [hqueue, List.drop_append_of_le_length hpre'.length_le, ← hi]
          exact hcarries.append_right [x]
        · refine absurd ⟨hsame ▸ hpre, fun heq => ?_⟩ (habreast hi)
          rw [hsame, heq] at hpre'
          simpa using hpre'.length_le
    · rw [hother k.source hi] at hpre ⊢
      have hqueue' : k'.queue = k.queue := by
        rcases hqueue with ⟨hi', -⟩ | ⟨hqueue, -⟩
        · exact absurd hi' hi
        · exact hqueue
      rw [hqueue']
      have hle : (s.log k.target).length ≤ (t.log k.target).length := (hgrows k.target).length_le
      exact (List.drop_sublist_drop_left _ hle).trans
        (inv.carries ℓ k hk ((hgrows k.target).trans hpre))

theorem Invariant.drop (inv : Invariant Follows s) (log : t.log = s.log)
    (links : s.Relinks t fun k queue =>
      queue = k.queue ∨ ∃ x, k.queue = x :: queue ∧ ¬ Follows (s.log k.target) x) :
    Invariant Follows t := by
  refine ⟨fun j => log ▸ inv.grown j, fun ℓ k' hk' y hy => ?_, fun ℓ k' hk' hpre => ?_⟩
  · obtain ⟨k, hk, hsource, -, hqueue⟩ := links ℓ k' hk'
    rw [log, hsource]
    apply inv.sent ℓ k hk y
    rcases hqueue with hqueue | ⟨x, hqueue, -⟩
    · exact hqueue ▸ hy
    · exact hqueue ▸ List.mem_cons_of_mem x hy
  · obtain ⟨k, hk, hsource, htarget, hqueue⟩ := links ℓ k' hk'
    rw [log, hsource, htarget] at hpre ⊢
    have hcarries := inv.carries ℓ k hk hpre
    rcases hqueue with hqueue | ⟨x, hqueue, hrefused⟩
    · exact hqueue ▸ hcarries
    · rw [hqueue] at hcarries
      cases hlacks : (s.log k.source).drop (s.log k.target).length with
      | nil => exact List.nil_sublist _
      | cons y rest =>
          rw [hlacks] at hcarries
          have hfollows := follows_next (inv.grown k.source) hpre hlacks
          rcases List.cons_sublist_cons'.mp hcarries with hskip | ⟨rfl, -⟩
          · exact hskip
          · exact absurd hfollows hrefused

theorem Invariant.connect (inv : Invariant Follows s) (log : t.log = s.log)
    (links : ∀ ℓ k, t.link ℓ = some k →
      s.link ℓ = some k ∨ (k.queue = [] ∧ ¬ Behind (s.log k.target) (s.log k.source))) :
    Invariant Follows t := by
  refine ⟨fun j => log ▸ inv.grown j, fun ℓ k hk y hy => ?_, fun ℓ k hk hpre => ?_⟩
  · rw [log]
    rcases links ℓ k hk with hold | ⟨hempty, -⟩
    · exact inv.sent ℓ k hold y hy
    · rw [hempty] at hy
      cases hy
  · rw [log] at hpre ⊢
    rcases links ℓ k hk with hold | ⟨-, habreast⟩
    · exact inv.carries ℓ k hold hpre
    · have hsame : s.log k.target = s.log k.source := by
        by_contra hne
        exact habreast ⟨hpre, hne⟩
      rw [hsame, List.drop_length]
      exact List.nil_sublist _

theorem Invariant.step [DecidableEq ι] (inv : Invariant Follows s) (step : Step Follows s t) :
    Invariant Follows t := by
  cases step with
  | append i x follows log links => exact inv.append follows log links
  | drop log links => exact inv.drop log links
  | connect log links => exact inv.connect log links

end Step

section Potential

variable [Fintype ι] [DecidableEq α]

/-- The items that some node has. -/
def State.known (s : State ι lam α) : Finset α := Finset.univ.biUnion fun i => (s.log i).toFinset

/-- The items that other nodes have. -/
def State.missing (s : State ι lam α) (i : ι) : Finset α := s.known \ (s.log i).toFinset

def State.underWay (s : State ι lam α) (ℓ : lam) : Nat :=
  match s.link ℓ with
  | some k => k.queue.length
  | none => 0

/-- The items under way on the listed links, and those that will be when every node
has passed on all it still lacks. -/
def State.potential (links : Finset lam) (s : State ι lam α) : Nat :=
  ∑ ℓ ∈ links, s.underWay ℓ + links.card * ∑ i, (s.missing i).card

theorem State.mem_known {s : State ι lam α} {x : α} : x ∈ s.known ↔ ∃ i, x ∈ s.log i := by
  simp [known]

omit [Fintype ι] [DecidableEq α] in
theorem State.Relinks.underWay_le {s t : State ι lam α} {Q : Link ι α → List α → Prop} {n : Nat}
    (links : s.Relinks t Q) (h : ∀ k queue, Q k queue → queue.length ≤ k.queue.length + n)
    (ℓ : lam) : t.underWay ℓ ≤ s.underWay ℓ + n := by
  unfold underWay
  cases hk' : t.link ℓ with
  | none => exact Nat.zero_le _
  | some k' =>
      obtain ⟨k, hk, -, -, hq⟩ := links ℓ k' hk'
      rw [hk]
      exact h k _ hq

variable {s t : State ι lam α}

/-- A node that appends what others have lacks one item less. -/
theorem sum_missing_append [DecidableEq ι] {i : ι} {x : α} (known : x ∈ s.known)
    (hnew : x ∉ s.log i) (log : t.log = Function.update s.log i (s.log i ++ [x])) :
    ∑ j, (t.missing j).card + 1 = ∑ j, (s.missing j).card := by
  have hsame : t.known = s.known := by
    ext y
    rw [State.mem_known, State.mem_known, log]
    constructor
    · rintro ⟨j, hy⟩
      by_cases hj : j = i
      · subst hj
        rw [Function.update_self] at hy
        rcases List.mem_append.mp hy with hold | hnew
        · exact ⟨j, hold⟩
        · rw [List.mem_singleton.mp hnew]
          exact State.mem_known.mp known
      · rw [Function.update_of_ne hj] at hy
        exact ⟨j, hy⟩
    · rintro ⟨j, hy⟩
      refine ⟨j, ?_⟩
      by_cases hj : j = i
      · subst hj
        rw [Function.update_self]
        exact List.mem_append_left _ hy
      · rw [Function.update_of_ne hj]
        exact hy
  have hself : t.missing i = (s.missing i).erase x := by
    ext y
    simp only [State.missing, hsame, log, Function.update_self, Finset.mem_sdiff,
      List.mem_toFinset, List.mem_append, List.mem_singleton, Finset.mem_erase]
    tauto
  have hmem : x ∈ s.missing i := by
    simp [State.missing, known, hnew]
  have hother : ∀ j ∈ Finset.univ.erase i, (t.missing j).card = (s.missing j).card := by
    intro j hj
    rw [State.missing, State.missing, hsame, log, Function.update_of_ne (Finset.ne_of_mem_erase hj)]
  rw [← Finset.add_sum_erase _ _ (Finset.mem_univ i),
    ← Finset.add_sum_erase _ (fun j => (s.missing j).card) (Finset.mem_univ i),
    Finset.sum_congr rfl hother, hself, Finset.card_erase_of_mem hmem]
  have hpos : 0 < (s.missing i).card := Finset.card_pos.mpr ⟨x, hmem⟩
  omega

/-- Passing on what others have is paid for by the item that the node no longer lacks. -/
theorem potential_append [DecidableEq ι] (links : Finset lam) {i : ι} {x : α}
    (known : x ∈ s.known) (hnew : x ∉ s.log i)
    (log : t.log = Function.update s.log i (s.log i ++ [x]))
    (hqueues : ∀ ℓ, t.underWay ℓ ≤ s.underWay ℓ + 1) :
    t.potential links ≤ s.potential links := by
  have hsum : ∑ ℓ ∈ links, t.underWay ℓ ≤ ∑ ℓ ∈ links, s.underWay ℓ + links.card := by
    calc
      ∑ ℓ ∈ links, t.underWay ℓ ≤ ∑ ℓ ∈ links, (s.underWay ℓ + 1) :=
        Finset.sum_le_sum fun ℓ _ => hqueues ℓ
      _ = ∑ ℓ ∈ links, s.underWay ℓ + links.card := by
        rw [Finset.sum_add_distrib, ← Finset.card_eq_sum_ones]
  have hmissing := sum_missing_append known hnew log
  unfold State.potential
  rw [← hmissing, Nat.mul_add, Nat.mul_one]
  omega

/-- Where the logs stay and no queue grows, no potential is added. -/
theorem potential_le (links : Finset lam) (log : t.log = s.log)
    (hqueues : ∀ ℓ ∈ links, t.underWay ℓ ≤ s.underWay ℓ) :
    t.potential links ≤ s.potential links := by
  have hsum := Finset.sum_le_sum hqueues
  unfold State.potential State.missing State.known
  rw [log]
  omega

/-- Where moreover an item is taken off a link, the potential drops. -/
theorem potential_lt (links : Finset lam) (log : t.log = s.log)
    (hqueues : ∀ ℓ ∈ links, t.underWay ℓ ≤ s.underWay ℓ) {ℓ : lam} (hℓ : ℓ ∈ links)
    (hshorter : t.underWay ℓ < s.underWay ℓ) : t.potential links < s.potential links := by
  have hsum := Finset.sum_lt_sum hqueues ⟨ℓ, hℓ, hshorter⟩
  unfold State.potential State.missing State.known
  rw [log]
  omega

end Potential

end Flooding
