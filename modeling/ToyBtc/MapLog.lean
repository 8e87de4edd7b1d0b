import Mathlib.Data.Finmap
import Mathlib.Algebra.BigOperators.Group.Finset.Basic
import Mathlib.Algebra.GroupWithZero.Nat
import Mathlib.Algebra.Order.BigOperators.Group.Finset

/-!
# Logs of edits on a finite map

A log is a list of erasures and insertions, replayed from left to right. What
a replay leaves at a key is decided by the last edit of that key alone, so a
log can be replayed again on top of its own result, and a key that is live
after a log was inserted after its last erasure.

## Implementation notes

`final` keeps three answers apart: an untouched key is `none`, an erased one
is `some none`, and an inserted one is `some (some v)`.
-/

namespace MapLog

variable {κ ν μ : Type*} [DecidableEq κ]

/-- One edit of a keyed store. -/
inductive Edit (κ ν : Type*)
  | erase (k : κ)
  | insert (k : κ) (v : ν)

namespace Edit

def key : Edit κ ν → κ
  | erase k => k
  | insert k _ => k

/-- The value an edit leaves at its key. -/
def left : Edit κ ν → Option ν
  | erase _ => none
  | insert _ v => some v

def apply (m : Finmap fun _ : κ => ν) : Edit κ ν → Finmap fun _ : κ => ν
  | erase k => m.erase k
  | insert k v => m.insert k v

theorem lookup_apply (m : Finmap fun _ : κ => ν) (e : Edit κ ν) (k : κ) :
    (apply m e).lookup k = if e.key = k then e.left else m.lookup k := by
  cases e with
  | erase j =>
      by_cases h : j = k
      · subst h; simp [apply, key, left]
      · simp [apply, key, h, Finmap.lookup_erase_ne (Ne.symm h)]
  | insert j v =>
      by_cases h : j = k
      · subst h; simp [apply, key, left]
      · simp [apply, key, h, Finmap.lookup_insert_of_ne _ (Ne.symm h)]

end Edit

/-- Apply every edit, the first one first. -/
def replay (log : List (Edit κ ν)) (m : Finmap fun _ : κ => ν) : Finmap fun _ : κ => ν :=
  log.foldl Edit.apply m

@[simp] theorem replay_nil (m : Finmap fun _ : κ => ν) : replay [] m = m := rfl

@[simp] theorem replay_cons (e : Edit κ ν) (log : List (Edit κ ν))
    (m : Finmap fun _ : κ => ν) : replay (e :: log) m = replay log (e.apply m) := rfl

theorem replay_append (log log' : List (Edit κ ν)) (m : Finmap fun _ : κ => ν) :
    replay (log ++ log') m = replay log' (replay log m) :=
  List.foldl_append

/-- What the last edit of `k` leaves there, if the log touches `k`. -/
def final (k : κ) : List (Edit κ ν) → Option (Option ν)
  | [] => none
  | e :: log => (final k log).orElse fun _ => if e.key = k then some e.left else none

/-- The keys a log touches. -/
def keys (log : List (Edit κ ν)) : Finset κ := (log.map Edit.key).toFinset

@[simp] theorem keys_nil : keys ([] : List (Edit κ ν)) = ∅ := rfl

@[simp] theorem keys_cons (e : Edit κ ν) (log : List (Edit κ ν)) :
    keys (e :: log) = insert e.key (keys log) := by
  simp [keys]

theorem mem_keys {k : κ} {log : List (Edit κ ν)} :
    k ∈ keys log ↔ ∃ e ∈ log, e.key = k := by
  simp [keys]

theorem final_eq_none_iff {k : κ} {log : List (Edit κ ν)} :
    final k log = none ↔ k ∉ keys log := by
  induction log with
  | nil => simp [final]
  | cons e log ih =>
      rw [keys_cons, Finset.mem_insert, not_or, ← ih, final]
      cases final k log with
      | none => by_cases h : e.key = k <;> simp [h, @eq_comm κ k]
      | some left => simp

/-- The last edit of a key decides what a replay leaves there. -/
theorem lookup_replay (log : List (Edit κ ν)) (m : Finmap fun _ : κ => ν) (k : κ) :
    (replay log m).lookup k = (final k log).getD (m.lookup k) := by
  induction log generalizing m with
  | nil => simp [final]
  | cons e log ih =>
      rw [replay_cons, ih, Edit.lookup_apply, final]
      cases final k log with
      | none => by_cases h : e.key = k <;> simp [h]
      | some left => simp

/-- Stores that agree through `f` still agree through `f` after the same log. -/
theorem replay_agree (f : ν → μ) (log : List (Edit κ ν)) {m m' : Finmap fun _ : κ => ν}
    (h : ∀ k, (m.lookup k).map f = (m'.lookup k).map f) (k : κ) :
    ((replay log m).lookup k).map f = ((replay log m').lookup k).map f := by
  rw [lookup_replay, lookup_replay]
  cases final k log with
  | none => simpa using h k
  | some left => rfl

/-- Every key of the store is touched by the log. -/
def Covers (log : List (Edit κ ν)) (m : Finmap fun _ : κ => ν) : Prop :=
  ∀ k ∈ m, k ∈ keys log

/-- Replaying on top of keys that the log rewrites anyway equals replaying from nothing. -/
theorem replay_eq_of_covers {log : List (Edit κ ν)} {m : Finmap fun _ : κ => ν}
    (h : Covers log m) : replay log m = replay log ∅ := by
  apply Finmap.ext_lookup
  intro k
  rw [lookup_replay, lookup_replay]
  cases hf : final k log with
  | none =>
      have hk : k ∉ m := fun hm => final_eq_none_iff.mp hf (h k hm)
      simp [Finmap.lookup_eq_none.mpr hk]
  | some left => rfl

/-- A live key was inserted by the log with the value found there. -/
theorem insert_mem_of_final {k : κ} {v : ν} {log : List (Edit κ ν)}
    (h : final k log = some (some v)) : Edit.insert k v ∈ log := by
  induction log with
  | nil => simp [final] at h
  | cons e log ih =>
      rw [final] at h
      cases hf : final k log with
      | none =>
          rw [hf] at h
          have hk : e.key = k := by
            by_contra hne
            simp [hne] at h
          have hv : e.left = some v := by simpa [hk] using h
          cases e with
          | erase j => cases hv
          | insert j w =>
              cases hk
              cases hv
              exact List.mem_cons_self
      | some left =>
          rw [hf] at h
          exact List.mem_cons_of_mem _ (ih (hf.trans h))

/-- A value found after a replay was there before, or the log inserted it. -/
theorem mem_of_lookup_replay {k : κ} {v : ν} {log : List (Edit κ ν)}
    {m : Finmap fun _ : κ => ν} (h : (replay log m).lookup k = some v) :
    m.lookup k = some v ∨ Edit.insert k v ∈ log := by
  rw [lookup_replay] at h
  cases hf : final k log with
  | none => exact Or.inl (by simpa [hf] using h)
  | some left =>
      rw [hf] at h
      exact Or.inr (insert_mem_of_final (hf.trans (congrArg some h)))

theorem insert_mem_of_lookup_replay {k : κ} {v : ν} {log : List (Edit κ ν)}
    (h : (replay log ∅).lookup k = some v) : Edit.insert k v ∈ log := by
  rcases mem_of_lookup_replay h with hempty | hlog
  · simp at hempty
  · exact hlog

/-- The keys a log inserts, in order and with repetitions. -/
def insertedKeys (log : List (Edit κ ν)) : List κ :=
  log.filterMap fun
    | .erase _ => none
    | .insert k _ => some k

omit [DecidableEq κ] in
@[simp] theorem insertedKeys_append (log log' : List (Edit κ ν)) :
    insertedKeys (log ++ log') = insertedKeys log ++ insertedKeys log' :=
  List.filterMap_append

omit [DecidableEq κ] in
theorem mem_insertedKeys {k : κ} {v : ν} {log : List (Edit κ ν)} (h : Edit.insert k v ∈ log) :
    k ∈ insertedKeys log :=
  List.mem_filterMap.mpr ⟨.insert k v, h, rfl⟩

omit [DecidableEq κ] in
/-- Of a key that is inserted once, the log holds one insertion. -/
theorem insert_notMem_of_nodup {k : κ} {v w : ν} {log log' : List (Edit κ ν)}
    (hnodup : (insertedKeys (log ++ Edit.insert k v :: log')).Nodup) : Edit.insert k w ∉ log := by
  intro hmem
  rw [insertedKeys_append, List.nodup_append] at hnodup
  exact hnodup.2.2 k (mem_insertedKeys hmem) k (mem_insertedKeys (v := v) (by simp)) rfl

theorem covers_replay_empty (log log' : List (Edit κ ν)) :
    Covers (log ++ log') (replay log ∅) := by
  intro k hk
  obtain ⟨v, hv⟩ := Finmap.mem_iff.mp hk
  exact mem_keys.mpr
    ⟨.insert k v, List.mem_append_left _ (insert_mem_of_lookup_replay hv), rfl⟩

/-- A live key stays live until it is erased. -/
theorem mem_replay_of_mem {k : κ} {log : List (Edit κ ν)} {m : Finmap fun _ : κ => ν}
    (hm : k ∈ m) (hlog : Edit.erase k ∉ log) : k ∈ replay log m := by
  induction log generalizing m with
  | nil => exact hm
  | cons e log ih =>
      rw [List.mem_cons, not_or] at hlog
      apply ih _ hlog.2
      cases e with
      | erase j => exact Finmap.mem_erase.mpr ⟨fun h => hlog.1 (congrArg Edit.erase h), hm⟩
      | insert j v => exact Finmap.mem_insert.mpr (Or.inr hm)

/-- A key erased and live again later has been inserted in between. -/
theorem exists_insert_of_live {k : κ} {log log' : List (Edit κ ν)}
    (h : k ∈ replay (log ++ Edit.erase k :: log') ∅) : ∃ v, Edit.insert k v ∈ log' := by
  obtain ⟨v, hv⟩ := Finmap.mem_iff.mp h
  rw [replay_append, replay_cons, lookup_replay, Edit.lookup_apply] at hv
  cases hf : final k log' with
  | none => simp [hf, Edit.key, Edit.left] at hv
  | some left =>
      rw [hf] at hv
      exact ⟨v, insert_mem_of_final (hf.trans (congrArg some hv))⟩

section Total

variable (f : ν → Nat)

/-- The measure held at one key, zero where nothing is stored. -/
def held (m : Finmap fun _ : κ => ν) (k : κ) : Nat := ((m.lookup k).map f).getD 0

/-- The total measure of the stored values. -/
def total (m : Finmap fun _ : κ => ν) : Nat := ∑ k ∈ m.keys, held f m k

/-- The measure of what an edit leaves. -/
def Edit.measure (e : Edit κ ν) : Nat := (e.left.map f).getD 0

/-- The total measure a log inserts. -/
def inserted (log : List (Edit κ ν)) : Nat := (log.map (Edit.measure f)).sum

@[simp] theorem total_empty : total f (∅ : Finmap fun _ : κ => ν) = 0 := rfl

omit [DecidableEq κ] in
@[simp] theorem inserted_append (log log' : List (Edit κ ν)) :
    inserted f (log ++ log') = inserted f log + inserted f log' := by
  simp [inserted]

variable {f} in
theorem total_congr {m m' : Finmap fun _ : κ => ν}
    (h : ∀ k, (m.lookup k).map f = (m'.lookup k).map f) : total f m = total f m' := by
  have hheld : ∀ k, held f m k = held f m' k := fun k => by
    rw [held, held, h k]
  have hkeys : m.keys = m'.keys := by
    ext k
    rw [Finmap.mem_keys, Finmap.mem_keys, ← Finmap.lookup_isSome, ← Finmap.lookup_isSome]
    simpa using congrArg Option.isSome (h k)
  rw [total, total, hkeys]
  exact Finset.sum_congr rfl fun k _ => hheld k

theorem held_apply (e : Edit κ ν) (m : Finmap fun _ : κ => ν) (k : κ) :
    held f (e.apply m) k = if e.key = k then e.measure f else held f m k := by
  simp only [held, Edit.lookup_apply, Edit.measure]
  split <;> rfl

theorem held_of_notMem {m : Finmap fun _ : κ => ν} {k : κ} (h : k ∉ m.keys) :
    held f m k = 0 := by
  rw [Finmap.mem_keys, ← Finmap.lookup_eq_none] at h
  simp [held, h]

/-- Keys outside the store add nothing to the total. -/
theorem total_eq_sum {m : Finmap fun _ : κ => ν} {s : Finset κ} (h : m.keys ⊆ s) :
    total f m = ∑ k ∈ s, held f m k :=
  Finset.sum_subset h fun _ _ hk => held_of_notMem f hk

/-- A store that holds no less anywhere holds no less in total. -/
theorem total_mono {m m' : Finmap fun _ : κ => ν} (h : ∀ k, held f m k ≤ held f m' k) :
    total f m ≤ total f m' := by
  have hleft : m.keys ⊆ m.keys ∪ m'.keys := Finset.subset_union_left
  have hright : m'.keys ⊆ m.keys ∪ m'.keys := Finset.subset_union_right
  rw [total_eq_sum f hleft, total_eq_sum f hright]
  exact Finset.sum_le_sum fun k _ => h k

theorem total_toFinmap (listing : AList fun _ : κ => ν) :
    total f listing.toFinmap = (listing.entries.map fun entry => f entry.2).sum := by
  have hkeys : listing.toFinmap.keys = listing.keys.toFinset := by
    ext k
    rw [Finmap.mem_keys, Finmap.mem_toFinmap, List.mem_toFinset]
    exact AList.mem_keys
  rw [total, hkeys, List.sum_toFinset _ listing.keys_nodup]
  refine congrArg List.sum ?_
  rw [AList.keys, List.keys, List.map_map]
  refine List.map_congr_left fun entry hentry => ?_
  rw [Function.comp_apply, held, Finmap.lookup_toFinmap, AList.mem_lookup_iff.mpr hentry]
  rfl

/-- One edit replaces what its key held by what it leaves there. -/
theorem total_apply_add (e : Edit κ ν) (m : Finmap fun _ : κ => ν) :
    total f (e.apply m) + held f m e.key = total f m + e.measure f := by
  have hkeys : (e.apply m).keys ⊆ insert e.key m.keys := by
    intro k hk
    rw [Finmap.mem_keys, ← Finmap.lookup_isSome, Edit.lookup_apply] at hk
    by_cases h : e.key = k
    · simp [h]
    · rw [if_neg h, Finmap.lookup_isSome] at hk
      exact Finset.mem_insert_of_mem (Finmap.mem_keys.mpr hk)
  have hrest : ∑ k ∈ (insert e.key m.keys).erase e.key, held f (e.apply m) k =
      ∑ k ∈ (insert e.key m.keys).erase e.key, held f m k := by
    apply Finset.sum_congr rfl
    intro k hk
    rw [held_apply, if_neg (Ne.symm (Finset.ne_of_mem_erase hk))]
  have hkey : held f (e.apply m) e.key = e.measure f := by
    rw [held_apply, if_pos rfl]
  have hmem : e.key ∈ insert e.key m.keys := Finset.mem_insert_self ..
  rw [total_eq_sum f hkeys, total_eq_sum f (Finset.subset_insert e.key m.keys),
    ← Finset.add_sum_erase _ _ hmem, ← Finset.add_sum_erase _ _ hmem, hrest, hkey]
  omega

/-- A replay keeps at most the old total plus what it inserts, less everything
that the keys it touches held before: a touched key loses its old value even
where the log overwrites it. -/
theorem total_replay_le (log : List (Edit κ ν)) (m : Finmap fun _ : κ => ν) :
    total f (replay log m) + ∑ k ∈ keys log, held f m k ≤ total f m + inserted f log := by
  induction log generalizing m with
  | nil => simp [inserted]
  | cons e log ih =>
      have hrest := ih (e.apply m)
      have hhead := total_apply_add f e m
      have hins : inserted f (e :: log) = e.measure f + inserted f log := by
        simp [inserted]
      rw [replay_cons, keys_cons, hins]
      by_cases hk : e.key ∈ keys log
      · -- a later edit of the same key: its old value is the one inserted here
        have hold := Finset.add_sum_erase (keys log) (held f m) hk
        have hnew := Finset.add_sum_erase (keys log) (held f (e.apply m)) hk
        have hsame : ∑ k ∈ (keys log).erase e.key, held f (e.apply m) k =
            ∑ k ∈ (keys log).erase e.key, held f m k := by
          apply Finset.sum_congr rfl
          intro k hmem
          rw [held_apply, if_neg (Ne.symm (Finset.ne_of_mem_erase hmem))]
        have hself : held f (e.apply m) e.key = e.measure f := by
          rw [held_apply, if_pos rfl]
        rw [Finset.insert_eq_of_mem hk]
        omega
      · have hsame : ∑ k ∈ keys log, held f (e.apply m) k = ∑ k ∈ keys log, held f m k := by
          apply Finset.sum_congr rfl
          intro k hmem
          rw [held_apply, if_neg fun h : e.key = k => hk (h ▸ hmem)]
        rw [Finset.sum_insert hk]
        omega

/-- The measure a log takes out of the store as it erases and overwrites. -/
def removed : List (Edit κ ν) → (Finmap fun _ : κ => ν) → Nat
  | [], _ => 0
  | e :: log, m => held f m e.key + removed log (e.apply m)

/-- A replay gains what it inserts and loses what it removes. -/
theorem total_replay_add_removed (log : List (Edit κ ν)) (m : Finmap fun _ : κ => ν) :
    total f (replay log m) + removed f log m = total f m + inserted f log := by
  induction log generalizing m with
  | nil => simp [removed, inserted]
  | cons e log ih =>
      have hrest := ih (e.apply m)
      have hhead := total_apply_add f e m
      have hins : inserted f (e :: log) = e.measure f + inserted f log := by
        simp [inserted]
      rw [replay_cons, removed, hins]
      omega

theorem removed_append (log log' : List (Edit κ ν)) (m : Finmap fun _ : κ => ν) :
    removed f (log ++ log') m = removed f log m + removed f log' (replay log m) := by
  induction log generalizing m with
  | nil => simp [removed]
  | cons e log ih =>
      rw [List.cons_append, removed, removed, ih, replay_cons, Nat.add_assoc]

/-- What is erased under different keys is what was held there. -/
theorem removed_erase {ks : List κ} (hnodup : ks.Nodup) (m : Finmap fun _ : κ => ν) :
    removed f (ks.map Edit.erase) m = (ks.map (held f m)).sum := by
  induction ks generalizing m with
  | nil => rfl
  | cons k rest ih =>
      obtain ⟨hk, hrest⟩ := List.nodup_cons.mp hnodup
      have hsame : rest.map (held f ((Edit.erase k).apply m)) = rest.map (held f m) := by
        refine List.map_congr_left fun j hj => ?_
        rw [held_apply, Edit.key, if_neg fun h : k = j => hk (h ▸ hj)]
      rw [List.map_cons, removed, ih hrest, hsame, List.map_cons, List.sum_cons]
      rfl

/-- Insertions under different keys that are not in use remove nothing. -/
theorem removed_insert {ι : Type*} {key : ι → κ} {value : ι → ν} {items : List ι}
    (hnodup : (items.map key).Nodup) {m : Finmap fun _ : κ => ν} (hfresh : ∀ i ∈ items, key i ∉ m) :
    removed f (items.map fun i => Edit.insert (key i) (value i)) m = 0 := by
  induction items generalizing m with
  | nil => rfl
  | cons i rest ih =>
      rw [List.map_cons, List.nodup_cons] at hnodup
      rw [List.forall_mem_cons] at hfresh
      have hself : held f m (key i) = 0 :=
        held_of_notMem f fun h => hfresh.1 (Finmap.mem_keys.mp h)
      rw [List.map_cons, removed, ih hnodup.2 fun j hj => ?_]
      · exact hself
      · rw [Edit.apply, Finmap.mem_insert, not_or]
        exact ⟨fun h => hnodup.1 (h ▸ List.mem_map_of_mem hj), hfresh.2 j hj⟩

/-- What is held under different keys is part of the total. -/
theorem sum_held_le {ks : List κ} (hnodup : ks.Nodup) (m : Finmap fun _ : κ => ν) :
    (ks.map (held f m)).sum ≤ total f m := by
  have hlog := total_replay_add_removed f (ks.map Edit.erase) m
  have hnone : inserted f (ks.map fun k => (Edit.erase k : Edit κ ν)) = 0 := by
    simp [inserted, Edit.measure, Edit.left, Function.comp_def]
  rw [hnone, removed_erase f hnodup] at hlog
  omega

end Total

end MapLog
