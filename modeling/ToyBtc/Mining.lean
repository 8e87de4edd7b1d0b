import ToyBtc.Hashing

/-!
# Mining

The search of a header's nonce and, once all nonces are used up, of its
timestamp.

## Implementation notes

`clock i` is what the clock shows at the `i`-th step of a call. The code reads
it only in the steps where the nonce wraps.
-/

namespace ToyBtc

variable [Crates]

namespace BlockHeader

/-- The next header to try: the next nonce, or nonce zero with a fresh timestamp. -/
def nextCandidate (now : DateTime) (h : BlockHeader) : BlockHeader :=
  if h.nonce.toNat + 1 < 2 ^ 64 then { h with nonce := h.nonce + 1 }
  else { h with nonce := 0, timestamp := now }

/-- The header's own hash meets its own target. -/
def isMined (h : BlockHeader) : Bool := h.hash.matchesTarget h.target

def mineSteps : Nat → (Nat → DateTime) → BlockHeader → Bool × BlockHeader
  | 0, _, h => (false, h)
  | steps + 1, clock, h =>
      let next := h.nextCandidate (clock 0)
      if next.isMined then (true, next)
      else mineSteps steps (fun i => clock (i + 1)) next

/-- Mine for a finite number of steps, so that the search can be interrupted. -/
def mine (steps : Nat) (clock : Nat → DateTime) (h : BlockHeader) : Bool × BlockHeader :=
  if h.isMined then (true, h) else mineSteps steps clock h

/-- Two headers of the same search: only nonce and timestamp may differ. -/
def SameTemplate (h h' : BlockHeader) : Prop :=
  h'.prevBlockHash = h.prevBlockHash ∧ h'.merkleRoot = h.merkleRoot ∧ h'.target = h.target

omit [Crates] in
theorem SameTemplate.trans {h h' h'' : BlockHeader} (first : SameTemplate h h')
    (second : SameTemplate h' h'') : SameTemplate h h'' :=
  ⟨second.1.trans first.1, second.2.1.trans first.2.1, second.2.2.trans first.2.2⟩

omit [Crates] in
theorem nextCandidate_sameTemplate (now : DateTime) (h : BlockHeader) :
    SameTemplate h (h.nextCandidate now) := by
  unfold nextCandidate
  split <;> exact ⟨rfl, rfl, rfl⟩

theorem mineSteps_sameTemplate (steps : Nat) (clock : Nat → DateTime) (h : BlockHeader) :
    SameTemplate h (mineSteps steps clock h).2 := by
  induction steps generalizing clock h with
  | zero => exact ⟨rfl, rfl, rfl⟩
  | succ steps ih =>
      have hnext := nextCandidate_sameTemplate (clock 0) h
      simp only [mineSteps]
      split
      · exact hnext
      · exact hnext.trans (ih _ _)

theorem mine_sameTemplate (steps : Nat) (clock : Nat → DateTime) (h : BlockHeader) :
    SameTemplate h (mine steps clock h).2 := by
  unfold mine
  split
  · exact ⟨rfl, rfl, rfl⟩
  · exact mineSteps_sameTemplate steps clock h

theorem mineSteps_isMined (steps : Nat) (clock : Nat → DateTime) (h : BlockHeader)
    (hfound : (mineSteps steps clock h).1 = true) : (mineSteps steps clock h).2.isMined := by
  induction steps generalizing clock h with
  | zero => simp [mineSteps] at hfound
  | succ steps ih =>
      simp only [mineSteps] at hfound ⊢
      split at hfound
      · next hmined => rw [if_pos hmined]; exact hmined
      · next hmined => rw [if_neg hmined]; exact ih _ _ hfound

/-- A search that reports success leaves the header at a candidate that meets
its target. -/
theorem mine_isMined (steps : Nat) (clock : Nat → DateTime) (h : BlockHeader)
    (hfound : (mine steps clock h).1 = true) : (mine steps clock h).2.isMined := by
  unfold mine at hfound ⊢
  split
  · next hmined => exact hmined
  · next hmined =>
      rw [if_neg hmined] at hfound
      exact mineSteps_isMined steps clock h hfound

/-! ### The candidates of a search -/

/-- The header after `n` steps of a search that does not stop. -/
def candidate (clock : Nat → DateTime) (h : BlockHeader) : Nat → BlockHeader
  | 0 => h
  | n + 1 => (candidate clock h n).nextCandidate (clock n)

omit [Crates] in
theorem candidate_nonce (clock : Nat → DateTime) (h : BlockHeader) (n : Nat) :
    (candidate clock h n).nonce = h.nonce + UInt64.ofNat n := by
  induction n with
  | zero => simp [candidate]
  | succ n ih =>
      rw [candidate, nextCandidate]
      split
      · change (candidate clock h n).nonce + 1 = _
        rw [ih, UInt64.add_assoc]
        congr 1
        apply UInt64.toNat_inj.mp
        simp
      · next hlast =>
          change (0 : UInt64) = _
          apply UInt64.toNat_inj.mp
          rw [ih] at hlast
          have hlt := (h.nonce + UInt64.ofNat n).toNat_lt
          simp at hlast hlt ⊢
          omega

/-- The time of the `n`-th candidate: the header's own one until the nonce wraps, then
what the clock has shown when it wrapped last. -/
def timestampAt (clock : Nat → DateTime) (h : BlockHeader) (n : Nat) : DateTime :=
  if h.nonce.toNat + n < 2 ^ 64 then h.timestamp
  else clock (n - 1 - (h.nonce.toNat + n) % 2 ^ 64)

omit [Crates] in
theorem candidate_timestamp (clock : Nat → DateTime) (h : BlockHeader) (n : Nat) :
    (candidate clock h n).timestamp = timestampAt clock h n := by
  induction n with
  | zero => rw [timestampAt, if_pos (by simpa using h.nonce.toNat_lt), candidate]
  | succ n ih =>
      have hnonce : (candidate clock h n).nonce.toNat = (h.nonce.toNat + n) % 2 ^ 64 := by
        rw [candidate_nonce]
        simp
      rw [candidate, nextCandidate, hnonce]
      split
      · next hnext =>
          change (candidate clock h n).timestamp = _
          rw [ih, timestampAt, timestampAt]
          by_cases hfits : h.nonce.toNat + n < 2 ^ 64
          · rw [if_pos hfits, if_pos (by omega)]
          · have hwrap : (h.nonce.toNat + (n + 1)) % 2 ^ 64 =
                (h.nonce.toNat + n) % 2 ^ 64 + 1 := by omega
            rw [if_neg hfits, if_neg (by omega), hwrap, Nat.add_sub_cancel, Nat.add_comm _ 1,
              Nat.sub_add_eq]
      · next hlast =>
          have hwrap : (h.nonce.toNat + (n + 1)) % 2 ^ 64 = 0 := by omega
          change clock n = _
          rw [timestampAt, if_neg (by omega), hwrap]
          rfl

/-- The `n`-th candidate is the first one that meets its target. -/
def FirstMined (clock : Nat → DateTime) (h : BlockHeader) (n : Nat) : Prop :=
  (candidate clock h n).isMined ∧ ∀ m < n, ¬ (candidate clock h m).isMined

omit [Crates] in
theorem candidate_add (clock : Nat → DateTime) (h : BlockHeader) (a n : Nat) :
    candidate (fun i => clock (a + i)) (candidate clock h a) n = candidate clock h (a + n) := by
  induction n with
  | zero => rfl
  | succ n ih => rw [candidate, ih, ← Nat.add_assoc, candidate]

omit [Crates] in
theorem candidate_sameTemplate (clock : Nat → DateTime) (h : BlockHeader) (n : Nat) :
    SameTemplate h (candidate clock h n) := by
  induction n with
  | zero => exact ⟨rfl, rfl, rfl⟩
  | succ n ih => exact ih.trans (nextCandidate_sameTemplate (clock n) _)

omit [Crates] in
/-- The `n`-th candidate has the `n`-th nonce after the header's own one. -/
theorem candidate_eq (clock : Nat → DateTime) (h : BlockHeader) (n : Nat) :
    candidate clock h n =
      { h with nonce := h.nonce + UInt64.ofNat n, timestamp := timestampAt clock h n } := by
  obtain ⟨hprev, hroot, htarget⟩ := candidate_sameTemplate clock h n
  rw [← candidate_nonce clock, ← candidate_timestamp, ← hprev, ← hroot, ← htarget]

theorem isMined_candidate_iff (clock : Nat → DateTime) (h : BlockHeader) (n : Nat) :
    (candidate clock h n).isMined ↔ (candidate clock h n).hash.value ≤ h.target := by
  rw [isMined, (candidate_sameTemplate clock h n).2.2]
  exact decide_eq_true_iff

/-- One candidate after the other is checked, from the one after the header on. -/
theorem mineSteps_cases (steps : Nat) (clock : Nat → DateTime) (h : BlockHeader) :
    (∃ n < steps, (candidate clock h (n + 1)).isMined ∧
        (∀ m < n, ¬ (candidate clock h (m + 1)).isMined) ∧
        mineSteps steps clock h = (true, candidate clock h (n + 1))) ∨
      (∀ n < steps, ¬ (candidate clock h (n + 1)).isMined) ∧
        mineSteps steps clock h = (false, candidate clock h steps) := by
  induction steps generalizing clock h with
  | zero => exact Or.inr ⟨fun n hn => absurd hn (Nat.not_lt_zero n), rfl⟩
  | succ steps ih =>
      have hshift (n : Nat) : candidate (fun i => clock (i + 1)) (h.nextCandidate (clock 0)) n =
          candidate clock h (n + 1) := by
        have hadd := candidate_add clock h 1 n
        simp only [Nat.add_comm 1] at hadd
        exact hadd
      have hrest := ih (fun i => clock (i + 1)) (h.nextCandidate (clock 0))
      simp only [hshift] at hrest
      by_cases hmined : (h.nextCandidate (clock 0)).isMined
      · refine Or.inl ⟨0, steps.succ_pos, hmined, fun m hm => absurd hm (Nat.not_lt_zero m), ?_⟩
        rw [mineSteps, if_pos hmined]
        rfl
      · rw [mineSteps, if_neg hmined]
        rcases hrest with ⟨n, hn, hfound, hbefore, heq⟩ | ⟨hnone, heq⟩
        · left
          exact ⟨n + 1, Nat.succ_lt_succ hn, hfound,
            Nat.forall_lt_succ_left.mpr ⟨hmined, hbefore⟩, heq⟩
        · right
          exact ⟨Nat.forall_lt_succ_left.mpr ⟨hmined, hnone⟩, heq⟩

/-- A search stops at the first candidate that meets the target, or has checked
the header and all candidates. -/
theorem mine_cases (steps : Nat) (clock : Nat → DateTime) (h : BlockHeader) :
    (∃ n ≤ steps, FirstMined clock h n ∧ mine steps clock h = (true, candidate clock h n)) ∨
      (∀ n ≤ steps, ¬ (candidate clock h n).isMined) ∧
        mine steps clock h = (false, candidate clock h steps) := by
  by_cases hmined : h.isMined
  · refine Or.inl ⟨0, steps.zero_le, ⟨hmined, fun m hm => absurd hm (Nat.not_lt_zero m)⟩, ?_⟩
    rw [mine, if_pos hmined]
    rfl
  · rw [mine, if_neg hmined]
    rcases mineSteps_cases steps clock h with ⟨n, hn, hfound, hbefore, heq⟩ | ⟨hnone, heq⟩
    · left
      exact ⟨n + 1, hn, ⟨hfound, Nat.forall_lt_succ_left.mpr ⟨hmined, hbefore⟩⟩, heq⟩
    · right
      have hall : ∀ n < steps + 1, ¬ (candidate clock h n).isMined :=
        Nat.forall_lt_succ_left.mpr ⟨hmined, hnone⟩
      exact ⟨fun n hn => hall n (Nat.lt_succ_of_le hn), heq⟩

theorem mine_eq_of_firstMined {steps n : Nat} {clock : Nat → DateTime} {h : BlockHeader}
    (first : FirstMined clock h n) (hn : n ≤ steps) :
    mine steps clock h = (true, candidate clock h n) := by
  rcases mine_cases steps clock h with ⟨m, -, first', heq⟩ | ⟨hnone, -⟩
  · rcases lt_trichotomy m n with hlt | rfl | hgt
    · exact absurd first'.1 (first.2 m hlt)
    · exact heq
    · exact absurd first.1 (first'.2 n hgt)
  · exact absurd first.1 (hnone n hn)

theorem mine_eq_of_none {steps : Nat} {clock : Nat → DateTime} {h : BlockHeader}
    (hnone : ∀ n ≤ steps, ¬ (candidate clock h n).isMined) :
    mine steps clock h = (false, candidate clock h steps) := by
  rcases mine_cases steps clock h with ⟨n, hn, first, -⟩ | ⟨-, heq⟩
  · exact absurd first.1 (hnone n hn)
  · exact heq

/-- The candidates of a search, of which none is mined, and those from the last one on. -/
theorem not_isMined_add {a b : Nat} {clock : Nat → DateTime} {h : BlockHeader}
    (hnone : ∀ n ≤ a, ¬ (candidate clock h n).isMined)
    (hrest : ∀ k < b, ¬ (candidate (fun i => clock (a + i)) (candidate clock h a) k).isMined) :
    ∀ m < a + b, ¬ (candidate clock h m).isMined := by
  intro m hm
  rcases Nat.le_total m a with hle | hge
  · exact hnone m hle
  · obtain ⟨k, rfl⟩ := Nat.exists_eq_add_of_le hge
    rw [← candidate_add]
    exact hrest k (Nat.lt_of_add_lt_add_left hm)

/-- A call that finds nothing and another one from where it ended do what one call
with the steps of both does. -/
theorem mine_append {a : Nat} {clock : Nat → DateTime} {h : BlockHeader}
    (hmissed : (mine a clock h).1 = false) (b : Nat) :
    mine b (fun i => clock (a + i)) (mine a clock h).2 = mine (a + b) clock h := by
  rcases mine_cases a clock h with ⟨n, -, -, heq⟩ | ⟨hnone, heq⟩
  · rw [heq] at hmissed
    cases hmissed
  · rw [heq]
    rcases mine_cases b (fun i => clock (a + i)) (candidate clock h a) with
      ⟨n, hn, ⟨hfound, hbefore⟩, heq'⟩ | ⟨hnone', heq'⟩
    · rw [heq', candidate_add]
      rw [candidate_add] at hfound
      have first : FirstMined clock h (a + n) := ⟨hfound, not_isMined_add hnone hbefore⟩
      exact (mine_eq_of_firstMined first (Nat.add_le_add_left hn a)).symm
    · rw [heq', candidate_add]
      have hall := not_isMined_add (b := b + 1) hnone fun k hk => hnone' k (Nat.le_of_lt_succ hk)
      exact (mine_eq_of_none fun m hm => hall m (Nat.lt_succ_of_le hm)).symm

/-- What one call of `mine` does: it finds the first of the header and its next
candidates whose hash is at most the target, and if there is none it leaves the header
at the last one, from where another call takes up the search. The candidates go through
the nonces one by one, and from 0 on again with what the clock shows then. -/
structure SearchesExhaustively (steps : Nat) (clock : Nat → DateTime) (h : BlockHeader) :
    Prop where
  candidates : ∀ n, candidate clock h n =
    { h with nonce := h.nonce + UInt64.ofNat n, timestamp := timestampAt clock h n }
  isMined_iff : ∀ n, (candidate clock h n).isMined ↔ (candidate clock h n).hash.value ≤ h.target
  found_iff : (mine steps clock h).1 = true ↔ ∃ n ≤ steps, (candidate clock h n).isMined
  found : (mine steps clock h).1 = true →
    ∃ n ≤ steps, FirstMined clock h n ∧ (mine steps clock h).2 = candidate clock h n
  missed_iff : (mine steps clock h).1 = false ↔ ∀ n ≤ steps, ¬ (candidate clock h n).isMined
  missed : (mine steps clock h).1 = false →
    (mine steps clock h).2 = candidate clock h steps ∧ SameTemplate h (mine steps clock h).2
  chunks : (mine steps clock h).1 = false → ∀ more,
    mine more (fun i => clock (steps + i)) (mine steps clock h).2 = mine (steps + more) clock h

theorem searchesExhaustively (steps : Nat) (clock : Nat → DateTime) (h : BlockHeader) :
    SearchesExhaustively steps clock h := by
  have candidates := candidate_eq clock h
  have isMined_iff := isMined_candidate_iff clock h
  rcases mine_cases steps clock h with ⟨n, hn, first, heq⟩ | ⟨hnone, heq⟩
  · have hfound : (mine steps clock h).1 = true := by rw [heq]
    have hnot : (mine steps clock h).1 ≠ false := by simp [heq]
    refine ⟨candidates, isMined_iff, ?_, ?_, ?_, ?_, ?_⟩
    · exact iff_of_true hfound ⟨n, hn, first.1⟩
    · intro _
      rw [heq]
      exact ⟨n, hn, first, rfl⟩
    · exact iff_of_false hnot fun hnone => hnone n hn first.1
    · exact fun hmissed => absurd hmissed hnot
    · exact fun hmissed => absurd hmissed hnot
  · have hmissed : (mine steps clock h).1 = false := by rw [heq]
    have hnot : (mine steps clock h).1 ≠ true := by simp [heq]
    refine ⟨candidates, isMined_iff, ?_, ?_, ?_, ?_, ?_⟩
    · exact iff_of_false hnot fun ⟨n, hn, hmined⟩ => hnone n hn hmined
    · exact fun hfound => absurd hfound hnot
    · exact iff_of_true hmissed hnone
    · intro _
      rw [heq]
      exact ⟨rfl, candidate_sameTemplate clock h steps⟩
    · exact mine_append

/-! ### The loop of the miner -/

/-- The miner calls `mine` again and again on the header it got back, until a
call reports success with the header `found`. -/
inductive MinedUntilFound : BlockHeader → BlockHeader → Prop
  | found {h : BlockHeader} (steps : Nat) (clock : Nat → DateTime)
      (hfound : (mine steps clock h).1 = true) : MinedUntilFound h (mine steps clock h).2
  | again {h found : BlockHeader} (steps : Nat) (clock : Nat → DateTime)
      (hfound : (mine steps clock h).1 = false)
      (rest : MinedUntilFound (mine steps clock h).2 found) : MinedUntilFound h found

/-- A header that is already mined is returned as it is. -/
theorem MinedUntilFound.of_isMined {h : BlockHeader} (hmined : h.isMined = true) :
    MinedUntilFound h h := by
  have hmine : mine 0 (fun _ => 0) h = (true, h) := by simp [mine, hmined]
  have found := MinedUntilFound.found (h := h) 0 fun _ => 0
  rw [hmine] at found
  exact found rfl

theorem MinedUntilFound.sameTemplate {h found : BlockHeader} (mined : MinedUntilFound h found) :
    SameTemplate h found := by
  induction mined with
  | found steps clock _ => exact mine_sameTemplate steps clock _
  | again steps clock _ _ ih => exact (mine_sameTemplate steps clock _).trans ih

theorem MinedUntilFound.isMined {h found : BlockHeader} (mined : MinedUntilFound h found) :
    found.isMined := by
  induction mined with
  | found steps clock hfound => exact mine_isMined steps clock _ hfound
  | again _ _ _ _ ih => exact ih

end BlockHeader

end ToyBtc
