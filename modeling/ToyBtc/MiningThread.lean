import ToyBtc.Machine
import ToyBtc.Mining

/-!
# The mining thread

The thread mines on a copy of the current template and keeps nothing of a call
that has found nothing. The next call starts from the same header again, and so
it tries the same candidates, unless the nonce wraps at its first step.

## Implementation notes

The thread and the task that talks to the node take turns in any order. They
share the template and the flag, and mined blocks go through a channel. How the
task talks to the node is left out; an error leaves everything as it is. The
clocks of the failed calls on the current template are recorded.
-/

namespace ToyBtc

/-- The steps of each call of `mine`. -/
def stepsPerCall : Nat := 2000000

namespace BlockHeader

/-- The candidates that a call of `mine` goes through. The header it starts from is not
one of them. -/
def examined (clock : Nat → DateTime) (h : BlockHeader) : List BlockHeader :=
  (List.range stepsPerCall).map fun n => candidate clock h (n + 1)

/-- Different calls from one header try different candidates, so each of them tries
`stepsPerCall` new ones. -/
structure NothingRedone (h : BlockHeader) (clocks : List (Nat → DateTime)) : Prop where
  distinct : clocks.Pairwise fun clock clock' =>
    List.Disjoint (examined clock h) (examined clock' h)
  new : (clocks.flatMap fun clock => examined clock h).toFinset.card =
    clocks.length * stepsPerCall

theorem nodup_examined (clock : Nat → DateTime) (h : BlockHeader) : (examined clock h).Nodup := by
  refine List.Nodup.map_on (fun m hm n hn heq => ?_) List.nodup_range
  have hnonce := congrArg BlockHeader.nonce heq
  rw [candidate_nonce, candidate_nonce, UInt64.add_right_inj] at hnonce
  have hnat := congrArg UInt64.toNat hnonce
  have hm' := List.mem_range.mp hm
  have hn' := List.mem_range.mp hn
  simp only [stepsPerCall] at hm' hn'
  simp at hnat
  omega

theorem length_examined (clock : Nat → DateTime) (h : BlockHeader) :
    (examined clock h).length = stepsPerCall := by
  rw [examined, List.length_map, List.length_range]

/-- There is no next nonce. -/
def NoncesUsedUp (h : BlockHeader) : Prop := h.nonce.toNat + 1 = 2 ^ 64

theorem nextCandidate_of_not_usedUp {h : BlockHeader} (hnonce : ¬ h.NoncesUsedUp) (now : DateTime) :
    h.nextCandidate now = { h with nonce := h.nonce + 1 } := by
  have hlt := h.nonce.toNat_lt
  rw [NoncesUsedUp] at hnonce
  rw [nextCandidate, if_pos (by omega)]

/-- After the nonce has wrapped, all candidates have the time of the wrap. -/
theorem candidate_of_usedUp {clock : Nat → DateTime} {h : BlockHeader} (hnonce : h.NoncesUsedUp)
    {n : Nat} (hn : n < stepsPerCall) :
    candidate clock h (n + 1) = { h with nonce := UInt64.ofNat n, timestamp := clock 0 } := by
  induction n with
  | zero =>
      rw [NoncesUsedUp] at hnonce
      rw [candidate, candidate, nextCandidate, if_neg (by omega)]
      rfl
  | succ n ih =>
      simp only [stepsPerCall] at hn ih
      have hnext := ih (Nat.lt_of_succ_lt hn)
      have hlast : ¬ (candidate clock h (n + 1)).NoncesUsedUp := by
        rw [hnext, NoncesUsedUp]
        simp
        omega
      rw [candidate, nextCandidate_of_not_usedUp hlast, hnext]
      simp only [mk.injEq, and_true, true_and]
      apply UInt64.toNat_inj.mp
      simp

/-- Two calls from one header try different candidates exactly where the nonce wraps at once
and the clock shows different times. -/
theorem disjoint_examined_iff {clock clock' : Nat → DateTime} {h : BlockHeader} :
    List.Disjoint (examined clock h) (examined clock' h) ↔
      h.NoncesUsedUp ∧ clock 0 ≠ clock' 0 := by
  have hfirst : ∀ c : Nat → DateTime, h.nextCandidate (c 0) ∈ examined c h := fun c =>
    List.mem_map.mpr ⟨0, List.mem_range.mpr (by decide), rfl⟩
  constructor
  · intro hdisjoint
    have hne : h.nextCandidate (clock 0) ≠ h.nextCandidate (clock' 0) := fun heq =>
      hdisjoint (hfirst clock) (heq ▸ hfirst clock')
    have hnonce : h.NoncesUsedUp := by
      by_contra hnonce
      rw [nextCandidate_of_not_usedUp hnonce, nextCandidate_of_not_usedUp hnonce] at hne
      exact hne rfl
    exact ⟨hnonce, fun heq => hne (congrArg h.nextCandidate heq)⟩
  · rintro ⟨hnonce, hclock⟩ c hc hc'
    obtain ⟨m, hm, rfl⟩ := List.mem_map.mp hc
    obtain ⟨n, hn, heq⟩ := List.mem_map.mp hc'
    rw [candidate_of_usedUp hnonce (List.mem_range.mp hm),
      candidate_of_usedUp hnonce (List.mem_range.mp hn)] at heq
    exact hclock (congrArg BlockHeader.timestamp heq).symm

/-- Where the calls try different candidates, all of them are new. -/
theorem nothingRedone_iff {h : BlockHeader} {clocks : List (Nat → DateTime)} :
    NothingRedone h clocks ↔ clocks.Pairwise fun clock clock' =>
      h.NoncesUsedUp ∧ clock 0 ≠ clock' 0 := by
  have hdistinct : (clocks.Pairwise fun clock clock' =>
      List.Disjoint (examined clock h) (examined clock' h)) ↔
      clocks.Pairwise fun clock clock' => h.NoncesUsedUp ∧ clock 0 ≠ clock' 0 :=
    List.Pairwise.iff fun _ _ => disjoint_examined_iff
  rw [← hdistinct]
  refine ⟨NothingRedone.distinct, fun hpairwise => ⟨hpairwise, ?_⟩⟩
  have hnodup : (clocks.flatMap fun clock => examined clock h).Nodup :=
    List.nodup_flatMap.mpr ⟨fun clock _ => nodup_examined clock h, hpairwise⟩
  calc
    (clocks.flatMap fun clock => examined clock h).toFinset.card =
        (clocks.flatMap fun clock => examined clock h).length :=
      List.toFinset_card_of_nodup hnodup
    _ = (clocks.map fun clock => (examined clock h).length).sum := List.length_flatMap
    _ = clocks.length * stepsPerCall := by simp [length_examined]

/-- One more call redoes nothing where it is the first, or where every call wraps the nonce
at once and this one at another time. -/
theorem nothingRedone_append_iff {h : BlockHeader} {clocks : List (Nat → DateTime)}
    {clock : Nat → DateTime} :
    NothingRedone h (clocks ++ [clock]) ↔ NothingRedone h clocks ∧
      (clocks = [] ∨ h.NoncesUsedUp ∧ ∀ earlier ∈ clocks, earlier 0 ≠ clock 0) := by
  rw [nothingRedone_iff, nothingRedone_iff, List.pairwise_append]
  constructor
  · rintro ⟨hclocks, -, hlast⟩
    refine ⟨hclocks, ?_⟩
    rcases clocks with _ | ⟨first, rest⟩
    · exact Or.inl rfl
    · have hpair : ∀ earlier ∈ first :: rest, h.NoncesUsedUp ∧ earlier 0 ≠ clock 0 :=
        fun earlier hmem => hlast earlier hmem clock (List.mem_singleton_self clock)
      exact Or.inr ⟨(hpair first List.mem_cons_self).1, fun earlier hmem => (hpair earlier hmem).2⟩
  · rintro ⟨hclocks, hlast⟩
    refine ⟨hclocks, List.pairwise_singleton _ _, fun earlier hmem later hlater => ?_⟩
    obtain rfl := List.mem_singleton.mp hlater
    rcases hlast with rfl | ⟨hnonce, hclock⟩
    · cases hmem
    · exact ⟨hnonce, hclock earlier hmem⟩

end BlockHeader

/-- Where the mining thread is in its loop. What it mines is a copy of the current template
until another template takes its place. -/
inductive MiningThread
  | idle
  | loaded
  | mining (block : Block) (current : Bool)
  | sent

namespace MiningThread

def outdate : MiningThread → MiningThread
  | mining block _ => mining block false
  | thread => thread

end MiningThread

structure Miner where
  currentTemplate : Option Block
  mining : Bool
  thread : MiningThread
  /-- The channel of mined blocks. -/
  minedBlocks : List Block
  /-- The clocks of the calls that found nothing while the template was current. -/
  failed : List (Nat → DateTime)

/-- The thread finds that it is to mine, copies the template, mines, and clears the flag when
it has sent a block. The task receives a template, the validity of a template, or a mined
block that it submits. -/
inductive MinerEvent
  | load
  | clone
  | mine (clock : Nat → DateTime)
  | store
  | fetchTemplate (template : Block)
  | validateTemplate (isValid : Bool)
  | submitMinedBlock (sent : Bool)

namespace Miner

def new : Miner := ⟨none, false, .idle, [], []⟩

variable [Crates]

/-- One event, if it can happen. -/
def step (s : Miner) : MinerEvent → Option Miner
  | .load =>
      match s.thread with
      | .idle => if s.mining then some { s with thread := .loaded } else none
      | _ => none
  | .clone =>
      match s.thread, s.currentTemplate with
      | .loaded, some template => some { s with thread := .mining template true }
      | .loaded, none => some { s with thread := .idle }
      | _, _ => none
  | .mine clock =>
      match s.thread with
      | .mining block current =>
          match block.header.mine stepsPerCall clock with
          | (true, header) =>
              some { s with
                thread := .sent
                minedBlocks := s.minedBlocks ++ [{ block with header := header }] }
          | (false, _) =>
              -- the advanced header is dropped with the copy
              some { s with
                thread := .idle
                failed := if current then s.failed ++ [clock] else s.failed }
      | _ => none
  | .store =>
      match s.thread with
      | .sent => some { s with thread := .idle, mining := false }
      | _ => none
  | .fetchTemplate template =>
      if s.mining then none
      else some { s with
        currentTemplate := some template
        mining := true
        thread := s.thread.outdate
        failed := [] }
  | .validateTemplate isValid =>
      match s.currentTemplate with
      | some _ => some { s with mining := s.mining && isValid }
      | none => none
  | .submitMinedBlock sent =>
      match s.minedBlocks with
      | _ :: rest => some { s with minedBlocks := rest, mining := s.mining && !sent }
      | [] => none

/-- The calls on the current template that have found nothing redo no work. -/
def NothingRedone (s : Miner) : Prop :=
  ∀ template, s.currentTemplate = some template → template.header.NothingRedone s.failed

/-- What the thread mines is the template for as long as that is current. -/
def MinesCurrent (s : Miner) : Prop :=
  ∀ block, s.thread = .mining block true → s.currentTemplate = some block

end Miner

variable [Crates]

/-- A call that finds nothing is the first one on its template, or the template has no next
nonce and the clock shows another time than in every call before. -/
def MinerEvent.SearchesAnew (s : Miner) : MinerEvent → Prop
  | mine clock => ∀ block, s.thread = .mining block true →
      (block.header.mine stepsPerCall clock).1 = false →
        s.failed = [] ∨
          block.header.NoncesUsedUp ∧ ∀ earlier ∈ s.failed, earlier 0 ≠ clock 0
  | _ => True

namespace Miner

/-- What one step does to the search on the current template. -/
inductive Moves (s : Miner) (e : MinerEvent) (t : Miner) : Prop
  | keeps (template : t.currentTemplate = s.currentTemplate) (failed : t.failed = s.failed)
      (thread : ∀ block, t.thread = .mining block true →
        s.thread = .mining block true ∨ s.currentTemplate = some block)
      (anew : e.SearchesAnew s)
  | restarts (failed : t.failed = []) (thread : ∀ block, t.thread ≠ .mining block true)
      (anew : e.SearchesAnew s)
  | misses (block : Block) (clock : Nat → DateTime) (event : e = .mine clock)
      (thread : s.thread = .mining block true)
      (missed : (block.header.mine stepsPerCall clock).1 = false)
      (next : t = { s with thread := .idle, failed := s.failed ++ [clock] })

theorem moves_of_step {s t : Miner} {e : MinerEvent} (h : s.step e = some t) : s.Moves e t := by
  cases e with
  | load =>
      simp only [step] at h
      split at h
      · split at h
        · obtain rfl := Option.some.inj h
          exact .keeps rfl rfl (fun _ hthread => nomatch hthread) trivial
        · cases h
      · cases h
  | clone =>
      simp only [step] at h
      split at h
      · next template _ htemplate =>
          obtain rfl := Option.some.inj h
          refine .keeps rfl rfl (fun block hthread => ?_) trivial
          cases hthread
          exact Or.inr htemplate
      · obtain rfl := Option.some.inj h
        exact .keeps rfl rfl (fun _ hthread => nomatch hthread) trivial
      · cases h
  | mine clock =>
      simp only [step] at h
      split at h
      · next block current hthread =>
          split at h
          · next header hfound =>
              obtain rfl := Option.some.inj h
              refine .keeps rfl rfl (fun _ hthread' => nomatch hthread') fun block' hthread' => ?_
              rw [hthread] at hthread'
              cases hthread'
              simp [hfound]
          · next header hmissed =>
              obtain rfl := Option.some.inj h
              cases current with
              | true =>
                  refine .misses block clock rfl hthread ?_ rfl
                  rw [hmissed]
              | false =>
                  refine .keeps rfl rfl (fun _ hthread' => nomatch hthread')
                    fun block' hthread' => ?_
                  rw [hthread] at hthread'
                  cases hthread'
      · cases h
  | store =>
      simp only [step] at h
      split at h
      · obtain rfl := Option.some.inj h
        exact .keeps rfl rfl (fun _ hthread => nomatch hthread) trivial
      · cases h
  | fetchTemplate template =>
      simp only [step] at h
      split at h
      · cases h
      · obtain rfl := Option.some.inj h
        refine .restarts rfl (fun block hthread => ?_) trivial
        cases hs : s.thread with
        | mining block' current =>
            rw [hs] at hthread
            cases hthread
        | _ =>
            rw [hs] at hthread
            cases hthread
  | validateTemplate isValid =>
      simp only [step] at h
      split at h
      · obtain rfl := Option.some.inj h
        exact .keeps rfl rfl (fun _ hthread => Or.inl hthread) trivial
      · cases h
  | submitMinedBlock sent =>
      simp only [step] at h
      split at h
      · obtain rfl := Option.some.inj h
        exact .keeps rfl rfl (fun _ hthread => Or.inl hthread) trivial
      · cases h

theorem Moves.minesCurrent {s t : Miner} {e : MinerEvent} (moves : s.Moves e t)
    (hs : s.MinesCurrent) : t.MinesCurrent := by
  intro block hthread
  cases moves with
  | keeps template _ thread _ =>
      rw [template]
      exact (thread block hthread).elim (hs block) id
  | restarts _ thread _ => exact absurd hthread (thread block)
  | misses _ _ _ _ _ next =>
      rw [next] at hthread
      cases hthread

/-- Nothing is redone by a step exactly where it searches anew. -/
theorem Moves.nothingRedone_iff {s t : Miner} {e : MinerEvent} (moves : s.Moves e t)
    (hs : s.MinesCurrent) (hnothing : s.NothingRedone) :
    t.NothingRedone ↔ e.SearchesAnew s := by
  cases moves with
  | keeps template failed _ anew =>
      refine iff_of_true (fun block htemplate => ?_) anew
      rw [failed]
      exact hnothing block (template ▸ htemplate)
  | restarts failed _ anew =>
      refine iff_of_true (fun block htemplate => ?_) anew
      rw [failed]
      exact BlockHeader.nothingRedone_iff.mpr .nil
  | misses block clock event thread missed next =>
      subst event next
      have htemplate := hs block thread
      constructor
      · intro h block' hthread' _
        rw [thread] at hthread'
        cases hthread'
        exact (BlockHeader.nothingRedone_append_iff.mp (h block htemplate)).2
      · intro h block' htemplate'
        obtain rfl : block = block' := Option.some.inj (htemplate.symm.trans htemplate')
        exact BlockHeader.nothingRedone_append_iff.mpr
          ⟨hnothing block htemplate, h block thread missed⟩

theorem searchesAnew_of_step_eq_none {s : Miner} {e : MinerEvent} (h : s.step e = none) :
    e.SearchesAnew s := by
  cases e with
  | mine clock =>
      intro block hthread
      simp only [step, hthread] at h
      split at h <;> cases h
  | _ => trivial

/-- In a run, no state has redone work on its template exactly where every call that finds
nothing searches anew. -/
theorem stepsMeet_searchesAnew_iff (events : List MinerEvent) :
    Machine.StepsMeet step (fun s e => ∀ t, s.step e = some t → t.NothingRedone) new events ↔
      Machine.StepsMeet step (fun s e => e.SearchesAnew s) new events := by
  refine Machine.stepsMeet_iff (fun s => s.MinesCurrent ∧ s.NothingRedone)
    (fun s e hs => ⟨fun h => ?_, fun h t hstep => ?_⟩) (fun s e t hs h hstep => ?_) ⟨?_, ?_⟩ events
  · cases hstep : s.step e with
    | none => exact searchesAnew_of_step_eq_none hstep
    | some t => exact ((moves_of_step hstep).nothingRedone_iff hs.1 hs.2).mp (h t hstep)
  · exact ((moves_of_step hstep).nothingRedone_iff hs.1 hs.2).mpr h
  · exact ⟨(moves_of_step hstep).minesCurrent hs.1, h t hstep⟩
  · rintro block ⟨⟩
  · rintro template ⟨⟩

/-- A call that finds nothing leaves the template as it is. -/
theorem step_mine_of_missed {s : Miner} {block : Block} {clock : Nat → DateTime}
    (hthread : s.thread = .mining block true)
    (hmissed : (block.header.mine stepsPerCall clock).1 = false) :
    s.step (.mine clock) = some { s with thread := .idle, failed := s.failed ++ [clock] } := by
  simp only [step, hthread]
  split
  · next header hfound =>
      rw [hfound] at hmissed
      cases hmissed
  · rfl

omit [Crates] in
/-- Two calls find nothing on a template with nonce zero, as no digest meets its target. The
second one tries the candidates of the first one again. -/
theorem redone_twoCalls :
    letI : Crates := ⟨fun _ => ⟨1⟩, fun _ _ _ => false⟩
    let template : Block := ⟨⟨0, 0, ⟨0⟩, ⟨⟨0⟩⟩, 0⟩, []⟩
    let clock : Nat → DateTime := fun _ => 1
    ¬ Machine.StepsMeet step (fun s e => ∀ t, s.step e = some t → t.NothingRedone) new
      [.fetchTemplate template, .load, .clone, .mine clock, .load, .clone, .mine clock] := by
  let crates : Crates := ⟨fun _ => ⟨1⟩, fun _ _ _ => false⟩
  intro template clock h
  have hmissed : (template.header.mine stepsPerCall clock).1 = false := by
    rw [BlockHeader.mine_eq_of_none fun n _ => ?_]
    have htarget := (BlockHeader.candidate_sameTemplate clock template.header n).2.2
    have hhash : (BlockHeader.candidate clock template.header n).hash = ⟨1⟩ := rfl
    rw [BlockHeader.isMined, htarget, hhash]
    decide
  have hfirst := (h.2 _ rfl).2 _ rfl |>.2 _ rfl |>.2 _ (step_mine_of_missed rfl hmissed)
  have hsecond := (hfirst.2 _ rfl).2 _ rfl |>.1 _ (step_mine_of_missed rfl hmissed)
  have hpair := BlockHeader.nothingRedone_iff.mp (hsecond template rfl)
  exact (List.rel_of_pairwise_cons hpair List.mem_cons_self).2 rfl

end Miner

end ToyBtc
