import ToyBtc.FrontEnds

/-!
# Which transactions a template takes

The mempool is kept in ascending order of fees and a template takes its first
transactions, so what a template leaves out pays at least as much as what it
takes. It takes the best-paying ones only where there is nothing to choose.
-/

namespace ToyBtc

namespace Blockchain

/-- A fee is at most the fee of every later entry. -/
def FeesAscend (s : Blockchain) : Prop :=
  s.mempool.Pairwise fun e e' => e.2.fee s.utxoSet ≤ e'.2.fee s.utxoSet

/-- The mempool fits a template, or all of its transactions pay the same fee. -/
def NothingToChoose (s : Blockchain) : Prop :=
  s.mempool.length ≤ blockTransactionCap ∨
    ∀ e ∈ s.mempool, ∀ e' ∈ s.mempool, e.2.fee s.utxoSet = e'.2.fee s.utxoSet

end Blockchain

/-- Besides its coinbase the block has as many mempool transactions as fit, and none
that was left out pays a higher fee than one that was taken. -/
def Block.TakesBest (b : Block) (s : Blockchain) : Prop :=
  ∃ coinbase, ∃ taken left : Mempool, b.transactions = coinbase :: taken.map Prod.snd ∧
    (taken ++ left).Perm s.mempool ∧
    taken.length = min blockTransactionCap s.mempool.length ∧
    ∀ e ∈ taken, ∀ e' ∈ left, e'.2.fee s.utxoSet ≤ e.2.fee s.utxoSet

namespace Blockchain

theorem FeesAscend.of_sublist {s t : Blockchain} (hs : s.FeesAscend)
    (hsub : t.mempool.Sublist s.mempool) (houtput : t.utxoSet.output = s.utxoSet.output) :
    t.FeesAscend := by
  rw [FeesAscend]
  simp only [UtxoSet.fee_congr houtput]
  exact hs.sublist hsub

theorem sortByFee_pairwise (u : UtxoSet) (mempool : Mempool) :
    (sortByFee u mempool).Pairwise fun e e' => e.2.fee u ≤ e'.2.fee u := by
  have htotal : Std.Total fun e e' : DateTime × Tx => e.2.fee u ≤ e'.2.fee u :=
    ⟨fun e e' => UInt64.le_total ..⟩
  have htrans : IsTrans (DateTime × Tx) fun e e' => e.2.fee u ≤ e'.2.fee u :=
    ⟨fun _ _ _ => UInt64.le_trans⟩
  exact List.pairwise_insertionSort _ _

/-- Where there is nothing to choose, the first transactions of the mempool are best. -/
theorem NothingToChoose.take_best {s : Blockchain} (hs : s.NothingToChoose) :
    ∀ e ∈ s.mempool.take blockTransactionCap, ∀ e' ∈ s.mempool.drop blockTransactionCap,
      e'.2.fee s.utxoSet ≤ e.2.fee s.utxoSet := by
  intro e he e' he'
  rcases hs with hfits | hsame
  · rw [List.drop_eq_nil_of_le hfits] at he'
    cases he'
  · rw [hsame e' (List.mem_of_mem_drop he') e (List.mem_of_mem_take he)]
    exact UInt64.le_refl _

/-- In ascending order the first transactions are best nowhere else. -/
theorem FeesAscend.nothingToChoose {s : Blockchain} (hs : s.FeesAscend)
    (hbest : ∀ e ∈ s.mempool.take blockTransactionCap,
      ∀ e' ∈ s.mempool.drop blockTransactionCap, e'.2.fee s.utxoSet ≤ e.2.fee s.utxoSet) :
    s.NothingToChoose := by
  by_cases hfits : s.mempool.length ≤ blockTransactionCap
  · exact Or.inl hfits
  · rw [FeesAscend, ← List.take_append_drop blockTransactionCap s.mempool,
      List.pairwise_append] at hs
    have heq (e) (he : e ∈ s.mempool.take blockTransactionCap) (e')
        (he' : e' ∈ s.mempool.drop blockTransactionCap) :
        e.2.fee s.utxoSet = e'.2.fee s.utxoSet :=
      UInt64.le_antisymm (hs.2.2 e he e' he') (hbest e he e' he')
    -- one entry of each part, with which the others are compared
    have htake : s.mempool.take blockTransactionCap ≠ [] := by
      apply List.ne_nil_of_length_pos
      rw [List.length_take]
      exact lt_min (by decide) (by omega)
    have hdrop : s.mempool.drop blockTransactionCap ≠ [] := by
      apply List.ne_nil_of_length_pos
      rw [List.length_drop]
      omega
    obtain ⟨first, hfirst⟩ := List.exists_mem_of_ne_nil _ htake
    obtain ⟨last, hlast⟩ := List.exists_mem_of_ne_nil _ hdrop
    have hall (e) (he : e ∈ s.mempool) : e.2.fee s.utxoSet = first.2.fee s.utxoSet := by
      rw [← List.take_append_drop blockTransactionCap s.mempool, List.mem_append] at he
      rcases he with he | he
      · exact (heq e he last hlast).trans (heq first hfirst last hlast).symm
      · exact (heq first hfirst e he).symm
    exact Or.inr fun e he e' he' => (hall e he).trans (hall e' he').symm

end Blockchain

variable [Crates]

/-- A stored block leaves the fees of the mempool transactions that stay as they are. -/
def Call.KeepsFees (s : Blockchain) : Call → Prop
  | .addBlock b => ∀ added, s.addBlock b = .ok added → ∀ e ∈ added.mempool,
      e.2.fee added.rebuildUtxoSet.utxoSet = e.2.fee s.utxoSet
  | _ => True

instance (s : Blockchain) : DecidablePred (Call.KeepsFees s)
  | .addBlock b =>
      match hadd : s.addBlock b with
      | .error _ => isTrue fun added hadded => by rw [hadd] at hadded; cases hadded
      | .ok added =>
          decidable_of_iff (∀ e ∈ added.mempool,
            e.2.fee added.rebuildUtxoSet.utxoSet = e.2.fee s.utxoSet) <| by
              simp [Call.KeepsFees, hadd]
  | .addToMempool .. | .cleanupMempool _ => isTrue trivial

namespace Blockchain

/-- A submission that inserts its transaction sorts the mempool. -/
theorem FeesAscend.addToMempool {s : Blockchain} (hs : s.FeesAscend) (now : DateTime) (tx : Tx) :
    (s.addToMempool now tx).1.FeesAscend := by
  by_cases hadm : s.Admissible tx
  · rcases hloop : replaceOlder tx tx.inputs s.utxoSet s.mempool with ⟨u, mempool, proceed⟩
    obtain ⟨hout, hsub⟩ := replaceOlder_frame tx tx.inputs s.utxoSet s.mempool
    rw [hloop] at hout hsub
    rcases addToMempool_of_admissible hadm now hloop with
      ⟨-, heq⟩ | ⟨-, -, e, heq⟩ | ⟨-, -, heq⟩
    · rw [heq]
      exact hs.of_sublist hsub hout
    · rw [heq]
      exact hs.of_sublist hsub hout
    · rw [heq]
      exact sortByFee_pairwise _ _
  · obtain ⟨e, heq⟩ := addToMempool_of_not_admissible hadm now
    rw [heq]
    exact hs

theorem FeesAscend.step {s t : Blockchain} {c : Call} (hs : s.FeesAscend)
    (meets : c.KeepsFees s) (next : s.step c = some t) : t.FeesAscend := by
  cases c with
  | addBlock b =>
      rcases step_addBlock_cases next with ⟨added, hadded, rfl⟩ | ⟨-, rfl⟩ | ⟨-, rfl⟩
      · have hmempool : added.mempool = s.remainingMempool b := mempool_of_addBlock hadded
        have hsub : added.mempool.Sublist s.mempool := by
          rw [hmempool]
          exact List.filter_sublist
        have hkept : added.mempool.Pairwise
            fun e e' => e.2.fee s.utxoSet ≤ e'.2.fee s.utxoSet := List.Pairwise.sublist hsub hs
        apply hkept.imp_of_mem
        intro e e' he he' hle
        rw [meets added hadded e he, meets added hadded e' he']
        exact hle
      · exact hs.of_sublist List.filter_sublist rfl
      · exact hs
  | addToMempool now tx =>
      cases next
      exact hs.addToMempool now tx
  | cleanupMempool now =>
      cases next
      obtain ⟨-, -, houtput, hsub⟩ := cleanupMempool_frame s now
      exact hs.of_sublist hsub houtput

theorem ReachedBy.feesAscend {s : Blockchain} (reached : s.ReachedBy Call.KeepsFees) :
    s.FeesAscend :=
  reached.invariant FeesAscend (by simp [FeesAscend, new])
    fun _ _ _ hs meets next => hs.step meets next

/-- Every template takes the first transactions of the mempool. -/
theorem takesBest_iff_take {s : Blockchain} {height : UInt64} {pubkey : PublicKey}
    {uniqueId : Uuid} {now : DateTime} {b : Block}
    (h : s.buildTemplate height pubkey uniqueId now = .ok b) :
    b.TakesBest s ↔
      ∀ e ∈ s.mempool.take blockTransactionCap, ∀ e' ∈ s.mempool.drop blockTransactionCap,
        e'.2.fee s.utxoSet ≤ e.2.fee s.utxoSet := by
  obtain ⟨-, coinbase, htxs, -⟩ := buildTemplate_ok h
  constructor
  · rintro ⟨cb, taken, left, htaken, hperm, -, hbest⟩ e he e' he'
    have htakenTxs : taken.map Prod.snd = s.templateTxs :=
      (List.cons.inj (htaken.symm.trans htxs)).2
    have hleft : (left.map Prod.snd).Perm ((s.mempool.drop blockTransactionCap).map Prod.snd) := by
      have hall := hperm.map Prod.snd
      rw [← List.take_append_drop blockTransactionCap s.mempool, List.map_append,
        List.map_append, htakenTxs] at hall
      exact (List.perm_append_left_iff _).mp hall
    have hmemTaken : e.2 ∈ taken.map Prod.snd := by
      rw [htakenTxs]
      exact List.mem_map_of_mem he
    obtain ⟨d, hd, hde⟩ := List.mem_map.mp hmemTaken
    obtain ⟨d', hd', hde'⟩ := List.mem_map.mp (hleft.mem_iff.mpr (List.mem_map_of_mem he'))
    rw [← hde, ← hde']
    exact hbest d hd d' hd'
  · intro hbest
    refine ⟨coinbase, s.mempool.take blockTransactionCap, s.mempool.drop blockTransactionCap,
      htxs, ?_, List.length_take .., hbest⟩
    rw [List.take_append_drop]

/-- A template takes the best-paying transactions where there is nothing to choose,
and nowhere else as long as stored blocks leave fees alone. -/
theorem buildTemplate_takesBest {s : Blockchain} {height : UInt64} {pubkey : PublicKey}
    {uniqueId : Uuid} {now : DateTime} {b : Block}
    (h : s.buildTemplate height pubkey uniqueId now = .ok b) :
    (s.NothingToChoose → b.TakesBest s) ∧
      (s.ReachedBy Call.KeepsFees → b.TakesBest s → s.NothingToChoose) := by
  rw [takesBest_iff_take h]
  constructor
  · exact NothingToChoose.take_best
  · exact fun reached hbest => reached.feesAscend.nothingToChoose hbest

omit [Crates] in
/-- Of 21 payments with the same fee, left after a block without them, the template leaves
one out. -/
theorem buildTemplate_takesBest_sameFee :
    letI := StandIn.crates
    ∃ (s : Blockchain) (b : Block), s.blocks.length = 2 ∧ s.mempool.length = 21 ∧
      s.buildTemplate s.blockHeight StandIn.bob ⟨0⟩ 0 = .ok b ∧ b.TakesBest s ∧
        s.NothingToChoose := by
  let first := StandIn.firstBlock minTarget
    [⟨[], (StandIn.coin StandIn.alice 21 4999979000) ::
      (List.range 21).map fun i => StandIn.coin StandIn.alice i 1000⟩]
  let payments := (List.range 21).map fun i =>
    StandIn.payment (StandIn.coin StandIn.alice i 1000) [StandIn.coin StandIn.bob (100 + i) 900]
  let calls := Call.addBlock first :: payments.map (Call.addToMempool 0) ++
    [.addBlock (StandIn.nextBlock first 0 minTarget
      [StandIn.coinbase (StandIn.coin StandIn.bob 22 5000000000)])]
  have hrun : letI := StandIn.crates
      (StandIn.run calls).any (fun s => decide (s.blocks.length = 2 ∧ s.mempool.length = 21 ∧
        (s.buildTemplate s.blockHeight StandIn.bob ⟨0⟩ 0).isOk = true ∧
          ∀ e ∈ s.mempool, ∀ e' ∈ s.mempool, e.2.fee s.utxoSet = e'.2.fee s.utxoSet)) = true := by
    decide +kernel
  have meets : letI := StandIn.crates
      Machine.StepsMeet Blockchain.step Call.KeepsFees Blockchain.new calls := by
    decide +kernel
  let := StandIn.crates
  obtain ⟨s, hs, hblocks, hlen, hok, hsame⟩ := StandIn.exists_run hrun
  obtain ⟨b, hb⟩ := exists_ok_of_isOk hok
  obtain ⟨hfirst, hlast⟩ := buildTemplate_takesBest hb
  have hbest := hfirst (.inr hsame)
  exact ⟨s, b, hblocks, hlen, hb, hbest, hlast (StandIn.reachedBy_of_run hs meets) hbest⟩

omit [Crates] in
/-- Of 21 payments with fees from 0 to 20 the template takes the 20 cheapest. -/
theorem not_buildTemplate_takesBest :
    letI := StandIn.crates
    ¬ ∀ s : Blockchain, s.Reached → (∀ e ∈ s.mempool, ∀ h ∈ e.2.spends, h ∈ s.utxoSet) →
      ∀ b, s.buildTemplate s.blockHeight StandIn.bob ⟨0⟩ 0 = .ok b → b.TakesBest s := by
  let := StandIn.crates
  let coins := (List.range 21).map fun i => StandIn.coin StandIn.alice i 1000
  let rest := StandIn.coin StandIn.alice 21 4999979000
  let first := StandIn.firstBlock minTarget [⟨[], coins ++ [rest]⟩]
  let payments := (List.range 21).map fun i =>
    StandIn.payment (StandIn.coin StandIn.alice i 1000)
      [StandIn.coin StandIn.bob (100 + i) (1000 - UInt64.ofNat i)]
  let calls := Call.addBlock first :: payments.map (Call.addToMempool 0)
  have hrun : (StandIn.run calls).any (fun s => decide (
      (∀ e ∈ s.mempool, ∀ h ∈ e.2.spends, h ∈ s.utxoSet) ∧
        (s.buildTemplate s.blockHeight StandIn.bob ⟨0⟩ 0).isOk = true ∧
        ∃ e ∈ s.mempool.take blockTransactionCap, ∃ e' ∈ s.mempool.drop blockTransactionCap,
          e.2.fee s.utxoSet < e'.2.fee s.utxoSet)) = true := by
    decide +kernel
  obtain ⟨s, hs, hknown, hok, e, he, e', he', hlt⟩ := StandIn.exists_run hrun
  intro h
  obtain ⟨b, hb⟩ := exists_ok_of_isOk hok
  have hbest := (takesBest_iff_take hb).mp (h s (StandIn.reached_of_run hs) hknown b hb)
  exact UInt64.not_le.mpr hlt (hbest e he e' he')

end Blockchain

end ToyBtc
