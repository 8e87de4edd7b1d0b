import ToyBtc.Ledger
import ToyBtc.StandIn
import Mathlib.Algebra.Order.BigOperators.Group.Finset

/-!
# Money supply

As long as the output amounts of every transaction add up within a word, a
block adds at most its subsidy to the UTXO set: fees are exact differences
there, and a coinbase can only lose by wrapping. Without that bound a wrapping
sum passes for a small one, and the first block can already mint more. The other
way to mint more is to spend what a block has spent that the UTXO set has missed.
-/

namespace ToyBtc

open MapLog

/-- The exact sum of the amounts in a UTXO set. -/
def UtxoSet.supply (u : UtxoSet) : Nat := total (fun v => v.2.amount.toNat) u

/-- What the subsidies of the first `height` blocks add up to. -/
def issued (height : Nat) : Nat := ∑ i ∈ Finset.range height, subsidy i

/-- The exact sum of the output amounts. -/
def Tx.exactOutputs (tx : Tx) : Nat := WordSum.exact (tx.outputs.map TxOutput.amount)

/-- Every transaction's output amounts add up within a word. -/
def Block.NoOverflow (b : Block) : Prop := ∀ tx ∈ b.transactions, tx.exactOutputs < 2 ^ 64

instance (b : Block) : Decidable b.NoOverflow :=
  inferInstanceAs (Decidable (∀ tx ∈ b.transactions, tx.exactOutputs < 2 ^ 64))

theorem UtxoSet.supply_congr {u u' : UtxoSet} (h : u.output = u'.output) :
    u.supply = u'.supply := by
  apply total_congr
  intro k
  have hk := congrArg (Option.map fun o : TxOutput => o.amount.toNat) (congrFun h k)
  simpa [output, Function.comp_def] using hk

theorem UtxoSet.held_eq_amount (u : UtxoSet) (h : Hash) :
    held (fun v => v.2.amount.toNat) u h = (u.amount h).toNat := by
  unfold held amount output
  cases u.lookup h <;> rfl

theorem Tx.toNat_outputAmount {tx : Tx} (h : tx.exactOutputs < 2 ^ 64) :
    tx.outputAmount.toNat = tx.exactOutputs :=
  WordSum.toNat_sum_of_lt h

variable [Crates]

theorem Tx.inserted_log (tx : Tx) :
    inserted (fun v => v.2.amount.toNat) tx.log = tx.exactOutputs := by
  have herase : inserted (fun v : Bool × TxOutput => v.2.amount.toNat)
      (tx.spends.map Edit.erase) = 0 := by
    simp [inserted, Edit.measure, Edit.left, Function.comp_def]
  rw [log, inserted_append, herase, zero_add]
  simp [inserted, Edit.measure, Edit.left, exactOutputs, WordSum.exact, Function.comp_def]

theorem Block.inserted_log (b : Block) :
    inserted (fun v => v.2.amount.toNat) b.log = (b.transactions.map Tx.exactOutputs).sum := by
  unfold log
  induction b.transactions with
  | nil => rfl
  | cons tx rest ih =>
      rw [List.flatMap_cons, inserted_append, Tx.inserted_log, ih, List.map_cons, List.sum_cons]

/-- The transactions after the coinbase take at least their exact input
amounts out of the UTXO set. -/
theorem sum_inputAmount_le {u : UtxoSet} {b : Block} {coinbase : Tx} {txs : List Tx}
    (htxs : b.transactions = coinbase :: txs) (hdistinct : (txs.flatMap Tx.spends).Nodup) :
    WordSum.exact (txs.map fun tx => tx.inputAmount u) ≤
      ∑ k ∈ keys b.log, held (fun v => v.2.amount.toNat) u k := by
  have hkeys : (txs.flatMap Tx.spends).toFinset ⊆ keys b.log := by
    intro h hmem
    obtain ⟨tx, htx, hspend⟩ := List.mem_flatMap.mp (List.mem_toFinset.mp hmem)
    refine mem_keys.mpr ⟨.erase h, List.mem_flatMap.mpr ⟨tx, by simp [htxs, htx], ?_⟩, rfl⟩
    exact List.mem_append_left _ (List.mem_map_of_mem hspend)
  calc WordSum.exact (txs.map fun tx => tx.inputAmount u)
      ≤ ((txs.flatMap Tx.spends).map fun h => (u.amount h).toNat).sum := by
        clear htxs hdistinct hkeys
        induction txs with
        | nil => simp
        | cons tx rest ih =>
            have htx : (tx.inputAmount u).toNat ≤
                (tx.spends.map fun h => (u.amount h).toNat).sum := by
              rw [Tx.inputAmount_eq]
              simpa [WordSum.exact, Function.comp_def] using
                WordSum.toNat_sum_le (tx.spends.map u.amount)
            simp only [List.map_cons, WordSum.exact_cons, List.flatMap_cons, List.map_append,
              List.sum_append]
            omega
    _ = ∑ h ∈ (txs.flatMap Tx.spends).toFinset, (u.amount h).toNat :=
        (List.sum_toFinset _ hdistinct).symm
    _ ≤ ∑ h ∈ keys b.log, (u.amount h).toNat := Finset.sum_le_sum_of_subset hkeys
    _ = ∑ h ∈ keys b.log, held (fun v => v.2.amount.toNat) u h := by
        simp only [UtxoSet.held_eq_amount]

/-- A verified block without overflow adds at most its reward to the supply. -/
theorem Verified.supply_le {u : UtxoSet} {b : Block} {height : UInt64} {coinbase : Tx}
    {txs : List Tx} (htxs : b.transactions = coinbase :: txs)
    (hv : Verified u height coinbase txs) (hfit : b.NoOverflow) {reward : UInt64}
    (hreward : blockReward height = some reward) :
    (u.applyBlock b).supply ≤ u.supply + reward.toNat := by
  have hreplay := total_replay_le (fun v => v.2.amount.toNat) b.log u
  have hspent := sum_inputAmount_le (u := u) htxs hv.distinct
  have hfees := WordSum.exact_sub_add txs (fun tx => tx.inputAmount u) Tx.outputAmount hv.covered
  have houtputs : WordSum.exact (txs.map Tx.outputAmount) = (txs.map Tx.exactOutputs).sum := by
    rw [WordSum.exact, List.map_map]
    refine congrArg List.sum (List.map_congr_left fun tx htx => ?_)
    exact Tx.toNat_outputAmount (hfit tx (by simp [htxs, htx]))
  have hcoinbase : coinbase.exactOutputs ≤
      reward.toNat + WordSum.exact (txs.map fun tx => tx.fee u) := by
    obtain ⟨paid, hpaid, hamount⟩ := hv.paid
    obtain rfl : reward = paid := Option.some.inj (hreward.symm.trans hpaid)
    rw [← Tx.toNat_outputAmount (hfit coinbase (by simp [htxs])), hamount]
    exact (WordSum.toNat_add_le _ _).trans (Nat.add_le_add_left (WordSum.toNat_sum_le _) _)
  rw [Block.inserted_log, htxs, List.map_cons, List.sum_cons] at hreplay
  rw [UtxoSet.applyBlock_eq_replay]
  unfold UtxoSet.supply Tx.fee at *
  omega

/-- A valid chain whose blocks do not overflow holds at most the issued subsidies. -/
theorem ValidChain.supply_le {bs : List Block} (valid : ValidChain bs)
    (hfit : ∀ b ∈ bs, b.NoOverflow) : (ledger bs).supply ≤ issued bs.length := by
  induction valid with
  | nil => exact Nat.zero_le _
  | @concat bs b valid ext ih =>
      obtain ⟨coinbase, txs, htxs, hv⟩ := ext.verified
      have hlen := (ValidChain.checked (valid.concat ext)).length_le
      rw [List.length_append, List.length_singleton] at hlen
      have hheight := toNat_height (Nat.le_of_lt hlen)
      have hlt : (UInt64.ofNat bs.length).toNat < subsidyEnd := by omega
      obtain ⟨reward, hreward, hsubsidy⟩ := blockReward_of_lt hlt
      rw [hheight] at hsubsidy
      calc (ledger (bs ++ [b])).supply
          = ((ledger bs).applyBlock b).supply := by rw [ledger_concat]
        _ ≤ (ledger bs).supply + reward.toNat :=
            hv.supply_le htxs (hfit b (by simp)) hreward
        _ ≤ issued bs.length + subsidy bs.length := by
            rw [hsubsidy]
            exact Nat.add_le_add_right (ih fun b' hb' => hfit b' (by simp [hb'])) _
        _ = issued (bs ++ [b]).length := by
            rw [List.length_append, List.length_singleton, issued, issued,
              Finset.sum_range_succ]

/-- The output sums of the block do not wrap, and the set is up to date for what it spends. -/
def Blockchain.StoresExactly (s : Blockchain) (b : Block) : Prop :=
  b.NoOverflow ∧ s.UpToDateFor b

instance (s : Blockchain) (b : Block) : Decidable (s.StoresExactly b) :=
  inferInstanceAs (Decidable (_ ∧ _))

theorem Blockchain.ReachedBy.noOverflow {s : Blockchain}
    (reached : s.ReachedBy (Storing StoresExactly)) : ∀ b ∈ s.blocks, b.NoOverflow := by
  refine reached.invariant (fun s => ∀ b ∈ s.blocks, b.NoOverflow) (by simp [new]) ?_
  intro s c t hs meets next
  rcases step_blocks next with ⟨-, hblocks⟩ | ⟨b, rfl, hpasses, hblocks⟩
  · rwa [hblocks]
  · rw [hblocks]
    exact List.forall_mem_append.mpr ⟨hs, by simpa using (meets b rfl hpasses).1⟩

/-- While no stored transaction's output sum wraps and no stored block spends what the
set shows too long, the supply stays within the issued subsidies, also where the set is
behind the chain. -/
theorem Blockchain.ReachedBy.supply_le_issued {s : Blockchain}
    (reached : s.ReachedBy (Storing StoresExactly)) :
    s.utxoSet.supply ≤ issued s.blocks.length := by
  have valid : ValidChain s.blocks :=
    ReachedBy.valid (reached.imp fun _ _ h b hb hpasses => (h b hb hpasses).2)
  obtain ⟨bs, ⟨late, hblocks⟩, houtputs⟩ := (ReachedBy.stored reached).outputs
  have hfit := reached.noOverflow
  rw [← hblocks] at valid hfit
  calc s.utxoSet.supply
      = (ledger bs).supply := UtxoSet.supply_congr houtputs
    _ ≤ issued bs.length :=
        ValidChain.supply_le (valid.of_append late) fun b hb => hfit b (List.mem_append_left _ hb)
    _ ≤ issued s.blocks.length := by
        rw [← hblocks, List.length_append]
        exact Finset.sum_le_sum_of_subset (Finset.range_mono (Nat.le_add_right _ _))

omit [Crates] in
theorem supply_le_issued_spendingBlock :
    letI := StandIn.crates
    ∃ s : Blockchain, s.blocks = [StandIn.genesis, StandIn.spendingBlock] ∧
      s.utxoSet.supply ≤ issued s.blocks.length := by
  have hrun : (StandIn.run [.addBlock StandIn.genesis, .addBlock StandIn.spendingBlock]).any
      (fun s => decide (s.blocks = [StandIn.genesis, StandIn.spendingBlock])) = true := by
    decide +kernel
  have hmeets : letI := StandIn.crates; Machine.StepsMeet Blockchain.step
      (Blockchain.Storing Blockchain.StoresExactly) Blockchain.new
        [.addBlock StandIn.genesis, .addBlock StandIn.spendingBlock] := by
    decide +kernel
  obtain ⟨s, hs, hblocks⟩ := StandIn.exists_run hrun
  let := StandIn.crates
  exact ⟨s, hblocks, Blockchain.ReachedBy.supply_le_issued (StandIn.reachedBy_of_run hs hmeets)⟩

omit [Crates] in
/-- The first block's coinbase mints two coins whose sum wraps to the subsidy. -/
theorem supply_not_le_issued :
    letI := StandIn.crates
    ¬ ∀ s : Blockchain, s.Reached → s.utxoSet.supply ≤ issued s.blocks.length := by
  have hrun : (StandIn.run [.addBlock (StandIn.firstBlock minTarget
      [⟨[], [StandIn.coin StandIn.alice 0 (2 ^ 63),
        StandIn.coin StandIn.alice 1 (2 ^ 63 + 5000000000)]⟩])]).any
      (fun s => decide (issued s.blocks.length < s.utxoSet.supply)) = true := by
    decide +kernel
  obtain ⟨s, hs, hsupply⟩ := StandIn.exists_run hrun
  exact fun h => Nat.not_le.mpr hsupply (h s (StandIn.reached_of_run hs))

end ToyBtc
