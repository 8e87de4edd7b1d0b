import ToyBtc.Spends

/-!
# Mempool transactions that a block can take

The mempool and the block checks look at different things. A stored block
evicts by transaction hash, so a transaction whose input it spends can stay,
and admission does not look at signatures.
-/

namespace ToyBtc

open MapLog

/-- The inputs of the transaction are all known and pay for its outputs. -/
structure Tx.SpendableIn (tx : Tx) (u : UtxoSet) : Prop where
  known : ∀ h ∈ tx.spends, h ∈ u
  covered : tx.outputAmount ≤ tx.inputAmount u

theorem Tx.SpendableIn.congr {tx : Tx} {u u' : UtxoSet}
    (h : ∀ k ∈ tx.spends, u'.output k = u.output k) (hs : tx.SpendableIn u) :
    tx.SpendableIn u' where
  known k hk := by
    obtain ⟨o, ho⟩ := UtxoSet.mem_iff_output.mp (hs.known k hk)
    exact UtxoSet.mem_iff_output.mpr ⟨o, (h k hk).trans ho⟩
  covered := by
    have hamounts : tx.spends.map u'.amount = tx.spends.map u.amount :=
      List.map_congr_left fun k hk => by rw [UtxoSet.amount, UtxoSet.amount, h k hk]
    rw [Tx.inputAmount_eq, hamounts, ← Tx.inputAmount_eq]
    exact hs.covered

/-- A spendable transaction pays the exact difference as its fee. -/
theorem Tx.SpendableIn.toNat_fee {tx : Tx} {u : UtxoSet} (hs : tx.SpendableIn u) :
    (tx.fee u).toNat = (tx.inputAmount u).toNat - tx.outputAmount.toNat :=
  UInt64.toNat_sub_of_le _ _ hs.covered

/-- Every mempool transaction is spendable, so no fee underflows, and the fees of
any part of the mempool can be added up for a template. -/
structure Blockchain.MempoolSpendable (s : Blockchain) : Prop where
  spendable : ∀ e ∈ s.mempool, e.2.SpendableIn s.utxoSet
  fee : ∀ e ∈ s.mempool, (e.2.fee s.utxoSet).toNat =
    (e.2.inputAmount s.utxoSet).toNat - e.2.outputAmount.toNat
  minerFees : ∀ header coinbase count, ∃ total,
    (Block.new header (coinbase :: (s.mempool.take count).map Prod.snd)).calculateMinerFees
      s.utxoSet = .ok total

theorem Blockchain.mempoolSpendable_of_forall {s : Blockchain}
    (h : ∀ e ∈ s.mempool, e.2.SpendableIn s.utxoSet) : s.MempoolSpendable where
  spendable := h
  fee e he := (h e he).toNat_fee
  minerFees header coinbase count := by
    refine ⟨_, (Block.calculateMinerFees_ok_iff ..).mpr ⟨?_, rfl⟩⟩
    intro tx htx
    obtain ⟨e, he, rfl⟩ := List.mem_map.mp htx
    exact (h e (List.mem_of_mem_take he)).known

variable [Crates]

/-- The inputs of a mempool transaction that stays are kept by the blocks that are
replayed. Where the accepted block touches one, it ends up creating the same output
again, and elsewhere no stored block has touched one since the set was last replayed. -/
def Call.KeepsInputs (s : Blockchain) : Call → Prop
  | .addBlock b => s.Accepts b → ∀ e ∈ s.remainingMempool b, ∀ h ∈ e.2.spends,
      (∀ left, final h b.log = some left → left.map Prod.snd = s.utxoSet.output h) ∧
      (final h b.log = none → (ledger s.blocks).output h = s.utxoSet.output h)
  | _ => True

instance (s : Blockchain) (c : Call) : Decidable (c.KeepsInputs s) :=
  match c with
  | .addBlock b =>
      decidable_of_iff (s.Accepts b → ∀ e ∈ s.remainingMempool b, ∀ h ∈ e.2.spends,
        ((final h b.log).map (Option.map Prod.snd)).getD ((ledger s.blocks).output h) =
          s.utxoSet.output h) <| by
        refine imp_congr_right fun _ => forall₂_congr fun e _ => forall₂_congr fun h _ => ?_
        cases final h b.log <;> simp
  | .addToMempool .. | .cleanupMempool _ => isTrue trivial

namespace Blockchain

theorem spendable_addBlock {s added : Blockchain} {b : Block} (hstored : s.Stored)
    (hs : ∀ e ∈ s.mempool, e.2.SpendableIn s.utxoSet)
    (meets : Call.KeepsInputs s (.addBlock b)) (hadded : s.addBlock b = .ok added) :
    ∀ e ∈ added.rebuildUtxoSet.mempool, e.2.SpendableIn added.rebuildUtxoSet.utxoSet := by
  obtain ⟨hblocks, hledger⟩ := hstored.rebuild_addBlock hadded
  intro e he
  rw [mempool_of_addBlock hadded] at he
  refine (hs e (List.mem_of_mem_filter he)).congr fun h hspend => ?_
  obtain ⟨htouched, hkept⟩ := meets ⟨added, hadded⟩ e he h hspend
  rw [hledger, hblocks, ledger_concat, UtxoSet.output, UtxoSet.applyBlock_eq_replay,
    lookup_replay]
  cases hfinal : final h b.log with
  | none => exact hkept hfinal
  | some left => exact htouched left hfinal

theorem spendable_step {s t : Blockchain} {c : Call} (hstored : s.Stored)
    (hs : ∀ e ∈ s.mempool, e.2.SpendableIn s.utxoSet) (meets : c.KeepsInputs s)
    (h : s.step c = some t) : ∀ e ∈ t.mempool, e.2.SpendableIn t.utxoSet := by
  cases c with
  | addBlock b =>
      rcases step_addBlock_cases h with ⟨added, hadded, rfl⟩ | ⟨-, rfl⟩ | ⟨-, rfl⟩
      · exact spendable_addBlock hstored hs meets hadded
      · exact fun e he => hs e (List.mem_of_mem_filter he)
      · exact hs
  | addToMempool now tx =>
      have houtput : t.utxoSet.output = s.utxoSet.output := by
        cases h
        exact (addToMempool_cases s now tx).2.2.1
      intro e he
      have hbefore : e.2.SpendableIn s.utxoSet := by
        rcases step_mempool h he with hold | ⟨_, -, hadm, hpaid⟩
        · exact hs e hold
        · exact ⟨hadm.known, hpaid⟩
      exact hbefore.congr fun k _ => congrFun houtput k
  | cleanupMempool now =>
      cases h
      obtain ⟨-, -, houtput, hsub⟩ := cleanupMempool_frame s now
      intro e he
      exact (hs e (hsub.mem he)).congr fun k _ => congrFun houtput k

/-- As long as the blocks that are replayed keep the inputs of the mempool transactions
that stay, the whole mempool can be mined. -/
theorem ReachedBy.mempoolSpendable {s : Blockchain} (reached : s.ReachedBy Call.KeepsInputs) :
    s.MempoolSpendable := by
  refine mempoolSpendable_of_forall (reached.invariant
    (fun s => s.Stored ∧ ∀ e ∈ s.mempool, e.2.SpendableIn s.utxoSet) ⟨sound_new.stored, ?_⟩ ?_).2
  · simp [new]
  · rintro s c t ⟨hstored, hs⟩ meets next
    exact ⟨hstored.step next, spendable_step hstored hs meets next⟩

omit [Crates] in
/-- A block takes one of two payments and leaves the coin of the other. -/
theorem mempoolSpendable_paysLarge :
    letI := StandIn.crates
    ∃ s : Blockchain, s.blocks = [StandIn.twoCoins, StandIn.takesSmall] ∧
      s.mempool.map Prod.snd = [StandIn.paysLarge] ∧ s.MempoolSpendable := by
  let calls : List Call := [.addBlock StandIn.twoCoins, .addToMempool 0 StandIn.paysSmall,
    .addToMempool 1 StandIn.paysLarge, .addBlock StandIn.takesSmall]
  have hrun : letI := StandIn.crates
      (StandIn.run calls).any (fun s => decide
        (s.blocks = [StandIn.twoCoins, StandIn.takesSmall] ∧
          s.mempool.map Prod.snd = [StandIn.paysLarge])) = true := by
    decide +kernel
  have meets : letI := StandIn.crates
      Machine.StepsMeet Blockchain.step (fun s c => c.KeepsInputs s) Blockchain.new calls := by
    decide +kernel
  let := StandIn.crates
  obtain ⟨s, hs, hblocks, hmempool⟩ := StandIn.exists_run hrun
  exact ⟨s, hblocks, hmempool, ReachedBy.mempoolSpendable (StandIn.reachedBy_of_run hs meets)⟩

omit [Crates] in
/-- A block spends the coin of a mempool transaction by another transaction. -/
theorem not_mempoolSpendable :
    letI := StandIn.crates
    ¬ ∀ s : Blockchain, s.Reached → s.MempoolSpendable := by
  let := StandIn.crates
  let toAlice := StandIn.payment StandIn.firstCoin [StandIn.coin StandIn.alice 3 5000000000]
  let block := StandIn.nextBlock StandIn.genesis 0 minTarget
    [StandIn.coinbase (StandIn.coin StandIn.bob 1 5000000000), toAlice]
  have hrun : (StandIn.run [.addBlock StandIn.genesis, .addToMempool 0 StandIn.toBob,
      .addBlock block]).any (fun s => decide (∃ e ∈ s.mempool, ∃ h ∈ e.2.spends,
        h ∉ s.utxoSet)) = true := by
    decide +kernel
  obtain ⟨s, hs, e, he, h, hspend, hgone⟩ := StandIn.exists_run hrun
  exact fun hall => hgone (((hall s (StandIn.reached_of_run hs)).spendable e he).known h hspend)

omit [Crates] in
/-- The code's two reward computations agree until the subsidy ends. -/
theorem blockReward_eq_calculateBlockReward {s : Blockchain} (hlen : s.blocks.length < subsidyEnd) :
    blockReward s.blockHeight = some s.calculateBlockReward := by
  have hheight : s.blockHeight.toNat = s.blocks.length := toNat_height hlen.le
  obtain ⟨reward, hreward, hsubsidy⟩ := blockReward_of_lt (hheight ▸ hlen)
  have hera : s.blocks.length / 210 < 64 := Nat.div_lt_of_lt_mul (by simpa [subsidyEnd] using hlen)
  rw [hreward, Option.some.injEq, ← UInt64.toNat_inj, hsubsidy, calculateBlockReward,
    UInt64.toNat_shiftRight, UInt64.toNat_div, hheight]
  change _ = 5000000000 >>> (s.blocks.length / 210 % 64)
  rw [Nat.mod_eq_of_lt hera, Nat.shiftRight_eq_div_pow, subsidy]

end Blockchain

namespace Node

/-- A transaction that a node inserts makes a block on its own exactly when all
its signatures verify and the subsidy schedule has not ended. -/
theorem Reached.verifyTransactions_iff {n : Node} (reached : n.Reached) {now : DateTime}
    {tx : Tx} (inserted : n.chain.Inserts now tx) (header : BlockHeader) {coinbase : Tx}
    (hin : coinbase.inputs = []) (hout : coinbase.outputs ≠ [])
    (hpaid : coinbase.outputAmount = n.chain.calculateBlockReward + tx.fee n.chain.utxoSet) :
    (Block.new header [coinbase, tx]).verifyTransactions n.chain.blockHeight n.chain.utxoSet =
        .ok () ↔
      (∀ i ∈ tx.inputs, ∀ o, n.chain.utxoSet.output i.prevTxOutputHash = some o →
        i.signature.verify i.prevTxOutputHash o.pubkey = true) ∧
      n.chain.blocks.length < subsidyEnd := by
  obtain ⟨hadm, hcovered⟩ := inserted.admissible
  rw [Block.verifyTransactions_ok_iff]
  constructor
  · rintro ⟨coinbase', txs, htxs, hv⟩
    cases htxs
    constructor
    · intro i hi o ho
      exact (hv.authorized tx (by simp) i hi).verify ho
    · obtain ⟨reward, hreward, -⟩ := hv.paid
      exact lt_subsidyEnd_of_blockReward (ReachedBy.stored reached).1.checked.length_le hreward
  · rintro ⟨hsigned, hlen⟩
    refine ⟨coinbase, [tx], rfl, ?_, ?_, ?_, hin, hout, ?_⟩
    · intro tx' htx' i hi
      obtain rfl := List.mem_singleton.mp htx'
      obtain ⟨o, ho⟩ := UtxoSet.mem_iff_output.mp (hadm.known _ (List.mem_map_of_mem hi))
      exact ⟨o, ho, hsigned i hi o ho⟩
    · simpa using hadm.distinct
    · simpa using hcovered
    · exact ⟨_, Blockchain.blockReward_eq_calculateBlockReward hlen, by simpa using hpaid⟩

omit [Crates] in
theorem verifyTransactions_toBob :
    letI := StandIn.crates
    ∃ s : Blockchain, s.blocks = [StandIn.genesis] ∧ s.Inserts 0 StandIn.toBob ∧
      (Block.new StandIn.genesis.header
        [StandIn.coinbase (StandIn.coin StandIn.bob 9 5000000000),
          StandIn.toBob]).verifyTransactions s.blockHeight s.utxoSet = .ok () := by
  let := StandIn.crates
  have hrun : (StandIn.run [.addBlock StandIn.genesis]).any (fun s =>
      decide (s.blocks = [StandIn.genesis] ∧ s.Inserts 0 StandIn.toBob ∧
        (StandIn.coinbase (StandIn.coin StandIn.bob 9 5000000000)).outputAmount =
          s.calculateBlockReward + StandIn.toBob.fee s.utxoSet ∧
        ∀ i ∈ StandIn.toBob.inputs, i.Authorized s.utxoSet)) = true := by
    decide +kernel
  obtain ⟨s, hs, hblocks, inserted, hpaid, hauth⟩ := StandIn.exists_run hrun
  refine ⟨s, hblocks, inserted, (Reached.verifyTransactions_iff (StandIn.reached_of_run hs).node
    inserted _ rfl (by simp [StandIn.coinbase]) hpaid).mpr ⟨?_, by simp [hblocks, subsidyEnd]⟩⟩
  exact fun i hi o ho => (hauth i hi).verify ho

omit [Crates] in
/-- A payment without a valid signature is admitted. -/
theorem not_verifyTransactions_of_inserts :
    letI := StandIn.crates
    ¬ ∀ (n : Node) (now : DateTime) (tx : Tx) (header : BlockHeader) (coinbase : Tx),
      n.Reached → n.chain.Inserts now tx → coinbase.inputs = [] → coinbase.outputs ≠ [] →
      coinbase.outputAmount = n.chain.calculateBlockReward + tx.fee n.chain.utxoSet →
      (Block.new header [coinbase, tx]).verifyTransactions n.chain.blockHeight
        n.chain.utxoSet = .ok () := by
  let := StandIn.crates
  let forged : Tx := ⟨[⟨StandIn.firstCoin.hash, ⟨0⟩⟩], [StandIn.coin StandIn.bob 2 5000000000]⟩
  let coinbase := StandIn.coinbase (StandIn.coin StandIn.bob 9 5000000000)
  have hrun : (StandIn.run [.addBlock StandIn.genesis]).any (fun s =>
      decide (s.Inserts 0 forged ∧
        coinbase.outputAmount = s.calculateBlockReward + forged.fee s.utxoSet ∧
        ((Block.new StandIn.genesis.header [coinbase, forged]).verifyTransactions
          s.blockHeight s.utxoSet).isOk = false)) = true := by
    decide +kernel
  obtain ⟨s, hs, inserted, hpaid, hrejected⟩ := StandIn.exists_run hrun
  intro hall
  have haccepted := hall ⟨s, none⟩ 0 forged StandIn.genesis.header coinbase
    (StandIn.reached_of_run hs).node inserted rfl (by simp [coinbase, StandIn.coinbase]) hpaid
  dsimp only at haccepted
  rw [haccepted] at hrejected
  cases hrejected

end Node

end ToyBtc
