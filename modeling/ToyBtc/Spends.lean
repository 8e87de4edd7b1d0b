import ToyBtc.Ledger
import ToyBtc.StandIn

/-!
# Spends of a valid chain

Every input of a valid chain is live where it is spent, so it was created by an
earlier block, it is signed for the output created there, and a second spend
needs a second creation. Where a stored block has unwound before the replay, the set
still shows what the block has spent, and the next block can spend it again. As long
as every stored block is replayed, the stored UTXO set is the ledger of the chain,
which makes the full replay and the incremental update the same.
-/

namespace ToyBtc

open MapLog

variable [Crates]

/-- The transactions of a chain, in block order and then in transaction order. -/
def chainTxs (blocks : List Block) : List Tx := blocks.flatMap Block.transactions

theorem chainLog_eq_flatMap_chainTxs (blocks : List Block) :
    chainLog blocks = (chainTxs blocks).flatMap Tx.log := by
  simp only [chainLog, chainTxs, List.flatMap_assoc]
  rfl

theorem Tx.insert_mem_log {tx : Tx} {h : Hash} {v : Bool × TxOutput} :
    Edit.insert h v ∈ tx.log ↔ v.1 = false ∧ v.2 ∈ tx.outputs ∧ v.2.hash = h := by
  obtain ⟨marked, o⟩ := v
  simp only [Tx.log, List.mem_append, List.mem_map, reduceCtorEq, and_false, exists_false,
    Edit.insert.injEq, Prod.mk.injEq, false_or]
  grind

theorem Tx.erase_mem_log {tx : Tx} {h : Hash} : Edit.erase h ∈ tx.log ↔ h ∈ tx.spends := by
  simp [Tx.log]

/-- An output shown by a ledger was created by one of its blocks. -/
theorem exists_creator_of_ledger {blocks : List Block} {h : Hash} {o : TxOutput}
    (ho : (ledger blocks).output h = some o) :
    ∃ b ∈ blocks, ∃ tx ∈ b.transactions, o ∈ tx.outputs ∧ o.hash = h := by
  obtain ⟨marked, hlookup⟩ := UtxoSet.output_eq_some.mp ho
  have hmem := insert_mem_of_lookup_replay hlookup
  obtain ⟨b, hb, hlog⟩ := List.mem_flatMap.mp hmem
  obtain ⟨tx, htx, hedit⟩ := List.mem_flatMap.mp hlog
  exact ⟨b, hb, tx, htx, (Tx.insert_mem_log.mp hedit).2⟩

theorem TxInput.Authorized.mem {u : UtxoSet} {i : TxInput} (h : i.Authorized u) :
    i.prevTxOutputHash ∈ u := by
  obtain ⟨o, ho, -⟩ := h
  exact UtxoSet.mem_iff_output.mpr ⟨o, ho⟩

/-- What a transaction spends is live when its turn comes. -/
theorem ValidChain.live_at_spend {blocks : List Block} (valid : ValidChain blocks)
    {before after : List Tx} {tx : Tx} (hsplit : chainTxs blocks = before ++ tx :: after)
    {h : Hash} (hspend : h ∈ tx.spends) : h ∈ replay (before.flatMap Tx.log) ∅ := by
  induction valid generalizing after with
  | nil => simp [chainTxs] at hsplit
  | @concat bs b valid ext ih =>
      have htxs : chainTxs (bs ++ [b]) = chainTxs bs ++ b.transactions := by
        simp [chainTxs]
      rw [htxs] at hsplit
      rcases List.append_eq_append_iff.mp hsplit with ⟨inBlock, rfl, hb⟩ | ⟨rest, hrest, hb⟩
      · -- `tx` is in the last block, after the transactions `inBlock` of that block
        obtain ⟨coinbase, txs, hcons, hv⟩ := ext.verified
        rw [hcons] at hb
        cases inBlock with
        | nil =>
            obtain ⟨rfl, -⟩ := List.cons.inj hb
            simp [Tx.spends, hv.noInputs] at hspend
        | cons first inBlock =>
            rw [List.cons_append] at hb
            obtain ⟨rfl, rfl⟩ := List.cons.inj hb
            obtain ⟨i, hi, rfl⟩ := List.mem_map.mp hspend
            have hlive := (hv.authorized tx (by simp) i hi).mem
            rw [List.flatMap_append, replay_append, ← chainLog_eq_flatMap_chainTxs]
            apply mem_replay_of_mem hlive
            intro herase
            obtain ⟨tx', htx', hmem⟩ := List.mem_flatMap.mp herase
            have hspends := Tx.erase_mem_log.mp hmem
            rcases List.mem_cons.mp htx' with rfl | htx'
            · simp [Tx.spends, hv.noInputs] at hspends
            · have hdistinct := hv.distinct
              rw [List.flatMap_append, List.nodup_append] at hdistinct
              exact hdistinct.2.2 _ (List.mem_flatMap.mpr ⟨tx', htx', hspends⟩) _
                (by simp [hspend]) rfl
      · -- `tx` is in an earlier block
        cases rest with
        | nil =>
            obtain ⟨coinbase, txs, hcons, hv⟩ := ext.verified
            rw [hcons, List.nil_append] at hb
            obtain ⟨rfl, -⟩ := List.cons.inj hb
            simp [Tx.spends, hv.noInputs] at hspend
        | cons first rest =>
            rw [List.cons_append] at hb
            obtain ⟨rfl, rfl⟩ := List.cons.inj hb
            exact ih hrest

/-- Two spends of the same output hash have a creation of it in between: the
first spender or a transaction after it, but before the second spender. -/
theorem ValidChain.created_between {blocks : List Block} (valid : ValidChain blocks)
    {before between after : List Tx} {first second : Tx}
    (hsplit : chainTxs blocks = before ++ first :: between ++ second :: after) {h : Hash}
    (hfirst : h ∈ first.spends) (hsecond : h ∈ second.spends) :
    ∃ creator ∈ first :: between, h ∈ creator.creates := by
  have hlive := valid.live_at_spend hsplit hsecond
  obtain ⟨spent, unspent, hspends⟩ := List.append_of_mem hfirst
  have hlog : (before ++ first :: between).flatMap Tx.log =
      (before.flatMap Tx.log ++ spent.map Edit.erase) ++ Edit.erase h ::
        (unspent.map Edit.erase ++ (first.outputs.map fun o => Edit.insert o.hash (false, o)) ++
          between.flatMap Tx.log) := by
    simp [Tx.log, hspends]
  rw [hlog] at hlive
  obtain ⟨v, hv⟩ := exists_insert_of_live hlive
  rw [List.mem_append, List.mem_append] at hv
  rcases hv with (hv | hv) | hv
  · simp at hv
  · refine ⟨first, by simp, ?_⟩
    obtain ⟨o, ho, heq⟩ := List.mem_map.mp hv
    obtain ⟨rfl, -⟩ := Edit.insert.inj heq
    exact List.mem_map_of_mem ho
  · obtain ⟨tx, htx, hmem⟩ := List.mem_flatMap.mp hv
    obtain ⟨-, ho, rfl⟩ := Tx.insert_mem_log.mp hmem
    exact ⟨tx, List.mem_cons_of_mem _ htx, List.mem_map_of_mem ho⟩

/-- No transaction of a valid chain spends an output twice. -/
theorem ValidChain.spends_nodup {blocks : List Block} (valid : ValidChain blocks) {tx : Tx}
    (htx : tx ∈ chainTxs blocks) : tx.spends.Nodup := by
  obtain ⟨b, hb, hmem⟩ := List.mem_flatMap.mp htx
  obtain ⟨pre, post, rfl⟩ := List.append_of_mem hb
  obtain ⟨coinbase, txs, hcons, hv⟩ := valid.of_split.verified
  rw [hcons] at hmem
  rcases List.mem_cons.mp hmem with rfl | hmem
  · simp [Tx.spends, hv.noInputs]
  · exact (List.nodup_flatMap.mp hv.distinct).1 tx hmem

/-- The coinbase of a block has no inputs. Every other input spends an output
of an earlier block and is signed for it. -/
theorem CheckedChain.spends_created {pre post : List Block} {b : Block}
    (checked : CheckedChain (pre ++ b :: post)) :
    ∃ coinbase txs, b.transactions = coinbase :: txs ∧ coinbase.inputs = [] ∧
      ∀ tx ∈ txs, ∀ i ∈ tx.inputs, ∃ earlier ∈ pre, ∃ creator ∈ earlier.transactions,
        ∃ o ∈ creator.outputs, o.hash = i.prevTxOutputHash ∧
          i.signature.verify i.prevTxOutputHash o.pubkey = true := by
  obtain ⟨bs, hpre, passes⟩ := checked.of_split
  obtain ⟨coinbase, txs, hcons, hv⟩ := passes.verified
  refine ⟨coinbase, txs, hcons, hv.noInputs, fun tx htx i hi => ?_⟩
  obtain ⟨o, ho, hsig⟩ := hv.authorized tx htx i hi
  obtain ⟨earlier, hearlier, creator, hcreator, hmem, hhash⟩ := exists_creator_of_ledger ho
  exact ⟨earlier, hpre.subset hearlier, creator, hcreator, o, hmem, hhash, hsig⟩

/-- Every spend of the chain is valid, and no output is spent twice without
being created anew in between. -/
structure SpendsValid (blocks : List Block) : Prop where
  created : ∀ pre b post, blocks = pre ++ b :: post →
    ∃ coinbase txs, b.transactions = coinbase :: txs ∧ coinbase.inputs = [] ∧
      ∀ tx ∈ txs, ∀ i ∈ tx.inputs, ∃ earlier ∈ pre, ∃ creator ∈ earlier.transactions,
        ∃ o ∈ creator.outputs, o.hash = i.prevTxOutputHash ∧
          i.signature.verify i.prevTxOutputHash o.pubkey = true
  nodup : ∀ tx ∈ chainTxs blocks, tx.spends.Nodup
  recreated : ∀ before first between second after,
    chainTxs blocks = before ++ first :: between ++ second :: after →
    ∀ h ∈ first.spends, h ∈ second.spends →
      ∃ creator ∈ first :: between, h ∈ creator.creates

/-- A chain spends validly as long as no stored block spends what the UTXO set shows too
long, or otherwise than the chain. A creator counts from its own outputs on, which the
replay inserts after it has removed the inputs. -/
theorem Blockchain.ReachedBy.spendsValid {s : Blockchain}
    (reached : s.ReachedBy (Storing UpToDateFor)) : SpendsValid s.blocks := by
  have valid := reached.valid
  refine ⟨fun pre b post hsplit => ?_, fun tx htx => valid.spends_nodup htx, ?_⟩
  · rw [hsplit] at valid
    exact CheckedChain.spends_created (ValidChain.checked valid)
  · intro before first between second after hsplit h hfirst hsecond
    exact valid.created_between hsplit hfirst hsecond

namespace StandIn

/-- The chain of 49 quick blocks, with the set that it shows. -/
def quick : Blockchain :=
  letI := crates
  ⟨idleBlocks 49, ledger (idleBlocks 49), minTarget, []⟩

/-- The chain whose set has missed the fiftieth block. -/
def behind : Blockchain := letI := crates; quick.stored unwinding

omit [Crates] in
/-- A node that has stored the fiftieth block goes on with any block that passes its
checks there. -/
theorem exists_after_unwinding {b : Block} (h : letI := crates; behind.PassesChecks b) :
    letI := crates
    ∃ s : Blockchain, s.blocks = idleBlocks 49 ++ [unwinding] ++ [b] ∧ s.Reached ∧
      (behind.UpToDateFor b → s.ReachedBy (Blockchain.Storing Blockchain.UpToDateFor)) := by
  have hrun : (run ((idleBlocks 49).map Call.addBlock)).any
      (fun s => decide (s.blocks = idleBlocks 49 ∧ s.target = minTarget)) = true := by
    decide +kernel
  have hreturns : letI := crates; Machine.StepsMeet Blockchain.step Call.Returns Blockchain.new
      ((idleBlocks 49).map Call.addBlock) := by
    decide +kernel
  have hunwinds : letI := crates; quick.Unwinds unwinding := by
    decide +kernel
  let := crates
  obtain ⟨s, hs, hblocks, htarget⟩ := exists_run hrun
  have hsound := Blockchain.ReachedBy.sound (reachedBy_of_run hs hreturns)
  have hquick : quick.blocks = s.blocks := by rw [hblocks, quick]
  have houtput : quick.utxoSet.output = s.utxoSet.output := by
    rw [hsound.outputs, hblocks, quick]
  have hlate : s.Unwinds unwinding := by
    have hnone := hunwinds.2
    dsimp only [quick] at hnone
    rw [← hblocks, ← htarget] at hnone
    exact ⟨hunwinds.1.congr hquick houtput, hnone⟩
  have hblocks' : behind.blocks = (s.stored unwinding).blocks := by
    rw [behind, Blockchain.stored, Blockchain.stored, hquick]
  have houtput' : behind.utxoSet.output = (s.stored unwinding).utxoSet.output := by
    simpa only [behind, Blockchain.stored] using houtput
  have hpasses : (s.stored unwinding).PassesChecks b := h.congr hblocks' houtput'
  obtain ⟨t, ht, happend⟩ := Blockchain.exists_step_of_passesChecks hpasses
  have hnext : s.step (.addBlock unwinding) = some (s.stored unwinding) :=
    Blockchain.step_addBlock_of_unwinds hlate
  refine ⟨t, ?_, ?_, fun hcurrent => ?_⟩
  · rw [happend, Blockchain.stored, hblocks]
  · exact ((reached_of_run hs).tail trivial hnext).tail trivial ht
  · have hmeets := Blockchain.ReachedBy.upToDate (reachedBy_of_run hs hreturns)
    refine (hmeets.tail ?_ hnext).tail ?_ ht
    · rintro _ ⟨⟩ -
      exact hsound.upToDateFor _
    · rintro _ ⟨⟩ -
      intro k hk
      rw [← hblocks', ← hcurrent k hk]
      exact congrFun houtput'.symm k

end StandIn

omit [Crates] in
/-- The fiftieth block unwinds, and the next one spends another coin. -/
theorem spendsValid_unwound :
    letI := StandIn.crates
    ∃ s : Blockchain, s.blocks.length = 51 ∧ SpendsValid s.blocks := by
  let b := StandIn.nextBlock StandIn.unwinding 0 minTarget
    [StandIn.coinbase (StandIn.coin StandIn.alice 50 5000000000),
      StandIn.payment (StandIn.coin StandIn.alice 7 5000000000)
        [StandIn.coin StandIn.bob 51 5000000000]]
  have hpasses : letI := StandIn.crates
      StandIn.behind.PassesChecks b ∧ StandIn.behind.UpToDateFor b := by
    decide +kernel
  obtain ⟨s, hblocks, -, hmeets⟩ := StandIn.exists_after_unwinding hpasses.1
  let := StandIn.crates
  refine ⟨s, ?_, Blockchain.ReachedBy.spendsValid (hmeets hpasses.2)⟩
  rw [hblocks]
  decide +kernel

omit [Crates] in
/-- The coin of the first block is spent by the fiftieth block and by the one after it. -/
theorem not_spendsValid :
    letI := StandIn.crates; ¬ ∀ s : Blockchain, s.Reached → SpendsValid s.blocks := by
  let again := StandIn.payment StandIn.firstCoin [StandIn.coin StandIn.alice 51 5000000000]
  let b := StandIn.nextBlock StandIn.unwinding 0 minTarget
    [StandIn.coinbase (StandIn.coin StandIn.alice 50 5000000000), again]
  have hpasses : letI := StandIn.crates; StandIn.behind.PassesChecks b := by
    decide +kernel
  obtain ⟨s, hblocks, reached, -⟩ := StandIn.exists_after_unwinding hpasses
  have hspends : letI := StandIn.crates
      StandIn.firstCoin.hash ∈ StandIn.toBob.spends ∧ StandIn.firstCoin.hash ∈ again.spends ∧
        ∀ creator ∈ [StandIn.toBob, StandIn.coinbase (StandIn.coin StandIn.alice 50 5000000000)],
          StandIn.firstCoin.hash ∉ creator.creates := by
    decide +kernel
  let := StandIn.crates
  have hsplit : chainTxs s.blocks = (chainTxs (StandIn.idleBlocks 49) ++
      [StandIn.coinbase (StandIn.coin StandIn.alice 49 5000000000)]) ++ StandIn.toBob ::
        [StandIn.coinbase (StandIn.coin StandIn.alice 50 5000000000)] ++ again :: [] := by
    rw [hblocks]
    simp [chainTxs, StandIn.unwinding, StandIn.lateBlock, StandIn.nextBlock, b]
  intro h
  obtain ⟨creator, hcreator, hcreates⟩ :=
    (h s reached).recreated _ _ _ _ _ hsplit _ hspends.1 hspends.2.1
  exact hspends.2.2 creator hcreator hcreates

/-- On any node, also after restarts, the replay that follows an accepted block agrees
with a replay from nothing, and replaying once more changes nothing. If every block that
has been stored was replayed, it agrees with the incremental update. -/
theorem Node.Reached.replay_eq_update {n : Node} (reached : n.Reached) {b : Block}
    {t : Blockchain} (h : n.chain.addBlock b = .ok t) :
    t.rebuildUtxoSet.utxoSet.output =
        ({ t with utxoSet := ∅ } : Blockchain).rebuildUtxoSet.utxoSet.output ∧
      (n.ReachedBy Event.Returns →
        t.rebuildUtxoSet.utxoSet.output = (n.chain.utxoSet.applyBlock b).output) ∧
      t.rebuildUtxoSet.rebuildUtxoSet = t.rebuildUtxoSet := by
  have hstored := (Node.ReachedBy.stored reached).1
  obtain ⟨hpasses, hadjust⟩ := Blockchain.adjust_of_addBlock h
  have ht := (hstored.storeBlock hpasses).adjust hadjust
  refine ⟨?_, fun returned => (Node.ReachedBy.sound returned).1.output_addBlock h, ?_⟩
  · rw [ht.utxoSet_rebuild]
    simp only [Blockchain.rebuildUtxoSet, foldl_applyBlock_eq_replay]
    rfl
  · have hagain : t.rebuildUtxoSet.rebuildUtxoSet.utxoSet = t.rebuildUtxoSet.utxoSet :=
      ht.rebuild.utxoSet_rebuild.trans ht.utxoSet_rebuild.symm
    exact congrArg (fun utxoSet => ({ t with utxoSet } : Blockchain)) hagain

omit [Crates] in
/-- A node that restarted with a transaction in its mempool. -/
theorem replay_eq_update_restarted :
    letI := StandIn.crates
    ∃ (n : Node) (t : Blockchain), n.chain.addBlock StandIn.spendingBlock = .ok t ∧
      t.rebuildUtxoSet.utxoSet.output =
        ({ t with utxoSet := ∅ } : Blockchain).rebuildUtxoSet.utxoSet.output ∧
      t.rebuildUtxoSet.utxoSet.output =
        (n.chain.utxoSet.applyBlock StandIn.spendingBlock).output ∧
      t.rebuildUtxoSet.rebuildUtxoSet = t.rebuildUtxoSet := by
  let events : List Event := [.call (.addBlock StandIn.genesis),
    .call (.addToMempool 0 (StandIn.payment StandIn.firstCoin [])), .saveToFile, .restart]
  have hrun : letI := StandIn.crates; (StandIn.runNode events).any (fun n => decide
      ((n.chain.addBlock StandIn.spendingBlock).isOk = true)) = true := by
    decide +kernel
  have hreturns : letI := StandIn.crates
      Machine.StepsMeet Node.step Event.Returns Node.new events := by
    decide +kernel
  obtain ⟨n, hn, hok⟩ := StandIn.exists_runNode hrun
  let := StandIn.crates
  cases hadd : n.chain.addBlock StandIn.spendingBlock with
  | error e => rw [hadd] at hok; cases hok
  | ok t =>
      obtain ⟨hempty, hupdate, hagain⟩ :=
        Node.Reached.replay_eq_update (StandIn.reached_of_runNode hn) hadd
      exact ⟨n, t, hadd, hempty, hupdate (StandIn.reachedBy_of_runNode hn hreturns), hagain⟩

end ToyBtc
