import ToyBtc.Mining
import ToyBtc.History

/-!
# Blocks mined from a node's own template

The template builder, the miner and the block checks agree on everything but
the target: the template carries the chain's target, and the checks use the
one the tip's header declares. A mined template is accepted exactly when its
hash meets the tip's target as well and the adjustment that follows does not
overflow.
-/

namespace ToyBtc

namespace Blockchain

/-- The adjustment that a block with the given timestamp sets off, if any, stays
within a word. -/
def RetargetFits (s : Blockchain) (timestamp : DateTime) : Prop :=
  (s.blocks.length + 1) % difficultyUpdateInterval = 0 →
    ∀ first, s.blocks[s.blocks.length + 1 - difficultyUpdateInterval]? = some first →
      s.target.toNat * (numSeconds (timestamp - first.header.timestamp)).toNat /
        (idealBlockTime * difficultyUpdateInterval) < 2 ^ 256

theorem newTarget_isSome_iff {target : U256} (hle : target ≤ minTarget) {seconds : Int}
    (hpos : 0 ≤ seconds) :
    (newTarget target seconds).isSome ↔
      target.toNat * seconds.toNat / (idealBlockTime * difficultyUpdateInterval) < 2 ^ 256 := by
  obtain ⟨n, rfl⟩ := Int.eq_ofNat_of_zero_le hpos
  have hnumerator : (target.toNat : Int) * n = ((target.toNat * n : Nat) : Int) := by push_cast; rfl
  have hhigh : target.toNat * 4 < 2 ^ 256 := by
    have h := BitVec.le_def.mp hle
    have hmin : minTarget.toNat < 2 ^ 240 := by decide
    omega
  simp only [newTarget, wholePart, hnumerator, checkedMul, hhigh, if_true, Int.toNat_natCast,
    Int.not_ofNat_neg, if_false]
  by_cases hfit : target.toNat * n / (idealBlockTime * difficultyUpdateInterval) < 2 ^ 256
  · simp only [hfit, if_true, iff_true]
    split <;> rfl
  · simp only [hfit, if_false, Option.isSome_none, Bool.false_eq_true]

end Blockchain

namespace Blockchain

variable [Crates]

/-- Nothing but an overflow stops the adjustment after a new block. -/
theorem Stored.adjustedTarget_isSome_iff {s : Blockchain} (hs : s.Stored) {lastBlock b : Block}
    (hlast : s.blocks.getLast? = some lastBlock)
    (htime : lastBlock.header.timestamp < b.header.timestamp) :
    (adjustedTarget (s.blocks ++ [b]) s.target).isSome ↔ s.RetargetFits b.header.timestamp := by
  have hlen : (s.blocks ++ [b]).length = s.blocks.length + 1 := by simp
  unfold adjustedTarget RetargetFits
  rw [if_neg (by simp), hlen]
  by_cases hmod : (s.blocks.length + 1) % difficultyUpdateInterval = 0
  · have hlong : difficultyUpdateInterval ≤ s.blocks.length + 1 :=
      Nat.le_of_dvd (Nat.succ_pos _) (Nat.dvd_of_mod_eq_zero hmod)
    have hindex : s.blocks.length + 1 - difficultyUpdateInterval < s.blocks.length := by
      simp only [difficultyUpdateInterval] at hlong ⊢
      omega
    have hfirst := List.getElem?_eq_getElem hindex
    rw [if_neg (by simpa using hmod), List.getElem?_append_left hindex, hfirst,
      List.getLast?_concat]
    simp only [hmod, forall_const, Option.some.injEq, forall_eq']
    have hle := timestamp_le_getLast hs.checked.timestamps_lt (List.getElem_mem hindex) hlast
    exact newTarget_isSome_iff hs.target (Int.tdiv_nonneg
      (Int.sub_nonneg_of_le (hle.trans htime.le)) (by decide))
  · simp [hmod]

/-- The mempool transactions can all be in one block: their inputs are known and
signed for, no two of them share one, and none pays out more than it takes. -/
structure MempoolReady (s : Blockchain) : Prop where
  authorized : ∀ e ∈ s.mempool, ∀ i ∈ e.2.inputs, i.Authorized s.utxoSet
  disjoint : s.mempool.Pairwise fun a b => ¬ a.2.Conflicts b.2
  covered : ∀ e ∈ s.mempool, e.2.outputAmount ≤ e.2.inputAmount s.utxoSet

instance (s : Blockchain) : Decidable s.MempoolReady :=
  decidable_of_iff
    ((∀ e ∈ s.mempool, ∀ i ∈ e.2.inputs, i.Authorized s.utxoSet) ∧
      (s.mempool.Pairwise fun a b => ¬ a.2.Conflicts b.2) ∧
      ∀ e ∈ s.mempool, e.2.outputAmount ≤ e.2.inputAmount s.utxoSet)
    ⟨fun h => ⟨h.1, h.2.1, h.2.2⟩, fun h => ⟨h.authorized, h.disjoint, h.covered⟩⟩

/-- The transactions a template takes from the mempool. -/
def templateTxs (s : Blockchain) : List Tx := (s.mempool.take blockTransactionCap).map Prod.snd

theorem buildTemplate_ok {s : Blockchain} {height : UInt64} {pubkey : PublicKey}
    {uniqueId : Uuid} {now : DateTime} {b : Block}
    (h : s.buildTemplate height pubkey uniqueId now = .ok b) :
    b.header = ⟨now, 0, (s.blocks.getLast?.map fun b => b.header.hash).getD Hash.zero,
        MerkleRoot.calculate b.transactions, s.target⟩ ∧
      ∃ coinbase, b.transactions = coinbase :: s.templateTxs ∧ coinbase.inputs = [] ∧
        coinbase.outputs ≠ [] ∧ ∃ reward, blockReward height = some reward ∧
          coinbase.outputAmount = reward + (s.templateTxs.map fun tx => tx.fee s.utxoSet).sum := by
  simp only [buildTemplate] at h
  split at h
  · cases h
  · next minerFees hfees =>
      split at h
      · cases h
      · next hcoinbase =>
          cases h
          obtain ⟨-, htotal⟩ := (Block.calculateMinerFees_ok_iff ..).mp hfees
          have hpaid := (Block.verifyCoinbaseTransaction_ok_iff rfl _ _).mp hcoinbase
          have htotal : minerFees = (s.templateTxs.map fun tx => tx.fee s.utxoSet).sum := htotal
          rw [← htotal]
          exact ⟨rfl, _, rfl, hpaid⟩

/-- The transactions of a template pass the block checks. -/
theorem MempoolReady.verified {s : Blockchain} (ready : s.MempoolReady)
    (hnodup : ∀ e ∈ s.mempool, e.2.spends.Nodup) {coinbase : Tx} {height reward : UInt64}
    (hin : coinbase.inputs = []) (hout : coinbase.outputs ≠ [])
    (hreward : blockReward height = some reward)
    (hpaid : coinbase.outputAmount =
      reward + (s.templateTxs.map fun tx => tx.fee s.utxoSet).sum) :
    Verified s.utxoSet height coinbase s.templateTxs := by
  have hmem : ∀ tx ∈ s.templateTxs, ∃ e ∈ s.mempool, e.2 = tx := by
    intro tx htx
    obtain ⟨e, he, rfl⟩ := List.mem_map.mp htx
    exact ⟨e, List.mem_of_mem_take he, rfl⟩
  refine ⟨?_, ?_, ?_, hin, hout, reward, hreward, hpaid⟩
  · intro tx htx
    obtain ⟨e, he, rfl⟩ := hmem tx htx
    exact ready.authorized e he
  · apply List.nodup_flatMap.mpr
    constructor
    · intro tx htx
      obtain ⟨e, he, rfl⟩ := hmem tx htx
      exact hnodup e he
    · refine (ready.disjoint.sublist (List.take_sublist _ _)).map _ fun a b hab => ?_
      exact fun h ha hb => hab ⟨h, ha, hb⟩
  · intro tx htx
    obtain ⟨e, he, rfl⟩ := hmem tx htx
    exact ready.covered e he

end Blockchain

namespace Node

variable [Crates]

/-- A block mined from a node's own template is accepted exactly when its hash
also meets the target that the tip declares, and the adjustment it sets off
does not overflow. -/
theorem Reached.accepts_minedTemplate_iff {n : Node} (reached : n.Reached) {lastBlock : Block}
    (hlast : n.chain.blocks.getLast? = some lastBlock) (ready : n.chain.MempoolReady)
    {pubkey : PublicKey} {uniqueId : Uuid} {now : DateTime} {template : Block}
    (htemplate : MinerSvc.fetchTemplate n.chain pubkey uniqueId now = .ok template)
    {header : BlockHeader} (mined : BlockHeader.MinedUntilFound template.header header)
    (htime : lastBlock.header.timestamp < header.timestamp) :
    n.chain.Accepts { template with header } ↔
      header.hash.matchesTarget lastBlock.header.target = true ∧
        n.chain.RetargetFits header.timestamp := by
  have hstored := (ReachedBy.stored reached).1
  obtain ⟨hheader, coinbase, htxs, hin, hout, reward, hreward, hpaid⟩ :=
    Blockchain.buildTemplate_ok htemplate
  obtain ⟨hprev, hroot, -⟩ := mined.sameTemplate
  rw [hheader] at hprev hroot
  rw [hlast] at hprev
  have hverified : Block.verifyTransactions { template with header } n.chain.blockHeight
      n.chain.utxoSet = .ok () :=
    (Block.verifyTransactions_ok_iff ..).mpr ⟨coinbase, n.chain.templateTxs, htxs,
      ready.verified hstored.distinct hin hout hreward hpaid⟩
  have hchecked : Blockchain.checkHeader n.chain.blocks { template with header } = .ok () ↔
      header.hash.matchesTarget lastBlock.header.target = true := by
    rw [Blockchain.checkHeader_ok_iff hlast]
    exact ⟨fun h => h.2.1, fun h => ⟨hprev, h, hroot, htime⟩⟩
  rw [← hstored.adjustedTarget_isSome_iff (b := { template with header }) hlast htime, ← hchecked,
    Blockchain.accepts_iff]
  constructor
  · rintro ⟨hcheck, -, hadjust⟩
    exact ⟨hcheck, hadjust⟩
  · rintro ⟨hcheck, hadjust⟩
    exact ⟨hcheck, hverified, hadjust⟩

omit [Crates] in
/-- A chain of one block with a payment in its mempool. -/
theorem accepts_minedTemplate_genesis :
    letI := StandIn.crates
    ∃ (s : Blockchain) (template : Block), s.mempool ≠ [] ∧
      MinerSvc.fetchTemplate s StandIn.bob ⟨1⟩ nanosPerSecond = .ok template ∧
      s.Accepts template := by
  let := StandIn.crates
  have hrun : (StandIn.run [.addBlock StandIn.genesis, .addToMempool 0 StandIn.toBob]).any
      (fun s => decide (s.blocks = [StandIn.genesis] ∧ s.mempool ≠ [] ∧ s.MempoolReady ∧
        (MinerSvc.fetchTemplate s StandIn.bob ⟨1⟩ nanosPerSecond).toOption.any
          (fun template => decide (template.header.timestamp = nanosPerSecond ∧
            template.header.isMined = true ∧
            template.header.hash.matchesTarget minTarget = true)) = true)) = true := by
    decide +kernel
  obtain ⟨s, hs, hblocks, hmempool, ready, hfetch⟩ := StandIn.exists_run hrun
  obtain ⟨template, htemplate, htime, hmined, hhash⟩ := exists_ok_of_any hfetch
  have hlast : s.blocks.getLast? = some StandIn.genesis := by rw [hblocks]; rfl
  refine ⟨s, template, hmempool, htemplate, ?_⟩
  refine (Reached.accepts_minedTemplate_iff (StandIn.reached_of_run hs).node hlast ready
    htemplate (.of_isMined hmined) ?_).mpr ⟨hhash, ?_⟩
  · rw [htime]
    decide
  · intro hmod
    rw [hblocks] at hmod
    cases hmod

omit [Crates] in
/-- The tip declares a target that only the zero hash meets. -/
theorem not_accepts_minedTemplate :
    letI := StandIn.crates
    ¬ ∀ (n : Node) (lastBlock : Block), n.Reached → n.chain.blocks.getLast? = some lastBlock →
      n.chain.MempoolReady → ∀ pubkey uniqueId now template header,
        MinerSvc.fetchTemplate n.chain pubkey uniqueId now = .ok template →
        BlockHeader.MinedUntilFound template.header header →
        lastBlock.header.timestamp < header.timestamp →
        n.chain.Accepts { template with header } := by
  let := StandIn.crates
  let first := StandIn.firstBlock 0 [StandIn.coinbase StandIn.firstCoin]
  have hrun : (StandIn.run [.addBlock first]).any
      (fun s => decide (s.blocks = [first] ∧ s.MempoolReady ∧
        (MinerSvc.fetchTemplate s StandIn.bob ⟨1⟩ nanosPerSecond).toOption.any
          (fun template => decide (template.header.timestamp = nanosPerSecond ∧
            template.header.isMined = true ∧ (s.addBlock template).isOk = false)) = true)) =
      true := by
    decide +kernel
  obtain ⟨s, hs, hblocks, ready, hfetch⟩ := StandIn.exists_run hrun
  obtain ⟨template, htemplate, htime, hmined, hrejected⟩ := exists_ok_of_any hfetch
  have hlast : s.blocks.getLast? = some first := by rw [hblocks]; rfl
  intro h
  obtain ⟨t, ht⟩ := h ⟨s, none⟩ first (StandIn.reached_of_run hs).node hlast ready StandIn.bob
    ⟨1⟩ nanosPerSecond template template.header htemplate (.of_isMined hmined)
    (by rw [htime]; decide)
  dsimp only at ht
  rw [ht] at hrejected
  cases hrejected

end Node

end ToyBtc
