import ToyBtc.Template
import ToyBtc.Eligibility

/-!
# One template from two front ends

TCP and gRPC build templates with the same procedure written twice. They verify
the coinbase at different heights, so they part where the subsidy is about to
be halved.
-/

namespace ToyBtc

variable [Crates]

/-- The answer to `FetchTemplate`, over TCP. -/
def Handler.fetchTemplate (s : Blockchain) (pubkey : PublicKey) (uniqueId : Uuid)
    (now : DateTime) : Outcome Block :=
  s.buildTemplate (s.blockHeight + 1) pubkey uniqueId now

namespace Blockchain

/-- Every input of the transactions that a template takes is known. -/
def TemplateInputsKnown (s : Blockchain) : Prop :=
  ∀ tx ∈ s.templateTxs, ∀ h ∈ tx.spends, h ∈ s.utxoSet

/-- The coinbase of a template: one output for the reward and the fees. -/
def templateCoinbase (s : Blockchain) (pubkey : PublicKey) (uniqueId : Uuid) : Tx :=
  ⟨[], [⟨s.calculateBlockReward + (s.templateTxs.map fun tx => tx.fee s.utxoSet).sum,
    uniqueId, pubkey⟩]⟩

/-- The template of a state. -/
def template (s : Blockchain) (pubkey : PublicKey) (uniqueId : Uuid) (now : DateTime) : Block :=
  let transactions := s.templateCoinbase pubkey uniqueId :: s.templateTxs
  ⟨⟨now, 0, tipHash s.blocks, MerkleRoot.calculate transactions, s.target⟩, transactions⟩

omit [Crates] in
theorem templateFees_ok_iff (s : Blockchain) (header : BlockHeader) (coinbase : Tx)
    (total : UInt64) :
    (Block.new header (coinbase :: s.templateTxs)).calculateMinerFees s.utxoSet = .ok total ↔
      s.TemplateInputsKnown ∧ total = (s.templateTxs.map fun tx => tx.fee s.utxoSet).sum :=
  Block.calculateMinerFees_ok_iff ..

/-- The height of the coinbase check decides whether there is a template, and has
no part in it. -/
theorem buildTemplate_ok_iff {s : Blockchain} {height : UInt64} {pubkey : PublicKey}
    {uniqueId : Uuid} {now : DateTime} {b : Block} :
    s.buildTemplate height pubkey uniqueId now = .ok b ↔
      s.TemplateInputsKnown ∧ blockReward height = some s.calculateBlockReward ∧
        b = s.template pubkey uniqueId now := by
  have hamount : (s.templateCoinbase pubkey uniqueId).outputAmount =
      s.calculateBlockReward + (s.templateTxs.map fun tx => tx.fee s.utxoSet).sum := by
    simp [templateCoinbase, Tx.outputAmount]
  simp only [buildTemplate]
  constructor
  · intro h
    split at h
    · cases h
    · next minerFees hfees =>
        obtain ⟨hknown, rfl⟩ := (templateFees_ok_iff ..).mp hfees
        split at h
        · cases h
        · next hcoinbase =>
            cases h
            obtain ⟨-, -, reward, hreward, hpaid⟩ :=
              (Block.verifyCoinbaseTransaction_ok_iff rfl _ _).mp hcoinbase
            obtain rfl := add_right_cancel (hamount.symm.trans hpaid)
            exact ⟨hknown, hreward, rfl⟩
  · rintro ⟨hknown, hreward, rfl⟩
    split
    · next e hfees => cases hfees.symm.trans ((templateFees_ok_iff ..).mpr ⟨hknown, rfl⟩)
    · next minerFees hfees =>
        obtain ⟨-, rfl⟩ := (templateFees_ok_iff ..).mp hfees
        split
        · next e hcoinbase =>
            rw [(Block.verifyCoinbaseTransaction_ok_iff rfl _ _).mpr
              ⟨rfl, List.cons_ne_nil _ _, _, hreward, hamount⟩] at hcoinbase
            cases hcoinbase
        · rfl

/-- Two templates that differ in the identifier of the coinbase, the time and the
Merkle root alone. -/
structure SameTemplate (b b' : Block) : Prop where
  header : b'.header = { b.header with
    timestamp := b'.header.timestamp, merkleRoot := b'.header.merkleRoot }
  merkleRoot : b.header.merkleRoot = MerkleRoot.calculate b.transactions
  merkleRoot' : b'.header.merkleRoot = MerkleRoot.calculate b'.transactions
  transactions : ∃ amount pubkey uniqueId uniqueId' txs,
    b.transactions = ⟨[], [⟨amount, uniqueId, pubkey⟩]⟩ :: txs ∧
      b'.transactions = ⟨[], [⟨amount, uniqueId', pubkey⟩]⟩ :: txs

/-- Both front ends have a template or neither has one, and the templates are the same. -/
def FrontEndsAgree (r r' : Outcome Block) : Prop :=
  ((∃ b, r = .ok b) ↔ ∃ b', r' = .ok b') ∧
    ∀ b b', r = .ok b → r' = .ok b' → SameTemplate b b'

theorem sameTemplate_template (s : Blockchain) (pubkey : PublicKey) (uniqueId uniqueId' : Uuid)
    (now now' : DateTime) :
    SameTemplate (s.template pubkey uniqueId now) (s.template pubkey uniqueId' now') :=
  ⟨rfl, rfl, rfl, _, _, _, _, _, rfl, rfl⟩

end Blockchain

omit [Crates] in
/-- The subsidy is halved every 210 blocks until nothing is left of it. -/
theorem subsidy_succ_eq_iff (n : Nat) :
    subsidy (n + 1) = subsidy n ↔ (n + 1) % 210 ≠ 0 ∨ 34 * 210 ≤ n + 1 := by
  by_cases hmod : (n + 1) % 210 = 0
  · obtain ⟨era, hera⟩ := Nat.dvd_of_mod_eq_zero hmod
    obtain ⟨era, rfl⟩ : ∃ k, era = k + 1 := ⟨era - 1, by omega⟩
    have hnext : (n + 1) / 210 = era + 1 := by omega
    have hnow : n / 210 = era := by omega
    have hbound : 34 * 210 ≤ n + 1 ↔ 33 ≤ era := by omega
    simp only [subsidy, hnext, hnow, hmod, hbound, ne_eq, not_true_eq_false, false_or]
    by_cases hlate : 33 ≤ era
    · have hpow : 2 ^ 33 ≤ 2 ^ era := Nat.pow_le_pow_right (by decide) hlate
      have hnone : 5000000000 / 2 ^ era = 0 := Nat.div_eq_of_lt (by omega)
      have hnone' : 5000000000 / 2 ^ (era + 1) = 0 := Nat.div_eq_of_lt (by omega)
      simp [hlate, hnone, hnone']
    · have hall : ∀ k < 33, 5000000000 / 2 ^ (k + 1) ≠ 5000000000 / 2 ^ k := by decide
      simpa [hlate] using hall era (by omega)
  · have hsame : (n + 1) / 210 = n / 210 := by omega
    simp [subsidy, hsame, hmod]

omit [Crates] in
theorem blockReward_ofNat {n : Nat} (h : n < subsidyEnd) :
    ∃ reward, blockReward (UInt64.ofNat n) = some reward ∧ reward.toNat = subsidy n := by
  have hheight : (UInt64.ofNat n).toNat = n := toNat_height h.le
  obtain ⟨reward, hreward, hsubsidy⟩ := blockReward_of_lt (hheight.trans_lt h)
  exact ⟨reward, hreward, hsubsidy.trans (congrArg subsidy hheight)⟩

omit [Crates] in
/-- A template's coinbase passes its check one block higher as well, unless that
block halves the subsidy or is the first one beyond the schedule. -/
theorem Blockchain.blockReward_succ_iff {s : Blockchain} (hlen : s.blocks.length ≤ subsidyEnd) :
    (blockReward (s.blockHeight + 1) = some s.calculateBlockReward ↔
      blockReward s.blockHeight = some s.calculateBlockReward) ↔
      (s.blocks.length + 1) % 210 ≠ 0 ∨
        (34 * 210 ≤ s.blocks.length + 1 ∧ s.blocks.length + 1 ≠ subsidyEnd) := by
  have hnext : s.blockHeight + 1 = UInt64.ofNat (s.blocks.length + 1) := by
    simp [blockHeight]
  rcases hlen.lt_or_eq with hlt | hend
  · have hnow := blockReward_eq_calculateBlockReward hlt
    obtain ⟨reward, hreward, hsubsidy⟩ := blockReward_ofNat hlt
    obtain rfl : reward = s.calculateBlockReward := Option.some.inj (hreward.symm.trans hnow)
    rw [hnext, iff_true_right hnow]
    rcases (Nat.succ_le_of_lt hlt).lt_or_eq with hlt' | hend'
    · obtain ⟨reward', hreward', hsubsidy'⟩ := blockReward_ofNat hlt'
      rw [hreward', Option.some.injEq, ← UInt64.toNat_inj, hsubsidy', hsubsidy,
        subsidy_succ_eq_iff, and_iff_left hlt'.ne]
    · have hlast : s.blocks.length + 1 = subsidyEnd := hend'
      rw [hlast, blockReward_subsidyEnd]
      simp [subsidyEnd]
  · have hbeyond : blockReward (UInt64.ofNat (subsidyEnd + 1)) = none := by decide
    have hnow : blockReward s.blockHeight = none := by
      rw [blockHeight, hend, blockReward_subsidyEnd]
    rw [hnext, hend, hbeyond, hnow]
    simp [subsidyEnd]

/-- On a stored chain the front ends agree exactly where neither has a template, or
the height above has the same subsidy and lies within the schedule. -/
theorem Blockchain.Stored.templates_agree_iff {s : Blockchain} (hs : s.Stored)
    (pubkey : PublicKey) (uniqueId uniqueId' : Uuid) (now now' : DateTime) :
    FrontEndsAgree (Handler.fetchTemplate s pubkey uniqueId now)
        (MinerSvc.fetchTemplate s pubkey uniqueId' now') ↔
      ¬ s.TemplateInputsKnown ∨ (s.blocks.length + 1) % 210 ≠ 0 ∨
        (34 * 210 ≤ s.blocks.length + 1 ∧ s.blocks.length + 1 ≠ subsidyEnd) := by
  rw [← blockReward_succ_iff hs.checked.length_le]
  have hsame : ∀ b b', Handler.fetchTemplate s pubkey uniqueId now = .ok b →
      MinerSvc.fetchTemplate s pubkey uniqueId' now' = .ok b' → SameTemplate b b' := by
    intro b b' h h'
    obtain ⟨-, -, rfl⟩ := buildTemplate_ok_iff.mp h
    obtain ⟨-, -, rfl⟩ := buildTemplate_ok_iff.mp h'
    exact sameTemplate_template s pubkey uniqueId uniqueId' now now'
  rw [FrontEndsAgree, and_iff_left hsame]
  simp only [Handler.fetchTemplate, MinerSvc.fetchTemplate, buildTemplate_ok_iff,
    exists_and_left, exists_eq, and_true]
  tauto

/-- On any node, for every key, the front ends agree exactly where neither has a
template, or the height above has the same subsidy and lies within the schedule. -/
theorem Node.Reached.frontEndsAgree_iff {n : Node} (reached : n.Reached) (pubkey : PublicKey)
    (uniqueId uniqueId' : Uuid) (now now' : DateTime) :
    Blockchain.FrontEndsAgree (Handler.fetchTemplate n.chain pubkey uniqueId now)
        (MinerSvc.fetchTemplate n.chain pubkey uniqueId' now') ↔
      ¬ n.chain.TemplateInputsKnown ∨ (n.chain.blocks.length + 1) % 210 ≠ 0 ∨
        (34 * 210 ≤ n.chain.blocks.length + 1 ∧ n.chain.blocks.length + 1 ≠ subsidyEnd) :=
  (Node.ReachedBy.stored reached).1.templates_agree_iff pubkey uniqueId uniqueId' now now'

omit [Crates] in
/-- One block high, with a payment in the mempool, the front ends agree. -/
theorem frontEndsAgree_toBob :
    letI := StandIn.crates
    ∃ n : Node, n.chain.blocks = [StandIn.genesis] ∧ n.chain.mempool ≠ [] ∧
      Blockchain.FrontEndsAgree (Handler.fetchTemplate n.chain StandIn.bob ⟨1⟩ 0)
        (MinerSvc.fetchTemplate n.chain StandIn.bob ⟨2⟩ nanosPerSecond) := by
  let := StandIn.crates
  have hrun : (StandIn.run [.addBlock StandIn.genesis, .addToMempool 0 StandIn.toBob]).any
      (fun s => decide (s.blocks = [StandIn.genesis] ∧ s.mempool ≠ [])) = true := by
    decide +kernel
  obtain ⟨s, hs, hblocks, hmempool⟩ := StandIn.exists_run hrun
  refine ⟨⟨s, none⟩, hblocks, hmempool,
    (Node.Reached.frontEndsAgree_iff (StandIn.reached_of_run hs).node _ _ _ _ _).mpr
      (.inr (.inl ?_))⟩
  rw [hblocks]
  decide

namespace StandIn

omit [Crates] in
theorem mix_lt (numbers : List Nat) : mix numbers < 2 ^ 232 := by
  have hfold : ∀ acc < 2 ^ 232, numbers.foldl
      (fun acc x => (acc * 1000003 + x + 1) % 2 ^ 232) acc < 2 ^ 232 := by
    induction numbers with
    | nil => exact fun acc hacc => hacc
    | cons x rest ih => exact fun acc _ => ih _ (Nat.mod_lt _ (by decide))
  exact hfold 7 (by decide)

omit [Crates] in
theorem digestNumber_lt {h : BlockHeader} (hnonce : h.nonce = 0) :
    digestNumber (.header h) < 2 ^ 232 := by
  rw [digestNumber, hnonce, UInt64.toNat_zero, Nat.zero_mod, Nat.mul_zero, Nat.add_zero]
  exact mix_lt _

omit [Crates] in
theorem matchesTarget_ofNat {number : Nat} (h : number < 2 ^ 240) :
    Hash.matchesTarget ⟨BitVec.ofNat 256 number⟩ minTarget = true := by
  have hmin : minTarget.toNat = 2 ^ 240 - 1 := by decide
  rw [Hash.matchesTarget, decide_eq_true_eq, BitVec.le_def, BitVec.toNat_ofNat, hmin]
  exact (Nat.mod_le _ _).trans (Nat.le_sub_one_of_lt h)

omit [Crates] in
/-- A header with nonce zero meets the minimum target. -/
theorem matchesTarget_of_nonce {h : BlockHeader} (hnonce : h.nonce = 0) :
    letI := crates; h.hash.matchesTarget minTarget = true :=
  matchesTarget_ofNat ((digestNumber_lt hnonce).trans (by decide))

/-- The block that an idle chain of `n` blocks is continued with. -/
def idleBlock (n : Nat) : Block :=
  let transactions := [coinbase (coin alice n 5000000000)]
  match (idleBlocks n).getLast? with
  | none => firstBlock minTarget transactions
  | some parent => nextBlock parent 0 minTarget transactions

omit [Crates] in
theorem idleBlocks_succ (n : Nat) : idleBlocks (n + 1) = idleBlocks n ++ [idleBlock n] := by
  simp only [idleBlocks, idleBlock]
  cases hlast : (idleBlocks n).getLast? with
  | none => rw [List.getLast?_eq_none_iff.mp hlast]; rfl
  | some parent => rfl

omit [Crates] in
@[simp] theorem length_idleBlocks (n : Nat) : (idleBlocks n).length = n := by
  induction n with
  | zero => rfl
  | succ n ih => rw [idleBlocks_succ, List.length_append, ih, List.length_singleton]

omit [Crates] in
/-- What all blocks of an idle chain have in common. -/
theorem of_mem_idleBlocks {n : Nat} {b : Block} (h : b ∈ idleBlocks n) :
    b.header.target = minTarget ∧ 0 ≤ b.header.timestamp ∧
      b.header.timestamp ≤ n * nanosPerSecond := by
  have hsecond : 0 ≤ nanosPerSecond := by decide
  induction n generalizing b with
  | zero => simp [idleBlocks] at h
  | succ n ih =>
      rw [Nat.cast_succ, add_one_mul]
      rw [idleBlocks_succ] at h
      rcases List.mem_append.mp h with hmem | hmem
      · obtain ⟨htarget, hpos, hle⟩ := ih hmem
        exact ⟨htarget, hpos, hle.trans (le_add_of_nonneg_right hsecond)⟩
      · obtain rfl := List.mem_singleton.mp hmem
        cases hlast : (idleBlocks n).getLast? with
        | none =>
            simp only [idleBlock, hlast]
            have hn : 0 ≤ (n : Int) * nanosPerSecond :=
              Int.mul_nonneg (Int.natCast_nonneg n) hsecond
            exact ⟨rfl, le_refl _, add_nonneg hn hsecond⟩
        | some parent =>
            simp only [idleBlock, hlast]
            obtain ⟨-, hpos, hle⟩ := ih (List.mem_of_getLast? hlast)
            exact ⟨rfl, add_nonneg hpos hsecond, add_le_add_left hle _⟩

omit [Crates] in
theorem transactions_idleBlock (n : Nat) :
    (idleBlock n).transactions = [coinbase (coin alice n 5000000000)] := by
  unfold idleBlock
  cases (idleBlocks n).getLast? <;> rfl

omit [Crates] in
theorem verified_idleBlock {n : Nat} (hn : n < 210) (u : UtxoSet) :
    letI := crates; (idleBlock n).verifyTransactions (UInt64.ofNat n) u = .ok () := by
  let := crates
  obtain ⟨reward, hreward, hsubsidy⟩ := blockReward_ofNat (hn.trans (by decide))
  obtain rfl : reward = 5000000000 := by
    rw [← UInt64.toNat_inj, hsubsidy, subsidy, Nat.div_eq_of_lt hn]
    rfl
  refine (Block.verifyTransactions_ok_iff ..).mpr ⟨_, [], transactions_idleBlock n, ?_⟩
  exact ⟨by simp, by simp, by simp, rfl, by simp [coinbase], _, hreward, by
    simp [coinbase, coin, Tx.outputAmount]⟩

omit [Crates] in
/-- An adjustment over an idle chain does not overflow. -/
theorem retargetFits_idleBlock {n : Nat} (hn : n < 210) {s : letI := crates; Blockchain}
    (hs : letI := crates; s.Stored) (hblocks : s.blocks = idleBlocks n) :
    s.RetargetFits (idleBlock n).header.timestamp := by
  let := crates
  intro _ first hfirst
  have hearlier : 0 ≤ first.header.timestamp := by
    rw [hblocks] at hfirst
    exact (of_mem_idleBlocks (List.mem_of_getElem? hfirst)).2.1
  have hlater : (idleBlock n).header.timestamp ≤ ((n + 1 : Nat) : Int) * nanosPerSecond :=
    (of_mem_idleBlocks (idleBlocks_succ n ▸ by simp)).2.2
  have hseconds : (numSeconds ((idleBlock n).header.timestamp - first.header.timestamp)).toNat ≤
      n + 1 := by
    rw [Int.toNat_le, numSeconds, ← Int.mul_tdiv_cancel ((n + 1 : Nat) : Int)
      (by decide : nanosPerSecond ≠ 0)]
    exact Int.tdiv_le_tdiv (by decide) ((sub_le_self _ hearlier).trans hlater)
  have htarget : s.target.toNat < 2 ^ 240 :=
    (BitVec.le_def.mp hs.target).trans_lt (by decide)
  calc
    _ ≤ s.target.toNat *
        (numSeconds ((idleBlock n).header.timestamp - first.header.timestamp)).toNat :=
      Nat.div_le_self _ _
    _ ≤ 2 ^ 240 * 210 := Nat.mul_le_mul htarget.le (hseconds.trans (Nat.succ_le_of_lt hn))
    _ < 2 ^ 256 := by decide

omit [Crates] in
/-- An idle chain is continued by its idle block up to the first halving. -/
theorem accepts_idleBlock {n : Nat} (hn : n < 210) {s : letI := crates; Blockchain}
    (hs : letI := crates; s.Stored) (hblocks : s.blocks = idleBlocks n) :
    letI := crates; s.Accepts (idleBlock n) := by
  let := crates
  have hheight : s.blockHeight = UInt64.ofNat n := by
    rw [Blockchain.blockHeight, hblocks, length_idleBlocks]
  have hverified : (idleBlock n).verifyTransactions s.blockHeight s.utxoSet = .ok () :=
    hheight ▸ verified_idleBlock hn s.utxoSet
  cases hlast : (idleBlocks n).getLast? with
  | none =>
      have hempty : s.blocks = [] := hblocks.trans (List.getLast?_eq_none_iff.mp hlast)
      refine Blockchain.accepts_iff.mpr ⟨?_, hverified, ?_⟩
      · rw [hempty, Blockchain.checkHeader_nil_ok_iff, idleBlock, hlast]
        rfl
      · rw [hempty]
        rfl
  | some parent =>
      have hnext : idleBlock n =
          nextBlock parent 0 minTarget [coinbase (coin alice n 5000000000)] := by
        rw [idleBlock, hlast]
      have hlast' : s.blocks.getLast? = some parent := hblocks ▸ hlast
      have htime : parent.header.timestamp < (idleBlock n).header.timestamp := by
        rw [hnext]
        exact lt_add_of_pos_right _ (by decide)
      have htarget : parent.header.target = minTarget :=
        (of_mem_idleBlocks (List.mem_of_getLast? hlast)).1
      refine Blockchain.accepts_iff.mpr ⟨?_, hverified,
        (hs.adjustedTarget_isSome_iff hlast' htime).mpr (retargetFits_idleBlock hn hs hblocks)⟩
      refine (Blockchain.checkHeader_ok_iff hlast' _).mpr ⟨?_, ?_, ?_, htime⟩
      · rw [hnext]
        rfl
      · rw [hnext, htarget]
        exact matchesTarget_of_nonce rfl
      · rw [hnext]
        rfl

omit [Crates] in
/-- Up to the first halving a node can mine one idle block after the other. -/
theorem exists_reached_idleBlocks {n : Nat} (hn : n ≤ 210) :
    letI := crates
    ∃ s : Blockchain, s.Reached ∧ s.blocks = idleBlocks n ∧ s.mempool = [] := by
  let := crates
  induction n with
  | zero => exact ⟨Blockchain.new, .refl, rfl, rfl⟩
  | succ n ih =>
      obtain ⟨s, reached, hblocks, hmempool⟩ := ih (by omega)
      have hstored := Blockchain.ReachedBy.stored reached
      obtain ⟨t, ht⟩ := accepts_idleBlock (by omega) hstored hblocks
      refine ⟨t.rebuildUtxoSet, reached.tail trivial (Blockchain.step_addBlock_of_ok ht), ?_, ?_⟩
      · exact (hstored.rebuild_addBlock ht).1.trans (by rw [hblocks, idleBlocks_succ])
      · rw [Blockchain.mempool_of_addBlock ht, Blockchain.remainingMempool, hmempool]
        rfl

end StandIn

omit [Crates] in
/-- One idle block before the first halving, gRPC returns a template and TCP does
not send one. -/
theorem not_frontEndsAgree :
    letI := StandIn.crates
    ¬ ∀ s : Blockchain, s.Reached → ∀ pubkey uniqueId uniqueId' now now',
      Blockchain.FrontEndsAgree (Handler.fetchTemplate s pubkey uniqueId now)
        (MinerSvc.fetchTemplate s pubkey uniqueId' now') := by
  let := StandIn.crates
  obtain ⟨s, reached, hblocks, hmempool⟩ := StandIn.exists_reached_idleBlocks
    (by decide : 209 ≤ 210)
  intro h
  have hagree := h s reached StandIn.bob ⟨1⟩ ⟨2⟩ 0 0
  rw [(Blockchain.ReachedBy.stored reached).templates_agree_iff, hblocks,
    StandIn.length_idleBlocks] at hagree
  rcases hagree with hunknown | hheight
  · refine hunknown fun tx htx => ?_
    simp [Blockchain.templateTxs, hmempool] at htx
  · exact absurd hheight (by decide)

end ToyBtc
