import ToyBtc.Node
import ToyBtc.Admission
import ToyBtc.Growth
import ToyBtc.MapLog

/-!
# Chains as edit logs

A chain is a log of erasures and insertions of outputs. Replayed from nothing
it yields the ledger of the chain. Every reachable node stores blocks that have
passed their checks against some UTXO set, and its own set shows the outputs of the
ledger of some of its first blocks. A block that is stored before the adjustment
unwinds leaves the set behind the chain. As long as none does, the chain is valid:
every block has passed its checks against the ledger of the blocks before it, and
the stored set shows the whole ledger.

## Implementation notes

The flags of the UTXO set belong to the mempool, so the stored set and the
ledger are compared through `output`. The replay of the whole chain leaves
every flag false, and there the two are equal.
-/

namespace ToyBtc

open MapLog Growth

variable [Crates]

/-- The hashes of the outputs a transaction creates, in output order. -/
def Tx.creates (tx : Tx) : List Hash := tx.outputs.map TxOutput.hash

/-- A transaction erases what it spends, then inserts what it creates. -/
def Tx.log (tx : Tx) : List (Edit Hash (Bool × TxOutput)) :=
  tx.spends.map Edit.erase ++ tx.outputs.map fun o => Edit.insert o.hash (false, o)

def Block.log (b : Block) : List (Edit Hash (Bool × TxOutput)) := b.transactions.flatMap Tx.log

def chainLog (blocks : List Block) : List (Edit Hash (Bool × TxOutput)) :=
  blocks.flatMap Block.log

/-- The unspent outputs after a list of blocks. -/
def ledger (blocks : List Block) : UtxoSet := replay (chainLog blocks) ∅

theorem UtxoSet.applyTx_eq_replay (u : UtxoSet) (tx : Tx) : u.applyTx tx = replay tx.log u := by
  simp only [applyTx, Tx.log, Tx.spends, replay, List.foldl_append, List.foldl_map]
  rfl

theorem UtxoSet.applyBlock_eq_replay (u : UtxoSet) (b : Block) :
    u.applyBlock b = replay b.log u := by
  unfold applyBlock Block.log
  induction b.transactions generalizing u with
  | nil => rfl
  | cons tx rest ih =>
      rw [List.foldl_cons, ih, applyTx_eq_replay, List.flatMap_cons, replay_append]

theorem foldl_applyBlock_eq_replay (u : UtxoSet) (bs : List Block) :
    bs.foldl UtxoSet.applyBlock u = replay (chainLog bs) u := by
  unfold chainLog
  induction bs generalizing u with
  | nil => rfl
  | cons b rest ih =>
      rw [List.foldl_cons, ih, UtxoSet.applyBlock_eq_replay, List.flatMap_cons, replay_append]

@[simp] theorem chainLog_append (bs bs' : List Block) :
    chainLog (bs ++ bs') = chainLog bs ++ chainLog bs' :=
  List.flatMap_append

theorem ledger_concat (bs : List Block) (b : Block) :
    ledger (bs ++ [b]) = (ledger bs).applyBlock b := by
  rw [UtxoSet.applyBlock_eq_replay, ledger, chainLog_append, replay_append]
  simp [ledger, chainLog]

theorem applyBlock_output_congr {u u' : UtxoSet} (h : u.output = u'.output) (b : Block) :
    (u.applyBlock b).output = (u'.applyBlock b).output := by
  funext k
  rw [UtxoSet.applyBlock_eq_replay, UtxoSet.applyBlock_eq_replay]
  exact replay_agree Prod.snd b.log (fun j => congrFun h j) k

/-- Verification looks at the outputs that the block spends. -/
theorem Verified.congr {u u' : UtxoSet} {height : UInt64} {coinbase : Tx} {txs : List Tx}
    (h : ∀ tx ∈ txs, ∀ k ∈ tx.spends, u.output k = u'.output k)
    (hv : Verified u height coinbase txs) : Verified u' height coinbase txs where
  authorized tx htx i hi := by
    obtain ⟨o, ho, hsig⟩ := hv.authorized tx htx i hi
    exact ⟨o, (h tx htx _ (List.mem_map_of_mem hi)).symm.trans ho, hsig⟩
  distinct := hv.distinct
  covered tx htx := by
    rw [← UtxoSet.inputAmount_congr_of_spends (h tx htx)]
    exact hv.covered tx htx
  noInputs := hv.noInputs
  someOutput := hv.someOutput
  paid := by
    have hfees : (txs.map fun tx => tx.fee u') = txs.map fun tx => tx.fee u := by
      refine List.map_congr_left fun tx htx => ?_
      rw [Tx.fee, Tx.fee, UtxoSet.inputAmount_congr_of_spends (h tx htx)]
    rw [hfees]
    exact hv.paid

/-- What a block has passed when it is appended to a chain. -/
structure Passes (u : UtxoSet) (bs : List Block) (b : Block) : Prop where
  header : Blockchain.checkHeader bs b = .ok ()
  verified : ∃ coinbase txs, b.transactions = coinbase :: txs ∧
    Verified u (UInt64.ofNat bs.length) coinbase txs

/-- The hashes of the outputs that a block spends. -/
def Block.spends (b : Block) : List Hash := b.transactions.flatMap Tx.spends

theorem Passes.congr {u u' : UtxoSet} {bs : List Block} {b : Block}
    (h : ∀ k ∈ b.spends, u.output k = u'.output k) (hp : Passes u bs b) : Passes u' bs b := by
  obtain ⟨hheader, coinbase, txs, htxs, hv⟩ := hp
  refine ⟨hheader, coinbase, txs, htxs, hv.congr fun tx htx k hk => h k ?_⟩
  rw [Block.spends, htxs]
  exact List.mem_flatMap.mpr ⟨tx, List.mem_cons_of_mem _ htx, hk⟩

/-- What a block spends is in the set. -/
theorem Passes.exists_output {u : UtxoSet} {bs : List Block} {b : Block} (hp : Passes u bs b)
    {h : Hash} (hmem : h ∈ b.spends) : ∃ o, u.output h = some o := by
  obtain ⟨-, coinbase, txs, htxs, hv⟩ := hp
  obtain ⟨tx, htx, hspends⟩ := List.mem_flatMap.mp hmem
  obtain ⟨i, hi, rfl⟩ := List.mem_map.mp hspends
  rw [htxs] at htx
  rcases List.mem_cons.mp htx with rfl | htx
  · rw [hv.noInputs] at hi
    cases hi
  · obtain ⟨o, ho, -⟩ := hv.authorized tx htx i hi
    exact ⟨o, ho⟩

theorem Blockchain.passesChecks_iff {s : Blockchain} {b : Block} :
    s.PassesChecks b ↔ Passes s.utxoSet s.blocks b := by
  rw [PassesChecks, Block.verifyTransactions_ok_iff]
  exact ⟨fun h => ⟨h.1, h.2⟩, fun h => ⟨h.header, h.verified⟩⟩

/-- The checks read the blocks and the outputs. -/
theorem Blockchain.PassesChecks.congr {s t : Blockchain} {b : Block} (hblocks : s.blocks = t.blocks)
    (houtput : s.utxoSet.output = t.utxoSet.output) (h : s.PassesChecks b) : t.PassesChecks b := by
  have passes := passesChecks_iff.mp h
  rw [hblocks] at passes
  exact passesChecks_iff.mpr (passes.congr fun k _ => congrFun houtput k)

/-- What a block passes against the outputs of the chain that it is appended to. -/
abbrev Extends (bs : List Block) (b : Block) : Prop := Passes (ledger bs) bs b

/-- Every block has passed its checks against the ledger of some of the blocks before it. -/
abbrev CheckedChain : List Block → Prop :=
  Grown fun bs b => ∃ bs', bs' <+: bs ∧ Passes (ledger bs') bs b

/-- Every block extends the blocks before it. -/
abbrev ValidChain : List Block → Prop := Grown Extends

theorem ValidChain.checked {bs : List Block} (valid : ValidChain bs) : CheckedChain bs :=
  valid.imp fun bs _ ext => ⟨bs, List.prefix_refl _, ext⟩

/-- No block extends a chain that has used up the subsidy schedule. -/
theorem CheckedChain.length_le {bs : List Block} (h : CheckedChain bs) :
    bs.length ≤ subsidyEnd := by
  induction h with
  | nil => simp [subsidyEnd]
  | @concat bs b _ ext ih =>
      obtain ⟨_, -, -, coinbase, txs, -, hv⟩ := ext
      obtain ⟨reward, hreward, -⟩ := hv.paid
      rw [List.length_append, List.length_singleton]
      exact lt_subsidyEnd_of_blockReward ih hreward

/-- What holds of the stored data at any time: the UTXO set shows the ledger's outputs
after some of the first blocks, the target is within its bound, and no mempool
transaction names an input twice. -/
structure Blockchain.Stored (s : Blockchain) : Prop where
  checked : CheckedChain s.blocks
  outputs : ∃ bs, bs <+: s.blocks ∧ s.utxoSet.output = (ledger bs).output
  target : s.target ≤ minTarget
  distinct : ∀ e ∈ s.mempool, e.2.spends.Nodup

/-- The stored data fits together: the chain is valid, the UTXO set shows the
ledger's outputs, the target is within its bound, and no mempool transaction
names an input twice. -/
structure Blockchain.Sound (s : Blockchain) : Prop where
  valid : ValidChain s.blocks
  outputs : s.utxoSet.output = (ledger s.blocks).output
  target : s.target ≤ minTarget
  distinct : ∀ e ∈ s.mempool, e.2.spends.Nodup

theorem Blockchain.Sound.stored {s : Blockchain} (hs : s.Sound) : s.Stored :=
  ⟨hs.valid.checked, ⟨s.blocks, List.prefix_refl _, hs.outputs⟩, hs.target, hs.distinct⟩

namespace Blockchain

/-- On top of any of its prefixes' ledgers, replaying a chain gives its own ledger. -/
theorem replay_of_output_eq {u : UtxoSet} {bs : List Block} (bs' : List Block)
    (h : u.output = (ledger bs).output) :
    replay (chainLog (bs ++ bs')) u = ledger (bs ++ bs') := by
  apply replay_eq_of_covers
  intro k hk
  rw [chainLog_append]
  exact covers_replay_empty _ _ k ((UtxoSet.mem_congr h k).mp hk)

theorem sound_new : new.Sound where
  valid := .nil
  outputs := rfl
  target := BitVec.le_refl _
  distinct := by simp [new]

/-- The replay of what is stored gives its ledger. -/
theorem Stored.utxoSet_rebuild {s : Blockchain} (hs : s.Stored) :
    s.rebuildUtxoSet.utxoSet = ledger s.blocks := by
  obtain ⟨bs, ⟨bs', hblocks⟩, houtputs⟩ := hs.outputs
  have hreplay := replay_of_output_eq bs' houtputs
  rw [hblocks] at hreplay
  rw [← hreplay, ← foldl_applyBlock_eq_replay]
  rfl

theorem Stored.rebuild {s : Blockchain} (hs : s.Stored) : s.rebuildUtxoSet.Stored :=
  ⟨hs.checked, ⟨s.blocks, List.prefix_refl _, congrArg UtxoSet.output hs.utxoSet_rebuild⟩,
    hs.target, hs.distinct⟩

/-- A block that is stored leaves the UTXO set behind. -/
theorem Stored.storeBlock {s : Blockchain} {b : Block} (hs : s.Stored) (h : s.PassesChecks b) :
    (s.stored b).Stored := by
  obtain ⟨bs, hpre, houtputs⟩ := hs.outputs
  have hpasses := (passesChecks_iff.mp h).congr fun k _ => congrFun houtputs k
  refine ⟨hs.checked.concat ⟨bs, hpre, hpasses⟩, ⟨bs, ?_, houtputs⟩, hs.target, ?_⟩
  · exact hpre.trans (List.prefix_append _ _)
  · exact fun e he => hs.distinct e (List.mem_of_mem_filter he)

theorem Stored.adjust {s t : Blockchain} (hs : s.Stored) (h : s.tryAdjustTarget = .ok t) :
    t.Stored := by
  obtain ⟨target, htarget, rfl⟩ := tryAdjustTarget_ok_iff.mp h
  exact ⟨hs.checked, hs.outputs, adjustedTarget_le hs.target htarget, hs.distinct⟩

/-- An accepted block is stored, and then the target is adjusted. -/
theorem adjust_of_addBlock {s t : Blockchain} {b : Block} (h : s.addBlock b = .ok t) :
    s.PassesChecks b ∧ (s.stored b).tryAdjustTarget = .ok t := by
  obtain ⟨hheader, hverify, target, htarget, rfl⟩ := (addBlock_ok_iff s t b).mp h
  exact ⟨⟨hheader, hverify⟩, tryAdjustTarget_ok_iff.mpr ⟨target, htarget, rfl⟩⟩

/-- After an accepted block, the replay of the stored chain is its ledger. -/
theorem Stored.rebuild_addBlock {s t : Blockchain} {b : Block} (hs : s.Stored)
    (h : s.addBlock b = .ok t) :
    t.blocks = s.blocks ++ [b] ∧ t.rebuildUtxoSet.utxoSet = ledger t.blocks := by
  obtain ⟨hpasses, hadjust⟩ := adjust_of_addBlock h
  exact ⟨blocks_tryAdjustTarget hadjust, ((hs.storeBlock hpasses).adjust hadjust).utxoSet_rebuild⟩

/-- A block that a sound chain stores extends it. -/
theorem Sound.extends {s : Blockchain} {b : Block} (hs : s.Sound) (h : s.PassesChecks b) :
    Extends s.blocks b :=
  (passesChecks_iff.mp h).congr fun k _ => congrFun hs.outputs k

/-- The replay after an accepted block shows what applying that block alone shows. -/
theorem Sound.output_addBlock {s t : Blockchain} {b : Block} (hs : s.Sound)
    (h : s.addBlock b = .ok t) :
    t.rebuildUtxoSet.utxoSet.output = (s.utxoSet.applyBlock b).output := by
  obtain ⟨hblocks, hledger⟩ := hs.stored.rebuild_addBlock h
  rw [hledger, hblocks, ledger_concat]
  exact applyBlock_output_congr hs.outputs.symm b

theorem Sound.addBlock {s t : Blockchain} {b : Block} (hs : s.Sound)
    (h : s.addBlock b = .ok t) : t.rebuildUtxoSet.Sound := by
  obtain ⟨hblocks, hledger⟩ := hs.stored.rebuild_addBlock h
  have hext := hs.extends (adjust_of_addBlock h).1
  obtain ⟨-, -, target, htarget, rfl⟩ := (addBlock_ok_iff s t b).mp h
  exact ⟨hs.valid.concat hext, congrArg UtxoSet.output hledger,
    adjustedTarget_le hs.target htarget, fun e he => hs.distinct e (List.mem_of_mem_filter he)⟩

theorem Sound.rebuild {s : Blockchain} (hs : s.Sound) : s.rebuildUtxoSet.Sound :=
  ⟨hs.valid, congrArg UtxoSet.output hs.stored.utxoSet_rebuild, hs.target, hs.distinct⟩

theorem Sound.adjust {s t : Blockchain} (hs : s.Sound) (h : s.tryAdjustTarget = .ok t) :
    t.Sound := by
  obtain ⟨target, htarget, rfl⟩ := tryAdjustTarget_ok_iff.mp h
  exact ⟨hs.valid, hs.outputs, adjustedTarget_le hs.target htarget, hs.distinct⟩

/-- Calls that keep blocks, outputs and target keep what holds at any time. -/
theorem Stored.of_frame {s t : Blockchain} (hs : s.Stored) (hblocks : t.blocks = s.blocks)
    (htarget : t.target = s.target) (houtput : t.utxoSet.output = s.utxoSet.output)
    (hdistinct : ∀ e ∈ t.mempool, e.2.spends.Nodup) : t.Stored := by
  obtain ⟨bs, hpre, houtputs⟩ := hs.outputs
  exact ⟨hblocks ▸ hs.checked, ⟨bs, hblocks ▸ hpre, houtput.trans houtputs⟩, htarget ▸ hs.target,
    hdistinct⟩

/-- Calls that keep blocks, outputs and target keep the chain sound. -/
theorem Sound.of_frame {s t : Blockchain} (hs : s.Sound) (hblocks : t.blocks = s.blocks)
    (htarget : t.target = s.target) (houtput : t.utxoSet.output = s.utxoSet.output)
    (hdistinct : ∀ e ∈ t.mempool, e.2.spends.Nodup) : t.Sound :=
  ⟨hblocks ▸ hs.valid, by rw [houtput, hs.outputs, hblocks], htarget ▸ hs.target, hdistinct⟩

/-- A call stores a block that passes its checks, and no other call changes the blocks. -/
theorem step_blocks {s t : Blockchain} {c : Call} (h : s.step c = some t) :
    ((∀ b, c = .addBlock b → ¬ s.PassesChecks b) ∧ t.blocks = s.blocks) ∨
      ∃ b, c = .addBlock b ∧ s.PassesChecks b ∧ t.blocks = s.blocks ++ [b] := by
  cases c with
  | addBlock b =>
      rcases step_addBlock_cases h with ⟨added, hadded, rfl⟩ | ⟨hunwinds, rfl⟩ | ⟨hrefused, rfl⟩
      · obtain ⟨hpasses, hadjust⟩ := adjust_of_addBlock hadded
        exact Or.inr ⟨b, rfl, hpasses, blocks_tryAdjustTarget hadjust⟩
      · exact Or.inr ⟨b, rfl, hunwinds.1, rfl⟩
      · exact Or.inl ⟨fun b' hb' => by cases hb'; exact hrefused, rfl⟩
  | addToMempool now tx =>
      cases h
      exact Or.inl ⟨nofun, (addToMempool_cases s now tx).1⟩
  | cleanupMempool now =>
      cases h
      exact Or.inl ⟨nofun, rfl⟩

/-- No call takes a block away. -/
theorem blocks_isPrefix_step {s t : Blockchain} {c : Call} (h : s.step c = some t) :
    s.blocks <+: t.blocks := by
  rcases step_blocks h with ⟨-, hsame⟩ | ⟨b, -, -, happend⟩
  · exact hsame ▸ List.prefix_refl _
  · exact ⟨[b], happend.symm⟩

/-- A mempool entry was there before the call, or the call admitted it. -/
theorem step_mempool {s t : Blockchain} {c : Call} (h : s.step c = some t)
    {e : DateTime × Tx} (he : e ∈ t.mempool) :
    e ∈ s.mempool ∨
      ∃ now, c = .addToMempool now e.2 ∧ s.Admissible e.2 ∧
        e.2.outputAmount ≤ e.2.inputAmount s.utxoSet := by
  cases c with
  | addBlock b =>
      rcases step_addBlock_cases h with ⟨added, hadded, rfl⟩ | ⟨-, rfl⟩ | ⟨-, rfl⟩
      · obtain ⟨-, -, target, -, rfl⟩ := (addBlock_ok_iff s added b).mp hadded
        exact Or.inl (List.mem_of_mem_filter he)
      · exact Or.inl (List.mem_of_mem_filter he)
      · exact Or.inl he
  | addToMempool now tx =>
      cases h
      obtain ⟨-, -, -, hsub | ⟨hadm, hpaid, kept, hkept, hperm⟩⟩ := addToMempool_cases s now tx
      · exact Or.inl (hsub.mem he)
      · rcases List.mem_append.mp (hperm.mem_iff.mp he) with hold | hnew
        · exact Or.inl (hkept.mem hold)
        · obtain rfl := List.mem_singleton.mp hnew
          exact Or.inr ⟨now, rfl, hadm, hpaid⟩
  | cleanupMempool now =>
      cases h
      exact Or.inl ((cleanupMempool_frame s now).2.2.2.mem he)

/-- A block that passes its checks is stored. -/
theorem exists_step_of_passesChecks {s : Blockchain} {b : Block} (h : s.PassesChecks b) :
    ∃ t, s.step (.addBlock b) = some t ∧ t.blocks = s.blocks ++ [b] := by
  refine ⟨_, rfl, ?_⟩
  rw [blocks_addAndRebuild]
  exact appends_iff.mpr h

theorem step_addBlock_of_unwinds {s : Blockchain} {b : Block} (h : s.Unwinds b) :
    s.step (.addBlock b) = some (s.stored b) := by
  obtain ⟨t, ht, -⟩ := exists_step_of_passesChecks h.1
  rcases step_addBlock_cases ht with ⟨added, hadded, -⟩ | ⟨-, rfl⟩ | ⟨hrefused, -⟩
  · exact absurd h (accepts_iff_passesChecks.mp ⟨added, hadded⟩).2
  · exact ht
  · exact absurd h.1 hrefused

theorem distinct_step {s t : Blockchain} {c : Call} (hs : ∀ e ∈ s.mempool, e.2.spends.Nodup)
    (h : s.step c = some t) : ∀ e ∈ t.mempool, e.2.spends.Nodup := by
  intro e he
  rcases step_mempool h he with hold | ⟨now, -, hadm, -⟩
  · exact hs e hold
  · exact hadm.distinct

theorem Stored.step {s t : Blockchain} {c : Call} (hs : s.Stored) (h : s.step c = some t) :
    t.Stored := by
  have hdistinct := distinct_step hs.distinct h
  cases c with
  | addBlock b =>
      rcases step_addBlock_cases h with ⟨added, hadded, rfl⟩ | ⟨hunwinds, rfl⟩ | ⟨-, rfl⟩
      · obtain ⟨hpasses, hadjust⟩ := adjust_of_addBlock hadded
        exact ((hs.storeBlock hpasses).adjust hadjust).rebuild
      · exact hs.storeBlock hunwinds.1
      · exact hs
  | addToMempool now tx =>
      cases h
      obtain ⟨hblocks, htarget, houtput, -⟩ := addToMempool_cases s now tx
      exact hs.of_frame hblocks htarget houtput hdistinct
  | cleanupMempool now =>
      cases h
      obtain ⟨hblocks, htarget, houtput, -⟩ := cleanupMempool_frame s now
      exact hs.of_frame hblocks htarget houtput hdistinct

theorem ReachedBy.stored {C : Blockchain → Call → Prop} {s : Blockchain} (reached : s.ReachedBy C) :
    s.Stored :=
  reached.invariant Stored sound_new.stored fun _ _ _ hs _ next => hs.step next

/-- A call that does not replay the chain shows the outputs that it has found. -/
theorem Stored.output_step {s t : Blockchain} {c : Call} (hs : s.Stored) (h : s.step c = some t) :
    t.utxoSet.output = s.utxoSet.output ∨ t.utxoSet.output = (ledger t.blocks).output := by
  cases c with
  | addBlock b =>
      rcases step_addBlock_cases h with ⟨added, hadded, rfl⟩ | ⟨-, rfl⟩ | ⟨-, rfl⟩
      · exact Or.inr (congrArg UtxoSet.output (hs.rebuild_addBlock hadded).2)
      · exact Or.inl rfl
      · exact Or.inl rfl
  | addToMempool now tx =>
      cases h
      obtain ⟨-, -, houtput, -⟩ := addToMempool_cases s now tx
      exact Or.inl houtput
  | cleanupMempool now =>
      cases h
      obtain ⟨-, -, houtput, -⟩ := cleanupMempool_frame s now
      exact Or.inl houtput

/-- A call that returns keeps the chain sound. -/
theorem Sound.step {s t : Blockchain} {c : Call} (hs : s.Sound) (returns : c.Returns s)
    (h : s.step c = some t) : t.Sound := by
  have hdistinct := distinct_step hs.distinct h
  cases c with
  | addBlock b =>
      rcases step_addBlock_cases h with ⟨added, hadded, rfl⟩ | ⟨hunwinds, -⟩ | ⟨-, rfl⟩
      · exact hs.addBlock hadded
      · exact absurd hunwinds returns
      · exact hs
  | addToMempool now tx =>
      cases h
      obtain ⟨hblocks, htarget, houtput, -⟩ := addToMempool_cases s now tx
      exact hs.of_frame hblocks htarget houtput hdistinct
  | cleanupMempool now =>
      cases h
      obtain ⟨hblocks, htarget, houtput, -⟩ := cleanupMempool_frame s now
      exact hs.of_frame hblocks htarget houtput hdistinct

theorem ReachedBy.sound {s : Blockchain} (reached : s.ReachedBy Call.Returns) : s.Sound :=
  reached.invariant Sound sound_new fun _ _ _ hs returns next => hs.step returns next

/-! ### Chains that a set shows in time -/

/-- The set shows what the chain has done to the outputs that the block spends. It shows
something else only where a stored block has unwound before the replay. -/
def UpToDateFor (s : Blockchain) (b : Block) : Prop :=
  ∀ h ∈ b.spends, s.utxoSet.output h = (ledger s.blocks).output h

instance (s : Blockchain) (b : Block) : Decidable (s.UpToDateFor b) :=
  inferInstanceAs (Decidable (∀ h ∈ b.spends, _ = _))

theorem Sound.upToDateFor {s : Blockchain} (hs : s.Sound) (b : Block) : s.UpToDateFor b :=
  fun h _ => congrFun hs.outputs h

/-- A block that the call stores meets `F`. -/
def Storing (F : Blockchain → Block → Prop) (s : Blockchain) (c : Call) : Prop :=
  ∀ b, c = .addBlock b → s.PassesChecks b → F s b

instance {F : Blockchain → Block → Prop} [∀ s b, Decidable (F s b)] (s : Blockchain) (c : Call) :
    Decidable (Storing F s c) :=
  match c with
  | .addBlock b => decidable_of_iff (s.PassesChecks b → F s b)
      ⟨fun h b' hb' => by cases hb'; exact h, fun h => h b rfl⟩
  | .addToMempool .. | .cleanupMempool _ => isTrue nofun

/-- As long as every call returns, the set is up to date. -/
theorem ReachedBy.upToDate {s : Blockchain} (reached : s.ReachedBy Call.Returns) :
    s.ReachedBy (Storing UpToDateFor) := by
  suffices s.Sound ∧ s.ReachedBy (Storing UpToDateFor) from this.2
  induction reached with
  | refl => exact ⟨sound_new, .refl⟩
  | tail _ returns next ih =>
      exact ⟨ih.1.step returns next, ih.2.tail (fun b _ _ => ih.1.upToDateFor b) next⟩

/-- Where the set is up to date for every block that is stored, the chain is valid. -/
theorem ReachedBy.valid {s : Blockchain} (reached : s.ReachedBy (Storing UpToDateFor)) :
    ValidChain s.blocks := by
  refine reached.invariant (fun s => ValidChain s.blocks) .nil fun s c t hs meets next => ?_
  rcases step_blocks next with ⟨-, hblocks⟩ | ⟨b, rfl, hpasses, hblocks⟩
  · rwa [hblocks]
  · rw [hblocks]
    exact hs.concat ((passesChecks_iff.mp hpasses).congr (meets b rfl hpasses))

/-- A property of the chain that a stored block keeps exactly when it meets `F`, a run
keeps exactly when all blocks it stores do. -/
theorem reachedBy_storing_iff {s : Blockchain} {F : List Block → Block → Prop}
    (P : List Block → Prop) (hnil : P [])
    (hconcat : ∀ bs b, CheckedChain (bs ++ [b]) → (P (bs ++ [b]) ↔ P bs ∧ F bs b)) :
    s.ReachedBy (Storing fun s b => F s.blocks b) ↔ s.Reached ∧ P s.blocks := by
  refine Machine.reach_iff (fun s : Blockchain => P s.blocks) hnil fun s c t reached next => ?_
  have htail := (ReachedBy.stored reached).step next
  rcases step_blocks next with ⟨hrefused, hblocks⟩ | ⟨b, rfl, hpasses, hblocks⟩
  · rw [hblocks]
    exact ⟨fun h => ⟨h, fun b hb hpasses => absurd hpasses (hrefused b hb)⟩, fun h => h.1⟩
  · have hF : Storing (fun s b => F s.blocks b) s (.addBlock b) ↔ F s.blocks b :=
      ⟨fun h => h b rfl hpasses, fun h b' hb' _ => by cases hb'; exact h⟩
    rw [hF, hblocks]
    exact hconcat _ _ (hblocks ▸ htail.checked)

end Blockchain

namespace Node

/-- An event keeps a property of the chain and of the chain file that the part of the
node that it runs keeps. -/
theorem step_both {P : Blockchain → Prop} {n m : Node} {e : Event} (hnew : P Blockchain.new)
    (hcall : ∀ c chain, e = .call c → n.chain.step c = some chain → P chain)
    (hsaved : P n.chain → P n.chain.saved) (hrebuild : P n.chain → P n.chain.rebuildUtxoSet)
    (hload : ∀ file chain, e = .restart → file ∈ n.file →
      Blockchain.loadFromFile file = .ok chain → P chain)
    (hadjust : ∀ chain, e = .tryAdjustTarget → n.chain.tryAdjustTarget = .ok chain → P chain)
    (hn : P n.chain ∧ ∀ file ∈ n.file, P file) (h : n.step e = some m) :
    P m.chain ∧ ∀ file ∈ m.file, P file := by
  cases e with
  | call c =>
      obtain ⟨chain, hchain, rfl⟩ := step_call_iff.mp h
      exact ⟨hcall c chain rfl hchain, hn.2⟩
  | saveToFile =>
      cases h
      refine ⟨hn.1, fun file hfile => ?_⟩
      cases hfile
      exact hsaved hn.1
  | restart =>
      rcases step_restart_iff.mp h with ⟨-, rfl⟩ | ⟨file, chain, hfile, hchain, rfl⟩
      · exact ⟨hnew, hn.2⟩
      · exact ⟨hload file chain rfl hfile hchain, hn.2⟩
  | rebuildUtxoSet =>
      cases h
      exact ⟨hrebuild hn.1, hn.2⟩
  | tryAdjustTarget =>
      rcases step_tryAdjustTarget_cases h with ⟨chain, hchain, rfl⟩ | ⟨-, rfl⟩
      · exact ⟨hadjust chain rfl hchain, hn.2⟩
      · exact hn

instance : ∀ e : Event, Decidable (e ≠ .restart)
  | .restart => isFalse fun h => h rfl
  | .call _ | .saveToFile | .rebuildUtxoSet | .tryAdjustTarget => isTrue (by simp)

/-- The nodes that `n` becomes without a restart. -/
abbrev Becomes (n m : Node) : Prop := Machine.Reach Node.step (fun _ e => e ≠ .restart) n m

/-- Without a restart the blocks stay, or the event stores one that passes its checks. -/
theorem step_blocks {n m : Node} {e : Event} (h : e ≠ .restart) (next : n.step e = some m) :
    ((∀ b, e = .call (.addBlock b) → ¬ n.chain.PassesChecks b) ∧
        m.chain.blocks = n.chain.blocks) ∨
      ∃ b, e = .call (.addBlock b) ∧ n.chain.PassesChecks b ∧
        m.chain.blocks = n.chain.blocks ++ [b] := by
  cases e with
  | call c =>
      obtain ⟨chain, hchain, rfl⟩ := step_call_iff.mp next
      rcases Blockchain.step_blocks hchain with ⟨hrefused, hsame⟩ | ⟨b, rfl, hpasses, happend⟩
      · exact Or.inl ⟨fun b hb => hrefused b (Event.call.inj hb), hsame⟩
      · exact Or.inr ⟨b, rfl, hpasses, happend⟩
  | saveToFile => cases next; exact Or.inl ⟨nofun, rfl⟩
  | restart => exact absurd rfl h
  | rebuildUtxoSet => cases next; exact Or.inl ⟨nofun, rfl⟩
  | tryAdjustTarget =>
      rcases step_tryAdjustTarget_cases next with ⟨chain, hchain, rfl⟩ | ⟨-, rfl⟩
      · exact Or.inl ⟨nofun, Blockchain.blocks_tryAdjustTarget hchain⟩
      · exact Or.inl ⟨nofun, rfl⟩

theorem step_blocks_isPrefix {n m : Node} {e : Event} (h : e ≠ .restart)
    (next : n.step e = some m) : n.chain.blocks <+: m.chain.blocks := by
  rcases step_blocks h next with ⟨-, hsame⟩ | ⟨b, -, -, happend⟩
  · exact hsame ▸ List.prefix_refl _
  · exact ⟨[b], happend.symm⟩

theorem Becomes.blocks_isPrefix {n m : Node} (h : n.Becomes m) :
    n.chain.blocks <+: m.chain.blocks :=
  h.invariant (fun m => n.chain.blocks <+: m.chain.blocks) (List.prefix_refl _)
    fun _ _ _ hk meets next => hk.trans (step_blocks_isPrefix meets next)

/-- What holds at any time, of the chain and of the chain file. -/
def Stored (n : Node) : Prop := n.chain.Stored ∧ ∀ file ∈ n.file, file.Stored

theorem Stored.step {n m : Node} {e : Event} (hn : n.Stored) (h : n.step e = some m) :
    m.Stored :=
  step_both Blockchain.sound_new.stored (fun _ _ _ next => hn.1.step next)
    (fun hs => hs.of_frame rfl rfl rfl (by simp [Blockchain.saved])) (fun hs => hs.rebuild)
    (fun file _ _ hfile hload => (hn.2 file hfile).rebuild.adjust hload)
    (fun _ _ hadjust => hn.1.adjust hadjust) hn h

theorem ReachedBy.stored {C : Node → Event → Prop} {n : Node} (reached : n.ReachedBy C) :
    n.Stored :=
  reached.invariant Stored ⟨Blockchain.sound_new.stored, by simp [new]⟩
    fun _ _ _ hn _ next => hn.step next

/-- The chain and the chain file are both sound. -/
def Sound (n : Node) : Prop := n.chain.Sound ∧ ∀ file ∈ n.file, file.Sound

theorem Sound.step {n m : Node} {e : Event} (hn : n.Sound) (returns : e.Returns n)
    (h : n.step e = some m) : m.Sound :=
  step_both Blockchain.sound_new
    (fun c _ he next => hn.1.step (by subst he; exact returns) next)
    (fun hs => hs.of_frame rfl rfl rfl (by simp [Blockchain.saved])) (fun hs => hs.rebuild)
    (fun file _ _ hfile hload => (hn.2 file hfile).rebuild.adjust hload)
    (fun _ _ hadjust => hn.1.adjust hadjust) hn h

theorem ReachedBy.sound {n : Node} (reached : n.ReachedBy Event.Returns) : n.Sound :=
  reached.invariant Sound ⟨Blockchain.sound_new, by simp [new]⟩
    fun _ _ _ hn returns next => hn.step returns next

end Node

end ToyBtc
