import ToyBtc.Gossip
import ToyBtc.Uniqueness

/-!
# Connections between honest nodes

A node that rejects a transaction of another node ends the connection, unless
the transaction is still in its mempool, and a handler that unwinds ends it
too. What a node has taken before it passes it on names every input once, pays
for its outputs and stands on a chain of the right height. So the other node
rejects it only because an input is gone, and unwinds only in an adjustment.

## Implementation notes

Items arrive in any order and any number of times. Items that nodes have passed
on after taking them are recorded, and all other items come from outside.
-/

namespace ToyBtc

open MapLog Growth

variable [Crates]

/-! ### How a handler leaves the connection -/

namespace Block

theorem verifyInputs_ne_panic (u : UtxoSet) (inputs : List TxInput) (amount : UInt64)
    (spent : Finset Hash) : verifyInputs u inputs amount spent ≠ .error .panic := by
  induction inputs generalizing amount spent with
  | nil => simp [verifyInputs]
  | cons i rest ih =>
      rw [verifyInputs]
      split
      · simp [reject]
      · split
        · simp [reject]
        · split
          · simp [reject]
          · exact ih _ _

theorem verifySpends_ne_panic (u : UtxoSet) (txs : List Tx) (fees : UInt64)
    (spent : Finset Hash) : verifySpends u txs fees spent ≠ .error .panic := by
  induction txs generalizing fees spent with
  | nil => simp [verifySpends]
  | cons tx rest ih =>
      rw [verifySpends]
      cases hin : verifyInputs u tx.inputs 0 spent with
      | error e =>
          have hne := verifyInputs_ne_panic u tx.inputs 0 spent
          rw [hin] at hne
          simpa using hne
      | ok r =>
          dsimp only
          split
          · simp [reject]
          · exact ih _ _

omit [Crates] in
/-- The check of the coinbase unwinds without one, or for want of a subsidy. -/
theorem blockReward_of_verifyCoinbaseTransaction {b : Block} {height fees : UInt64}
    (h : b.verifyCoinbaseTransaction height fees = .error .panic) (hne : b.transactions ≠ []) :
    blockReward height = none := by
  unfold verifyCoinbaseTransaction at h
  split at h
  · exact absurd ‹b.transactions = []› hne
  · split at h
    · cases h
    · split at h
      · cases h
      · cases hreward : blockReward height with
        | none => rfl
        | some reward =>
            rw [hreward] at h
            dsimp only at h
            split at h <;> cases h

/-- The verification unwinds only above the end of the subsidy schedule. -/
theorem blockReward_of_verifyTransactions {b : Block} {height : UInt64} {u : UtxoSet}
    (h : b.verifyTransactions height u = .error .panic) : blockReward height = none := by
  unfold verifyTransactions at h
  split at h
  · cases h
  · next coinbase rest htxs =>
      cases hsum : verifySpends u rest 0 ∅ with
      | error e =>
          have hne : e ≠ .panic := fun heq => verifySpends_ne_panic u rest 0 ∅ (heq ▸ hsum)
          rw [hsum] at h
          exact absurd (Except.error.inj h) hne
      | ok fees =>
          rw [hsum] at h
          apply blockReward_of_verifyCoinbaseTransaction h
          rw [htxs]
          exact List.cons_ne_nil _ _

end Block

namespace Blockchain

theorem checkHeader_ne_panic (bs : List Block) (b : Block) :
    checkHeader bs b ≠ .error .panic := by
  unfold checkHeader reject
  repeat' split
  all_goals simp

/-- Below the end of the schedule it is the adjustment that unwinds, and after
all checks have passed. -/
theorem addBlock_panic_iff {s : Blockchain} {b : Block}
    (hreward : checkHeader s.blocks b = .ok () → (blockReward s.blockHeight).isSome = true) :
    s.addBlock b = .error .panic ↔
      s.PassesChecks b ∧ adjustedTarget (s.blocks ++ [b]) s.target = none := by
  unfold addBlock PassesChecks
  cases hheader : checkHeader s.blocks b with
  | error e =>
      have hne := checkHeader_ne_panic s.blocks b
      rw [hheader] at hne
      simpa using hne
  | ok v =>
      cases hverify : b.verifyTransactions s.blockHeight s.utxoSet with
      | error e =>
          refine iff_of_false (fun hpanic => ?_) (by simp)
          obtain rfl := Except.error.inj hpanic
          have hsome := hreward hheader
          rw [Block.blockReward_of_verifyTransactions hverify] at hsome
          cases hsome
      | ok v =>
          cases htarget : adjustedTarget (s.blocks ++ [b]) s.target with
          | none => simp [tryAdjustTarget, htarget, unwind]
          | some target => simp [tryAdjustTarget, htarget]

theorem checkInputs_ne_known (u : UtxoSet) (tx : Tx) (inputs : List TxInput)
    (seen : Finset Hash) (h : Hash) :
    checkInputs u tx inputs seen ≠ .error (.txAlreadyInMempool h) := by
  induction inputs generalizing seen with
  | nil => simp [checkInputs]
  | cons i rest ih =>
      rw [checkInputs]
      split
      · simp
      · split
        · simp
        · exact ih _

/-- The transaction is in the mempool, as far as its hash tells. -/
def Knows (s : Blockchain) (tx : Tx) : Prop := ∃ e ∈ s.mempool, e.2.hash = tx.hash

instance (s : Blockchain) (tx : Tx) : Decidable (s.Knows tx) :=
  inferInstanceAs (Decidable (∃ e ∈ s.mempool, e.2.hash = tx.hash))

/-- A transaction is reported as known exactly if it is. -/
theorem addToMempool_known_iff {s : Blockchain} {now : DateTime} {tx : Tx} {h : Hash} :
    (s.addToMempool now tx).2 = .error (.txAlreadyInMempool h) ↔ s.Knows tx ∧ tx.hash = h := by
  have hany : (s.mempool.any fun e => e.2.hash = tx.hash) = true ↔ s.Knows tx := by
    simp [Knows]
  unfold addToMempool
  by_cases hknown : s.Knows tx
  · simp [hany.mpr hknown, hknown]
  · rw [if_neg (hany.not.mpr hknown)]
    refine iff_of_false ?_ fun h => hknown h.1
    cases hcheck : checkInputs s.utxoSet tx tx.inputs ∅ with
    | error e =>
        have hne := checkInputs_ne_known s.utxoSet tx tx.inputs ∅ h
        rw [hcheck] at hne
        simpa using hne
    | ok v =>
        rcases replaceOlder tx tx.inputs s.utxoSet s.mempool with ⟨u, mempool, _ | _⟩
        · simp
        · dsimp only
          split <;> simp

end Blockchain

omit [Crates] in
theorem closeUnlessKnown_iff {e : BtcError} :
    closeUnlessKnown e = .continues ↔ ∃ h, e = .txAlreadyInMempool h := by
  cases e <;> simp [closeUnlessKnown]

theorem relayTransaction_continues_iff {skipAddr : Option String} {s : Blockchain}
    {now : DateTime} {tx : Tx} :
    (relayTransaction closeUnlessKnown skipAddr s now tx).ending = .continues ↔
      s.Knows tx ∨ (s.addToMempool now tx).2 = .ok () := by
  have hknown (h : Hash) : (s.addToMempool now tx).2 = .error (.txAlreadyInMempool h) ↔
      s.Knows tx ∧ tx.hash = h := Blockchain.addToMempool_known_iff
  unfold relayTransaction
  rcases hcall : s.addToMempool now tx with ⟨t, e | v⟩
  · simp only [hcall, Except.error.injEq] at hknown
    simp only [closeUnlessKnown_iff, hknown, reduceCtorEq, or_false]
    exact ⟨fun ⟨_, h, _⟩ => h, fun h => ⟨_, h, rfl⟩⟩
  · simp

theorem relayBlock_continues_iff {skipAddr : Option String} {s : Blockchain} {b : Block} :
    (relayBlock (fun _ => .continues) skipAddr s b).ending = .continues ↔
      s.addBlock b ≠ .error .panic := by
  rcases s.addAndRebuild_cases b with ⟨t, hadd, heq⟩ | ⟨e, hadd, heq⟩
  · simp [relayBlock, heq, hadd]
  · cases e <;> simp [relayBlock, heq, hadd]

/-! ### What the chain of a node keeps -/

/-- Every block has passed the header checks, below the end of the subsidy schedule. -/
def InTurn (bs : List Block) : Prop :=
  ∀ pre b post, bs = pre ++ b :: post →
    Blockchain.checkHeader pre b = .ok () ∧ (blockReward (UInt64.ofNat pre.length)).isSome = true

theorem InTurn.linkedBack {bs : List Block} (inTurn : InTurn bs) : LinkedBack bs :=
  fun pre b post hsplit => Blockchain.prevBlockHash_of_checkHeader (inTurn pre b post hsplit).1

theorem InTurn.concat {s : Blockchain} {b : Block} (inTurn : InTurn s.blocks)
    (hpass : s.PassesChecks b) : InTurn (s.blocks ++ [b]) := by
  obtain ⟨coinbase, txs, -, hv⟩ := (Block.verifyTransactions_ok_iff ..).mp hpass.2
  obtain ⟨reward, hreward, -⟩ := hv.paid
  exact forall_split_concat_iff.mpr
    ⟨inTurn, hpass.1, Option.isSome_iff_exists.mpr ⟨reward, hreward⟩⟩

theorem CheckedChain.inTurn {bs : List Block} (checked : CheckedChain bs) : InTurn bs := by
  rintro pre b post rfl
  obtain ⟨_, -, passes⟩ := checked.of_split
  obtain ⟨coinbase, txs, -, hv⟩ := passes.verified
  obtain ⟨reward, hreward, -⟩ := hv.paid
  exact ⟨passes.header, Option.isSome_iff_exists.mpr ⟨reward, hreward⟩⟩

/-- The outputs of the set meet `P`, and each is stored under its own hash. -/
def UtxoSet.AllStored (P : TxOutput → Prop) (u : UtxoSet) : Prop :=
  ∀ h o, u.output h = some o → P o ∧ o.hash = h

theorem UtxoSet.AllStored.mono {P Q : TxOutput → Prop} {u : UtxoSet} (h : u.AllStored P)
    (hPQ : ∀ o, P o → Q o) : u.AllStored Q :=
  fun k o ho => ⟨hPQ o (h k o ho).1, (h k o ho).2⟩

omit [Crates] in
theorem chainOutputs_subset {bs bs' : List Block} (h : bs <+: bs') :
    chainOutputs bs ⊆ chainOutputs bs' := by
  obtain ⟨rest, rfl⟩ := h
  simp [chainOutputs, chainTxs]

namespace Blockchain

/-- The blocks are in turn, and the unspent outputs come from them. -/
structure Rooted (s : Blockchain) : Prop where
  inTurn : InTurn s.blocks
  stored : s.utxoSet.AllStored (· ∈ chainOutputs s.blocks)

theorem Stored.rooted {s : Blockchain} (hs : s.Stored) : s.Rooted where
  inTurn := hs.checked.inTurn
  stored h o ho := by
    obtain ⟨bs, hpre, houtputs⟩ := hs.outputs
    rw [houtputs] at ho
    obtain ⟨marked, hlookup⟩ := UtxoSet.output_eq_some.mp ho
    obtain ⟨hmem, hhash⟩ := mem_chainOutputs_of_insert (insert_mem_of_lookup_replay hlookup)
    exact ⟨chainOutputs_subset hpre hmem, hhash⟩

theorem Rooted.rebuild {s : Blockchain} (hs : s.Rooted) : s.rebuildUtxoSet.Rooted where
  inTurn := hs.inTurn
  stored h o ho := by
    simp only [rebuildUtxoSet, foldl_applyBlock_eq_replay] at ho
    obtain ⟨marked, hlookup⟩ := UtxoSet.output_eq_some.mp ho
    rcases mem_of_lookup_replay hlookup with hold | hinsert
    · exact hs.stored h o (UtxoSet.output_eq_some.mpr ⟨marked, hold⟩)
    · exact mem_chainOutputs_of_insert hinsert

/-- Calls that keep the blocks and the outputs. -/
theorem Rooted.of_frame {s t : Blockchain} (hs : s.Rooted) (hblocks : t.blocks = s.blocks)
    (houtput : t.utxoSet.output = s.utxoSet.output) : t.Rooted :=
  ⟨hblocks ▸ hs.inTurn, fun h o ho => hblocks ▸ hs.stored h o (houtput ▸ ho)⟩

theorem Rooted.tryAdjustTarget {s t : Blockchain} (hs : s.Rooted)
    (h : s.tryAdjustTarget = .ok t) : t.Rooted := by
  obtain ⟨target, -, rfl⟩ := tryAdjustTarget_ok_iff.mp h
  exact hs.of_frame rfl rfl

theorem Rooted.addBlockInPlace {s : Blockchain} (hs : s.Rooted) (b : Block) :
    (s.addBlockInPlace b).1.Rooted := by
  unfold Blockchain.addBlockInPlace
  cases hstore : s.storeBlock b with
  | error e => exact hs
  | ok stored =>
      obtain ⟨hcheck, hverify, rfl⟩ := storeBlock_ok_iff.mp hstore
      have hstored : Rooted ⟨s.blocks ++ [b], s.utxoSet, s.target, s.remainingMempool b⟩ :=
        ⟨hs.inTurn.concat ⟨hcheck, hverify⟩,
          hs.stored.mono fun o ho => chainOutputs_subset (List.prefix_append _ _) ho⟩
      dsimp only
      cases hadjust : Blockchain.tryAdjustTarget _ with
      | error e => exact hstored
      | ok t => exact hstored.tryAdjustTarget hadjust

theorem Rooted.addAndRebuild {s : Blockchain} (hs : s.Rooted) (b : Block) :
    (s.addAndRebuild b).1.Rooted := by
  have hadd := hs.addBlockInPlace b
  unfold Blockchain.addAndRebuild
  rcases hcall : s.addBlockInPlace b with ⟨t, e | v⟩
  · rw [hcall] at hadd
    exact hadd
  · rw [hcall] at hadd
    exact hadd.rebuild

theorem Rooted.addToMempool {s : Blockchain} (hs : s.Rooted) (now : DateTime) (tx : Tx) :
    (s.addToMempool now tx).1.Rooted := by
  obtain ⟨hblocks, -, houtput, -⟩ := addToMempool_cases s now tx
  exact hs.of_frame hblocks houtput

end Blockchain

theorem NetworkEvent.rooted_chain {ι : Type*} {s : Blockchain} (hs : s.Rooted)
    (e : NetworkEvent ι) : (e.chain s).Rooted := by
  cases e with
  | arrive i now m =>
      rw [chain]
      rcases m.handle_cases s now with ⟨onError, skipAddr, b, -, heq⟩ |
        ⟨onError, skipAddr, tx, -, -, heq⟩ | ⟨skipAddr, tx, -, -, heq⟩
      · rw [heq, relayBlock_chain]
        exact hs.addAndRebuild b
      · rw [heq, relayTransaction_chain]
        exact hs.addToMempool now tx
      · rw [heq]
        exact hs.addToMempool now tx
  | download i b => exact hs.addAndRebuild b
  | rebuildUtxoSet i => exact hs.rebuild
  | tryAdjustTarget i =>
      rw [chain]
      cases hadjust : s.tryAdjustTarget with
      | error e => exact hs
      | ok t => exact hs.tryAdjustTarget hadjust
  | cleanupMempool i now =>
      obtain ⟨hblocks, -, houtput, -⟩ := Blockchain.cleanupMempool_frame s now
      exact hs.of_frame hblocks houtput

/-! ### Items that were passed on -/

namespace Incoming

omit [Crates] in
/-- The item comes from another node. -/
def FromPeer : Incoming → Prop
  | newBlock _ _ => True
  | newTransaction _ _ => True
  | subscribedBlock _ _ => True
  | subscribedTransaction _ _ => True
  | _ => False

instance : (m : Incoming) → Decidable m.FromPeer
  | newBlock _ _ | newTransaction _ _ | subscribedBlock _ _ | subscribedTransaction _ _ =>
      isTrue trivial
  | submitTemplate _ _ | submitTransaction _ _ | rpcSubmitTemplate _ | rpcSubmitTransaction _ =>
      isFalse id

/-- What a handler does with the item of another node. -/
theorem handle_fromPeer {m : Incoming} (hpeer : m.FromPeer) (s : Blockchain) (now : DateTime) :
    (∃ skipAddr b, m.item = .block b ∧
      m.handle s now = relayBlock (fun _ => .continues) skipAddr s b) ∨
    ∃ skipAddr tx, m.item = .transaction tx ∧
      m.handle s now = relayTransaction closeUnlessKnown skipAddr s now tx := by
  cases m with
  | newBlock sourceAddr b => exact Or.inl ⟨_, b, rfl, rfl⟩
  | subscribedBlock peerAddr b => exact Or.inl ⟨_, b, rfl, rfl⟩
  | newTransaction sourceAddr tx => exact Or.inr ⟨_, tx, rfl, rfl⟩
  | subscribedTransaction peerAddr tx => exact Or.inr ⟨_, tx, rfl, rfl⟩
  | _ => exact hpeer.elim

end Incoming

/-- The item is taken and passed on. -/
def Incoming.Passes (m : Incoming) (s : Blockchain) (now : DateTime) : Prop :=
  m.Relayed s now ∧ m.item.TakenBy s now

instance (m : Incoming) (s : Blockchain) (now : DateTime) : Decidable (m.Relayed s now) :=
  decidable_of_iff ((m.handle s now).broadcast.map Broadcast.item = some m.item) <| by
    rw [Option.map_eq_some_iff]
    exact ⟨fun ⟨x, hx, hitem⟩ => ⟨x.skipAddr, by rw [hx, ← hitem]⟩, fun ⟨_, hx⟩ => ⟨_, hx, rfl⟩⟩

instance (s : Blockchain) (now : DateTime) : (x : Item) → Decidable (x.TakenBy s now)
  | .block b => inferInstanceAs (Decidable ((s.addBlockInPlace b).1.blocks = s.blocks ++ [b]))
  | .transaction tx => inferInstanceAs (Decidable (s.Inserts now tx))

instance (m : Incoming) (s : Blockchain) (now : DateTime) : Decidable (m.Passes s now) :=
  inferInstanceAs (Decidable (_ ∧ _))

variable {ι : Type*}

/-- The item that the node of the event takes and passes on, if any. -/
def NetworkEvent.passed (net : Network ι) : NetworkEvent ι → List Item
  | arrive i now m => if m.Passes (net i) now then [m.item] else []
  | _ => []

/-- A network, and the items that its nodes have passed on after taking them. -/
structure Traffic (ι : Type*) where
  net : Network ι
  passed : List Item

/-- The chains of the nodes before anything is passed on. -/
def Traffic.start (nodes : ι → Node) : Traffic ι := ⟨fun i => (nodes i).chain, []⟩

/-- The chain can take in an item that another chain has taken: the adjustment
after the block works out, and the transaction is known or has all its inputs. -/
def Item.ReadyAt (s : Blockchain) : Item → Prop
  | .block b => s.PassesChecks b →
      (Blockchain.adjustedTarget (s.blocks ++ [b]) s.target).isSome = true
  | .transaction tx => s.Knows tx ∨ ∀ h ∈ tx.spends, h ∈ s.utxoSet

instance (s : Blockchain) : (x : Item) → Decidable (x.ReadyAt s)
  | .block b =>
      inferInstanceAs (Decidable (Blockchain.checkHeader s.blocks b = .ok () ∧
        b.verifyTransactions s.blockHeight s.utxoSet = .ok () → _))
  | .transaction tx => inferInstanceAs (Decidable (s.Knows tx ∨ ∀ h ∈ tx.spends, h ∈ s.utxoSet))

/-- The headers and the outputs of all chains hash apart, and no header hashes to zero. -/
structure Network.HashesApart (net : Network ι) : Prop where
  outputs : ∀ i j, ∀ o ∈ chainOutputs (net i).blocks, ∀ o' ∈ chainOutputs (net j).blocks,
    o.hash = o'.hash → o = o'
  headers : ∀ i j, ∀ b ∈ (net i).blocks, ∀ b' ∈ (net j).blocks,
    b.header.hash = b'.header.hash → b.header = b'.header
  nonzero : ∀ i, ∀ b ∈ (net i).blocks, b.header.hash ≠ Hash.zero

instance [Fintype ι] (net : Network ι) : Decidable net.HashesApart :=
  decidable_of_iff
    ((∀ i j, ∀ o ∈ chainOutputs (net i).blocks, ∀ o' ∈ chainOutputs (net j).blocks,
        o.hash = o'.hash → o = o') ∧
      (∀ i j, ∀ b ∈ (net i).blocks, ∀ b' ∈ (net j).blocks,
        b.header.hash = b'.header.hash → b.header = b'.header) ∧
      ∀ i, ∀ b ∈ (net i).blocks, b.header.hash ≠ Hash.zero)
    ⟨fun h => ⟨h.1, h.2.1, h.2.2⟩, fun h => ⟨h.outputs, h.headers, h.nonzero⟩⟩

theorem Tx.inputAmount_congr_of_stored {P Q : TxOutput → Prop} {u u' : UtxoSet}
    (hu : u.AllStored P) (hu' : u'.AllStored Q)
    (hinj : ∀ o, P o → ∀ o', Q o' → o.hash = o'.hash → o = o') {tx : Tx}
    (hmem : ∀ h ∈ tx.spends, h ∈ u) (hmem' : ∀ h ∈ tx.spends, h ∈ u') :
    tx.inputAmount u = tx.inputAmount u' := by
  rw [Tx.inputAmount_eq, Tx.inputAmount_eq]
  refine congrArg List.sum (List.map_congr_left fun h hh => ?_)
  obtain ⟨o, ho⟩ := UtxoSet.mem_iff_output.mp (hmem h hh)
  obtain ⟨o', ho'⟩ := UtxoSet.mem_iff_output.mp (hmem' h hh)
  obtain ⟨hP, hhash⟩ := hu h o ho
  obtain ⟨hQ, hhash'⟩ := hu' h o' ho'
  obtain rfl := hinj o hP o' hQ (hhash.trans hhash'.symm)
  rw [UtxoSet.amount, UtxoSet.amount, ho, ho']

namespace StandIn

/-- A payment and the block with it reach the second node from the first, and the
payment once more from the third. -/
def lateTransaction : List (NetworkEvent (Fin 3)) :=
  [.arrive 0 0 (.rpcSubmitTemplate genesis), .arrive 1 0 (.newBlock "first" genesis),
    .arrive 2 0 (.newBlock "first" genesis), .arrive 0 0 (.submitTransaction "wallet" toBob),
    .arrive 2 0 (.newTransaction "first" toBob), .arrive 1 0 (.newTransaction "first" toBob),
    .arrive 0 0 (.submitTemplate "miner" spendingBlock),
    .arrive 1 0 (.newBlock "first" spendingBlock), .arrive 1 0 (.newTransaction "third" toBob)]

end StandIn

namespace Traffic

/-- No connection and no subscription ends because of an item that was passed on. -/
def KeepsConnection (t : Traffic ι) : NetworkEvent ι → Prop
  | .arrive i now m =>
      m.FromPeer → m.item ∈ t.passed → (m.handle (t.net i) now).ending = .continues
  | _ => True

/-- Items that were passed on arrive at nodes that can take them in. -/
def DeliversReady (t : Traffic ι) : NetworkEvent ι → Prop
  | .arrive i _ m => m.FromPeer → m.item ∈ t.passed → m.item.ReadyAt (t.net i)
  | _ => True

instance (t : Traffic ι) : (e : NetworkEvent ι) → Decidable (t.KeepsConnection e)
  | .arrive i now m => inferInstanceAs (Decidable (m.FromPeer → m.item ∈ t.passed →
      (m.handle (t.net i) now).ending = .continues))
  | .download _ _ | .rebuildUtxoSet _ | .tryAdjustTarget _ | .cleanupMempool _ _ => isTrue trivial

instance (t : Traffic ι) : (e : NetworkEvent ι) → Decidable (t.DeliversReady e)
  | .arrive i _ m => inferInstanceAs (Decidable (m.FromPeer → m.item ∈ t.passed →
      m.item.ReadyAt (t.net i)))
  | .download _ _ | .rebuildUtxoSet _ | .tryAdjustTarget _ | .cleanupMempool _ _ => isTrue trivial

/-- Where a transaction that was passed on has come from: the outputs that it
spends were created in the chains, and they pay for it. -/
structure Funded (net : Network ι) (tx : Tx) : Prop where
  distinct : tx.spends.Nodup
  paid : ∃ u : UtxoSet, (u.AllStored fun o => ∃ i, o ∈ chainOutputs (net i).blocks) ∧
    (∀ h ∈ tx.spends, h ∈ u) ∧ tx.outputAmount ≤ tx.inputAmount u

/-- All chains are rooted, and items that were passed on come from them. -/
structure Traceable (t : Traffic ι) : Prop where
  rooted : ∀ i, (t.net i).Rooted
  block : ∀ b, Item.block b ∈ t.passed → ∃ i, b ∈ (t.net i).blocks
  transaction : ∀ tx, Item.transaction tx ∈ t.passed → Funded t.net tx

theorem traceable_start {nodes : ι → Node} (reached : ∀ i, (nodes i).Reached) :
    (start nodes).Traceable where
  rooted i := (Node.ReachedBy.stored (reached i)).1.rooted
  block b hb := by cases hb
  transaction tx htx := by cases htx

theorem Funded.mono {net net' : Network ι} {tx : Tx} (funded : Funded net tx)
    (h : ∀ i, (net i).blocks <+: (net' i).blocks) : Funded net' tx := by
  obtain ⟨u, hstored, hmem, hpaid⟩ := funded.paid
  refine ⟨funded.distinct, u, hstored.mono ?_, hmem, hpaid⟩
  rintro o ⟨i, ho⟩
  exact ⟨i, chainOutputs_subset (h i) ho⟩

/-- A block that was passed on passes the header checks of a chain only at the
height at which it was taken, and that is below the end of the schedule. -/
theorem Traceable.blockReward_isSome {t : Traffic ι} (traceable : t.Traceable)
    (hapart : t.net.HashesApart) {b : Block} (hb : Item.block b ∈ t.passed) {i : ι}
    (hcheck : Blockchain.checkHeader (t.net i).blocks b = .ok ()) :
    (blockReward (t.net i).blockHeight).isSome = true := by
  obtain ⟨j, hj⟩ := traceable.block b hb
  obtain ⟨pre, post, hsplit⟩ := List.append_of_mem hj
  obtain ⟨hcheck', hreward⟩ := (traceable.rooted j).inTurn pre b post hsplit
  have hpre : ∀ x ∈ pre, x ∈ (t.net j).blocks := fun x hx => by simp [hsplit, hx]
  have hlinked : LinkedBack pre := fun pre' x post' h =>
    (traceable.rooted j).inTurn.linkedBack pre' x (post' ++ b :: post) (by simp [hsplit, h])
  have htip : tipHash pre = tipHash (t.net i).blocks := by
    rw [← Blockchain.prevBlockHash_of_checkHeader hcheck',
      Blockchain.prevBlockHash_of_checkHeader hcheck]
  have hheaders := hlinked.map_header_eq (traceable.rooted i).inTurn.linkedBack
    (fun x hx y hy => hapart.headers j i x (hpre x hx) y hy)
    (fun x hx => hapart.nonzero j x (hpre x hx)) (hapart.nonzero i) htip
  have hlen : pre.length = (t.net i).blocks.length := by simpa using congrArg List.length hheaders
  rw [Blockchain.blockHeight, ← hlen]
  exact hreward

/-- An item that was passed on leaves the connection open exactly at a chain that
is ready for it. -/
theorem Traceable.continues_iff {t : Traffic ι} (traceable : t.Traceable)
    (hapart : t.net.HashesApart) {m : Incoming} (hpeer : m.FromPeer) (hpassed : m.item ∈ t.passed)
    (i : ι) (now : DateTime) :
    (m.handle (t.net i) now).ending = .continues ↔ m.item.ReadyAt (t.net i) := by
  rcases m.handle_fromPeer hpeer (t.net i) now with
    ⟨skipAddr, b, hitem, heq⟩ | ⟨skipAddr, tx, hitem, heq⟩
  · rw [hitem] at hpassed
    have hreward := traceable.blockReward_isSome hapart hpassed (i := i)
    rw [hitem, heq, relayBlock_continues_iff, ne_eq, Blockchain.addBlock_panic_iff hreward,
      Item.ReadyAt, Option.isSome_iff_ne_none]
    tauto
  · rw [hitem] at hpassed
    rw [hitem, heq, relayTransaction_continues_iff, Blockchain.addToMempool_ok_iff, Item.ReadyAt]
    refine or_congr_right' fun hunknown => ?_
    constructor
    · rintro ⟨hadm, -⟩
      exact hadm.known
    · intro hmem
      obtain ⟨hdistinct, u, hstored, humem, hpaid⟩ := traceable.transaction tx hpassed
      have hamount : tx.inputAmount u = tx.inputAmount (t.net i).utxoSet :=
        Tx.inputAmount_congr_of_stored hstored (traceable.rooted i).stored
          (fun o ⟨j, ho⟩ o' ho' => hapart.outputs j i o ho o' ho') humem hmem
      have hnew : ∀ e ∈ (t.net i).mempool, e.2.hash ≠ tx.hash :=
        fun e he hhash => hunknown ⟨e, he, hhash⟩
      exact ⟨⟨hnew, hmem, hdistinct⟩, Or.inr (hamount ▸ hpaid)⟩

theorem hashesApart_of_prefix {net net' : Network ι} (h : ∀ i, (net i).blocks <+: (net' i).blocks)
    (hapart : net'.HashesApart) : net.HashesApart where
  outputs i j o ho o' ho' := hapart.outputs i j o (chainOutputs_subset (h i) ho) o'
    (chainOutputs_subset (h j) ho')
  headers i j b hb b' hb' := hapart.headers i j b ((h i).subset hb) b' ((h j).subset hb')
  nonzero i b hb := hapart.nonzero i b ((h i).subset hb)

variable [DecidableEq ι]

/-- An event changes the network, and what it passes on stays known. -/
def step (t : Traffic ι) (e : NetworkEvent ι) : Option (Traffic ι) :=
  (t.net.step e).map fun net => ⟨net, t.passed ++ e.passed t.net⟩

theorem step_eq {t t' : Traffic ι} {e : NetworkEvent ι} (next : t.step e = some t') :
    t.net.step e = some t'.net ∧ t'.passed = t.passed ++ e.passed t.net := by
  obtain ⟨net, hnet, rfl⟩ := Option.map_eq_some_iff.mp next
  exact ⟨hnet, rfl⟩

theorem blocks_isPrefix_step {t t' : Traffic ι} {e : NetworkEvent ι}
    (next : t.step e = some t') (i : ι) : (t.net i).blocks <+: (t'.net i).blocks := by
  rw [Network.step_eq (step_eq next).1]
  split
  · exact e.blocks_isPrefix_chain (t.net i)
  · exact List.prefix_refl _

/-- Items that are passed on have been taken from a rooted chain. -/
theorem Traceable.of_passes {t t' : Traffic ι} (traceable : t.Traceable) {i : ι} {now : DateTime}
    {m : Incoming} (next : t.step (.arrive i now m) = some t') (hpasses : m.Passes (t.net i) now) :
    (∀ b, m.item = .block b → b ∈ (t'.net i).blocks) ∧
      ∀ tx, m.item = .transaction tx → Funded t.net tx := by
  obtain ⟨-, htaken⟩ := hpasses
  constructor
  · intro b hb
    rw [hb] at htaken
    rw [Network.step_eq (step_eq next).1, NetworkEvent.node, if_pos rfl,
      NetworkEvent.blocks_chain]
    simp only [NetworkEvent.offered, hb]
    rw [htaken]
    simp
  · intro tx htx
    rw [htx] at htaken
    obtain ⟨hadm, hpaid⟩ := Blockchain.Inserts.admissible htaken
    exact ⟨hadm.distinct, (t.net i).utxoSet,
      (traceable.rooted i).stored.mono fun o ho => ⟨i, ho⟩, hadm.known, hpaid⟩

theorem Traceable.step {t t' : Traffic ι} {e : NetworkEvent ι} (traceable : t.Traceable)
    (next : t.step e = some t') : t'.Traceable := by
  have hgrow := blocks_isPrefix_step next
  have hpassed : ∀ x ∈ t'.passed, x ∈ t.passed ∨
      ∃ i now m, e = .arrive i now m ∧ m.Passes (t.net i) now ∧ m.item = x := by
    intro x hx
    rw [(step_eq next).2] at hx
    rcases List.mem_append.mp hx with hold | hnew
    · exact Or.inl hold
    · cases e with
      | arrive i now m =>
          simp only [NetworkEvent.passed] at hnew
          split at hnew
          · next hpasses =>
              exact Or.inr ⟨i, now, m, rfl, hpasses, (List.mem_singleton.mp hnew).symm⟩
          · cases hnew
      | _ => cases hnew
  refine ⟨fun i => ?_, fun b hb => ?_, fun tx htx => ?_⟩
  · rw [Network.step_eq (step_eq next).1]
    split
    · exact e.rooted_chain (traceable.rooted i)
    · exact traceable.rooted i
  · rcases hpassed _ hb with hold | ⟨i, now, m, rfl, hpasses, hitem⟩
    · obtain ⟨i, hi⟩ := traceable.block b hold
      exact ⟨i, (hgrow i).subset hi⟩
    · exact ⟨i, (traceable.of_passes next hpasses).1 b hitem⟩
  · rcases hpassed _ htx with hold | ⟨i, now, m, rfl, hpasses, hitem⟩
    · exact (traceable.transaction tx hold).mono hgrow
    · exact ((traceable.of_passes next hpasses).2 tx hitem).mono hgrow

theorem blocks_isPrefix_run {t t' : Traffic ι} {run : List (NetworkEvent ι)}
    (h : run.foldlM step t = some t') (i : ι) : (t.net i).blocks <+: (t'.net i).blocks := by
  induction run generalizing t with
  | nil =>
      obtain rfl : t = t' := by simpa using h
      exact List.prefix_refl _
  | cons e rest ih =>
      rw [List.foldlM_cons] at h
      obtain ⟨s, hnext, hrest⟩ := Option.bind_eq_some_iff.mp h
      exact (blocks_isPrefix_step hnext i).trans (ih hrest)

theorem Traceable.run_iff {t last : Traffic ι} (traceable : t.Traceable)
    {run : List (NetworkEvent ι)} (hrun : run.foldlM Traffic.step t = some last)
    (hapart : last.net.HashesApart) :
    Machine.StepsMeet Traffic.step KeepsConnection t run ↔
      Machine.StepsMeet Traffic.step DeliversReady t run := by
  induction run generalizing t with
  | nil => exact Iff.rfl
  | cons e rest ih =>
      have hbefore := hashesApart_of_prefix (blocks_isPrefix_run hrun) hapart
      rw [List.foldlM_cons] at hrun
      obtain ⟨s, hnext, hrest⟩ := Option.bind_eq_some_iff.mp hrun
      have hfirst : t.KeepsConnection e ↔ t.DeliversReady e := by
        cases e with
        | arrive i now m =>
            exact forall₂_congr fun hpeer hpassed =>
              traceable.continues_iff hbefore hpeer hpassed i now
        | _ => exact Iff.rfl
      have htail := ih (traceable.step hnext) hrest
      refine and_congr hfirst (forall₂_congr fun s' hnext' => ?_)
      obtain rfl : s = s' := Option.some.inj (hnext.symm.trans hnext')
      exact htail

/-- From any reached nodes on, no connection and no subscription ends because of
an item that a node passed on after taking it, exactly if these items arrive only
where the transaction is known or has all its inputs, and where no adjustment
unwinds. -/
theorem keepsConnections_iff {nodes : ι → Node} (reached : ∀ i, (nodes i).Reached)
    {last : Traffic ι} {run : List (NetworkEvent ι)}
    (hrun : run.foldlM step (start nodes) = some last) (hapart : last.net.HashesApart) :
    Machine.StepsMeet step KeepsConnection (start nodes) run ↔
      Machine.StepsMeet step DeliversReady (start nodes) run :=
  (traceable_start reached).run_iff hrun hapart

end Traffic

omit [Crates] in
theorem StandIn.exists_traffic (run : List (NetworkEvent (Fin 3)))
    (h : letI := crates; ((run.foldlM Traffic.step (Traffic.start fun _ => Node.new)).any
      fun t => decide t.net.HashesApart) = true) :
    letI := crates
    ∃ last, run.foldlM Traffic.step (Traffic.start fun _ => Node.new) = some last ∧
      last.net.HashesApart :=
  exists_of_any h

namespace Traffic

omit [Crates] in
/-- A payment and its block travel from one node to two others, and in that order. -/
theorem keepsConnections_spendingBlock :
    letI := StandIn.crates
    ∃ run : List (NetworkEvent (Fin 3)), run.length = 8 ∧
      Machine.StepsMeet step KeepsConnection (start fun _ => Node.new) run := by
  obtain ⟨last, hrun, hapart⟩ :=
    StandIn.exists_traffic StandIn.lateTransaction.dropLast (by decide +kernel)
  have hready : letI := StandIn.crates
      Machine.StepsMeet step DeliversReady (start fun _ => Node.new)
        StandIn.lateTransaction.dropLast := by
    decide +kernel
  let := StandIn.crates
  exact ⟨_, rfl, (keepsConnections_iff (fun _ => .refl) hrun hapart).mpr hready⟩

omit [Crates] in
/-- Over the third node the payment comes a second time, when a block has taken it
out of the mempool. -/
theorem not_keepsConnections :
    letI := StandIn.crates
    ¬ ∀ (nodes : Fin 3 → Node) (run : List (NetworkEvent (Fin 3))) (last : Traffic (Fin 3)),
      (∀ i, (nodes i).Reached) → run.foldlM step (start nodes) = some last →
        last.net.HashesApart → Machine.StepsMeet step KeepsConnection (start nodes) run := by
  obtain ⟨last, hrun, hapart⟩ := StandIn.exists_traffic StandIn.lateTransaction (by decide +kernel)
  intro h
  have hkeeps := h _ _ last (fun _ => .refl) hrun hapart
  revert hkeeps
  decide +kernel

end Traffic

end ToyBtc
