import ToyBtc.StandIn

/-!
# What a signature authorises

The wallet signs the hash of the output it spends, and verification checks
just that. Who signed for an output has agreed to its being spent, and not to
the transaction that spends it: the outputs of an accepted transaction can be
exchanged for others of the same total.
-/

namespace ToyBtc

variable [Crates]

/-- `b'` is `b` with other outputs of the same total in one transaction after the
coinbase, and with Merkle root and nonce computed anew. -/
structure Altered (b b' : Block) (tx tx' : Tx) : Prop where
  split : ∃ coinbase pre post, b.transactions = coinbase :: (pre ++ tx :: post) ∧
    b'.transactions = coinbase :: (pre ++ tx' :: post)
  inputs : tx'.inputs = tx.inputs
  outputs : tx'.outputs ≠ tx.outputs
  total : tx'.outputAmount = tx.outputAmount
  header : b'.header = { b.header with
    merkleRoot := MerkleRoot.calculate b'.transactions, nonce := b'.header.nonce }

/-- Verification sees nothing of a transaction's outputs but their total. -/
theorem Verified.replace {u : UtxoSet} {height : UInt64} {coinbase tx tx' : Tx}
    {pre post : List Tx} (hv : Verified u height coinbase (pre ++ tx :: post))
    (hinputs : tx'.inputs = tx.inputs) (htotal : tx'.outputAmount = tx.outputAmount) :
    Verified u height coinbase (pre ++ tx' :: post) := by
  have hamount : tx'.inputAmount u = tx.inputAmount u := by rw [Tx.inputAmount, hinputs]; rfl
  have hfee : tx'.fee u = tx.fee u := by rw [Tx.fee, hamount, htotal]; rfl
  have hspends : tx'.spends = tx.spends := by rw [Tx.spends, hinputs]; rfl
  have hauthorized := hv.authorized
  have hcovered := hv.covered
  have hpaid := hv.paid
  simp only [List.forall_mem_append, List.forall_mem_cons] at hauthorized hcovered
  refine ⟨?_, ?_, ?_, hv.noInputs, hv.someOutput, ?_⟩
  · simp only [List.forall_mem_append, List.forall_mem_cons, hinputs]
    exact hauthorized
  · have hdistinct := hv.distinct
    simp only [List.flatMap_append, List.flatMap_cons, hspends] at hdistinct ⊢
    exact hdistinct
  · simp only [List.forall_mem_append, List.forall_mem_cons, hamount, htotal]
    exact hcovered
  · simp only [List.map_append, List.map_cons, hfee] at hpaid ⊢
    exact hpaid

namespace Blockchain

/-- With its proof of work done again, an altered block is accepted as well. -/
theorem Accepts.of_altered {s : Blockchain} {b b' : Block} {tx tx' : Tx} (h : s.Accepts b)
    (altered : Altered b b' tx tx')
    (hwork : ∀ lastBlock, s.blocks.getLast? = some lastBlock →
      b'.header.hash.matchesTarget lastBlock.header.target = true) : s.Accepts b' := by
  obtain ⟨hcheck, hverify, hadjust⟩ := accepts_iff.mp h
  obtain ⟨coinbase, pre, post, htxs, htxs'⟩ := altered.split
  refine accepts_iff.mpr ⟨?_, ?_, ?_⟩
  · cases hlast : s.blocks.getLast? with
    | none =>
        rw [List.getLast?_eq_none_iff.mp hlast, checkHeader_nil_ok_iff] at hcheck ⊢
        rw [altered.header]
        exact hcheck
    | some lastBlock =>
        rw [checkHeader_ok_iff hlast] at hcheck ⊢
        refine ⟨?_, hwork lastBlock hlast, ?_, ?_⟩
        · rw [altered.header]
          exact hcheck.1
        · rw [altered.header]
        · rw [altered.header]
          exact hcheck.2.2.2
  · obtain ⟨_, _, heq, hv⟩ := (Block.verifyTransactions_ok_iff ..).mp hverify
    obtain ⟨rfl, rfl⟩ := List.cons.inj (htxs.symm.trans heq)
    exact (Block.verifyTransactions_ok_iff ..).mpr
      ⟨coinbase, _, htxs', hv.replace altered.inputs altered.total⟩
  · have htime : b'.header.timestamp = b.header.timestamp := by rw [altered.header]
    rwa [adjustedTarget_concat_congr s.blocks htime]

/-- A signature authorises the spending of the output whose hash was signed, in
whatever transaction: an altered block is accepted, and all that the owners
have signed are the hashes of the outputs it spends. -/
theorem Accepts.altered_signed {s : Blockchain} {b b' : Block} {tx tx' : Tx}
    (signed : PublicKey → List UInt8 → Prop)
    (unforgeable : ∀ pubkey message signature,
      Crates.verify pubkey message signature = true → signed pubkey message)
    (h : s.Accepts b) (altered : Altered b b' tx tx')
    (hwork : ∀ lastBlock, s.blocks.getLast? = some lastBlock →
      b'.header.hash.matchesTarget lastBlock.header.target = true) :
    s.Accepts b' ∧ ∀ i ∈ tx'.inputs, ∃ o, s.utxoSet.output i.prevTxOutputHash = some o ∧
      signed o.pubkey i.prevTxOutputHash.asBytes := by
  have h' := h.of_altered altered hwork
  refine ⟨h', fun i hi => ?_⟩
  obtain ⟨coinbase, pre, post, -, htxs'⟩ := altered.split
  obtain ⟨_, _, heq, hv⟩ := h'.verified
  obtain ⟨rfl, rfl⟩ := List.cons.inj (htxs'.symm.trans heq)
  obtain ⟨o, ho, hsig⟩ := hv.authorized tx' (by simp) i hi
  exact ⟨o, ho, unforgeable _ _ _ hsig⟩

end Blockchain

namespace StandIn

/-- What alice signs to spend her coin. -/
def firstCoinMessage : List UInt8 :=
  letI := crates
  firstCoin.hash.asBytes

/-- The stand-in where alice has signed for her coin, and nobody for anything else. -/
@[reducible] def onlyFirstCoinSigned : Crates where
  digest := crates.digest
  verify pubkey message s := decide
    ((pubkey = alice ∧ message = firstCoinMessage) ∧ s = signature alice firstCoinMessage)

/-- The messages that the owners of keys have signed there. -/
def Signed (pubkey : PublicKey) (message : List UInt8) : Prop :=
  pubkey = alice ∧ message = firstCoinMessage

/-- Alice's coin goes back to alice instead of to bob. -/
def toAlice : Tx := { toBob with outputs := [coin alice 7 5000000000] }

def alteredBlock : Block :=
  nextBlock genesis 0 minTarget [coinbase (coin bob 1 5000000000), toAlice]

omit [Crates] in
theorem altered_alteredBlock :
    letI := onlyFirstCoinSigned
    Altered spendingBlock alteredBlock toBob toAlice := by
  let := onlyFirstCoinSigned
  exact { split := ⟨coinbase (coin bob 1 5000000000), [], [], rfl, rfl⟩
          inputs := rfl
          outputs := by decide
          total := rfl
          header := rfl }

omit [Crates] in
/-- After the first block both the payment and its alteration can be mined. -/
theorem exists_accepts_altered :
    letI := onlyFirstCoinSigned
    ∃ s : Blockchain, s.Reached ∧ s.blocks = [genesis] ∧ s.Accepts spendingBlock ∧
      s.Accepts alteredBlock ∧
      ∃ i ∈ toAlice.inputs, s.utxoSet.output i.prevTxOutputHash = some firstCoin := by
  let := onlyFirstCoinSigned
  have hrun : (Blockchain.new.step (.addBlock genesis)).any (fun s => decide
      (s.blocks = [genesis] ∧ s.Accepts spendingBlock ∧ s.Accepts alteredBlock ∧
        ∃ i ∈ toAlice.inputs, s.utxoSet.output i.prevTxOutputHash = some firstCoin)) = true := by
    decide +kernel
  obtain ⟨s, hs, hfacts⟩ := exists_of_any hrun
  exact ⟨s, .tail .refl trivial hs, hfacts⟩

end StandIn

omit [Crates] in
theorem accepts_altered_signed_alteredBlock :
    letI := StandIn.onlyFirstCoinSigned
    ∃ s : Blockchain, s.blocks = [StandIn.genesis] ∧ s.Accepts StandIn.alteredBlock ∧
      ∀ i ∈ StandIn.toAlice.inputs, ∃ o, s.utxoSet.output i.prevTxOutputHash = some o ∧
        StandIn.Signed o.pubkey i.prevTxOutputHash.asBytes := by
  let := StandIn.onlyFirstCoinSigned
  obtain ⟨s, -, hblocks, haccepts, -, -⟩ := StandIn.exists_accepts_altered
  refine ⟨s, hblocks, Blockchain.Accepts.altered_signed StandIn.Signed
    (fun _ _ _ h => (of_decide_eq_true h).1) haccepts StandIn.altered_alteredBlock ?_⟩
  intro lastBlock hlast
  obtain rfl : StandIn.genesis = lastBlock := by simpa [hblocks] using hlast
  decide +kernel

/-- The owners of the outputs that a transaction spends have signed its hash. -/
def Tx.SignedByOwners (signed : PublicKey → List UInt8 → Prop) (u : UtxoSet) (tx : Tx) : Prop :=
  ∀ i ∈ tx.inputs, ∀ o, u.output i.prevTxOutputHash = some o → signed o.pubkey tx.hash.asBytes

omit [Crates] in
/-- Alice has signed for her coin, and her payment to bob pays her instead. -/
theorem not_signedByOwners_of_accepts_altered :
    letI := StandIn.onlyFirstCoinSigned
    ¬ ∀ signed : PublicKey → List UInt8 → Prop,
      (∀ pubkey message signature,
        Crates.verify pubkey message signature = true → signed pubkey message) →
      ∀ (s : Blockchain) (b b' : Block) (tx tx' : Tx), s.Reached → s.Accepts b →
        tx.inputs ≠ [] → Altered b b' tx tx' → s.Accepts b' →
        tx'.SignedByOwners signed s.utxoSet := by
  let := StandIn.onlyFirstCoinSigned
  obtain ⟨s, reached, -, haccepts, haccepts', i, hi, ho⟩ := StandIn.exists_accepts_altered
  intro h
  have hsigned := h StandIn.Signed (fun _ _ _ h => (of_decide_eq_true h).1) s
    StandIn.spendingBlock StandIn.alteredBlock StandIn.toBob StandIn.toAlice reached haccepts
    (by decide) StandIn.altered_alteredBlock haccepts' i hi StandIn.firstCoin ho
  exact absurd hsigned.2 (by decide +kernel)

end ToyBtc
