import ToyBtc.Hashing
import ToyBtc.WordSum

/-!
# Block verification

The fee of a transaction, the checks a block's transactions pass before the
block is stored, and the fee computation of the template builder.

## Implementation notes

The loops keep the running amount and the outputs already spent in the block
as explicit arguments. `Verified` says what a successful run of all of them
means, and the proofs about chains use it alone.
-/

namespace ToyBtc

/-- The sum of the amounts of the inputs found in the UTXO set, as the code adds
them up; inputs that are not found are left out. -/
def Tx.inputAmount (tx : Tx) (u : UtxoSet) : UInt64 :=
  (tx.inputs.filterMap fun i => (u.output i.prevTxOutputHash).map TxOutput.amount).sum

/-- Calculates miner fee. The code's result is always `Ok`. -/
def Tx.fee (tx : Tx) (u : UtxoSet) : UInt64 := tx.inputAmount u - tx.outputAmount

theorem Tx.inputAmount_eq (tx : Tx) (u : UtxoSet) :
    tx.inputAmount u = (tx.spends.map u.amount).sum := by
  unfold Tx.inputAmount Tx.spends
  induction tx.inputs with
  | nil => rfl
  | cons i rest ih =>
      cases h : u.output i.prevTxOutputHash with
      | none => simpa [UtxoSet.amount, h] using ih
      | some o => simp [UtxoSet.amount, h, ih]

/-- The subsidy a coinbase may pay at a height. The power of two wraps, and a
zero divisor unwinds. -/
def blockReward (height : UInt64) : Option UInt64 :=
  let divisor := UInt64.ofNat (2 ^ (height / halvingInterval).toUInt32.toNat)
  if divisor = 0 then none else some (btcToSats initialReward / divisor)

/-- The subsidy schedule: 50 bitcoin, halved every 210 blocks. -/
def subsidy (height : Nat) : Nat := 5000000000 / 2 ^ (height / 210)

/-- The height at which the power of two wraps to zero. -/
def subsidyEnd : Nat := 64 * 210

theorem blockReward_of_lt {height : UInt64} (h : height.toNat < subsidyEnd) :
    ∃ reward, blockReward height = some reward ∧ reward.toNat = subsidy height.toNat := by
  have hera : height.toNat / 210 < 64 := Nat.div_lt_of_lt_mul (by simpa [subsidyEnd] using h)
  have hexp : (height / halvingInterval).toUInt32.toNat = height.toNat / 210 := by
    rw [UInt64.toNat_toUInt32, UInt64.toNat_div]
    exact Nat.mod_eq_of_lt (by simp [halvingInterval]; omega)
  have hpow : 2 ^ (height.toNat / 210) < 2 ^ 64 := Nat.pow_lt_pow_right (by decide) hera
  have hdivisor : (UInt64.ofNat (2 ^ (height.toNat / 210))).toNat = 2 ^ (height.toNat / 210) :=
    UInt64.toNat_ofNat_of_lt' hpow
  have hne : UInt64.ofNat (2 ^ (height.toNat / 210)) ≠ 0 := by
    intro hzero
    rw [hzero, UInt64.toNat_zero] at hdivisor
    exact (Nat.two_pow_pos _).ne hdivisor
  refine ⟨btcToSats initialReward / UInt64.ofNat (2 ^ (height.toNat / 210)), ?_, ?_⟩
  · simp only [blockReward, hexp, hne, if_false]
  · rw [UInt64.toNat_div, hdivisor]
    rfl

theorem blockReward_subsidyEnd : blockReward (UInt64.ofNat subsidyEnd) = none := by decide

theorem lt_subsidyEnd_of_blockReward {n : Nat} (hle : n ≤ subsidyEnd) {reward : UInt64}
    (h : blockReward (UInt64.ofNat n) = some reward) : n < subsidyEnd := by
  refine lt_of_le_of_ne hle ?_
  rintro rfl
  rw [blockReward_subsidyEnd] at h
  cases h

theorem toNat_height {n : Nat} (hle : n ≤ subsidyEnd) : (UInt64.ofNat n).toNat = n :=
  UInt64.toNat_ofNat_of_lt' (hle.trans_lt (by decide))

variable [Crates]

namespace Block

def new (header : BlockHeader) (transactions : List Tx) : Block := ⟨header, transactions⟩

/-- The checks on the inputs of one transaction, with the running input amount
and the outputs spent so far in the block. -/
def verifyInputs (u : UtxoSet) :
    List TxInput → UInt64 → Finset Hash → Outcome (UInt64 × Finset Hash)
  | [], inputAmount, spent => .ok (inputAmount, spent)
  | i :: rest, inputAmount, spent =>
      match u.output i.prevTxOutputHash with
      | none => reject (.invalidTransaction
          ("Spending output that does not exist: " ++ i.prevTxOutputHash.toHex))
      | some prevOutput =>
          -- prevent same-block double-spending
          if i.prevTxOutputHash ∈ spent then
            reject (.invalidTransaction
              ("Double spend of the output: " ++ prevOutput.uniqueId.toHyphenated))
          else if i.signature.verify i.prevTxOutputHash prevOutput.pubkey = false then
            reject .invalidSignature
          else
            verifyInputs u rest (inputAmount + prevOutput.amount)
              (insert i.prevTxOutputHash spent)

/-- The checks on the transactions after the coinbase, with the running fees. -/
def verifySpends (u : UtxoSet) : List Tx → UInt64 → Finset Hash → Outcome UInt64
  | [], minerFees, _ => .ok minerFees
  | tx :: rest, minerFees, spent =>
      match verifyInputs u tx.inputs 0 spent with
      | .error e => .error e
      | .ok (inputAmount, spent) =>
          if inputAmount < tx.outputAmount then
            reject (.invalidTransaction "Spending more than available")
          else
            verifySpends u rest (minerFees + (inputAmount - tx.outputAmount)) spent

/-- Verifies coinbase transaction. -/
def verifyCoinbaseTransaction (b : Block) (predictedBlockHeight minerFees : UInt64) :
    Outcome Unit :=
  match b.transactions with
  | [] => unwind
  | coinbase :: _ =>
      if coinbase.inputs ≠ [] then
        reject (.invalidTransaction "Coinbase transaction cannot have inputs")
      else if coinbase.outputs = [] then
        reject (.invalidTransaction "Coinbase transaction must have outputs")
      else
        match blockReward predictedBlockHeight with
        | none => unwind
        | some reward =>
            if coinbase.outputAmount ≠ reward + minerFees then
              reject (.invalidTransaction
                "Outputs in coinbase tx do not equal to block reward + fees")
            else .ok ()

/-- Verifies all transactions in the block. -/
def verifyTransactions (b : Block) (predictedBlockHeight : UInt64) (u : UtxoSet) :
    Outcome Unit :=
  match b.transactions with
  | [] => reject (.invalidBlock "No transactions")
  | _ :: rest =>
      match verifySpends u rest 0 ∅ with
      | .error e => .error e
      | .ok minerFees => b.verifyCoinbaseTransaction predictedBlockHeight minerFees

/-- The input amounts of one transaction in the fee computation. -/
def sumInputs (u : UtxoSet) : List TxInput → UInt64 → Outcome UInt64
  | [], inputAmount => .ok inputAmount
  | i :: rest, inputAmount =>
      match u.output i.prevTxOutputHash with
      | none => reject (.invalidTransaction
          ("Spending output that does not exist: " ++ i.prevTxOutputHash.toHex))
      | some prevOutput => sumInputs u rest (inputAmount + prevOutput.amount)

def sumFees (u : UtxoSet) : List Tx → UInt64 → Outcome UInt64
  | [], minerFees => .ok minerFees
  | tx :: rest, minerFees =>
      match sumInputs u tx.inputs 0 with
      | .error e => .error e
      | .ok inputAmount => sumFees u rest (minerFees + (inputAmount - tx.outputAmount))

/-- Returns miner fees. It assumes that transactions are valid. -/
def calculateMinerFees (b : Block) (u : UtxoSet) : Outcome UInt64 :=
  sumFees u (b.transactions.drop 1) 0

end Block

/-- An input is present in the UTXO set and signed for the output found there. -/
def TxInput.Authorized (u : UtxoSet) (i : TxInput) : Prop :=
  ∃ o, u.output i.prevTxOutputHash = some o ∧
    i.signature.verify i.prevTxOutputHash o.pubkey = true

theorem TxInput.Authorized.verify {u : UtxoSet} {i : TxInput} (h : i.Authorized u)
    {o : TxOutput} (ho : u.output i.prevTxOutputHash = some o) :
    i.signature.verify i.prevTxOutputHash o.pubkey = true := by
  obtain ⟨o', ho', hsig⟩ := h
  obtain rfl : o = o' := Option.some.inj (ho.symm.trans ho')
  exact hsig

instance (u : UtxoSet) (i : TxInput) : Decidable (i.Authorized u) :=
  decidable_of_iff ((u.output i.prevTxOutputHash).any
      fun o => i.signature.verify i.prevTxOutputHash o.pubkey)
    (Option.any_eq_true ..)

/-- What a verified block guarantees, read off the UTXO set it was checked against. -/
structure Verified (u : UtxoSet) (height : UInt64) (coinbase : Tx) (txs : List Tx) : Prop where
  authorized : ∀ tx ∈ txs, ∀ i ∈ tx.inputs, i.Authorized u
  distinct : (txs.flatMap Tx.spends).Nodup
  covered : ∀ tx ∈ txs, tx.outputAmount ≤ tx.inputAmount u
  noInputs : coinbase.inputs = []
  someOutput : coinbase.outputs ≠ []
  paid : ∃ reward, blockReward height = some reward ∧
    coinbase.outputAmount = reward + (txs.map fun tx => tx.fee u).sum

namespace Block

theorem verifyInputs_ok_iff (u : UtxoSet) (inputs : List TxInput) (amount : UInt64)
    (spent : Finset Hash) (r : UInt64 × Finset Hash) :
    verifyInputs u inputs amount spent = .ok r ↔
      (∀ i ∈ inputs, i.Authorized u) ∧
      (inputs.map TxInput.prevTxOutputHash).Nodup ∧
      (∀ i ∈ inputs, i.prevTxOutputHash ∉ spent) ∧
      r = (amount + ((inputs.map TxInput.prevTxOutputHash).map u.amount).sum,
        spent ∪ (inputs.map TxInput.prevTxOutputHash).toFinset) := by
  induction inputs generalizing amount spent with
  | nil => simp [verifyInputs, eq_comm]
  | cons i rest ih =>
      rw [verifyInputs]
      cases hu : u.output i.prevTxOutputHash with
      | none => simp [reject, TxInput.Authorized, hu]
      | some o =>
          by_cases hspent : i.prevTxOutputHash ∈ spent
          · simp [hspent, reject]
          by_cases hsig : i.signature.verify i.prevTxOutputHash o.pubkey = true
          · have hsets : insert i.prevTxOutputHash spent ∪
                (rest.map TxInput.prevTxOutputHash).toFinset =
                spent ∪ ((i :: rest).map TxInput.prevTxOutputHash).toFinset := by
              ext h
              simp
            have hfresh : (∀ j ∈ rest, j.prevTxOutputHash ∉ insert i.prevTxOutputHash spent) ↔
                i.prevTxOutputHash ∉ rest.map TxInput.prevTxOutputHash ∧
                  ∀ j ∈ rest, j.prevTxOutputHash ∉ spent := by
              simp only [Finset.mem_insert, not_or, List.mem_map, not_exists, not_and]
              exact forall₂_and
            have hi : i.Authorized u := ⟨o, hu, hsig⟩
            have hamount : u.amount i.prevTxOutputHash = o.amount := by
              simp [UtxoSet.amount, hu]
            simp only [hspent, hsig, if_false, Bool.true_eq_false, ih, hsets, hfresh,
              List.forall_mem_cons, hi, true_and, List.map_cons, List.nodup_cons, List.sum_cons,
              hamount, not_false_eq_true, add_assoc]
            tauto
          · have hi : ¬ i.Authorized u := fun hi => hsig (hi.verify hu)
            simp [hspent, hsig, reject, hi]

/-- The input checks of a whole transaction. -/
theorem verifyInputs_tx_ok_iff (u : UtxoSet) (tx : Tx) (spent : Finset Hash)
    (r : UInt64 × Finset Hash) :
    verifyInputs u tx.inputs 0 spent = .ok r ↔
      (∀ i ∈ tx.inputs, i.Authorized u) ∧ tx.spends.Nodup ∧
      (∀ h ∈ tx.spends, h ∉ spent) ∧
      r = (tx.inputAmount u, spent ∪ tx.spends.toFinset) := by
  rw [verifyInputs_ok_iff, zero_add, Tx.inputAmount_eq]
  simp [Tx.spends]

theorem verifySpends_ok_iff (u : UtxoSet) (txs : List Tx) (fees : UInt64)
    (spent : Finset Hash) (total : UInt64) :
    verifySpends u txs fees spent = .ok total ↔
      (∀ tx ∈ txs, ∀ i ∈ tx.inputs, i.Authorized u) ∧
      (txs.flatMap Tx.spends).Nodup ∧
      (∀ h ∈ txs.flatMap Tx.spends, h ∉ spent) ∧
      (∀ tx ∈ txs, tx.outputAmount ≤ tx.inputAmount u) ∧
      total = fees + (txs.map fun tx => tx.fee u).sum := by
  induction txs generalizing fees spent with
  | nil => simp [verifySpends, eq_comm]
  | cons tx rest ih =>
      have hstep := verifyInputs_tx_ok_iff u tx spent
      rw [verifySpends]
      simp only [List.flatMap_cons, List.nodup_append, List.mem_append, or_imp, forall_and,
        List.forall_mem_cons, List.map_cons, List.sum_cons]
      cases hin : verifyInputs u tx.inputs 0 spent with
      | error e =>
          refine iff_of_false (by simp) fun h => ?_
          have hok := (hstep _).mpr ⟨h.1.1, h.2.1.1, h.2.2.1.1, rfl⟩
          rw [hin] at hok
          cases hok
      | ok r =>
          obtain ⟨hauth, hnodup, hfresh, rfl⟩ := (hstep r).mp hin
          have hfee : tx.inputAmount u - tx.outputAmount = tx.fee u := rfl
          by_cases hcover : tx.inputAmount u < tx.outputAmount
          · simp [hcover, reject, UInt64.not_le.mpr hcover]
          · have hspent : (∀ h ∈ rest.flatMap Tx.spends, h ∉ spent ∪ tx.spends.toFinset) ↔
                (∀ a ∈ tx.spends, ∀ b ∈ rest.flatMap Tx.spends, a ≠ b) ∧
                  ∀ h ∈ rest.flatMap Tx.spends, h ∉ spent := by
              simp only [Finset.mem_union, not_or, List.mem_toFinset, forall_and]
              grind
            simp only [hcover, if_false, hfee, ih, hspent, hnodup, UInt64.not_lt.mp hcover,
              add_assoc]
            tauto

omit [Crates] in
theorem verifyCoinbaseTransaction_ok_iff {b : Block} {coinbase : Tx} {rest : List Tx}
    (h : b.transactions = coinbase :: rest) (height fees : UInt64) :
    b.verifyCoinbaseTransaction height fees = .ok () ↔
      coinbase.inputs = [] ∧ coinbase.outputs ≠ [] ∧
      ∃ reward, blockReward height = some reward ∧ coinbase.outputAmount = reward + fees := by
  simp only [verifyCoinbaseTransaction, h]
  by_cases hin : coinbase.inputs = []
  · by_cases hout : coinbase.outputs = []
    · simp [hin, hout, reject]
    · cases hr : blockReward height with
      | none => simp [hin, hout, unwind]
      | some reward =>
          by_cases hpaid : coinbase.outputAmount = reward + fees <;>
            simp [hin, hout, hpaid, reject]
  · simp [hin, reject]

theorem verifyTransactions_ok_iff (b : Block) (height : UInt64) (u : UtxoSet) :
    b.verifyTransactions height u = .ok () ↔
      ∃ coinbase txs, b.transactions = coinbase :: txs ∧ Verified u height coinbase txs := by
  cases htxs : b.transactions with
  | nil => simp [verifyTransactions, htxs, reject]
  | cons coinbase rest =>
      have hspends := verifySpends_ok_iff u rest 0 ∅
      simp only [verifyTransactions, htxs]
      cases hsum : verifySpends u rest 0 ∅ with
      | error e =>
          refine iff_of_false (by simp) ?_
          rintro ⟨cb, txs, heq, hv⟩
          cases heq
          have hok := (hspends _).mpr
            ⟨hv.authorized, hv.distinct, by simp, hv.covered, rfl⟩
          rw [hsum] at hok
          cases hok
      | ok fees =>
          obtain ⟨hauth, hnodup, -, hcover, hfees⟩ := (hspends fees).mp hsum
          rw [zero_add] at hfees
          simp only [verifyCoinbaseTransaction_ok_iff htxs]
          constructor
          · rintro ⟨hin, hout, hpaid⟩
            exact ⟨coinbase, rest, rfl, hauth, hnodup, hcover, hin, hout, hfees ▸ hpaid⟩
          · rintro ⟨cb, txs, heq, hv⟩
            cases heq
            exact ⟨hv.noInputs, hv.someOutput, hfees ▸ hv.paid⟩

omit [Crates] in
theorem sumInputs_ok_iff (u : UtxoSet) (inputs : List TxInput) (amount total : UInt64) :
    sumInputs u inputs amount = .ok total ↔
      (∀ h ∈ inputs.map TxInput.prevTxOutputHash, h ∈ u) ∧
      total = amount + ((inputs.map TxInput.prevTxOutputHash).map u.amount).sum := by
  induction inputs generalizing amount with
  | nil => simp [sumInputs, eq_comm]
  | cons i rest ih =>
      rw [sumInputs]
      cases hu : u.output i.prevTxOutputHash with
      | none =>
          have hi : i.prevTxOutputHash ∉ u := UtxoSet.output_eq_none.mp hu
          simp [reject, hi]
      | some o =>
          have hi : i.prevTxOutputHash ∈ u := UtxoSet.mem_iff_output.mpr ⟨o, hu⟩
          have hamount : u.amount i.prevTxOutputHash = o.amount := by
            simp [UtxoSet.amount, hu]
          simp only [ih, List.map_cons, List.forall_mem_cons, hi, true_and, List.sum_cons,
            hamount, add_assoc]

omit [Crates] in
theorem sumFees_ok_iff (u : UtxoSet) (txs : List Tx) (fees total : UInt64) :
    sumFees u txs fees = .ok total ↔
      (∀ tx ∈ txs, ∀ h ∈ tx.spends, h ∈ u) ∧
      total = fees + (txs.map fun tx => tx.fee u).sum := by
  induction txs generalizing fees with
  | nil => simp [sumFees, eq_comm]
  | cons tx rest ih =>
      have hinputs := sumInputs_ok_iff u tx.inputs 0
      simp only [zero_add, ← Tx.spends.eq_1, ← Tx.inputAmount_eq] at hinputs
      rw [sumFees]
      simp only [List.forall_mem_cons, List.map_cons, List.sum_cons]
      cases hsum : sumInputs u tx.inputs 0 with
      | error e =>
          refine iff_of_false (by simp) fun h => ?_
          have hok := (hinputs _).mpr ⟨h.1.1, rfl⟩
          rw [hsum] at hok
          cases hok
      | ok amount =>
          obtain ⟨hmem, rfl⟩ := (hinputs amount).mp hsum
          have hfee : tx.inputAmount u - tx.outputAmount = tx.fee u := rfl
          simp only [ih, hfee, add_assoc]
          rw [and_iff_right hmem]

omit [Crates] in
/-- The fee computation succeeds exactly when every input is known, and then
adds up the fees. -/
theorem calculateMinerFees_ok_iff (b : Block) (u : UtxoSet) (total : UInt64) :
    b.calculateMinerFees u = .ok total ↔
      (∀ tx ∈ b.transactions.drop 1, ∀ h ∈ tx.spends, h ∈ u) ∧
      total = ((b.transactions.drop 1).map fun tx => tx.fee u).sum := by
  rw [calculateMinerFees, sumFees_ok_iff, zero_add]

end Block

end ToyBtc
