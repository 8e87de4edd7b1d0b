import ToyBtc.Block
import Mathlib.Data.List.Sort

/-!
# The blockchain of a node

The stored blocks, the UTXO set, the difficulty target and the mempool, with
the operations the node calls on them.

## Implementation notes

`addBlock` returns the new chain or the reason it stopped. It changes nothing
before an error; what a panic leaves behind is in `InPlace`. `addToMempool` can change
the chain and still report an error, so it returns both. The clock reading of
a call is an argument.
-/

namespace ToyBtc

variable [Crates]

structure Blockchain where
  blocks : List Block
  utxoSet : UtxoSet
  target : U256
  mempool : Mempool

/-- Remove the spent outputs of a transaction, then add its own outputs. -/
def UtxoSet.applyTx (u : UtxoSet) (tx : Tx) : UtxoSet :=
  let removed := tx.inputs.foldl (fun u i => u.erase i.prevTxOutputHash) u
  tx.outputs.foldl (fun u o => u.insert o.hash (false, o)) removed

/-- Apply the transactions of a block in order. -/
def UtxoSet.applyBlock (u : UtxoSet) (b : Block) : UtxoSet :=
  b.transactions.foldl UtxoSet.applyTx u

/-- Set the mempool flag of an output, if it is in the set. -/
def UtxoSet.setMark (marked : Bool) (u : UtxoSet) (h : Hash) : UtxoSet :=
  match u.lookup h with
  | some (_, o) => u.insert h (marked, o)
  | none => u

/-- Set the mempool flag of every listed output. -/
def UtxoSet.setMarks (marked : Bool) (u : UtxoSet) (hs : List Hash) : UtxoSet :=
  hs.foldl (UtxoSet.setMark marked) u

namespace Blockchain

def new : Blockchain := ⟨[], ∅, minTarget, []⟩

/-- Returns current block height. -/
def blockHeight (s : Blockchain) : UInt64 := UInt64.ofNat s.blocks.length

/-- The checks of a block's header against the last block. -/
def checkHeader (blocks : List Block) (b : Block) : Outcome Unit :=
  match blocks.getLast? with
  | none =>
      if b.header.prevBlockHash ≠ Hash.zero then
        reject (.invalidBlock "First block must have previous block hash set to zero")
      else .ok ()
  | some lastBlock =>
      if b.header.prevBlockHash ≠ lastBlock.header.hash then
        reject (.invalidBlock "Previous block hash mismatch")
      else if b.header.hash.matchesTarget lastBlock.header.target = false then
        reject (.invalidBlock "Block hash does not match target")
      else if b.header.merkleRoot ≠ MerkleRoot.calculate b.transactions then
        reject .invalidMerkleRoot
      else if b.header.timestamp ≤ lastBlock.header.timestamp then
        reject (.invalidBlock
          "Block timestamp is not after the previous block's timestamp")
      else .ok ()

/-- The digits before the decimal point of `numerator / denominator`, read back
as a word: a sign is not a digit, and a word has only 256 bits. -/
def wholePart (numerator : Int) (denominator : Nat) : Option U256 :=
  if numerator < 0 then none
  else
    let whole := numerator.toNat / denominator
    if whole < 2 ^ 256 then some (BitVec.ofNat 256 whole) else none

/-- The product of a word and a small factor, if it fits. -/
def checkedMul (word : U256) (factor : Nat) : Option U256 :=
  if word.toNat * factor < 2 ^ 256 then some (BitVec.ofNat 256 (word.toNat * factor)) else none

/-- If the target is more than the minimum target, it is the minimum target. -/
def capTarget (target : U256) : U256 := if minTarget < target then minTarget else target

/-- The target after an adjustment over `timeDiffSeconds`. -/
def newTarget (target : U256) (timeDiffSeconds : Int) : Option U256 :=
  let targetSeconds := idealBlockTime * difficultyUpdateInterval
  match wholePart (target.toNat * timeDiffSeconds) targetSeconds with
  | none => none
  | some scaled =>
      -- adjust by no more than a factor of 4 in either direction
      if scaled < target / 4 then some (capTarget (target / 4))
      else
        match checkedMul target 4 with
        | none => none
        | some high => some (capTarget (if high < scaled then high else scaled))

/-- The target in force after the last of `blocks`, if `target` was in force
before: it moves only at multiples of the update interval. -/
def adjustedTarget (blocks : List Block) (target : U256) : Option U256 :=
  if blocks.isEmpty then some target
  else if blocks.length % difficultyUpdateInterval ≠ 0 then some target
  else
    match blocks[blocks.length - difficultyUpdateInterval]?, blocks.getLast? with
    | some first, some last =>
        newTarget target (numSeconds (last.header.timestamp - first.header.timestamp))
    | _, _ => none

/-- Try to adjust the target of the blockchain. -/
def tryAdjustTarget (s : Blockchain) : Outcome Blockchain :=
  match adjustedTarget s.blocks s.target with
  | none => unwind
  | some target => .ok { s with target }

/-- Validates and adds new block to the blockchain. -/
def addBlock (s : Blockchain) (b : Block) : Outcome Blockchain :=
  match checkHeader s.blocks b with
  | .error e => .error e
  | .ok () =>
      match b.verifyTransactions s.blockHeight s.utxoSet with
      | .error e => .error e
      | .ok () =>
          -- remove transactions from mempool that are now in the block
          let blockTxHashes := b.transactions.map Tx.hash
          let mempool := s.mempool.filter fun e => e.2.hash ∉ blockTxHashes
          tryAdjustTarget { s with blocks := s.blocks ++ [b], mempool }

/-- Rebuilds UTXO set from the blockchain, on top of the set already there. -/
def rebuildUtxoSet (s : Blockchain) : Blockchain :=
  { s with utxoSet := s.blocks.foldl UtxoSet.applyBlock s.utxoSet }

/-- The inputs of a submitted transaction must be known and distinct. -/
def checkInputs (u : UtxoSet) (tx : Tx) : List TxInput → Finset Hash → Except BtcError Unit
  | [], _ => .ok ()
  | i :: rest, seen =>
      if i.prevTxOutputHash ∉ u then
        .error (.invalidTransaction
          ("Mempool: Spending output that does not exist: " ++ i.prevTxOutputHash.toHex ++
            " in tx: " ++ tx.hash.toHex))
      else if i.prevTxOutputHash ∈ seen then
        .error (.invalidTransaction
          ("Mempool: Double spend of the output: " ++ i.prevTxOutputHash.toHex ++
            " within a single tx: " ++ tx.hash.toHex))
      else checkInputs u tx rest (insert i.prevTxOutputHash seen)

/-- The search for the older transaction behind a marked output. -/
def createsOutput (h : Hash) (e : DateTime × Tx) : Bool :=
  e.2.outputs.any fun o => o.hash = h

/-- The replacement loop over the inputs of a submitted transaction. The last
component is `false` when the loop returns early and nothing is inserted. -/
def replaceOlder (tx : Tx) : List TxInput → UtxoSet → Mempool → UtxoSet × Mempool × Bool
  | [], u, mempool => (u, mempool, true)
  | i :: rest, u, mempool =>
      match u.lookup i.prevTxOutputHash with
      | some (true, _) =>
          match mempool.find? (createsOutput i.prevTxOutputHash) with
          | some (_, referencingTx) =>
              if tx.fee u < referencingTx.fee u then (u, mempool, false)
              else
                replaceOlder tx rest (u.setMarks false referencingTx.spends)
                  (mempool.eraseP (createsOutput i.prevTxOutputHash))
          | none => replaceOlder tx rest (u.setMark false i.prevTxOutputHash) mempool
      | _ => replaceOlder tx rest u mempool

/-- Sort mempool by fee size. The sort is stable. -/
def sortByFee (u : UtxoSet) (mempool : Mempool) : Mempool :=
  mempool.insertionSort fun a b => a.2.fee u ≤ b.2.fee u

/-- Validates and adds new transaction to the mempool. -/
def addToMempool (s : Blockchain) (now : DateTime) (tx : Tx) :
    Blockchain × Except BtcError Unit :=
  -- reject transactions already present in mempool
  if s.mempool.any fun e => e.2.hash = tx.hash then
    (s, .error (.txAlreadyInMempool tx.hash))
  else
    match checkInputs s.utxoSet tx tx.inputs ∅ with
    | .error e => (s, .error e)
    | .ok () =>
        match replaceOlder tx tx.inputs s.utxoSet s.mempool with
        | (u, mempool, false) => ({ s with utxoSet := u, mempool }, .ok ())
        | (u, mempool, true) =>
            -- the inputs are present: `checkInputs` passed and no key has left the set
            if tx.inputAmount u < tx.outputAmount then
              ({ s with utxoSet := u, mempool },
                .error (.invalidTransaction "Mempool: Spending more than available"))
            else
              let marked := u.setMarks true tx.spends
              ({ s with
                  utxoSet := marked
                  mempool := sortByFee marked (mempool ++ [(now, tx)]) }, .ok ())

/-- Calculates block subsidy. The shift distance is taken modulo the word size. -/
def calculateBlockReward (s : Blockchain) : UInt64 :=
  btcToSats initialReward >>> (s.blockHeight / halvingInterval)

/-- The entry is older than the maximum mempool age. -/
def tooOld (now : DateTime) (e : DateTime × Tx) : Bool :=
  decide (maxMempoolTransactionAge * nanosPerSecond < now - e.1)

/-- Removes transactions older than the maximum mempool age. -/
def cleanupMempool (s : Blockchain) (now : DateTime) : Blockchain :=
  let utxosToUnmark := (s.mempool.filter (tooOld now)).flatMap fun e => e.2.spends
  { s with
    utxoSet := s.utxoSet.setMarks false utxosToUnmark
    mempool := s.mempool.filter fun e => !tooOld now e }

/-! ### What an accepted block has passed -/

theorem checkHeader_ok_iff {blocks : List Block} {lastBlock : Block}
    (hlast : blocks.getLast? = some lastBlock) (b : Block) :
    checkHeader blocks b = .ok () ↔
      b.header.prevBlockHash = lastBlock.header.hash ∧
      b.header.hash.matchesTarget lastBlock.header.target = true ∧
      b.header.merkleRoot = MerkleRoot.calculate b.transactions ∧
      lastBlock.header.timestamp < b.header.timestamp := by
  simp only [checkHeader, hlast, reject, ne_eq, ite_not]
  by_cases hprev : b.header.prevBlockHash = lastBlock.header.hash
  · by_cases hpow : b.header.hash.matchesTarget lastBlock.header.target = true
    · by_cases hroot : b.header.merkleRoot = MerkleRoot.calculate b.transactions
      · by_cases htime : b.header.timestamp ≤ lastBlock.header.timestamp
        · simp [hprev, hpow, hroot, htime]
        · simp [hprev, hpow, hroot, htime, not_le.mp htime]
      · simp [hprev, hpow, hroot]
    · simp [hprev, hpow]
  · simp [hprev]

theorem checkHeader_nil_ok_iff (b : Block) :
    checkHeader [] b = .ok () ↔ b.header.prevBlockHash = Hash.zero := by
  by_cases hprev : b.header.prevBlockHash = Hash.zero <;> simp [checkHeader, hprev, reject]

/-! ### The bound of the target -/

omit [Crates] in
theorem capTarget_le (target : U256) : capTarget target ≤ minTarget := by
  unfold capTarget
  split
  · exact BitVec.le_refl _
  · next h => exact BitVec.not_lt.mp h

omit [Crates] in
theorem newTarget_le {target target' : U256} {seconds : Int}
    (h : newTarget target seconds = some target') : target' ≤ minTarget := by
  simp only [newTarget] at h
  cases hscaled : wholePart (target.toNat * seconds)
      (idealBlockTime * difficultyUpdateInterval) with
  | none => rw [hscaled] at h; cases h
  | some scaled =>
      rw [hscaled] at h
      dsimp only at h
      split at h
      · cases h; exact capTarget_le _
      · cases hhigh : checkedMul target 4 with
        | none => rw [hhigh] at h; cases h
        | some high => rw [hhigh] at h; cases h; exact capTarget_le _

omit [Crates] in
theorem adjustedTarget_le {bs : List Block} {target target' : U256} (hle : target ≤ minTarget)
    (h : adjustedTarget bs target = some target') : target' ≤ minTarget := by
  unfold adjustedTarget at h
  split at h
  · cases h; exact hle
  · split at h
    · cases h; exact hle
    · split at h
      · exact newTarget_le h
      · cases h

omit [Crates] in
/-- The adjustment reads nothing but timestamps. -/
theorem adjustedTarget_congr {bs bs' : List Block}
    (h : bs.map (fun b => b.header.timestamp) = bs'.map fun b => b.header.timestamp)
    (target : U256) : adjustedTarget bs target = adjustedTarget bs' target := by
  have hlen : bs.length = bs'.length := by simpa using congrArg List.length h
  have hempty : bs.isEmpty = bs'.isEmpty := by simpa using congrArg List.isEmpty h
  have hfirst : bs[bs'.length - difficultyUpdateInterval]?.map (fun b => b.header.timestamp) =
      bs'[bs'.length - difficultyUpdateInterval]?.map fun b => b.header.timestamp := by
    rw [← List.getElem?_map, h, List.getElem?_map]
  have hlast : bs.getLast?.map (fun b => b.header.timestamp) =
      bs'.getLast?.map fun b => b.header.timestamp := by
    rw [← List.getLast?_map, h, List.getLast?_map]
  unfold adjustedTarget
  rw [hempty, hlen]
  cases hf : bs[bs'.length - difficultyUpdateInterval]? with
  | none =>
      rw [hf] at hfirst
      rw [Option.map_eq_none_iff.mp hfirst.symm]
  | some first =>
      rw [hf] at hfirst
      obtain ⟨first', hf', hfirst⟩ := Option.map_eq_some_iff.mp hfirst.symm
      cases hl : bs.getLast? with
      | none =>
          rw [hl] at hlast
          rw [hf', Option.map_eq_none_iff.mp hlast.symm]
      | some last =>
          rw [hl] at hlast
          obtain ⟨last', hl', hlast⟩ := Option.map_eq_some_iff.mp hlast.symm
          simp only [hf', hl', hfirst, hlast]

omit [Crates] in
/-- Of the last block the adjustment reads the timestamp. -/
theorem adjustedTarget_concat_congr {b b' : Block} (bs : List Block)
    (h : b.header.timestamp = b'.header.timestamp) (target : U256) :
    adjustedTarget (bs ++ [b]) target = adjustedTarget (bs ++ [b']) target := by
  apply adjustedTarget_congr
  rw [List.map_append, List.map_append, List.map_singleton, List.map_singleton, h]

omit [Crates] in
theorem tryAdjustTarget_ok_iff {s t : Blockchain} :
    s.tryAdjustTarget = .ok t ↔
      ∃ target, adjustedTarget s.blocks s.target = some target ∧ t = { s with target } := by
  unfold tryAdjustTarget
  cases adjustedTarget s.blocks s.target with
  | none => simp [unwind]
  | some target => simp [eq_comm]

omit [Crates] in
theorem tryAdjustTarget_error_iff {s : Blockchain} :
    (∃ e, s.tryAdjustTarget = .error e) ↔ adjustedTarget s.blocks s.target = none := by
  unfold tryAdjustTarget
  cases adjustedTarget s.blocks s.target with
  | none => simp [unwind]
  | some target => simp

omit [Crates] in
theorem blocks_tryAdjustTarget {s t : Blockchain} (h : s.tryAdjustTarget = .ok t) :
    t.blocks = s.blocks := by
  obtain ⟨target, -, rfl⟩ := tryAdjustTarget_ok_iff.mp h
  rfl

/-- The mempool a stored block leaves behind: eviction is by transaction hash. -/
def remainingMempool (s : Blockchain) (b : Block) : Mempool :=
  s.mempool.filter fun e => e.2.hash ∉ b.transactions.map Tx.hash

theorem addBlock_ok_iff (s t : Blockchain) (b : Block) :
    s.addBlock b = .ok t ↔
      checkHeader s.blocks b = .ok () ∧
      b.verifyTransactions s.blockHeight s.utxoSet = .ok () ∧
      ∃ target, adjustedTarget (s.blocks ++ [b]) s.target = some target ∧
        t = ⟨s.blocks ++ [b], s.utxoSet, target, s.remainingMempool b⟩ := by
  unfold addBlock
  cases hheader : checkHeader s.blocks b with
  | error e => simp
  | ok v =>
      cases htxs : b.verifyTransactions s.blockHeight s.utxoSet with
      | error e => simp
      | ok v =>
          cases htarget : adjustedTarget (s.blocks ++ [b]) s.target with
          | none => simp [tryAdjustTarget, htarget, unwind]
          | some target =>
              simp [tryAdjustTarget, htarget, remainingMempool, eq_comm]

theorem mempool_of_addBlock {s t : Blockchain} {b : Block} (h : s.addBlock b = .ok t) :
    t.rebuildUtxoSet.mempool = s.remainingMempool b := by
  obtain ⟨-, -, target, -, rfl⟩ := (addBlock_ok_iff s t b).mp h
  rfl

/-- A block is accepted. -/
def Accepts (s : Blockchain) (b : Block) : Prop := ∃ t, s.addBlock b = .ok t

instance (s : Blockchain) (b : Block) : Decidable (s.Accepts b) :=
  decidable_of_iff ((s.addBlock b).isOk = true) <| by
    cases h : s.addBlock b with
    | error e => simp [Accepts, h, Except.isOk, Except.toBool]
    | ok t => simp [Accepts, h, Except.isOk, Except.toBool]

theorem accepts_iff {s : Blockchain} {b : Block} :
    s.Accepts b ↔ checkHeader s.blocks b = .ok () ∧
      b.verifyTransactions s.blockHeight s.utxoSet = .ok () ∧
      (adjustedTarget (s.blocks ++ [b]) s.target).isSome := by
  rw [Option.isSome_iff_exists]
  constructor
  · rintro ⟨t, ht⟩
    obtain ⟨hheader, hverify, target, htarget, -⟩ := (addBlock_ok_iff s t b).mp ht
    exact ⟨hheader, hverify, target, htarget⟩
  · rintro ⟨hheader, hverify, target, htarget⟩
    exact ⟨_, (addBlock_ok_iff ..).mpr ⟨hheader, hverify, target, htarget, rfl⟩⟩

/-- What the transactions of an accepted block have passed. -/
theorem Accepts.verified {s : Blockchain} {b : Block} (h : s.Accepts b) :
    ∃ coinbase txs, b.transactions = coinbase :: txs ∧
      Verified s.utxoSet s.blockHeight coinbase txs :=
  (Block.verifyTransactions_ok_iff ..).mp (accepts_iff.mp h).2.1

end Blockchain

end ToyBtc
