import Mathlib.Data.Finmap
import Mathlib.Data.UInt

/-!
# Blocks, transactions and the UTXO set

The data the node stores and exchanges, with the consensus constants and the
errors of its checks.

## Implementation notes

Amounts and nonces are machine words and wrap as the release build's do. A
`DateTime<Utc>` is its distance from the epoch in nanoseconds. Keys,
signatures and identifiers keep only their fixed-width encodings. A `HashMap`
is a finite map and a `HashSet` a finite set, so neither has an order.
-/

namespace ToyBtc

/-- A 256-bit word. -/
abbrev U256 := BitVec 256

/-- Nanoseconds since the epoch. -/
abbrev DateTime := Int

/-- Initial reward in bitcoin. -/
def initialReward : UInt64 := 50

/-- Halving interval in blocks. -/
def halvingInterval : UInt64 := 210

/-- Ideal block time in seconds. -/
def idealBlockTime : Nat := 10

/-- Minimum target: the first two bytes are zero. -/
def minTarget : U256 := BitVec.ofNat 256 (2 ^ 240 - 1)

/-- Difficulty update interval in blocks. -/
def difficultyUpdateInterval : Nat := 50

/-- Maximum mempool transaction age in seconds. -/
def maxMempoolTransactionAge : Int := 600

/-- Maximum amount of transactions allowed in a block. -/
def blockTransactionCap : Nat := 20

/-- Nanoseconds in one second. -/
def nanosPerSecond : Int := 1000000000

/-- Whole seconds of a time difference, truncated towards zero. -/
def numSeconds (difference : Int) : Int := difference.tdiv nanosPerSecond

/-- Convert whole bitcoins to sats. The code multiplies in floating point, which
is exact on the one amount it converts. -/
def btcToSats (btc : UInt64) : UInt64 := btc * 100000000

structure Hash where
  value : U256
  deriving DecidableEq

namespace Hash

/-- Checks if the hash matches a target. -/
def matchesTarget (h : Hash) (target : U256) : Bool := decide (h.value ≤ target)

def zero : Hash := ⟨0⟩

/-- Converts to little-endian encoded 32 bytes. -/
def asBytes (h : Hash) : List UInt8 :=
  (List.range 32).map fun i => UInt8.ofNat (h.value.toNat / 256 ^ i)

/-- Lower-case hexadecimal digits without leading zeros. -/
def toHex (h : Hash) : String := String.ofList (Nat.toDigits 16 h.value.toNat)

end Hash

/-- A compressed public key. -/
structure PublicKey where
  point : BitVec 264
  deriving DecidableEq

/-- An ECDSA signature. -/
structure Signature where
  bytes : BitVec 512
  deriving DecidableEq

structure Uuid where
  bytes : BitVec 128
  deriving DecidableEq

/-- The hyphenated form of an identifier. -/
def Uuid.toHyphenated (u : Uuid) : String :=
  let digits := Nat.toDigits 16 (2 ^ 128 + u.bytes.toNat) |>.drop 1
  String.intercalate "-" (([(0, 8), (8, 4), (12, 4), (16, 4), (20, 12)] : List (Nat × Nat)).map
    fun span => String.ofList ((digits.drop span.1).take span.2))

/-- Transaction input: the hash of the spent output and the signature for it. -/
structure TxInput where
  prevTxOutputHash : Hash
  signature : Signature
  deriving DecidableEq

/-- Transaction output. -/
structure TxOutput where
  amount : UInt64
  uniqueId : Uuid
  pubkey : PublicKey
  deriving DecidableEq

structure Tx where
  inputs : List TxInput
  outputs : List TxOutput
  deriving DecidableEq

structure MerkleRoot where
  hash : Hash
  deriving DecidableEq

structure BlockHeader where
  timestamp : DateTime
  nonce : UInt64
  prevBlockHash : Hash
  merkleRoot : MerkleRoot
  target : U256
  deriving DecidableEq

structure Block where
  header : BlockHeader
  transactions : List Tx
  deriving DecidableEq

/-- Outputs by their hash, each with its 'referenced by a tx in mempool' flag. -/
abbrev UtxoSet := Finmap fun _ : Hash => Bool × TxOutput

/-- Transactions waiting for a block, with their times of insertion. -/
abbrev Mempool := List (DateTime × Tx)

/-- The errors the ledger checks report. -/
inductive BtcError
  | invalidTransaction (message : String)
  | invalidBlock (message : String)
  | invalidMerkleRoot
  | invalidSignature
  | txAlreadyInMempool (hash : Hash)
  deriving DecidableEq

/-- How a call that does not return a value ends: with an error, or by unwinding. -/
inductive Abort
  | error (e : BtcError)
  | panic
  deriving DecidableEq

abbrev Outcome := Except Abort

section Evaluated

variable {ε α : Type} {r : Except ε α}

theorem ok_of_toOption {a : α} (h : r.toOption = some a) : r = .ok a := by
  cases r with
  | error e => cases h
  | ok b => exact congrArg Except.ok (Option.some.inj h)

theorem exists_ok_of_isOk (h : r.isOk = true) : ∃ a, r = .ok a := by
  cases r with
  | error e => cases h
  | ok a => exact ⟨a, rfl⟩

/-- What was evaluated on a value holds of that value. -/
theorem exists_of_any {o : Option α} {P : α → Prop} [DecidablePred P]
    (h : o.any (fun a => decide (P a)) = true) : ∃ a, o = some a ∧ P a := by
  obtain ⟨a, ha, hfacts⟩ := (Option.any_eq_true ..).mp h
  exact ⟨a, ha, of_decide_eq_true hfacts⟩

theorem exists_ok_of_any {P : α → Prop} [DecidablePred P]
    (h : r.toOption.any (fun a => decide (P a)) = true) : ∃ a, r = .ok a ∧ P a := by
  obtain ⟨a, ha, hfacts⟩ := exists_of_any h
  exact ⟨a, ok_of_toOption ha, hfacts⟩

end Evaluated

/-- Refuse with an error. -/
def reject {α : Type} (e : BtcError) : Outcome α := .error (.error e)

/-- Unwind. -/
def unwind {α : Type} : Outcome α := .error .panic

/-- The output hashes a transaction spends, in input order. -/
def Tx.spends (tx : Tx) : List Hash := tx.inputs.map TxInput.prevTxOutputHash

/-- The two transactions spend a common output. -/
def Tx.Conflicts (tx tx' : Tx) : Prop := ∃ h ∈ tx.spends, h ∈ tx'.spends

instance (tx tx' : Tx) : Decidable (tx.Conflicts tx') :=
  inferInstanceAs (Decidable (∃ h ∈ tx.spends, h ∈ tx'.spends))

theorem Tx.Conflicts.symm {tx tx' : Tx} (h : tx.Conflicts tx') : tx'.Conflicts tx := by
  obtain ⟨k, hk, hk'⟩ := h
  exact ⟨k, hk', hk⟩

/-- The sum of the output amounts, as the code adds them up. -/
def Tx.outputAmount (tx : Tx) : UInt64 := (tx.outputs.map TxOutput.amount).sum

/-- The outputs of a UTXO set without the mempool flags. -/
def UtxoSet.output (u : UtxoSet) (h : Hash) : Option TxOutput := (u.lookup h).map Prod.snd

/-- The amount held under an output hash, zero where there is none. -/
def UtxoSet.amount (u : UtxoSet) (h : Hash) : UInt64 := (u.output h).elim 0 TxOutput.amount

theorem UtxoSet.output_eq_none {u : UtxoSet} {h : Hash} : u.output h = none ↔ h ∉ u := by
  simp [UtxoSet.output, Finmap.lookup_eq_none]

theorem UtxoSet.output_eq_some {u : UtxoSet} {h : Hash} {o : TxOutput} :
    u.output h = some o ↔ ∃ marked, u.lookup h = some (marked, o) := by
  simp [UtxoSet.output]

theorem UtxoSet.mem_iff_output {u : UtxoSet} {h : Hash} : h ∈ u ↔ ∃ o, u.output h = some o := by
  rw [← not_iff_not, ← UtxoSet.output_eq_none, Option.eq_none_iff_forall_ne_some]
  simp

end ToyBtc
