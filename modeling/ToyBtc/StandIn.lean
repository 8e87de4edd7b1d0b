import ToyBtc.Node

/-!
# A stand-in for the crates

A small digest and signature check on which the model can be evaluated. The
digest tells the values of a short run apart, a header is mined with some
nonces and not with others, and a signature verifies for the key and the
output it was made for and for no other.

## Implementation notes

The nonce of a header moves its digest in steps of `2 ^ 240`: nonce zero meets
the minimum target and nonce one does not.
-/

namespace ToyBtc.StandIn

/-- Mix a list of numbers into one below `2 ^ 232`. -/
def mix (numbers : List Nat) : Nat :=
  numbers.foldl (fun acc x => (acc * 1000003 + x + 1) % 2 ^ 232) 7

/-- The digest of a value, as a number. Each kind of value has its own tag. -/
def digestNumber : Hashed → Nat
  | .tx t =>
      mix (1 :: t.inputs.flatMap (fun i =>
          [i.prevTxOutputHash.value.toNat, i.signature.bytes.toNat]) ++
        t.outputs.flatMap fun o => [o.amount.toNat, o.uniqueId.bytes.toNat, o.pubkey.point.toNat])
  | .output o => mix [2, o.amount.toNat, o.uniqueId.bytes.toNat, o.pubkey.point.toNat]
  | .header h =>
      mix [3, h.timestamp.toNat, h.prevBlockHash.value.toNat, h.merkleRoot.hash.value.toNat,
        h.target.toNat] + 2 ^ 240 * (h.nonce.toNat % 2 ^ 16)
  | .pair left right => mix [4, left.value.toNat, right.value.toNat]

/-- The signature of a key over a message. -/
def signature (pubkey : PublicKey) (message : List UInt8) : Signature :=
  ⟨BitVec.ofNat 512 (mix (5 :: pubkey.point.toNat :: message.map UInt8.toNat))⟩

/-- The digest and the signature check of all runs below. -/
@[reducible] def crates : Crates where
  digest data := ⟨BitVec.ofNat 256 (digestNumber data)⟩
  verify pubkey message s := decide (s = signature pubkey message)

/-- The output of `amount` with identifier `id`, for the key `pubkey`. -/
def coin (pubkey : PublicKey) (id : Nat) (amount : UInt64) : TxOutput :=
  ⟨amount, ⟨BitVec.ofNat 128 id⟩, pubkey⟩

/-- A coinbase that pays one coin. -/
def coinbase (o : TxOutput) : Tx := ⟨[], [o]⟩

/-- A signed payment of `spent` into `outputs`. -/
def payment (spent : TxOutput) (outputs : List TxOutput) : Tx :=
  letI := crates
  ⟨[⟨spent.hash, signature spent.pubkey spent.hash.asBytes⟩], outputs⟩

/-- A first block. Nothing but its zero link is checked in its header. -/
def firstBlock (target : U256) (transactions : List Tx) : Block :=
  ⟨⟨0, 0, Hash.zero, ⟨Hash.zero⟩, target⟩, transactions⟩

/-- A block on top of `parent`, one second later. -/
def nextBlock (parent : Block) (nonce : UInt64) (target : U256) (transactions : List Tx) : Block :=
  letI := crates
  ⟨⟨parent.header.timestamp + nanosPerSecond, nonce, parent.header.hash,
    MerkleRoot.calculate transactions, target⟩, transactions⟩

def alice : PublicKey := ⟨1⟩

def bob : PublicKey := ⟨2⟩

/-- The coin of the first block. -/
def firstCoin : TxOutput := coin alice 0 5000000000

/-- A first block that pays `firstCoin`. -/
def genesis : Block := firstBlock minTarget [coinbase firstCoin]

/-- Alice pays her coin to bob. -/
def toBob : Tx := payment firstCoin [coin bob 2 5000000000]

/-- A second block with alice's payment. -/
def spendingBlock : Block :=
  nextBlock genesis 0 minTarget [coinbase (coin bob 1 5000000000), toBob]

/-- A first block that pays alice two coins. -/
def twoCoins : Block :=
  firstBlock minTarget [⟨[], [coin alice 10 2000000000, coin alice 11 3000000000]⟩]

/-- Alice pays the smaller of the two coins to bob, for a fee. -/
def paysSmall : Tx := payment (coin alice 10 2000000000) [coin bob 12 1900000000]

/-- Alice pays the larger of the two coins to bob, for a fee. -/
def paysLarge : Tx := payment (coin alice 11 3000000000) [coin bob 13 2900000000]

/-- Alice pays the smaller coin to herself, as the same coin. -/
def paysBack : Tx := payment (coin alice 10 2000000000) [coin alice 10 2000000000]

/-- A second block with the first of two payments. -/
def takesSmall : Block :=
  nextBlock twoCoins 0 minTarget [coinbase (coin bob 14 5100000000), paysSmall]

/-- A second block with both payments. -/
def takesBoth : Block :=
  nextBlock twoCoins 0 minTarget [coinbase (coin bob 14 5200000000), paysSmall, paysLarge]

/-- Bob pays on what he got for the smaller coin. -/
def paysOn : Tx := payment (coin bob 12 1900000000) [coin alice 15 1800000000]

/-- Bob pays on what he got for the larger coin. -/
def paysOnLarge : Tx := payment (coin bob 13 2900000000) [coin alice 16 2800000000]

/-- Blocks of nothing but a coinbase, one second apart. -/
def idleBlocks : Nat → List Block
  | 0 => []
  | n + 1 =>
      let transactions := [coinbase (coin alice n 5000000000)]
      match (idleBlocks n).getLast? with
      | none => [firstBlock minTarget transactions]
      | some parent => idleBlocks n ++ [nextBlock parent 0 minTarget transactions]

/-- A block that comes more than a year after its parent. -/
def lateBlock (parent : Block) (transactions : List Tx) : Block :=
  let next := nextBlock parent 0 minTarget transactions
  { next with header := { next.header with
      timestamp := parent.header.timestamp + 33000000 * nanosPerSecond } }

/-- The last one of 49 quick blocks. -/
def lastQuick : Block := (idleBlocks 49).getLast (by decide)

/-- The fiftieth block spends the first coin, and the adjustment after it unwinds. -/
def unwinding : Block := lateBlock lastQuick [coinbase (coin alice 49 5000000000), toBob]

/-- The chain after the listed calls on an empty one. -/
def run (calls : List Call) : Option Blockchain :=
  letI := crates
  calls.foldlM Blockchain.step Blockchain.new

/-- A run that was evaluated to the end has a last state with the evaluated facts. -/
theorem exists_run {calls : List Call} {P : Blockchain → Prop} [DecidablePred P]
    (h : (run calls).any (fun s => decide (P s)) = true) : ∃ s, run calls = some s ∧ P s :=
  exists_of_any h

theorem reachedBy_of_run {calls : List Call} {s : Blockchain} (h : run calls = some s)
    {C : Blockchain → Call → Prop}
    (meets : letI := crates; Machine.StepsMeet Blockchain.step C Blockchain.new calls) :
    letI := crates; s.ReachedBy C :=
  letI := crates
  Machine.reach_of_foldlM calls meets h

theorem reached_of_run {calls : List Call} {s : Blockchain} (h : run calls = some s) :
    letI := crates; s.Reached :=
  letI := crates
  reachedBy_of_run h (.of_forall (fun _ _ => trivial) _ _)

/-- The node after the listed events on a fresh one, if each of them can happen. -/
def runNode (events : List Event) : Option Node :=
  letI := crates
  events.foldlM Node.step Node.new

theorem exists_runNode {events : List Event} {P : Node → Prop} [DecidablePred P]
    (h : (runNode events).any (fun n => decide (P n)) = true) :
    ∃ n, runNode events = some n ∧ P n :=
  exists_of_any h

theorem reachedBy_of_runNode {events : List Event} {n : Node} (h : runNode events = some n)
    {C : Node → Event → Prop}
    (meets : letI := crates; Machine.StepsMeet Node.step C Node.new events) :
    letI := crates; n.ReachedBy C :=
  letI := crates
  Machine.reach_of_foldlM events meets h

theorem reached_of_runNode {events : List Event} {n : Node} (h : runNode events = some n) :
    letI := crates; n.Reached :=
  letI := crates
  reachedBy_of_runNode h (.of_forall (fun _ _ => trivial) _ _)

end ToyBtc.StandIn
