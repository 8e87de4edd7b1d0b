import ToyBtc.InPlace
import ToyBtc.Machine

/-!
# Node operations

The calls a running node makes on its blockchain, the chain file, the
synchronization with a peer, and the block templates for miners.

## Implementation notes

Every call holds the chain's write lock, so a run of a node is a sequence of
calls. `add_block` is followed by `rebuild_utxo_set` under the same lock when
it returns `Ok`; the two calls that end a synchronization take the lock one
after the other, so they are two steps. A call that unwinds ends its task and
releases the lock, and the node goes on with the chain as the call has left it.
Only a start that unwinds ends the program. The chain file holds no mempool. It
is written under the read lock, so a save that is completed is one step.
-/

namespace ToyBtc

variable [Crates]

/-- The calls on a blockchain. -/
inductive Call
  | addBlock (b : Block)
  | addToMempool (now : DateTime) (tx : Tx)
  | cleanupMempool (now : DateTime)

/-- The call does not unwind after it has stored a block. -/
def Call.Returns (s : Blockchain) : Call → Prop
  | .addBlock b => ¬ s.Unwinds b
  | _ => True

instance (s : Blockchain) : DecidablePred (Call.Returns s)
  | .addBlock _ => inferInstanceAs (Decidable (¬ _))
  | .addToMempool .. | .cleanupMempool _ => isTrue trivial

namespace Blockchain

/-- One call, with the chain that it leaves behind. -/
def step (s : Blockchain) : Call → Option Blockchain
  | .addBlock b => some (s.addAndRebuild b).1
  | .addToMempool now tx => some (s.addToMempool now tx).1
  | .cleanupMempool now => some (s.cleanupMempool now)

/-- The states reached from the empty chain by calls that meet `C`. -/
abbrev ReachedBy (C : Blockchain → Call → Prop) : Blockchain → Prop :=
  Machine.Reach Blockchain.step C Blockchain.new

/-- The states reached from the empty chain. -/
abbrev Reached : Blockchain → Prop := Machine.Reachable Blockchain.step Blockchain.new

theorem step_addBlock_of_ok {s t : Blockchain} {b : Block} (h : s.addBlock b = .ok t) :
    s.step (.addBlock b) = some t.rebuildUtxoSet := by
  rcases s.addAndRebuild_cases b with ⟨added, hadded, heq⟩ | ⟨e, hadded, -⟩
  · obtain rfl : t = added := Except.ok.inj (h.symm.trans hadded)
    rw [step, heq]
  · rw [h] at hadded
    cases hadded

/-- A step with a block accepts it and replays the chain, or it stores it and unwinds, or
it changes nothing. -/
theorem step_addBlock_cases {s t : Blockchain} {b : Block} (h : s.step (.addBlock b) = some t) :
    (∃ added, s.addBlock b = .ok added ∧ t = added.rebuildUtxoSet) ∨
      (s.Unwinds b ∧ t = s.stored b) ∨ (¬ s.PassesChecks b ∧ t = s) := by
  cases h
  rcases s.addAndRebuild_cases b with ⟨added, hadded, heq⟩ | ⟨e, hadded, heq⟩
  · exact Or.inl ⟨added, hadded, by rw [heq]⟩
  · rw [heq]
    exact Or.inr (addBlockInPlace_of_error hadded)

/-- The chain file: everything but the mempool. -/
def saved (s : Blockchain) : Blockchain := { s with mempool := [] }

/-- Load a saved chain: replay it, then check whether its target needs adjusting. -/
def loadFromFile (file : Blockchain) : Outcome Blockchain := file.rebuildUtxoSet.tryAdjustTarget

/-- Add the blocks of a peer's stream in turn. The first error ends the download. -/
def fetchMissingBlocks (s : Blockchain) : List Block → Blockchain × Outcome Unit
  | [] => (s, .ok ())
  | b :: rest =>
      match s.addAndRebuild b with
      | (t, .error e) => (t, .error e)
      | (t, .ok ()) => t.fetchMissingBlocks rest

/-- Download the blocks of the longest peer, replay the chain, and check whether
the target needs adjusting. -/
def synchronizeBlockchain (s : Blockchain) (stream : List Block) : Blockchain × Outcome Unit :=
  match s.fetchMissingBlocks stream with
  | (t, .error e) => (t, .error e)
  | (t, .ok ()) =>
      match t.rebuildUtxoSet.tryAdjustTarget with
      | .error e => (t.rebuildUtxoSet, .error e)
      | .ok adjusted => (adjusted, .ok ())

/-- The template both front ends build. They differ in the height at which they
verify the coinbase. -/
def buildTemplate (s : Blockchain) (verifiedHeight : UInt64) (pubkey : PublicKey)
    (uniqueId : Uuid) (now : DateTime) : Outcome Block :=
  let coinbaseTx (amount : UInt64) : Tx := ⟨[], [⟨amount, uniqueId, pubkey⟩]⟩
  let mempoolTxs := (s.mempool.take blockTransactionCap).map Prod.snd
  let prevBlockHash := (s.blocks.getLast?.map fun b => b.header.hash).getD Hash.zero
  let header : BlockHeader := ⟨now, 0, prevBlockHash, MerkleRoot.calculate [], s.target⟩
  match (Block.new header (coinbaseTx 0 :: mempoolTxs)).calculateMinerFees s.utxoSet with
  | .error e => .error e
  | .ok minerFees =>
      let reward := s.calculateBlockReward
      -- the coinbase is paid once the fees are known
      let transactions := coinbaseTx (reward + minerFees) :: mempoolTxs
      match (Block.new header transactions).verifyCoinbaseTransaction verifiedHeight minerFees with
      | .error e => .error e
      | .ok () =>
          .ok (Block.new { header with merkleRoot := MerkleRoot.calculate transactions }
            transactions)

end Blockchain

/-- Ask the node to prepare the optimal block template, over gRPC. -/
def MinerSvc.fetchTemplate (s : Blockchain) (pubkey : PublicKey) (uniqueId : Uuid)
    (now : DateTime) : Outcome Block :=
  s.buildTemplate s.blockHeight pubkey uniqueId now

/-- A node with its chain file, if there is one. -/
structure Node where
  chain : Blockchain
  file : Option Blockchain

/-- What happens to a node: a call on its chain, a save, a restart, and the two
calls that end a synchronization. -/
inductive Event
  | call (c : Call)
  | saveToFile
  | restart
  | rebuildUtxoSet
  | tryAdjustTarget

/-- The event does not unwind after it has stored a block. -/
def Event.Returns (n : Node) : Event → Prop
  | .call c => c.Returns n.chain
  | _ => True

instance (n : Node) : DecidablePred (Event.Returns n)
  | .call c => inferInstanceAs (Decidable (c.Returns n.chain))
  | .saveToFile | .restart | .rebuildUtxoSet | .tryAdjustTarget => isTrue trivial

namespace Node

def new : Node := ⟨Blockchain.new, none⟩

/-- One event. A restarted node loads the chain file, or starts empty without one. -/
def step (n : Node) : Event → Option Node
  | .call c => (n.chain.step c).map fun chain => { n with chain }
  | .saveToFile => some { n with file := some n.chain.saved }
  | .restart =>
      match n.file with
      | none => some { n with chain := Blockchain.new }
      | some file => (Blockchain.loadFromFile file).toOption.map fun chain => { n with chain }
  | .rebuildUtxoSet => some { n with chain := n.chain.rebuildUtxoSet }
  | .tryAdjustTarget =>
      match n.chain.tryAdjustTarget with
      | .ok chain => some { n with chain }
      | .error _ => some n

section Step

variable {n m : Node}

theorem step_call_iff {c : Call} :
    n.step (.call c) = some m ↔ ∃ chain, n.chain.step c = some chain ∧ m = { n with chain } := by
  rw [step, Option.map_eq_some_iff]
  simp only [eq_comm]

theorem step_restart_iff :
    n.step .restart = some m ↔
      (n.file = none ∧ m = { n with chain := Blockchain.new }) ∨
        ∃ file chain, n.file = some file ∧ Blockchain.loadFromFile file = .ok chain ∧
          m = { n with chain } := by
  rw [step]
  cases n.file with
  | none => simp [eq_comm]
  | some file =>
      cases hload : Blockchain.loadFromFile file with
      | error e => simp [hload, Except.toOption]
      | ok chain => simp [hload, Except.toOption, eq_comm]

theorem step_tryAdjustTarget_cases (h : n.step .tryAdjustTarget = some m) :
    (∃ chain, n.chain.tryAdjustTarget = .ok chain ∧ m = { n with chain }) ∨
      (Blockchain.adjustedTarget n.chain.blocks n.chain.target = none ∧ m = n) := by
  rw [step] at h
  cases hadjust : n.chain.tryAdjustTarget with
  | ok chain =>
      rw [hadjust] at h
      cases h
      exact Or.inl ⟨chain, rfl, rfl⟩
  | error e =>
      rw [hadjust] at h
      cases h
      exact Or.inr ⟨Blockchain.tryAdjustTarget_error_iff.mp ⟨e, hadjust⟩, rfl⟩

theorem step_tryAdjustTarget_of_ok {chain : Blockchain} (h : n.chain.tryAdjustTarget = .ok chain) :
    n.step .tryAdjustTarget = some { n with chain } := by
  rw [step, h]

end Step

/-- The nodes reached from a fresh one by events that meet `C`. -/
abbrev ReachedBy (C : Node → Event → Prop) : Node → Prop :=
  Machine.Reach Node.step C Node.new

/-- The nodes reached from a fresh one. -/
abbrev Reached : Node → Prop := Machine.Reachable Node.step Node.new

end Node

/-- Every chain reached by calls alone is a node's chain. -/
theorem Blockchain.Reached.node {s : Blockchain} (reached : s.Reached) :
    Node.Reached ⟨s, none⟩ := by
  induction reached with
  | refl => exact .refl
  | @tail s t c _ _ next ih =>
      exact ih.tail trivial (a := .call c) (by simp [Node.step, next])

/-- A download leads through states reached by adding its blocks one by one. -/
theorem Blockchain.fetchMissingBlocks_reach (n : Node) (stream : List Block) :
    Machine.Reachable Node.step n
      { n with chain := (n.chain.fetchMissingBlocks stream).1 } := by
  induction stream generalizing n with
  | nil => exact .refl
  | cons b rest ih =>
      have hstep : n.step (.call (.addBlock b)) =
          some { n with chain := (n.chain.addAndRebuild b).1 } := rfl
      have hadded : Machine.Reachable Node.step n _ := .tail .refl trivial hstep
      rw [fetchMissingBlocks]
      rcases hadd : n.chain.addAndRebuild b with ⟨t, e | v⟩
      · rw [hadd] at hadded
        exact hadded
      · rw [hadd] at hadded
        exact hadded.trans (ih { n with chain := t })

/-- A synchronization is a sequence of node events. -/
theorem Blockchain.synchronizeBlockchain_reach (n : Node) (stream : List Block) :
    Machine.Reachable Node.step n
      { n with chain := (n.chain.synchronizeBlockchain stream).1 } := by
  have hfetch := fetchMissingBlocks_reach n stream
  unfold synchronizeBlockchain
  rcases hs : n.chain.fetchMissingBlocks stream with ⟨t, e | _⟩
  · rw [hs] at hfetch
    exact hfetch
  · rw [hs] at hfetch
    have hrebuild := hfetch.tail trivial (a := .rebuildUtxoSet) rfl
    dsimp only
    cases hadjust : t.rebuildUtxoSet.tryAdjustTarget with
    | error e => exact hrebuild
    | ok adjusted =>
        exact hrebuild.tail trivial (Node.step_tryAdjustTarget_of_ok hadjust)

end ToyBtc
