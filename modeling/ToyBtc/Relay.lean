import ToyBtc.Node
import ToyBtc.Admission
import ToyBtc.StandIn

/-!
# What a node passes on

The handlers of two transports pair a change of the chain with a call of
`broadcast`. A block is passed on when `add_block` returns, and a transaction
when `add_to_mempool` reports success. The two reports say less than that the
item was taken: a block stays in the chain when the adjustment after it
unwinds, a transaction can be dropped with success, and one handler does not
look at the report.

## Implementation notes

A handler holds the write lock until its broadcast has been sent. The lock is
released when the handler unwinds, with the chain as it is then. A broadcast
is the call with its item and the peer left out, and not its delivery.
-/

namespace ToyBtc

/-- What nodes pass on to each other. -/
inductive Item
  | block (b : Block)
  | transaction (tx : Tx)
  deriving DecidableEq

/-- A call of `broadcast`, with the peer that is skipped. -/
structure Broadcast where
  item : Item
  skipAddr : Option String
  deriving DecidableEq

/-- How a handler leaves its connection. -/
inductive Ending
  | continues
  | closes
  | status (e : BtcError)
  | unwinds
  deriving DecidableEq

/-- The chain after a handler, the broadcast it made and the end it came to. -/
structure Handled where
  chain : Blockchain
  broadcast : Option Broadcast
  ending : Ending

variable [Crates]

/-- Take a block and pass it on. -/
def relayBlock (onError : BtcError → Ending) (skipAddr : Option String) (s : Blockchain)
    (b : Block) : Handled :=
  match s.addAndRebuild b with
  | (t, .ok ()) => ⟨t, some ⟨.block b, skipAddr⟩, .continues⟩
  | (t, .error (.error e)) => ⟨t, none, onError e⟩
  | (t, .error .panic) => ⟨t, none, .unwinds⟩

/-- Take a transaction and pass it on. -/
def relayTransaction (onError : BtcError → Ending) (skipAddr : Option String) (s : Blockchain)
    (now : DateTime) (tx : Tx) : Handled :=
  match s.addToMempool now tx with
  | (t, .ok ()) => ⟨t, some ⟨.transaction tx, skipAddr⟩, .continues⟩
  | (t, .error e) => ⟨t, none, onError e⟩

/-- Only a transaction that is already known leaves the connection open. -/
def closeUnlessKnown : BtcError → Ending
  | .txAlreadyInMempool _ => .continues
  | _ => .closes

namespace Handler

/-- `NewBlock`, over TCP. -/
def newBlock (s : Blockchain) (sourceAddr : String) (b : Block) : Handled :=
  relayBlock (fun _ => .continues) (some sourceAddr) s b

/-- `NewTransaction`, over TCP. -/
def newTransaction (s : Blockchain) (now : DateTime) (sourceAddr : String) (tx : Tx) : Handled :=
  relayTransaction closeUnlessKnown (some sourceAddr) s now tx

/-- `SubmitTemplate`, over TCP: the connection with a bad miner is closed. -/
def submitTemplate (s : Blockchain) (sourceAddr : String) (b : Block) : Handled :=
  relayBlock (fun _ => .closes) (some sourceAddr) s b

/-- `SubmitTransaction`, over TCP: an error is printed, and the handler goes on. -/
def submitTransaction (s : Blockchain) (now : DateTime) (sourceAddr : String) (tx : Tx) :
    Handled :=
  ⟨(s.addToMempool now tx).1, some ⟨.transaction tx, some sourceAddr⟩, .continues⟩

end Handler

/-- Submit a mined block to a node, over gRPC. -/
def MinerSvc.submitTemplate (s : Blockchain) (b : Block) : Handled := relayBlock .status none s b

/-- Send a transaction to the network, over gRPC. -/
def WalletSvc.submitTransaction (s : Blockchain) (now : DateTime) (tx : Tx) : Handled :=
  relayTransaction .status none s now tx

/-- A block on the stream of a subscription. -/
def Peers.receiveBlock (s : Blockchain) (peerAddr : String) (b : Block) : Handled :=
  relayBlock (fun _ => .continues) (some peerAddr) s b

/-- A transaction on the stream of a subscription. -/
def Peers.receiveTransaction (s : Blockchain) (now : DateTime) (peerAddr : String) (tx : Tx) :
    Handled :=
  relayTransaction closeUnlessKnown (some peerAddr) s now tx

/-- The ways an item comes in. -/
inductive Incoming
  | newBlock (sourceAddr : String) (b : Block)
  | submitTemplate (sourceAddr : String) (b : Block)
  | newTransaction (sourceAddr : String) (tx : Tx)
  | submitTransaction (sourceAddr : String) (tx : Tx)
  | rpcSubmitTemplate (b : Block)
  | rpcSubmitTransaction (tx : Tx)
  | subscribedBlock (peerAddr : String) (b : Block)
  | subscribedTransaction (peerAddr : String) (tx : Tx)

namespace Incoming

def item : Incoming → Item
  | newBlock _ b => .block b
  | submitTemplate _ b => .block b
  | newTransaction _ tx => .transaction tx
  | submitTransaction _ tx => .transaction tx
  | rpcSubmitTemplate b => .block b
  | rpcSubmitTransaction tx => .transaction tx
  | subscribedBlock _ b => .block b
  | subscribedTransaction _ tx => .transaction tx

/-- Hand the item to its handler. -/
def handle (s : Blockchain) (now : DateTime) : Incoming → Handled
  | newBlock sourceAddr b => Handler.newBlock s sourceAddr b
  | submitTemplate sourceAddr b => Handler.submitTemplate s sourceAddr b
  | newTransaction sourceAddr tx => Handler.newTransaction s now sourceAddr tx
  | submitTransaction sourceAddr tx => Handler.submitTransaction s now sourceAddr tx
  | rpcSubmitTemplate b => MinerSvc.submitTemplate s b
  | rpcSubmitTransaction tx => WalletSvc.submitTransaction s now tx
  | subscribedBlock peerAddr b => Peers.receiveBlock s peerAddr b
  | subscribedTransaction peerAddr tx => Peers.receiveTransaction s now peerAddr tx

end Incoming

namespace Blockchain

/-- The replacement loop comes to an input at which an older transaction pays a
higher fee. -/
def Outbid (s : Blockchain) (tx : Tx) : Prop :=
  ∃ pre i post u mempool, tx.inputs = pre ++ i :: post ∧
    replaceOlder tx pre s.utxoSet s.mempool = (u, mempool, true) ∧ OutbidAt tx i u mempool

theorem outbid_iff {s : Blockchain} {tx : Tx} :
    s.Outbid tx ↔ (replaceOlder tx tx.inputs s.utxoSet s.mempool).2.2 = false :=
  (replaceOlder_eq_false_iff ..).symm

/-- The two things a call does with an admissible transaction that it reports as
a success: it drops it or inserts it. -/
theorem addToMempool_ok_iff {s : Blockchain} {now : DateTime} {tx : Tx} :
    (s.addToMempool now tx).2 = .ok () ↔
      s.Admissible tx ∧ (s.Outbid tx ∨ tx.outputAmount ≤ tx.inputAmount s.utxoSet) := by
  by_cases hadm : s.Admissible tx
  · rcases hloop : replaceOlder tx tx.inputs s.utxoSet s.mempool with ⟨u, mempool, proceed⟩
    have houtbid : s.Outbid tx ↔ proceed = false := by rw [outbid_iff, hloop]
    rcases addToMempool_of_admissible hadm now hloop with
      ⟨hstop, heq⟩ | ⟨hgo, hunpaid, e, heq⟩ | ⟨hgo, hpaid, heq⟩
    · simp [heq, hadm, houtbid, hstop]
    · simp [heq, houtbid, hgo, UInt64.not_le.mpr hunpaid]
    · simp [heq, hadm, hpaid]
  · obtain ⟨e, heq⟩ := addToMempool_of_not_admissible hadm now
    simp [heq, hadm]

theorem inserts_iff {s : Blockchain} {now : DateTime} {tx : Tx} :
    s.Inserts now tx ↔
      s.Admissible tx ∧ ¬ s.Outbid tx ∧ tx.outputAmount ≤ tx.inputAmount s.utxoSet := by
  constructor
  · intro h
    obtain ⟨hadm, hpaid⟩ := h.admissible
    refine ⟨hadm, fun houtbid => ?_, hpaid⟩
    rcases hloop : replaceOlder tx tx.inputs s.utxoSet s.mempool with ⟨u, mempool, proceed⟩
    rw [outbid_iff, hloop] at houtbid
    obtain ⟨-, hsub⟩ := replaceOlder_frame tx tx.inputs s.utxoSet s.mempool
    rw [hloop] at hsub
    rcases addToMempool_of_admissible hadm now hloop with ⟨-, heq⟩ | ⟨hgo, -⟩ | ⟨hgo, -⟩
    · -- an outbid transaction is not in the mempool, where it was not before
      obtain ⟨-, time, hmem⟩ := h
      rw [heq] at hmem
      exact hadm.new _ (hsub.mem hmem) rfl
    · cases houtbid.symm.trans hgo
    · cases houtbid.symm.trans hgo
  · rintro ⟨hadm, houtbid, hpaid⟩
    rcases hloop : replaceOlder tx tx.inputs s.utxoSet s.mempool with ⟨u, mempool, proceed⟩
    rw [outbid_iff, hloop] at houtbid
    rcases addToMempool_of_admissible hadm now hloop with
      ⟨hstop, -⟩ | ⟨-, hunpaid, -⟩ | ⟨-, -, heq⟩
    · exact absurd hstop houtbid
    · exact absurd hpaid (UInt64.not_le.mpr hunpaid)
    · rw [Inserts, heq]
      exact ⟨rfl, now, (sortByFee_perm _ _).mem_iff.mpr (by simp)⟩

end Blockchain

/-- The chain's own call took the item: it appended the block, or put the
transaction in the mempool. -/
def Item.TakenBy (s : Blockchain) (now : DateTime) : Item → Prop
  | .block b => (s.addBlockInPlace b).1.blocks = s.blocks ++ [b]
  | .transaction tx => s.Inserts now tx

theorem relayBlock_broadcast_iff {onError : BtcError → Ending} {skipAddr : Option String}
    {s : Blockchain} {b : Block} :
    (∃ skipped, (relayBlock onError skipAddr s b).broadcast = some ⟨.block b, skipped⟩) ↔
      s.Accepts b := by
  rcases s.addAndRebuild_cases b with ⟨t, hadd, heq⟩ | ⟨e, hadd, heq⟩
  · simp [relayBlock, heq, Blockchain.Accepts, hadd]
  · cases e <;> simp [relayBlock, heq, Blockchain.Accepts, hadd]

theorem relayTransaction_broadcast_iff {onError : BtcError → Ending} {skipAddr : Option String}
    {s : Blockchain} {now : DateTime} {tx : Tx} :
    (∃ skipped, (relayTransaction onError skipAddr s now tx).broadcast =
      some ⟨.transaction tx, skipped⟩) ↔ (s.addToMempool now tx).2 = .ok () := by
  unfold relayTransaction
  rcases s.addToMempool now tx with ⟨t, e | v⟩ <;> simp

namespace Incoming

/-- The call that the handler makes on the chain. -/
def call (now : DateTime) (m : Incoming) : Call :=
  match m.item with
  | .block b => .addBlock b
  | .transaction tx => .addToMempool now tx

/-- The handler passes its item on. -/
def Relayed (m : Incoming) (s : Blockchain) (now : DateTime) : Prop :=
  ∃ skipped, (m.handle s now).broadcast = some ⟨m.item, skipped⟩

/-- The handler does not look at the report of its call. -/
def IgnoresReport : Incoming → Prop
  | submitTransaction _ _ => True
  | _ => False

/-- What a handler does: it relays a block, relays a transaction, or passes a
transaction on without looking at the report. -/
theorem handle_cases (m : Incoming) (s : Blockchain) (now : DateTime) :
    (∃ onError skipAddr b, m.item = .block b ∧
      m.handle s now = relayBlock onError skipAddr s b) ∨
    (∃ onError skipAddr tx, m.item = .transaction tx ∧ ¬ m.IgnoresReport ∧
      m.handle s now = relayTransaction onError skipAddr s now tx) ∨
    ∃ skipAddr tx, m.item = .transaction tx ∧ m.IgnoresReport ∧
      m.handle s now =
        ⟨(s.addToMempool now tx).1, some ⟨.transaction tx, skipAddr⟩, .continues⟩ := by
  cases m with
  | newBlock sourceAddr b => exact Or.inl ⟨_, _, b, rfl, rfl⟩
  | submitTemplate sourceAddr b => exact Or.inl ⟨_, _, b, rfl, rfl⟩
  | rpcSubmitTemplate b => exact Or.inl ⟨_, _, b, rfl, rfl⟩
  | subscribedBlock peerAddr b => exact Or.inl ⟨_, _, b, rfl, rfl⟩
  | newTransaction sourceAddr tx => exact Or.inr (Or.inl ⟨_, _, tx, rfl, id, rfl⟩)
  | rpcSubmitTransaction tx => exact Or.inr (Or.inl ⟨_, _, tx, rfl, id, rfl⟩)
  | subscribedTransaction peerAddr tx => exact Or.inr (Or.inl ⟨_, _, tx, rfl, id, rfl⟩)
  | submitTransaction sourceAddr tx => exact Or.inr (Or.inr ⟨_, tx, rfl, trivial, rfl⟩)

/-- A block that is appended sets off no adjustment that unwinds. A transaction
that gets as far as the replacement loop is not outbid there, and the one
handler that ignores the report gets nothing but transactions that are taken. -/
def Orderly (m : Incoming) (s : Blockchain) : Prop :=
  match m.item with
  | .block b => s.PassesChecks b →
      (Blockchain.adjustedTarget (s.blocks ++ [b]) s.target).isSome = true
  | .transaction tx => (s.Admissible tx → ¬ s.Outbid tx) ∧
      (m.IgnoresReport → s.Admissible tx ∧ tx.outputAmount ≤ tx.inputAmount s.utxoSet)

/-- An item is passed on exactly if it was taken, in exactly the orderly cases. -/
theorem relayed_iff_takenBy_iff (m : Incoming) (s : Blockchain) (now : DateTime) :
    (m.Relayed s now ↔ m.item.TakenBy s now) ↔ m.Orderly s := by
  unfold Relayed Orderly
  rcases m.handle_cases s now with ⟨onError, skipAddr, b, hitem, heq⟩ |
    ⟨onError, skipAddr, tx, hitem, hlooks, heq⟩ | ⟨skipAddr, tx, hitem, hignores, heq⟩
  · rw [hitem, heq, relayBlock_broadcast_iff, Item.TakenBy, Blockchain.appends_iff,
      Blockchain.accepts_iff]
    dsimp only
    unfold Blockchain.PassesChecks
    tauto
  · rw [hitem, heq, relayTransaction_broadcast_iff, Item.TakenBy, Blockchain.addToMempool_ok_iff,
      Blockchain.inserts_iff]
    dsimp only
    tauto
  · have hrelayed : ∃ skipped,
        (m.handle s now).broadcast = some ⟨.transaction tx, skipped⟩ := ⟨skipAddr, by rw [heq]⟩
    rw [hitem, iff_true_left hrelayed, Item.TakenBy, Blockchain.inserts_iff]
    dsimp only
    tauto

end Incoming

theorem relayTransaction_chain (onError : BtcError → Ending) (skipAddr : Option String)
    (s : Blockchain) (now : DateTime) (tx : Tx) :
    (relayTransaction onError skipAddr s now tx).chain = (s.addToMempool now tx).1 := by
  unfold relayTransaction
  rcases s.addToMempool now tx with ⟨t, e | v⟩ <;> rfl

theorem relayBlock_chain (onError : BtcError → Ending) (skipAddr : Option String)
    (s : Blockchain) (b : Block) :
    (relayBlock onError skipAddr s b).chain = (s.addAndRebuild b).1 := by
  unfold relayBlock
  rcases s.addAndRebuild b with ⟨t, (e | _) | v⟩ <;> rfl

namespace Incoming

/-- A handler passes on nothing but its own item, and a block only if it accepted it. -/
theorem of_broadcast {m : Incoming} {s : Blockchain} {now : DateTime} {x : Broadcast}
    (h : (m.handle s now).broadcast = some x) :
    x.item = m.item ∧ ∀ b, m.item = .block b → s.Accepts b := by
  rcases m.handle_cases s now with ⟨onError, skipAddr, b, hitem, heq⟩ |
    ⟨onError, skipAddr, tx, hitem, -, heq⟩ | ⟨skipAddr, tx, hitem, -, heq⟩
  · rw [heq] at h
    have hx : x.item = .block b := by
      unfold relayBlock at h
      split at h <;> cases h
      rfl
    refine ⟨hx.trans hitem.symm, fun b' hb' => ?_⟩
    obtain rfl : b = b' := Item.block.inj (hitem.symm.trans hb')
    exact relayBlock_broadcast_iff.mp ⟨x.skipAddr, by rw [h, ← hx]⟩
  · rw [heq] at h
    unfold relayTransaction at h
    split at h <;> cases h
    exact ⟨hitem.symm, fun b hb => by rw [hitem] at hb; cases hb⟩
  · rw [heq] at h
    cases h
    exact ⟨hitem.symm, fun b hb => by rw [hitem] at hb; cases hb⟩

/-- A handler changes the blocks as its call does. -/
theorem blocks_handle (m : Incoming) (s : Blockchain) (now : DateTime) :
    (m.handle s now).chain.blocks =
      match m.item with
      | .block b => (s.addBlockInPlace b).1.blocks
      | .transaction _ => s.blocks := by
  rcases m.handle_cases s now with ⟨onError, skipAddr, b, hitem, heq⟩ |
    ⟨onError, skipAddr, tx, hitem, -, heq⟩ | ⟨skipAddr, tx, hitem, -, heq⟩
  · rw [hitem, heq, relayBlock_chain, Blockchain.blocks_addAndRebuild]
  · rw [hitem, heq, relayTransaction_chain]
    exact (Blockchain.addToMempool_cases s now tx).1
  · rw [hitem, heq]
    exact (Blockchain.addToMempool_cases s now tx).1

/-- A handler makes one step of the chain. -/
theorem handle_step (m : Incoming) (s : Blockchain) (now : DateTime) :
    s.step (m.call now) = some (m.handle s now).chain := by
  unfold call
  rcases m.handle_cases s now with ⟨onError, skipAddr, b, hitem, heq⟩ |
    ⟨onError, skipAddr, tx, hitem, -, heq⟩ | ⟨skipAddr, tx, hitem, -, heq⟩
  · rw [hitem, heq, relayBlock_chain]
    rfl
  · rw [hitem, heq, relayTransaction_chain]
    rfl
  · rw [hitem, heq]
    rfl

theorem broadcast_block_iff {m : Incoming} {s : Blockchain} {now : DateTime} {b : Block}
    (hitem : m.item = .block b) :
    (∃ skipAddr, (m.handle s now).broadcast = some ⟨.block b, skipAddr⟩) ↔ s.Accepts b := by
  rcases m.handle_cases s now with ⟨onError, skipAddr, b', hb', heq⟩ |
    ⟨-, -, tx, htx, -⟩ | ⟨-, tx, htx, -⟩
  · obtain rfl : b = b' := Item.block.inj (hitem.symm.trans hb')
    rw [heq]
    exact relayBlock_broadcast_iff
  · rw [hitem] at htx
    cases htx
  · rw [hitem] at htx
    cases htx

/-- A handler appends its block and passes it on, or appends it and unwinds, or it leaves
the blocks as they are and passes on no block. -/
theorem handle_block_cases (m : Incoming) (s : Blockchain) (now : DateTime) :
    (∃ b skipAddr, m.item = .block b ∧ s.PassesChecks b ∧ ¬ s.Unwinds b ∧
        (m.handle s now).chain.blocks = s.blocks ++ [b] ∧
        (m.handle s now).broadcast = some ⟨.block b, skipAddr⟩) ∨
      (∃ b, m.item = .block b ∧ s.Unwinds b ∧
        (m.handle s now).chain.blocks = s.blocks ++ [b] ∧ (m.handle s now).broadcast = none) ∨
      (∀ b, m.item = .block b → ¬ s.PassesChecks b) ∧ (m.handle s now).chain.blocks = s.blocks ∧
        ∀ x, (m.handle s now).broadcast = some x → ∃ tx, x.item = .transaction tx := by
  have hblocks := m.blocks_handle s now
  cases hitem : m.item with
  | transaction tx =>
      rw [hitem] at hblocks
      refine Or.inr (Or.inr ⟨nofun, hblocks, fun x hx => ⟨tx, ?_⟩⟩)
      rw [(of_broadcast hx).1, hitem]
  | block b =>
      rw [hitem] at hblocks
      have hnone : ¬ s.Accepts b → (m.handle s now).broadcast = none := by
        intro hrefused
        rw [Option.eq_none_iff_forall_ne_some]
        exact fun x hx => hrefused ((of_broadcast hx).2 b hitem)
      by_cases hpasses : s.PassesChecks b
      · have happend := hblocks.trans (Blockchain.appends_iff.mpr hpasses)
        by_cases hunwinds : s.Unwinds b
        · refine Or.inr (Or.inl ⟨b, rfl, hunwinds, happend, hnone fun haccepts => ?_⟩)
          exact (Blockchain.accepts_iff_passesChecks.mp haccepts).2 hunwinds
        · obtain ⟨skipAddr, hx⟩ :=
            (broadcast_block_iff hitem).mpr
              (Blockchain.accepts_iff_passesChecks.mpr ⟨hpasses, hunwinds⟩)
          exact Or.inl ⟨b, skipAddr, rfl, hpasses, hunwinds, happend, hx⟩
      · have hrefused : ¬ s.Accepts b :=
          fun haccepts => hpasses (Blockchain.accepts_iff_passesChecks.mp haccepts).1
        refine Or.inr (Or.inr ⟨fun b' hb' => by cases hb'; exact hpasses, ?_, fun x hx => ?_⟩)
        · have hsame := s.blocks_addBlockInPlace b
          rw [if_neg (mt Blockchain.storeBlock_isOk_iff.mp hpasses)] at hsame
          exact hblocks.trans hsame
        · rw [hnone hrefused] at hx
          cases hx

end Incoming

omit [Crates] in
/-- Over TCP a node passes on a submitted transaction that it has just rejected. -/
theorem not_relayed_iff_takenBy :
    letI := StandIn.crates
    ¬ ∀ (m : Incoming) (s : Blockchain) (now : DateTime), s.Reached →
      (m.Relayed s now ↔ m.item.TakenBy s now) := by
  let := StandIn.crates
  intro h
  have hrelayed : (Incoming.submitTransaction "peer" StandIn.toBob).Relayed Blockchain.new 0 :=
    ⟨some "peer", rfl⟩
  have htaken := (h _ Blockchain.new 0 .refl).mp hrelayed
  exact absurd htaken (by decide +kernel : ¬ Blockchain.new.Inserts 0 StandIn.toBob)

end ToyBtc
