import ToyBtc.Relay
import ToyBtc.History
import Mathlib.Data.Fintype.Card

/-!
# Blocks flooded through a network

A network is a family of chains. Any item can arrive at any node at any time
and over any handler, so nothing is assumed about links, order, loss or
repetition. Timestamps increase along every chain, and so a chain takes a
block with a given header once.

## Implementation notes

A step names the node at which it happens. A handler or a download that
unwinds leaves the chain behind as it is, and the other tasks of the node go
on with it. The counts are over runs without restarts.
-/

namespace ToyBtc

variable [Crates]

omit [Crates] in
/-- The header of a block that is passed on. -/
def Item.header : Item → Option BlockHeader
  | .block b => some b.header
  | .transaction _ => none

/-- The chains of the nodes. -/
abbrev Network (ι : Type*) := ι → Blockchain

/-- What happens in a network: an item arrives at a node, a node adds a block of
a download, or makes one of its other calls. -/
inductive NetworkEvent (ι : Type*)
  | arrive (i : ι) (now : DateTime) (m : Incoming)
  | download (i : ι) (b : Block)
  | rebuildUtxoSet (i : ι)
  | tryAdjustTarget (i : ι)
  | cleanupMempool (i : ι) (now : DateTime)

namespace NetworkEvent

variable {ι : Type*}

/-- The node at which it happens. -/
def node : NetworkEvent ι → ι
  | arrive i _ _ => i
  | download i _ => i
  | rebuildUtxoSet i => i
  | tryAdjustTarget i => i
  | cleanupMempool i _ => i

/-- The block that is handed to `add_block`, if any. -/
def offered : NetworkEvent ι → Option Block
  | arrive _ _ m =>
      match m.item with
      | .block b => some b
      | .transaction _ => none
  | download _ b => some b
  | _ => none

/-- The chain of the node afterwards. -/
def chain (s : Blockchain) : NetworkEvent ι → Blockchain
  | arrive _ now m => (m.handle s now).chain
  | download _ b => (s.addAndRebuild b).1
  | rebuildUtxoSet _ => s.rebuildUtxoSet
  | tryAdjustTarget _ => (s.tryAdjustTarget.toOption).getD s
  | cleanupMempool _ now => s.cleanupMempool now

/-- The broadcast that the node makes, if any. -/
def broadcast (s : Blockchain) : NetworkEvent ι → Option Broadcast
  | arrive _ now m => (m.handle s now).broadcast
  | _ => none

/-- The node hands a block with the header `h` to `add_block`, which appends it. -/
def Takes (net : Network ι) (h : BlockHeader) (e : NetworkEvent ι) : Prop :=
  ∃ b ∈ e.offered, b.header = h ∧
    ((net e.node).addBlockInPlace b).1.blocks = (net e.node).blocks ++ [b]

instance (net : Network ι) (h : BlockHeader) (e : NetworkEvent ι) : Decidable (e.Takes net h) :=
  inferInstanceAs (Decidable (∃ b ∈ e.offered, _))

/-- The node broadcasts a block with the header `h`. -/
def Broadcasts (net : Network ι) (h : BlockHeader) (e : NetworkEvent ι) : Prop :=
  ∃ x ∈ e.broadcast (net e.node), x.item.header = some h

instance (net : Network ι) (h : BlockHeader) (e : NetworkEvent ι) :
    Decidable (e.Broadcasts net h) :=
  inferInstanceAs (Decidable (∃ x ∈ e.broadcast (net e.node), _))

theorem Broadcasts.takes {net : Network ι} {h : BlockHeader} {e : NetworkEvent ι}
    (hb : e.Broadcasts net h) : e.Takes net h := by
  obtain ⟨x, hx, hheader⟩ := hb
  cases e with
  | arrive i now m =>
      obtain ⟨hitem, haccepts⟩ := Incoming.of_broadcast hx
      rw [hitem] at hheader
      cases hm : m.item with
      | transaction tx => rw [hm] at hheader; cases hheader
      | block b =>
          rw [hm] at hheader
          obtain ⟨hcheck, hverify, -⟩ := Blockchain.accepts_iff.mp (haccepts b hm)
          exact ⟨b, by simp [offered, hm], Option.some.inj hheader,
            Blockchain.appends_iff.mpr ⟨hcheck, hverify⟩⟩
  | _ => cases hx

/-- No event but an offered block changes the blocks. -/
theorem blocks_chain (s : Blockchain) (e : NetworkEvent ι) :
    (e.chain s).blocks =
      match e.offered with
      | some b => (s.addBlockInPlace b).1.blocks
      | none => s.blocks := by
  cases e with
  | arrive i now m =>
      rw [chain, Incoming.blocks_handle, offered]
      cases m.item <;> rfl
  | download i b => exact s.blocks_addAndRebuild b
  | rebuildUtxoSet i => rfl
  | tryAdjustTarget i =>
      change (s.tryAdjustTarget.toOption.getD s).blocks = s.blocks
      cases hadjust : s.tryAdjustTarget with
      | error e => rfl
      | ok t => exact Blockchain.blocks_tryAdjustTarget hadjust
  | cleanupMempool i now => rfl

/-- What an event does to the blocks of its node. -/
theorem blocks_chain_cases (s : Blockchain) (e : NetworkEvent ι) :
    (e.chain s).blocks = s.blocks ∨
      ∃ b, e.offered = some b ∧ s.PassesChecks b ∧ (e.chain s).blocks = s.blocks ++ [b] := by
  rw [blocks_chain]
  cases e.offered with
  | none => exact Or.inl rfl
  | some b =>
      by_cases hpass : s.PassesChecks b
      · exact Or.inr ⟨b, rfl, hpass, Blockchain.appends_iff.mpr hpass⟩
      · refine Or.inl ?_
        rw [← Blockchain.storeBlock_isOk_iff] at hpass
        simp [Blockchain.blocks_addBlockInPlace, hpass]

/-- Along an increasing chain an event appends later blocks only. -/
theorem increasing_chain {s : Blockchain} (e : NetworkEvent ι)
    (hs : s.blocks.Pairwise fun a b => a.header.timestamp < b.header.timestamp) :
    (e.chain s).blocks.Pairwise fun a b => a.header.timestamp < b.header.timestamp := by
  rcases e.blocks_chain_cases s with hsame | ⟨b, -, hpass, happend⟩
  · exact hsame ▸ hs
  · exact happend ▸ timestamps_lt_concat hs hpass.1

theorem blocks_isPrefix_chain (s : Blockchain) (e : NetworkEvent ι) :
    s.blocks <+: (e.chain s).blocks := by
  rcases e.blocks_chain_cases s with hsame | ⟨b, -, -, happend⟩
  · exact hsame ▸ List.prefix_refl _
  · exact ⟨[b], happend.symm⟩

/-- A header that the node takes is new to it, and in its chain from then on. -/
theorem Takes.new {net : Network ι} {h : BlockHeader} {e : NetworkEvent ι}
    (hs : (net e.node).blocks.Pairwise fun a b => a.header.timestamp < b.header.timestamp)
    (takes : e.Takes net h) :
    h ∉ (net e.node).blocks.map Block.header ∧
      h ∈ (e.chain (net e.node)).blocks.map Block.header := by
  obtain ⟨b, hoffered, rfl, happend⟩ := takes
  have hchain : (e.chain (net e.node)).blocks = (net e.node).blocks ++ [b] := by
    rw [blocks_chain, Option.mem_def.mp hoffered]
    exact happend
  have hlater := timestamps_lt_concat hs (Blockchain.appends_iff.mp happend).1
  refine ⟨fun hmem => ?_, by simp [hchain]⟩
  obtain ⟨x, hx, hheader⟩ := List.mem_map.mp hmem
  have hlt := (List.pairwise_append.mp hlater).2.2 x hx b (by simp)
  rw [hheader] at hlt
  exact hlt.false

end NetworkEvent

namespace Network

variable {ι : Type*} [DecidableEq ι]

/-- An event changes the chain of its node. -/
def step (net : Network ι) (e : NetworkEvent ι) : Option (Network ι) :=
  some (Function.update net e.node (e.chain (net e.node)))

/-- Timestamps increase along every chain. -/
def Increasing (net : Network ι) : Prop :=
  ∀ i, (net i).blocks.Pairwise fun a b => a.header.timestamp < b.header.timestamp

/-- The node has a block with the header `h`. -/
def Has (net : Network ι) (h : BlockHeader) (i : ι) : Prop :=
  h ∈ (net i).blocks.map Block.header

instance (net : Network ι) (h : BlockHeader) (i : ι) : Decidable (net.Has h i) :=
  inferInstanceAs (Decidable (h ∈ _))

/-- The listed nodes without a block with the header `h`. -/
def missing (nodes : Finset ι) (h : BlockHeader) (net : Network ι) : Finset ι :=
  nodes.filter fun i => ¬ net.Has h i

theorem step_eq {net net' : Network ι} {e : NetworkEvent ι} (next : net.step e = some net')
    (i : ι) : net' i = if i = e.node then e.chain (net i) else net i := by
  obtain rfl := Option.some.inj next
  by_cases hi : i = e.node
  · subst hi
    simp
  · simp [hi]

theorem Increasing.step {net net' : Network ι} {e : NetworkEvent ι}
    (increasing : net.Increasing) (next : net.step e = some net') : net'.Increasing := by
  intro i
  rw [step_eq next]
  split
  · exact e.increasing_chain (increasing i)
  · exact increasing i

theorem Has.step {net net' : Network ι} {e : NetworkEvent ι} {h : BlockHeader} {i : ι}
    (has : net.Has h i) (next : net.step e = some net') : net'.Has h i := by
  rw [Has, step_eq next]
  split
  · exact List.map_subset _ (e.blocks_isPrefix_chain (net i)).subset has
  · exact has

/-- No event takes a header away from a node, and an event at which a listed node
takes the header leaves one node less without it. -/
theorem missing_step {nodes : Finset ι} {h : BlockHeader} {net net' : Network ι}
    {e : NetworkEvent ι} (increasing : net.Increasing) (next : net.step e = some net') :
    (missing nodes h net').card ≤ (missing nodes h net).card ∧
      (e.node ∈ nodes ∧ e.Takes net h →
        (missing nodes h net').card < (missing nodes h net).card) := by
  have hsub : missing nodes h net' ⊆ missing nodes h net :=
    Finset.monotone_filter_right _ fun i _ hmissing hhas => hmissing (hhas.step next)
  refine ⟨Finset.card_le_card hsub, fun ⟨hnode, takes⟩ => ?_⟩
  obtain ⟨hbefore, hafter⟩ := takes.new (increasing e.node)
  refine Finset.card_lt_card (Finset.ssubset_iff_of_subset hsub |>.mpr ⟨e.node, ?_, ?_⟩)
  · exact Finset.mem_filter.mpr ⟨hnode, hbefore⟩
  · intro hmem
    refine (Finset.mem_filter.mp hmem).2 ?_
    rw [Has, step_eq next, if_pos rfl]
    exact hafter

/-- The listed nodes take a block with a given header at most once each. -/
theorem takes_le {net : Network ι} (increasing : net.Increasing) (nodes : Finset ι)
    (h : BlockHeader) (run : List (NetworkEvent ι)) :
    Machine.occurrences step (fun net e => e.node ∈ nodes ∧ e.Takes net h) net run ≤
      nodes.card := by
  calc
    Machine.occurrences step (fun net e => e.node ∈ nodes ∧ e.Takes net h) net run
        ≤ (missing nodes h net).card :=
      Machine.occurrences_le Increasing (fun net => (missing nodes h net).card)
        (fun _ _ _ hinc next => ⟨hinc.step next, missing_step hinc next⟩) increasing run
    _ ≤ nodes.card := Finset.card_filter_le _ _

/-- From any reached nodes on, however items are sent around between them, each
node accepts a block with a given header at most once and broadcasts it at most
once, so a network makes at most as many broadcasts of it as it has nodes. -/
theorem floods_at_most_once [Fintype ι] {start : ι → Node} (reached : ∀ i, (start i).Reached)
    (h : BlockHeader) (run : List (NetworkEvent ι)) :
    (∀ i, Machine.occurrences step (fun net e => e.node = i ∧ e.Takes net h)
        (fun i => (start i).chain) run ≤ 1) ∧
      (∀ i, Machine.occurrences step (fun net e => e.node = i ∧ e.Broadcasts net h)
        (fun i => (start i).chain) run ≤ 1) ∧
      Machine.occurrences step (fun net e => e.Broadcasts net h)
        (fun i => (start i).chain) run ≤ Fintype.card ι := by
  have increasing : Increasing fun i => (start i).chain := fun i =>
    (Node.ReachedBy.stored (reached i)).1.checked.timestamps_lt
  refine ⟨fun i => ?_, fun i => ?_, ?_⟩
  · apply le_trans _ (takes_le increasing {i} h run)
    apply Machine.occurrences_mono
    intro net e htakes
    exact ⟨Finset.mem_singleton.mpr htakes.1, htakes.2⟩
  · -- a node broadcasts only what it takes
    apply le_trans _ (takes_le increasing {i} h run)
    apply Machine.occurrences_mono
    intro net e hbroadcasts
    exact ⟨Finset.mem_singleton.mpr hbroadcasts.1, hbroadcasts.2.takes⟩
  · apply le_trans _ (takes_le increasing Finset.univ h run)
    apply Machine.occurrences_mono
    intro net e hbroadcasts
    exact ⟨Finset.mem_univ _, hbroadcasts.takes⟩

omit [Crates] in
/-- Two fresh nodes that receive the first block over and over broadcast it once each. -/
theorem floods_at_most_once_genesis :
    letI := StandIn.crates
    ∃ run : List (NetworkEvent (Fin 2)),
      Machine.occurrences step (fun net e => e.Broadcasts net StandIn.genesis.header)
          (fun _ => Node.new.chain) run = 2 ∧
        (∀ i, Machine.occurrences step
          (fun net e => e.node = i ∧ e.Broadcasts net StandIn.genesis.header)
          (fun _ => Node.new.chain) run ≤ 1) := by
  let := StandIn.crates
  refine ⟨[.arrive 0 0 (.submitTemplate "miner" StandIn.genesis),
    .arrive 1 0 (.newBlock "peer" StandIn.genesis),
    .arrive 0 0 (.subscribedBlock "peer" StandIn.genesis), .download 1 StandIn.genesis,
    .arrive 1 0 (.rpcSubmitTemplate StandIn.genesis)], by decide +kernel, ?_⟩
  exact (floods_at_most_once (fun _ => .refl) StandIn.genesis.header _).2.1

end Network

end ToyBtc
