import ToyBtc.TcpNetwork
import ToyBtc.Flooding
import ToyBtc.History

/-!
# Agreement over TCP

Whether a node accepts a block depends on nothing but its blocks, and so the
chains of nodes that pass on what they accept are logs flooded over ordered
links. When no block is under way between two nodes that write to each other,
they have the same chain, or their chains have parted for good.

## Implementation notes

A block that is downloaded is not passed on, and a connection carries what is
accepted after it was entered. Both are in order where they leave no peer
behind.
-/

namespace ToyBtc

open Flooding Growth

namespace Tcp

/-- The blocks among messages. -/
def blocksOf (inbox : List Message) : List Block :=
  inbox.filterMap fun m =>
    match m with
    | .newBlock b => some b
    | _ => none

theorem mem_blocksOf {inbox : List Message} {b : Block} :
    b ∈ blocksOf inbox ↔ Message.newBlock b ∈ inbox := by
  rw [blocksOf, List.mem_filterMap]
  constructor
  · rintro ⟨m, hm, hb⟩
    cases m <;> cases hb
    exact hm
  · intro hb
    exact ⟨_, hb, rfl⟩

theorem blocksOf_concat_block (inbox : List Message) (b : Block) :
    blocksOf (inbox ++ [.newBlock b]) = blocksOf inbox ++ [b] := by
  simp [blocksOf]

theorem blocksOf_concat_of_not_block (inbox : List Message) {m : Message}
    (h : ∀ b, m ≠ .newBlock b) : blocksOf (inbox ++ [m]) = blocksOf inbox := by
  cases m with
  | newBlock b => exact absurd rfl (h b)
  | _ => simp [blocksOf]

/-- Reading takes a block off the blocks under way, or another message. -/
theorem blocksOf_tail (inbox : List Message) :
    blocksOf inbox.tail = blocksOf inbox ∨
      ∃ b, inbox.head? = some (.newBlock b) ∧ blocksOf inbox = b :: blocksOf inbox.tail := by
  cases inbox with
  | nil => exact Or.inl rfl
  | cons m rest =>
      cases m with
      | newBlock b => exact Or.inr ⟨b, rfl, rfl⟩
      | _ => exact Or.inl rfl

namespace Net

variable {ι : Type*}

/-- The connection is open, and its opener writes its broadcasts to it. -/
def Active (net : Net ι) (c : Nat) (k : Connection ι) : Prop :=
  k.isOpen = true ∧ (net.nodes k.opener k.addr).map Prod.fst = some c

instance (net : Net ι) (c : Nat) (k : Connection ι) : Decidable (net.Active c k) :=
  inferInstanceAs (Decidable (_ ∧ _))

/-- The network as logs and links: the blocks of the nodes, and the blocks under way on
the active connections. -/
def flood (net : Net ι) : State ι Nat Block where
  log i := (net.chains i).blocks
  link c :=
    match net.connections[c]? with
    | some k => if net.Active c k then some ⟨k.opener, k.acceptor, blocksOf k.inbox⟩ else none
    | none => none

theorem flood_link_iff {net : Net ι} {c : Nat} {l : Link ι Block} :
    net.flood.link c = some l ↔ ∃ k, net.connections[c]? = some k ∧ net.Active c k ∧
      l = ⟨k.opener, k.acceptor, blocksOf k.inbox⟩ := by
  cases hk : net.connections[c]? with
  | none => simp [flood, hk]
  | some k => simp [flood, hk, eq_comm]

theorem active_entry {net : Net ι} {c : Nat} {k : Connection ι} (h : net.Active c k) :
    ∃ skipAddr, net.nodes k.opener k.addr = some (c, skipAddr) := by
  obtain ⟨⟨c', skipAddr⟩, he, heq⟩ := Option.map_eq_some_iff.mp h.2
  cases heq
  exact ⟨skipAddr, he⟩

end Net

end Tcp

variable [Crates]

/-- The block makes a longer valid chain, and no adjustment on the way unwinds. -/
def Follows (bs : List Block) (b : Block) : Prop :=
  ValidChain (bs ++ [b]) ∧ (chainTarget (bs ++ [b])).isSome = true

theorem CheckedChain.not_mem {bs : List Block} {b : Block} (checked : CheckedChain (bs ++ [b])) :
    b ∉ bs := by
  intro hmem
  have hlater := (List.pairwise_append.mp checked.timestamps_lt).2.2 b hmem b (by simp)
  exact hlater.false

theorem Follows.not_mem {bs : List Block} {b : Block} (h : Follows bs b) : b ∉ bs :=
  CheckedChain.not_mem (ValidChain.checked h.1)

theorem Blockchain.Stored.not_mem {s : Blockchain} {b : Block} (hs : s.Stored)
    (h : s.PassesChecks b) : b ∉ s.blocks :=
  (hs.storeBlock h).checked.not_mem

namespace Blockchain

/-- The stored data fits together, and the target is the one the blocks decide. -/
structure Settled (s : Blockchain) : Prop where
  sound : s.Sound
  adjusted : s.Adjusted

/-- Whether a block is accepted depends on the blocks alone. -/
theorem Settled.follows_iff {s : Blockchain} (hs : s.Settled) {b : Block} :
    Follows s.blocks b ↔ s.PassesChecks b ∧ ¬ s.Unwinds b := by
  have htarget : chainTarget (s.blocks ++ [b]) = adjustedTarget (s.blocks ++ [b]) s.target := by
    rw [chainTarget_concat, hs.adjusted]
    rfl
  rw [Follows, htarget, Unwinds]
  constructor
  · rintro ⟨valid, hsome⟩
    have hpasses : s.PassesChecks b := passesChecks_iff.mpr
      (valid.of_concat.2.congr fun k _ => (congrFun hs.sound.outputs k).symm)
    refine ⟨hpasses, fun hunwinds => ?_⟩
    rw [hunwinds.2] at hsome
    cases hsome
  · rintro ⟨hpasses, hreturns⟩
    refine ⟨hs.sound.valid.concat (hs.sound.extends hpasses), ?_⟩
    exact Option.ne_none_iff_isSome.mp fun hnone => hreturns ⟨hpasses, hnone⟩

theorem Settled.step {s t : Blockchain} {c : Call} (hs : s.Settled) (returns : c.Returns s)
    (h : s.step c = some t) : t.Settled :=
  ⟨hs.sound.step returns h, hs.adjusted.step returns h⟩

/-- A block leaves a settled chain longer by it, or as it was. -/
theorem Settled.step_addBlock {s t : Blockchain} {b : Block} (hs : s.Settled)
    (returns : ¬ s.Unwinds b) (h : s.step (.addBlock b) = some t) :
    Follows s.blocks b ∧ t.blocks = s.blocks ++ [b] ∨ ¬ Follows s.blocks b ∧ t = s := by
  rw [hs.follows_iff]
  rcases step_addBlock_cases h with ⟨added, hadded, rfl⟩ | ⟨hunwinds, -⟩ | ⟨hrefused, rfl⟩
  · have hpasses := (adjust_of_addBlock hadded).1
    exact Or.inl ⟨⟨hpasses, returns⟩, (hs.sound.stored.rebuild_addBlock hadded).1⟩
  · exact absurd hunwinds returns
  · exact Or.inr ⟨fun hpasses => hrefused hpasses.1, rfl⟩

/-- What a handler that returns does to a settled chain: it accepts a block and passes
it on, or it leaves the blocks as they are and passes on no block. -/
theorem Settled.handle {s : Blockchain} (hs : s.Settled) {m : Incoming} {now : DateTime}
    (returns : (m.call now).Returns s) :
    (m.handle s now).chain.Settled ∧
      ((∃ b skipAddr, m.item = .block b ∧ Follows s.blocks b ∧
          (m.handle s now).broadcast = some ⟨.block b, skipAddr⟩ ∧
          (m.handle s now).chain.blocks = s.blocks ++ [b]) ∨
        (m.handle s now).chain.blocks = s.blocks ∧
          (∀ b, m.item = .block b → ¬ Follows s.blocks b) ∧
          ∀ x, (m.handle s now).broadcast = some x → ∃ tx, x.item = .transaction tx) := by
  refine ⟨hs.step returns (m.handle_step s now), ?_⟩
  rcases m.handle_block_cases s now with
    ⟨b, skipAddr, hitem, hpasses, hreturns, hblocks, hbroadcast⟩ | ⟨b, hitem, hunwinds, -⟩ |
      ⟨hrefused, hblocks, hbroadcast⟩
  · exact Or.inl ⟨b, skipAddr, hitem, hs.follows_iff.mpr ⟨hpasses, hreturns⟩, hbroadcast, hblocks⟩
  · rw [Incoming.call, hitem] at returns
    exact absurd hunwinds returns
  · refine Or.inr ⟨hblocks, fun b hb hfollows => ?_, hbroadcast⟩
    exact hrefused b hb (hs.follows_iff.mp hfollows).1

end Blockchain

namespace Tcp

namespace Net

variable {ι : Type*}

/-! ### What is under way has been stored -/

/-- A block under way is in the chain of its sender. -/
def Sent (net : Net ι) : Prop :=
  ∀ k ∈ net.connections, ∀ b ∈ blocksOf k.inbox, b ∈ (net.chains k.opener).blocks

namespace Sent

variable {d : Directory ι} {net net' : Net ι}

omit [Crates]

theorem modify (h : net.Sent) {c : Nat} {f : Connection ι → Connection ι}
    (hf : ∀ k, (f k).toEnds = k.toEnds)
    (hinbox : ∀ k, ∀ b ∈ blocksOf (f k).inbox, b ∈ blocksOf k.inbox) : (net.modify c f).Sent := by
  intro k' hk' b hb
  obtain ⟨k, hk, rfl | ⟨rfl, -⟩⟩ := mem_modify hk'
  · exact h k' hk b hb
  · rw [hf k]
    exact h k hk b (hinbox k b hb)

theorem finish (h : net.Sent) (c : Nat) (ending : Ending) : (net.finish c ending).Sent :=
  h.modify (fun _ => rfl) fun _ _ hb =>
    mem_blocksOf.mpr (List.mem_of_mem_tail (mem_blocksOf.mp hb))

variable [DecidableEq ι]

theorem setChain (h : net.Sent) {i : ι} {s : Blockchain}
    (hgrows : (net.chains i).blocks <+: s.blocks) : (net.setChain i s).Sent :=
  fun k hk b hb => (blocks_isPrefix_setChain hgrows k.opener).subset (h k hk b hb)

theorem broadcast (h : net.Sent) {i : ι} {x : Broadcast}
    (hx : ∀ b, x.item = .block b → b ∈ (net.chains i).blocks) (fails : String → Bool) :
    (net.broadcast i x fails).Sent := by
  intro k' hk' b hb
  obtain ⟨n, hn⟩ := List.mem_iff_getElem?.mp hk'
  obtain ⟨k, hk, hends, -, hinbox⟩ := connections_broadcast hn
  rw [hends]
  rcases hinbox with ⟨hreaches, hinbox⟩ | ⟨-, hinbox⟩
  · rw [mem_blocksOf, hinbox, List.mem_append, List.mem_singleton] at hb
    rcases hb with hold | hnew
    · exact h k (List.mem_of_getElem? hk) b (mem_blocksOf.mpr hold)
    · rw [opener_of_reaches hreaches]
      refine hx b ?_
      cases hitem : x.item with
      | block b' =>
          rw [hitem] at hnew
          cases hnew
          rfl
      | transaction tx =>
          rw [hitem] at hnew
          cases hnew
  · exact h k (List.mem_of_getElem? hk) b (hinbox ▸ hb)

theorem add (h : net.Sent) {i j : ι} {addr sourceAddr : String} {skipAddr : Option String}
    {sent : List Message} (hsent : blocksOf sent = []) :
    (net.add i addr j sourceAddr skipAddr sent).Sent := by
  intro k hk b hb
  rcases List.mem_append.mp hk with hold | hnew
  · exact h k hold b hb
  · rw [List.mem_singleton.mp hnew, hsent] at hb
    cases hb

theorem callPeers (h : net.Sent) {i : ι} {skipSourceAddr sourceAddr : String}
    {call : Option PeerCall}
    (next : net.callPeers d i skipSourceAddr sourceAddr call = some net') : net'.Sent := by
  unfold Net.callPeers at next
  split at next
  · cases next
    exact h
  · cases next
    exact h
  · obtain ⟨j, -, rfl⟩ := Option.map_eq_some_iff.mp next
    exact h.add rfl

variable [Crates]

theorem pass (h : net.Sent) (i : ι) (env : Ambient) (sourceAddr : String) (m : Message)
    (fails : String → Bool) :
    (net.pass i (Handler.processMessage (net.chains i) env sourceAddr m) fails).Sent := by
  have hset := h.setChain (Handler.blocks_isPrefix_processMessage (net.chains i) env sourceAddr m)
  unfold Net.pass
  split
  · next x hx =>
      refine hset.broadcast (fun b hb => ?_) fails
      simpa [Net.setChain] using Handler.mem_of_processMessage_broadcast hx hb
  · exact hset

theorem step (h : net.Sent) {e : NetEvent ι} (next : net.step d e = some net') : net'.Sent := by
  cases e with
  | connect i addr sourceAddr =>
      obtain ⟨j, -, -, rfl⟩ := step_connect_iff.mp next
      exact h.add rfl
  | subscribe i addr =>
      obtain ⟨e, -, rfl⟩ := Option.map_eq_some_iff.mp next
      refine h.modify (fun _ => rfl) fun k b hb => ?_
      rwa [blocksOf_concat_of_not_block _ (by simp)] at hb
  | read c env fails sourceAddr =>
      obtain ⟨e, m, rest, called, -, hcalled, rfl⟩ := step_read_iff.mp next
      exact ((h.pass _ env _ m fails).callPeers hcalled).finish c _
  | client i sourceAddr m env fails =>
      obtain ⟨-, rfl⟩ := step_client_iff.mp next
      exact h.pass i env sourceAddr m fails
  | download i b =>
      obtain ⟨s, hs, rfl⟩ := step_download_iff.mp next
      exact h.setChain (Blockchain.blocks_isPrefix_step hs)
  | rebuildUtxoSet i =>
      cases next
      exact h.setChain (s := (net.chains i).rebuildUtxoSet) (List.prefix_refl _)
  | tryAdjustTarget i =>
      rcases step_tryAdjustTarget_cases next with ⟨s, hadjust, rfl⟩ | rfl
      · refine h.setChain ?_
        rw [Blockchain.blocks_tryAdjustTarget hadjust]
      · exact h
  | cleanupMempool i now =>
      cases next
      exact h.setChain (s := (net.chains i).cleanupMempool now) (List.prefix_refl _)
  | cut c =>
      cases next
      exact h.modify (fun _ => rfl) fun _ _ hb => hb

end Sent

omit [Crates] in
/-- A block that comes in from a peer is in the chain of the peer. -/
theorem Sent.sender_has {d : Directory ι} {net : Net ι} (h : net.Sent) (coherent : net.Coherent d)
    {c : Nat} {e : Ends ι} {m : Message} {rest : List Message} {x : Incoming} {b : Block}
    (hk : net.connections[c]? = some ⟨e, m :: rest, true⟩)
    (hin : m.incoming e.sourceAddr = some x) (hitem : x.item = .block b) :
    b ∈ (net.chains e.opener).blocks := by
  have hmem := List.mem_of_getElem? hk
  have hnamed := coherent.named _ hmem m List.mem_cons_self
  refine h _ hmem b (mem_blocksOf.mpr ?_)
  cases m with
  | newBlock b' =>
      cases hin
      cases hitem
      exact List.mem_cons_self
  | newTransaction tx =>
      cases hin
      cases hitem
  | submitTemplate | submitTransaction => exact hnamed.elim
  | _ => cases hin

/-! ### What the links carry -/

/-- The chains are settled, and the links carry what their targets lack. -/
structure Flooded (net : Net ι) : Prop where
  settled : ∀ i, (net.chains i).Settled
  flooding : Invariant Follows net.flood

section Operations

variable {net : Net ι}

/-- Reading takes off a message that is no block to be accepted, and closing or cutting
a connection takes it away altogether. -/
theorem Flooded.modify (h : net.Flooded) {c : Nat} {f : Connection ι → Connection ι}
    (hf : ∀ k, (f k).toEnds = k.toEnds) (hopen : ∀ k, (f k).isOpen = true → k.isOpen = true)
    (hinbox : ∀ k, net.connections[c]? = some k →
      blocksOf (f k).inbox = blocksOf k.inbox ∨
        (f k).inbox = k.inbox.tail ∧ ∀ b, k.inbox.head? = some (.newBlock b) →
          ¬ Follows (net.chains k.acceptor).blocks b) :
    (net.modify c f).Flooded := by
  refine ⟨h.settled, h.flooding.drop rfl fun c' l' hl' => ?_⟩
  obtain ⟨k', hk', hactive, rfl⟩ := flood_link_iff.mp hl'
  obtain ⟨k, hk, hcase⟩ := getElem?_modify_eq_some_iff.mp hk'
  rcases hcase with ⟨rfl, rfl⟩ | ⟨-, rfl⟩
  · have hactive' : net.Active c k := ⟨hopen k hactive.1, hf k ▸ hactive.2⟩
    refine ⟨_, flood_link_iff.mpr ⟨k, hk, hactive', rfl⟩, by rw [hf k], by rw [hf k], ?_⟩
    rcases hinbox k hk with hsame | ⟨htail, hhead⟩
    · exact Or.inl hsame
    · rw [htail]
      rcases blocksOf_tail k.inbox with hsame | ⟨b, hb, hblocks⟩
      · exact Or.inl hsame
      · exact Or.inr ⟨b, hblocks, hhead b hb⟩
  · exact ⟨_, flood_link_iff.mpr ⟨k, hk, hactive, rfl⟩, rfl, rfl, Or.inl rfl⟩

variable [DecidableEq ι]

omit [Crates] in
/-- An active connection after a broadcast: the message has been written to it, or it was
not to be. -/
theorem active_broadcast {i : ι} {x : Broadcast} {fails : String → Bool} {c : Nat}
    {k' : Connection ι} (hk' : (net.broadcast i x fails).connections[c]? = some k')
    (hactive : (net.broadcast i x fails).Active c k') :
    ∃ k, net.connections[c]? = some k ∧ net.Active c k ∧ k'.toEnds = k.toEnds ∧
      ((k.opener = i ∧ k'.inbox = k.inbox ++ [x.item.message]) ∨
        k'.inbox = k.inbox ∧ (k.opener = i →
          ∃ skipAddr, net.nodes i k.addr = some (c, skipAddr) ∧ ¬ GoesTo x skipAddr)) := by
  obtain ⟨k, hk, hends, hopen, hinbox⟩ := connections_broadcast hk'
  obtain ⟨skipAddr, hentry'⟩ := active_entry hactive
  rw [hends] at hentry'
  obtain ⟨hentry, hkept⟩ := nodes_broadcast hentry'
  refine ⟨k, hk, ⟨hopen ▸ hactive.1, by rw [hentry]; rfl⟩, hends, ?_⟩
  rcases hinbox with ⟨hreaches, hinbox⟩ | ⟨hreaches, hinbox⟩
  · exact Or.inl ⟨opener_of_reaches hreaches, hinbox⟩
  · refine Or.inr ⟨hinbox, ?_⟩
    rintro rfl
    refine ⟨skipAddr, hentry, fun hgoes => ?_⟩
    -- the write has not failed, since the entry is still there
    have hfails : fails k.addr = false := by
      simpa [hgoes] using hkept rfl
    rw [reaches, hentry] at hreaches
    exact of_decide_eq_false hreaches ⟨rfl, rfl, hgoes, hfails⟩

omit [Crates] in
theorem log_setChain (i : ι) (s : Blockchain) :
    (net.setChain i s).flood.log = Function.update net.flood.log i s.blocks := by
  funext j
  by_cases hj : j = i
  · subst hj
    simp [flood, setChain]
  · simp [flood, setChain, hj]

theorem Flooded.settled_setChain (h : net.Flooded) {i : ι} {s : Blockchain} (hs : s.Settled)
    (j : ι) : ((net.setChain i s).chains j).Settled := by
  by_cases hj : j = i
  · subst hj
    simpa [setChain] using hs
  · simpa [setChain, hj] using h.settled j

/-- A call that leaves the blocks as they are leaves the network as it is. -/
theorem Flooded.setChain_of_blocks_eq (h : net.Flooded) {i : ι} {s : Blockchain}
    (hs : s.Settled) (hblocks : s.blocks = (net.chains i).blocks) :
    (net.setChain i s).Flooded := by
  have hlog : (net.setChain i s).flood.log = net.flood.log := by
    rw [log_setChain, hblocks]
    exact Function.update_eq_self i net.flood.log
  exact ⟨h.settled_setChain hs, h.flooding.connect hlog fun c l hl => Or.inl hl⟩

/-- A block is appended and not passed on, where that leaves no peer behind. -/
theorem Flooded.setChain_of_follows (h : net.Flooded) {i : ι} {s : Blockchain} {b : Block}
    (hs : s.Settled) (hfollows : Follows (net.chains i).blocks b)
    (hblocks : s.blocks = (net.chains i).blocks ++ [b])
    (habreast : ∀ c k, net.connections[c]? = some k → net.Active c k → k.opener = i →
      ¬ Behind (net.chains k.acceptor).blocks ((net.chains i).blocks ++ [b])) :
    (net.setChain i s).Flooded := by
  refine ⟨h.settled_setChain hs,
    h.flooding.append hfollows (by rw [log_setChain, hblocks]; rfl) fun c l hl => ?_⟩
  obtain ⟨k, hk, hactive, rfl⟩ := flood_link_iff.mp hl
  exact ⟨_, flood_link_iff.mpr ⟨k, hk, hactive, rfl⟩, rfl, rfl,
    Or.inr ⟨rfl, habreast c k hk hactive⟩⟩

/-- A broadcast of something else than a block. -/
theorem Flooded.broadcast_of_not_block (h : net.Flooded) (i : ι) {x : Broadcast}
    (hx : ∀ b, x.item.message ≠ .newBlock b) (fails : String → Bool) :
    (net.broadcast i x fails).Flooded := by
  refine ⟨h.settled, h.flooding.drop rfl fun c l hl => ?_⟩
  obtain ⟨k', hk', hactive', rfl⟩ := flood_link_iff.mp hl
  obtain ⟨k, hk, hactive, hends, hinbox⟩ := active_broadcast hk' hactive'
  refine ⟨_, flood_link_iff.mpr ⟨k, hk, hactive, rfl⟩, by rw [hends], by rw [hends], Or.inl ?_⟩
  rcases hinbox with ⟨-, hinbox⟩ | ⟨hinbox, -⟩
  · rw [hinbox, blocksOf_concat_of_not_block _ hx]
  · rw [hinbox]

/-- A block is appended and passed on to all peers but those that are not behind with it. -/
theorem Flooded.broadcast_of_follows (h : net.Flooded) {i : ι} {s : Blockchain} {b : Block}
    {skipAddr : Option String} (fails : String → Bool)
    (hs : s.Settled) (hfollows : Follows (net.chains i).blocks b)
    (hblocks : s.blocks = (net.chains i).blocks ++ [b])
    (habreast : ∀ c k skipAddr', net.connections[c]? = some k →
      net.nodes i k.addr = some (c, skipAddr') → ¬ GoesTo ⟨.block b, skipAddr⟩ skipAddr' →
        ¬ Behind (net.chains k.acceptor).blocks ((net.chains i).blocks ++ [b])) :
    ((net.setChain i s).broadcast i ⟨.block b, skipAddr⟩ fails).Flooded := by
  have hlog : ((net.setChain i s).broadcast i ⟨.block b, skipAddr⟩ fails).flood.log =
      Function.update net.flood.log i ((net.chains i).blocks ++ [b]) := by
    rw [← hblocks]
    exact log_setChain i s
  refine ⟨h.settled_setChain hs, h.flooding.append hfollows hlog fun c l hl => ?_⟩
  obtain ⟨k', hk', hactive', rfl⟩ := flood_link_iff.mp hl
  obtain ⟨k, hk, hactive, hends, hinbox⟩ := active_broadcast hk' hactive'
  refine ⟨_, flood_link_iff.mpr ⟨k, hk, hactive, rfl⟩, by rw [hends], by rw [hends], ?_⟩
  rcases hinbox with ⟨hopener, hinbox⟩ | ⟨hinbox, hskipped⟩
  · exact Or.inl ⟨hopener, by rw [hinbox, Item.message, blocksOf_concat_block]⟩
  · refine Or.inr ⟨by rw [hinbox], fun hopener => ?_⟩
    obtain ⟨skipAddr', hentry, hnot⟩ := hskipped hopener
    exact habreast c k skipAddr' hk hentry hnot

omit [Crates] in
theorem active_updateSkipAddr {i : ι} {peerAddr a : String} {c : Nat} {k : Connection ι}
    (h : (net.updateSkipAddr i peerAddr a).Active c k) : net.Active c k := by
  refine ⟨h.1, ?_⟩
  rw [← h.2]
  by_cases hi : k.opener = i
  · by_cases haddr : k.addr = peerAddr
    · subst hi haddr
      simp [updateSkipAddr, Function.comp_def]
    · simp [updateSkipAddr, hi, haddr]
  · simp [updateSkipAddr, hi]

omit [Crates] in
/-- An active connection after one was opened: it was active before, or is the new one. -/
theorem active_add {i j : ι} {addr sourceAddr : String}
    {skipAddr : Option String} {sent : List Message} {c : Nat} {k : Connection ι}
    (hk : (net.add i addr j sourceAddr skipAddr sent).connections[c]? = some k)
    (hactive : (net.add i addr j sourceAddr skipAddr sent).Active c k) :
    net.connections[c]? = some k ∧ net.Active c k ∨ k = ⟨⟨i, addr, j, sourceAddr⟩, sent, true⟩ := by
  rcases getElem?_concat_eq_some_iff.mp hk with hold | ⟨-, rfl⟩
  · refine Or.inl ⟨hold, hactive.1, ?_⟩
    obtain ⟨skipAddr', hentry⟩ := active_entry hactive
    by_cases hi : k.opener = i
    · by_cases haddr : k.addr = addr
      · -- the entry is the new connection
        simp only [add, hi, haddr, Function.update_self, Option.some.injEq, Prod.mk.injEq]
          at hentry
        rw [← hentry.1] at hold
        simp at hold
      · simp only [add, hi, Function.update_self, Function.update_of_ne haddr] at hentry
        rw [hi, hentry]
        rfl
    · simp only [add, Function.update_of_ne hi] at hentry
      rw [hentry]
      rfl
  · exact Or.inr rfl

/-- A connection is opened to a node that is not behind, with no block on it. -/
theorem Flooded.add (h : net.Flooded) {i j : ι} {addr sourceAddr : String}
    {skipAddr : Option String} {sent : List Message} (hsent : blocksOf sent = [])
    (habreast : ¬ Behind (net.chains j).blocks (net.chains i).blocks) :
    (net.add i addr j sourceAddr skipAddr sent).Flooded := by
  refine ⟨h.settled, h.flooding.connect rfl fun c l hl => ?_⟩
  obtain ⟨k, hk, hactive, rfl⟩ := flood_link_iff.mp hl
  rcases active_add hk hactive with ⟨hold, hactive⟩ | rfl
  · exact Or.inl (flood_link_iff.mpr ⟨k, hold, hactive, rfl⟩)
  · exact Or.inr ⟨hsent, habreast⟩

theorem Flooded.updateSkipAddr (h : net.Flooded) (i : ι) (peerAddr a : String) :
    (net.updateSkipAddr i peerAddr a).Flooded := by
  refine ⟨h.settled, h.flooding.connect rfl fun c l hl => Or.inl ?_⟩
  obtain ⟨k, hk, hactive, rfl⟩ := flood_link_iff.mp hl
  exact flood_link_iff.mpr ⟨k, hk, active_updateSkipAddr hactive, rfl⟩

omit [DecidableEq ι] in
/-- The round has taken a message off that is no block to be accepted. -/
theorem Flooded.finish (h : net.Flooded) {c : Nat} (ending : Ending)
    (hhead : ∀ k b, net.connections[c]? = some k → k.inbox.head? = some (.newBlock b) →
      ¬ Follows (net.chains k.acceptor).blocks b) : (net.finish c ending).Flooded :=
  h.modify (fun _ => rfl) (fun _ hopen => (Bool.and_eq_true_iff.mp hopen).1) fun k hk =>
    Or.inr ⟨rfl, fun b => hhead k b hk⟩

end Operations

section Step

variable [DecidableEq ι] {d : Directory ι} {net net' : Net ι}

omit [DecidableEq ι] [Crates] in
/-- The next message of the connection is a subscription. -/
def asksBack (k : Connection ι) : Bool :=
  match k.inbox.head? with
  | some (.subscribe _) => true
  | _ => false

/-- Nobody else has connected to the node from the address. -/
def KeepsApart (net : Net ι) (i j : ι) (sourceAddr : String) : Prop :=
  ∀ k ∈ net.connections, k.acceptor = j → k.sourceAddr = sourceAddr → k.opener = i

instance (net : Net ι) (i j : ι) (sourceAddr : String) :
    Decidable (net.KeepsApart i j sourceAddr) :=
  inferInstanceAs (Decidable (∀ k ∈ net.connections, _))

/-- The event leaves no peer behind: a connection is opened to a node that is not
behind, and from an address that nobody else has connected from; no peer has connected
from the address of a client; a download does not overtake a peer; no adjustment unwinds,
and the target is not adjusted a second time. -/
def Orderly (d : Directory ι) (net : Net ι) : NetEvent ι → Prop
  | .connect i addr sourceAddr => ∀ j ∈ d.listener addr,
      net.KeepsApart i j sourceAddr ∧ ¬ Behind (net.chains j).blocks (net.chains i).blocks
  | .read c env _ sourceAddr => ∀ k ∈ net.connections[c]?,
      (asksBack k = true → net.KeepsApart k.acceptor k.opener sourceAddr ∧
        ¬ Behind (net.chains k.opener).blocks (net.chains k.acceptor).blocks) ∧
      ∀ m ∈ k.inbox.head?, ∀ x ∈ m.incoming k.sourceAddr,
        (x.call env.now).Returns (net.chains k.acceptor)
  | .client i sourceAddr m env _ =>
      (∀ k ∈ net.connections, k.acceptor = i → k.sourceAddr ≠ sourceAddr) ∧
        ∀ x ∈ m.incoming sourceAddr, (x.call env.now).Returns (net.chains i)
  | .download i b => ¬ (net.chains i).Unwinds b ∧
      ((net.chains i).PassesChecks b → ∀ c < net.connections.length,
        ∀ k ∈ net.connections[c]?, net.Active c k → k.opener = i →
          ¬ Behind (net.chains k.acceptor).blocks ((net.chains i).blocks ++ [b]))
  | .tryAdjustTarget i => ¬ AtAdjustment (net.chains i).blocks
  | _ => True

instance (d : Directory ι) (net : Net ι) : ∀ e, Decidable (net.Orderly d e)
  | .connect _ addr _ => inferInstanceAs (Decidable (∀ j ∈ d.listener addr, _))
  | .read c _ _ _ => inferInstanceAs (Decidable (∀ k ∈ net.connections[c]?, _))
  | .client .. => inferInstanceAs (Decidable ((∀ k ∈ net.connections, _) ∧ _))
  | .download _ _ => inferInstanceAs (Decidable (¬ _ ∧ (_ → ∀ c < net.connections.length, _)))
  | .tryAdjustTarget _ => inferInstanceAs (Decidable (¬ (_ ∧ _)))
  | .subscribe .. | .rebuildUtxoSet _ | .cleanupMempool .. | .cut _ => isTrue trivial

theorem pass_of_not_incoming {i : ι} {env : Ambient} {sourceAddr : String} {m : Message}
    (hin : m.incoming sourceAddr = none) (fails : String → Bool) :
    net.pass i (Handler.processMessage (net.chains i) env sourceAddr m) fails = net := by
  obtain ⟨hchain, hbroadcast⟩ :
      (Handler.processMessage (net.chains i) env sourceAddr m).chain = net.chains i ∧
        (Handler.processMessage (net.chains i) env sourceAddr m).broadcast = none :=
    Handler.processMessage_of_not_incoming hin
  rw [pass, hbroadcast, hchain, setChain, Function.update_eq_self]

/-- An item that comes in from an address that belongs to nobody but a node that has it. -/
theorem Flooded.pass (h : net.Flooded) {i : ι} {env : Ambient} {sourceAddr : String}
    {m : Message} {x : Incoming} (hin : m.incoming sourceAddr = some x)
    (returns : (x.call env.now).Returns (net.chains i))
    (hskipped : ∀ b c k, x.item = .block b →
      net.connections[c]? = some k → net.nodes i k.addr = some (c, some sourceAddr) →
        b ∈ (net.chains k.acceptor).blocks) (fails : String → Bool) :
    (net.pass i (Handler.processMessage (net.chains i) env sourceAddr m) fails).Flooded ∧
      ∀ b, x.item = .block b →
        ¬ Follows ((net.pass i (Handler.processMessage (net.chains i) env sourceAddr m)
          fails).chains i).blocks b := by
  have hskip : ∀ y, (x.handle (net.chains i) env.now).broadcast = some y →
      y.skipAddr = some sourceAddr := by
    intro y hy
    have hturn : (Handler.processMessage (net.chains i) env sourceAddr m).broadcast = some y := by
      rw [Handler.processMessage_of_incoming hin]
      exact hy
    exact Handler.processMessage_skipAddr hturn
  obtain ⟨hsettled, hcase⟩ := (h.settled i).handle returns
  rw [Handler.processMessage_of_incoming hin, Net.pass]
  rcases hcase with ⟨b, skipAddr, hitem, hfollows, hbroadcast, hblocks⟩ |
    ⟨hblocks, hrefused, hbroadcast⟩
  · have hown : skipAddr = some sourceAddr := hskip _ hbroadcast
    subst hown
    simp only [Turn.relays, hbroadcast]
    constructor
    · refine h.broadcast_of_follows fails hsettled hfollows hblocks fun c k skipAddr' hk hentry
        hnot => not_behind_concat ?_ hfollows.not_mem
      have hskipAddr : skipAddr' = some sourceAddr := by
        simpa [GoesTo] using hnot
      exact hskipped b c k hitem hk (hskipAddr ▸ hentry)
    · intro b' hb' hfollows'
      obtain rfl : b = b' := Item.block.inj (hitem.symm.trans hb')
      apply hfollows'.not_mem
      simp [Net.broadcast, setChain, hblocks]
  · have hpass := h.setChain_of_blocks_eq hsettled hblocks
    have hsame : ((net.setChain i (x.handle (net.chains i) env.now).chain).chains i).blocks =
        (net.chains i).blocks := by
      simp [setChain, hblocks]
    simp only [Turn.relays]
    cases hx : (x.handle (net.chains i) env.now).broadcast with
    | none => exact ⟨hpass, fun b hb => hsame ▸ hrefused b hb⟩
    | some y =>
        obtain ⟨tx, htx⟩ := hbroadcast y hx
        refine ⟨hpass.broadcast_of_not_block i ?_ fails, fun b hb => hsame ▸ hrefused b hb⟩
        simp [htx, Item.message]

omit [Crates] in
/-- A round keeps the message it works on at the front of its connection. -/
theorem head?_called {c : Nat} {i : ι} {turn : Turn} {fails : String → Bool}
    {skipSourceAddr sourceAddr : String} {e : Ends ι} {m : Message} {rest : List Message}
    {called : Net ι} (hk : net.connections[c]? = some ⟨e, m :: rest, true⟩)
    (hcalled : (net.pass i turn fails).callPeers d i skipSourceAddr sourceAddr turn.peers =
      some called) {k : Connection ι} (hk' : called.connections[c]? = some k) :
    k.toEnds = e ∧ k.isOpen = true ∧ k.inbox.head? = some m := by
  have hpass : ∀ {k'}, (net.pass i turn fails).connections[c]? = some k' →
      k'.toEnds = e ∧ k'.isOpen = true ∧ k'.inbox.head? = some m := by
    intro k' hk'
    rw [Net.pass] at hk'
    split at hk'
    · obtain ⟨k'', hk'', hends, hopen, hinbox⟩ := connections_broadcast hk'
      rw [setChain, hk] at hk''
      cases hk''
      refine ⟨hends, hopen, ?_⟩
      rcases hinbox with ⟨-, hinbox⟩ | ⟨-, hinbox⟩
      · rw [hinbox]
        rfl
      · rw [hinbox]
        rfl
    · rw [setChain, hk] at hk'
      cases hk'
      exact ⟨rfl, rfl, rfl⟩
  cases hpeers : turn.peers with
  | none =>
      rw [hpeers] at hcalled
      obtain rfl := Option.some.inj hcalled
      exact hpass hk'
  | some call =>
      rw [hpeers] at hcalled
      cases call with
      | updateSkipAddr peerAddr =>
          obtain rfl := Option.some.inj hcalled
          exact hpass hk'
      | add listenerAddr =>
          obtain ⟨j, -, rfl⟩ := Option.map_eq_some_iff.mp hcalled
          rcases getElem?_concat_eq_some_iff.mp hk' with hold | ⟨hlen, -⟩
          · exact hpass hold
          · -- the connection was there before
            have hlt := (List.getElem?_eq_some_iff.mp hk).1
            have hsame : (net.pass i turn fails).connections.length = net.connections.length := by
              simpa [ends] using congrArg List.length (ends_pass net i turn fails)
            omega

omit [DecidableEq ι] [Crates] in
/-- Two nodes that have connected to one node from one address are the same. -/
def Apart (net : Net ι) : Prop :=
  ∀ e ∈ net.ends, ∀ e' ∈ net.ends, e.acceptor = e'.acceptor → e.sourceAddr = e'.sourceAddr →
    e.opener = e'.opener

/-- Names are true and addresses tell the peers apart, what is under way has been stored,
and the links carry what their targets lack. -/
structure Carrying (d : Directory ι) (net : Net ι) : Prop where
  coherent : net.Coherent d
  apart : net.Apart
  sent : net.Sent
  flooded : net.Flooded

omit [DecidableEq ι] [Crates] in
theorem Apart.of_ends (h : net.Apart) (hends : net'.ends = net.ends) : net'.Apart := by
  rw [Apart, hends]
  exact h

omit [Crates] in
theorem Apart.add (h : net.Apart) {i j : ι} {addr sourceAddr : String} {skipAddr : Option String}
    {sent : List Message} (hkeeps : net.KeepsApart i j sourceAddr) :
    (net.add i addr j sourceAddr skipAddr sent).Apart := by
  have hends : (net.add i addr j sourceAddr skipAddr sent).ends =
      net.ends ++ [⟨i, addr, j, sourceAddr⟩] := by
    simp [Net.ends, Net.add]
  have hnew : ∀ e ∈ net.ends, e.acceptor = j → e.sourceAddr = sourceAddr → e.opener = i := by
    intro e he hacceptor hsource
    obtain ⟨k, hk, rfl⟩ := List.mem_map.mp he
    exact hkeeps k hk hacceptor hsource
  intro e he e' he' hacceptor hsource
  rw [hends, List.mem_append, List.mem_singleton] at he he'
  rcases he with he | rfl
  · rcases he' with he' | rfl
    · exact h e he e' he' hacceptor hsource
    · exact hnew e he hacceptor hsource
  · rcases he' with he' | rfl
    · exact (hnew e' he' hacceptor.symm hsource.symm).symm
    · rfl

omit [Crates] in
/-- A subscription is answered to the node that has sent it. -/
theorem Coherent.callPeers_subscribe (h : net.Coherent d) {c : Nat} {sourceAddr : String}
    {e : Ends ι} {listenerAddr : String} {rest : List Message} {called : Net ι}
    (hk : net.connections[c]? = some ⟨e, .subscribe listenerAddr :: rest, true⟩)
    (hcalled : net.callPeers d e.acceptor e.sourceAddr sourceAddr (some (.add listenerAddr)) =
      some called) :
    called = net.add e.acceptor (d.remoteAddr listenerAddr) e.opener sourceAddr
      (some e.sourceAddr) [.subscribeAck (d.subscriptionAddr e.acceptor)] := by
  have hnamed : listenerAddr = d.subscriptionAddr e.opener :=
    h.named _ (List.mem_of_getElem? hk) _ List.mem_cons_self
  obtain ⟨j, hj, rfl⟩ := Option.map_eq_some_iff.mp hcalled
  rw [hnamed, d.listener_subscriptionAddr] at hj
  cases hj
  rfl

theorem Apart.step (h : net.Apart) (coherent : net.Coherent d) {e : NetEvent ι}
    (orderly : net.Orderly d e) (next : net.step d e = some net') : net'.Apart := by
  cases e with
  | connect i addr sourceAddr =>
      obtain ⟨j, hlistener, -, rfl⟩ := step_connect_iff.mp next
      exact h.add (orderly j hlistener).1
  | subscribe i addr =>
      obtain ⟨e, -, rfl⟩ := Option.map_eq_some_iff.mp next
      exact h.of_ends (net.ends_modify _ fun _ => rfl)
  | read c env fails sourceAddr =>
      obtain ⟨e, m, rest, called, hk, hcalled, rfl⟩ := step_read_iff.mp next
      suffices hcalledApart : called.Apart from
        hcalledApart.of_ends (called.ends_modify c fun _ => rfl)
      cases hpeers : (Handler.processMessage (net.chains e.acceptor) env e.sourceAddr m).peers with
      | none =>
          rw [hpeers] at hcalled
          obtain rfl := Option.some.inj hcalled
          exact h.of_ends (ends_pass ..)
      | some call =>
          rw [hpeers] at hcalled
          rcases Handler.processMessage_peers hpeers with
            ⟨listenerAddr, rfl, rfl⟩ | ⟨peerAddr, rfl, rfl⟩
          · rw [pass_of_not_incoming rfl] at hcalled
            rw [coherent.callPeers_subscribe hk hcalled]
            exact h.add ((orderly _ hk).1 rfl).1
          · obtain rfl := Option.some.inj hcalled
            rw [pass_of_not_incoming rfl]
            exact h
  | client i sourceAddr m env fails =>
      obtain ⟨-, rfl⟩ := step_client_iff.mp next
      exact h.of_ends (ends_pass ..)
  | download i b =>
      obtain ⟨s, -, rfl⟩ := step_download_iff.mp next
      exact h
  | rebuildUtxoSet i => cases next; exact h
  | tryAdjustTarget i =>
      rcases step_tryAdjustTarget_cases next with ⟨s, -, rfl⟩ | rfl <;> exact h
  | cleanupMempool i now => cases next; exact h
  | cut c =>
      cases next
      exact h.of_ends (net.ends_modify _ fun _ => rfl)

omit [DecidableEq ι] in
/-- Who is skipped is the sender, and it has what it has sent. -/
theorem Carrying.skipped_has (h : net.Carrying d) {c c' : Nat} {e : Ends ι} {m : Message}
    {rest : List Message} {x : Incoming} {b : Block} {k : Connection ι}
    (hk : net.connections[c]? = some ⟨e, m :: rest, true⟩)
    (hin : m.incoming e.sourceAddr = some x) (hitem : x.item = .block b)
    (hk' : net.connections[c']? = some k)
    (hentry : net.nodes e.acceptor k.addr = some (c', some e.sourceAddr)) :
    b ∈ (net.chains k.acceptor).blocks := by
  have hends : net.ends[c']? = some k.toEnds := by
    rw [ends, List.getElem?_map, hk']
    rfl
  have he : e ∈ net.ends := List.mem_map_of_mem (List.mem_of_getElem? hk)
  obtain ⟨e', he', hacceptor, hsource, hopener⟩ := h.coherent.exists_connected hentry hends
  rw [← hopener, h.apart e' he' e he hacceptor hsource]
  exact h.sent.sender_has h.coherent hk hin hitem

/-- A message that brings no item opens a connection at most, to the node that asks. -/
theorem Carrying.flooded_called (h : net.Carrying d) {c : Nat} {env : Ambient}
    {fails : String → Bool} {sourceAddr : String} {e : Ends ι} {m : Message}
    {rest : List Message} {called : Net ι}
    (orderly : net.Orderly d (.read c env fails sourceAddr))
    (hk : net.connections[c]? = some ⟨e, m :: rest, true⟩)
    (hin : m.incoming e.sourceAddr = none)
    (hcalled : net.callPeers d e.acceptor e.sourceAddr sourceAddr
      (Handler.processMessage (net.chains e.acceptor) env e.sourceAddr m).peers = some called) :
    called.Flooded := by
  cases hpeers : (Handler.processMessage (net.chains e.acceptor) env e.sourceAddr m).peers with
  | none =>
      rw [hpeers] at hcalled
      obtain rfl := Option.some.inj hcalled
      exact h.flooded
  | some call =>
      rw [hpeers] at hcalled
      rcases Handler.processMessage_peers hpeers with
        ⟨listenerAddr, rfl, rfl⟩ | ⟨peerAddr, rfl, rfl⟩
      · rw [h.coherent.callPeers_subscribe hk hcalled]
        exact h.flooded.add rfl ((orderly _ hk).1 rfl).2
      · obtain rfl := Option.some.inj hcalled
        exact h.flooded.updateSkipAddr e.acceptor peerAddr e.sourceAddr

theorem Carrying.flooded_read (h : net.Carrying d) {c : Nat} {env : Ambient}
    {fails : String → Bool} {sourceAddr : String}
    (orderly : net.Orderly d (.read c env fails sourceAddr))
    (next : net.step d (.read c env fails sourceAddr) = some net') : net'.Flooded := by
  obtain ⟨e, m, rest, called, hk, hcalled, rfl⟩ := step_read_iff.mp next
  cases hin : m.incoming e.sourceAddr with
  | none =>
      have hcalled' := hcalled
      rw [pass_of_not_incoming hin] at hcalled
      refine (h.flooded_called orderly hk hin hcalled).finish _ fun k b hk' hhead => ?_
      rw [(head?_called hk hcalled' hk').2.2] at hhead
      cases hhead
      cases hin
  | some x =>
      have hpeers : (Handler.processMessage (net.chains e.acceptor) env e.sourceAddr
          m).peers = none := by
        rw [Handler.processMessage_of_incoming hin]
        rfl
      obtain ⟨hflooded, hrefused⟩ := h.flooded.pass hin ((orderly _ hk).2 m rfl x hin)
        (fun b c' k hitem hk' hentry => h.skipped_has hk hin hitem hk' hentry) fails
      have hcalled' := hcalled
      rw [hpeers, callPeers_none] at hcalled'
      obtain rfl := Option.some.inj hcalled'
      refine hflooded.finish _ fun k b hk' hhead => ?_
      obtain ⟨rfl, -, hm⟩ := head?_called hk hcalled hk'
      rw [hm] at hhead
      cases hhead
      cases hin
      exact hrefused b rfl

theorem Carrying.flooded_step (h : net.Carrying d) {e : NetEvent ι} (orderly : net.Orderly d e)
    (next : net.step d e = some net') : net'.Flooded := by
  cases e with
  | connect i addr sourceAddr =>
      obtain ⟨j, hlistener, -, rfl⟩ := step_connect_iff.mp next
      exact h.flooded.add rfl (orderly j hlistener).2
  | subscribe i addr =>
      obtain ⟨e, -, rfl⟩ := Option.map_eq_some_iff.mp next
      refine h.flooded.modify (fun _ => rfl) (fun _ => id) fun k _ => Or.inl ?_
      exact blocksOf_concat_of_not_block _ (by simp)
  | read c env fails sourceAddr => exact h.flooded_read orderly next
  | client i sourceAddr m env fails =>
      obtain ⟨-, rfl⟩ := step_client_iff.mp next
      cases hin : m.incoming sourceAddr with
      | none =>
          rw [pass_of_not_incoming hin]
          exact h.flooded
      | some x =>
          refine (h.flooded.pass hin (orderly.2 x hin) (fun b c k _ hk hentry => ?_) fails).1
          -- no peer writes from the address of a client
          obtain ⟨e, he, hsource, hacceptor, -⟩ := h.coherent.skips _ _ _ _ hentry
          obtain ⟨k', hk', rfl⟩ := List.mem_map.mp he
          exact absurd hsource (orderly.1 k' hk' hacceptor)
  | download i b =>
      obtain ⟨s, hs, rfl⟩ := step_download_iff.mp next
      have hsettled := (h.flooded.settled i).step (c := .addBlock b) orderly.1 hs
      rcases (h.flooded.settled i).step_addBlock orderly.1 hs with ⟨hfollows, hblocks⟩ | ⟨-, rfl⟩
      · refine h.flooded.setChain_of_follows hsettled hfollows hblocks fun c k hk => ?_
        exact orderly.2 ((h.flooded.settled i).follows_iff.mp hfollows).1 c
          (List.getElem?_eq_some_iff.mp hk).1 k hk
      · exact h.flooded.setChain_of_blocks_eq hsettled rfl
  | rebuildUtxoSet i =>
      cases next
      exact h.flooded.setChain_of_blocks_eq ⟨(h.flooded.settled i).sound.rebuild,
        (h.flooded.settled i).adjusted.of_frame rfl rfl⟩ rfl
  | tryAdjustTarget i =>
      rcases step_tryAdjustTarget_cases next with ⟨s, hadjust, rfl⟩ | rfl
      · rw [Blockchain.tryAdjustTarget_of_not_atAdjustment orderly] at hadjust
        cases hadjust
        exact h.flooded.setChain_of_blocks_eq (h.flooded.settled i) rfl
      · exact h.flooded
  | cleanupMempool i now =>
      cases next
      have hsettled := (h.flooded.settled i).step (c := .cleanupMempool now) trivial rfl
      exact h.flooded.setChain_of_blocks_eq hsettled rfl
  | cut c =>
      cases next
      exact h.flooded.modify (fun _ => rfl) (by simp) fun k _ => Or.inl rfl

theorem Carrying.step (h : net.Carrying d) {e : NetEvent ι} (orderly : net.Orderly d e)
    (next : net.step d e = some net') : net'.Carrying d :=
  ⟨h.coherent.step next, h.apart.step h.coherent orderly next, h.sent.step next,
    h.flooded_step orderly next⟩

end Step

end Net

end Tcp

end ToyBtc
