import ToyBtc.Retarget
import ToyBtc.History

/-!
# Synchronization with the longest peer

A node asks its peers how many blocks they are ahead, and downloads from the
one that is ahead the furthest what lies above its own height. It never gives
up a block of its own: the download carries its chain on where the peer's
chain starts with it, and stops where the two have parted.

## Implementation notes

The two chains do not change while the node synchronizes. A peer whose calls
fail has no chain to answer from.
-/

namespace ToyBtc

/-- The peers of a node by name, each with the chain that it answers from. -/
structure Peers where
  nodes : List (String × Option Blockchain)
  nodup : (nodes.map Prod.fst).Nodup

/-- How many blocks a node is ahead of `height`, as a signed word. -/
def NodeSvc.askDifference (s : Blockchain) (height : UInt64) : Int64 :=
  s.blockHeight.toInt64 - height.toInt64

/-- The blocks of a node from the specified height on. -/
def NodeSvc.fetchBlocks (s : Blockchain) (start nBlocks : UInt64) : List Block :=
  (s.blocks.drop start.toNat).take nBlocks.toNat

namespace Peers

/-- The loop over the peers, with the name and the lead of the best one so far. -/
def findLongest (height : UInt64) :
    List (String × Option Blockchain) → String → Int64 → String × Int64
  | [], longestName, longestCount => (longestName, longestCount)
  | (_, none) :: rest, longestName, longestCount =>
      findLongest height rest longestName longestCount
  | (node, some peer) :: rest, longestName, longestCount =>
      let count := NodeSvc.askDifference peer height
      if longestCount < count then findLongest height rest node count
      else findLongest height rest longestName longestCount

/-- The peer with the longest chain, and how far it is ahead. -/
def findLongestChainNode (peers : Peers) (s : Blockchain) : Option (String × UInt64) :=
  match findLongest s.blockHeight peers.nodes "" 0 with
  | (longestName, longestCount) =>
      if longestCount = 0 then none else some (longestName, longestCount.toUInt64)

end Peers

theorem NodeSvc.toInt_askDifference {s t : Blockchain} (hs : s.blocks.length < 2 ^ 62)
    (ht : t.blocks.length < 2 ^ 62) :
    (NodeSvc.askDifference s t.blockHeight).toInt = (s.blocks.length : Int) - t.blocks.length := by
  rw [askDifference, Blockchain.blockHeight, Blockchain.blockHeight, UInt64.toInt64_ofNat',
    UInt64.toInt64_ofNat', Int64.toInt_sub, Int64.toInt_ofNat_of_lt (by omega),
    Int64.toInt_ofNat_of_lt (by omega)]
  exact Int.bmod_eq_of_le (by omega) (by omega)

namespace Peers

/-- The best peer so far stays the best one when nobody is ahead of it. -/
theorem findLongest_of_forall {height : UInt64} {nodes : List (String × Option Blockchain)}
    {longestName : String} {longestCount : Int64}
    (h : ∀ e ∈ nodes, ∀ peer ∈ e.2, NodeSvc.askDifference peer height < longestCount) :
    findLongest height nodes longestName longestCount = (longestName, longestCount) := by
  induction nodes with
  | nil => rfl
  | cons e rest ih =>
      rw [List.forall_mem_cons] at h
      obtain ⟨node, _ | peer⟩ := e
      · rw [findLongest]
        exact ih h.2
      · have hlt := h.1 peer rfl
        rw [findLongest, if_neg (by rw [Int64.lt_iff_toInt_lt] at hlt ⊢; omega)]
        exact ih h.2

/-- The loop ends with a peer and its lead, unless nobody is ahead of the best one so far. -/
theorem findLongest_cases (height : UInt64) (nodes : List (String × Option Blockchain))
    (longestName : String) (longestCount : Int64) :
    findLongest height nodes longestName longestCount = (longestName, longestCount) ∨
      ∃ name peer, (name, some peer) ∈ nodes ∧
        longestCount < NodeSvc.askDifference peer height ∧
        findLongest height nodes longestName longestCount =
          (name, NodeSvc.askDifference peer height) := by
  induction nodes generalizing longestName longestCount with
  | nil => exact Or.inl rfl
  | cons e rest ih =>
      obtain ⟨node, _ | peer⟩ := e
      · rw [findLongest]
        rcases ih longestName longestCount with hnone | ⟨name, peer, hmem, hahead, heq⟩
        · exact Or.inl hnone
        · exact Or.inr ⟨name, peer, List.mem_cons_of_mem _ hmem, hahead, heq⟩
      · rw [findLongest]
        split
        · next hfirst =>
            right
            rcases ih node (NodeSvc.askDifference peer height) with
              hnone | ⟨name, other, hmem, hahead, heq⟩
            · exact ⟨node, peer, List.mem_cons_self, hfirst, hnone⟩
            · refine ⟨name, other, List.mem_cons_of_mem _ hmem, ?_, heq⟩
              rw [Int64.lt_iff_toInt_lt] at hfirst hahead ⊢
              omega
        · rcases ih longestName longestCount with hnone | ⟨name, other, hmem, hahead, heq⟩
          · exact Or.inl hnone
          · exact Or.inr ⟨name, other, List.mem_cons_of_mem _ hmem, hahead, heq⟩

/-- The loop ends with the one peer that is ahead of all others. -/
theorem findLongest_eq {height : UInt64} {nodes : List (String × Option Blockchain)}
    (nodup : (nodes.map Prod.fst).Nodup) {name : String} {peer : Blockchain}
    (hmem : (name, some peer) ∈ nodes)
    (hlongest : ∀ e ∈ nodes, e.1 ≠ name → ∀ other ∈ e.2,
      NodeSvc.askDifference other height < NodeSvc.askDifference peer height)
    {longestName : String} {longestCount : Int64}
    (hahead : longestCount < NodeSvc.askDifference peer height) :
    findLongest height nodes longestName longestCount =
      (name, NodeSvc.askDifference peer height) := by
  induction nodes generalizing longestName longestCount with
  | nil => cases hmem
  | cons e rest ih =>
      rw [List.map_cons, List.nodup_cons] at nodup
      rw [List.forall_mem_cons] at hlongest
      rcases List.mem_cons.mp hmem with rfl | hrest
      · rw [findLongest, if_pos hahead]
        refine findLongest_of_forall fun e he => hlongest.2 e he fun heq => nodup.1 ?_
        exact List.mem_map.mpr ⟨e, he, heq⟩
      · have hne : e.1 ≠ name := fun heq => nodup.1 (List.mem_map.mpr ⟨_, hrest, heq.symm⟩)
        obtain ⟨node, _ | other⟩ := e
        · rw [findLongest]
          exact ih nodup.2 hrest hlongest.2 hahead
        · rw [findLongest]
          split
          · exact ih nodup.2 hrest hlongest.2 (hlongest.1 hne other rfl)
          · exact ih nodup.2 hrest hlongest.2 hahead

theorem lookup_of_mem {β : Type*} {nodes : List (String × β)}
    (nodup : (nodes.map Prod.fst).Nodup) {name : String} {answer : β}
    (hmem : (name, answer) ∈ nodes) : nodes.lookup name = some answer := by
  obtain ⟨pre, post, rfl⟩ := List.append_of_mem hmem
  refine List.lookup_eq_some_iff.mpr ⟨pre, post, rfl, fun e he => ?_⟩
  rw [List.map_append, List.map_cons, List.nodup_append] at nodup
  have hne := nodup.2.2 e.1 (List.mem_map_of_mem he) name (by simp)
  simpa using Ne.symm hne

/-- Who is found is a peer that answers, and it is ahead. -/
theorem findLongestChainNode_mem {peers : Peers} {s : Blockchain} {name : String} {need : UInt64}
    (h : peers.findLongestChainNode s = some (name, need)) :
    ∃ peer, (name, some peer) ∈ peers.nodes ∧ 0 < NodeSvc.askDifference peer s.blockHeight ∧
      need = (NodeSvc.askDifference peer s.blockHeight).toUInt64 := by
  rw [findLongestChainNode] at h
  rcases findLongest_cases s.blockHeight peers.nodes "" 0 with
    hnone | ⟨name, peer, hmem, hahead, heq⟩
  · rw [hnone] at h
    cases h
  · rw [heq] at h
    dsimp only at h
    split at h
    · cases h
    · cases h
      exact ⟨peer, hmem, hahead, rfl⟩

/-- The peer is ahead of the node and of all other peers that answer. -/
structure IsLongest (peers : Peers) (s : Blockchain) (name : String) (peer : Blockchain) :
    Prop where
  mem : (name, some peer) ∈ peers.nodes
  ahead : s.blocks.length < peer.blocks.length
  longest : ∀ e ∈ peers.nodes, e.1 ≠ name → ∀ other ∈ e.2,
    other.blocks.length < peer.blocks.length

/-- The longest peer is found, with its exact lead. -/
theorem IsLongest.find {peers : Peers} {s peer : Blockchain} {name : String}
    (h : peers.IsLongest s name peer) (hlen : peer.blocks.length < 2 ^ 62) :
    ∃ need, peers.findLongestChainNode s = some (name, need) ∧
      need.toNat = peer.blocks.length - s.blocks.length := by
  have hahead := h.ahead
  have hlead := NodeSvc.toInt_askDifference hlen (by omega : s.blocks.length < 2 ^ 62)
  have hpos : (0 : Int64) < NodeSvc.askDifference peer s.blockHeight := by
    rw [Int64.lt_iff_toInt_lt, hlead]
    simpa using hahead
  refine ⟨(NodeSvc.askDifference peer s.blockHeight).toUInt64, ?_, ?_⟩
  · rw [findLongestChainNode, findLongest_eq peers.nodup h.mem ?_ hpos]
    · have hzero : NodeSvc.askDifference peer s.blockHeight ≠ 0 := by
        intro hzero
        rw [hzero] at hpos
        exact absurd hpos (by decide)
      simp [hzero]
    · intro e he hne other hother
      have hshorter := h.longest e he hne other hother
      rw [Int64.lt_iff_toInt_lt, hlead, NodeSvc.toInt_askDifference (by omega) (by omega)]
      omega
  · rw [Int64.toNat_toUInt64_of_le (Int64.le_of_lt hpos), ← Int64.toNat_toInt, hlead]
    omega

end Peers

variable [Crates]

/-- Ask for the longest chain, download what is missing, and end with a replay and
an adjustment. -/
def Peers.synchronizeBlockchain (peers : Peers) (s : Blockchain) : Blockchain :=
  match peers.findLongestChainNode s with
  | none => s
  | some (longestName, longestCount) =>
      match peers.nodes.lookup longestName with
      | some (some peer) =>
          (s.synchronizeBlockchain
            (NodeSvc.fetchBlocks peer s.blockHeight longestCount)).1
      | _ => s

namespace Blockchain

omit [Crates] in
/-- The target after the adjustments that the blocks of a stream set off one after
the other, if none of them unwinds. -/
def adjustments (target : U256) (bs : List Block) : List Block → Option U256
  | [] => some target
  | b :: rest =>
      (adjustedTarget (bs ++ [b]) target).bind fun adjusted => adjustments adjusted (bs ++ [b]) rest

omit [Crates] in
theorem adjustments_append (target : U256) (bs stream stream' : List Block) :
    adjustments target bs (stream ++ stream') =
      (adjustments target bs stream).bind fun adjusted =>
        adjustments adjusted (bs ++ stream) stream' := by
  induction stream generalizing target bs with
  | nil => simp [adjustments]
  | cons b rest ih =>
      rw [List.cons_append, adjustments, adjustments, Option.bind_assoc]
      refine congrArg _ (funext fun adjusted => ?_)
      rw [ih, List.append_assoc, List.singleton_append]

omit [Crates] in
theorem chainTarget_append (bs stream : List Block) :
    chainTarget (bs ++ stream) =
      (chainTarget bs).bind fun target => adjustments target bs stream := by
  induction stream using List.reverseRecOn with
  | nil => cases h : chainTarget bs <;> simp [adjustments, h]
  | append_singleton rest b ih =>
      rw [← List.append_assoc, chainTarget_concat, ih, Option.bind_assoc]
      refine congrArg _ (funext fun target => ?_)
      simp [adjustments_append, adjustments]

/-- A download only appends. -/
theorem blocks_isPrefix_fetchMissingBlocks (s : Blockchain) (stream : List Block) :
    s.blocks <+: (s.fetchMissingBlocks stream).1.blocks := by
  induction stream generalizing s with
  | nil => exact List.prefix_refl _
  | cons b rest ih =>
      rw [fetchMissingBlocks]
      rcases s.addAndRebuild_cases b with ⟨t, hadd, heq⟩ | ⟨e, hadd, heq⟩
      · rw [heq]
        have happend : t.rebuildUtxoSet.blocks = s.blocks ++ [b] := by
          obtain ⟨-, -, target, -, rfl⟩ := (addBlock_ok_iff s t b).mp hadd
          rfl
        exact (happend ▸ List.prefix_append _ _).trans (ih t.rebuildUtxoSet)
      · rw [heq]
        dsimp only
        rw [blocks_addBlockInPlace]
        split
        · exact List.prefix_append _ _
        · exact List.prefix_refl _

/-- What follows in a valid chain passes its checks. -/
theorem Sound.passesChecks {s : Blockchain} (hs : s.Sound) {b : Block}
    (ext : Extends s.blocks b) : s.PassesChecks b := by
  obtain ⟨coinbase, txs, htxs, hv⟩ := ext.verified
  exact ⟨ext.header,
    (Block.verifyTransactions_ok_iff ..).mpr ⟨coinbase, txs, htxs,
      hv.congr fun _ _ k _ => (congrFun hs.outputs k).symm⟩⟩

/-- Where the peer's chain starts with the local one, the download carries it on to
the end, unless an adjustment unwinds before the last block. -/
theorem Sound.blocks_fetchMissingBlocks_iff {s : Blockchain} (hs : s.Sound) {stream : List Block}
    (valid : ValidChain (s.blocks ++ stream)) :
    (s.fetchMissingBlocks stream).1.blocks = s.blocks ++ stream ↔
      (adjustments s.target s.blocks stream.dropLast).isSome = true := by
  induction stream generalizing s with
  | nil => simp [fetchMissingBlocks, adjustments]
  | cons b rest ih =>
      have hpass := hs.passesChecks valid.of_split
      rw [fetchMissingBlocks]
      rcases s.addAndRebuild_cases b with ⟨t, hadd, heq⟩ | ⟨e, hadd, heq⟩
      · rw [heq]
        have ht := hs.addBlock hadd
        obtain ⟨-, -, target, htarget, rfl⟩ := (addBlock_ok_iff s t b).mp hadd
        have hcons : s.blocks ++ b :: rest = (s.blocks ++ [b]) ++ rest := by simp
        rw [hcons] at valid ⊢
        refine (ih ht valid).trans ?_
        cases rest with
        | nil => simp [adjustments]
        | cons next rest =>
            rw [List.dropLast_cons_cons, adjustments, htarget]
            rfl
      · -- the checks have passed, so it is the adjustment that has unwound
        have hunwinds : adjustedTarget (s.blocks ++ [b]) s.target = none := by
          rw [← Option.not_isSome_iff_eq_none]
          intro hsome
          obtain ⟨t, ht⟩ := accepts_iff.mpr ⟨hpass.1, hpass.2, hsome⟩
          rw [ht] at hadd
          cases hadd
        rw [heq]
        dsimp only
        rw [appends_iff.mpr hpass]
        cases rest with
        | nil => simp [adjustments]
        | cons next rest => simp [adjustments, hunwinds]

/-- The end of a synchronization leaves the blocks alone. -/
theorem blocks_synchronizeBlockchain (s : Blockchain) (stream : List Block) :
    (s.synchronizeBlockchain stream).1.blocks = (s.fetchMissingBlocks stream).1.blocks := by
  unfold synchronizeBlockchain
  rcases s.fetchMissingBlocks stream with ⟨t, e | v⟩
  · rfl
  · dsimp only
    cases hadjust : t.rebuildUtxoSet.tryAdjustTarget with
    | error e => rfl
    | ok adjusted =>
        have hsame : adjusted.blocks = t.rebuildUtxoSet.blocks := blocks_tryAdjustTarget hadjust
        exact hsame

/-- A download whose first block does not name the tip leaves the chain as it is. -/
theorem synchronizeBlockchain_of_unlinked {s : Blockchain} {tip b : Block}
    (htip : s.blocks.getLast? = some tip) (h : b.header.prevBlockHash ≠ tip.header.hash)
    (rest : List Block) : (s.synchronizeBlockchain (b :: rest)).1 = s := by
  have hrefused : s.addBlock b =
      .error (.error (.invalidBlock "Previous block hash mismatch")) := by
    simp [addBlock, checkHeader, htip, h, reject]
  have hfetch : s.fetchMissingBlocks (b :: rest) =
      (s, .error (.error (.invalidBlock "Previous block hash mismatch"))) := by
    rw [fetchMissingBlocks]
    rcases s.addAndRebuild_cases b with ⟨t, hadd, -⟩ | ⟨e, hadd, heq⟩
    · rw [hrefused] at hadd
      cases hadd
    · obtain rfl := Except.error.inj (hadd.symm.trans hrefused)
      rw [heq, addBlockInPlace_of_refused hrefused]
  rw [synchronizeBlockchain, hfetch]

end Blockchain

namespace Node

omit [Crates] in
/-- With the targets that the blocks decide, no adjustment unwinds in a download that
carries a chain on: the peer made the same ones. -/
theorem Adjusted.adjustments_isSome {n p : Node} (hn : n.Adjusted) (hp : p.Adjusted)
    {stream : List Block} (happend : p.chain.blocks = n.chain.blocks ++ stream) :
    (Blockchain.adjustments n.chain.target n.chain.blocks stream.dropLast).isSome = true := by
  have hlocal : chainTarget n.chain.blocks = some n.chain.target := hn.1
  have hpeer : chainTarget p.chain.blocks = some p.chain.target := hp.1
  rw [happend, Blockchain.chainTarget_append, hlocal] at hpeer
  have hall : Blockchain.adjustments n.chain.target n.chain.blocks stream = some p.chain.target :=
    hpeer
  cases stream using List.reverseRecOn with
  | nil => rfl
  | append_singleton rest b =>
      rw [Blockchain.adjustments_append] at hall
      obtain ⟨adjusted, hrest, -⟩ := Option.bind_eq_some_iff.mp hall
      rw [List.dropLast_concat, hrest]
      rfl

/-- The synchronization downloads what the longest peer has above the local height. -/
theorem Reached.synchronizeBlockchain_eq {n p : Node} (hp : p.Reached) {peers : Peers}
    {name : String} (longest : peers.IsLongest n.chain name p.chain) :
    peers.synchronizeBlockchain n.chain = (n.chain.synchronizeBlockchain
      (p.chain.blocks.drop n.chain.blocks.length)).1 := by
  have hlen : p.chain.blocks.length ≤ subsidyEnd := (ReachedBy.stored hp).1.checked.length_le
  have hend : subsidyEnd < 2 ^ 62 := by decide
  have hahead := longest.ahead
  obtain ⟨need, hfind, hneed⟩ := longest.find (by omega)
  have hstart : n.chain.blockHeight.toNat = n.chain.blocks.length := toNat_height (by omega)
  have hall : NodeSvc.fetchBlocks p.chain n.chain.blockHeight need =
      p.chain.blocks.drop n.chain.blocks.length := by
    rw [NodeSvc.fetchBlocks, hstart, hneed, ← List.length_drop, List.take_length]
  simp only [Peers.synchronizeBlockchain, hfind, Peers.lookup_of_mem peers.nodup longest.mem, hall]

/-- After the download of what the peer has above the local height the blocks are the
peer's exactly if its chain started with the local one and no adjustment unwound
before the last block. -/
theorem Sound.blocks_download_iff {n p : Node} (hn : n.Sound) (hp : p.Sound) :
    (n.chain.synchronizeBlockchain
      (p.chain.blocks.drop n.chain.blocks.length)).1.blocks = p.chain.blocks ↔
      n.chain.blocks <+: p.chain.blocks ∧
        (Blockchain.adjustments n.chain.target n.chain.blocks
          (p.chain.blocks.drop n.chain.blocks.length).dropLast).isSome = true := by
  have hvalid := hp.1.valid
  rw [Blockchain.blocks_synchronizeBlockchain]
  by_cases hpre : n.chain.blocks <+: p.chain.blocks
  · obtain ⟨stream, happend⟩ := hpre
    rw [and_iff_right ⟨stream, happend⟩, ← happend, List.drop_left]
    rw [← happend] at hvalid
    exact hn.1.blocks_fetchMissingBlocks_iff hvalid
  · refine iff_of_false (fun heq => hpre ?_) fun h => hpre h.1
    rw [← heq]
    exact Blockchain.blocks_isPrefix_fetchMissingBlocks _ _

/-- Where the peer has another block at the height of the local tip, its next block
does not name the tip, and the download changes nothing. -/
theorem Reached.download_of_parted {n p : Node} (hp : p.Reached)
    (hahead : n.chain.blocks.length < p.chain.blocks.length) {tip other : Block}
    (htip : n.chain.blocks.getLast? = some tip)
    (hother : p.chain.blocks[n.chain.blocks.length - 1]? = some other)
    (hparted : other.header.hash ≠ tip.header.hash) :
    (n.chain.synchronizeBlockchain (p.chain.blocks.drop n.chain.blocks.length)).1 = n.chain := by
  have hchecked := (ReachedBy.stored hp).1.checked
  have hnonempty : n.chain.blocks.length ≠ 0 := by
    intro hzero
    rw [List.length_eq_zero_iff.mp hzero] at htip
    cases htip
  obtain ⟨b, rest, hdrop⟩ := List.exists_cons_of_ne_nil
    (List.drop_eq_nil_iff.not.mpr (not_le.mpr hahead))
  have hsplit : p.chain.blocks = p.chain.blocks.take n.chain.blocks.length ++ b :: rest := by
    rw [← hdrop, List.take_append_drop]
  have hlast : (p.chain.blocks.take n.chain.blocks.length).getLast? = some other := by
    rw [List.getLast?_take, if_neg hnonempty, hother]
    rfl
  rw [hsplit] at hchecked
  obtain ⟨_, -, passes⟩ := hchecked.of_split
  have hprev := passes.prevBlockHash
  rw [hdrop]
  apply Blockchain.synchronizeBlockchain_of_unlinked htip
  simpa [hprev, tipHash, hlast] using hparted

/-- After a synchronization with a longer peer the local blocks are the peer's exactly
if the peer's chain started with the local one and no adjustment unwound before the
last block, as long as every call of the two nodes has returned. With the targets that
the blocks decide no adjustment unwinds then. Where the two chains have parted below the
local tip, nothing changes. -/
theorem Reached.synchronizeBlockchain_iff {n p : Node} (hp : p.Reached)
    {peers : Peers} {name : String} (longest : peers.IsLongest n.chain name p.chain) :
    (n.ReachedBy Event.Returns → p.ReachedBy Event.Returns →
      ((peers.synchronizeBlockchain n.chain).blocks = p.chain.blocks ↔
        n.chain.blocks <+: p.chain.blocks ∧
          (Blockchain.adjustments n.chain.target n.chain.blocks
            (p.chain.blocks.drop n.chain.blocks.length).dropLast).isSome = true)) ∧
    ((n.ReachedBy fun n e => e.AdjustsNothing n ∧ e.Returns n) →
      (p.ReachedBy fun p e => e.AdjustsNothing p ∧ e.Returns p) →
        n.chain.blocks <+: p.chain.blocks →
          (peers.synchronizeBlockchain n.chain).blocks = p.chain.blocks) ∧
    (∀ tip other, n.chain.blocks.getLast? = some tip →
      p.chain.blocks[n.chain.blocks.length - 1]? = some other →
        other.header.hash ≠ tip.header.hash → peers.synchronizeBlockchain n.chain = n.chain) := by
  rw [hp.synchronizeBlockchain_eq longest]
  refine ⟨fun hn' hp' => hn'.sound.blocks_download_iff hp'.sound, fun hn' hp' hpre => ?_,
    fun tip other htip hother hparted => ?_⟩
  · have hn'' : n.ReachedBy Event.Returns := hn'.imp fun _ _ meets => meets.2
    have hp'' : p.ReachedBy Event.Returns := hp'.imp fun _ _ meets => meets.2
    obtain ⟨stream, happend⟩ := hpre
    apply (hn''.sound.blocks_download_iff hp''.sound).mpr
    refine ⟨⟨stream, happend⟩, ?_⟩
    rw [← happend, List.drop_left]
    exact hn'.adjusted.adjustments_isSome hp'.adjusted happend.symm
  · exact hp.download_of_parted longest.ahead htip hother hparted

omit [Crates] in
/-- A node that lacks the second block downloads it; its other peer does not answer. -/
theorem synchronizeBlockchain_spendingBlock :
    letI := StandIn.crates
    ∃ (n p : Node) (peers : Peers), n.chain.blocks = [StandIn.genesis] ∧
      p.chain.blocks = [StandIn.genesis, StandIn.spendingBlock] ∧
      (peers.synchronizeBlockchain n.chain).blocks = p.chain.blocks := by
  have hlocal : (StandIn.runNode [.call (.addBlock StandIn.genesis)]).any
      (fun n => decide (n.chain.blocks = [StandIn.genesis])) = true := by
    decide +kernel
  have hpeer : (StandIn.runNode [.call (.addBlock StandIn.genesis),
      .call (.addBlock StandIn.spendingBlock)]).any (fun p => decide
        (p.chain.blocks = [StandIn.genesis, StandIn.spendingBlock])) = true := by
    decide +kernel
  have hreturns : letI := StandIn.crates
      Machine.StepsMeet Node.step Event.Returns Node.new
        [.call (.addBlock StandIn.genesis), .call (.addBlock StandIn.spendingBlock)] := by
    decide +kernel
  let := StandIn.crates
  obtain ⟨n, hn, hblocks⟩ := StandIn.exists_runNode hlocal
  obtain ⟨p, hp, hblocks'⟩ := StandIn.exists_runNode hpeer
  let peers : Peers := ⟨[("silent", none), ("peer", some p.chain)], by simp⟩
  have longest : peers.IsLongest n.chain "peer" p.chain :=
    ⟨by simp [peers], by simp [hblocks, hblocks'], by simp [peers]⟩
  refine ⟨n, p, peers, hblocks, hblocks', (Reached.synchronizeBlockchain_iff
    (StandIn.reached_of_runNode hp) longest).2.1
    (StandIn.reachedBy_of_runNode hn ⟨⟨trivial, hreturns.1⟩, fun _ _ => trivial⟩)
    (StandIn.reachedBy_of_runNode hp ⟨⟨trivial, hreturns.1⟩, fun m hm =>
      ⟨⟨trivial, (hreturns.2 m hm).1⟩, fun _ _ => trivial⟩⟩) ?_⟩
  rw [hblocks, hblocks']
  exact ⟨[StandIn.spendingBlock], rfl⟩

omit [Crates] in
/-- Two miners have started a chain, and the shorter chain stays as it is. -/
theorem not_synchronizeBlockchain_eq :
    letI := StandIn.crates
    ¬ ∀ (s peer : Blockchain) (peers : Peers) (name : String), s.Reached → peer.Reached →
      peers.IsLongest s name peer → (peers.synchronizeBlockchain s).blocks = peer.blocks := by
  let := StandIn.crates
  let first := StandIn.firstBlock minTarget
    [StandIn.coinbase (StandIn.coin StandIn.alice 7 5000000000)]
  have hlocal : (StandIn.run [.addBlock first]).any
      (fun s => decide (s.blocks = [first])) = true := by
    decide +kernel
  have hpeer : (StandIn.run [.addBlock StandIn.genesis, .addBlock StandIn.spendingBlock]).any
      (fun s => decide (s.blocks = [StandIn.genesis, StandIn.spendingBlock])) = true := by
    decide +kernel
  obtain ⟨s, hs, hblocks⟩ := StandIn.exists_run hlocal
  obtain ⟨peer, hp, hblocks'⟩ := StandIn.exists_run hpeer
  let peers : Peers := ⟨[("peer", some peer)], by simp⟩
  have longest : peers.IsLongest s "peer" peer :=
    ⟨by simp [peers], by simp [hblocks, hblocks'], by simp [peers]⟩
  intro h
  have hsame := h s peer peers "peer" (StandIn.reached_of_run hs) (StandIn.reached_of_run hp)
    longest
  have hsync : peers.synchronizeBlockchain s = _ :=
    (StandIn.reached_of_run hp).node.synchronizeBlockchain_eq (n := ⟨s, none⟩) longest
  have hpre := Blockchain.blocks_isPrefix_fetchMissingBlocks s (peer.blocks.drop s.blocks.length)
  rw [← Blockchain.blocks_synchronizeBlockchain, ← hsync, hsame, hblocks, hblocks'] at hpre
  exact absurd hpre (by decide)

end Node

end ToyBtc
