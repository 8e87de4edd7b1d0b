import ToyBtc.Ledger
import ToyBtc.StandIn
import Mathlib.Data.List.Chain

/-!
# The history behind a tip

Headers link a chain backwards to a first block with a zero link, and
timestamps increase along it. With headers that hash apart, the hash of the
tip therefore fixes all headers and the height. What the first block is not
checked for is missing from the history: its own hash and its Merkle root.
-/

namespace ToyBtc

open Growth

theorem timestamp_le_getLast {bs : List Block}
    (h : bs.Pairwise fun a b => a.header.timestamp < b.header.timestamp) {earlier lastBlock : Block}
    (hearlier : earlier ∈ bs) (hlast : bs.getLast? = some lastBlock) :
    earlier.header.timestamp ≤ lastBlock.header.timestamp := by
  obtain ⟨rest, rfl⟩ := List.getLast?_eq_some_iff.mp hlast
  rcases List.mem_append.mp hearlier with hrest | hend
  · exact ((List.pairwise_append.mp h).2.2 _ hrest _ (by simp)).le
  · rw [List.mem_singleton.mp hend]

/-- A block that passes the header checks is later than all blocks before it. -/
theorem timestamps_lt_concat [Crates] {bs : List Block} {b : Block}
    (h : bs.Pairwise fun a b => a.header.timestamp < b.header.timestamp)
    (hcheck : Blockchain.checkHeader bs b = .ok ()) :
    (bs ++ [b]).Pairwise fun a b => a.header.timestamp < b.header.timestamp := by
  refine List.pairwise_append.mpr ⟨h, List.pairwise_singleton _ _, ?_⟩
  intro earlier hearlier b' hb'
  obtain rfl : b' = b := List.mem_singleton.mp hb'
  have hlast := List.getLast?_eq_some_getLast (List.ne_nil_of_mem hearlier)
  have htime := ((Blockchain.checkHeader_ok_iff hlast b').mp hcheck).2.2.2
  exact (timestamp_le_getLast h hearlier hlast).trans_lt htime

/-- Timestamps increase along the chain. -/
theorem CheckedChain.timestamps_lt [Crates] {bs : List Block} (valid : CheckedChain bs) :
    bs.Pairwise fun a b => a.header.timestamp < b.header.timestamp := by
  induction valid with
  | nil => exact List.Pairwise.nil
  | concat _ ext ih => exact timestamps_lt_concat ih ext.choose_spec.2.header

variable [Crates]

/-- No two blocks of the chain have the same header. -/
theorem CheckedChain.eq_of_header_eq {bs : List Block} (valid : CheckedChain bs) {x y : Block}
    (hx : x ∈ bs) (hy : y ∈ bs) (h : x.header = y.header) : x = y := by
  have hnodup : (bs.map Block.header).Nodup :=
    List.pairwise_map.mpr (valid.timestamps_lt.imp fun hlt heq => hlt.ne (by rw [heq]))
  exact List.inj_on_of_nodup_map hnodup hx hy h

/-- Each block of the chain names the header hash of the block below it. -/
theorem CheckedChain.linked {bs : List Block} (valid : CheckedChain bs) :
    bs.IsChain fun a b => b.header.prevBlockHash = a.header.hash := by
  induction valid with
  | nil => exact List.isChain_nil
  | @concat bs b _ ext ih =>
      obtain ⟨_, -, passes⟩ := ext
      refine List.isChain_append.mpr ⟨ih, List.isChain_singleton b, ?_⟩
      intro lastBlock hlast b' hb'
      obtain rfl : b = b' := by simpa using hb'
      exact ((Blockchain.checkHeader_ok_iff hlast b).mp passes.header).1

/-- The first block of the chain has a zero link. -/
theorem CheckedChain.prevBlockHash_head {b : Block} {rest : List Block}
    (valid : CheckedChain (b :: rest)) : b.header.prevBlockHash = Hash.zero := by
  have hsplit : CheckedChain ([] ++ b :: rest) := valid
  obtain ⟨_, -, passes⟩ := hsplit.of_split
  exact (Blockchain.checkHeader_nil_ok_iff b).mp passes.header

/-- On top of another block the Merkle root is checked. -/
theorem Passes.merkleRoot {u : UtxoSet} {bs : List Block} {b : Block} (passes : Passes u bs b)
    (hne : bs ≠ []) : b.header.merkleRoot = MerkleRoot.calculate b.transactions :=
  ((Blockchain.checkHeader_ok_iff (List.getLast?_eq_some_getLast hne) b).mp passes.header).2.2.1

/-- What the first block of a chain leaves unchecked. -/
structure Block.ValidFirst (b : Block) : Prop where
  hash : b.header.hash.matchesTarget minTarget = true
  merkleRoot : b.header.merkleRoot = MerkleRoot.calculate b.transactions

instance (b : Block) : Decidable b.ValidFirst :=
  decidable_of_iff (b.header.hash.matchesTarget minTarget = true ∧
      b.header.merkleRoot = MerkleRoot.calculate b.transactions)
    ⟨fun h => ⟨h.1, h.2⟩, fun h => ⟨h.hash, h.merkleRoot⟩⟩

/-- The chain is internally valid from its first block on. -/
structure InternallyValid (bs : List Block) : Prop where
  first : ∀ b, bs.head? = some b →
    b.header.prevBlockHash = Hash.zero ∧ b.header.hash.matchesTarget minTarget = true
  linked : bs.IsChain fun a b => b.header.prevBlockHash = a.header.hash
  increasing : bs.Pairwise fun a b => a.header.timestamp < b.header.timestamp
  merkleRoot : ∀ b ∈ bs, b.header.merkleRoot = MerkleRoot.calculate b.transactions
  coinbase : ∀ b ∈ bs, ∃ coinbase txs, b.transactions = coinbase :: txs ∧ coinbase.inputs = []

/-- The chain falls short of internal validity in its first block alone. -/
theorem CheckedChain.internallyValid_iff {bs : List Block} (valid : CheckedChain bs) :
    InternallyValid bs ↔ ∀ b, bs.head? = some b → b.ValidFirst := by
  constructor
  · intro h b hb
    exact ⟨(h.first b hb).2, h.merkleRoot b (List.mem_of_mem_head? hb)⟩
  · intro hfirst
    refine ⟨fun b hb => ⟨?_, (hfirst b hb).hash⟩, valid.linked, valid.timestamps_lt, ?_, ?_⟩
    · obtain ⟨rest, rfl⟩ := List.head?_eq_some_iff.mp hb
      exact valid.prevBlockHash_head
    · intro b hb
      obtain ⟨pre, post, rfl⟩ := List.append_of_mem hb
      obtain ⟨_, -, passes⟩ := valid.of_split
      by_cases hpre : pre = []
      · subst hpre
        exact (hfirst b rfl).merkleRoot
      · exact passes.merkleRoot hpre
    · intro b hb
      obtain ⟨pre, post, rfl⟩ := List.append_of_mem hb
      obtain ⟨_, -, -, coinbase, txs, htxs, hv⟩ := valid.of_split
      exact ⟨coinbase, txs, htxs, hv.noInputs⟩

/-- A block that starts a chain has the hash and the Merkle root that later
blocks are checked for. -/
def Block.StartsValid (bs : List Block) (b : Block) : Prop := bs = [] → b.ValidFirst

/-- A chain is internally valid exactly when it was started by a checked block. -/
theorem Blockchain.reachedBy_startsValid_iff (s : Blockchain) :
    s.ReachedBy (Storing fun s b => b.StartsValid s.blocks) ↔
      s.Reached ∧ InternallyValid s.blocks := by
  have hvalid : s.Reached → CheckedChain s.blocks := fun reached =>
    (Blockchain.ReachedBy.stored reached).checked
  rw [reachedBy_storing_iff fun bs => ∀ b, bs.head? = some b → b.ValidFirst]
  · exact and_congr_right fun reached => (hvalid reached).internallyValid_iff.symm
  · simp
  · intro bs b _
    cases bs with
    | nil => simp [Block.StartsValid]
    | cons first rest => simp [Block.StartsValid]

omit [Crates] in
/-- A first block with its own Merkle root, and a payment on top of it. -/
theorem internallyValid_spendingBlock :
    letI := StandIn.crates
    ∃ s : Blockchain, s.blocks.length = 2 ∧ InternallyValid s.blocks := by
  let := StandIn.crates
  let first : Block :=
    ⟨{ StandIn.genesis.header with
        merkleRoot := MerkleRoot.calculate StandIn.genesis.transactions },
      StandIn.genesis.transactions⟩
  let second := StandIn.nextBlock first 0 minTarget StandIn.spendingBlock.transactions
  have hchecked : first.ValidFirst ∧ second.ValidFirst := by decide +kernel
  have hrun : (StandIn.run [.addBlock first, .addBlock second]).any
      (fun s => decide (s.blocks.length = 2)) = true := by
    decide +kernel
  obtain ⟨s, hs, hlen⟩ := StandIn.exists_run hrun
  have hmeets : s.ReachedBy (Blockchain.Storing fun s b => b.StartsValid s.blocks) := by
    refine StandIn.reachedBy_of_run hs ⟨?_, fun _ _ => ⟨?_, fun _ _ => trivial⟩⟩
    · rintro _ ⟨⟩ - -
      exact hchecked.1
    · rintro _ ⟨⟩ - -
      exact hchecked.2
  exact ⟨s, hlen, ((Blockchain.reachedBy_startsValid_iff s).mp hmeets).2⟩

omit [Crates] in
/-- The first block declares a Merkle root that is not the one of its transactions. -/
theorem not_internallyValid :
    letI := StandIn.crates
    ¬ ∀ s : Blockchain, s.Reached → InternallyValid s.blocks := by
  let := StandIn.crates
  have hrun : (StandIn.run [.addBlock StandIn.genesis]).any (fun s => decide
      (s.blocks = [StandIn.genesis] ∧ StandIn.genesis.header.merkleRoot ≠
        MerkleRoot.calculate StandIn.genesis.transactions)) = true := by
    decide +kernel
  obtain ⟨s, hs, hblocks, hroot⟩ := StandIn.exists_run hrun
  intro h
  exact hroot ((h s (StandIn.reached_of_run hs)).merkleRoot _ (by simp [hblocks]))

/-- The hash that the next block has to name: the tip's, or zero without one. -/
def tipHash (bs : List Block) : Hash := (bs.getLast?.map fun b => b.header.hash).getD Hash.zero

/-- A block that passes the header checks names the tip. -/
theorem Blockchain.prevBlockHash_of_checkHeader {bs : List Block} {b : Block}
    (h : checkHeader bs b = .ok ()) : b.header.prevBlockHash = tipHash bs := by
  cases hlast : bs.getLast? with
  | none =>
      obtain rfl := List.getLast?_eq_none_iff.mp hlast
      exact (checkHeader_nil_ok_iff b).mp h
  | some lastBlock =>
      rw [((checkHeader_ok_iff hlast b).mp h).1]
      simp [tipHash, hlast]

theorem Passes.prevBlockHash {u : UtxoSet} {bs : List Block} {b : Block} (passes : Passes u bs b) :
    b.header.prevBlockHash = tipHash bs :=
  Blockchain.prevBlockHash_of_checkHeader passes.header

/-- Each block names the tip of the blocks before it. -/
def LinkedBack (bs : List Block) : Prop :=
  ∀ pre b post, bs = pre ++ b :: post → b.header.prevBlockHash = tipHash pre

/-- Two linked chains with one tip hash have the same headers, if the headers
hash apart and none of them hashes to zero. -/
theorem LinkedBack.map_header_eq {bs bs' : List Block} (linked : LinkedBack bs)
    (linked' : LinkedBack bs')
    (hinj : ∀ x ∈ bs, ∀ y ∈ bs', x.header.hash = y.header.hash → x.header = y.header)
    (hzero : ∀ x ∈ bs, x.header.hash ≠ Hash.zero) (hzero' : ∀ y ∈ bs', y.header.hash ≠ Hash.zero)
    (htip : tipHash bs = tipHash bs') : bs.map Block.header = bs'.map Block.header := by
  induction bs using List.reverseRecOn generalizing bs' with
  | nil =>
      cases bs' using List.reverseRecOn with
      | nil => rfl
      | append_singleton rest' b' =>
          -- a chain without blocks stands before a zero link, and no header hashes to zero
          exact absurd (by simpa [tipHash] using htip.symm) (hzero' b' (by simp))
  | append_singleton rest b ih =>
      cases bs' using List.reverseRecOn with
      | nil => exact absurd (by simpa [tipHash] using htip) (hzero b (by simp))
      | append_singleton rest' b' =>
          obtain ⟨hrest, hlink⟩ := forall_split_concat_iff.mp linked
          obtain ⟨hrest', hlink'⟩ := forall_split_concat_iff.mp linked'
          have hheader : b.header = b'.header :=
            hinj b (by simp) b' (by simp) (by simpa [tipHash] using htip)
          have hprev : tipHash rest = tipHash rest' := by rw [← hlink, hheader, hlink']
          have hheaders := ih hrest hrest'
            (fun x hx y hy => hinj x (by simp [hx]) y (by simp [hy]))
            (fun x hx => hzero x (by simp [hx])) (fun y hy => hzero' y (by simp [hy])) hprev
          simp [hheaders, hheader]

theorem CheckedChain.linkedBack {bs : List Block} (valid : CheckedChain bs) : LinkedBack bs := by
  rintro pre b post rfl
  exact valid.of_split.choose_spec.2.prevBlockHash

/-- Two chains with one tip hash have the same headers, if the headers
hash apart and none of them hashes to zero. -/
theorem CheckedChain.map_header_eq {bs bs' : List Block} (valid : CheckedChain bs)
    (valid' : CheckedChain bs')
    (hinj : ∀ x ∈ bs, ∀ y ∈ bs', x.header.hash = y.header.hash → x.header = y.header)
    (hzero : ∀ x ∈ bs, x.header.hash ≠ Hash.zero) (hzero' : ∀ y ∈ bs', y.header.hash ≠ Hash.zero)
    (htip : tipHash bs = tipHash bs') : bs.map Block.header = bs'.map Block.header :=
  valid.linkedBack.map_header_eq valid'.linkedBack hinj hzero hzero' htip

/-- Nodes whose tips have the same header hash have the same headers at every
height, whatever way their blocks came to them. -/
theorem Node.Reached.headers_eq {n m : Node} (hn : n.Reached) (hm : m.Reached) {a b : Block}
    (ha : n.chain.blocks.getLast? = some a) (hb : m.chain.blocks.getLast? = some b)
    (htip : a.header.hash = b.header.hash)
    (hinj : ∀ x ∈ n.chain.blocks, ∀ y ∈ m.chain.blocks,
      x.header.hash = y.header.hash → x.header = y.header)
    (hzero : ∀ x ∈ n.chain.blocks ++ m.chain.blocks, x.header.hash ≠ Hash.zero) :
    n.chain.blocks.length = m.chain.blocks.length ∧
      ∀ height : Nat, (n.chain.blocks[height]?).map Block.header =
        (m.chain.blocks[height]?).map Block.header := by
  have hvalid := (Node.ReachedBy.stored hn).1.checked
  have hvalid' := (Node.ReachedBy.stored hm).1.checked
  have hheaders := hvalid.map_header_eq hvalid' hinj
    (fun x hx => hzero x (List.mem_append_left _ hx))
    (fun y hy => hzero y (List.mem_append_right _ hy)) (by simp [tipHash, ha, hb, htip])
  refine ⟨by simpa using congrArg List.length hheaders, fun height => ?_⟩
  rw [← List.getElem?_map, hheaders, List.getElem?_map]

omit [Crates] in
/-- A node that was restarted with its second block, and one that was not. -/
theorem headers_eq_spendingBlock :
    letI := StandIn.crates
    ∃ n m : Node, n.file = none ∧ m.file.isSome ∧
      n.chain.blocks.length = m.chain.blocks.length ∧
      ∀ height : Nat, (n.chain.blocks[height]?).map Block.header =
        (m.chain.blocks[height]?).map Block.header := by
  let := StandIn.crates
  let calls : List Event :=
    [.call (.addBlock StandIn.genesis), .call (.addBlock StandIn.spendingBlock)]
  have hplain : (StandIn.runNode calls).any (fun n => decide (n.file = none ∧
      n.chain.blocks = [StandIn.genesis, StandIn.spendingBlock])) = true := by
    decide +kernel
  have hrestarted : (StandIn.runNode (calls ++ [.saveToFile, .restart])).any (fun n => decide
      (n.file.isSome = true ∧ n.chain.blocks = [StandIn.genesis, StandIn.spendingBlock])) =
      true := by
    decide +kernel
  obtain ⟨n, hn, hfile, hblocks⟩ := StandIn.exists_runNode hplain
  obtain ⟨m, hm, hfile', hblocks'⟩ := StandIn.exists_runNode hrestarted
  have hlast : [StandIn.genesis, StandIn.spendingBlock].getLast? = some StandIn.spendingBlock :=
    rfl
  refine ⟨n, m, hfile, hfile', Node.Reached.headers_eq (StandIn.reached_of_runNode hn)
    (StandIn.reached_of_runNode hm) (hblocks ▸ hlast) (hblocks' ▸ hlast) rfl ?_ ?_⟩
  · rw [hblocks, hblocks']
    decide +kernel
  · rw [hblocks, hblocks']
    decide +kernel

end ToyBtc
