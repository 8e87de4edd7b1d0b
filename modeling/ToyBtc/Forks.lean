import ToyBtc.Flooding
import ToyBtc.Connections
import ToyBtc.Sync
import ToyBtc.Validation

/-!
# Forks

A block names the block that it stands on, and a node never gives up a block.
Nodes whose headers have parted refuse each other's blocks from then on, in
whatever way these come.
-/

namespace ToyBtc

open Flooding

variable [Crates]

/-- A block of a linked chain passes the header checks only on top of the headers that
it stands on. -/
theorem LinkedBack.headers_isPrefix {bs bs' : List Block} (linked : LinkedBack bs)
    (linked' : LinkedBack bs')
    (hinj : ∀ x ∈ bs, ∀ y ∈ bs', x.header.hash = y.header.hash → x.header = y.header)
    (hzero : ∀ x ∈ bs, x.header.hash ≠ Hash.zero) (hzero' : ∀ y ∈ bs', y.header.hash ≠ Hash.zero)
    {b : Block} (hb : b ∈ bs') (hcheck : Blockchain.checkHeader bs b = .ok ()) :
    bs.map Block.header <+: bs'.map Block.header := by
  obtain ⟨pre, post, rfl⟩ := List.append_of_mem hb
  have hpre : LinkedBack pre := fun before x after hsplit =>
    linked' before x (after ++ b :: post) (by simp [hsplit])
  have htip : tipHash bs = tipHash pre := by
    rw [← Blockchain.prevBlockHash_of_checkHeader hcheck, linked' pre b post rfl]
  have hheaders := linked.map_header_eq hpre
    (fun x hx y hy => hinj x hx y (List.mem_append_left _ hy)) hzero
    (fun y hy => hzero' y (List.mem_append_left _ hy)) htip
  rw [hheaders, List.map_append]
  exact List.prefix_append _ _

/-- A stream whose blocks all fail the header checks leaves the chain as it is. -/
theorem Blockchain.fetchMissingBlocks_of_refused {s : Blockchain} {stream : List Block}
    (h : ∀ b ∈ stream, checkHeader s.blocks b ≠ .ok ()) :
    (s.fetchMissingBlocks stream).1 = s := by
  cases stream with
  | nil => rfl
  | cons b rest =>
      have hrefused : ∃ e, s.addBlock b = .error (.error e) := by
        cases hcheck : checkHeader s.blocks b with
        | ok v => exact absurd hcheck (h b List.mem_cons_self)
        | error e =>
            cases e with
            | error e => exact ⟨e, by rw [addBlock, hcheck]⟩
            | panic => exact absurd hcheck (checkHeader_ne_panic _ _)
      obtain ⟨e, he⟩ := hrefused
      rw [fetchMissingBlocks]
      rcases s.addAndRebuild_cases b with ⟨t, hadd, -⟩ | ⟨e', -, heq⟩
      · rw [he] at hadd
        cases hadd
      · rw [heq]
        exact addBlockInPlace_of_refused he

namespace Node

/-- Once the headers of two nodes have parted, they stay apart whatever the nodes do until
they restart. Neither passes the header checks of the other with any of its blocks, and
a download from the other changes nothing. -/
theorem Becomes.parted_for_good {n n' p p' : Node} (hn : n.Reached) (hp : p.Reached)
    (parted : Parted (n.chain.blocks.map Block.header) (p.chain.blocks.map Block.header))
    (later : n.Becomes n') (later' : p.Becomes p')
    (hinj : ∀ x ∈ n'.chain.blocks, ∀ y ∈ p'.chain.blocks,
      x.header.hash = y.header.hash → x.header = y.header)
    (hzero : ∀ x ∈ n'.chain.blocks ++ p'.chain.blocks, x.header.hash ≠ Hash.zero) :
    Parted (n'.chain.blocks.map Block.header) (p'.chain.blocks.map Block.header) ∧
      (∀ b ∈ p'.chain.blocks, Blockchain.checkHeader n'.chain.blocks b ≠ .ok ()) ∧
      ∀ start nBlocks, (n'.chain.fetchMissingBlocks
        (NodeSvc.fetchBlocks p'.chain start nBlocks)).1 = n'.chain := by
  have hchecked := (ReachedBy.stored (hn.trans (later.imp fun _ _ _ => trivial))).1.checked
  have hchecked' := (ReachedBy.stored (hp.trans (later'.imp fun _ _ _ => trivial))).1.checked
  have hparted := parted.grow (later.blocks_isPrefix.map Block.header)
    (later'.blocks_isPrefix.map Block.header)
  have hrefused : ∀ b ∈ p'.chain.blocks,
      Blockchain.checkHeader n'.chain.blocks b ≠ .ok () := fun b hb hcheck =>
    hparted.1 (hchecked.linkedBack.headers_isPrefix hchecked'.linkedBack hinj
      (fun x hx => hzero x (List.mem_append_left _ hx))
      (fun y hy => hzero y (List.mem_append_right _ hy)) hb hcheck)
  refine ⟨hparted, hrefused, fun start nBlocks => ?_⟩
  refine Blockchain.fetchMissingBlocks_of_refused fun b hb => hrefused b ?_
  exact List.mem_of_mem_drop (List.mem_of_mem_take hb)

omit [Crates] in
/-- Two miners have started a chain, and one of them has gone on. -/
theorem Becomes.parted_for_good_spendingBlock :
    letI := StandIn.crates
    ∃ n p : Node, n.chain.blocks.length = 1 ∧
      p.chain.blocks = [StandIn.genesis, StandIn.spendingBlock] ∧
      Parted (n.chain.blocks.map Block.header) (p.chain.blocks.map Block.header) ∧
      ∀ b ∈ p.chain.blocks, Blockchain.checkHeader n.chain.blocks b ≠ .ok () := by
  let := StandIn.crates
  let other : Block := ⟨{ StandIn.genesis.header with nonce := 1 }, StandIn.genesis.transactions⟩
  have hrun : (StandIn.runNode [.call (.addBlock other)]).any (fun n => decide (
      n.chain.blocks = [other])) = true := by
    decide +kernel
  have hrun' : (StandIn.runNode [.call (.addBlock StandIn.genesis)]).any (fun p => decide (
      p.chain.blocks = [StandIn.genesis] ∧
        (p.step (.call (.addBlock StandIn.spendingBlock))).any (fun p' => decide (
          p'.chain.blocks = [StandIn.genesis, StandIn.spendingBlock])) = true)) = true := by
    decide +kernel
  have hinj : ∀ x ∈ [other], ∀ y ∈ [StandIn.genesis, StandIn.spendingBlock],
      x.header.hash = y.header.hash → x.header = y.header := by
    decide +kernel
  have hzero : ∀ x ∈ [other] ++ [StandIn.genesis, StandIn.spendingBlock],
      x.header.hash ≠ Hash.zero := by
    decide +kernel
  obtain ⟨n, hn, hblocks⟩ := StandIn.exists_runNode hrun
  obtain ⟨p, hp, hblocks', hnext⟩ := StandIn.exists_runNode hrun'
  obtain ⟨p', hp', hblocks''⟩ := exists_of_any hnext
  have later : p.Becomes p' := .tail .refl (by simp) hp'
  have hparted : Parted (n.chain.blocks.map Block.header) (p.chain.blocks.map Block.header) := by
    rw [hblocks, hblocks']
    decide +kernel
  obtain ⟨hgood, hrefused, -⟩ := Becomes.parted_for_good (StandIn.reached_of_runNode hn)
    (StandIn.reached_of_runNode hp) hparted .refl later
    (by rw [hblocks, hblocks'']; exact hinj) (by rw [hblocks, hblocks'']; exact hzero)
  exact ⟨n, p', by rw [hblocks]; rfl, hblocks'', hgood, hrefused⟩

end Node

end ToyBtc
