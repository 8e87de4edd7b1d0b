import ToyBtc.Ledger
import ToyBtc.StandIn
import Mathlib.Data.List.Infix

/-!
# The target as a function of the chain

`add_block` adjusts the target once per block, so the blocks alone decide it, also
where an adjustment unwinds and keeps it. A restart and the end of a synchronization
adjust once more, which moves the target a second time when the height is a multiple of
the update interval.
-/

namespace ToyBtc

/-- The target that a chain leaves, with one adjustment for each of its prefixes, of which
some may unwind. -/
def heldTarget (blocks : List Block) : U256 :=
  blocks.inits.foldl (fun target bs => (Blockchain.adjustedTarget bs target).getD target) minTarget

/-- The target after one adjustment for each prefix of the chain, if none unwinds. -/
def chainTarget (blocks : List Block) : Option U256 :=
  blocks.inits.foldlM (fun target bs => Blockchain.adjustedTarget bs target) minTarget

/-- The chain ends where the target is adjusted. -/
def AtAdjustment (blocks : List Block) : Prop :=
  blocks ≠ [] ∧ blocks.length % difficultyUpdateInterval = 0

theorem inits_concat {α : Type*} (l : List α) (a : α) :
    (l ++ [a]).inits = l.inits ++ [l ++ [a]] := by
  simp [List.inits_append]

theorem heldTarget_concat (bs : List Block) (b : Block) :
    heldTarget (bs ++ [b]) =
      (Blockchain.adjustedTarget (bs ++ [b]) (heldTarget bs)).getD (heldTarget bs) := by
  rw [heldTarget, inits_concat, List.foldl_append]
  rfl

theorem chainTarget_concat (bs : List Block) (b : Block) :
    chainTarget (bs ++ [b]) =
      (chainTarget bs).bind (Blockchain.adjustedTarget (bs ++ [b])) := by
  rw [chainTarget, inits_concat, List.foldlM_append]
  simp [chainTarget]

theorem heldTarget_of_chainTarget {bs : List Block} {target : U256}
    (h : chainTarget bs = some target) : heldTarget bs = target := by
  induction bs using List.reverseRecOn generalizing target with
  | nil => exact Option.some.inj h
  | append_singleton bs b ih =>
      rw [chainTarget_concat] at h
      obtain ⟨before, hbefore, hadjust⟩ := Option.bind_eq_some_iff.mp h
      rw [heldTarget_concat, ih hbefore, hadjust]
      rfl

namespace Blockchain

theorem adjustedTarget_of_not_atAdjustment {blocks : List Block}
    (h : ¬ AtAdjustment blocks) (target : U256) :
    adjustedTarget blocks target = some target := by
  unfold adjustedTarget
  by_cases hempty : blocks = []
  · simp [hempty]
  · have hlen : blocks.length % difficultyUpdateInterval ≠ 0 := fun hmod => h ⟨hempty, hmod⟩
    simp [hempty, hlen]

/-- The target is the one the blocks decide. -/
def OnTarget (s : Blockchain) : Prop := heldTarget s.blocks = s.target

/-- The target is the one the blocks decide, and no adjustment on the way has unwound. -/
def Adjusted (s : Blockchain) : Prop := chainTarget s.blocks = some s.target

theorem OnTarget.of_frame {s t : Blockchain} (hs : s.OnTarget) (hblocks : t.blocks = s.blocks)
    (htarget : t.target = s.target) : t.OnTarget := by
  rw [OnTarget, hblocks, htarget]
  exact hs

theorem Adjusted.of_frame {s t : Blockchain} (hs : s.Adjusted) (hblocks : t.blocks = s.blocks)
    (htarget : t.target = s.target) : t.Adjusted := by
  rw [Adjusted, hblocks, htarget]
  exact hs

theorem onTarget_new : new.OnTarget := rfl

theorem adjusted_new : new.Adjusted := rfl

/-- Away from those heights an adjustment changes nothing. -/
theorem tryAdjustTarget_of_not_atAdjustment {s : Blockchain} (h : ¬ AtAdjustment s.blocks) :
    s.tryAdjustTarget = .ok s := by
  rw [tryAdjustTarget, adjustedTarget_of_not_atAdjustment h]

variable [Crates]

/-- A call leaves blocks and target alone, or it stores a block and adjusts the target,
unless the adjustment unwinds. -/
theorem step_target {s t : Blockchain} {c : Call} (h : s.step c = some t) :
    (t.blocks = s.blocks ∧ t.target = s.target) ∨
      ∃ b, t.blocks = s.blocks ++ [b] ∧
        (adjustedTarget t.blocks s.target = some t.target ∨
          (¬ c.Returns s ∧ adjustedTarget t.blocks s.target = none ∧ t.target = s.target)) := by
  cases c with
  | addBlock b =>
      rcases step_addBlock_cases h with ⟨added, hadded, rfl⟩ | ⟨hunwinds, rfl⟩ | ⟨-, rfl⟩
      · obtain ⟨-, -, target, htarget, rfl⟩ := (addBlock_ok_iff s added b).mp hadded
        exact Or.inr ⟨b, rfl, Or.inl htarget⟩
      · exact Or.inr ⟨b, rfl, Or.inr ⟨not_not_intro hunwinds, hunwinds.2, rfl⟩⟩
      · exact Or.inl ⟨rfl, rfl⟩
  | addToMempool now tx =>
      cases h
      obtain ⟨hblocks, htarget, -⟩ := addToMempool_cases s now tx
      exact Or.inl ⟨hblocks, htarget⟩
  | cleanupMempool now =>
      cases h
      exact Or.inl ⟨rfl, rfl⟩

theorem OnTarget.step {s t : Blockchain} {c : Call} (hs : s.OnTarget) (h : s.step c = some t) :
    t.OnTarget := by
  rcases step_target h with ⟨hblocks, htarget⟩ | ⟨b, hblocks, hadjust⟩
  · exact hs.of_frame hblocks htarget
  · rw [hblocks] at hadjust
    rw [OnTarget, hblocks, heldTarget_concat, hs]
    rcases hadjust with hadjust | ⟨-, hnone, htarget⟩
    · rw [hadjust]
      rfl
    · rw [hnone, htarget]
      rfl

theorem Adjusted.step {s t : Blockchain} {c : Call} (hs : s.Adjusted) (returns : c.Returns s)
    (h : s.step c = some t) : t.Adjusted := by
  rcases step_target h with ⟨hblocks, htarget⟩ | ⟨b, hblocks, hadjust⟩
  · exact hs.of_frame hblocks htarget
  · rw [hblocks] at hadjust
    rw [Adjusted, hblocks, chainTarget_concat, hs]
    rcases hadjust with hadjust | ⟨hunwinds, -⟩
    · exact hadjust
    · exact absurd returns hunwinds

end Blockchain

/-- The event is not an extra adjustment at a height where the target moves. -/
def Event.AdjustsNothing (n : Node) : Event → Prop
  | .restart => ∀ file ∈ n.file, ¬ AtAdjustment file.blocks
  | .tryAdjustTarget => ¬ AtAdjustment n.chain.blocks
  | _ => True

namespace Node

variable [Crates]

def OnTarget (n : Node) : Prop := n.chain.OnTarget ∧ ∀ file ∈ n.file, file.OnTarget

def Adjusted (n : Node) : Prop := n.chain.Adjusted ∧ ∀ file ∈ n.file, file.Adjusted

/-- A property of blocks and target that calls keep is kept by all events without an
extra adjustment. -/
theorem step_both_of_frame {P : Blockchain → Prop} {n m : Node} {e : Event}
    (hnew : P Blockchain.new)
    (hcall : ∀ c chain, e = .call c → n.chain.step c = some chain → P chain)
    (hframe : ∀ s t : Blockchain, P s → t.blocks = s.blocks → t.target = s.target → P t)
    (meets : e.AdjustsNothing n) (hn : P n.chain ∧ ∀ file ∈ n.file, P file)
    (h : n.step e = some m) : P m.chain ∧ ∀ file ∈ m.file, P file := by
  refine step_both hnew hcall (fun hs => hframe _ _ hs rfl rfl) (fun hs => hframe _ _ hs rfl rfl)
    ?_ ?_ hn h
  · rintro file chain rfl hfile hload
    have hboundary : ¬ AtAdjustment file.rebuildUtxoSet.blocks := meets file hfile
    rw [Blockchain.loadFromFile,
      Blockchain.tryAdjustTarget_of_not_atAdjustment hboundary] at hload
    cases hload
    exact hframe _ _ (hn.2 file hfile) rfl rfl
  · rintro chain rfl hadjust
    rw [Blockchain.tryAdjustTarget_of_not_atAdjustment meets] at hadjust
    cases hadjust
    exact hn.1

theorem OnTarget.step {n m : Node} {e : Event} (hn : n.OnTarget) (meets : e.AdjustsNothing n)
    (h : n.step e = some m) : m.OnTarget :=
  step_both_of_frame Blockchain.onTarget_new (fun _ _ _ next => hn.1.step next)
    (fun _ _ hs => hs.of_frame) meets hn h

theorem Adjusted.step {n m : Node} {e : Event} (hn : n.Adjusted) (meets : e.AdjustsNothing n)
    (returns : e.Returns n) (h : n.step e = some m) : m.Adjusted :=
  step_both_of_frame Blockchain.adjusted_new
    (fun _ _ he next => hn.1.step (by subst he; exact returns) next)
    (fun _ _ hs => hs.of_frame) meets hn h

theorem ReachedBy.onTarget {n : Node} (reached : n.ReachedBy Event.AdjustsNothing) :
    n.OnTarget :=
  reached.invariant OnTarget ⟨Blockchain.onTarget_new, by simp [new]⟩
    fun _ _ _ hn meets next => hn.step meets next

theorem ReachedBy.adjusted {n : Node}
    (reached : n.ReachedBy fun n e => e.AdjustsNothing n ∧ e.Returns n) : n.Adjusted :=
  reached.invariant Adjusted ⟨Blockchain.adjusted_new, by simp [new]⟩
    fun _ _ _ hn meets next => hn.step meets.1 meets.2 next

/-- Nodes without extra adjustments at those heights agree on the target as
soon as they agree on the blocks. -/
theorem ReachedBy.target_eq_of_blocks_eq {n m : Node} (hn : n.ReachedBy Event.AdjustsNothing)
    (hm : m.ReachedBy Event.AdjustsNothing) (h : n.chain.blocks = m.chain.blocks) :
    n.chain.target = m.chain.target := by
  rw [← hn.onTarget.1, ← hm.onTarget.1, h]

omit [Crates] in
/-- A node that was restarted after its first block, and one that was not. -/
theorem target_eq_of_blocks_eq_restarted :
    letI := StandIn.crates
    ∃ n m : Node, n.chain.blocks = [StandIn.genesis] ∧ m.file.isSome ∧
      m.chain.blocks = [StandIn.genesis] ∧ n.chain.target = m.chain.target := by
  let := StandIn.crates
  have hplain : (StandIn.runNode [.call (.addBlock StandIn.genesis)]).any
      (fun n => decide (n.chain.blocks = [StandIn.genesis])) = true := by decide +kernel
  have hrestarted : (StandIn.runNode [.call (.addBlock StandIn.genesis), .saveToFile,
      .restart]).any (fun n => decide (n.chain.blocks = [StandIn.genesis] ∧
        n.file.isSome = true)) = true := by decide +kernel
  obtain ⟨n, hn, hblocks⟩ := StandIn.exists_runNode hplain
  obtain ⟨m, hm, hblocks', hfile⟩ := StandIn.exists_runNode hrestarted
  refine ⟨n, m, hblocks, hfile, hblocks', ReachedBy.target_eq_of_blocks_eq
    (StandIn.reachedBy_of_runNode hn ⟨trivial, fun _ _ => trivial⟩)
    (StandIn.reachedBy_of_runNode hm
      ⟨trivial, fun mined hmined => ⟨trivial, fun saved hsaved => ⟨?_, fun _ _ => trivial⟩⟩⟩)
    (hblocks.trans hblocks'.symm)⟩
  -- the file holds the chain of the first node
  rintro file hfile'
  cases hsaved
  cases hfile'
  have hsame : StandIn.runNode [.call (.addBlock StandIn.genesis)] = some mined := by
    simpa [StandIn.runNode] using hmined
  obtain rfl : n = mined := Option.some.inj (hn.symm.trans hsame)
  change ¬ AtAdjustment n.chain.blocks
  simp [hblocks, AtAdjustment, difficultyUpdateInterval]

omit [Crates] in
/-- Fifty blocks in 49 seconds: `add_block` divides the target by four, and the
restart does it again. -/
theorem target_ne_of_restart_atAdjustment :
    letI := StandIn.crates
    ¬ ∀ n m : Node, n.Reached → m.Reached → n.chain.blocks = m.chain.blocks →
      n.chain.target = m.chain.target := by
  let calls := (StandIn.idleBlocks 50).map fun b => Event.call (.addBlock b)
  have hplain : (StandIn.runNode calls).any (fun n => decide (
      n.chain.blocks = StandIn.idleBlocks 50 ∧ n.chain.target = minTarget / 4)) = true := by
    decide +kernel
  have hrestarted : (StandIn.runNode (calls ++ [.saveToFile, .restart])).any (fun n => decide (
      n.chain.blocks = StandIn.idleBlocks 50 ∧ n.chain.target = minTarget / 16)) = true := by
    decide +kernel
  obtain ⟨n, hn, hblocks, htarget⟩ := StandIn.exists_runNode hplain
  obtain ⟨m, hm, hblocks', htarget'⟩ := StandIn.exists_runNode hrestarted
  intro h
  have heq := h n m (StandIn.reached_of_runNode hn) (StandIn.reached_of_runNode hm)
    (hblocks.trans hblocks'.symm)
  rw [htarget, htarget'] at heq
  revert heq
  decide

end Node

end ToyBtc
