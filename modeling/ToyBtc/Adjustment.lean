import ToyBtc.Retarget
import ToyBtc.Template

/-!
# What an adjustment does to the target

The target is scaled by the time the last interval took, by no more than a
factor of four, and capped. The scaled value is read back as a word before it
is bounded, so a slow enough interval unwinds, and it is rounded down, so small
enough targets fall to zero. On all runs in which neither happens every
adjustment is exact.
-/

namespace ToyBtc

instance (blocks : List Block) : Decidable (AtAdjustment blocks) :=
  inferInstanceAs (Decidable (blocks ≠ [] ∧ blocks.length % difficultyUpdateInterval = 0))

/-- The whole seconds between the first and the last block of the last interval. -/
def intervalSeconds (blocks : List Block) : Int :=
  match blocks[blocks.length - difficultyUpdateInterval]?, blocks.getLast? with
  | some first, some last => numSeconds (last.header.timestamp - first.header.timestamp)
  | _, _ => 0

/-- The documented target after an interval: scaled, by no more than a factor of four
in either direction, and at most the minimum target. -/
def exactTarget (target seconds : Nat) : Nat :=
  min minTarget.toNat
    (max (target / 4)
      (min (4 * target) (target * seconds / (idealBlockTime * difficultyUpdateInterval))))

/-- The scaled target fits a word, and the bounded one is not zero. -/
def ScalesWithin (target seconds : Nat) : Prop :=
  target * seconds / (idealBlockTime * difficultyUpdateInterval) < 2 ^ 256 ∧
    (4 ≤ target ∨ idealBlockTime * difficultyUpdateInterval ≤ target * seconds)

theorem exactTarget_pos_iff {target : Nat} (hpos : 0 < target) (seconds : Nat) :
    0 < exactTarget target seconds ↔
      4 ≤ target ∨ idealBlockTime * difficultyUpdateInterval ≤ target * seconds := by
  have hinterval : 0 < idealBlockTime * difficultyUpdateInterval := by decide
  have hmin : 0 < minTarget.toNat := by decide
  have hscaled : 0 < target * seconds / (idealBlockTime * difficultyUpdateInterval) ↔
      idealBlockTime * difficultyUpdateInterval ≤ target * seconds := by
    rw [Nat.div_pos_iff]
    exact and_iff_right hinterval
  rw [exactTarget, lt_min_iff, and_iff_right hmin, lt_max_iff, lt_min_iff, hscaled]
  omega

namespace Blockchain

theorem toNat_capTarget (target : U256) :
    (capTarget target).toNat = min minTarget.toNat target.toNat := by
  unfold capTarget
  split
  · next h => exact (Nat.min_eq_left (BitVec.lt_def.mp h).le).symm
  · next h => exact (Nat.min_eq_right (BitVec.le_def.mp (BitVec.not_lt.mp h))).symm

/-- A target within its bound can be multiplied by four. -/
theorem toNat_mul_four_lt {target : U256} (hle : target ≤ minTarget) :
    target.toNat * 4 < 2 ^ 256 := by
  have h := BitVec.le_def.mp hle
  have hmin : minTarget.toNat < 2 ^ 240 := by decide
  omega

/-- A scaled target that fits a word is bounded as documented. -/
theorem newTarget_eq_exactTarget {target : U256} (hle : target ≤ minTarget) {seconds : Nat}
    (hfit : target.toNat * seconds / (idealBlockTime * difficultyUpdateInterval) < 2 ^ 256) :
    ∃ adjusted, newTarget target seconds = some adjusted ∧
      adjusted.toNat = exactTarget target.toNat seconds := by
  have hnumerator : (target.toNat : Int) * seconds = ((target.toNat * seconds : Nat) : Int) := by
    push_cast
    rfl
  have hhigh := toNat_mul_four_lt hle
  simp only [newTarget, wholePart, hnumerator, checkedMul, hhigh, if_true, Int.toNat_natCast,
    Int.not_ofNat_neg, if_false, hfit]
  unfold exactTarget
  generalize hscaled : target.toNat * seconds / (idealBlockTime * difficultyUpdateInterval) =
    scaled at hfit ⊢
  have hquarter : (target / 4).toNat = target.toNat / 4 := BitVec.toNat_udiv ..
  have hword : (BitVec.ofNat 256 scaled).toNat = scaled := Nat.mod_eq_of_lt hfit
  have hfour : (BitVec.ofNat 256 (target.toNat * 4)).toNat = target.toNat * 4 :=
    Nat.mod_eq_of_lt hhigh
  by_cases hlow : BitVec.ofNat 256 scaled < target / 4
  · refine ⟨_, by rw [if_pos hlow], ?_⟩
    rw [BitVec.lt_def, hword, hquarter] at hlow
    rw [toNat_capTarget, hquarter]
    omega
  · refine ⟨_, by rw [if_neg hlow], ?_⟩
    rw [BitVec.lt_def, hword, hquarter] at hlow
    rw [toNat_capTarget]
    by_cases hover : BitVec.ofNat 256 (target.toNat * 4) < BitVec.ofNat 256 scaled
    · rw [if_pos hover, hfour]
      rw [BitVec.lt_def, hword, hfour] at hover
      omega
    · rw [if_neg hover, hword]
      rw [BitVec.lt_def, hword, hfour] at hover
      omega

/-- The adjustment of a chain on the seconds of its last interval. -/
theorem adjustedTarget_of_atAdjustment {blocks : List Block} (h : AtAdjustment blocks)
    (target : U256) :
    adjustedTarget blocks target = newTarget target (intervalSeconds blocks) := by
  obtain ⟨hne, hmod⟩ := h
  have hindex : blocks.length - difficultyUpdateInterval < blocks.length :=
    Nat.sub_lt (List.length_pos_iff.mpr hne) (by decide)
  unfold adjustedTarget intervalSeconds
  rw [if_neg (by simpa using hne), if_neg (by simpa using hmod),
    List.getElem?_eq_getElem hindex, List.getLast?_eq_some_getLast hne]

theorem intervalSeconds_nonneg {blocks : List Block}
    (h : blocks.Pairwise fun a b => a.header.timestamp < b.header.timestamp) :
    0 ≤ intervalSeconds blocks := by
  unfold intervalSeconds
  split
  · next first last hfirst hlast =>
      have hle := timestamp_le_getLast h (List.mem_of_getElem? hfirst) hlast
      exact Int.tdiv_nonneg (Int.sub_nonneg_of_le hle) (by decide)
  · exact le_rfl

/-- A chain in order adjusts a target within its bounds exactly, and keeps it
within them, if and only if it is at no adjustment or scales within bounds. -/
theorem adjustedTarget_exact_iff {blocks : List Block} {target : U256}
    (htimes : blocks.Pairwise fun a b => a.header.timestamp < b.header.timestamp)
    (hpos : 0 < target) (hle : target ≤ minTarget) :
    (∃ adjusted, adjustedTarget blocks target = some adjusted ∧ 0 < adjusted ∧
        adjusted.toNat = if AtAdjustment blocks then
          exactTarget target.toNat (intervalSeconds blocks).toNat else target.toNat) ↔
      (AtAdjustment blocks → ScalesWithin target.toNat (intervalSeconds blocks).toNat) := by
  by_cases hat : AtAdjustment blocks
  · have hseconds := intervalSeconds_nonneg htimes
    have hposNat : 0 < target.toNat := by simpa using BitVec.lt_def.mp hpos
    obtain ⟨seconds, hnat⟩ := Int.eq_ofNat_of_zero_le hseconds
    rw [adjustedTarget_of_atAdjustment hat, hnat, Int.toNat_natCast, if_pos hat,
      ScalesWithin, ← exactTarget_pos_iff hposNat]
    constructor
    · rintro ⟨adjusted, hadjusted, hgt, hexact⟩ -
      have hfit := (newTarget_isSome_iff hle (Int.natCast_nonneg seconds)).mp
        (Option.isSome_iff_exists.mpr ⟨adjusted, hadjusted⟩)
      refine ⟨by simpa using hfit, ?_⟩
      rw [← hexact]
      simpa using BitVec.lt_def.mp hgt
    · intro h
      obtain ⟨hfit, hgt⟩ := h hat
      obtain ⟨adjusted, hadjusted, hexact⟩ := newTarget_eq_exactTarget hle hfit
      refine ⟨adjusted, hadjusted, BitVec.lt_def.mpr ?_, hexact⟩
      rw [hexact]
      simpa using hgt
  · refine iff_of_true ⟨target, adjustedTarget_of_not_atAdjustment hat target, hpos, ?_⟩
      fun h => absurd h hat
    rw [if_neg hat]

end Blockchain

variable [Crates]

/-- The event brings a chain and its target to an adjustment: a block that has passed
its checks, the chain file of a restart, or the end of a synchronization. -/
def Event.Adjusts (n : Node) (blocks : List Block) (target : U256) : Event → Prop
  | .call (.addBlock b) =>
      n.chain.PassesChecks b ∧ blocks = n.chain.blocks ++ [b] ∧ target = n.chain.target
  | .restart => ∃ file ∈ n.file, blocks = file.blocks ∧ target = file.target
  | .tryAdjustTarget => blocks = n.chain.blocks ∧ target = n.chain.target
  | _ => False

/-- The event's adjustment, if it makes one, does not unwind. -/
def Event.Completes (n : Node) : Event → Prop
  | .call c => c.Returns n.chain
  | .restart => ∀ file ∈ n.file, (Blockchain.loadFromFile file).isOk = true
  | .tryAdjustTarget => n.chain.tryAdjustTarget.isOk = true
  | _ => True

/-- The event's adjustment, if it makes one, returns with the documented target, and in
any case a target within its bounds is left. -/
structure Event.AdjustsExactly (n : Node) (e : Event) : Prop where
  exact : ∀ blocks target, e.Adjusts n blocks target → e.Completes n ∧
    ∃ m, n.step e = some m ∧ m.chain.target.toNat = if AtAdjustment blocks then
      exactTarget target.toNat (intervalSeconds blocks).toNat else target.toNat
  bounds : ∀ m, n.step e = some m → 0 < m.chain.target ∧ m.chain.target ≤ minTarget

/-- Where the event adjusts a target, the scaled one stays within bounds. -/
def Event.ScalesWithin (n : Node) (e : Event) : Prop :=
  ∀ blocks target, e.Adjusts n blocks target → AtAdjustment blocks →
    ToyBtc.ScalesWithin target.toNat (intervalSeconds blocks).toNat

namespace Node

/-- Timestamps increase and targets are within their bounds. -/
structure Adjustable (n : Node) : Prop where
  stored : n.Stored
  target_pos : 0 < n.chain.target
  file_pos : ∀ file ∈ n.file, 0 < file.target

/-- An event completes when its adjustment returns, and the result is the target that it
leaves. -/
theorem completes_iff {n : Node} {e : Event} {blocks : List Block} {target adjusted : U256}
    (h : e.Adjusts n blocks target) :
    e.Completes n ∧ (∃ m, n.step e = some m ∧ m.chain.target = adjusted) ↔
      Blockchain.adjustedTarget blocks target = some adjusted := by
  cases e with
  | call c =>
      cases c with
      | addBlock b =>
          obtain ⟨hpasses, rfl, rfl⟩ := h
          constructor
          · rintro ⟨hreturns, m, next, rfl⟩
            obtain ⟨chain, hchain, rfl⟩ := step_call_iff.mp next
            rcases Blockchain.step_addBlock_cases hchain with
              ⟨added, hadded, rfl⟩ | ⟨hunwinds, -⟩ | ⟨hrefused, -⟩
            · obtain ⟨-, -, target, htarget, rfl⟩ := (Blockchain.addBlock_ok_iff ..).mp hadded
              exact htarget
            · exact absurd hunwinds hreturns
            · exact absurd hpasses hrefused
          · intro hadjusted
            have hadded := (Blockchain.addBlock_ok_iff ..).mpr
              ⟨hpasses.1, hpasses.2, adjusted, hadjusted, rfl⟩
            refine ⟨(Blockchain.accepts_iff_passesChecks.mp ⟨_, hadded⟩).2, _,
              step_call_iff.mpr ⟨_, Blockchain.step_addBlock_of_ok hadded, rfl⟩, rfl⟩
      | addToMempool now tx => exact h.elim
      | cleanupMempool now => exact h.elim
  | saveToFile => exact h.elim
  | restart =>
      obtain ⟨file, hfile, rfl, rfl⟩ := h
      rw [Option.mem_def] at hfile
      simp only [Event.Completes, Node.step, hfile, Blockchain.loadFromFile,
        Blockchain.tryAdjustTarget, Blockchain.rebuildUtxoSet]
      cases hadjust : Blockchain.adjustedTarget file.blocks file.target <;>
        simp [hadjust, unwind, Except.isOk, Except.toBool, Except.toOption]
  | rebuildUtxoSet => exact h.elim
  | tryAdjustTarget =>
      obtain ⟨rfl, rfl⟩ := h
      simp only [Event.Completes, Node.step, Blockchain.tryAdjustTarget]
      cases Blockchain.adjustedTarget n.chain.blocks n.chain.target <;>
        simp [unwind, Except.isOk, Except.toBool]

/-- Without an adjustment the target stays, or a node without a file starts over. -/
theorem target_step_of_not_adjusts {n m : Node} {e : Event}
    (h : ∀ blocks target, ¬ e.Adjusts n blocks target) (next : n.step e = some m) :
    m.chain.target = n.chain.target ∨ m.chain.target = minTarget := by
  cases e with
  | call c =>
      obtain ⟨chain, hchain, rfl⟩ := step_call_iff.mp next
      cases c with
      | addBlock b =>
          rcases Blockchain.step_addBlock_cases hchain with
            ⟨added, hadded, -⟩ | ⟨hunwinds, -⟩ | ⟨-, rfl⟩
          · obtain ⟨hheader, hverify, -⟩ := (Blockchain.addBlock_ok_iff ..).mp hadded
            exact absurd ⟨⟨hheader, hverify⟩, rfl, rfl⟩ (h _ _)
          · exact absurd ⟨hunwinds.1, rfl, rfl⟩ (h _ _)
          · exact Or.inl rfl
      | addToMempool now tx =>
          cases hchain
          exact Or.inl (Blockchain.addToMempool_cases n.chain now tx).2.1
      | cleanupMempool now =>
          cases hchain
          exact Or.inl rfl
  | saveToFile =>
      cases next
      exact Or.inl rfl
  | restart =>
      rcases step_restart_iff.mp next with ⟨-, rfl⟩ | ⟨file, chain, hfile, -, -⟩
      · exact Or.inr rfl
      · exact absurd ⟨file, hfile, rfl, rfl⟩ (h _ _)
  | rebuildUtxoSet =>
      cases next
      exact Or.inl rfl
  | tryAdjustTarget => exact absurd ⟨rfl, rfl⟩ (h _ _)

/-- What an event brings to an adjustment is in order and within bounds. -/
theorem Adjustable.of_adjusts {n : Node} (hn : n.Adjustable) {e : Event} {blocks : List Block}
    {target : U256} (h : e.Adjusts n blocks target) :
    (blocks.Pairwise fun a b => a.header.timestamp < b.header.timestamp) ∧
      0 < target ∧ target ≤ minTarget := by
  cases e with
  | call c =>
      cases c with
      | addBlock b =>
          obtain ⟨⟨hheader, -⟩, rfl, rfl⟩ := h
          exact ⟨timestamps_lt_concat hn.stored.1.checked.timestamps_lt hheader, hn.target_pos,
            hn.stored.1.target⟩
      | addToMempool now tx => exact h.elim
      | cleanupMempool now => exact h.elim
  | saveToFile => exact h.elim
  | restart =>
      obtain ⟨file, hfile, rfl, rfl⟩ := h
      have hstored := hn.stored.2 file hfile
      exact ⟨hstored.checked.timestamps_lt, hn.file_pos file hfile, hstored.target⟩
  | rebuildUtxoSet => exact h.elim
  | tryAdjustTarget =>
      obtain ⟨rfl, rfl⟩ := h
      exact ⟨hn.stored.1.checked.timestamps_lt, hn.target_pos, hn.stored.1.target⟩

/-- The chain file changes only when the chain is saved. -/
theorem file_step {n m : Node} {e : Event} (next : n.step e = some m) :
    m.file = n.file ∨ m.file = some n.chain.saved := by
  cases e with
  | call c =>
      obtain ⟨chain, -, rfl⟩ := step_call_iff.mp next
      exact Or.inl rfl
  | saveToFile =>
      cases next
      exact Or.inr rfl
  | restart =>
      rcases step_restart_iff.mp next with ⟨-, rfl⟩ | ⟨file, chain, -, -, rfl⟩
      · exact Or.inl rfl
      · exact Or.inl rfl
  | rebuildUtxoSet =>
      cases next
      exact Or.inl rfl
  | tryAdjustTarget =>
      rcases step_tryAdjustTarget_cases next with ⟨chain, -, rfl⟩ | ⟨-, rfl⟩
      · exact Or.inl rfl
      · exact Or.inl rfl

theorem Adjustable.step {n m : Node} {e : Event} (hn : n.Adjustable)
    (meets : e.AdjustsExactly n) (next : n.step e = some m) : m.Adjustable where
  stored := hn.stored.step next
  target_pos := (meets.bounds m next).1
  file_pos file hfile := by
    rcases file_step next with hsame | hsaved
    · exact hn.file_pos file (hsame ▸ hfile)
    · rw [hsaved] at hfile
      cases hfile
      exact hn.target_pos

/-- One event adjusts exactly when its scaled target stays within bounds. -/
theorem Adjustable.exactly_iff_scalesWithin {n : Node} (hn : n.Adjustable) (e : Event) :
    e.AdjustsExactly n ↔ e.ScalesWithin n := by
  constructor
  · intro h blocks target hadjusts
    obtain ⟨htimes, hpos, hle⟩ := hn.of_adjusts hadjusts
    obtain ⟨hcompletes, m, hm, hexact⟩ := h.exact blocks target hadjusts
    exact (Blockchain.adjustedTarget_exact_iff htimes hpos hle).mp
      ⟨m.chain.target, (completes_iff hadjusts).mp ⟨hcompletes, m, hm, rfl⟩, (h.bounds m hm).1,
        hexact⟩
  · intro h
    have hadjusted (blocks : List Block) (target : U256) (hadjusts : e.Adjusts n blocks target) :
        e.Completes n ∧ ∃ m, n.step e = some m ∧ 0 < m.chain.target ∧
          m.chain.target.toNat = if AtAdjustment blocks then
            exactTarget target.toNat (intervalSeconds blocks).toNat else target.toNat := by
      obtain ⟨htimes, hpos, hle⟩ := hn.of_adjusts hadjusts
      obtain ⟨adjusted, hadjusted, hgt, hexact⟩ :=
        (Blockchain.adjustedTarget_exact_iff htimes hpos hle).mpr (h blocks target hadjusts)
      obtain ⟨hcompletes, m, hm, rfl⟩ := (completes_iff hadjusts).mpr hadjusted
      exact ⟨hcompletes, m, hm, hgt, hexact⟩
    constructor
    · intro blocks target hadjusts
      obtain ⟨hcompletes, m, hm, -, hexact⟩ := hadjusted blocks target hadjusts
      exact ⟨hcompletes, m, hm, hexact⟩
    · intro m next
      refine ⟨?_, (hn.stored.step next).1.target⟩
      by_cases hadjusts : ∃ blocks target, e.Adjusts n blocks target
      · obtain ⟨blocks, target, hadjusts⟩ := hadjusts
        obtain ⟨-, m', hm', hgt, -⟩ := hadjusted blocks target hadjusts
        obtain rfl := Option.some.inj (hm'.symm.trans next)
        exact hgt
      · rcases target_step_of_not_adjusts (fun blocks target h => hadjusts ⟨blocks, target, h⟩)
          next with hsame | hmin
        · rw [hsame]
          exact hn.target_pos
        · rw [hmin]
          decide

theorem adjustable_new : new.Adjustable where
  stored := ReachedBy.stored (C := fun _ _ => True) .refl
  target_pos := by decide
  file_pos := by simp [new]

/-- Along a run from a fresh node all adjustments are exact if and only if all scaled
targets stay within bounds. -/
theorem adjustsExactly_iff (events : List Event) :
    Machine.StepsMeet Node.step (fun n e => e.AdjustsExactly n) new events ↔
      Machine.StepsMeet Node.step (fun n e => e.ScalesWithin n) new events :=
  Machine.stepsMeet_iff Adjustable (fun _ e hn => hn.exactly_iff_scalesWithin e)
    (fun _ _ _ hn meets next => hn.step meets next) adjustable_new events

omit [Crates] in
/-- After 49 quick blocks more than a year passes until the next one. Its scaled target
does not fit a word, and the adjustment unwinds with the block in the chain. -/
theorem not_adjustsExactly :
    letI := StandIn.crates
    ¬ ∀ n : Node, n.Reached → ∀ e : Event, e.AdjustsExactly n := by
  let calls := (StandIn.idleBlocks 49).map fun b => Event.call (.addBlock b)
  let late := StandIn.lateBlock StandIn.lastQuick
    [StandIn.coinbase (StandIn.coin StandIn.alice 49 5000000000)]
  have hrun : letI := StandIn.crates
      (StandIn.runNode calls).any (fun n => decide (n.chain.Unwinds late)) = true := by
    decide +kernel
  let := StandIn.crates
  obtain ⟨n, hn, hunwinds⟩ := StandIn.exists_runNode hrun
  intro h
  have hexact := (h n (StandIn.reached_of_runNode hn)
    (.call (.addBlock late))).exact _ _ ⟨hunwinds.1, rfl, rfl⟩
  exact hexact.1 hunwinds

end Node

end ToyBtc
