import ToyBtc.Blockchain
import ToyBtc.StandIn

/-!
# What a coinbase is paid

The subsidy is computed twice, by a shift where a template is built and by a
power and a division where a block is checked, and the fees of a block are
computed three times. The fees agree on every block that passes. The subsidies
agree up to the height at which the power no longer fits a word, and no further.
-/

namespace ToyBtc

/-- What arithmetic does on overflow: a debug build unwinds, a release build wraps. -/
inductive OverflowMode
  | checked
  | wrapping
  deriving DecidableEq

/-- A shift to the right. It overflows from the word size on, and then wraps by
taking the distance modulo the word size. -/
def OverflowMode.shiftRight : OverflowMode → UInt64 → UInt64 → Option UInt64
  | .checked, word, distance => if distance.toNat < 64 then some (word >>> distance) else none
  | .wrapping, word, distance => some (word >>> distance)

/-- A power of a word. -/
def OverflowMode.pow : OverflowMode → UInt64 → UInt32 → Option UInt64
  | .checked, base, exponent =>
      if base.toNat ^ exponent.toNat < 2 ^ 64 then
        some (UInt64.ofNat (base.toNat ^ exponent.toNat))
      else none
  | .wrapping, base, exponent => some (UInt64.ofNat (base.toNat ^ exponent.toNat))

/-- A quotient of words. In neither mode is there one by zero. -/
def OverflowMode.div (_ : OverflowMode) (word divisor : UInt64) : Option UInt64 :=
  if divisor = 0 then none else some (word / divisor)

/-- Calculates block subsidy. -/
def calculateBlockRewardIn (mode : OverflowMode) (height : UInt64) : Option UInt64 :=
  mode.shiftRight (btcToSats initialReward) (height / halvingInterval)

/-- The subsidy in the check of a coinbase. -/
def blockRewardIn (mode : OverflowMode) (height : UInt64) : Option UInt64 :=
  (mode.pow 2 (height / halvingInterval).toUInt32).bind (mode.div (btcToSats initialReward))

theorem blockRewardIn_wrapping (height : UInt64) :
    blockRewardIn .wrapping height = blockReward height := rfl

theorem calculateBlockRewardIn_wrapping [Crates] (s : Blockchain) :
    calculateBlockRewardIn .wrapping s.blockHeight = some s.calculateBlockReward := rfl

/-! ### The subsidy -/

theorem toNat_halvings (height : UInt64) :
    (height / halvingInterval).toNat = height.toNat / 210 := UInt64.toNat_div ..

theorem halvings_lt_iff (height : UInt64) :
    (height / halvingInterval).toNat < 64 ↔ height.toNat < subsidyEnd := by
  rw [toNat_halvings, Nat.div_lt_iff_lt_mul (by decide)]
  rfl

theorem toNat_truncated_halvings {height : UInt64} (h : height.toNat < subsidyEnd) :
    (height / halvingInterval).toUInt32.toNat = height.toNat / 210 := by
  have hera := (halvings_lt_iff height).mpr h
  rw [UInt64.toNat_toUInt32, ← toNat_halvings]
  exact Nat.mod_eq_of_lt (hera.trans (by decide))

/-- Before the schedule ends no power overflows. -/
theorem blockRewardIn_of_lt (mode : OverflowMode) {height : UInt64}
    (h : height.toNat < subsidyEnd) : blockRewardIn mode height = blockReward height := by
  cases mode with
  | wrapping => rfl
  | checked =>
      have hpow : (2 : UInt64).toNat ^ (height / halvingInterval).toUInt32.toNat < 2 ^ 64 := by
        rw [toNat_truncated_halvings h, ← toNat_halvings]
        exact Nat.pow_lt_pow_right (by decide) ((halvings_lt_iff height).mpr h)
      rw [blockRewardIn, OverflowMode.pow, if_pos hpow]
      rfl

/-- Before the schedule ends no shift overflows. -/
theorem calculateBlockRewardIn_of_lt (mode : OverflowMode) {height : UInt64}
    (h : height.toNat < subsidyEnd) :
    ∃ reward, calculateBlockRewardIn mode height = some reward ∧
      reward.toNat = subsidy height.toNat := by
  have hera := (halvings_lt_iff height).mpr h
  refine ⟨btcToSats initialReward >>> (height / halvingInterval), ?_, ?_⟩
  · cases mode with
    | wrapping => rfl
    | checked => rw [calculateBlockRewardIn, OverflowMode.shiftRight, if_pos hera]
  · rw [UInt64.toNat_shiftRight, Nat.mod_eq_of_lt hera, toNat_halvings,
      Nat.shiftRight_eq_div_pow]
    rfl

theorem subsidy_antitone : Antitone subsidy := by
  intro earlier height hle
  apply Nat.div_le_div_left
  · exact Nat.pow_le_pow_right (by decide) (Nat.div_le_div_right hle)
  · exact Nat.two_pow_pos _

/-- At a height both computations give the scheduled subsidy in either overflow
mode, and none of them gave less at an earlier height. -/
structure RewardsAgree (height : UInt64) : Prop where
  calculated : ∀ mode, ∃ reward, calculateBlockRewardIn mode height = some reward ∧
    reward.toNat = subsidy height.toNat
  verified : ∀ mode, ∃ reward, blockRewardIn mode height = some reward ∧
    reward.toNat = subsidy height.toNat
  calculated_le : ∀ mode, ∀ earlier ≤ height, ∀ before reward,
    calculateBlockRewardIn mode earlier = some before →
      calculateBlockRewardIn mode height = some reward → reward ≤ before
  verified_le : ∀ mode, ∀ earlier ≤ height, ∀ before reward,
    blockRewardIn mode earlier = some before →
      blockRewardIn mode height = some reward → reward ≤ before

/-- A computation that follows the schedule before its end never gives more later. -/
theorem reward_le {f : UInt64 → Option UInt64}
    (h : ∀ height : UInt64, height.toNat < subsidyEnd →
      ∃ reward, f height = some reward ∧ reward.toNat = subsidy height.toNat)
    {height : UInt64} (hlt : height.toNat < subsidyEnd) :
    ∀ earlier ≤ height, ∀ before reward, f earlier = some before → f height = some reward →
      reward ≤ before := by
  intro earlier hle before reward hbefore hreward
  have hle : earlier.toNat ≤ height.toNat := UInt64.le_iff_toNat_le.mp hle
  obtain ⟨v, hv, hv'⟩ := h earlier (hle.trans_lt hlt)
  obtain ⟨w, hw, hw'⟩ := h height hlt
  obtain rfl := Option.some.inj (hv.symm.trans hbefore)
  obtain rfl := Option.some.inj (hw.symm.trans hreward)
  apply UInt64.le_iff_toNat_le.mpr
  calc w.toNat = subsidy height.toNat := hw'
    _ ≤ subsidy earlier.toNat := subsidy_antitone hle
    _ = v.toNat := hv'.symm

/-- The two computations agree exactly until the subsidy schedule ends. -/
theorem rewardsAgree_iff (height : UInt64) : RewardsAgree height ↔ height.toNat < subsidyEnd := by
  constructor
  · intro h
    obtain ⟨reward, hreward, -⟩ := h.calculated .checked
    rw [← halvings_lt_iff]
    by_contra hera
    rw [calculateBlockRewardIn, OverflowMode.shiftRight, if_neg hera] at hreward
    cases hreward
  · intro h
    have hverified (mode : OverflowMode) (height : UInt64) (h : height.toNat < subsidyEnd) :
        ∃ reward, blockRewardIn mode height = some reward ∧
          reward.toNat = subsidy height.toNat := by
      rw [blockRewardIn_of_lt mode h]
      exact blockReward_of_lt h
    constructor
    · exact fun mode => calculateBlockRewardIn_of_lt mode h
    · exact fun mode => hverified mode height h
    · exact fun mode => reward_le (fun _ => calculateBlockRewardIn_of_lt mode) h
    · exact fun mode => reward_le (hverified mode) h

/-- After 64 halvings the divisor wraps to zero. The shift distance wraps too, and
the calculated subsidy is the first one again. -/
theorem not_rewardsAgree :
    blockRewardIn .wrapping 13440 = none ∧
      calculateBlockRewardIn .wrapping 13440 = some 5000000000 ∧
      blockRewardIn .checked 13440 = none ∧ calculateBlockRewardIn .checked 13440 = none ∧
      ¬ RewardsAgree 13440 := by
  have hverified : blockRewardIn .wrapping 13440 = none := by decide
  refine ⟨hverified, by decide, by decide, by decide, fun h => ?_⟩
  obtain ⟨reward, hreward, -⟩ := h.verified .wrapping
  cases hverified.symm.trans hreward

/-! ### The fees -/

variable [Crates]

/-- On a block that passes, the fee computation of the template builder succeeds
with the fees that the verification has added up, and the coinbase is paid
these on top of the subsidy. -/
theorem Block.minerFees_of_verifyTransactions {b : Block} {height : UInt64} {u : UtxoSet}
    (h : b.verifyTransactions height u = .ok ()) :
    ∃ coinbase txs fees reward, b.transactions = coinbase :: txs ∧
      verifySpends u txs 0 ∅ = .ok fees ∧
      b.calculateMinerFees u = .ok fees ∧
      fees = (txs.map fun tx => tx.fee u).sum ∧
      b.verifyCoinbaseTransaction height fees = .ok () ∧
      blockReward height = some reward ∧ coinbase.outputAmount = reward + fees := by
  obtain ⟨coinbase, txs, htxs, hv⟩ := (verifyTransactions_ok_iff ..).mp h
  obtain ⟨reward, hreward, hpaid⟩ := hv.paid
  refine ⟨coinbase, txs, _, reward, htxs, ?_, ?_, rfl, ?_, hreward, hpaid⟩
  · exact (verifySpends_ok_iff ..).mpr
      ⟨hv.authorized, hv.distinct, by simp, hv.covered, (zero_add _).symm⟩
  · apply (calculateMinerFees_ok_iff ..).mpr
    rw [htxs]
    refine ⟨fun tx htx k hk => ?_, rfl⟩
    obtain ⟨i, hi, rfl⟩ := List.mem_map.mp hk
    obtain ⟨o, ho, -⟩ := hv.authorized tx htx i hi
    exact UtxoSet.mem_iff_output.mpr ⟨o, ho⟩
  · exact (verifyCoinbaseTransaction_ok_iff htxs ..).mpr
      ⟨hv.noInputs, hv.someOutput, hv.paid⟩

omit [Crates] in
/-- A payment of alice leaves a fee of seven. -/
theorem Block.minerFees_toBob :
    letI := StandIn.crates
    let u := UtxoSet.applyBlock ∅ StandIn.genesis
    let paying := StandIn.payment StandIn.firstCoin [StandIn.coin StandIn.bob 2 4999999993]
    let b := StandIn.nextBlock StandIn.genesis 0 minTarget
      [StandIn.coinbase (StandIn.coin StandIn.bob 1 5000000007), paying]
    b.verifyTransactions 1 u = .ok () ∧
      ∃ coinbase txs fees reward, b.transactions = coinbase :: txs ∧
        verifySpends u txs 0 ∅ = .ok fees ∧
        b.calculateMinerFees u = .ok fees ∧
        fees = (txs.map fun tx => tx.fee u).sum ∧
        b.verifyCoinbaseTransaction 1 fees = .ok () ∧
        blockReward 1 = some reward ∧ coinbase.outputAmount = reward + fees := by
  let := StandIn.crates
  intro u paying b
  have hverify : b.verifyTransactions 1 u = .ok () := by decide +kernel
  exact ⟨hverify, minerFees_of_verifyTransactions hverify⟩

end ToyBtc
