import ToyBtc.Blockchain

/-!
# The chain that `add_block` leaves behind

A block is pushed before the target is adjusted. When the adjustment unwinds,
the write lock is released with the block in the chain, and the other tasks of
the node go on with it.
-/

namespace ToyBtc

variable [Crates]

namespace Blockchain

/-- `add_block` up to the adjustment: the checks, the eviction and the push. -/
def storeBlock (s : Blockchain) (b : Block) : Outcome Blockchain :=
  match checkHeader s.blocks b with
  | .error e => .error e
  | .ok () =>
      match b.verifyTransactions s.blockHeight s.utxoSet with
      | .error e => .error e
      | .ok () => .ok { s with blocks := s.blocks ++ [b], mempool := s.remainingMempool b }

/-- `add_block` together with the chain it leaves behind, also when it unwinds. -/
def addBlockInPlace (s : Blockchain) (b : Block) : Blockchain × Outcome Unit :=
  match s.storeBlock b with
  | .error e => (s, .error e)
  | .ok stored =>
      match stored.tryAdjustTarget with
      | .error e => (stored, .error e)
      | .ok t => (t, .ok ())

/-- `add_block`, and `rebuild_utxo_set` once it has returned. -/
def addAndRebuild (s : Blockchain) (b : Block) : Blockchain × Outcome Unit :=
  match s.addBlockInPlace b with
  | (t, .ok ()) => (t.rebuildUtxoSet, .ok ())
  | (t, .error e) => (t, .error e)

theorem storeBlock_ok_iff {s t : Blockchain} {b : Block} :
    s.storeBlock b = .ok t ↔
      checkHeader s.blocks b = .ok () ∧ b.verifyTransactions s.blockHeight s.utxoSet = .ok () ∧
        t = { s with blocks := s.blocks ++ [b], mempool := s.remainingMempool b } := by
  unfold storeBlock
  cases checkHeader s.blocks b with
  | error e => simp
  | ok v =>
      cases b.verifyTransactions s.blockHeight s.utxoSet with
      | error e => simp
      | ok v => simp [eq_comm]

theorem addBlock_eq_storeBlock (s : Blockchain) (b : Block) :
    s.addBlock b = (s.storeBlock b).bind tryAdjustTarget := by
  unfold addBlock storeBlock
  cases checkHeader s.blocks b with
  | error e => rfl
  | ok v =>
      cases b.verifyTransactions s.blockHeight s.utxoSet with
      | error e => rfl
      | ok v => rfl

/-- What `add_block` reports, and the chain it returns with. -/
theorem addBlockInPlace_eq (s : Blockchain) (b : Block) :
    s.addBlock b = (s.addBlockInPlace b).2.map fun _ => (s.addBlockInPlace b).1 := by
  rw [addBlock_eq_storeBlock, addBlockInPlace]
  cases s.storeBlock b with
  | error e => rfl
  | ok stored =>
      change stored.tryAdjustTarget = _
      cases hadjust : stored.tryAdjustTarget with
      | error e => simp only [hadjust]; rfl
      | ok t => simp only [hadjust]; rfl

/-- The block is appended when the checks pass, whatever the adjustment does. -/
theorem blocks_addBlockInPlace (s : Blockchain) (b : Block) :
    (s.addBlockInPlace b).1.blocks =
      if (s.storeBlock b).isOk then s.blocks ++ [b] else s.blocks := by
  unfold addBlockInPlace
  cases hstore : s.storeBlock b with
  | error e => rfl
  | ok stored =>
      obtain ⟨-, -, rfl⟩ := storeBlock_ok_iff.mp hstore
      dsimp only
      cases hadjust : tryAdjustTarget _ with
      | error e => rfl
      | ok t => exact blocks_tryAdjustTarget hadjust

theorem addAndRebuild_cases (s : Blockchain) (b : Block) :
    (∃ t, s.addBlock b = .ok t ∧ s.addAndRebuild b = (t.rebuildUtxoSet, .ok ())) ∨
      ∃ e, s.addBlock b = .error e ∧ s.addAndRebuild b = ((s.addBlockInPlace b).1, .error e) := by
  rw [addBlockInPlace_eq, addAndRebuild]
  rcases s.addBlockInPlace b with ⟨t, e | v⟩
  · exact Or.inr ⟨e, rfl, rfl⟩
  · exact Or.inl ⟨t, rfl, rfl⟩

/-- A block that is refused leaves the chain as it is. -/
theorem addBlockInPlace_of_refused {s : Blockchain} {b : Block} {e : BtcError}
    (h : s.addBlock b = .error (.error e)) : (s.addBlockInPlace b).1 = s := by
  rw [addBlock_eq_storeBlock] at h
  unfold addBlockInPlace
  cases hstore : s.storeBlock b with
  | error e => rfl
  | ok stored =>
      rw [hstore] at h
      change stored.tryAdjustTarget = _ at h
      unfold tryAdjustTarget at h
      cases htarget : adjustedTarget stored.blocks stored.target <;> rw [htarget] at h <;> cases h

theorem blocks_addAndRebuild (s : Blockchain) (b : Block) :
    (s.addAndRebuild b).1.blocks = (s.addBlockInPlace b).1.blocks := by
  unfold addAndRebuild
  rcases s.addBlockInPlace b with ⟨t, e | v⟩ <;> rfl

/-- The block passes the checks that are made before it is appended. -/
def PassesChecks (s : Blockchain) (b : Block) : Prop :=
  checkHeader s.blocks b = .ok () ∧ b.verifyTransactions s.blockHeight s.utxoSet = .ok ()

theorem storeBlock_isOk_iff {s : Blockchain} {b : Block} :
    (s.storeBlock b).isOk = true ↔ s.PassesChecks b := by
  constructor
  · intro h
    cases hstore : s.storeBlock b with
    | error e => rw [hstore] at h; cases h
    | ok t => exact ⟨(storeBlock_ok_iff.mp hstore).1, (storeBlock_ok_iff.mp hstore).2.1⟩
  · rintro ⟨hheader, hverify⟩
    rw [storeBlock_ok_iff.mpr ⟨hheader, hverify, rfl⟩]
    rfl

theorem appends_iff {s : Blockchain} {b : Block} :
    (s.addBlockInPlace b).1.blocks = s.blocks ++ [b] ↔ s.PassesChecks b := by
  rw [blocks_addBlockInPlace, ← storeBlock_isOk_iff]
  cases (s.storeBlock b).isOk <;> simp

/-- The chain after a block is pushed and before the target is adjusted. -/
def stored (s : Blockchain) (b : Block) : Blockchain :=
  { s with blocks := s.blocks ++ [b], mempool := s.remainingMempool b }

/-- The block is pushed, and the adjustment after it unwinds. -/
def Unwinds (s : Blockchain) (b : Block) : Prop :=
  s.PassesChecks b ∧ adjustedTarget (s.blocks ++ [b]) s.target = none

instance (s : Blockchain) (b : Block) : Decidable (s.PassesChecks b) :=
  decidable_of_iff _ storeBlock_isOk_iff

instance (s : Blockchain) (b : Block) : Decidable (s.Unwinds b) :=
  inferInstanceAs (Decidable (_ ∧ _))

theorem accepts_iff_passesChecks {s : Blockchain} {b : Block} :
    s.Accepts b ↔ s.PassesChecks b ∧ ¬ s.Unwinds b := by
  rw [accepts_iff, PassesChecks, Unwinds, PassesChecks, ← Option.ne_none_iff_isSome]
  tauto

/-- A block that is not accepted leaves the chain as it is, or it is stored and the set
is not replayed. -/
theorem addBlockInPlace_of_error {s : Blockchain} {b : Block} {e : Abort}
    (h : s.addBlock b = .error e) :
    (s.Unwinds b ∧ (s.addBlockInPlace b).1 = s.stored b) ∨
      (¬ s.PassesChecks b ∧ (s.addBlockInPlace b).1 = s) := by
  rw [addBlock_eq_storeBlock] at h
  unfold addBlockInPlace
  cases hstore : s.storeBlock b with
  | error e =>
      refine Or.inr ⟨fun hpasses => ?_, rfl⟩
      rw [← storeBlock_isOk_iff, hstore] at hpasses
      cases hpasses
  | ok pushed =>
      have hpasses : s.PassesChecks b := storeBlock_isOk_iff.mp (by rw [hstore]; rfl)
      obtain ⟨-, -, rfl⟩ := storeBlock_ok_iff.mp hstore
      rw [hstore] at h
      change tryAdjustTarget _ = _ at h
      exact Or.inl ⟨⟨hpasses, tryAdjustTarget_error_iff.mp ⟨e, h⟩⟩, by simp only [h]; rfl⟩

end Blockchain

end ToyBtc
