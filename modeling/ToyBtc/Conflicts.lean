import ToyBtc.Spends

/-!
# Conflicting mempool transactions and their marks

The search for the older transaction behind a marked output looks at what the
mempool transactions create and not at what they spend. It finds nothing in
the ordinary case, so both transactions stay, and only the marks are reset.
-/

namespace ToyBtc

open MapLog

/-- Different mempool transactions have no input in common. -/
def Mempool.NoDoubleSpend (mempool : Mempool) : Prop :=
  ∀ e ∈ mempool, ∀ e' ∈ mempool, e.2 ≠ e'.2 → ¬ e.2.Conflicts e'.2

instance : Std.Symm fun a b : DateTime × Tx => ¬ a.2.Conflicts b.2 :=
  ⟨fun _ _ h hc => h hc.symm⟩

variable [Crates]

/-- A submitted transaction that could be inserted shares no input with a
mempool transaction. -/
def Call.AvoidsConflicts (s : Blockchain) : Call → Prop
  | .addToMempool _ tx => s.Admissible tx → tx.outputAmount ≤ tx.inputAmount s.utxoSet →
      ∀ e ∈ s.mempool, ¬ tx.Conflicts e.2
  | _ => True

instance (s : Blockchain) (c : Call) : Decidable (c.AvoidsConflicts s) :=
  match c with
  | .addToMempool _ _ => inferInstanceAs (Decidable (_ → _ → _))
  | .addBlock _ | .cleanupMempool _ => isTrue trivial

namespace Blockchain

/-- The mempool entries have pairwise disjoint inputs. -/
def InputsDisjoint (s : Blockchain) : Prop :=
  s.mempool.Pairwise fun a b => ¬ a.2.Conflicts b.2

omit [Crates] in
theorem InputsDisjoint.of_sublist {s t : Blockchain} (hs : s.InputsDisjoint)
    (hsub : t.mempool.Sublist s.mempool) : t.InputsDisjoint :=
  List.Pairwise.sublist hsub hs

theorem InputsDisjoint.step {s t : Blockchain} {c : Call} (hs : s.InputsDisjoint)
    (meets : c.AvoidsConflicts s) (h : s.step c = some t) : t.InputsDisjoint := by
  cases c with
  | addBlock b =>
      rcases step_addBlock_cases h with ⟨added, hadded, rfl⟩ | ⟨-, rfl⟩ | ⟨-, rfl⟩
      · obtain ⟨-, -, target, -, rfl⟩ := (addBlock_ok_iff s added b).mp hadded
        exact hs.of_sublist List.filter_sublist
      · exact hs.of_sublist List.filter_sublist
      · exact hs
  | addToMempool now tx =>
      cases h
      obtain ⟨-, -, -, hsub | ⟨hadm, hpaid, kept, hkept, hperm⟩⟩ := addToMempool_cases s now tx
      · exact hs.of_sublist hsub
      · have hnew : (kept ++ [(now, tx)]).Pairwise fun a b => ¬ a.2.Conflicts b.2 := by
          refine List.pairwise_append.mpr
            ⟨List.Pairwise.sublist hkept hs, List.pairwise_singleton _ _, ?_⟩
          intro e he e' he'
          obtain rfl := List.mem_singleton.mp he'
          exact fun hc => meets hadm hpaid e (hkept.mem he) hc.symm
        exact (hperm.pairwise_iff fun {_ _} h hc => h hc.symm).mpr hnew
  | cleanupMempool now =>
      cases h
      exact hs.of_sublist (cleanupMempool_frame s now).2.2.2

/-- Without conflicting submissions the mempool never holds a double spend. -/
theorem ReachedBy.noDoubleSpend {s : Blockchain} (reached : s.ReachedBy Call.AvoidsConflicts) :
    s.mempool.NoDoubleSpend := by
  have hs : s.InputsDisjoint := by
    refine reached.invariant InputsDisjoint ?_ fun _ _ _ hs meets next => hs.step meets next
    exact List.Pairwise.nil
  intro e he e' he' hne
  exact List.Pairwise.forall hs he he' fun heq => hne (congrArg Prod.snd heq)

omit [Crates] in
/-- Two payments of different coins meet in the mempool. A block takes one of them, and
its output is spent while the other payment is still there. -/
theorem noDoubleSpend_payments :
    letI := StandIn.crates
    ∃ s : Blockchain, s.mempool.map Prod.snd = [StandIn.paysLarge, StandIn.paysOn] ∧
      s.mempool.NoDoubleSpend := by
  let calls : List Call := [.addBlock StandIn.twoCoins, .addToMempool 0 StandIn.paysSmall,
    .addToMempool 1 StandIn.paysLarge, .addBlock StandIn.takesSmall,
    .addToMempool 2 StandIn.paysOn, .cleanupMempool 3]
  have hrun : letI := StandIn.crates
      (StandIn.run calls).any (fun s => decide
        (s.mempool.map Prod.snd = [StandIn.paysLarge, StandIn.paysOn])) = true := by
    decide +kernel
  have meets : letI := StandIn.crates
      Machine.StepsMeet Blockchain.step (fun s c => c.AvoidsConflicts s) Blockchain.new calls := by
    decide +kernel
  let := StandIn.crates
  obtain ⟨s, hs, hmempool⟩ := StandIn.exists_run hrun
  exact ⟨s, hmempool, ReachedBy.noDoubleSpend (StandIn.reachedBy_of_run hs meets)⟩

omit [Crates] in
/-- Two payments of the same coin are both admitted. -/
theorem not_noDoubleSpend :
    letI := StandIn.crates
    ¬ ∀ s : Blockchain, s.Reached → s.mempool.NoDoubleSpend := by
  let := StandIn.crates
  let toAlice := StandIn.payment StandIn.firstCoin [StandIn.coin StandIn.alice 3 4000000000]
  have hrun : (StandIn.run [.addBlock StandIn.genesis, .addToMempool 0 StandIn.toBob,
      .addToMempool 1 toAlice]).any (fun s => decide (∃ e ∈ s.mempool, ∃ e' ∈ s.mempool,
        e.2 ≠ e'.2 ∧ e.2.Conflicts e'.2)) = true := by
    decide +kernel
  obtain ⟨s, hs, e, he, e', he', hne, hc⟩ := StandIn.exists_run hrun
  exact fun h => h s (StandIn.reached_of_run hs) e he e' he' hne hc

/-- An output is marked exactly when a mempool transaction spends it. -/
def MarksExact (s : Blockchain) : Prop :=
  ∀ h marked o, s.utxoSet.lookup h = some (marked, o) →
    (marked = true ↔ ∃ e ∈ s.mempool, h ∈ e.2.spends)

/-- With no creator of a marked input in the mempool, the replacement loop only
resets the marks of the inputs. -/
theorem replaceOlder_of_no_creator (tx : Tx) (inputs : List TxInput) (u : UtxoSet)
    (mempool : Mempool)
    (h : ∀ i ∈ inputs, ∀ o, u.lookup i.prevTxOutputHash = some (true, o) →
      ∀ e ∈ mempool, i.prevTxOutputHash ∉ e.2.creates) :
    replaceOlder tx inputs u mempool =
      (u.setMarks false (inputs.map TxInput.prevTxOutputHash), mempool, true) := by
  induction inputs generalizing u with
  | nil => rfl
  | cons i rest ih =>
      have hrest : ∀ j ∈ rest, ∀ o,
          (u.setMark false i.prevTxOutputHash).lookup j.prevTxOutputHash = some (true, o) →
          ∀ e ∈ mempool, j.prevTxOutputHash ∉ e.2.creates := by
        intro j hj o hlookup
        rw [UtxoSet.lookup_setMark] at hlookup
        split at hlookup
        · simp at hlookup
        · exact h j (by simp [hj]) o hlookup
      have hstep : replaceOlder tx (i :: rest) u mempool =
          replaceOlder tx rest (u.setMark false i.prevTxOutputHash) mempool := by
        rw [replaceOlder]
        split
        · next o hlookup =>
            have hnone : mempool.find? (createsOutput i.prevTxOutputHash) = none := by
              refine List.find?_eq_none.mpr fun e he hcreates => ?_
              obtain ⟨o', ho', hhash⟩ := List.any_eq_true.mp hcreates
              exact h i (by simp) o hlookup e he
                (List.mem_map.mpr ⟨o', ho', of_decide_eq_true hhash⟩)
            rw [hnone]
        · next hunmarked => rw [UtxoSet.setMark_false_of_unmarked fun o ho => hunmarked o ho]
      rw [hstep, ih _ hrest]
      rfl

end Blockchain

/-- The call keeps the marks in step: a block that is stored and replayed leaves no
unspent output to a mempool transaction that stays, one that unwinds before the replay
takes away no transaction that alone spends an unspent output, a submission that
conflicts with the mempool can be inserted and spends nothing a mempool transaction
creates, and no expired transaction shares an unspent output with one that stays. -/
def Call.KeepsMarks (s : Blockchain) : Call → Prop
  | .addBlock b =>
      (s.Accepts b →
        ∀ e ∈ s.remainingMempool b, ∀ h ∈ e.2.spends, h ∉ ledger (s.blocks ++ [b])) ∧
      (s.Unwinds b → ∀ e ∈ s.mempool, ∀ h ∈ e.2.spends, h ∈ s.utxoSet →
        ∃ e' ∈ s.remainingMempool b, h ∈ e'.2.spends)
  | .addToMempool _ tx => s.Admissible tx →
      ∀ e ∈ s.mempool, ∀ h ∈ tx.spends, h ∈ e.2.spends →
        tx.outputAmount ≤ tx.inputAmount s.utxoSet ∧ ∀ e' ∈ s.mempool, h ∉ e'.2.creates
  | .cleanupMempool now =>
      ∀ e ∈ s.mempool, Blockchain.tooOld now e → ∀ e' ∈ s.mempool, ¬ Blockchain.tooOld now e' →
        ∀ h ∈ e.2.spends, h ∈ e'.2.spends → h ∉ s.utxoSet

instance (s : Blockchain) (c : Call) : Decidable (c.KeepsMarks s) :=
  match c with
  | .addBlock _ => inferInstanceAs (Decidable ((_ → _) ∧ (_ → _)))
  | .addToMempool _ tx => inferInstanceAs (Decidable (s.Admissible tx → _))
  | .cleanupMempool now => inferInstanceAs
      (Decidable (∀ e ∈ s.mempool, Blockchain.tooOld now e → ∀ e' ∈ s.mempool, _ → _))

namespace Blockchain

/-- The replay leaves every mark false. -/
theorem unmarked_ledger {bs : List Block} {h : Hash} {marked : Bool} {o : TxOutput}
    (hlookup : (ledger bs).lookup h = some (marked, o)) : marked = false := by
  have hmem := insert_mem_of_lookup_replay hlookup
  obtain ⟨b, -, hlog⟩ := List.mem_flatMap.mp hmem
  obtain ⟨tx, -, hedit⟩ := List.mem_flatMap.mp hlog
  exact (Tx.insert_mem_log.mp hedit).1

theorem MarksExact.addBlock {s added : Blockchain} {b : Block} (hstored : s.Stored)
    (meets : Call.KeepsMarks s (.addBlock b)) (hadded : s.addBlock b = .ok added) :
    added.rebuildUtxoSet.MarksExact := by
  obtain ⟨hblocks, hledger⟩ := hstored.rebuild_addBlock hadded
  intro h marked o hlookup
  rw [hledger] at hlookup
  rw [unmarked_ledger hlookup, mempool_of_addBlock hadded]
  apply iff_of_false (by simp)
  rintro ⟨e, he, hspend⟩
  exact meets.1 ⟨added, hadded⟩ e he h hspend
    (hblocks ▸ Finmap.mem_of_lookup_eq_some hlookup)

/-- A block that unwinds before the replay takes transactions out of the mempool and
leaves the marks. -/
theorem MarksExact.storeBlock {s : Blockchain} {b : Block} (hs : s.MarksExact)
    (meets : Call.KeepsMarks s (.addBlock b)) (hunwinds : s.Unwinds b) :
    (s.stored b).MarksExact := by
  intro h marked o hlookup
  rw [hs h marked o hlookup]
  constructor
  · rintro ⟨e, he, hspend⟩
    exact meets.2 hunwinds e he h hspend (Finmap.mem_of_lookup_eq_some hlookup)
  · rintro ⟨e, he, hspend⟩
    exact ⟨e, List.mem_of_mem_filter he, hspend⟩

omit [Crates] in
/-- Resetting marks keeps them exact if no remaining transaction spends a reset
output and the other outputs are spent by the same transactions as before. -/
theorem MarksExact.reset {s : Blockchain} (hs : s.MarksExact) {marks : List Hash}
    {mempool : Mempool}
    (hreset : ∀ h ∈ marks, h ∈ s.utxoSet → ∀ e ∈ mempool, h ∉ e.2.spends)
    (hkept : ∀ h ∉ marks, (∃ e ∈ s.mempool, h ∈ e.2.spends) ↔ ∃ e ∈ mempool, h ∈ e.2.spends) :
    MarksExact { s with utxoSet := s.utxoSet.setMarks false marks, mempool } := by
  intro h marked o hlookup
  rcases UtxoSet.of_lookup_setMarks hlookup with ⟨hmark, hmem, rfl⟩ | ⟨hmark, hold⟩
  · apply iff_of_false (by simp)
    rintro ⟨e, he, hspend⟩
    exact hreset h hmark hmem e he hspend
  · rw [hs h marked o hold]
    exact hkept h hmark

omit [Crates] in
/-- Marking the inputs of a new mempool transaction keeps the marks exact. -/
theorem MarksExact.insert {s : Blockchain} (hs : s.MarksExact) {now : DateTime} {tx : Tx}
    {mempool : Mempool} (hmem : ∀ e, e ∈ mempool ↔ e ∈ s.mempool ∨ e = (now, tx)) :
    MarksExact { s with
      utxoSet := (s.utxoSet.setMarks false tx.spends).setMarks true tx.spends, mempool } := by
  intro h marked o hlookup
  simp only [hmem]
  rcases UtxoSet.of_lookup_setMarks hlookup with ⟨hspend, -, rfl⟩ | ⟨hspend, hreset⟩
  · exact iff_of_true rfl ⟨(now, tx), Or.inr rfl, hspend⟩
  · have hold : s.utxoSet.lookup h = some (marked, o) := by
      rcases UtxoSet.of_lookup_setMarks hreset with ⟨hspend', -, -⟩ | ⟨-, hold⟩
      · exact absurd hspend' hspend
      · exact hold
    rw [hs h marked o hold]
    constructor
    · rintro ⟨e, he, hspend'⟩
      exact ⟨e, Or.inl he, hspend'⟩
    · rintro ⟨e, he | rfl, hspend'⟩
      · exact ⟨e, he, hspend'⟩
      · exact absurd hspend' hspend

theorem MarksExact.addToMempool {s : Blockchain} {now : DateTime} {tx : Tx} (hs : s.MarksExact)
    (meets : Call.KeepsMarks s (.addToMempool now tx)) :
    (s.addToMempool now tx).1.MarksExact := by
  by_cases hadm : s.Admissible tx
  · have hloop : replaceOlder tx tx.inputs s.utxoSet s.mempool =
        (s.utxoSet.setMarks false tx.spends, s.mempool, true) := by
      apply replaceOlder_of_no_creator
      intro i hi o hlookup
      obtain ⟨e, he, hspend⟩ := (hs _ _ _ hlookup).mp rfl
      exact (meets hadm e he _ (List.mem_map_of_mem hi) hspend).2
    rcases addToMempool_of_admissible hadm now hloop with
      ⟨hfalse, -⟩ | ⟨-, hshort, e, heq⟩ | ⟨-, -, heq⟩
    · cases hfalse
    · -- the inputs are unmarked and stay so, hence no mempool transaction may spend one
      rw [heq]
      apply hs.reset
      · intro h hspend _ e' he' hspend'
        exact UInt64.not_lt.mpr (meets hadm e' he' h hspend hspend').1 hshort
      · exact fun _ _ => Iff.rfl
    · rw [heq]
      apply hs.insert
      intro e
      rw [(sortByFee_perm _ _).mem_iff, List.mem_append, List.mem_singleton]
  · obtain ⟨e, heq⟩ := addToMempool_of_not_admissible hadm now
    rw [heq]
    exact hs

theorem MarksExact.cleanupMempool {s : Blockchain} {now : DateTime} (hs : s.MarksExact)
    (meets : Call.KeepsMarks s (.cleanupMempool now)) : (s.cleanupMempool now).MarksExact := by
  have hmem : ∀ e, e ∈ s.mempool.filter (fun e => !tooOld now e) ↔
      e ∈ s.mempool ∧ ¬ tooOld now e := by
    intro e
    simp [List.mem_filter]
  apply hs.reset
  · intro h hexpired hunspent e' he' hspend'
    obtain ⟨e, he, hspend⟩ := List.mem_flatMap.mp hexpired
    obtain ⟨he, hold⟩ := List.mem_filter.mp he
    obtain ⟨he', hnew⟩ := (hmem e').mp he'
    exact meets e he hold e' he' hnew h hspend hspend' hunspent
  · intro h hkept
    constructor
    · rintro ⟨e, he, hspend⟩
      have hnew : ¬ tooOld now e := fun hexpired =>
        hkept (List.mem_flatMap.mpr ⟨e, List.mem_filter.mpr ⟨he, hexpired⟩, hspend⟩)
      exact ⟨e, (hmem e).mpr ⟨he, hnew⟩, hspend⟩
    · rintro ⟨e, he, hspend⟩
      exact ⟨e, ((hmem e).mp he).1, hspend⟩

/-- As long as the calls keep the marks in step, the marks are exact. -/
theorem ReachedBy.marksExact {s : Blockchain} (reached : s.ReachedBy Call.KeepsMarks) :
    s.MarksExact := by
  refine (reached.invariant (fun s => s.Stored ∧ s.MarksExact) ⟨sound_new.stored, ?_⟩ ?_).2
  · intro h marked o hlookup
    simp [new] at hlookup
  · rintro s c t ⟨hstored, hs⟩ meets next
    refine ⟨hstored.step next, ?_⟩
    cases c with
    | addBlock b =>
        rcases step_addBlock_cases next with ⟨added, hadded, rfl⟩ | ⟨hunwinds, rfl⟩ | ⟨-, rfl⟩
        · exact MarksExact.addBlock hstored meets hadded
        · exact hs.storeBlock meets hunwinds
        · exact hs
    | addToMempool now tx =>
        cases next
        exact hs.addToMempool meets
    | cleanupMempool now =>
        cases next
        exact hs.cleanupMempool meets

omit [Crates] in
/-- A block takes two payments. What they created is spent by two more, and a cleanup
drops the older one. -/
theorem marksExact_payments :
    letI := StandIn.crates
    let small := StandIn.coin StandIn.bob 12 1900000000
    let large := StandIn.coin StandIn.bob 13 2900000000
    ∃ s : Blockchain, s.mempool.map Prod.snd = [StandIn.paysOnLarge] ∧
      s.utxoSet.lookup small.hash = some (false, small) ∧
      s.utxoSet.lookup large.hash = some (true, large) ∧ s.MarksExact := by
  let calls : List Call := [.addBlock StandIn.twoCoins, .addToMempool 0 StandIn.paysSmall,
    .addToMempool 1 StandIn.paysLarge, .addBlock StandIn.takesBoth,
    .addToMempool 2 StandIn.paysOn,
    .addToMempool (maxMempoolTransactionAge * nanosPerSecond) StandIn.paysOnLarge,
    .cleanupMempool (maxMempoolTransactionAge * nanosPerSecond + 3)]
  have hrun : letI := StandIn.crates
      let small := StandIn.coin StandIn.bob 12 1900000000
      let large := StandIn.coin StandIn.bob 13 2900000000
      (StandIn.run calls).any (fun s => decide
        (s.mempool.map Prod.snd = [StandIn.paysOnLarge] ∧
          s.utxoSet.lookup small.hash = some (false, small) ∧
          s.utxoSet.lookup large.hash = some (true, large))) = true := by
    decide +kernel
  have meets : letI := StandIn.crates
      Machine.StepsMeet Blockchain.step (fun s c => c.KeepsMarks s) Blockchain.new calls := by
    decide +kernel
  let := StandIn.crates
  obtain ⟨s, hs, hmempool, hsmall, hlarge⟩ := StandIn.exists_run hrun
  exact ⟨s, hmempool, hsmall, hlarge, ReachedBy.marksExact (StandIn.reachedBy_of_run hs meets)⟩

omit [Crates] in
/-- A block resets the mark of a coin that a mempool transaction still spends. -/
theorem not_marksExact :
    letI := StandIn.crates
    ¬ ∀ s : Blockchain, s.Reached → s.MarksExact := by
  let := StandIn.crates
  let empty := StandIn.nextBlock StandIn.genesis 0 minTarget
    [StandIn.coinbase (StandIn.coin StandIn.bob 1 5000000000)]
  have hrun : (StandIn.run [.addBlock StandIn.genesis, .addToMempool 0 StandIn.toBob,
      .addBlock empty]).any (fun s => decide (∃ e ∈ s.mempool, ∃ h ∈ e.2.spends,
        (s.utxoSet.lookup h) = some (false, StandIn.firstCoin))) = true := by
    decide +kernel
  obtain ⟨s, hs, e, he, h, hspend, hlookup⟩ := StandIn.exists_run hrun
  intro hexact
  have hmarked := (hexact s (StandIn.reached_of_run hs) h false _ hlookup).mpr ⟨e, he, hspend⟩
  cases hmarked

end Blockchain

end ToyBtc
