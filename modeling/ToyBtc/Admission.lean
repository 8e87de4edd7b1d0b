import ToyBtc.Blockchain

/-!
# What a mempool call can change

Marks never change an output, the replacement loop only removes mempool
entries, and a submitted transaction is either turned away before the loop,
dropped after it, or inserted. Later proofs use these facts and never unfold
the calls.
-/

namespace ToyBtc

namespace UtxoSet

theorem lookup_setMark (marked : Bool) (u : UtxoSet) (h k : Hash) :
    (u.setMark marked h).lookup k =
      if k = h then (u.lookup k).map fun v => (marked, v.2) else u.lookup k := by
  unfold setMark
  cases hu : u.lookup h with
  | none =>
      by_cases hk : k = h
      · subst hk; simp [hu]
      · simp [hk]
  | some v =>
      by_cases hk : k = h
      · subst hk; simp [hu]
      · simp [hk, Finmap.lookup_insert_of_ne _ hk]

theorem lookup_setMarks (marked : Bool) (u : UtxoSet) (hs : List Hash) (k : Hash) :
    (u.setMarks marked hs).lookup k =
      if k ∈ hs then (u.lookup k).map fun v => (marked, v.2) else u.lookup k := by
  unfold setMarks
  induction hs generalizing u with
  | nil => simp
  | cons h rest ih =>
      rw [List.foldl_cons, ih, lookup_setMark]
      by_cases hk : k = h <;> by_cases hrest : k ∈ rest <;> simp [hk, hrest, Function.comp_def]

/-- Where a mark found after setting marks comes from. -/
theorem of_lookup_setMarks {marked found : Bool} {u : UtxoSet} {hs : List Hash} {k : Hash}
    {o : TxOutput} (h : (u.setMarks marked hs).lookup k = some (found, o)) :
    (k ∈ hs ∧ k ∈ u ∧ found = marked) ∨ (k ∉ hs ∧ u.lookup k = some (found, o)) := by
  rw [lookup_setMarks] at h
  split at h
  · next hk =>
      obtain ⟨v, hv, heq⟩ := Option.map_eq_some_iff.mp h
      obtain ⟨rfl, -⟩ := Prod.mk.inj heq
      exact Or.inl ⟨hk, Finmap.mem_of_lookup_eq_some hv, rfl⟩
  · next hk => exact Or.inr ⟨hk, h⟩

/-- Resetting a mark that is not set changes nothing. -/
theorem setMark_false_of_unmarked {u : UtxoSet} {h : Hash}
    (hu : ∀ o, u.lookup h ≠ some (true, o)) : u.setMark false h = u := by
  apply Finmap.ext_lookup
  intro k
  rw [lookup_setMark]
  split
  · next hk =>
      subst hk
      cases hv : u.lookup k with
      | none => rfl
      | some v =>
          obtain ⟨marked, o⟩ := v
          cases marked with
          | false => rfl
          | true => exact absurd hv (hu o)
  · rfl

@[simp] theorem output_setMark (marked : Bool) (u : UtxoSet) (h : Hash) :
    (u.setMark marked h).output = u.output := by
  funext k
  simp only [output, lookup_setMark]
  split <;> simp [Function.comp_def]

@[simp] theorem output_setMarks (marked : Bool) (u : UtxoSet) (hs : List Hash) :
    (u.setMarks marked hs).output = u.output := by
  funext k
  simp only [output, lookup_setMarks]
  split <;> simp [Function.comp_def]

/-- UTXO sets with the same outputs give every transaction the same amounts. -/
theorem inputAmount_congr {u u' : UtxoSet} (h : u.output = u'.output) (tx : Tx) :
    tx.inputAmount u = tx.inputAmount u' := by
  simp only [Tx.inputAmount, h]

/-- The amount of the inputs depends on the outputs that they name. -/
theorem inputAmount_congr_of_spends {u u' : UtxoSet} {tx : Tx}
    (h : ∀ k ∈ tx.spends, u.output k = u'.output k) : tx.inputAmount u = tx.inputAmount u' := by
  have hinputs : ∀ i ∈ tx.inputs, (u.output i.prevTxOutputHash).map TxOutput.amount =
      (u'.output i.prevTxOutputHash).map TxOutput.amount := fun i hi => by
    rw [h _ (List.mem_map_of_mem hi)]
  rw [Tx.inputAmount, Tx.inputAmount, List.filterMap_congr hinputs]

theorem fee_congr {u u' : UtxoSet} (h : u.output = u'.output) (tx : Tx) :
    tx.fee u = tx.fee u' := by
  simp only [Tx.fee, inputAmount_congr h]

theorem mem_congr {u u' : UtxoSet} (h : u.output = u'.output) (k : Hash) : k ∈ u ↔ k ∈ u' := by
  simp only [mem_iff_output, h]

end UtxoSet

variable [Crates]

namespace Blockchain

theorem checkInputs_ok_iff (u : UtxoSet) (tx : Tx) (inputs : List TxInput)
    (seen : Finset Hash) :
    checkInputs u tx inputs seen = .ok () ↔
      (∀ h ∈ inputs.map TxInput.prevTxOutputHash, h ∈ u ∧ h ∉ seen) ∧
      (inputs.map TxInput.prevTxOutputHash).Nodup := by
  induction inputs generalizing seen with
  | nil => simp [checkInputs]
  | cons i rest ih =>
      rw [checkInputs, List.map_cons, List.forall_mem_cons, List.nodup_cons]
      by_cases hmem : i.prevTxOutputHash ∈ u
      · by_cases hseen : i.prevTxOutputHash ∈ seen
        · simp [hmem, hseen]
        · simp only [hmem, hseen, not_true_eq_false, if_false, ih, Finset.mem_insert, not_or]
          grind
      · simp [hmem]

/-- A submitted transaction passes the checks made before the replacement loop. -/
structure Admissible (s : Blockchain) (tx : Tx) : Prop where
  new : ∀ e ∈ s.mempool, e.2.hash ≠ tx.hash
  known : ∀ h ∈ tx.spends, h ∈ s.utxoSet
  distinct : tx.spends.Nodup

instance (s : Blockchain) (tx : Tx) : Decidable (s.Admissible tx) :=
  decidable_of_iff ((∀ e ∈ s.mempool, e.2.hash ≠ tx.hash) ∧ (∀ h ∈ tx.spends, h ∈ s.utxoSet) ∧
      tx.spends.Nodup)
    ⟨fun h => ⟨h.1, h.2.1, h.2.2⟩, fun h => ⟨h.new, h.known, h.distinct⟩⟩

/-- At the input `i` the loop finds an older transaction that pays a higher fee. -/
def OutbidAt (tx : Tx) (i : TxInput) (u : UtxoSet) (mempool : Mempool) : Prop :=
  (∃ o, u.lookup i.prevTxOutputHash = some (true, o)) ∧
    ∃ e, mempool.find? (createsOutput i.prevTxOutputHash) = some e ∧ tx.fee u < e.2.fee u

/-- One round of the loop: it returns early, or changes marks, drops entries and goes on. -/
theorem replaceOlder_round (tx : Tx) (i : TxInput) (u : UtxoSet) (mempool : Mempool) :
    (OutbidAt tx i u mempool ∧
      ∀ rest, replaceOlder tx (i :: rest) u mempool = (u, mempool, false)) ∨
    (¬ OutbidAt tx i u mempool ∧
      ∃ (u' : UtxoSet) (mempool' : Mempool), u'.output = u.output ∧ mempool'.Sublist mempool ∧
        ∀ rest, replaceOlder tx (i :: rest) u mempool = replaceOlder tx rest u' mempool') := by
  by_cases hmarked : ∃ o, u.lookup i.prevTxOutputHash = some (true, o)
  · obtain ⟨o, ho⟩ := hmarked
    cases hfind : mempool.find? (createsOutput i.prevTxOutputHash) with
    | none =>
        refine Or.inr ⟨fun ⟨_, e, he, _⟩ => ?_, u.setMark false i.prevTxOutputHash, mempool,
          UtxoSet.output_setMark .., List.Sublist.refl _, fun rest => ?_⟩
        · rw [hfind] at he
          cases he
        · simp [replaceOlder, ho, hfind]
    | some e =>
        by_cases hfee : tx.fee u < e.2.fee u
        · exact Or.inl ⟨⟨⟨o, ho⟩, e, hfind, hfee⟩,
            fun rest => by simp [replaceOlder, ho, hfind, hfee]⟩
        · refine Or.inr ⟨fun ⟨_, e', he', hlt⟩ => ?_, u.setMarks false e.2.spends,
            mempool.eraseP (createsOutput i.prevTxOutputHash), UtxoSet.output_setMarks ..,
            List.eraseP_sublist, fun rest => by simp [replaceOlder, ho, hfind, hfee]⟩
          obtain rfl := Option.some.inj (hfind.symm.trans he')
          exact hfee hlt
  · refine Or.inr ⟨fun h => hmarked h.1, u, mempool, rfl, List.Sublist.refl _, fun rest => ?_⟩
    rw [replaceOlder]
    split
    · next o ho => exact absurd ⟨o, ho⟩ hmarked
    · rfl

/-- The loop changes marks only, and keeps a sublist of the mempool. -/
theorem replaceOlder_frame (tx : Tx) (inputs : List TxInput) (u : UtxoSet) (mempool : Mempool) :
    (replaceOlder tx inputs u mempool).1.output = u.output ∧
      (replaceOlder tx inputs u mempool).2.1.Sublist mempool := by
  induction inputs generalizing u mempool with
  | nil => exact ⟨rfl, List.Sublist.refl _⟩
  | cons i rest ih =>
      rcases replaceOlder_round tx i u mempool with
        ⟨-, heq⟩ | ⟨-, u', mempool', hout', hsub', heq⟩
      · rw [heq]
        exact ⟨rfl, List.Sublist.refl _⟩
      · rw [heq]
        obtain ⟨hout, hsub⟩ := ih u' mempool'
        exact ⟨hout.trans hout', hsub.trans hsub'⟩

/-- The loop returns early exactly if it comes to an input at which the
transaction is outbid. -/
theorem replaceOlder_eq_false_iff (tx : Tx) (inputs : List TxInput) (u : UtxoSet)
    (mempool : Mempool) :
    (replaceOlder tx inputs u mempool).2.2 = false ↔
      ∃ pre i post u' mempool', inputs = pre ++ i :: post ∧
        replaceOlder tx pre u mempool = (u', mempool', true) ∧ OutbidAt tx i u' mempool' := by
  induction inputs generalizing u mempool with
  | nil => simp [replaceOlder]
  | cons i rest ih =>
      rcases replaceOlder_round tx i u mempool with
        ⟨houtbid, heq⟩ | ⟨hgo, u₁, mempool₁, -, -, heq⟩
      · rw [heq]
        exact iff_of_true rfl ⟨[], i, rest, u, mempool, rfl, rfl, houtbid⟩
      · rw [heq, ih]
        constructor
        · rintro ⟨pre, j, post, u', mempool', rfl, hpre, houtbid⟩
          exact ⟨i :: pre, j, post, u', mempool', rfl, (heq pre).trans hpre, houtbid⟩
        · rintro ⟨pre, j, post, u', mempool', hinputs, hpre, houtbid⟩
          cases pre with
          | nil =>
              -- the loop does not stop at its first input
              obtain ⟨rfl, rfl⟩ := List.cons.inj hinputs
              cases hpre
              exact absurd houtbid hgo
          | cons k pre =>
              obtain ⟨rfl, rfl⟩ := List.cons.inj hinputs
              exact ⟨pre, j, post, u', mempool', rfl, (heq pre).symm.trans hpre, houtbid⟩

omit [Crates] in
theorem sortByFee_perm (u : UtxoSet) (mempool : Mempool) :
    (sortByFee u mempool).Perm mempool :=
  List.perm_insertionSort _ _

/-- A call with an inadmissible transaction reports an error and changes nothing. -/
theorem addToMempool_of_not_admissible {s : Blockchain} {tx : Tx} (h : ¬ s.Admissible tx)
    (now : DateTime) : ∃ e, s.addToMempool now tx = (s, .error e) := by
  unfold addToMempool
  split
  · exact ⟨_, rfl⟩
  · next hnew =>
      cases hcheck : checkInputs s.utxoSet tx tx.inputs ∅ with
      | error e => exact ⟨e, rfl⟩
      | ok v =>
          obtain ⟨hknown, hdistinct⟩ := (checkInputs_ok_iff ..).mp hcheck
          refine absurd ⟨fun e he heq => hnew ?_, fun k hk => (hknown k hk).1, hdistinct⟩ h
          exact List.any_eq_true.mpr ⟨e, he, by simpa using heq⟩

/-- A call with an admissible transaction runs the replacement loop and then drops
or inserts the transaction. -/
theorem addToMempool_of_admissible {s : Blockchain} {tx : Tx} (h : s.Admissible tx)
    (now : DateTime) {u : UtxoSet} {mempool : Mempool} {proceed : Bool}
    (hloop : replaceOlder tx tx.inputs s.utxoSet s.mempool = (u, mempool, proceed)) :
    (proceed = false ∧
      s.addToMempool now tx = ({ s with utxoSet := u, mempool }, .ok ())) ∨
    (proceed = true ∧ tx.inputAmount s.utxoSet < tx.outputAmount ∧
      ∃ e, s.addToMempool now tx = ({ s with utxoSet := u, mempool }, .error e)) ∨
    (proceed = true ∧ tx.outputAmount ≤ tx.inputAmount s.utxoSet ∧
      s.addToMempool now tx =
        ({ s with
            utxoSet := u.setMarks true tx.spends
            mempool := sortByFee (u.setMarks true tx.spends) (mempool ++ [(now, tx)]) },
          .ok ())) := by
  have hframe := replaceOlder_frame tx tx.inputs s.utxoSet s.mempool
  rw [hloop] at hframe
  have hamount : tx.inputAmount u = tx.inputAmount s.utxoSet :=
    UtxoSet.inputAmount_congr hframe.1 tx
  have hnew : ¬ (s.mempool.any fun e => e.2.hash = tx.hash) = true := by
    simpa using h.new
  have hcheck : checkInputs s.utxoSet tx tx.inputs ∅ = .ok () :=
    (checkInputs_ok_iff ..).mpr ⟨fun k hk => ⟨h.known k hk, by simp⟩, h.distinct⟩
  simp only [addToMempool, hnew, Bool.false_eq_true, if_false, hcheck, hloop]
  cases proceed with
  | false => exact Or.inl ⟨rfl, rfl⟩
  | true =>
      dsimp only
      rw [hamount]
      split
      · next hlt => exact Or.inr (Or.inl ⟨rfl, hlt, _, rfl⟩)
      · next hge => exact Or.inr (Or.inr ⟨rfl, UInt64.not_lt.mp hge, rfl⟩)

/-- The call inserts the transaction: it reports success and the transaction is
in the mempool afterwards. -/
def Inserts (s : Blockchain) (now : DateTime) (tx : Tx) : Prop :=
  (s.addToMempool now tx).2 = .ok () ∧ ∃ time, (time, tx) ∈ (s.addToMempool now tx).1.mempool

instance (s : Blockchain) (now : DateTime) (tx : Tx) : Decidable (s.Inserts now tx) :=
  decidable_of_iff ((s.addToMempool now tx).2.toOption = some () ∧
      ∃ e ∈ (s.addToMempool now tx).1.mempool, e.2 = tx) <| by
    refine and_congr ?_ ⟨fun ⟨e, he, h⟩ => ⟨e.1, h ▸ he⟩, fun ⟨time, he⟩ => ⟨_, he, rfl⟩⟩
    cases (s.addToMempool now tx).2 with
    | error e => simp [Except.toOption]
    | ok v => simp [Except.toOption]

/-- A submission either leaves the outputs and shrinks the mempool, or adds a
transaction that is admissible and pays for its outputs. -/
theorem addToMempool_cases (s : Blockchain) (now : DateTime) (tx : Tx) :
    (s.addToMempool now tx).1.blocks = s.blocks ∧
    (s.addToMempool now tx).1.target = s.target ∧
    (s.addToMempool now tx).1.utxoSet.output = s.utxoSet.output ∧
    ((s.addToMempool now tx).1.mempool.Sublist s.mempool ∨
      (s.Admissible tx ∧ tx.outputAmount ≤ tx.inputAmount s.utxoSet ∧
        ∃ kept, kept.Sublist s.mempool ∧
          (s.addToMempool now tx).1.mempool.Perm (kept ++ [(now, tx)]))) := by
  by_cases h : s.Admissible tx
  · rcases hloop : replaceOlder tx tx.inputs s.utxoSet s.mempool with ⟨u, mempool, proceed⟩
    obtain ⟨hout, hsub⟩ := replaceOlder_frame tx tx.inputs s.utxoSet s.mempool
    rw [hloop] at hout hsub
    rcases addToMempool_of_admissible h now hloop with
      ⟨-, heq⟩ | ⟨-, -, e, heq⟩ | ⟨-, hpaid, heq⟩
    · rw [heq]
      exact ⟨rfl, rfl, hout, Or.inl hsub⟩
    · rw [heq]
      exact ⟨rfl, rfl, hout, Or.inl hsub⟩
    · rw [heq]
      exact ⟨rfl, rfl, (UtxoSet.output_setMarks ..).trans hout,
        Or.inr ⟨h, hpaid, mempool, hsub, sortByFee_perm _ _⟩⟩
  · obtain ⟨e, heq⟩ := addToMempool_of_not_admissible h now
    rw [heq]
    exact ⟨rfl, rfl, rfl, Or.inl (List.Sublist.refl _)⟩

/-- Only an admissible transaction that pays for its outputs is inserted. -/
theorem Inserts.admissible {s : Blockchain} {now : DateTime} {tx : Tx} (h : s.Inserts now tx) :
    s.Admissible tx ∧ tx.outputAmount ≤ tx.inputAmount s.utxoSet := by
  obtain ⟨hok, time, hmem⟩ := h
  by_cases hadm : s.Admissible tx
  · obtain ⟨-, -, -, hsub | ⟨-, hpaid, -⟩⟩ := addToMempool_cases s now tx
    · exact absurd rfl (hadm.new _ (hsub.mem hmem))
    · exact ⟨hadm, hpaid⟩
  · obtain ⟨e, heq⟩ := addToMempool_of_not_admissible hadm now
    rw [heq] at hok
    cases hok

omit [Crates] in
/-- A cleanup changes marks and drops entries. -/
theorem cleanupMempool_frame (s : Blockchain) (now : DateTime) :
    (s.cleanupMempool now).blocks = s.blocks ∧
    (s.cleanupMempool now).target = s.target ∧
    (s.cleanupMempool now).utxoSet.output = s.utxoSet.output ∧
    (s.cleanupMempool now).mempool.Sublist s.mempool :=
  ⟨rfl, rfl, UtxoSet.output_setMarks .., List.filter_sublist⟩

end Blockchain

end ToyBtc
