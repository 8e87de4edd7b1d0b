import ToyBtc.Conflicts
import ToyBtc.Relay

/-!
# Replacement by fee

The loop over the inputs of a submitted transaction looks for the older
transaction behind a marked output among those that create it, not among those
that spend it, and it drops entries and resets marks before the last check has
been made. What it comes to depends on the marked inputs and the mempool alone,
and from that follows when a submission replaces what it conflicts with, and
when one that is not inserted leaves everything in place.
-/

namespace ToyBtc

namespace UtxoSet

/-- The output is there and marked. -/
def isMarked (u : UtxoSet) (h : Hash) : Bool := (u.lookup h).any Prod.fst

theorem isMarked_iff {u : UtxoSet} {h : Hash} :
    u.isMarked h = true ↔ ∃ o, u.lookup h = some (true, o) := by
  simp [isMarked, Option.any_eq_true]

theorem isMarked_congr {u u' : UtxoSet} {h : Hash} (heq : u.lookup h = u'.lookup h) :
    u.isMarked h = u'.isMarked h := by
  rw [isMarked, isMarked, heq]

theorem isMarked_setMarks_false (u : UtxoSet) (hs : List Hash) (k : Hash) :
    (u.setMarks false hs).isMarked k = (u.isMarked k && decide (k ∉ hs)) := by
  rw [isMarked, isMarked, lookup_setMarks]
  by_cases hk : k ∈ hs
  · cases u.lookup k <;> simp [hk]
  · simp [hk]

theorem isMarked_setMarks_of_not_mem {marked : Bool} {u : UtxoSet} {hs : List Hash} {k : Hash}
    (hk : k ∉ hs) : (u.setMarks marked hs).isMarked k = u.isMarked k := by
  apply isMarked_congr
  rw [lookup_setMarks, if_neg hk]

theorem isMarked_setMarks_true {u : UtxoSet} {hs : List Hash} {k : Hash} (hk : k ∈ hs)
    (hu : k ∈ u) : (u.setMarks true hs).isMarked k = true := by
  obtain ⟨v, hv⟩ := Finmap.mem_iff.mp hu
  rw [isMarked, lookup_setMarks, if_pos hk, hv]
  rfl

theorem setMarks_append (marked : Bool) (u : UtxoSet) (hs hs' : List Hash) :
    u.setMarks marked (hs ++ hs') = (u.setMarks marked hs).setMarks marked hs' :=
  List.foldl_append

theorem setMark_eq_setMarks (marked : Bool) (u : UtxoSet) (h : Hash) :
    u.setMark marked h = u.setMarks marked [h] := rfl

end UtxoSet

variable [Crates]

namespace Blockchain

/-- For each listed output in turn the first transaction that creates it, without
the outputs that an earlier one of these transactions spends. -/
def creatorsInTurn : List Hash → List Hash → Mempool → Mempool
  | [], _, _ => []
  | h :: rest, released, mempool =>
      if h ∈ released then creatorsInTurn rest released mempool
      else
        match mempool.find? (createsOutput h) with
        | none => creatorsInTurn rest released mempool
        | some e =>
            e :: creatorsInTurn rest (e.2.spends ++ released)
              (mempool.eraseP (createsOutput h))

/-- The creators in turn of those listed outputs that are marked. -/
def creatorsFound (u : UtxoSet) (hs : List Hash) (mempool : Mempool) : Mempool :=
  creatorsInTurn (hs.filter u.isMarked) [] mempool

theorem creatorsInTurn_append (hs more released : List Hash) (mempool : Mempool) :
    creatorsInTurn hs (more ++ released) mempool =
      creatorsInTurn (hs.filter fun h => h ∉ released) more mempool := by
  induction hs generalizing more mempool with
  | nil => rfl
  | cons h rest ih =>
      by_cases hreleased : h ∈ released
      · rw [creatorsInTurn, if_pos (List.mem_append_right _ hreleased), ih,
          List.filter_cons_of_neg (by simpa using hreleased)]
      · rw [List.filter_cons_of_pos (by simpa using hreleased), creatorsInTurn, creatorsInTurn]
        simp only [List.mem_append, hreleased, or_false, ih, ← List.append_assoc]

/-- Creators are looked up for marked outputs only. -/
theorem creatorsFound_unmarked {u : UtxoSet} {h : Hash} (hu : ¬ u.isMarked h) (rest : List Hash)
    (mempool : Mempool) : creatorsFound u (h :: rest) mempool = creatorsFound u rest mempool := by
  rw [creatorsFound, List.filter_cons_of_neg hu, creatorsFound]

theorem creatorsFound_none {u : UtxoSet} {h : Hash} {rest : List Hash} {mempool : Mempool}
    (hu : u.isMarked h) (hfind : mempool.find? (createsOutput h) = none) (hrest : h ∉ rest) :
    creatorsFound u (h :: rest) mempool = creatorsFound (u.setMark false h) rest mempool := by
  have hsame : rest.filter u.isMarked = rest.filter (u.setMark false h).isMarked := by
    apply List.filter_congr
    intro k hk
    have hne : k ≠ h := fun heq => hrest (heq ▸ hk)
    simp [UtxoSet.setMark_eq_setMarks, UtxoSet.isMarked_setMarks_false, hne]
  rw [creatorsFound, List.filter_cons_of_pos hu, creatorsInTurn, if_neg (List.not_mem_nil),
    hfind, hsame, creatorsFound]

theorem creatorsFound_some {u : UtxoSet} {h : Hash} {mempool : Mempool} {e : DateTime × Tx}
    (hu : u.isMarked h) (hfind : mempool.find? (createsOutput h) = some e) (rest : List Hash) :
    creatorsFound u (h :: rest) mempool =
      e :: creatorsFound (u.setMarks false e.2.spends) rest
        (mempool.eraseP (createsOutput h)) := by
  have hfilter : (rest.filter u.isMarked).filter (fun k => k ∉ e.2.spends) =
      rest.filter (u.setMarks false e.2.spends).isMarked := by
    rw [List.filter_filter]
    apply List.filter_congr
    intro k _
    rw [UtxoSet.isMarked_setMarks_false, Bool.and_comm]
  rw [creatorsFound, List.filter_cons_of_pos hu, creatorsInTurn, if_neg (List.not_mem_nil), hfind]
  dsimp only
  rw [List.append_nil, ← List.nil_append e.2.spends, creatorsInTurn_append, hfilter, creatorsFound]
  rfl

/-! ### One round of the loop -/

theorem replaceOlder_unmarked (tx : Tx) {i : TxInput} {u : UtxoSet}
    (hu : ¬ u.isMarked i.prevTxOutputHash) (rest : List TxInput) (mempool : Mempool) :
    replaceOlder tx (i :: rest) u mempool = replaceOlder tx rest u mempool := by
  rw [replaceOlder]
  split
  · next o ho => exact absurd (UtxoSet.isMarked_iff.mpr ⟨o, ho⟩) hu
  · rfl

theorem replaceOlder_none (tx : Tx) {i : TxInput} {u : UtxoSet} {mempool : Mempool}
    (hu : u.isMarked i.prevTxOutputHash)
    (hfind : mempool.find? (createsOutput i.prevTxOutputHash) = none) (rest : List TxInput) :
    replaceOlder tx (i :: rest) u mempool =
      replaceOlder tx rest (u.setMark false i.prevTxOutputHash) mempool := by
  obtain ⟨o, ho⟩ := UtxoSet.isMarked_iff.mp hu
  simp [replaceOlder, ho, hfind]

theorem replaceOlder_some (tx : Tx) {i : TxInput} {u : UtxoSet} {mempool : Mempool}
    {e : DateTime × Tx} (hu : u.isMarked i.prevTxOutputHash)
    (hfind : mempool.find? (createsOutput i.prevTxOutputHash) = some e) (rest : List TxInput) :
    replaceOlder tx (i :: rest) u mempool =
      if tx.fee u < e.2.fee u then (u, mempool, false)
      else replaceOlder tx rest (u.setMarks false e.2.spends)
        (mempool.eraseP (createsOutput i.prevTxOutputHash)) := by
  obtain ⟨o, ho⟩ := UtxoSet.isMarked_iff.mp hu
  simp [replaceOlder, ho, hfind]

theorem outbidAt_iff {tx : Tx} {i : TxInput} {u : UtxoSet} {mempool : Mempool} :
    OutbidAt tx i u mempool ↔ u.isMarked i.prevTxOutputHash = true ∧
      ∃ e, mempool.find? (createsOutput i.prevTxOutputHash) = some e ∧ tx.fee u < e.2.fee u := by
  rw [OutbidAt, UtxoSet.isMarked_iff]

/-- What the loop comes to, given the creators of the marked inputs: it stops at the
first one that pays more, and otherwise drops them all and resets their inputs. -/
structure Replaces (tx : Tx) (u : UtxoSet) (mempool : Mempool) (found : Mempool)
    (inputs : List TxInput) : Prop where
  stops_iff : (replaceOlder tx inputs u mempool).2.2 = false ↔ ∃ e ∈ found, tx.fee u < e.2.fee u
  dropped : (replaceOlder tx inputs u mempool).2.2 = true →
    mempool.Perm (found ++ (replaceOlder tx inputs u mempool).2.1)
  released : (replaceOlder tx inputs u mempool).2.2 = true →
    ∀ k ∉ inputs.map TxInput.prevTxOutputHash,
      (replaceOlder tx inputs u mempool).1.lookup k =
        (u.setMarks false (found.flatMap fun e => e.2.spends)).lookup k
  kept : ∀ e ∈ found.head?, tx.fee u < e.2.fee u →
    (replaceOlder tx inputs u mempool).2.1 = mempool
  shrunk : ∀ e ∈ found.head?, ¬ tx.fee u < e.2.fee u →
    (replaceOlder tx inputs u mempool).2.1.length < mempool.length

omit [Crates] in
theorem perm_cons_eraseP {α : Type} {p : α → Bool} {l : List α} {a : α} (h : l.find? p = some a) :
    l.Perm (a :: l.eraseP p) := by
  obtain ⟨hp, before, after, rfl, hbefore⟩ := List.find?_eq_some_iff_append.mp h
  have herase : (before ++ a :: after).eraseP p = before ++ after := by
    rw [List.eraseP_append_right _ (fun x hx => by simpa using hbefore x hx),
      List.eraseP_cons_of_pos hp]
  rw [herase]
  exact List.perm_middle

/-- A round that drops a transaction leaves a shorter mempool. -/
theorem length_replaceOlder_lt {h : Hash} {mempool : Mempool} {e : DateTime × Tx}
    (hfind : mempool.find? (createsOutput h) = some e) (tx : Tx) (rest : List TxInput)
    (u : UtxoSet) :
    (replaceOlder tx rest u (mempool.eraseP (createsOutput h))).2.1.length < mempool.length := by
  have hsub := (replaceOlder_frame tx rest u (mempool.eraseP (createsOutput h))).2.length_le
  have hlen := (perm_cons_eraseP hfind).length_eq
  rw [List.length_cons] at hlen
  omega

theorem Replaces.unmarked {tx : Tx} {i : TxInput} {rest : List TxInput} {u : UtxoSet}
    {mempool found : Mempool} (hu : ¬ u.isMarked i.prevTxOutputHash)
    (hrest : Replaces tx u mempool found rest) : Replaces tx u mempool found (i :: rest) := by
  have heq := replaceOlder_unmarked tx hu rest mempool
  constructor
  · rw [heq]
    exact hrest.stops_iff
  · rw [heq]
    exact hrest.dropped
  · intro hgo k hk
    rw [heq] at hgo ⊢
    rw [List.map_cons, List.mem_cons, not_or] at hk
    exact hrest.released hgo k hk.2
  · rw [heq]
    exact hrest.kept
  · rw [heq]
    exact hrest.shrunk

theorem Replaces.none {tx : Tx} {i : TxInput} {rest : List TxInput} {u : UtxoSet}
    {mempool found : Mempool} (hu : u.isMarked i.prevTxOutputHash)
    (hfind : mempool.find? (createsOutput i.prevTxOutputHash) = none)
    (hrest : Replaces tx (u.setMark false i.prevTxOutputHash) mempool found rest) :
    Replaces tx u mempool found (i :: rest) := by
  have hfee : ∀ tx : Tx, tx.fee (u.setMark false i.prevTxOutputHash) = tx.fee u :=
    UtxoSet.fee_congr (UtxoSet.output_setMark ..)
  have heq := replaceOlder_none tx hu hfind rest
  constructor
  · rw [heq, hrest.stops_iff]
    simp only [hfee]
  · rw [heq]
    exact hrest.dropped
  · intro hgo k hk
    rw [heq] at hgo ⊢
    rw [List.map_cons, List.mem_cons, not_or] at hk
    rw [hrest.released hgo k hk.2, UtxoSet.lookup_setMarks, UtxoSet.lookup_setMarks,
      UtxoSet.lookup_setMark, if_neg hk.1]
  · rw [heq]
    simpa only [hfee] using hrest.kept
  · rw [heq]
    simpa only [hfee] using hrest.shrunk

/-- The loop stops at a creator that pays more. -/
theorem Replaces.stop {tx : Tx} {i : TxInput} {u : UtxoSet} {mempool : Mempool}
    {e : DateTime × Tx} (hu : u.isMarked i.prevTxOutputHash)
    (hfind : mempool.find? (createsOutput i.prevTxOutputHash) = some e)
    (hmore : tx.fee u < e.2.fee u) (rest : List TxInput) (found : Mempool) :
    Replaces tx u mempool (e :: found) (i :: rest) := by
  have heq := replaceOlder_some tx hu hfind rest
  rw [if_pos hmore] at heq
  constructor
  · rw [heq]
    exact iff_of_true rfl ⟨e, List.mem_cons_self, hmore⟩
  · rw [heq]
    exact fun hgo => by cases hgo
  · rw [heq]
    exact fun hgo => by cases hgo
  · rw [heq]
    exact fun _ _ _ => rfl
  · intro e' he' hless
    rw [List.head?_cons, Option.mem_some_iff] at he'
    exact absurd (he' ▸ hmore) hless

theorem Replaces.drop {tx : Tx} {i : TxInput} {rest : List TxInput} {u : UtxoSet}
    {mempool found : Mempool} {e : DateTime × Tx} (hu : u.isMarked i.prevTxOutputHash)
    (hfind : mempool.find? (createsOutput i.prevTxOutputHash) = some e)
    (hless : ¬ tx.fee u < e.2.fee u)
    (hrest : Replaces tx (u.setMarks false e.2.spends)
      (mempool.eraseP (createsOutput i.prevTxOutputHash)) found rest) :
    Replaces tx u mempool (e :: found) (i :: rest) := by
  have hfee : ∀ tx : Tx, tx.fee (u.setMarks false e.2.spends) = tx.fee u :=
    UtxoSet.fee_congr (UtxoSet.output_setMarks ..)
  have heq := replaceOlder_some tx hu hfind rest
  rw [if_neg hless] at heq
  constructor
  · rw [heq, hrest.stops_iff]
    simp only [hfee, List.exists_mem_cons_iff, hless, false_or]
  · intro hgo
    rw [heq] at hgo ⊢
    exact (perm_cons_eraseP hfind).trans ((hrest.dropped hgo).cons e)
  · intro hgo k hk
    rw [heq] at hgo ⊢
    rw [List.map_cons, List.mem_cons, not_or] at hk
    rw [hrest.released hgo k hk.2, List.flatMap_cons, UtxoSet.setMarks_append]
  · intro e' he' hmore
    rw [List.head?_cons, Option.mem_some_iff] at he'
    exact absurd (he' ▸ hmore) hless
  · intro _ _ _
    rw [heq]
    exact length_replaceOlder_lt hfind ..

/-- The loop over distinct inputs goes by the creators of the marked ones. -/
theorem replaceOlder_replaces (tx : Tx) (inputs : List TxInput) (u : UtxoSet) (mempool : Mempool)
    (hdistinct : (inputs.map TxInput.prevTxOutputHash).Nodup) :
    Replaces tx u mempool
      (creatorsFound u (inputs.map TxInput.prevTxOutputHash) mempool) inputs := by
  induction inputs generalizing u mempool with
  | nil =>
      constructor
      · simp [replaceOlder, creatorsFound, creatorsInTurn]
      · simp [replaceOlder, creatorsFound, creatorsInTurn]
      · simp [replaceOlder, creatorsFound, creatorsInTurn, UtxoSet.setMarks]
      · simp [creatorsFound, creatorsInTurn]
      · simp [creatorsFound, creatorsInTurn]
  | cons i rest ih =>
      rw [List.map_cons, List.nodup_cons] at hdistinct
      obtain ⟨hnew, hdistinct⟩ := hdistinct
      rw [List.map_cons]
      by_cases hu : u.isMarked i.prevTxOutputHash
      · cases hfind : mempool.find? (createsOutput i.prevTxOutputHash) with
        | none =>
            rw [creatorsFound_none hu hfind hnew]
            exact .none hu hfind (ih _ _ hdistinct)
        | some e =>
            rw [creatorsFound_some hu hfind]
            by_cases hmore : tx.fee u < e.2.fee u
            · exact .stop hu hfind hmore rest _
            · exact .drop hu hfind hmore (ih _ _ hdistinct)
      · rw [creatorsFound_unmarked hu]
        exact .unmarked hu (ih _ _ hdistinct)

/-! ### What a submission that is not inserted changes -/

/-- The loop never sets a mark. -/
theorem isMarked_of_replaceOlder {tx : Tx} {inputs : List TxInput} {u : UtxoSet}
    {mempool : Mempool} {k : Hash}
    (h : (replaceOlder tx inputs u mempool).1.isMarked k = true) : u.isMarked k = true := by
  induction inputs generalizing u mempool with
  | nil => exact h
  | cons i rest ih =>
      by_cases hu : u.isMarked i.prevTxOutputHash
      · cases hfind : mempool.find? (createsOutput i.prevTxOutputHash) with
        | none =>
            rw [replaceOlder_none tx hu hfind] at h
            have hreset := ih h
            rw [UtxoSet.setMark_eq_setMarks, UtxoSet.isMarked_setMarks_false,
              Bool.and_eq_true] at hreset
            exact hreset.1
        | some e =>
            rw [replaceOlder_some tx hu hfind] at h
            split at h
            · exact h
            · have hreset := ih h
              rw [UtxoSet.isMarked_setMarks_false, Bool.and_eq_true] at hreset
              exact hreset.1
      · rw [replaceOlder_unmarked tx hu] at h
        exact ih h

/-- The transaction is outbid at its first marked input. -/
def OutbidFirst (tx : Tx) (inputs : List TxInput) (u : UtxoSet) (mempool : Mempool) : Prop :=
  ∃ before i after, inputs = before ++ i :: after ∧
    (∀ j ∈ before, ¬ u.isMarked j.prevTxOutputHash) ∧ OutbidAt tx i u mempool

theorem outbidFirst_unmarked {tx : Tx} {i : TxInput} {rest : List TxInput} {u : UtxoSet}
    {mempool : Mempool} (hu : ¬ u.isMarked i.prevTxOutputHash) :
    OutbidFirst tx (i :: rest) u mempool ↔ OutbidFirst tx rest u mempool := by
  constructor
  · rintro ⟨before, j, after, hinputs, hbefore, houtbid⟩
    cases before with
    | nil =>
        obtain ⟨rfl, rfl⟩ := List.cons.inj hinputs
        exact absurd (outbidAt_iff.mp houtbid).1 hu
    | cons k before =>
        obtain ⟨rfl, rfl⟩ := List.cons.inj hinputs
        exact ⟨before, j, after, rfl, fun l hl => hbefore l (List.mem_cons_of_mem _ hl), houtbid⟩
  · rintro ⟨before, j, after, rfl, hbefore, houtbid⟩
    exact ⟨i :: before, j, after, rfl, List.forall_mem_cons.mpr ⟨hu, hbefore⟩, houtbid⟩

theorem outbidFirst_marked {tx : Tx} {i : TxInput} {rest : List TxInput} {u : UtxoSet}
    {mempool : Mempool} (hu : u.isMarked i.prevTxOutputHash) :
    OutbidFirst tx (i :: rest) u mempool ↔ OutbidAt tx i u mempool := by
  constructor
  · rintro ⟨before, j, after, hinputs, hbefore, houtbid⟩
    cases before with
    | nil =>
        obtain ⟨rfl, rfl⟩ := List.cons.inj hinputs
        exact houtbid
    | cons k before =>
        obtain ⟨rfl, rfl⟩ := List.cons.inj hinputs
        exact absurd hu (hbefore _ List.mem_cons_self)
  · exact fun houtbid => ⟨[], i, rest, rfl, by simp, houtbid⟩

/-- The loop changes nothing exactly when no input is marked, or the transaction is
outbid at the first one that is. -/
theorem replaceOlder_unchanged_iff (tx : Tx) (inputs : List TxInput) (u : UtxoSet)
    (mempool : Mempool) :
    (replaceOlder tx inputs u mempool).1 = u ∧ (replaceOlder tx inputs u mempool).2.1 = mempool ↔
      (∀ i ∈ inputs, ¬ u.isMarked i.prevTxOutputHash) ∨ OutbidFirst tx inputs u mempool := by
  induction inputs with
  | nil => simp [replaceOlder]
  | cons i rest ih =>
      by_cases hu : u.isMarked i.prevTxOutputHash
      · rw [outbidFirst_marked hu, outbidAt_iff, and_iff_right hu]
        have hnot : ¬ ∀ j ∈ i :: rest, ¬ u.isMarked j.prevTxOutputHash :=
          fun h => h i List.mem_cons_self hu
        rw [or_iff_right hnot]
        cases hfind : mempool.find? (createsOutput i.prevTxOutputHash) with
        | none =>
            refine iff_of_false ?_ (by simp)
            rintro ⟨hsame, -⟩
            have hafter : (replaceOlder tx (i :: rest) u mempool).1.isMarked
                i.prevTxOutputHash = true := by
              rw [hsame]
              exact hu
            rw [replaceOlder_none tx hu hfind] at hafter
            have hreset := isMarked_of_replaceOlder hafter
            rw [UtxoSet.setMark_eq_setMarks, UtxoSet.isMarked_setMarks_false] at hreset
            simp at hreset
        | some e =>
            rw [replaceOlder_some tx hu hfind]
            by_cases hmore : tx.fee u < e.2.fee u
            · rw [if_pos hmore]
              exact iff_of_true ⟨rfl, rfl⟩ ⟨e, rfl, hmore⟩
            · rw [if_neg hmore]
              apply iff_of_false
              · rintro ⟨-, hsame⟩
                have hlt := length_replaceOlder_lt hfind tx rest (u.setMarks false e.2.spends)
                exact hlt.ne (congrArg List.length hsame)
              · rintro ⟨e', he', hmore'⟩
                obtain rfl := Option.some.inj he'
                exact hmore hmore'
      · rw [replaceOlder_unmarked tx hu, ih, outbidFirst_unmarked hu, List.forall_mem_cons,
          and_iff_right hu]

end Blockchain

/-- A submission that is not inserted leaves the mempool and the marks as they are. -/
def Call.Atomic (s : Blockchain) : Call → Prop
  | .addToMempool now tx => ¬ s.Inserts now tx →
      (s.addToMempool now tx).1.mempool = s.mempool ∧
        (s.addToMempool now tx).1.utxoSet = s.utxoSet
  | _ => True

/-- A submission that passes the first checks pays for its outputs and as much as each
transaction it drops, or has no marked input, or is outbid at the first one. -/
def Call.DropsNothingInVain (s : Blockchain) : Call → Prop
  | .addToMempool _ tx => s.Admissible tx →
      (tx.outputAmount ≤ tx.inputAmount s.utxoSet ∧
        ∀ e ∈ Blockchain.creatorsFound s.utxoSet tx.spends s.mempool,
          e.2.fee s.utxoSet ≤ tx.fee s.utxoSet) ∨
      (∀ i ∈ tx.inputs, ¬ s.utxoSet.isMarked i.prevTxOutputHash) ∨
      Blockchain.OutbidFirst tx tx.inputs s.utxoSet s.mempool
  | _ => True

namespace Blockchain

theorem outbid_iff_creators {s : Blockchain} {tx : Tx} (hadm : s.Admissible tx) :
    s.Outbid tx ↔ ∃ e ∈ creatorsFound s.utxoSet tx.spends s.mempool,
      tx.fee s.utxoSet < e.2.fee s.utxoSet := by
  rw [outbid_iff]
  exact (replaceOlder_replaces tx tx.inputs s.utxoSet s.mempool hadm.distinct).stops_iff

/-- A submission that stops after the loop leaves what the loop leaves. -/
theorem addToMempool_of_not_inserts {s : Blockchain} {now : DateTime} {tx : Tx}
    (hadm : s.Admissible tx) (h : ¬ s.Inserts now tx) :
    (s.addToMempool now tx).1.mempool =
        (replaceOlder tx tx.inputs s.utxoSet s.mempool).2.1 ∧
      (s.addToMempool now tx).1.utxoSet =
        (replaceOlder tx tx.inputs s.utxoSet s.mempool).1 := by
  rcases hloop : replaceOlder tx tx.inputs s.utxoSet s.mempool with ⟨u, mempool, proceed⟩
  rcases addToMempool_of_admissible hadm now hloop with
    ⟨-, heq⟩ | ⟨-, -, e, heq⟩ | ⟨hgo, hpaid, -⟩
  · rw [heq]
    exact ⟨rfl, rfl⟩
  · rw [heq]
    exact ⟨rfl, rfl⟩
  · refine absurd (inserts_iff.mpr ⟨hadm, ?_, hpaid⟩) h
    rw [outbid_iff, hloop, hgo]
    simp

theorem atomic_iff_dropsNothingInVain (s : Blockchain) (c : Call) :
    c.Atomic s ↔ c.DropsNothingInVain s := by
  cases c with
  | addBlock b => exact Iff.rfl
  | cleanupMempool now => exact Iff.rfl
  | addToMempool now tx =>
      by_cases hadm : s.Admissible tx
      · have hinserts : s.Inserts now tx ↔ tx.outputAmount ≤ tx.inputAmount s.utxoSet ∧
            ∀ e ∈ creatorsFound s.utxoSet tx.spends s.mempool,
              e.2.fee s.utxoSet ≤ tx.fee s.utxoSet := by
          rw [inserts_iff, and_iff_right hadm, outbid_iff_creators hadm, and_comm]
          simp only [not_exists, not_and, UInt64.not_lt]
        by_cases hin : s.Inserts now tx
        · exact iff_of_true (fun h => absurd hin h) fun _ => Or.inl (hinserts.mp hin)
        · obtain ⟨hmempool, hutxos⟩ := addToMempool_of_not_inserts hadm hin
          have hunchanged := replaceOlder_unchanged_iff tx tx.inputs s.utxoSet s.mempool
          rw [Call.Atomic, Call.DropsNothingInVain, hmempool, hutxos, ← hinserts,
            or_iff_right hin, ← hunchanged, and_comm]
          exact ⟨fun h _ => h hin, fun h _ => h hadm⟩
      · obtain ⟨e, heq⟩ := addToMempool_of_not_admissible hadm now
        refine iff_of_true (fun _ => ?_) fun h => absurd h hadm
        rw [heq]
        exact ⟨rfl, rfl⟩

/-- Along a run all submissions are atomic if and only if none drops anything in
vain. -/
theorem atomic_iff (s : Blockchain) (calls : List Call) :
    Machine.StepsMeet step (fun s c => c.Atomic s) s calls ↔
      Machine.StepsMeet step (fun s c => c.DropsNothingInVain s) s calls :=
  Machine.stepsMeet_iff (fun _ => True) (fun s c _ => atomic_iff_dropsNothingInVain s c)
    (fun _ _ _ _ _ _ => trivial) trivial calls

omit [Crates] in
/-- A conflicting payment of more than there is resets the mark of the coin. -/
theorem not_atomic :
    letI := StandIn.crates
    ¬ ∀ s : Blockchain, s.Reached → ∀ c : Call, c.Atomic s := by
  let := StandIn.crates
  let tooMuch := StandIn.payment StandIn.firstCoin [StandIn.coin StandIn.alice 3 6000000000]
  have hrun : (StandIn.run [.addBlock StandIn.genesis, .addToMempool 0 StandIn.toBob]).any
      (fun s => decide (¬ s.Inserts 0 tooMuch ∧
        s.utxoSet.isMarked StandIn.firstCoin.hash = true ∧
        (s.addToMempool 0 tooMuch).1.utxoSet.isMarked StandIn.firstCoin.hash = false)) = true := by
    decide +kernel
  obtain ⟨s, hs, hin, hbefore, hafter⟩ := StandIn.exists_run hrun
  intro h
  obtain ⟨-, hsame⟩ := h s (StandIn.reached_of_run hs) (.addToMempool 0 tooMuch) hin
  rw [hsame, hbefore] at hafter
  cases hafter

/-! ### What a submission replaces -/

/-- Some mempool transaction that shares an input with the new one pays more. -/
def OutbidByConflict (s : Blockchain) (tx : Tx) : Prop :=
  ∃ e ∈ s.mempool, tx.Conflicts e.2 ∧ tx.fee s.utxoSet < e.2.fee s.utxoSet

/-- Replacement by fee as documented: a conflicting transaction that pays more keeps the
new one out, and otherwise the new one takes the place of all it conflicts with. -/
structure ReplacesByFee (s : Blockchain) (now : DateTime) (tx : Tx) : Prop where
  outbid : s.OutbidByConflict tx → (s.addToMempool now tx).1.mempool.Perm s.mempool
  replaced : ¬ s.OutbidByConflict tx → (s.addToMempool now tx).1.mempool.Perm
    ((now, tx) :: s.mempool.filter fun e => ¬ tx.Conflicts e.2)
  marked : ¬ s.OutbidByConflict tx →
    ∀ h ∈ tx.spends, (s.addToMempool now tx).1.utxoSet.isMarked h = true
  released : ¬ s.OutbidByConflict tx → ∀ e ∈ s.mempool, tx.Conflicts e.2 →
    ∀ h ∈ e.2.spends, h ∉ tx.spends → (s.addToMempool now tx).1.utxoSet.isMarked h = false

/-- Where a conflicting transaction pays more, the first creator of a marked input does,
and elsewhere the creators in turn are the conflicting transactions. -/
structure CreatorsConflict (s : Blockchain) (tx : Tx) : Prop where
  outbid : s.OutbidByConflict tx →
    ∃ e ∈ (creatorsFound s.utxoSet tx.spends s.mempool).head?,
      tx.fee s.utxoSet < e.2.fee s.utxoSet
  replaced : ¬ s.OutbidByConflict tx → (creatorsFound s.utxoSet tx.spends s.mempool).Perm
    (s.mempool.filter fun e => tx.Conflicts e.2)

omit [Crates] in
theorem filter_conflicts_perm (mempool : Mempool) (tx : Tx) :
    ((mempool.filter fun e => tx.Conflicts e.2) ++
      mempool.filter fun e => ¬ tx.Conflicts e.2).Perm mempool := by
  have h := List.filter_append_perm (fun e : DateTime × Tx => decide (tx.Conflicts e.2)) mempool
  simpa only [decide_not] using h

/-- An admissible transaction that pays for its outputs is inserted unless the loop stops. -/
theorem addToMempool_of_paid {s : Blockchain} {tx : Tx} (hadm : s.Admissible tx)
    (hpaid : tx.outputAmount ≤ tx.inputAmount s.utxoSet) (now : DateTime) {u : UtxoSet}
    {mempool : Mempool} {proceed : Bool}
    (hloop : replaceOlder tx tx.inputs s.utxoSet s.mempool = (u, mempool, proceed)) :
    (proceed = false ∧ (s.addToMempool now tx).1.mempool = mempool ∧
      (now, tx) ∉ (s.addToMempool now tx).1.mempool) ∨
    (proceed = true ∧ (s.addToMempool now tx).1.mempool.Perm ((now, tx) :: mempool) ∧
      (s.addToMempool now tx).1.utxoSet = u.setMarks true tx.spends) := by
  rcases addToMempool_of_admissible hadm now hloop with
    ⟨hstop, heq⟩ | ⟨-, hshort, -⟩ | ⟨hgo, -, heq⟩
  · refine Or.inl ⟨hstop, by rw [heq], ?_⟩
    intro hmem
    have hsub := (replaceOlder_frame tx tx.inputs s.utxoSet s.mempool).2
    rw [hloop] at hsub
    rw [heq] at hmem
    exact hadm.new _ (hsub.mem hmem) rfl
  · exact absurd hpaid (UInt64.not_le.mpr hshort)
  · refine Or.inr ⟨hgo, ?_, by rw [heq]⟩
    rw [heq]
    exact (sortByFee_perm _ _).trans (List.perm_append_singleton _ _)

/-- The loop over the inputs of an admissible transaction goes by their creators. -/
theorem Admissible.replaces {s : Blockchain} {tx : Tx} (hadm : s.Admissible tx) :
    Replaces tx s.utxoSet s.mempool (creatorsFound s.utxoSet tx.spends s.mempool) tx.inputs :=
  replaceOlder_replaces tx tx.inputs s.utxoSet s.mempool hadm.distinct

theorem ReplacesByFee.creatorsConflict {s : Blockchain} {now : DateTime} {tx : Tx}
    (hadm : s.Admissible tx) (hpaid : tx.outputAmount ≤ tx.inputAmount s.utxoSet)
    (h : s.ReplacesByFee now tx) : s.CreatorsConflict tx := by
  rcases hloop : replaceOlder tx tx.inputs s.utxoSet s.mempool with ⟨u, mempool, proceed⟩
  have hrep := hadm.replaces
  have hcases := addToMempool_of_paid hadm hpaid now hloop
  constructor
  · intro hout
    have hsame := h.outbid hout
    rcases hcases with ⟨hstop, heq, -⟩ | ⟨-, hperm, -⟩
    · have hfound := hrep.stops_iff.mp (by rw [hloop]; exact hstop)
      cases hhead : (creatorsFound s.utxoSet tx.spends s.mempool).head? with
      | none =>
          rw [List.head?_eq_none_iff.mp hhead] at hfound
          obtain ⟨e, he, -⟩ := hfound
          cases he
      | some e =>
          refine ⟨e, rfl, ?_⟩
          by_contra hless
          have hlt := hrep.shrunk e hhead hless
          rw [hloop, ← heq, hsame.length_eq] at hlt
          exact lt_irrefl _ hlt
    · have hmem := (hperm.symm.trans hsame).mem_iff.mp List.mem_cons_self
      exact absurd rfl (hadm.new _ hmem)
  · intro hout
    have hreplaced := h.replaced hout
    rcases hcases with ⟨-, -, hnot⟩ | ⟨hgo, hperm, -⟩
    · exact absurd (hreplaced.mem_iff.mpr List.mem_cons_self) hnot
    · have hdropped := hrep.dropped (by rw [hloop]; exact hgo)
      rw [hloop] at hdropped
      have hrest := (List.perm_cons _).mp (hperm.symm.trans hreplaced)
      apply (List.perm_append_right_iff mempool).mp
      calc List.Perm (creatorsFound s.utxoSet tx.spends s.mempool ++ mempool) s.mempool :=
            hdropped.symm
        List.Perm _ _ := (filter_conflicts_perm s.mempool tx).symm
        List.Perm _ ((s.mempool.filter fun e => tx.Conflicts e.2) ++ mempool) :=
          hrest.symm.append_left _

/-- Where the loop finds the conflicting transactions and none of them pays more, it runs
to its end, drops them and releases what they spend. -/
theorem CreatorsConflict.replaced_of_not_outbid {s : Blockchain} {tx : Tx}
    (hadm : s.Admissible tx) (hpaid : tx.outputAmount ≤ tx.inputAmount s.utxoSet)
    (h : s.CreatorsConflict tx) (hout : ¬ s.OutbidByConflict tx) (now : DateTime) :
    (s.addToMempool now tx).1.mempool.Perm
        ((now, tx) :: s.mempool.filter fun e => ¬ tx.Conflicts e.2) ∧
      ∃ u : UtxoSet, u.output = s.utxoSet.output ∧
        (s.addToMempool now tx).1.utxoSet = u.setMarks true tx.spends ∧
        ∀ k ∉ tx.spends, u.lookup k =
          (s.utxoSet.setMarks false ((creatorsFound s.utxoSet tx.spends s.mempool).flatMap
            fun e => e.2.spends)).lookup k := by
  rcases hloop : replaceOlder tx tx.inputs s.utxoSet s.mempool with ⟨u, mempool, proceed⟩
  have hrep := hadm.replaces
  have hfound := h.replaced hout
  have hends : proceed ≠ false := by
    intro hstop
    obtain ⟨e, he, hmore⟩ := hrep.stops_iff.mp (by rw [hloop]; exact hstop)
    obtain ⟨hmem, hconflict⟩ := List.mem_filter.mp (hfound.mem_iff.mp he)
    exact hout ⟨e, hmem, of_decide_eq_true hconflict, hmore⟩
  rcases addToMempool_of_paid hadm hpaid now hloop with ⟨hstop, -⟩ | ⟨hgo, hperm, hutxos⟩
  · exact absurd hstop hends
  · have hdropped := hrep.dropped (by rw [hloop]; exact hgo)
    have hreleased := hrep.released (by rw [hloop]; exact hgo)
    have houtput := (replaceOlder_frame tx tx.inputs s.utxoSet s.mempool).1
    rw [hloop] at hdropped hreleased houtput
    have hrest : mempool.Perm (s.mempool.filter fun e => ¬ tx.Conflicts e.2) := by
      apply (List.perm_append_left_iff (s.mempool.filter fun e => tx.Conflicts e.2)).mp
      calc List.Perm ((s.mempool.filter fun e => tx.Conflicts e.2) ++ mempool)
            (creatorsFound s.utxoSet tx.spends s.mempool ++ mempool) :=
            hfound.symm.append_right _
        List.Perm _ s.mempool := hdropped.symm
        List.Perm _ _ := (filter_conflicts_perm s.mempool tx).symm
    exact ⟨hperm.trans (hrest.cons _), u, houtput, hutxos, hreleased⟩

theorem CreatorsConflict.replacesByFee {s : Blockchain} {tx : Tx} (hadm : s.Admissible tx)
    (hpaid : tx.outputAmount ≤ tx.inputAmount s.utxoSet) (h : s.CreatorsConflict tx)
    (now : DateTime) : s.ReplacesByFee now tx where
  outbid hout := by
    rcases hloop : replaceOlder tx tx.inputs s.utxoSet s.mempool with ⟨u, mempool, proceed⟩
    have hrep := hadm.replaces
    obtain ⟨e, he, hmore⟩ := h.outbid hout
    have hstops := hrep.stops_iff.mpr ⟨e, List.mem_of_mem_head? he, hmore⟩
    have hkept := hrep.kept e he hmore
    rw [hloop] at hstops hkept
    rcases addToMempool_of_paid hadm hpaid now hloop with ⟨-, heq, -⟩ | ⟨hgo, -⟩
    · rw [heq, ← hkept]
    · cases hstops.symm.trans hgo
  replaced hout := (h.replaced_of_not_outbid hadm hpaid hout now).1
  marked hout k hk := by
    obtain ⟨-, u, houtput, hutxos, -⟩ := h.replaced_of_not_outbid hadm hpaid hout now
    rw [hutxos]
    exact UtxoSet.isMarked_setMarks_true hk ((UtxoSet.mem_congr houtput k).mpr (hadm.known k hk))
  released hout e he hconflict k hk hother := by
    obtain ⟨-, u, -, hutxos, hreleased⟩ := h.replaced_of_not_outbid hadm hpaid hout now
    have hfound : e ∈ creatorsFound s.utxoSet tx.spends s.mempool :=
      (h.replaced hout).mem_iff.mpr (List.mem_filter.mpr ⟨he, decide_eq_true hconflict⟩)
    rw [hutxos, UtxoSet.isMarked_setMarks_of_not_mem hother,
      UtxoSet.isMarked_congr (hreleased k hother), UtxoSet.isMarked_setMarks_false,
      decide_eq_false (not_not.mpr (List.mem_flatMap.mpr ⟨e, hfound, hk⟩)), Bool.and_false]

theorem creatorsInTurn_eq_nil {hs released : List Hash} {mempool : Mempool}
    (h : ∀ k ∈ hs, ∀ e ∈ mempool, k ∉ e.2.creates) : creatorsInTurn hs released mempool = [] := by
  induction hs with
  | nil => rfl
  | cons k rest ih =>
      have hnone : mempool.find? (createsOutput k) = none := by
        refine List.find?_eq_none.mpr fun e he hcreates => ?_
        obtain ⟨o, ho, hhash⟩ := List.any_eq_true.mp hcreates
        exact h k List.mem_cons_self e he (List.mem_map.mpr ⟨o, ho, of_decide_eq_true hhash⟩)
      have hrest := ih fun j hj => h j (List.mem_cons_of_mem _ hj)
      rw [creatorsInTurn, hnone, hrest, ite_self]

/-- When no mempool transaction creates one of its inputs, as is the rule for unspent
outputs, a transaction replaces by fee only if there is nothing to replace. -/
theorem creatorsConflict_iff_of_no_creator {s : Blockchain} {tx : Tx}
    (h : ∀ k ∈ tx.spends, ∀ e ∈ s.mempool, k ∉ e.2.creates) :
    s.CreatorsConflict tx ↔ ∀ e ∈ s.mempool, ¬ tx.Conflicts e.2 := by
  have hnil : creatorsFound s.utxoSet tx.spends s.mempool = [] :=
    creatorsInTurn_eq_nil fun k hk => h k (List.mem_of_mem_filter hk)
  constructor
  · intro hcreators e he hconflict
    by_cases hout : s.OutbidByConflict tx
    · obtain ⟨e', he', -⟩ := hcreators.outbid hout
      rw [hnil] at he'
      cases he'
    · have hperm := hcreators.replaced hout
      rw [hnil] at hperm
      have hmem := hperm.mem_iff.mpr (List.mem_filter.mpr ⟨he, decide_eq_true hconflict⟩)
      cases hmem
  · intro hnone
    constructor
    · rintro ⟨e, he, hconflict, -⟩
      exact absurd hconflict (hnone e he)
    · intro _
      rw [hnil, List.filter_eq_nil_iff.mpr fun e he => by simpa using hnone e he]

/-- A new transaction that pays for its outputs replaces what it conflicts with by fee
exactly when the transactions that create its inputs are the conflicting ones. Where none
does, that is when there is nothing to replace. -/
theorem replacesByFee_iff {s : Blockchain} {tx : Tx} (hadm : s.Admissible tx)
    (hpaid : tx.outputAmount ≤ tx.inputAmount s.utxoSet) (now : DateTime) :
    (s.ReplacesByFee now tx ↔ s.CreatorsConflict tx) ∧
      ((∀ k ∈ tx.spends, ∀ e ∈ s.mempool, k ∉ e.2.creates) →
        (s.ReplacesByFee now tx ↔ ∀ e ∈ s.mempool, ¬ tx.Conflicts e.2)) := by
  have hiff : s.ReplacesByFee now tx ↔ s.CreatorsConflict tx :=
    ⟨fun h => h.creatorsConflict hadm hpaid, fun h => h.replacesByFee hadm hpaid now⟩
  refine ⟨hiff, fun hnone => ?_⟩
  rw [hiff, creatorsConflict_iff_of_no_creator hnone]

omit [Crates] in
/-- The marks can be checked on the outputs that are there. -/
theorem marksExact_of_keys {s : Blockchain}
    (h : ∀ k ∈ s.utxoSet.keys, s.utxoSet.isMarked k = true ↔ ∃ e ∈ s.mempool, k ∈ e.2.spends) :
    s.MarksExact := by
  intro k marked o hlookup
  rw [← h k (Finmap.mem_keys.mpr (Finmap.mem_of_lookup_eq_some hlookup)), UtxoSet.isMarked, hlookup]
  rfl

omit [Crates] in
/-- A payment takes the place of an older one that had paid the same coin back to itself,
and the payment of another coin stays. -/
theorem replacesByFee_paysSmall :
    letI := StandIn.crates
    ∃ s : Blockchain, s.MarksExact ∧ s.Admissible StandIn.paysSmall ∧
      s.mempool = [(0, StandIn.paysBack), (1, StandIn.paysLarge)] ∧
      StandIn.paysSmall.Conflicts StandIn.paysBack ∧ s.ReplacesByFee 2 StandIn.paysSmall ∧
      (s.addToMempool 2 StandIn.paysSmall).1.mempool.Perm
        [(2, StandIn.paysSmall), (1, StandIn.paysLarge)] := by
  let calls : List Call := [.addBlock StandIn.twoCoins, .addToMempool 0 StandIn.paysBack,
    .addToMempool 1 StandIn.paysLarge]
  let := StandIn.crates
  have hrun : (StandIn.run calls).any (fun s => decide (
      (∀ k ∈ s.utxoSet.keys,
        s.utxoSet.isMarked k = true ↔ ∃ e ∈ s.mempool, k ∈ e.2.spends) ∧
      s.Inserts 2 StandIn.paysSmall ∧
      s.mempool = [(0, StandIn.paysBack), (1, StandIn.paysLarge)] ∧
      StandIn.paysSmall.Conflicts StandIn.paysBack ∧
      ¬ StandIn.paysSmall.Conflicts StandIn.paysLarge ∧
      (∀ e ∈ s.mempool, e.2.fee s.utxoSet ≤ StandIn.paysSmall.fee s.utxoSet) ∧
      creatorsFound s.utxoSet StandIn.paysSmall.spends s.mempool =
        [(0, StandIn.paysBack)])) = true := by
    decide +kernel
  obtain ⟨s, -, hmarks, hin, hmempool, hold, hother, hless, hfound⟩ := StandIn.exists_run hrun
  obtain ⟨hadm, hpaid⟩ := hin.admissible
  have hout : ¬ s.OutbidByConflict StandIn.paysSmall := by
    rintro ⟨e, he, -, hmore⟩
    exact UInt64.not_le.mpr hmore (hless e he)
  have creators : s.CreatorsConflict StandIn.paysSmall := by
    refine ⟨fun h => absurd h hout, fun _ => ?_⟩
    rw [hfound, hmempool]
    simp [hold, hother]
  have replaces := (replacesByFee_iff hadm hpaid 2).1.mpr creators
  refine ⟨s, marksExact_of_keys hmarks, hadm, hmempool, hold, replaces, ?_⟩
  have hafter := replaces.replaced hout
  rw [hmempool] at hafter
  simpa [hold, hother] using hafter

omit [Crates] in
/-- A payment of the same coin with a higher fee joins the older one in the mempool. -/
theorem not_replacesByFee :
    letI := StandIn.crates
    ¬ ∀ (s : Blockchain) (now : DateTime) (tx : Tx), s.MarksExact → s.Admissible tx →
      tx.outputAmount ≤ tx.inputAmount s.utxoSet → s.ReplacesByFee now tx := by
  let := StandIn.crates
  let toAlice := StandIn.payment StandIn.firstCoin [StandIn.coin StandIn.alice 3 4000000000]
  have hrun : (StandIn.run [.addBlock StandIn.genesis, .addToMempool 0 StandIn.toBob]).any
      (fun s => decide (
        (∀ k ∈ s.utxoSet.keys,
          s.utxoSet.isMarked k = true ↔ ∃ e ∈ s.mempool, k ∈ e.2.spends) ∧
        s.Inserts 0 toAlice ∧ (s.addToMempool 0 toAlice).1.mempool.length = 2 ∧
        (s.mempool.filter fun e => ¬ toAlice.Conflicts e.2) = [] ∧
        ∀ e ∈ s.mempool, e.2.fee s.utxoSet ≤ toAlice.fee s.utxoSet)) = true := by
    decide +kernel
  obtain ⟨s, -, hmarks, hin, hlen, hothers, hless⟩ := StandIn.exists_run hrun
  intro h
  obtain ⟨hadm, hpaid⟩ := hin.admissible
  have hout : ¬ s.OutbidByConflict toAlice := by
    rintro ⟨e, he, -, hmore⟩
    exact UInt64.not_le.mpr hmore (hless e he)
  have hreplaced :=
    ((h s 0 toAlice (marksExact_of_keys hmarks) hadm hpaid).replaced hout).length_eq
  rw [hlen, hothers] at hreplaced
  cases hreplaced

end Blockchain

end ToyBtc
