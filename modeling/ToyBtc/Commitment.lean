import ToyBtc.Ledger
import ToyBtc.StandIn
import ToyBtc.PairTree

/-!
# What a header commits to

A Merkle root determines the completed list of transactions: where a layer is
odd, everything under its last hash counts twice. Two lists with one root are
therefore equal up to a repeated end. A repeated transaction with inputs is a
double spend, but one without inputs passes the block checks again.

## Implementation notes

No digest is injective on all values, so the absence of collisions is assumed
for the values hashed by the two computations that are compared.
-/

namespace ToyBtc

open PairTree

variable [Crates]

namespace MerkleRoot

/-- The hash of two siblings. -/
def pairHash (left right : Hash) : Hash := Hash.hash (.pair left right)

/-- The sibling pairs that the layer loop hashes. -/
def hashedPairs : Nat → List Hash → List Hashed
  | 0, _ => []
  | rounds + 1, layer =>
      if 1 < layer.length then
        (pairUp layer).map (fun p => .pair p.1 p.2) ++ hashedPairs rounds (nextLayer layer)
      else []

/-- Everything that is hashed for the Merkle root of a list of transactions. -/
def hashedValues (transactions : List Tx) : List Hashed :=
  transactions.map .tx ++ hashedPairs transactions.length (transactions.map Tx.hash)

/-- No two different values hashed for the two roots have the same hash. -/
def CollisionFree (txs txs' : List Tx) : Prop :=
  ∀ v ∈ hashedValues txs ++ hashedValues txs', ∀ w ∈ hashedValues txs ++ hashedValues txs',
    Hash.hash v = Hash.hash w → v = w

instance (txs txs' : List Tx) : Decidable (CollisionFree txs txs') :=
  inferInstanceAs (Decidable (∀ v ∈ hashedValues txs ++ hashedValues txs',
    ∀ w ∈ hashedValues txs ++ hashedValues txs', Hash.hash v = Hash.hash w → v = w))

/-- No two different transactions, and no two different pairs of hashes, that are
hashed for the two roots have the same hash. -/
structure KindwiseCollisionFree (txs txs' : List Tx) : Prop where
  leaves : ∀ tx ∈ txs, ∀ tx' ∈ txs', tx.hash = tx'.hash → tx = tx'
  pairs : ∀ v ∈ hashedPairs txs.length (txs.map Tx.hash),
    ∀ w ∈ hashedPairs txs'.length (txs'.map Tx.hash), Hash.hash v = Hash.hash w → v = w

instance (txs txs' : List Tx) : Decidable (KindwiseCollisionFree txs txs') :=
  decidable_of_iff
    ((∀ tx ∈ txs, ∀ tx' ∈ txs', tx.hash = tx'.hash → tx = tx') ∧
      ∀ v ∈ hashedPairs txs.length (txs.map Tx.hash),
        ∀ w ∈ hashedPairs txs'.length (txs'.map Tx.hash), Hash.hash v = Hash.hash w → v = w)
    ⟨fun h => ⟨h.1, h.2⟩, fun h => ⟨h.leaves, h.pairs⟩⟩

theorem CollisionFree.kindwise {txs txs' : List Tx} (h : CollisionFree txs txs') :
    KindwiseCollisionFree txs txs' where
  leaves tx htx tx' htx' heq := by
    have hmem : Hashed.tx tx ∈ hashedValues txs := by simp [hashedValues, htx]
    have hmem' : Hashed.tx tx' ∈ hashedValues txs' := by simp [hashedValues, htx']
    exact Hashed.tx.inj (h _ (List.mem_append_left _ hmem) _ (List.mem_append_right _ hmem') heq)
  pairs v hv w hw :=
    h v (List.mem_append_left _ (List.mem_append_right _ hv)) w
      (List.mem_append_right _ (List.mem_append_right _ hw))

theorem nextLayer_eq_layer (l : List Hash) : nextLayer l = layer pairHash l := by
  induction l using nextLayer.induct with
  | case1 => rfl
  | case2 left => rfl
  | case3 left right rest ih =>
      rw [nextLayer, ih]
      rfl

/-- The loop computes one layer for each level of the tree. -/
theorem reduceLayers_eq_iterate {rounds : Nat} {l : List Hash} (hpos : 0 < l.length)
    (hfuel : l.length ≤ rounds) :
    reduceLayers rounds l = (layer pairHash)^[depth l.length] l := by
  induction rounds generalizing l with
  | zero => omega
  | succ rounds ih =>
      rw [reduceLayers]
      split
      · next hlen =>
          have hnext := length_nextLayer l
          rw [ih (by omega) (by omega), hnext, depth_of_two_le hlen, Function.iterate_succ_apply,
            nextLayer_eq_layer]
      · next hlen =>
          obtain hone : l.length = 1 := by omega
          simp [hone, depth]

theorem mem_hashedPairs {rounds : Nat} {l : List Hash} (hpos : 0 < l.length)
    (hfuel : l.length ≤ rounds) {p : Hash × Hash} (hp : Combines pairHash (depth l.length) l p) :
    Hashed.pair p.1 p.2 ∈ hashedPairs rounds l := by
  induction rounds generalizing l with
  | zero => omega
  | succ rounds ih =>
      obtain ⟨k, hk, hp⟩ := hp
      rw [hashedPairs]
      split
      · next hlen =>
          have hnext := length_nextLayer l
          rw [depth_of_two_le hlen] at hk
          cases k with
          | zero => exact List.mem_append_left _ (List.mem_map.mpr ⟨p, hp, rfl⟩)
          | succ k =>
              apply List.mem_append_right
              refine ih (by omega) (by omega) ⟨k, ?_, ?_⟩
              · rw [hnext]
                omega
              · rwa [Function.iterate_succ_apply, ← nextLayer_eq_layer] at hp
      · next hlen =>
          obtain hone : l.length = 1 := by omega
          simp [hone, depth] at hk

/-- The layers over the hashes of a list of transactions, down to the top. -/
def top (txs : List Tx) : List Hash := (layer pairHash)^[depth txs.length] (txs.map Tx.hash)

theorem top_eq_singleton {txs : List Tx} (hne : txs ≠ []) :
    top txs = [(calculate txs).hash] := by
  have hpos : 0 < (txs.map Tx.hash).length := by simpa using List.length_pos_iff.mpr hne
  have hreduce := reduceLayers_eq_iterate hpos le_rfl
  obtain ⟨r, hr⟩ := List.length_eq_one_iff.mp (length_reduceLayers _ _ hpos le_rfl)
  rw [hr] at hreduce
  rw [top, ← List.length_map Tx.hash, ← hreduce, calculate, hr]
  simp [hne]

theorem calculate_eq_iff_top_eq {txs txs' : List Tx} (hne : txs ≠ []) (hne' : txs' ≠ []) :
    calculate txs = calculate txs' ↔ top txs = top txs' := by
  rw [top_eq_singleton hne, top_eq_singleton hne', List.singleton_inj]
  exact ⟨congrArg MerkleRoot.hash, congrArg MerkleRoot.mk⟩

/-- Where the number of transactions is odd and not one, the last one can be
written twice. -/
theorem calculate_repeat_last {txs : List Tx} (hne : txs ≠ []) (heven : txs.length % 2 = 0)
    (tx : Tx) : calculate (txs ++ [tx, tx]) = calculate (txs ++ [tx]) := by
  have hpos : 0 < txs.length := List.length_pos_iff.mpr hne
  have hhalf : (txs.length + 2 + 1) / 2 = (txs.length + 1 + 1) / 2 := by omega
  have hlayer : layer pairHash ((txs ++ [tx, tx]).map Tx.hash) =
      layer pairHash ((txs ++ [tx]).map Tx.hash) := by
    simp only [layer, map_pairUp, pairUp_repeat_last heven]
  rw [calculate_eq_iff_top_eq (by simp) (by simp), top, top, List.length_append,
    List.length_append, List.length_cons, List.length_singleton,
    depth_of_two_le (n := txs.length + 2) (by omega),
    depth_of_two_le (n := txs.length + 1) (by omega), hhalf, Function.iterate_succ_apply,
    Function.iterate_succ_apply, hlayer]

theorem combines_mem_hashedPairs {txs : List Tx} (hne : txs ≠ []) {p : Hash × Hash}
    (hp : Combines pairHash (depth txs.length) (txs.map Tx.hash) p) :
    Hashed.pair p.1 p.2 ∈ hashedPairs txs.length (txs.map Tx.hash) := by
  have hlen : (txs.map Tx.hash).length = txs.length := List.length_map Tx.hash
  refine mem_hashedPairs ?_ hlen.le (hlen.symm ▸ hp)
  simpa using List.length_pos_iff.mpr hne

theorem combines_mem_hashedValues {txs : List Tx} (hne : txs ≠ []) {p : Hash × Hash}
    (hp : Combines pairHash (depth txs.length) (txs.map Tx.hash) p) :
    Hashed.pair p.1 p.2 ∈ hashedValues txs :=
  List.mem_append_right _ (combines_mem_hashedPairs hne hp)

/-- A tree is not as high as one that ends in the same hash, but lower. -/
theorem not_depth_lt {txs txs' : List Tx} (hne : txs ≠ []) (hne' : txs' ≠ [])
    (hfree : CollisionFree txs txs') (htop : top txs = top txs') :
    ¬ depth txs.length < depth txs'.length := by
  intro hlt
  obtain ⟨e, he⟩ : ∃ e, depth txs'.length = depth txs.length + (e + 1) :=
    ⟨depth txs'.length - depth txs.length - 1, by omega⟩
  rw [top, top, he, Function.iterate_add_apply] at htop
  have hcomplete := complete_eq_of_layers_eq (fun p q hp hq heq => ?_) htop
  · cases txs with
    | nil => exact hne rfl
    | cons tx rest =>
        -- the leftmost leaf is the hash of a transaction on one side and of a pair on the other
        have hmem : tx.hash ∈ complete (depth (tx :: rest).length) ((tx :: rest).map Tx.hash) :=
          (prefix_complete _ _).mem (by simp)
        rw [hcomplete] at hmem
        have hlayer := mem_of_mem_complete hmem
        rw [Function.iterate_succ_apply'] at hlayer
        obtain ⟨p, hp, heq⟩ := List.mem_map.mp hlayer
        have hpair := combines_mem_hashedValues hne' ⟨e, by omega, hp⟩
        cases hfree _ (List.mem_append_right _ hpair) (.tx tx)
          (by simp [hashedValues]) heq
  · obtain ⟨k, hk, hp⟩ := hp
    obtain ⟨m, hm, hq⟩ := hq
    rw [← Function.iterate_add_apply] at hq
    have hp' := combines_mem_hashedValues hne ⟨k, hk, hp⟩
    have hq' := combines_mem_hashedValues hne' ⟨m + (e + 1), by omega, hq⟩
    have hpq := hfree _ (List.mem_append_left _ hp') _ (List.mem_append_right _ hq') heq
    exact Prod.ext (Hashed.pair.inj hpq).1 (Hashed.pair.inj hpq).2

theorem CollisionFree.symm {txs txs' : List Tx} (h : CollisionFree txs txs') :
    CollisionFree txs' txs := by
  intro v hv w hw
  exact h v (List.mem_append.mpr (List.mem_append.mp hv).symm) w
    (List.mem_append.mpr (List.mem_append.mp hw).symm)

/-- Trees of one height with one top have the same completed leaves. -/
theorem complete_eq_of_depth_eq {txs txs' : List Tx} (hne : txs ≠ []) (hne' : txs' ≠ [])
    (hfree : KindwiseCollisionFree txs txs') (hdepth : depth txs.length = depth txs'.length)
    (h : calculate txs = calculate txs') :
    complete (depth txs.length) txs = complete (depth txs.length) txs' := by
  have htop := (calculate_eq_iff_top_eq hne hne').mp h
  rw [top, top, ← hdepth] at htop
  have hleaves := complete_eq_of_layers_eq (fun p q hp hq heq => ?_) htop
  · rw [map_complete, map_complete] at hleaves
    refine map_inj_on (fun tx htx tx' htx' heq => ?_) hleaves
    exact hfree.leaves tx (mem_of_mem_complete htx) tx' (mem_of_mem_complete htx') heq
  · have hp' := combines_mem_hashedPairs hne hp
    have hq' := combines_mem_hashedPairs hne' (hdepth ▸ hq)
    have hpq := hfree.pairs _ hp' _ hq' heq
    exact Prod.ext (Hashed.pair.inj hpq).1 (Hashed.pair.inj hpq).2

/-- Lists with the same Merkle root have the same completion. -/
theorem complete_eq_of_calculate_eq {txs txs' : List Tx} (hne : txs ≠ []) (hne' : txs' ≠ [])
    (hfree : CollisionFree txs txs') (h : calculate txs = calculate txs') :
    depth txs.length = depth txs'.length ∧
      complete (depth txs.length) txs = complete (depth txs.length) txs' := by
  have htop := (calculate_eq_iff_top_eq hne hne').mp h
  have hdepth : depth txs.length = depth txs'.length :=
    le_antisymm (not_lt.mp (not_depth_lt hne' hne hfree.symm htop.symm))
      (not_lt.mp (not_depth_lt hne hne' hfree htop))
  exact ⟨hdepth, complete_eq_of_depth_eq hne hne' hfree.kindwise hdepth h⟩

/-! ### Lists of one length -/

theorem length_iterate_nextLayer (k : Nat) (l : List Hash) :
    (nextLayer^[k] l).length = (fun n => (n + 1) / 2)^[k] l.length := by
  induction k generalizing l with
  | zero => rfl
  | succ k ih => rw [Function.iterate_succ_apply, ih, length_nextLayer, Function.iterate_succ_apply]

/-- The loop runs for the binary logarithm of the number of transactions, rounded up,
and ends with one hash. -/
structure ReducesInRounds (txs : List Tx) : Prop where
  before : ∀ k < Nat.clog 2 txs.length, 1 < (nextLayer^[k] (txs.map Tx.hash)).length
  last : nextLayer^[Nat.clog 2 txs.length] (txs.map Tx.hash) = [(calculate txs).hash]

theorem reducesInRounds {txs : List Tx} (hne : txs ≠ []) : ReducesInRounds txs where
  before k hk := by
    rw [length_iterate_nextLayer, List.length_map]
    exact one_lt_iterate_half hk
  last := by
    have hlayer : nextLayer = layer pairHash := funext nextLayer_eq_layer
    rw [hlayer]
    exact top_eq_singleton hne

/-- A Merkle root binds every position: it is reached in a number of rounds that depends
on the length alone, and lists of one length with the same root are equal. -/
theorem calculate_bindsPositions (txs : List Tx) :
    (txs ≠ [] → ReducesInRounds txs) ∧
      ∀ txs', txs'.length = txs.length → KindwiseCollisionFree txs txs' →
        calculate txs = calculate txs' → txs = txs' := by
  refine ⟨reducesInRounds, fun txs' hlen hfree h => ?_⟩
  rcases eq_or_ne txs [] with rfl | hne
  · exact (List.length_eq_zero_iff.mp hlen).symm
  have hne' : txs' ≠ [] := by
    rw [← List.length_pos_iff, hlen]
    exact List.length_pos_iff.mpr hne
  have hcomplete := complete_eq_of_depth_eq hne hne' hfree (congrArg depth hlen.symm) h
  have hpre := prefix_complete (depth txs.length) txs
  rw [hcomplete] at hpre
  have hpre' := prefix_complete (depth txs.length) txs'
  exact (List.prefix_of_prefix_length_le hpre hpre' hlen.ge).eq_of_length hlen.symm

omit [Crates] in
/-- The last of three transactions is bound although its hash counts twice. -/
theorem calculate_bindsPositions_three :
    letI := StandIn.crates
    let txs : List Tx := [StandIn.coinbase StandIn.firstCoin, StandIn.toBob, ⟨[], []⟩]
    let txs' : List Tx := txs.set 2 StandIn.toBob
    ReducesInRounds txs ∧ calculate txs ≠ calculate txs' ∧ txs = txs'.set 2 ⟨[], []⟩ := by
  let := StandIn.crates
  let txs : List Tx := [StandIn.coinbase StandIn.firstCoin, StandIn.toBob, ⟨[], []⟩]
  let txs' : List Tx := txs.set 2 StandIn.toBob
  have hfree : KindwiseCollisionFree txs txs' := by decide +kernel
  have hback : KindwiseCollisionFree txs (txs'.set 2 ⟨[], []⟩) := by decide +kernel
  have hne : txs ≠ txs' := by decide +kernel
  have hsame : txs = txs'.set 2 ⟨[], []⟩ := rfl
  obtain ⟨hrounds, hbinds⟩ := calculate_bindsPositions txs
  refine ⟨hrounds (List.cons_ne_nil _ _), fun h => hne (hbinds txs' rfl hfree h), ?_⟩
  exact hbinds _ rfl hback (congrArg calculate hsame)

end MerkleRoot

/-- The transactions of `b'` are those of `b`, followed by some of them without
inputs once more. -/
def Block.RepeatsInto (b b' : Block) : Prop :=
  ∃ tail ≠ [], b'.transactions = b.transactions ++ tail ∧
    ∀ tx ∈ tail, tx.inputs = [] ∧ tx ∈ b.transactions.tail

omit [Crates] in
/-- A covered transaction without inputs pays nothing. -/
theorem Tx.fee_of_no_inputs {u : UtxoSet} {tx : Tx} (hin : tx.inputs = [])
    (hcovered : tx.outputAmount ≤ tx.inputAmount u) : tx.fee u = 0 := by
  have hzero : tx.inputAmount u = 0 := by simp [Tx.inputAmount, hin]
  rw [hzero] at hcovered
  rw [Tx.fee, hzero, UInt64.le_zero_iff.mp hcovered, sub_self]

/-- Transactions without inputs can be verified once more in the same block. -/
theorem Verified.repeat_tail {u : UtxoSet} {height : UInt64} {coinbase : Tx} {txs tail : List Tx}
    (hv : Verified u height coinbase txs) (htail : ∀ tx ∈ tail, tx.inputs = [] ∧ tx ∈ txs) :
    Verified u height coinbase (txs ++ tail) where
  authorized tx htx := by
    rcases List.mem_append.mp htx with htx | htx
    · exact hv.authorized tx htx
    · exact hv.authorized tx (htail tx htx).2
  distinct := by
    have hnone : tail.flatMap Tx.spends = [] :=
      List.flatMap_eq_nil_iff.mpr fun tx htx => by simp [Tx.spends, (htail tx htx).1]
    rw [List.flatMap_append, hnone, List.append_nil]
    exact hv.distinct
  covered tx htx := by
    rcases List.mem_append.mp htx with htx | htx
    · exact hv.covered tx htx
    · exact hv.covered tx (htail tx htx).2
  noInputs := hv.noInputs
  someOutput := hv.someOutput
  paid := by
    have hfees : (tail.map fun tx => tx.fee u).sum = 0 := by
      refine List.sum_eq_zero fun fee hfee => ?_
      obtain ⟨tx, htx, rfl⟩ := List.mem_map.mp hfee
      obtain ⟨hin, hmem⟩ := htail tx htx
      exact Tx.fee_of_no_inputs hin (hv.covered tx hmem)
    rw [List.map_append, List.sum_append, hfees, add_zero]
    exact hv.paid

namespace Blockchain

theorem Accepts.merkleRoot {s : Blockchain} {b lastBlock : Block} (h : s.Accepts b)
    (hlast : s.blocks.getLast? = some lastBlock) :
    b.header.merkleRoot = MerkleRoot.calculate b.transactions :=
  ((checkHeader_ok_iff hlast b).mp (accepts_iff.mp h).1).2.2.1

/-- Where the completions agree, the longer of two accepted lists repeats
transactions without inputs. -/
theorem Accepts.repeatsInto {s : Blockchain} {b b' : Block} (h : s.Accepts b)
    (h' : s.Accepts b') (hne : b.transactions ≠ b'.transactions)
    (hpre : b.transactions <+: b'.transactions)
    (hcomplete : complete (depth b.transactions.length) b.transactions =
      complete (depth b.transactions.length) b'.transactions) : b.RepeatsInto b' := by
  obtain ⟨tail, htail⟩ := hpre
  obtain ⟨coinbase, txs, htxs, -⟩ := h.verified
  obtain ⟨coinbase', txs', htxs', hv'⟩ := h'.verified
  refine ⟨tail, ?_, htail.symm, ?_⟩
  · rintro rfl
    exact hne (by simpa using htail)
  intro tx htx
  -- the repeated transaction is not the coinbase, so it is verified twice in the longer list
  have hdepth := two_pow_depth_lt (n := b.transactions.length) (by simp [htxs])
  rw [htxs, List.length_cons] at hdepth
  obtain ⟨more, hmore, hmem⟩ := mem_tail_of_complete (x := coinbase) hdepth
  have hcompleted' := prefix_complete (depth b.transactions.length) b'.transactions
  rw [← hcomplete, ← htail, htxs, List.length_cons, hmore, List.cons_append,
    List.cons_prefix_cons] at hcompleted'
  have hrepeated : tx ∈ txs := hmem tx (hcompleted'.2.mem (List.mem_append_right _ htx))
  refine ⟨?_, by simpa [htxs] using hrepeated⟩
  rw [← htail, htxs, List.cons_append] at htxs'
  obtain ⟨rfl, rfl⟩ := List.cons.inj htxs'
  have hdistinct := hv'.distinct
  rw [List.flatMap_append, List.nodup_append] at hdistinct
  have hnone : tx.spends = [] := by
    refine List.eq_nil_iff_forall_not_mem.mpr fun k hk => ?_
    exact hdistinct.2.2 k (List.mem_flatMap.mpr ⟨tx, hrepeated, hk⟩) k
      (List.mem_flatMap.mpr ⟨tx, htx, hk⟩) rfl
  simpa [Tx.spends] using hnone

/-- Two accepted blocks with one header hold the same transactions, unless one
of them repeats transactions without inputs at its end. -/
theorem transactions_eq_iff {s : Blockchain} {lastBlock : Block}
    (hlast : s.blocks.getLast? = some lastBlock) {b b' : Block} (hheader : b.header = b'.header)
    (h : s.Accepts b) (h' : s.Accepts b')
    (hfree : MerkleRoot.CollisionFree b.transactions b'.transactions) :
    b.transactions = b'.transactions ↔ ¬ b.RepeatsInto b' ∧ ¬ b'.RepeatsInto b := by
  constructor
  · intro heq
    have hnot : ∀ {c c' : Block}, c.transactions = c'.transactions → ¬ c.RepeatsInto c' := by
      rintro c c' hc ⟨tail, htail, hc', -⟩
      rw [hc] at hc'
      exact htail (List.self_eq_append_right.mp hc')
    exact ⟨hnot heq, hnot heq.symm⟩
  · rintro ⟨hinto, hinto'⟩
    by_contra hne
    obtain ⟨coinbase, txs, htxs, -⟩ := h.verified
    obtain ⟨coinbase', txs', htxs', -⟩ := h'.verified
    have hroot : MerkleRoot.calculate b.transactions = MerkleRoot.calculate b'.transactions := by
      rw [← h.merkleRoot hlast, hheader, h'.merkleRoot hlast]
    obtain ⟨hdepth, hcomplete⟩ := MerkleRoot.complete_eq_of_calculate_eq (by simp [htxs])
      (by simp [htxs']) hfree hroot
    have hpre := prefix_complete (depth b.transactions.length) b.transactions
    rw [hcomplete] at hpre
    rcases List.prefix_or_prefix_of_prefix hpre (prefix_complete _ b'.transactions) with
      hshort | hshort
    · exact hinto (h.repeatsInto h' hne hshort hcomplete)
    · rw [hdepth] at hcomplete
      exact hinto' (h'.repeatsInto h (Ne.symm hne) hshort hcomplete.symm)

/-- A block that repeats transactions without inputs is accepted under the same
header if its Merkle root stays the same. -/
theorem Accepts.of_repeatsInto {s : Blockchain} {lastBlock : Block}
    (hlast : s.blocks.getLast? = some lastBlock) {b b' : Block} (h : s.Accepts b)
    (hinto : b.RepeatsInto b') (hheader : b'.header = b.header)
    (hroot : MerkleRoot.calculate b'.transactions = MerkleRoot.calculate b.transactions) :
    s.Accepts b' := by
  obtain ⟨tail, -, htxs', htail⟩ := hinto
  obtain ⟨coinbase, txs, htxs, hv⟩ := h.verified
  obtain ⟨hcheck, -, hadjust⟩ := accepts_iff.mp h
  rw [htxs] at htail
  refine accepts_iff.mpr ⟨?_, ?_, ?_⟩
  · rw [checkHeader_ok_iff hlast] at hcheck ⊢
    rw [hheader, hroot]
    exact hcheck
  · exact (Block.verifyTransactions_ok_iff ..).mpr
      ⟨coinbase, txs ++ tail, by rw [htxs', htxs]; rfl, hv.repeat_tail htail⟩
  · rwa [adjustedTarget_concat_congr s.blocks (congrArg BlockHeader.timestamp hheader)]

/-- An accepted block with an odd number of transactions, the last of them
without inputs, has a twin under the same header. -/
theorem Accepts.repeat_last {s : Blockchain} {lastBlock : Block}
    (hlast : s.blocks.getLast? = some lastBlock) {header : BlockHeader} {txs : List Tx} {tx : Tx}
    (h : s.Accepts ⟨header, txs ++ [tx]⟩) (hne : txs ≠ []) (heven : txs.length % 2 = 0)
    (hin : tx.inputs = []) : s.Accepts ⟨header, txs ++ [tx, tx]⟩ := by
  refine h.of_repeatsInto hlast ⟨[tx], by simp, by simp, ?_⟩ rfl
    (MerkleRoot.calculate_repeat_last hne heven tx)
  intro t ht
  obtain rfl := List.mem_singleton.mp ht
  exact ⟨hin, by rw [List.tail_append_of_ne_nil hne]; simp⟩

omit [Crates] in
theorem transactions_eq_iff_spendingBlock :
    letI := StandIn.crates
    ¬ StandIn.spendingBlock.RepeatsInto StandIn.spendingBlock := by
  let := StandIn.crates
  have hrun : (StandIn.run [.addBlock StandIn.genesis]).any (fun s => decide
      (s.blocks = [StandIn.genesis] ∧ s.Accepts StandIn.spendingBlock ∧
        MerkleRoot.CollisionFree StandIn.spendingBlock.transactions
          StandIn.spendingBlock.transactions)) = true := by
    decide +kernel
  obtain ⟨s, -, hblocks, haccepts, hfree⟩ := StandIn.exists_run hrun
  have hlast : s.blocks.getLast? = some StandIn.genesis := by rw [hblocks]; rfl
  exact ((transactions_eq_iff hlast rfl haccepts haccepts hfree).mp rfl).1

omit [Crates] in
/-- The second block holds an empty transaction once more than the first. -/
theorem not_transactions_eq :
    letI := StandIn.crates
    ¬ ∀ (s : Blockchain) (lastBlock b b' : Block), s.Reached →
      s.blocks.getLast? = some lastBlock → b.header = b'.header → s.Accepts b → s.Accepts b' →
      MerkleRoot.CollisionFree b.transactions b'.transactions →
      b.transactions = b'.transactions := by
  let := StandIn.crates
  let b := StandIn.nextBlock StandIn.genesis 0 minTarget
    [StandIn.coinbase (StandIn.coin StandIn.bob 1 5000000000), StandIn.toBob, ⟨[], []⟩]
  let b' : Block := ⟨b.header, b.transactions ++ [⟨[], []⟩]⟩
  have hrun : (StandIn.run [.addBlock StandIn.genesis]).any (fun s => decide
      (s.blocks = [StandIn.genesis] ∧ s.Accepts b ∧ s.Accepts b' ∧
        MerkleRoot.CollisionFree b.transactions b'.transactions)) = true := by
    decide +kernel
  obtain ⟨s, hs, hblocks, haccepts, haccepts', hfree⟩ := StandIn.exists_run hrun
  intro h
  have heq := h s StandIn.genesis b b' (StandIn.reached_of_run hs) (by rw [hblocks]; rfl) rfl
    haccepts haccepts' hfree
  exact absurd (congrArg List.length heq) (by decide)

end Blockchain

end ToyBtc
