import ToyBtc.Spends

/-!
# Outputs that are created once

The UTXO set finds an output by its hash, and nothing but the identifier that
the writer of a transaction chooses keeps two hashes apart. In a chain whose
outputs are all different every hash names one position: no insertion hides an
unspent output, and a hash is signed for one spend only, as long as no block spends
what the stored set shows too long.
-/

namespace ToyBtc

open MapLog

/-- The outputs of a chain, in the order of its positions. -/
def chainOutputs (blocks : List Block) : List TxOutput := (chainTxs blocks).flatMap Tx.outputs

def Block.outputs (b : Block) : List TxOutput := b.transactions.flatMap Tx.outputs

/-- A transaction that neither spends nor creates. -/
def Tx.blank : Tx := ⟨[], []⟩

theorem chainTxs_concat (bs : List Block) (b : Block) :
    chainTxs (bs ++ [b]) = chainTxs bs ++ b.transactions := by
  simp [chainTxs]

theorem chainOutputs_concat (bs : List Block) (b : Block) :
    chainOutputs (bs ++ [b]) = chainOutputs bs ++ b.outputs := by
  rw [chainOutputs, chainTxs_concat, List.flatMap_append]
  rfl

/-- A block brings outputs that differ from each other and from those of the
chain, and at most the first blank transaction of the chain. -/
structure Block.BringsNew (bs : List Block) (b : Block) : Prop where
  distinct : b.outputs.Nodup
  fresh : ∀ o ∈ b.outputs, o ∉ chainOutputs bs
  blank : (chainTxs bs).count Tx.blank + b.transactions.count Tx.blank ≤ 1

instance (bs : List Block) (b : Block) : Decidable (b.BringsNew bs) :=
  decidable_of_iff (b.outputs.Nodup ∧ (∀ o ∈ b.outputs, o ∉ chainOutputs bs) ∧
      (chainTxs bs).count Tx.blank + b.transactions.count Tx.blank ≤ 1)
    ⟨fun h => ⟨h.1, h.2.1, h.2.2⟩, fun h => ⟨h.distinct, h.fresh, h.blank⟩⟩

/-- The outputs are all different, and one transaction at most is blank. -/
def OutputsDistinct (bs : List Block) : Prop :=
  (chainOutputs bs).Nodup ∧ (chainTxs bs).count Tx.blank ≤ 1

theorem outputsDistinct_nil : OutputsDistinct [] := by
  simp [OutputsDistinct, chainOutputs, chainTxs]

theorem outputsDistinct_concat (bs : List Block) (b : Block) :
    OutputsDistinct (bs ++ [b]) ↔ OutputsDistinct bs ∧ b.BringsNew bs := by
  simp only [OutputsDistinct, chainOutputs_concat, chainTxs_concat, List.count_append,
    List.nodup_append]
  constructor
  · rintro ⟨⟨hold, hnew, hdisjoint⟩, hblank⟩
    exact ⟨⟨hold, by omega⟩, hnew, fun o ho hmem => hdisjoint o hmem o ho rfl, hblank⟩
  · rintro ⟨⟨hold, -⟩, hnew⟩
    refine ⟨⟨hold, hnew.distinct, ?_⟩, hnew.blank⟩
    rintro o hmem _ ho rfl
    exact hnew.fresh o ho hmem

variable [Crates]

theorem flatMap_creates (txs : List Tx) :
    txs.flatMap Tx.creates = (txs.flatMap Tx.outputs).map TxOutput.hash :=
  List.map_flatMap.symm

theorem insertedKeys_flatMap_log (txs : List Tx) :
    insertedKeys (txs.flatMap Tx.log) = txs.flatMap Tx.creates := by
  induction txs with
  | nil => rfl
  | cons tx rest ih =>
      rw [List.flatMap_cons, insertedKeys_append, ih, List.flatMap_cons]
      simp [Tx.log, Tx.creates, insertedKeys, List.filterMap_append, List.filterMap_map,
        List.filterMap_eq_map']

/-- Every output position of the chain has a hash of its own, no transaction
occurs twice, no insertion finds its key in use, neither from nothing nor by
another output in the stored set, and no hash is signed for two spends. -/
structure UniqueOutputs (s : Blockchain) : Prop where
  created : ((chainTxs s.blocks).flatMap Tx.creates).Nodup
  transactions : (chainTxs s.blocks).Nodup
  inserted : ∀ log h v log', chainLog s.blocks = log ++ Edit.insert h v :: log' →
    h ∉ replay log ∅
  reinserted : ∀ log h v log', chainLog s.blocks = log ++ Edit.insert h v :: log' →
    ∀ o, UtxoSet.output (replay log s.utxoSet) h = some o → o = v.2
  spent : ((chainTxs s.blocks).flatMap Tx.spends).Nodup

omit [Crates] in
theorem exists_split_of_sublist {α : Type*} {a b : α} {l : List α} (h : [a, b].Sublist l) :
    ∃ before between after, l = before ++ a :: between ++ b :: after := by
  obtain ⟨left, right, rfl, ha, hb⟩ := List.cons_sublist_iff.mp h
  obtain ⟨before, rest, rfl⟩ := List.append_of_mem ha
  obtain ⟨between, after, rfl⟩ := List.append_of_mem (List.singleton_sublist.mp hb)
  exact ⟨before, rest ++ between, after, by simp⟩

section Created

variable {blocks : List Block} (valid : ValidChain blocks)
  (created : ((chainTxs blocks).flatMap Tx.creates).Nodup)
include valid created

/-- Two transactions of the chain, at different positions, have no common input. -/
theorem ValidChain.not_conflicts {before between after : List Tx} {first second : Tx}
    (hsplit : chainTxs blocks = before ++ first :: between ++ second :: after) :
    ¬ first.Conflicts second := by
  rintro ⟨h, hfirst, hsecond⟩
  -- the hash was created before its first spend, and once more before the second
  have hsplit' : chainTxs blocks = before ++ first :: (between ++ second :: after) := by
    simp [hsplit]
  obtain ⟨v, hv⟩ := Finmap.mem_iff.mp (valid.live_at_spend hsplit' hfirst)
  have hearlier := mem_insertedKeys (insert_mem_of_lookup_replay hv)
  rw [insertedKeys_flatMap_log] at hearlier
  obtain ⟨creator, hcreator, hcreates⟩ := valid.created_between hsplit hfirst hsecond
  rw [hsplit', List.flatMap_append, List.nodup_append] at created
  refine created.2.2 h hearlier h (List.mem_flatMap.mpr ⟨creator, ?_, hcreates⟩) rfl
  rcases List.mem_cons.mp hcreator with rfl | hmem
  · exact List.mem_cons_self
  · exact List.mem_cons_of_mem _ (List.mem_append_left _ hmem)

theorem ValidChain.spent_nodup : ((chainTxs blocks).flatMap Tx.spends).Nodup := by
  refine List.nodup_flatMap.mpr ⟨fun tx htx => valid.spends_nodup htx, ?_⟩
  rw [List.pairwise_iff_forall_sublist]
  intro first second hsub h hfirst hsecond
  obtain ⟨before, between, after, hsplit⟩ := exists_split_of_sublist hsub
  exact valid.not_conflicts created hsplit ⟨h, hfirst, hsecond⟩

/-- A transaction that occurs twice spends nothing and creates nothing. -/
theorem ValidChain.eq_blank_of_twice {tx : Tx} (hsub : [tx, tx].Sublist (chainTxs blocks)) :
    tx = Tx.blank := by
  have hspends : tx.spends = [] := by
    obtain ⟨before, between, after, hsplit⟩ := exists_split_of_sublist hsub
    refine List.eq_nil_iff_forall_not_mem.mpr fun h hmem => ?_
    exact valid.not_conflicts created hsplit ⟨h, hmem, hmem⟩
  have hcreates : tx.creates = [] := by
    have htwice := created.sublist (hsub.flatMap Tx.creates)
    simp only [List.flatMap_cons, List.flatMap_nil, List.append_nil, List.nodup_append] at htwice
    exact List.eq_nil_iff_forall_not_mem.mpr fun h hmem => htwice.2.2 h hmem h hmem rfl
  obtain ⟨inputs, outputs⟩ := tx
  exact congrArg₂ Tx.mk (List.map_eq_nil_iff.mp hspends) (List.map_eq_nil_iff.mp hcreates)

theorem ValidChain.chainTxs_nodup (hblank : (chainTxs blocks).count Tx.blank ≤ 1) :
    (chainTxs blocks).Nodup := by
  rw [List.nodup_iff_sublist]
  intro tx hsub
  obtain rfl := valid.eq_blank_of_twice created hsub
  have htwice : 2 ≤ (chainTxs blocks).count Tx.blank := List.replicate_sublist_iff.mp hsub
  omega

omit valid in
/-- An output was inserted nowhere before. -/
theorem insert_notMem_of_created {log log' : List (Edit Hash (Bool × TxOutput))} {h : Hash}
    {v w : Bool × TxOutput} (hsplit : chainLog blocks = log ++ Edit.insert h v :: log') :
    Edit.insert h w ∉ log := by
  rw [← insertedKeys_flatMap_log, ← chainLog_eq_flatMap_chainTxs, hsplit] at created
  exact insert_notMem_of_nodup created

end Created

theorem mem_chainOutputs_of_insert {blocks : List Block} {h : Hash} {v : Bool × TxOutput}
    (hmem : Edit.insert h v ∈ chainLog blocks) : v.2 ∈ chainOutputs blocks ∧ v.2.hash = h := by
  rw [chainLog_eq_flatMap_chainTxs] at hmem
  obtain ⟨tx, htx, hlog⟩ := List.mem_flatMap.mp hmem
  obtain ⟨-, ho, hhash⟩ := Tx.insert_mem_log.mp hlog
  exact ⟨List.mem_flatMap.mpr ⟨tx, htx, ho⟩, hhash⟩

theorem UniqueOutputs.outputsDistinct {s : Blockchain} (h : UniqueOutputs s) :
    OutputsDistinct s.blocks := by
  refine ⟨?_, List.nodup_iff_count_le_one.mp h.transactions _⟩
  have hcreated := h.created
  rw [flatMap_creates] at hcreated
  exact hcreated.of_map

namespace Blockchain

/-- With outputs that hash apart, a valid chain of different outputs is all it takes. -/
theorem Stored.uniqueOutputs {s : Blockchain} (hs : s.Stored) (valid : ValidChain s.blocks)
    (collisionFree : ∀ o ∈ chainOutputs s.blocks, ∀ o' ∈ chainOutputs s.blocks,
      o.hash = o'.hash → o = o') (distinct : OutputsDistinct s.blocks) : UniqueOutputs s := by
  obtain ⟨hdistinct, hblank⟩ := distinct
  have created : ((chainTxs s.blocks).flatMap Tx.creates).Nodup := by
    rw [flatMap_creates]
    exact hdistinct.map_on collisionFree
  refine ⟨created, ValidChain.chainTxs_nodup valid created hblank, ?_, ?_,
    ValidChain.spent_nodup valid created⟩
  · intro log h v log' hsplit hmem
    obtain ⟨w, hw⟩ := Finmap.mem_iff.mp hmem
    exact insert_notMem_of_created created hsplit (insert_mem_of_lookup_replay hw)
  · intro log h v log' hsplit o ho
    have hmem : Edit.insert h v ∈ chainLog s.blocks := by simp [hsplit]
    obtain ⟨hv, hhash⟩ := mem_chainOutputs_of_insert hmem
    obtain ⟨bs, ⟨bs', hblocks⟩, houtputs⟩ := hs.outputs
    have hledger : UtxoSet.output (replay log (ledger bs)) h = some o := by
      rw [← ho]
      exact (replay_agree Prod.snd log (fun k => congrFun houtputs k) h).symm
    obtain ⟨marked, hlookup⟩ := UtxoSet.output_eq_some.mp hledger
    rw [ledger, ← replay_append] at hlookup
    have hlog : Edit.insert h (marked, o) ∈ chainLog s.blocks := by
      rcases List.mem_append.mp (insert_mem_of_lookup_replay hlookup) with hmem | hmem
      · rw [← hblocks, chainLog_append]
        exact List.mem_append_left _ hmem
      · exact hsplit ▸ List.mem_append_left _ hmem
    obtain ⟨ho', hhash'⟩ := mem_chainOutputs_of_insert hlog
    exact collisionFree o ho' v.2 hv (hhash'.trans hhash.symm)

/-- A block that creates and spends nothing anew finds its inputs in the set as the chain
has left them. -/
theorem Stored.upToDateFor_of_nodup {s : Blockchain} {b : Block} (hs : s.Stored)
    (hpasses : s.PassesChecks b)
    (created : ((chainTxs (s.blocks ++ [b])).flatMap Tx.creates).Nodup)
    (spent : ((chainTxs (s.blocks ++ [b])).flatMap Tx.spends).Nodup) : s.UpToDateFor b := by
  intro h hspends
  obtain ⟨bs, ⟨bs', hblocks⟩, houtputs⟩ := hs.outputs
  obtain ⟨o, ho⟩ := (passesChecks_iff.mp hpasses).exists_output hspends
  have hlive : (ledger bs).output h = some o := (congrFun houtputs h).symm.trans ho
  obtain ⟨marked, hlookup⟩ := UtxoSet.output_eq_some.mp hlive
  rw [← hblocks, chainTxs_concat, List.flatMap_append, List.nodup_append] at spent created
  -- the blocks that the set has missed neither spend the output nor create it again
  have huntouched : h ∉ keys (chainLog bs') := by
    intro hmem
    obtain ⟨e, he, rfl⟩ := mem_keys.mp hmem
    rw [chainLog_eq_flatMap_chainTxs] at he
    obtain ⟨tx, htx, hlog⟩ := List.mem_flatMap.mp he
    cases e with
    | erase k =>
        refine spent.2.2 k (List.mem_flatMap.mpr ⟨tx, ?_, Tx.erase_mem_log.mp hlog⟩) k hspends rfl
        rw [chainTxs, List.flatMap_append]
        exact List.mem_append_right _ htx
    | insert k v =>
        have hbefore := mem_insertedKeys (insert_mem_of_lookup_replay hlookup)
        rw [chainLog_eq_flatMap_chainTxs, insertedKeys_flatMap_log] at hbefore
        obtain ⟨-, houtput, rfl⟩ := Tx.insert_mem_log.mp hlog
        have htwice := created.1
        rw [chainTxs, List.flatMap_append, List.flatMap_append, List.nodup_append] at htwice
        exact htwice.2.2 _ hbefore _
          (List.mem_flatMap.mpr ⟨tx, htx, List.mem_map_of_mem houtput⟩) rfl
  rw [ho, ← hblocks, ledger, chainLog_append, replay_append]
  refine (UtxoSet.output_eq_some.mpr ⟨marked, ?_⟩).symm
  rw [lookup_replay, final_eq_none_iff.mpr huntouched]
  exact hlookup

/-- Outputs stay unique over a run exactly when every block that it stores brings new ones
and spends what the set shows as the chain has left it. -/
theorem reachedBy_bringsNew_iff {s : Blockchain}
    (collisionFree : ∀ o ∈ chainOutputs s.blocks, ∀ o' ∈ chainOutputs s.blocks,
      o.hash = o'.hash → o = o') :
    s.ReachedBy (Storing fun s b => b.BringsNew s.blocks ∧ s.UpToDateFor b) ↔
      s.Reached ∧ UniqueOutputs s := by
  constructor
  · intro reached
    have hnew : s.ReachedBy (Storing fun s b => b.BringsNew s.blocks) :=
      reached.imp fun _ _ meets b hb hpasses => (meets b hb hpasses).1
    have hcurrent : s.ReachedBy (Storing UpToDateFor) :=
      reached.imp fun _ _ meets b hb hpasses => (meets b hb hpasses).2
    obtain ⟨hreached, hdistinct⟩ := (reachedBy_storing_iff OutputsDistinct outputsDistinct_nil
      fun bs b _ => outputsDistinct_concat bs b).mp hnew
    exact ⟨hreached,
      (ReachedBy.stored reached).uniqueOutputs hcurrent.valid collisionFree hdistinct⟩
  · rintro ⟨reached, hunique⟩
    have hdistinct := hunique.outputsDistinct
    obtain ⟨created, -, -, -, spent⟩ := hunique
    clear collisionFree
    -- the chain of an earlier state is a prefix of the last one
    induction reached with
    | refl => exact .refl
    | tail reached _ next ih =>
        rcases step_blocks next with ⟨hrefused, hblocks⟩ | ⟨b, rfl, hpasses, hblocks⟩
        · rw [hblocks] at hdistinct created spent
          exact (ih hdistinct created spent).tail
            (fun b hb hpasses => absurd hpasses (hrefused b hb)) next
        · rw [hblocks] at hdistinct created spent
          have hupToDate := (ReachedBy.stored reached).upToDateFor_of_nodup hpasses created spent
          rw [chainTxs_concat, List.flatMap_append, List.nodup_append] at created spent
          obtain ⟨hbefore, hnew⟩ := (outputsDistinct_concat _ b).mp hdistinct
          refine (ih hbefore created.1 spent.1).tail ?_ next
          rintro _ ⟨⟩ -
          exact ⟨hnew, hupToDate⟩

end Blockchain

omit [Crates] in
/-- Two blocks whose three outputs have three identifiers. -/
theorem uniqueOutputs_spendingBlock :
    letI := StandIn.crates
    ∃ s : Blockchain, s.blocks = [StandIn.genesis, StandIn.spendingBlock] ∧ UniqueOutputs s := by
  let calls : List Call := [.addBlock StandIn.genesis, .addBlock StandIn.spendingBlock]
  have hrun : (StandIn.run calls).any
      (fun s => decide (s.blocks = [StandIn.genesis, StandIn.spendingBlock])) = true := by
    decide +kernel
  have meets : letI := StandIn.crates
      Machine.StepsMeet Blockchain.step
        (Blockchain.Storing fun s b => b.BringsNew s.blocks ∧ s.UpToDateFor b)
        Blockchain.new calls := by
    decide +kernel
  let := StandIn.crates
  obtain ⟨s, hs, hblocks⟩ := StandIn.exists_run hrun
  refine ⟨s, hblocks, ((Blockchain.reachedBy_bringsNew_iff ?_).mp
    (StandIn.reachedBy_of_run hs meets)).2⟩
  rw [hblocks]
  decide +kernel

namespace StandIn

/-- The reward in two equal outputs. -/
def halves : Tx := ⟨[], [coin alice 0 2500000000, coin alice 0 2500000000]⟩

end StandIn

omit [Crates] in
/-- The two outputs of a first coinbase are equal, and both are stored under one hash. -/
theorem not_uniqueOutputs :
    letI := StandIn.crates
    ¬ ∀ s : Blockchain, s.Reached →
      (∀ o ∈ chainOutputs s.blocks, ∀ o' ∈ chainOutputs s.blocks, o.hash = o'.hash → o = o') →
        UniqueOutputs s := by
  let := StandIn.crates
  let first := StandIn.firstBlock minTarget [StandIn.halves]
  have hrun : (StandIn.run [.addBlock first]).any
      (fun s => decide (s.blocks = [first])) = true := by
    decide +kernel
  obtain ⟨s, hs, hblocks⟩ := StandIn.exists_run hrun
  intro h
  have hcreated := (h s (StandIn.reached_of_run hs) ?_).created
  · rw [hblocks] at hcreated
    exact absurd hcreated (by decide +kernel)
  · rw [hblocks]
    decide +kernel

end ToyBtc
