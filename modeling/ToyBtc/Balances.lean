import ToyBtc.Accounts
import ToyBtc.Uniqueness
import ToyBtc.Validation
import ToyBtc.Wallet

/-!
# Balances

A public key has the outputs that name it, and so a chain of transactions is a
history of transfers between accounts. A transaction debits the owners of what it
spends and credits those whom it pays, no account is overdrawn, and where
outputs are different the unspent outputs are the balances.
-/

namespace ToyBtc

open MapLog Accounts

/-- The amount of an output, if it is for the public key. -/
def amountFor (pubkey : PublicKey) (v : Bool × TxOutput) : Nat :=
  if v.2.pubkey = pubkey then v.2.amount.toNat else 0

/-- The exact sum of the amounts of the outputs for a public key. -/
def UtxoSet.balance (u : UtxoSet) (pubkey : PublicKey) : Nat := total (amountFor pubkey) u

theorem UtxoSet.balance_congr {u u' : UtxoSet} (h : u.output = u'.output) :
    u.balance = u'.balance := by
  funext pubkey
  apply total_congr
  intro k
  have hk := congrArg (Option.map fun o : TxOutput => amountFor pubkey (false, o)) (congrFun h k)
  rw [output, output, Option.map_map, Option.map_map] at hk
  exact hk

variable [Crates]

/-- The transfer of a transaction: it debits the owners of what it spends, and credits
those whom it pays. -/
def Tx.transfer (u : UtxoSet) (tx : Tx) : Transfer PublicKey where
  debit pubkey := (tx.spends.map (held (amountFor pubkey) u)).sum
  credit pubkey := (tx.outputs.map fun o => amountFor pubkey (false, o)).sum

/-- The transfers of transactions that are applied in turn. -/
def transfers : UtxoSet → List Tx → List (Transfer PublicKey)
  | _, [] => []
  | u, tx :: rest => tx.transfer u :: transfers (u.applyTx tx) rest

/-- What the transaction creates is not in the set once what it spends is removed. -/
def Tx.CreatesNew (u : UtxoSet) (tx : Tx) : Prop :=
  tx.creates.Nodup ∧ ∀ h ∈ tx.creates, h ∉ replay (tx.spends.map Edit.erase) u

section Transfer

variable {u : UtxoSet} {tx : Tx}

theorem Tx.inserted_amountFor (tx : Tx) (pubkey : PublicKey) :
    inserted (amountFor pubkey) tx.log = (tx.transfer u).credit pubkey := by
  have herase : inserted (amountFor pubkey) (tx.spends.map Edit.erase) = 0 := by
    simp [inserted, Edit.measure, Edit.left, Function.comp_def]
  rw [log, inserted_append, herase, zero_add]
  simp [inserted, Edit.measure, Edit.left, transfer, Function.comp_def]

omit [Crates] in
theorem Tx.covered_transfer (u : UtxoSet) (hspends : tx.spends.Nodup) :
    (tx.transfer u).Covered u.balance :=
  fun pubkey => sum_held_le (amountFor pubkey) hspends u

/-- A transaction takes away no less than it debits. -/
theorem UtxoSet.balance_applyTx_le (hspends : tx.spends.Nodup) (pubkey : PublicKey) :
    (u.applyTx tx).balance pubkey + (tx.transfer u).debit pubkey ≤
      u.balance pubkey + (tx.transfer u).credit pubkey := by
  have htotal := total_replay_add_removed (amountFor pubkey) tx.log u
  rw [Tx.inserted_amountFor (u := u), ← applyTx_eq_replay, Tx.log, removed_append,
    removed_erase _ hspends] at htotal
  change total (amountFor pubkey) (u.applyTx tx) +
    (tx.spends.map (held (amountFor pubkey) u)).sum ≤ _
  unfold balance
  omega

/-- A transaction that creates new outputs is its transfer. -/
theorem UtxoSet.balance_applyTx (hspends : tx.spends.Nodup) (hnew : tx.CreatesNew u) :
    (u.applyTx tx).balance = (tx.transfer u).apply u.balance := by
  funext pubkey
  have htotal := total_replay_add_removed (amountFor pubkey) tx.log u
  have hinsert : removed (amountFor pubkey) (tx.outputs.map fun o => Edit.insert o.hash (false, o))
      (replay (tx.spends.map Edit.erase) u) = 0 :=
    removed_insert _ hnew.1 fun o ho => hnew.2 o.hash (List.mem_map_of_mem ho)
  rw [Tx.inserted_amountFor (u := u), ← applyTx_eq_replay, Tx.log, removed_append,
    removed_erase _ hspends, hinsert] at htotal
  have hcovered := tx.covered_transfer u hspends pubkey
  have hdebit :
      (tx.transfer u).debit pubkey = (tx.spends.map (held (amountFor pubkey) u)).sum := rfl
  unfold Transfer.apply
  unfold balance at hcovered ⊢
  omega

end Transfer

section History

theorem UtxoSet.balance_foldl_le {txs : List Tx} (hspends : ∀ tx ∈ txs, tx.spends.Nodup)
    (u : UtxoSet) (pubkey : PublicKey) :
    (txs.foldl applyTx u).balance pubkey + debited (transfers u txs) pubkey ≤
      u.balance pubkey + credited (transfers u txs) pubkey := by
  induction txs generalizing u with
  | nil => exact Nat.le_refl _
  | cons tx rest ih =>
      rw [List.forall_mem_cons] at hspends
      have hfirst := u.balance_applyTx_le hspends.1 pubkey
      have hrest := ih hspends.2 (u.applyTx tx)
      rw [List.foldl_cons, transfers, debited_cons, credited_cons]
      omega

/-- Transactions that create outputs unlike each other and those before them. -/
theorem UtxoSet.settle_transfers {before txs : List Tx}
    (hspends : ∀ tx ∈ txs, tx.spends.Nodup)
    (created : ((before ++ txs).flatMap Tx.creates).Nodup) {u : UtxoSet}
    (hu : u = replay (before.flatMap Tx.log) ∅) :
    NeverOverdrawn u.balance (transfers u txs) ∧
      settle u.balance (transfers u txs) = (txs.foldl applyTx u).balance := by
  induction txs generalizing before u with
  | nil => exact ⟨trivial, rfl⟩
  | cons tx rest ih =>
      rw [List.forall_mem_cons] at hspends
      have hnew : tx.CreatesNew u := by
        rw [List.flatMap_append, List.flatMap_cons, List.nodup_append, List.nodup_append] at created
        refine ⟨created.2.1.1, fun h hmem hlive => ?_⟩
        obtain ⟨v, hv⟩ := Finmap.mem_iff.mp hlive
        rw [hu, ← replay_append] at hv
        have hinsert : Edit.insert h v ∈ before.flatMap Tx.log := by
          rcases List.mem_append.mp (insert_mem_of_lookup_replay hv) with hmem | hmem
          · exact hmem
          · simp at hmem
        have hearlier := mem_insertedKeys hinsert
        rw [insertedKeys_flatMap_log] at hearlier
        exact created.2.2 h hearlier h (List.mem_append_left _ hmem) rfl
      have hstep := u.balance_applyTx hspends.1 hnew
      have hnext : u.applyTx tx = replay ((before ++ [tx]).flatMap Tx.log) ∅ := by
        rw [applyTx_eq_replay, hu, ← replay_append]
        simp
      have hcreated : (((before ++ [tx]) ++ rest).flatMap Tx.creates).Nodup := by
        simpa using created
      obtain ⟨hturn, hsettle⟩ := ih hspends.2 hcreated hnext
      rw [hstep] at hturn hsettle
      exact ⟨⟨tx.covered_transfer u hspends.1, hturn⟩, hsettle⟩

theorem foldl_applyTx_eq_replay (txs : List Tx) (u : UtxoSet) :
    txs.foldl UtxoSet.applyTx u = replay (txs.flatMap Tx.log) u := by
  induction txs generalizing u with
  | nil => rfl
  | cons tx rest ih =>
      rw [List.foldl_cons, ih, UtxoSet.applyTx_eq_replay, List.flatMap_cons, replay_append]

theorem ledger_eq_foldl (bs : List Block) : ledger bs = (chainTxs bs).foldl UtxoSet.applyTx ∅ := by
  rw [foldl_applyTx_eq_replay, ← chainLog_eq_flatMap_chainTxs]
  rfl

end History

/-- The transfers of a chain. -/
def history (bs : List Block) : List (Transfer PublicKey) := transfers ∅ (chainTxs bs)

/-- The owner of what is spent has signed for it. -/
theorem CheckedChain.signed_of_debit {bs : List Block} (checked : CheckedChain bs)
    (collisionFree : ∀ o ∈ chainOutputs bs, ∀ o' ∈ chainOutputs bs, o.hash = o'.hash → o = o')
    {before after : List Tx} {tx : Tx} (hsplit : chainTxs bs = before ++ tx :: after)
    {pubkey : PublicKey}
    (hdebit : 0 < (tx.transfer (before.foldl UtxoSet.applyTx ∅)).debit pubkey) :
    ∃ i ∈ tx.inputs, i.signature.verify i.prevTxOutputHash pubkey = true := by
  have htx : tx ∈ chainTxs bs := by
    rw [hsplit]
    exact List.mem_append_right _ List.mem_cons_self
  -- one of the outputs that are spent is there and names the key
  obtain ⟨h, hspend, hheld⟩ : ∃ h ∈ tx.spends,
      held (amountFor pubkey) (before.foldl UtxoSet.applyTx ∅) h ≠ 0 := by
    by_contra hnone
    push Not at hnone
    exact hdebit.ne' (List.sum_eq_zero (by simpa using hnone))
  obtain ⟨v, hlookup, howner⟩ : ∃ v, (before.foldl UtxoSet.applyTx ∅).lookup h = some v ∧
      v.2.pubkey = pubkey := by
    rw [held] at hheld
    cases hlookup : (before.foldl UtxoSet.applyTx ∅).lookup h with
    | none => simp [hlookup] at hheld
    | some v =>
        refine ⟨v, rfl, ?_⟩
        by_contra hother
        simp [hlookup, amountFor, hother] at hheld
  rw [foldl_applyTx_eq_replay] at hlookup
  have hinsert : Edit.insert h v ∈ chainLog bs := by
    rw [chainLog_eq_flatMap_chainTxs, hsplit, List.flatMap_append]
    exact List.mem_append_left _ (insert_mem_of_lookup_replay hlookup)
  obtain ⟨hv, hhash⟩ := mem_chainOutputs_of_insert hinsert
  -- the input that spends it is signed for an output with its hash
  obtain ⟨b, hb, hmem⟩ := List.mem_flatMap.mp htx
  obtain ⟨pre, post, rfl⟩ := List.append_of_mem hb
  obtain ⟨coinbase, txs, hcons, hnoInputs, hcreated⟩ := checked.spends_created
  obtain ⟨i, hi, rfl⟩ := List.mem_map.mp hspend
  rw [hcons] at hmem
  rcases List.mem_cons.mp hmem with rfl | hmem
  · rw [hnoInputs] at hi
    cases hi
  · obtain ⟨earlier, hearlier, creator, hcreator, o, ho, hsame, hsigned⟩ := hcreated tx hmem i hi
    have hout : o ∈ chainOutputs (pre ++ b :: post) := by
      refine List.mem_flatMap.mpr ⟨creator, List.mem_flatMap.mpr ⟨earlier, ?_, hcreator⟩, ho⟩
      exact List.mem_append_left _ hearlier
    obtain rfl := collisionFree o hout v.2 hv (hsame.trans hhash.symm)
    exact ⟨i, hi, howner ▸ hsigned⟩

/-- The history of a chain as accounts: nobody has more than what it was paid and has not
spent, exactly that where no two outputs are the same, and every account is debited
with a signature under its key. -/
structure KeepsAccounts (s : Blockchain) : Prop where
  bounded : ∀ pubkey, s.utxoSet.balance pubkey + debited (history s.blocks) pubkey ≤
    credited (history s.blocks) pubkey
  settled : (chainOutputs s.blocks).Nodup →
    NeverOverdrawn (fun _ => 0) (history s.blocks) ∧
      settle (fun _ => 0) (history s.blocks) = s.utxoSet.balance
  signed : ∀ before tx after, chainTxs s.blocks = before ++ tx :: after → ∀ pubkey,
    0 < (tx.transfer (before.foldl UtxoSet.applyTx ∅)).debit pubkey →
      ∃ i ∈ tx.inputs, i.signature.verify i.prevTxOutputHash pubkey = true

theorem Blockchain.Sound.accounts {s : Blockchain} (hs : s.Sound)
    (collisionFree : ∀ o ∈ chainOutputs s.blocks, ∀ o' ∈ chainOutputs s.blocks,
      o.hash = o'.hash → o = o') : KeepsAccounts s := by
  have hspends : ∀ tx ∈ chainTxs s.blocks, tx.spends.Nodup := fun tx => hs.valid.spends_nodup
  have hbalance : s.utxoSet.balance = ((chainTxs s.blocks).foldl UtxoSet.applyTx ∅).balance := by
    rw [← ledger_eq_foldl]
    exact UtxoSet.balance_congr hs.outputs
  have hempty : (∅ : UtxoSet).balance = fun _ => 0 := rfl
  refine ⟨fun pubkey => ?_, fun hdistinct => ?_, fun before tx after hsplit pubkey hdebit =>
    CheckedChain.signed_of_debit hs.stored.checked collisionFree hsplit hdebit⟩
  · have hle := UtxoSet.balance_foldl_le hspends ∅ pubkey
    rw [hempty, zero_add] at hle
    rw [hbalance]
    exact hle
  · have created : (([] ++ chainTxs s.blocks).flatMap Tx.creates).Nodup := by
      rw [List.nil_append, flatMap_creates]
      exact hdistinct.map_on collisionFree
    have hsettle := UtxoSet.settle_transfers hspends created rfl
    rw [hbalance, ← hempty]
    exact hsettle

namespace Node

/-- On every node, as long as no `add_block` unwinds, the chain is a history of accounts. -/
theorem ReachedBy.keepsAccounts {n : Node} (reached : n.ReachedBy Event.Returns)
    (collisionFree : ∀ o ∈ chainOutputs n.chain.blocks, ∀ o' ∈ chainOutputs n.chain.blocks,
      o.hash = o'.hash → o = o') : KeepsAccounts n.chain :=
  (ReachedBy.sound reached).1.accounts collisionFree

omit [Crates] in
/-- Alice has paid bob the coin of the first block, and bob has mined the second one. -/
theorem keepsAccounts_spendingBlock :
    letI := StandIn.crates
    ∃ n : Node, n.chain.blocks = [StandIn.genesis, StandIn.spendingBlock] ∧
      n.chain.utxoSet.balance StandIn.alice = 0 ∧
      n.chain.utxoSet.balance StandIn.bob = 10000000000 ∧ KeepsAccounts n.chain := by
  have hreturns : letI := StandIn.crates
      Machine.StepsMeet Node.step Event.Returns Node.new [.call (.addBlock StandIn.genesis),
        .call (.addBlock StandIn.spendingBlock)] := by
    decide +kernel
  let := StandIn.crates
  have hrun : (StandIn.runNode [.call (.addBlock StandIn.genesis),
      .call (.addBlock StandIn.spendingBlock)]).any (fun n => decide (
        n.chain.blocks = [StandIn.genesis, StandIn.spendingBlock] ∧
          n.chain.utxoSet.balance StandIn.alice = 0 ∧
          n.chain.utxoSet.balance StandIn.bob = 10000000000)) = true := by
    decide +kernel
  obtain ⟨n, hn, hblocks, halice, hbob⟩ := StandIn.exists_runNode hrun
  have reached := StandIn.reachedBy_of_runNode hn hreturns
  refine ⟨n, hblocks, halice, hbob, ReachedBy.keepsAccounts reached ?_⟩
  rw [hblocks]
  decide +kernel

end Node

/-! ### What nobody signs for -/

/-- An unspent output is one of the outputs of the chain. -/
theorem mem_chainOutputs_of_ledger {bs : List Block} {h : Hash} {o : TxOutput}
    (ho : (ledger bs).output h = some o) : o ∈ chainOutputs bs ∧ o.hash = h := by
  obtain ⟨b, hb, tx, htx, hmem, hhash⟩ := exists_creator_of_ledger ho
  exact ⟨List.mem_flatMap.mpr ⟨tx, List.mem_flatMap.mpr ⟨b, hb, htx⟩, hmem⟩, hhash⟩

omit [Crates] in
theorem mem_chainOutputs_append {bs bs' : List Block} {o : TxOutput} (ho : o ∈ chainOutputs bs) :
    o ∈ chainOutputs (bs ++ bs') := by
  rw [chainOutputs, chainTxs, List.flatMap_append, List.flatMap_append]
  exact List.mem_append_left _ ho

/-- No input of the blocks is signed under the public key. -/
def Unsigned (bs : List Block) (pubkey : PublicKey) : Prop :=
  ∀ b ∈ bs, ∀ tx ∈ b.transactions, ∀ i ∈ tx.inputs,
    i.signature.verify i.prevTxOutputHash pubkey = false

instance (bs : List Block) (pubkey : PublicKey) : Decidable (Unsigned bs pubkey) :=
  inferInstanceAs (Decidable (∀ b ∈ bs, ∀ tx ∈ b.transactions, ∀ i ∈ tx.inputs, _))

/-- Later blocks leave an output alone that its owner does not sign for. -/
theorem CheckedChain.output_of_unsigned {bs bs' : List Block}
    (checked : CheckedChain (bs ++ bs'))
    (collisionFree : ∀ o ∈ chainOutputs (bs ++ bs'), ∀ o' ∈ chainOutputs (bs ++ bs'),
      o.hash = o'.hash → o = o')
    {h : Hash} {o : TxOutput} (ho : (ledger bs).output h = some o)
    (unsigned : Unsigned bs' o.pubkey) : (ledger (bs ++ bs')).output h = some o := by
  have hledger : ledger (bs ++ bs') = replay (chainLog bs') (ledger bs) := by
    rw [ledger, chainLog_append, replay_append]
    rfl
  obtain ⟨hcreated, rfl⟩ := mem_chainOutputs_of_ledger ho
  have hmem : o ∈ chainOutputs (bs ++ bs') := mem_chainOutputs_append hcreated
  have hkept : Edit.erase o.hash ∉ chainLog bs' := by
    intro herase
    obtain ⟨b, hb, hlog⟩ := List.mem_flatMap.mp herase
    obtain ⟨tx, htx, hedit⟩ := List.mem_flatMap.mp hlog
    obtain ⟨i, hi, hspend⟩ := List.mem_map.mp (Tx.erase_mem_log.mp hedit)
    obtain ⟨pre, post, rfl⟩ := List.append_of_mem hb
    rw [← List.append_assoc] at checked
    obtain ⟨coinbase, txs, hcons, hnoInputs, hspends⟩ := checked.spends_created
    rw [hcons] at htx
    rcases List.mem_cons.mp htx with rfl | htx
    · rw [hnoInputs] at hi
      cases hi
    · obtain ⟨earlier, hearlier, creator, hcreator, o', ho', hsame, hsigned⟩ := hspends tx htx i hi
      have hout : o' ∈ chainOutputs (bs ++ (pre ++ b :: post)) := by
        rw [← List.append_assoc]
        refine List.mem_flatMap.mpr ⟨creator, List.mem_flatMap.mpr ⟨earlier, ?_, hcreator⟩, ho'⟩
        exact List.mem_append_left _ hearlier
      obtain rfl := collisionFree o' hout o hmem (hsame.trans hspend)
      have hnot := unsigned b hb tx (by rw [hcons]; exact List.mem_cons_of_mem _ htx) i hi
      rw [hsigned] at hnot
      cases hnot
  have hlive : o.hash ∈ replay (chainLog bs') (ledger bs) :=
    mem_replay_of_mem (UtxoSet.mem_iff_output.mpr ⟨o, ho⟩) hkept
  rw [← hledger] at hlive
  obtain ⟨o', ho'⟩ := UtxoSet.mem_iff_output.mp hlive
  obtain ⟨hmem', hhash⟩ := mem_chainOutputs_of_ledger ho'
  obtain rfl := collisionFree o' hmem' o hmem hhash
  exact ho'

namespace Node

/-- Without a restart the set shows the outputs it has found, or those of the ledger. -/
theorem Stored.output_step {n m : Node} {e : Event} (hn : n.Stored) (meets : e ≠ .restart)
    (next : n.step e = some m) :
    m.chain.utxoSet.output = n.chain.utxoSet.output ∨
      m.chain.utxoSet.output = (ledger m.chain.blocks).output := by
  cases e with
  | call c =>
      obtain ⟨chain, hchain, rfl⟩ := step_call_iff.mp next
      exact hn.1.output_step hchain
  | saveToFile => cases next; exact Or.inl rfl
  | restart => exact absurd rfl meets
  | rebuildUtxoSet => cases next; exact Or.inr (congrArg UtxoSet.output hn.1.utxoSet_rebuild)
  | tryAdjustTarget =>
      rcases step_tryAdjustTarget_cases next with ⟨chain, hchain, rfl⟩ | ⟨-, rfl⟩
      · obtain ⟨target, -, rfl⟩ := Blockchain.tryAdjustTarget_ok_iff.mp hchain
        exact Or.inl rfl
      · exact Or.inl rfl

/-- Without a restart a set that is up to date never falls behind the blocks of now. -/
theorem Becomes.exists_ledger {n m : Node} (hn : n.Sound) (later : n.Becomes m) :
    ∃ bs, bs <+: m.chain.blocks ∧ n.chain.blocks <+: bs ∧
      m.chain.utxoSet.output = (ledger bs).output := by
  have hstored : n.Stored := ⟨hn.1.stored, fun file hfile => (hn.2 file hfile).stored⟩
  refine (later.invariant (fun m => m.Stored ∧ n.chain.blocks <+: m.chain.blocks ∧
    ∃ bs, bs <+: m.chain.blocks ∧ n.chain.blocks <+: bs ∧
      m.chain.utxoSet.output = (ledger bs).output)
    ⟨hstored, List.prefix_refl _, n.chain.blocks, List.prefix_refl _, List.prefix_refl _,
      hn.1.outputs⟩ ?_).2.2
  rintro k e l ⟨hk, hle, bs, hpre, hbase, houtput⟩ meets next
  have hgrows := step_blocks_isPrefix meets next
  refine ⟨hk.step next, hle.trans hgrows, ?_⟩
  rcases hk.output_step meets next with hsame | hledger
  · exact ⟨bs, hpre.trans hgrows, hbase, hsame.trans houtput⟩
  · exact ⟨l.chain.blocks, List.prefix_refl _, hle.trans hgrows, hledger⟩

/-- Whatever a node does until it restarts, a key that signs nothing keeps every output
it has, and so its balance does not fall. No `add_block` before may have unwound, for the
next replay takes what a set that is left behind shows too long. One that unwinds later
leaves the outputs alone. -/
theorem Becomes.keeps_unsigned {n m : Node} (reached : n.ReachedBy Event.Returns)
    (later : n.Becomes m)
    (collisionFree : ∀ o ∈ chainOutputs m.chain.blocks, ∀ o' ∈ chainOutputs m.chain.blocks,
      o.hash = o'.hash → o = o') {pubkey : PublicKey}
    (unsigned : Unsigned (m.chain.blocks.drop n.chain.blocks.length) pubkey) :
    (∀ h o, n.chain.utxoSet.output h = some o → o.pubkey = pubkey →
      m.chain.utxoSet.output h = some o) ∧
    n.chain.utxoSet.balance pubkey ≤ m.chain.utxoSet.balance pubkey := by
  have hn := ReachedBy.sound reached
  have hreached : m.Reached :=
    (reached.imp fun _ _ _ => trivial).trans (later.imp fun _ _ _ => trivial)
  have checked := (ReachedBy.stored hreached).1.checked
  obtain ⟨_, ⟨rest, hm⟩, ⟨bs', rfl⟩, houtput⟩ := later.exists_ledger hn
  rw [← hm, List.append_assoc, List.drop_left] at unsigned
  rw [← hm] at checked collisionFree
  have hkeeps : ∀ h o, n.chain.utxoSet.output h = some o → o.pubkey = pubkey →
      m.chain.utxoSet.output h = some o := by
    rintro h o ho rfl
    rw [hn.1.outputs] at ho
    rw [houtput]
    refine CheckedChain.output_of_unsigned (checked.of_append rest) (fun o ho o' ho' => ?_) ho
      fun b hb => unsigned b (List.mem_append_left _ hb)
    exact collisionFree o (mem_chainOutputs_append ho) o' (mem_chainOutputs_append ho')
  refine ⟨hkeeps, total_mono _ fun h => ?_⟩
  cases hlookup : n.chain.utxoSet.lookup h with
  | none => simp [held, hlookup]
  | some v =>
      by_cases howner : v.2.pubkey = pubkey
      · obtain ⟨marked, hlater⟩ := UtxoSet.output_eq_some.mp
          (hkeeps h v.2 (UtxoSet.output_eq_some.mpr ⟨v.1, hlookup⟩) howner)
        simp [held, hlookup, hlater, amountFor]
      · simp [held, hlookup, amountFor, howner]

omit [Crates] in
/-- Bob mines the second block, and alice keeps the coin of the first one. -/
theorem Becomes.keeps_unsigned_alice :
    letI := StandIn.crates
    ∃ n m : Node, n.chain.blocks = [StandIn.genesis] ∧ m.chain.blocks.length = 2 ∧ n.Becomes m ∧
      n.chain.utxoSet.balance StandIn.alice ≤ m.chain.utxoSet.balance StandIn.alice := by
  have hreturns : letI := StandIn.crates
      Machine.StepsMeet Node.step Event.Returns Node.new [.call (.addBlock StandIn.genesis)] := by
    decide +kernel
  let := StandIn.crates
  let second := StandIn.nextBlock StandIn.genesis 0 minTarget
    [StandIn.coinbase (StandIn.coin StandIn.bob 1 5000000000)]
  have hrun : (StandIn.runNode [.call (.addBlock StandIn.genesis)]).any (fun n => decide (
      n.chain.blocks = [StandIn.genesis] ∧
        (n.step (.call (.addBlock second))).any (fun m => decide (
          m.chain.blocks = [StandIn.genesis, second])) = true)) = true := by
    decide +kernel
  obtain ⟨n, hn, hblocks, hlater⟩ := StandIn.exists_runNode hrun
  obtain ⟨m, hm, hblocks'⟩ := exists_of_any hlater
  have later : n.Becomes m := .tail .refl (by simp) hm
  have hunsigned : Unsigned (m.chain.blocks.drop n.chain.blocks.length) StandIn.alice := by
    rw [hblocks, hblocks']
    decide +kernel
  refine ⟨n, m, hblocks, by rw [hblocks']; rfl, later,
    (later.keeps_unsigned (StandIn.reachedBy_of_runNode hn hreturns) ?_ hunsigned).2⟩
  rw [hblocks']
  decide +kernel

end Node

/-! ### What the wallet shows -/

omit [Crates] in
/-- The reply of a node for a key holds the balance of the key. -/
theorem sum_utxoSetForPubkey {u : UtxoSet} {listing : AList fun _ : Hash => Bool × TxOutput}
    (hlisting : listing.toFinmap = u) (pubkey : PublicKey) :
    ((Blockchain.utxoSetForPubkey listing pubkey).map fun v => v.2.amount.toNat).sum =
      u.balance pubkey := by
  rw [UtxoSet.balance, ← hlisting, total_toFinmap, Blockchain.utxoSetForPubkey]
  induction listing.entries with
  | nil => rfl
  | cons entry rest ih =>
      rw [List.map_cons, List.map_cons, List.sum_cons, ← ih, amountFor]
      by_cases howner : entry.2.2.pubkey = pubkey
      · simp [howner]
      · simp [howner]

variable [Signer]

omit [Crates] in
/-- What is known after the replies are in, summed up over the keys of the wallet. -/
theorem Core.toNat_getBalance_fetchUtxos {store : UtxoStore} {states : PublicKey → UtxoSet}
    {listing : PublicKey → AList fun _ : Hash => Bool × TxOutput}
    (hlisting : ∀ k, (listing k).toFinmap = states k)
    {entries : AList fun _ : PublicKey => List (Bool × TxOutput)}
    (hentries : entries.toFinmap =
      (Core.fetchUtxos store fun k => Handler.fetchUtxos (listing k) k).utxos) :
    (Core.getBalance entries.entries).toNat =
      (∑ k ∈ (store.myKeys.map LoadedKey.publicKey).toFinset, (states k).balance k) % 2 ^ 64 := by
  have hvalue : ∀ entry ∈ entries.entries,
      (entry.2.map fun v => v.2.amount.toNat).sum = (states entry.1).balance entry.1 := by
    intro entry hentry
    have hlookup := AList.mem_lookup_iff.mpr hentry
    rw [← Finmap.lookup_toFinmap, hentries] at hlookup
    rw [lookup_fetchUtxos hlookup]
    exact sum_utxoSetForPubkey (hlisting _) _
  have hkeys : (store.myKeys.map LoadedKey.publicKey).toFinset = entries.keys.toFinset := by
    ext k
    rw [List.mem_toFinset, List.mem_toFinset, ← AList.mem_keys, ← Finmap.mem_toFinmap, hentries]
    constructor
    · intro hmem
      rw [← Finmap.lookup_isSome, Core.fetchUtxos, lookup_foldl_insert LoadedKey.publicKey
        (fun k => (Handler.fetchUtxos (listing k) k).map fun v => (v.2, v.1)), if_pos hmem]
      rfl
    · intro hmem
      exact (Core.fetchUtxos store fun k => Handler.fetchUtxos (listing k) k).owned k hmem
  rw [Core.getBalance, WordSum.toNat_sum, hkeys, List.sum_toFinset _ entries.keys_nodup]
  refine congrArg (· % 2 ^ 64) ?_
  rw [WordSum.exact, List.map_map, AList.keys, List.keys]
  generalize entries.entries = listed at hvalue ⊢
  induction listed with
  | nil => rfl
  | cons entry rest ih =>
      rw [List.forall_mem_cons] at hvalue
      rw [List.flatMap_cons, List.map_append, List.sum_append, ih hvalue.2, List.map_cons,
        List.map_cons, List.sum_cons, ← hvalue.1]
      rfl

/-- A wallet that has asked nodes, each key at a time of its own, shows what the histories
of their chains have credited its keys, less what they have debited them. -/
theorem Core.getBalance_fetchUtxos_eq_history {store : UtxoStore} {nodes : PublicKey → Node}
    (reached : ∀ k, (nodes k).ReachedBy Event.Returns)
    (collisionFree : ∀ k, ∀ o ∈ chainOutputs (nodes k).chain.blocks,
      ∀ o' ∈ chainOutputs (nodes k).chain.blocks, o.hash = o'.hash → o = o')
    (distinct : ∀ k, (chainOutputs (nodes k).chain.blocks).Nodup)
    {listing : PublicKey → AList fun _ : Hash => Bool × TxOutput}
    (hlisting : ∀ k, (listing k).toFinmap = (nodes k).chain.utxoSet)
    {entries : AList fun _ : PublicKey => List (Bool × TxOutput)}
    (hentries : entries.toFinmap =
      (Core.fetchUtxos store fun k => Handler.fetchUtxos (listing k) k).utxos) :
    (Core.getBalance entries.entries).toNat =
      (∑ k ∈ (store.myKeys.map LoadedKey.publicKey).toFinset,
        (credited (history (nodes k).chain.blocks) k -
          debited (history (nodes k).chain.blocks) k)) % 2 ^ 64 := by
  rw [Core.toNat_getBalance_fetchUtxos hlisting hentries]
  refine congrArg (· % 2 ^ 64) (Finset.sum_congr rfl fun k _ => ?_)
  obtain ⟨hturn, hsettle⟩ := ((Node.ReachedBy.sound (reached k)).1.accounts
    (collisionFree k)).settled (distinct k)
  have hleft := hturn.settle_add k
  rw [hsettle] at hleft
  omega

omit [Crates] [Signer] in
/-- Alice has paid bob the coin of the first block, and bob has mined the second one. -/
theorem Core.getBalance_fetchUtxos_eq_history_bob :
    letI := StandIn.crates
    letI := StandIn.signer
    ∃ (n : Node) (entries : AList fun _ : PublicKey => List (Bool × TxOutput)),
      n.chain.blocks = [StandIn.genesis, StandIn.spendingBlock] ∧
      (Core.getBalance entries.entries).toNat =
        (∑ k ∈ {StandIn.alice, StandIn.bob}, (credited (history n.chain.blocks) k -
          debited (history n.chain.blocks) k)) % 2 ^ 64 := by
  have hreturns : letI := StandIn.crates
      Machine.StepsMeet Node.step Event.Returns Node.new [.call (.addBlock StandIn.genesis),
        .call (.addBlock StandIn.spendingBlock)] := by
    decide +kernel
  let := StandIn.crates
  let := StandIn.signer
  let store : UtxoStore := ⟨[⟨StandIn.alice, StandIn.alice⟩, ⟨StandIn.bob, StandIn.bob⟩], ∅,
    fun _ h => absurd h Finmap.notMem_empty⟩
  let coins : List TxOutput := [StandIn.coin StandIn.bob 1 5000000000,
    StandIn.coin StandIn.bob 2 5000000000]
  let listing : AList fun _ : Hash => Bool × TxOutput :=
    (coins.map fun o => ⟨o.hash, false, o⟩).toAList
  let entries : AList fun _ : PublicKey => List (Bool × TxOutput) :=
    [⟨StandIn.alice, []⟩, ⟨StandIn.bob, coins.map fun o => (false, o)⟩].toAList
  have hrun : (StandIn.runNode [.call (.addBlock StandIn.genesis),
      .call (.addBlock StandIn.spendingBlock)]).any (fun n => decide (
        n.chain.blocks = [StandIn.genesis, StandIn.spendingBlock] ∧
          listing.toFinmap = n.chain.utxoSet)) = true := by
    decide +kernel
  have hentries : entries.toFinmap =
      (Core.fetchUtxos store fun k => Handler.fetchUtxos listing k).utxos := by
    decide +kernel
  obtain ⟨n, hn, hblocks, hlisting⟩ := StandIn.exists_runNode hrun
  have hapart : ∀ o ∈ chainOutputs n.chain.blocks, ∀ o' ∈ chainOutputs n.chain.blocks,
      o.hash = o'.hash → o = o' := by
    rw [hblocks]
    decide +kernel
  have hdistinct : (chainOutputs n.chain.blocks).Nodup := by
    rw [hblocks]
    decide +kernel
  exact ⟨n, entries, hblocks, Core.getBalance_fetchUtxos_eq_history
    (fun _ => StandIn.reachedBy_of_runNode hn hreturns) (fun _ => hapart) (fun _ => hdistinct)
    (fun _ => hlisting) hentries⟩

end ToyBtc
