import ToyBtc.FrontEnds

/-!
# Is a template still current?

The validator compares the template with the tip and the mempool. It looks for
the coinbase in the mempool as well, where only a coinbase that pays nothing
can be, and on an empty chain it finds no tip to compare with.
-/

namespace ToyBtc

variable [Crates]

/-- Whether the template points to the last block and all its transactions are in
the mempool. Both front ends ask this. -/
def Blockchain.validateTemplate (s : Blockchain) (blockTemplate : Block) : Bool :=
  let validHash := (s.blocks.getLast?.map fun last =>
    decide (last.header.hash = blockTemplate.header.prevBlockHash)).getD false
  let validTxs := blockTemplate.transactions.all fun tx => s.mempool.any fun e => decide (tx = e.2)
  validHash && validTxs

/-- The answer to `ValidateTemplate`, over TCP. -/
def Handler.validateTemplate (s : Blockchain) (blockTemplate : Block) : Bool :=
  s.validateTemplate blockTemplate

/-- Ask the node to validate a block template, over gRPC. -/
def MinerSvc.validateTemplate (s : Blockchain) (blockTemplate : Block) : Bool :=
  s.validateTemplate blockTemplate

theorem Blockchain.validateTemplate_iff {s : Blockchain} {blockTemplate : Block} :
    s.validateTemplate blockTemplate = true ↔
      (∃ last, s.blocks.getLast? = some last ∧
        last.header.hash = blockTemplate.header.prevBlockHash) ∧
      ∀ tx ∈ blockTemplate.transactions, ∃ e ∈ s.mempool, tx = e.2 := by
  cases hlast : s.blocks.getLast? with
  | none => simp [validateTemplate, hlast]
  | some last => simp [validateTemplate, hlast]

/-- A transaction without inputs is in the mempool only if it pays nothing. -/
theorem Blockchain.ReachedBy.outputAmount_of_noInputs {C : Blockchain → Call → Prop}
    {s : Blockchain} (reached : s.ReachedBy C) :
    ∀ e ∈ s.mempool, e.2.inputs = [] → e.2.outputAmount = 0 := by
  refine reached.invariant (fun s => ∀ e ∈ s.mempool, e.2.inputs = [] → e.2.outputAmount = 0)
    (by simp [new]) ?_
  intro s c t hs _ next e he hin
  rcases step_mempool next he with hold | ⟨now, -, -, hpaid⟩
  · exact hs e hold hin
  · have hnothing : e.2.inputAmount s.utxoSet = 0 := by simp [Tx.inputAmount, hin]
    exact UInt64.le_zero_iff.mp (hnothing ▸ hpaid)

/-- As long as its coinbase pays something, no template is ever called valid. -/
theorem Blockchain.ReachedBy.validateTemplate_eq_false {C : Blockchain → Call → Prop}
    {s : Blockchain} (reached : s.ReachedBy C) {blockTemplate : Block} {coinbase : Tx}
    (hmem : coinbase ∈ blockTemplate.transactions) (hin : coinbase.inputs = [])
    (hpays : coinbase.outputAmount ≠ 0) : s.validateTemplate blockTemplate = false := by
  rw [← Bool.not_eq_true, validateTemplate_iff]
  rintro ⟨-, hpresent⟩
  obtain ⟨e, he, rfl⟩ := hpresent coinbase hmem
  exact hpays (reached.outputAmount_of_noInputs e he hin)

/-- The tip is still the one the template was built on, and the transactions that
the template took from the mempool are still there. -/
def TemplateCurrent (built now : Blockchain) (blockTemplate : Block) : Prop :=
  now.blocks.getLast? = built.blocks.getLast? ∧
    ∀ tx ∈ blockTemplate.transactions.tail, ∃ e ∈ now.mempool, tx = e.2

/-- In a chain of checked blocks with headers that hash apart, the tip's hash names the
tip of a prefix only if the prefix is not empty and has that tip. -/
theorem CheckedChain.tip_eq_iff {bs bs' : List Block} (checked : CheckedChain bs')
    (hpre : bs <+: bs')
    (collisionFree : ∀ x ∈ bs', ∀ y ∈ bs', x.header.hash = y.header.hash → x.header = y.header)
    (nonzero : ∀ x ∈ bs', x.header.hash ≠ Hash.zero) :
    (∃ last, bs'.getLast? = some last ∧ last.header.hash = tipHash bs) ↔
      bs' ≠ [] ∧ bs'.getLast? = bs.getLast? := by
  constructor
  · rintro ⟨last, hlast, hhash⟩
    have hmem := List.mem_of_getLast? hlast
    refine ⟨List.ne_nil_of_mem hmem, ?_⟩
    cases htip : bs.getLast? with
    | none => exact absurd (by simpa [tipHash, htip] using hhash) (nonzero last hmem)
    | some tip =>
        have hmem' := hpre.subset (List.mem_of_getLast? htip)
        have hheader := collisionFree last hmem tip hmem' (by simpa [tipHash, htip] using hhash)
        rw [hlast, checked.eq_of_header_eq hmem hmem' hheader]
  · rintro ⟨hne, heq⟩
    have hlast := List.getLast?_eq_some_getLast hne
    exact ⟨_, hlast, by simp [tipHash, ← heq, hlast]⟩

namespace Node

/-- The answer about a template, asked at a later time and of either front end,
says exactly whether the template is current, unless it is current on an empty
chain or with a coinbase that is not itself in the mempool. -/
theorem Becomes.validateTemplate_iff_iff {n m : Node} (reached : n.Reached) (later : n.Becomes m)
    {fetch : Blockchain → PublicKey → Uuid → DateTime → Outcome Block}
    (hfetch : fetch = Handler.fetchTemplate ∨ fetch = MinerSvc.fetchTemplate)
    {validate : Blockchain → Block → Bool}
    (hvalidate : validate = Handler.validateTemplate ∨ validate = MinerSvc.validateTemplate)
    {pubkey : PublicKey} {uniqueId : Uuid} {now : DateTime} {blockTemplate : Block}
    (fetched : fetch n.chain pubkey uniqueId now = .ok blockTemplate)
    (collisionFree : ∀ x ∈ m.chain.blocks, ∀ y ∈ m.chain.blocks,
      x.header.hash = y.header.hash → x.header = y.header)
    (nonzero : ∀ x ∈ m.chain.blocks, x.header.hash ≠ Hash.zero) :
    (validate m.chain blockTemplate = true ↔ TemplateCurrent n.chain m.chain blockTemplate) ↔
      (TemplateCurrent n.chain m.chain blockTemplate →
        m.chain.blocks ≠ [] ∧
          ∃ e ∈ m.chain.mempool, n.chain.templateCoinbase pubkey uniqueId = e.2) := by
  have hm : m.Reached := reached.trans (later.imp fun _ _ _ => trivial)
  have htip :=
    (ReachedBy.stored hm).1.checked.tip_eq_iff later.blocks_isPrefix collisionFree nonzero
  obtain rfl : blockTemplate = n.chain.template pubkey uniqueId now := by
    rcases hfetch with rfl | rfl <;> exact (Blockchain.buildTemplate_ok_iff.mp fetched).2.2
  have hanswer : validate m.chain = m.chain.validateTemplate := by
    rcases hvalidate with rfl | rfl <;> rfl
  rw [hanswer, Blockchain.validateTemplate_iff]
  simp only [TemplateCurrent, Blockchain.template, List.forall_mem_cons, List.tail_cons]
  rw [htip]
  constructor
  · intro hiff hcurrent
    obtain ⟨⟨hne, -⟩, hcoinbase, -⟩ := hiff.mpr hcurrent
    exact ⟨hne, hcoinbase⟩
  · intro hspecial
    constructor
    · rintro ⟨⟨-, hsame⟩, -, hpresent⟩
      exact ⟨hsame, hpresent⟩
    · intro hcurrent
      -- the validator asks for two things more than that the template is current
      obtain ⟨hne, hcoinbase⟩ := hspecial hcurrent
      exact ⟨⟨hne, hcurrent.1⟩, hcoinbase, hcurrent.2⟩

omit [Crates] in
/-- A template that is current, which is not recognised, and the same template after a
block has stored its payment, which is. -/
theorem validateTemplate_iff_spendingBlock :
    letI := StandIn.crates
    ∃ (n m : Node) (blockTemplate : Block),
      TemplateCurrent n.chain n.chain blockTemplate ∧
        ¬ (Handler.validateTemplate n.chain blockTemplate = true ↔
          TemplateCurrent n.chain n.chain blockTemplate) ∧
      m.chain.blocks ≠ n.chain.blocks ∧
        (Handler.validateTemplate m.chain blockTemplate = true ↔
          TemplateCurrent n.chain m.chain blockTemplate) := by
  let := StandIn.crates
  have hrun : (StandIn.runNode [.call (.addBlock StandIn.genesis),
      .call (.addToMempool 0 StandIn.toBob)]).any (fun n => decide
        (n.chain.blocks = [StandIn.genesis] ∧
          (Handler.fetchTemplate n.chain StandIn.bob ⟨1⟩ 0).toOption.any (fun blockTemplate =>
            decide ((∀ tx ∈ blockTemplate.transactions.tail, ∃ e ∈ n.chain.mempool, tx = e.2) ∧
              ¬ ∃ e ∈ n.chain.mempool,
                n.chain.templateCoinbase StandIn.bob ⟨1⟩ = e.2)) = true ∧
          (n.step (.call (.addBlock StandIn.spendingBlock))).any (fun m => decide
            (m.chain.blocks = [StandIn.genesis, StandIn.spendingBlock])) = true)) = true := by
    decide +kernel
  obtain ⟨n, hn, hblocks, hok, hnext⟩ := StandIn.exists_runNode hrun
  obtain ⟨m, hm, hstored⟩ := exists_of_any hnext
  obtain ⟨blockTemplate, hfetch, hpresent, hcoinbase⟩ := exists_ok_of_any hok
  have hcurrent : TemplateCurrent n.chain n.chain blockTemplate := ⟨rfl, hpresent⟩
  have hne : m.chain.blocks ≠ n.chain.blocks := by simp [hblocks, hstored]
  refine ⟨n, m, blockTemplate, hcurrent, fun hiff => ?_, hne, ?_⟩
  · refine hcoinbase ((Becomes.validateTemplate_iff_iff (StandIn.reached_of_runNode hn) .refl
      (.inl rfl) (.inl rfl) hfetch ?_ ?_).mp hiff hcurrent).2
    · rw [hblocks]
      decide +kernel
    · rw [hblocks]
      decide +kernel
  · refine (Becomes.validateTemplate_iff_iff (StandIn.reached_of_runNode hn)
      (.tail .refl (by simp) hm) (.inl rfl) (.inl rfl) hfetch ?_ ?_).mpr fun hcurrent => ?_
    · rw [hstored]
      decide +kernel
    · rw [hstored]
      decide +kernel
    · have htip := hcurrent.1
      rw [hblocks, hstored] at htip
      exact absurd (Option.some.inj htip) (by decide)

omit [Crates] in
/-- Nothing has happened since the template was built, and it is called invalid. -/
theorem not_validateTemplate_iff :
    letI := StandIn.crates
    ¬ ∀ n m : Node, n.Reached → n.Becomes m → ∀ pubkey uniqueId now blockTemplate,
      MinerSvc.fetchTemplate n.chain pubkey uniqueId now = .ok blockTemplate →
        (MinerSvc.validateTemplate m.chain blockTemplate = true ↔
          TemplateCurrent n.chain m.chain blockTemplate) := by
  let := StandIn.crates
  have hrun : (StandIn.runNode [.call (.addBlock StandIn.genesis),
      .call (.addToMempool 0 StandIn.toBob)]).any (fun n => decide
        ((MinerSvc.fetchTemplate n.chain StandIn.bob ⟨1⟩ 0).toOption.any (fun blockTemplate =>
          decide (MinerSvc.validateTemplate n.chain blockTemplate = false ∧
            ∀ tx ∈ blockTemplate.transactions.tail, ∃ e ∈ n.chain.mempool, tx = e.2)) = true)) =
      true := by
    decide +kernel
  obtain ⟨n, hn, hfetch⟩ := StandIn.exists_runNode hrun
  obtain ⟨blockTemplate, htemplate, hinvalid, hpresent⟩ := exists_ok_of_any hfetch
  intro h
  have hvalid := (h n n (StandIn.reached_of_runNode hn) .refl _ _ _ _ htemplate).mpr
    ⟨rfl, hpresent⟩
  rw [hinvalid] at hvalid
  cases hvalid

end Node

end ToyBtc
