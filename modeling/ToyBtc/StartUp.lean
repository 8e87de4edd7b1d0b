import ToyBtc.MessageLoop

/-!
# The start of a node over TCP

A node that starts loads its chain file, asks its peers for the lengths of their
chains, and downloads block by block what the longest one is ahead. Meanwhile the
peers go on, and nothing makes them answer truthfully.

## Implementation notes

What the peers reply is a function of the number of questions asked before, the
peer and the question; no reply stands for a connection that fails. An error or a
panic ends the program.

A save first empties the file and then writes it piece by piece. One that is cut
short, by a crash or by a write that fails, leaves a file that is not a chain: a
CBOR item says how long it is, and so no proper beginning of one is an item. A
write that fails unwinds the only task that saves.
-/

namespace ToyBtc

namespace Tcp

abbrev Replies := Nat → String → Message → Option Message

/-- What ends a synchronization: a question without a reply, or a block. -/
inductive SyncError
  | unanswered
  | block (e : Abort)

/-- The loop over the peers, with the name and the lead of the best one so far. -/
def findLongest (replies : Replies) (height : UInt64) :
    Nat → List String → String → Int64 → Option (String × Int64)
  | _, [], longestName, longestCount => some (longestName, longestCount)
  | asked, node :: rest, longestName, longestCount =>
      match replies asked node (.askDifference height) with
      | none => none
      | some (.difference count) =>
          if longestCount < count then findLongest replies height (asked + 1) rest node count
          else findLongest replies height (asked + 1) rest longestName longestCount
      | some _ => findLongest replies height (asked + 1) rest longestName longestCount

/-- The peer with the longest chain and how far it is ahead, if all peers reply. -/
def findLongestChainNode (replies : Replies) (nodes : List String) (s : Blockchain) :
    Option (Option (String × UInt64)) :=
  (findLongest replies s.blockHeight 0 nodes "" 0).map fun longest =>
    if longest.2 = 0 then none else some (longest.1, longest.2.toUInt64)

variable [Crates]

/-- Request `need` missing blocks from the specified node. -/
def download (replies : Replies) (node : String) :
    Nat → Nat → Nat → Blockchain → Blockchain × Except SyncError Unit
  | 0, _, _, s => (s, .ok ())
  | need + 1, asked, i, s =>
      match replies asked node (.fetchBlock (UInt64.ofNat i)) with
      | none => (s, .error .unanswered)
      | some (.newBlock b) =>
          match s.addAndRebuild b with
          | (t, .error e) => (t, .error (.block e))
          | (t, .ok ()) => download replies node need (asked + 1) (i + 1) t
      | some _ => download replies node need (asked + 1) (i + 1) s

/-- Ask for the longest chain, download what is missing, and end with a replay and
an adjustment. -/
def synchronizeBlockchain (replies : Replies) (nodes : List String) (s : Blockchain) :
    Blockchain × Except SyncError Unit :=
  match findLongestChainNode replies nodes s with
  | none => (s, .error .unanswered)
  | some none => (s, .ok ())
  | some (some (longestName, longestCount)) =>
      match download replies longestName longestCount.toNat nodes.length s.blockHeight.toNat s with
      | (t, .error e) => (t, .error e)
      | (t, .ok ()) =>
          match t.rebuildUtxoSet.tryAdjustTarget with
          | .error e => (t.rebuildUtxoSet, .error (.block e))
          | .ok adjusted => (adjusted, .ok ())

/-- What `main` does before it listens. -/
def startUp (replies : Replies) (nodes : List String) (n : Node) : Option Node :=
  (n.step .restart).bind fun loaded =>
    match synchronizeBlockchain replies nodes loaded.chain with
    | (chain, .ok ()) => some { loaded with chain }
    | (_, .error _) => none

/-! ### Peers that reply anything -/

/-- A download adds blocks one by one, whatever they are. -/
theorem download_reach (replies : Replies) (node : String) {n : Node} {need asked i : Nat}
    {t : Blockchain} (h : download replies node need asked i n.chain = (t, .ok ())) :
    n.Becomes { n with chain := t } := by
  induction need generalizing n asked i with
  | zero =>
      cases h
      exact .refl
  | succ need ih =>
      rw [download] at h
      split at h
      · cases h
      · next b _ =>
          rcases n.chain.addAndRebuild_cases b with ⟨added, hadd, heq⟩ | ⟨e, -, heq⟩
          · rw [heq] at h
            have hstep : n.step (.call (.addBlock b)) =
                some { n with chain := added.rebuildUtxoSet } := by
              simp [Node.step, Blockchain.step_addBlock_of_ok hadd]
            have hrest := ih (n := { n with chain := _ }) h
            exact (Machine.Reach.tail .refl (by simp) hstep).trans hrest
          · rw [heq] at h
            cases h
      · exact ih h

theorem synchronizeBlockchain_reach (replies : Replies) (nodes : List String) {n : Node}
    {t : Blockchain} (h : synchronizeBlockchain replies nodes n.chain = (t, .ok ())) :
    n.Becomes { n with chain := t } := by
  rw [synchronizeBlockchain] at h
  split at h
  · cases h
  · cases h
    exact .refl
  · split at h
    · cases h
    · next s hdownload =>
        have hrebuild := (download_reach replies _ hdownload).tail (by simp)
          (a := .rebuildUtxoSet) rfl
        split at h
        · cases h
        · next adjusted hadjust =>
            cases h
            exact hrebuild.tail (by simp) (a := .tryAdjustTarget) (by simp [Node.step, hadjust])

theorem startUp_reach (replies : Replies) (nodes : List String) {n m : Node}
    (h : startUp replies nodes n = some m) :
    ∃ loaded, n.step .restart = some loaded ∧ loaded.Becomes m ∧ m.file = n.file := by
  obtain ⟨loaded, hloaded, hsync⟩ := Option.bind_eq_some_iff.mp h
  have hfile : loaded.file = n.file := by
    rcases Node.step_restart_iff.mp hloaded with ⟨-, rfl⟩ | ⟨_, _, -, -, rfl⟩ <;> rfl
  rcases hresult : synchronizeBlockchain replies nodes loaded.chain with ⟨t, e | v⟩
  · rw [hresult] at hsync
    cases hsync
  · rw [hresult] at hsync
    cases hsync
    exact ⟨loaded, hloaded, synchronizeBlockchain_reach replies nodes hresult, hfile⟩

/-- A node on its chain file, which a save may have left torn. The file of the node is
then the last one that was written to its end. -/
structure Life where
  node : Node
  torn : Bool

/-- What happens to the nodes that run one after the other on one chain file. -/
inductive LifeEvent
  | event (e : Event)
  | startUp (replies : Replies) (nodes : List String)
  | cutSave

omit [Crates] in
/-- The event reads the chain file or writes it. -/
def UsesFile : Event → Prop
  | .saveToFile | .restart => True
  | _ => False

instance : DecidablePred UsesFile
  | .saveToFile | .restart => isTrue trivial
  | .call _ | .rebuildUtxoSet | .tryAdjustTarget => isFalse id

namespace Life

def new : Life := ⟨Node.new, false⟩

/-- With a torn file no node starts, and the one that runs saves no more. -/
def step (l : Life) : LifeEvent → Option Life
  | .event e =>
      if l.torn = true ∧ UsesFile e then none
      else (l.node.step e).map fun node => { l with node }
  | .startUp replies nodes =>
      if l.torn then none else (Tcp.startUp replies nodes l.node).map fun node => { l with node }
  | .cutSave => if l.torn then none else some { l with torn := true }

/-- What one event does to a life. -/
theorem step_cases {l m : Life} {e : LifeEvent} (next : l.step e = some m) :
    (∃ e', (l.torn = true → ¬ UsesFile e') ∧ l.node.step e' = some m.node ∧ m.torn = l.torn) ∨
      (∃ replies nodes, l.torn = false ∧ Tcp.startUp replies nodes l.node = some m.node ∧
        m.torn = false) ∨
      l.torn = false ∧ m = { l with torn := true } := by
  cases e with
  | event e =>
      obtain ⟨huses, heq⟩ := Option.ite_none_left_eq_some.mp next
      obtain ⟨node, hnode, rfl⟩ := Option.map_eq_some_iff.mp heq
      exact Or.inl ⟨e, fun htorn huse => huses ⟨htorn, huse⟩, hnode, rfl⟩
  | startUp replies nodes =>
      obtain ⟨hwhole, heq⟩ := Option.ite_none_left_eq_some.mp next
      obtain ⟨node, hnode, rfl⟩ := Option.map_eq_some_iff.mp heq
      have htorn := eq_false_of_ne_true hwhole
      exact Or.inr (Or.inl ⟨replies, nodes, htorn, hnode, htorn⟩)
  | cutSave =>
      obtain ⟨hwhole, heq⟩ := Option.ite_none_left_eq_some.mp next
      exact Or.inr (Or.inr ⟨eq_false_of_ne_true hwhole, (Option.some.inj heq).symm⟩)

end Life

/-- The lives that follow on one another, where starts synchronize with any peers. -/
abbrev Lives : Life → Life → Prop := Machine.Reachable Life.step

end Tcp

variable [Crates]

namespace Node

omit [Crates] in
/-- The file holds the beginning of the chain. -/
def Backed (n : Node) : Prop := ∀ file ∈ n.file, file.blocks <+: n.chain.blocks

/-- The last file that was written holds the beginning of the next one. -/
def KeepsFile (n m : Node) : Prop :=
  ∀ file ∈ n.file, ∃ file' ∈ m.file, file.blocks <+: file'.blocks

omit [Crates] in
theorem KeepsFile.trans {n m k : Node} (h : n.KeepsFile m) (h' : m.KeepsFile k) :
    n.KeepsFile k := by
  intro file hfile
  obtain ⟨file', hfile', hpre⟩ := h file hfile
  obtain ⟨file'', hfile'', hpre'⟩ := h' file' hfile'
  exact ⟨file'', hfile'', hpre.trans hpre'⟩

omit [Crates] in
theorem keepsFile_of_eq {n m : Node} (h : m.file = n.file) : n.KeepsFile m :=
  fun file hfile => ⟨file, h ▸ hfile, List.prefix_refl _⟩

/-- A restart goes back to what the file holds, and nothing else goes back. -/
theorem step_backed {n m : Node} {e : Event} (hn : n.Backed) (next : n.step e = some m) :
    m.Backed ∧ n.KeepsFile m := by
  have hgrows : e ≠ .restart → m.file = n.file → m.Backed := fun hstart hsame file hfile =>
    (hn file (hsame ▸ hfile)).trans (step_blocks_isPrefix hstart next)
  cases e with
  | call c =>
      obtain ⟨chain, hchain, rfl⟩ := step_call_iff.mp next
      exact ⟨hgrows (by simp) rfl, keepsFile_of_eq rfl⟩
  | saveToFile =>
      cases next
      refine ⟨fun file hfile => ?_, fun file hfile => ⟨_, rfl, hn file hfile⟩⟩
      cases hfile
      exact List.prefix_refl _
  | restart =>
      rcases step_restart_iff.mp next with ⟨hfile, rfl⟩ | ⟨file, chain, hfile, hload, rfl⟩
      · refine ⟨fun file hfile' => ?_, keepsFile_of_eq rfl⟩
        rw [hfile] at hfile'
        cases hfile'
      · have hblocks : chain.blocks = file.rebuildUtxoSet.blocks :=
          Blockchain.blocks_tryAdjustTarget hload
        refine ⟨fun file' hfile' => ?_, keepsFile_of_eq rfl⟩
        rw [hfile] at hfile'
        cases hfile'
        exact hblocks ▸ List.prefix_refl _
  | rebuildUtxoSet =>
      cases next
      exact ⟨hgrows (by simp) rfl, keepsFile_of_eq rfl⟩
  | tryAdjustTarget =>
      have hsame : m.file = n.file := by
        rcases step_tryAdjustTarget_cases next with ⟨chain, -, rfl⟩ | ⟨-, rfl⟩ <;> rfl
      exact ⟨hgrows (by simp) hsame, keepsFile_of_eq hsame⟩

theorem startUp_backed {replies : Tcp.Replies} {nodes : List String} {n m : Node}
    (hn : n.Backed) (next : Tcp.startUp replies nodes n = some m) :
    m.Backed ∧ n.KeepsFile m := by
  obtain ⟨loaded, hloaded, hbecomes, hfile⟩ := Tcp.startUp_reach replies nodes next
  have hsame : loaded.file = n.file := by
    rcases step_restart_iff.mp hloaded with ⟨-, rfl⟩ | ⟨_, _, -, -, rfl⟩ <;> rfl
  refine ⟨fun file hmem => ?_, keepsFile_of_eq hfile⟩
  rw [hfile, ← hsame] at hmem
  exact ((step_backed hn hloaded).1 file hmem).trans hbecomes.blocks_isPrefix

end Node

namespace Tcp

theorem Lives.reached {l m : Life} (hl : l.node.Reached) (h : Lives l m) : m.node.Reached := by
  refine h.invariant (fun m => m.node.Reached) hl fun k e m hk _ next => ?_
  rcases Life.step_cases next with ⟨e', -, hstep, -⟩ | ⟨replies, nodes, -, hstart, -⟩ | ⟨-, rfl⟩
  · exact hk.tail trivial hstep
  · obtain ⟨loaded, hloaded, hbecomes, -⟩ := startUp_reach replies nodes hstart
    exact (hk.tail trivial hloaded).trans (hbecomes.imp fun _ _ _ => trivial)
  · exact hk

theorem Life.step_backed {l m : Life} {e : LifeEvent} (hl : l.node.Backed)
    (next : l.step e = some m) : m.node.Backed ∧ l.node.KeepsFile m.node := by
  rcases step_cases next with ⟨e', -, hstep, -⟩ | ⟨replies, nodes, -, hstart, -⟩ | ⟨-, rfl⟩
  · exact Node.step_backed hl hstep
  · exact Node.startUp_backed hl hstart
  · exact ⟨hl, Node.keepsFile_of_eq rfl⟩

/-- With a torn file the same node runs on, and the file stays torn. -/
theorem Lives.becomes_of_torn {l m : Life} (h : Lives l m) (htorn : l.torn = true) :
    m.torn = true ∧ l.node.Becomes m.node := by
  refine h.invariant (fun m => m.torn = true ∧ l.node.Becomes m.node) ⟨htorn, .refl⟩ ?_
  rintro k e m ⟨hk, hbecomes⟩ - next
  rcases Life.step_cases next with ⟨e', huses, hstep, hsame⟩ | ⟨-, -, hwhole, -⟩ | ⟨hwhole, -⟩
  · refine ⟨hsame.trans hk, hbecomes.tail ?_ hstep⟩
    rintro rfl
    exact huses hk trivial
  · rw [hk] at hwhole
    cases hwhole
  · rw [hk] at hwhole
    cases hwhole

/-- Whatever happens to a node and to those that run after it on its file, with starts
that synchronize with peers that reply anything, and saves that are cut short: a node
that runs is one that calls could have led to, and what has been saved once is in what
was saved to the end last, and that is in the chain. A save that is cut short loses the
file for good, and no other node starts on it. -/
theorem Lives.durable {l m : Life} (hl : Lives Life.new l) (later : Lives l m) :
    m.node.Reached ∧
      (∀ file ∈ l.node.file, ∃ file' ∈ m.node.file,
        file.blocks <+: file'.blocks ∧ file'.blocks <+: m.node.chain.blocks) ∧
      (l.torn = true → m.torn = true ∧ l.node.Becomes m.node) := by
  have hnew : Life.new.node.Backed := fun file hfile => by cases hfile
  have hbacked : l.node.Backed :=
    hl.invariant (fun l => l.node.Backed) hnew fun _ _ _ hk _ next => (Life.step_backed hk next).1
  obtain ⟨hm, hkeeps⟩ : m.node.Backed ∧ l.node.KeepsFile m.node := by
    refine later.invariant (fun m => m.node.Backed ∧ l.node.KeepsFile m.node)
      ⟨hbacked, Node.keepsFile_of_eq rfl⟩ ?_
    rintro k e m ⟨hk, hkeeps⟩ - next
    obtain ⟨hm, hnext⟩ := Life.step_backed hk next
    exact ⟨hm, hkeeps.trans hnext⟩
  refine ⟨Lives.reached .refl (hl.trans later), fun file hfile => ?_, later.becomes_of_torn⟩
  obtain ⟨file', hfile', hpre⟩ := hkeeps file hfile
  exact ⟨file', hfile', hpre, hm file' hfile'⟩

omit [Crates] in
/-- A peer that says it is two blocks ahead, replies to one question with something
else, and has one block. The save after that is cut short, and the node runs on. -/
theorem Lives.durable_genesis :
    letI := StandIn.crates
    ∃ l torn m : Life, l.node.file.isSome = true ∧ Lives l torn ∧ torn.torn = true ∧
      Lives torn m ∧ m.node.chain.blocks = [StandIn.genesis, StandIn.spendingBlock] ∧
      (∀ file ∈ l.node.file, ∃ file' ∈ m.node.file,
        file.blocks <+: file'.blocks ∧ file'.blocks <+: m.node.chain.blocks) ∧
      m.torn = true ∧ torn.node.Becomes m.node := by
  let replies : Replies := fun asked _ _ =>
    [.difference 2, .nodeList [], .newBlock StandIn.spendingBlock][asked]?
  let saving : List LifeEvent := [.event (.call (.addBlock StandIn.genesis)), .event .saveToFile]
  let cutting : List LifeEvent := [.startUp replies ["peer"], .cutSave]
  let running : List LifeEvent := [.event .rebuildUtxoSet]
  have hrun : letI := StandIn.crates; (saving.foldlM Life.step Life.new).any (fun l => decide (
      l.node.file.isSome = true ∧ (cutting.foldlM Life.step l).any (fun torn => decide (
        torn.torn = true ∧ (running.foldlM Life.step torn).any (fun m => decide (
          m.node.chain.blocks = [StandIn.genesis, StandIn.spendingBlock])) = true)) = true)) =
        true := by
    decide +kernel
  let := StandIn.crates
  obtain ⟨l, hl, hfile, hcut⟩ := exists_of_any hrun
  obtain ⟨torn, htorn, hflag, hrest⟩ := exists_of_any hcut
  obtain ⟨m, hm, hblocks⟩ := exists_of_any hrest
  have reach : ∀ {events : List LifeEvent} {a b : Life}, events.foldlM Life.step a = some b →
      Lives a b := fun h => Machine.reach_of_foldlM _ (.of_forall (fun _ _ => trivial) _ _) h
  have hsaved := Lives.durable (reach hl) ((reach htorn).trans (reach hm))
  have hlost := Lives.durable ((reach hl).trans (reach htorn)) (reach hm)
  exact ⟨l, torn, m, hfile, reach htorn, hflag, reach hm, hblocks, hsaved.2.1, hlost.2.2 hflag⟩

end Tcp

/-! ### Peers that are nodes and go on -/

namespace Tcp

/-- The peers are nodes that reply as nodes do and go on between two questions. -/
structure Live (replies : Replies) (peers : Nat → String → Node) (env : Nat → Ambient)
    (sourceAddr : String → String) : Prop where
  reached : ∀ asked node, (peers asked node).Reached
  becomes : ∀ asked node, (peers asked node).Becomes (peers (asked + 1) node)
  replies : ∀ asked node m, replies asked node m =
    (Handler.processMessage (peers asked node).chain (env asked) (sourceAddr node) m).reply

/-- The peers, each with its chain when it is asked for its height. -/
def asked (peers : Nat → String → Node) : Nat → List String → List (String × Option Blockchain)
  | _, [] => []
  | k, node :: rest => (node, some (peers k node).chain) :: asked peers (k + 1) rest

omit [Crates] in
theorem map_fst_asked (peers : Nat → String → Node) (k : Nat) (nodes : List String) :
    (asked peers k nodes).map Prod.fst = nodes := by
  induction nodes generalizing k with
  | nil => rfl
  | cons node rest ih => rw [asked, List.map_cons, ih]

def snapshot (peers : Nat → String → Node) (nodes : List String) (nodup : nodes.Nodup) : Peers :=
  ⟨asked peers 0 nodes, (map_fst_asked peers 0 nodes).symm ▸ nodup⟩

section Live

variable {replies : Replies} {peers : Nat → String → Node} {env : Nat → Ambient}
  {sourceAddr : String → String}

theorem Live.blocks_isPrefix (h : Live replies peers env sourceAddr) (node : String) {k k' : Nat}
    (hle : k ≤ k') : (peers k node).chain.blocks <+: (peers k' node).chain.blocks := by
  induction hle with
  | refl => exact List.prefix_refl _
  | step _ ih => exact ih.trans (h.becomes _ node).blocks_isPrefix

/-- The loop finds the peer that it would find if all of them stood still. -/
theorem Live.findLongest_eq (h : Live replies peers env sourceAddr) (height : UInt64) (k : Nat)
    (nodes : List String) (longestName : String) (longestCount : Int64) :
    findLongest replies height k nodes longestName longestCount =
      some (Peers.findLongest height (asked peers k nodes) longestName longestCount) := by
  induction nodes generalizing k longestName longestCount with
  | nil => rfl
  | cons node rest ih =>
      have hreply : replies k node (.askDifference height) =
          some (.difference (NodeSvc.askDifference (peers k node).chain height)) :=
        h.replies k node _
      rw [findLongest, hreply, asked, Peers.findLongest]
      dsimp only
      split
      · exact ih ..
      · exact ih ..

/-- A download of blocks that all come is the one of a stream of them. -/
theorem download_eq {node : String} {stream : List Block} {k i : Nat} {s : Blockchain}
    (h : ∀ j b, stream[j]? = some b →
      replies (k + j) node (.fetchBlock (UInt64.ofNat (i + j))) = some (.newBlock b)) :
    download replies node stream.length k i s =
      ((s.fetchMissingBlocks stream).1, (s.fetchMissingBlocks stream).2.mapError .block) := by
  induction stream generalizing k i s with
  | nil => rfl
  | cons b rest ih =>
      have hfirst : replies k node (.fetchBlock (UInt64.ofNat i)) = some (.newBlock b) := h 0 b rfl
      rw [List.length_cons, download, hfirst, Blockchain.fetchMissingBlocks]
      dsimp only
      rcases s.addAndRebuild b with ⟨t, e | v⟩
      · rfl
      · refine ih fun j b' hb' => ?_
        have hlater := h (j + 1) b' (by simpa using hb')
        rw [Nat.add_right_comm k, Nat.add_right_comm i]
        exact hlater

/-- A peer hands out the blocks it had when it was asked, however it has grown since. -/
theorem Live.download_eq (h : Live replies peers env sourceAddr) {node : String} {k k' : Nat}
    (hle : k ≤ k') {need : Nat} {s : Blockchain}
    (hhas : s.blocks.length + need ≤ (peers k node).chain.blocks.length) :
    download replies node need k' s.blocks.length s =
      (let stream := ((peers k node).chain.blocks.drop s.blocks.length).take need
      ((s.fetchMissingBlocks stream).1, (s.fetchMissingBlocks stream).2.mapError .block)) := by
  have hlength : (((peers k node).chain.blocks.drop s.blocks.length).take need).length = need := by
    rw [List.length_take, List.length_drop]
    omega
  suffices hstream : ∀ j b, (((peers k node).chain.blocks.drop s.blocks.length).take need)[j]? =
      some b → replies (k' + j) node (.fetchBlock (UInt64.ofNat (s.blocks.length + j))) =
        some (.newBlock b) by
    have hall := Tcp.download_eq (s := s) hstream
    rw [hlength] at hall
    exact hall
  intro j b hb
  have hblock : (peers k node).chain.blocks[s.blocks.length + j]? = some b := by
    rw [List.getElem?_take] at hb
    split at hb
    · rwa [List.getElem?_drop] at hb
    · cases hb
  have hbound : (peers k node).chain.blocks.length ≤ subsidyEnd :=
    (Node.ReachedBy.stored (h.reached k node)).1.checked.length_le
  have hend : subsidyEnd < 2 ^ 64 := by decide
  have hlt := (List.getElem?_eq_some_iff.mp hblock).1
  have hindex : (UInt64.ofNat (s.blocks.length + j)).toNat = s.blocks.length + j := by
    rw [UInt64.toNat_ofNat', Nat.mod_eq_of_lt (by omega)]
  have hlater : (peers (k' + j) node).chain.blocks[s.blocks.length + j]? = some b :=
    (List.getElem?_eq_some_iff.mp hblock).2 ▸ List.prefix_iff_getElem?.mp
      (h.blocks_isPrefix node (Nat.le_add_right_of_le hle)) _ hlt
  rw [h.replies, Handler.processMessage, hindex, hlater]
  rfl

omit [Crates] in
theorem exists_of_mem_asked {name : String} {chain : Blockchain} {k : Nat} {nodes : List String}
    (h : (name, some chain) ∈ asked peers k nodes) :
    ∃ k', k' ≤ k + nodes.length ∧ chain = (peers k' name).chain := by
  induction nodes generalizing k with
  | nil => cases h
  | cons node rest ih =>
      rcases List.mem_cons.mp h with heq | hrest
      · cases heq
        exact ⟨k, Nat.le_add_right _ _, rfl⟩
      · obtain ⟨k', hle, rfl⟩ := ih hrest
        refine ⟨k', ?_, rfl⟩
        rw [List.length_cons]
        omega

/-- The start synchronizes as if the peers stood still once they have been asked: block
by block it downloads what the periodic synchronization would download as a stream. -/
theorem Live.synchronizeBlockchain_eq_snapshot (h : Live replies peers env sourceAddr) {n : Node}
    (hn : n.Reached) {nodes : List String} (nodup : nodes.Nodup) :
    (synchronizeBlockchain replies nodes n.chain).1 =
        (snapshot peers nodes nodup).synchronizeBlockchain n.chain ∧
      (synchronizeBlockchain replies nodes n.chain).2 ≠ .error .unanswered := by
  have hend : subsidyEnd < 2 ^ 62 := by decide
  have hlocal : n.chain.blocks.length ≤ subsidyEnd := (Node.ReachedBy.stored hn).1.checked.length_le
  have hfind : findLongestChainNode replies nodes n.chain =
      some ((snapshot peers nodes nodup).findLongestChainNode n.chain) := by
    rw [findLongestChainNode, h.findLongest_eq]
    rfl
  rw [synchronizeBlockchain, hfind, Peers.synchronizeBlockchain]
  cases hlongest : (snapshot peers nodes nodup).findLongestChainNode n.chain with
  | none => exact ⟨rfl, by simp⟩
  | some longest =>
      obtain ⟨name, need⟩ := longest
      obtain ⟨peer, hmem, hahead, rfl⟩ := Peers.findLongestChainNode_mem hlongest
      obtain ⟨k, hle, rfl⟩ := exists_of_mem_asked hmem
      have hpeer : (peers k name).chain.blocks.length ≤ subsidyEnd :=
        (Node.ReachedBy.stored (h.reached k name)).1.checked.length_le
      have hlead := NodeSvc.toInt_askDifference (s := (peers k name).chain) (t := n.chain)
        (by omega) (by omega)
      have hlonger : n.chain.blocks.length < (peers k name).chain.blocks.length := by
        have hpos := hahead
        rw [Int64.lt_iff_toInt_lt, hlead] at hpos
        simpa using hpos
      have hneed : (NodeSvc.askDifference (peers k name).chain n.chain.blockHeight).toUInt64.toNat =
          (peers k name).chain.blocks.length - n.chain.blocks.length := by
        rw [Int64.toNat_toUInt64_of_le (Int64.le_of_lt hahead), ← Int64.toNat_toInt, hlead]
        omega
      have hstart : n.chain.blockHeight.toNat = n.chain.blocks.length := toNat_height (by omega)
      have hhas : n.chain.blocks.length + ((peers k name).chain.blocks.length -
          n.chain.blocks.length) ≤ (peers k name).chain.blocks.length := by omega
      rw [Nat.zero_add] at hle
      have hdownload := h.download_eq hle hhas
      dsimp only at hdownload ⊢
      rw [Peers.lookup_of_mem (snapshot peers nodes nodup).nodup hmem, hneed, hstart, hdownload]
      dsimp only
      rw [NodeSvc.fetchBlocks, hstart, hneed, Blockchain.synchronizeBlockchain]
      rcases n.chain.fetchMissingBlocks _ with ⟨t, e | v⟩
      · exact ⟨rfl, by simp [Except.mapError]⟩
      · dsimp only [Except.mapError]
        cases t.rebuildUtxoSet.tryAdjustTarget with
        | error e => exact ⟨rfl, by simp⟩
        | ok adjusted => exact ⟨rfl, by simp⟩

omit [Crates] in
/-- A peer that has got its second block after it was asked for its height. -/
theorem Live.synchronizeBlockchain_eq_snapshot_genesis :
    letI := StandIn.crates
    ∃ (replies : Replies) (peers : Nat → String → Node),
      (peers 0 "peer").chain.blocks = [StandIn.genesis] ∧
      (peers 1 "peer").chain.blocks = [StandIn.genesis, StandIn.spendingBlock] ∧
      (synchronizeBlockchain replies ["peer"] Blockchain.new).1 =
        (snapshot peers ["peer"] (List.nodup_singleton _)).synchronizeBlockchain
          Blockchain.new := by
  let := StandIn.crates
  have hrun : (StandIn.runNode [.call (.addBlock StandIn.genesis)]).any (fun n => decide (
      n.chain.blocks = [StandIn.genesis] ∧
        (n.step (.call (.addBlock StandIn.spendingBlock))).any (fun m => decide
          (m.chain.blocks = [StandIn.genesis, StandIn.spendingBlock])) = true)) = true := by
    decide +kernel
  obtain ⟨n, hn, hblocks, hlater⟩ := StandIn.exists_runNode hrun
  obtain ⟨m, hm, hblocks'⟩ := exists_of_any hlater
  let peers : Nat → String → Node := fun k _ => if k = 0 then n else m
  have hreached := StandIn.reached_of_runNode hn
  have hlive : Live (fun k node message => (Handler.processMessage (peers k node).chain
      ⟨0, ⟨0⟩, ∅, [], true⟩ "source" message).reply) peers
      (fun _ => ⟨0, ⟨0⟩, ∅, [], true⟩) (fun _ => "source") := by
    refine ⟨fun k node => ?_, fun k node => ?_, fun _ _ _ => rfl⟩
    · by_cases hk : k = 0
      · simpa [peers, hk] using hreached
      · simpa [peers, hk] using hreached.tail trivial hm
    · by_cases hk : k = 0
      · simpa [peers, hk] using Machine.Reach.tail .refl (by simp) hm
      · simpa [peers, hk] using Machine.Reach.refl
  exact ⟨_, peers, hblocks, hblocks',
    (hlive.synchronizeBlockchain_eq_snapshot (n := Node.new) .refl (List.nodup_singleton _)).1⟩

end Live

end Tcp

end ToyBtc
