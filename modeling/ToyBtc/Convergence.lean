import ToyBtc.Flooding
import ToyBtc.Sync
import ToyBtc.Validation

/-!
# Convergence by synchronization

What a node holds reaches every node that a path of synchronizations leads to,
unless a node on the path has parted from a peer that it has asked.

## Implementation notes

A peer answers with the height that it had when it was asked, and serves its
blocks from the chain that it has when they are requested. Each block of the stream
is added under a lock of its own, so that anything can happen between two of them.
The replay and the adjustment after the last one are events. The questions and the
request are one step: the node's height is the same for all of them as long as it
stores no other block until its download is over.
-/

namespace ToyBtc

open Flooding

/-- The peers of a node in the order in which it asks them, each with the node that
answers and the height that it has then. -/
structure Asked (ι : Type*) where
  nodes : List (String × Option (ι × Nat))
  nodup : (nodes.map Prod.fst).Nodup

/-- A node, with what is left of the stream that it downloads. -/
structure Downloader where
  node : Node
  stream : Option (List Block)

/-- What happens among the nodes: an event at one of them, the questions and the request
of a synchronization, and the next block of a stream or its end. -/
inductive Happening (ι : Type*)
  | event (i : ι) (e : Event)
  | request (i : ι) (asked : Asked ι)
  | receive (i : ι)

/-- The chain that had this height. -/
def Blockchain.atHeight (s : Blockchain) (height : Nat) : Blockchain :=
  { s with blocks := s.blocks.take height }

variable {ι : Type*}

namespace Asked

/-- The node answers, and it has this height then. -/
def Answers (asked : Asked ι) (j : ι) (height : Nat) : Prop :=
  some (j, height) ∈ asked.nodes.map Prod.snd

/-- The chains from which the peers answer. -/
def peers (asked : Asked ι) (nodes : ι → Node) : Peers where
  nodes := asked.nodes.map fun e =>
    (e.1, e.2.map fun answer => (nodes answer.1).chain.atHeight answer.2)
  nodup := by
    rw [List.map_map]
    exact asked.nodup

/-- Ask for the longest chain, and request from the peer that has it what is missing. -/
def requestBlocks (asked : Asked ι) (nodes : ι → Node) (s : Blockchain) : Option (List Block) :=
  match (asked.peers nodes).findLongestChainNode s with
  | none => none
  | some (longestName, longestCount) =>
      match asked.nodes.lookup longestName with
      | some (some (j, _)) =>
          some (NodeSvc.fetchBlocks (nodes j).chain s.blockHeight longestCount)
      | _ => none

end Asked

namespace Downloader

variable [Crates]

/-- One event. A restart ends a download. -/
def step (d : Downloader) (e : Event) : Option Downloader :=
  (d.node.step e).map fun node => ⟨node, if e ≠ .restart then d.stream else none⟩

/-- Add the next block of the stream. The end of the stream and an error end the
download. -/
def receive (d : Downloader) : Option Downloader :=
  match d.stream with
  | none => none
  | some [] => some { d with stream := none }
  | some (b :: rest) =>
      match d.node.chain.addAndRebuild b with
      | (chain, .error _) => some ⟨{ d.node with chain }, none⟩
      | (chain, .ok ()) => some ⟨{ d.node with chain }, some rest⟩

/-- With nothing in between, the stream is downloaded as by `fetch_missing_blocks`. -/
theorem receive_fetchMissingBlocks (n : Node) (stream : List Block) :
    Machine.Reachable (fun d (_ : Unit) => receive d) ⟨n, some stream⟩
      ⟨{ n with chain := (n.chain.fetchMissingBlocks stream).1 }, none⟩ := by
  induction stream generalizing n with
  | nil => exact .tail .refl trivial (a := ()) rfl
  | cons b rest ih =>
      rw [Blockchain.fetchMissingBlocks]
      rcases hadd : n.chain.addAndRebuild b with ⟨t, e | v⟩
      · exact .tail .refl trivial (a := ()) (by simp [receive, hadd])
      · have hfirst : receive ⟨n, some (b :: rest)⟩ = some ⟨{ n with chain := t }, some rest⟩ := by
          simp [receive, hadd]
        exact (Machine.Reach.tail .refl trivial (a := ()) hfirst).trans (ih { n with chain := t })

/-- A download ends, or its next block is added. -/
theorem receive_cases {d d' : Downloader} (h : d.receive = some d') :
    (d.stream = some [] ∧ d' = { d with stream := none }) ∨
      ∃ b rest stream, d.stream = some (b :: rest) ∧
        d' = ⟨{ d.node with chain := (d.node.chain.addAndRebuild b).1 }, stream⟩ ∧
        (d.node.chain.Accepts b → stream = some rest) := by
  obtain ⟨node, _ | ⟨_ | ⟨b, rest⟩⟩⟩ := d
  · cases h
  · cases h
    exact Or.inl ⟨rfl, rfl⟩
  · right
    rw [receive] at h
    rcases node.chain.addAndRebuild_cases b with ⟨t, hadd, heq⟩ | ⟨e, hadd, heq⟩
    · simp only [heq] at h
      cases h
      exact ⟨b, rest, some rest, rfl, by rw [heq], fun _ => rfl⟩
    · simp only [heq] at h
      cases h
      refine ⟨b, rest, none, rfl, by rw [heq], ?_⟩
      rintro ⟨t, ht⟩
      rw [hadd] at ht
      cases ht

end Downloader

section Step

variable [DecidableEq ι] [Crates]

/-- One happening. A node downloads one stream at a time. -/
def Happening.step (nodes : ι → Downloader) : Happening ι → Option (ι → Downloader)
  | .event i e => ((nodes i).step e).map (Function.update nodes i)
  | .request i asked =>
      match (nodes i).stream with
      | some _ => none
      | none =>
          let stream := asked.requestBlocks (fun j => (nodes j).node) (nodes i).node.chain
          some (Function.update nodes i { nodes i with stream })
  | .receive i => (nodes i).receive.map (Function.update nodes i)

/-- No node restarts, no adjustment unwinds after a block is stored, and a node that
downloads stores the blocks of its stream and no others. -/
def Happening.Orderly (nodes : ι → Downloader) : Happening ι → Prop
  | .event i e => e ≠ .restart ∧ e.Returns (nodes i).node ∧
      ∀ b, e = .call (.addBlock b) → (nodes i).node.chain.PassesChecks b →
        (nodes i).stream = none
  | .request _ _ => True
  | .receive i => ∀ b ∈ (nodes i).stream.bind List.head?, ¬ (nodes i).node.chain.Unwinds b

instance (nodes : ι → Downloader) : ∀ h : Happening ι, Decidable (h.Orderly nodes)
  | .event i (.call (.addBlock b)) =>
      decidable_of_iff (¬ (nodes i).node.chain.Unwinds b ∧
          ((nodes i).node.chain.PassesChecks b → (nodes i).stream = none)) <| by
        simp [Happening.Orderly, Event.Returns, Call.Returns]
  | .event _ .restart => isFalse fun h => h.1 rfl
  | .event _ (.call (.addToMempool ..)) | .event _ (.call (.cleanupMempool _))
  | .event _ .saveToFile | .event _ .rebuildUtxoSet | .event _ .tryAdjustTarget =>
      isTrue ⟨nofun, trivial, nofun⟩
  | .request .. => isTrue trivial
  | .receive i => inferInstanceAs
      (Decidable (∀ b ∈ (nodes i).stream.bind List.head?, ¬ (nodes i).node.chain.Unwinds b))

omit [DecidableEq ι] in
theorem Happening.orderly_request {nodes : ι → Downloader} {i : ι} {asked : Asked ι} :
    (Happening.request i asked).Orderly nodes :=
  trivial

/-- The states that orderly happenings lead to. -/
abbrev OrderlyRun : (ι → Downloader) → (ι → Downloader) → Prop :=
  Machine.Reach Happening.step fun nodes h => h.Orderly nodes

/-- The path along which each node asks the one before, which has so many blocks then,
and goes on when its download is over. -/
inductive Relays (height : Nat) :
    (ι → Downloader) → ι → List (ι × Asked ι) → (ι → Downloader) → ι → Prop
  | wait {nodes nodes' : ι → Downloader} (i : ι) (run : OrderlyRun nodes nodes') :
      Relays height nodes i [] nodes' i
  | ask {nodes before requested ended nodes' : ι → Downloader} {i j next : ι} {asked : Asked ι}
      {path : List (ι × Asked ι)} {answered : Nat} (run : OrderlyRun nodes before)
      (answers : asked.Answers i answered) (high : height ≤ answered)
      (request : Happening.step before (.request next asked) = some requested)
      (download : OrderlyRun requested ended) (done : (ended next).stream = none)
      (rest : Relays height ended next path nodes' j) :
      Relays height nodes i ((next, asked) :: path) nodes' j

variable {nodes nodes' : ι → Downloader}

/-- An orderly event or block leads the node on by calls that return. -/
theorem Happening.step_node {h : Happening ι} (orderly : h.Orderly nodes)
    (next : h.step nodes = some nodes') (j : ι) :
    (nodes' j).node = (nodes j).node ∨
      ∃ e : Event, e ≠ .restart ∧ e.Returns (nodes j).node ∧
        (nodes j).node.step e = some (nodes' j).node := by
  cases h with
  | event i e =>
      obtain ⟨d, hd, rfl⟩ := Option.map_eq_some_iff.mp next
      obtain ⟨node, hnode, rfl⟩ := Option.map_eq_some_iff.mp hd
      by_cases hj : j = i
      · subst hj
        rw [Function.update_self]
        exact Or.inr ⟨e, orderly.1, orderly.2.1, hnode⟩
      · exact Or.inl (by rw [Function.update_of_ne hj])
  | request i asked =>
      rw [Happening.step] at next
      split at next
      · cases next
      · cases next
        by_cases hj : j = i
        · subst hj
          exact Or.inl (by rw [Function.update_self])
        · exact Or.inl (by rw [Function.update_of_ne hj])
  | receive i =>
      obtain ⟨d, hd, rfl⟩ := Option.map_eq_some_iff.mp next
      by_cases hj : j = i
      · subst hj
        rw [Function.update_self]
        rcases Downloader.receive_cases hd with ⟨-, rfl⟩ | ⟨b, rest, stream, hstream, rfl, -⟩
        · exact Or.inl rfl
        · exact Or.inr ⟨.call (.addBlock b), by simp, orderly b (by simp [hstream]), rfl⟩
      · exact Or.inl (by rw [Function.update_of_ne hj])

/-- The nodes have been reached by calls that return. -/
abbrev Settled (nodes : ι → Downloader) : Prop :=
  ∀ j, (nodes j).node.ReachedBy Event.Returns

theorem Settled.step {h : Happening ι} (settled : Settled nodes) (orderly : h.Orderly nodes)
    (next : h.step nodes = some nodes') : Settled nodes' := by
  intro j
  rcases h.step_node orderly next j with hsame | ⟨e, -, returns, hstep⟩
  · exact hsame ▸ settled j
  · exact (settled j).tail returns hstep

theorem Happening.step_grows {h : Happening ι} (orderly : h.Orderly nodes)
    (next : h.step nodes = some nodes') (j : ι) :
    (nodes j).node.chain.blocks <+: (nodes' j).node.chain.blocks := by
  rcases h.step_node orderly next j with hsame | ⟨e, hrestart, -, hstep⟩
  · exact hsame ▸ List.prefix_refl _
  · exact Node.step_blocks_isPrefix hrestart hstep

theorem OrderlyRun.settled (run : OrderlyRun nodes nodes') (settled : Settled nodes) : Settled nodes' :=
  run.invariant Settled settled fun _ _ _ hs orderly next => hs.step orderly next

/-- In an orderly run the nodes keep their blocks. -/
theorem OrderlyRun.grows (run : OrderlyRun nodes nodes') (j : ι) :
    (nodes j).node.chain.blocks <+: (nodes' j).node.chain.blocks :=
  run.invariant (fun nodes' => (nodes j).node.chain.blocks <+: (nodes' j).node.chain.blocks)
    (List.prefix_refl _) fun _ _ _ hs orderly next => hs.trans (Happening.step_grows orderly next j)

/-- The stream carries the chain on to `bs`, or the chain holds `bs` already. -/
def Downloader.Leads (bs : List Block) (d : Downloader) : Prop :=
  (∃ rest, d.stream = some rest ∧ d.node.chain.blocks ++ rest = bs) ∨
    bs <+: d.node.chain.blocks

/-- An event without a block of its own leaves a download where it is. -/
theorem Downloader.Leads.of_event {bs : List Block} {d d' : Downloader} (leads : d.Leads bs)
    {e : Event} (hrestart : e ≠ .restart)
    (alone : ∀ b, e = .call (.addBlock b) → d.node.chain.PassesChecks b → d.stream = none)
    (next : d.step e = some d') : d'.Leads bs := by
  obtain ⟨node, hnode, rfl⟩ := Option.map_eq_some_iff.mp next
  rcases leads with ⟨rest, hstream, rfl⟩ | hholds
  · refine Or.inl ⟨rest, ?_, ?_⟩
    · rw [if_pos hrestart, hstream]
    · rcases Node.step_blocks hrestart hnode with ⟨-, hsame⟩ | ⟨b, rfl, hpasses, -⟩
      · rw [hsame]
      · rw [alone b rfl hpasses] at hstream
        cases hstream
  · exact Or.inr (hholds.trans (Node.step_blocks_isPrefix hrestart hnode))

/-- The next block of a stream that carries the chain on is accepted. -/
theorem Downloader.Leads.of_receive {bs : List Block} (valid : ValidChain bs) {d d' : Downloader}
    (leads : d.Leads bs) (sound : d.node.chain.Sound)
    (returns : ∀ b ∈ d.stream.bind List.head?, ¬ d.node.chain.Unwinds b)
    (next : d.receive = some d') : d'.Leads bs := by
  rcases leads with ⟨rest, hstream, rfl⟩ | hholds
  · rcases Downloader.receive_cases next with
      ⟨hend, rfl⟩ | ⟨b, rest', stream, hnext, rfl, haccepted⟩
    · obtain rfl : rest = [] := Option.some.inj (hstream.symm.trans hend)
      exact Or.inr (by simp)
    · obtain rfl : rest = b :: rest' := Option.some.inj (hstream.symm.trans hnext)
      have hpasses := sound.passesChecks valid.of_split
      have haccepts := Blockchain.accepts_iff_passesChecks.mpr
        ⟨hpasses, returns b (by simp [hstream])⟩
      refine Or.inl ⟨rest', haccepted haccepts, ?_⟩
      dsimp only
      rw [Blockchain.blocks_addAndRebuild, Blockchain.appends_iff.mpr hpasses]
      simp
  · rcases Downloader.receive_cases next with ⟨-, rfl⟩ | ⟨b, rest', stream, -, rfl, -⟩
    · exact Or.inr hholds
    · exact Or.inr (hholds.trans (Blockchain.blocks_isPrefix_step (c := .addBlock b) rfl))

/-- A download that carries the chain on goes on to the end. -/
theorem Downloader.Leads.step {bs : List Block} (valid : ValidChain bs) {j : ι}
    (leads : (nodes j).Leads bs) (settled : Settled nodes) {h : Happening ι}
    (orderly : h.Orderly nodes) (next : h.step nodes = some nodes') : (nodes' j).Leads bs := by
  cases h with
  | event i e =>
      obtain ⟨d, hd, rfl⟩ := Option.map_eq_some_iff.mp next
      by_cases hj : j = i
      · subst hj
        rw [Function.update_self]
        exact leads.of_event orderly.1 orderly.2.2 hd
      · rwa [Function.update_of_ne hj]
  | request i asked =>
      rw [Happening.step] at next
      split at next
      · cases next
      · next hnone =>
          cases next
          by_cases hj : j = i
          · subst hj
            rcases leads with ⟨rest, hstream, -⟩ | hholds
            · rw [hnone] at hstream
              cases hstream
            · rw [Function.update_self]
              exact Or.inr hholds
          · rwa [Function.update_of_ne hj]
  | receive i =>
      obtain ⟨d, hd, rfl⟩ := Option.map_eq_some_iff.mp next
      by_cases hj : j = i
      · subst hj
        rw [Function.update_self]
        exact leads.of_receive valid (Node.ReachedBy.sound (settled j)).1 orderly hd
      · rwa [Function.update_of_ne hj]

theorem Relays.orderly {height : Nat} {path : List (ι × Asked ι)} {i j : ι}
    (relays : Relays height nodes i path nodes' j) : OrderlyRun nodes nodes' := by
  induction relays with
  | wait i run => exact run
  | ask run _ _ request download _ _ ih =>
      exact ((run.tail Happening.orderly_request request).trans download).trans ih

end Step

end ToyBtc
