import ToyBtc.Relay
import ToyBtc.Network
import ToyBtc.Validation
import ToyBtc.FrontEnds
import ToyBtc.Wallet
import ToyBtc.Sync

/-!
# The messages of a connection

A node reads the messages of a connection one by one and answers, passes on or
closes. Seventeen kinds of messages come down to four calls on the chain, two
on the connected peers, and questions that change nothing.

## Implementation notes

What a handler reads besides the chain is an argument: the clock, a fresh
identifier, the orders in which two maps are traversed, and whether the node
that subscribes can be connected to. A reply that cannot be written is lost,
and the loop goes on.
-/

namespace ToyBtc

variable [Crates]

/-- What a handler reads besides the chain. -/
structure Ambient where
  now : DateTime
  uniqueId : Uuid
  utxos : AList fun _ : Hash => Bool × TxOutput
  addresses : List String
  connects : Bool

/-- The calls on the connected peers besides broadcasts. -/
inductive PeerCall
  | add (listenerAddr : String)
  | updateSkipAddr (peerAddr : String)
  deriving DecidableEq

/-- What a handler does with one message. -/
structure Turn where
  chain : Blockchain
  peers : Option PeerCall
  reply : Option Message
  broadcast : Option Broadcast
  ending : Ending

omit [Crates] in
/-- How many blocks the node is ahead, over TCP. -/
def Handler.askDifference (s : Blockchain) (height : UInt64) : Int64 :=
  NodeSvc.askDifference s height

namespace Turn

/-- Nothing but the way the connection is left. -/
def ends (s : Blockchain) (ending : Ending) : Turn := ⟨s, none, none, none, ending⟩

def answers (s : Blockchain) (reply : Message) : Turn := ⟨s, none, some reply, none, .continues⟩

def calls (s : Blockchain) (call : PeerCall) : Turn := ⟨s, some call, none, none, .continues⟩

def relays (h : Handled) : Turn := ⟨h.chain, none, none, h.broadcast, h.ending⟩

end Turn

/-- One round of `process_connection`. -/
def Handler.processMessage (s : Blockchain) (env : Ambient) (sourceAddr : String) :
    Message → Turn
  | .utxos _ | .template _ | .difference _ | .templateValidity _ | .nodeList _ =>
      .ends s .closes
  | .subscribe listenerAddr =>
      if env.connects then .calls s (.add listenerAddr) else .ends s .closes
  | .subscribeAck remoteNodeListenerAddr => .calls s (.updateSkipAddr remoteNodeListenerAddr)
  | .fetchBlock height =>
      match s.blocks[height.toNat]? with
      | none => .ends s .closes
      | some block => .answers s (.newBlock block)
  | .discoverNodes => .answers s (.nodeList env.addresses)
  | .askDifference height => .answers s (.difference (Handler.askDifference s height))
  | .fetchUTXOs pubkey => .answers s (.utxos (Handler.fetchUtxos env.utxos pubkey))
  | .newBlock block => .relays (Handler.newBlock s sourceAddr block)
  | .newTransaction tx => .relays (Handler.newTransaction s env.now sourceAddr tx)
  | .validateTemplate blockTemplate =>
      .answers s (.templateValidity (Handler.validateTemplate s blockTemplate))
  | .submitTemplate block => .relays (Handler.submitTemplate s sourceAddr block)
  | .submitTransaction tx => .relays (Handler.submitTransaction s env.now sourceAddr tx)
  | .fetchTemplate pubkey =>
      match Handler.fetchTemplate s pubkey env.uniqueId env.now with
      | .ok template => .answers s (.template template)
      | .error (.error _) => .ends s .closes
      | .error .panic => .ends s .unwinds

namespace Message

omit [Crates] in
/-- The message as an item that comes in. -/
def incoming (sourceAddr : String) : Message → Option Incoming
  | newBlock block => some (.newBlock sourceAddr block)
  | newTransaction tx => some (.newTransaction sourceAddr tx)
  | submitTemplate block => some (.submitTemplate sourceAddr block)
  | submitTransaction tx => some (.submitTransaction sourceAddr tx)
  | _ => none

omit [Crates] in
/-- The message asks for an answer. -/
def Asks : Message → Prop
  | fetchBlock _ | discoverNodes | askDifference _ | fetchUTXOs _ | validateTemplate _
  | fetchTemplate _ => True
  | _ => False

omit [Crates] in
/-- The answer is of the kind that was asked for. -/
def Answers (reply : Message) : Message → Prop
  | fetchBlock _ => ∃ block, reply = newBlock block
  | discoverNodes => ∃ nodes, reply = nodeList nodes
  | askDifference _ => ∃ count, reply = difference count
  | fetchUTXOs _ => ∃ entries, reply = .utxos entries
  | validateTemplate _ => ∃ valid, reply = templateValidity valid
  | fetchTemplate _ => ∃ block, reply = template block
  | _ => False

end Message

theorem relayBlock_skipAddr {onError : BtcError → Ending} {skipAddr : Option String}
    {s : Blockchain} {b : Block} {x : Broadcast}
    (h : (relayBlock onError skipAddr s b).broadcast = some x) : x.skipAddr = skipAddr := by
  unfold relayBlock at h
  split at h <;> cases h
  rfl

theorem relayTransaction_skipAddr {onError : BtcError → Ending} {skipAddr : Option String}
    {s : Blockchain} {now : DateTime} {tx : Tx} {x : Broadcast}
    (h : (relayTransaction onError skipAddr s now tx).broadcast = some x) :
    x.skipAddr = skipAddr := by
  unfold relayTransaction at h
  split at h <;> cases h
  rfl

namespace Handler

variable {s : Blockchain} {env : Ambient} {sourceAddr : String} {m : Message}

theorem processMessage_of_incoming {x : Incoming} (h : m.incoming sourceAddr = some x) :
    processMessage s env sourceAddr m = .relays (x.handle s env.now) := by
  cases m <;> cases h <;> rfl

/-- A message that brings no item leaves the chain as it is and is not passed on. -/
theorem processMessage_of_not_incoming (h : m.incoming sourceAddr = none) :
    (processMessage s env sourceAddr m).chain = s ∧
      (processMessage s env sourceAddr m).broadcast = none := by
  cases m with
  | subscribe listenerAddr =>
      rw [processMessage]
      cases env.connects <;> exact ⟨rfl, rfl⟩
  | fetchBlock height =>
      rw [processMessage]
      cases s.blocks[height.toNat]? <;> exact ⟨rfl, rfl⟩
  | fetchTemplate pubkey =>
      rw [processMessage]
      rcases fetchTemplate s pubkey env.uniqueId env.now with (e | _) | template <;>
        exact ⟨rfl, rfl⟩
  | newBlock | newTransaction | submitTemplate | submitTransaction => cases h
  | _ => exact ⟨rfl, rfl⟩

/-- What is passed on skips the address that it came from. -/
theorem processMessage_skipAddr {x : Broadcast}
    (h : (processMessage s env sourceAddr m).broadcast = some x) :
    x.skipAddr = some sourceAddr := by
  cases hin : m.incoming sourceAddr with
  | none =>
      rw [(processMessage_of_not_incoming hin).2] at h
      cases h
  | some y =>
      rw [processMessage_of_incoming hin] at h
      cases m with
      | newBlock block =>
          cases hin
          exact relayBlock_skipAddr h
      | submitTemplate block =>
          cases hin
          exact relayBlock_skipAddr h
      | newTransaction tx =>
          cases hin
          exact relayTransaction_skipAddr h
      | submitTransaction tx =>
          cases hin
          cases h
          rfl
      | _ => cases hin

/-- The connected peers are called for a subscription and for its acknowledgement. -/
theorem processMessage_peers {call : PeerCall}
    (h : (processMessage s env sourceAddr m).peers = some call) :
    (∃ listenerAddr, m = .subscribe listenerAddr ∧ call = .add listenerAddr) ∨
      ∃ peerAddr, m = .subscribeAck peerAddr ∧ call = .updateSkipAddr peerAddr := by
  cases m with
  | subscribe listenerAddr =>
      rw [processMessage] at h
      split at h
      · exact Or.inl ⟨listenerAddr, rfl, (Option.some.inj h).symm⟩
      · cases h
  | subscribeAck peerAddr => exact Or.inr ⟨peerAddr, rfl, (Option.some.inj h).symm⟩
  | fetchBlock height =>
      rw [processMessage] at h
      split at h <;> cases h
  | fetchTemplate pubkey =>
      rw [processMessage] at h
      split at h <;> cases h
  | _ => cases h

/-- A round makes at most one call on the chain. -/
theorem processMessage_step (s : Blockchain) (env : Ambient) (sourceAddr : String) (m : Message) :
    (processMessage s env sourceAddr m).chain = s ∨
      ∃ c, s.step c = some (processMessage s env sourceAddr m).chain := by
  cases hin : m.incoming sourceAddr with
  | none => exact Or.inl (processMessage_of_not_incoming hin).1
  | some x =>
      rw [processMessage_of_incoming hin]
      exact Or.inr ⟨_, x.handle_step s env.now⟩

/-- No round takes a block away. -/
theorem blocks_isPrefix_processMessage (s : Blockchain) (env : Ambient) (sourceAddr : String)
    (m : Message) : s.blocks <+: (processMessage s env sourceAddr m).chain.blocks := by
  rcases processMessage_step s env sourceAddr m with hsame | ⟨c, hstep⟩
  · rw [hsame]
  · exact Blockchain.blocks_isPrefix_step hstep

/-- A block that is passed on has been stored. -/
theorem mem_of_processMessage_broadcast {x : Broadcast} {b : Block}
    (h : (processMessage s env sourceAddr m).broadcast = some x) (hx : x.item = .block b) :
    b ∈ (processMessage s env sourceAddr m).chain.blocks := by
  cases hin : m.incoming sourceAddr with
  | none =>
      rw [(processMessage_of_not_incoming hin).2] at h
      cases h
  | some y =>
      rw [processMessage_of_incoming hin] at h ⊢
      change (y.handle s env.now).broadcast = some x at h
      change b ∈ (y.handle s env.now).chain.blocks
      rcases y.handle_block_cases s env.now with ⟨b', _, -, -, -, hblocks, hbroadcast⟩ |
        ⟨_, -, -, -, hbroadcast⟩ | ⟨-, -, hbroadcast⟩
      · rw [hbroadcast] at h
        cases h
        cases hx
        rw [hblocks]
        simp
      · rw [hbroadcast] at h
        cases h
      · obtain ⟨tx, htx⟩ := hbroadcast x h
        rw [htx] at hx
        cases hx

/-- A round that goes on has answered a question in kind, and nothing else. -/
theorem processMessage_reply (h : (processMessage s env sourceAddr m).ending = .continues) :
    (m.Asks → ∃ reply, (processMessage s env sourceAddr m).reply = some reply ∧
      reply.Answers m) ∧
    (¬ m.Asks → (processMessage s env sourceAddr m).reply = none) := by
  cases m with
  | subscribe listenerAddr =>
      rw [processMessage]
      refine ⟨False.elim, fun _ => ?_⟩
      cases env.connects <;> rfl
  | fetchBlock height =>
      rw [processMessage] at h ⊢
      cases hblock : s.blocks[height.toNat]? with
      | none => rw [hblock] at h; cases h
      | some block => exact ⟨fun _ => ⟨_, rfl, block, rfl⟩, fun hnot => absurd trivial hnot⟩
  | fetchTemplate pubkey =>
      rw [processMessage] at h ⊢
      rcases htemplate : fetchTemplate s pubkey env.uniqueId env.now with (e | _) | template
      · rw [htemplate] at h; cases h
      · rw [htemplate] at h; cases h
      · exact ⟨fun _ => ⟨_, rfl, template, rfl⟩, fun hnot => absurd trivial hnot⟩
  | discoverNodes => exact ⟨fun _ => ⟨_, rfl, _, rfl⟩, fun hnot => absurd trivial hnot⟩
  | askDifference height => exact ⟨fun _ => ⟨_, rfl, _, rfl⟩, fun hnot => absurd trivial hnot⟩
  | fetchUTXOs pubkey => exact ⟨fun _ => ⟨_, rfl, _, rfl⟩, fun hnot => absurd trivial hnot⟩
  | validateTemplate block => exact ⟨fun _ => ⟨_, rfl, _, rfl⟩, fun hnot => absurd trivial hnot⟩
  | _ => exact ⟨False.elim, fun _ => rfl⟩

end Handler

end ToyBtc
