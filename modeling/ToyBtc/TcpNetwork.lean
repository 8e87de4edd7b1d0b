import ToyBtc.MessageLoop
import ToyBtc.Retarget
import ToyBtc.Subscriptions
import ToyBtc.StandIn

/-!
# Nodes connected over TCP

A node writes to its peers on connections that it has opened itself. To be
written to, it subscribes: the peer opens a connection of its own, and tells on
it how it is called. Each of the two then knows from which address the other
writes, and leaves that peer out when it passes on what came from there.

## Implementation notes

Connections are listed in the order in which they were opened, and what is
under way on one is what has been written and not been read. A connection may
come from any source address, also from one that others come from or have come
from. A round of the message loop is one step, and so is the opening of a
connection together with its entry under the address; what is exchanged on a
connection before it is entered is left out. Which writes of a broadcast fail
is an argument. A round that unwinds ends its connection, and the node goes on
with the chain that it leaves behind.
-/

namespace ToyBtc

/-- The message in which an item is passed on. -/
def Item.message : Item → Message
  | .block b => .newBlock b
  | .transaction tx => .newTransaction tx

namespace Tcp

/-- Who is reached under which address. -/
structure Directory (ι : Type*) where
  subscriptionAddr : ι → String
  listener : String → Option ι
  peerAddr : String → String
  listener_subscriptionAddr : ∀ i, listener (subscriptionAddr i) = some i
  listener_peerAddr : ∀ addr, listener (peerAddr addr) = listener addr

/-- The address under which a node that has subscribed is kept. -/
def Directory.remoteAddr {ι : Type*} (d : Directory ι) (listenerAddr : String) : String :=
  if (d.peerAddr listenerAddr).startsWith "localhost" then d.peerAddr listenerAddr
  else listenerAddr

theorem Directory.listener_remoteAddr {ι : Type*} (d : Directory ι) (listenerAddr : String) :
    d.listener (d.remoteAddr listenerAddr) = d.listener listenerAddr := by
  unfold remoteAddr
  split
  · exact d.listener_peerAddr listenerAddr
  · rfl

/-- Who has opened a connection, to which address, who has accepted it, and from which
address it seems to come. -/
structure Ends (ι : Type*) where
  opener : ι
  addr : String
  acceptor : ι
  sourceAddr : String
  deriving DecidableEq

/-- A connection with the messages that its opener has written and its acceptor has
not read yet. -/
structure Connection (ι : Type*) extends Ends ι where
  inbox : List Message
  isOpen : Bool
  deriving DecidableEq

/-- The chains of the nodes, their connected peers with the address to skip, and all
connections. -/
structure Net (ι : Type*) where
  chains : ι → Blockchain
  nodes : ι → String → Option (Nat × Option String)
  connections : List (Connection ι)

/-- The broadcast is sent to a peer with this address to skip. -/
def GoesTo (x : Broadcast) (skipAddr : Option String) : Prop :=
  x.skipAddr = none ∨ skipAddr ≠ x.skipAddr

instance (x : Broadcast) (skipAddr : Option String) : Decidable (GoesTo x skipAddr) :=
  inferInstanceAs (Decidable (_ ∨ _))

/-- What happens among the nodes. A program that is not a node can send anything but
subscriptions. -/
inductive NetEvent (ι : Type*)
  | connect (i : ι) (addr sourceAddr : String)
  | subscribe (i : ι) (addr : String)
  | read (c : Nat) (env : Ambient) (fails : String → Bool) (sourceAddr : String)
  | client (i : ι) (sourceAddr : String) (m : Message) (env : Ambient) (fails : String → Bool)
  | download (i : ι) (b : Block)
  | rebuildUtxoSet (i : ι)
  | tryAdjustTarget (i : ι)
  | cleanupMempool (i : ι) (now : DateTime)
  | cut (c : Nat)

namespace Net

variable {ι : Type*} [DecidableEq ι]

def setChain (net : Net ι) (i : ι) (s : Blockchain) : Net ι :=
  { net with chains := Function.update net.chains i s }

def modify (net : Net ι) (c : Nat) (f : Connection ι → Connection ι) : Net ι :=
  { net with connections := net.connections.modify c f }

/-- Open a connection and keep it under its address, in place of an earlier one. -/
def add (net : Net ι) (i : ι) (addr : String) (j : ι) (sourceAddr : String)
    (skipAddr : Option String) (sent : List Message) : Net ι :=
  { net with
    nodes := Function.update net.nodes i
      (Function.update (net.nodes i) addr (some (net.connections.length, skipAddr)))
    connections := net.connections ++ [⟨⟨i, addr, j, sourceAddr⟩, sent, true⟩] }

def updateSkipAddr (net : Net ι) (i : ι) (peerAddr skipSourceAddr : String) : Net ι :=
  { net with
    nodes := Function.update net.nodes i (Function.update (net.nodes i) peerAddr
      ((net.nodes i peerAddr).map fun e => (e.1, some skipSourceAddr))) }

/-- The connection is the one to a peer that the broadcast reaches. -/
def reaches (net : Net ι) (i : ι) (x : Broadcast) (fails : String → Bool) (c : Nat)
    (k : Connection ι) : Bool :=
  match net.nodes i k.addr with
  | some (c', skipAddr) =>
      decide (k.opener = i ∧ c' = c ∧ GoesTo x skipAddr ∧ fails k.addr = false)
  | none => false

/-- Write to all connected peers but those to skip, and remove those for which it fails. -/
def broadcast (net : Net ι) (i : ι) (x : Broadcast) (fails : String → Bool) : Net ι :=
  { net with
    nodes := Function.update net.nodes i fun addr =>
      (net.nodes i addr).filter fun e => !decide (GoesTo x e.2 ∧ fails addr = true)
    connections := net.connections.mapIdx fun c k =>
      if net.reaches i x fails c k then { k with inbox := k.inbox ++ [x.item.message] } else k }

/-- The message has been read, and the connection is left or not. -/
def finish (net : Net ι) (c : Nat) (ending : Ending) : Net ι :=
  net.modify c fun k =>
    { k with inbox := k.inbox.tail, isOpen := k.isOpen && decide (ending = .continues) }

/-- The chain after a round, and what it has passed on. -/
def pass (net : Net ι) (i : ι) (turn : Turn) (fails : String → Bool) : Net ι :=
  match turn.broadcast with
  | some x => (net.setChain i turn.chain).broadcast i x fails
  | none => net.setChain i turn.chain

/-- The call of a round on the connected peers. -/
def callPeers (d : Directory ι) (net : Net ι) (i : ι) (skipSourceAddr sourceAddr : String) :
    Option PeerCall → Option (Net ι)
  | none => some net
  | some (.updateSkipAddr peerAddr) => some (net.updateSkipAddr i peerAddr skipSourceAddr)
  | some (.add listenerAddr) =>
      (d.listener listenerAddr).map fun j =>
        net.add i (d.remoteAddr listenerAddr) j sourceAddr (some skipSourceAddr)
          [.subscribeAck (d.subscriptionAddr i)]

variable [Crates]

def step (d : Directory ι) (net : Net ι) : NetEvent ι → Option (Net ι)
  | .connect i addr sourceAddr =>
      match d.listener addr with
      | some j =>
          if net.nodes i addr = none then some (net.add i addr j sourceAddr none []) else none
      | none => none
  | .subscribe i addr =>
      (net.nodes i addr).map fun e => net.modify e.1 fun k =>
        { k with inbox := k.inbox ++ [.subscribe (d.subscriptionAddr i)] }
  | .read c env fails sourceAddr =>
      match net.connections[c]? with
      | some ⟨⟨_, _, acceptor, skipSourceAddr⟩, m :: _, true⟩ =>
          let turn := Handler.processMessage (net.chains acceptor) env skipSourceAddr m
          ((net.pass acceptor turn fails).callPeers d acceptor skipSourceAddr sourceAddr
            turn.peers).map fun called => called.finish c turn.ending
      | _ => none
  | .client i sourceAddr m env fails =>
      let turn := Handler.processMessage (net.chains i) env sourceAddr m
      if turn.peers = none then some (net.pass i turn fails) else none
  | .download i b => ((net.chains i).step (.addBlock b)).map (net.setChain i)
  | .rebuildUtxoSet i => some (net.setChain i (net.chains i).rebuildUtxoSet)
  | .tryAdjustTarget i =>
      match (net.chains i).tryAdjustTarget with
      | .ok s => some (net.setChain i s)
      | .error _ => some net
  | .cleanupMempool i now => some (net.setChain i ((net.chains i).cleanupMempool now))
  | .cut c => some (net.modify c fun k => { k with isOpen := false })

end Net

/-- What a node writes to its peers. It names itself by the address it subscribes with. -/
def Names (addr : String) : Message → Prop
  | .subscribe listenerAddr => listenerAddr = addr
  | .subscribeAck remoteNodeListenerAddr => remoteNodeListenerAddr = addr
  | .newBlock _ | .newTransaction _ => True
  | _ => False

theorem names_item (addr : String) (x : Item) : Names addr x.message := by
  cases x <;> trivial

namespace Net

variable {ι : Type*}

def ends (net : Net ι) : List (Ends ι) := net.connections.map Connection.toEnds

/-- Every entry is the connection that was opened for it, names are true, and an address
to skip is one from which the peer itself writes, or has written. -/
structure Coherent (d : Directory ι) (net : Net ι) : Prop where
  leads : ∀ e ∈ net.ends, d.listener e.addr = some e.acceptor
  named : ∀ k ∈ net.connections, ∀ m ∈ k.inbox, Names (d.subscriptionAddr k.opener) m
  listed : ∀ i addr c skipAddr, net.nodes i addr = some (c, skipAddr) →
    ∃ e, net.ends[c]? = some e ∧ e.opener = i ∧ e.addr = addr
  skips : ∀ i addr c a, net.nodes i addr = some (c, some a) →
    ∃ e ∈ net.ends, e.sourceAddr = a ∧ e.acceptor = i ∧ d.listener addr = some e.opener

theorem ends_modify (net : Net ι) (c : Nat) {f : Connection ι → Connection ι}
    (hf : ∀ k, (f k).toEnds = k.toEnds) : (net.modify c f).ends = net.ends := by
  refine List.ext_getElem? fun n => ?_
  simp only [ends, modify, List.getElem?_map, List.getElem?_modify]
  cases net.connections[n]? with
  | none => rfl
  | some k => by_cases h : c = n <;> simp [h, hf]

theorem mem_modify {net : Net ι} {c : Nat} {f : Connection ι → Connection ι} {k' : Connection ι}
    (h : k' ∈ (net.modify c f).connections) :
    ∃ k ∈ net.connections, k' = k ∨ k' = f k ∧ net.connections[c]? = some k := by
  obtain ⟨n, hn⟩ := List.mem_iff_getElem?.mp h
  obtain ⟨k, hk, ⟨rfl, rfl⟩ | ⟨-, rfl⟩⟩ := getElem?_modify_eq_some_iff.mp hn
  · exact ⟨k, List.mem_of_getElem? hk, Or.inr ⟨rfl, hk⟩⟩
  · exact ⟨k, List.mem_of_getElem? hk, Or.inl rfl⟩

section Broadcast

variable [DecidableEq ι] {net : Net ι}

theorem ends_broadcast (net : Net ι) (i : ι) (x : Broadcast) (fails : String → Bool) :
    (net.broadcast i x fails).ends = net.ends := by
  refine List.ext_getElem? fun n => ?_
  simp only [Net.ends, Net.broadcast, List.getElem?_map, List.getElem?_mapIdx]
  cases net.connections[n]? with
  | none => rfl
  | some k =>
      dsimp only [Option.map_some]
      split <;> rfl

theorem nodes_broadcast {i j : ι} {x : Broadcast} {fails : String → Bool} {addr : String}
    {e : Nat × Option String} (h : (net.broadcast i x fails).nodes j addr = some e) :
    net.nodes j addr = some e ∧ (j = i → ¬ (GoesTo x e.2 ∧ fails addr = true)) := by
  by_cases hj : j = i
  · subst hj
    simp only [Net.broadcast, Function.update_self, Option.filter_eq_some_iff] at h
    refine ⟨h.1, fun _ hboth => ?_⟩
    simp [hboth] at h
  · simp only [Net.broadcast, Function.update_of_ne hj] at h
    exact ⟨h, fun heq => absurd heq hj⟩

/-- A connection after a broadcast: the message has been written to it, or not. -/
theorem connections_broadcast {i : ι} {x : Broadcast} {fails : String → Bool} {n : Nat}
    {k' : Connection ι} (h : (net.broadcast i x fails).connections[n]? = some k') :
    ∃ k, net.connections[n]? = some k ∧ k'.toEnds = k.toEnds ∧ k'.isOpen = k.isOpen ∧
      (net.reaches i x fails n k = true ∧ k'.inbox = k.inbox ++ [x.item.message] ∨
        net.reaches i x fails n k = false ∧ k'.inbox = k.inbox) := by
  rw [Net.broadcast, List.getElem?_mapIdx, Option.map_eq_some_iff] at h
  obtain ⟨k, hk, rfl⟩ := h
  refine ⟨k, hk, ?_⟩
  cases hreaches : net.reaches i x fails n k with
  | true => exact ⟨rfl, rfl, Or.inl ⟨rfl, rfl⟩⟩
  | false => exact ⟨rfl, rfl, Or.inr ⟨rfl, rfl⟩⟩

theorem ends_pass (net : Net ι) (i : ι) (turn : Turn) (fails : String → Bool) :
    (net.pass i turn fails).ends = net.ends := by
  unfold pass
  split
  · exact ends_broadcast _ i _ fails
  · rfl

theorem opener_of_reaches {i : ι} {x : Broadcast} {fails : String → Bool} {c : Nat}
    {k : Connection ι} (h : net.reaches i x fails c k = true) : k.opener = i := by
  rw [reaches] at h
  split at h
  · exact (of_decide_eq_true h).1
  · cases h

end Broadcast

namespace Coherent

variable {d : Directory ι} {net : Net ι}

/-- Messages may be read, and written where they are true. -/
theorem modify (h : net.Coherent d) {c : Nat} {f : Connection ι → Connection ι}
    (hf : ∀ k, (f k).toEnds = k.toEnds)
    (hinbox : ∀ k, net.connections[c]? = some k → ∀ m ∈ (f k).inbox,
      m ∈ k.inbox ∨ Names (d.subscriptionAddr k.opener) m) :
    (net.modify c f).Coherent d := by
  have hends := net.ends_modify c hf
  refine ⟨hends ▸ h.leads, fun k' hk' m hm => ?_, hends ▸ h.listed, hends ▸ h.skips⟩
  obtain ⟨k, hk, rfl | ⟨rfl, hc⟩⟩ := mem_modify hk'
  · exact h.named k' hk m hm
  · rw [hf k]
    rcases hinbox k hc m hm with hold | hnew
    · exact h.named k hk m hold
    · exact hnew

variable [DecidableEq ι]

theorem setChain (h : net.Coherent d) (i : ι) (s : Blockchain) : (net.setChain i s).Coherent d :=
  ⟨h.leads, h.named, h.listed, h.skips⟩

theorem broadcast (h : net.Coherent d) (i : ι) (x : Broadcast) (fails : String → Bool) :
    (net.broadcast i x fails).Coherent d := by
  have hends := ends_broadcast net i x fails
  refine ⟨hends ▸ h.leads, fun k' hk' m hm => ?_, fun j addr c skipAddr hj => ?_,
    fun j addr c a hj => ?_⟩
  · obtain ⟨n, hn⟩ := List.mem_iff_getElem?.mp hk'
    obtain ⟨k, hk, hsame, -, hinbox⟩ := connections_broadcast hn
    have hmem := List.mem_of_getElem? hk
    rw [hsame]
    rcases hinbox with ⟨-, hinbox⟩ | ⟨-, hinbox⟩
    · rw [hinbox] at hm
      rcases List.mem_append.mp hm with hold | hnew
      · exact h.named k hmem m hold
      · rw [List.mem_singleton.mp hnew]
        exact names_item _ _
    · exact h.named k hmem m (hinbox ▸ hm)
  · rw [hends]
    exact h.listed j addr c skipAddr (nodes_broadcast hj).1
  · rw [hends]
    exact h.skips j addr c a (nodes_broadcast hj).1

theorem pass (h : net.Coherent d) (i : ι) (turn : Turn) (fails : String → Bool) :
    (net.pass i turn fails).Coherent d := by
  unfold Net.pass
  split
  · exact (h.setChain i turn.chain).broadcast i _ fails
  · exact h.setChain i turn.chain

/-- The address to skip is learned from the peer. -/
theorem updateSkipAddr (h : net.Coherent d) {i : ι} {peerAddr a : String}
    (hsource : ∃ e ∈ net.ends, e.sourceAddr = a ∧ e.acceptor = i ∧
      d.listener peerAddr = some e.opener) :
    (net.updateSkipAddr i peerAddr a).Coherent d := by
  have hnodes : ∀ {j addr c skipAddr},
      (net.updateSkipAddr i peerAddr a).nodes j addr = some (c, skipAddr) →
      (∃ skipAddr', net.nodes j addr = some (c, skipAddr')) ∧
        (net.nodes j addr = some (c, skipAddr) ∨ j = i ∧ addr = peerAddr ∧ skipAddr = some a) := by
    intro j addr c skipAddr hj
    by_cases hi : j = i
    · subst hi
      by_cases haddr : addr = peerAddr
      · subst haddr
        simp only [Net.updateSkipAddr, Function.update_self, Option.map_eq_some_iff] at hj
        obtain ⟨e, he, heq⟩ := hj
        cases heq
        exact ⟨⟨e.2, he⟩, Or.inr ⟨rfl, rfl, rfl⟩⟩
      · simp only [Net.updateSkipAddr, Function.update_self, Function.update_of_ne haddr] at hj
        exact ⟨⟨_, hj⟩, Or.inl hj⟩
    · simp only [Net.updateSkipAddr, Function.update_of_ne hi] at hj
      exact ⟨⟨_, hj⟩, Or.inl hj⟩
  refine ⟨h.leads, h.named, fun j addr c skipAddr hj => ?_, fun j addr c b hj => ?_⟩
  · obtain ⟨⟨skipAddr', hold⟩, -⟩ := hnodes hj
    exact h.listed j addr c skipAddr' hold
  · rcases (hnodes hj).2 with hold | ⟨rfl, rfl, hb⟩
    · exact h.skips j addr c b hold
    · cases hb
      exact hsource

theorem add (h : net.Coherent d) {i j : ι} {addr sourceAddr : String} {skipAddr : Option String}
    {sent : List Message} (haddr : d.listener addr = some j)
    (hsent : ∀ m ∈ sent, Names (d.subscriptionAddr i) m)
    (hskip : ∀ a, skipAddr = some a → ∃ e ∈ net.ends, e.sourceAddr = a ∧ e.acceptor = i ∧
      e.opener = j) :
    (net.add i addr j sourceAddr skipAddr sent).Coherent d := by
  have hends : (net.add i addr j sourceAddr skipAddr sent).ends =
      net.ends ++ [⟨i, addr, j, sourceAddr⟩] := by
    simp [Net.ends, Net.add]
  have hlength : net.ends.length = net.connections.length := List.length_map _
  have hnodes : ∀ {j' addr' c skipAddr'},
      (net.add i addr j sourceAddr skipAddr sent).nodes j' addr' = some (c, skipAddr') →
      net.nodes j' addr' = some (c, skipAddr') ∨
        j' = i ∧ addr' = addr ∧ c = net.connections.length ∧ skipAddr' = skipAddr := by
    intro j' addr' c skipAddr' hj
    by_cases hi : j' = i
    · subst hi
      by_cases haddr : addr' = addr
      · subst haddr
        simp only [Net.add, Function.update_self, Option.some.injEq, Prod.mk.injEq] at hj
        exact Or.inr ⟨rfl, rfl, hj.1.symm, hj.2.symm⟩
      · simp only [Net.add, Function.update_self, Function.update_of_ne haddr] at hj
        exact Or.inl hj
    · simp only [Net.add, Function.update_of_ne hi] at hj
      exact Or.inl hj
  refine ⟨fun e he => ?_, fun k hk m hm => ?_, fun j' addr' c skipAddr' hj => ?_,
    fun j' addr' c a hj => ?_⟩
  · rw [hends] at he
    rcases List.mem_append.mp he with hold | hnew
    · exact h.leads e hold
    · rw [List.mem_singleton.mp hnew]
      exact haddr
  · rcases List.mem_append.mp hk with hold | hnew
    · exact h.named k hold m hm
    · rw [List.mem_singleton.mp hnew] at hm ⊢
      exact hsent m hm
  · rw [hends]
    rcases hnodes hj with hold | ⟨rfl, rfl, rfl, -⟩
    · obtain ⟨e, he, hopener⟩ := h.listed _ _ _ _ hold
      exact ⟨e, getElem?_concat_eq_some_iff.mpr (Or.inl he), hopener⟩
    · exact ⟨_, getElem?_concat_eq_some_iff.mpr (Or.inr ⟨hlength.symm, rfl⟩), rfl, rfl⟩
  · rw [hends]
    rcases hnodes hj with hold | ⟨rfl, rfl, -, hskipAddr⟩
    · obtain ⟨e, he, hsource⟩ := h.skips _ _ _ _ hold
      exact ⟨e, List.mem_append_left _ he, hsource⟩
    · obtain ⟨e, he, hsource, hacceptor, hopener⟩ := hskip a hskipAddr.symm
      exact ⟨e, List.mem_append_left _ he, hsource, hacceptor, by rw [haddr, hopener]⟩

theorem callPeers (h : net.Coherent d) {i : ι} {skipSourceAddr sourceAddr : String}
    {call : Option PeerCall} {net' : Net ι}
    (next : net.callPeers d i skipSourceAddr sourceAddr call = some net')
    (hsource : ∃ e ∈ net.ends, e.sourceAddr = skipSourceAddr ∧ e.acceptor = i ∧
      (∀ listenerAddr, call = some (.add listenerAddr) →
        listenerAddr = d.subscriptionAddr e.opener) ∧
      ∀ peerAddr, call = some (.updateSkipAddr peerAddr) →
        peerAddr = d.subscriptionAddr e.opener) :
    net'.Coherent d := by
  obtain ⟨e, he, hskip, hacceptor, hadd, hack⟩ := hsource
  cases call with
  | none =>
      obtain rfl := Option.some.inj next
      exact h
  | some call =>
      cases call with
      | updateSkipAddr peerAddr =>
          obtain rfl := Option.some.inj next
          refine h.updateSkipAddr ⟨e, he, hskip, hacceptor, ?_⟩
          rw [hack peerAddr rfl, d.listener_subscriptionAddr]
      | add listenerAddr =>
          have hlistener : d.listener listenerAddr = some e.opener := by
            rw [hadd listenerAddr rfl, d.listener_subscriptionAddr]
          rw [Net.callPeers, hlistener] at next
          cases next
          refine h.add ?_ ?_ ?_
          · rw [d.listener_remoteAddr, hlistener]
          · intro m hm
            rw [List.mem_singleton.mp hm]
            exact rfl
          · rintro a ⟨⟩
            exact ⟨e, he, hskip, hacceptor, rfl⟩

end Coherent

section Step

variable [DecidableEq ι] [Crates] {d : Directory ι} {net net' : Net ι}

theorem step_connect_iff {i : ι} {addr sourceAddr : String} :
    net.step d (.connect i addr sourceAddr) = some net' ↔
      ∃ j, d.listener addr = some j ∧ net.nodes i addr = none ∧
        net' = net.add i addr j sourceAddr none [] := by
  rw [step]
  cases d.listener addr with
  | none => simp
  | some j => simp [eq_comm]

theorem step_client_iff {i : ι} {sourceAddr : String} {m : Message} {env : Ambient}
    {fails : String → Bool} :
    net.step d (.client i sourceAddr m env fails) = some net' ↔
      (Handler.processMessage (net.chains i) env sourceAddr m).peers = none ∧
        net' = net.pass i (Handler.processMessage (net.chains i) env sourceAddr m) fails := by
  rw [step, Option.ite_none_right_eq_some, Option.some.injEq, eq_comm (a := net')]

/-- A round of the message loop takes the first message of an open connection. -/
theorem step_read_iff {c : Nat} {env : Ambient} {fails : String → Bool} {sourceAddr : String} :
    net.step d (.read c env fails sourceAddr) = some net' ↔
      ∃ e m rest called, net.connections[c]? = some ⟨e, m :: rest, true⟩ ∧
        (net.pass e.acceptor (Handler.processMessage (net.chains e.acceptor) env e.sourceAddr m)
          fails).callPeers d e.acceptor e.sourceAddr sourceAddr
            (Handler.processMessage (net.chains e.acceptor) env e.sourceAddr m).peers =
          some called ∧
        net' = called.finish c
          (Handler.processMessage (net.chains e.acceptor) env e.sourceAddr m).ending := by
  rw [step]
  rcases net.connections[c]? with _ | ⟨⟨opener, addr, acceptor, source⟩, _ | ⟨m, rest⟩, _ | _⟩
  · simp
  · simp
  · simp
  · simp
  · constructor
    · intro h
      obtain ⟨called, hcalled, rfl⟩ := Option.map_eq_some_iff.mp h
      exact ⟨_, m, rest, called, rfl, hcalled, rfl⟩
    · rintro ⟨e, m', rest', called, heq, hcalled, rfl⟩
      cases heq
      exact Option.map_eq_some_iff.mpr ⟨called, hcalled, rfl⟩

theorem step_download_iff {i : ι} {b : Block} :
    net.step d (.download i b) = some net' ↔
      ∃ s, (net.chains i).step (.addBlock b) = some s ∧ net' = net.setChain i s := by
  rw [step, Option.map_eq_some_iff]
  simp only [eq_comm]

theorem step_tryAdjustTarget_cases {i : ι} (next : net.step d (.tryAdjustTarget i) = some net') :
    (∃ s, (net.chains i).tryAdjustTarget = .ok s ∧ net' = net.setChain i s) ∨ net' = net := by
  rw [step] at next
  split at next
  · next s hs => exact Or.inl ⟨s, hs, (Option.some.inj next).symm⟩
  · exact Or.inr (Option.some.inj next).symm

/-- Names are true, so that a round calls the connected peers for the node that asked. -/
theorem Coherent.called (h : net.Coherent d) {c : Nat} {env : Ambient} {fails : String → Bool}
    {sourceAddr : String} {e : Ends ι} {m : Message} {rest : List Message} {called : Net ι}
    (hk : net.connections[c]? = some ⟨e, m :: rest, true⟩)
    (hcalled : (net.pass e.acceptor (Handler.processMessage (net.chains e.acceptor) env
      e.sourceAddr m) fails).callPeers d e.acceptor e.sourceAddr sourceAddr
        (Handler.processMessage (net.chains e.acceptor) env e.sourceAddr m).peers =
      some called) : called.Coherent d := by
  have hmem := List.mem_of_getElem? hk
  have hnamed := h.named _ hmem m List.mem_cons_self
  refine (h.pass e.acceptor _ fails).callPeers hcalled ⟨e, ?_, rfl, rfl,
    fun listenerAddr hcall => ?_, fun peerAddr hcall => ?_⟩
  · rw [ends_pass]
    exact List.mem_map_of_mem hmem
  · rcases Handler.processMessage_peers hcall with ⟨_, rfl, heq⟩ | ⟨_, rfl, heq⟩
    · cases heq
      exact hnamed
    · cases heq
  · rcases Handler.processMessage_peers hcall with ⟨_, rfl, heq⟩ | ⟨_, rfl, heq⟩
    · cases heq
    · cases heq
      exact hnamed

theorem Coherent.step (h : net.Coherent d) {e : NetEvent ι} (next : net.step d e = some net') :
    net'.Coherent d := by
  cases e with
  | connect i addr sourceAddr =>
      obtain ⟨j, hlistener, -, rfl⟩ := step_connect_iff.mp next
      exact h.add hlistener (by simp) (by simp)
  | subscribe i addr =>
      obtain ⟨⟨c, skipAddr⟩, he, rfl⟩ := Option.map_eq_some_iff.mp next
      refine h.modify (fun _ => rfl) fun k hk m hm => ?_
      rcases List.mem_append.mp hm with hold | hnew
      · exact Or.inl hold
      · -- the entry is a connection of the node itself
        obtain ⟨e, hends, rfl, -⟩ := h.listed _ _ _ _ he
        rw [ends, List.getElem?_map, hk] at hends
        cases hends
        rw [List.mem_singleton.mp hnew]
        exact Or.inr rfl
  | read c env fails sourceAddr =>
      obtain ⟨e, m, rest, called, hk, hcalled, rfl⟩ := step_read_iff.mp next
      refine (h.called hk hcalled).modify (fun _ => rfl) fun k _ m hm => ?_
      exact Or.inl (List.mem_of_mem_tail hm)
  | client i sourceAddr m env fails =>
      obtain ⟨-, rfl⟩ := step_client_iff.mp next
      exact h.pass i _ fails
  | download i b =>
      obtain ⟨s, -, rfl⟩ := step_download_iff.mp next
      exact h.setChain i s
  | rebuildUtxoSet i =>
      cases next
      exact h.setChain i _
  | tryAdjustTarget i =>
      rcases step_tryAdjustTarget_cases next with ⟨s, -, rfl⟩ | rfl
      · exact h.setChain i s
      · exact h
  | cleanupMempool i now =>
      cases next
      exact h.setChain i _
  | cut c =>
      cases next
      exact h.modify (fun _ => rfl) fun k _ m hm => Or.inl hm

/-- Nodes with chains of their own and no connections yet. -/
def start (chains : ι → Blockchain) : Net ι := ⟨chains, fun _ _ => none, []⟩

/-- The networks reached from the given chains by events that meet `C`. -/
abbrev ReachedBy (d : Directory ι) (C : Net ι → NetEvent ι → Prop) (chains : ι → Blockchain) :
    Net ι → Prop :=
  Machine.Reach (Net.step d) C (start chains)

theorem ReachedBy.coherent {C : Net ι → NetEvent ι → Prop} {chains : ι → Blockchain}
    (reached : ReachedBy d C chains net) : net.Coherent d :=
  reached.invariant (Coherent d) ⟨by simp [ends, start], by simp [start], by simp [start],
    by simp [start]⟩ fun _ _ _ h _ next => h.step next

omit [DecidableEq ι] [Crates] in
/-- A peer with an address to skip has connected to the node from there. -/
theorem Coherent.exists_connected (h : net.Coherent d) {i : ι} {addr a : String} {c : Nat}
    {e : Ends ι} (hentry : net.nodes i addr = some (c, some a)) (he : net.ends[c]? = some e) :
    ∃ e' ∈ net.ends, e'.acceptor = i ∧ e'.sourceAddr = a ∧ e'.opener = e.acceptor := by
  obtain ⟨entry, hentry', -, haddr⟩ := h.listed _ _ _ _ hentry
  obtain rfl : entry = e := Option.some.inj (hentry'.symm.trans he)
  obtain ⟨e', he', hsource, hacceptor, hlistener⟩ := h.skips _ _ _ _ hentry
  have hleads := h.leads entry (List.mem_of_getElem? he)
  rw [haddr, hlistener] at hleads
  exact ⟨e', he', hacceptor, hsource, Option.some.inj hleads⟩

omit [Crates] in
theorem callPeers_none (i : ι) (skipSourceAddr sourceAddr : String) :
    net.callPeers d i skipSourceAddr sourceAddr none = some net := rfl

omit [Crates] in
theorem blocks_isPrefix_setChain {i : ι} {s : Blockchain}
    (hs : (net.chains i).blocks <+: s.blocks) (j : ι) :
    (net.chains j).blocks <+: ((net.setChain i s).chains j).blocks := by
  by_cases hj : j = i
  · subst hj
    simpa [setChain] using hs
  · simp [setChain, hj]

omit [Crates] in
theorem chains_pass (i : ι) (turn : Turn) (fails : String → Bool) :
    (net.pass i turn fails).chains = (net.setChain i turn.chain).chains := by
  unfold pass
  split <;> rfl

omit [Crates] in
theorem chains_callPeers {i : ι} {skipSourceAddr sourceAddr : String} {call : Option PeerCall}
    (h : net.callPeers d i skipSourceAddr sourceAddr call = some net') :
    net'.chains = net.chains := by
  unfold callPeers at h
  split at h
  · cases h
    rfl
  · cases h
    rfl
  · obtain ⟨j, -, rfl⟩ := Option.map_eq_some_iff.mp h
    rfl

omit [DecidableEq ι] [Crates] in
/-- The node of a network by itself, without a chain file. -/
def node (net : Net ι) (j : ι) : Node := ⟨net.chains j, none⟩

omit [DecidableEq ι] in
/-- The nodes stay as they are, or one of them has made a step of its own. -/
def Runs (net net' : Net ι) : Prop :=
  ∀ j, net'.chains j = net.chains j ∨
    ∃ e, e ≠ .restart ∧ (net.node j).step e = some (net'.node j)

omit [DecidableEq ι] in
theorem Runs.of_chains_eq {later : Net ι} (h : net.Runs net') (hchains : later.chains = net'.chains) :
    net.Runs later := by
  intro j
  have hnode : later.node j = net'.node j := by rw [node, hchains, node]
  rw [hchains, hnode]
  exact h j

omit [DecidableEq ι] in
theorem Runs.of_eq (hchains : net'.chains = net.chains) : net.Runs net' :=
  fun j => Or.inl (congrFun hchains j)

theorem Runs.setChain {i : ι} {s : Blockchain} {e : Event} (hrestart : e ≠ .restart)
    (hs : (net.node i).step e = some ⟨s, none⟩) : net.Runs (net.setChain i s) := by
  intro j
  by_cases hj : j = i
  · subst hj
    refine Or.inr ⟨e, hrestart, ?_⟩
    rw [hs]
    simp [node, Net.setChain]
  · left
    simp [Net.setChain, hj]

theorem Runs.call {i : ι} {s : Blockchain} {c : Call} (hs : (net.chains i).step c = some s) :
    net.Runs (net.setChain i s) :=
  .setChain (e := .call c) (by simp) (Node.step_call_iff.mpr ⟨s, hs, rfl⟩)

theorem Runs.pass (i : ι) (env : Ambient) (sourceAddr : String) (m : Message)
    (fails : String → Bool) :
    net.Runs (net.pass i (Handler.processMessage (net.chains i) env sourceAddr m) fails) := by
  have hchains := net.chains_pass i (Handler.processMessage (net.chains i) env sourceAddr m) fails
  rcases Handler.processMessage_step (net.chains i) env sourceAddr m with hsame | ⟨c, hstep⟩
  · refine Runs.of_eq (hchains.trans ?_)
    rw [hsame, Net.setChain, Function.update_eq_self]
  · exact (Runs.call hstep).of_chains_eq hchains

/-- In a network each node runs as a node by itself does. -/
theorem runs_of_step {e : NetEvent ι} (next : net.step d e = some net') : net.Runs net' := by
  cases e with
  | connect i addr sourceAddr =>
      obtain ⟨j, -, -, rfl⟩ := step_connect_iff.mp next
      exact .of_eq rfl
  | subscribe i addr =>
      obtain ⟨e, -, rfl⟩ := Option.map_eq_some_iff.mp next
      exact .of_eq rfl
  | read c env fails sourceAddr =>
      obtain ⟨e, m, rest, called, -, hcalled, rfl⟩ := step_read_iff.mp next
      have hchains := chains_callPeers hcalled
      exact (Runs.pass e.acceptor env e.sourceAddr m fails).of_chains_eq hchains
  | client i sourceAddr m env fails =>
      obtain ⟨-, rfl⟩ := step_client_iff.mp next
      exact .pass i env sourceAddr m fails
  | download i b =>
      obtain ⟨s, hs, rfl⟩ := step_download_iff.mp next
      exact .call hs
  | rebuildUtxoSet i =>
      cases next
      exact .setChain (e := .rebuildUtxoSet) (by simp) rfl
  | tryAdjustTarget i =>
      rcases step_tryAdjustTarget_cases next with ⟨s, hadjust, rfl⟩ | rfl
      · refine .setChain (e := .tryAdjustTarget) (by simp) ?_
        simp only [Node.step, node, hadjust]
      · exact .of_eq rfl
  | cleanupMempool i now =>
      cases next
      exact .call (c := .cleanupMempool now) rfl
  | cut c =>
      cases next
      exact .of_eq rfl

/-- No event takes a block away. -/
theorem blocks_isPrefix_step {e : NetEvent ι} (next : net.step d e = some net') (j : ι) :
    (net.chains j).blocks <+: (net'.chains j).blocks := by
  rcases runs_of_step next j with hsame | ⟨e', hrestart, hstep⟩
  · exact hsame ▸ List.prefix_refl _
  · exact Node.step_blocks_isPrefix hrestart hstep

end Step

end Net

end Tcp

namespace StandIn

open Tcp

/-- Four nodes, each under one name. -/
def directory : Directory (Fin 4) where
  subscriptionAddr i :=
    if i = 0 then "node-0:1" else if i = 1 then "node-1:1"
    else if i = 2 then "node-2:1" else "node-3:1"
  listener addr :=
    if addr = "node-0:1" then some 0
    else if addr = "node-1:1" then some 1
    else if addr = "node-2:1" then some 2
    else if addr = "node-3:1" then some 3
    else none
  peerAddr addr := addr
  listener_subscriptionAddr := by decide
  listener_peerAddr _ := rfl

/-- Nothing that a handler reads besides the chain matters below. -/
def ambient : Ambient := ⟨0, ⟨0⟩, ∅, [], true⟩

/-- The first node connects to the second and subscribes, the second connects back and
tells so, and to the third and the fourth. A miner hands the first one a block. -/
def subscribing : List (NetEvent (Fin 4)) :=
  [.connect 0 "node-1:1" "source-0", .subscribe 0 "node-1:1",
    .read 0 ambient (fun _ => false) "source-1", .read 1 ambient (fun _ => false) "",
    .connect 1 "node-2:1" "source-2", .connect 1 "node-3:1" "source-3",
    .client 0 "miner" (.submitTemplate genesis) ambient fun _ => false]

/-- The network after the listed events on fresh nodes, if none of them is refused. -/
def runNet (events : List (NetEvent (Fin 4))) : Option (Net (Fin 4)) :=
  letI := crates
  events.foldlM (Net.step directory) (Net.start fun _ => Node.new.chain)

theorem exists_runNet {events : List (NetEvent (Fin 4))} {P : Net (Fin 4) → Prop}
    [DecidablePred P] (h : (runNet events).any (fun net => decide (P net)) = true) :
    ∃ net, runNet events = some net ∧ P net :=
  exists_of_any h

theorem reachedBy_of_runNet {events : List (NetEvent (Fin 4))} {net : Net (Fin 4)}
    (h : runNet events = some net) {C : Net (Fin 4) → NetEvent (Fin 4) → Prop}
    (meets : letI := crates; Machine.StepsMeet (Net.step directory) C
      (Net.start fun _ => Node.new.chain) events) :
    letI := crates; Net.ReachedBy directory C (fun _ => Node.new.chain) net :=
  letI := crates
  Machine.reach_of_foldlM events meets h

end StandIn

end ToyBtc
