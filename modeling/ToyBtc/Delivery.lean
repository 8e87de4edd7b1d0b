import ToyBtc.Agreement

/-!
# How much is left to deliver

While no block comes in from outside and no connection is opened, nodes only pass
on what some of them have. A node passes a block on once, so what is under way
and what the nodes still lack bounds how many blocks are read before none is
under way.
-/

namespace ToyBtc

open Flooding

/-- The message hands a block over. -/
def Message.carriesBlock : Message → Bool
  | newBlock _ | submitTemplate _ => true
  | _ => false

namespace Tcp

namespace Net

variable {ι : Type*}

/-- The blocks of the nodes, and the blocks under way on the open connections. -/
def traffic (net : Net ι) : State ι Nat Block where
  log i := (net.chains i).blocks
  link c :=
    match net.connections[c]? with
    | some k => if k.isOpen then some ⟨k.opener, k.acceptor, blocksOf k.inbox⟩ else none
    | none => none

/-- The blocks under way, and those that will be when every node has passed on on all
connections what it lacks of the blocks that some node has. -/
def toDeliver [Fintype ι] (net : Net ι) : Nat :=
  net.traffic.potential (Finset.range net.connections.length)

/-- What is open was open before, with at most so many blocks less under way on it. -/
def Swells (n : Nat) (net net' : Net ι) : Prop :=
  ∀ (c : Nat) (k' : Connection ι), net'.connections[c]? = some k' → k'.isOpen = true →
    ∃ k, net.connections[c]? = some k ∧ k.isOpen = true ∧
      (blocksOf k'.inbox).length ≤ (blocksOf k.inbox).length + n

theorem underWay_traffic {net : Net ι} {c : Nat} {k : Connection ι}
    (hk : net.connections[c]? = some k) :
    net.traffic.underWay c = if k.isOpen then (blocksOf k.inbox).length else 0 := by
  cases hopen : k.isOpen <;> simp [State.underWay, traffic, hk, hopen]

section Bounds

variable {net net' : Net ι}

theorem Swells.underWay_le {n : Nat} (h : Swells n net net') (c : Nat) :
    net'.traffic.underWay c ≤ net.traffic.underWay c + n := by
  cases hk' : net'.connections[c]? with
  | none => simp [State.underWay, traffic, hk']
  | some k' =>
      rw [underWay_traffic hk']
      split
      · next hopen =>
          obtain ⟨k, hk, hopen', hle⟩ := h c k' hk' hopen
          rw [underWay_traffic hk, if_pos hopen']
          exact hle
      · exact Nat.zero_le _

theorem swells_finish (net : Net ι) (c : Nat) (ending : Ending) :
    Swells 0 net (net.finish c ending) := by
  intro n k' hk' hopen
  obtain ⟨k, hk, ⟨rfl, rfl⟩ | ⟨-, rfl⟩⟩ := getElem?_modify_eq_some_iff.mp hk'
  · refine ⟨k, hk, (Bool.and_eq_true_iff.mp hopen).1, ?_⟩
    rcases blocksOf_tail k.inbox with hsame | ⟨b, -, hblocks⟩
    · exact hsame ▸ Nat.le_refl _
    · rw [hblocks]
      exact Nat.le_succ _
  · exact ⟨k, hk, hopen, Nat.le_refl _⟩

theorem swells_broadcast [DecidableEq ι] (net : Net ι) (i : ι) (x : Broadcast)
    (fails : String → Bool) :
    Swells (blocksOf [x.item.message]).length net (net.broadcast i x fails) := by
  intro c k' hk' hopen
  obtain ⟨k, hk, -, hopen', hinbox⟩ := connections_broadcast hk'
  refine ⟨k, hk, hopen' ▸ hopen, ?_⟩
  rcases hinbox with ⟨-, hinbox⟩ | ⟨-, hinbox⟩
  · rw [hinbox, blocksOf, List.filterMap_append, List.length_append]
    exact Nat.le_refl _
  · rw [hinbox]
    exact Nat.le_add_right _ _

theorem length_broadcast [DecidableEq ι] (net : Net ι) (i : ι) (x : Broadcast)
    (fails : String → Bool) :
    (net.broadcast i x fails).connections.length = net.connections.length :=
  List.length_mapIdx

variable [Fintype ι]

theorem Swells.toDeliver_le (h : Swells 0 net net')
    (hblocks : ∀ i, (net'.chains i).blocks = (net.chains i).blocks)
    (hlength : net'.connections.length = net.connections.length) :
    net'.toDeliver ≤ net.toDeliver := by
  rw [toDeliver, hlength]
  exact potential_le _ (funext hblocks) fun c _ => h.underWay_le c

theorem toDeliver_finish_le (net : Net ι) (c : Nat) (ending : Ending) :
    (net.finish c ending).toDeliver ≤ net.toDeliver :=
  (net.swells_finish c ending).toDeliver_le (fun _ => rfl) (List.length_modify ..)

/-- Reading a block leaves a block less to deliver. -/
theorem toDeliver_finish_lt {c : Nat} {k : Connection ι} {b : Block} (ending : Ending)
    (hk : net.connections[c]? = some k) (hopen : k.isOpen = true)
    (hhead : k.inbox.head? = some (.newBlock b)) :
    (net.finish c ending).toDeliver < net.toDeliver := by
  have hlength : (net.finish c ending).connections.length = net.connections.length :=
    List.length_modify ..
  rw [toDeliver, toDeliver, hlength]
  refine potential_lt _ rfl (fun n _ => (net.swells_finish c ending).underWay_le n)
    (Finset.mem_range.mpr (List.getElem?_eq_some_iff.mp hk).1) ?_
  have hafter : (net.finish c ending).connections[c]? = some
      { k with inbox := k.inbox.tail, isOpen := k.isOpen && decide (ending = .continues) } :=
    getElem?_modify_eq_some_iff.mpr ⟨k, hk, Or.inl ⟨rfl, rfl⟩⟩
  rw [underWay_traffic hafter, underWay_traffic hk, if_pos hopen]
  have hblocks : blocksOf k.inbox = b :: blocksOf k.inbox.tail := by
    obtain ⟨rest, hinbox⟩ := List.head?_eq_some_iff.mp hhead
    rw [hinbox]
    rfl
  rw [hblocks]
  split
  · exact Nat.lt_succ_self _
  · exact Nat.zero_lt_succ _

variable [DecidableEq ι]

/-- What is passed on is paid for by the block that the node no longer lacks. -/
theorem toDeliver_broadcast_block_le {i j : ι} {s : Blockchain} {b : Block}
    {skipAddr : Option String} (fails : String → Bool)
    (hblocks : s.blocks = (net.chains i).blocks ++ [b]) (hnew : b ∉ (net.chains i).blocks)
    (hknown : b ∈ (net.chains j).blocks) :
    ((net.setChain i s).broadcast i ⟨.block b, skipAddr⟩ fails).toDeliver ≤ net.toDeliver := by
  have hlog : ((net.setChain i s).broadcast i ⟨.block b, skipAddr⟩ fails).traffic.log =
      Function.update net.traffic.log i ((net.chains i).blocks ++ [b]) := by
    rw [← hblocks]
    exact log_setChain i s
  rw [toDeliver, length_broadcast]
  exact potential_append _ (State.mem_known.mpr ⟨j, hknown⟩) hnew hlog
    (swells_broadcast (net.setChain i s) i ⟨.block b, skipAddr⟩ fails).underWay_le

/-- A block that some node has is downloaded. -/
theorem toDeliver_setChain_block_le {i j : ι} {s : Blockchain} {b : Block}
    (hblocks : s.blocks = (net.chains i).blocks ++ [b]) (hnew : b ∉ (net.chains i).blocks)
    (hknown : b ∈ (net.chains j).blocks) : (net.setChain i s).toDeliver ≤ net.toDeliver := by
  have hlog : (net.setChain i s).traffic.log =
      Function.update net.traffic.log i ((net.chains i).blocks ++ [b]) := by
    rw [← hblocks]
    exact log_setChain i s
  rw [toDeliver]
  exact potential_append _ (State.mem_known.mpr ⟨j, hknown⟩) hnew hlog fun c => Nat.le_succ _

theorem toDeliver_setChain_of_blocks_eq {i : ι} {s : Blockchain}
    (hblocks : s.blocks = (net.chains i).blocks) :
    (net.setChain i s).toDeliver = net.toDeliver := by
  have hlog : (net.setChain i s).traffic.log = net.traffic.log := by
    have hupdate : (net.setChain i s).traffic.log =
        Function.update net.traffic.log i s.blocks := log_setChain i s
    rw [hupdate, hblocks]
    exact Function.update_eq_self i net.traffic.log
  unfold toDeliver State.potential State.missing State.known
  rw [hlog]
  rfl

theorem toDeliver_broadcast_le (i : ι) {x : Broadcast} (hx : ∀ b, x.item.message ≠ .newBlock b)
    (fails : String → Bool) : (net.broadcast i x fails).toDeliver ≤ net.toDeliver := by
  have hnone : (blocksOf [x.item.message]).length = 0 := by
    rw [← List.nil_append [x.item.message], blocksOf_concat_of_not_block _ hx]
    rfl
  have hswells := net.swells_broadcast i x fails
  rw [hnone] at hswells
  exact hswells.toDeliver_le (fun _ => rfl) (net.length_broadcast i x fails)

end Bounds

section Runs

variable [DecidableEq ι] {d : Directory ι} {net net' : Net ι}

omit [DecidableEq ι] in
/-- The next message of the connection is a block. -/
def handsBlock (k : Connection ι) : Bool :=
  match k.inbox.head? with
  | some (.newBlock _) => true
  | _ => false

/-- The event brings no block that no node has, and opens no connection. -/
def Internal (net : Net ι) : NetEvent ι → Prop
  | .connect .. => False
  | .read c _ _ _ => ∀ k ∈ net.connections[c]?, asksBack k = false
  | .client _ _ m _ _ => m.carriesBlock = false
  | .download _ b => ∃ j, b ∈ (net.chains j).blocks
  | _ => True

instance [Fintype ι] (net : Net ι) : ∀ e, Decidable (net.Internal e)
  | .connect .. => isFalse id
  | .read c _ _ _ => inferInstanceAs (Decidable (∀ k ∈ net.connections[c]?, _))
  | .client .. => inferInstanceAs (Decidable (_ = false))
  | .download .. => inferInstanceAs (Decidable (∃ _, _))
  | .subscribe .. | .rebuildUtxoSet _ | .tryAdjustTarget _ | .cleanupMempool .. | .cut _ =>
      isTrue trivial

/-- The event is the reading of a block. -/
def ReadsBlock (net : Net ι) : NetEvent ι → Prop
  | .read c _ _ _ => ∃ k ∈ net.connections[c]?, handsBlock k = true
  | _ => False

instance (net : Net ι) : ∀ e, Decidable (net.ReadsBlock e)
  | .read c _ _ _ => inferInstanceAs (Decidable (∃ k ∈ net.connections[c]?, _))
  | .connect .. | .subscribe .. | .client .. | .download .. | .rebuildUtxoSet _
  | .tryAdjustTarget _ | .cleanupMempool .. | .cut _ => isFalse id

variable [Crates] [Fintype ι]

omit [Fintype ι] [DecidableEq ι] in
/-- What holds in every run: names are true, what is under way has been stored, and the
stored data is what it is at any time. -/
structure Traced (d : Directory ι) (net : Net ι) : Prop where
  coherent : net.Coherent d
  sent : net.Sent
  stored : ∀ i, (net.chains i).Stored

omit [Fintype ι] in
theorem stored_step (h : ∀ i, (net.chains i).Stored) {e : NetEvent ι}
    (next : net.step d e = some net') (i : ι) : (net'.chains i).Stored := by
  rcases runs_of_step next i with hsame | ⟨e', -, hstep⟩
  · rw [hsame]
    exact h i
  · have hn : (net.node i).Stored := ⟨h i, fun file hfile => by cases hfile⟩
    exact (hn.step hstep).1

omit [Fintype ι] in
theorem Traced.step (h : net.Traced d) {e : NetEvent ι} (next : net.step d e = some net') :
    net'.Traced d :=
  ⟨h.coherent.step next, h.sent.step next, stored_step h.stored next⟩

/-- A node that has a block in hand that some node has leaves no more to deliver. -/
theorem toDeliver_pass_le (h : ∀ i, (net.chains i).Stored) (i : ι) (env : Ambient)
    {sourceAddr : String} {m : Message} {x : Incoming} (hin : m.incoming sourceAddr = some x)
    (hknown : ∀ b, x.item = .block b → ∃ j, b ∈ (net.chains j).blocks) (fails : String → Bool) :
    (net.pass i (Handler.processMessage (net.chains i) env sourceAddr m) fails).toDeliver ≤
      net.toDeliver := by
  rw [Handler.processMessage_of_incoming hin, Net.pass]
  simp only [Turn.relays]
  rcases x.handle_block_cases (net.chains i) env.now with
    ⟨b, skipAddr, hitem, hpasses, -, hblocks, hbroadcast⟩ |
      ⟨b, hitem, hunwinds, hblocks, hbroadcast⟩ | ⟨-, hblocks, hbroadcast⟩
  · obtain ⟨j, hj⟩ := hknown b hitem
    rw [hbroadcast]
    exact toDeliver_broadcast_block_le fails hblocks ((h i).not_mem hpasses) hj
  · -- the block is stored, and the round unwinds before it is passed on
    obtain ⟨j, hj⟩ := hknown b hitem
    rw [hbroadcast]
    exact toDeliver_setChain_block_le hblocks ((h i).not_mem hunwinds.1) hj
  · have hsame := toDeliver_setChain_of_blocks_eq hblocks
    cases hx : (x.handle (net.chains i) env.now).broadcast with
    | none => exact hsame.le
    | some y =>
        obtain ⟨tx, htx⟩ := hbroadcast y hx
        exact (toDeliver_broadcast_le i (by simp [htx, Item.message]) fails).trans hsame.le

omit [Fintype ι] [Crates] in
theorem exists_getElem?_pass {i : ι} {turn : Turn} {fails : String → Bool} {c : Nat}
    {k : Connection ι} (hk : net.connections[c]? = some k) :
    ∃ k', (net.pass i turn fails).connections[c]? = some k' := by
  have hends : (net.pass i turn fails).ends[c]? = some k.toEnds := by
    rw [ends_pass, ends, List.getElem?_map, hk]
    rfl
  rw [ends, List.getElem?_map] at hends
  obtain ⟨k', hk', -⟩ := Option.map_eq_some_iff.mp hends
  exact ⟨k', hk'⟩

/-- A round leaves no more to deliver, and less when it reads a block. -/
theorem Traced.toDeliver_read (h : net.Traced d) {c : Nat} {env : Ambient}
    {fails : String → Bool} {sourceAddr : String}
    (internal : net.Internal (.read c env fails sourceAddr))
    (next : net.step d (.read c env fails sourceAddr) = some net') :
    net'.toDeliver ≤ net.toDeliver ∧
      (net.ReadsBlock (.read c env fails sourceAddr) → net'.toDeliver < net.toDeliver) := by
  obtain ⟨e, m, rest, called, hk, hcalled, rfl⟩ := step_read_iff.mp next
  have hasks := internal _ hk
  cases hin : m.incoming e.sourceAddr with
  | none =>
      have hle : called.toDeliver ≤ net.toDeliver := by
        rw [pass_of_not_incoming hin] at hcalled
        cases hpeers : (Handler.processMessage (net.chains e.acceptor) env e.sourceAddr
            m).peers with
        | none =>
            rw [hpeers] at hcalled
            obtain rfl := Option.some.inj hcalled
            exact le_rfl
        | some call =>
            rw [hpeers] at hcalled
            rcases Handler.processMessage_peers hpeers with ⟨_, rfl, rfl⟩ | ⟨_, rfl, rfl⟩
            · cases hasks
            · obtain rfl := Option.some.inj hcalled
              exact le_rfl
      refine ⟨(toDeliver_finish_le called c _).trans hle, ?_⟩
      rintro ⟨k, hk', hhands⟩
      rw [hk] at hk'
      cases hk'
      cases m <;> cases hhands
      cases hin
  | some x =>
      have hpeers : (Handler.processMessage (net.chains e.acceptor) env e.sourceAddr
          m).peers = none := by
        rw [Handler.processMessage_of_incoming hin]
        rfl
      have hle := toDeliver_pass_le h.stored e.acceptor env hin
        (fun b hitem => ⟨_, h.sent.sender_has h.coherent hk hin hitem⟩) fails
      have hcalled' := hcalled
      rw [hpeers, callPeers_none] at hcalled'
      obtain rfl := Option.some.inj hcalled'
      refine ⟨(toDeliver_finish_le _ c _).trans hle, ?_⟩
      rintro ⟨k, hk', hhands⟩
      rw [hk] at hk'
      cases hk'
      cases m <;> cases hhands
      obtain ⟨k', hk'⟩ := exists_getElem?_pass hk
      obtain ⟨-, hopen, hhead⟩ := head?_called hk hcalled hk'
      exact (toDeliver_finish_lt _ hk' hopen hhead).trans_le hle

/-- No event inside the network leaves more to deliver. -/
theorem Traced.toDeliver_step (h : net.Traced d) {e : NetEvent ι} (internal : net.Internal e)
    (next : net.step d e = some net') :
    net'.toDeliver ≤ net.toDeliver ∧ (net.ReadsBlock e → net'.toDeliver < net.toDeliver) := by
  cases e with
  | connect i addr sourceAddr => exact internal.elim
  | subscribe i addr =>
      obtain ⟨e, -, rfl⟩ := Option.map_eq_some_iff.mp next
      refine ⟨Swells.toDeliver_le (fun c k' hk' hopen => ?_) (fun _ => rfl)
        (List.length_modify ..), False.elim⟩
      obtain ⟨k, hk, ⟨rfl, rfl⟩ | ⟨-, rfl⟩⟩ := getElem?_modify_eq_some_iff.mp hk'
      · refine ⟨k, hk, hopen, ?_⟩
        rw [blocksOf_concat_of_not_block _ (by simp)]
        exact le_rfl
      · exact ⟨_, hk, hopen, le_rfl⟩
  | read c env fails sourceAddr => exact h.toDeliver_read internal next
  | client i sourceAddr m env fails =>
      obtain ⟨-, rfl⟩ := step_client_iff.mp next
      refine ⟨?_, False.elim⟩
      cases hin : m.incoming sourceAddr with
      | none =>
          rw [pass_of_not_incoming hin]
      | some x =>
          refine toDeliver_pass_le h.stored i env hin (fun b hitem => ?_) fails
          cases m <;> cases hin <;> cases hitem <;> cases internal
  | download i b =>
      obtain ⟨s, hs, rfl⟩ := step_download_iff.mp next
      obtain ⟨j, hj⟩ := internal
      refine ⟨?_, False.elim⟩
      rcases Blockchain.step_blocks hs with ⟨-, hblocks⟩ | ⟨b', hb', hpasses, hblocks⟩
      · exact (toDeliver_setChain_of_blocks_eq hblocks).le
      · cases hb'
        exact toDeliver_setChain_block_le hblocks ((h.stored i).not_mem hpasses) hj
  | rebuildUtxoSet i =>
      cases next
      have hblocks : (net.chains i).rebuildUtxoSet.blocks = (net.chains i).blocks := rfl
      exact ⟨(toDeliver_setChain_of_blocks_eq hblocks).le, False.elim⟩
  | tryAdjustTarget i =>
      refine ⟨?_, False.elim⟩
      rcases step_tryAdjustTarget_cases next with ⟨s, hadjust, rfl⟩ | rfl
      · exact (toDeliver_setChain_of_blocks_eq (Blockchain.blocks_tryAdjustTarget hadjust)).le
      · exact le_rfl
  | cleanupMempool i now =>
      cases next
      have hblocks : ((net.chains i).cleanupMempool now).blocks = (net.chains i).blocks := rfl
      exact ⟨(toDeliver_setChain_of_blocks_eq hblocks).le, False.elim⟩
  | cut c =>
      cases next
      refine ⟨Swells.toDeliver_le (fun n k' hk' hopen => ?_) (fun _ => rfl)
        (List.length_modify ..), False.elim⟩
      obtain ⟨k, hk, ⟨rfl, rfl⟩ | ⟨-, rfl⟩⟩ := getElem?_modify_eq_some_iff.mp hk'
      · cases hopen
      · exact ⟨_, hk, hopen, le_rfl⟩

/-- In every network that has been reached from nodes of any history, and in every run of
it in which no block comes in from outside and no connection is opened, no more blocks are
read than are under way and than the nodes lack on each connection. -/
theorem ReachedBy.occurrences_readsBlock_le {nodes : ι → Node} (hnodes : ∀ i, (nodes i).Reached)
    {C : Net ι → NetEvent ι → Prop} (reached : ReachedBy d C (fun i => (nodes i).chain) net)
    {run : List (NetEvent ι)} (meets : Machine.StepsMeet (Net.step d) Internal net run) :
    Machine.occurrences (Net.step d) ReadsBlock net run ≤ net.toDeliver := by
  have traced : net.Traced d := by
    refine reached.invariant (Traced d) ⟨?_, by simp [Sent, start], fun i => ?_⟩
      fun _ _ _ h _ next => h.step next
    · exact ReachedBy.coherent (C := C) .refl
    · exact (Node.ReachedBy.stored (hnodes i)).1
  refine meets.occurrences_le (Traced d) toDeliver (fun s e t hs internal next => ?_) traced
  exact ⟨hs.step next, hs.toDeliver_step internal next⟩

omit [Crates] [DecidableEq ι] [Fintype ι] in
/-- The block of a miner that the other nodes have not read yet. -/
theorem occurrences_readsBlock_genesis :
    letI := StandIn.crates
    ∃ net : Net (Fin 4), net.toDeliver = 13 ∧
      Machine.occurrences (Net.step StandIn.directory) ReadsBlock net
        [.read 0 StandIn.ambient (fun _ => false) "",
          .read 2 StandIn.ambient (fun _ => false) "",
          .read 3 StandIn.ambient (fun _ => false) ""] = 3 ∧ 3 ≤ net.toDeliver := by
  let run : List (NetEvent (Fin 4)) :=
    [.read 0 StandIn.ambient (fun _ => false) "", .read 2 StandIn.ambient (fun _ => false) "",
      .read 3 StandIn.ambient (fun _ => false) ""]
  have hrun : letI := StandIn.crates; (StandIn.runNet StandIn.subscribing).any (fun net => decide (
      net.toDeliver = 13 ∧ Machine.StepsMeet (Net.step StandIn.directory) Internal net run ∧
        Machine.occurrences (Net.step StandIn.directory) ReadsBlock net run = 3)) = true := by
    decide +kernel
  let := StandIn.crates
  obtain ⟨net, hnet, hdeliver, hmeets, hcount⟩ := StandIn.exists_runNet hrun
  have reached := StandIn.reachedBy_of_runNet hnet (.of_forall (fun _ _ => trivial) _ _)
  refine ⟨net, hdeliver, hcount, ?_⟩
  have hle := ReachedBy.occurrences_readsBlock_le (fun _ => Machine.Reach.refl) reached hmeets
  rw [hcount] at hle
  exact hle

end Runs

end Net

end Tcp

end ToyBtc
