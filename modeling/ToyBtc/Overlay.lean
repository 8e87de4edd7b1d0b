import Mathlib.Data.Finset.Basic
import ToyBtc.Machine
import ToyBtc.Types

/-!
# Who subscribes to whom

A gRPC node subscribes to the peers that it has connected to when it starts, and by and
by to those that have subscribed to it. When nothing is left to do, subscriptions are
mutual. What is lost afterwards is not renewed.

## Implementation notes

A map is the set of its addresses. An iteration over one meets the entries that are there
throughout, and may meet those that come in meanwhile. A call to subscribe and what the
caller notes down about it are one step. Whether a call succeeds is an argument, and none
does where no node listens. A call whose answer is lost, or that no node of the network has
made, is the subscriber that it adds. A subscriber may be removed at any step. A node that
stops loses both its maps.
-/

namespace ToyBtc

/-- Under which address a node wants to be called, and who listens under an address. -/
structure Addresses (ι : Type*) where
  subscriptionAddr : ι → String
  listener : String → Option ι
  listener_subscriptionAddr : ∀ i, listener (subscriptionAddr i) = some i

/-- An iteration over a map: the entries that it has to meet, and those that it has met. -/
structure Iteration where
  there : Finset String
  met : Finset String
  deriving DecidableEq

/-- The maps of a running node, and its two tasks. -/
structure Peering where
  nodes : Finset String
  subscribers : Finset String
  subscribeToNodes : Option Iteration
  subscribeToSubscribers : Bool
  deriving DecidableEq

/-- The nodes that run. -/
abbrev Overlay (ι : Type*) := ι → Option Peering

inductive OverlayEvent (ι : Type*)
  | start (i : ι) (nodes : Finset String)
  | stop (i : ι)
  | subscribeToNode (i : ι) (peerAddr : String) (succeeds : Bool)
  | subscribedToNodes (i : ι)
  | subscribeToSubscriber (i : ι) (subscriberAddr : String) (succeeds : Bool)
  | addSubscriber (i : ι) (peerAddr : String)
  | removeSubscriber (i : ι) (peerAddr : String)
  deriving DecidableEq

namespace StandIn

def addresses : Addresses Bool where
  subscriptionAddr joins := if joins then "peer-1:1" else "peer-0:1"
  listener addr :=
    if addr = "peer-0:1" then some false else if addr = "peer-1:1" then some true else none
  listener_subscriptionAddr
    | false => rfl
    | true => rfl

/-- The first node starts alone, the second one is connected to it from the start. -/
def joining : List (OverlayEvent Bool) :=
  [.start false ∅, .subscribedToNodes false, .start true {"peer-0:1"},
    .subscribeToNode true "peer-0:1" true, .subscribedToNodes true,
    .subscribeToSubscriber false "peer-1:1" true]

end StandIn

namespace Overlay

variable {ι : Type*} [DecidableEq ι] (d : Addresses ι)

def modify (o : Overlay ι) (i : ι) (f : Peering → Peering) : Overlay ι :=
  Function.update o i ((o i).map f)

/-- The call of `subscribe_for_new_items` at the node that listens under the address. -/
def createSubscription (o : Overlay ι) (i : ι) (peerAddr : String) (succeeds : Bool) :
    Option (Overlay ι) :=
  match succeeds, d.listener peerAddr with
  | true, some j =>
      match o j with
      | some q => some (Function.update o j
          (some { q with subscribers := insert (d.subscriptionAddr i) q.subscribers }))
      | none => none
  | _, _ => none

/-- One event, if it can happen. A call that fails ends the task that has made it. -/
def step (o : Overlay ι) : OverlayEvent ι → Option (Overlay ι)
  | .start i nodes =>
      match o i with
      | none => some (Function.update o i (some ⟨nodes, ∅, some ⟨nodes, ∅⟩, true⟩))
      | some _ => none
  | .stop i => some (Function.update o i none)
  | .subscribeToNode i peerAddr succeeds =>
      match o i with
      | some ⟨nodes, _, some it, _⟩ =>
          if peerAddr ∈ nodes ∧ peerAddr ∉ it.met then
            match createSubscription d o i peerAddr succeeds with
            | some o => some (modify o i fun p =>
                { p with subscribeToNodes := some { it with met := insert peerAddr it.met } })
            | none => some (modify o i fun p => { p with subscribeToNodes := none })
          else none
      | _ => none
  | .subscribedToNodes i =>
      match o i with
      | some ⟨_, _, some it, _⟩ =>
          if it.there ⊆ it.met then
            some (modify o i fun p => { p with subscribeToNodes := none })
          else none
      | _ => none
  | .subscribeToSubscriber i subscriberAddr succeeds =>
      match o i with
      | some ⟨nodes, subscribers, _, true⟩ =>
          if subscriberAddr ∈ subscribers ∧ subscriberAddr ∉ nodes then
            match createSubscription d o i subscriberAddr succeeds with
            | some o => some (modify o i fun p =>
                { p with nodes := insert subscriberAddr p.nodes })
            | none => some (modify o i fun p => { p with subscribeToSubscribers := false })
          else none
      | _ => none
  | .addSubscriber i peerAddr =>
      some (modify o i fun p => { p with subscribers := insert peerAddr p.subscribers })
  | .removeSubscriber i peerAddr =>
      some (modify o i fun p => { p with subscribers := p.subscribers.erase peerAddr })

variable {d} {o o' : Overlay ι} {i k : ι} {e : OverlayEvent ι}

omit [DecidableEq ι] in
/-- The node has its address among the subscribers of the peer. -/
def Subscribed (d : Addresses ι) (o : Overlay ι) (i : ι) (peerAddr : String) : Prop :=
  ∃ j q, d.listener peerAddr = some j ∧ o j = some q ∧ d.subscriptionAddr i ∈ q.subscribers

@[simp] theorem modify_self (o : Overlay ι) (i : ι) (f : Peering → Peering) :
    o.modify i f i = (o i).map f :=
  Function.update_self ..

theorem modify_of_ne (o : Overlay ι) (f : Peering → Peering) (h : k ≠ i) :
    o.modify i f k = o k :=
  Function.update_of_ne h ..

theorem createSubscription_eq_some_iff {peerAddr : String} {succeeds : Bool} :
    createSubscription d o i peerAddr succeeds = some o' ↔
      succeeds = true ∧ ∃ j q, d.listener peerAddr = some j ∧ o j = some q ∧
        o' = Function.update o j
          (some { q with subscribers := insert (d.subscriptionAddr i) q.subscribers }) := by
  cases succeeds with
  | false => simp [createSubscription]
  | true =>
      cases hlistener : d.listener peerAddr with
      | none => simp [createSubscription, hlistener]
      | some j =>
          cases hj : o j with
          | none => simp [createSubscription, hlistener, hj]
          | some q => simp [createSubscription, hlistener, hj, eq_comm]

/-- A call adds to the subscribers of the peer, and to nothing else. -/
theorem createSubscription_node {peerAddr : String} {succeeds : Bool} {p : Peering}
    (h : createSubscription d o i peerAddr succeeds = some o') (hp : o k = some p) :
    ∃ subscribers, p.subscribers ⊆ subscribers ∧ o' k = some { p with subscribers } := by
  obtain ⟨-, j, q, -, hq, rfl⟩ := createSubscription_eq_some_iff.mp h
  by_cases hk : k = j
  · subst hk
    obtain rfl : q = p := Option.some.inj (hq.symm.trans hp)
    exact ⟨_, Finset.subset_insert _ _, Function.update_self ..⟩
  · exact ⟨p.subscribers, Finset.Subset.refl _, by rw [Function.update_of_ne hk]; exact hp⟩

theorem subscribed_of_createSubscription {peerAddr : String} {succeeds : Bool}
    (h : createSubscription d o i peerAddr succeeds = some o') :
    Subscribed d o' i peerAddr := by
  obtain ⟨-, j, q, hlistener, hq, rfl⟩ := createSubscription_eq_some_iff.mp h
  exact ⟨j, _, hlistener, Function.update_self .., Finset.mem_insert_self _ _⟩

omit [DecidableEq ι] in
/-- Subscribed is who was subscribed, where nobody's subscribers are fewer. -/
theorem Subscribed.mono {peerAddr : String} (h : Subscribed d o i peerAddr)
    (hgrow : ∀ j q, o j = some q → ∃ q', o' j = some q' ∧ q.subscribers ⊆ q'.subscribers) :
    Subscribed d o' i peerAddr := by
  obtain ⟨j, q, hlistener, hq, hmem⟩ := h
  obtain ⟨q', hq', hsub⟩ := hgrow j q hq
  exact ⟨j, q', hlistener, hq', hsub hmem⟩

theorem modify_node (f : Peering → Peering) (hf : ∀ p, (f p).subscribers = p.subscribers)
    {p : Peering} (hp : o k = some p) :
    ∃ p', o.modify i f k = some p' ∧ p.subscribers ⊆ p'.subscribers := by
  by_cases hk : k = i
  · subst hk
    exact ⟨f p, by rw [modify_self, hp]; rfl, by rw [hf]⟩
  · exact ⟨p, by rw [modify_of_ne o f hk, hp], Finset.Subset.refl _⟩

/-- A call has subscribed whoever notes down something about it. -/
theorem subscribed_modify {peerAddr : String} {succeeds : Bool} (f : Peering → Peering)
    (hf : ∀ p, (f p).subscribers = p.subscribers)
    (h : createSubscription d o i peerAddr succeeds = some o') :
    Subscribed d (o'.modify i f) i peerAddr :=
  (subscribed_of_createSubscription h).mono fun _ _ hj => modify_node f hf hj

theorem modify_none {f : Peering → Peering} (i : ι) (hk : o k = none) : o.modify i f k = none := by
  by_cases hi : k = i
  · subst hi
    rw [modify_self, hk]
    rfl
  · rw [modify_of_ne o f hi, hk]

theorem createSubscription_none {peerAddr : String} {succeeds : Bool}
    (h : createSubscription d o i peerAddr succeeds = some o') (hk : o k = none) :
    o' k = none := by
  obtain ⟨-, j, q, -, hq, rfl⟩ := createSubscription_eq_some_iff.mp h
  have hj : k ≠ j := by
    rintro rfl
    rw [hq] at hk
    cases hk
  rw [Function.update_of_ne hj, hk]

/-- What an event does to a node that goes on. -/
inductive Moves (d : Addresses ι) (o o' : Overlay ι) (i : ι) (p : Peering) :
    OverlayEvent ι → Prop
  | stays {e : OverlayEvent ι} {subscribers : Finset String}
      (h : o' i = some { p with subscribers })
      (grows : (∀ peerAddr, e ≠ .removeSubscriber i peerAddr) → p.subscribers ⊆ subscribers)
      (other : ∀ peerAddr succeeds, e ≠ .subscribeToNode i peerAddr succeeds ∧
        e ≠ .subscribeToSubscriber i peerAddr succeeds) : Moves d o o' i p e
  | subscribed {it : Iteration} (hit : p.subscribeToNodes = some it) (met : it.there ⊆ it.met)
      (h : o' i = some { p with subscribeToNodes := none }) :
      Moves d o o' i p (.subscribedToNodes i)
  | meets {it : Iteration} {peerAddr : String} {succeeds : Bool} {subscribers : Finset String}
      (hit : p.subscribeToNodes = some it) (new : peerAddr ∉ it.met)
      (h : o' i = some { p with
        subscribers, subscribeToNodes := some { it with met := insert peerAddr it.met } })
      (grows : p.subscribers ⊆ subscribers) (calls : Subscribed d o' i peerAddr) :
      Moves d o o' i p (.subscribeToNode i peerAddr succeeds)
  | breaksOff {it : Iteration} {peerAddr : String} {succeeds : Bool}
      (hit : p.subscribeToNodes = some it) (new : peerAddr ∉ it.met)
      (h : o' i = some { p with subscribeToNodes := none })
      (fails : createSubscription d o i peerAddr succeeds = none) :
      Moves d o o' i p (.subscribeToNode i peerAddr succeeds)
  | renews {subscriberAddr : String} {succeeds : Bool} {subscribers : Finset String}
      (goes : p.subscribeToSubscribers = true) (new : subscriberAddr ∉ p.nodes)
      (h : o' i = some { p with subscribers, nodes := insert subscriberAddr p.nodes })
      (grows : p.subscribers ⊆ subscribers) (calls : Subscribed d o' i subscriberAddr) :
      Moves d o o' i p (.subscribeToSubscriber i subscriberAddr succeeds)
  | givesUp {subscriberAddr : String} {succeeds : Bool}
      (goes : p.subscribeToSubscribers = true) (new : subscriberAddr ∉ p.nodes)
      (h : o' i = some { p with subscribeToSubscribers := false })
      (fails : createSubscription d o i subscriberAddr succeeds = none) :
      Moves d o o' i p (.subscribeToSubscriber i subscriberAddr succeeds)

theorem Moves.of_eq {p : Peering} (h : o' i = some p)
    (other : ∀ peerAddr succeeds, e ≠ .subscribeToNode i peerAddr succeeds ∧
      e ≠ .subscribeToSubscriber i peerAddr succeeds) : Moves d o o' i p e :=
  .stays h (fun _ => Finset.Subset.refl _) other

/-- A visit of an entry calls the peer, or it ends the iteration. -/
theorem step_subscribeToNode {peerAddr : String} {succeeds : Bool}
    (next : step d o (.subscribeToNode i peerAddr succeeds) = some o') :
    ∃ p it, o i = some p ∧ p.subscribeToNodes = some it ∧ peerAddr ∉ it.met ∧
      ((∃ called, createSubscription d o i peerAddr succeeds = some called ∧
        o' = called.modify i fun p =>
          { p with subscribeToNodes := some { it with met := insert peerAddr it.met } }) ∨
      (createSubscription d o i peerAddr succeeds = none ∧
        o' = o.modify i fun p => { p with subscribeToNodes := none })) := by
  rw [step] at next
  split at next
  · next it _ hp =>
      split at next
      · next hnew =>
          refine ⟨_, it, hp, rfl, hnew.2, ?_⟩
          split at next
          · next called hcall =>
              cases next
              exact Or.inl ⟨called, hcall, rfl⟩
          · next hcall =>
              cases next
              exact Or.inr ⟨hcall, rfl⟩
      · cases next
  · cases next

theorem step_subscribedToNodes (next : step d o (.subscribedToNodes i) = some o') :
    ∃ p it, o i = some p ∧ p.subscribeToNodes = some it ∧ it.there ⊆ it.met ∧
      o' = o.modify i fun p => { p with subscribeToNodes := none } := by
  rw [step] at next
  split at next
  · next it _ hp =>
      split at next
      · next hmet =>
          cases next
          exact ⟨_, it, hp, rfl, hmet, rfl⟩
      · cases next
  · cases next

/-- A visit of a subscriber calls it if it is not connected, or it ends the task. -/
theorem step_subscribeToSubscriber {subscriberAddr : String} {succeeds : Bool}
    (next : step d o (.subscribeToSubscriber i subscriberAddr succeeds) = some o') :
    ∃ p, o i = some p ∧ p.subscribeToSubscribers = true ∧ subscriberAddr ∉ p.nodes ∧
      ((∃ called, createSubscription d o i subscriberAddr succeeds = some called ∧
        o' = called.modify i fun p => { p with nodes := insert subscriberAddr p.nodes }) ∨
      (createSubscription d o i subscriberAddr succeeds = none ∧
        o' = o.modify i fun p => { p with subscribeToSubscribers := false })) := by
  rw [step] at next
  split at next
  · next hp =>
      split at next
      · next hnew =>
          refine ⟨_, hp, rfl, hnew.2, ?_⟩
          split at next
          · next called hcall =>
              cases next
              exact Or.inl ⟨called, hcall, rfl⟩
          · next hcall =>
              cases next
              exact Or.inr ⟨hcall, rfl⟩
      · cases next
  · cases next

theorem step_start {nodes : Finset String} (next : step d o (.start i nodes) = some o') :
    o i = none ∧ o' = Function.update o i (some ⟨nodes, ∅, some ⟨nodes, ∅⟩, true⟩) := by
  rw [step] at next
  split at next
  · next hnone =>
      cases next
      exact ⟨hnone, rfl⟩
  · cases next

/-- What any event does to a node that goes on. -/
theorem moves_of_step {p : Peering} (hp : o k = some p) (next : step d o e = some o')
    (goes : e ≠ .stop k) : Moves d o o' k p e := by
  cases e with
  | start i nodes =>
      obtain ⟨hnone, rfl⟩ := step_start next
      have hk : k ≠ i := by
        rintro rfl
        rw [hp] at hnone
        cases hnone
      exact .of_eq (by rw [Function.update_of_ne hk]; exact hp) (by simp)
  | stop i =>
      cases next
      have hk : k ≠ i := by
        rintro rfl
        exact goes rfl
      exact .of_eq (by rw [Function.update_of_ne hk]; exact hp) (by simp)
  | subscribeToNode i peerAddr succeeds =>
      obtain ⟨q, it, hq, hit, hnew, ⟨called, hcall, rfl⟩ | ⟨hcall, rfl⟩⟩ :=
        step_subscribeToNode next
      · obtain ⟨subscribers, hgrow, hcalled⟩ := createSubscription_node hcall hp
        by_cases hk : k = i
        · subst hk
          obtain rfl : q = p := Option.some.inj (hq.symm.trans hp)
          refine .meets hit hnew (by rw [modify_self, hcalled]; rfl) hgrow ?_
          exact subscribed_modify _ (fun _ => rfl) hcall
        · exact .stays (by rw [modify_of_ne _ _ hk, hcalled]) (fun _ => hgrow)
            (by simp [Ne.symm hk])
      · by_cases hk : k = i
        · subst hk
          obtain rfl : q = p := Option.some.inj (hq.symm.trans hp)
          exact .breaksOff hit hnew (by rw [modify_self, hp]; rfl) hcall
        · exact .of_eq (by rw [modify_of_ne _ _ hk, hp]) (by simp [Ne.symm hk])
  | subscribedToNodes i =>
      obtain ⟨q, it, hq, hit, hmet, rfl⟩ := step_subscribedToNodes next
      by_cases hk : k = i
      · subst hk
        obtain rfl : q = p := Option.some.inj (hq.symm.trans hp)
        exact .subscribed hit hmet (by rw [modify_self, hp]; rfl)
      · exact .of_eq (by rw [modify_of_ne _ _ hk, hp]) (by simp)
  | subscribeToSubscriber i subscriberAddr succeeds =>
      obtain ⟨q, hq, hgoes, hnew, ⟨called, hcall, rfl⟩ | ⟨hcall, rfl⟩⟩ :=
        step_subscribeToSubscriber next
      · obtain ⟨subscribers, hgrow, hcalled⟩ := createSubscription_node hcall hp
        by_cases hk : k = i
        · subst hk
          obtain rfl : q = p := Option.some.inj (hq.symm.trans hp)
          refine .renews hgoes hnew (by rw [modify_self, hcalled]; rfl) hgrow ?_
          exact subscribed_modify _ (fun _ => rfl) hcall
        · exact .stays (by rw [modify_of_ne _ _ hk, hcalled]) (fun _ => hgrow)
            (by simp [Ne.symm hk])
      · by_cases hk : k = i
        · subst hk
          obtain rfl : q = p := Option.some.inj (hq.symm.trans hp)
          exact .givesUp hgoes hnew (by rw [modify_self, hp]; rfl) hcall
        · exact .of_eq (by rw [modify_of_ne _ _ hk, hp]) (by simp [Ne.symm hk])
  | addSubscriber i peerAddr =>
      cases next
      by_cases hk : k = i
      · subst hk
        exact .stays (by rw [modify_self, hp]; rfl) (fun _ => Finset.subset_insert _ _) (by simp)
      · exact .of_eq (by rw [modify_of_ne _ _ hk, hp]) (by simp)
  | removeSubscriber i peerAddr =>
      cases next
      by_cases hk : k = i
      · subst hk
        exact .stays (by rw [modify_self, hp]; rfl) (fun h => absurd rfl (h peerAddr)) (by simp)
      · exact .of_eq (by rw [modify_of_ne _ _ hk, hp]) (by simp)

/-- A node that does not run goes on like that or starts. -/
theorem start_of_step (hk : o k = none) (next : step d o e = some o') :
    o' k = none ∨ ∃ nodes, e = .start k nodes ∧
      o' k = some ⟨nodes, ∅, some ⟨nodes, ∅⟩, true⟩ := by
  cases e with
  | start i nodes =>
      obtain ⟨-, rfl⟩ := step_start next
      by_cases hi : k = i
      · subst hi
        exact Or.inr ⟨nodes, rfl, Function.update_self ..⟩
      · exact Or.inl (by rw [Function.update_of_ne hi, hk])
  | stop i =>
      cases next
      left
      by_cases hi : k = i
      · subst hi
        exact Function.update_self ..
      · rw [Function.update_of_ne hi, hk]
  | subscribeToNode i peerAddr succeeds =>
      obtain ⟨-, it, -, -, -, ⟨called, hcall, rfl⟩ | ⟨-, rfl⟩⟩ := step_subscribeToNode next
      · exact Or.inl (modify_none _ (createSubscription_none hcall hk))
      · exact Or.inl (modify_none _ hk)
  | subscribedToNodes i =>
      obtain ⟨-, -, -, -, -, rfl⟩ := step_subscribedToNodes next
      exact Or.inl (modify_none _ hk)
  | subscribeToSubscriber i subscriberAddr succeeds =>
      obtain ⟨-, -, -, -, ⟨called, hcall, rfl⟩ | ⟨-, rfl⟩⟩ := step_subscribeToSubscriber next
      · exact Or.inl (modify_none _ (createSubscription_none hcall hk))
      · exact Or.inl (modify_none _ hk)
  | addSubscriber i peerAddr | removeSubscriber i peerAddr =>
      cases next
      exact Or.inl (modify_none _ hk)

/-! ### How often a node calls another -/

omit [DecidableEq ι] in
/-- The event is a call of one node at an address. -/
def Calls (i : ι) (peerAddr : String) : OverlayEvent ι → Prop
  | .subscribeToNode j addr _ | .subscribeToSubscriber j addr _ => j = i ∧ addr = peerAddr
  | _ => False

instance (i : ι) (peerAddr : String) : DecidablePred (Calls i peerAddr)
  | .subscribeToNode .. | .subscribeToSubscriber .. => inferInstanceAs (Decidable (_ ∧ _))
  | .start .. | .stop _ | .subscribedToNodes _ | .addSubscriber ..
  | .removeSubscriber .. => isFalse id

omit [DecidableEq ι] in
/-- How often a node may still call an address: once for each of its tasks. -/
def mayCall (peerAddr : String) (p : Peering) : Nat :=
  (if p.subscribeToSubscribers = true ∧ peerAddr ∉ p.nodes then 1 else 0) +
    match p.subscribeToNodes with
    | some it => if peerAddr ∈ it.met then 0 else 1
    | none => 0

/-- A call uses up one of those that are left, and nothing adds to them. -/
theorem Moves.mayCall_le {p : Peering} (h : Moves d o o' i p e) (peerAddr : String) :
    ∃ p', o' i = some p' ∧ mayCall peerAddr p' ≤ mayCall peerAddr p ∧
      (Calls i peerAddr e → mayCall peerAddr p' < mayCall peerAddr p) := by
  cases h with
  | stays h grows other =>
      refine ⟨_, h, Nat.le_refl _, fun hcalls => ?_⟩
      cases e with
      | subscribeToNode j addr succeeds =>
          obtain ⟨rfl, rfl⟩ := hcalls
          exact absurd rfl (other addr succeeds).1
      | subscribeToSubscriber j addr succeeds =>
          obtain ⟨rfl, rfl⟩ := hcalls
          exact absurd rfl (other addr succeeds).2
      | start | stop | subscribedToNodes | addSubscriber | removeSubscriber =>
          exact hcalls.elim
  | subscribed hit met h =>
      refine ⟨_, h, ?_, False.elim⟩
      simp [mayCall, hit]
  | meets hit new h grows calls =>
      refine ⟨_, h, ?_, ?_⟩
      · simp only [mayCall, hit, Finset.mem_insert]
        grind
      · rintro ⟨-, rfl⟩
        simp [mayCall, hit, new]
  | breaksOff hit new h fails =>
      refine ⟨_, h, ?_, ?_⟩
      · simp [mayCall, hit]
      · rintro ⟨-, rfl⟩
        simp [mayCall, hit, new]
  | renews goes new h grows calls =>
      refine ⟨_, h, ?_, ?_⟩
      · simp only [mayCall, Finset.mem_insert]
        grind
      · rintro ⟨-, rfl⟩
        simp [mayCall, goes, new]
  | givesUp goes new h fails =>
      refine ⟨_, h, ?_, ?_⟩
      · simp [mayCall]
      · rintro ⟨-, rfl⟩
        simp [mayCall, goes, new]

/-- Between its start and its stop a node calls an address at most twice, and no more once
the address is connected and the round of the start is over, whatever happens to who
listens there. -/
theorem occurrences_calls_le {p : Peering} {run : List (OverlayEvent ι)} (hp : o i = some p)
    (meets : Machine.StepsMeet (step d) (fun _ e => e ≠ .stop i) o run) (peerAddr : String) :
    Machine.occurrences (step d) (fun _ => Calls i peerAddr) o run ≤ 2 ∧
      (peerAddr ∈ p.nodes → p.subscribeToNodes = none →
        Machine.occurrences (step d) (fun _ => Calls i peerAddr) o run = 0) := by
  have hcount : Machine.occurrences (step d) (fun _ => Calls i peerAddr) o run ≤
      ((o i).map (mayCall peerAddr)).getD 0 := by
    refine meets.occurrences_le (P := fun _ => Calls i peerAddr) (fun o => (o i).isSome = true)
      (fun o => ((o i).map (mayCall peerAddr)).getD 0) ?_ (by rw [hp]; rfl)
    intro s e t hs hstop next
    obtain ⟨q, hq⟩ := Option.isSome_iff_exists.mp hs
    obtain ⟨q', hq', hle, hlt⟩ := (moves_of_step hq next hstop).mayCall_le peerAddr
    simpa [hq, hq'] using ⟨hle, hlt⟩
  rw [hp, Option.map_some, Option.getD_some] at hcount
  refine ⟨?_, fun hmem hround => ?_⟩
  · have htwice : mayCall peerAddr p ≤ 2 := by
      unfold mayCall
      grind
    omega
  · have hnever : mayCall peerAddr p = 0 := by simp [mayCall, hmem, hround]
    omega

/-- The second node has restarted and subscribed again, and the first one has not. -/
theorem occurrences_calls_joining :
    ∃ o p, o false = some p ∧ "peer-1:1" ∈ p.nodes ∧
      Machine.occurrences (step StandIn.addresses) (fun _ => Calls false "peer-1:1") o
        [.stop true, .removeSubscriber false "peer-1:1", .start true {"peer-0:1"},
          .subscribeToNode true "peer-0:1" true] = 0 := by
  have hrun : (StandIn.joining.foldlM (step StandIn.addresses) fun _ => none).any (fun o => decide (
      o false = some ⟨{"peer-1:1"}, {"peer-1:1"}, none, true⟩ ∧
        Machine.StepsMeet (step StandIn.addresses) (fun _ e => e ≠ .stop false) o
          [.stop true, .removeSubscriber false "peer-1:1", .start true {"peer-0:1"},
            .subscribeToNode true "peer-0:1" true])) = true := by
    decide +kernel
  obtain ⟨o, -, hp, meets⟩ := exists_of_any hrun
  exact ⟨o, _, hp, by simp, (occurrences_calls_le hp meets "peer-1:1").2 (by simp) rfl⟩

/-! ### What a network comes to -/

/-- No node stops, every call succeeds, and subscribers come from calls alone and stay. -/
def Orderly (d : Addresses ι) (o : Overlay ι) : OverlayEvent ι → Prop
  | .stop _ | .addSubscriber .. | .removeSubscriber .. => False
  | .subscribeToNode i peerAddr succeeds | .subscribeToSubscriber i peerAddr succeeds =>
      (createSubscription d o i peerAddr succeeds).isSome = true
  | _ => True

instance (d : Addresses ι) (o : Overlay ι) : DecidablePred (Orderly d o)
  | .stop _ | .addSubscriber .. | .removeSubscriber .. => isFalse id
  | .subscribeToNode .. | .subscribeToSubscriber .. => inferInstanceAs (Decidable (_ = true))
  | .start .. | .subscribedToNodes _ => isTrue trivial

/-- Where a node is connected, it is subscribed, or it will be. -/
def Subscribes (d : Addresses ι) (o : Overlay ι) : Prop :=
  ∀ i p, o i = some p → ∀ peerAddr ∈ p.nodes, Subscribed d o i peerAddr ∨
    ∃ it, p.subscribeToNodes = some it ∧ peerAddr ∈ it.there ∧ peerAddr ∉ it.met

theorem Orderly.grows (orderly : Orderly d o e) (next : step d o e = some o') (j : ι)
    (q : Peering) (hq : o j = some q) :
    ∃ q', o' j = some q' ∧ q.subscribers ⊆ q'.subscribers := by
  have hrefl : q.subscribers ⊆ q.subscribers := Finset.Subset.refl _
  have hstop : e ≠ .stop j := by
    rintro rfl
    exact orderly
  cases moves_of_step hq next hstop with
  | stays h grows other =>
      refine ⟨_, h, grows fun peerAddr => ?_⟩
      rintro rfl
      exact orderly
  | subscribed hit met h => exact ⟨_, h, hrefl⟩
  | meets hit new h grows calls => exact ⟨_, h, grows⟩
  | breaksOff hit new h fails => exact ⟨_, h, hrefl⟩
  | renews goes new h grows calls => exact ⟨_, h, grows⟩
  | givesUp goes new h fails => exact ⟨_, h, hrefl⟩

theorem Subscribes.step (hs : Subscribes d o) (orderly : Orderly d o e)
    (next : step d o e = some o') : Subscribes d o' := by
  intro k p' hp' peerAddr hmem
  have hgrow := orderly.grows next
  cases hk : o k with
  | none =>
      rcases start_of_step hk next with hnone | ⟨nodes, -, hstart⟩
      · rw [hnone] at hp'
        cases hp'
      · obtain rfl := Option.some.inj (hstart.symm.trans hp')
        exact Or.inr ⟨_, rfl, hmem, Finset.notMem_empty _⟩
  | some p =>
      have hbefore := hs k p hk peerAddr
      have hstop : e ≠ .stop k := by
        rintro rfl
        exact orderly
      cases moves_of_step hk next hstop with
      | stays h grows other =>
          obtain rfl := Option.some.inj (h.symm.trans hp')
          exact (hbefore hmem).imp_left fun hsub => hsub.mono hgrow
      | subscribed hit met h =>
          obtain rfl := Option.some.inj (h.symm.trans hp')
          rcases hbefore hmem with hsub | ⟨it, hit', hthere, hnot⟩
          · exact Or.inl (hsub.mono hgrow)
          · obtain rfl := Option.some.inj (hit.symm.trans hit')
            exact absurd (met hthere) hnot
      | @meets it addr _ _ hit new h grows calls =>
          obtain rfl := Option.some.inj (h.symm.trans hp')
          by_cases haddr : peerAddr = addr
          · exact Or.inl (haddr ▸ calls)
          · rcases hbefore hmem with hsub | ⟨it', hit', hthere, hnot⟩
            · exact Or.inl (hsub.mono hgrow)
            · obtain rfl := Option.some.inj (hit.symm.trans hit')
              exact Or.inr ⟨_, rfl, hthere, by simp [haddr, hnot]⟩
      | breaksOff hit new h fails =>
          simp [Orderly, fails] at orderly
      | renews goes new h grows calls =>
          obtain rfl := Option.some.inj (h.symm.trans hp')
          rcases Finset.mem_insert.mp hmem with rfl | hmem
          · exact Or.inl calls
          · exact (hbefore hmem).imp_left fun hsub => hsub.mono hgrow
      | givesUp goes new h fails =>
          simp [Orderly, fails] at orderly

/-- Every node has subscribed to those it was connected to at its start, and is connected
to its subscribers. -/
def AtRest (o : Overlay ι) : Prop :=
  ∀ i p, o i = some p → p.subscribeToNodes = none ∧ p.subscribers ⊆ p.nodes

/-- In every network that nodes have made by starting and by calls that succeed, in any
order: once it has come to rest, subscriptions are mutual, and every node that one is
connected to is connected to it. -/
theorem reach_mutual (reach : Machine.Reach (step d) (Orderly d) (fun _ => none) o)
    (rest : AtRest o) {j : ι} {p q : Peering} (hp : o i = some p) (hq : o j = some q) :
    (d.subscriptionAddr i ∈ q.subscribers ↔ d.subscriptionAddr j ∈ p.subscribers) ∧
      ∀ peerAddr ∈ p.nodes, d.listener peerAddr = some j →
        d.subscriptionAddr i ∈ q.subscribers ∧ d.subscriptionAddr i ∈ q.nodes := by
  have hsubscribes : Subscribes d o :=
    reach.invariant (Subscribes d) (fun i p hp => by cases hp) fun _ _ _ hs meets next =>
      hs.step meets next
  -- at rest nothing is left to be met
  have hcalled : ∀ {i j p q}, o i = some p → o j = some q → ∀ peerAddr ∈ p.nodes,
      d.listener peerAddr = some j → d.subscriptionAddr i ∈ q.subscribers := by
    intro i j p q hp hq peerAddr hmem hlistener
    rcases hsubscribes i p hp peerAddr hmem with ⟨j', q', hlistener', hq', hsub⟩ | ⟨it, hit, -⟩
    · obtain rfl := Option.some.inj (hlistener.symm.trans hlistener')
      obtain rfl := Option.some.inj (hq.symm.trans hq')
      exact hsub
    · rw [(rest i p hp).1] at hit
      cases hit
  have hback : ∀ {i j p q}, o i = some p → o j = some q →
      d.subscriptionAddr i ∈ q.subscribers → d.subscriptionAddr j ∈ p.subscribers := by
    intro i j p q hp hq hsub
    exact hcalled hq hp _ ((rest j q hq).2 hsub) (d.listener_subscriptionAddr i)
  refine ⟨⟨hback hp hq, hback hq hp⟩, fun peerAddr hmem hlistener => ?_⟩
  have hsub := hcalled hp hq peerAddr hmem hlistener
  exact ⟨hsub, (rest j q hq).2 hsub⟩

/-- The second node has joined the first one. -/
theorem reach_mutual_joining :
    ∃ o p q, Machine.Reach (step StandIn.addresses) (Orderly StandIn.addresses)
        (fun _ => none) o ∧ o false = some p ∧ o true = some q ∧
      "peer-1:1" ∈ p.subscribers ∧ "peer-0:1" ∈ q.subscribers := by
  have hrun : (StandIn.joining.foldlM (step StandIn.addresses) fun _ => none).any (fun o => decide (
      o false = some ⟨{"peer-1:1"}, {"peer-1:1"}, none, true⟩ ∧
        o true = some ⟨{"peer-0:1"}, {"peer-0:1"}, none, true⟩)) = true := by
    decide +kernel
  have horderly : Machine.StepsMeet (step StandIn.addresses) (Orderly StandIn.addresses)
      (fun _ => none) StandIn.joining := by
    decide +kernel
  obtain ⟨o, ho, hp, hq⟩ := exists_of_any hrun
  have reach := Machine.reach_of_foldlM StandIn.joining horderly ho
  have rest : AtRest o := by
    intro i r hr
    cases i with
    | false =>
        obtain rfl := Option.some.inj (hp.symm.trans hr)
        exact ⟨rfl, Finset.Subset.refl _⟩
    | true =>
        obtain rfl := Option.some.inj (hq.symm.trans hr)
        exact ⟨rfl, Finset.Subset.refl _⟩
  have hmutual := (reach_mutual reach rest hp hq).1
  exact ⟨o, _, _, reach, hp, hq, by simp, hmutual.mpr (by decide)⟩

end Overlay

end ToyBtc
