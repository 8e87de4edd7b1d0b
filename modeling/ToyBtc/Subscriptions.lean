import ToyBtc.Relay

/-!
# Subscriptions to new items

A node keeps the sender of a channel under the address of each subscriber. A
broadcast puts its item on these channels one after the other, and a task for
each subscription moves the items of its channel to the stream. When that fails
the task removes the entry under its address, whichever subscription it
belongs to by then.

The map is divided into shards. A broadcast goes from shard to shard and holds
the guard of the one that it is in, also while it waits for room on a channel.
Whoever stores or removes an entry of the shard waits until no guard is left.

## Implementation notes

Subscriptions and broadcasts are numbered in the order in which they begin. No
step reads the queued parcels or the record of removals. A broadcast meets the
entries of a shard in any order. It does not fail: a task receives for as long as
its sender is stored, so the channel of an entry is open. Guards do not wait for
each other, and neither does one for those who wait for the shard. A call that
waits for a shard keeps its thread, and the other tasks have threads of their own.
A task whose send has failed and that waits for the shard of its address still
counts as holding the item. The room on the stream is left to the scheduler, and
the bytes of an item to the item. The loop that subscribes to subscribers, which goes
through the map as well, is not among the steps.
-/

namespace ToyBtc

/-- How the map of subscribers spreads its keys. The hash that finds the shard of a key is
drawn when the map is created. -/
class Shards where
  count : Nat
  index : String → Fin count

/-- A map with one shard. -/
@[reducible] def Shards.single : Shards := ⟨1, fun _ => 0⟩

/-- An item on a channel, and the number of its broadcast. -/
structure Parcel where
  number : Nat
  item : Item
  deriving DecidableEq

/-- A subscription: the channel with room for one item, the item that its task
is sending, and the stream. -/
structure Subscription where
  addr : String
  /-- How many broadcasts had begun before. -/
  since : Nat
  /-- Everything that was put on the channel. -/
  queued : List Parcel
  buffer : Option Parcel
  hand : Option Parcel
  stream : List Parcel
  isOpen : Bool
  deriving DecidableEq

/-- A call of `broadcast` on its way through the entries. -/
structure BroadcastTask where
  call : Broadcast
  /-- How many shards it has come to. It holds the guard of the last one. -/
  shards : Nat
  visited : List String
  finished : Bool
  deriving DecidableEq

/-- The subscriber map of a node, with everything that uses it. -/
structure Hub where
  subscribers : Finmap fun _ : String => Nat
  subscriptions : List Subscription
  broadcasts : List BroadcastTask
  /-- The entries that were removed, each with the task that removed it. -/
  removed : List (Nat × Nat)

/-- What happens at a hub: a subscription begins or its peer drops the stream, a
broadcast begins, goes on to the next shard, visits an entry or ends, and a forwarding
task takes an item from its channel or sends it to its stream. -/
inductive HubEvent
  | subscribe (addr : String)
  | close (k : Nat)
  | broadcast (call : Broadcast)
  | lock (j : Nat)
  | visit (j : Nat) (addr : String)
  | finish (j : Nat)
  | receive (k : Nat)
  | forward (k : Nat)

/-- The broadcast holds the guard of the shard `i`. -/
def BroadcastTask.Holds (b : BroadcastTask) (i : Nat) : Prop :=
  b.finished = false ∧ b.shards = i + 1

instance (b : BroadcastTask) (i : Nat) : Decidable (b.Holds i) :=
  inferInstanceAs (Decidable (_ ∧ _))

/-- The broadcast is in the shard of an address that it has yet to visit. -/
def BroadcastTask.Pending [Shards] (b : BroadcastTask) (addr : String) : Prop :=
  b.Holds (Shards.index addr) ∧ b.call.skipAddr ≠ some addr ∧ addr ∉ b.visited

instance [Shards] (b : BroadcastTask) (addr : String) : Decidable (b.Pending addr) :=
  inferInstanceAs (Decidable (_ ∧ _))

/-- The broadcast has left the shard `i`. -/
def BroadcastTask.Passed (b : BroadcastTask) (i : Nat) : Prop :=
  b.finished = true ∨ i + 1 < b.shards

namespace Hub

def new : Hub := ⟨∅, [], [], []⟩

/-- A later subscriber under the same address takes the place of the earlier one. -/
def addSubscriber (h : Hub) (peerAddr : String) : Hub :=
  { h with
    subscribers := h.subscribers.insert peerAddr h.subscriptions.length
    subscriptions := h.subscriptions ++
      [⟨peerAddr, h.broadcasts.length, [], none, none, [], true⟩] }

/-- The task `k` removes the entry under its address. -/
def removeSubscriber (h : Hub) (peerAddr : String) (k : Nat) : Hub :=
  { h with
    subscribers := h.subscribers.erase peerAddr
    removed := h.removed ++ ((h.subscribers.lookup peerAddr).map fun entry => (entry, k)).toList }

/-- The broadcast `j` puts its item on the channel of the subscription `k`. -/
def send (h : Hub) (j : Nat) (addr : String) (k : Nat) (p : Parcel) : Hub :=
  { h with
    subscriptions :=
      h.subscriptions.modify k fun sub => { sub with queued := sub.queued ++ [p], buffer := some p }
    broadcasts := h.broadcasts.modify j fun b => { b with visited := addr :: b.visited } }

variable [Shards]

/-- No broadcast holds the guard of the shard of an address. -/
def Free (h : Hub) (addr : String) : Prop :=
  ∀ b ∈ h.broadcasts, ¬ b.Holds (Shards.index addr)

instance (h : Hub) (addr : String) : Decidable (h.Free addr) :=
  inferInstanceAs (Decidable (∀ b ∈ h.broadcasts, _))

/-- The broadcast is through with the shard that it is in. -/
def Served (h : Hub) (b : BroadcastTask) : Prop :=
  ∀ addr ∈ h.subscribers.keys, ¬ b.Pending addr

instance (h : Hub) (b : BroadcastTask) : Decidable (h.Served b) :=
  inferInstanceAs (Decidable (∀ addr ∈ h.subscribers.keys, _))

/-- One event, if it can happen. -/
def step (h : Hub) : HubEvent → Option Hub
  | .subscribe addr => if h.Free addr then some (h.addSubscriber addr) else none
  | .close k =>
      some { h with
        subscriptions := h.subscriptions.modify k fun sub => { sub with isOpen := false } }
  | .broadcast call => some { h with broadcasts := h.broadcasts ++ [⟨call, 0, [], false⟩] }
  | .lock j => do
      let b ← h.broadcasts[j]?
      if b.finished = false ∧ b.shards < Shards.count ∧ h.Served b then
        some { h with
          broadcasts := h.broadcasts.modify j fun b => { b with shards := b.shards + 1 } }
      else none
  | .visit j addr => do
      let b ← h.broadcasts[j]?
      let k ← h.subscribers.lookup addr
      let sub ← h.subscriptions[k]?
      -- the item is not sent back to its originator, and a send waits for room
      if b.Pending addr ∧ sub.buffer = none then some (h.send j addr k ⟨j, b.call.item⟩)
      else none
  | .finish j => do
      let b ← h.broadcasts[j]?
      if b.finished = false ∧ b.shards = Shards.count ∧ h.Served b then
        some { h with broadcasts := h.broadcasts.modify j fun b => { b with finished := true } }
      else none
  | .receive k => do
      let sub ← h.subscriptions[k]?
      let p ← sub.buffer
      if sub.hand = none then
        some { h with
          subscriptions :=
            h.subscriptions.modify k fun sub => { sub with buffer := none, hand := some p } }
      else none
  | .forward k => do
      let sub ← h.subscriptions[k]?
      let p ← sub.hand
      if sub.isOpen then
        some { h with
          subscriptions := h.subscriptions.modify k fun sub =>
            { sub with hand := none, stream := sub.stream ++ [p] } }
      else if h.Free sub.addr then
        -- the failed item is lost, and the task goes on with its channel
        let lost := h.subscriptions.modify k fun sub => { sub with hand := none }
        some ({ h with subscriptions := lost }.removeSubscriber sub.addr k)
      else none

/-- The hubs reached from an empty one by events that meet `C`. -/
abbrev ReachedBy (C : Hub → HubEvent → Prop) : Hub → Prop := Machine.Reach Hub.step C Hub.new

abbrev Reached : Hub → Prop := Machine.Reachable Hub.step Hub.new

end Hub

/-! ### What one step does -/

/-- Nothing is lost on an open subscription: what was put on the channel is on
the stream, in the hand of the task or still on the channel. -/
def Subscription.Flows (sub : Subscription) : Prop :=
  sub.isOpen = true → sub.queued = sub.stream ++ sub.hand.toList ++ sub.buffer.toList

theorem getElem?_concat_eq_some_iff {α : Type*} {l : List α} {x y : α} {k : Nat} :
    (l ++ [x])[k]? = some y ↔ l[k]? = some y ∨ k = l.length ∧ x = y := by
  rcases lt_trichotomy k l.length with hlt | rfl | hgt
  · simp [List.getElem?_append_left hlt, hlt.ne]
  · simp
  · have hnone : l[k]? = none := List.getElem?_eq_none hgt.le
    have hnone' : (l ++ [x])[k]? = none := List.getElem?_eq_none (by simp; omega)
    simp [hnone, hnone', hgt.ne']

/-- An element of a list after one of its elements was modified. -/
theorem getElem?_modify_eq_some_iff {α : Type*} {l : List α} {f : α → α} {i k : Nat} {y : α} :
    (l.modify i f)[k]? = some y ↔
      ∃ x, l[k]? = some x ∧ (i = k ∧ f x = y ∨ i ≠ k ∧ x = y) := by
  rw [List.getElem?_modify, Option.map_eq_map, Option.map_eq_some_iff]
  by_cases heq : i = k
  · simp [heq]
  · simp [heq]

theorem getElem?_modify_cases {α : Type*} {l : List α} {f : α → α} {i k : Nat} {x y : α}
    (hx : l[k]? = some x) (hy : (l.modify i f)[k]? = some y) :
    i = k ∧ y = f x ∨ i ≠ k ∧ y = x := by
  obtain ⟨x', hx', hcases⟩ := getElem?_modify_eq_some_iff.mp hy
  obtain rfl := Option.some.inj (hx.symm.trans hx')
  exact hcases.imp (And.imp_right Eq.symm) (And.imp_right Eq.symm)

namespace Hub

variable [Shards] {h t : Hub} {e : HubEvent}

theorem step_subscribe_iff {addr : String} :
    h.step (.subscribe addr) = some t ↔ h.Free addr ∧ t = h.addSubscriber addr := by
  rw [step, Option.ite_none_right_eq_some, Option.some.injEq, eq_comm]

theorem step_lock_iff {j : Nat} :
    h.step (.lock j) = some t ↔
      ∃ b, h.broadcasts[j]? = some b ∧ b.finished = false ∧ b.shards < Shards.count ∧
        h.Served b ∧ t = { h with
          broadcasts := h.broadcasts.modify j fun b => { b with shards := b.shards + 1 } } := by
  simp only [step, Option.bind_eq_bind, Option.bind_eq_some_iff, Option.ite_none_right_eq_some,
    Option.some.injEq]
  constructor
  · rintro ⟨b, hb, ⟨hunder, hmore, hserved⟩, rfl⟩
    exact ⟨b, hb, hunder, hmore, hserved, rfl⟩
  · rintro ⟨b, hb, hunder, hmore, hserved, rfl⟩
    exact ⟨b, hb, ⟨hunder, hmore, hserved⟩, rfl⟩

theorem step_visit_iff {j : Nat} {addr : String} :
    h.step (.visit j addr) = some t ↔
      ∃ b k sub, h.broadcasts[j]? = some b ∧ h.subscribers.lookup addr = some k ∧
        h.subscriptions[k]? = some sub ∧ b.Pending addr ∧ sub.buffer = none ∧
        t = h.send j addr k ⟨j, b.call.item⟩ := by
  simp only [step, Option.bind_eq_bind, Option.bind_eq_some_iff, Option.ite_none_right_eq_some,
    Option.some.injEq]
  constructor
  · rintro ⟨b, hb, k, hk, sub, hsub, ⟨hpending, hroom⟩, rfl⟩
    exact ⟨b, k, sub, hb, hk, hsub, hpending, hroom, rfl⟩
  · rintro ⟨b, k, sub, hb, hk, hsub, hpending, hroom, rfl⟩
    exact ⟨b, hb, k, hk, sub, hsub, ⟨hpending, hroom⟩, rfl⟩

theorem step_finish_iff {j : Nat} :
    h.step (.finish j) = some t ↔
      ∃ b, h.broadcasts[j]? = some b ∧ b.finished = false ∧ b.shards = Shards.count ∧
        h.Served b ∧ t = { h with
          broadcasts := h.broadcasts.modify j fun b => { b with finished := true } } := by
  simp only [step, Option.bind_eq_bind, Option.bind_eq_some_iff, Option.ite_none_right_eq_some,
    Option.some.injEq]
  constructor
  · rintro ⟨b, hb, ⟨hunder, hlast, hserved⟩, rfl⟩
    exact ⟨b, hb, hunder, hlast, hserved, rfl⟩
  · rintro ⟨b, hb, hunder, hlast, hserved, rfl⟩
    exact ⟨b, hb, ⟨hunder, hlast, hserved⟩, rfl⟩

theorem step_receive_iff {k : Nat} :
    h.step (.receive k) = some t ↔
      ∃ sub p, h.subscriptions[k]? = some sub ∧ sub.buffer = some p ∧ sub.hand = none ∧
        t = { h with
          subscriptions :=
            h.subscriptions.modify k fun sub => { sub with buffer := none, hand := some p } } := by
  simp only [step, Option.bind_eq_bind, Option.bind_eq_some_iff, Option.ite_none_right_eq_some,
    Option.some.injEq]
  constructor
  · rintro ⟨sub, hsub, p, hp, hfree, rfl⟩
    exact ⟨sub, p, hsub, hp, hfree, rfl⟩
  · rintro ⟨sub, p, hsub, hp, hfree, rfl⟩
    exact ⟨sub, hsub, p, hp, hfree, rfl⟩

/-- A task sends its item to an open stream, or loses it and removes the entry
under its address. -/
theorem step_forward_cases {k : Nat} (next : h.step (.forward k) = some t) :
    ∃ sub p, h.subscriptions[k]? = some sub ∧ sub.hand = some p ∧
      ((sub.isOpen = true ∧
          t = { h with
            subscriptions := h.subscriptions.modify k fun sub =>
              { sub with hand := none, stream := sub.stream ++ [p] } }) ∨
        (sub.isOpen = false ∧ h.Free sub.addr ∧
          t = { h with
            subscriptions := h.subscriptions.modify k fun sub =>
              { sub with hand := none } }.removeSubscriber sub.addr k)) := by
  simp only [step, Option.bind_eq_bind, Option.bind_eq_some_iff] at next
  obtain ⟨sub, hsub, p, hp, hstep⟩ := next
  refine ⟨sub, p, hsub, hp, ?_⟩
  cases hopen : sub.isOpen with
  | true =>
      rw [hopen] at hstep
      exact Or.inl ⟨rfl, (Option.some.inj hstep).symm⟩
  | false =>
      rw [hopen, if_neg Bool.false_ne_true] at hstep
      obtain ⟨hfree, heq⟩ := Option.ite_none_right_eq_some.mp hstep
      exact Or.inr ⟨rfl, hfree, (Option.some.inj heq).symm⟩

/-- What an event leaves of the subscription `k`. -/
inductive Moves (h : Hub) (k : Nat) (sub : Subscription) : HubEvent → Subscription → Prop
  | keeps (e : HubEvent)
      (elsewhere : ∀ j addr, e = .visit j addr → h.subscribers.lookup addr ≠ some k) :
      Moves h k sub e sub
  | closes : Moves h k sub (.close k) { sub with isOpen := false }
  | queues (j : Nat) (addr : String) (b : BroadcastTask)
      (entry : h.subscribers.lookup addr = some k) (broadcast : h.broadcasts[j]? = some b)
      (pending : b.Pending addr) (room : sub.buffer = none) :
      Moves h k sub (.visit j addr)
        { sub with queued := sub.queued ++ [⟨j, b.call.item⟩], buffer := some ⟨j, b.call.item⟩ }
  | receives (p : Parcel) (buffered : sub.buffer = some p) (free : sub.hand = none) :
      Moves h k sub (.receive k) { sub with buffer := none, hand := some p }
  | sends (p : Parcel) (held : sub.hand = some p) (isOpen : sub.isOpen = true) :
      Moves h k sub (.forward k) { sub with hand := none, stream := sub.stream ++ [p] }
  | drops (p : Parcel) (held : sub.hand = some p) (closed : sub.isOpen = false)
      (free : h.Free sub.addr) : Moves h k sub (.forward k) { sub with hand := none }

namespace Moves

variable {k : Nat} {sub sub' : Subscription}

theorem addr_eq (moves : h.Moves k sub e sub') : sub'.addr = sub.addr := by
  cases moves <;> rfl

theorem since_eq (moves : h.Moves k sub e sub') : sub'.since = sub.since := by
  cases moves <;> rfl

theorem queued_isPrefix (moves : h.Moves k sub e sub') : sub.queued <+: sub'.queued := by
  cases moves with
  | queues => exact List.prefix_append _ _
  | _ => exact List.prefix_refl _

theorem isOpen (moves : h.Moves k sub e sub') (hopen : sub'.isOpen = true) :
    sub.isOpen = true := by
  cases moves with
  | closes => cases hopen
  | _ => exact hopen

theorem flows (moves : h.Moves k sub e sub') (flows : sub.Flows) : sub'.Flows := by
  intro hopen
  have hflow := flows (moves.isOpen hopen)
  cases moves with
  | keeps => exact hflow
  | closes => cases hopen
  | queues j addr b entry broadcast pending room => simp [hflow, room]
  | receives p buffered free => simp [hflow, buffered, free]
  | sends p held => simp [hflow, held]
  | drops p held closed => exact absurd hopen (by simp [closed])

end Moves

/-- A step adds a subscription, or moves one of them on. -/
theorem step_subscriptions (next : h.step e = some t) :
    (∃ addr, e = .subscribe addr ∧ t = h.addSubscriber addr) ∨
      (∀ addr, e ≠ .subscribe addr) ∧
        ∃ k f, t.subscriptions = h.subscriptions.modify k f ∧
          (∀ sub, h.subscriptions[k]? = some sub → h.Moves k sub e (f sub)) ∧
          ∀ j addr, e = .visit j addr → h.subscribers.lookup addr = some k := by
  have hkept (hother : ∀ j addr, e ≠ .visit j addr) (hsame : t.subscriptions = h.subscriptions) :
      ∃ k f, t.subscriptions = h.subscriptions.modify k f ∧
        (∀ sub, h.subscriptions[k]? = some sub → h.Moves k sub e (f sub)) ∧
        ∀ j addr, e = .visit j addr → h.subscribers.lookup addr = some k :=
    ⟨0, id, by rw [hsame, List.modify_id],
      fun sub _ => .keeps e fun j addr he => absurd he (hother j addr),
      fun j addr he => absurd he (hother j addr)⟩
  cases e with
  | subscribe addr => exact Or.inl ⟨addr, rfl, (step_subscribe_iff.mp next).2⟩
  | close k =>
      obtain rfl := Option.some.inj next
      exact Or.inr ⟨by simp, k, _, rfl, fun sub _ => .closes, by simp⟩
  | broadcast call =>
      obtain rfl := Option.some.inj next
      exact Or.inr ⟨by simp, hkept (by simp) rfl⟩
  | lock j =>
      obtain ⟨b, -, -, -, -, rfl⟩ := step_lock_iff.mp next
      exact Or.inr ⟨by simp, hkept (by simp) rfl⟩
  | visit j addr =>
      obtain ⟨b, k, sub, hb, hk, hsub, hpending, hroom, rfl⟩ := step_visit_iff.mp next
      refine Or.inr ⟨by simp, k, _, rfl, fun sub' hsub' => ?_, ?_⟩
      · obtain rfl := Option.some.inj (hsub.symm.trans hsub')
        exact .queues j addr b hk hb hpending hroom
      · rintro _ _ ⟨⟩
        exact hk
  | finish j =>
      obtain ⟨b, -, -, -, -, rfl⟩ := step_finish_iff.mp next
      exact Or.inr ⟨by simp, hkept (by simp) rfl⟩
  | receive k =>
      obtain ⟨sub, p, hsub, hbuffer, hfree, rfl⟩ := step_receive_iff.mp next
      refine Or.inr ⟨by simp, k, _, rfl, fun sub' hsub' => ?_, by simp⟩
      obtain rfl := Option.some.inj (hsub.symm.trans hsub')
      exact .receives p hbuffer hfree
  | forward k =>
      obtain ⟨sub, p, hsub, hheld, ⟨hopen, rfl⟩ | ⟨hclosed, hfree, rfl⟩⟩ :=
        step_forward_cases next
      · refine Or.inr ⟨by simp, k, _, rfl, fun sub' hsub' => ?_, by simp⟩
        obtain rfl := Option.some.inj (hsub.symm.trans hsub')
        exact .sends p hheld hopen
      · refine Or.inr ⟨by simp, k, _, rfl, fun sub' hsub' => ?_, by simp⟩
        obtain rfl := Option.some.inj (hsub.symm.trans hsub')
        exact .drops p hheld hclosed hfree

/-- Subscriptions stay where they are. -/
theorem step_subscription_stays (next : h.step e = some t) {k : Nat} {sub : Subscription}
    (hk : h.subscriptions[k]? = some sub) :
    ∃ sub', t.subscriptions[k]? = some sub' ∧ h.Moves k sub e sub' := by
  rcases step_subscriptions next with ⟨addr, rfl, rfl⟩ | ⟨-, i, f, hsubs, hmoves, hvisit⟩
  · have hlt : k < h.subscriptions.length := (List.getElem?_eq_some_iff.mp hk).1
    exact ⟨sub, by rw [addSubscriber, List.getElem?_append_left hlt, hk], .keeps _ (by simp)⟩
  · rw [hsubs]
    by_cases heq : i = k
    · subst heq
      exact ⟨f sub, getElem?_modify_eq_some_iff.mpr ⟨sub, hk, Or.inl ⟨rfl, rfl⟩⟩, hmoves sub hk⟩
    · refine ⟨sub, getElem?_modify_eq_some_iff.mpr ⟨sub, hk, Or.inr ⟨heq, rfl⟩⟩, .keeps e ?_⟩
      exact fun j addr he hentry => heq (Option.some.inj ((hvisit j addr he).symm.trans hentry))

/-- Where a subscription after a step comes from. -/
theorem step_subscription (next : h.step e = some t) {k : Nat} {sub' : Subscription}
    (hk : t.subscriptions[k]? = some sub') :
    (e = .subscribe sub'.addr ∧ k = h.subscriptions.length ∧
        sub' = ⟨sub'.addr, h.broadcasts.length, [], none, none, [], true⟩) ∨
      ∃ sub, h.subscriptions[k]? = some sub ∧ h.Moves k sub e sub' := by
  have hold {sub : Subscription} (hsub : h.subscriptions[k]? = some sub) :
      ∃ sub, h.subscriptions[k]? = some sub ∧ h.Moves k sub e sub' := by
    obtain ⟨moved, hmoved, hmoves⟩ := step_subscription_stays next hsub
    obtain rfl := Option.some.inj (hk.symm.trans hmoved)
    exact ⟨sub, hsub, hmoves⟩
  rcases step_subscriptions next with ⟨addr, rfl, rfl⟩ | ⟨-, i, f, hsubs, -, -⟩
  · rcases getElem?_concat_eq_some_iff.mp hk with hk' | ⟨hlen, rfl⟩
    · exact Or.inr (hold hk')
    · exact Or.inl ⟨rfl, hlen, rfl⟩
  · rw [hsubs] at hk
    obtain ⟨sub, hsub, -⟩ := getElem?_modify_eq_some_iff.mp hk
    exact Or.inr (hold hsub)

/-- A step stores a new sender, removes the entry under the address of a task
whose send fails, or leaves the map alone. -/
theorem step_subscribers (next : h.step e = some t) :
    (∃ addr, e = .subscribe addr ∧ h.Free addr ∧ t = h.addSubscriber addr) ∨
      (∃ k sub, e = .forward k ∧ h.subscriptions[k]? = some sub ∧ sub.hand.isSome = true ∧
        sub.isOpen = false ∧ h.Free sub.addr ∧
        t.subscribers = h.subscribers.erase sub.addr ∧
        t.removed = h.removed ++
          ((h.subscribers.lookup sub.addr).map fun entry => (entry, k)).toList) ∨
      ((∀ addr, e ≠ .subscribe addr) ∧
        (∀ k sub, e = .forward k → h.subscriptions[k]? = some sub → sub.isOpen = true) ∧
        t.subscribers = h.subscribers ∧ t.removed = h.removed) := by
  cases e with
  | subscribe addr => exact Or.inl ⟨addr, rfl, step_subscribe_iff.mp next⟩
  | close k =>
      obtain rfl := Option.some.inj next
      exact Or.inr (Or.inr ⟨by simp, by simp, rfl, rfl⟩)
  | broadcast call =>
      obtain rfl := Option.some.inj next
      exact Or.inr (Or.inr ⟨by simp, by simp, rfl, rfl⟩)
  | lock j =>
      obtain ⟨b, -, -, -, -, rfl⟩ := step_lock_iff.mp next
      exact Or.inr (Or.inr ⟨by simp, by simp, rfl, rfl⟩)
  | visit j addr =>
      obtain ⟨b, k, sub, -, -, -, -, -, rfl⟩ := step_visit_iff.mp next
      exact Or.inr (Or.inr ⟨by simp, by simp, rfl, rfl⟩)
  | finish j =>
      obtain ⟨b, -, -, -, -, rfl⟩ := step_finish_iff.mp next
      exact Or.inr (Or.inr ⟨by simp, by simp, rfl, rfl⟩)
  | receive k =>
      obtain ⟨sub, p, -, -, -, rfl⟩ := step_receive_iff.mp next
      exact Or.inr (Or.inr ⟨by simp, by simp, rfl, rfl⟩)
  | forward k =>
      obtain ⟨sub, p, hsub, hheld, ⟨hopen, rfl⟩ | ⟨hclosed, hfree, rfl⟩⟩ :=
        step_forward_cases next
      · refine Or.inr (Or.inr ⟨by simp, ?_, rfl, rfl⟩)
        rintro _ sub' ⟨⟩ hsub'
        obtain rfl := Option.some.inj (hsub.symm.trans hsub')
        exact hopen
      · exact Or.inr (Or.inl ⟨k, sub, rfl, hsub, by simp [hheld], hclosed, hfree, rfl, rfl⟩)

/-- An entry is new, or was there before under an address that is not subscribed anew. -/
theorem step_lookup (next : h.step e = some t) {addr : String} {k : Nat}
    (hk : t.subscribers.lookup addr = some k) :
    (e = .subscribe addr ∧ k = h.subscriptions.length) ∨
      e ≠ .subscribe addr ∧ h.subscribers.lookup addr = some k := by
  rcases step_subscribers next with ⟨a, rfl, -, rfl⟩ | ⟨i, sub, rfl, -, -, -, -, hmap, -⟩ |
    ⟨hother, -, hmap, -⟩
  · by_cases ha : addr = a
    · subst ha
      exact Or.inl ⟨rfl, by simpa [addSubscriber, eq_comm] using hk⟩
    · refine Or.inr ⟨by simpa [eq_comm] using ha, ?_⟩
      rwa [addSubscriber, Finmap.lookup_insert_of_ne _ ha] at hk
  · rw [hmap] at hk
    refine Or.inr ⟨by simp, ?_⟩
    by_cases ha : addr = sub.addr
    · subst ha
      simp at hk
    · rwa [Finmap.lookup_erase_ne ha] at hk
  · exact Or.inr ⟨hother addr, hmap ▸ hk⟩

/-- While a broadcast is in the shard of an address, the entry stays. -/
theorem lookup_step (next : h.step e = some t) {addr : String} (held : ¬ h.Free addr)
    {k : Nat} (hk : h.subscribers.lookup addr = some k) :
    t.subscribers.lookup addr = some k := by
  rcases step_subscribers next with ⟨a, rfl, hfree, rfl⟩ |
    ⟨i, sub, rfl, -, -, -, hfree, hmap, -⟩ | ⟨-, -, hmap, -⟩
  · have ha : addr ≠ a := fun heq => held (heq ▸ hfree)
    rwa [addSubscriber, Finmap.lookup_insert_of_ne _ ha]
  · have ha : addr ≠ sub.addr := fun heq => held (heq ▸ hfree)
    rwa [hmap, Finmap.lookup_erase_ne ha]
  · rwa [hmap]

/-- What an event leaves of the broadcast `j`. -/
inductive Advances (h : Hub) (j : Nat) (b : BroadcastTask) : HubEvent → BroadcastTask → Prop
  | stays (e : HubEvent) : Advances h j b e b
  | locks (under : b.finished = false) (more : b.shards < Shards.count) (served : h.Served b) :
      Advances h j b (.lock j) { b with shards := b.shards + 1 }
  | visits (addr : String) (pending : b.Pending addr) :
      Advances h j b (.visit j addr) { b with visited := addr :: b.visited }
  | finishes (under : b.finished = false) (last : b.shards = Shards.count) (served : h.Served b) :
      Advances h j b (.finish j) { b with finished := true }

namespace Advances

variable {j : Nat} {b b' : BroadcastTask}

theorem call_eq (advances : h.Advances j b e b') : b'.call = b.call := by
  cases advances <;> rfl

theorem finished (advances : h.Advances j b e b') (hb : b.finished = true) :
    b'.finished = true := by
  cases advances with
  | finishes => rfl
  | _ => exact hb

theorem visited_subset (advances : h.Advances j b e b') : b.visited ⊆ b'.visited := by
  cases advances with
  | visits addr => exact List.subset_cons_self _ _
  | _ => exact fun _ ha => ha

theorem mem_visited (advances : h.Advances j b e b') {addr : String}
    (ha : addr ∈ b'.visited) : addr ∈ b.visited ∨ e = .visit j addr := by
  cases advances with
  | visits =>
      rcases List.mem_cons.mp ha with rfl | hold
      · exact Or.inr rfl
      · exact Or.inl hold
  | _ => exact Or.inl ha

/-- A broadcast leaves a shard when it is through with it. -/
theorem passed (advances : h.Advances j b e b') {addr : String}
    (hpassed : b'.Passed (Shards.index addr)) :
    b.Passed (Shards.index addr) ∨ h.Served b ∧ b.Holds (Shards.index addr) := by
  have hlt := (Shards.index addr).isLt
  cases advances with
  | stays => exact Or.inl hpassed
  | visits => exact Or.inl hpassed
  | locks under more served =>
      rcases hpassed with hfinished | hbehind
      · exact Or.inl (Or.inl hfinished)
      · dsimp only at hbehind
        rcases Nat.lt_succ_iff_lt_or_eq.mp hbehind with hlt' | heq
        · exact Or.inl (Or.inr hlt')
        · exact Or.inr ⟨served, under, heq.symm⟩
  | finishes under last served =>
      rcases Nat.lt_or_eq_of_le (Nat.succ_le_of_lt hlt) with hlt' | heq
      · exact Or.inl (Or.inr (hlt'.trans_eq last.symm))
      · exact Or.inr ⟨served, under, last.trans heq.symm⟩

end Advances

/-- A step begins a broadcast, or moves one of them on. -/
theorem step_broadcasts (next : h.step e = some t) :
    (∃ call, e = .broadcast call ∧ t.broadcasts = h.broadcasts ++ [⟨call, 0, [], false⟩]) ∨
      (∀ call, e ≠ .broadcast call) ∧
        ∃ j f, t.broadcasts = h.broadcasts.modify j f ∧
          ∀ b, h.broadcasts[j]? = some b → h.Advances j b e (f b) := by
  have hkept (hsame : t.broadcasts = h.broadcasts) :
      ∃ j f, t.broadcasts = h.broadcasts.modify j f ∧
        ∀ b, h.broadcasts[j]? = some b → h.Advances j b e (f b) :=
    ⟨0, id, by rw [hsame, List.modify_id], fun b _ => .stays e⟩
  cases e with
  | subscribe addr =>
      obtain ⟨-, rfl⟩ := step_subscribe_iff.mp next
      exact Or.inr ⟨by simp, hkept rfl⟩
  | close k =>
      obtain rfl := Option.some.inj next
      exact Or.inr ⟨by simp, hkept rfl⟩
  | broadcast call =>
      obtain rfl := Option.some.inj next
      exact Or.inl ⟨call, rfl, rfl⟩
  | lock j =>
      obtain ⟨b, hb, hunder, hmore, hserved, rfl⟩ := step_lock_iff.mp next
      refine Or.inr ⟨by simp, j, _, rfl, fun b' hb' => ?_⟩
      obtain rfl := Option.some.inj (hb.symm.trans hb')
      exact .locks hunder hmore hserved
  | visit j addr =>
      obtain ⟨b, k, sub, hb, -, -, hpending, -, rfl⟩ := step_visit_iff.mp next
      refine Or.inr ⟨by simp, j, _, rfl, fun b' hb' => ?_⟩
      obtain rfl := Option.some.inj (hb.symm.trans hb')
      exact .visits addr hpending
  | finish j =>
      obtain ⟨b, hb, hunder, hlast, hserved, rfl⟩ := step_finish_iff.mp next
      refine Or.inr ⟨by simp, j, _, rfl, fun b' hb' => ?_⟩
      obtain rfl := Option.some.inj (hb.symm.trans hb')
      exact .finishes hunder hlast hserved
  | receive k =>
      obtain ⟨sub, p, -, -, -, rfl⟩ := step_receive_iff.mp next
      exact Or.inr ⟨by simp, hkept rfl⟩
  | forward k =>
      obtain ⟨sub, p, -, -, ⟨-, rfl⟩ | ⟨-, -, rfl⟩⟩ := step_forward_cases next
      · exact Or.inr ⟨by simp, hkept rfl⟩
      · exact Or.inr ⟨by simp, hkept rfl⟩

/-- Where a broadcast after a step comes from. -/
theorem step_broadcast (next : h.step e = some t) {j : Nat} {b' : BroadcastTask}
    (hj : t.broadcasts[j]? = some b') :
    (e = .broadcast b'.call ∧ j = h.broadcasts.length ∧ b' = ⟨b'.call, 0, [], false⟩) ∨
      ∃ b, h.broadcasts[j]? = some b ∧ h.Advances j b e b' := by
  rcases step_broadcasts next with ⟨call, rfl, hbegins⟩ | ⟨-, i, f, hmodify, hadvances⟩
  · rw [hbegins] at hj
    rcases getElem?_concat_eq_some_iff.mp hj with hold | ⟨hlen, rfl⟩
    · exact Or.inr ⟨b', hold, .stays _⟩
    · exact Or.inl ⟨rfl, hlen, rfl⟩
  · rw [hmodify] at hj
    obtain ⟨b, hb, ⟨rfl, rfl⟩ | ⟨-, rfl⟩⟩ := getElem?_modify_eq_some_iff.mp hj
    · exact Or.inr ⟨b, hb, hadvances b hb⟩
    · exact Or.inr ⟨b, hb, .stays _⟩

/-- Broadcasts stay where they are. -/
theorem step_broadcast_stays (next : h.step e = some t) {j : Nat} {b : BroadcastTask}
    (hj : h.broadcasts[j]? = some b) :
    ∃ b', t.broadcasts[j]? = some b' ∧ h.Advances j b e b' := by
  rcases step_broadcasts next with ⟨call, rfl, hbegins⟩ | ⟨-, i, f, hmodify, hadvances⟩
  · have hlt : j < h.broadcasts.length := (List.getElem?_eq_some_iff.mp hj).1
    exact ⟨b, by rw [hbegins, List.getElem?_append_left hlt, hj], .stays _⟩
  · rw [hmodify]
    by_cases heq : i = j
    · subst heq
      exact ⟨f b, getElem?_modify_eq_some_iff.mpr ⟨b, hj, Or.inl ⟨rfl, rfl⟩⟩, hadvances b hj⟩
    · exact ⟨b, getElem?_modify_eq_some_iff.mpr ⟨b, hj, Or.inr ⟨heq, rfl⟩⟩, .stays _⟩

/-- A visited entry is visited where the broadcast goes on. -/
theorem visited_step_visit {j : Nat} {addr : String} (next : h.step (.visit j addr) = some t)
    {b' : BroadcastTask} (hj : t.broadcasts[j]? = some b') : addr ∈ b'.visited := by
  obtain ⟨b, k, sub, hb, -, -, -, -, rfl⟩ := step_visit_iff.mp next
  rcases getElem?_modify_cases hb hj with ⟨-, rfl⟩ | ⟨hne, -⟩
  · exact List.mem_cons_self
  · exact absurd rfl hne

/-- The calls of `broadcast` so far. -/
def calls (h : Hub) : List Broadcast := h.broadcasts.map BroadcastTask.call

omit [Shards] in
theorem calls_getElem? {j : Nat} : h.calls[j]? = (h.broadcasts[j]?).map BroadcastTask.call :=
  List.getElem?_map

/-- The call that begins with the event. -/
def begins : HubEvent → List Broadcast
  | .broadcast call => [call]
  | _ => []

theorem calls_step (next : h.step e = some t) : t.calls = h.calls ++ begins e := by
  rcases step_broadcasts next with ⟨call, rfl, hbegins⟩ | ⟨hother, j, f, hmodify, hadvances⟩
  · rw [calls, hbegins, List.map_append]
    rfl
  · have hnone : begins e = [] := by
      cases e with
      | broadcast call => exact absurd rfl (hother call)
      | _ => rfl
    rw [hnone, List.append_nil]
    apply List.ext_getElem?
    intro i
    rw [calls_getElem?, calls_getElem?, hmodify, List.getElem?_modify, Option.map_eq_map]
    cases hi : h.broadcasts[i]? with
    | none => rfl
    | some b =>
        simp only [Option.map_some, Option.some.injEq]
        split
        · next heq => exact (hadvances b (heq ▸ hi)).call_eq
        · rfl

/-- A step leaves a channel as it is, or a broadcast puts its item on it. -/
theorem Moves.queued_cases {k : Nat} {sub sub' : Subscription} (moves : h.Moves k sub e sub') :
    (sub'.queued = sub.queued ∧
        ∀ j addr, e = .visit j addr → h.subscribers.lookup addr ≠ some k) ∨
      ∃ j addr b, e = .visit j addr ∧ h.subscribers.lookup addr = some k ∧
        h.broadcasts[j]? = some b ∧ b.Pending addr ∧
        sub'.queued = sub.queued ++ [⟨j, b.call.item⟩] := by
  cases moves with
  | keeps e elsewhere => exact Or.inl ⟨rfl, elsewhere⟩
  | queues j addr b entry broadcast pending room =>
      exact Or.inr ⟨j, addr, b, rfl, entry, broadcast, pending, rfl⟩
  | _ => exact Or.inl ⟨rfl, by simp⟩

/-! ### Which subscription an entry belongs to -/

/-- The latest subscription under its address. -/
def Current (h : Hub) (k : Nat) (sub : Subscription) : Prop :=
  h.subscriptions[k]? = some sub ∧
    ∀ k' sub', k < k' → h.subscriptions[k']? = some sub' → sub'.addr ≠ sub.addr

/-- A subscription that is the latest after a step is new, or was the latest before
under an address that is not subscribed anew. -/
theorem Current.of_step (next : h.step e = some t) {k : Nat} {sub' : Subscription}
    (current : t.Current k sub') :
    (e = .subscribe sub'.addr ∧ k = h.subscriptions.length ∧
        sub' = ⟨sub'.addr, h.broadcasts.length, [], none, none, [], true⟩) ∨
      e ≠ .subscribe sub'.addr ∧ ∃ sub, h.Current k sub ∧ h.Moves k sub e sub' := by
  obtain ⟨hk, hlatest⟩ := current
  rcases step_subscription next hk with hnew | ⟨sub, hsub, hmoves⟩
  · exact Or.inl hnew
  · refine Or.inr ⟨?_, sub, ⟨hsub, ?_⟩, hmoves⟩
    · rintro rfl
      obtain ⟨-, rfl⟩ := step_subscribe_iff.mp next
      have hlt : k < h.subscriptions.length := (List.getElem?_eq_some_iff.mp hsub).1
      exact hlatest _ _ hlt List.getElem?_concat_length rfl
    · intro k' sub'' hlt hk' haddr
      obtain ⟨next', hnext', hmoves'⟩ := step_subscription_stays next hk'
      apply hlatest k' next' hlt hnext'
      rw [hmoves'.addr_eq, haddr, hmoves.addr_eq]

/-- The latest subscription stays the latest until its address is subscribed anew. -/
theorem Current.step (next : h.step e = some t) {k : Nat} {sub : Subscription}
    (current : h.Current k sub) (hother : e ≠ .subscribe sub.addr) :
    ∃ sub', t.Current k sub' ∧ h.Moves k sub e sub' := by
  obtain ⟨hk, hlatest⟩ := current
  obtain ⟨sub', hsub', hmoves⟩ := step_subscription_stays next hk
  refine ⟨sub', ⟨hsub', ?_⟩, hmoves⟩
  intro k' sub'' hlt hk'
  rw [hmoves.addr_eq]
  rcases step_subscription next hk' with ⟨heq, -, -⟩ | ⟨old, hold, hmoves'⟩
  · rintro haddr
    exact hother (haddr ▸ heq)
  · rw [hmoves'.addr_eq]
    exact hlatest k' old hlt hold

/-- The sender of the subscription is in the map. -/
def Stored (h : Hub) (k : Nat) (sub : Subscription) : Prop :=
  h.subscriptions[k]? = some sub ∧ h.subscribers.lookup sub.addr = some k

/-- A sender from before a broadcast has been in the map since. -/
theorem Stored.of_since_le (next : h.step e = some t) {k : Nat} {sub' : Subscription}
    (stored : t.Stored k sub') {j : Nat} {b : BroadcastTask} (hj : h.broadcasts[j]? = some b)
    (hsince : sub'.since ≤ j) : ∃ sub, h.Stored k sub ∧ h.Moves k sub e sub' := by
  have hlt : j < h.broadcasts.length := (List.getElem?_eq_some_iff.mp hj).1
  rcases step_subscription next stored.1 with ⟨-, -, hnew⟩ | ⟨sub, hsub, hmoves⟩
  · rw [hnew] at hsince
    exact absurd hsince (Nat.not_le.mpr hlt)
  · rcases step_lookup next stored.2 with ⟨-, rfl⟩ | ⟨-, hlookup⟩
    · exact absurd (List.getElem?_eq_some_iff.mp hsub).1 (lt_irrefl _)
    · rw [hmoves.addr_eq] at hlookup
      exact ⟨sub, ⟨hsub, hlookup⟩, hmoves⟩

/-- An entry belongs to the latest subscription under its address, no subscription
counts broadcasts to come, and what is queued comes from broadcasts that have visited the
entry. A broadcast that began after the subscription of an entry puts its item on the
channel when it visits the entry, and it leaves no shard before it has done so. Open
subscriptions lose nothing, and a broadcast comes to no more shards than there are. -/
structure Consistent (h : Hub) : Prop where
  entry : ∀ addr k, h.subscribers.lookup addr = some k → ∃ sub, h.Current k sub ∧ sub.addr = addr
  since : ∀ sub ∈ h.subscriptions, sub.since ≤ h.calls.length
  parcels : ∀ sub ∈ h.subscriptions, ∀ p ∈ sub.queued,
    ∃ b, h.broadcasts[p.number]? = some b ∧ b.call.item = p.item ∧ sub.addr ∈ b.visited
  queued : ∀ j b k sub, h.broadcasts[j]? = some b → h.Stored k sub → sub.since ≤ j →
    sub.addr ∈ b.visited → ⟨j, b.call.item⟩ ∈ sub.queued
  visited : ∀ j b k sub, h.broadcasts[j]? = some b → h.Stored k sub → sub.since ≤ j →
    b.Passed (Shards.index sub.addr) → b.call.skipAddr ≠ some sub.addr → sub.addr ∈ b.visited
  flows : ∀ sub ∈ h.subscriptions, sub.Flows
  shards : ∀ b ∈ h.broadcasts, b.shards ≤ Shards.count

/-- After a step an entry belongs to the latest subscription under its address. -/
theorem Consistent.entry_step (consistent : h.Consistent) (next : h.step e = some t)
    {addr : String} {k : Nat} (hk : t.subscribers.lookup addr = some k) :
    ∃ sub, t.Current k sub ∧ sub.addr = addr := by
  rcases step_lookup next hk with ⟨rfl, rfl⟩ | ⟨hother, hold⟩
  · obtain ⟨-, rfl⟩ := step_subscribe_iff.mp next
    refine ⟨_, ⟨List.getElem?_concat_length, fun k' sub' hlt hk' => ?_⟩, rfl⟩
    have hlen := (List.getElem?_eq_some_iff.mp hk').1
    rw [addSubscriber, List.length_append, List.length_singleton] at hlen
    omega
  · obtain ⟨sub, current, rfl⟩ := consistent.entry addr k hold
    obtain ⟨sub', current', hmoves⟩ := current.step next hother
    exact ⟨sub', current', hmoves.addr_eq⟩

/-- A parcel that a step leaves on a channel comes from a broadcast that has been there. -/
theorem Consistent.parcels_step (consistent : h.Consistent) (next : h.step e = some t) {k : Nat}
    {sub sub' : Subscription} (hsub : h.subscriptions[k]? = some sub)
    (moves : h.Moves k sub e sub') {p : Parcel} (hp : p ∈ sub'.queued) :
    ∃ b, t.broadcasts[p.number]? = some b ∧ b.call.item = p.item ∧ sub.addr ∈ b.visited := by
  have hold : ∀ q ∈ sub.queued, ∃ b, t.broadcasts[q.number]? = some b ∧
      b.call.item = q.item ∧ sub.addr ∈ b.visited := by
    intro q hq
    obtain ⟨b, hb, hitem, hvisited⟩ :=
      consistent.parcels sub (List.mem_of_getElem? hsub) q hq
    obtain ⟨b', hb', hadvances⟩ := step_broadcast_stays next hb
    exact ⟨b', hb', by rw [hadvances.call_eq, hitem], hadvances.visited_subset hvisited⟩
  rcases moves.queued_cases with ⟨hsame, -⟩ | ⟨j, addr, b, rfl, hentry, hb, -, hqueued⟩
  · exact hold p (hsame ▸ hp)
  · rw [hqueued] at hp
    rcases List.mem_append.mp hp with hp | hp
    · exact hold p hp
    · obtain rfl := List.mem_singleton.mp hp
      obtain ⟨b', hb', hadvances⟩ := step_broadcast_stays next hb
      obtain ⟨owner, current, rfl⟩ := consistent.entry addr k hentry
      obtain rfl := Option.some.inj (hsub.symm.trans current.1)
      exact ⟨b', hb', by rw [hadvances.call_eq], visited_step_visit next hb'⟩

/-- After a step the item of a broadcast is queued where the broadcast has been. -/
theorem Consistent.queued_step (consistent : h.Consistent) {j k : Nat} {b b' : BroadcastTask}
    {sub sub' : Subscription} (hb : h.broadcasts[j]? = some b) (advances : h.Advances j b e b')
    (stored : h.Stored k sub) (moves : h.Moves k sub e sub') (hsince : sub.since ≤ j)
    (hvisited : sub.addr ∈ b'.visited) : ⟨j, b'.call.item⟩ ∈ sub'.queued := by
  rw [advances.call_eq]
  rcases advances.mem_visited hvisited with hold | rfl
  · exact moves.queued_isPrefix.subset (consistent.queued j b k sub hb stored hsince hold)
  · -- the broadcast has just visited this subscription
    rcases moves.queued_cases with ⟨-, hother⟩ | ⟨_, _, b₀, ⟨⟩, -, hb₀, -, hqueued⟩
    · exact absurd stored.2 (hother j sub.addr rfl)
    · obtain rfl := Option.some.inj (hb₀.symm.trans hb)
      rw [hqueued]
      exact List.mem_append_right _ (List.mem_singleton_self _)

/-- After a step a broadcast has been at the entries of the shards that it has left. -/
theorem Consistent.visited_step (consistent : h.Consistent) {j k : Nat} {b b' : BroadcastTask}
    {sub : Subscription} (hb : h.broadcasts[j]? = some b) (advances : h.Advances j b e b')
    (stored : h.Stored k sub) (hsince : sub.since ≤ j)
    (hpassed : b'.Passed (Shards.index sub.addr)) (hskip : b'.call.skipAddr ≠ some sub.addr) :
    sub.addr ∈ b'.visited := by
  rw [advances.call_eq] at hskip
  apply advances.visited_subset
  rcases advances.passed hpassed with hold | ⟨hserved, hholds⟩
  · exact consistent.visited j b k sub hb stored hsince hold hskip
  · by_contra hunvisited
    exact hserved sub.addr (Finmap.mem_keys.mpr (Finmap.mem_of_lookup_eq_some stored.2))
      ⟨hholds, hskip, hunvisited⟩

theorem Consistent.step (consistent : h.Consistent) (next : h.step e = some t) :
    t.Consistent where
  entry addr k hk := consistent.entry_step next hk
  since sub' hsub' := by
    obtain ⟨k, hk⟩ := List.mem_iff_getElem?.mp hsub'
    have hle : h.calls.length ≤ t.calls.length := by simp [calls_step next]
    refine le_trans ?_ hle
    rcases step_subscription next hk with ⟨-, -, hnew⟩ | ⟨sub, hsub, hmoves⟩
    · rw [hnew, calls, List.length_map]
    · rw [hmoves.since_eq]
      exact consistent.since sub (List.mem_of_getElem? hsub)
  parcels sub' hsub' p hp := by
    obtain ⟨k, hk⟩ := List.mem_iff_getElem?.mp hsub'
    rcases step_subscription next hk with ⟨-, -, hnew⟩ | ⟨sub, hsub, hmoves⟩
    · rw [hnew] at hp
      cases hp
    · rw [hmoves.addr_eq]
      exact consistent.parcels_step next hsub hmoves hp
  queued j b' k sub' hj stored' hsince hvisited := by
    rcases step_broadcast next hj with ⟨-, -, hnew⟩ | ⟨b, hb, hadvances⟩
    · rw [hnew] at hvisited
      cases hvisited
    · obtain ⟨sub, stored, hmoves⟩ := stored'.of_since_le next hb hsince
      rw [hmoves.since_eq] at hsince
      rw [hmoves.addr_eq] at hvisited
      exact consistent.queued_step hb hadvances stored hmoves hsince hvisited
  visited j b' k sub' hj stored' hsince hpassed hskip := by
    rcases step_broadcast next hj with ⟨-, -, hnew⟩ | ⟨b, hb, hadvances⟩
    · rw [hnew] at hpassed
      rcases hpassed with hfinished | hbehind
      · cases hfinished
      · cases hbehind
    · obtain ⟨sub, stored, hmoves⟩ := stored'.of_since_le next hb hsince
      rw [hmoves.since_eq] at hsince
      rw [hmoves.addr_eq] at hpassed hskip ⊢
      exact consistent.visited_step hb hadvances stored hsince hpassed hskip
  flows sub' hsub' := by
    obtain ⟨k, hk⟩ := List.mem_iff_getElem?.mp hsub'
    rcases step_subscription next hk with ⟨-, -, hnew⟩ | ⟨sub, hsub, hmoves⟩
    · rw [hnew]
      exact fun _ => rfl
    · exact hmoves.flows (consistent.flows sub (List.mem_of_getElem? hsub))
  shards b' hb' := by
    obtain ⟨j, hj⟩ := List.mem_iff_getElem?.mp hb'
    rcases step_broadcast next hj with ⟨-, -, hnew⟩ | ⟨b, hb, hadvances⟩
    · rw [hnew]
      exact Nat.zero_le _
    · have hle := consistent.shards b (List.mem_of_getElem? hb)
      cases hadvances with
      | locks under more served => exact more
      | _ => exact hle

theorem ReachedBy.consistent {C : Hub → HubEvent → Prop} (reached : h.ReachedBy C) :
    h.Consistent :=
  reached.invariant Consistent
    ⟨fun addr k hk => by simp [new] at hk, by simp [new], by simp [new], by simp [new],
      by simp [new], by simp [new], by simp [new]⟩
    fun _ _ _ consistent _ next => consistent.step next

end Hub

end ToyBtc
