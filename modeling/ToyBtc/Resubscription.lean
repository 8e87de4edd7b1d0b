import ToyBtc.Subscriptions
import Mathlib.Algebra.Order.BigOperators.Group.List
import Mathlib.Algebra.Order.Group.Nat
import Mathlib.Data.Finset.Max

/-!
# Subscribing again

The map keeps one entry for each address, and a subscription under an address
that is already there takes the place of the earlier one. The task of the
earlier one can still hold an item, and when it fails to send that, it removes
the entry of the later one.

A task whose send fails waits for the shard of its address. A broadcast in that shard
that waits for room on the channel of this very task waits for ever, with all
others that come to the entry and all that subscribe under an address of the shard.
Whether a dropped stream leads there is a matter of counting: its task and its channel
take one item each, and so many broadcasts can still go by.
-/

namespace ToyBtc

/-- How many items fit on the channel and with the task of a subscription. -/
def Subscription.room (sub : Subscription) : Nat :=
  sub.buffer.isNone.toNat + sub.hand.isNone.toNat

/-- How many steps of its task a subscription has left. -/
def Subscription.load (sub : Subscription) : Nat :=
  2 * sub.buffer.isSome.toNat + sub.hand.isSome.toNat

/-- The sum over a list, one element of which was modified. -/
theorem sum_map_modify {α : Type*} {g : α → Nat} {f : α → α} {l : List α} {i : Nat} {x : α}
    (hi : l[i]? = some x) :
    ((l.modify i f).map g).sum + g x = (l.map g).sum + g (f x) := by
  induction l generalizing i with
  | nil => cases hi
  | cons y rest ih =>
      cases i with
      | zero =>
          obtain rfl := Option.some.inj hi
          simp only [List.modify_zero_cons, List.map_cons, List.sum_cons]
          omega
      | succ i =>
          have hrest := ih hi
          simp only [List.modify_succ_cons, List.map_cons, List.sum_cons]
          omega

namespace Hub

variable [Shards] {h t : Hub} {e : HubEvent}

/-! ### Who removes an entry -/

/-- When a task loses an item to a dropped stream, no later subscription has
taken the place of its own. -/
def FailsUnreplaced (h : Hub) : HubEvent → Prop
  | .forward k => ∀ sub, h.subscriptions[k]? = some sub → sub.hand.isSome = true →
      sub.isOpen = false → ∀ entry, h.subscribers.lookup sub.addr = some entry → ¬ k < entry
  | _ => True

theorem Consistent.le_entry (consistent : h.Consistent) {k entry : Nat} {sub : Subscription}
    (hsub : h.subscriptions[k]? = some sub)
    (hentry : h.subscribers.lookup sub.addr = some entry) : k ≤ entry := by
  obtain ⟨owner, current, haddr⟩ := consistent.entry _ _ hentry
  by_contra hlt
  exact current.2 k sub (by omega) hsub haddr.symm

/-- The latest subscriptions of all addresses, as far as they are open, are in the map. -/
def Live (h : Hub) : Prop :=
  ∀ k sub, h.Current k sub → sub.isOpen = true → h.subscribers.lookup sub.addr = some k

/-- The task that loses an item is not one of an open subscription. -/
theorem Live.addr_ne_failed (live : h.Live) (consistent : h.Consistent) {i k : Nat}
    {failed sub : Subscription} (hfailed : h.subscriptions[i]? = some failed)
    (hheld : failed.hand.isSome = true) (hclosed : failed.isOpen = false)
    (meets : h.FailsUnreplaced (.forward i)) (current : h.Current k sub)
    (hopen : sub.isOpen = true) : sub.addr ≠ failed.addr := by
  intro heq
  have hlookup := live k sub current hopen
  rw [heq] at hlookup
  have hle := consistent.le_entry hfailed hlookup
  have hnot := meets failed hfailed hheld hclosed k hlookup
  obtain rfl : i = k := by omega
  obtain rfl := Option.some.inj (hfailed.symm.trans current.1)
  rw [hopen] at hclosed
  cases hclosed

theorem Live.step (live : h.Live) (consistent : h.Consistent) (next : h.step e = some t)
    (meets : h.FailsUnreplaced e) : t.Live := by
  intro k sub' current' hopen
  rcases current'.of_step next with ⟨rfl, rfl, -⟩ | ⟨hother, sub, current, hmoves⟩
  · obtain ⟨-, rfl⟩ := step_subscribe_iff.mp next
    simp [addSubscriber]
  · have hopen := hmoves.isOpen hopen
    have hlookup := live k sub current hopen
    rw [hmoves.addr_eq] at hother ⊢
    rcases step_subscribers next with ⟨a, rfl, -, rfl⟩ |
      ⟨i, failed, rfl, hfailed, hheld, hclosed, -, hmap, -⟩ | ⟨-, -, hmap, -⟩
    · have hne : sub.addr ≠ a := fun heq => hother (heq ▸ rfl)
      rw [addSubscriber, Finmap.lookup_insert_of_ne _ hne]
      exact hlookup
    · have hne := live.addr_ne_failed consistent hfailed hheld hclosed meets current hopen
      rw [hmap, Finmap.lookup_erase_ne hne]
      exact hlookup
    · rw [hmap]
      exact hlookup

/-! ### Broadcasts that get stuck -/

/-- How many broadcasts are in the shard of an address and have yet to visit it. -/
def demand (h : Hub) (addr : String) : Nat :=
  (h.broadcasts.map fun b => if b.Pending addr then 1 else 0).sum

/-- Where a peer has dropped its stream, what the broadcasts in the shard bring finds room. -/
def Roomy (h : Hub) : Prop :=
  ∀ k sub, h.Stored k sub → sub.isOpen = false → h.demand sub.addr ≤ sub.room

/-- When a peer drops its stream, there is room for what the broadcasts in the shard bring.
When a broadcast goes on to a shard, there is room for its item too wherever a peer has
dropped its stream. -/
def LeavesRoom (h : Hub) : HubEvent → Prop
  | .close k => ∀ sub, h.Stored k sub → h.demand sub.addr ≤ sub.room
  | .lock j => ∀ b, h.broadcasts[j]? = some b → ∀ k sub, h.Stored k sub → sub.isOpen = false →
      ({ b with shards := b.shards + 1 } : BroadcastTask).Pending sub.addr →
        h.demand sub.addr < sub.room
  | _ => True

theorem not_free_of_pending {b : BroadcastTask} (hb : b ∈ h.broadcasts) {addr : String}
    (pending : b.Pending addr) : ¬ h.Free addr :=
  fun free => free b hb pending.1

theorem exists_pending_of_demand {addr : String} (hpos : h.demand addr ≠ 0) :
    ∃ b ∈ h.broadcasts, b.Pending addr := by
  by_contra hnone
  push Not at hnone
  refine hpos (List.sum_eq_zero fun n hn => ?_)
  obtain ⟨b, hb, rfl⟩ := List.mem_map.mp hn
  exact if_neg (hnone b hb)

/-- The demand for an entry after one broadcast has moved on. -/
theorem demand_modify {j : Nat} {b : BroadcastTask} {f : BroadcastTask → BroadcastTask}
    (hj : h.broadcasts[j]? = some b) (hmodify : t.broadcasts = h.broadcasts.modify j f)
    (addr : String) :
    t.demand addr + (if b.Pending addr then 1 else 0) =
      h.demand addr + if (f b).Pending addr then 1 else 0 := by
  rw [demand, hmodify]
  exact sum_map_modify hj

/-- What a step does to the number of broadcasts that have yet to visit an entry. -/
theorem demand_cases (next : h.step e = some t) {addr : String} (hentry : addr ∈ h.subscribers) :
    (t.demand addr = h.demand addr ∧ ∀ j, e ≠ .visit j addr) ∨
      (∃ j b, e = .lock j ∧ h.broadcasts[j]? = some b ∧
        ({ b with shards := b.shards + 1 } : BroadcastTask).Pending addr ∧
        t.demand addr = h.demand addr + 1) ∨
      ∃ j, e = .visit j addr ∧ t.demand addr + 1 = h.demand addr := by
  have hserved {b : BroadcastTask} (served : h.Served b) : ¬ b.Pending addr :=
    served addr (Finmap.mem_keys.mpr hentry)
  cases e with
  | subscribe a =>
      obtain ⟨-, rfl⟩ := step_subscribe_iff.mp next
      exact Or.inl ⟨rfl, by simp⟩
  | close k =>
      obtain rfl := Option.some.inj next
      exact Or.inl ⟨rfl, by simp⟩
  | broadcast call =>
      obtain rfl := Option.some.inj next
      refine Or.inl ⟨?_, by simp⟩
      simp [demand, BroadcastTask.Pending, BroadcastTask.Holds]
  | lock j =>
      obtain ⟨b, hb, -, -, served, rfl⟩ := step_lock_iff.mp next
      have hsum := demand_modify (t := { h with
        broadcasts := h.broadcasts.modify j fun b => { b with shards := b.shards + 1 } }) hb rfl addr
      rw [if_neg (hserved served)] at hsum
      by_cases hpending : ({ b with shards := b.shards + 1 } : BroadcastTask).Pending addr
      · rw [if_pos hpending] at hsum
        exact Or.inr (Or.inl ⟨j, b, rfl, hb, hpending, hsum⟩)
      · rw [if_neg hpending] at hsum
        exact Or.inl ⟨hsum, by simp⟩
  | visit j a =>
      obtain ⟨b, k, sub, hb, -, -, pending, -, rfl⟩ := step_visit_iff.mp next
      have hsum := demand_modify (t := h.send j a k ⟨j, b.call.item⟩) hb rfl addr
      by_cases ha : a = addr
      · subst ha
        rw [if_pos pending, if_neg fun h => h.2.2 List.mem_cons_self] at hsum
        exact Or.inr (Or.inr ⟨j, rfl, hsum⟩)
      · have hsame : ({ b with visited := a :: b.visited } : BroadcastTask).Pending addr ↔
            b.Pending addr := by
          simp [BroadcastTask.Pending, BroadcastTask.Holds, Ne.symm ha]
        simp only [hsame] at hsum
        exact Or.inl ⟨Nat.add_right_cancel hsum, by simp [ha]⟩
  | finish j =>
      obtain ⟨b, hb, -, -, served, rfl⟩ := step_finish_iff.mp next
      have hsum := demand_modify (t := { h with
        broadcasts := h.broadcasts.modify j fun b => { b with finished := true } }) hb rfl addr
      rw [if_neg (hserved served), if_neg fun h => absurd h.1.1 (by simp)] at hsum
      exact Or.inl ⟨hsum, by simp⟩
  | receive k =>
      obtain ⟨sub, p, -, -, -, rfl⟩ := step_receive_iff.mp next
      exact Or.inl ⟨rfl, by simp⟩
  | forward k =>
      obtain ⟨sub, p, -, -, ⟨-, rfl⟩ | ⟨-, -, rfl⟩⟩ := step_forward_cases next
      · exact Or.inl ⟨rfl, by simp⟩
      · exact Or.inl ⟨rfl, by simp⟩

/-- While a broadcast is in the shard of a dropped stream, the room there shrinks by what
is put on the channel and by nothing else. -/
theorem Moves.room {k : Nat} {sub sub' : Subscription} (moves : h.Moves k sub e sub')
    (consistent : h.Consistent) (stored : h.Stored k sub) (hclosed : sub.isOpen = false)
    (held : ¬ h.Free sub.addr) :
    (sub'.room = sub.room ∧ ∀ j, e ≠ .visit j sub.addr) ∨
      ∃ j, e = .visit j sub.addr ∧ sub'.room + 1 = sub.room := by
  cases moves with
  | keeps e elsewhere =>
      exact Or.inl ⟨rfl, fun j heq => elsewhere j sub.addr heq stored.2⟩
  | closes => exact Or.inl ⟨rfl, by simp⟩
  | queues j addr b entry broadcast pending room =>
      obtain ⟨owner, current, rfl⟩ := consistent.entry addr k entry
      obtain rfl := Option.some.inj (stored.1.symm.trans current.1)
      exact Or.inr ⟨j, rfl, by simp [Subscription.room, room, Nat.add_comm]⟩
  | receives p buffered free =>
      exact Or.inl ⟨by simp [Subscription.room, buffered, free], by simp⟩
  | sends p sent hopen => exact absurd hopen (by simp [hclosed])
  | drops p lost closed free => exact absurd free held

/-- A subscription that a step closes is closed by its peer. -/
theorem Moves.of_closed {k : Nat} {sub sub' : Subscription} (moves : h.Moves k sub e sub')
    (hopen : sub.isOpen = true) (hclosed : sub'.isOpen = false) :
    e = .close k ∧ sub'.room = sub.room := by
  cases moves with
  | closes => exact ⟨rfl, rfl⟩
  | _ => exact absurd (hopen.symm.trans hclosed) (by simp)

theorem Stored.step {k : Nat} {sub : Subscription} (stored : h.Stored k sub)
    (next : h.step e = some t) (held : ¬ h.Free sub.addr) :
    ∃ sub', t.Stored k sub' ∧ h.Moves k sub e sub' := by
  obtain ⟨sub', hk', hmoves⟩ := step_subscription_stays next stored.1
  refine ⟨sub', ⟨hk', ?_⟩, hmoves⟩
  rw [hmoves.addr_eq]
  exact lookup_step next held stored.2

omit [Shards] in
theorem Stored.mem {k : Nat} {sub : Subscription} (stored : h.Stored k sub) :
    sub.addr ∈ h.subscribers :=
  Finmap.mem_of_lookup_eq_some stored.2

theorem not_free_of_demand {addr : String} (hpos : h.demand addr ≠ 0) : ¬ h.Free addr := by
  obtain ⟨b, hb, pending⟩ := exists_pending_of_demand hpos
  exact not_free_of_pending hb pending

/-- Where room was left after a step, it was left before: a broadcast that finds no room
stays where it is. -/
theorem Consistent.roomy_of_step (consistent : h.Consistent) (next : h.step e = some t)
    (roomy : t.Roomy) : h.Roomy ∧ h.LeavesRoom e := by
  constructor
  · intro k sub stored hclosed
    by_cases hpos : h.demand sub.addr = 0
    · rw [hpos]
      exact Nat.zero_le _
    · have held := not_free_of_demand hpos
      obtain ⟨sub', stored', hmoves⟩ := stored.step next held
      have hclosed' : sub'.isOpen = false :=
        Bool.eq_false_iff.mpr fun hopen => by
          rw [hmoves.isOpen hopen] at hclosed
          cases hclosed
      have hle := roomy k sub' stored' hclosed'
      rw [hmoves.addr_eq] at hle
      rcases demand_cases next stored.mem with ⟨hsame, hother⟩ | ⟨j, b, rfl, -, -, hmore⟩ |
        ⟨j, rfl, hless⟩
      · rcases hmoves.room consistent stored hclosed held with ⟨hroom, -⟩ | ⟨j, rfl, -⟩
        · omega
        · exact absurd rfl (hother j)
      · rcases hmoves.room consistent stored hclosed held with ⟨hroom, -⟩ | ⟨j, heq, -⟩
        · omega
        · cases heq
      · rcases hmoves.room consistent stored hclosed held with ⟨-, hother⟩ | ⟨_, -, hroom⟩
        · exact absurd rfl (hother j)
        · omega
  · cases e with
    | close k =>
        intro sub stored
        obtain rfl := Option.some.inj next
        exact roomy k { sub with isOpen := false } ⟨by simp [stored.1], stored.2⟩ rfl
    | lock j =>
        intro b hb k sub stored hclosed hpending
        obtain ⟨b', hb', -, -, served, rfl⟩ := step_lock_iff.mp next
        obtain rfl := Option.some.inj (hb.symm.trans hb')
        have hle := roomy k sub stored hclosed
        have hsum := demand_modify (t := { h with
          broadcasts := h.broadcasts.modify j fun b => { b with shards := b.shards + 1 } }) hb rfl
          sub.addr
        rw [if_pos hpending,
          if_neg (served sub.addr (Finmap.mem_keys.mpr stored.mem))] at hsum
        omega
    | _ => trivial

theorem Consistent.roomy_step (consistent : h.Consistent) (next : h.step e = some t)
    (roomy : h.Roomy) (meets : h.LeavesRoom e) : t.Roomy := by
  intro k sub' stored' hclosed'
  rcases step_subscription next stored'.1 with ⟨-, -, hnew⟩ | ⟨sub, hsub, hmoves⟩
  · rw [hnew] at hclosed'
    cases hclosed'
  · have stored : h.Stored k sub := by
      rcases step_lookup next stored'.2 with ⟨-, rfl⟩ | ⟨-, hlookup⟩
      · exact absurd (List.getElem?_eq_some_iff.mp hsub).1 (lt_irrefl _)
      · exact ⟨hsub, hmoves.addr_eq ▸ hlookup⟩
    rw [hmoves.addr_eq]
    cases hopen : sub.isOpen with
    | true =>
        obtain ⟨rfl, hroom⟩ := hmoves.of_closed hopen hclosed'
        obtain rfl := Option.some.inj next
        rw [hroom]
        exact meets sub stored
    | false =>
        have hle := roomy k sub stored hopen
        rcases demand_cases next stored.mem with ⟨hsame, hother⟩ | ⟨j, b, rfl, hb, hpending, hmore⟩ |
          ⟨j, rfl, hless⟩
        · rw [hsame]
          by_cases hpos : h.demand sub.addr = 0
          · rw [hpos]
            exact Nat.zero_le _
          · rcases hmoves.room consistent stored hopen (not_free_of_demand hpos) with
              ⟨hroom, -⟩ | ⟨j, rfl, -⟩
            · rwa [hroom]
            · exact absurd rfl (hother j)
        · have hlt := meets b hb k sub stored hopen hpending
          obtain ⟨_, -, -, -, -, rfl⟩ := step_lock_iff.mp next
          obtain rfl := Option.some.inj (hsub.symm.trans stored'.1)
          omega
        · have held : ¬ h.Free sub.addr := not_free_of_demand (by omega)
          rcases hmoves.room consistent stored hopen held with ⟨-, hother⟩ | ⟨_, -, hroom⟩
          · exact absurd rfl (hother j)
          · omega

/-- The steps that the broadcasts and the forwarding tasks take by themselves. -/
def Own (_ : Hub) : HubEvent → Prop
  | .lock _ | .visit _ _ | .finish _ | .receive _ | .forward _ => True
  | .subscribe _ | .close _ | .broadcast _ => False

/-- No task removes the entry of a later subscription, and dropped streams leave room for
what the broadcasts bring. -/
def Meets (h : Hub) (e : HubEvent) : Prop := h.FailsUnreplaced e ∧ h.LeavesRoom e

theorem ReachedBy.live (reached : h.ReachedBy Meets) : h.Live := by
  induction reached with
  | refl => simp [Live, Current, new]
  | tail reach meets next ih => exact ih.step (ReachedBy.consistent reach) next meets.1

theorem ReachedBy.roomy (reached : h.ReachedBy Meets) : h.Roomy := by
  induction reached with
  | refl => simp [Roomy, Stored, new]
  | tail reach meets next ih => exact (ReachedBy.consistent reach).roomy_step next ih meets.2

/-- The broadcasts can come to their end, and with the steps that the tasks take then
every item of a broadcast that began after the latest subscription of an address, and is not
skipped for it, gets to the stream, if the stream is open. -/
def ReachesStreams (h : Hub) : Prop :=
  ∃ t, Machine.Reach step Own h t ∧ (∀ b ∈ t.broadcasts, b.finished = true) ∧
    ∀ j b k sub, h.broadcasts[j]? = some b → h.Current k sub → sub.isOpen = true →
      sub.since ≤ j → b.call.skipAddr ≠ some sub.addr →
        ∃ sub', t.subscriptions[k]? = some sub' ∧ ⟨j, b.call.item⟩ ∈ sub'.stream

/-- A broadcast that finds no room anywhere on a run found none before. -/
theorem roomy_of_reach {C : Hub → HubEvent → Prop} (reach : Machine.Reach step C h t)
    (reached : h.Reached) (roomy : t.Roomy) : h.Roomy := by
  induction reach with
  | refl => exact roomy
  | tail reach meets next ih =>
      have reached' : Reached _ := reached.trans (reach.imp fun _ _ _ => trivial)
      exact ih ((ReachedBy.consistent reached').roomy_of_step next roomy).1

theorem ReachesStreams.roomy (reaches : h.ReachesStreams) (reached : h.Reached) : h.Roomy := by
  obtain ⟨t, reach, hfinished, -⟩ := reaches
  refine roomy_of_reach reach reached fun k sub stored hclosed => ?_
  have hzero : t.demand sub.addr = 0 := by
    by_contra hpos
    obtain ⟨b, hb, pending⟩ := exists_pending_of_demand hpos
    exact absurd (hfinished b hb) (by simp [pending.1.1])
  rw [hzero]
  exact Nat.zero_le _

end Hub

end ToyBtc
