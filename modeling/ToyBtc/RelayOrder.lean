import ToyBtc.Subscriptions
import ToyBtc.Sync

/-!
# The order in which blocks are passed on

The tasks of a gRPC node share one chain and one subscriber map. A block gets
its place in the chain under the write lock, and its place on the channels in
a broadcast. The task of a subscription releases the lock between the two, so
that a later block can overtake; the handlers for miners and wallets hold it
until their broadcast is done.

## Implementation notes

A handler and the beginning of its broadcast are one step, and every visit of
an entry is a step of its own. A handler that unwinds leaves its block in the chain
and passes nothing on. The node does no synchronization meanwhile, which adds blocks
without passing them on.
-/

namespace ToyBtc

/-- The block that an item is, if any. -/
def Item.asBlock : Item → Option Block
  | .block b => some b
  | .transaction _ => none

/-- The blocks that were broadcast, in the order of the calls. -/
def blocksOf (calls : List Broadcast) : List Block := calls.filterMap fun call => call.item.asBlock

@[simp] theorem blocksOf_append (calls calls' : List Broadcast) :
    blocksOf (calls ++ calls') = blocksOf calls ++ blocksOf calls' :=
  List.filterMap_append

/-- There are more blocks before a broadcast than before an earlier one with a block. -/
theorem length_blocksOf_take_lt {calls : List Broadcast} {i j : Nat} {call : Broadcast} {b : Block}
    (hij : i < j) (hcall : calls[i]? = some call) (hblock : call.item.asBlock = some b) :
    (blocksOf (calls.take i)).length < (blocksOf (calls.take j)).length := by
  have hsucc : calls.take (i + 1) = calls.take i ++ [call] := by
    rw [List.take_add_one, hcall, Option.toList_some]
  have hpre : calls.take (i + 1) <+: calls.take j := List.take_prefix_take_left hij
  have hle := (hpre.filterMap fun call => call.item.asBlock).length_le
  have hlen : (blocksOf (calls.take (i + 1))).length = (blocksOf (calls.take i)).length + 1 := by
    rw [hsucc, blocksOf_append, List.length_append]
    simp [blocksOf, hblock]
  change (blocksOf (calls.take (i + 1))).length ≤ (blocksOf (calls.take j)).length at hle
  omega

def Parcel.IsBlock (p : Parcel) : Prop := p.item.asBlock.isSome = true

instance (p : Parcel) : Decidable p.IsBlock := inferInstanceAs (Decidable (_ = true))

namespace Subscription

/-- The blocks that were put on the channel. -/
def blocks (sub : Subscription) : List Block := sub.queued.filterMap fun p => p.item.asBlock

/-- The blocks on the channel whose broadcasts began after the subscription. -/
def laterBlocks (sub : Subscription) : List Block :=
  (sub.queued.filter fun p => sub.since ≤ p.number).filterMap fun p => p.item.asBlock

end Subscription

/-! ### Broadcasts that overtake each other -/

namespace Hub

variable [Shards] {h t : Hub} {e : HubEvent}

/-- The broadcast `i` began after the subscription, and it has a block for it. -/
structure Owes (h : Hub) (sub : Subscription) (i : Nat) : Prop where
  since : sub.since ≤ i
  call : ∃ call ∈ h.calls[i]?, call.item.asBlock.isSome = true ∧ call.skipAddr ≠ some sub.addr

/-- The blocks on the channel have the order of their broadcasts, and none of them
comes before one that is owed since earlier. -/
structure InOrder (h : Hub) (sub : Subscription) : Prop where
  increasing : sub.queued.Pairwise fun p q => p.IsBlock → q.IsBlock → p.number < q.number
  complete : ∀ p ∈ sub.queued, p.IsBlock → ∀ i < p.number, h.Owes sub i →
    ∃ q ∈ sub.queued, q.number = i

/-- When a block is put on a channel, no later one is there already, and every
earlier one that is owed to the subscription has been put there. -/
def Fits (h : Hub) (sub : Subscription) (p : Parcel) : Prop :=
  p.IsBlock → (∀ q ∈ sub.queued, q.IsBlock → q.number < p.number) ∧
    ∀ i < p.number, h.Owes sub i → ∃ q ∈ sub.queued, q.number = i

/-- Of two broadcasts with a block, the earlier one has ended. -/
def BlocksInTurn (h : Hub) : Prop :=
  ∀ (i j : Nat) (b b' : BroadcastTask), h.broadcasts[i]? = some b →
    h.broadcasts[j]? = some b' → i < j →
      b.call.item.asBlock.isSome = true → b'.call.item.asBlock.isSome = true → b.finished = true

variable {sub sub' : Subscription}

omit [Shards] in
theorem owes_congr (haddr : sub'.addr = sub.addr) (hsince : sub'.since = sub.since) (i : Nat) :
    h.Owes sub' i ↔ h.Owes sub i := by
  constructor
  · rintro ⟨hi, call, hcall, hblock, hskip⟩
    exact ⟨hsince ▸ hi, call, hcall, hblock, haddr ▸ hskip⟩
  · rintro ⟨hi, call, hcall, hblock, hskip⟩
    exact ⟨hsince ▸ hi, call, hcall, hblock, haddr ▸ hskip⟩

/-- Later broadcasts change nothing about what is owed from earlier ones. -/
theorem owes_step_iff (next : h.step e = some t) {i : Nat} (hi : i < h.calls.length) :
    t.Owes sub i ↔ h.Owes sub i := by
  have hcall : t.calls[i]? = h.calls[i]? := by
    rw [calls_step next, List.getElem?_append_left hi]
  constructor
  · rintro ⟨hsince, call, hi', howed⟩
    exact ⟨hsince, call, hcall ▸ hi', howed⟩
  · rintro ⟨hsince, call, hi', howed⟩
    exact ⟨hsince, call, hcall ▸ hi', howed⟩

theorem InOrder.step (inOrder : h.InOrder sub) (next : h.step e = some t)
    (hnumbers : ∀ p ∈ sub.queued, p.number < h.calls.length) : t.InOrder sub := by
  obtain ⟨hincreasing, hcomplete⟩ := inOrder
  refine ⟨hincreasing, fun p hp hblock i hi howes => ?_⟩
  exact hcomplete p hp hblock i hi ((owes_step_iff next (hi.trans (hnumbers p hp))).mp howes)

omit [Shards] in
theorem InOrder.congr (inOrder : h.InOrder sub) (haddr : sub'.addr = sub.addr)
    (hsince : sub'.since = sub.since) (hqueued : sub'.queued = sub.queued) : h.InOrder sub' := by
  have howes := owes_congr haddr hsince (h := h)
  obtain ⟨hincreasing, hcomplete⟩ := inOrder
  rw [← hqueued] at hincreasing hcomplete
  exact ⟨hincreasing, fun p hp hblock i hi ho => hcomplete p hp hblock i hi ((howes i).mp ho)⟩

omit [Shards] in
/-- One more item that fits leaves a channel in order. -/
theorem InOrder.append {p : Parcel} (inOrder : h.InOrder sub) (fits : h.Fits sub p)
    (haddr : sub'.addr = sub.addr) (hsince : sub'.since = sub.since)
    (hqueued : sub'.queued = sub.queued ++ [p]) : h.InOrder sub' := by
  have howes := owes_congr haddr hsince (h := h)
  obtain ⟨hincreasing, hcomplete⟩ := inOrder
  refine ⟨?_, ?_⟩
  · rw [hqueued]
    refine List.pairwise_append.mpr ⟨hincreasing, List.pairwise_singleton _ _, ?_⟩
    intro q hq r hr hqblock hrblock
    obtain rfl := List.mem_singleton.mp hr
    exact (fits hrblock).1 q hq hqblock
  · rw [hqueued]
    intro q hq hblock i hi ho
    have ho' := (howes i).mp ho
    rcases List.mem_append.mp hq with hq | hq
    · obtain ⟨r, hr, heq⟩ := hcomplete q hq hblock i hi ho'
      exact ⟨r, List.mem_append_left _ hr, heq⟩
    · obtain rfl := List.mem_singleton.mp hq
      obtain ⟨r, hr, heq⟩ := (fits hblock).2 i hi ho'
      exact ⟨r, List.mem_append_left _ hr, heq⟩

theorem Consistent.number_lt (consistent : h.Consistent) (hsub : sub ∈ h.subscriptions)
    {p : Parcel} (hp : p ∈ sub.queued) : p.number < h.calls.length := by
  obtain ⟨b, hb, -, -⟩ := consistent.parcels sub hsub p hp
  rw [calls, List.length_map]
  exact (List.getElem?_eq_some_iff.mp hb).1

theorem Consistent.call_of_parcel (consistent : h.Consistent) (hsub : sub ∈ h.subscriptions)
    {p : Parcel} (hp : p ∈ sub.queued) :
    ∃ call, h.calls[p.number]? = some call ∧ call.item = p.item := by
  obtain ⟨b, hb, hitem, -⟩ := consistent.parcels sub hsub p hp
  exact ⟨b.call, by rw [calls_getElem?, hb]; rfl, hitem⟩

omit [Shards] in
/-- The item of a broadcast is a block if a block is owed from it. -/
theorem Owes.isBlock {j : Nat} {call : Broadcast} (hj : h.calls[j]? = some call)
    (owes : h.Owes sub j) : (⟨j, call.item⟩ : Parcel).IsBlock := by
  obtain ⟨-, call', hj', hblock, -⟩ := owes
  obtain rfl := Option.some.inj (hj.symm.trans hj')
  exact hblock

/-- Where blocks are broadcast in turn, a block that is put on a channel fits there. -/
theorem Consistent.fits (consistent : h.Consistent) (turn : h.BlocksInTurn) {j k : Nat}
    {b : BroadcastTask} (hb : h.broadcasts[j]? = some b) (stored : h.Stored k sub)
    (pending : b.Pending sub.addr) : h.Fits sub ⟨j, b.call.item⟩ := by
  have hunder : ¬ b.finished = true := by simp [pending.1.1]
  have hmem := List.mem_of_getElem? stored.1
  intro hblock
  constructor
  · intro q hq hqblock
    obtain ⟨b', hb', hitem, hvisited⟩ := consistent.parcels sub hmem q hq
    have hblock' : b'.call.item.asBlock.isSome = true := by
      rw [hitem]
      exact hqblock
    rcases lt_trichotomy q.number j with hlt | heq | hgt
    · exact hlt
    · obtain rfl := Option.some.inj (hb.symm.trans (heq ▸ hb'))
      exact absurd hvisited pending.2.2
    · exact absurd (turn j q.number b b' hb hb' hgt hblock hblock') hunder
  · rintro i hi ⟨hsince, call, hcall, howed, hskip⟩
    rw [calls_getElem?, Option.mem_def, Option.map_eq_some_iff] at hcall
    obtain ⟨b', hb', rfl⟩ := hcall
    have hfinished := turn i j b' b hb' hb hi howed hblock
    have hvisited := consistent.visited i b' k sub hb' stored hsince (Or.inl hfinished) hskip
    exact ⟨_, consistent.queued i b' k sub hb' stored hsince hvisited, rfl⟩

/-- What a step does to a channel that was there before: nothing, or it puts an item on
it that fits. -/
theorem Consistent.moves_channel (consistent : h.Consistent) (turn : h.BlocksInTurn) {k : Nat}
    (hk : h.subscriptions[k]? = some sub) (hmoves : h.Moves k sub e sub') :
    sub'.queued = sub.queued ∨
      ∃ j b, e = .visit j sub.addr ∧ h.broadcasts[j]? = some b ∧
        b.call.skipAddr ≠ some sub.addr ∧ h.Fits sub ⟨j, b.call.item⟩ ∧
        sub'.queued = sub.queued ++ [⟨j, b.call.item⟩] := by
  rcases hmoves.queued_cases with ⟨hsame, -⟩ | ⟨j, addr, b, rfl, hentry, hb, hpending, hqueued⟩
  · exact Or.inl hsame
  · obtain ⟨owner, current, rfl⟩ := consistent.entry addr k hentry
    obtain rfl := Option.some.inj (hk.symm.trans current.1)
    exact Or.inr ⟨j, b, rfl, hb, hpending.2.1, consistent.fits turn hb ⟨hk, hentry⟩ hpending,
      hqueued⟩

/-- Where blocks are broadcast in turn, a step keeps all channels in order. -/
theorem Consistent.inOrder_step (consistent : h.Consistent) (turn : h.BlocksInTurn)
    (next : h.step e = some t) (inOrder : ∀ sub ∈ h.subscriptions, h.InOrder sub) :
    ∀ sub ∈ t.subscriptions, t.InOrder sub := by
  intro sub' hsub'
  obtain ⟨k, hk'⟩ := List.mem_iff_getElem?.mp hsub'
  rcases step_subscription next hk' with ⟨-, -, hnew⟩ | ⟨sub, hk, hmoves⟩
  · rw [hnew]
    exact ⟨List.Pairwise.nil, fun p hp => by cases hp⟩
  · have hmem := List.mem_of_getElem? hk
    have hin : t.InOrder sub :=
      (inOrder sub hmem).step next fun p hp => consistent.number_lt hmem hp
    rcases consistent.moves_channel turn hk hmoves with hsame | ⟨j, b, rfl, hb, -, hfits, hqueued⟩
    · exact hin.congr hmoves.addr_eq hmoves.since_eq hsame
    · refine hin.append (fun hblock => ⟨(hfits hblock).1, fun i hi howes => ?_⟩) hmoves.addr_eq
        hmoves.since_eq hqueued
      have hlen : i < h.calls.length := by
        rw [calls, List.length_map]
        exact hi.trans (List.getElem?_eq_some_iff.mp hb).1
      exact (hfits hblock).2 i hi ((owes_step_iff next hlen).mp howes)

theorem BlocksInTurn.step (turn : h.BlocksInTurn) (next : h.step e = some t)
    (meets : ∀ call, e = .broadcast call → call.item.asBlock.isSome = true →
      ∀ b ∈ h.broadcasts, b.call.item.asBlock.isSome = true → b.finished = true) :
    t.BlocksInTurn := by
  intro i j b b' hi hj hij hblock hblock'
  rcases step_broadcast next hi with ⟨-, rfl, -⟩ | ⟨old, hold, hadvances⟩
  · -- the broadcast that has just begun is the last one
    rcases step_broadcast next hj with ⟨-, rfl, -⟩ | ⟨old', hold', -⟩
    · exact absurd hij (lt_irrefl _)
    · exact absurd hij (List.getElem?_eq_some_iff.mp hold').1.asymm
  · rw [hadvances.call_eq] at hblock
    apply hadvances.finished
    rcases step_broadcast next hj with ⟨rfl, -, -⟩ | ⟨old', hold', hadvances'⟩
    · exact meets _ rfl hblock' old (List.mem_of_getElem? hold) hblock
    · rw [hadvances'.call_eq] at hblock'
      exact turn i j old old' hold hold' hij hblock hblock'

/-- What the channel has of the broadcasts since the subscription: the blocks of
those before `m` that are not skipped for the subscriber. -/
structure UpTo (h : Hub) (sub : Subscription) (m : Nat) : Prop where
  since : sub.since ≤ m
  last : m = sub.since ∨ ∃ p ∈ sub.queued, p.IsBlock ∧ m = p.number + 1
  below : ∀ p ∈ sub.queued, p.IsBlock → p.number < m
  blocks : sub.laterBlocks = blocksOf (((h.calls.take m).drop sub.since).filter
    fun call => call.skipAddr ≠ some sub.addr)

theorem UpTo.le_length {m : Nat} (upTo : h.UpTo sub m) (consistent : h.Consistent)
    (hsub : sub ∈ h.subscriptions) : m ≤ h.calls.length := by
  rcases upTo.last with rfl | ⟨p, hp, -, rfl⟩
  · exact consistent.since sub hsub
  · exact consistent.number_lt hsub hp

omit [Shards] in
theorem laterBlocks_append {p : Parcel} (hsince : sub'.since = sub.since)
    (hqueued : sub'.queued = sub.queued ++ [p]) :
    sub'.laterBlocks = sub.laterBlocks ++
      if sub.since ≤ p.number then p.item.asBlock.toList else [] := by
  rw [Subscription.laterBlocks, hqueued, hsince, List.filter_append, List.filterMap_append,
    Subscription.laterBlocks]
  congr 1
  split
  · next hle => cases hblock : p.item.asBlock <;> simp [hle, hblock]
  · next hlt => simp [hlt]

/-- Between the last block on a channel and a block that fits there, no broadcast
has a block for the subscriber. -/
theorem Fits.between_eq_nil {p : Parcel} (fits : h.Fits sub p) (hblock : p.IsBlock)
    (consistent : h.Consistent) (hsub : sub ∈ h.subscriptions) {m : Nat} (upTo : h.UpTo sub m) :
    blocksOf (((h.calls.take p.number).drop m).filter
      fun call => call.skipAddr ≠ some sub.addr) = [] := by
  rw [blocksOf, List.filterMap_eq_nil_iff]
  intro call hcall
  obtain ⟨hmem, hskip⟩ := List.mem_filter.mp hcall
  obtain ⟨i, hi⟩ := List.mem_iff_getElem?.mp hmem
  rw [List.getElem?_drop, List.getElem?_take] at hi
  split at hi
  · next hlt =>
      rw [← Option.not_isSome_iff_eq_none]
      intro hsome
      have howes : h.Owes sub (m + i) :=
        ⟨upTo.since.trans (Nat.le_add_right m i), call, hi, hsome, by simpa using hskip⟩
      obtain ⟨q, hq, hnumber⟩ := (fits hblock).2 (m + i) hlt howes
      obtain ⟨call', hcall', hitem⟩ := consistent.call_of_parcel hsub hq
      have hqblock : q.IsBlock := by
        rw [Parcel.IsBlock, ← hitem]
        exact Owes.isBlock hcall' (hnumber ▸ howes)
      have hbelow := upTo.below q hq hqblock
      omega
  · cases hi

/-- Up to and with a block that fits, the broadcasts have what the channel has and this block. -/
theorem Fits.blocks_take {j m : Nat} {call : Broadcast} (fits : h.Fits sub ⟨j, call.item⟩)
    (hblock : (⟨j, call.item⟩ : Parcel).IsBlock) (consistent : h.Consistent)
    (hsub : sub ∈ h.subscriptions) (upTo : h.UpTo sub m) (hsince : sub.since ≤ j)
    (hcall : h.calls[j]? = some call) (hskip : call.skipAddr ≠ some sub.addr) :
    blocksOf (((h.calls.take (j + 1)).drop sub.since).filter
        fun call => call.skipAddr ≠ some sub.addr) =
      sub.laterBlocks ++ call.item.asBlock.toList := by
  have hm : m ≤ j := by
    rcases upTo.last with rfl | ⟨p, hp, hpblock, rfl⟩
    · exact hsince
    · exact (fits hblock).1 p hp hpblock
  have hsplit : h.calls.take m ++ (h.calls.take j).drop m = h.calls.take j := by
    rw [← List.take_append_drop m (h.calls.take j), List.take_take, Nat.min_eq_left hm,
      List.drop_left' (by simp [upTo.le_length consistent hsub])]
  have hlen : sub.since ≤ (h.calls.take m).length := by
    rw [List.length_take, Nat.min_eq_left (upTo.le_length consistent hsub)]
    exact upTo.since
  have hnil := fits.between_eq_nil hblock consistent hsub upTo
  rw [List.take_add_one, hcall, Option.toList_some, ← hsplit, List.append_assoc,
    List.drop_append_of_le_length hlen, List.filter_append, List.filter_append, blocksOf_append,
    blocksOf_append, hnil, ← upTo.blocks]
  cases hitem : call.item.asBlock <;> simp [blocksOf, hskip, hitem]

omit [Shards] in
/-- A channel on which nothing was put has what it had. -/
theorem UpTo.of_queued_eq {m : Nat} (upTo : h.UpTo sub m) (haddr : sub'.addr = sub.addr)
    (hsince : sub'.since = sub.since) (hqueued : sub'.queued = sub.queued)
    (htake : t.calls.take m = h.calls.take m) : t.UpTo sub' m := by
  refine ⟨hsince ▸ upTo.since, ?_, hqueued ▸ upTo.below, ?_⟩
  · rw [hqueued, hsince]
    exact upTo.last
  · rw [htake, hsince, haddr, ← upTo.blocks, Subscription.laterBlocks, hqueued, hsince,
      Subscription.laterBlocks]

/-- A block that fits brings the channel up to its broadcast. -/
theorem UpTo.append_fitting {j m : Nat} {call : Broadcast} (upTo : h.UpTo sub m)
    (fits : h.Fits sub ⟨j, call.item⟩) (hblock : (⟨j, call.item⟩ : Parcel).IsBlock)
    (consistent : h.Consistent) (hsub : sub ∈ h.subscriptions) (hle : sub.since ≤ j)
    (hcall : h.calls[j]? = some call) (hskip : call.skipAddr ≠ some sub.addr)
    (haddr : sub'.addr = sub.addr) (hsince : sub'.since = sub.since)
    (hqueued : sub'.queued = sub.queued ++ [⟨j, call.item⟩]) (hcalls : t.calls = h.calls) :
    t.UpTo sub' (j + 1) := by
  refine ⟨by omega, Or.inr ⟨⟨j, call.item⟩, by simp [hqueued], hblock, rfl⟩, ?_, ?_⟩
  · rw [hqueued]
    intro p hp hpblock
    rcases List.mem_append.mp hp with hp | hp
    · exact Nat.lt_succ_of_lt ((fits hblock).1 p hp hpblock)
    · rw [List.mem_singleton.mp hp]
      exact Nat.lt_succ_self j
  · rw [hcalls, hsince, haddr, fits.blocks_take hblock consistent hsub upTo hle hcall hskip,
      laterBlocks_append hsince hqueued, if_pos hle]

omit [Shards] in
/-- A transaction, or a block from before the subscription, changes nothing. -/
theorem UpTo.append_other {m : Nat} {p : Parcel} (upTo : h.UpTo sub m)
    (hother : ¬ (p.IsBlock ∧ sub.since ≤ p.number)) (haddr : sub'.addr = sub.addr)
    (hsince : sub'.since = sub.since) (hqueued : sub'.queued = sub.queued ++ [p])
    (htake : t.calls.take m = h.calls.take m) : t.UpTo sub' m := by
  refine ⟨hsince ▸ upTo.since, ?_, ?_, ?_⟩
  · rw [hqueued, hsince]
    refine upTo.last.imp id ?_
    rintro ⟨q, hq, hlast⟩
    exact ⟨q, List.mem_append_left _ hq, hlast⟩
  · rw [hqueued]
    intro q hq hblock
    rcases List.mem_append.mp hq with hq | hq
    · exact upTo.below q hq hblock
    · obtain rfl := List.mem_singleton.mp hq
      have hlt : q.number < sub.since := by
        by_contra hge
        exact hother ⟨hblock, Nat.le_of_not_lt hge⟩
      exact hlt.trans_le upTo.since
  · rw [htake, hsince, haddr, ← upTo.blocks, laterBlocks_append hsince hqueued]
    split
    · next hle =>
        have hnone : p.item.asBlock = none :=
          Option.not_isSome_iff_eq_none.mp fun hsome => hother ⟨hsome, hle⟩
        simp [hnone]
    · simp

theorem UpTo.step (consistent : h.Consistent) (turn : h.BlocksInTurn) (next : h.step e = some t)
    {k m : Nat} (hk : h.subscriptions[k]? = some sub) (hmoves : h.Moves k sub e sub')
    (upTo : h.UpTo sub m) : ∃ m', t.UpTo sub' m' := by
  have hsub := List.mem_of_getElem? hk
  have haddr := hmoves.addr_eq
  have hsince := hmoves.since_eq
  have htake : t.calls.take m = h.calls.take m := by
    rw [calls_step next, List.take_append_of_le_length (upTo.le_length consistent hsub)]
  rcases consistent.moves_channel turn hk hmoves with
    hsame | ⟨j, b, rfl, hb, hskip, fits, hqueued⟩
  · exact ⟨m, upTo.of_queued_eq haddr hsince hsame htake⟩
  · by_cases hnew : (⟨j, b.call.item⟩ : Parcel).IsBlock ∧ sub.since ≤ j
    · obtain ⟨hblock, hle⟩ := hnew
      have hcall : h.calls[j]? = some b.call := by
        rw [calls_getElem?, hb]
        rfl
      have hcalls : t.calls = h.calls := (calls_step next).trans (List.append_nil _)
      exact ⟨j + 1, upTo.append_fitting fits hblock consistent hsub hle hcall hskip haddr
        hsince hqueued hcalls⟩
    · exact ⟨m, upTo.append_other hnew haddr hsince hqueued htake⟩

end Hub

/-! ### The tasks of a node -/

namespace Incoming

/-- The item comes in over gRPC. -/
def overGrpc : Incoming → Bool
  | rpcSubmitTemplate _ => true
  | rpcSubmitTransaction _ => true
  | subscribedBlock _ _ => true
  | subscribedTransaction _ _ => true
  | _ => false

/-- The handler holds the write lock until its broadcast is done. -/
def holdsLock : Incoming → Bool
  | rpcSubmitTemplate _ => true
  | rpcSubmitTransaction _ => true
  | _ => false

end Incoming

/-- The broadcast that ends. -/
def HubEvent.ends : HubEvent → Option Nat
  | finish j => some j
  | _ => none

variable [Crates] [Shards]

/-- A gRPC node, and the broadcast until whose end the write lock is held, if any. -/
structure GrpcNode where
  chain : Blockchain
  hub : Hub
  holder : Option Nat

/-- What happens at a gRPC node: an item comes in, or a broadcast or a subscription goes on. -/
inductive GrpcEvent
  | handle (now : DateTime) (m : Incoming)
  | hub (e : HubEvent)

namespace GrpcNode

/-- A node that nobody has subscribed to. -/
def start (n : Node) : GrpcNode := ⟨n.chain, Hub.new, none⟩

/-- One event, if it can happen. A handler waits for the write lock. -/
def step (r : GrpcNode) : GrpcEvent → Option GrpcNode
  | .handle now m =>
      let handled := m.handle r.chain now
      if r.holder = none ∧ m.overGrpc = true then
        match handled.broadcast with
        | none => some { r with chain := handled.chain }
        | some call => (r.hub.step (.broadcast call)).map fun hub =>
            ⟨handled.chain, hub, if m.holdsLock then some r.hub.broadcasts.length else none⟩
      else none
  | .hub (.broadcast _) => none
  | .hub e => (r.hub.step e).map fun hub =>
      { r with hub, holder := if e.ends = r.holder then none else r.holder }

/-- The height of a block. -/
def height (r : GrpcNode) (b : Block) : Nat := r.chain.blocks.idxOf b

/-- No task takes the write lock to store a block between the time when another block is
stored and the end of its broadcast, and no adjustment unwinds. -/
def InTurn (r : GrpcNode) : GrpcEvent → Prop
  | .handle _ m => ∀ b, m.item = .block b → r.chain.PassesChecks b → ¬ r.chain.Unwinds b ∧
      ∀ task ∈ r.hub.broadcasts, task.call.item.asBlock.isSome = true → task.finished = true
  | .hub _ => True

instance (r : GrpcNode) : (a : GrpcEvent) → Decidable (r.InTurn a)
  | .handle _ m =>
      match hitem : m.item with
      | .block b => decidable_of_iff (r.chain.PassesChecks b → ¬ r.chain.Unwinds b ∧
          ∀ task ∈ r.hub.broadcasts, task.call.item.asBlock.isSome = true → task.finished = true) <|
          by simp [InTurn, hitem]
      | .transaction _ => isTrue (by simp [InTurn, hitem])
  | .hub _ => isTrue trivial

end GrpcNode

omit [Shards] in
theorem relayBlock_blocks {onError : BtcError → Ending} {skipAddr : Option String}
    {s : Blockchain} {b : Block} (h : ¬ s.Unwinds b) :
    (relayBlock onError skipAddr s b).chain.blocks =
      s.blocks ++ blocksOf (relayBlock onError skipAddr s b).broadcast.toList := by
  rcases s.addAndRebuild_cases b with ⟨t, hadd, heq⟩ | ⟨e, hadd, heq⟩
  · obtain ⟨-, -, target, -, rfl⟩ := (Blockchain.addBlock_ok_iff s t b).mp hadd
    simp [relayBlock, heq, blocksOf, Item.asBlock, Blockchain.rebuildUtxoSet]
  · rcases Blockchain.addBlockInPlace_of_error hadd with ⟨hunwinds, -⟩ | ⟨-, hsame⟩
    · exact absurd hunwinds h
    · cases e <;> simp [relayBlock, heq, blocksOf, hsame]

omit [Shards] in
theorem relayTransaction_blocks (onError : BtcError → Ending) (skipAddr : Option String)
    (s : Blockchain) (now : DateTime) (tx : Tx) :
    (relayTransaction onError skipAddr s now tx).chain.blocks =
      s.blocks ++ blocksOf (relayTransaction onError skipAddr s now tx).broadcast.toList := by
  have hblocks := (Blockchain.addToMempool_cases s now tx).1
  unfold relayTransaction
  rcases hcall : s.addToMempool now tx with ⟨t, e | v⟩
  · simpa [blocksOf, hcall] using hblocks
  · simpa [blocksOf, Item.asBlock, hcall] using hblocks

omit [Shards] in
/-- A handler appends what it passes on, unless the adjustment unwinds. -/
theorem Incoming.blocks_handle_eq {m : Incoming} {s : Blockchain} (now : DateTime)
    (h : ∀ b, m.item = .block b → ¬ s.Unwinds b) :
    (m.handle s now).chain.blocks = s.blocks ++ blocksOf (m.handle s now).broadcast.toList := by
  rcases m.handle_cases s now with ⟨onError, skipAddr, b, hitem, heq⟩ |
    ⟨onError, skipAddr, tx, -, -, heq⟩ | ⟨skipAddr, tx, -, -, heq⟩
  · rw [heq]
    exact relayBlock_blocks (h b hitem)
  · rw [heq]
    exact relayTransaction_blocks ..
  · rw [heq]
    have hblocks := (Blockchain.addToMempool_cases s now tx).1
    simpa [blocksOf, Item.asBlock] using hblocks

namespace GrpcNode

variable {r r' : GrpcNode} {a : GrpcEvent}

/-- A step is a handler, with the beginning of its broadcast if it makes one, or a step
of the hub. -/
theorem step_cases (next : r.step a = some r') :
    (∃ now m, a = .handle now m ∧ r'.chain = (m.handle r.chain now).chain ∧
        (((m.handle r.chain now).broadcast = none ∧ r'.hub = r.hub) ∨
          ∃ call, (m.handle r.chain now).broadcast = some call ∧
            r.hub.step (.broadcast call) = some r'.hub)) ∨
      ∃ e, a = .hub e ∧ (∀ call, e ≠ .broadcast call) ∧ r'.chain = r.chain ∧
        r.hub.step e = some r'.hub := by
  cases a with
  | handle now m =>
      simp only [step] at next
      split at next
      · refine Or.inl ⟨now, m, rfl, ?_⟩
        cases hbroadcast : (m.handle r.chain now).broadcast with
        | none =>
            rw [hbroadcast] at next
            obtain rfl := Option.some.inj next
            exact ⟨rfl, Or.inl ⟨rfl, rfl⟩⟩
        | some call =>
            rw [hbroadcast] at next
            obtain ⟨hub, hhub, rfl⟩ := Option.map_eq_some_iff.mp next
            exact ⟨rfl, Or.inr ⟨call, rfl, hhub⟩⟩
      · cases next
  | hub e =>
      cases e with
      | broadcast call => cases next
      | _ =>
          simp only [step, Option.map_eq_some_iff] at next
          obtain ⟨hub, hhub, rfl⟩ := next
          exact Or.inr ⟨_, rfl, by simp, rfl, hhub⟩

/-- The chain is sound, the hub consistent, and the blocks that were broadcast, each after
the end of the one before, are those that came on top of `base`, in the same order. Every
channel is in order and up to one of the broadcasts. -/
structure Tracks (base : List Block) (r : GrpcNode) : Prop where
  sound : r.chain.Sound
  consistent : r.hub.Consistent
  blocks : r.chain.blocks = base ++ blocksOf r.hub.calls
  turn : r.hub.BlocksInTurn
  inOrder : ∀ sub ∈ r.hub.subscriptions, r.hub.InOrder sub
  upTo : ∀ sub ∈ r.hub.subscriptions, ∃ m, r.hub.UpTo sub m

omit [Shards] in
/-- A handler whose block comes in its turn does not unwind. -/
theorem InTurn.not_unwinds {now : DateTime} {m : Incoming} (meets : r.InTurn (.handle now m))
    {b : Block} (hitem : m.item = .block b) : ¬ r.chain.Unwinds b :=
  fun hunwinds => (meets b hitem hunwinds.1).1 hunwinds

/-- The chain and the blocks that were broadcast go on together. -/
theorem Tracks.blocks_step {base : List Block} (tracks : r.Tracks base) (meets : r.InTurn a)
    (next : r.step a = some r') :
    r'.chain.Sound ∧ r'.chain.blocks = base ++ blocksOf r'.hub.calls := by
  rcases step_cases next with ⟨now, m, rfl, hchain, hbroadcast⟩ | ⟨e, -, hother, hchain, hhub⟩
  · have hreturns : (m.call now).Returns r.chain := by
      unfold Incoming.call
      cases hitem : m.item with
      | block b => exact meets.not_unwinds hitem
      | transaction tx => trivial
    have hsound : r'.chain.Sound := by
      rw [hchain]
      exact tracks.sound.step hreturns (m.handle_step r.chain now)
    have hblocks := Incoming.blocks_handle_eq now fun b hitem => meets.not_unwinds hitem
    rw [← hchain, tracks.blocks, List.append_assoc, ← blocksOf_append] at hblocks
    rcases hbroadcast with ⟨hnone, hhub⟩ | ⟨call, hcall, hhub⟩
    · rw [hnone, Option.toList_none, List.append_nil, ← hhub] at hblocks
      exact ⟨hsound, hblocks⟩
    · refine ⟨hsound, ?_⟩
      rw [hblocks, hcall, Hub.calls_step hhub]
      rfl
  · refine ⟨hchain ▸ tracks.sound, ?_⟩
    have hbegins : Hub.begins e = [] := by
      cases e with
      | broadcast call => exact absurd rfl (hother call)
      | _ => rfl
    rw [hchain, tracks.blocks, Hub.calls_step hhub, hbegins, List.append_nil]

/-- A step of the hub, with all broadcasts of blocks at their end when one begins. -/
theorem Tracks.hub_step {base : List Block} (tracks : r.Tracks base) {e : HubEvent} {t : Hub}
    (next : r.hub.step e = some t)
    (meets : ∀ call, e = .broadcast call → call.item.asBlock.isSome = true →
      ∀ b ∈ r.hub.broadcasts, b.call.item.asBlock.isSome = true → b.finished = true) :
    t.Consistent ∧ t.BlocksInTurn ∧ (∀ sub ∈ t.subscriptions, t.InOrder sub) ∧
      ∀ sub ∈ t.subscriptions, ∃ m, t.UpTo sub m := by
  refine ⟨tracks.consistent.step next, tracks.turn.step next meets,
    tracks.consistent.inOrder_step tracks.turn next tracks.inOrder, fun sub' hsub' => ?_⟩
  obtain ⟨k, hk'⟩ := List.mem_iff_getElem?.mp hsub'
  rcases Hub.step_subscription next hk' with ⟨-, -, hnew⟩ | ⟨sub, hk, hmoves⟩
  · refine ⟨sub'.since, le_rfl, Or.inl rfl, ?_, ?_⟩
    · rw [hnew]
      simp
    · rw [hnew]
      simp [Subscription.laterBlocks, blocksOf]
  · obtain ⟨m, hm⟩ := tracks.upTo sub (List.mem_of_getElem? hk)
    exact hm.step tracks.consistent tracks.turn next hk hmoves

theorem Tracks.step {base : List Block} (tracks : r.Tracks base) (meets : r.InTurn a)
    (next : r.step a = some r') : r'.Tracks base := by
  obtain ⟨hsound, hblocks⟩ := tracks.blocks_step meets next
  rcases step_cases next with ⟨now, m, rfl, -, ⟨-, hsame⟩ | ⟨call, hcall, hhub⟩⟩ |
    ⟨e, rfl, hother, -, hhub⟩
  · rw [hsame] at hblocks
    exact ⟨hsound, hsame ▸ tracks.consistent, hsame ▸ hblocks, hsame ▸ tracks.turn,
      hsame ▸ tracks.inOrder, hsame ▸ tracks.upTo⟩
  · have hended : call.item.asBlock.isSome = true →
        ∀ b ∈ r.hub.broadcasts, b.call.item.asBlock.isSome = true → b.finished = true := by
      intro hblock
      obtain ⟨hitem, haccepts⟩ := Incoming.of_broadcast hcall
      rw [hitem] at hblock
      cases hm : m.item with
      | transaction tx =>
          rw [hm] at hblock
          cases hblock
      | block b =>
          have hpasses := (Blockchain.accepts_iff_passesChecks.mp (haccepts b hm)).1
          exact (meets b hm hpasses).2
    obtain ⟨hconsistent, hturn, hinOrder, hupTo⟩ := tracks.hub_step hhub fun _ heq => by
      cases heq
      exact hended
    exact ⟨hsound, hconsistent, hblocks, hturn, hinOrder, hupTo⟩
  · obtain ⟨hconsistent, hturn, hinOrder, hupTo⟩ := tracks.hub_step hhub
      fun call heq => absurd heq (hother call)
    exact ⟨hsound, hconsistent, hblocks, hturn, hinOrder, hupTo⟩

/-- The height of a block that was broadcast. -/
theorem Tracks.height_eq {base : List Block} (tracks : r.Tracks base) {i : Nat} {call : Broadcast}
    {b : Block} (hcall : r.hub.calls[i]? = some call) (hblock : call.item.asBlock = some b) :
    r.height b = base.length + (blocksOf (r.hub.calls.take i)).length := by
  have hnodup : r.chain.blocks.Nodup :=
    (ValidChain.checked tracks.sound.valid).timestamps_lt.imp fun hlt heq => hlt.ne (by rw [heq])
  have hsplit : r.hub.calls = r.hub.calls.take i ++ call :: r.hub.calls.drop (i + 1) := by
    obtain ⟨hlt, hget⟩ := List.getElem?_eq_some_iff.mp hcall
    rw [← hget, List.getElem_cons_drop, List.take_append_drop]
  have hblocks : r.chain.blocks = (base ++ blocksOf (r.hub.calls.take i)) ++
      b :: blocksOf (r.hub.calls.drop (i + 1)) := by
    rw [tracks.blocks, List.append_assoc]
    conv_lhs => rw [hsplit]
    rw [blocksOf_append]
    simp [blocksOf, hblock]
  have hfresh : b ∉ base ++ blocksOf (r.hub.calls.take i) := by
    rw [hblocks] at hnodup
    exact fun hmem => (List.nodup_append.mp hnodup).2.2 b hmem b (by simp) rfl
  rw [height, hblocks, List.idxOf_append_of_notMem hfresh, List.idxOf_cons_self, List.length_append]
  simp

/-- Of two blocks that were broadcast, the one with the earlier broadcast is the lower one. -/
theorem Tracks.height_lt {base : List Block} (tracks : r.Tracks base) {i j : Nat}
    {call call' : Broadcast} {b b' : Block} (hi : r.hub.calls[i]? = some call)
    (hb : call.item.asBlock = some b) (hj : r.hub.calls[j]? = some call')
    (hb' : call'.item.asBlock = some b') (hij : i < j) : r.height b < r.height b' := by
  rw [tracks.height_eq hi hb, tracks.height_eq hj hb', Nat.add_lt_add_iff_left]
  exact length_blocksOf_take_lt hij hi hb

/-- On every channel the blocks come in strictly increasing height, and none of them
comes before one that was accepted earlier since the subscription and did not come
from the subscriber. So the channel has the blocks of a stretch of broadcasts from the subscription
on, and a chain like the node's at that time takes in this stretch, unless an
adjustment before its last block unwinds. -/
structure RelaysInOrder (r : GrpcNode) : Prop where
  increasing : ∀ sub ∈ r.hub.subscriptions, (sub.blocks.map r.height).Pairwise (· < ·)
  complete : ∀ sub ∈ r.hub.subscriptions, ∀ p ∈ sub.queued, p.IsBlock → ∀ i < p.number,
    r.hub.Owes sub i → ∃ q ∈ sub.queued, q.number = i
  accepted : ∀ sub ∈ r.hub.subscriptions, ∃ stretch rest,
    r.hub.calls.drop sub.since = stretch ++ rest ∧
      sub.laterBlocks = blocksOf (stretch.filter fun call => call.skipAddr ≠ some sub.addr) ∧
      ∀ s : Blockchain, s.Sound →
        s.blocks ++ blocksOf (r.hub.calls.drop sub.since) = r.chain.blocks →
          ((s.fetchMissingBlocks (blocksOf stretch)).1.blocks = s.blocks ++ blocksOf stretch ↔
            (Blockchain.adjustments s.target s.blocks (blocksOf stretch).dropLast).isSome = true)

/-- Heights increase along a channel with the numbers of its blocks. -/
theorem Tracks.increasing {base : List Block} (tracks : r.Tracks base) {sub : Subscription}
    (hsub : sub ∈ r.hub.subscriptions) : (sub.blocks.map r.height).Pairwise (· < ·) := by
  rw [List.pairwise_map, Subscription.blocks, List.pairwise_filterMap]
  refine (tracks.inOrder sub hsub).increasing.imp_of_mem fun {p q} hp hq hlt b hb b' hb' => ?_
  obtain ⟨call, hcall, hitem⟩ := tracks.consistent.call_of_parcel hsub hp
  obtain ⟨call', hcall', hitem'⟩ := tracks.consistent.call_of_parcel hsub hq
  refine tracks.height_lt hcall (hitem ▸ hb) hcall' (hitem' ▸ hb') (hlt ?_ ?_)
  · exact Option.isSome_iff_exists.mpr ⟨b, hb⟩
  · exact Option.isSome_iff_exists.mpr ⟨b', hb'⟩

/-- A chain like the node's at the time of the subscription takes in what was
broadcast since. -/
theorem Tracks.takes_stretch {base : List Block} (tracks : r.Tracks base) {n : Nat}
    {stretch rest : List Broadcast} (hsplit : r.hub.calls.drop n = stretch ++ rest)
    {s : Blockchain} (hs : s.Sound)
    (hblocks : s.blocks ++ blocksOf (r.hub.calls.drop n) = r.chain.blocks) :
    (s.fetchMissingBlocks (blocksOf stretch)).1.blocks = s.blocks ++ blocksOf stretch ↔
      (Blockchain.adjustments s.target s.blocks (blocksOf stretch).dropLast).isSome = true := by
  apply hs.blocks_fetchMissingBlocks_iff
  have hvalid := tracks.sound.valid
  rw [← hblocks, hsplit, blocksOf_append, ← List.append_assoc] at hvalid
  exact hvalid.of_append

variable {n : Node}

theorem tracks_of_reach (reached : n.ReachedBy Event.Returns)
    (reach : Machine.Reach step InTurn (start n) r) : r.Tracks n.chain.blocks := by
  refine reach.invariant (Tracks n.chain.blocks) ⟨reached.sound.1, ?_, ?_, ?_, ?_, ?_⟩
    fun _ _ _ tracks meets next => tracks.step meets next
  · exact Hub.ReachedBy.consistent (C := fun _ _ => True) .refl
  · simp [start, Hub.new, Hub.calls, blocksOf]
  · simp [Hub.BlocksInTurn, start, Hub.new]
  · simp [start, Hub.new]
  · simp [start, Hub.new]

/-- Blocks are passed on in chain order as long as no task takes the write lock to store a
block between the time when another block is stored and the end of its broadcast, and no
adjustment unwinds. -/
theorem relaysInOrder_of_inTurn (reached : n.ReachedBy Event.Returns)
    (reach : Machine.Reach step InTurn (start n) r) : r.RelaysInOrder := by
  have tracks := tracks_of_reach reached reach
  refine ⟨fun sub hsub => tracks.increasing hsub,
    fun sub hsub => (tracks.inOrder sub hsub).complete, fun sub hsub => ?_⟩
  obtain ⟨m, hm⟩ := tracks.upTo sub hsub
  have hsplit : r.hub.calls.drop sub.since =
      (r.hub.calls.take m).drop sub.since ++ r.hub.calls.drop m := by
    have hlen : sub.since ≤ (r.hub.calls.take m).length := by
      rw [List.length_take, Nat.min_eq_left (hm.le_length tracks.consistent hsub)]
      exact hm.since
    rw [← List.drop_append_of_le_length hlen, List.take_append_drop]
  exact ⟨_, _, hsplit, hm.blocks, fun s hs hblocks => tracks.takes_stretch hsplit hs hblocks⟩

end GrpcNode

namespace StandIn

/-- Two peers each send a block, and the second one waits for the broadcast of the first. -/
def relayInTurn : List GrpcEvent :=
  [.hub (.subscribe "c"), .handle 0 (.subscribedBlock "a" genesis), .hub (.lock 0),
    .hub (.visit 0 "c"), .hub (.finish 0), .handle 0 (.subscribedBlock "b" spendingBlock),
    .hub (.receive 0), .hub (.lock 1), .hub (.visit 1 "c")]

/-- Two peers each send a block, and the second broadcast comes first. -/
def overtaking : List GrpcEvent :=
  [.hub (.subscribe "c"), .handle 0 (.subscribedBlock "a" genesis),
    .handle 0 (.subscribedBlock "b" spendingBlock), .hub (.lock 1), .hub (.visit 1 "c"),
    .hub (.receive 0), .hub (.lock 0), .hub (.visit 0 "c")]

omit [Crates] [Shards] in
/-- A run at a fresh node after which a channel has blocks at the listed heights. -/
theorem exists_relay (run : List GrpcEvent) (heights : List Nat)
    (h : letI := crates; letI := Shards.single
      ((run.foldlM GrpcNode.step (GrpcNode.start Node.new)).any fun r =>
        r.hub.subscriptions.any fun sub => sub.blocks.map r.height = heights) = true) :
    letI := crates; letI := Shards.single
    ∃ r, run.foldlM GrpcNode.step (GrpcNode.start Node.new) = some r ∧
      ∃ sub ∈ r.hub.subscriptions, sub.blocks.map r.height = heights := by
  obtain ⟨r, hrun, hany⟩ := (Option.any_eq_true ..).mp h
  obtain ⟨sub, hsub, hheights⟩ := List.any_eq_true.mp hany
  exact ⟨r, hrun, sub, hsub, of_decide_eq_true hheights⟩

end StandIn

namespace GrpcNode

omit [Crates] [Shards] in
/-- A subscriber is sent two blocks in their order. -/
theorem relaysInOrder_relayInTurn :
    letI := StandIn.crates; letI := Shards.single
    ∃ r : GrpcNode, r.RelaysInOrder ∧
      ∃ sub ∈ r.hub.subscriptions, sub.blocks.map r.height = [0, 1] := by
  obtain ⟨r, hrun, hheights⟩ :=
    StandIn.exists_relay StandIn.relayInTurn [0, 1] (by decide +kernel)
  have hmeets : letI := StandIn.crates; letI := Shards.single
      Machine.StepsMeet step InTurn (start Node.new) StandIn.relayInTurn := by
    decide +kernel
  let := StandIn.crates
  let := Shards.single
  exact ⟨r, relaysInOrder_of_inTurn .refl (Machine.reach_of_foldlM _ hmeets hrun), hheights⟩

omit [Crates] [Shards] in
/-- The task that accepts the second block sends it first. -/
theorem not_relaysInOrder :
    letI := StandIn.crates; letI := Shards.single
    ¬ ∀ (n : Node) (r : GrpcNode), n.Reached → Machine.Reachable step (start n) r →
      ∀ sub ∈ r.hub.subscriptions, (sub.blocks.map r.height).Pairwise (· < ·) := by
  obtain ⟨r, hrun, sub, hsub, hheights⟩ :=
    StandIn.exists_relay StandIn.overtaking [1, 0] (by decide +kernel)
  let := StandIn.crates
  let := Shards.single
  intro h
  have hpairwise := h Node.new r .refl
    (Machine.reach_of_foldlM _ (.of_forall (fun _ _ => trivial) _ _) hrun) sub hsub
  rw [hheights] at hpairwise
  exact absurd hpairwise (by decide)

end GrpcNode

end ToyBtc
