import ToyBtc.MessageLoop

/-!
# A connection byte by byte

What a client reads back from a connection are the answers to its questions, in
their order and of their kinds, whatever others do to the chain meanwhile. A
message that is cut off has no effect.

## Implementation notes

The bytes of a connection are all that ever arrive on it. A reply that cannot be
encoded is lost, and the loop goes on.
-/

namespace ToyBtc

open Framing

instance : DecidablePred Message.Asks
  | .fetchBlock _ | .discoverNodes | .askDifference _ | .fetchUTXOs _ | .validateTemplate _
  | .fetchTemplate _ => isTrue trivial
  | .subscribe _ | .subscribeAck _ | .utxos _ | .submitTransaction _ | .newTransaction _
  | .template _ | .templateValidity _ | .submitTemplate _ | .nodeList _ | .difference _
  | .newBlock _ => isFalse id

/-- How a loop over messages ends: the connection is closed, or the node is no more. -/
inductive Closing
  | closes
  | aborts
  deriving DecidableEq

/-- What an error of the reader comes to. -/
def ReceiveAbort.closing : ReceiveAbort → Closing
  | .abort => .aborts
  | .unexpectedEof | .decode _ | .panic => .closes

/-- The rounds of a connection so far, the bytes written to it, and how the loop has
ended, if it has. -/
structure Conversation where
  turns : List Turn
  written : List UInt8
  ended : Option Closing

/-- Send the reply, if there is one. -/
def writeReply [Memory] [Cbor] (reply : Option Message) (written : List UInt8) : List UInt8 :=
  match reply with
  | none => written
  | some reply =>
      match reply.sendAsync written with
      | .ok written => written
      | .error _ => written

section Rounds

variable [Crates] (others : Nat → Blockchain → Blockchain) (env : Nat → Ambient)
  (sourceAddr : String)

/-- The rounds that messages set off, with what others do to the chain between them. -/
def Handler.rounds : Nat → Blockchain → List Message → List Turn
  | _, _, [] => []
  | i, s, m :: rest =>
      let turn := processMessage (others i s) (env i) sourceAddr m
      match turn.ending with
      | .continues => turn :: rounds (i + 1) turn.chain rest
      | _ => [turn]

/-- The loop over the messages of a connection, for so many rounds. -/
def Handler.processConnection [Memory] [Cbor] :
    Nat → Nat → Blockchain → List UInt8 → List UInt8 → Conversation
  | 0, _, _, _, written => ⟨[], written, none⟩
  | limit + 1, i, s, unread, written =>
      match Message.receiveAsync unread with
      | .error e => ⟨[], written, some e.closing⟩
      | .ok (m, unread) =>
          let turn := processMessage (others i s) (env i) sourceAddr m
          let written := writeReply turn.reply written
          match turn.ending with
          | .continues =>
              let later := processConnection limit (i + 1) turn.chain unread written
              { later with turns := turn :: later.turns }
          | _ => ⟨[turn], written, some .closes⟩

end Rounds

namespace Handler

variable [Crates] {others : Nat → Blockchain → Blockchain} {env : Nat → Ambient}
  {sourceAddr : String}

/-- Who leaves the connection has not answered. -/
theorem processMessage_reply_of_ends {s : Blockchain} {env : Ambient} {m : Message}
    (h : (processMessage s env sourceAddr m).ending ≠ .continues) :
    (processMessage s env sourceAddr m).reply = none := by
  cases m with
  | subscribe listenerAddr =>
      rw [processMessage]
      cases env.connects <;> rfl
  | fetchBlock height =>
      rw [processMessage] at h ⊢
      cases hblock : s.blocks[height.toNat]? with
      | none => rfl
      | some block => rw [hblock] at h; exact absurd rfl h
  | fetchTemplate pubkey =>
      rw [processMessage] at h ⊢
      rcases htemplate : fetchTemplate s pubkey env.uniqueId env.now with (e | _) | template
      · rfl
      · rfl
      · rw [htemplate] at h; exact absurd rfl h
  | discoverNodes | askDifference | fetchUTXOs | validateTemplate => exact absurd rfl h
  | _ => rfl

/-- The messages of the rounds after which the loop goes on. -/
def answered (turns : List Turn) (ms : List Message) : List Message :=
  ms.take (turns.countP fun turn => turn.ending = .continues)

/-- The replies of a connection answer its questions in their order. -/
theorem rounds_answers (i : Nat) (s : Blockchain) (ms : List Message) :
    List.Forall₂ Message.Answers ((rounds others env sourceAddr i s ms).filterMap Turn.reply)
      ((answered (rounds others env sourceAddr i s ms) ms).filter (Message.Asks ·)) := by
  induction ms generalizing i s with
  | nil => simp [rounds, answered]
  | cons m rest ih =>
      rw [rounds]
      split
      · next hcontinues =>
          have hreply := processMessage_reply hcontinues
          have htail := ih (i + 1) (processMessage (others i s) (env i) sourceAddr m).chain
          rw [answered, List.countP_cons_of_pos (by simpa using hcontinues), List.take_succ_cons]
          by_cases hasks : m.Asks
          · obtain ⟨reply, heq, hanswers⟩ := hreply.1 hasks
            rw [List.filterMap_cons_some heq, List.filter_cons_of_pos (by simpa using hasks)]
            exact .cons hanswers htail
          · rw [List.filterMap_cons_none (hreply.2 hasks),
              List.filter_cons_of_neg (by simpa using hasks)]
            exact htail
      · next hends =>
          have hreply := processMessage_reply_of_ends (fun h => hends h)
          rw [List.filterMap_cons_none hreply, answered,
            List.countP_cons_of_neg (by simpa using hends)]
          simp

/-- How the loop ends after its rounds: at what cannot be read behind the messages, unless
one of the rounds leaves the connection. -/
def closing (e : ReceiveAbort) (turns : List Turn) : Closing :=
  if turns.all fun turn => turn.ending = .continues then e.closing else .closes

variable [Memory] [Cbor]

omit [Crates] in
theorem writeReply_eq {reply : Option Message} (h : ∀ m ∈ reply, m.RoundTrips)
    (written : List UInt8) :
    writeReply reply written = written ++ reply.toList.flatMap Message.frame := by
  cases reply with
  | none => simp [writeReply]
  | some reply =>
      obtain ⟨bytes, hencode, -⟩ := h reply rfl
      have hsend : reply.sendAsync written = .ok (written ++ reply.frame) :=
        Style.send_of_encode .async hencode written
      simp [writeReply, hsend]

/-- From the frames of messages and something that cannot be read behind them the loop
makes the rounds of the messages, and writes the frames of their replies. -/
theorem processConnection_frames {ms : List Message} {rest : List UInt8} {e : ReceiveAbort}
    (hms : ∀ m ∈ ms, m.RoundTrips) (hrest : Message.receiveAsync rest = .error e) {limit i : Nat}
    {s : Blockchain}
    (hreplies : ∀ reply ∈ (rounds others env sourceAddr i s ms).filterMap Turn.reply,
      reply.RoundTrips)
    (hlimit : ms.length < limit) (written : List UInt8) :
    processConnection others env sourceAddr limit i s (ms.flatMap Message.frame ++ rest) written =
      ⟨rounds others env sourceAddr i s ms, written ++
        ((rounds others env sourceAddr i s ms).filterMap Turn.reply).flatMap Message.frame,
        some (closing e (rounds others env sourceAddr i s ms))⟩ := by
  induction ms generalizing limit i s written with
  | nil =>
      obtain ⟨limit, rfl⟩ := Nat.exists_eq_succ_of_ne_zero (Nat.ne_of_gt hlimit)
      simp [processConnection, rounds, hrest, closing]
  | cons m tail ih =>
      obtain ⟨limit, rfl⟩ := Nat.exists_eq_succ_of_ne_zero (Nat.ne_of_gt (Nat.zero_lt_of_lt hlimit))
      have hread : Message.receiveAsync (m.frame ++ (tail.flatMap Message.frame ++ rest)) =
          .ok (m, tail.flatMap Message.frame ++ rest) :=
        (takes_style (hms m List.mem_cons_self) .async).whole _
      rw [List.flatMap_cons, List.append_assoc, processConnection, hread]
      rw [rounds] at hreplies ⊢
      cases hending : (processMessage (others i s) (env i) sourceAddr m).ending with
      | continues =>
          simp only [hending] at hreplies ⊢
          have hreply : ∀ reply ∈ (processMessage (others i s) (env i) sourceAddr m).reply,
              reply.RoundTrips := fun reply hreply =>
            hreplies reply (List.mem_filterMap.mpr ⟨_, List.mem_cons_self, hreply⟩)
          rw [writeReply_eq hreply, ih (fun x hx => hms x (List.mem_cons_of_mem _ hx)) ?_
            (Nat.lt_of_succ_lt_succ hlimit)]
          · cases hturn : (processMessage (others i s) (env i) sourceAddr m).reply with
            | none => simp [hturn, closing, hending]
            | some reply => simp [hturn, closing, hending]
          · intro reply hlater
            obtain ⟨turn, hturn, heq⟩ := List.mem_filterMap.mp hlater
            exact hreplies reply (List.mem_filterMap.mpr ⟨turn, List.mem_cons_of_mem _ hturn, heq⟩)
      | _ =>
          have hends : (processMessage (others i s) (env i) sourceAddr m).ending ≠ .continues := by
            simp [hending]
          have hnone := processMessage_reply_of_ends hends
          simp [hending, hnone, writeReply, closing]

/-- Whatever others do to the chain between the rounds: on the frames of messages, with
nothing, a part of a frame or anything else behind them that is not a message, the loop
makes the rounds of the messages and then ends. It takes the node with it where it gets
to a length for which there is no memory. The client reads back the replies and nothing
else, and they answer the questions in their order and in kind. -/
theorem processConnection_answers {ms : List Message} {rest : List UInt8} {e : ReceiveAbort}
    (hms : ∀ m ∈ ms, m.RoundTrips) (hrest : Message.receiveAsync rest = .error e) {limit : Nat}
    {s : Blockchain}
    (hreplies : ∀ reply ∈ (rounds others env sourceAddr 0 s ms).filterMap Turn.reply,
      reply.RoundTrips)
    (hlimit : ms.length < limit) :
    ∃ written,
      processConnection others env sourceAddr limit 0 s (ms.flatMap Message.frame ++ rest) [] =
        ⟨rounds others env sourceAddr 0 s ms, written,
          some (closing e (rounds others env sourceAddr 0 s ms))⟩ ∧
      (∀ readers : List Style,
        readers.length = ((rounds others env sourceAddr 0 s ms).filterMap Turn.reply).length →
          receiveAll readers written =
            ((rounds others env sourceAddr 0 s ms).filterMap Turn.reply, .ok [])) ∧
      List.Forall₂ Message.Answers ((rounds others env sourceAddr 0 s ms).filterMap Turn.reply)
        ((answered (rounds others env sourceAddr 0 s ms) ms).filter (Message.Asks ·)) := by
  refine ⟨_, processConnection_frames hms hrest hreplies hlimit [], ?_, rounds_answers 0 s ms⟩
  intro readers hreaders
  have hsent : ∀ p ∈ ((rounds others env sourceAddr 0 s ms).filterMap Turn.reply).map
      (fun reply => (Style.async, reply)), p.2.RoundTrips := by
    intro p hp
    obtain ⟨reply, hreply, rfl⟩ := List.mem_map.mp hp
    exact hreplies reply hreply
  have hread := lossless hsent readers [] (by simpa using hreaders)
  simpa [Function.comp_def] using hread

end Handler

/-- Besides, the CBOR of `NodeList([])`, a map of one entry. -/
@[reducible] def listing : @Cbor gigabyte :=
  letI := gigabyte
  { intoWriter := fun m =>
      match m with
      | .nodeList [] =>
          .ok ⟨[0xa1, 0x68, 0x4e, 0x6f, 0x64, 0x65, 0x4c, 0x69, 0x73, 0x74, 0x80], by decide⟩
      | m => twoMessages.intoWriter m
    fromReader := fun bytes =>
      match bytes with
      | [0xa1, 0x68, 0x4e, 0x6f, 0x64, 0x65, 0x4c, 0x69, 0x73, 0x74, 0x80] => .ok (.nodeList [])
      | bytes => twoMessages.fromReader bytes }

/-- Two requests for the nodes, and then the length of a message that does not follow, or
one for which there is no memory. -/
theorem Handler.processConnection_answers_listing :
    letI := StandIn.crates
    letI := gigabyte
    letI := listing
    letI loop := processConnection (fun _ s => s) (fun _ => ⟨0, ⟨0⟩, ∅, [], true⟩) "client" 5 0
      Blockchain.new
    letI sent := [Message.discoverNodes, .discoverNodes].flatMap Message.frame
    (∃ turns written, loop (sent ++ toBeBytes 14) [] = ⟨turns, written, some .closes⟩ ∧
        receiveAll [.blocking, .blocking] written = ([.nodeList [], .nodeList []], .ok [])) ∧
      ∃ turns written, loop (sent ++ toBeBytes 72057594037927936) [] =
          ⟨turns, written, some .aborts⟩ ∧
        receiveAll [.blocking, .blocking] written = ([.nodeList [], .nodeList []], .ok []) := by
  let := StandIn.crates
  let := gigabyte
  let := listing
  have hquestion : Message.RoundTrips .discoverNodes := ⟨_, rfl, rfl⟩
  have hlist : Message.RoundTrips (.nodeList []) := ⟨_, rfl, rfl⟩
  have hms : ∀ m ∈ [Message.discoverNodes, .discoverNodes], m.RoundTrips := by
    simpa using hquestion
  have hrounds : (rounds (fun _ s => s) (fun _ => ⟨0, ⟨0⟩, ∅, [], true⟩) "client" 0 Blockchain.new
      [.discoverNodes, .discoverNodes]).filterMap Turn.reply = [.nodeList [], .nodeList []] := rfl
  have hlimit : [Message.discoverNodes, .discoverNodes].length < 5 := by decide
  have hends : ∀ {rest : List UInt8} {e : ReceiveAbort}, Message.receiveAsync rest = .error e →
      ∃ turns written, processConnection (fun _ s => s) (fun _ => ⟨0, ⟨0⟩, ∅, [], true⟩) "client"
          5 0 Blockchain.new ([.discoverNodes, .discoverNodes].flatMap Message.frame ++ rest) [] =
            ⟨turns, written, some e.closing⟩ ∧
        receiveAll [.blocking, .blocking] written =
          ([.nodeList [], .nodeList []], .ok []) := by
    intro rest e hrest
    obtain ⟨written, heq, hread, -⟩ := processConnection_answers hms hrest
      (by rw [hrounds]; simpa using hlist) hlimit
    rw [hrounds] at hread
    exact ⟨_, written, heq, hread [.blocking, .blocking] rfl⟩
  exact ⟨hends (e := .unexpectedEof) rfl, hends (e := .abort) rfl⟩

end ToyBtc
