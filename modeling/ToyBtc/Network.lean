import ToyBtc.Framing
import ToyBtc.Types

/-!
# Messages on a byte stream

A message is sent in CBOR behind the number of its bytes. The blocking and the
asynchronous functions are written separately and are used against each other:
what any of them sends, any of them receives, and a stream that is cut anywhere
yields the messages that are complete and then an error.

## Implementation notes

The CBOR reader and writer are a parameter, and so is how much memory a process can
have: the vectors that are sent can be allocated at both ends. `write_all` appends,
and `read_exact` takes exactly the bytes it is asked for or reports the end of the
stream. A `usize` has 64 bits.
-/

namespace ToyBtc

open Framing

/-- Network message. -/
inductive Message
  | subscribe (address : String)
  | subscribeAck (address : String)
  | fetchUTXOs (pubkey : PublicKey)
  | utxos (utxos : List (TxOutput × Bool))
  | submitTransaction (tx : Tx)
  | newTransaction (tx : Tx)
  | fetchTemplate (pubkey : PublicKey)
  | template (block : Block)
  | validateTemplate (block : Block)
  | templateValidity (valid : Bool)
  | submitTemplate (block : Block)
  | discoverNodes
  | nodeList (nodes : List String)
  | askDifference (height : UInt64)
  | difference (difference : Int64)
  | fetchBlock (height : UInt64)
  | newBlock (block : Block)
  deriving DecidableEq

/-- The size that no allocation exceeds. -/
def isizeMax : Nat := 9223372036854775807

/-- The size of the largest buffer that a process can allocate. -/
class Memory where
  available : Nat
  available_le : available ≤ isizeMax

/-- The bytes of a vector. -/
structure Vec [Memory] where
  bytes : List UInt8
  length_le : bytes.length ≤ Memory.available

/-- The CBOR writer and reader, with the texts of their errors. -/
class Cbor [Memory] where
  intoWriter : Message → Except String Vec
  fromReader : List UInt8 → Except String Message

/-- Big-endian bytes of a length. -/
def toBeBytes (len : UInt64) : List UInt8 :=
  (List.range 8).reverse.map fun i => UInt8.ofNat (len.toNat / 256 ^ i)

def fromBeBytes (bytes : List UInt8) : UInt64 :=
  bytes.foldl (fun len byte => len * 256 + byte.toUInt64) 0

theorem length_toBeBytes (len : UInt64) : (toBeBytes len).length = 8 := rfl

/-- Behind what has been read, `k` big-endian digits of a number are read back modulo
`256 ^ k`. -/
theorem foldl_digits (n k : Nat) (len : UInt64) :
    ((List.range k).reverse.map fun i => UInt8.ofNat (n / 256 ^ i)).foldl
        (fun len byte => len * 256 + byte.toUInt64) len =
      len * UInt64.ofNat (256 ^ k) + UInt64.ofNat (n % 256 ^ k) := by
  induction k generalizing len with
  | zero => simp [Nat.mod_one]
  | succ k ih =>
      have hdigit : (UInt8.ofNat (n / 256 ^ k)).toUInt64 = UInt64.ofNat (n / 256 ^ k % 256) := by
        apply UInt64.toNat_inj.mp
        simp
        omega
      have hmod : n % 256 ^ (k + 1) = n % 256 ^ k + 256 ^ k * (n / 256 ^ k % 256) :=
        Nat.mod_pow_succ
      have hbase : UInt64.ofNat 256 = 256 := rfl
      rw [List.range_succ, List.reverse_concat, List.map_cons, List.foldl_cons, ih, hdigit]
      calc
        (len * 256 + UInt64.ofNat (n / 256 ^ k % 256)) * UInt64.ofNat (256 ^ k) +
            UInt64.ofNat (n % 256 ^ k) =
          len * (UInt64.ofNat (256 ^ k) * 256) + (UInt64.ofNat (n % 256 ^ k) +
            UInt64.ofNat (256 ^ k) * UInt64.ofNat (n / 256 ^ k % 256)) := by grind
        _ = len * UInt64.ofNat (256 ^ (k + 1)) + UInt64.ofNat (n % 256 ^ (k + 1)) := by
          rw [hmod, Nat.pow_succ, UInt64.ofNat_add, UInt64.ofNat_mul, UInt64.ofNat_mul, hbase]

theorem fromBeBytes_toBeBytes (len : UInt64) : fromBeBytes (toBeBytes len) = len := by
  have hlt : len.toNat < 256 ^ 8 := len.toNat_lt
  rw [fromBeBytes, toBeBytes, foldl_digits, Nat.mod_eq_of_lt hlt, UInt64.ofNat_toNat,
    UInt64.zero_mul, UInt64.zero_add]

/-- How reading a message fails. An abort ends the whole process. -/
inductive ReceiveAbort
  | unexpectedEof
  | decode (message : String)
  | panic
  | abort
  deriving DecidableEq

/-- Fills a buffer of `n` bytes from the front of the stream. -/
def readExact (n : Nat) (stream : List UInt8) :
    Except ReceiveAbort (List UInt8 × List UInt8) :=
  match takeExact n stream with
  | some taken => .ok taken
  | none => .error .unexpectedEof

theorem readExact_append {l rest : List UInt8} {n : Nat} (hn : l.length = n) :
    readExact n (l ++ rest) = .ok (l, rest) := by
  rw [← hn, readExact, takeExact_append]

theorem readExact_short {n : Nat} {stream : List UInt8} (h : stream.length < n) :
    readExact n stream = .error .unexpectedEof := by
  rw [readExact, takeExact_eq_none h]

/-- Appends to the stream. -/
def writeAll (stream bytes : List UInt8) : List UInt8 := stream ++ bytes

section Streams

variable [Memory]

/-- A buffer of `len` zeros. A capacity above `isizeMax` overflows, and the process is
aborted where there is no memory for one below. -/
def allocate (len : UInt64) : Except ReceiveAbort Unit :=
  if len.toNat ≤ Memory.available then .ok ()
  else if len.toNat ≤ isizeMax then .error .abort
  else .error .panic

variable [Cbor]

namespace Message

def encode (m : Message) : Except String Vec := Cbor.intoWriter m

def decode (data : List UInt8) : Except ReceiveAbort Message :=
  (Cbor.fromReader data).mapError .decode

def send (m : Message) (stream : List UInt8) : Except String (List UInt8) := do
  let bytes ← m.encode
  let len := UInt64.ofNat bytes.bytes.length
  let stream := writeAll stream (toBeBytes len)
  return writeAll stream bytes.bytes

def receive (stream : List UInt8) : Except ReceiveAbort (Message × List UInt8) := do
  let (lenBytes, stream) ← readExact 8 stream
  let len := fromBeBytes lenBytes
  allocate len
  let (data, stream) ← readExact len.toNat stream
  return (← decode data, stream)

def sendAsync (m : Message) (stream : List UInt8) : Except String (List UInt8) := do
  let bytes ← m.encode
  let len := UInt64.ofNat bytes.bytes.length
  let stream := writeAll stream (toBeBytes len)
  return writeAll stream bytes.bytes

def receiveAsync (stream : List UInt8) : Except ReceiveAbort (Message × List UInt8) := do
  let (lenBytes, stream) ← readExact 8 stream
  let len := fromBeBytes lenBytes
  allocate len
  let (data, stream) ← readExact len.toNat stream
  return (← decode data, stream)

theorem sendAsync_eq_send (m : Message) : m.sendAsync = m.send := rfl

theorem receiveAsync_eq_receive : receiveAsync = receive := rfl

/-- Decoding the encoding of the message gives the message back. -/
def RoundTrips (m : Message) : Prop :=
  ∃ bytes, m.encode = .ok bytes ∧ decode bytes.bytes = .ok m

/-- The length of a vector behind which its bytes are sent. -/
def lenHeader : Header UInt8 where
  width := 8
  limit := Memory.available
  write n := toBeBytes (UInt64.ofNat n)
  read bytes := (fromBeBytes bytes).toNat
  length_write n := length_toBeBytes (UInt64.ofNat n)
  read_write n hn := by
    rw [fromBeBytes_toBeBytes, UInt64.toNat_ofNat']
    exact Nat.mod_eq_of_lt (Nat.lt_of_le_of_lt (hn.trans Memory.available_le) (by decide))

/-- The frame of a message that can be encoded. -/
def frame (m : Message) : List UInt8 :=
  match m.encode with
  | .ok bytes => Framing.frame lenHeader bytes.bytes
  | .error _ => []

theorem frame_of_encode {m : Message} {bytes : Vec} (h : m.encode = .ok bytes) :
    m.frame = Framing.frame lenHeader bytes.bytes := by
  rw [frame, h]

theorem send_of_encode {m : Message} {bytes : Vec} (h : m.encode = .ok bytes)
    (stream : List UInt8) : m.send stream = .ok (stream ++ m.frame) := by
  rw [send, h, frame_of_encode h, Framing.frame, ← List.append_assoc]
  rfl

/-- Behind a length that can be allocated, that many bytes are read and decoded. -/
theorem receive_header (body : Vec) (stream : List UInt8) :
    receive (lenHeader.write body.bytes.length ++ stream) = do
      let (data, rest) ← readExact body.bytes.length stream
      return (← decode data, rest) := by
  have hlen : (fromBeBytes (lenHeader.write body.bytes.length)).toNat = body.bytes.length :=
    lenHeader.read_write _ body.length_le
  have hallocate : allocate (fromBeBytes (lenHeader.write body.bytes.length)) = .ok () := by
    rw [allocate, hlen, if_pos body.length_le]
  have hread : readExact 8 (lenHeader.write body.bytes.length ++ stream) =
      .ok (lenHeader.write body.bytes.length, stream) :=
    readExact_append (lenHeader.length_write _)
  rw [receive, hread]
  change (allocate _ >>= fun _ => readExact (fromBeBytes _).toNat stream >>= _) = _
  rw [hallocate, hlen]
  rfl

/-- Receiving takes the frame of a message off the stream. -/
theorem takes_receive {m : Message} (h : m.RoundTrips) :
    Takes receive frame .unexpectedEof m := by
  obtain ⟨body, hencode, hdecode⟩ := h
  have hframe := frame_of_encode hencode
  refine ⟨fun rest => ?_, fun p hp hne => ?_⟩
  · rw [hframe, Framing.frame, List.append_assoc, receive_header, readExact_append rfl]
    change (decode body.bytes >>= fun message => pure (message, rest)) = _
    rw [hdecode]
    rfl
  · rw [hframe] at hp hne
    rcases cut_cases hp hne with hshort | ⟨q, rfl, hq⟩
    · have hread : readExact 8 p = .error .unexpectedEof := readExact_short hshort
      rw [receive, hread]
      rfl
    · rw [receive_header, readExact_short hq]
      rfl

end Message

/-- The two ways in which the functions are written. -/
inductive Style
  | blocking
  | async
  deriving DecidableEq

namespace Style

def send : Style → Message → List UInt8 → Except String (List UInt8)
  | blocking => Message.send
  | async => Message.sendAsync

def receive : Style → List UInt8 → Except ReceiveAbort (Message × List UInt8)
  | blocking => Message.receive
  | async => Message.receiveAsync

theorem send_of_encode {m : Message} {bytes : Vec} (style : Style) (h : m.encode = .ok bytes)
    (stream : List UInt8) : style.send m stream = .ok (stream ++ m.frame) := by
  cases style with
  | blocking => exact Message.send_of_encode h stream
  | async =>
      rw [Style.send, Message.sendAsync_eq_send]
      exact Message.send_of_encode h stream

end Style

/-- Sends messages in turn, each in its own style. -/
def sendAll (sent : List (Style × Message)) (stream : List UInt8) :
    Except String (List UInt8) :=
  sent.foldlM (fun stream p => p.1.send p.2 stream) stream

/-- Receives one message after another, each in its own style, up to the first error. -/
def receiveAll (readers : List Style) (stream : List UInt8) :
    List Message × Except ReceiveAbort (List UInt8) :=
  readAll (readers.map Style.receive) stream

theorem takes_style {m : Message} (h : m.RoundTrips) (style : Style) :
    Takes style.receive Message.frame .unexpectedEof m := by
  cases style with
  | blocking => exact Message.takes_receive h
  | async =>
      rw [Style.receive, Message.receiveAsync_eq_receive]
      exact Message.takes_receive h

theorem takes_all {sent : List (Style × Message)} (h : ∀ p ∈ sent, p.2.RoundTrips)
    (readers : List Style) :
    ∀ read ∈ readers.map Style.receive, ∀ m ∈ sent.map Prod.snd,
      Takes read Message.frame .unexpectedEof m := by
  intro read hread m hm
  obtain ⟨style, -, rfl⟩ := List.mem_map.mp hread
  obtain ⟨p, hp, rfl⟩ := List.mem_map.mp hm
  exact takes_style (h p hp) style

theorem sendAll_eq {sent : List (Style × Message)} (h : ∀ p ∈ sent, p.2.RoundTrips)
    (stream : List UInt8) :
    sendAll sent stream = .ok (stream ++ (sent.map Prod.snd).flatMap Message.frame) := by
  induction sent generalizing stream with
  | nil => simp [sendAll]; rfl
  | cons p sent ih =>
      obtain ⟨bytes, hencode, -⟩ := h p List.mem_cons_self
      have hsend := p.1.send_of_encode hencode stream
      have htail := ih (fun q hq => h q (List.mem_cons_of_mem _ hq)) (stream ++ p.2.frame)
      rw [sendAll, List.foldlM_cons, hsend]
      rw [List.map_cons, List.flatMap_cons, ← List.append_assoc]
      exact htail

/-- As many reads as there are messages return them and leave what follows. -/
def Lossless (messages : List Message) (written : List UInt8) : Prop :=
  ∀ (readers : List Style) (rest : List UInt8), readers.length = messages.length →
    receiveAll readers (written ++ rest) = (messages, .ok rest)

/-- The stream holds the frames of the first `k` messages, but not of one more. -/
def HoldsFrames (sent : List (Style × Message)) (stream : List UInt8) (k : Nat) : Prop :=
  (∃ frames, sendAll (sent.take k) [] = .ok frames ∧ frames <+: stream) ∧
    ¬ ∃ frames, sendAll (sent.take (k + 1)) [] = .ok frames ∧ frames <+: stream

/-- On every cut of the stream the messages with complete frames are received, and then
the end is reported. -/
def SelfSynchronising (sent : List (Style × Message)) (written : List UInt8) : Prop :=
  ∀ p, p <+: written → p ≠ written → ∃ k < sent.length, HoldsFrames sent p k ∧
    ∀ readers : List Style, k < readers.length →
      receiveAll readers p = ((sent.map Prod.snd).take k, .error .unexpectedEof)

theorem lossless {sent : List (Style × Message)} (h : ∀ p ∈ sent, p.2.RoundTrips) :
    Lossless (sent.map Prod.snd) ((sent.map Prod.snd).flatMap Message.frame) := by
  intro readers rest hlen
  exact readAll_written (takes_all h readers) (by rw [List.length_map, hlen]) rest

theorem selfSynchronising {sent : List (Style × Message)} (h : ∀ p ∈ sent, p.2.RoundTrips) :
    SelfSynchronising sent ((sent.map Prod.snd).flatMap Message.frame) := by
  intro p hp hne
  obtain ⟨before, m, after, q, hsplit, rfl, hq, hqne⟩ := exists_cut hp hne
  have hlen : before.length < sent.length := by
    rw [← List.length_map Prod.snd, hsplit]
    simp
  have hbefore : (sent.map Prod.snd).take before.length = before := by
    rw [hsplit, List.take_left]
  have hnext : (sent.map Prod.snd).take (before.length + 1) = before ++ [m] := by
    rw [hsplit, List.take_length_add_append, List.take_succ_cons, List.take_zero]
  have hsend : ∀ k, sendAll (sent.take k) [] =
      .ok (((sent.map Prod.snd).take k).flatMap Message.frame) := fun k => by
    rw [sendAll_eq (fun p hp => h p (List.mem_of_mem_take hp)), List.nil_append, List.map_take]
  refine ⟨before.length, hlen, ⟨⟨_, hsend _, ?_⟩, ?_⟩, fun readers hreaders => ?_⟩
  · rw [hbefore]
    exact List.prefix_append _ _
  · rintro ⟨frames, hframes, hprefix⟩
    rw [hsend, hnext] at hframes
    rw [← Except.ok.inj hframes, List.flatMap_append, List.flatMap_singleton,
      List.prefix_append_right_inj] at hprefix
    exact hqne (hq.eq_of_length_le hprefix.length_le)
  · rw [hbefore]
    refine readAll_cut (fun read hread y hy => ?_) (by rwa [List.length_map]) hq hqne
    rw [← hnext] at hy
    exact takes_all h readers read hread y (List.mem_of_mem_take hy)

/-- Messages sent and received in any mix of styles. -/
theorem sendAll_receiveAll {sent : List (Style × Message)} (h : ∀ p ∈ sent, p.2.RoundTrips) :
    ∃ written, sendAll sent [] = .ok written ∧ Lossless (sent.map Prod.snd) written ∧
      SelfSynchronising sent written :=
  ⟨_, sendAll_eq h [], lossless h, selfSynchronising h⟩

end Streams

@[reducible] def gigabyte : Memory := ⟨1073741824, by decide⟩

/-- The CBOR of `DiscoverNodes`, a string, and of `FetchBlock(3)`, a map of one entry. -/
@[reducible] def twoMessages : @Cbor gigabyte :=
  letI := gigabyte
  { intoWriter := fun m =>
      match m with
      | .discoverNodes =>
          .ok ⟨[0x6d, 0x44, 0x69, 0x73, 0x63, 0x6f, 0x76, 0x65, 0x72, 0x4e, 0x6f, 0x64, 0x65,
            0x73], by decide⟩
      | .fetchBlock 3 =>
          .ok ⟨[0xa1, 0x6a, 0x46, 0x65, 0x74, 0x63, 0x68, 0x42, 0x6c, 0x6f, 0x63, 0x6b, 0x03],
            by decide⟩
      | _ => .error "not listed"
    fromReader := fun bytes =>
      match bytes with
      | [0x6d, 0x44, 0x69, 0x73, 0x63, 0x6f, 0x76, 0x65, 0x72, 0x4e, 0x6f, 0x64, 0x65, 0x73] =>
          .ok .discoverNodes
      | [0xa1, 0x6a, 0x46, 0x65, 0x74, 0x63, 0x68, 0x42, 0x6c, 0x6f, 0x63, 0x6b, 0x03] =>
          .ok (.fetchBlock 3)
      | _ => .error "not listed" }

/-- A request for the nodes and an asynchronous one for a block. -/
theorem sendAll_receiveAll_twoMessages :
    letI := gigabyte
    letI := twoMessages
    ∃ written, sendAll [(.blocking, .discoverNodes), (.async, .fetchBlock 3)] [] = .ok written ∧
      Lossless [.discoverNodes, .fetchBlock 3] written ∧
      SelfSynchronising [(.blocking, .discoverNodes), (.async, .fetchBlock 3)] written := by
  let := gigabyte
  let := twoMessages
  have hnodes : Message.RoundTrips .discoverNodes := ⟨_, rfl, rfl⟩
  have hblock : Message.RoundTrips (.fetchBlock 3) := ⟨_, rfl, rfl⟩
  have hsent : ∀ p ∈ ([(.blocking, .discoverNodes), (.async, .fetchBlock 3)] :
      List (Style × Message)), p.2.RoundTrips := by
    simpa using ⟨hnodes, hblock⟩
  exact sendAll_receiveAll hsent

end ToyBtc
