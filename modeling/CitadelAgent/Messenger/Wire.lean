import CitadelAgent.Lib.BigEndian

/-!
# The messenger's wire

`citadel-internal-service-connector/src/messenger/wire/{mod,decode,inbound,advertisement}.rs` with the two ends the agent
puts around it, `kernel/ilm/registry.rs` (`feed`) and `kernel/ilm/delivery.rs`: a peer's bytes become a frame for the
account's ILM, and a message ILM hands on goes to the account.

* `WireWrapper`, `readWrapper` : the three shapes of a frame and their `bincode` reading;
* `feed_names_the_peer` : when the frame a peer's bytes become is the peer's own.

What ILM's crate defines is a parameter (`Outside`): the encoding of its `Payload`, and the codecs.
-/

namespace CitadelAgent.Messenger
open BigEndian

structure MessageNotification where
  message : List UInt8
  cid : Nat
  peerCid : Nat
  requestId : Option Nat
  deriving DecidableEq

inductive InternalServicePayload
  | notification (n : MessageNotification)
  | other (bytes : List UInt8)
  deriving DecidableEq

structure WrappedMessage where
  sourceId : Nat
  destinationId : Nat
  messageId : Nat
  contents : InternalServicePayload
  deriving DecidableEq

/-- ILM's `Payload`. -/
inductive InternalMessage
  | message (m : WrappedMessage)
  | ack (fromId toId messageId : Nat)
  | poll (fromId toId : Nat) (lastReceivedFromPeer : Option Nat)
  deriving DecidableEq

namespace InternalMessage

def sourceId : InternalMessage → Nat
  | message m => m.sourceId
  | ack fromId _ _ => fromId
  | poll fromId _ _ => fromId

def destinationId : InternalMessage → Nat
  | message m => m.destinationId
  | ack _ toId _ => toId
  | poll _ toId _ => toId

end InternalMessage

inductive WireWrapper
  | message (source destination messageId : Nat) (contents : List UInt8)
  | ismAux (signal : InternalMessage)
  | messageV2 (source destination messageId codec dictId : Nat) (piggybackedAck : Option Nat) (contents : List UInt8)

/-! ## `bincode` -/

abbrev Reader (α : Type) := List UInt8 → Except String (α × List UInt8)

structure Outside where
  /-- `bincode` of ILM's `Payload`. -/
  signal : Reader InternalMessage
  /-- `Codec::from_wire`, then `compression::decode`. -/
  inflate : Nat → List UInt8 → Except String (List UInt8)

def endOfInput : String := "unexpected end of file"

/-- `n` bytes. -/
def readBytes (n : Nat) : Reader (List UInt8) := fun bytes =>
  if n ≤ bytes.length then .ok (bytes.take n, bytes.drop n) else .error endOfInput

/-- An unsigned number of `k` bytes, the least significant first. -/
def readLe (k : Nat) : Reader Nat := fun bytes => do
  let (word, rest) ← readBytes k bytes
  pure (ofBe word.reverse, rest)

def readOption : Reader (Option Nat) := fun bytes => do
  let (tag, rest) ← readLe 1 bytes
  match tag with
  | 0 => pure (none, rest)
  | 1 =>
      let (value, rest) ← readLe 8 rest
      pure (some value, rest)
  | _ => .error "invalid tag encoding for an option"

def readVec : Reader (List UInt8) := fun bytes => do
  let (length, rest) ← readLe 8 bytes
  readBytes length rest

/-- `bincode2::deserialize_from`: the variant by its index, its fields in their order, and what is left. -/
def readWrapper (out : Outside) : Reader WireWrapper := fun bytes => do
  let (tag, rest) ← readLe 4 bytes
  match tag with
  | 0 =>
      let (source, rest) ← readLe 8 rest
      let (destination, rest) ← readLe 8 rest
      let (messageId, rest) ← readLe 8 rest
      let (contents, rest) ← readVec rest
      pure (.message source destination messageId contents, rest)
  | 1 =>
      let (signal, rest) ← out.signal rest
      pure (.ismAux signal, rest)
  | 2 =>
      let (source, rest) ← readLe 8 rest
      let (destination, rest) ← readLe 8 rest
      let (messageId, rest) ← readLe 8 rest
      let (codec, rest) ← readLe 1 rest
      let (dictId, rest) ← readLe 2 rest
      let (piggybackedAck, rest) ← readOption rest
      let (contents, rest) ← readVec rest
      pure (.messageV2 source destination messageId codec dictId piggybackedAck contents, rest)
  | _ => .error "invalid value: integer, expected variant index 0 <= i < 3"

/-! ## Decoding -/

/-- What a control frame says of its sender: the flags and the codecs it advertises, or `LEGACY`. -/
inductive CapabilityEvidence
  | advertised (capabilities : Option (UInt8 × Nat))
  | silent
  deriving DecidableEq

def MAGIC : List UInt8 := [0xC1, 0x7A]
def VERSION : UInt8 := 1

/-- `advertisement::read`. -/
def readAdvertisement : List UInt8 → Option (UInt8 × Nat)
  | m0 :: m1 :: version :: flags :: c0 :: c1 :: c2 :: c3 :: _ =>
      if [m0, m1] = MAGIC ∧ VERSION ≤ version then some (flags, ofBe [c3, c2, c1, c0]) else none
  | _ => none

inductive Decoded
  | data (source destination messageId : Nat) (contents : List UInt8) (piggybackedAck : Option Nat)
  | control (signal : InternalMessage) (evidence : CapabilityEvidence)

inductive DecodeError
  | notAFrame (reason : String)
  | unreadable (reason : String)

def evidenceOf (rest : List UInt8) : InternalMessage → CapabilityEvidence
  | .message _ => .silent
  | _ => .advertised (readAdvertisement rest)

def decodeNotification (out : Outside) (bytes : List UInt8) : Except DecodeError Decoded :=
  match readWrapper out bytes with
  | .error err => .error (.notAFrame err)
  | .ok (.message source destination messageId contents, _) => .ok (.data source destination messageId contents none)
  | .ok (.ismAux signal, rest) => .ok (.control signal (evidenceOf rest signal))
  | .ok (.messageV2 source destination messageId codec dictId piggybackedAck contents, _) =>
      if dictId ≠ 0 then
        .error (.unreadable
          s!"frame {messageId} from {source} uses dictionary {dictId}, which this build does not have")
      else
        match out.inflate codec contents with
        | .error err => .error (.unreadable s!"frame {messageId} from {source}: {err}")
        | .ok contents => .ok (.data source destination messageId contents piggybackedAck)

structure InboundFrame where
  payload : InternalMessage
  evidence : CapabilityEvidence
  piggybackedAck : Option Nat
  deriving DecidableEq

def intoInboundFrame (decoded : Decoded) (notification : MessageNotification) : InboundFrame :=
  match decoded with
  | .control signal evidence => ⟨signal, evidence, none⟩
  | .data source destination messageId contents piggybackedAck =>
      ⟨.message ⟨source, destination, messageId, .notification { notification with message := contents }⟩, .silent,
        piggybackedAck⟩

/-! ## The agent's ends -/

inductive Slot
  | starting (ticket : Nat)
  | running (reads : Bool)

inductive Fed
  | handed (frame : InboundFrame)
  | dropped
  | handedBack (notification : MessageNotification)
  deriving DecidableEq

/-- `IlmRegistry::feed`. -/
def feed (out : Outside) (hosts : Nat → Option Slot) (notification : MessageNotification) : Fed :=
  match hosts notification.cid with
  | some (.running reads) =>
      match decodeNotification out notification.message with
      | .ok decoded => if reads = true then .handed (intoInboundFrame decoded notification) else .dropped
      | .error (.unreadable _) => .dropped
      | .error (.notAFrame _) => .handedBack notification
  | _ => .handedBack notification

/-- What `AgentDelivery::deliver` calls `HostIo::deliver` with, for the account `cid`. -/
def AgentDelivery.deliver (cid : Nat) (message : WrappedMessage) : Option (Nat × MessageNotification) :=
  match message.contents with
  | .notification n => some (cid, n)
  | .other _ => none

/-! ## Whose frame it is -/

/-- The frame is of `peer` to `cid`, and so is what is delivered of it. -/
structure InboundFrame.Between (peer cid : Nat) (frame : InboundFrame) : Prop where
  source : frame.payload.sourceId = peer
  destination : frame.payload.destinationId = cid
  delivered : ∀ m, frame.payload = .message m → ∀ to_ n, AgentDelivery.deliver cid m = some (to_, n) →
    to_ = cid ∧ n.cid = cid ∧ n.peerCid = peer

/-- A control frame that names `peer` and `cid`, also in the message it may carry. -/
def InternalMessage.Names (peer cid : Nat) (signal : InternalMessage) : Prop :=
  signal.sourceId = peer ∧ signal.destinationId = cid ∧
    ∀ m n, signal = .message m → m.contents = .notification n → n.cid = cid ∧ n.peerCid = peer

/-- The bytes are no frame, one that is not read, or one whose own words are that it is of `peer` to `cid`. -/
def Names (out : Outside) (peer cid : Nat) (bytes : List UInt8) : Prop :=
  match readWrapper out bytes with
  | .error _ => True
  | .ok (.message source destination _ _, _) => source = peer ∧ destination = cid
  | .ok (.ismAux signal, _) => signal.Names peer cid
  | .ok (.messageV2 source destination _ codec dictId _ contents, _) =>
      dictId = 0 → (out.inflate codec contents).isOk = true → source = peer ∧ destination = cid

theorem between_data {source destination : Nat} (messageId : Nat) (contents : List UInt8) (piggybackedAck : Option Nat)
    (n : MessageNotification) :
    (intoInboundFrame (.data source destination messageId contents piggybackedAck) n).Between n.peerCid n.cid ↔
      source = n.peerCid ∧ destination = n.cid := by
  constructor
  · exact fun h => ⟨h.source, h.destination⟩
  · rintro ⟨hsource, hdestination⟩
    refine ⟨hsource, hdestination, fun m hm to_ n' hn' => ?_⟩
    -- what is delivered is the notification itself, with other bytes
    obtain rfl := InternalMessage.message.inj hm
    obtain ⟨rfl, rfl⟩ := Prod.mk.inj (Option.some.inj hn')
    exact ⟨rfl, rfl, rfl⟩

theorem between_control (signal : InternalMessage) (evidence : CapabilityEvidence) (n : MessageNotification) :
    (intoInboundFrame (.control signal evidence) n).Between n.peerCid n.cid ↔ signal.Names n.peerCid n.cid := by
  constructor
  · rintro ⟨hsource, hdestination, hdelivered⟩
    refine ⟨hsource, hdestination, fun m n' hm hn' => ?_⟩
    exact (hdelivered m hm n.cid n' (by simp [AgentDelivery.deliver, hn'])).2
  · rintro ⟨hsource, hdestination, hnames⟩
    refine ⟨hsource, hdestination, fun m hm to_ n' hn' => ?_⟩
    simp only [AgentDelivery.deliver] at hn'
    split at hn'
    · rename_i n'' hcontents
      obtain ⟨rfl, rfl⟩ := Prod.mk.inj (Option.some.inj hn')
      exact ⟨rfl, hnames m _ hm hcontents⟩
    · cases hn'

theorem decode_between (out : Outside) (n : MessageNotification) :
    (∀ decoded, decodeNotification out n.message = .ok decoded →
        (intoInboundFrame decoded n).Between n.peerCid n.cid) ↔ Names out n.peerCid n.cid n.message := by
  unfold decodeNotification Names
  rcases readWrapper out n.message with err | ⟨wrapper, rest⟩
  · simp
  · cases wrapper with
    | message source destination messageId contents => simp [between_data]
    | ismAux signal => simp [between_control]
    | messageV2 source destination messageId codec dictId piggybackedAck contents =>
        by_cases hdict : dictId = 0
        · cases hinflate : out.inflate codec contents with
          | error err => simp [hdict, hinflate, Except.isOk, Except.toBool]
          | ok contents' => simp [hdict, hinflate, Except.isOk, Except.toBool, between_data]
        · simp [hdict]

/-- The frame an account's ILM is handed for a peer's bytes is that peer's, and so is what is delivered of it, exactly
when the bytes themselves say so. -/
theorem feed_names_the_peer (out : Outside) (hosts : Nat → Option Slot) (n : MessageNotification) :
    (∀ frame, feed out hosts n = .handed frame → frame.Between n.peerCid n.cid) ↔
      (hosts n.cid = some (.running true) → Names out n.peerCid n.cid n.message) := by
  unfold feed
  rcases hhost : hosts n.cid with _ | _ | reads
  · simp
  · simp
  · cases reads with
    | false =>
        simp only [Bool.false_eq_true, if_false]
        rcases decodeNotification out n.message with (_ | _) | _ <;> simp
    | true =>
        simp only [if_true, forall_const]
        rw [← decode_between]
        rcases decodeNotification out n.message with (_ | _) | decoded <;> simp

def frameOfNine : List UInt8 :=
  [0, 0, 0, 0] ++ [9, 0, 0, 0, 0, 0, 0, 0] ++ [1, 0, 0, 0, 0, 0, 0, 0] ++ [5, 0, 0, 0, 0, 0, 0, 0] ++
    [2, 0, 0, 0, 0, 0, 0, 0] ++ [104, 105]

/-- A reading without control frames and codecs, which the frame above has no use for. -/
def dataOnly : Outside := ⟨fun _ => .error endOfInput, fun _ contents => .ok contents⟩

/-- The peer 7 sends it to the account 1, and the account's ILM is handed a frame of 9. -/
theorem seven_speaks_for_nine :
    ¬ ∀ frame, feed dataOnly (fun _ => some (.running true)) ⟨frameOfNine, 1, 7, none⟩ = .handed frame →
      frame.Between 7 1 := by
  intro h
  have hsource := (h ⟨.message ⟨9, 1, 5, .notification ⟨[104, 105], 1, 7, none⟩⟩, .silent, none⟩ (by decide +kernel)).source
  simp [InternalMessage.sourceId] at hsource

end CitadelAgent.Messenger
