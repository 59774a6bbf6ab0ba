import CitadelAgent.Messenger.Encode

/-!
# The messenger's frames, out and back

`citadel-internal-service-connector/src/messenger/wire/{mod,advertisement}.rs`: `to_request` for data and control frames, the
advertisement after a control frame, and the wire as peers that predate the extensions write and read it.

* `OutboundFrame`, `toRequest` : what ILM hands over, and the request that carries it;
* `Capabilities` : ILM's `PeerCapabilities` by its wire form, a parameter;
* `Legacy`, `writeLegacy`, `readLegacy` : the two shapes older peers know;
* `data_survives`, `control_survives` : what a peer decodes of a frame is what ILM handed over.
-/

namespace CitadelAgent.Messenger.Interop

open BigEndian Result

/-! ## Frames -/

/-- `InternalServiceRequest::Message`; a `Vec` is shorter than an address space. -/
structure MessageRequest (Level : Type) where
  requestId : Nat
  message : List UInt8
  cid : UInt64
  peerCid : Option UInt64
  securityLevel : Level

inductive Contents (Level : Type)
  | outgoing (request : MessageRequest Level) (fits : request.message.length < 2 ^ 64)
  | other (payload : InternalServicePayload)

structure DataMessage (Level : Type) where
  sourceId : UInt64
  destinationId : UInt64
  messageId : UInt64
  contents : Contents Level

/-- ILM's `Payload`, less `Message`. -/
inductive ControlMessage
  | ack (fromId toId messageId : UInt64)
  | poll (fromId toId : UInt64) (lastReceivedFromPeer : Option UInt64)

def ControlMessage.signal : ControlMessage → InternalMessage
  | .ack fromId toId messageId => .ack fromId.toNat toId.toNat messageId.toNat
  | .poll fromId toId last => .poll fromId.toNat toId.toNat (last.map UInt64.toNat)

def ControlMessage.sourceId : ControlMessage → UInt64
  | .ack fromId _ _ => fromId
  | .poll fromId _ _ => fromId

def ControlMessage.destinationId : ControlMessage → UInt64
  | .ack _ toId _ => toId
  | .poll _ toId _ => toId

inductive OutboundPayload (Level : Type)
  | message (message : DataMessage Level)
  | control (message : ControlMessage)

/-- ILM's `FrameExtensions<u64>`, over its `PeerCapabilities`. -/
inductive Extensions (P : Type)
  | none
  | negotiated (piggybackedAck : Option UInt64) (compression : Option Plan)
  | advertise (capabilities : P)

structure OutboundFrame (Level P : Type) where
  payload : OutboundPayload Level
  extensions : Extensions P

/-- ILM's `PeerCapabilities`: its wire form, and what is read from one. -/
structure Capabilities (P : Type) where
  flagsToWire : P → UInt8
  codecsToWire : P → UInt32
  fromWire : UInt8 → UInt32 → P
  legacy : P

section
variable {Level P : Type} (caps : Capabilities P) (writing : OutsideWriting)

def Extensions.onWire : Extensions P → FrameExtensions
  | .none => .none
  | .negotiated piggybackedAck compression => .negotiated (piggybackedAck.map UInt64.toNat) compression
  | .advertise capabilities => .advertise (caps.flagsToWire capabilities) (caps.codecsToWire capabilities).toNat

/-- `advertisement::append` -/
def append (frame : List UInt8) (capabilities : P) : List UInt8 :=
  frame ++ (MAGIC ++ VERSION :: caps.flagsToWire capabilities :: writeLe 4 (caps.codecsToWire capabilities).toNat)

/-- What the bytes after a control frame say about its sender. -/
def Capabilities.read : Option (UInt8 × Nat) → P
  | some (flags, codecs) => caps.fromWire flags (UInt32.ofNat codecs)
  | none => caps.legacy

/-- `data_request` -/
def dataToRequest (message : DataMessage Level) (extensions : Extensions P) : Except EncodeError (MessageRequest Level) :=
  match message.contents with
  | .other _ =>
    .error (.unencodable
      s!"data frame {message.messageId.toNat} for {message.destinationId.toNat} is not an outgoing message")
  | .outgoing request _ => do
    let bytes ← dataRequest writing message.sourceId.toNat message.destinationId.toNat message.messageId.toNat request.message
      (extensions.onWire caps)
    return { request with message := bytes }

/-- `control_request`; its request id is drawn anew. -/
def controlToRequest [Inhabited Level] (drawn : Nat) (control : ControlMessage) (extensions : Extensions P) :
    Except EncodeError (MessageRequest Level) := do
  let advertised ← match extensions with
    | .none => .ok Option.none
    | .advertise capabilities => .ok (some capabilities)
    | .negotiated _ _ => .error (.unencodable "an Ack or Poll carries data-frame extensions")
  let bytes := writeWrapper writing (.ismAux control.signal)
  return {
    requestId := drawn
    message := advertised.elim bytes (append caps bytes)
    cid := control.sourceId
    peerCid := some control.destinationId
    securityLevel := default }

def toRequest [Inhabited Level] (drawn : Nat) (frame : OutboundFrame Level P) : Except EncodeError (MessageRequest Level) :=
  match frame.payload with
  | .message message => dataToRequest caps writing message frame.extensions
  | .control control => controlToRequest caps writing drawn control frame.extensions

end

/-! ## The wire before the extensions -/

/-- The enum every deployed peer decodes with. -/
inductive Legacy
  | message (source destination messageId : Nat) (contents : List UInt8)
  | ismAux (signal : InternalMessage)

def writeLegacy (writing : OutsideWriting) : Legacy → List UInt8
  | .message source destination messageId contents =>
    writeLe 4 0 ++ (writeLe 8 source ++ (writeLe 8 destination ++ (writeLe 8 messageId ++ writeVec contents)))
  | .ismAux signal => writeLe 4 1 ++ writing.signal signal

/-- `bincode2::deserialize`: what follows the value is not looked at. -/
def readLegacy (out : Outside) (bytes : List UInt8) : Except String Legacy := do
  let (tag, rest) ← readLe 4 bytes
  match tag with
  | 0 =>
    let (source, rest) ← readLe 8 rest
    let (destination, rest) ← readLe 8 rest
    let (messageId, rest) ← readLe 8 rest
    let (contents, _) ← readVec rest
    pure (.message source destination messageId contents)
  | 1 =>
    let (signal, _) ← out.signal rest
    pure (.ismAux signal)
  | _ => .error "invalid value: integer, expected variant index 0 <= i < 2"

/-! ## What ILM's crate promises -/

/-- `bincode` of a control frame and the codecs read back what they wrote, and `from_wire` undoes `to_wire`. -/
structure RoundTrips {P : Type} (caps : Capabilities P) (writing : OutsideWriting) (out : Outside) : Prop where
  signal : ∀ (control : ControlMessage) rest, out.signal (writing.signal control.signal ++ rest) = .ok (control.signal, rest)
  deflated : ∀ plan raw codec bytes, raw.length < 2 ^ 64 → writing.deflate plan raw = .ok (codec, bytes) →
    codec < 256 ∧ bytes.length < 2 ^ 64 ∧ out.inflate codec bytes = .ok raw
  identity : ∀ raw, out.inflate IDENTITY raw = .ok raw
  capabilities : ∀ c, caps.fromWire (caps.flagsToWire c) (caps.codecsToWire c) = c

def Refused {Level P : Type} (frame : OutboundFrame Level P) : Prop :=
  match frame.payload, frame.extensions with
  | .message _, .advertise _ => True
  | .message ⟨_, _, _, .other _⟩, _ => True
  | .control _, .negotiated _ _ => True
  | _, _ => False

def Extensions.ack {P : Type} : Extensions P → Option UInt64
  | .negotiated piggybackedAck _ => piggybackedAck
  | _ => Option.none

def Extensions.advertised {P : Type} (caps : Capabilities P) : Extensions P → P
  | .advertise capabilities => capabilities
  | _ => caps.legacy

def Extensions.Plain {P : Type} (writing : OutsideWriting) (raw : List UInt8) : Extensions P → Prop
  | .none => True
  | .negotiated piggybackedAck compression =>
    piggybackedAck = Option.none ∧ ∀ plan, compression = some plan → ∃ bytes, writing.deflate plan raw = .ok (IDENTITY, bytes)
  | .advertise _ => False

section
variable {Level P : Type} {caps : Capabilities P} {writing : OutsideWriting} {out : Outside}

/-! ## Data -/

theorem encodeContents_eq_ok (h : RoundTrips caps writing out) {raw bytes : List UInt8} {compression : Option Plan}
    {codec : Nat} (hraw : raw.length < 2 ^ 64) (hencoded : encodeContents writing raw compression = .ok (codec, bytes)) :
    codec < 256 ∧ bytes.length < 2 ^ 64 ∧ out.inflate codec bytes = .ok raw := by
  cases compression with
  | none =>
    obtain ⟨rfl, rfl⟩ := Prod.mk.inj (Except.ok.inj hencoded)
    exact ⟨by decide, hraw, h.identity raw⟩
  | some plan =>
    rw [encodeContents] at hencoded
    cases hdeflate : writing.deflate plan raw with
    | error why =>
      rw [hdeflate] at hencoded
      cases hencoded
    | ok encoded =>
      rw [hdeflate] at hencoded
      obtain rfl := Except.ok.inj hencoded
      exact h.deflated plan raw codec bytes hraw hdeflate

theorem eq_of_identity (h : RoundTrips caps writing out) {raw bytes : List UInt8}
    (hinflate : out.inflate IDENTITY bytes = .ok raw) : bytes = raw :=
  Except.ok.inj ((h.identity bytes).symm.trans hinflate)

theorem dataRequest_eq_ok (h : RoundTrips caps writing out) {source destination messageId : Nat} {raw bytes : List UInt8}
    {extensions : Extensions P} (hraw : raw.length < 2 ^ 64)
    (hsent : dataRequest writing source destination messageId raw (extensions.onWire caps) = .ok bytes) :
    (extensions.ack = none ∧ bytes = writeWrapper writing (.message source destination messageId raw)) ∨
      ∃ codec contents, codec < 256 ∧ contents.length < 2 ^ 64 ∧ out.inflate codec contents = .ok raw ∧
        bytes = writeWrapper writing
          (.messageV2 source destination messageId codec 0 (extensions.ack.map UInt64.toNat) contents) := by
  cases extensions with
  | none => exact Or.inl ⟨rfl, (Except.ok.inj hsent).symm⟩
  | advertise capabilities => cases hsent
  | negotiated piggybackedAck compression =>
    rw [dataRequest, Extensions.onWire, dataWrapper] at hsent
    cases hencoded : encodeContents writing raw compression with
    | error why =>
      rw [hencoded] at hsent
      cases hsent
    | ok encoded =>
      obtain ⟨codec, contents⟩ := encoded
      obtain ⟨hcodec, hlength, hinflate⟩ := encodeContents_eq_ok h hraw hencoded
      rw [hencoded, ok_bind] at hsent
      dsimp only at hsent
      split at hsent
      case isTrue hplain =>
        refine Or.inl ⟨Option.map_eq_none_iff.mp hplain.2, ?_⟩
        rw [hplain.1] at hinflate
        rw [← eq_of_identity h hinflate]
        exact (Except.ok.inj hsent).symm
      case isFalse => exact Or.inr ⟨codec, contents, hcodec, hlength, hinflate, (Except.ok.inj hsent).symm⟩

theorem data_survives (h : RoundTrips caps writing out) {message : DataMessage Level} {extensions : Extensions P}
    {request sent : MessageRequest Level} {fits : request.message.length < 2 ^ 64}
    (hcontents : message.contents = .outgoing request fits) (hsent : dataToRequest caps writing message extensions = .ok sent) :
    decodeNotification out sent.message =
      .ok (.data message.sourceId.toNat message.destinationId.toNat message.messageId.toNat request.message
        (extensions.ack.map UInt64.toNat)) := by
  rw [dataToRequest, hcontents] at hsent
  obtain ⟨bytes, hbytes, hsent⟩ := bind_eq_ok.mp hsent
  obtain rfl := Except.ok.inj hsent
  have hsource := message.sourceId.toNat_lt
  have hdestination := message.destinationId.toNat_lt
  have hid := message.messageId.toNat_lt
  show decodeNotification out bytes = _
  rcases dataRequest_eq_ok h fits hbytes with ⟨hack, hplain⟩ | ⟨codec, contents, hcodec, hlength, hinflate, hextended⟩
  · have hread := readWrapper_message out writing hsource hdestination hid fits
    rw [← hplain] at hread
    simp only [decodeNotification, hread, hack, Option.map_none]
  · have hackFits : ∀ n, extensions.ack.map UInt64.toNat = some n → n < 2 ^ 64 := by
      intro n hn
      obtain ⟨ack, -, rfl⟩ := Option.map_eq_some_iff.mp hn
      exact ack.toNat_lt
    have hread := readWrapper_messageV2 out writing hsource hdestination hid hcodec hackFits hlength
    rw [← hextended] at hread
    simp only [decodeNotification, hread, ne_eq, not_true_eq_false, if_false, hinflate]

theorem data_plain (h : RoundTrips caps writing out) {message : DataMessage Level} {extensions : Extensions P}
    {request : MessageRequest Level} {fits : request.message.length < 2 ^ 64}
    (hcontents : message.contents = .outgoing request fits) (hplain : extensions.Plain writing request.message) :
    dataToRequest caps writing message extensions =
      .ok { request with
        message := writeLegacy writing
          (.message message.sourceId.toNat message.destinationId.toNat message.messageId.toNat request.message) } := by
  rw [dataToRequest, hcontents]
  dsimp only
  cases extensions with
  | none => rfl
  | advertise capabilities => exact hplain.elim
  | negotiated piggybackedAck compression =>
    obtain ⟨rfl, hpays⟩ := hplain
    have hencoded : encodeContents writing request.message compression = .ok (IDENTITY, request.message) := by
      cases compression with
      | none => rfl
      | some plan =>
        obtain ⟨bytes, hdeflate⟩ := hpays plan rfl
        have hsame := eq_of_identity h (h.deflated plan _ _ _ fits hdeflate).2.2
        rw [encodeContents, hdeflate, hsame]
        rfl
    rw [dataRequest, Extensions.onWire, dataWrapper, hencoded, ok_bind]
    dsimp only
    rw [if_pos ⟨rfl, rfl⟩]
    rfl

/-! ## Control -/

theorem readAdvertisement_written (flags : UInt8) (codecs : UInt32) :
    readAdvertisement (MAGIC ++ VERSION :: flags :: writeLe 4 codecs.toNat) = some (flags, codecs.toNat) := by
  have hread : ofBe (beBytes 4 codecs.toNat) = codecs.toNat := ofBe_beBytes (by simpa using codecs.toNat_lt)
  obtain ⟨a, b, c, d, hbytes⟩ : ∃ a b c d, beBytes 4 codecs.toNat = [a, b, c, d] := ⟨_, _, _, _, rfl⟩
  rw [hbytes] at hread
  have hwords : readAdvertisement (MAGIC ++ VERSION :: flags :: [d, c, b, a]) = some (flags, ofBe [a, b, c, d]) := by
    simp [readAdvertisement, MAGIC]
  rw [writeLe, hbytes]
  exact hwords.trans (by rw [hread])

theorem readWrapper_control (h : RoundTrips caps writing out) (control : ControlMessage) (rest : List UInt8) :
    readWrapper out (writeWrapper writing (.ismAux control.signal) ++ rest) = .ok (.ismAux control.signal, rest) := by
  rw [readWrapper, writeWrapper, List.append_assoc, readLe_append (by decide), ok_bind]
  dsimp only
  rw [h.signal, ok_bind]
  rfl

theorem readLegacy_control (h : RoundTrips caps writing out) (control : ControlMessage) (rest : List UInt8) :
    readLegacy out (writeLegacy writing (.ismAux control.signal) ++ rest) = .ok (.ismAux control.signal) := by
  rw [readLegacy, writeLegacy, List.append_assoc, readLe_append (by decide), ok_bind]
  dsimp only
  rw [h.signal, ok_bind]
  rfl

theorem evidenceOf_control (control : ControlMessage) (rest : List UInt8) :
    evidenceOf rest control.signal = .advertised (readAdvertisement rest) := by
  cases control <;> rfl

theorem controlToRequest_eq_ok [Inhabited Level] {drawn : Nat} {control : ControlMessage} {extensions : Extensions P}
    {sent : MessageRequest Level} (h : RoundTrips caps writing out)
    (hsent : controlToRequest caps writing drawn control extensions = .ok sent) :
    ∃ trailer, sent.message = writeLegacy writing (.ismAux control.signal) ++ trailer ∧
      caps.read (readAdvertisement trailer) = extensions.advertised caps := by
  cases extensions with
  | none =>
    rw [← Except.ok.inj hsent]
    exact ⟨[], (List.append_nil _).symm, rfl⟩
  | negotiated piggybackedAck compression => cases hsent
  | advertise capabilities =>
    rw [← Except.ok.inj hsent]
    refine ⟨_, rfl, ?_⟩
    rw [readAdvertisement_written]
    show caps.fromWire _ (UInt32.ofNat (caps.codecsToWire capabilities).toNat) = capabilities
    rw [UInt32.ofNat_toNat, h.capabilities]

theorem control_survives [Inhabited Level] {drawn : Nat} {control : ControlMessage} {extensions : Extensions P}
    {sent : MessageRequest Level} (h : RoundTrips caps writing out)
    (hsent : controlToRequest caps writing drawn control extensions = .ok sent) :
    ∃ wire, decodeNotification out sent.message = .ok (.control control.signal (.advertised wire)) ∧
      caps.read wire = extensions.advertised caps := by
  obtain ⟨trailer, hbytes, hread⟩ := controlToRequest_eq_ok h hsent
  have hwrapper : readWrapper out sent.message = .ok (.ismAux control.signal, trailer) := by
    rw [hbytes]
    exact readWrapper_control h control trailer
  refine ⟨readAdvertisement trailer, ?_, hread⟩
  simp only [decodeNotification, hwrapper, evidenceOf_control]

/-! ## Refusals -/

theorem dataRequest_negotiated {source destination messageId : Nat} {raw : List UInt8} {piggybackedAck : Option UInt64}
    {compression : Option Plan} {err : EncodeError}
    (herr : dataRequest writing source destination messageId raw
      ((Extensions.negotiated piggybackedAck compression).onWire caps) = .error err) :
    ∃ plan why, compression = some plan ∧ writing.deflate plan raw = .error why ∧ err = .compression why := by
  rw [dataRequest, Extensions.onWire, dataWrapper] at herr
  cases compression with
  | none =>
    rw [encodeContents, ok_bind] at herr
    dsimp only at herr
    split at herr
    case isTrue => cases herr
    case isFalse => cases herr
  | some plan =>
    cases hdeflate : writing.deflate plan raw with
    | error why =>
      rw [encodeContents, hdeflate] at herr
      exact ⟨plan, why, rfl, hdeflate, (Except.error.inj herr).symm⟩
    | ok encoded =>
      rw [encodeContents, hdeflate] at herr
      change Except.map _ (Except.ok encoded >>= _) = _ at herr
      rw [ok_bind] at herr
      dsimp only at herr
      split at herr
      case isTrue => cases herr
      case isFalse => cases herr

theorem toRequest_cases [Inhabited Level] (drawn : Nat) (frame : OutboundFrame Level P) :
    (Refused frame ∧ ∃ reason, toRequest caps writing drawn frame = .error (.unencodable reason)) ∨
      ¬ Refused frame ∧ ((∃ sent, toRequest caps writing drawn frame = .ok sent) ∨
        ∃ why, toRequest caps writing drawn frame = .error (.compression why) ∧
          ∃ message request fits piggybackedAck plan, frame.payload = .message message ∧
            message.contents = .outgoing request fits ∧ frame.extensions = .negotiated piggybackedAck (some plan) ∧
            writing.deflate plan request.message = .error why) := by
  obtain ⟨payload, extensions⟩ := frame
  cases payload with
  | control control =>
    cases extensions with
    | none => exact Or.inr ⟨id, Or.inl ⟨_, rfl⟩⟩
    | advertise capabilities => exact Or.inr ⟨id, Or.inl ⟨_, rfl⟩⟩
    | negotiated piggybackedAck compression => exact Or.inl ⟨trivial, _, rfl⟩
  | message message =>
    obtain ⟨source, destination, messageId, contents⟩ := message
    cases contents with
    | other payload =>
      refine Or.inl ⟨?_, _, rfl⟩
      cases extensions <;> exact trivial
    | outgoing request fits =>
      cases extensions with
      | none => exact Or.inr ⟨id, Or.inl ⟨_, rfl⟩⟩
      | advertise capabilities => exact Or.inl ⟨trivial, _, rfl⟩
      | negotiated piggybackedAck compression =>
        refine Or.inr ⟨id, ?_⟩
        show (∃ sent, (dataRequest writing _ _ _ request.message _ >>= _) = .ok sent) ∨ _
        cases hbytes : dataRequest writing source.toNat destination.toNat messageId.toNat request.message
            ((Extensions.negotiated piggybackedAck compression).onWire caps) with
        | ok bytes => exact Or.inl ⟨_, rfl⟩
        | error err =>
          obtain ⟨plan, why, rfl, hdeflate, rfl⟩ := dataRequest_negotiated hbytes
          refine Or.inr ⟨why, ?_, _, request, fits, piggybackedAck, plan, rfl, rfl, rfl, hdeflate⟩
          show (dataRequest writing _ _ _ request.message _ >>= _) = _
          rw [hbytes]
          rfl

/-! ## Every frame -/

/-- What holds of one frame between its sender and its readers, old and new. -/
structure Interoperates [Inhabited Level] (caps : Capabilities P) (writing : OutsideWriting) (out : Outside) (drawn : Nat)
    (frame : OutboundFrame Level P) : Prop where
  data : ∀ sent message request fits, toRequest caps writing drawn frame = .ok sent → frame.payload = .message message →
    message.contents = .outgoing request fits →
    decodeNotification out sent.message =
      .ok (.data message.sourceId.toNat message.destinationId.toNat message.messageId.toNat request.message
        (frame.extensions.ack.map UInt64.toNat))
  control : ∀ sent control, toRequest caps writing drawn frame = .ok sent → frame.payload = .control control →
    ∃ wire, decodeNotification out sent.message = .ok (.control control.signal (.advertised wire)) ∧
      caps.read wire = frame.extensions.advertised caps
  plainData : ∀ message request fits, frame.payload = .message message → message.contents = .outgoing request fits →
    frame.extensions.Plain writing request.message →
    ∃ sent, toRequest caps writing drawn frame = .ok sent ∧ sent.message = writeLegacy writing
      (.message message.sourceId.toNat message.destinationId.toNat message.messageId.toNat request.message)
  plainControl : ∀ control, frame.payload = .control control → frame.extensions = .none →
    ∃ sent, toRequest caps writing drawn frame = .ok sent ∧ sent.message = writeLegacy writing (.ismAux control.signal)
  legacy : ∀ sent control, toRequest caps writing drawn frame = .ok sent → frame.payload = .control control →
    readLegacy out sent.message = .ok (.ismAux control.signal) ∧
      readLegacy out (writeLegacy writing (.ismAux control.signal)) = .ok (.ismAux control.signal)
  refuses : (∃ reason, toRequest caps writing drawn frame = .error (.unencodable reason)) ↔ Refused frame
  fails : ∀ err, toRequest caps writing drawn frame = .error err → ¬ Refused frame →
    ∃ why message request fits piggybackedAck plan, err = .compression why ∧ frame.payload = .message message ∧
      message.contents = .outgoing request fits ∧ frame.extensions = .negotiated piggybackedAck (some plan) ∧
      writing.deflate plan request.message = .error why

end

/-! ## A crate that keeps its promises -/

/-- `bincode` of the control frames, and codecs that never pay. -/
def writeControl : OutsideWriting where
  signal
    | .message _ => writeLe 4 0
    | .ack fromId toId messageId => writeLe 4 1 ++ (writeLe 8 fromId ++ (writeLe 8 toId ++ (writeLe 8 messageId ++ [])))
    | .poll fromId toId last => writeLe 4 2 ++ (writeLe 8 fromId ++ (writeLe 8 toId ++ (writeOption last ++ [])))
  deflate _ raw := .ok (IDENTITY, raw)

def readControl : Outside where
  signal bytes := do
    let (tag, rest) ← readLe 4 bytes
    match tag with
    | 1 =>
      let (fromId, rest) ← readLe 8 rest
      let (toId, rest) ← readLe 8 rest
      let (messageId, rest) ← readLe 8 rest
      pure (.ack fromId toId messageId, rest)
    | 2 =>
      let (fromId, rest) ← readLe 8 rest
      let (toId, rest) ← readLe 8 rest
      let (last, rest) ← readOption rest
      pure (.poll fromId toId last, rest)
    | _ => .error "another payload"
  inflate codec bytes := if codec = IDENTITY then .ok bytes else .error "unknown codec"

def wireCapabilities : Capabilities (UInt8 × UInt32) where
  flagsToWire := Prod.fst
  codecsToWire := Prod.snd
  fromWire := Prod.mk
  legacy := (0, 0)

theorem readLe_toNat (n : UInt64) (rest : List UInt8) : readLe 8 (writeLe 8 n.toNat ++ rest) = .ok (n.toNat, rest) :=
  readLe_append (by simpa using n.toNat_lt) rest

theorem roundTrips_wire : RoundTrips wireCapabilities writeControl readControl where
  signal control rest := by
    cases control with
    | ack fromId toId messageId =>
      show (readLe 4 (writeLe 4 1 ++ (writeLe 8 fromId.toNat ++ (writeLe 8 toId.toNat ++ (writeLe 8 messageId.toNat ++ []))) ++
        rest) >>= _) = _
      simp only [List.append_assoc, List.nil_append]
      rw [readLe_append (by decide), ok_bind]
      dsimp only
      simp only [readLe_toNat, ok_bind]
      rfl
    | poll fromId toId last =>
      show (readLe 4 (writeLe 4 2 ++ (writeLe 8 fromId.toNat ++ (writeLe 8 toId.toNat ++
        (writeOption (last.map UInt64.toNat) ++ []))) ++ rest) >>= _) = _
      have hlast : ∀ n, last.map UInt64.toNat = some n → n < 2 ^ 64 := by
        intro n hn
        obtain ⟨m, -, rfl⟩ := Option.map_eq_some_iff.mp hn
        exact m.toNat_lt
      simp only [List.append_assoc, List.nil_append]
      rw [readLe_append (by decide), ok_bind]
      dsimp only
      simp only [readLe_toNat, ok_bind, readOption_append hlast]
      rfl
  deflated _ raw codec bytes hraw h := by
    obtain ⟨rfl, rfl⟩ := Prod.mk.inj (Except.ok.inj h)
    exact ⟨by decide, hraw, rfl⟩
  identity _ := rfl
  capabilities _ := rfl

/-! ## The frames interoperate -/

theorem frames_interoperate {Level P : Type} [Inhabited Level] {caps : Capabilities P} {writing : OutsideWriting}
    {out : Outside} (h : RoundTrips caps writing out) (drawn : Nat) (frame : OutboundFrame Level P) :
    Interoperates caps writing out drawn frame where
  data sent message request fits hsent hpayload hcontents := by
    rw [toRequest, hpayload] at hsent
    exact data_survives h hcontents hsent
  control sent control hsent hpayload := by
    rw [toRequest, hpayload] at hsent
    exact control_survives h hsent
  plainData message request fits hpayload hcontents hplain := by
    rw [toRequest, hpayload]
    exact ⟨_, data_plain h hcontents hplain, rfl⟩
  plainControl control hpayload hextensions := by
    rw [toRequest, hpayload, hextensions]
    exact ⟨_, rfl, rfl⟩
  legacy sent control hsent hpayload := by
    rw [toRequest, hpayload] at hsent
    obtain ⟨trailer, hbytes, -⟩ := controlToRequest_eq_ok h hsent
    refine ⟨by rw [hbytes]; exact readLegacy_control h control trailer, ?_⟩
    rw [← List.append_nil (writeLegacy writing (.ismAux control.signal))]
    exact readLegacy_control h control []
  refuses := by
    rcases toRequest_cases drawn frame with ⟨hrefused, hreason⟩ | ⟨hnot, ⟨sent, hsent⟩ | ⟨why, hwhy, -⟩⟩
    · exact ⟨fun _ => hrefused, fun _ => hreason⟩
    · refine ⟨fun ⟨reason, hreason⟩ => ?_, fun h => absurd h hnot⟩
      rw [hsent] at hreason
      cases hreason
    · refine ⟨fun ⟨reason, hreason⟩ => ?_, fun h => absurd h hnot⟩
      rw [hwhy] at hreason
      cases hreason
  fails err herr hnot := by
    rcases toRequest_cases drawn frame with
      ⟨hrefused, -⟩ | ⟨-, ⟨sent, hsent⟩ | ⟨why, hwhy, message, request, fits, ack, plan, hrest⟩⟩
    · exact absurd hrefused hnot
    · rw [hsent] at herr
      cases herr
    · exact ⟨why, message, request, fits, ack, plan, Except.error.inj (herr.symm.trans hwhy), hrest⟩

/-- An ack that advertises everything, as its peer decodes it. -/
theorem frames_interoperate_ack :
    ∃ sent wire,
      toRequest wireCapabilities writeControl 9 ⟨.control (.ack 2 1 7), .advertise (255, 15)⟩ = .ok (sent : MessageRequest Unit) ∧
        decodeNotification readControl sent.message = .ok (.control (.ack 2 1 7) (.advertised wire)) ∧
        wireCapabilities.read wire = (255, 15) := by
  have hall := @frames_interoperate Unit _ _ _ _ _ roundTrips_wire 9 ⟨.control (.ack 2 1 7), .advertise (255, 15)⟩
  obtain ⟨wire, hdecoded, hread⟩ := hall.control _ _ rfl rfl
  exact ⟨_, wire, rfl, hdecoded, hread⟩

end CitadelAgent.Messenger.Interop
