import CitadelAgent.Conversations.CborCodec
import CitadelAgent.Requests.Request

/-!
# Internal HTTP: frames on the wire

`citadel-ihttp-types/src/{lib,validate,codec}.rs`, `validate_app_id` of `citadel-app-id/src/lib.rs`, and the agent's envelope around a
frame, `kernel/apps/ihttp/{mod,envelope}.rs`.

* `IhttpFrame`, `validate` : the frames, and what they must be beyond decoding;
* `wrap`, `read`, `outbound` : the envelope, and what the agent sends for a window's frame.
-/

namespace CitadelAgent.Ihttp.Wire
open Conversations.Cbor (Value)
open Requests (Bytes ENVELOPE_KIND envelopeStart)

def IHTTP_VERSION : UInt8 := 1
def MAX_PATH_BYTES : Nat := 2 * 1024
def MAX_HEADERS : Nat := 32
def MAX_HEADER_BYTES : Nat := 1024
def MAX_BODY_CHUNK_BYTES : Nat := 64 * 1024
def MAX_FRAME_BYTES : Nat := MAX_BODY_CHUNK_BYTES + 4 * 1024
def MAX_REQUEST_BODY_BYTES : Nat := 4 * 1024 * 1024
def MAX_RESPONSE_BODY_BYTES : Nat := 16 * 1024 * 1024
def MAX_CREDIT_GRANT : Nat := 64
def MAX_SCOPE_KEY_BYTES : Nat := 256
def MAX_APP_ID_CHARS : Nat := 64

inductive IhttpMethod
  | get | post | put | delete | patch | head
  deriving DecidableEq

structure IhttpHeader where
  name : String
  value : String
  deriving DecidableEq

inductive CancelReason
  | caller | timeout | tooLarge | busy | rateLimited | noRoute | refused | failed | closed | protocol | unavailable
  deriving DecidableEq

inductive IhttpFrameKind
  | requestHead (method : IhttpMethod) (path : String) (query : Option String) (headers : List IhttpHeader)
      (bodyLen : Option UInt64) (appId scopeKey : String)
  | responseHead (status : UInt16) (headers : List IhttpHeader) (bodyLen : Option UInt64)
  | body (bytes : Bytes)
  | end_
  | cancel (reason : CancelReason)
  | credit (n : UInt32)
  deriving DecidableEq

structure IhttpFrame where
  v : UInt8
  stream : UInt64
  kind : IhttpFrameKind
  deriving DecidableEq

inductive FrameError
  | tooLarge
  | malformed (why : String)
  | version (v : UInt8)
  | path | query | headers | body | appId | scopeKey | status | credit
  deriving DecidableEq

/-! ## What a frame must be -/

def FRAMING_HEADERS : List String :=
  ["connection", "content-length", "host", "keep-alive", "te", "trailer", "transfer-encoding", "upgrade"]

/-- Printable ASCII but the space; a character outside ASCII has no such byte. -/
def graphic (text : String) : Bool := text.toList.all fun c => 0x21 ≤ c.toNat && c.toNat ≤ 0x7e

def pathOk (path : String) : Bool :=
  path.toList.head? = some '/' && graphic path && !path.toList.any (fun c => c ∈ ['?', '#', '\\']) &&
    !decide ("//".toList <:+: path.toList) &&
    (path.toList.splitOn '/').all fun segment => segment ≠ ['.'] && segment ≠ ['.', '.']

def headerOk (header : IhttpHeader) : Bool :=
  header.name.utf8ByteSize + header.value.utf8ByteSize ≤ MAX_HEADER_BYTES && header.name ≠ "" &&
    header.name.toList.all (fun c => c.isLower || c.isDigit || c = '-') && header.name ∉ FRAMING_HEADERS &&
    header.value.toList.all fun c => c = '\t' || 0x20 ≤ c.toNat && c.toNat ≤ 0x7e

def headersOk (headers : List IhttpHeader) : Except FrameError Unit :=
  if MAX_HEADERS < headers.length ∨ headers.all headerOk = false then .error .headers else .ok ()

def labelOk : List Char → Bool
  | [] => false
  | first :: rest => (first.isLower || first.isDigit) && rest.all fun c => c.isLower || c.isDigit || c = '-'

/-- Two or more labels of lowercase letters, digits and hyphens, each starting with a letter or a digit. -/
def validateAppId (id : String) : Bool :=
  id ≠ "" && id.utf8ByteSize ≤ MAX_APP_ID_CHARS && (id.toList.splitOn '.').all labelOk && 2 ≤ (id.toList.splitOn '.').length

def validate (frame : IhttpFrame) : Except FrameError Unit :=
  if frame.v ≠ IHTTP_VERSION then .error (.version frame.v)
  else match frame.kind with
    | .requestHead _ path query headers bodyLen appId scopeKey =>
      if pathOk path = false ∨ MAX_PATH_BYTES < path.utf8ByteSize + (query.map (·.utf8ByteSize)).getD 0 then .error .path
      else if query.any fun q => !graphic q || q.toList.contains '#' then .error .query
      else do
        headersOk headers
        if bodyLen.any fun len => MAX_REQUEST_BODY_BYTES < len.toNat then .error .body
        else if validateAppId appId = false then .error .appId
        else if scopeKey = "" ∨ MAX_SCOPE_KEY_BYTES < scopeKey.utf8ByteSize ∨ graphic scopeKey = false then .error .scopeKey
        else .ok ()
    | .responseHead status headers bodyLen =>
      if status.toNat < 100 ∨ 599 < status.toNat then .error .status
      else do
        headersOk headers
        if bodyLen.any fun len => MAX_RESPONSE_BODY_BYTES < len.toNat then .error .body else .ok ()
    | .body bytes => if bytes = [] ∨ MAX_BODY_CHUNK_BYTES < bytes.length then .error .body else .ok ()
    | .credit n => if n = 0 ∨ MAX_CREDIT_GRANT < n.toNat then .error .credit else .ok ()
    | .end_ | .cancel _ => .ok ()

/-! ## The codec -/

/-- A CBOR library, at the type of frames: one value and what follows it, and a value written. -/
structure Ciborium where
  fromReader : Bytes → Except String (IhttpFrame × Bytes)
  intoWriter : IhttpFrame → Except String Bytes

def withinFrameSize (bytes : Bytes) : Except FrameError Unit :=
  if MAX_FRAME_BYTES < bytes.length then .error .tooLarge else .ok ()

section
variable (ciborium : Ciborium)

def encode (frame : IhttpFrame) : Except FrameError Bytes := do
  validate frame
  let out ← (ciborium.intoWriter frame).mapError .malformed
  withinFrameSize out
  return out

def decode (bytes : Bytes) : Except FrameError IhttpFrame := do
  withinFrameSize bytes
  let (frame, rest) ← (ciborium.fromReader bytes).mapError .malformed
  if rest ≠ [] then throw (.malformed s!"{rest.length} bytes after the frame")
  validate frame
  return frame

/-! ## The envelope -/

def ENVELOPE_OVERHEAD_BYTES : Nat := 64

inductive Inbound
  | other
  | malformed (why : String)
  | frame (bytes : Bytes)

def wrap (frame : IhttpFrame) : Except FrameError Bytes := do
  let bytes ← encode ciborium frame
  return (Value.object [("type", .text ENVELOPE_KIND), ("payload", .bytes bytes)]).encode

def isEnvelope (bytes : Bytes) : Bool := envelopeStart.isPrefixOf bytes

/-- What a `FrameError` shows. -/
def FrameError.display : FrameError → String
  | .malformed why => s!"not an internal HTTP frame: {why}"
  | .version v => s!"internal HTTP frame version {v.toNat} is not {IHTTP_VERSION.toNat}"
  | .tooLarge => "internal HTTP frame refused: TooLarge"
  | .path => "internal HTTP frame refused: Path"
  | .query => "internal HTTP frame refused: Query"
  | .headers => "internal HTTP frame refused: Headers"
  | .body => "internal HTTP frame refused: Body"
  | .appId => "internal HTTP frame refused: AppId"
  | .scopeKey => "internal HTTP frame refused: ScopeKey"
  | .status => "internal HTTP frame refused: Status"
  | .credit => "internal HTTP frame refused: Credit"

def read (bytes : Bytes) : Inbound :=
  if isEnvelope bytes = false then .other
  else if MAX_FRAME_BYTES + ENVELOPE_OVERHEAD_BYTES < bytes.length then .malformed "larger than any frame"
  else match Value.decode bytes with
    | .ok (.map entries _) =>
      match entries with
      | [_, (.text key, .bytes payload)] =>
        if key ≠ "payload" then .malformed "the second key is not payload"
        else match decode ciborium payload >>= encode ciborium with
          | .ok canonical => .frame canonical
          | .error why => .malformed why.display
      | _ => .malformed "not exactly {type, payload: bytes}"
    | _ => .malformed "not one CBOR map"

inductive IhttpSendRefusal
  | session | notHosted | malformed | notAdvertised | queue

def outbound (frame : Bytes) (peerCarriesInternalHttp : Bool) : Except IhttpSendRefusal Bytes :=
  match decode ciborium frame with
  | .error _ => .error .malformed
  | .ok frame =>
    if peerCarriesInternalHttp = false then .error .notAdvertised
    else (wrap ciborium frame).mapError fun _ => .malformed

/-! ## What passes is valid -/

variable {ciborium}
open Result

theorem encode_valid {frame : IhttpFrame} {bytes : Bytes} (h : encode ciborium frame = .ok bytes) :
    validate frame = .ok () ∧ bytes.length ≤ MAX_FRAME_BYTES := by
  obtain ⟨⟨⟩, hvalid, h⟩ := bind_eq_ok.mp h
  obtain ⟨out, -, h⟩ := bind_eq_ok.mp h
  obtain ⟨⟨⟩, hsize, h⟩ := bind_eq_ok.mp h
  obtain rfl := Except.ok.inj h
  refine ⟨hvalid, ?_⟩
  unfold withinFrameSize at hsize
  split at hsize
  · exact nomatch hsize
  · omega

theorem decode_valid {bytes : Bytes} {frame : IhttpFrame} (h : decode ciborium bytes = .ok frame) : validate frame = .ok () := by
  obtain ⟨⟨⟩, -, h⟩ := bind_eq_ok.mp h
  obtain ⟨⟨read, rest⟩, -, h⟩ := bind_eq_ok.mp h
  simp only at h
  split at h
  · exact nomatch h
  · obtain ⟨⟨⟩, hvalid, h⟩ := bind_eq_ok.mp h
    obtain rfl := Except.ok.inj h
    exact hvalid

theorem outbound_checked {frame envelope : Bytes} {carries : Bool} (h : outbound ciborium frame carries = .ok envelope) :
    carries = true ∧ ∃ checked, decode ciborium frame = .ok checked ∧ validate checked = .ok () ∧
      wrap ciborium checked = .ok envelope := by
  unfold outbound at h
  split at h
  · exact nomatch h
  · rename_i checked hdecode
    split at h
    · exact nomatch h
    · rename_i hcarries
      refine ⟨by simpa using hcarries, checked, hdecode, decode_valid hdecode, ?_⟩
      cases hwrap : wrap ciborium checked with
      | error why => rw [hwrap] at h; exact nomatch h
      | ok bytes => rw [hwrap] at h; rw [Except.ok.inj h]

theorem read_other {bytes : Bytes} (h : isEnvelope bytes = false) : read ciborium bytes = .other := by
  rw [read, if_pos h]

/-! ## An envelope is read as it was written -/

theorem object_starts (payload : Bytes) :
    envelopeStart <+: (Value.object [("type", .text ENVELOPE_KIND), ("payload", .bytes payload)]).encode := by
  have hhead : Conversations.Cbor.head 5 2 .two = [0xb9, 0x00, 0x02] := by decide +kernel
  refine ⟨(Value.text "payload").encode ++ (Value.bytes payload).encode, ?_⟩
  simp only [envelopeStart, Value.object, Value.encode, Value.write, Value.writeEntries, List.map_cons, List.map_nil,
    List.length_cons, List.length_nil, Nat.zero_add, Nat.reduceAdd, hhead, List.append_assoc, List.append_nil]

theorem length_head (major n : Nat) (w : Conversations.Cbor.Width) : (Conversations.Cbor.head major n w).length ≤ 9 := by
  cases w <;> simp [Conversations.Cbor.head]

theorem object_length (payload : Bytes) :
    (Value.object [("type", .text ENVELOPE_KIND), ("payload", .bytes payload)]).encode.length ≤
      payload.length + ENVELOPE_OVERHEAD_BYTES := by
  have hkeys : (Conversations.Cbor.head 5 2 .two).length = 3 ∧ (Value.text "type").write.length = 5 ∧
      (Value.text ENVELOPE_KIND).write.length = 16 ∧ (Value.text "payload").write.length = 8 := by decide +kernel
  obtain ⟨hmap, htype, hkind, hkey⟩ := hkeys
  have hpayload : (Value.bytes payload).write.length ≤ 9 + payload.length := by
    have := length_head 2 payload.length (Conversations.Cbor.minimal payload.length)
    rw [Value.write, List.length_append]
    omega
  have hlen : (Value.object [("type", .text ENVELOPE_KIND), ("payload", .bytes payload)]).encode.length =
      3 + (5 + 16 + (8 + (Value.bytes payload).write.length)) := by
    have hwrite : (Value.object [("type", .text ENVELOPE_KIND), ("payload", .bytes payload)]).encode =
        Conversations.Cbor.head 5 2 .two ++ ((Value.text "type").write ++ (Value.text ENVELOPE_KIND).write ++
          ((Value.text "payload").write ++ (Value.bytes payload).write ++ [])) := rfl
    simp only [hwrite, List.length_append, List.length_nil, hmap, htype, hkind, hkey, Nat.add_zero]
  rw [hlen, ENVELOPE_OVERHEAD_BYTES]
  omega

theorem read_object {payload : Bytes} (h : payload.length ≤ MAX_FRAME_BYTES) :
    read ciborium (Value.object [("type", .text ENVELOPE_KIND), ("payload", .bytes payload)]).encode =
      match decode ciborium payload >>= encode ciborium with
      | .ok canonical => .frame canonical
      | .error why => .malformed why.display := by
  have hlen := object_length payload
  have hfits : (Value.object [("type", .text ENVELOPE_KIND), ("payload", .bytes payload)]).Fits := by
    have hkeys : (Conversations.Cbor.utf8 "type").length < 2 ^ 64 ∧ (Conversations.Cbor.utf8 ENVELOPE_KIND).length < 2 ^ 64 ∧
        (Conversations.Cbor.utf8 "payload").length < 2 ^ 64 := by decide +kernel
    obtain ⟨htype, hkind, hkey⟩ := hkeys
    have hpayload : payload.length < 2 ^ 64 := lt_of_le_of_lt h (by decide)
    exact ⟨show 2 < 2 ^ 16 by decide, htype, hkind, hkey, hpayload, trivial⟩
  have hnest : (Value.object [("type", .text ENVELOPE_KIND), ("payload", .bytes payload)]).nesting ≤ Conversations.Cbor.MAX_DEPTH := by
    simp [Value.object, Value.nesting, Value.nestingEntries, Conversations.Cbor.MAX_DEPTH]
  have henvelope : isEnvelope (Value.object [("type", .text ENVELOPE_KIND), ("payload", .bytes payload)]).encode = true :=
    List.isPrefixOf_iff_prefix.mpr (object_starts payload)
  rw [read, if_neg (by rw [henvelope]; exact Bool.noConfusion), if_neg (by omega), Value.decode_encode hfits hnest]
  rfl

end

end CitadelAgent.Ihttp.Wire
