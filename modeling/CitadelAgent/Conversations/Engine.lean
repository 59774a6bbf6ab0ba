import CitadelAgent.Conversations.Command
import CitadelAgent.Conversations.Store

/-!
# The engine

`engine.rs`, `io.rs` and `envelope.rs`: the single writer, with one lock per conversation and one event sequence per
account. An operation is a program that calls the bucket, the locks, the event counter and the agent around it, in the
order the source awaits them.

* `AccountPreferences`, `preferences` : the settings the agent acts on.
-/

namespace CitadelAgent.Conversations

/-! ## What is said to windows -/

inductive ConversationEventKind
  | appended | updated | removed | cleared | expired | metadataChanged

structure ConversationEvent where
  cid : Cid
  peerCid : Cid
  seq : Nat
  kind : ConversationEventKind
  message : Option ConversationMessage
  messageId : Option String
  metadata : Option ConversationMetadata
  accountUsername : String
  peerUsername : Option String
  preview : String
  requestId : Option String

structure MessageNotification where
  message : List UInt8
  cid : Cid
  peerCid : Cid
  requestId : Option String

inductive Response
  | conversationEvent (event : ConversationEvent)
  | messageNotification (n : MessageNotification)

inductive NoticeSource
  | message (peer : Cid) (peerUsername : Option String) (text : String)
  | incomingCall (peer : Cid) (peerUsername : Option String)

/-! ## Calls -/

/-- The calls of `ConversationIo` other than the bucket's. -/
inductive IoOp
  | publish (cid : Cid) (response : Response)
  | sendP2p (cid peer : Cid) (bytes : List UInt8)
  | nowMs
  | newId
  | accountUsername (cid : Cid)
  | peerUsername (cid peer : Cid)
  | knowsPeer (cid peer : Cid)
  | raiseNotice (cid : Cid) (source : NoticeSource)
  | rowsChanged

abbrev IoOp.Ans : IoOp → Type
  | .publish .. => Nat
  | .sendP2p .. => Except String Unit
  /- `Duration::as_millis` of the system clock. -/
  | .nowMs => Fin (2 ^ 128)
  | .newId => String
  | .accountUsername _ => String
  | .peerUsername .. => Option String
  | .knowsPeer .. => Bool
  | .raiseNotice .. => Unit
  | .rowsChanged => Unit

abbrev Key := Cid × Cid

inductive EngineOp
  | kv (o : KvOp)
  | lock (key : Key)
  | unlock (key : Key)
  | nextSeq (cid : Cid)
  | io (o : IoOp)

abbrev EngineOp.Ans : EngineOp → Type
  | .kv o => o.Ans
  | .lock _ => Unit
  | .unlock _ => Unit
  | .nextSeq _ => Nat
  | .io o => o.Ans

abbrev EngineM (α : Type) := Prog EngineOp EngineOp.Ans α

namespace Engine

def store {α : Type} (x : KvM α) : EngineM (Except KvError α) := Prog.translate (fun o => Prog.op (.kv o)) x.run

def call (o : EngineOp) : EngineM o.Ans := Prog.op o

def io (o : IoOp) : EngineM o.Ans := call (.io o)

/-- `now_ms`: `d.as_millis() as f64`. -/
def nowMs : EngineM F64 := do
  let millis ← io .nowMs
  return F64.ofNat millis.val

def nextSeq (cid : Cid) : EngineM Nat := call (.nextSeq cid)

/-- A block that holds the conversation's lock to its end, whichever way it ends. -/
def locked {α : Type} (cid peer : Cid) (body : EngineM α) : EngineM α := do
  call (.lock (cid, peer))
  let result ← body
  call (.unlock (cid, peer))
  return result

/-! ## Preferences -/

inductive NotificationPreview
  | senderOnly | text

inductive Retention
  | forever
  | days (n : UInt32)

structure PeerRetention where
  peerCid : Cid
  retention : Retention

inductive ChatSecurityLevel
  | standard | reinforced | high | extreme

structure PeerSecurityMinimum where
  peerCid : Cid
  level : ChatSecurityLevel

/-- The account's settings the agent acts on with no window open. -/
structure AccountPreferences where
  sendReadReceipts : Bool
  acceptRequestsFromStrangers : Bool
  notifyOnScreenshot : Bool
  notificationPreview : NotificationPreview
  retention : List PeerRetention
  securityMinimums : List PeerSecurityMinimum

namespace AccountPreferences

def UI_DEFAULTS : AccountPreferences where
  sendReadReceipts := true
  acceptRequestsFromStrangers := true
  notifyOnScreenshot := false
  notificationPreview := .senderOnly
  retention := []
  securityMinimums := []

def readRetention : Json → Except Json.Error Retention
  | .object [("Days", v)] => .days <$> Json.readU32 v
  | v => Json.readVariant [("Forever", .forever)] v

def readPeerRetention (v : Json) : Except Json.Error PeerRetention := do
  let fields ← Json.struct ["peer_cid", "retention"] v
  let peerCid ← Json.required fields "peer_cid" Json.readU64
  let retention ← Json.required fields "retention" readRetention
  return { peerCid, retention }

def readMinimum (v : Json) : Except Json.Error PeerSecurityMinimum := do
  let fields ← Json.struct ["peer_cid", "level"] v
  let peerCid ← Json.required fields "peer_cid" Json.readU64
  let level ← Json.required fields "level" (Json.readVariant [("Standard", .standard), ("Reinforced", .reinforced),
    ("High", .high), ("Extreme", .extreme)])
  return { peerCid, level }

def fromValue (v : Json) : Except Json.Error AccountPreferences := do
  let fields ← Json.struct ["send_read_receipts", "accept_requests_from_strangers", "notify_on_screenshot",
    "notification_preview", "retention", "security_minimums"] v
  let sendReadReceipts ← Json.required fields "send_read_receipts" Json.readBool
  let acceptRequestsFromStrangers ← Json.required fields "accept_requests_from_strangers" Json.readBool
  let notifyOnScreenshot ← Json.required fields "notify_on_screenshot" Json.readBool
  let notificationPreview ← Json.required fields "notification_preview"
    (Json.readVariant [("SenderOnly", .senderOnly), ("Text", .text)])
  let retention ← Json.required fields "retention" (Json.readList readPeerRetention)
  let securityMinimums ← Json.defaulted fields "security_minimums" [] (Json.readList readMinimum)
  return { sendReadReceipts, acceptRequestsFromStrangers, notifyOnScreenshot, notificationPreview, retention,
           securityMinimums }

end AccountPreferences

def PREFERENCES_KEY : String := "agent_account_preferences_"

def preferencesKey (cid : Cid) : String := PREFERENCES_KEY ++ toString cid.toNat

def readPreferences : Option Bytes → Except StoredError AccountPreferences
  | none => .ok .UI_DEFAULTS
  | some bytes => do jsonErr (AccountPreferences.fromValue (← fromSlice bytes))

def preferences (cid : Cid) : EngineM (Except KvError AccountPreferences) := store do
  let bytes ← Kv.get (preferencesKey cid)
  Kv.stored (readPreferences bytes)

/-! ## Events -/

def PREVIEW_CHARS : Nat := 100

structure Change where
  kind : ConversationEventKind
  message : Option ConversationMessage
  messageId : Option String
  metadata : Option ConversationMetadata
  requestId : Option String

namespace Change

def ofMessage (kind : ConversationEventKind) (message : ConversationMessage) : Change where
  kind := kind
  message := some message
  messageId := some message.id
  metadata := none
  requestId := none

def whole (kind : ConversationEventKind) (metadata : Option ConversationMetadata) : Change where
  kind := kind
  message := none
  messageId := none
  metadata := metadata
  requestId := none

def preview (change : Change) : String :=
  match change.kind, change.message with
  | .appended, some m => String.ofList (m.content.toList.take PREVIEW_CHARS)
  | _, _ => ""

end Change

/-- `load_metadata(peer).await.ok().flatten()`. -/
def currentMetadata (cid peer : Cid) : EngineM (Option ConversationMetadata) := do
  let found ← store (Store.loadMetadata cid peer)
  return found.toOption.join

def carriedMetadata (cid peer : Cid) (change : Change) : EngineM (Option ConversationMetadata) :=
  match change.metadata with
  | some m => pure (some m)
  | none => currentMetadata cid peer

/-- Tell every window of `cid` what changed in its conversation with `peer`. -/
def announce (cid peer : Cid) (change : Change) : EngineM Unit := do
  let metadata ← carriedMetadata cid peer change
  let seq ← nextSeq cid
  let accountUsername ← io (.accountUsername cid)
  let _ ← io (.publish cid (.conversationEvent {
    cid, peerCid := peer, seq, kind := change.kind, message := change.message, messageId := change.messageId, metadata,
    accountUsername, peerUsername := metadata.bind (·.peerUsername), preview := change.preview,
    requestId := change.requestId }))
  io .rowsChanged

/-- The event of a message that was appended, with the metadata `append` gave; none for a duplicate. -/
def announceAppended (cid peer : Cid) (message : ConversationMessage) (requestId : Option String) :
    Option ConversationMetadata → EngineM Unit
  | some metadata => announce cid peer { Change.ofMessage .appended message with metadata := some metadata, requestId }
  | none => pure ()

def announceUpdated (cid peer : Cid) : Option ConversationMessage → EngineM Unit
  | some message => announce cid peer (.ofMessage .updated message)
  | none => pure ()

/-! ## Envelopes -/

def received (envelope : Envelope) (content : String) (timestamp : F64) : ConversationMessage where
  id := envelope.messageId
  content := content
  senderCid := envelope.senderCid
  recipientCid := envelope.recipientCid
  timestamp := timestamp
  index := envelope.index
  status := .pending
  error := none
  replyTo := envelope.replyTo
  editedAt := none
  reactions := none
  mentions := envelope.mentions
  attachments := envelope.attachments
  messageType := envelope.messageType
  documentId := envelope.documentId
  documentTitle := envelope.documentTitle
  transferId := none
  fileName := none
  fileSize := none
  fileType := none
  fileThumbnail := none
  transferMode := none
  transferState := none
  transferProgress := none
  virtualPath := none

/-- The envelope a non-chat command goes out in: a fresh id and the conversation's current index. -/
def rawEnvelope (cid peer : Cid) : EngineM Envelope := do
  let metadata ← currentMetadata cid peer
  let messageId ← io .newId
  return {
    senderCid := cid, recipientCid := peer, messageId
    index := (metadata.map (·.lastMessageIndex)).getD (F64.ofNat 0)
    replyTo := none, mentions := none, attachments := none, messageType := .text, documentId := none
    documentTitle := none }

end Engine

end CitadelAgent.Conversations
