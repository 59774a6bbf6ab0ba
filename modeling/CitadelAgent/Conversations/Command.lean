import CitadelAgent.Conversations.Stored

/-!
# The P2P commands

`command.rs` and `command_build.rs`: what an arriving payload means to the conversation store, and the payloads the agent
sends.

* `Inbound`, `Command.read` : an arriving payload, `none` for bytes that are not a command at all.
-/

namespace CitadelAgent.Conversations
open Cbor

/-- The envelope fields of a `MessagingLayerCommand`. -/
structure Envelope where
  senderCid : Cid
  recipientCid : Cid
  messageId : String
  index : F64
  replyTo : Option String
  mentions : Option (List String)
  attachments : Option (List Attachment)
  messageType : MessageType
  documentId : Option String
  documentTitle : Option String

inductive AckKind
  | delivered | read | failed
  deriving DecidableEq

def AckKind.name : AckKind → String
  | .delivered => "delivered"
  | .read => "read"
  | .failed => "failed"

/-- What an arriving command means to the conversation store. -/
inductive Inbound
  | message (envelope : Envelope) (contents : String) (timestamp : F64)
  | edit (target contents : String) (editedAt : F64)
  | delete (target : String)
  | reaction (target emoji : String) (active : Bool) (at_ : F64)
  | screenshot (envelope : Envelope) (takenAt : Option F64)
  | ack (kind : AckKind) (messageId : String)
  /-- "Are you there?": the agent answers it itself. -/
  | checkState
  /-- Momentary state: for a window if one is open, and of no use later. -/
  | ephemeral
  /-- Something only a window can act on. -/
  | forAWindow

namespace Command

def string (v : Option Value) : Option String := v.bind Value.asStr

def optText (t : Option String) : Value := (t.map Value.text).getD .undefined

def messageType (name : Option String) : MessageType :=
  match MessageType.variants.find? fun variant => variant.1 = name.getD "text" with
  | some variant => variant.2
  | none => .text

def messageTypeName (t : MessageType) : String :=
  match MessageType.variants.find? fun variant => variant.2 = t with
  | some variant => variant.1
  | none => "text"

/-! ## Reading -/

def attachment (v : Value) : Option Attachment := do
  let fileId ← string (v.get "file_id")
  let fileName ← string (v.get "file_name")
  let fileSize ← (← v.get "file_size").asNumber
  let fileType ← string (v.get "file_type")
  return { fileId, fileName, fileSize, fileType, thumbnail := string (v.get "thumbnail") }

def items {α : Type} (read : Value → Option α) : Option Value → Option (List α)
  | some (.array items) => some (items.filterMap read)
  | _ => none

def envelope (payload : Value) : Option Envelope := do
  let senderCid ← (← payload.get "sender_cid").asBigint
  let recipientCid ← (← payload.get "recipient_cid").asBigint
  let messageId ← string (payload.get "message_id")
  return {
    senderCid, recipientCid, messageId
    index := ((payload.get "index").bind Value.asNumber).getD (F64.ofNat 0)
    replyTo := string (payload.get "reply_to")
    mentions := items Value.asStr (payload.get "mentions")
    attachments := items attachment (payload.get "attachments")
    messageType := messageType ((payload.get "message_type").bind Value.asStr)
    documentId := string (payload.get "document_id")
    documentTitle := string (payload.get "document_title") }

def isCallInvite (bytes : List UInt8) : Bool :=
  match Value.decode bytes with
  | .error _ => false
  | .ok command =>
    string (command.get "type") = some "CallSignal" &&
      string ((command.get "payload").bind (Value.get "kind")) = some "CallInvite"

/-- The command inside a `MessageAck`. -/
def readAck (payload : Value) : Option Inbound := do
  let ackType ← (← payload.get "ack_type").asStr
  let kind := match ackType with
    | "delivered" => some AckKind.delivered
    | "read" => some AckKind.read
    | "failed" => some AckKind.failed
    | _ => none
  match kind with
  | none => return .forAWindow
  | some kind => return .ack kind (← string (payload.get "message_id"))

/-- The command inside a `MessagingLayerCommand`. -/
def readLayer (payload : Value) : Option Inbound := do
  let layer ← payload.get "layer"
  let num := fun key => (layer.get key).bind Value.asNumber
  match ← (← layer.get "type").asStr with
  | "Message" => return .message (← envelope payload) (← string (layer.get "contents")) (← num "timestamp")
  | "MessageEdit" =>
    return .edit (← string (layer.get "message_id")) (← string (layer.get "contents")) (← num "edited_at")
  | "MessageDelete" => return .delete (← string (layer.get "message_id"))
  | "MessageReaction" =>
    return .reaction (← string (layer.get "message_id")) (← string (layer.get "emoji"))
      (← (← layer.get "active").asBool) (← num "reacted_at")
  | "ScreenshotNotice" => return .screenshot (← envelope payload) (num "taken_at")
  | "CheckState" => return .checkState
  | "Typing" | "Away" | "Online" | "Offline" | "CustomState" | "CheckStateResponse" => return .ephemeral
  | _ => return .forAWindow

/-- One arriving P2P payload; `none` is bytes that are not a P2P command at all. -/
def read (bytes : List UInt8) : Option Inbound := do
  let command ← (Value.decode bytes).toOption
  let payload ← command.get "payload"
  match ← (← command.get "type").asStr with
  | "MessageAck" => readAck payload
  | "CallSignal" => return .ephemeral
  | "MessagingLayerCommand" => readLayer payload
  | _ => return .forAWindow

/-! ## Building -/

def attachmentItem (a : Attachment) : Value :=
  .object [("file_id", .text a.fileId), ("file_name", .text a.fileName), ("file_size", .number a.fileSize),
    ("file_type", .text a.fileType), ("thumbnail", optText a.thumbnail)]

def optArray {α : Type} (item : α → Value) (list : Option (List α)) : Value :=
  (list.map fun list => Value.array (list.map item)).getD .undefined

def messagingLayer (layer : Value) (e : Envelope) : List UInt8 :=
  (Value.object [("type", .text "MessagingLayerCommand"), ("payload", .object [("layer", layer),
    ("sender_cid", .bigint e.senderCid), ("recipient_cid", .bigint e.recipientCid), ("message_id", .text e.messageId),
    ("index", .number e.index), ("reply_to", optText e.replyTo), ("mentions", optArray .text e.mentions),
    ("attachments", optArray attachmentItem e.attachments), ("message_type", .text (messageTypeName e.messageType)),
    ("document_id", optText e.documentId), ("document_title", optText e.documentTitle)])]).encode

def messageLayer (contents : String) (timestamp : F64) : Value :=
  .object [("type", .text "Message"), ("contents", .text contents), ("timestamp", .number timestamp)]

def editLayer (target contents : String) (editedAt : F64) : Value :=
  .object [("type", .text "MessageEdit"), ("message_id", .text target), ("contents", .text contents),
    ("edited_at", .number editedAt)]

def deleteLayer (target : String) (deletedAt : F64) : Value :=
  .object [("type", .text "MessageDelete"), ("message_id", .text target), ("deleted_at", .number deletedAt)]

def reactionLayer (target emoji : String) (active : Bool) (at_ : F64) : Value :=
  .object [("type", .text "MessageReaction"), ("message_id", .text target), ("emoji", .text emoji),
    ("active", .bool active), ("reacted_at", .number at_)]

def checkStateResponse : Value := .object [("type", .text "CheckStateResponse"), ("ready", .bool true)]

def ack (kind : AckKind) (messageId : String) (timestamp : F64) : List UInt8 :=
  (Value.object [("type", .text "MessageAck"), ("payload", .object [("ack_type", .text kind.name),
    ("message_id", .text messageId), ("timestamp", .number timestamp), ("error", .undefined)])]).encode

end Command

end CitadelAgent.Conversations
