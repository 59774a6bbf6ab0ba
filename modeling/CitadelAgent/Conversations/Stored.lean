import CitadelAgent.Conversations.Reactions
import CitadelAgent.Lib.Json

/-!
# The stored form of a page and its metadata

`stored.rs`: JSON in the canonical types' field names, with CIDs as decimal strings, a message's reactions as the
CBOR bytes of the list, and absent optional fields left out.

* `toFields` (`toValue`), `fromValue` : what the derived `Serialize` and `Deserialize` of each type do;
* `jsNumbers` : values as `JSON.stringify` writes them, which also drops every `null` field.

`Bytes` are the bytes of a record by what `serde_json` makes of them: the text of a JSON value, or not JSON. The
text of a value reads back as that value.
-/

namespace CitadelAgent.Conversations
open Json (Fields)

/-! ## The derived readers and writers -/

def optValue {α : Type} (f : α → Json) : Option α → Json
  | some a => f a
  | none => .null

def cidValue (cid : Cid) : Json := .number (.posInt cid)

def u32Value (n : UInt32) : Json := .number (.posInt (UInt64.ofNat n.toNat))

def listValue {α : Type} (f : α → Json) (list : List α) : Json := .array (list.map f)

def MessageStatus.variants : List (String × MessageStatus) :=
  [("pending", .pending), ("sent", .sent), ("delivered", .delivered), ("read", .read), ("failed", .failed)]

def MessageType.variants : List (String × MessageType) :=
  [("text", .text), ("markdown", .markdown), ("live_document", .liveDocument), ("file_transfer", .fileTransfer),
    ("system_notice", .systemNotice)]

def TransferMode.variants : List (String × TransferMode) := [("async", .async), ("p2p", .p2p)]

def TransferState.variants : List (String × TransferState) :=
  [("pending", .pending), ("uploading", .uploading), ("staged", .staged), ("transferring", .transferring),
    ("complete", .complete), ("declined", .declined), ("cancelled", .cancelled), ("expired", .expired),
    ("error", .error)]

def variantValue {α : Type} [DecidableEq α] (variants : List (String × α)) (a : α) : Json :=
  .string (((variants.find? fun variant => variant.2 = a).map Prod.fst).getD "")

namespace Attachment

def toFields (a : Attachment) : Fields :=
  [("file_id", .string a.fileId), ("file_name", .string a.fileName), ("file_size", a.fileSize.toJson),
    ("file_type", .string a.fileType), ("thumbnail", optValue .string a.thumbnail)]

def fromValue (v : Json) : Except Json.Error Attachment := do
  let fields ← Json.struct ["file_id", "file_name", "file_size", "file_type", "thumbnail"] v
  let fileId ← Json.required fields "file_id" Json.readString
  let fileName ← Json.required fields "file_name" Json.readString
  let fileSize ← Json.required fields "file_size" Json.readF64
  let fileType ← Json.required fields "file_type" Json.readString
  let thumbnail ← Json.defaulted fields "thumbnail" none (Json.readOption Json.readString)
  return { fileId, fileName, fileSize, fileType, thumbnail }

end Attachment

namespace Reaction

def toValue (r : Reaction) : Json :=
  .object [("emoji", .string r.emoji), ("reactorCid", cidValue r.reactorCid), ("at", r.at_.toJson),
    ("active", .bool r.active)]

def fromValue (v : Json) : Except Json.Error Reaction := do
  let fields ← Json.struct ["emoji", "reactorCid", "at", "active"] v
  let emoji ← Json.required fields "emoji" Json.readString
  let reactorCid ← Json.required fields "reactorCid" Json.readU64
  let at_ ← Json.required fields "at" Json.readF64
  let active ← Json.required fields "active" Json.readBool
  return { emoji, reactorCid, at_, active }

end Reaction

namespace ConversationMessage

def fieldNames : List String :=
  ["id", "content", "senderCid", "recipientCid", "timestamp", "index", "status", "error", "replyTo", "edited_at",
    "reactions", "mentions", "attachments", "message_type", "document_id", "document_title", "transfer_id",
    "file_name", "file_size", "file_type", "file_thumbnail", "transfer_mode", "transfer_state", "transfer_progress",
    "virtual_path"]

def toFields (m : ConversationMessage) : Fields :=
  [("id", .string m.id), ("content", .string m.content), ("senderCid", cidValue m.senderCid),
    ("recipientCid", cidValue m.recipientCid), ("timestamp", m.timestamp.toJson), ("index", m.index.toJson),
    ("status", variantValue MessageStatus.variants m.status), ("error", optValue .string m.error),
    ("replyTo", optValue .string m.replyTo), ("edited_at", optValue F64.toJson m.editedAt),
    ("reactions", optValue (listValue Reaction.toValue) m.reactions),
    ("mentions", optValue (listValue .string) m.mentions),
    ("attachments", optValue (listValue fun a => .object a.toFields) m.attachments),
    ("message_type", variantValue MessageType.variants m.messageType), ("document_id", optValue .string m.documentId),
    ("document_title", optValue .string m.documentTitle), ("transfer_id", optValue .string m.transferId),
    ("file_name", optValue .string m.fileName), ("file_size", optValue F64.toJson m.fileSize),
    ("file_type", optValue .string m.fileType), ("file_thumbnail", optValue .string m.fileThumbnail),
    ("transfer_mode", optValue (variantValue TransferMode.variants) m.transferMode),
    ("transfer_state", optValue (variantValue TransferState.variants) m.transferState),
    ("transfer_progress", optValue F64.toJson m.transferProgress), ("virtual_path", optValue .string m.virtualPath)]

def fromValue (v : Json) : Except Json.Error ConversationMessage := do
  let fields ← Json.struct fieldNames v
  let id ← Json.required fields "id" Json.readString
  let content ← Json.required fields "content" Json.readString
  let senderCid ← Json.required fields "senderCid" Json.readU64
  let recipientCid ← Json.required fields "recipientCid" Json.readU64
  let timestamp ← Json.required fields "timestamp" Json.readF64
  let index ← Json.required fields "index" Json.readF64
  let status ← Json.required fields "status" (Json.readVariant MessageStatus.variants)
  let error ← Json.defaulted fields "error" none (Json.readOption Json.readString)
  let replyTo ← Json.defaulted fields "replyTo" none (Json.readOption Json.readString)
  let editedAt ← Json.defaulted fields "edited_at" none (Json.readOption Json.readF64)
  let reactions ← Json.defaulted fields "reactions" none (Json.readOption (Json.readList Reaction.fromValue))
  let mentions ← Json.defaulted fields "mentions" none (Json.readOption (Json.readList Json.readString))
  let attachments ← Json.defaulted fields "attachments" none (Json.readOption (Json.readList Attachment.fromValue))
  let messageType ← Json.defaulted fields "message_type" .text (Json.readVariant MessageType.variants)
  let documentId ← Json.defaulted fields "document_id" none (Json.readOption Json.readString)
  let documentTitle ← Json.defaulted fields "document_title" none (Json.readOption Json.readString)
  let transferId ← Json.defaulted fields "transfer_id" none (Json.readOption Json.readString)
  let fileName ← Json.defaulted fields "file_name" none (Json.readOption Json.readString)
  let fileSize ← Json.defaulted fields "file_size" none (Json.readOption Json.readF64)
  let fileType ← Json.defaulted fields "file_type" none (Json.readOption Json.readString)
  let fileThumbnail ← Json.defaulted fields "file_thumbnail" none (Json.readOption Json.readString)
  let transferMode ← Json.defaulted fields "transfer_mode" none
    (Json.readOption (Json.readVariant TransferMode.variants))
  let transferState ← Json.defaulted fields "transfer_state" none
    (Json.readOption (Json.readVariant TransferState.variants))
  let transferProgress ← Json.defaulted fields "transfer_progress" none (Json.readOption Json.readF64)
  let virtualPath ← Json.defaulted fields "virtual_path" none (Json.readOption Json.readString)
  return { id, content, senderCid, recipientCid, timestamp, index, status, error, replyTo, editedAt, reactions,
           mentions, attachments, messageType, documentId, documentTitle, transferId, fileName, fileSize, fileType,
           fileThumbnail, transferMode, transferState, transferProgress, virtualPath }

end ConversationMessage

namespace PageTimestamps

def toFields (t : PageTimestamps) : Fields :=
  [("minTimestamp", t.minTimestamp.toJson), ("maxTimestamp", t.maxTimestamp.toJson)]

def fromValue (v : Json) : Except Json.Error PageTimestamps := do
  let fields ← Json.struct ["minTimestamp", "maxTimestamp"] v
  let minTimestamp ← Json.required fields "minTimestamp" Json.readF64
  let maxTimestamp ← Json.required fields "maxTimestamp" Json.readF64
  return { minTimestamp, maxTimestamp }

end PageTimestamps

namespace ConversationPage

def toFields (p : ConversationPage) : Fields :=
  [("peerCid", cidValue p.peerCid), ("pageNumber", u32Value p.pageNumber),
    ("messages", listValue (fun m => .object m.toFields) p.messages), ("pageTimestamps", .object p.pageTimestamps.toFields)]

def fromValue (v : Json) : Except Json.Error ConversationPage := do
  let fields ← Json.struct ["peerCid", "pageNumber", "messages", "pageTimestamps"] v
  let peerCid ← Json.required fields "peerCid" Json.readU64
  let pageNumber ← Json.required fields "pageNumber" Json.readU32
  let messages ← Json.required fields "messages" (Json.readList ConversationMessage.fromValue)
  let pageTimestamps ← Json.required fields "pageTimestamps" PageTimestamps.fromValue
  return { peerCid, pageNumber, messages, pageTimestamps }

end ConversationPage

namespace ConversationMetadata

def toFields (m : ConversationMetadata) : Fields :=
  [("peerCid", cidValue m.peerCid), ("ownerCid", optValue cidValue m.ownerCid),
    ("peerUsername", optValue .string m.peerUsername), ("totalMessageCount", m.totalMessageCount.toJson),
    ("oldestMessageTimestamp", m.oldestMessageTimestamp.toJson),
    ("newestMessageTimestamp", m.newestMessageTimestamp.toJson), ("latestPage", u32Value m.latestPage),
    ("messagesPerPage", u32Value m.messagesPerPage), ("unreadCount", m.unreadCount.toJson),
    ("lastMessageIndex", m.lastMessageIndex.toJson), ("lastUpdated", m.lastUpdated.toJson)]

def fromValue (v : Json) : Except Json.Error ConversationMetadata := do
  let fields ← Json.struct ["peerCid", "ownerCid", "peerUsername", "totalMessageCount", "oldestMessageTimestamp",
    "newestMessageTimestamp", "latestPage", "messagesPerPage", "unreadCount", "lastMessageIndex", "lastUpdated"] v
  let peerCid ← Json.required fields "peerCid" Json.readU64
  let ownerCid ← Json.defaulted fields "ownerCid" none (Json.readOption Json.readU64)
  let peerUsername ← Json.defaulted fields "peerUsername" none (Json.readOption Json.readString)
  let totalMessageCount ← Json.required fields "totalMessageCount" Json.readF64
  let oldestMessageTimestamp ← Json.required fields "oldestMessageTimestamp" Json.readF64
  let newestMessageTimestamp ← Json.required fields "newestMessageTimestamp" Json.readF64
  let latestPage ← Json.required fields "latestPage" Json.readU32
  let messagesPerPage ← Json.required fields "messagesPerPage" Json.readU32
  let unreadCount ← Json.required fields "unreadCount" Json.readF64
  let lastMessageIndex ← Json.required fields "lastMessageIndex" Json.readF64
  let lastUpdated ← Json.required fields "lastUpdated" Json.readF64
  return { peerCid, ownerCid, peerUsername, totalMessageCount, oldestMessageTimestamp, newestMessageTimestamp,
           latestPage, messagesPerPage, unreadCount, lastMessageIndex, lastUpdated }

end ConversationMetadata

/-! ## Records -/

inductive Bytes
  | json (value : Json)
  | other (raw : List UInt8)

inductive StoredError
  | notObject
  /-- "{field} is not a CID" -/
  | notCid (field : String)
  /-- "{field} is not a CID: {text:?}" -/
  | badCid (field text : String)
  | json (e : Json.Error)
  | notJson (raw : List UInt8)

/-- `map_err(err)`. -/
def jsonErr {α : Type} : Except Json.Error α → Except StoredError α
  | .ok a => .ok a
  | .error e => .error (.json e)

/-- `serde_json::from_slice`. -/
def fromSlice : Bytes → Except StoredError Json
  | .json v => .ok v
  | .other raw => .error (.notJson raw)

def asObject : Json → Except StoredError Fields
  | .object fields => .ok fields
  | _ => .error .notObject

/-- `9.007_199_254_740_992e15` -/
def safeInteger : F64 := F64.pow2 53

mutual

/-- Values as `JSON.stringify` writes them: an integral number has no `.0`, and a `null` field is not written. -/
def jsNumbers : Json → Json
  | .number (.float f) =>
    if f.val.fract.eq (F64.ofInt 0) && f.val.abs.lt safeInteger then .number (.ofInt f.val.toI64)
    else .number (.float f)
  | .array items => .array (jsItems items)
  | .object fields => .object (jsFields fields)
  | v => v

def jsItems : List Json → List Json
  | [] => []
  | v :: items => jsNumbers v :: jsItems items

def jsFields : List (String × Json) → List (String × Json)
  | [] => []
  | (k, v) :: fields => if v.isNull then jsFields fields else (k, jsNumbers v) :: jsFields fields

end

def cidToString (object : Fields) (field : String) : Except StoredError Fields :=
  match Fields.get object field with
  | none | some .null => .ok object
  | some (.number (.posInt cid)) => .ok (Fields.insert field (.string (toString cid.toNat)) object)
  | some _ => .error (.notCid field)

def dropPlus : List Char → List Char
  | '+' :: rest => rest
  | chars => chars

/-- `str::parse::<u64>`. -/
def parseU64 (text : String) : Option UInt64 :=
  let digits := dropPlus text.toList
  if digits ≠ [] ∧ digits.all Char.isDigit ∧ Nat.ofDigitChars 10 digits 0 < 2 ^ 64 then
    some (UInt64.ofNat (Nat.ofDigitChars 10 digits 0))
  else none

def cidFromString (object : Fields) (field : String) : Except StoredError Fields :=
  match Fields.get object field with
  | some (.string text) =>
    match parseU64 text with
    | some cid => .ok (Fields.insert field (cidValue cid) object)
    | none => .error (.badCid field text)
  | some .null => .ok (Fields.remove field object)
  | _ => .ok object

def byteValue (b : UInt8) : Json := .number (.posInt (UInt64.ofNat b.toNat))

def storedReactions (message : Fields) : Except StoredError Fields :=
  match Fields.get message "reactions" with
  | none | some .null => .ok (Fields.remove "reactions" message)
  | some value => do
    let list ← jsonErr (Json.readList Reaction.fromValue value)
    match Reactions.encode list with
    | some bytes => .ok (Fields.insert "reactions" (listValue byteValue bytes) (Fields.remove "reactions" message))
    | none => .ok (Fields.remove "reactions" message)

def readBytes (value : Json) : Option (List UInt8) := (Json.readList Json.readU8 value).toOption

/-- The stored byte array back to a list, dropped (not failed) when unreadable. -/
def canonicalReactions (message : Fields) : Fields :=
  match Fields.get message "reactions" with
  | none => message
  | some value =>
    match (readBytes value).bind Reactions.decode with
    | some list => Fields.insert "reactions" (listValue Reaction.toValue list) (Fields.remove "reactions" message)
    | none => Fields.remove "reactions" message

/-- A message, which must be an object, changed by `f`. -/
def changeMessage (f : Fields → Except StoredError Fields) (message : Json) : Except StoredError Json := do
  let fields ← asObject message
  let changed ← f fields
  return .object changed

/-- Each element of the `messages` array changed by `f`. -/
def mapMessages (f : Fields → Except StoredError Fields) (object : Fields) : Except StoredError Fields :=
  match Fields.get object "messages" with
  | some (.array messages) => do
    let changed ← messages.mapM (changeMessage f)
    return Fields.insert "messages" (.array changed) object
  | _ => .ok object

def storedMessage (message : Fields) : Except StoredError Fields := do
  let message ← cidToString message "senderCid"
  let message ← cidToString message "recipientCid"
  storedReactions message

def canonicalMessage (message : Fields) : Except StoredError Fields := do
  let message ← cidFromString message "senderCid"
  let message ← cidFromString message "recipientCid"
  return canonicalReactions message

def encodePage (page : ConversationPage) : Except StoredError Bytes := do
  let object ← cidToString page.toFields "peerCid"
  let object ← mapMessages storedMessage object
  return .json (jsNumbers (.object object))

def decodePage (bytes : Bytes) : Except StoredError ConversationPage := do
  let object ← asObject (← fromSlice bytes)
  let object ← cidFromString object "peerCid"
  let object ← mapMessages canonicalMessage object
  jsonErr (ConversationPage.fromValue (.object object))

def encodeMetadata (metadata : ConversationMetadata) : Except StoredError Bytes := do
  let object ← cidToString metadata.toFields "peerCid"
  let object ← cidToString object "ownerCid"
  return .json (jsNumbers (.object object))

def decodeMetadata (bytes : Bytes) : Except StoredError ConversationMetadata := do
  let object ← asObject (← fromSlice bytes)
  let object ← cidFromString object "peerCid"
  let object ← cidFromString object "ownerCid"
  jsonErr (ConversationMetadata.fromValue (.object object))

end CitadelAgent.Conversations
