import CitadelAgent.Lib.Float64

/-!
# Conversations: the vocabulary

`citadel-internal-service-types/src/conversation.rs`: a conversation is a metadata record and numbered pages of
messages. Field names are the source's, in camel case; the names they are stored under are in `Stored`.
-/

namespace CitadelAgent.Conversations

abbrev Cid := UInt64

inductive MessageStatus
  | pending | sent | delivered | read | failed
  deriving DecidableEq

inductive MessageType
  | text | markdown | liveDocument | fileTransfer | systemNotice
  deriving DecidableEq

inductive TransferMode
  | async | p2p
  deriving DecidableEq

inductive TransferState
  | pending | uploading | staged | transferring | complete | declined | cancelled | expired | error
  deriving DecidableEq

structure Attachment where
  fileId : String
  fileName : String
  fileSize : F64
  fileType : String
  thumbnail : Option String

/-- One reactor's one emoji on a message; retractions stay as `active = false`. -/
structure Reaction where
  emoji : String
  reactorCid : Cid
  at_ : F64
  active : Bool
  deriving DecidableEq

structure ConversationMessage where
  id : String
  content : String
  senderCid : Cid
  recipientCid : Cid
  timestamp : F64
  index : F64
  status : MessageStatus
  error : Option String
  replyTo : Option String
  editedAt : Option F64
  reactions : Option (List Reaction)
  mentions : Option (List String)
  attachments : Option (List Attachment)
  messageType : MessageType
  documentId : Option String
  documentTitle : Option String
  transferId : Option String
  fileName : Option String
  fileSize : Option F64
  fileType : Option String
  fileThumbnail : Option String
  transferMode : Option TransferMode
  transferState : Option TransferState
  transferProgress : Option F64
  virtualPath : Option String

def ConversationMessage.text (id content : String) (sender recipient : Cid) (timestamp index : F64)
    (status : MessageStatus) : ConversationMessage where
  id := id
  content := content
  senderCid := sender
  recipientCid := recipient
  timestamp := timestamp
  index := index
  status := status
  error := none
  replyTo := none
  editedAt := none
  reactions := none
  mentions := none
  attachments := none
  messageType := .text
  documentId := none
  documentTitle := none
  transferId := none
  fileName := none
  fileSize := none
  fileType := none
  fileThumbnail := none
  transferMode := none
  transferState := none
  transferProgress := none
  virtualPath := none

/-- What a window may change on a message it did not author the content of. -/
structure MessagePatch where
  status : Option MessageStatus
  error : Option String
  transferState : Option TransferState
  transferProgress : Option F64
  virtualPath : Option String
  fileThumbnail : Option String

structure ConversationMetadata where
  peerCid : Cid
  ownerCid : Option Cid
  peerUsername : Option String
  totalMessageCount : F64
  oldestMessageTimestamp : F64
  newestMessageTimestamp : F64
  latestPage : UInt32
  messagesPerPage : UInt32
  unreadCount : F64
  lastMessageIndex : F64
  lastUpdated : F64

structure PageTimestamps where
  minTimestamp : F64
  maxTimestamp : F64

structure ConversationPage where
  peerCid : Cid
  pageNumber : UInt32
  messages : List ConversationMessage
  pageTimestamps : PageTimestamps

end CitadelAgent.Conversations
