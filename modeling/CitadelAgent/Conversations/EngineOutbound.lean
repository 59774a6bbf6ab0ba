import CitadelAgent.Conversations.Engine

/-!
# A window's own actions, and the sweep

`outbound.rs`, `outbound_more.rs`, `retention.rs` and the writing requests of `requests.rs`.
-/

namespace CitadelAgent.Conversations

inductive EngineError
  | kv (e : KvError)
  /-- "No message {id} in this conversation" -/
  | noMessage (id : String)
  /-- "Only a failed message you sent can be sent again" -/
  | notFailed
  | notSender
  /-- "A record must be between this account and the peer" -/
  | notBetween
  /-- "This conversation is not this account's to clear" -/
  | notToClear
  /-- What ILM answered. -/
  | send (text : String)
  /-- "Saved here, but not sent: {e}" -/
  | savedNotSent (text : String)

abbrev Outcome (α : Type) := Prog.Fallible EngineOp EngineOp.Ans EngineError α

namespace Engine
open Store (Revised Revision)

/-- A call on the store, with `?`. -/
def storing {α : Type} (x : KvM α) : Outcome α := ExceptT.mk do
  match ← store x with
  | .ok a => return .ok a
  | .error e => return .error (.kv e)

/-- `io.send_p2p(..).await.map_err(f)?`. -/
def sending (cid peer : Cid) (bytes : List UInt8) (f : String → EngineError) : Outcome Unit := ExceptT.mk do
  match ← io (.sendP2p cid peer bytes) with
  | .ok () => return .ok ()
  | .error e => return .error (f e)

/-- What `ConversationSend` carries, minus the addressing. -/
structure Outgoing where
  content : String
  messageType : MessageType
  replyTo : Option String
  mentions : Option (List String)
  attachments : Option (List Attachment)
  documentId : Option String
  documentTitle : Option String
  requestId : Option String

def failure : Except String Unit → Option String
  | .ok () => none
  | .error e => some e

/-- Send `message` and record `sent` or `failed`; the caller holds the lock. -/
def transmit (cid peer : Cid) (message : ConversationMessage) (envelope : Envelope) :
    Outcome (Option ConversationMessage) := do
  let bytes := Command.messagingLayer (Command.messageLayer message.content message.timestamp) envelope
  let error := failure (← io (.sendP2p cid peer bytes))
  let status := if error.isNone then MessageStatus.sent else .failed
  let updated ← storing (Store.setStatus cid peer message.id status error)
  announceUpdated cid peer updated
  match error with
  | some e => throw (.send e)
  | none => return updated

def send (cid peer : Cid) (out : Outgoing) : EngineM (Except EngineError (Option ConversationMessage)) :=
  locked cid peer <| ExceptT.run do
    let metadata ← storing (Store.loadMetadata cid peer)
    let index := ((metadata.map (·.lastMessageIndex)).getD (F64.ofNat 0)).add (F64.ofNat 1)
    let messageId ← (io .newId : EngineM _)
    let envelope : Envelope := {
      senderCid := cid, recipientCid := peer, messageId, index, replyTo := out.replyTo, mentions := out.mentions
      attachments := out.attachments, messageType := out.messageType, documentId := out.documentId
      documentTitle := out.documentTitle }
    let timestamp ← (nowMs : EngineM _)
    let message := { received envelope out.content timestamp with senderCid := cid, recipientCid := peer }
    let peerUsername ← (io (.peerUsername cid peer) : EngineM _)
    let now ← (nowMs : EngineM _)
    let added ← storing (Store.append cid peer message peerUsername now)
    announceAppended cid peer message out.requestId added
    transmit cid peer message envelope

def resend (cid peer : Cid) (id : String) : EngineM (Except EngineError (Option ConversationMessage)) :=
  locked cid peer <| ExceptT.run do
    match ← storing (Store.find cid peer id) with
    | none => throw (.noMessage id)
    | some found =>
      let message := found.message
      if message.status ≠ .failed ∨ message.senderCid ≠ cid then throw .notFailed
      else
        let pending ← storing (Store.setStatus cid peer id .pending none)
        announceUpdated cid peer pending
        transmit cid peer message {
          senderCid := cid, recipientCid := peer, messageId := message.id, index := message.index
          replyTo := message.replyTo, mentions := message.mentions, attachments := message.attachments
          messageType := message.messageType, documentId := message.documentId, documentTitle := message.documentTitle }

def reviseOwn (cid peer : Cid) (id : String) (edit : Option String) :
    EngineM (Except EngineError (Option ConversationMessage)) :=
  locked cid peer <| ExceptT.run do
    let now ← (nowMs : EngineM _)
    let (revision, layer, kind) := match edit with
      | some contents => (Revision.edit contents now, Command.editLayer id contents now, ConversationEventKind.updated)
      | none => (.delete, Command.deleteLayer id now, .removed)
    match ← storing (Store.revise cid peer id cid revision now) with
    | .notSender => throw .notSender
    | .unknown => throw (.noMessage id)
    | .applied message =>
      announce cid peer (.ofMessage kind message)
      let envelope ← (rawEnvelope cid peer : EngineM _)
      sending cid peer (Command.messagingLayer layer envelope) .savedNotSent
      return some message

def react (cid peer : Cid) (id emoji : String) (active : Bool) :
    EngineM (Except EngineError (Option ConversationMessage)) :=
  locked cid peer <| ExceptT.run do
    let at_ ← (nowMs : EngineM _)
    match ← storing (Store.react cid peer id { emoji, reactorCid := cid, at_, active }) with
    | none => return none
    | some message =>
      announce cid peer (.ofMessage .updated message)
      let envelope ← (rawEnvelope cid peer : EngineM _)
      sending cid peer (Command.messagingLayer (Command.reactionLayer id emoji active at_) envelope) .savedNotSent
      return some message

def receipt (cid peer : Cid) (sendReceipts : Bool) (message : ConversationMessage) : EngineM Unit :=
  if sendReceipts then do
    let now ← nowMs
    let _ ← io (.sendP2p cid peer (Command.ack .read message.id now))
    return ()
  else pure ()

/-- The loop of `mark_read`: each message announced, and its receipt sent. -/
def announceRead (cid peer : Cid) (sendReceipts : Bool) : List ConversationMessage → EngineM Unit
  | [] => return ()
  | message :: rest => do
    announce cid peer (.ofMessage .updated message)
    receipt cid peer sendReceipts message
    announceRead cid peer sendReceipts rest

def announceMarked (cid peer : Cid) : Option ConversationMetadata → EngineM Unit
  | some metadata => announce cid peer (.whole .metadataChanged (some metadata))
  | none => pure ()

/-- `preferences(io, cid).await?`. -/
def needPreferences (cid : Cid) : Outcome AccountPreferences := ExceptT.mk do
  match ← preferences cid with
  | .ok prefs => return .ok prefs
  | .error e => return .error (.kv e)

/-- Everything from `peer` is read. -/
def markRead (cid peer : Cid) : EngineM (Except EngineError (Option ConversationMessage)) :=
  locked cid peer <| ExceptT.run do
    let now ← (nowMs : EngineM _)
    let (read, metadata) ← storing (Store.markRead cid peer now)
    let prefs ← needPreferences cid
    announceRead cid peer prefs.sendReadReceipts read
    announceMarked cid peer metadata
    return none

/-! ## Requests -/

/-- `ConversationRecord`. -/
def record (cid peer : Cid) (message : ConversationMessage) : EngineM (Except EngineError (Option ConversationMessage)) :=
  if (message.senderCid, message.recipientCid) ≠ (cid, peer) ∧ (message.senderCid, message.recipientCid) ≠ (peer, cid) then
    return .error .notBetween
  else locked cid peer <| ExceptT.run do
    let peerUsername ← (io (.peerUsername cid peer) : EngineM _)
    let now ← (nowMs : EngineM _)
    let added ← storing (Store.append cid peer message peerUsername now)
    announceAppended cid peer message none added
    return some message

/-- `ConversationPatch`. -/
def patch (cid peer : Cid) (id : String) (p : MessagePatch) : EngineM (Except EngineError (Option ConversationMessage)) :=
  locked cid peer <| ExceptT.run do
    let changed ← storing (Store.patch cid peer id p)
    announceUpdated cid peer changed
    return changed

/-- `ConversationClear`. -/
def clear (cid peer : Cid) (includeUnattributed : Bool) : EngineM (Except EngineError (Option ConversationMessage)) :=
  locked cid peer <| ExceptT.run do
    match ← storing (Store.delete cid peer includeUnattributed) with
    | false => throw .notToClear
    | true =>
      announce cid peer (.whole .cleared none)
      return none

/-! ## Retention -/

def DAY_MS : F64 := F64.ofNat 86400000

/-- One round of the sweep: a conversation whose messages are kept for `days` days. -/
def expire (cid peer : Cid) (days : UInt32) : EngineM Unit := do
  let now ← nowMs
  let cutoff := now.sub ((F64.ofNat days.toNat).mul DAY_MS)
  match ← locked cid peer (store (Store.pruneOlderThan cid peer cutoff now)) with
  | .ok 0 => return ()
  | .ok _ => announce cid peer (.whole .expired none)
  | .error _ => return ()

def sweepSettings (cid : Cid) : List PeerRetention → EngineM Unit
  | [] => return ()
  | setting :: rest =>
    match setting.retention with
    | .forever => sweepSettings cid rest
    | .days days => do
      expire cid setting.peerCid days
      sweepSettings cid rest

def sweep (cid : Cid) : EngineM Unit := do
  match ← preferences cid with
  | .error _ => return ()
  | .ok prefs => sweepSettings cid prefs.retention

end Engine

end CitadelAgent.Conversations
