import CitadelAgent.Conversations.Engine

/-!
# A delivered payload

`inbound.rs` and `inbound_notice.rs`: a P2P message the account's ILM delivered is stored, acknowledged and announced.
The answer is ILM's acknowledgement: `true` is "handled, retire it", `false` is "not yet, deliver it again".
-/

namespace CitadelAgent.Conversations.Engine
open Store (Revised Revision)

def applied (result : Revised) (kind : ConversationEventKind) : Option Change :=
  match result with
  | .applied m => some (.ofMessage kind m)
  | .notSender | .unknown => none

def statusOf : AckKind → MessageStatus
  | .delivered => .delivered
  | .read => .read
  | .failed => .failed

/-- A message from the peer, as it is stored: the transport peer is its sender, never the payload's `sender_cid`. -/
def fromPeer (cid peer : Cid) (envelope : Envelope) (contents : String) (timestamp : F64) : ConversationMessage :=
  { received envelope contents timestamp with senderCid := peer, recipientCid := cid, status := .delivered }

/-- A screenshot notice, as it is stored. -/
def noticeFrom (cid peer : Cid) (envelope : Envelope) (contents : String) (timestamp : F64) : ConversationMessage :=
  { fromPeer cid peer envelope contents timestamp with messageType := .systemNotice }

/-- `taken_at.unwrap_or_else(|| io.now_ms())`. -/
def takenOrNow : Option F64 → EngineM F64
  | some t => pure t
  | none => nowMs

/-- A peer's screenshot notice, stored as a system notice if the account asks. -/
def screenshot (cid peer : Cid) (envelope : Envelope) (takenAt : Option F64) : EngineM Bool := do
  match ← preferences cid with
  | .error _ => return false
  | .ok prefs =>
    if !prefs.notifyOnScreenshot then return true
    else
      let name := ((← currentMetadata cid peer).bind (·.peerUsername)).getD (toString peer.toNat)
      let timestamp ← takenOrNow takenAt
      let message := noticeFrom cid peer envelope (name ++ " may have taken a screenshot") timestamp
      let appended ← locked cid peer do
        let now ← nowMs
        store (Store.append cid peer message none now)
      match appended with
      | .ok added =>
        announceAppended cid peer message none added
        return true
      | .error _ => return false

def revisionOf (cid peer : Cid) (now : F64) : Inbound → KvM (Option Change)
  | .edit target contents editedAt =>
    (applied · .updated) <$> Store.revise cid peer target peer (.edit contents editedAt) now
  | .delete target => (applied · .removed) <$> Store.revise cid peer target peer .delete now
  | .reaction target emoji active at_ =>
    Option.map (Change.ofMessage .updated) <$> Store.react cid peer target { emoji, reactorCid := peer, at_, active }
  | .ack kind messageId => Option.map (Change.ofMessage .updated) <$> Store.setStatus cid peer messageId (statusOf kind) none
  | _ => pure none

def revision (cid peer : Cid) (command : Inbound) : EngineM Bool := do
  let now ← nowMs
  match command with
  | .screenshot envelope takenAt =>
    -- the lock is taken and dropped
    locked cid peer (pure ())
    screenshot cid peer envelope takenAt
  | command =>
    match ← locked cid peer (store (revisionOf cid peer now command)) with
    | .ok (some change) =>
      announce cid peer change
      return true
    | .ok none => return true
    | .error _ => return false

/-- The append of `store_and_ack`, and the peer's name kept with it. -/
def appendNamed (cid peer : Cid) (message : ConversationMessage) (username : Option String) :
    EngineM (Except KvError (Option ConversationMetadata)) := do
  let now ← nowMs
  let appended ← store (Store.append cid peer message username now)
  match appended, username with
  | .ok _, some name =>
    let now ← nowMs
    let _ ← store (Store.setPeerUsername cid peer name now)
    return appended
  | _, _ => return appended

def raiseMessage (cid peer : Cid) (username : Option String) (message : ConversationMessage) : EngineM Unit :=
  if message.messageType = .text ∨ message.messageType = .markdown then
    io (.raiseNotice cid (.message peer username message.content))
  else pure ()

/-- Store `message` and send the app-level "delivered", also for a duplicate. -/
def storeAndAck (cid peer : Cid) (message : ConversationMessage) : EngineM Bool := do
  let username ← io (.peerUsername cid peer)
  match ← locked cid peer (appendNamed cid peer message username) with
  | .error _ => return false
  | .ok added =>
    let now ← nowMs
    let _ ← io (.sendP2p cid peer (Command.ack .delivered message.id now))
    match added with
    | none => return true
    | some metadata =>
      raiseMessage cid peer username message
      announceAppended cid peer message none (some metadata)
      return true

def hidden (cid peer : Cid) (prefs : AccountPreferences) : EngineM Bool :=
  if prefs.acceptRequestsFromStrangers then pure false
  else do
    let known ← io (.knowsPeer cid peer)
    return !known

def incoming (cid peer : Cid) (envelope : Envelope) (contents : String) (timestamp : F64) : EngineM Bool := do
  match ← preferences cid with
  | .error _ => return false
  | .ok prefs =>
    -- not stored, not acknowledged to the sender
    if ← hidden cid peer prefs then return true
    else
      storeAndAck cid peer (fromPeer cid peer envelope contents timestamp)

def raiseCall (n : MessageNotification) : EngineM Unit :=
  if Command.isCallInvite n.message then do
    let peerUsername ← io (.peerUsername n.cid n.peerCid)
    io (.raiseNotice n.cid (.incomingCall n.peerCid peerUsername))
  else pure ()

def delivered (n : MessageNotification) : EngineM Bool := do
  match Command.read n.message with
  | none | some .forAWindow =>
    let taken ← io (.publish n.cid (.messageNotification n))
    return 0 < taken
  | some .ephemeral =>
    raiseCall n
    let _ ← io (.publish n.cid (.messageNotification n))
    return true
  | some .checkState =>
    let envelope ← rawEnvelope n.cid n.peerCid
    let _ ← io (.sendP2p n.cid n.peerCid (Command.messagingLayer Command.checkStateResponse envelope))
    return true
  | some (.message envelope contents timestamp) => incoming n.cid n.peerCid envelope contents timestamp
  | some command => revision n.cid n.peerCid command

end CitadelAgent.Conversations.Engine
