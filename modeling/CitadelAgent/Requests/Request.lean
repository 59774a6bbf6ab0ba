import CitadelAgent.Conversations.Cbor
import CitadelAgent.Conversations.Keys

/-!
# What a window asks for

`InternalServiceRequest` and the pure checks of `requests/mod.rs`, `local_db/mod.rs`, `sign_in/recovery.rs` and
`store_keys.rs`.

* `Request` : the requests but `Batched`, with what the checks and the store's handlers read of each;
* `InternalServiceRequest` : a request, or a batch of them, of batches, and so on;
* `gateDecision`, `allows`, `namesReservedKey`, `smugglesInternalHttp`, `refusalResponse` : the checks.
-/

namespace CitadelAgent.Requests
open Conversations (Cid startsWith)

/-- A connection's. -/
abbrev Uuid := Nat

abbrev Bytes := List UInt8

/-- A bucket's records. -/
abbrev Kv := AList fun _ : String => Bytes

/-! ## The requests -/

inductive SessionKind
  | disconnect | deregister
  | mediaOpen | mediaSend | mediaClose
  | sendFile | respondFileTransfer | downloadFile | deleteVirtualFile | pickFile | stageUploadChunk | readPulledFileChunk
  | listAllPeers | listRegisteredPeers
  | peerConnect | peerDisconnect | peerConnectAccept | peerRegister | peerRegisterRespond
  | groupCreate | groupCreateAppTopic | groupLeave | groupEnd | groupMessage | groupInvite | groupRespondRequest | groupKick
  | groupListGroupsFor | groupListJoined | groupRequestJoin
  | conversationSend | conversationResend | conversationEdit | conversationDelete | conversationReact
  | conversationMarkRead | conversationRecord | conversationPatch | conversationClear | conversationList | conversationPage
  | setAccountPreferences | getAccountPreferences
  | browserConsole
  | appFetch | appFetchCredit | appFetchCancel | getAppNetUsage | appKv | ihttpSend

/-- The requests that precede or span a session, less `ConnectionManagement` and `Batched`. -/
inductive FreeKind
  | connect | register | getSessions | getAccountInformation | noticeSubscribe | noticeSetMuted
  | updateGetStatus | updateCheckNow | updateApply | updateSetSettings | updateInstallResult
  | securityKeyAnswer | securityKeyDecline

inductive SignInPolicy
  | password | passwordAndKey | keyOnly

inductive SignInManagementOp
  | listCredentials
  | addSecurityKey (credentialId : Bytes) (label : String)
  | renameCredential (id : UInt32) (label : String)
  | removeCredential (id : UInt32)
  | setSignInPolicy (policy : SignInPolicy)
  | regenerateRecoveryCodes

/-- What `ConnectionManagement` carries, with the session it names. -/
inductive ConfigCommand
  | setConnectionOrphan (allowOrphanSessions : Bool)
  | claimSession (sessionCid : Cid) (onlyIfOrphaned : Bool)
  | disconnectOrphan (sessionCid : Option Cid)
  | releaseSession (sessionCid : Cid)
  | attachSession (sessionCid : Cid)
  | reportFocus (sessionCid : Cid) (peerCid : Option Cid) (focused : Bool)
  | declareCapabilities (agentIlm : Bool)
  | interest (sessionCid peerCid : Cid) (until_ : UInt64)

inductive Request
  | session (kind : SessionKind) (cid : Cid)
  | free (kind : FreeKind)
  | message (cid : Cid) (message : Bytes)
  | sendReliable (cid : Cid) (message : Bytes)
  | localDBGetKV (cid : Cid) (peerCid : Option Cid) (key : String)
  | localDBSetKV (cid : Cid) (peerCid : Option Cid) (key : String) (value : Bytes)
  | localDBDeleteKV (cid : Cid) (peerCid : Option Cid) (key : String)
  | localDBGetAllKV (cid : Cid) (peerCid : Option Cid)
  | localDBClearAllKV (cid : Cid) (peerCid : Option Cid)
  | signInManagement (cid : Cid) (op : SignInManagementOp)
  | appsGetAgentSettings (cid : Cid)
  | appsSetAgentSettings (cid : Cid) (privateNetwork : Bool)
  | connectionManagement (command : ConfigCommand)

/-- A request as it arrives; `batched` is `Batched`. -/
inductive InternalServiceRequest
  | one (command : Request)
  | batched (commands : List InternalServiceRequest)

/-- A request to the key-value store. -/
def Request.isLocalDB : Request → Bool
  | .localDBGetKV .. | .localDBSetKV .. | .localDBDeleteKV .. | .localDBGetAllKV .. | .localDBClearAllKV .. => true
  | _ => false

def Request.sessionCid : Request → Option Cid
  | .session _ cid | .message cid _ | .sendReliable cid _ | .localDBGetKV cid _ _ | .localDBSetKV cid _ _ _
  | .localDBDeleteKV cid _ _ | .localDBGetAllKV cid _ | .localDBClearAllKV cid _ | .signInManagement cid _
  | .appsGetAgentSettings cid | .appsSetAgentSettings cid _ => some cid
  | .free _ | .connectionManagement _ => none

/-! ## The ownership gate -/

def isConversation : SessionKind → Bool
  | .conversationSend | .conversationResend | .conversationEdit | .conversationDelete | .conversationReact
  | .conversationMarkRead | .conversationRecord | .conversationPatch | .conversationClear | .conversationList
  | .conversationPage | .setAccountPreferences | .getAccountPreferences => true
  | _ => false

def requiresOwnedSession : Request → Bool
  | .localDBSetKV .. | .localDBDeleteKV .. | .localDBClearAllKV .. | .localDBGetAllKV .. | .localDBGetKV ..
  | .appsGetAgentSettings .. | .appsSetAgentSettings .. => true
  | .session kind _ =>
    match kind with
    | .readPulledFileChunk | .browserConsole | .appFetch | .appFetchCredit | .appFetchCancel | .getAppNetUsage | .appKv
    | .ihttpSend | .deregister => true
    | kind => isConversation kind
  | _ => false

inductive GateDecision
  | proceed
  | refuse (reason : String)

/-- `callerAttached` is `none` for a session the agent does not know. -/
def gateDecision (command : Request) (callerAttached : Option Bool) : GateDecision :=
  if command.sessionCid = some 0 then .proceed
  else match callerAttached with
    | some false => .refuse "the connection does not own it"
    | some true => .proceed
    | none =>
      if requiresOwnedSession command then .refuse "no mapped session, so ownership cannot be established"
      else .proceed

theorem gateDecision_proceed {command : Request} {attached : Option Bool} (h : gateDecision command attached = .proceed)
    {cid : Cid} (hcid : command.sessionCid = some cid) (hne : cid ≠ 0) :
    attached = some true ∨ attached = none ∧ requiresOwnedSession command = false := by
  unfold gateDecision at h
  split at h
  · rename_i hzero
    exact absurd (Option.mem_unique hcid hzero) hne
  · split at h
    · simp at h
    · exact .inl rfl
    · split at h
      · simp at h
      · rename_i howned
        exact .inr ⟨rfl, by simpa using howned⟩

/-! ## The other checks -/

structure Sdk where
  allowedInRecovery : SignInManagementOp → Bool

def allows (sdk : Sdk) : Request → Bool
  | .session .disconnect _ => true
  | .signInManagement _ op => sdk.allowedInRecovery op
  | _ => false

def ENVELOPE_KIND : String := "citadel-ihttp/1"

def envelopeStart : Bytes :=
  [0xb9, 0x00, 0x02] ++ (Conversations.Cbor.Value.text "type").encode ++ (Conversations.Cbor.Value.text ENVELOPE_KIND).encode

def smugglesInternalHttp : Request → Bool
  | .message _ message | .sendReliable _ message => envelopeStart.isPrefixOf message
  | _ => false

def APP_STORAGE_PREFIX : String := "app:"

def AGENT_KEY_PREFIX : String := "agent:"

def AUTO_INSTALL_KEY : String := "agent_update_auto_install"

def APP_STORAGE_REFUSED : String := "app: keys are the agent's apps storage"

def AGENT_SETTINGS_REFUSED : String := "agent: keys are the agent's own settings"

def reservedKey (key : String) : Option String :=
  if startsWith key APP_STORAGE_PREFIX then some APP_STORAGE_REFUSED
  else if startsWith key AGENT_KEY_PREFIX || key = AUTO_INSTALL_KEY then some AGENT_SETTINGS_REFUSED
  else none

def namesReservedKey : Request → Option String
  | .localDBGetKV _ _ key | .localDBSetKV _ _ key _ | .localDBDeleteKV _ _ key => reservedKey key
  | _ => none

/-! ## A decimal number, as `str::parse` reads it -/

/-- The digits, most significant first, while the number fits. -/
def parseDigits (value : Nat) : List Char → Option Nat
  | [] => some value
  | c :: rest =>
    if c.isDigit then
      let value := value * 10 + (c.toNat - '0'.toNat)
      if value < 2 ^ 64 then parseDigits value rest else none
    else none

/-- `u64::from_str`, with the sign it allows. -/
def parseU64 (text : List Char) : Option Cid :=
  let number := match text with
    | '+' :: rest => rest
    | text => text
  if number = [] then none else (parseDigits 0 number).map UInt64.ofNat

/-- What precedes the first occurrence, if there is one: `split_once(part)`. -/
def beforeFirst (part : List Char) : List Char → Option (List Char)
  | [] => if part = [] then some [] else none
  | c :: text => if part.isPrefixOf (c :: text) then some [] else (beforeFirst part text).map (c :: ·)

/-- The account a scoped conversation record belongs to. -/
def conversationOwner (key : String) : Option Cid := do
  let rest ← Conversations.PAGINATED_PREFIX.toList.isPrefixOf? key.toList
  let owner ← beforeFirst "_with_".toList rest
  parseU64 owner

/-! ## Answers -/

inductive Response
  | failure (command : Request) (message : String)
  | localDBGetKVSuccess (cid : Cid) (peerCid : Option Cid) (key : String) (value : Bytes)
  | localDBSetKVSuccess (cid : Cid) (peerCid : Option Cid) (key : String)
  | localDBDeleteKVSuccess (cid : Cid) (peerCid : Option Cid) (key : String)
  | localDBGetAllKVSuccess (cid : Cid) (peerCid : Option Cid) (map : Kv)
  | localDBClearAllKVSuccess (cid : Cid) (peerCid : Option Cid)
  | appsAgentSettings (cid : Cid) (privateNetwork : Bool)
  | batchedResponse (results : List Response)
  | answered (text : String)

def REFUSED : String := "Session unavailable to this connection"

def RECOVERY_ONLY : String :=
  "This session signed in with a recovery code: it can only add a security key, set the sign-in policy, or sign out"

def refusalResponse (command : Request) (message : String) : Option Response :=
  match command with
  | .session .browserConsole _ | .session .appFetchCredit _ | .session .appFetchCancel _ | .session .groupListGroupsFor _
  | .session .mediaOpen _ | .session .mediaClose _ | .session .mediaSend _ | .session .respondFileTransfer _
  | .session .peerRegisterRespond _ | .free _ | .connectionManagement _ => none
  | command => some (.failure command message)

/-- `HashMap::retain` -/
def retain (keep : String → Bool) (map : Kv) : Kv :=
  ⟨map.entries.filter fun entry => keep entry.1, map.nodupKeys.sublist List.filter_sublist⟩

theorem mem_retain {keep : String → Bool} {map : Kv} {key : String} (h : key ∈ retain keep map) : keep key = true := by
  obtain ⟨entry, hentry, rfl⟩ := List.mem_map.mp (show key ∈ (map.entries.filter fun entry => keep entry.1).map Sigma.fst from h)
  exact (List.mem_filter.mp hentry).2

/-- A window's answer to `LocalDBGetAllKV`, without the reserved records. -/
def hideReservedKeys : Response → Response
  | .localDBGetAllKVSuccess cid peerCid map =>
    .localDBGetAllKVSuccess cid peerCid (retain (fun key => (reservedKey key).isNone) map)
  | response => response

/-- What a window's `LocalDBClearAllKV` removes. -/
def keysAWindowClears (stored : Kv) : List String := (AList.keys stored).filter fun key => (reservedKey key).isNone

end CitadelAgent.Requests
