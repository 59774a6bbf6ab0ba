import CitadelAgent.Conversations.Keys
import CitadelAgent.Conversations.Kv

/-!
# The conversation store

`store.rs`, `store_rules.rs`, `store_mutations.rs` and `store_lifecycle.rs`: one account's view of its conversation
records. `own` is the account whose conversations these are. Every function assumes the caller holds the
conversation's lock; none of them locks.
-/

namespace CitadelAgent.Conversations

/-! ## Pages and their metadata -/

def MESSAGES_PER_PAGE : Nat := 50

namespace StoreRules

def emptyPage (peer : Cid) (number : UInt32) (at_ : F64) : ConversationPage where
  peerCid := peer
  pageNumber := number
  messages := []
  pageTimestamps := ⟨at_, at_⟩

/-- `a.timestamp.total_cmp(&b.timestamp)`, as an order. -/
def earlier (a b : ConversationMessage) : Bool := a.timestamp.totalKey ≤ b.timestamp.totalKey

def bounds (messages : List ConversationMessage) (none_ : F64) : PageTimestamps where
  minTimestamp := (messages.head?.map (·.timestamp)).getD none_
  maxTimestamp := (messages.getLast?.map (·.timestamp)).getD none_

def place (page : ConversationPage) (message : ConversationMessage) : ConversationPage :=
  let messages := (page.messages ++ [message]).mergeSort earlier
  { page with messages, pageTimestamps := bounds messages message.timestamp }

def recordAppend (metadata : ConversationMetadata) (message : ConversationMessage) (isNew : Bool) (own : Cid)
    (now : F64) : ConversationMetadata :=
  let total := metadata.totalMessageCount.add (F64.ofNat 1)
  { metadata with
    totalMessageCount := total
    newestMessageTimestamp := message.timestamp
    oldestMessageTimestamp :=
      if isNew || total.eq (F64.ofNat 1) || message.timestamp.lt metadata.oldestMessageTimestamp then message.timestamp
      else metadata.oldestMessageTimestamp
    lastMessageIndex := metadata.lastMessageIndex.max message.index
    lastUpdated := now
    unreadCount :=
      if message.senderCid ≠ own ∧ message.status = .delivered then metadata.unreadCount.add (F64.ofNat 1)
      else metadata.unreadCount }

def rank : MessageStatus → Int
  | .sent => 0
  | .delivered => 1
  | .read => 2
  | .pending | .failed => -1

/-- The delivery ladder: pending < sent < delivered < read; `failed` replaces anything below delivered, and anything
positive replaces `failed`. -/
def statusAdvances (current next : MessageStatus) : Bool :=
  if current = next then false
  else if next = .failed then current ≠ .delivered && current ≠ .read
  else if current = .failed then true
  else rank current < rank next

end StoreRules

open StoreRules

namespace Store

variable (own : Cid)

/-! ## Loading and saving -/

def metadataAt (key : String) : KvM (Option ConversationMetadata) := do
  match ← Kv.get key with
  | some bytes => return some (← Kv.stored (decodeMetadata bytes))
  | none => return none

def pageAt (key : String) : KvM (Option ConversationPage) := do
  match ← Kv.get key with
  | some bytes => return some (← Kv.stored (decodePage bytes))
  | none => return none

def readable (metadata : ConversationMetadata) : Bool := metadata.ownerCid.all (· = own)

def loadMetadata (peer : Cid) : KvM (Option ConversationMetadata) := do
  match ← metadataAt (metadataKey (scopedKey own peer)) with
  | some found => return some found
  | none => return (← metadataAt (metadataKey (legacyKey peer))).filter (readable own)

def loadPage (peer : Cid) (number : UInt32) : KvM (Option ConversationPage) := do
  match ← pageAt (pageKey (scopedKey own peer) number) with
  | some page => return some page
  | none => pageAt (pageKey (legacyKey peer) number)

def saveMetadata (metadata : ConversationMetadata) : KvM Unit := do
  Kv.set (metadataKey (scopedKey own metadata.peerCid)) (← Kv.stored (encodeMetadata metadata))

def savePage (page : ConversationPage) : KvM Unit := do
  Kv.set (pageKey (scopedKey own page.peerCid) page.pageNumber) (← Kv.stored (encodePage page))

/-! ## Appending -/

def newMetadata (peer : Cid) (message : ConversationMessage) (peerUsername : Option String) (now : F64) :
    ConversationMetadata where
  peerCid := peer
  ownerCid := some own
  peerUsername := peerUsername
  totalMessageCount := F64.ofNat 0
  oldestMessageTimestamp := message.timestamp
  newestMessageTimestamp := message.timestamp
  latestPage := 0
  messagesPerPage := UInt32.ofNat MESSAGES_PER_PAGE
  unreadCount := F64.ofNat 0
  lastMessageIndex := F64.ofNat 0
  lastUpdated := now

/-- Adopt an unstamped record the first time this account writes to it. -/
def stamped (metadata : ConversationMetadata) : ConversationMetadata :=
  { metadata with ownerCid := some (metadata.ownerCid.getD own) }

def hasId (id : String) (m : ConversationMessage) : Bool := m.id = id

def alreadyStored (peer : Cid) (latestPage : UInt32) (page : ConversationPage) (id : String) : KvM Bool := do
  if page.messages.any (hasId id) then return true
  else if latestPage = 0 then return false
  else return (← loadPage own peer (latestPage - 1)).any fun p => p.messages.any (hasId id)

/-- `latest_page += 1`. -/
def nextPage (number : UInt32) : KvM UInt32 :=
  if number.toNat + 1 < 2 ^ 32 then pure (number + 1) else throw .overflow

/-- The page to place the message on: the newest, or an empty one after it when the newest is full and was saved. -/
def openPage (peer : Cid) (latestPage : UInt32) (page : ConversationPage) (at_ : F64) :
    KvM (UInt32 × ConversationPage) := do
  if MESSAGES_PER_PAGE ≤ page.messages.length then
    savePage own page
    let number ← nextPage latestPage
    return (number, emptyPage peer number at_)
  else return (latestPage, page)

/-- Append `message`, unless it is already on the newest page or the one before it. `none` is that duplicate; `some`
is the metadata after the append. -/
def append (peer : Cid) (message : ConversationMessage) (peerUsername : Option String) (now : F64) :
    KvM (Option ConversationMetadata) := do
  let existing ← loadMetadata own peer
  let metadata := stamped own (existing.getD (newMetadata own peer message peerUsername now))
  let page := (← loadPage own peer metadata.latestPage).getD (emptyPage peer metadata.latestPage message.timestamp)
  -- Before the rollover, which replaces the page with an empty one.
  if ← alreadyStored own peer metadata.latestPage page message.id then return none
  else
    let (latestPage, page) ← openPage own peer metadata.latestPage page message.timestamp
    let page := place page message
    let metadata := recordAppend { metadata with latestPage } message existing.isNone own now
    -- Page first, pointer last: the metadata is the only pointer to the page.
    savePage own page
    saveMetadata own metadata
    return some metadata

/-! ## Finding a message -/

/-- The page numbers `0..=latest`. -/
def pagesTo (latest : UInt32) : List UInt32 := (List.range (latest.toNat + 1)).map UInt32.ofNat

structure Found where
  metadata : ConversationMetadata
  page : ConversationPage
  index : Fin page.messages.length

namespace Found

def message (found : Found) : ConversationMessage := found.page.messages.get found.index

def replaced (found : Found) (message : ConversationMessage) : ConversationPage :=
  { found.page with messages := found.page.messages.set found.index message }

def removed (found : Found) : ConversationPage :=
  { found.page with messages := found.page.messages.eraseIdx found.index }

end Found

def findOn (metadata : ConversationMetadata) (peer : Cid) (id : String) : List UInt32 → KvM (Option Found)
  | [] => return none
  | number :: rest => do
    match ← loadPage own peer number with
    | some page =>
      match page.messages.findFinIdx? (hasId id) with
      | some index => return some ⟨metadata, page, index⟩
      | none => findOn metadata peer id rest
    | none => findOn metadata peer id rest

def find (peer : Cid) (id : String) : KvM (Option Found) := do
  match ← loadMetadata own peer with
  | some metadata => findOn own metadata peer id (pagesTo metadata.latestPage).reverse
  | none => return none

/-- Change one stored message with `change`, which gives `none` when it changes nothing. -/
def update (peer : Cid) (id : String) (change : ConversationMessage → Option ConversationMessage) :
    KvM (Option ConversationMessage) := do
  match ← find own peer id with
  | none => return none
  | some found =>
    match change found.message with
    | none => return none
    | some changed =>
      savePage own (found.replaced changed)
      return some changed

/-! ## Changing a message -/

def setStatus (peer : Cid) (id : String) (status : MessageStatus) (error : Option String) :
    KvM (Option ConversationMessage) :=
  update own peer id fun m =>
    if statusAdvances m.status status then some { m with status, error := if status = .failed then error else none }
    else none

/-- `set!`: whether the patch has the field and it differs from the held one, and the field after. -/
def setField {α : Type} (differs : α → α → Bool) (given held : Option α) : Bool × Option α :=
  let changed := match given, held with
    | some a, some b => differs a b
    | some _, none => true
    | none, _ => false
  (changed, if changed then given else held)

def applyPatch (p : MessagePatch) (m : ConversationMessage) : Option ConversationMessage :=
  let advances := p.status.any fun status => statusAdvances m.status status
  let transferState := setField (fun a b => a ≠ b) p.transferState m.transferState
  let transferProgress := setField (fun a b => !(a.eq b)) p.transferProgress m.transferProgress
  let virtualPath := setField (fun a b => a ≠ b) p.virtualPath m.virtualPath
  let fileThumbnail := setField (fun a b => a ≠ b) p.fileThumbnail m.fileThumbnail
  if advances || transferState.1 || transferProgress.1 || virtualPath.1 || fileThumbnail.1 then
    some { m with
      status := if advances then p.status.getD m.status else m.status
      error := if advances then p.error else m.error
      transferState := transferState.2
      transferProgress := transferProgress.2
      virtualPath := virtualPath.2
      fileThumbnail := fileThumbnail.2 }
  else none

def patch (peer : Cid) (id : String) (p : MessagePatch) : KvM (Option ConversationMessage) :=
  update own peer id (applyPatch p)

def react (peer : Cid) (id : String) (change : Reaction) : KvM (Option ConversationMessage) :=
  update own peer id fun m => (Reactions.fold m.reactions change).map fun list => { m with reactions := some list }

inductive Revision
  | edit (contents : String) (editedAt : F64)
  | delete

inductive Revised
  | applied (message : ConversationMessage)
  | notSender
  | unknown

def remove (peer : Cid) (id : String) (now : F64) : KvM Bool := do
  match ← find own peer id with
  | none => return false
  | some found =>
    savePage own found.removed
    saveMetadata own { found.metadata with
      totalMessageCount := (found.metadata.totalMessageCount.sub (F64.ofNat 1)).max (F64.ofNat 0)
      lastUpdated := now }
    return true

/-- An edit or a delete, by `reviser`, who must be the message's sender. -/
def revise (peer : Cid) (id : String) (reviser : Cid) (revision : Revision) (now : F64) : KvM Revised := do
  match ← find own peer id with
  | none => return .unknown
  | some found =>
    if found.message.senderCid ≠ reviser then return .notSender
    else
      match revision with
      | .delete => return if ← remove own peer id now then .applied found.message else .unknown
      | .edit contents editedAt =>
        let message := { found.message with content := contents, editedAt := some editedAt }
        savePage own (found.replaced message)
        return .applied message

/-! ## Reading marks -/

/-- The inner loop of `mark_read`, over a page's messages newest first: what is read so far, and the messages after. -/
def readNewest (peer : Cid) (wanted : Nat) : List ConversationMessage → List ConversationMessage →
    List ConversationMessage × List ConversationMessage
  | read, [] => (read, [])
  | read, m :: older =>
    if wanted ≤ read.length then (read, m :: older)
    else if m.senderCid = peer ∧ m.status = .delivered then
      let marked := { m with status := .read }
      let (read, older) := readNewest peer wanted (read ++ [marked]) older
      (read, marked :: older)
    else
      let (read, older) := readNewest peer wanted read older
      (read, m :: older)

def readPages (peer : Cid) (wanted : Nat) : List UInt32 → List ConversationMessage → KvM (List ConversationMessage)
  | [], read => return read
  | number :: older, read => do
    if wanted ≤ read.length then return read
    else
      match ← loadPage own peer number with
      | none => readPages peer wanted older read
      | some page =>
        let (now, messages) := readNewest peer wanted read page.messages.reverse
        if read.length < now.length then savePage own { page with messages := messages.reverse }
        readPages peer wanted older now

/-- Mark what the peer sent as read: each `delivered` message from it, newest first, up to the unread count. Returns
those messages and the metadata. -/
def markRead (peer : Cid) (now : F64) : KvM (List ConversationMessage × Option ConversationMetadata) := do
  match ← loadMetadata own peer with
  | none => return ([], none)
  | some metadata =>
    let wanted := (metadata.unreadCount.max (F64.ofNat 0)).toU64.toNat
    let read ← readPages own peer wanted (pagesTo metadata.latestPage).reverse []
    let metadata := { metadata with unreadCount := F64.ofNat 0, lastUpdated := now }
    saveMetadata own metadata
    return (read, some metadata)

def setPeerUsername (peer : Cid) (username : String) (now : F64) : KvM Unit := do
  match ← loadMetadata own peer with
  | some metadata =>
    if metadata.peerUsername ≠ some username then
      saveMetadata own { metadata with peerUsername := some username, lastUpdated := now }
  | none => return ()

/-! ## Whole conversations -/

def deleteAll : List String → KvM Unit
  | [] => return ()
  | key :: keys => do
    Kv.delete key
    deleteAll keys

def may (includeUnattributed : Bool) (metadata : ConversationMetadata) : Bool :=
  match metadata.ownerCid with
  | none => includeUnattributed
  | some owner => owner = own

/-- Delete the conversation, if this account may. Both key shapes go. -/
def delete (peer : Cid) (includeUnattributed : Bool) : KvM Bool := do
  match ← loadMetadata own peer with
  | none => return false
  | some metadata =>
    if !may own includeUnattributed metadata then return false
    else
      deleteAll ((pagesTo metadata.latestPage).map (pageKey (scopedKey own peer)))
      Kv.delete (metadataKey (scopedKey own peer))
      let legacyMeta ← metadataAt (metadataKey (legacyKey peer))
      let (legacyPages, allowed) := match legacyMeta with
        | some m => (m.latestPage, may own includeUnattributed m)
        | none => (metadata.latestPage, includeUnattributed)
      if allowed then
        deleteAll ((pagesTo legacyPages).map (pageKey (legacyKey peer)))
        Kv.delete (metadataKey (legacyKey peer))
      return true

def oldestOf (oldest : Option F64) (m : ConversationMessage) : Option F64 :=
  some (match oldest with
    | some o => o.min m.timestamp
    | none => m.timestamp)

/-- The loop of `prune_older_than`: how many messages went, and the oldest timestamp kept. -/
def prunePages (peer : Cid) (cutoff : F64) : List UInt32 → Nat → Option F64 → KvM (Nat × Option F64)
  | [], removed, oldest => return (removed, oldest)
  | number :: newer, removed, oldest => do
    match ← loadPage own peer number with
    | none => prunePages peer cutoff newer removed oldest
    | some page =>
      let kept := page.messages.filter fun m => cutoff.le m.timestamp
      let oldest := kept.foldl oldestOf oldest
      if kept.length = page.messages.length then prunePages peer cutoff newer removed oldest
      else
        savePage own { page with messages := kept, pageTimestamps := bounds kept (F64.ofNat 0) }
        prunePages peer cutoff newer (removed + (page.messages.length - kept.length)) oldest

/-- Remove messages older than `cutoff`; the number removed. -/
def pruneOlderThan (peer : Cid) (cutoff now : F64) : KvM Nat := do
  match ← loadMetadata own peer with
  | none => return 0
  | some metadata =>
    if metadata.totalMessageCount.eq (F64.ofNat 0) || ((F64.ofNat 0).lt metadata.oldestMessageTimestamp &&
        cutoff.le metadata.oldestMessageTimestamp) then return 0
    else
      let (removed, oldest) ← prunePages own peer cutoff (pagesTo metadata.latestPage) 0 none
      if removed = 0 then return 0
      else
        saveMetadata own { metadata with
          totalMessageCount := (metadata.totalMessageCount.sub (F64.ofNat removed)).max (F64.ofNat 0)
          oldestMessageTimestamp := oldest.getD (F64.ofNat 0)
          lastUpdated := now }
        return removed

/-! ## Listing -/

/-- One key of `list`: its record joins those found when it is this account's and the first of its peer. -/
def listed (key : String) (found : List ConversationMetadata) : Option Bytes → List ConversationMetadata
  | none => found
  | some bytes =>
    match decodeMetadata bytes with
    | .error _ => found
    | .ok metadata =>
      let scopedToOther := containsText key "_with_" && !startsWith key (scopedKey own metadata.peerCid)
      if readable own metadata && !scopedToOther && !found.any (fun m => m.peerCid = metadata.peerCid) then
        found ++ [metadata]
      else found

def listKeys : List String → List ConversationMetadata → KvM (List ConversationMetadata)
  | [], found => return found
  | key :: keys, found => do
    let bytes ← Kv.get key
    listKeys keys (listed own key found bytes)

/-- Scoped keys (with `_with_`) first, so they win the de-duplication. -/
def scopedFirst (a b : String) : Bool := containsText a "_with_" || !containsText b "_with_"

/-- Every conversation of this account: its own records and unstamped ones, the account-scoped record winning over a
legacy one for the same peer. -/
def list : KvM (List ConversationMetadata) := do
  let keys := (← Kv.keys).filter fun k => startsWith k PAGINATED_PREFIX && endsWith k "_metadata"
  listKeys own (keys.mergeSort scopedFirst) []

end Store

end CitadelAgent.Conversations
