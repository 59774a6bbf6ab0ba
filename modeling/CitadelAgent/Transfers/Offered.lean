import CitadelAgent.Lib.Machine
import CitadelAgent.Lib.Updates

/-!
# Offered transfers

`citadel-internal-service/src/kernel/responses/object_transfer_handle.rs` (a receiver's handle that is no pull and no push of a
virtual file system), `requests/file/respond_file_transfer.rs` and, of `kernel/mod.rs`, `add_object_transfer_handler` and
`take_file_transfer_handle`.

* `Service`, `Service.step` : sessions, windows, and the tasks that tell windows of an offer;
* `Service.Meets` : an offer comes when its sender's entry is there, an entry goes when its offers are over, and what could not be
  told is still there to be declined;
* `Service.Sound` : the store holds the offers that are neither over nor answered, and no others (`Service.sound_step`).
-/

namespace CitadelAgent.Transfers.Offered
open Function Machine

abbrev Cid := UInt64
abbrev Uuid := Nat
abbrev ObjectId := Nat

structure ObjectTransferHandle where
  sessionCid : Cid
  source : Cid
  receiver : Cid
  objectId : ObjectId
  deriving DecidableEq

def ObjectTransferHandle.peerCid (handle : ObjectTransferHandle) : Cid :=
  if handle.receiver ≠ handle.sessionCid then handle.receiver else handle.source

structure PeerConnection where
  handlerMap : ObjectId → Option (Option ObjectTransferHandle)

structure Connection where
  sessionCid : Cid
  peers : Cid → Option PeerConnection
  c2sFileTransferHandlers : ObjectId → Option (Option ObjectTransferHandle)
  subscribers : List Uuid

namespace Connection

def new (cid : Cid) : Connection := ⟨cid, fun _ => none, fun _ => none, []⟩

def addObjectTransferHandler (c : Connection) (peerCid : Cid) (objectId : ObjectId) (handler : Option ObjectTransferHandle) :
    Connection :=
  if c.sessionCid = peerCid then
    { c with c2sFileTransferHandlers := update c.c2sFileTransferHandlers objectId (some handler) }
  else
    match c.peers peerCid with
    | some peer => { c with peers := update c.peers peerCid (some ⟨update peer.handlerMap objectId (some handler)⟩) }
    | none => c

def takeFileTransferHandle (c : Connection) (peerCid : Cid) (objectId : ObjectId) :
    Option (Option ObjectTransferHandle) × Connection :=
  if c.sessionCid = peerCid then
    (c.c2sFileTransferHandlers objectId,
      { c with c2sFileTransferHandlers := update c.c2sFileTransferHandlers objectId none })
  else
    match c.peers peerCid with
    | some peer =>
      (peer.handlerMap objectId, { c with peers := update c.peers peerCid (some ⟨update peer.handlerMap objectId none⟩) })
    | none => (none, c)

def upsertPeerConnection (c : Connection) (peerCid : Cid) : Connection :=
  match c.peers peerCid with
  | some _ => c
  | none => { c with peers := update c.peers peerCid (some ⟨fun _ => none⟩) }

/-- The session's link is lost: its peers and its own offers are let go. -/
def begin_ (c : Connection) : Connection := { c with peers := fun _ => none, c2sFileTransferHandlers := fun _ => none }

def held (c : Connection) (peerCid : Cid) (objectId : ObjectId) : Option (Option ObjectTransferHandle) :=
  if c.sessionCid = peerCid then c.c2sFileTransferHandlers objectId
  else (c.peers peerCid).bind fun peer => peer.handlerMap objectId

def Keeps (c : Connection) (peerCid : Cid) : Prop := c.sessionCid = peerCid ∨ (c.peers peerCid).isSome = true

instance (c : Connection) (peerCid : Cid) : Decidable (c.Keeps peerCid) := inferInstanceAs (Decidable (_ ∨ _))

variable {c : Connection} {peerCid : Cid} {objectId : ObjectId}

theorem held_add (h : c.Keeps peerCid) (handler : Option ObjectTransferHandle) (p : Cid) (o : ObjectId) :
    (c.addObjectTransferHandler peerCid objectId handler).held p o =
      if p = peerCid ∧ o = objectId then some handler else c.held p o := by
  unfold addObjectTransferHandler
  split_ifs with hown hhere hhere
  · obtain ⟨rfl, rfl⟩ := hhere
    simp only [held, if_pos hown, update_self]
  · unfold held
    dsimp only
    split_ifs with hp
    · have ho : o ≠ objectId := fun ho => hhere ⟨hp.symm.trans hown, ho⟩
      rw [update_of_ne ho]
    · rfl
  · obtain ⟨peer, hpeer⟩ := Option.isSome_iff_exists.mp (h.resolve_left hown)
    obtain ⟨rfl, rfl⟩ := hhere
    simp only [hpeer, held, if_neg hown, update_self, Option.bind_some]
  · obtain ⟨peer, hpeer⟩ := Option.isSome_iff_exists.mp (h.resolve_left hown)
    simp only [hpeer, held]
    split_ifs with hp
    · rfl
    · by_cases hsame : p = peerCid
      · have ho : o ≠ objectId := fun ho => hhere ⟨hsame, ho⟩
        rw [hsame, update_self, hpeer, Option.bind_some, Option.bind_some]
        exact update_of_ne ho ..
      · rw [update_of_ne hsame]

theorem take_fst : (c.takeFileTransferHandle peerCid objectId).1 = c.held peerCid objectId := by
  unfold takeFileTransferHandle held
  split_ifs
  · rfl
  · cases c.peers peerCid with
    | none => rfl
    | some peer => rfl

theorem held_take (p : Cid) (o : ObjectId) :
    (c.takeFileTransferHandle peerCid objectId).2.held p o =
      if p = peerCid ∧ o = objectId then none else c.held p o := by
  unfold takeFileTransferHandle
  split_ifs with hown hhere hhere
  · obtain ⟨rfl, rfl⟩ := hhere
    simp only [held, if_pos hown, update_self]
  · unfold held
    dsimp only
    split_ifs with hp
    · have ho : o ≠ objectId := fun ho => hhere ⟨hp.symm.trans hown, ho⟩
      rw [update_of_ne ho]
    · rfl
  · obtain ⟨rfl, rfl⟩ := hhere
    cases hpeer : c.peers p with
    | none => simp only [held, if_neg hown, hpeer, Option.bind_none]
    | some peer => simp only [held, if_neg hown, update_self, Option.bind_some]
  · cases hpeer : c.peers peerCid with
    | none => rfl
    | some peer =>
      simp only [held]
      split_ifs with hp
      · rfl
      · by_cases hsame : p = peerCid
        · have ho : o ≠ objectId := fun ho => hhere ⟨hsame, ho⟩
          rw [hsame, update_self, hpeer, Option.bind_some, Option.bind_some]
          exact update_of_ne ho ..
        · rw [update_of_ne hsame]

theorem held_upsert (p : Cid) (o : ObjectId) : (c.upsertPeerConnection peerCid).held p o = c.held p o := by
  unfold upsertPeerConnection
  cases hpeer : c.peers peerCid with
  | some peer => rfl
  | none =>
    unfold held
    dsimp only
    split_ifs
    · rfl
    · by_cases hsame : p = peerCid
      · rw [hsame, update_self, hpeer]
        rfl
      · rw [update_of_ne hsame]

end Connection

/-! ## The service -/

structure FileTransferRequestNotification where
  cid : Cid
  peerCid : Cid
  objectId : ObjectId
  deriving DecidableEq

structure FileTransferStatusNotification where
  cid : Cid
  objectId : ObjectId
  success : Bool
  response : Bool
  message : Option String
  requestId : Nat
  deriving DecidableEq

structure Key where
  cid : Cid
  peerCid : Cid
  objectId : ObjectId
  deriving DecidableEq

def ObjectTransferHandle.key (handle : ObjectTransferHandle) : Key := ⟨handle.sessionCid, handle.peerCid, handle.objectId⟩

def FileTransferRequestNotification.key (notice : FileTransferRequestNotification) : Key :=
  ⟨notice.cid, notice.peerCid, notice.objectId⟩

theorem ObjectTransferHandle.key_inj {handle other : ObjectTransferHandle} (hmine : handle.receiver = handle.sessionCid)
    (hmine' : other.receiver = other.sessionCid) (hkey : handle.key = other.key) : handle = other := by
  obtain ⟨session, source, receiver, object⟩ := handle
  obtain ⟨session', source', receiver', object'⟩ := other
  dsimp only at hmine hmine'
  simp only [key, peerCid, hmine, hmine', ne_eq, not_true_eq_false, if_false, Key.mk.injEq] at hkey
  rw [hmine, hmine', hkey.1, hkey.2.1, hkey.2.2]

def ObjectTransferHandle.notification (handle : ObjectTransferHandle) : FileTransferRequestNotification :=
  ⟨handle.sessionCid, handle.peerCid, handle.objectId⟩

inductive Stage
  | delivering
  /-- The notification reached no window. -/
  | reclaiming
  deriving DecidableEq

/-- The handling of an offer, once it is stored: `attached` was read under the lock of the insertion. -/
structure Task where
  offer : ObjectTransferHandle
  notice : FileTransferRequestNotification
  attached : List Uuid
  stage : Stage

structure Told where
  offer : ObjectTransferHandle
  notice : FileTransferRequestNotification
  reached : List Uuid
  deriving DecidableEq

/-- An answer given to the SDK: `error` is what it refused it with, and `request` the request it came with, if any. -/
structure Answer where
  offer : ObjectTransferHandle
  accept : Bool
  error : Option String
  request : Option Nat

structure Service where
  connections : Cid → Option Connection
  clients : List Uuid
  tasks : Nat → Option Task
  begun : Nat
  requests : Nat
  offers : List ObjectTransferHandle
  ended : List ObjectTransferHandle
  told : List Told
  answers : List Answer
  statuses : List FileTransferStatusNotification

inductive Act
  | sessionOpens (cid : Cid)
  | sessionEnds (cid : Cid)
  | linkDrops (cid : Cid)
  | attach (cid : Cid) (members : List Uuid)
  | clients (live : List Uuid)
  | install (cid peerCid : Cid)
  | removePeer (cid peerCid : Cid)
  | connectionEnds (cid source : Cid)
  | inbound (handle : ObjectTransferHandle)
  | deliver (task : Nat)
  | reclaim (task : Nat) (error : Option String)
  | respond (cid peerCid : Cid) (objectId : ObjectId) (accept : Bool) (error : Option String)

variable {cid : Cid} {c : Connection} {key : Key} {handler : ObjectTransferHandle}

namespace Service

def new : Service := ⟨fun _ => none, [], fun _ => none, 0, 0, [], [], [], [], []⟩

def set (s : Service) (cid : Cid) (c : Connection) : Service := { s with connections := update s.connections cid (some c) }

def endOffers (s : Service) (which : ObjectTransferHandle → Bool) : Service := { s with ended := s.ended ++ s.offers.filter which }

def held (s : Service) (key : Key) : Option (Option ObjectTransferHandle) :=
  (s.connections key.cid).bind fun c => c.held key.peerCid key.objectId

def status (s : Service) (cid : Cid) (objectId : ObjectId) (success response : Bool) (message : Option String) : Service :=
  { s with statuses := ⟨cid, objectId, success, response, message, s.requests⟩ :: s.statuses, requests := s.requests + 1 }

def answer (s : Service) (offer : ObjectTransferHandle) (accept : Bool) (error : Option String) (request : Option Nat) : Service :=
  { s with answers := ⟨offer, accept, error, request⟩ :: s.answers }

def settle (s : Service) (i : Nat) (task : Option Task) : Service := { s with tasks := update s.tasks i task }

def respond (s : Service) (cid peerCid : Cid) (objectId : ObjectId) (accept : Bool) (error : Option String) : Service :=
  match s.connections cid with
  | none => s.status cid objectId false accept (some "Connection not found")
  | some c =>
    match c.takeFileTransferHandle peerCid objectId with
    | (some (some handler), c') =>
      ((s.set cid c').answer handler accept error (some s.requests)).status cid objectId error.isNone accept error
    | (some none, c') => (s.set cid c').status cid objectId false accept (some "File transfer handlernot found")
    | (none, c') => (s.set cid c').status cid objectId false accept (some "File transfer not found")

def step (s : Service) : Act → Service
  | .sessionOpens cid => (s.set cid (.new cid)).endOffers fun offer => offer.sessionCid = cid
  | .sessionEnds cid =>
    ({ s with connections := update s.connections cid none } : Service).endOffers fun offer => offer.sessionCid = cid
  | .linkDrops cid =>
    match s.connections cid with
    | some c => (s.set cid c.begin_).endOffers fun offer => offer.sessionCid = cid
    | none => s
  | .attach cid members =>
    match s.connections cid with
    | some c => s.set cid { c with subscribers := members }
    | none => s
  | .clients live => { s with clients := live }
  | .install cid peerCid =>
    match s.connections cid with
    | some c => s.set cid (c.upsertPeerConnection peerCid)
    | none => s
  | .removePeer cid peerCid =>
    match s.connections cid with
    | some c => s.set cid { c with peers := update c.peers peerCid none }
    | none => s
  | .connectionEnds cid source => s.endOffers fun offer => offer.sessionCid = cid ∧ offer.source = source
  | .inbound handle =>
    -- The handle is the receiver's, and its object's number is new.
    if handle.receiver = handle.sessionCid ∧ handle ∉ s.offers then
      match s.connections handle.sessionCid with
      | some c =>
        { s.set handle.sessionCid (c.addObjectTransferHandler handle.peerCid handle.objectId (some handle)) with
          offers := handle :: s.offers
          tasks := update s.tasks s.begun (some ⟨handle, handle.notification, c.subscribers, .delivering⟩)
          begun := s.begun + 1 }
      | none => s
    else s
  | .deliver i =>
    match s.tasks i with
    | some ⟨offer, notice, attached, .delivering⟩ =>
      let reached := attached.filter (· ∈ s.clients)
      { s.settle i (if reached.isEmpty then some ⟨offer, notice, attached, .reclaiming⟩ else none) with
        told := ⟨offer, notice, reached⟩ :: s.told }
    | _ => s
  | .reclaim i error =>
    match s.tasks i with
    | some ⟨offer, notice, _, .reclaiming⟩ =>
      match s.connections notice.cid with
      | some c =>
        match c.takeFileTransferHandle notice.peerCid notice.objectId with
        | (some (some handler), c') => ((s.set notice.cid c').answer handler false error none).settle i none
        | (_, c') => (s.set notice.cid c').settle i none
      | none => s.settle i none
    | _ => s
  | .respond cid peerCid objectId accept error => s.respond cid peerCid objectId accept error

def Answered (s : Service) (offer : ObjectTransferHandle) : Prop := ∃ a ∈ s.answers, a.offer = offer

def Declined (s : Service) (offer : ObjectTransferHandle) : Prop :=
  ∃ a ∈ s.answers, a.offer = offer ∧ a.accept = false ∧ a.error = none

instance (s : Service) (offer : ObjectTransferHandle) : Decidable (s.Answered offer) :=
  inferInstanceAs (Decidable (∃ a ∈ s.answers, a.offer = offer))

instance (s : Service) (offer : ObjectTransferHandle) : Decidable (s.Declined offer) :=
  inferInstanceAs (Decidable (∃ a ∈ s.answers, a.offer = offer ∧ a.accept = false ∧ a.error = none))

/-- An offer comes when the session has a place for its sender's, a peer's entry is removed when the offers in it are over or
answered, and what could not be told is declined by then, or is there to be and the SDK takes it. -/
def Meets (s : Service) : Act → Prop
  | .inbound handle => ∀ c ∈ s.connections handle.sessionCid, c.Keeps handle.peerCid
  | .removePeer cid peerCid => ∀ offer ∈ s.offers, offer.sessionCid = cid → offer.peerCid = peerCid →
      offer ∈ s.ended ∨ s.Answered offer
  | .reclaim i error => ∀ task ∈ s.tasks i, task.stage = .reclaiming →
      s.Declined task.offer ∨ s.held task.notice.key = some (some task.offer) ∧ error = none
  | _ => True

instance (s : Service) : ∀ act, Decidable (s.Meets act)
  | .inbound handle => inferInstanceAs (Decidable (∀ c ∈ s.connections handle.sessionCid, c.Keeps handle.peerCid))
  | .removePeer cid peerCid => inferInstanceAs (Decidable (∀ offer ∈ s.offers, offer.sessionCid = cid →
      offer.peerCid = peerCid → offer ∈ s.ended ∨ s.Answered offer))
  | .reclaim i error => inferInstanceAs (Decidable (∀ task ∈ s.tasks i, task.stage = .reclaiming →
      s.Declined task.offer ∨ s.held task.notice.key = some (some task.offer) ∧ error = none))
  | .sessionOpens _ => isTrue trivial
  | .sessionEnds _ => isTrue trivial
  | .linkDrops _ => isTrue trivial
  | .attach _ _ => isTrue trivial
  | .clients _ => isTrue trivial
  | .install _ _ => isTrue trivial
  | .connectionEnds _ _ => isTrue trivial
  | .deliver _ => isTrue trivial
  | .respond _ _ _ _ _ => isTrue trivial

/-! ## What is pending -/

/-- The store and the offers agree, and no offer is answered twice. -/
structure Sound (s : Service) : Prop where
  kept : ∀ key x, s.held key = some x → ∃ offer ∈ s.offers, x = some offer ∧ offer.key = key ∧ ¬ s.Answered offer
  whole : ∀ offer ∈ s.offers, offer ∉ s.ended → ¬ s.Answered offer → s.held offer.key = some (some offer)
  mine : ∀ offer ∈ s.offers, offer.receiver = offer.sessionCid
  once : (s.answers.map Answer.offer).Nodup
  given : ∀ a ∈ s.answers, a.offer ∈ s.offers

/-- From `s` to `t` nothing is offered or answered, and what is no longer held is over or answered. -/
structure Loses (s t : Service) : Prop where
  offers : t.offers = s.offers
  answers : t.answers = s.answers
  ended : ∀ offer ∈ s.ended, offer ∈ t.ended
  held : ∀ key, t.held key = s.held key ∨
    t.held key = none ∧ ∀ offer ∈ s.offers, offer.key = key → offer ∈ t.ended ∨ s.Answered offer

variable {s t : Service}

@[simp] theorem held_set (cid : Cid) (c : Connection) (key : Key) :
    (s.set cid c).held key = if key.cid = cid then c.held key.peerCid key.objectId else s.held key := by
  unfold held set
  dsimp only
  by_cases hcid : key.cid = cid
  · rw [if_pos hcid, hcid, update_self, Option.bind_some]
  · rw [if_neg hcid, update_of_ne hcid]

theorem held_of_connection (hc : s.connections cid = some c) (peerCid : Cid) (objectId : ObjectId) :
    s.held ⟨cid, peerCid, objectId⟩ = c.held peerCid objectId := by
  simp only [held, hc, Option.bind_some]

theorem held_add (hc : s.connections cid = some c) {peerCid : Cid} (hkeeps : c.Keeps peerCid) (objectId : ObjectId)
    (handler : Option ObjectTransferHandle) :
    (s.set cid (c.addObjectTransferHandler peerCid objectId handler)).held =
      update s.held ⟨cid, peerCid, objectId⟩ (some handler) := by
  ext1 key
  obtain ⟨kcid, kpeer, kobject⟩ := key
  rw [held_set, Connection.held_add hkeeps]
  by_cases hcid : kcid = cid
  · subst hcid
    rw [if_pos rfl]
    by_cases hkey : kpeer = peerCid ∧ kobject = objectId
    · rw [if_pos hkey, hkey.1, hkey.2, update_self]
    · rw [if_neg hkey, update_of_ne (by simpa using hkey), held_of_connection hc]
  · rw [if_neg hcid, update_of_ne (by simp [hcid])]

theorem held_take (hc : s.connections cid = some c) (peerCid : Cid) (objectId : ObjectId) :
    (s.set cid (c.takeFileTransferHandle peerCid objectId).2).held = update s.held ⟨cid, peerCid, objectId⟩ none := by
  ext1 key
  obtain ⟨kcid, kpeer, kobject⟩ := key
  rw [held_set, Connection.held_take]
  by_cases hcid : kcid = cid
  · subst hcid
    rw [if_pos rfl]
    by_cases hkey : kpeer = peerCid ∧ kobject = objectId
    · rw [if_pos hkey, hkey.1, hkey.2, update_self]
    · rw [if_neg hkey, update_of_ne (by simpa using hkey), held_of_connection hc]
  · rw [if_neg hcid, update_of_ne (by simp [hcid])]

theorem take_fst (hc : s.connections cid = some c) (peerCid : Cid) (objectId : ObjectId) :
    (c.takeFileTransferHandle peerCid objectId).1 = s.held ⟨cid, peerCid, objectId⟩ := by
  rw [Connection.take_fst, held_of_connection hc]

theorem Sound.loses (h : s.Sound) (hl : Loses s t) : t.Sound where
  kept key x hx := by
    have hanswered : t.Answered = s.Answered := by
      ext1 offer
      rw [Answered, hl.answers, Answered]
    rcases hl.held key with hsame | ⟨hnone, -⟩
    · rw [hl.offers, hanswered]
      exact h.kept key x (hsame ▸ hx)
    · rw [hnone] at hx
      exact nomatch hx
  whole offer ho hended hunanswered := by
    rw [hl.offers] at ho
    rw [Answered, hl.answers] at hunanswered
    have hlasts : offer ∉ s.ended := fun hin => hended (hl.ended offer hin)
    rcases hl.held offer.key with hsame | ⟨-, hover⟩
    · rw [hsame]
      exact h.whole offer ho hlasts hunanswered
    · exact ((hover offer ho rfl).elim hended hunanswered).elim
  mine := hl.offers ▸ h.mine
  once := hl.answers ▸ h.once
  given := by
    rw [hl.answers, hl.offers]
    exact h.given

theorem Sound.take (h : s.Sound) (hc : s.connections key.cid = some c) (hheld : s.held key = some (some handler)) (accept : Bool)
    (error : Option String) (request : Option Nat) :
    ((s.set key.cid (c.takeFileTransferHandle key.peerCid key.objectId).2).answer handler accept error request).Sound := by
  obtain ⟨offer, hoffer, heq, hkey, hunanswered⟩ := h.kept key _ hheld
  obtain rfl : handler = offer := Option.some.inj heq
  have hafter := held_take hc key.peerCid key.objectId
  set t := (s.set key.cid (c.takeFileTransferHandle key.peerCid key.objectId).2).answer handler accept error request with ht
  replace hafter : t.held = update s.held key none := hafter
  have hanswered : ∀ other, t.Answered other ↔ handler = other ∨ s.Answered other := by
    intro other
    simp only [Answered, ht, answer, List.mem_cons, exists_eq_or_imp]
    rfl
  constructor
  · intro other x hx
    rw [hafter] at hx
    have hne : other ≠ key := by
      rintro rfl
      rw [update_self] at hx
      exact nomatch hx
    rw [update_of_ne hne] at hx
    obtain ⟨offer, ho, hxo, hko, hun⟩ := h.kept other x hx
    refine ⟨offer, ho, hxo, hko, ?_⟩
    rw [hanswered]
    rintro (rfl | hold)
    · exact hne (hko.symm.trans hkey)
    · exact hun hold
  · intro other ho hended hun
    rw [hanswered, not_or] at hun
    have hne : other.key ≠ key := fun hsame =>
      hun.1 (ObjectTransferHandle.key_inj (h.mine _ hoffer) (h.mine _ ho) (hkey.trans hsame.symm))
    rw [hafter, update_of_ne hne]
    exact h.whole other ho hended hun.2
  · exact h.mine
  · refine List.nodup_cons.mpr ⟨fun hin => ?_, h.once⟩
    obtain ⟨a, ha, hao⟩ := List.mem_map.mp hin
    exact hunanswered ⟨a, ha, hao⟩
  · intro a ha
    rcases List.mem_cons.mp ha with rfl | hold
    · exact hoffer
    · exact h.given a hold

theorem Sound.take_none (h : s.Sound) (hc : s.connections key.cid = some c)
    (hheld : s.held key = none) : (s.set key.cid (c.takeFileTransferHandle key.peerCid key.objectId).2).Sound := by
  refine h.loses ⟨rfl, rfl, fun _ ho => ho, fun other => .inl ?_⟩
  rw [held_take hc]
  by_cases hsame : other = key
  · rw [hsame, update_self, hheld]
  · exact update_of_ne hsame ..

theorem Loses.session (hoffers : t.offers = s.offers) (hanswers : t.answers = s.answers)
    (hended : t.ended = s.ended) (hothers : ∀ key, key.cid ≠ cid → t.held key = s.held key)
    (hnone : ∀ key, key.cid = cid → t.held key = none) : Loses s (t.endOffers fun offer => offer.sessionCid = cid) where
  offers := hoffers
  answers := hanswers
  ended offer ho := by
    show offer ∈ t.ended ++ _
    rw [hended]
    exact List.mem_append_left _ ho
  held key := by
    by_cases hcid : key.cid = cid
    · refine .inr ⟨hnone key hcid, fun offer ho hkey => .inl ?_⟩
      refine List.mem_append_right _ (List.mem_filter.mpr ⟨hoffers ▸ ho, ?_⟩)
      have hsession : offer.sessionCid = key.cid := congrArg Key.cid hkey
      rw [decide_eq_true_iff, hsession, hcid]
    · exact .inl (hothers key hcid)

theorem Loses.same (hoffers : t.offers = s.offers) (hanswers : t.answers = s.answers) (hended : ∀ offer ∈ s.ended, offer ∈ t.ended)
    (hheld : ∀ key, t.held key = s.held key) : Loses s t :=
  ⟨hoffers, hanswers, hended, fun key => .inl (hheld key)⟩

theorem Loses.set {c' : Connection} (hc : s.connections cid = some c) (h : ∀ p o, c'.held p o = c.held p o) :
    Loses s (s.set cid c') := by
  refine .same rfl rfl (fun _ ho => ho) fun key => ?_
  obtain ⟨kcid, kpeer, kobject⟩ := key
  rw [held_set]
  split_ifs with hcid
  · obtain rfl : kcid = cid := hcid
    rw [h, held_of_connection hc]
  · rfl

theorem loses_removePeer {peerCid : Cid} (hmeets : s.Meets (.removePeer cid peerCid)) :
    Loses s (s.step (.removePeer cid peerCid)) := by
  simp only [step]
  split
  · rename_i c hc
    refine ⟨rfl, rfl, fun _ ho => ho, fun key => ?_⟩
    obtain ⟨kcid, kpeer, kobject⟩ := key
    rw [held_set]
    by_cases hcid : kcid = cid
    · subst hcid
      rw [if_pos rfl, held_of_connection hc]
      unfold Connection.held
      dsimp only
      split_ifs with hown
      · exact .inl rfl
      · by_cases hpeer : kpeer = peerCid
        · refine .inr ⟨by rw [hpeer, update_self, Option.bind_none], fun offer ho hkey => ?_⟩
          exact hmeets offer ho (congrArg Key.cid hkey) ((congrArg Key.peerCid hkey).trans hpeer)
        · rw [update_of_ne hpeer]
          exact .inl rfl
    · rw [if_neg hcid]
      exact .inl rfl
  · exact .same rfl rfl (fun _ ho => ho) fun _ => rfl

theorem sound_inbound (h : s.Sound) {handle : ObjectTransferHandle} (hmeets : s.Meets (.inbound handle)) :
    (s.step (.inbound handle)).Sound := by
  simp only [step]
  split_ifs with hnew
  · cases hc : s.connections handle.sessionCid with
    | none => exact h
    | some c =>
      obtain ⟨hmine, hfresh⟩ := hnew
      have hafter : (s.set handle.sessionCid (c.addObjectTransferHandler handle.peerCid handle.objectId (some handle))).held =
          update s.held handle.key (some (some handle)) := held_add hc (hmeets c hc) handle.objectId (some handle)
      have hunanswered : ¬ s.Answered handle := fun ⟨a, ha, hao⟩ => hfresh (hao ▸ h.given a ha)
      have hkeys : ∀ offer ∈ s.offers, offer.key ≠ handle.key := fun offer ho hsame =>
        hfresh (ObjectTransferHandle.key_inj (h.mine offer ho) hmine hsame ▸ ho)
      dsimp only
      set u := s.set handle.sessionCid (c.addObjectTransferHandler handle.peerCid handle.objectId (some handle))
      constructor
      · intro key x hx
        replace hx : u.held key = some x := hx
        rw [hafter] at hx
        rcases of_update hx with ⟨hkey, hx⟩ | ⟨-, hx⟩
        · exact ⟨handle, List.mem_cons_self, (Option.some.inj hx).symm, hkey.symm, hunanswered⟩
        · obtain ⟨offer, ho, hxo⟩ := h.kept key x hx
          exact ⟨offer, List.mem_cons_of_mem _ ho, hxo⟩
      · intro offer ho hended hun
        show u.held offer.key = _
        rw [hafter]
        rcases List.mem_cons.mp ho with rfl | hold
        · exact update_self ..
        · rw [update_of_ne (hkeys offer hold)]
          exact h.whole offer hold hended hun
      · intro offer ho
        rcases List.mem_cons.mp ho with rfl | hold
        · exact hmine
        · exact h.mine offer hold
      · exact h.once
      · exact fun a ha => List.mem_cons_of_mem _ (h.given a ha)
  · exact h

/-- Nothing is found under the key, and nothing changes in the store. -/
def Misses (s : Service) (key : Key) (t : Service) : Prop :=
  s.held key = none ∧ (t = s ∨
    ∃ c, s.connections key.cid = some c ∧ t = s.set key.cid (c.takeFileTransferHandle key.peerCid key.objectId).2)

/-- What is found under the key. -/
def Finds (s : Service) (key : Key) (handler : ObjectTransferHandle) (t : Service) : Prop :=
  s.held key = some (some handler) ∧
    ∃ c, s.connections key.cid = some c ∧ t = s.set key.cid (c.takeFileTransferHandle key.peerCid key.objectId).2

theorem Sound.misses (h : s.Sound) (hm : s.Misses key t) : t.Sound := by
  obtain ⟨hnone, rfl | ⟨c, hc, rfl⟩⟩ := hm
  · exact h
  · exact h.take_none hc hnone

theorem Misses.quiet (hm : s.Misses key t) :
    t = { s with connections := t.connections } := by
  obtain ⟨-, rfl | ⟨c, -, rfl⟩⟩ := hm
  · rfl
  · rfl

theorem Finds.quiet (hf : s.Finds key handler t) :
    t = { s with connections := t.connections } := by
  obtain ⟨-, c, -, rfl⟩ := hf
  rfl

theorem respond_cases (h : s.Sound) (cid peerCid : Cid) (objectId : ObjectId) (accept : Bool) (error : Option String) :
    (∃ handler t, s.Finds ⟨cid, peerCid, objectId⟩ handler t ∧ s.step (.respond cid peerCid objectId accept error) =
      (t.answer handler accept error (some s.requests)).status cid objectId error.isNone accept error) ∨
    ∃ message t, s.Misses ⟨cid, peerCid, objectId⟩ t ∧
      s.step (.respond cid peerCid objectId accept error) = t.status cid objectId false accept (some message) := by
  simp only [step, respond]
  cases hc : s.connections cid with
  | none => exact .inr ⟨_, s, ⟨by simp only [held, hc, Option.bind_none], .inl rfl⟩, rfl⟩
  | some c =>
    have hfst := take_fst hc peerCid objectId
    dsimp only
    split
    · rename_i handler c' htake
      rw [htake] at hfst
      exact .inl ⟨handler, s.set cid c', ⟨hfst.symm, c, hc, by rw [htake]⟩, rfl⟩
    · rename_i c' htake
      rw [htake] at hfst
      obtain ⟨offer, -, hsome, -⟩ := h.kept _ _ hfst.symm
      exact nomatch hsome
    · rename_i c' htake
      rw [htake] at hfst
      exact .inr ⟨_, s.set cid c', ⟨hfst.symm, .inr ⟨c, hc, by rw [htake]⟩⟩, rfl⟩

theorem reclaim_cases (h : s.Sound) {i : Nat} {offer : ObjectTransferHandle} {notice : FileTransferRequestNotification}
    {attached : List Uuid} (hi : s.tasks i = some ⟨offer, notice, attached, .reclaiming⟩) (error : Option String) :
    (∃ handler t, s.Finds notice.key handler t ∧
      s.step (.reclaim i error) = (t.answer handler false error none).settle i none) ∨
    ∃ t, s.Misses notice.key t ∧ s.step (.reclaim i error) = t.settle i none := by
  simp only [step, hi]
  cases hc : s.connections notice.cid with
  | none =>
    refine .inr ⟨s, ⟨?_, .inl rfl⟩, rfl⟩
    simp only [held, FileTransferRequestNotification.key, hc, Option.bind_none]
  | some c =>
    have hfst := take_fst hc notice.peerCid notice.objectId
    dsimp only
    split
    · rename_i handler c' htake
      rw [htake] at hfst
      exact .inl ⟨handler, s.set notice.cid c', ⟨hfst.symm, c, hc, by simp only [FileTransferRequestNotification.key, htake]⟩, rfl⟩
    · rename_i found c' hnot htake
      rw [htake] at hfst
      have hnone : s.held notice.key = none := by
        cases hheld : s.held notice.key with
        | none => rfl
        | some x =>
          obtain ⟨offer', -, rfl, -⟩ := h.kept _ _ hheld
          exact (hnot offer' (hfst.trans hheld)).elim
      exact .inr ⟨s.set notice.cid c', ⟨hnone, .inr ⟨c, hc, by simp only [FileTransferRequestNotification.key, htake]⟩⟩, rfl⟩

theorem Sound.finds (h : s.Sound) (hf : s.Finds key handler t) (accept : Bool)
    (error : Option String) (request : Option Nat) : (t.answer handler accept error request).Sound := by
  obtain ⟨hheld, c, hc, rfl⟩ := hf
  exact h.take hc hheld accept error request

theorem sound_step (h : s.Sound) (act : Act) (hmeets : s.Meets act) : (s.step act).Sound := by
  cases act with
  | sessionOpens cid =>
    refine h.loses (.session rfl rfl rfl (fun key hkey => ?_) fun key hkey => ?_)
    · rw [held_set, if_neg hkey]
    · rw [held_set, if_pos hkey]
      exact ite_self _
  | sessionEnds cid =>
    refine h.loses (.session rfl rfl rfl (fun key hkey => ?_) fun key hkey => ?_)
    · unfold held
      dsimp only
      rw [update_of_ne hkey]
    · unfold held
      dsimp only
      rw [hkey, update_self, Option.bind_none]
  | linkDrops cid =>
    simp only [step]
    split
    · rename_i c hc
      refine h.loses (.session rfl rfl rfl (fun key hkey => ?_) fun key hkey => ?_)
      · rw [held_set, if_neg hkey]
      · rw [held_set, if_pos hkey]
        exact ite_self _
    · exact h
  | attach cid members =>
    simp only [step]
    split
    · rename_i c hc
      exact h.loses (.set hc fun _ _ => rfl)
    · exact h
  | clients live => exact h.loses (.same rfl rfl (fun _ ho => ho) fun _ => rfl)
  | install cid peerCid =>
    simp only [step]
    split
    · rename_i c hc
      exact h.loses (.set hc fun p o => Connection.held_upsert p o)
    · exact h
  | removePeer cid peerCid => exact h.loses (loses_removePeer hmeets)
  | connectionEnds cid source =>
    exact h.loses (.same rfl rfl (fun _ ho => List.mem_append_left _ ho) fun _ => rfl)
  | inbound handle => exact sound_inbound h hmeets
  | deliver i =>
    simp only [step]
    split
    · exact h.loses (.same rfl rfl (fun _ ho => ho) fun _ => rfl)
    · exact h
  | reclaim i error =>
    simp only [step]
    split
    · rename_i offer notice attached hi
      have hsame : ∀ u : Service, u.Sound → (u.settle i none).Sound := fun u hu =>
        hu.loses (.same rfl rfl (fun _ ho => ho) fun _ => rfl)
      rcases reclaim_cases h hi error with ⟨handler, t, hf, hstep⟩ | ⟨t, hm, hstep⟩
      · simp only [step, hi] at hstep
        rw [hstep]
        exact hsame _ (h.finds hf false error none)
      · simp only [step, hi] at hstep
        rw [hstep]
        exact hsame _ (h.misses hm)
    · exact h
  | respond cid peerCid objectId accept error =>
    rcases respond_cases h cid peerCid objectId accept error with ⟨handler, t, hf, hstep⟩ | ⟨message, t, hm, hstep⟩
    · rw [hstep]
      exact (h.finds hf accept error _).loses (.same rfl rfl (fun _ ho => ho) fun _ => rfl)
    · rw [hstep]
      exact (h.misses hm).loses (.same rfl rfl (fun _ ho => ho) fun _ => rfl)

end Service

end CitadelAgent.Transfers.Offered
