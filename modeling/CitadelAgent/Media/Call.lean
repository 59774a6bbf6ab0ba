import CitadelAgent.Lib.Machine

/-!
# Calls with one peer

`citadel-internal-service/src/kernel/media/{udp_state,mod,pump}.rs`, `requests/media/{mod,open,commit}.rs`, and
`upsert_peer_connection` and `offer_restored_udp` of `kernel/mod.rs`, for one peer of one session: where its UDP channels are, and the
handlers that wait for one.

* `UdpState`, `PeerMediaSession`, `PeerConnection` : the peer's entry;
* `State`, `Act`, `step` : the entry, the handlers in progress, and the SDK.

A channel has a number, and its offer the same one; so has a session. What only says where something came from (`entry`, `number`,
`offeredTo`, `cancelled`, `superseded`) is read by no handler.
-/

namespace CitadelAgent.Media
open Function Machine

/-- A localhost connection's. -/
abbrev Uuid := Nat

/-! ## The peer's entry -/

inductive UdpState
  | pending (offers : List Nat)
  /-- A first open awaits one of them. -/
  | opening
  | idle (tx rx : Nat)
  /-- The receive half is in a session's pump. -/
  | lent (tx : Nat)
  | unavailable
  deriving DecidableEq

namespace UdpState

def fromOptionalChannel : Option Nat → UdpState
  | some rx => pending [rx]
  | none => unavailable

def offer (rx : Nat) : UdpState → UdpState
  | pending offers => pending (offers ++ [rx])
  | _ => pending [rx]

end UdpState

inductive Pump
  | running
  /-- Its client is gone; the receive half waits to be taken back. -/
  | stopped
  | ended
  deriving DecidableEq

structure PeerMediaSession where
  number : Nat
  owner : Uuid
  sink : Nat
  rx : Nat
  pump : Pump

namespace PeerMediaSession

def pumpAlive (session : PeerMediaSession) : Bool := session.pump = .running

/-- What `close` recovers. -/
def recovered (session : PeerMediaSession) : Option Nat := if session.pump = .ended then none else some session.rx

end PeerMediaSession

structure PeerConnection where
  entry : Nat
  udp : UdpState
  media : Option PeerMediaSession
  mediaGeneration : Nat
  mediaPendingOwner : Option Uuid

def sendAuthorised (sessionOwner : Option Uuid) (requester : Uuid) : Bool := sessionOwner = some requester

def openMayCommit (generationAtOpen generationNow : Nat) (alreadyInstalled : Bool) : Bool :=
  generationAtOpen = generationNow && !alreadyInstalled

def closeAuthorised (sessionOwner pendingOwner : Option Uuid) (requester : Uuid) : Bool :=
  match sessionOwner, pendingOwner with
  | some owner, _ => owner = requester
  | none, some pending => pending = requester
  | none, none => true

/-! ## The handlers, under the lock -/

/-- What follows `PeerMediaSession::close`. -/
inductive After
  | park
  | rebuild (uuid : Uuid) (generation : Nat)

inductive Task
  /-- A `MediaOpen`, one of the offers. -/
  | awaiting (uuid : Uuid) (rxs : List Nat) (generation : Nat)
  /-- A `MediaClose` or a `MediaOpen` over a stale session, the session's pump. -/
  | closing (session : PeerMediaSession) (next : After)
  /-- A `MediaSend`, the packetizer of the session that it found. -/
  | sending (uuid : Uuid) (number : Nat)

/-- `accepted` : whether the packetizer takes the configuration. -/
def startSession (peer : PeerConnection) (tx rx : Nat) (owner : Uuid) (accepted : Bool) (number : Nat) : PeerConnection :=
  if accepted then { peer with udp := .lent tx, media := some ⟨number, owner, tx, rx, .running⟩ }
  else { peer with udp := .idle tx rx }

/-- The first inspection of `MediaOpen`: the entry after it, and what the handler awaits. -/
def openPath (peer : PeerConnection) (uuid : Uuid) (accepted : Bool) (number : Nat) : PeerConnection × Option Task :=
  match peer.media with
  | some session =>
    if session.pumpAlive && session.owner = uuid then (peer, none)
    else
      ({ peer with mediaGeneration := peer.mediaGeneration + 1, media := none },
        some (.closing session (.rebuild uuid (peer.mediaGeneration + 1))))
  | none =>
    match peer.udp with
    | .pending rxs =>
      ({ peer with udp := .opening, mediaPendingOwner := some uuid }, some (.awaiting uuid rxs peer.mediaGeneration))
    | .idle tx rx => (startSession peer tx rx uuid accepted number, none)
    | .opening | .lent _ | .unavailable => (peer, none)

inductive ChannelOutcome
  | channel (c : Nat)
  | withdrawn
  | elapsed

def finishFirstOpen (peer : PeerConnection) (uuid : Uuid) (rxs : List Nat) (outcome : ChannelOutcome) (generation : Nat)
    (accepted : Bool) (number : Nat) : PeerConnection :=
  let peer := if peer.mediaPendingOwner = some uuid then { peer with mediaPendingOwner := none } else peer
  if peer.mediaGeneration ≠ generation ∨ peer.udp ≠ .opening then
    if peer.udp = .opening then
      -- a close raced this open
      match outcome with
      | .channel c => { peer with udp := .idle c c }
      | .withdrawn => { peer with udp := .unavailable }
      | .elapsed => { peer with udp := .pending rxs }
    else peer
  else
    match outcome with
    | .channel c => startSession peer c c uuid accepted number
    | .withdrawn => { peer with udp := .unavailable }
    | .elapsed => { peer with udp := .pending rxs }

def parkRecovered (peer : PeerConnection) (recovered : Option Nat) : PeerConnection :=
  match peer.udp with
  | .lent tx =>
    match recovered with
    | some rx => { peer with udp := .idle tx rx }
    | none => { peer with udp := .unavailable }
  | _ => peer

def rebuildAfterStale (peer : PeerConnection) (uuid : Uuid) (recovered : Option Nat) (generation : Nat) (accepted : Bool)
    (number : Nat) : PeerConnection :=
  if openMayCommit generation peer.mediaGeneration peer.media.isSome then
    match recovered, peer.udp with
    | some rx, .lent tx => startSession peer tx rx uuid accepted number
    | none, .lent _ => { peer with udp := .unavailable }
    -- a fresh handshake replaced the transport
    | _, _ => peer
  else parkRecovered peer recovered

/-- The entry after `MediaClose`, and the session it took, if it is the requester's to close. -/
def handleClose (peer : PeerConnection) (uuid : Uuid) : Option (PeerConnection × Option PeerMediaSession) :=
  if closeAuthorised (peer.media.map (·.owner)) peer.mediaPendingOwner uuid then
    some ({ peer with mediaGeneration := peer.mediaGeneration + 1, mediaPendingOwner := none, media := none }, peer.media)
  else none

/-- `upsert_peer_connection` on an entry that is there. -/
def upsert (peer : PeerConnection) (udpRx : Option Nat) : PeerConnection :=
  if peer.media = none ∧ peer.udp ≠ .opening then
    match udpRx with
    | some rx => { peer with udp := peer.udp.offer rx }
    | none => peer
  else peer

/-! ## The system -/

inductive Status
  | offered
  | delivered
  | withdrawn
  | ended
  deriving DecidableEq

structure Call where
  entry : Nat
  /-- Its window's `MediaClose` was handled since. -/
  cancelled : Bool
  task : Task

/-- A frame put on the wire: whose it is, and who owned the session then. -/
structure Frame where
  sender : Uuid
  owner : Option Uuid

structure State where
  peer : Option PeerConnection
  entries : Nat
  channels : Nat
  sessions : Nat
  spawned : Nat
  status : Nat → Status
  offeredTo : Nat → Nat
  calls : Nat → Option Call
  wire : List Frame
  /-- Channels in whose place the SDK restored one. -/
  superseded : List Nat

inductive Act
  | mediaOpen (uuid : Uuid) (accepted : Bool)
  /-- The wait of a first open ends, by the first of its offers that is settled, or by the time. -/
  | finishOpen (i : Nat) (first : Option Nat) (accepted : Bool)
  | settle (i : Nat) (accepted : Bool)
  | mediaClose (uuid : Uuid)
  | mediaSend (uuid : Uuid)
  | sendFrame (i : Nat)
  /-- A connection to the peer, with an offer or none; an offer may have been delivered by the time it is handled. -/
  | upsert (offer : Option Status)
  | restore
  | remove
  | deliver (c : Nat)
  | withdraw (c : Nat)
  | streamEnds (c : Nat)
  | clientGone
  | pumpEnds
  | closingPumpEnds (i : Nat)
  deriving DecidableEq

def Task.opener : Task → Option Uuid
  | .awaiting uuid _ _ | .closing _ (.rebuild uuid _) => some uuid
  | _ => none

def Task.generation : Task → Option Nat
  | .awaiting _ _ generation | .closing _ (.rebuild _ generation) => some generation
  | _ => none

def Call.cancelledBy (uuid : Uuid) (call : Call) : Call :=
  if call.task.opener = some uuid then { call with cancelled := true } else call

def Call.closingHalf (call : Call) : Option Nat :=
  match call.task with
  | .closing session _ => some session.rx
  | _ => none

def PeerMediaSession.pumpEnds (session : PeerMediaSession) (status : Nat → Status) : PeerMediaSession :=
  if session.pump = .running ∧ status session.rx = .ended then { session with pump := .ended } else session

namespace State

def new : State := ⟨none, 0, 0, 0, 0, fun _ => .offered, fun _ => 0, fun _ => none, [], []⟩

def spawn (s : State) (entry : Nat) : Option Task → State
  | none => s
  | some task => { s with calls := update s.calls s.spawned (some ⟨entry, false, task⟩), spawned := s.spawned + 1 }

def finish (s : State) (i : Nat) : State := { s with calls := update s.calls i none }

def withPeer (s : State) (f : PeerConnection → PeerConnection) : State :=
  { s with peer := s.peer.map f, sessions := s.sessions + 1 }

def arrive (s : State) (status : Status) (entry : Nat) : State :=
  { s with
    channels := s.channels + 1
    status := update s.status s.channels status
    offeredTo := update s.offeredTo s.channels entry }

def settled (s : State) (c : Nat) (status : Status) : State := { s with status := update s.status c status }

def resolves (s : State) (rxs : List Nat) : Option Nat → Bool
  | some c => c ∈ rxs && s.status c ≠ .offered
  | none => true

def outcome (s : State) : Option Nat → ChannelOutcome
  | some c => if s.status c = .withdrawn then .withdrawn else .channel c
  | none => .elapsed

/-- The receive halves that a restored channel takes the place of. -/
def replaced (s : State) (peer : PeerConnection) : List Nat :=
  match peer.udp with
  | .idle _ rx => [rx]
  | .lent _ => (List.range s.spawned).filterMap fun i => (s.calls i).bind (·.closingHalf)
  | _ => []

/-- `offer_restored_udp` -/
def offerRestored (s : State) (peer : PeerConnection) : State :=
  let c := s.channels
  let t := s.arrive .delivered peer.entry
  match peer.media with
  | some call =>
    { t with
      peer := some { peer with udp := .lent c, media := some { call with sink := c, rx := c, pump := .running } }
      superseded := call.rx :: s.superseded }
  | none =>
    if peer.udp = .opening then t
    else { t with peer := some { peer with udp := peer.udp.offer c }, superseded := s.replaced peer ++ s.superseded }

def step (s : State) : Act → State
  | .mediaOpen uuid accepted =>
    match s.peer with
    | some peer =>
      let (after, task) := openPath peer uuid accepted s.sessions
      (s.withPeer fun _ => after).spawn peer.entry task
    | none => s
  | .finishOpen i first accepted =>
    match s.calls i with
    | some ⟨_, _, .awaiting uuid rxs generation⟩ =>
      if s.resolves rxs first then
        (s.finish i).withPeer fun peer => finishFirstOpen peer uuid rxs (s.outcome first) generation accepted s.sessions
      else s
    | _ => s
  | .settle i accepted =>
    match s.calls i with
    | some ⟨_, _, .closing session .park⟩ => (s.finish i).withPeer fun peer => parkRecovered peer session.recovered
    | some ⟨_, _, .closing session (.rebuild uuid generation)⟩ =>
      (s.finish i).withPeer fun peer => rebuildAfterStale peer uuid session.recovered generation accepted s.sessions
    | _ => s
  | .mediaClose uuid =>
    let s := { s with calls := fun i => (s.calls i).map (Call.cancelledBy uuid) }
    match s.peer with
    | some peer =>
      match handleClose peer uuid with
      | some (after, session) => ({ s with peer := some after } : State).spawn peer.entry (session.map (.closing · .park))
      | none => s
    | none => s
  | .mediaSend uuid =>
    match s.peer with
    | some peer =>
      match peer.media with
      | some session =>
        if sendAuthorised (some session.owner) uuid then s.spawn peer.entry (some (.sending uuid session.number)) else s
      | none => s
    | none => s
  | .sendFrame i =>
    match s.calls i with
    | some ⟨_, _, .sending uuid _⟩ =>
      { s.finish i with wire := ⟨uuid, (s.peer.bind (·.media)).map (·.owner)⟩ :: s.wire }
    | _ => s
  | .upsert offer =>
    match s.peer with
    | some peer =>
      let t := match offer with
        | some status => s.arrive status peer.entry
        | none => s
      { t with peer := some (Media.upsert peer (offer.map fun _ => s.channels)) }
    | none =>
      let t := match offer with
        | some status => s.arrive status s.entries
        | none => s
      { t with
        peer := some ⟨s.entries, .fromOptionalChannel (offer.map fun _ => s.channels), none, 0, none⟩
        entries := s.entries + 1 }
  | .restore =>
    match s.peer with
    | some peer => s.offerRestored peer
    | none => s
  | .remove => { s with peer := none }
  | .deliver c => if c < s.channels ∧ s.status c = .offered then s.settled c .delivered else s
  | .withdraw c => if c < s.channels ∧ s.status c = .offered then s.settled c .withdrawn else s
  | .streamEnds c => if s.status c = .delivered then s.settled c .ended else s
  | .clientGone =>
    { s with peer := s.peer.map fun peer =>
        { peer with media := peer.media.map fun session =>
            if session.pump = .running then { session with pump := .stopped } else session } }
  | .pumpEnds => { s with peer := s.peer.map fun peer => { peer with media := peer.media.map (·.pumpEnds s.status) } }
  | .closingPumpEnds i =>
    match s.calls i with
    | some ⟨entry, cancelled, .closing session next⟩ =>
      { s with calls := update s.calls i (some ⟨entry, cancelled, .closing (session.pumpEnds s.status) next⟩) }
    | _ => s

end State

end CitadelAgent.Media
