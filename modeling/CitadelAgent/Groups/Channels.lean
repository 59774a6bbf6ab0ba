import CitadelAgent.Lib.Machine

/-!
# A session's group channels

`citadel-internal-service/src/kernel/{group_channels,session_wait}.rs`, what `responses/group_event.rs` and
`responses/group_channel_created.rs` do to the session's `GroupChannels`, `spawn_group_channel_receiver` of `requests/mod.rs`, and
`GroupMessage`, `GroupLeave` and `GroupEnd` of `requests/group/`, for one session.

* `Event` : the node events that concern a group, and what each says about membership;
* `State`, `Act`, `step` : the events, the tasks that wait for the session to be mapped, the channels' receivers, and the requests.

A flag has a number. What only says what was said (`told`) or answered (`answers`) is read by no handler.
-/

namespace CitadelAgent.Groups
open Function Machine

abbrev Flag := Nat

variable {κ : Type} [DecidableEq κ]

/-- The entries' flags; a flag that is set is a departed entry's. -/
structure GroupChannels (κ : Type) where
  inner : κ → Option Flag

namespace GroupChannels

def new : GroupChannels κ := ⟨fun _ => none⟩

def get (groups : GroupChannels κ) (departed : Flag → Bool) (key : κ) : Option Flag :=
  (groups.inner key).filter (!departed ·)

def insert (groups : GroupChannels κ) (departed : Flag → Bool) (key : κ) (flag : Flag) : GroupChannels κ :=
  ⟨update (groups.get departed) key (some flag)⟩

def getMut (groups : GroupChannels κ) (departed : Flag → Bool) (key : κ) : Option Flag × GroupChannels κ :=
  match groups.inner key with
  | some flag => if departed flag then (none, ⟨update groups.inner key none⟩) else (some flag, groups)
  | none => (none, groups)

def markDeparted (groups : GroupChannels κ) (departed : Flag → Bool) (key : κ) : Bool × (Flag → Bool) :=
  match groups.inner key with
  | some flag => if departed flag then (false, departed) else (true, update departed flag true)
  | none => (false, departed)

end GroupChannels

inductive Event (κ : Type)
  | created (key : κ)
  | disconnected (key : κ)
  | endResponse (key : κ) (success : Bool)
  | leaveRoomResponse (key : κ) (success : Bool)
  /-- One that looks the group's channel up with `get_mut` and says nothing about membership. -/
  | touched (key : κ)

namespace Event

def key : Event κ → κ
  | created key | disconnected key | endResponse key _ | leaveRoomResponse key _ | touched key => key

/-- In, out, or nothing. -/
def membership : Event κ → Option Bool
  | created _ => some true
  | disconnected _ | endResponse _ true | leaveRoomResponse _ true => some false
  | _ => none

end Event

inductive Broadcast
  | disconnected
  | endResponse (success : Bool)
  | other

def Broadcast.out : Broadcast → Bool
  | disconnected => true
  | endResponse success => success
  | other => false

/-- A `GroupMessage` with the clone of the channel that it found. -/
structure Message (κ : Type) where
  key : κ
  flag : Flag
  accepted : Bool

/-- A `GroupLeave` or a `GroupEnd` with its clone, with the SDK. -/
structure Departure (κ : Type) where
  key : κ
  flag : Flag

structure State (κ : Type) where
  groups : Option (GroupChannels κ)
  departed : Flag → Bool
  receivers : Flag → Option κ
  made : Nat
  waiting : List (Event κ)
  messages : Nat → Option (Message κ)
  departures : Nat → Option (Departure κ)
  spawned : Nat
  /-- What was said last: by an arrival, or by the SDK's acceptance of the session's own leave or end. -/
  told : κ → Option Bool
  /-- Each success that a `GroupMessage` was answered with: whether `get` finds its group then. -/
  answers : List Bool

inductive Act (κ : Type)
  | arrive (event : Event κ)
  | map
  | poll (i : Nat)
  | elapse (i : Nat)
  | broadcast (flag : Flag) (payload : Broadcast)
  | leave (key : κ)
  | left (i : Nat) (ok : Bool)
  | message (key : κ)
  | send (i : Nat)
  | sent (i : Nat) (ok : Bool)

namespace State

def new : State κ := ⟨none, fun _ => false, fun _ => none, 0, [], fun _ => none, fun _ => none, 0, fun _ => none, []⟩

def entry (s : State κ) (key : κ) : Option Flag := s.groups.bind (·.inner key)

/-- `GroupChannels::get`, in the session's connection. -/
def get (s : State κ) (key : κ) : Option Flag := s.groups.bind (·.get s.departed key)

def finds (s : State κ) (key : κ) : Bool := (s.get key).isSome

/-- `group_channel_created::handle`, `group_event::handle` -/
def handle (s : State κ) (event : Event κ) : State κ :=
  match s.groups with
  -- the channel is parked, an event dropped
  | none => s
  | some groups =>
    match event with
    | .created key =>
      { s with
        groups := some (groups.insert s.departed key s.made)
        receivers := update s.receivers s.made (some key)
        made := s.made + 1 }
    | .disconnected key | .endResponse key true => { s with departed := (groups.markDeparted s.departed key).2 }
    | .touched key => { s with groups := some (groups.getMut s.departed key).2 }
    | .endResponse _ false | .leaveRoomResponse _ _ => s

def tell (s : State κ) (key : κ) : Option Bool → State κ
  | some said => { s with told := update s.told key (some said) }
  | none => s

/-- `once_session_mapped` -/
def onceSessionMapped (s : State κ) (event : Event κ) : State κ :=
  match s.groups with
  | some _ => s.handle event
  | none => { s with waiting := s.waiting ++ [event] }

def depart (s : State κ) (flag : Flag) : State κ := { s with departed := update s.departed flag true }

def step (s : State κ) : Act κ → State κ
  | .arrive event => (s.tell event.key event.membership).onceSessionMapped event
  | .map =>
    match s.groups with
    | none => { s with groups := some .new }
    | some _ => s
  | .poll i =>
    match s.groups, s.waiting[i]? with
    | some _, some event => ({ s with waiting := s.waiting.eraseIdx i } : State κ).handle event
    | _, _ => s
  | .elapse i =>
    match s.groups with
    | none => { s with waiting := s.waiting.eraseIdx i }
    | some _ => s
  | .broadcast flag payload =>
    match s.receivers flag with
    | some key => if payload.out then (s.tell key (some false)).depart flag else s
    | none => s
  | .leave key =>
    match s.get key with
    | some flag => { s with departures := update s.departures s.spawned (some ⟨key, flag⟩), spawned := s.spawned + 1 }
    | none => s
  | .left i ok =>
    match s.departures i with
    | some departure =>
      let s := { s with departures := update s.departures i none }
      if ok then (s.tell departure.key (some false)).depart departure.flag else s
    | none => s
  | .message key =>
    match s.get key with
    | some flag => { s with messages := update s.messages s.spawned (some ⟨key, flag, false⟩), spawned := s.spawned + 1 }
    | none => s
  | .send i =>
    match s.messages i with
    | some ⟨key, flag, false⟩ =>
      { s with messages := update s.messages i (if s.departed flag then none else some ⟨key, flag, true⟩) }
    | _ => s
  | .sent i ok =>
    match s.messages i with
    | some ⟨key, _, true⟩ =>
      { s with messages := update s.messages i none, answers := if ok then s.finds key :: s.answers else s.answers }
    | _ => s

end State

end CitadelAgent.Groups
