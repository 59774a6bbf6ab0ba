import Mathlib

/-!
# A session that is reconnected

`citadel-internal-service/src/kernel/reconnect`, for one entry of the map of sessions: a drop report marks the entry and a
run is spawned for it; a run attempts the SDK connect under the entry's attempt lock until it installs a link or gives
up; a sign-in marks the entry as its own, waits for the lock, and installs a link or hands the session back to a new run.

* `Session` : the entry, the lock, the tasks with where each stands, and what became of the links that were opened;
* `Session.step` : one critical section of a task, one answer of the SDK, or something from outside.
-/

namespace CitadelAgent.Reconnect
open Function

inductive LinkState
  | up
  /-- The server dropped it and the agent is connecting it again. -/
  | reconnecting
  /-- The user is ending it; a drop now is expected. -/
  | ending
  | signingIn
  deriving DecidableEq

inductive DropAction
  | reconnect
  | alreadyReconnecting
  | remove

def onUnrequestedDrop : LinkState → DropAction
  | .up => .reconnect
  | .reconnecting => .alreadyReconnecting
  | .signingIn => .alreadyReconnecting
  | .ending => .remove

def namesThisInstance : Option Nat → Option Nat → Bool
  | some current, some reported => current == reported
  | _, _ => true

/-- What a drop report means for the entry: `none` when it reports another instance's end. -/
def onReportedDrop (link : LinkState) (current : Nat) (reported : Option Nat) : Option DropAction :=
  if namesThisInstance (some current) reported = true then some (onUnrequestedDrop link) else none

def mayTakeOver (link : LinkState) : Bool := link == .reconnecting

def attemptWanted (link : LinkState) (currentRun run : Nat) : Bool := link == .reconnecting && currentRun == run

def attemptInstalls (link : LinkState) (currentRun run : Nat) : Bool :=
  (link == .reconnecting || link == .signingIn) && currentRun == run

structure Entry where
  link : LinkState
  generation : Nat
  instance_ : Nat
  /-- `Reauth::NeedsUser`: the session cannot be opened again without its user. -/
  needsUser : Bool
  deriving DecidableEq

/-- The entry waits for a link. -/
def Entry.Waits (e : Entry) : Prop := e.link = .reconnecting ∨ e.link = .signingIn

inductive Kind
  | run (generation : Nat)
  | takeOver
  deriving DecidableEq

/-- The link is installed; a sign-in leaves its credentials as well, and it had a password. -/
def Entry.putLink (kind : Kind) (link : Nat) (e : Entry) : Entry :=
  { e with link := .up, instance_ := link, needsUser := if kind = .takeOver then false else e.needsUser }

/-- Where a task stands. From `checking` on it has the attempt lock. -/
inductive Pc
  | sleeping
  | asked
  | waiting
  | checking
  | connecting
  /-- `put_link` has been called with the link. -/
  | opened (link : Nat)
  /-- The link has been split, and is about to be put to the entry. -/
  | ready (link : Nat)
  /-- The link is being closed; if the server had answered as another account, the attempt has failed. -/
  | closing (link : Nat) (failed : Bool)
  | failing
  /-- The link is installed, or the session handed back. -/
  | finishing
  deriving DecidableEq

def Pc.Holds : Pc → Prop
  | .sleeping => False
  | .asked => False
  | .waiting => False
  | _ => True

structure Task where
  kind : Kind
  pc : Pc
  deriving DecidableEq

/-- A link that was put into the entry: by which task, over which link, and who had marked the entry last. -/
structure Installed where
  instance_ : Nat
  task : Nat
  kind : Kind
  linkBefore : LinkState
  generation : Nat
  markedBy : Option Nat

structure Session where
  entry : Option Entry
  attempt : Option Nat
  tasks : Nat → Option Task
  /-- How many tasks there have been. A run about to be spawned is there already. -/
  started : Nat
  /-- Drops that marked the entry and have not got as far as `spawn`. -/
  begun : Nat
  connectingUsername : Option Nat
  markedBy : Option Nat
  /-- How many links have been opened; a link is known by its place among them, the entry's first being 0. -/
  links : Nat
  closed : List Nat
  installed : List Installed

inductive SdkResult
  | connected
  | connectedAs
  /-- `after_failure` says whether a run tries again. -/
  | failed (retry : Bool)

inductive Act
  | report (reported : Option Nat)
  | spawn
  /-- The entry is taken out of the map: a Disconnect, a Deregister, or a drop while the user is ending it. -/
  | remove
  | ending
  | unending
  | signIn
  /-- It ends without taking the session over: a wrong password, or a session that is live. -/
  | decline (task : Nat)
  | mark (task : Nat)
  | wake (task : Nat)
  | lock (task : Nat)
  | check (task : Nat)
  | answer (task : Nat) (result : SdkResult)
  | split (task : Nat) (ok : Bool)
  | admit_ (task : Nat)
  | closed (task : Nat)
  | conclude (task : Nat)
  | finish (task : Nat)

namespace Session

def new (needsUser : Bool) : Session :=
  ⟨some ⟨.up, 0, 0, needsUser⟩, none, fun _ => none, 0, 0, none, none, 1, [], []⟩

def goTo (i : Nat) (t : Task) (pc : Pc) (s : Session) : Session :=
  { s with tasks := update s.tasks i (some { t with pc := pc }) }

def leave (i : Nat) (s : Session) : Session :=
  { s with
    tasks := update s.tasks i none
    attempt := if s.attempt = some i then none else s.attempt
    connectingUsername := if s.connectingUsername = some i then none else s.connectingUsername }

def start (t : Task) (s : Session) : Session :=
  { s with tasks := update s.tasks s.started (some t), started := s.started + 1 }

def begin (reported : Option Nat) (s : Session) : Session :=
  match s.entry with
  | none => s
  | some e =>
      match onReportedDrop e.link e.instance_ reported with
      | some .reconnect =>
          { s with
            entry := some { e with link := .reconnecting, generation := e.generation + 1 }
            begun := s.begun + 1 }
      | _ => s

def check (i : Nat) (t : Task) (s : Session) : Session :=
  match s.entry with
  | none => s.leave i
  | some e =>
      match t.kind with
      | .run generation =>
          if attemptWanted e.link e.generation generation = true then
            s.goTo i t (if e.needsUser = true then .failing else .connecting)
          else s.leave i
      | .takeOver => if e.link = .signingIn then s.goTo i t .connecting else s.leave i

def answer (i : Nat) (t : Task) (s : Session) : SdkResult → Session
  | .connected => { s with links := s.links + 1 }.goTo i t (.opened s.links)
  | .connectedAs => { s with links := s.links + 1 }.goTo i t (.closing s.links true)
  | .failed retry =>
      match t.kind, retry with
      | .run _, true => { s with attempt := none }.goTo i t .sleeping
      | _, _ => s.goTo i t .failing

def admits (kind : Kind) (e : Entry) : Bool :=
  match kind with
  | .run generation => attemptInstalls e.link e.generation generation
  | .takeOver => e.link == .signingIn

def admit_ (i : Nat) (t : Task) (link : Nat) (s : Session) : Session :=
  match s.entry with
  | none => s.goTo i t (.closing link false)
  | some e =>
      if admits t.kind e = true then
        { s with
          entry := some (e.putLink t.kind link)
          installed := ⟨link, i, t.kind, e.link, e.generation, s.markedBy⟩ :: s.installed }.goTo i t .finishing
      else s.goTo i t (.closing link false)

def conclude (i : Nat) (t : Task) (s : Session) : Session :=
  match s.entry with
  | none => s.leave i
  | some e =>
      match t.kind with
      | .run generation =>
          if e.link = .reconnecting ∧ e.generation = generation then { s with entry := none }.leave i else s.leave i
      | .takeOver =>
          if e.link = .signingIn then
            ({ s with entry := some { e with link := .reconnecting, generation := e.generation + 1 } }.goTo i t
              .finishing).start ⟨.run (e.generation + 1), .sleeping⟩
          else s.leave i

def step (s : Session) : Act → Session
  | .report reported => s.begin reported
  | .spawn =>
      if s.begun = 0 then s
      else
        let s := { s with begun := s.begun - 1 }
        match s.entry with
        | none => s
        | some e => s.start ⟨.run e.generation, .sleeping⟩
  | .remove => { s with entry := none }
  | .ending => { s with entry := s.entry.map fun e => if e.link = .up then { e with link := .ending } else e }
  | .unending => { s with entry := s.entry.map fun e => if e.link = .ending then { e with link := .up } else e }
  | .signIn =>
      if s.connectingUsername = none then { s with connectingUsername := some s.started }.start ⟨.takeOver, .asked⟩
      else s
  | .decline i =>
      match s.tasks i with
      | some ⟨.takeOver, .asked⟩ => s.leave i
      | _ => s
  | .mark i =>
      match s.tasks i, s.entry with
      | some ⟨.takeOver, .asked⟩, some e =>
          if mayTakeOver e.link = true then
            { s with entry := some { e with link := .signingIn }, markedBy := some i }.goTo i ⟨.takeOver, .asked⟩ .waiting
          else s.leave i
      | some ⟨.takeOver, .asked⟩, none => s.leave i
      | _, _ => s
  | .wake i =>
      match s.tasks i, s.entry with
      | some ⟨.run generation, .sleeping⟩, some _ => s.goTo i ⟨.run generation, .sleeping⟩ .waiting
      | some ⟨.run _, .sleeping⟩, none => s.leave i
      | _, _ => s
  | .lock i =>
      match s.tasks i, s.attempt with
      | some ⟨kind, .waiting⟩, none => { s with attempt := some i }.goTo i ⟨kind, .waiting⟩ .checking
      | _, _ => s
  | .check i =>
      match s.tasks i with
      | some ⟨kind, .checking⟩ => s.check i ⟨kind, .checking⟩
      | _ => s
  | .answer i result =>
      match s.tasks i with
      | some ⟨kind, .connecting⟩ => s.answer i ⟨kind, .connecting⟩ result
      | _ => s
  | .split i ok =>
      match s.tasks i with
      | some ⟨kind, .opened link⟩ => if ok = true then s.goTo i ⟨kind, .opened link⟩ (.ready link) else s.leave i
      | _ => s
  | .admit_ i =>
      match s.tasks i with
      | some ⟨kind, .ready link⟩ => s.admit_ i ⟨kind, .ready link⟩ link
      | _ => s
  | .closed i =>
      match s.tasks i with
      | some ⟨kind, .closing link failed⟩ =>
          let s := { s with closed := link :: s.closed }
          if failed = true then s.goTo i ⟨kind, .closing link failed⟩ .failing else s.leave i
      | _ => s
  | .conclude i =>
      match s.tasks i with
      | some ⟨kind, .failing⟩ => s.conclude i ⟨kind, .failing⟩
      | _ => s
  | .finish i =>
      match s.tasks i with
      | some ⟨_, .finishing⟩ => s.leave i
      | _ => s

end Session

end CitadelAgent.Reconnect
