import CitadelAgent.Lib.Machine

/-!
# The page's message loop

`InternalServiceWasmClient`: the loop of `processMessages` with its recoveries, and the calls of `init`, `restart_ws_connection`,
`stopMessageProcessing` and `close` beside it. Each gives way where it awaits; a promise's settling and what its awaiter does then
are two steps. What the caller's own handlers are called with is kept; they are taken to return.

* `Client.startMessageProcessing`, `Client.turn`, `Client.attemptRecovery` : a loop starts, goes on, recovers.
-/

namespace CitadelAgent.PageClient.MessageLoop
open Function

def maxConsecutiveErrors : Nat := 5

def maxRecoveryAttempts : Nat := 3

/-- How `next_message` settles. -/
inductive Next
  | message
  /-- An error that includes "Stream closed". -/
  | streamClosed
  /-- One that includes "already being called". -/
  | alreadyCalled
  | otherError
  deriving DecidableEq

inductive Reason
  | streamClosed
  | maxConsecutiveErrors
  deriving DecidableEq

inductive Point
  | nextMessage
  | pause
  /-- `attemptRecovery`, which found another recovery in progress: its second. -/
  | otherRecovery (reason : Reason)
  /-- `attemptRecovery`: the delay before it restarts. -/
  | delay (reason : Reason)
  /-- `restart_ws_connection`, for the WASM client's `restart`; `ok` once that has settled. -/
  | restart (reason : Reason) (ok : Option Bool)
  /-- `attemptRecovery`, for `restart_ws_connection`, which has settled. -/
  | restarted (reason : Reason) (ok : Bool)
  /-- The loop, for `attemptRecovery`, which has returned. -/
  | recovered (reason : Reason) (result : Bool)
  deriving DecidableEq

/-- What a call awaits of the WASM client; `ok` once that has settled. -/
inductive Call
  | load (ok : Option Bool)
  | connect (ok : Option Bool)
  | restart (ok : Option Bool)
  | close (ok : Option Bool)

inductive Act
  | init
  | restart
  | stop
  | close
  | settle (i : Nat) (ok : Bool)
  | resume (i : Nat)
  | receive (l : Nat) (next : Next)
  | timer (l : Nat)
  | settleRestart (l : Nat) (ok : Bool)
  | proceed (l : Nat)

structure Client where
  /-- `this.wasmModule` is set. -/
  wasmModule : Bool
  /-- The WASM client's `is_initialized`. -/
  wasmInitialized : Bool
  initializationComplete : Bool
  shouldStopProcessing : Bool
  messageProcessingStarted : Bool
  consecutiveStreamErrors : Nat
  recoveryAttempts : Nat
  isRecovering : Bool
  calls : Nat → Option Call
  begun : Nat
  loops : Nat → Option Point
  started : Nat
  stopped : Nat → Bool
  failed : Nat → Nat
  /-- The calls of `messageLoopDiedHandler`: for which loop, and whether it recovered. -/
  died : List (Nat × Bool)
  returned : Nat
  handled : List Nat

namespace Client

def new : Client where
  wasmModule := false
  wasmInitialized := false
  initializationComplete := false
  shouldStopProcessing := false
  messageProcessingStarted := false
  consecutiveStreamErrors := 0
  recoveryAttempts := 0
  isRecovering := false
  calls := fun _ => none
  begun := 0
  loops := fun _ => none
  started := 0
  stopped := fun _ => false
  failed := fun _ => 0
  died := []
  returned := 0
  handled := []

/-! ## The loop -/

def goTo (s : Client) (l : Nat) (point : Point) : Client := { s with loops := update s.loops l (some point) }

/-- What `processMessages` does when its loop is left. -/
def finish (s : Client) (l : Nat) : Client :=
  { s with
    loops := update s.loops l none
    initializationComplete := false
    messageProcessingStarted := false }

def turn (s : Client) (l : Nat) : Client :=
  if s.wasmModule && s.wasmInitialized && !s.shouldStopProcessing then s.goTo l .nextMessage else s.finish l

def startMessageProcessing (s : Client) : Client :=
  if s.messageProcessingStarted then s
  else turn { s with messageProcessingStarted := true, started := s.started + 1 } s.started

/-- `attemptRecovery`, to its first await. -/
def attemptRecovery (s : Client) (l : Nat) (reason : Reason) : Client :=
  if s.isRecovering then s.goTo l (.otherRecovery reason)
  else if maxRecoveryAttempts ≤ s.recoveryAttempts then
    { s with died := s.died ++ [(l, false)] }.goTo l (.recovered reason false)
  else { s with isRecovering := true, recoveryAttempts := s.recoveryAttempts + 1 }.goTo l (.delay reason)

/-- A message, which is handled before the stop flag is looked at. -/
def took (s : Client) : Client :=
  { s with
    returned := s.returned + 1
    consecutiveStreamErrors := 0
    handled := s.handled ++ [s.returned] }

/-- `next_message` has settled. -/
def received (s : Client) (l : Nat) : Next → Client
  | .message => if s.shouldStopProcessing then s.took.finish l else s.took.turn l
  | .streamClosed => if s.shouldStopProcessing then s.finish l else s.attemptRecovery l .streamClosed
  | .alreadyCalled =>
    if s.shouldStopProcessing then s.finish l
    else if maxConsecutiveErrors ≤ s.consecutiveStreamErrors + 1 then
      attemptRecovery { s with consecutiveStreamErrors := s.consecutiveStreamErrors + 1 } l .maxConsecutiveErrors
    else { s with consecutiveStreamErrors := s.consecutiveStreamErrors + 1 }.goTo l .pause
  | .otherError => if s.shouldStopProcessing then s.finish l else s.goTo l .pause

def elapsed (s : Client) (l : Nat) : Point → Client
  | .pause => s.turn l
  | .otherRecovery reason => s.goTo l (.recovered reason (!s.shouldStopProcessing))
  | .delay reason =>
    if s.shouldStopProcessing then { s with isRecovering := false }.goTo l (.recovered reason false)
    -- the WASM client closes before it connects
    else if s.wasmModule then { s with wasmInitialized := false }.goTo l (.restart reason none)
    else s.goTo l (.restarted reason false)
  | _ => s

/-- Restarted: what `restart_ws_connection` does then. -/
def reopened (s : Client) : Client := { s.startMessageProcessing with initializationComplete := true }

/-- `attemptRecovery`, after `restart_ws_connection`. -/
def recover (s : Client) (l : Nat) (reason : Reason) : Bool → Client
  | true =>
    { s with
      recoveryAttempts := 0
      died := s.died ++ [(l, true)]
      isRecovering := false
      failed := update s.failed l 0 }.goTo l (.recovered reason true)
  | false =>
    if maxRecoveryAttempts ≤ s.recoveryAttempts then
      { s with
        died := s.died ++ [(l, false)]
        isRecovering := false
        failed := update s.failed l (s.failed l + 1) }.goTo l (.recovered reason false)
    else
      { s with isRecovering := false, failed := update s.failed l (s.failed l + 1) }.goTo l
        (.recovered reason (!s.shouldStopProcessing))

/-- A loop, or a function it awaits, goes on after a promise that has settled. -/
def proceeded (s : Client) (l : Nat) : Point → Client
  | .restart reason (some true) => s.reopened.goTo l (.restarted reason true)
  | .restart reason (some false) => s.goTo l (.restarted reason false)
  | .restarted reason ok => s.recover l reason ok
  | .recovered .streamClosed true => s.turn l
  | .recovered .maxConsecutiveErrors true => { s with consecutiveStreamErrors := 0 }.turn l
  | .recovered _ false => s.finish l
  | _ => s

/-! ## The calls -/

def markStopped (s : Client) : Client :=
  { s with stopped := fun l => s.stopped l || (s.loops l).isSome }

def stopMessageProcessing (s : Client) : Client :=
  { s.markStopped with
    shouldStopProcessing := true
    initializationComplete := false
    messageProcessingStarted := false }

def begin (s : Client) (call : Call) : Client :=
  { s with calls := update s.calls s.begun (some call), begun := s.begun + 1 }

/-- `init`, to its first await. -/
def init (s : Client) : Client :=
  { s with
    shouldStopProcessing := false
    consecutiveStreamErrors := 0
    recoveryAttempts := 0
    isRecovering := false }.begin (.load none)

/-- `restart_ws_connection`, which throws where there is no module. -/
def restart (s : Client) : Client :=
  if s.wasmModule then { s with wasmInitialized := false }.begin (.restart none) else s

/-- The end of `close`. -/
def closed (s : Client) : Client := { s with wasmModule := false, initializationComplete := false }

def close (s : Client) : Client :=
  if s.wasmModule then s.markStopped.begin (.close none) else s.markStopped.closed

def goOn (s : Client) (i : Nat) (call : Option Call) : Client := { s with calls := update s.calls i call }

def settled (s : Client) (i : Nat) (ok : Bool) : Call → Client
  | .load none => s.goOn i (some (.load (some ok)))
  | .connect none => { s with wasmInitialized := s.wasmInitialized || ok }.goOn i (some (.connect (some ok)))
  | .restart none => { s with wasmInitialized := s.wasmInitialized || ok }.goOn i (some (.restart (some ok)))
  | .close none => { s with wasmInitialized := s.wasmInitialized && !ok }.goOn i (some (.close (some ok)))
  | _ => s

def resumed (s : Client) (i : Nat) : Call → Client
  | .load (some true) =>
    -- the WASM client refuses to be initialised twice
    if s.wasmInitialized then { s with wasmModule := true }.goOn i none
    else { s with wasmModule := true }.goOn i (some (.connect none))
  | .connect (some true) => s.reopened.goOn i none
  | .restart (some true) => s.reopened.goOn i none
  | .close (some true) => s.closed.goOn i none
  | .load none => s
  | .connect none => s
  | .restart none => s
  | .close none => s
  | _ => s.goOn i none

/-! ## Steps -/

def step (s : Client) : Act → Client
  | .init => s.init
  | .restart => s.restart
  | .stop => s.stopMessageProcessing
  | .close => s.close
  | .settle i ok => match s.calls i with
    | some call => s.settled i ok call
    | none => s
  | .resume i => match s.calls i with
    | some call => s.resumed i call
    | none => s
  | .receive l next => match s.loops l with
    | some .nextMessage => s.received l next
    | _ => s
  | .timer l => match s.loops l with
    | some point => s.elapsed l point
    | none => s
  | .settleRestart l ok => match s.loops l with
    | some (.restart reason none) =>
      { s with wasmInitialized := s.wasmInitialized || ok }.goTo l (.restart reason (some ok))
    | _ => s
  | .proceed l => match s.loops l with
    | some point => s.proceeded l point
    | none => s

end Client

end CitadelAgent.PageClient.MessageLoop
