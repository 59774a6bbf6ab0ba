import CitadelAgent.Ihttp.Sdk

/-!
# Internal HTTP: two instances that call each other

Both serve and both call, each numbering its own streams from 1. The host refuses nothing, and delivers the frames one
instance sends on a stream number unchanged and in their order, in any order between the numbers; the credit for chunks
that were read it grants whenever it likes, in frames of any size. What an app does inside a handler or a sink touches
nothing that is still done for the frame it was called with, so the calls it opens and the answers it gives are steps of
their own.

A call made by `a` on its stream `n` is the exchange `(a, n)`. A frame does not say which exchange it belongs to:
`Packet.opener` says it for the host's record, and no instance reads it.

* `Pair.step` : one step of the two instances and the host between them;
* `Run` : the states reached by steps that all meet a condition;
* `Faithful` : what an exchange promises the two apps;
* `Pair.Routed` : the frame delivered goes to the side of the receiver it is meant for.
-/

namespace CitadelAgent.Ihttp
open Function

inductive Side
  | left
  | right
  deriving DecidableEq

def Side.other : Side → Side
  | .left => .right
  | .right => .left

@[simp] theorem Side.other_other (a : Side) : a.other.other = a := by cases a <;> rfl

@[simp] theorem Side.other_ne (a : Side) : a.other ≠ a := by cases a <;> decide

@[simp] theorem Side.ne_other (a : Side) : a ≠ a.other := by cases a <;> decide

theorem Side.eq_or_other (a b : Side) : b = a ∨ b = a.other := by cases a <;> cases b <;> decide

structure Packet where
  frame : IhttpFrame
  opener : Side

structure Call where
  to_ : Address
  transport : Transport
  request : Outbound
  deriving DecidableEq

structure Reply where
  status : UInt16
  headers : Headers
  body : List UInt8
  deriving DecidableEq

structure Pair where
  sdk : Side → Sdk
  frames : Side → List Packet
  owed : Side × Side × Nat → Nat
  granted : Side × Side × Nat → Nat
  writers : Side → List ResponseWriter
  log : Side → List Effect
  called : Side × Nat → Option Call
  answered : Side × Nat → Option Reply

def Pair.start : Pair :=
  { sdk := fun _ => ⟨⟨true, fun _ => none, fun _ => none⟩, ⟨0, fun _ => none⟩⟩
    frames := fun _ => []
    owed := fun _ => 0
    granted := fun _ => 0
    writers := fun _ => []
    log := fun _ => []
    called := fun _ => none
    answered := fun _ => none }

namespace Effect

/-- The frame an effect of side `c` hands to the host. -/
def packet (c : Side) : Effect → Option Packet
  | .host (.call _ frame _) => some ⟨frame, c⟩
  | .host (.respond _ frame) => some ⟨frame, c.other⟩
  | _ => none

def writer : Effect → Option ResponseWriter
  | .handler _ writer => some writer
  | _ => none

def isConsumed : Effect → Bool
  | .host (.consumed _ _) => true
  | _ => false

/-- The request a handler ran with on stream `n`. -/
def ran (n : Nat) : Effect → Option Request
  | .handler request _ => if request.stream = n then some request else none
  | _ => none

/-- What the sink of stream `n` was given. -/
def heard (n : Nat) : Effect → Option ClientEvent
  | .sink k event => if k.2 = n then some event else none
  | _ => none

/-- The frame of stream `n` a caller sent. -/
def callFrame (n : Nat) : Effect → Option FrameKind
  | .host (.call _ frame _) => if frame.stream = n then some frame.kind else none
  | _ => none

/-- The frame of stream `n` a server sent. -/
def replyFrame (n : Nat) : Effect → Option FrameKind
  | .host (.respond _ frame) => if frame.stream = n then some frame.kind else none
  | _ => none

end Effect

/-- Side `c` did `effects` for the exchange `(opener, n)`, and is left as `sdk`. -/
def Pair.after (s : Pair) (c opener : Side) (n : Nat) (sdk : Sdk) (effects : List Effect) : Pair :=
  { s with
    sdk := update s.sdk c sdk
    frames := update s.frames c (s.frames c ++ effects.filterMap (Effect.packet c))
    owed := update s.owed (c, opener, n) (s.owed (c, opener, n) + effects.countP Effect.isConsumed)
    writers := update s.writers c (s.writers c ++ effects.filterMap Effect.writer)
    log := update s.log c (s.log c ++ effects) }

inductive Act
  | open_ (a : Side) (call : Call)
  | respond (b : Side) (i : Nat) (reply : Reply)
  | deliver (c : Side) (i : Nat) (via : Via)
  | credit (c opener : Side) (n m : Nat) (via : Via)

section

variable (who : Side → Caller)

/-- Who a frame of `c` that came by `via` is from, as the host stamps it. -/
def stamped (c : Side) (via : Via) : Caller := { who c with via := via }

/-- `now` says which calls of the host are answered at once. -/
def Pair.step (now : HostOp → Bool) (s : Pair) : Act → Option Pair
  | .open_ a call =>
      -- the other side is whom the host finds at the address
      if (target call.to_).1 = (who a.other).appId then
        let n := (s.sdk a).clients.lastStream + 1
        let r := Clients.open_ (accepting now) call.to_ call.transport call.request (s.sdk a).clients
        some { s.after a a n { s.sdk a with clients := r.1 } r.2 with called := update s.called (a, n) (some call) }
      else none
  | .respond b i reply =>
      match (s.writers b)[i]? with
      | none => none
      | some w =>
          let r := Server.respondWith (accepting now) w reply.status reply.headers reply.body (s.sdk b).server
          let s' :=
            { s with
              writers := update s.writers b ((s.writers b).eraseIdx i)
              answered := update s.answered (b.other, w.stream) (some reply) }
          some (s'.after b b.other w.stream { s.sdk b with server := r.1 } r.2.1)
  | .deliver c i via =>
      match (s.frames c)[i]? with
      | none => none
      | some p =>
          if ((s.frames c).take i).all fun q => decide (q.frame.stream ≠ p.frame.stream) then
            let r := onFrame (accepting now) .quiet (stamped who c via) p.frame (s.sdk c.other)
            let s' := { s with frames := update s.frames c ((s.frames c).eraseIdx i) }
            some (s'.after c.other p.opener p.frame.stream r.1 r.2.1)
          else none
  | .credit c opener n m via =>
      if 0 < m ∧ m ≤ s.owed (c, opener, n) then
        let r := onFrame (accepting now) .quiet (stamped who c via) (.new n (.credit m)) (s.sdk c.other)
        let s' :=
          { s with
            owed := update s.owed (c, opener, n) (s.owed (c, opener, n) - m)
            granted := update s.granted (c.other, opener, n) (s.granted (c.other, opener, n) + m) }
        some (s'.after c.other opener n r.1 r.2.1)
      else none

/-- The states reached from the start by steps that meet `condition` before they are taken. -/
inductive Run (condition : Pair → Act → Prop) : Pair → Prop
  | start : Run condition .start
  | step {s s' : Pair} (now : HostOp → Bool) (act : Act) :
      Run condition s → condition s act → s.step who now act = some s' → Run condition s'

/-- Nothing is on its way, and every handler has answered. -/
def Pair.Settled (s : Pair) : Prop :=
  (∀ c, s.frames c = [] ∧ s.writers c = []) ∧ ∀ e, s.owed e = 0

/-- The request the handler is to run with for a call `a` made on its stream `n`. -/
def Call.served (call : Call) (caller : Caller) (n : Nat) : Request :=
  { caller := caller
    stream := n
    method := call.request.method
    path := call.request.path
    query := call.request.query
    headers := call.request.headers
    body := call.request.body }

def Reply.head (reply : Reply) : ResponseHead := ⟨reply.status, reply.headers, some reply.body.length⟩

def Reply.events (reply : Reply) (via : Via) : List ClientEvent :=
  .head reply.head via :: ((reply.body.toChunks IHTTP_MAX_CHUNK_BYTES).map ClientEvent.body ++ [.end_])

/-- What the handler of the other side ran with for the stream `n` of `a`. -/
def Pair.runs (s : Pair) (a : Side) (n : Nat) : List Request := (s.log a.other).filterMap (Effect.ran n)

/-- What the sink of the stream `n` of `a` was given. -/
def Pair.events (s : Pair) (a : Side) (n : Nat) : List ClientEvent := (s.log a).filterMap (Effect.heard n)

/-- The frames `a` sent on its stream `n`. -/
def Pair.callSent (s : Pair) (a : Side) (n : Nat) : List FrameKind := (s.log a).filterMap (Effect.callFrame n)

/-- The frames the other side sent on the stream `n` of `a`. -/
def Pair.replySent (s : Pair) (a : Side) (n : Nat) : List FrameKind :=
  (s.log a.other).filterMap (Effect.replyFrame n)

/-- What the exchange `(a, n)` promises, along the way and once nothing is under way. -/
structure Faithful (s : Pair) (a : Side) (n : Nat) : Prop where
  runs : s.runs a n = [] ∨ ∃ call via, s.called (a, n) = some call ∧ s.runs a n = [call.served (stamped who a via) n]
  events : s.events a n = [] ∨ ∃ reply via, s.answered (a, n) = some reply ∧ s.events a n <+: reply.events via
  callCredit : (s.callSent a n).countP FrameKind.paid ≤ IHTTP_INITIAL_CREDIT + s.granted (a, a, n)
  replyCredit : (s.replySent a n).countP FrameKind.paid ≤ IHTTP_INITIAL_CREDIT + s.granted (a.other, a, n)
  settled : s.Settled → ∀ call, s.called (a, n) = some call →
    (∃ via, s.runs a n = [call.served (stamped who a via) n]) ∧
      ∃ reply via, s.answered (a, n) = some reply ∧ s.events a n = reply.events via

/-- A frame of the exchange `(opener, n)` that `c` sent goes to the side of the receiver it is meant for. -/
def Pair.RoutedFrame (s : Pair) (c opener : Side) (frame : IhttpFrame) : Prop :=
  let receiver := s.sdk c.other
  if opener = c then
    receiver.server.owns (who c) frame.stream = true ∨
      frame.kind.isRequestHead = true ∨ receiver.clients.streams ((who c).appId, frame.stream) = none
  else receiver.server.owns (who c) frame.stream = false ∨ frame.kind.isResponseHead = true

instance (s : Pair) (c opener : Side) (frame : IhttpFrame) : Decidable (s.RoutedFrame who c opener frame) := by
  unfold Pair.RoutedFrame
  infer_instance

/-- No frame the act delivers goes to the wrong side of its receiver. -/
def Pair.Routed (s : Pair) : Act → Prop
  | .open_ .. => True
  | .respond .. => True
  | .deliver c i _ => ∀ p ∈ (s.frames c)[i]?, s.RoutedFrame who c p.opener p.frame
  | .credit c opener n m _ => s.RoutedFrame who c opener (.new n (.credit m))

end

end CitadelAgent.Ihttp
