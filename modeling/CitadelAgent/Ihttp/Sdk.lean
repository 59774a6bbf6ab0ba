import CitadelAgent.Ihttp.Frames

/-!
# Internal HTTP: the two sides of an instance

`citadel-app-sdk/src/ihttp/{mod,server,client}.rs`: an instance serves requests and makes calls of its own. What one
side does to the world is a list of `Effect`s, in order. What the app does inside a handler or a sink is `App`; a call of
the host that is still awaited does nothing more unless it is refused.

* `Server.onFrame`, `Clients.onFrame` : the frames of the streams an instance serves, and of those it opened;
* `onFrame` : which of the two a frame goes to.
-/

namespace CitadelAgent.Ihttp
open Function

abbrev ServerKey := Nat × String × Nat

abbrev ClientKey := String × Nat

structure Incoming where
  caller : Caller
  head : RequestHead
  body : List UInt8

structure Outgoing where
  peer : Caller
  outbox : Outbox

structure Server where
  handler : Bool
  incoming : ServerKey → Option Incoming
  outgoing : ServerKey → Option Outgoing

structure ResponseWriter where
  peer : Caller
  stream : Nat
  deriving DecidableEq

structure Stream where
  to_ : Address
  transport : Transport
  /-- Whether the sink is here: it is taken out while it runs. -/
  sink : Bool
  outbox : Outbox
  deriving DecidableEq

structure Clients where
  /-- Counts up; `2 ^ 64` calls are out of reach. -/
  lastStream : Nat
  streams : ClientKey → Option Stream

/-- What an instance keeps of its internal HTTP. -/
structure Sdk where
  server : Server
  clients : Clients

inductive Effect
  | host (op : HostOp)
  | handler (request : Request) (writer : ResponseWriter)
  | sink (key : ClientKey) (event : ClientEvent)
  /-- A sink run later, after the export that is running returns. -/
  | spawned (key : ClientKey) (event : ClientEvent)
  | note (what : String) (refused : Refused)

/-- What the app does to the instance inside its callbacks. -/
structure App where
  handler : Request → ResponseWriter → Sdk → Sdk × List Effect
  sink : ClientKey → ClientEvent → Sdk → Sdk × List Effect

def App.quiet : App := ⟨fun _ _ sdk => (sdk, []), fun _ _ sdk => (sdk, [])⟩

/-- `start(..).watch(what)`. -/
def watch (host : HostOp → Answer) (what : String) (op : HostOp) : List Effect :=
  match host op with
  | .ready (.error e) => [.host op, .note what e]
  | _ => [.host op]

/-! ## The serving side -/

def key (c : Caller) (stream : Nat) : ServerKey := (c.cid, c.installId, stream)

namespace Server

def owns (from_ : Caller) (stream : Nat) (s : Server) : Bool :=
  (s.incoming (key from_ stream)).isSome || (s.outgoing (key from_ stream)).isSome

/-- `fuel` bounds the passes of the loop: each sends a frame of the outbox. -/
def flushLoop (host : HostOp → Answer) (k : ServerKey) : Nat → Server → Server × List Effect × Option Refused
  | 0, s => (s, [], none)
  | fuel + 1, s =>
      match s.outgoing k with
      | none => (s, [], none)
      | some o =>
          match o.outbox.next with
          | (none, outbox) => ({ s with outgoing := update s.outgoing k (some { o with outbox := outbox }) }, [], none)
          | (some kind, outbox) =>
              let s := { s with outgoing := update s.outgoing k (some { o with outbox := outbox }) }
              let op := HostOp.respond o.peer (.new k.2.2 kind)
              match host op with
              | .ready (.error e) => ({ s with outgoing := update s.outgoing k none }, [.host op], some e)
              | _ =>
                  if kind.last = true then ({ s with outgoing := update s.outgoing k none }, [.host op], none)
                  else
                    let r := flushLoop host k fuel s
                    (r.1, .host op :: r.2.1, r.2.2)

/-- Send what the credit allows; the stream is closed after `End` or on a refusal. -/
def flush (host : HostOp → Answer) (k : ServerKey) (s : Server) : Server × List Effect × Option Refused :=
  flushLoop host k (((s.outgoing k).elim 0 fun o => o.outbox.queued.length) + 1) s

def complete (app : App) (from_ : Caller) (stream : Nat) (sdk : Sdk) : Sdk × List Effect :=
  let k := key from_ stream
  match sdk.server.incoming k with
  | none => (sdk, [])
  | some inc =>
      let server :=
        { sdk.server with
          incoming := update sdk.server.incoming k none
          outgoing := update sdk.server.outgoing k (some ⟨from_, .new⟩) }
      if server.handler = false then ({ sdk with server := server }, [])
      else
        let request : Request :=
          { caller := inc.caller
            stream := stream
            method := inc.head.method
            path := inc.head.path
            query := inc.head.query
            headers := inc.head.headers
            body := inc.body }
        let writer : ResponseWriter := ⟨inc.caller, stream⟩
        -- the handler is taken out while it runs
        let r := app.handler request writer { sdk with server := { server with handler := false } }
        ({ r.1 with server := { r.1.server with handler := true } }, .handler request writer :: r.2)

def onFrame (host : HostOp → Answer) (app : App) (from_ : Caller) (frame : IhttpFrame) (sdk : Sdk) :
    Sdk × List Effect × Option (Caller × IhttpFrame) :=
  let k := key from_ frame.stream
  match frame.kind with
  | .requestHead head =>
      if sdk.server.handler = false then (sdk, [], some (from_, .new frame.stream (.requestHead head)))
      else
        let incoming := update sdk.server.incoming k (some ⟨from_, head, []⟩)
        ({ sdk with server := { sdk.server with incoming := incoming } }, [], none)
  | .body bytes =>
      match sdk.server.incoming k with
      | none => (sdk, [], none)
      | some inc =>
          let incoming := update sdk.server.incoming k (some { inc with body := inc.body ++ bytes })
          ({ sdk with server := { sdk.server with incoming := incoming } },
            watch host "ihttp consumed" (.consumed from_ frame.stream), none)
  | .end_ =>
      let r := complete app from_ frame.stream sdk
      (r.1, r.2, none)
  | .cancel _ =>
      let server :=
        { sdk.server with
          incoming := update sdk.server.incoming k none
          outgoing := update sdk.server.outgoing k none }
      ({ sdk with server := server }, [], none)
  | .credit n =>
      let granted := (sdk.server.outgoing k).map fun o => { o with outbox := o.outbox.grant n }
      let r := flush host k { sdk.server with outgoing := update sdk.server.outgoing k granted }
      ({ sdk with server := r.1 }, r.2.1 ++ r.2.2.toList.map (.note "ihttp response"), none)
  | .responseHead head => (sdk, [], some (from_, .new frame.stream (.responseHead head)))

/-- `ResponseWriter::respond_with`. -/
def respondWith (host : HostOp → Answer) (writer : ResponseWriter) (status : UInt16) (headers : Headers)
    (body : List UInt8) (s : Server) : Server × List Effect × Option Refused :=
  let k := key writer.peer writer.stream
  let head := FrameKind.responseHead ⟨status, headers, some body.length⟩
  match s.outgoing k with
  | none => (s, [], some (.unavailable "the stream is closed"))
  | some o =>
      flush host k
        { s with outgoing := update s.outgoing k (some { o with outbox := o.outbox.message head body }) }

end Server

/-! ## The calling side -/

def target : Address → String × String
  | .user appId _ => (appId, "")
  | .scope appId scopeKey => (appId, scopeKey)

namespace Clients

/-- End the stream with `event`: run later, since the app may be the caller. -/
def finish (k : ClientKey) (event : ClientEvent) (c : Clients) : Clients × List Effect :=
  match c.streams k with
  | none => (c, [])
  | some stream =>
      ({ c with streams := update c.streams k none }, if stream.sink = true then [.spawned k event] else [])

/-- `fuel` bounds the passes of the loop: each sends a frame of the outbox. -/
def flushLoop (host : HostOp → Answer) (k : ClientKey) : Nat → Clients → Clients × List Effect
  | 0, c => (c, [])
  | fuel + 1, c =>
      match c.streams k with
      | none => (c, [])
      | some stream =>
          match stream.outbox.next with
          | (none, outbox) => ({ c with streams := update c.streams k (some { stream with outbox := outbox }) }, [])
          | (some kind, outbox) =>
              let c := { c with streams := update c.streams k (some { stream with outbox := outbox }) }
              let op := HostOp.call stream.to_ (.new k.2 kind) stream.transport
              match host op with
              | .ready (.error e) =>
                  let r := finish k (.failed e) c
                  (r.1, .host op :: r.2)
              | _ =>
                  let r := flushLoop host k fuel c
                  (r.1, .host op :: r.2)

def flush (host : HostOp → Answer) (k : ClientKey) (c : Clients) : Clients × List Effect :=
  flushLoop host k (((c.streams k).elim 0 fun stream => stream.outbox.queued.length) + 1) c

def requestHead (to_ : Address) (request : Outbound) : RequestHead :=
  { method := request.method
    path := request.path
    query := request.query
    headers := request.headers
    bodyLen := some request.body.length
    appId := (target to_).1
    scopeKey := (target to_).2 }

/-- Open a stream, the next of this instance; its key is `((target to_).1, lastStream + 1)`. -/
def open_ (host : HostOp → Answer) (to_ : Address) (transport : Transport) (request : Outbound) (c : Clients) :
    Clients × List Effect :=
  let outbox := Outbox.new.message (.requestHead (requestHead to_ request)) request.body
  let k := ((target to_).1, c.lastStream + 1)
  flush host k
    { lastStream := c.lastStream + 1
      streams := update c.streams k (some ⟨to_, transport, true, outbox⟩) }

def deliver (app : App) (k : ClientKey) (event : ClientEvent) (last : Bool) (sdk : Sdk) : Sdk × List Effect :=
  match sdk.clients.streams k with
  | none => (sdk, [])
  | some stream =>
      if stream.sink = false then (sdk, [])
      else
        let taken := update sdk.clients.streams k (some { stream with sink := false })
        let r := app.sink k event { sdk with clients := { sdk.clients with streams := taken } }
        let streams :=
          if last = true then update r.1.clients.streams k none
          else update r.1.clients.streams k ((r.1.clients.streams k).map fun stream => { stream with sink := true })
        ({ r.1 with clients := { r.1.clients with streams := streams } }, .sink k event :: r.2)

def onFrame (host : HostOp → Answer) (app : App) (from_ : Caller) (frame : IhttpFrame) (sdk : Sdk) :
    Sdk × List Effect × Option (Caller × IhttpFrame) :=
  let k := (from_.appId, frame.stream)
  match sdk.clients.streams k with
  | none => (sdk, [], some (from_, frame))
  | some stream =>
      match frame.kind with
      | .responseHead head =>
          let r := deliver app k (.head head from_.via) false sdk
          (r.1, r.2, none)
      | .body bytes =>
          let r := deliver app k (.body bytes) false sdk
          (r.1, r.2 ++ watch host "ihttp consumed" (.consumed from_ frame.stream), none)
      | .end_ =>
          let r := deliver app k .end_ true sdk
          (r.1, r.2, none)
      | .cancel reason =>
          let r := deliver app k (.failed (refusalOf reason)) true sdk
          (r.1, r.2, none)
      | .credit n =>
          let granted := { stream with outbox := stream.outbox.grant n }
          let r := flush host k { sdk.clients with streams := update sdk.clients.streams k (some granted) }
          ({ sdk with clients := r.1 }, r.2, none)
      | .requestHead head => (sdk, [], some (from_, .new frame.stream (.requestHead head)))

end Clients

/-! ## Where a frame goes -/

def FrameKind.isRequestHead : FrameKind → Bool
  | .requestHead _ => true
  | _ => false

def FrameKind.isResponseHead : FrameKind → Bool
  | .responseHead _ => true
  | _ => false

def onFrame (host : HostOp → Answer) (app : App) (from_ : Caller) (frame : IhttpFrame) (sdk : Sdk) :
    Sdk × List Effect × Option (Caller × IhttpFrame) :=
  if frame.kind.isRequestHead = true ∨ sdk.server.owns from_ frame.stream = true then
    match Server.onFrame host app from_ frame sdk with
    | (sdk, effects, none) => (sdk, effects, none)
    | (sdk, effects, some (from_, frame)) =>
        let r := Clients.onFrame host app from_ frame sdk
        (r.1, effects ++ r.2.1, r.2.2)
  else Clients.onFrame host app from_ frame sdk

/-! ## Under a host that refuses nothing -/

variable {k : ServerKey} {o : Outgoing} {s : Server} {stream : Stream} {c : Clients} {kind : FrameKind}

section Accepting

variable (now : HostOp → Bool)

theorem accepting_cases (op : HostOp) :
    accepting now op = .ready (.ok ()) ∨ accepting now op = .later := by
  unfold accepting
  split
  · exact Or.inl rfl
  · exact Or.inr rfl

theorem watch_accepting (what : String) (op : HostOp) : watch (accepting now) what op = [.host op] := by
  rcases accepting_cases now op with h | h
  · simp [watch, h]
  · simp [watch, h]

def responds (peer : Caller) (stream : Nat) (kinds : List FrameKind) : List Effect :=
  kinds.map fun kind => .host (.respond peer (.new stream kind))

def calls (to_ : Address) (transport : Transport) (stream : Nat) (kinds : List FrameKind) : List Effect :=
  kinds.map fun kind => .host (.call to_ (.new stream kind) transport)

theorem Server.flushLoop_pass {rest : Outbox} (ho : s.outgoing k = some o) (hnext : o.outbox.next = (some kind, rest))
    (fuel : Nat) :
    Server.flushLoop (accepting now) k (fuel + 1) s =
      let s' := { s with outgoing := update s.outgoing k (some { o with outbox := rest }) }
      let op := HostOp.respond o.peer (.new k.2.2 kind)
      if kind.last = true then ({ s' with outgoing := update s'.outgoing k none }, [.host op], none)
      else
        let r := Server.flushLoop (accepting now) k fuel s'
        (r.1, .host op :: r.2.1, r.2.2) := by
  rcases accepting_cases now (.respond o.peer (.new k.2.2 kind)) with h | h
  · simp [Server.flushLoop, ho, hnext, h]
  · simp [Server.flushLoop, ho, hnext, h]

theorem Server.flushLoop_eq {fuel : Nat} (ho : s.outgoing k = some o)
    (hlast : ∀ kind ∈ o.outbox.queued.dropLast, kind.last = false) (hfuel : o.outbox.queued.length < fuel) :
    Server.flushLoop (accepting now) k fuel s =
      ({ s with
          outgoing := update s.outgoing k
            (if o.outbox.drained.any FrameKind.last = true then none else some { o with outbox := o.outbox.kept }) },
        responds o.peer k.2.2 o.outbox.drained, none) := by
  induction fuel generalizing s o with
  | zero => omega
  | succ fuel ih =>
      rcases o.outbox.next_eq with ⟨hnext, hdrained, hkept⟩ | ⟨kind, rest, hnext, hdrained, hkept, hqueued⟩
      · simp [Server.flushLoop, ho, hnext, hdrained, hkept, responds]
      · rw [Server.flushLoop_pass now ho hnext]
        rw [hqueued] at hlast hfuel
        by_cases hend : kind.last = true
        · -- the frame that ends the stream is the last of the queue
          have hrest : rest.queued = [] := by
            cases hq : rest.queued with
            | nil => rfl
            | cons x xs => simp [hlast kind (by simp [hq])] at hend
          have hnone : rest.drained = [] := by
            rw [Outbox.drained, hrest, Credit.drain_nil]
          simp [hend, hdrained, hnone, responds]
        · have hrest : ∀ x ∈ rest.queued.dropLast, x.last = false := by
            intro x hx
            apply hlast
            cases hq : rest.queued with
            | nil => simp [hq] at hx
            | cons y ys =>
                rw [hq] at hx
                exact List.mem_cons_of_mem _ hx
          have hsend := ih (s := { s with outgoing := update s.outgoing k (some { o with outbox := rest }) })
            (o := { o with outbox := rest }) (by simp) hrest (by simpa using hfuel)
          simp [hend, hdrained, hkept, hsend, responds]

theorem Server.flush_eq (ho : s.outgoing k = some o) (hlast : ∀ kind ∈ o.outbox.queued.dropLast, kind.last = false) :
    Server.flush (accepting now) k s =
      ({ s with
          outgoing := update s.outgoing k
            (if o.outbox.drained.any FrameKind.last = true then none else some { o with outbox := o.outbox.kept }) },
        responds o.peer k.2.2 o.outbox.drained, none) := by
  apply Server.flushLoop_eq now ho hlast
  simp [ho]

theorem Clients.flushLoop_pass {k : ClientKey} {rest : Outbox} (hstream : c.streams k = some stream)
    (hnext : stream.outbox.next = (some kind, rest)) (fuel : Nat) :
    Clients.flushLoop (accepting now) k (fuel + 1) c =
      let r := Clients.flushLoop (accepting now) k fuel
        { c with streams := update c.streams k (some { stream with outbox := rest }) }
      (r.1, .host (.call stream.to_ (.new k.2 kind) stream.transport) :: r.2) := by
  rcases accepting_cases now (.call stream.to_ (.new k.2 kind) stream.transport) with h | h
  · simp [Clients.flushLoop, hstream, hnext, h]
  · simp [Clients.flushLoop, hstream, hnext, h]

theorem Clients.flushLoop_eq {k : ClientKey} {fuel : Nat} (hstream : c.streams k = some stream)
    (hfuel : stream.outbox.queued.length < fuel) :
    Clients.flushLoop (accepting now) k fuel c =
      ({ c with streams := update c.streams k (some { stream with outbox := stream.outbox.kept }) },
        calls stream.to_ stream.transport k.2 stream.outbox.drained) := by
  induction fuel generalizing c stream with
  | zero => omega
  | succ fuel ih =>
      rcases stream.outbox.next_eq with ⟨hnext, hdrained, hkept⟩ | ⟨kind, rest, hnext, hdrained, hkept, hqueued⟩
      · simp [Clients.flushLoop, hstream, hnext, hdrained, hkept, calls]
      · rw [Clients.flushLoop_pass now hstream hnext]
        have hrest : (update c.streams k (some { stream with outbox := rest })) k = some { stream with outbox := rest } := by
          simp
        have hsend := ih (c := { c with streams := update c.streams k (some { stream with outbox := rest }) }) hrest
          (by simpa [hqueued] using hfuel)
        simp [hdrained, hkept, hsend, calls]

theorem Clients.flush_eq {k : ClientKey} (hstream : c.streams k = some stream) :
    Clients.flush (accepting now) k c =
      ({ c with streams := update c.streams k (some { stream with outbox := stream.outbox.kept }) },
        calls stream.to_ stream.transport k.2 stream.outbox.drained) := by
  apply Clients.flushLoop_eq now hstream
  simp [hstream]

theorem Clients.open_eq (to_ : Address) (transport : Transport) (request : Outbound) (c : Clients) :
    Clients.open_ (accepting now) to_ transport request c =
      let outbox := Outbox.new.message (.requestHead (requestHead to_ request)) request.body
      ({ lastStream := c.lastStream + 1
         streams := update c.streams ((target to_).1, c.lastStream + 1) (some ⟨to_, transport, true, outbox.kept⟩) },
        calls to_ transport (c.lastStream + 1) outbox.drained) := by
  unfold Clients.open_
  rw [Clients.flush_eq now (update_self ..)]
  simp

theorem Server.respondWith_eq {writer : ResponseWriter} (ho : s.outgoing (key writer.peer writer.stream) = some o)
    (hqueued : o.outbox.queued = []) (status : UInt16) (headers : Headers) (body : List UInt8) :
    Server.respondWith (accepting now) writer status headers body s =
      let outbox := o.outbox.message (.responseHead ⟨status, headers, some body.length⟩) body
      ({ s with
          outgoing := update s.outgoing (key writer.peer writer.stream)
            (if outbox.drained.any FrameKind.last = true then none else some { o with outbox := outbox.kept }) },
        responds o.peer writer.stream outbox.drained, none) := by
  have hmessage : [] ++ (o.outbox.message (.responseHead ⟨status, headers, some body.length⟩) body).queued =
      Ihttp.message (.responseHead ⟨status, headers, some body.length⟩) body := by
    simp [Outbox.message, hqueued]
  unfold Server.respondWith
  simp only [ho]
  rw [Server.flush_eq now (update_self ..) (message_last hmessage rfl)]
  simp [key]

/-! ### A frame that goes to the serving side -/

variable {sdk : Sdk} {from_ : Caller} {v : UInt8} {n : Nat}

theorem onFrame_requestHead (hhandler : sdk.server.handler = true) (head : RequestHead) :
    onFrame (accepting now) .quiet from_ ⟨v, n, .requestHead head⟩ sdk =
      ({ sdk with
          server := { sdk.server with incoming := update sdk.server.incoming (key from_ n) (some ⟨from_, head, []⟩) } },
        [], none) := by
  simp [onFrame, FrameKind.isRequestHead, Server.onFrame, hhandler]

theorem onFrame_requestBody {inc : Incoming} (hinc : sdk.server.incoming (key from_ n) = some inc)
    (bytes : List UInt8) :
    onFrame (accepting now) .quiet from_ ⟨v, n, .body bytes⟩ sdk =
      ({ sdk with
          server := { sdk.server with
            incoming := update sdk.server.incoming (key from_ n) (some { inc with body := inc.body ++ bytes }) } },
        [.host (.consumed from_ n)], none) := by
  simp [onFrame, Server.owns, Server.onFrame, hinc, watch_accepting]

theorem onFrame_requestEnd {inc : Incoming} (hinc : sdk.server.incoming (key from_ n) = some inc)
    (hhandler : sdk.server.handler = true) :
    onFrame (accepting now) .quiet from_ ⟨v, n, .end_⟩ sdk =
      ({ sdk with
          server := { sdk.server with
            incoming := update sdk.server.incoming (key from_ n) none
            outgoing := update sdk.server.outgoing (key from_ n) (some ⟨from_, .new⟩) } },
        [.handler ⟨inc.caller, n, inc.head.method, inc.head.path, inc.head.query, inc.head.headers, inc.body⟩
          ⟨inc.caller, n⟩], none) := by
  simp [onFrame, Server.owns, Server.onFrame, Server.complete, App.quiet, hinc, hhandler]

theorem onFrame_responseCredit (ho : sdk.server.outgoing (key from_ n) = some o) (m : Nat)
    (hlast : ∀ kind ∈ o.outbox.queued.dropLast, kind.last = false) :
    onFrame (accepting now) .quiet from_ ⟨v, n, .credit m⟩ sdk =
      let outbox := o.outbox.grant m
      ({ sdk with
          server := { sdk.server with
            outgoing := update sdk.server.outgoing (key from_ n)
              (if outbox.drained.any FrameKind.last = true then none else some { o with outbox := outbox.kept }) } },
        responds o.peer n outbox.drained, none) := by
  have hflush := Server.flush_eq now (k := key from_ n)
    (s := { sdk.server with
      outgoing := update sdk.server.outgoing (key from_ n) (some { o with outbox := o.outbox.grant m }) })
    (update_self ..) hlast
  simp [onFrame, Server.owns, Server.onFrame, ho, hflush]
  simp [key]

/-! ### A frame that goes to the calling side -/

variable {stream : Stream} (hstream : sdk.clients.streams (from_.appId, n) = some stream)
include hstream

theorem deliver_quiet (hsink : stream.sink = true) (event : ClientEvent) :
    Clients.deliver .quiet (from_.appId, n) event false sdk = (sdk, [.sink (from_.appId, n) event]) := by
  have hback : some { stream with sink := true } = sdk.clients.streams (from_.appId, n) := by
    rw [hstream, ← hsink]
  simp [Clients.deliver, App.quiet, hstream, hsink]
  rw [hback, update_eq_self]

theorem onFrame_responseHead (hsink : stream.sink = true) (head : ResponseHead) :
    onFrame (accepting now) .quiet from_ ⟨v, n, .responseHead head⟩ sdk =
      (sdk, [.sink (from_.appId, n) (.head head from_.via)], none) := by
  have hdeliver := deliver_quiet hstream hsink (.head head from_.via)
  unfold onFrame
  split
  · simp [Server.onFrame, Clients.onFrame, hstream, hdeliver, IhttpFrame.new]
  · simp [Clients.onFrame, hstream, hdeliver]

variable (howns : sdk.server.owns from_ n = false)
include howns

theorem onFrame_responseBody (hsink : stream.sink = true) (bytes : List UInt8) :
    onFrame (accepting now) .quiet from_ ⟨v, n, .body bytes⟩ sdk =
      (sdk, [.sink (from_.appId, n) (.body bytes), .host (.consumed from_ n)], none) := by
  have hdeliver := deliver_quiet hstream hsink (.body bytes)
  simp [onFrame, FrameKind.isRequestHead, howns, Clients.onFrame, hstream, hdeliver, watch_accepting]

theorem onFrame_responseEnd (hsink : stream.sink = true) :
    onFrame (accepting now) .quiet from_ ⟨v, n, .end_⟩ sdk =
      ({ sdk with clients := { sdk.clients with streams := update sdk.clients.streams (from_.appId, n) none } },
        [.sink (from_.appId, n) .end_], none) := by
  simp [onFrame, FrameKind.isRequestHead, howns, Clients.onFrame, hstream, Clients.deliver, App.quiet, hsink]

theorem onFrame_requestCredit (m : Nat) :
    onFrame (accepting now) .quiet from_ ⟨v, n, .credit m⟩ sdk =
      let outbox := stream.outbox.grant m
      ({ sdk with
          clients := { sdk.clients with
            streams := update sdk.clients.streams (from_.appId, n) (some { stream with outbox := outbox.kept }) } },
        calls stream.to_ stream.transport n outbox.drained, none) := by
  have hflush := Clients.flush_eq now (k := (from_.appId, n))
    (c := { sdk.clients with
      streams := update sdk.clients.streams (from_.appId, n) (some { stream with outbox := stream.outbox.grant m }) })
    (update_self ..)
  simp [onFrame, FrameKind.isRequestHead, howns, Clients.onFrame, hstream, hflush]

omit hstream

theorem onFrame_stray (hnone : sdk.clients.streams (from_.appId, n) = none) (hkind : kind.isRequestHead = false) :
    onFrame (accepting now) .quiet from_ ⟨v, n, kind⟩ sdk = (sdk, [], some (from_, ⟨v, n, kind⟩)) := by
  simp [onFrame, hkind, howns, Clients.onFrame, hnone]

end Accepting

end CitadelAgent.Ihttp
