import CitadelAgent.Ihttp.Calls

/-!
# Internal HTTP: how a call ends

`client.rs` with everything an app can do inside its callbacks: it opens calls, cancels them and answers requests, also
while one of its own sinks or its handler runs. A sink that is to run later waits in the executor's queue.

* `Desk`, `Desk.step` : an instance with the sinks it has queued and what the sinks were given;
* `EndsOnce` : a call ends with one event, and nothing comes after it;
* `Good` : the calls of an instance, one of which may be inside its own sink;
* `ends_once` : every call ends exactly once, as long as none is cancelled from inside its own sink.
-/

namespace CitadelAgent.Ihttp
open Function

inductive AppAct
  | open_ (call : Call)
  | cancel (k : ClientKey)
  | respond (writer : ResponseWriter) (reply : Reply)
  deriving DecidableEq

def AppAct.perform (host : HostOp → Answer) (sdk : Sdk) : AppAct → Sdk × List Effect
  | .open_ call =>
      let r := Clients.open_ host call.to_ call.transport call.request sdk.clients
      ({ sdk with clients := r.1 }, r.2)
  | .cancel k =>
      let r := Clients.cancel host k sdk.clients
      ({ sdk with clients := r.1 }, r.2)
  | .respond writer reply =>
      let r := Server.respondWith host writer reply.status reply.headers reply.body sdk.server
      ({ sdk with server := r.1 }, r.2.1)

def performAll (host : HostOp → Answer) : List AppAct → Sdk → Sdk × List Effect
  | [], sdk => (sdk, [])
  | act :: acts, sdk =>
      let r := act.perform host sdk
      let r' := performAll host acts r.1
      (r'.1, r.2 ++ r'.2)

/-- An app that does `acts` inside whichever callback is called. -/
def App.acting (host : HostOp → Answer) (acts : List AppAct) : App :=
  ⟨fun _ _ sdk => performAll host acts sdk, fun _ _ sdk => performAll host acts sdk⟩

structure Desk where
  sdk : Sdk
  ready : List (ClientKey × ClientEvent)
  given : List (ClientKey × ClientEvent)

def Effect.gave : Effect → Option (ClientKey × ClientEvent)
  | .sink k event => some (k, event)
  | _ => none

def Effect.queued : Effect → Option (ClientKey × ClientEvent)
  | .spawned k event => some (k, event)
  | _ => none

def Desk.after (d : Desk) (sdk : Sdk) (effects : List Effect) : Desk :=
  ⟨sdk, d.ready ++ effects.filterMap Effect.queued, d.given ++ effects.filterMap Effect.gave⟩

inductive DeskAct
  | frame (from_ : Caller) (frame : IhttpFrame) (inside : List AppAct)
  | app (act : AppAct)
  | refusedLater (k : ClientKey) (e : Refused)
  | ready (inside : List AppAct)

def Desk.step (host : HostOp → Answer) (d : Desk) : DeskAct → Desk
  | .frame from_ frame inside =>
      let r := onFrame host (.acting host inside) from_ frame d.sdk
      d.after r.1 r.2.1
  | .app act =>
      let r := act.perform host d.sdk
      d.after r.1 r.2
  | .refusedLater k e =>
      let r := Clients.finish k (.failed e) d.sdk.clients
      d.after { d.sdk with clients := r.1 } (.note "ihttp call" e :: r.2)
  | .ready inside =>
      match d.ready with
      | [] => d
      | next :: rest =>
          let r := performAll host inside d.sdk
          Desk.after ⟨d.sdk, rest, d.given ++ [next]⟩ r.1 r.2

/-- The states an instance reaches, from one with no call, by steps that meet `condition` before they are taken. -/
inductive DeskRun (condition : Desk → DeskAct → Prop) : Desk → Prop
  | start (server : Server) : DeskRun condition ⟨⟨server, ⟨0, fun _ => none⟩⟩, [], []⟩
  | step {d : Desk} (host : HostOp → Answer) (act : DeskAct) :
      DeskRun condition d → condition d act → DeskRun condition (d.step host act)

def ClientEvent.ends : ClientEvent → Bool
  | .end_ => true
  | .failed _ => true
  | _ => false

/-- What the sink of the call `k` was given and is queued to be given, in that order. -/
def Desk.events (d : Desk) (k : ClientKey) : List ClientEvent :=
  (d.given ++ d.ready).filterMap fun e => if e.1 = k then some e.2 else none

structure EndsOnce (d : Desk) (k : ClientKey) : Prop where
  once : ∀ e ∈ (d.events k).dropLast, e.ends = false
  ended : d.sdk.clients.streams k = none → ∃ e, (d.events k).getLast? = some e ∧ e.ends = true

/-- The stream's number is that of a call, under no other name. -/
def Desk.IsCall (d : Desk) (k : ClientKey) : Prop :=
  0 < k.2 ∧ k.2 ≤ d.sdk.clients.lastStream ∧
    ∀ appId ≠ k.1, d.sdk.clients.streams (appId, k.2) = none ∧ d.events (appId, k.2) = []

/-- The frame is one its call's sink is given an event for that does not end the call. -/
def FrameKind.streams : FrameKind → Bool
  | .responseHead _ => true
  | .body _ => true
  | _ => false

/-- No call is cancelled inside its own sink while it is given something that does not end it. -/
def Desk.CancelledOutside (d : Desk) : DeskAct → Prop
  | .frame from_ frame inside =>
      d.sdk.reaches from_ frame = true → frame.kind.streams = true → .cancel (from_.appId, frame.stream) ∉ inside
  | _ => True

/-! ## The calls of an instance -/

inductive Live (c : Clients) (events : List ClientEvent) (k : ClientKey) : Prop
  | running (stream : Stream) :
      c.streams k = some stream → stream.sink = true → (∀ e ∈ events, e.ends = false) → Live c events k
  | ended (before : List ClientEvent) (e : ClientEvent) :
      c.streams k = none → events = before ++ [e] → e.ends = true → (∀ x ∈ before, x.ends = false) → Live c events k

/-- The calls so far, the `n`-th to the app `app n`; `busy` is the one whose sink is running. -/
structure Good (busy : Option ClientKey) (c : Clients) (T : ClientKey → List ClientEvent) (app : Nat → String) :
    Prop where
  live : ∀ n, 0 < n → n ≤ c.lastStream → busy ≠ some (app n, n) → Live c (T (app n, n)) (app n, n)
  inside : ∀ k, busy = some k →
    (0 < k.2 ∧ k.1 = app k.2) ∧ k.2 ≤ c.lastStream ∧ (c.streams k).map Stream.sink ≠ some true
  rest : ∀ k, (0 < k.2 → k.2 ≤ c.lastStream → k.1 ≠ app k.2) → c.streams k = none ∧ T k = []

variable {busy : Option ClientKey} {c c' : Clients} {T : ClientKey → List ClientEvent} {app : Nat → String}
  {k : ClientKey} {effects : List Effect}

variable {stream : Stream} {sdk : Sdk} {acts : List AppAct} {frame : IhttpFrame} {from_ : Caller}

theorem Good.known (h : Good busy c T app) (hstream : c.streams k = some stream) :
    0 < k.2 ∧ k.2 ≤ c.lastStream ∧ k = (app k.2, k.2) := by
  by_contra hnot
  have hnone := (h.rest k fun hpos hle happ => hnot ⟨hpos, hle, Prod.ext happ rfl⟩).1
  simp [hstream] at hnone

theorem Good.live_of (h : Good busy c T app) (hbusy : busy ≠ some k) (hstream : c.streams k = some stream) :
    stream.sink = true ∧ ∀ e ∈ T k, e.ends = false := by
  obtain ⟨hpos, hle, hk⟩ := h.known hstream
  rw [hk] at hbusy hstream ⊢
  rcases h.live k.2 hpos hle hbusy with ⟨stream', hstream', hsink, hevents⟩ | ⟨_, _, hnone, _⟩
  · obtain rfl := Option.mem_unique hstream hstream'
    exact ⟨hsink, hevents⟩
  · simp [hstream] at hnone

theorem Good.move (h : Good busy c T app) (honly : OnlyAt k c c' effects) (hstream : c.streams k = some stream)
    (hlive : busy ≠ some k → Live c' (T k ++ told k effects) k)
    (hinside : busy = some k → (c'.streams k).map Stream.sink ≠ some true) :
    Good busy c' (fun k' => T k' ++ told k' effects) app where
  live n hpos hle hbusy := by
    rw [honly.last] at hle
    by_cases hk : (app n, n) = k
    · subst hk
      exact hlive hbusy
    · rw [honly.silent _ hk, List.append_nil]
      rcases h.live n hpos hle hbusy with ⟨stream', hs, hsink, hevents⟩ | ⟨before, e, hs, hevents, hend, hbefore⟩
      · exact .running stream' ((honly.streams _ hk).trans hs) hsink hevents
      · exact .ended before e ((honly.streams _ hk).trans hs) hevents hend hbefore
  inside k' hbusy := by
    obtain ⟨happ, hle, hsink⟩ := h.inside k' hbusy
    refine ⟨happ, honly.last ▸ hle, ?_⟩
    by_cases hk : k' = k
    · subst hk
      exact hinside hbusy
    · rw [honly.streams _ hk]
      exact hsink
  rest k' hk' := by
    rw [honly.last] at hk'
    have hk : k' ≠ k := by
      rintro rfl
      obtain ⟨hpos, hle, heq⟩ := h.known hstream
      exact hk' hpos hle (congrArg Prod.fst heq)
    obtain ⟨hnone, hnil⟩ := h.rest k' hk'
    exact ⟨(honly.streams _ hk).trans hnone, by rw [hnil, honly.silent _ hk, List.append_nil]⟩

theorem live_of_settles (hsettles : Settles k true c' effects) {events : List ClientEvent}
    (hevents : ∀ e ∈ events, e.ends = false) : Live c' (events ++ told k effects) k := by
  rcases hsettles with ⟨stream, hstream, hsink, htold⟩ | ⟨hnone, e, htold⟩
  · rw [htold, List.append_nil]
    exact .running stream hstream hsink hevents
  · rw [htold, if_pos rfl]
    exact .ended events (.failed e) hnone rfl rfl hevents

theorem Good.close (h : Good busy c T app) (honly : OnlyAt k c c' effects) (hstream : c.streams k = some stream)
    (hnone : c'.streams k = none) {e : Refused} (htold : told k effects = if stream.sink = true then [.failed e] else []) :
    Good busy c' (fun k' => T k' ++ told k' effects) app := by
  apply h.move honly hstream
  · intro hbusy
    obtain ⟨hsink, hevents⟩ := h.live_of hbusy hstream
    rw [htold, if_pos hsink]
    exact .ended (T k) (.failed e) hnone rfl rfl hevents
  · intro _
    simp [hnone]

theorem Good.cancel (h : Good busy c T app) (host : HostOp → Answer) (k : ClientKey) :
    Good busy (Clients.cancel host k c).1 (fun k' => T k' ++ told k' (Clients.cancel host k c).2) app := by
  obtain ⟨honly, hnone, htold⟩ := cancel_spec host k c
  cases hstream : c.streams k with
  | none => simpa [Clients.cancel, hstream] using h
  | some stream =>
      refine h.close (e := refusalOf CANCEL_CALLER) honly hstream hnone ?_
      rw [htold, hstream]
      simp

theorem Good.finish (h : Good busy c T app) (k : ClientKey) (e : Refused) :
    Good busy (Clients.finish k (.failed e) c).1 (fun k' => T k' ++ told k' (Clients.finish k (.failed e) c).2) app := by
  cases hstream : c.streams k with
  | none => simpa [Clients.finish, hstream] using h
  | some stream =>
      obtain ⟨honly, hnone, htold⟩ := finish_spec hstream e
      exact h.close honly hstream hnone htold

theorem Good.opens (h : Good busy c T app) (host : HostOp → Answer) (call : Call) :
    let r := Clients.open_ host call.to_ call.transport call.request c
    Good busy r.1 (fun k' => T k' ++ told k' r.2) (update app (c.lastStream + 1) (target call.to_).1) := by
  intro r
  obtain ⟨hlast, hother, hsettles⟩ := open_spec host call c
  change r.1.lastStream = _ at hlast
  have hnew : T ((target call.to_).1, c.lastStream + 1) = [] := (h.rest _ fun _ hle => absurd hle (by simp)).2
  have hold : ∀ k : ClientKey, k.2 ≤ c.lastStream → r.1.streams k = c.streams k ∧ told k r.2 = [] := by
    intro k hk
    apply hother
    rintro rfl
    exact Nat.not_succ_le_self _ hk
  refine ⟨fun n hpos hle hbusy => ?_, fun k hbusy => ?_, fun k hk => ?_⟩
  · by_cases hn : n = c.lastStream + 1
    · subst hn
      simp only [update_self] at hbusy ⊢
      rw [hnew]
      exact live_of_settles hsettles (by simp)
    · rw [update_of_ne hn] at hbusy ⊢
      have hle' : n ≤ c.lastStream := by
        rw [hlast] at hle
        omega
      obtain ⟨hstreams, htold⟩ := hold (app n, n) hle'
      rw [htold, List.append_nil]
      rcases h.live n hpos hle' hbusy with ⟨stream, hs, hsink, hevents⟩ | ⟨before, e, hs, hevents, hend, hbefore⟩
      · exact .running stream (hstreams.trans hs) hsink hevents
      · exact .ended before e (hstreams.trans hs) hevents hend hbefore
  · obtain ⟨happ, hle, hsink⟩ := h.inside k hbusy
    rw [(hold k hle).1, update_of_ne (by omega)]
    exact ⟨happ, by omega, hsink⟩
  · have hne : k ≠ ((target call.to_).1, c.lastStream + 1) := by
      rintro rfl
      exact hk (by simp) (by simp [hlast]) (by simp)
    obtain ⟨hstreams, htold⟩ := hother k hne
    have hrest := h.rest k fun hpos hle => by
      have := hk hpos (by omega)
      rwa [update_of_ne (by omega)] at this
    exact ⟨hstreams.trans hrest.1, by rw [hrest.2, htold, List.append_nil]⟩

theorem respondWith_silent (host : HostOp → Answer) (writer : ResponseWriter) (reply : Reply) (s : Server)
    (k : ClientKey) :
    told k (Server.respondWith host writer reply.status reply.headers reply.body s).2.1 = [] := by
  unfold Server.respondWith
  simp only
  split
  · rfl
  · exact server_flushLoop_silent host _ _ _ k

theorem Good.perform (h : Good busy sdk.clients T app) (host : HostOp → Answer) (act : AppAct) :
    ∃ app', Good busy (act.perform host sdk).1.clients (fun k => T k ++ told k (act.perform host sdk).2) app' := by
  cases act with
  | open_ call => exact ⟨_, h.opens host call⟩
  | cancel k => exact ⟨app, h.cancel host k⟩
  | respond writer reply =>
      refine ⟨app, ?_⟩
      have hsilent := respondWith_silent host writer reply sdk.server
      simpa [AppAct.perform, hsilent] using h

theorem Good.performs (h : Good busy sdk.clients T app) (host : HostOp → Answer) (acts : List AppAct) :
    ∃ app', Good busy (performAll host acts sdk).1.clients (fun k => T k ++ told k (performAll host acts sdk).2) app' := by
  induction acts generalizing sdk T app with
  | nil => exact ⟨app, by simpa [performAll] using h⟩
  | cons act acts ih =>
      obtain ⟨app', h'⟩ := h.perform host act
      obtain ⟨app'', h''⟩ := ih h'
      exact ⟨app'', by simpa [performAll] using h''⟩

theorem perform_alone (host : HostOp → Answer) {act : AppAct} (hk : k.2 ≤ sdk.clients.lastStream) (hact : act ≠ .cancel k) :
    (act.perform host sdk).1.clients.streams k = sdk.clients.streams k ∧ told k (act.perform host sdk).2 = [] ∧
      k.2 ≤ (act.perform host sdk).1.clients.lastStream := by
  cases act with
  | open_ call =>
      obtain ⟨hlast, hother, -⟩ := open_spec host call sdk.clients
      have hne : k ≠ ((target call.to_).1, sdk.clients.lastStream + 1) := by
        rintro rfl
        exact Nat.not_succ_le_self _ hk
      obtain ⟨hstreams, htold⟩ := hother k hne
      exact ⟨hstreams, htold, Nat.le_trans hk (by simp [AppAct.perform, hlast])⟩
  | cancel k' =>
      obtain ⟨honly, -, -⟩ := cancel_spec host k' sdk.clients
      have hne : k ≠ k' := by
        rintro rfl
        exact hact rfl
      exact ⟨honly.streams k hne, honly.silent k hne, honly.last ▸ hk⟩
  | respond writer reply => exact ⟨rfl, respondWith_silent host writer reply sdk.server k, hk⟩

theorem performAll_alone (host : HostOp → Answer) (hk : k.2 ≤ sdk.clients.lastStream) (hacts : .cancel k ∉ acts) :
    (performAll host acts sdk).1.clients.streams k = sdk.clients.streams k ∧
      told k (performAll host acts sdk).2 = [] := by
  induction acts generalizing sdk with
  | nil => exact ⟨rfl, rfl⟩
  | cons act acts ih =>
      simp only [List.mem_cons, not_or] at hacts
      obtain ⟨hstreams, htold, hle⟩ := perform_alone host hk fun h => hacts.1 h.symm
      obtain ⟨hstreams', htold'⟩ := ih hle hacts.2
      exact ⟨hstreams'.trans hstreams, by simp [performAll, htold, htold']⟩

theorem perform_silent (host : HostOp → Answer) (act : AppAct) (hk : k.2 ≤ sdk.clients.lastStream)
    (hsink : (sdk.clients.streams k).map Stream.sink ≠ some true) :
    told k (act.perform host sdk).2 = [] ∧ k.2 ≤ (act.perform host sdk).1.clients.lastStream ∧
      ((act.perform host sdk).1.clients.streams k).map Stream.sink ≠ some true := by
  by_cases hact : act = .cancel k
  · subst hact
    obtain ⟨honly, hnone, htold⟩ := cancel_spec host k sdk.clients
    refine ⟨htold.trans (if_neg hsink), honly.last ▸ hk, ?_⟩
    simp [AppAct.perform, hnone]
  · obtain ⟨hstreams, htold, hle⟩ := perform_alone host hk hact
    exact ⟨htold, hle, hstreams ▸ hsink⟩

theorem performAll_silent (host : HostOp → Answer) (acts : List AppAct) (hk : k.2 ≤ sdk.clients.lastStream)
    (hsink : (sdk.clients.streams k).map Stream.sink ≠ some true) : told k (performAll host acts sdk).2 = [] := by
  induction acts generalizing sdk with
  | nil => rfl
  | cons act acts ih =>
      obtain ⟨htold, hle, hsink'⟩ := perform_silent host act hk hsink
      simp [performAll, htold, ih hle hsink']

/-! ## Frames -/

theorem Good.take (h : Good none c T app) (hstream : c.streams k = some stream) :
    Good (some k) { c with streams := update c.streams k (some { stream with sink := false }) } T app := by
  have hset := onlyAt_set k c (some { stream with sink := false })
  obtain ⟨hpos, hle, hk⟩ := h.known hstream
  refine ⟨fun n hpos' hle' hbusy => ?_, fun k' hbusy => ?_, fun k' hk' => ?_⟩
  · have hne : (app n, n) ≠ k := fun heq => hbusy (by rw [heq])
    rcases h.live n hpos' hle' (by simp) with ⟨stream', hs, hsink, hevents⟩ | ⟨before, e, hs, hevents, hend, hbefore⟩
    · exact .running stream' ((hset.streams _ hne).trans hs) hsink hevents
    · exact .ended before e ((hset.streams _ hne).trans hs) hevents hend hbefore
  · obtain rfl := Option.some.inj hbusy
    exact ⟨⟨hpos, congrArg Prod.fst hk⟩, hle, by simp⟩
  · have hne : k' ≠ k := by
      rintro rfl
      exact hk' hpos hle (congrArg Prod.fst hk)
    exact ⟨(hset.streams _ hne).trans (h.rest k' hk').1, (h.rest k' hk').2⟩

theorem Good.release (h : Good (some k) c T app) (stream : Option Stream) {T' : ClientKey → List ClientEvent}
    (hother : ∀ k' ≠ k, T' k' = T k')
    (hlive : Live { c with streams := update c.streams k stream } (T' k) k) :
    Good none { c with streams := update c.streams k stream } T' app := by
  have hset := onlyAt_set k c stream
  obtain ⟨happ, hle, -⟩ := h.inside k rfl
  refine ⟨fun n hpos' hle' _ => ?_, nofun, fun k' hk' => ?_⟩
  · by_cases hne : (app n, n) = k
    · rw [hne]
      exact hlive
    · rw [hother _ hne]
      rcases h.live n hpos' hle' fun heq => hne (Option.some.inj heq).symm with
        ⟨stream', hs, hsink, hevents⟩ | ⟨before, e, hs, hevents, hend, hbefore⟩
      · exact .running stream' ((hset.streams _ hne).trans hs) hsink hevents
      · exact .ended before e ((hset.streams _ hne).trans hs) hevents hend hbefore
  · by_cases hne : k' = k
    · subst hne
      exact absurd happ.2 (hk' happ.1 hle)
    · rw [hother _ hne]
      exact ⟨(hset.streams _ hne).trans (h.rest k' hk').1, (h.rest k' hk').2⟩

theorem Good.deliver (h : Good none sdk.clients T app) (host : HostOp → Answer) (acts : List AppAct)
    (hstream : sdk.clients.streams k = some stream) (event : ClientEvent) (hacts : event.ends = false → .cancel k ∉ acts) :
    let r := Clients.deliver (.acting host acts) k event event.ends sdk
    ∃ app', Good none r.1.clients (fun k' => T k' ++ told k' r.2) app' := by
  intro r
  obtain ⟨hsink, hevents⟩ := h.live_of (by simp) hstream
  obtain ⟨-, hle, -⟩ := h.known hstream
  let taken : Sdk :=
    { sdk with clients := { sdk.clients with streams := update sdk.clients.streams k (some { stream with sink := false }) } }
  obtain ⟨app', h'⟩ : ∃ app', Good (some k) (performAll host acts taken).1.clients
      (fun k' => T k' ++ told k' (performAll host acts taken).2) app' := (h.take hstream).performs host acts
  have hsilent : told k (performAll host acts taken).2 = [] := performAll_silent host acts hle (by simp [taken])
  have hother : ∀ k' ≠ k, T k' ++ told k' (.sink k event :: (performAll host acts taken).2) =
      T k' ++ told k' (performAll host acts taken).2 := by
    intro k' hk
    rw [told_sink, if_neg hk.symm, List.nil_append]
  have hgiven : T k ++ told k (.sink k event :: (performAll host acts taken).2) = T k ++ [event] := by
    rw [told_sink, if_pos rfl, hsilent, List.append_nil]
  cases hend : event.ends with
  | true =>
      have heq : r = ({ (performAll host acts taken).1 with
          clients := { (performAll host acts taken).1.clients with
            streams := update (performAll host acts taken).1.clients.streams k none } },
          .sink k event :: (performAll host acts taken).2) := by
        simp [r, Clients.deliver, hstream, hsink, hend, App.acting, taken]
      rw [heq]
      refine ⟨app', h'.release none hother ?_⟩
      rw [hgiven]
      exact .ended (T k) event (update_self ..) rfl hend hevents
  | false =>
      have hle' : k.2 ≤ taken.clients.lastStream := hle
      have halone := (performAll_alone host hle' (hacts hend)).1
      have hkept : (performAll host acts taken).1.clients.streams k = some { stream with sink := false } :=
        halone.trans (update_self ..)
      have heq : r = ({ (performAll host acts taken).1 with
          clients := { (performAll host acts taken).1.clients with
            streams := update (performAll host acts taken).1.clients.streams k (some { stream with sink := true }) } },
          .sink k event :: (performAll host acts taken).2) := by
        simp [r, Clients.deliver, hstream, hsink, hend, App.acting, taken, hkept]
      rw [heq]
      refine ⟨app', h'.release _ hother ?_⟩
      rw [hgiven]
      refine .running _ (update_self ..) rfl fun e he => ?_
      rcases List.mem_append.mp he with he | he
      · exact hevents e he
      · rw [List.mem_singleton.mp he]
        exact hend

theorem Good.clients_onFrame (h : Good none sdk.clients T app) (host : HostOp → Answer)
    (hacts : frame.kind.streams = true → .cancel (from_.appId, frame.stream) ∉ acts) :
    let r := Clients.onFrame host (.acting host acts) from_ frame sdk
    ∃ app', Good none r.1.clients (fun k => T k ++ told k r.2.1) app' := by
  intro r
  obtain ⟨v, n, kind⟩ := frame
  cases hstream : sdk.clients.streams (from_.appId, n) with
  | none => exact ⟨app, by simpa [r, Clients.onFrame, hstream] using h⟩
  | some stream =>
      cases kind with
      | requestHead head => exact ⟨app, by simpa [r, Clients.onFrame, hstream] using h⟩
      | responseHead head =>
          obtain ⟨app', h'⟩ := h.deliver host acts hstream (.head head from_.via) fun _ => hacts rfl
          exact ⟨app', by simpa [r, Clients.onFrame, hstream, ClientEvent.ends] using h'⟩
      | body bytes =>
          obtain ⟨app', h'⟩ := h.deliver host acts hstream (.body bytes) fun _ => hacts rfl
          exact ⟨app', by simpa [r, Clients.onFrame, hstream, ClientEvent.ends] using h'⟩
      | end_ =>
          obtain ⟨app', h'⟩ := h.deliver host acts hstream .end_ (by rintro ⟨⟩)
          exact ⟨app', by simpa [r, Clients.onFrame, hstream, ClientEvent.ends] using h'⟩
      | cancel reason =>
          obtain ⟨app', h'⟩ := h.deliver host acts hstream (.failed (refusalOf reason)) (by rintro ⟨⟩)
          exact ⟨app', by simpa [r, Clients.onFrame, hstream, ClientEvent.ends] using h'⟩
      | credit m =>
          refine ⟨app, ?_⟩
          simp only [r, Clients.onFrame, hstream]
          let granted : Clients :=
            { sdk.clients with
              streams := update sdk.clients.streams (from_.appId, n)
                (some { stream with outbox := stream.outbox.grant m }) }
          obtain ⟨honly, hsettles⟩ := flush_spec host (from_.appId, n) granted
          obtain ⟨hsink, hevents⟩ := h.live_of (by simp) hstream
          have hfresh := hsettles _ (update_self ..)
          simp only [hsink] at hfresh
          exact h.move ((onlyAt_set (from_.appId, n) sdk.clients _).trans honly) hstream
            (fun _ => live_of_settles hfresh hevents) (by rintro ⟨⟩)

theorem server_onFrame_acting (host : HostOp → Answer) (acts : List AppAct) (from_ : Caller) (frame : IhttpFrame)
    (sdk : Sdk) :
    let r := Server.onFrame host (.acting host acts) from_ frame sdk
    (∃ sdk' acts', sdk'.clients = sdk.clients ∧ r.1.clients = (performAll host acts' sdk').1.clients ∧
        ∀ k, told k r.2.1 = told k (performAll host acts' sdk').2) ∧
      ∀ back, r.2.2 = some back → back = (from_, .new frame.stream frame.kind) ∧ r.1 = sdk ∧ r.2.1 = [] ∧
        (frame.kind.isRequestHead = true ∨ frame.kind.isResponseHead = true) := by
  obtain ⟨v, n, kind⟩ := frame
  have hnothing : ∀ {sdk' : Sdk} {effects : List Effect}, sdk'.clients = sdk.clients → (∀ k, told k effects = []) →
      ∃ sdk'' acts', sdk''.clients = sdk.clients ∧ sdk'.clients = (performAll host acts' sdk'').1.clients ∧
        ∀ k, told k effects = told k (performAll host acts' sdk'').2 :=
    fun hclients hsilent => ⟨sdk, [], rfl, hclients, hsilent⟩
  cases kind with
  | requestHead head =>
      simp only [Server.onFrame]
      split
      · exact ⟨hnothing rfl fun _ => rfl, fun back h => ⟨(Option.some.inj h).symm, rfl, rfl, Or.inl rfl⟩⟩
      · exact ⟨hnothing rfl fun _ => rfl, by rintro _ ⟨⟩⟩
  | responseHead head =>
      exact ⟨hnothing rfl fun _ => rfl, fun back h => ⟨(Option.some.inj h).symm, rfl, rfl, Or.inr rfl⟩⟩
  | body bytes =>
      simp only [Server.onFrame]
      split
      · exact ⟨hnothing rfl fun _ => rfl, by rintro _ ⟨⟩⟩
      · exact ⟨hnothing rfl fun k => told_watch k host _ _, by rintro _ ⟨⟩⟩
  | end_ =>
      refine ⟨?_, by rintro _ ⟨⟩⟩
      simp only [Server.onFrame, Server.complete]
      split
      · exact hnothing rfl fun _ => rfl
      · split
        · exact hnothing rfl fun _ => rfl
        · let running : Sdk :=
            { sdk with
              server := { sdk.server with
                handler := false
                incoming := update sdk.server.incoming (key from_ n) none
                outgoing := update sdk.server.outgoing (key from_ n) (some ⟨from_, .new⟩) } }
          exact ⟨running, acts, rfl, rfl, fun _ => rfl⟩
  | cancel reason => exact ⟨hnothing rfl fun _ => rfl, by rintro _ ⟨⟩⟩
  | credit m =>
      refine ⟨hnothing rfl fun k => ?_, by rintro _ ⟨⟩⟩
      simp only [Server.onFrame, told_append]
      rw [Server.flush, server_flushLoop_silent]
      cases (Server.flushLoop host _ _ _).2.2 <;> rfl

theorem Good.onFrame (h : Good none sdk.clients T app) (host : HostOp → Answer)
    (hacts : sdk.reaches from_ frame = true → frame.kind.streams = true → .cancel (from_.appId, frame.stream) ∉ acts) :
    let r := Ihttp.onFrame host (.acting host acts) from_ frame sdk
    ∃ app', Good none r.1.clients (fun k => T k ++ told k r.2.1) app' := by
  simp only [Ihttp.onFrame]
  obtain ⟨⟨sdk', acts', hclients, hserved, htold⟩, hback⟩ := server_onFrame_acting host acts from_ frame sdk
  split
  · rcases hserver : Server.onFrame host (.acting host acts) from_ frame sdk with ⟨sdk'', effects, _ | ⟨from', frame'⟩⟩
    · rw [hserver] at hserved htold
      obtain ⟨app', h'⟩ := Good.performs (hclients ▸ h : Good none sdk'.clients T app) host acts'
      refine ⟨app', ?_⟩
      simp only at hserved htold ⊢
      simp only [hserved, htold]
      exact h'
    · -- given back: it is a response's head, or it is none of the calling side's
      rw [hserver] at hback
      obtain ⟨heq, hsdk, heffects, hkind⟩ := hback _ rfl
      obtain ⟨rfl, rfl⟩ := Prod.mk.inj heq
      simp only at hsdk heffects ⊢
      subst hsdk heffects
      simp only [List.nil_append]
      apply h.clients_onFrame host
      intro hstreams
      refine hacts ?_ hstreams
      rcases hkind with hkind | hkind
      · cases hk : frame.kind <;> simp_all [FrameKind.isRequestHead, FrameKind.streams, IhttpFrame.new]
      · cases hk : frame.kind <;> simp_all [FrameKind.isResponseHead, Sdk.reaches, FrameKind.isRequestHead]
  · rename_i hnot
    simp only [not_or, Bool.not_eq_true] at hnot
    apply h.clients_onFrame host
    intro hstreams
    exact hacts (by simp [Sdk.reaches, hnot]) hstreams

/-! ## Sinks now and sinks later -/

/-- The events of the stream `k` among some. -/
def eventsOf (k : ClientKey) (events : List (ClientKey × ClientEvent)) : List ClientEvent :=
  events.filterMap fun e => if e.1 = k then some e.2 else none

theorem eventsOf_append (k : ClientKey) (l l' : List (ClientKey × ClientEvent)) :
    eventsOf k (l ++ l') = eventsOf k l ++ eventsOf k l' := List.filterMap_append

theorem told_eq_queued (h : eventsOf k (effects.filterMap Effect.gave) = []) :
    told k effects = eventsOf k (effects.filterMap Effect.queued) := by
  induction effects with
  | nil => rfl
  | cons e effects ih =>
      cases e with
      | host op => exact ih h
      | handler request w => exact ih h
      | note what refused => exact ih h
      | sink k' event =>
          by_cases hk : k' = k
          · simp [Effect.gave, eventsOf, hk] at h
          · rw [told_sink, if_neg hk, List.nil_append]
            exact ih (by simpa [Effect.gave, eventsOf, hk] using h)
      | spawned k' event =>
          rw [told_spawned, ih h]
          by_cases hk : k' = k <;> simp [Effect.queued, eventsOf, hk]

theorem told_eq_gave (h : eventsOf k (effects.filterMap Effect.queued) = []) :
    told k effects = eventsOf k (effects.filterMap Effect.gave) := by
  induction effects with
  | nil => rfl
  | cons e effects ih =>
      cases e with
      | host op => exact ih h
      | handler request w => exact ih h
      | note what refused => exact ih h
      | sink k' event =>
          rw [told_sink, ih h]
          by_cases hk : k' = k <;> simp [Effect.gave, eventsOf, hk]
      | spawned k' event =>
          by_cases hk : k' = k
          · simp [Effect.queued, eventsOf, hk] at h
          · rw [told_spawned, if_neg hk, List.nil_append]
            exact ih (by simpa [Effect.queued, eventsOf, hk] using h)

theorem queued_nil (h : told k effects = []) : eventsOf k (effects.filterMap Effect.queued) = [] := by
  induction effects with
  | nil => rfl
  | cons e effects ih =>
      cases e with
      | host op => exact ih h
      | handler request w => exact ih h
      | note what refused => exact ih h
      | sink k' event =>
          rw [told_sink, List.append_eq_nil_iff] at h
          exact ih h.2
      | spawned k' event =>
          rw [told_spawned, List.append_eq_nil_iff] at h
          by_cases hk : k' = k
          · simp [hk] at h
          · simpa [Effect.queued, eventsOf, hk] using ih h.2

/-- An effect that runs no sink, and queues one with an end only. -/
def Effect.Later (e : Effect) : Prop := e.gave = none ∧ ∀ q ∈ e.queued, q.2.ends = true

theorem later_host (op : HostOp) : (Effect.host op).Later := ⟨rfl, nofun⟩

theorem later_note (what : String) (e : Refused) : (Effect.note what e).Later := ⟨rfl, nofun⟩

theorem later_failed (k : ClientKey) (e : Refused) : (Effect.spawned k (.failed e)).Later :=
  ⟨rfl, by simp [Effect.queued, ClientEvent.ends]⟩

theorem later_gave (h : ∀ e ∈ effects, e.Later) : effects.filterMap Effect.gave = [] :=
  List.filterMap_eq_nil_iff.mpr fun e he => (h e he).1

theorem finish_later (k : ClientKey) (e : Refused) (c : Clients) :
    ∀ x ∈ (Clients.finish k (.failed e) c).2, x.Later := by
  unfold Clients.finish
  split
  · simp
  · simp only
    split
    · simpa using later_failed k e
    · simp

theorem flushLoop_later (host : HostOp → Answer) (k : ClientKey) (fuel : Nat) (c : Clients) :
    ∀ x ∈ (Clients.flushLoop host k fuel c).2, x.Later := by
  induction fuel generalizing c with
  | zero => simp [Clients.flushLoop]
  | succ fuel ih =>
      unfold Clients.flushLoop
      split
      · simp
      · split
        · simp
        · simp only
          split
          · exact List.forall_mem_cons.mpr ⟨later_host _, finish_later _ _ _⟩
          · exact List.forall_mem_cons.mpr ⟨later_host _, ih _⟩

theorem server_flushLoop_later (host : HostOp → Answer) (k : ServerKey) (fuel : Nat) (s : Server) :
    ∀ x ∈ (Server.flushLoop host k fuel s).2.1, x.Later := by
  induction fuel generalizing s with
  | zero => simp [Server.flushLoop]
  | succ fuel ih =>
      unfold Server.flushLoop
      split
      · simp
      · split
        · simp
        · simp only
          split
          · simpa using later_host _
          · split
            · simpa using later_host _
            · exact List.forall_mem_cons.mpr ⟨later_host _, ih _⟩

theorem watch_later (host : HostOp → Answer) (what : String) (op : HostOp) : ∀ x ∈ watch host what op, x.Later := by
  unfold watch
  split
  · exact List.forall_mem_cons.mpr ⟨later_host _, by simpa using later_note _ _⟩
  · simpa using later_host _

theorem perform_later (host : HostOp → Answer) (act : AppAct) (sdk : Sdk) :
    ∀ x ∈ (act.perform host sdk).2, x.Later := by
  cases act with
  | open_ call => exact flushLoop_later host _ _ _
  | cancel k =>
      simp only [AppAct.perform, Clients.cancel]
      split
      · simp
      · exact List.forall_mem_append.mpr ⟨watch_later host _ _, finish_later _ _ _⟩
  | respond writer reply =>
      simp only [AppAct.perform, Server.respondWith]
      split
      · simp
      · exact server_flushLoop_later host _ _ _

theorem performAll_later (host : HostOp → Answer) (acts : List AppAct) (sdk : Sdk) :
    ∀ x ∈ (performAll host acts sdk).2, x.Later := by
  induction acts generalizing sdk with
  | nil => simp [performAll]
  | cons act acts ih => exact List.forall_mem_append.mpr ⟨perform_later host act sdk, ih _⟩

theorem server_onFrame_later (host : HostOp → Answer) (acts : List AppAct) (from_ : Caller) (frame : IhttpFrame)
    (sdk : Sdk) : ∀ x ∈ (Server.onFrame host (.acting host acts) from_ frame sdk).2.1, x.Later := by
  have hother : ∀ {x : Effect}, x.gave = none → x.queued = none → x.Later :=
    fun hgave hqueued => ⟨hgave, by simp [hqueued]⟩
  obtain ⟨v, n, kind⟩ := frame
  cases kind with
  | requestHead head =>
      simp only [Server.onFrame]
      split <;> simp
  | responseHead head => simp [Server.onFrame]
  | body bytes =>
      simp only [Server.onFrame]
      split
      · simp
      · exact watch_later host _ _
  | end_ =>
      simp only [Server.onFrame, Server.complete]
      split
      · simp
      · split
        · simp
        · exact List.forall_mem_cons.mpr ⟨hother rfl rfl, performAll_later host acts _⟩
  | cancel reason => simp [Server.onFrame]
  | credit m =>
      refine List.forall_mem_append.mpr ⟨server_flushLoop_later host _ _ _, fun x hx => ?_⟩
      obtain ⟨e, -, rfl⟩ := List.mem_map.mp hx
      exact hother rfl rfl

/-- At most one sink runs for a frame: that of its stream, for which nothing is queued then. -/
def OneSink (sdk : Sdk) (k : ClientKey) (effects : List Effect) : Prop :=
  effects.filterMap Effect.gave = [] ∨
    ∃ event stream, sdk.clients.streams k = some stream ∧ effects.filterMap Effect.gave = [(k, event)] ∧
      eventsOf k (effects.filterMap Effect.queued) = []

theorem deliver_oneSink (host : HostOp → Answer) (acts : List AppAct)
    (hle : ∀ stream, sdk.clients.streams k = some stream → k.2 ≤ sdk.clients.lastStream) (event : ClientEvent)
    (last : Bool) : OneSink sdk k (Clients.deliver (.acting host acts) k event last sdk).2 := by
  cases hstream : sdk.clients.streams k with
  | none =>
      left
      simp [Clients.deliver, hstream]
  | some stream =>
      cases hsink : stream.sink with
      | false =>
          left
          simp [Clients.deliver, hstream, hsink]
      | true =>
          let taken : Sdk :=
            { sdk with
              clients := { sdk.clients with streams := update sdk.clients.streams k (some { stream with sink := false }) } }
          have heffects : (Clients.deliver (.acting host acts) k event last sdk).2 =
              .sink k event :: (performAll host acts taken).2 := by
            simp [Clients.deliver, hstream, hsink, App.acting, taken]
          have hle' : k.2 ≤ taken.clients.lastStream := hle stream hstream
          have hsilent := performAll_silent host acts hle' (by simp [taken])
          right
          refine ⟨event, stream, hstream, ?_, ?_⟩
          · rw [heffects]
            simp [Effect.gave, later_gave (performAll_later host acts taken)]
          · rw [heffects, List.filterMap_cons_none rfl]
            exact queued_nil hsilent

theorem onFrame_oneSink (host : HostOp → Answer) (acts : List AppAct)
    (hle : ∀ stream, sdk.clients.streams (from_.appId, frame.stream) = some stream → frame.stream ≤ sdk.clients.lastStream) :
    OneSink sdk (from_.appId, frame.stream) (onFrame host (.acting host acts) from_ frame sdk).2.1 := by
  have hclients : ∀ v kind, OneSink sdk (from_.appId, frame.stream)
      (Clients.onFrame host (.acting host acts) from_ ⟨v, frame.stream, kind⟩ sdk).2.1 := by
    intro v kind
    cases hstream : sdk.clients.streams (from_.appId, frame.stream) with
    | none =>
        left
        simp [Clients.onFrame, hstream]
    | some stream =>
        cases kind with
        | requestHead head =>
            left
            simp [Clients.onFrame, hstream]
        | responseHead head => simpa [Clients.onFrame, hstream] using deliver_oneSink host acts hle _ false
        | body bytes =>
            have hone := deliver_oneSink host acts hle (.body bytes) false
            have hgave := later_gave (watch_later host "ihttp consumed" (.consumed from_ frame.stream))
            have hqueued : (watch host "ihttp consumed" (.consumed from_ frame.stream)).filterMap Effect.queued = [] := by
              unfold watch
              split <;> rfl
            simpa [OneSink, Clients.onFrame, hstream, List.filterMap_append, hgave, hqueued] using hone
        | end_ => simpa [Clients.onFrame, hstream] using deliver_oneSink host acts hle _ true
        | cancel reason => simpa [Clients.onFrame, hstream] using deliver_oneSink host acts hle _ true
        | credit m =>
            left
            simp only [Clients.onFrame, hstream]
            exact later_gave (flushLoop_later host _ _ _)
  unfold onFrame
  split
  · obtain ⟨-, hback⟩ := server_onFrame_acting host acts from_ frame sdk
    have hlater := later_gave (server_onFrame_later host acts from_ frame sdk)
    rcases hserver : Server.onFrame host (.acting host acts) from_ frame sdk with ⟨sdk', effects, _ | ⟨from', frame'⟩⟩
    · left
      simpa [hserver] using hlater
    · rw [hserver] at hback
      obtain ⟨heq, hsdk, heffects, -⟩ := hback _ rfl
      obtain ⟨rfl, rfl⟩ := Prod.mk.inj heq
      simp only at hsdk heffects ⊢
      subst hsdk heffects
      exact hclients 1 frame.kind
  · exact hclients frame.v frame.kind

def Effect.QueuesEnd (e : Effect) : Prop := ∀ q ∈ e.queued, q.2.ends = true

theorem deliver_queuesEnd (host : HostOp → Answer) (acts : List AppAct) (k : ClientKey) (event : ClientEvent)
    (last : Bool) (sdk : Sdk) : ∀ x ∈ (Clients.deliver (.acting host acts) k event last sdk).2, x.QueuesEnd := by
  simp only [Clients.deliver]
  split
  · simp
  · split
    · simp
    · refine List.forall_mem_cons.mpr ⟨by rintro q ⟨⟩, fun x hx => ?_⟩
      exact (performAll_later host acts _ x hx).2

theorem onFrame_queuesEnd (host : HostOp → Answer) (acts : List AppAct) (from_ : Caller) (frame : IhttpFrame)
    (sdk : Sdk) : ∀ x ∈ (onFrame host (.acting host acts) from_ frame sdk).2.1, x.QueuesEnd := by
  have hclients : ∀ from' frame' sdk', ∀ x ∈ (Clients.onFrame host (.acting host acts) from' frame' sdk').2.1,
      x.QueuesEnd := by
    intro from' frame' sdk'
    obtain ⟨v, n, kind⟩ := frame'
    cases hstream : sdk'.clients.streams (from'.appId, n) with
    | none => simp [Clients.onFrame, hstream]
    | some stream =>
        cases kind with
        | requestHead head => simp [Clients.onFrame, hstream]
        | responseHead head =>
            simp only [Clients.onFrame, hstream]
            exact deliver_queuesEnd host acts _ _ _ _
        | body bytes =>
            simp only [Clients.onFrame, hstream]
            refine List.forall_mem_append.mpr ⟨deliver_queuesEnd host acts _ _ _ _, fun x hx => ?_⟩
            exact (watch_later host _ _ x hx).2
        | end_ =>
            simp only [Clients.onFrame, hstream]
            exact deliver_queuesEnd host acts _ _ _ _
        | cancel reason =>
            simp only [Clients.onFrame, hstream]
            exact deliver_queuesEnd host acts _ _ _ _
        | credit m =>
            simp only [Clients.onFrame, hstream]
            exact fun x hx => (flushLoop_later host _ _ _ x hx).2
  have hserver := server_onFrame_later host acts from_ frame sdk
  unfold onFrame
  split
  · rcases h : Server.onFrame host (.acting host acts) from_ frame sdk with ⟨sdk', effects, _ | ⟨from', frame'⟩⟩
    · rw [h] at hserver
      exact fun x hx => (hserver x hx).2
    · rw [h] at hserver
      exact List.forall_mem_append.mpr ⟨fun x hx => (hserver x hx).2, hclients _ _ _⟩
  · exact hclients _ _ _

theorem Desk.after_events {d : Desk} {k₀ : ClientKey} (hone : OneSink d.sdk k₀ effects)
    (hready : ∀ stream, d.sdk.clients.streams k₀ = some stream → eventsOf k₀ d.ready = []) (k : ClientKey) :
    (d.after sdk effects).events k = d.events k ++ told k effects := by
  have hevents : (d.after sdk effects).events k =
      eventsOf k d.given ++ eventsOf k (effects.filterMap Effect.gave) ++ eventsOf k d.ready ++
        eventsOf k (effects.filterMap Effect.queued) := by
    show eventsOf k (d.given ++ effects.filterMap Effect.gave ++ (d.ready ++ effects.filterMap Effect.queued)) = _
    simp only [eventsOf_append, List.append_assoc]
  have hbefore : d.events k = eventsOf k d.given ++ eventsOf k d.ready := eventsOf_append k d.given d.ready
  rw [hevents, hbefore]
  rcases hone with hnone | ⟨event, stream, hstream, hgave, hqueued⟩
  · have hnil : eventsOf k (effects.filterMap Effect.gave) = [] := by
      rw [hnone]
      rfl
    rw [told_eq_queued hnil, hnil, List.append_nil]
  · by_cases hk : k = k₀
    · subst hk
      rw [told_eq_gave hqueued, hqueued, hready stream hstream]
      simp
    · have hnil : eventsOf k (effects.filterMap Effect.gave) = [] := by
        rw [hgave]
        simp [eventsOf, Ne.symm hk]
      rw [told_eq_queued hnil, hnil, List.append_nil]

/-! ## Whole runs -/

/-- The calls of the instance are in order, and only ends are queued. -/
def Desk.Ok (d : Desk) : Prop :=
  (∃ app, Good none d.sdk.clients d.events app) ∧ ∀ e ∈ d.ready, e.2.ends = true

theorem Desk.Ok.idle {d : Desk} (h : d.Ok) (hstream : d.sdk.clients.streams k = some stream) :
    eventsOf k d.ready = [] := by
  obtain ⟨⟨app, hgood⟩, hready⟩ := h
  have hevents := (hgood.live_of (by simp) hstream).2
  rw [List.eq_nil_iff_forall_not_mem]
  intro event hevent
  obtain ⟨⟨k', event'⟩, hmem, hsome⟩ := List.mem_filterMap.mp hevent
  have hends : event.ends = true := by
    split at hsome
    · exact Option.some.inj hsome ▸ hready _ hmem
    · cases hsome
  have hnot := hevents event (by
    rw [Desk.events, List.filterMap_append]
    exact List.mem_append_right _ hevent)
  simp [hends] at hnot

theorem Desk.Ok.after {d : Desk} (h : d.Ok) {k₀ : ClientKey} (hone : OneSink d.sdk k₀ effects)
    (hqueue : ∀ x ∈ effects, x.QueuesEnd)
    (hgood : ∃ app', Good none sdk.clients (fun k => d.events k ++ told k effects) app') : (d.after sdk effects).Ok := by
  have hevents : (d.after sdk effects).events = fun k => d.events k ++ told k effects := by
    funext k
    exact Desk.after_events hone (fun _ hstream => h.idle hstream) k
  refine ⟨?_, fun q hq => ?_⟩
  · rw [hevents]
    exact hgood
  · rcases List.mem_append.mp hq with hq | hq
    · exact h.2 q hq
    · obtain ⟨x, hx, hsome⟩ := List.mem_filterMap.mp hq
      exact hqueue x hx q hsome

theorem Desk.Ok.after_later {d : Desk} (h : d.Ok) (hlater : ∀ x ∈ effects, x.Later)
    (hgood : ∃ app', Good none sdk.clients (fun k => d.events k ++ told k effects) app') : (d.after sdk effects).Ok :=
  h.after (.inl (later_gave hlater) : OneSink d.sdk ("", 0) effects) (fun x hx => (hlater x hx).2) hgood

theorem Desk.Ok.step {d : Desk} (h : d.Ok) (host : HostOp → Answer) {act : DeskAct} (hact : d.CancelledOutside act) :
    (d.step host act).Ok := by
  have hidle := h
  obtain ⟨⟨app, hgood⟩, hready⟩ := h
  cases act with
  | frame from_ frame inside =>
      refine hidle.after (onFrame_oneSink host inside fun stream hstream => ?_) (onFrame_queuesEnd host inside _ _ _)
        (hgood.onFrame host hact)
      exact (hgood.known hstream).2.1
  | app act => exact hidle.after_later (perform_later host act d.sdk) (hgood.perform host act)
  | refusedLater k e =>
      refine hidle.after_later (List.forall_mem_cons.mpr ⟨later_note _ _, finish_later k e _⟩) ⟨app, ?_⟩
      simpa only [told_note] using hgood.finish k e
  | ready inside =>
      simp only [Desk.step]
      split
      · exact hidle
      · next next rest hnext =>
          -- the sink that runs moves from what is queued to what was given
          have hmoved : Desk.Ok ⟨d.sdk, rest, d.given ++ [next]⟩ := by
            refine ⟨⟨app, ?_⟩, fun q hq => hready q (by simp [hnext, hq])⟩
            have hevents : Desk.events ⟨d.sdk, rest, d.given ++ [next]⟩ = d.events := by
              funext k
              simp [Desk.events, hnext]
            rw [hevents]
            exact hgood
          obtain ⟨app', hgood'⟩ := hmoved.1
          exact hmoved.after_later (performAll_later host inside d.sdk) (hgood'.performs host inside)

theorem Desk.Ok.start (server : Server) : Desk.Ok ⟨⟨server, ⟨0, fun _ => none⟩⟩, [], []⟩ := by
  refine ⟨⟨fun _ => "", fun n hpos hle => ?_, fun k hbusy => (nomatch hbusy), fun k _ => ⟨rfl, rfl⟩⟩, by simp⟩
  exact absurd hle (by simp; omega)

theorem DeskRun.ok {d : Desk} (h : DeskRun Desk.CancelledOutside d) : d.Ok := by
  induction h with
  | start server => exact .start server
  | step host act _ hact ih => exact ih.step host hact

/-- Every call an instance has opened, named by the number of its stream, ends once and with one event. -/
theorem ends_once {d : Desk} (h : DeskRun Desk.CancelledOutside d) (n : Nat) (hpos : 0 < n)
    (hle : n ≤ d.sdk.clients.lastStream) : ∃ appId, d.IsCall (appId, n) ∧ EndsOnce d (appId, n) := by
  obtain ⟨⟨app, hgood⟩, -⟩ := h.ok
  refine ⟨app n, ⟨hpos, hle, fun appId hne => hgood.rest (appId, n) fun _ _ => hne⟩, ?_⟩
  rcases hgood.live n hpos hle (by simp) with ⟨stream, hstream, -, hevents⟩ | ⟨before, e, hnone, hevents, hend, hbefore⟩
  · refine ⟨fun e he => hevents e (List.dropLast_subset _ he), fun hnone => ?_⟩
    simp [hstream] at hnone
  · refine ⟨?_, fun _ => ⟨e, by simp [hevents], hend⟩⟩
    simpa [hevents] using hbefore

def bobCalled : Desk :=
  Desk.step (accepting fun _ => true) ⟨⟨⟨false, fun _ => none, fun _ => none⟩, ⟨0, fun _ => none⟩⟩, [], []⟩
    (.app (.open_ ⟨.user "pool" "bob", .relay, ⟨.get, "/jobs", "", [], []⟩⟩))

def bobAnswers (kind : FrameKind) (inside : List AppAct) : Desk :=
  bobCalled.step (accepting fun _ => true) (.frame (poolMember "bob" 2) (.new 1 kind) inside)

theorem bobAnswers_run {condition : Desk → DeskAct → Prop} (happ : ∀ d act, condition d (.app act)) (kind : FrameKind)
    (inside : List AppAct) (h : condition bobCalled (.frame (poolMember "bob" 2) (.new 1 kind) inside)) :
    DeskRun condition (bobAnswers kind inside) := .step _ _ (.step _ _ (.start _) (happ _ _)) h

/-- Bob's last frame, in which the app cancels the call although it has just ended. -/
theorem ends_once_cancelled :
    ∃ appId, (bobAnswers .end_ [.cancel ("pool", 1)]).IsCall (appId, 1) ∧
      EndsOnce (bobAnswers .end_ [.cancel ("pool", 1)]) (appId, 1) := by
  apply ends_once (bobAnswers_run (fun _ _ => trivial) _ _ ?_) 1 Nat.one_pos (by decide +kernel)
  intro _ hstreams
  simp [IhttpFrame.new, FrameKind.streams] at hstreams

/-- A call cancelled from its own sink while it is given the response's head: the stream is gone and no end comes. -/
theorem hung_by_its_sink :
    DeskRun (fun _ _ => True) (bobAnswers (.responseHead ⟨200, [], some 0⟩) [.cancel ("pool", 1)]) ∧
      1 ≤ (bobAnswers (.responseHead ⟨200, [], some 0⟩) [.cancel ("pool", 1)]).sdk.clients.lastStream ∧
      ¬ ∃ appId, (bobAnswers (.responseHead ⟨200, [], some 0⟩) [.cancel ("pool", 1)]).IsCall (appId, 1) ∧
        EndsOnce (bobAnswers (.responseHead ⟨200, [], some 0⟩) [.cancel ("pool", 1)]) (appId, 1) := by
  refine ⟨bobAnswers_run (fun _ _ => trivial) _ _ trivial, by decide +kernel, ?_⟩
  rintro ⟨appId, hcall, h⟩
  have hevents : (bobAnswers (.responseHead ⟨200, [], some 0⟩) [.cancel ("pool", 1)]).events ("pool", 1) =
      [.head ⟨200, [], some 0⟩ .relay] := by
    decide +kernel
  by_cases happ : appId = "pool"
  · subst happ
    obtain ⟨e, hlast, hend⟩ := h.ended (by decide +kernel)
    rw [hevents] at hlast
    obtain rfl := Option.some.inj hlast
    simp [ClientEvent.ends] at hend
  · have hnil := (hcall.2.2 "pool" (Ne.symm happ)).2
    simp [hevents] at hnil

end CitadelAgent.Ihttp
