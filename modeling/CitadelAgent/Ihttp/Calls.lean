import CitadelAgent.Ihttp.Pair

/-!
# Internal HTTP: the calls of one instance

`citadel-app-sdk/src/ihttp/client.rs` under any host, any frames and any app: what one stream of the calling side can be
told, and by whom.

* `only_the_member` : a stream is told something only by the member it was opened to, as long as no other member's frame
  reaches it.
-/

namespace CitadelAgent.Ihttp
open Function

/-- The reason a caller's own `Cancel` names. -/
def CANCEL_CALLER : String := "caller"

/-- The caller gives up: `Cancel` goes to the server and the stream ends with `Failed`. -/
def Clients.cancel (host : HostOp → Answer) (k : ClientKey) (c : Clients) : Clients × List Effect :=
  match c.streams k with
  | none => (c, [])
  | some stream =>
      let op := HostOp.call stream.to_ (.new k.2 (.cancel CANCEL_CALLER)) stream.transport
      let r := Clients.finish k (.failed (refusalOf CANCEL_CALLER)) c
      (r.1, watch host "ihttp cancel" op ++ r.2)

/-- What an effect gives the sink of the stream `k`, now or later. -/
def Effect.tells (k : ClientKey) : Effect → Option ClientEvent
  | .sink k' event => if k' = k then some event else none
  | .spawned k' event => if k' = k then some event else none
  | _ => none

/-- What some effects give the sink of the stream `k`. -/
def told (k : ClientKey) (effects : List Effect) : List ClientEvent := effects.filterMap (Effect.tells k)

@[simp] theorem told_nil (k : ClientKey) : told k [] = [] := rfl

@[simp] theorem told_append (k : ClientKey) (effects effects' : List Effect) :
    told k (effects ++ effects') = told k effects ++ told k effects' := List.filterMap_append

@[simp] theorem told_host (k : ClientKey) (op : HostOp) (effects : List Effect) :
    told k (.host op :: effects) = told k effects := rfl

@[simp] theorem told_note (k : ClientKey) (what : String) (e : Refused) (effects : List Effect) :
    told k (.note what e :: effects) = told k effects := rfl

@[simp] theorem told_handler (k : ClientKey) (request : Request) (w : ResponseWriter) (effects : List Effect) :
    told k (.handler request w :: effects) = told k effects := rfl

theorem told_sink (k k' : ClientKey) (event : ClientEvent) (effects : List Effect) :
    told k (.sink k' event :: effects) = (if k' = k then [event] else []) ++ told k effects := by
  by_cases h : k' = k <;> simp [told, Effect.tells, h]

theorem told_spawned (k k' : ClientKey) (event : ClientEvent) (effects : List Effect) :
    told k (.spawned k' event :: effects) = (if k' = k then [event] else []) ++ told k effects := by
  by_cases h : k' = k <;> simp [told, Effect.tells, h]

@[simp] theorem told_watch (k : ClientKey) (host : HostOp → Answer) (what : String) (op : HostOp) :
    told k (watch host what op) = [] := by
  unfold watch
  split <;> rfl

/-! ## Steps that concern one stream -/

/-- From `c` to `c'` only the stream `k` changed, and only its sink was told something. -/
structure OnlyAt (k : ClientKey) (c c' : Clients) (effects : List Effect) : Prop where
  last : c'.lastStream = c.lastStream
  streams : ∀ k' ≠ k, c'.streams k' = c.streams k'
  silent : ∀ k' ≠ k, told k' effects = []

theorem OnlyAt.refl (k : ClientKey) (c : Clients) : OnlyAt k c c [] := ⟨rfl, fun _ _ => rfl, fun _ _ => rfl⟩

theorem OnlyAt.trans {k : ClientKey} {c c' c'' : Clients} {effects effects' : List Effect} (h : OnlyAt k c c' effects)
    (h' : OnlyAt k c' c'' effects') : OnlyAt k c c'' (effects ++ effects') where
  last := h'.last.trans h.last
  streams k' hk := (h'.streams k' hk).trans (h.streams k' hk)
  silent k' hk := by rw [told_append, h.silent k' hk, h'.silent k' hk, List.nil_append]

theorem onlyAt_set (k : ClientKey) (c : Clients) (stream : Option Stream) :
    OnlyAt k c { c with streams := update c.streams k stream } [] :=
  ⟨rfl, fun _ hk => update_of_ne hk .., fun _ _ => rfl⟩

variable (host : HostOp → Answer)

/-- What became of an open stream: it is there with its sink where it was, or it has failed. -/
def Settles (k : ClientKey) (sink : Bool) (c' : Clients) (effects : List Effect) : Prop :=
  (∃ stream, c'.streams k = some stream ∧ stream.sink = sink ∧ told k effects = []) ∨
    c'.streams k = none ∧ ∃ e, told k effects = if sink = true then [.failed e] else []

theorem finish_spec {k : ClientKey} {c : Clients} {stream : Stream} (hstream : c.streams k = some stream) (e : Refused) :
    OnlyAt k c (Clients.finish k (.failed e) c).1 (Clients.finish k (.failed e) c).2 ∧
      (Clients.finish k (.failed e) c).1.streams k = none ∧
      told k (Clients.finish k (.failed e) c).2 = if stream.sink = true then [.failed e] else [] := by
  have hsilent : ∀ k', told k' (if stream.sink = true then [Effect.spawned k (.failed e)] else []) =
      if k = k' ∧ stream.sink = true then [.failed e] else [] := by
    intro k'
    by_cases hk : k = k' <;> cases stream.sink <;> simp [told_spawned, hk]
  refine ⟨⟨?_, ?_, ?_⟩, ?_, ?_⟩
  · simp [Clients.finish, hstream]
  · intro k' hk
    simp [Clients.finish, hstream, hk]
  · intro k' hk
    simp [Clients.finish, hstream, hsilent, hk.symm]
  · simp [Clients.finish, hstream]
  · simp [Clients.finish, hstream, hsilent]

theorem flushLoop_spec (k : ClientKey) (fuel : Nat) (c : Clients) :
    OnlyAt k c (Clients.flushLoop host k fuel c).1 (Clients.flushLoop host k fuel c).2 ∧
      ∀ stream, c.streams k = some stream →
        Settles k stream.sink (Clients.flushLoop host k fuel c).1 (Clients.flushLoop host k fuel c).2 := by
  induction fuel generalizing c with
  | zero => exact ⟨OnlyAt.refl k c, fun stream hstream => Or.inl ⟨stream, hstream, rfl, rfl⟩⟩
  | succ fuel ih =>
      cases hstream : c.streams k with
      | none => simpa [Clients.flushLoop, hstream] using OnlyAt.refl k c
      | some stream =>
          rcases hnext : stream.outbox.next with ⟨_ | kind, outbox⟩
          · have heq : Clients.flushLoop host k (fuel + 1) c =
                ({ c with streams := update c.streams k (some { stream with outbox := outbox }) }, []) := by
              simp [Clients.flushLoop, hstream, hnext]
            rw [heq]
            refine ⟨onlyAt_set k c _, fun stream' h => ?_⟩
            obtain rfl := Option.some.inj h
            exact Or.inl ⟨_, update_self .., rfl, rfl⟩
          · -- a frame is sent: the host refuses it, which ends the stream, or the loop goes on
            let c' : Clients := { c with streams := update c.streams k (some { stream with outbox := outbox }) }
            let op := HostOp.call stream.to_ (.new k.2 kind) stream.transport
            have hset : OnlyAt k c c' [] := onlyAt_set k c _
            have hstream' : c'.streams k = some { stream with outbox := outbox } := update_self ..
            have hpass : Clients.flushLoop host k (fuel + 1) c =
                ((Clients.flushLoop host k fuel c').1, .host op :: (Clients.flushLoop host k fuel c').2) ∨
                ∃ e, Clients.flushLoop host k (fuel + 1) c =
                  ((Clients.finish k (.failed e) c').1, .host op :: (Clients.finish k (.failed e) c').2) := by
              rcases hhost : host op with (e | _) | _
              · right
                exact ⟨e, by simp_all [Clients.flushLoop, op, c']⟩
              · left
                simp_all [Clients.flushLoop, op, c']
              · left
                simp_all [Clients.flushLoop, op, c']
            rcases hpass with heq | ⟨e, heq⟩
            · obtain ⟨honly, hsettles⟩ := ih c'
              rw [heq]
              refine ⟨hset.trans ⟨honly.last, honly.streams, honly.silent⟩, fun stream'' h => ?_⟩
              obtain rfl := Option.some.inj h
              have hrest := hsettles _ hstream'
              exact hrest
            · obtain ⟨honly, hnone, htold⟩ := finish_spec hstream' e
              rw [heq]
              refine ⟨hset.trans ⟨honly.last, honly.streams, honly.silent⟩, fun stream'' h => ?_⟩
              obtain rfl := Option.some.inj h
              exact Or.inr ⟨hnone, e, htold⟩

theorem flush_spec (k : ClientKey) (c : Clients) :
    OnlyAt k c (Clients.flush host k c).1 (Clients.flush host k c).2 ∧
      ∀ stream, c.streams k = some stream →
        Settles k stream.sink (Clients.flush host k c).1 (Clients.flush host k c).2 :=
  flushLoop_spec host k _ c

theorem cancel_spec (k : ClientKey) (c : Clients) :
    OnlyAt k c (Clients.cancel host k c).1 (Clients.cancel host k c).2 ∧
      (Clients.cancel host k c).1.streams k = none ∧
      told k (Clients.cancel host k c).2 =
        if (c.streams k).map Stream.sink = some true then [.failed (refusalOf CANCEL_CALLER)] else [] := by
  cases hstream : c.streams k with
  | none => simpa [Clients.cancel, hstream] using OnlyAt.refl k c
  | some stream =>
      obtain ⟨honly, hnone, htold⟩ := finish_spec hstream (refusalOf CANCEL_CALLER)
      have heq : Clients.cancel host k c =
          ((Clients.finish k (.failed (refusalOf CANCEL_CALLER)) c).1,
            watch host "ihttp cancel" (.call stream.to_ (.new k.2 (.cancel CANCEL_CALLER)) stream.transport) ++
              (Clients.finish k (.failed (refusalOf CANCEL_CALLER)) c).2) := by
        simp [Clients.cancel, hstream]
      rw [heq]
      refine ⟨⟨honly.last, honly.streams, fun k' hk => ?_⟩, hnone, ?_⟩
      · rw [told_append, told_watch, honly.silent k' hk, List.nil_append]
      · rw [told_append, told_watch, htold]
        simp

theorem open_spec (call : Call) (c : Clients) :
    let k := ((target call.to_).1, c.lastStream + 1)
    let r := Clients.open_ host call.to_ call.transport call.request c
    r.1.lastStream = c.lastStream + 1 ∧ (∀ k' ≠ k, r.1.streams k' = c.streams k' ∧ told k' r.2 = []) ∧
      Settles k true r.1 r.2 := by
  intro k r
  let outbox := Outbox.new.message (.requestHead (Clients.requestHead call.to_ call.request)) call.request.body
  let c' : Clients := ⟨c.lastStream + 1, update c.streams k (some ⟨call.to_, call.transport, true, outbox⟩)⟩
  obtain ⟨honly, hsettles⟩ := flush_spec host k c'
  refine ⟨honly.last, fun k' hk => ⟨?_, honly.silent k' hk⟩, hsettles _ (update_self ..)⟩
  exact (honly.streams k' hk).trans (update_of_ne hk ..)

/-! ## Frames, with an app that only listens -/

theorem deliver_onlyAt (k : ClientKey) (event : ClientEvent) (last : Bool) (sdk : Sdk) :
    OnlyAt k sdk.clients (Clients.deliver .quiet k event last sdk).1.clients (Clients.deliver .quiet k event last sdk).2 := by
  unfold Clients.deliver
  split
  · exact OnlyAt.refl k _
  · split
    · exact OnlyAt.refl k _
    · refine ⟨rfl, fun k' hk => ?_, fun k' hk => ?_⟩
      · cases last <;> simp [App.quiet, hk]
      · simp [App.quiet, told_sink, hk.symm]

theorem server_flushLoop_silent (k : ServerKey) (fuel : Nat) (s : Server) (k' : ClientKey) :
    told k' (Server.flushLoop host k fuel s).2.1 = [] := by
  induction fuel generalizing s with
  | zero => rfl
  | succ fuel ih =>
      unfold Server.flushLoop
      split
      · rfl
      · split
        · rfl
        · simp only
          split
          · rfl
          · split
            · rfl
            · exact ih _

theorem server_onFrame_silent (from_ : Caller) (frame : IhttpFrame) (sdk : Sdk) :
    (Server.onFrame host .quiet from_ frame sdk).1.clients = sdk.clients ∧
      (∀ k, told k (Server.onFrame host .quiet from_ frame sdk).2.1 = []) ∧
      ∀ back, (Server.onFrame host .quiet from_ frame sdk).2.2 = some back →
        back = (from_, .new frame.stream frame.kind) ∧
          (frame.kind.isRequestHead = true ∨ frame.kind.isResponseHead = true) := by
  obtain ⟨v, n, kind⟩ := frame
  cases kind with
  | requestHead head =>
      simp only [Server.onFrame]
      split
      · exact ⟨rfl, fun _ => rfl, fun back h => ⟨(Option.some.inj h).symm, Or.inl rfl⟩⟩
      · exact ⟨rfl, fun _ => rfl, by rintro _ ⟨⟩⟩
  | responseHead head => exact ⟨rfl, fun _ => rfl, fun back h => ⟨(Option.some.inj h).symm, Or.inr rfl⟩⟩
  | body bytes =>
      simp only [Server.onFrame]
      split
      · exact ⟨rfl, fun _ => rfl, by rintro _ ⟨⟩⟩
      · exact ⟨rfl, fun k => told_watch k host _ _, by rintro _ ⟨⟩⟩
  | end_ =>
      refine ⟨?_, fun k => ?_, by rintro _ ⟨⟩⟩
      · simp only [Server.onFrame, Server.complete]
        split
        · rfl
        · split <;> rfl
      · simp only [Server.onFrame, Server.complete]
        split
        · rfl
        · split <;> rfl
  | cancel reason => exact ⟨rfl, fun _ => rfl, by rintro _ ⟨⟩⟩
  | credit n =>
      refine ⟨rfl, fun k => ?_, by rintro _ ⟨⟩⟩
      simp only [Server.onFrame, told_append]
      rw [Server.flush, server_flushLoop_silent]
      cases (Server.flushLoop host _ _ _).2.2 <;> rfl

theorem clients_onFrame_onlyAt (from_ : Caller) (frame : IhttpFrame) (sdk : Sdk) :
    OnlyAt (from_.appId, frame.stream) sdk.clients (Clients.onFrame host .quiet from_ frame sdk).1.clients
      (Clients.onFrame host .quiet from_ frame sdk).2.1 := by
  obtain ⟨v, n, kind⟩ := frame
  cases hstream : sdk.clients.streams (from_.appId, n) with
  | none => simpa [Clients.onFrame, hstream] using OnlyAt.refl _ _
  | some stream =>
      cases kind with
      | requestHead head => simpa [Clients.onFrame, hstream] using OnlyAt.refl _ _
      | responseHead head => simpa [Clients.onFrame, hstream] using deliver_onlyAt _ _ _ _
      | body bytes =>
          have h := deliver_onlyAt (from_.appId, n) (.body bytes) false sdk
          simp only [Clients.onFrame, hstream]
          refine ⟨h.last, h.streams, fun k hk => ?_⟩
          rw [told_append, told_watch, h.silent k hk, List.nil_append]
      | end_ => simpa [Clients.onFrame, hstream] using deliver_onlyAt _ _ _ _
      | cancel reason => simpa [Clients.onFrame, hstream] using deliver_onlyAt _ _ _ _
      | credit m =>
          simp only [Clients.onFrame, hstream]
          exact (onlyAt_set (from_.appId, n) sdk.clients _).trans (flush_spec host _ _).1

def Sdk.reaches (sdk : Sdk) (from_ : Caller) (frame : IhttpFrame) : Bool :=
  !frame.kind.isRequestHead && (!sdk.server.owns from_ frame.stream || frame.kind.isResponseHead)

theorem onFrame_onlyAt (from_ : Caller) (frame : IhttpFrame) (sdk : Sdk) :
    OnlyAt (from_.appId, frame.stream) sdk.clients (onFrame host .quiet from_ frame sdk).1.clients
      (onFrame host .quiet from_ frame sdk).2.1 := by
  unfold onFrame
  split
  · obtain ⟨hclients, hsilent, hback⟩ := server_onFrame_silent host from_ frame sdk
    rcases hserver : Server.onFrame host .quiet from_ frame sdk with ⟨sdk', effects, _ | ⟨from', frame'⟩⟩
    · rw [hserver] at hclients hsilent
      simp only at hclients hsilent ⊢
      exact ⟨by rw [hclients], fun _ _ => by rw [hclients], fun k _ => hsilent k⟩
    · rw [hserver] at hclients hsilent hback
      obtain ⟨rfl, rfl⟩ := Prod.mk.inj (hback _ rfl).1
      simp only at hclients hsilent ⊢
      have h := clients_onFrame_onlyAt host from' (.new frame.stream frame.kind) sdk'
      rw [hclients] at h
      exact ⟨h.last, h.streams, fun k hk => by rw [told_append, hsilent, h.silent k hk, List.nil_append]⟩
  · exact clients_onFrame_onlyAt host from_ frame sdk

theorem onFrame_silent {from_ : Caller} {frame : IhttpFrame} {sdk : Sdk} (h : sdk.reaches from_ frame = false) :
    (onFrame host .quiet from_ frame sdk).1.clients.streams = sdk.clients.streams ∧
      ∀ k, told k (onFrame host .quiet from_ frame sdk).2.1 = [] := by
  have hserved : frame.kind.isRequestHead = true ∨ sdk.server.owns from_ frame.stream = true := by
    by_contra hnot
    simp only [not_or, Bool.not_eq_true] at hnot
    simp [Sdk.reaches, hnot] at h
  obtain ⟨hclients, hsilent, hback⟩ := server_onFrame_silent host from_ frame sdk
  rw [onFrame, if_pos hserved]
  rcases hserver : Server.onFrame host .quiet from_ frame sdk with ⟨sdk', effects, _ | ⟨from', frame'⟩⟩
  · rw [hserver] at hclients hsilent
    exact ⟨congrArg Clients.streams hclients, hsilent⟩
  · rw [hserver] at hclients hsilent hback
    obtain ⟨heq, hkind⟩ := hback _ rfl
    obtain ⟨rfl, rfl⟩ := Prod.mk.inj heq
    -- of the frames given back only a request's head does not reach the calling side, which has no use for it
    obtain ⟨head, hhead⟩ : ∃ head, frame.kind = .requestHead head := by
      rcases hkind with hkind | hkind
      · cases hk : frame.kind <;> simp_all [FrameKind.isRequestHead]
      · cases hk : frame.kind <;> simp_all [FrameKind.isResponseHead, Sdk.reaches, FrameKind.isRequestHead]
    have hnothing : Clients.onFrame host .quiet from' (.new frame.stream frame.kind) sdk' =
        (sdk', [], some (from', .new frame.stream frame.kind)) := by
      rw [hhead]
      cases hstream : sdk'.clients.streams (from'.appId, frame.stream) with
      | none => simp [Clients.onFrame, IhttpFrame.new, hstream]
      | some stream => simp [Clients.onFrame, IhttpFrame.new, hstream]
    simp only [hnothing, List.append_nil]
    exact ⟨congrArg Clients.streams hclients, hsilent⟩

/-! ## Who answers a call -/

structure Inbound where
  host : HostOp → Answer
  from_ : Caller
  frame : IhttpFrame

def Sdk.receive (sdk : Sdk) (i : Inbound) : Sdk × List Effect × Option (Caller × IhttpFrame) :=
  onFrame i.host .quiet i.from_ i.frame sdk

def Sdk.received (sdk : Sdk) (inputs : List Inbound) : Sdk := inputs.foldl (fun sdk i => (sdk.receive i).1) sdk

/-- The stream `k` is open, to the member `username` of its app. -/
def Sdk.OpenTo (sdk : Sdk) (k : ClientKey) (username : String) : Prop :=
  ∃ stream, sdk.clients.streams k = some stream ∧ stream.to_ = .user k.1 username

/-- Whatever comes in, a stream opened to a member changes or tells its sink something only on that member's frames. -/
def OnlyMember (sdk : Sdk) (inputs : List Inbound) : Prop :=
  ∀ before i after, inputs = before ++ i :: after → ∀ k username, (sdk.received before).OpenTo k username →
    ¬ (i.from_.appId = k.1 ∧ i.from_.username = username) →
      ((sdk.received before).receive i).1.clients.streams k = (sdk.received before).clients.streams k ∧
        told k ((sdk.received before).receive i).2.1 = []

/-- No frame of another member of the app reaches the calling side with the number of a stream opened to a member. -/
def NoStranger (sdk : Sdk) (inputs : List Inbound) : Prop :=
  ∀ before i after, inputs = before ++ i :: after → ∀ username,
    (sdk.received before).OpenTo (i.from_.appId, i.frame.stream) username →
      (sdk.received before).reaches i.from_ i.frame = true → i.from_.username = username

/-- **Only the addressed member answers a call**, as long as no other member of the app uses its number. -/
theorem only_the_member (sdk : Sdk) (inputs : List Inbound) (h : NoStranger sdk inputs) : OnlyMember sdk inputs := by
  intro before i after hinputs k username hopen hstranger
  by_cases hkey : k = (i.from_.appId, i.frame.stream)
  · subst hkey
    -- the frame has the stream's app and number: being a stranger's, it stays with the serving side
    cases hreaches : (sdk.received before).reaches i.from_ i.frame with
    | true => exact absurd ⟨rfl, h before i after hinputs username hopen hreaches⟩ hstranger
    | false =>
        obtain ⟨hstreams, hsilent⟩ := onFrame_silent i.host hreaches
        exact ⟨congrFun hstreams _, hsilent _⟩
  · have honly := onFrame_onlyAt i.host i.from_ i.frame (sdk.received before)
    exact ⟨honly.streams k hkey, honly.silent k hkey⟩

section Members

/-- A member of the app `pool`. -/
def poolMember (username : String) (cid : Nat) : Caller := ⟨username, cid, "pool", username, .relay⟩

def callingBob : Sdk :=
  ⟨⟨false, fun _ => none, fun _ => none⟩,
    (Clients.open_ (accepting fun _ => true) (.user "pool" "bob") .relay ⟨.get, "/jobs", "", [], []⟩
      ⟨0, fun _ => none⟩).1⟩

def answerHead (from_ : Caller) : Inbound :=
  ⟨accepting fun _ => true, from_, .new 1 (.responseHead ⟨200, [], some 0⟩)⟩

theorem callingBob_open {username : String} (h : callingBob.OpenTo ("pool", 1) username) : username = "bob" := by
  obtain ⟨stream, hstream, hto⟩ := h
  have hbob : callingBob.clients.streams ("pool", 1) = some ⟨.user "pool" "bob", .relay, true, ⟨4, []⟩⟩ := by
    decide +kernel
  rw [hbob] at hstream
  obtain rfl := Option.some.inj hstream
  simpa using hto.symm

theorem only_the_member_bob : OnlyMember callingBob [answerHead (poolMember "bob" 2)] := by
  apply only_the_member
  intro before i after hinputs username hopen _
  obtain ⟨rfl, rfl⟩ : before = [] ∧ answerHead (poolMember "bob" 2) = i := by
    cases before with
    | nil => exact ⟨rfl, (List.cons.inj hinputs).1⟩
    | cons x xs => simp at hinputs
  exact (callingBob_open hopen).symm

/-- Mallory, another member, answers the call to Bob. -/
theorem stranger_answers :
    callingBob.OpenTo ("pool", 1) "bob" ∧ ¬ OnlyMember callingBob [answerHead (poolMember "mallory" 3)] := by
  have hopen : callingBob.OpenTo ("pool", 1) "bob" :=
    ⟨⟨.user "pool" "bob", .relay, true, ⟨4, []⟩⟩, by decide +kernel, rfl⟩
  refine ⟨hopen, fun h => ?_⟩
  have hsilent := (h [] _ [] rfl ("pool", 1) "bob" hopen (by decide)).2
  have htold : told ("pool", 1) (callingBob.receive (answerHead (poolMember "mallory" 3))).2.1 =
      [.head ⟨200, [], some 0⟩ .relay] := by decide +kernel
  rw [show callingBob.received [] = callingBob from rfl, htold] at hsilent
  cases hsilent

end Members

end CitadelAgent.Ihttp
