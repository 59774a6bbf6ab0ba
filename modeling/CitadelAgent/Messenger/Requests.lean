import CitadelAgent.Lib.SortedMap
import CitadelAgent.Lib.Updates

/-!
# The requests of the backends

`citadel-internal-service-connector/src/messenger/backend_channel.rs` and the tasks of `messenger/mod.rs` that carry its
requests: a call of `send_and_wait` registers its slot, hands the request to the outbound task and waits; replies are
routed to the backend of their CID, or to whichever backend waits for them; the end of the connection drops the outbound
receiver and then abandons what the registered backends wait for.

* `Connection`, `Connection.step` : the backends with their slots, the calls, and what is on its way;
* `Connection.Registered` : no backend is replaced, and none asks, in a way that its replies cannot find it;
* `Connection.Inv` : every call that waits has its slot in the backend its reply is routed to;
* `requests_end` : a call completes once, by its reply or by a connection error, and no later than the connection.
-/

namespace CitadelAgent.Messenger
open Function

/-- The CID of the agent itself, which answers to a batch of requests carry. -/
def LOOPBACK_ONLY : Nat := 0

structure Request where
  requestId : Nat
  /-- The CID of the handle the request was sent through. -/
  sourceId : Nat
  answerCid : Nat
  deriving DecidableEq

namespace Request

def localDb (cid requestId : Nat) : Request := ⟨requestId, cid, cid⟩

def batched (cid requestId : Nat) : Request := ⟨requestId, cid, LOOPBACK_ONLY⟩

end Request

structure Response where
  cid : Nat
  requestId : Option Nat
  deriving DecidableEq

def Request.answer (r : Request) : Response := ⟨r.answerCid, some r.requestId⟩

inductive Oneshot
  | empty
  | sent (response : Response)
  | closed
  deriving DecidableEq

/-- What `send_and_wait` returns. -/
inductive Outcome
  | reply (response : Response)
  /-- "Failed to send bypass message" -/
  | notSent
  /-- "The connection to the agent closed before it answered" -/
  | connectionClosed
  | alreadyAwaiting
  deriving DecidableEq

inductive Phase
  /-- The slot is registered, the request has not been handed to the outbound task. -/
  | registered
  | waiting
  | completed (outcome : Outcome)
  | dropped
  deriving DecidableEq

/-- A call of `send_and_wait`. -/
structure Call where
  backend : Nat
  request : Request
  phase : Phase
  rx : Oneshot
  deriving DecidableEq

structure Connection where
  backends : SortedMap Nat Nat
  cids : List Nat
  expectedRequests : Nat → Finset Nat
  ids : Nat
  calls : Nat → Option Call
  returned : List (Nat × Outcome)
  outbound : List Request
  listening : Bool
  agent : List Request
  backgroundInvokedRequests : List Nat
  application : List Response
  abandoning : Option (List Nat)

inductive ConnectionAct
  | multiplex (cid : Nat)
  | sendAndWait (backend : Nat) (batch : Bool)
  | poll (requestId : Nat)
  | dropFuture (requestId : Nat)
  | bypass (sourceId answerCid : Nat)
  | pollSessions (sourceId : Nat)
  /-- The outbound task takes the next request, and `sink.send` does its work or not. -/
  | send (ok : Bool)
  | answer (n : Nat)
  | notify (cid : Nat)
  /-- One of the tasks ends: the `select!` drops the others, and with them the receiver. -/
  | close
  /-- `is_running` is cleared, and the loop over the backends begins. -/
  | stop
  | abandonNext

namespace Connection

def new : Connection :=
  ⟨.empty, [], fun _ => ∅, 0, fun _ => none, [], [], true, [], [], [], none⟩

def remove (backend id : Nat) (rx : Oneshot) (s : Connection) : Connection :=
  { s with
    expectedRequests := update s.expectedRequests backend ((s.expectedRequests backend).erase id)
    calls := update s.calls id ((s.calls id).map fun c => { c with rx := rx }) }

def claimReply (backend : Nat) (response : Response) (s : Connection) : Option Connection :=
  match response.requestId with
  | none => none
  | some id => if id ∈ s.expectedRequests backend then some (s.remove backend id (.sent response)) else none

def abandon (backend id : Nat) (s : Connection) : Connection :=
  if id ∈ s.expectedRequests backend then s.remove backend id .closed else s

def abandonAll (backend : Nat) (s : Connection) : Connection :=
  { s with
    expectedRequests := update s.expectedRequests backend ∅
    calls := fun id =>
      if id ∈ s.expectedRequests backend then (s.calls id).map fun c => { c with rx := .closed } else s.calls id }

def passOn (response : Response) (s : Connection) : Connection := { s with application := response :: s.application }

def route (response : Response) (s : Connection) : Connection :=
  match response.requestId with
  | none => s.passOn response
  | some id =>
      if id ∈ s.backgroundInvokedRequests then
        { s with backgroundInvokedRequests := s.backgroundInvokedRequests.filter (· ≠ id) }
      else
        match s.backends.get response.cid with
        | some backend => (s.claimReply backend response).getD (s.passOn response)
        | none =>
            ((s.backends.entries.map Prod.snd).findSome? fun backend => s.claimReply backend response).getD
              (s.passOn response)

def complete (id : Nat) (outcome : Outcome) (s : Connection) : Connection :=
  { s with
    calls := update s.calls id ((s.calls id).map fun c => { c with phase := .completed outcome })
    returned := (id, outcome) :: s.returned }

def push (r : Request) (s : Connection) : Connection := { s with outbound := s.outbound ++ [r] }

def poll (id : Nat) (s : Connection) : Connection :=
  match s.calls id with
  | none => s
  | some c =>
      match c.phase with
      | .registered =>
          if s.listening = true then { s.push c.request with calls := update s.calls id (some { c with phase := .waiting }) }
          else
            let s := { s with
              expectedRequests := update s.expectedRequests c.backend ((s.expectedRequests c.backend).erase id) }
            s.complete id .notSent
      | .waiting =>
          match c.rx with
          | .empty => s
          | .sent response => s.complete id (.reply response)
          | .closed => s.complete id .connectionClosed
      | .completed _ => s
      | .dropped => s

/-- `send_and_wait`, up to the registration of its slot, with the id `Uuid::new_v4` gives it. -/
def sendAndWait (backend cid : Nat) (batch : Bool) (s : Connection) : Connection :=
  let id := s.ids
  let request := if batch = true then Request.batched cid id else Request.localDb cid id
  let call := ⟨backend, request, .registered, .empty⟩
  let s := { s with ids := id + 1, calls := update s.calls id (some call) }
  if id ∈ s.expectedRequests backend then s.complete id .alreadyAwaiting
  else { s with expectedRequests := update s.expectedRequests backend (insert id (s.expectedRequests backend)) }

def step (s : Connection) : ConnectionAct → Connection
  | .multiplex cid => { s with backends := s.backends.insert cid s.cids.length, cids := s.cids ++ [cid] }
  | .sendAndWait backend batch =>
      match s.cids[backend]? with
      | none => s
      | some cid => s.sendAndWait backend cid batch
  | .poll id => s.poll id
  | .dropFuture id =>
      match s.calls id with
      | none => s
      | some c =>
          if c.phase = .waiting then { s with calls := update s.calls id (some { c with phase := .dropped }) } else s
  | .bypass sourceId answerCid =>
      if s.listening = true then { s.push ⟨s.ids, sourceId, answerCid⟩ with ids := s.ids + 1 } else s
  | .pollSessions sourceId =>
      if s.listening = true then
        { s.push ⟨s.ids, sourceId, LOOPBACK_ONLY⟩ with
          ids := s.ids + 1
          backgroundInvokedRequests := s.ids :: s.backgroundInvokedRequests }
      else s
  | .send ok =>
      match s.listening, s.outbound with
      | true, r :: rest =>
          let s := { s with outbound := rest }
          if ok = true then { s with agent := s.agent ++ [r] }
          else
            match s.backends.get r.sourceId with
            | some backend => s.abandon backend r.requestId
            | none => s
      | _, _ => s
  | .answer n =>
      match s.listening, s.agent[n]? with
      | true, some r => { s with agent := s.agent.eraseIdx n }.route r.answer
      | _, _ => s
  | .notify cid => if s.listening = true then s.route ⟨cid, none⟩ else s
  | .close => { s with listening := false }
  | .stop =>
      if s.listening = false ∧ s.abandoning = none then { s with abandoning := some s.backends.keys } else s
  | .abandonNext =>
      match s.abandoning with
      | some (cid :: rest) =>
          let s := { s with abandoning := some rest }
          match s.backends.get cid with
          | some backend => s.abandonAll backend
          | none => s
      | _ => s

end Connection

inductive ConnectionRun (condition : Connection → ConnectionAct → Prop) : Connection → Prop
  | new : ConnectionRun condition .new
  | step {s : Connection} (act : ConnectionAct) :
      ConnectionRun condition s → condition s act → ConnectionRun condition (s.step act)

def Call.Awaits (c : Call) : Prop := c.rx = .empty ∧ (c.phase = .registered ∨ c.phase = .waiting)

def Outcome.Ends (id : Nat) : Outcome → Prop
  | .reply response => response.requestId = some id
  | .notSent => True
  | .connectionClosed => True
  | .alreadyAwaiting => False

variable {response : Response} {s : Connection}

namespace Connection

/-- No backend is replaced while it waits, none that was replaced asks over the connection, and no batch is answered to
another CID while a backend is registered for the agent's own. -/
def Registered (s : Connection) : ConnectionAct → Prop
  | .multiplex cid =>
      ∀ backend, s.backends.get cid = some backend → ∀ id c, s.calls id = some c → c.backend = backend → ¬c.Awaits
  | .sendAndWait backend _ =>
      s.listening = true → ∀ cid, s.cids[backend]? = some cid → s.backends.get cid = some backend
  | .answer n =>
      ∀ r, s.agent[n]? = some r → r.answerCid = r.sourceId ∨ s.backends.get r.answerCid = none
  | _ => True

/-- The call is going to need its slot: a call that has not been sent does not, once nothing is sent any more. -/
def Needs (s : Connection) (c : Call) : Prop :=
  c.rx = .empty ∧ (c.phase = .waiting ∨ c.phase = .registered ∧ s.listening = true)

structure Inv (s : Connection) : Prop where
  call : ∀ {id c}, s.calls id = some c → id < s.ids
  slot : ∀ {backend id}, id ∈ s.expectedRequests backend → ∃ c, s.calls id = some c ∧ c.backend = backend
  held : ∀ {id c}, s.calls id = some c → s.Needs c →
    id ∈ s.expectedRequests c.backend ∧ s.backends.get c.request.sourceId = some c.backend
  asked : ∀ r ∈ s.outbound ++ s.agent,
    r.requestId < s.ids ∧ ∀ c, s.calls r.requestId = some c → c.request = r ∧ c.phase ≠ .registered
  own : ∀ {id c}, s.calls id = some c → c.request.requestId = id
  background : ∀ id ∈ s.backgroundInvokedRequests, id < s.ids ∧ s.calls id = none
  received : ∀ {id c response}, s.calls id = some c → c.rx = .sent response → response.requestId = some id
  completed : ∀ {id c outcome}, s.calls id = some c → c.phase = .completed outcome → outcome.Ends id
  returned : ∀ e ∈ s.returned, ∃ c, s.calls e.1 = some c ∧ c.phase = .completed e.2
  once : (s.returned.map Prod.fst).Nodup
  passed : ∀ response ∈ s.application, ∀ id, response.requestId = some id →
    id < s.ids ∧ ∀ c, s.calls id = some c → ¬c.Awaits
  ended : ∀ cids, s.abandoning = some cids → s.listening = false ∧
    ∀ id c, s.calls id = some c → c.phase = .waiting → c.rx = .empty → c.request.sourceId ∈ cids

theorem inv_new : Inv .new where
  call h := nomatch h
  slot h := absurd h (Finset.notMem_empty _)
  held h := nomatch h
  asked _ h := nomatch h
  own h := nomatch h
  background _ h := nomatch h
  received h := nomatch h
  completed h := nomatch h
  returned _ h := nomatch h
  once := List.nodup_nil
  passed _ h := nomatch h
  ended _ h := nomatch h

/-- What may become of a call in one step, its id and the slots that are left being given. -/
structure Becomes (s : Connection) (expected : Nat → Finset Nat) (id : Nat) (c c' : Call) : Prop where
  backend : c'.backend = c.backend
  request : c'.request = c.request
  registered : c'.phase = .registered → c.phase = .registered
  completed : ∀ outcome, c.phase = .completed outcome → c'.phase = .completed outcome
  ends : ∀ outcome, c'.phase = .completed outcome → c.phase = .completed outcome ∨ outcome.Ends id
  received : ∀ response, c'.rx = .sent response → c.rx = .sent response ∨ response.requestId = some id
  awaits : c'.Awaits → c.Awaits
  needs : s.Needs c' → s.Needs c ∧ (id ∈ s.expectedRequests c.backend → id ∈ expected c.backend)
  waiting : c'.phase = .waiting → c'.rx = .empty → c.phase = .waiting ∧ c.rx = .empty ∨ s.abandoning = none

theorem Becomes.refl {expected : Nat → Finset Nat} {id : Nat} {c : Call}
    (h : id ∈ s.expectedRequests c.backend → id ∈ expected c.backend) : Becomes s expected id c c :=
  ⟨rfl, rfl, fun hp => hp, fun _ hp => hp, fun _ hp => .inl hp, fun _ hr => .inl hr, fun ha => ha,
    fun hn => ⟨hn, h⟩, fun hp hr => .inl ⟨hp, hr⟩⟩

namespace Inv

variable {s : Connection} {id backend : Nat} {c : Call}

theorem change (h : s.Inv) {calls : Nat → Option Call} {expected : Nat → Finset Nat}
    (hcalls : ∀ id c, s.calls id = some c → ∃ c', calls id = some c' ∧ Becomes s expected id c c')
    (hnone : ∀ id, s.calls id = none → calls id = none)
    (hexpected : ∀ backend, expected backend ⊆ s.expectedRequests backend) :
    Inv { s with calls := calls, expectedRequests := expected } := by
  have hcall : ∀ {id c'}, calls id = some c' → ∃ c, s.calls id = some c ∧ Becomes s expected id c c' := by
    intro id c' hc'
    cases hc : s.calls id with
    | none =>
      rw [hnone id hc] at hc'
      cases hc'
    | some c =>
      obtain ⟨c'', hc'', hb⟩ := hcalls id c hc
      obtain rfl := Option.mem_unique hc' hc''
      exact ⟨c, rfl, hb⟩
  refine ⟨fun hc' => ?_, fun hmem => ?_, fun hc' hneeds => ?_, fun r hr => ⟨(h.asked r hr).1, fun c' hc' => ?_⟩,
    fun hc' => ?_, fun id' hid' => ⟨(h.background id' hid').1, hnone id' (h.background id' hid').2⟩,
    fun hc' hrx => ?_, fun hc' hphase => ?_, fun e he => ?_, h.once,
    fun response hr id' hid' => ⟨(h.passed response hr id' hid').1, fun c' hc' haw => ?_⟩,
    fun cids hcids => ⟨(h.ended cids hcids).1, fun id' c' hc' hphase hrx => ?_⟩⟩
  · obtain ⟨c, hc, -⟩ := hcall hc'
    exact h.call hc
  · obtain ⟨c, hc, hb⟩ := h.slot (hexpected _ hmem)
    obtain ⟨c', hc', hbecomes⟩ := hcalls _ c hc
    exact ⟨c', hc', hbecomes.backend.trans hb⟩
  · obtain ⟨c, hc, hb⟩ := hcall hc'
    obtain ⟨hneeds, hkept⟩ := hb.needs hneeds
    obtain ⟨hmem, hget⟩ := h.held hc hneeds
    rw [hb.backend, hb.request]
    exact ⟨hkept hmem, hget⟩
  · obtain ⟨c, hc, hb⟩ := hcall hc'
    obtain ⟨hreq, hphase⟩ := (h.asked r hr).2 c hc
    exact ⟨hb.request.trans hreq, fun hp => hphase (hb.registered hp)⟩
  · obtain ⟨c, hc, hb⟩ := hcall hc'
    rw [hb.request]
    exact h.own hc
  · obtain ⟨c, hc, hb⟩ := hcall hc'
    exact (hb.received _ hrx).elim (h.received hc) fun hr => hr
  · obtain ⟨c, hc, hb⟩ := hcall hc'
    exact (hb.ends _ hphase).elim (h.completed hc) fun ho => ho
  · obtain ⟨c, hc, hphase⟩ := h.returned e he
    obtain ⟨c', hc', hb⟩ := hcalls _ c hc
    exact ⟨c', hc', hb.completed _ hphase⟩
  · obtain ⟨c, hc, hb⟩ := hcall hc'
    exact (h.passed response hr id' hid').2 c hc (hb.awaits haw)
  · obtain ⟨c, hc, hb⟩ := hcall hc'
    rw [hb.request]
    obtain ⟨hp, hr⟩ | hnone := hb.waiting hphase hrx
    · exact (h.ended cids hcids).2 id' c hc hp hr
    · rw [show s.abandoning = some cids from hcids] at hnone
      cases hnone

theorem changeOne (h : s.Inv) (hc : s.calls id = some c) {c' : Call} {slots : Finset Nat}
    (hb : Becomes s (update s.expectedRequests c.backend slots) id c c') (hsub : slots ⊆ s.expectedRequests c.backend)
    (hothers : ∀ id' ∈ s.expectedRequests c.backend, id' ≠ id → id' ∈ slots) :
    Inv { s with
      calls := update s.calls id (some c'), expectedRequests := update s.expectedRequests c.backend slots } := by
  refine h.change (fun id' c₁ hc₁ => ?_) (fun id' hnone => ?_) (fun b => ?_)
  · by_cases hid : id' = id
    · subst hid
      obtain rfl := Option.mem_unique hc hc₁
      exact ⟨c', update_self .., hb⟩
    · refine ⟨c₁, (update_of_ne hid ..).trans hc₁, .refl fun hmem => ?_⟩
      by_cases hbackend : c₁.backend = c.backend
      · rw [hbackend] at hmem ⊢
        rw [update_self]
        exact hothers id' hmem hid
      · rwa [update_of_ne hbackend]
  · have hid : id' ≠ id := by
      rintro rfl
      rw [hc] at hnone
      cases hnone
    exact (update_of_ne hid ..).trans hnone
  · by_cases hbackend : b = c.backend
    · subst hbackend
      rw [update_self]
      exact hsub
    · rw [update_of_ne hbackend]

theorem setPhase (h : s.Inv) (hc : s.calls id = some c) (phase : Phase) (hnew : phase ≠ .registered)
    (hwaiting : phase = .waiting → c.phase = .registered ∧ s.listening = true)
    (hdone : ∀ outcome, c.phase ≠ .completed outcome)
    (hends : ∀ outcome, phase = .completed outcome → outcome.Ends id) :
    Inv { s with calls := update s.calls id (some { c with phase := phase }) } := by
  have hrunning : s.listening = true → s.abandoning = none := by
    intro hlistening
    cases habandoning : s.abandoning with
    | none => rfl
    | some cids =>
      rw [(h.ended cids habandoning).1] at hlistening
      cases hlistening
  have hb : Becomes s (update s.expectedRequests c.backend (s.expectedRequests c.backend)) id c
      { c with phase := phase } := by
    refine ⟨rfl, rfl, fun hp => absurd hp hnew, fun o hp => absurd hp (hdone o), fun o hp => .inr (hends o hp),
      fun _ hr => .inl hr, fun ha => ⟨ha.1, .inl ?_⟩, fun hn => ⟨⟨hn.1, .inr ?_⟩, ?_⟩, fun hp _ => .inr ?_⟩
    · exact (hwaiting (ha.2.resolve_left hnew)).1
    · exact hwaiting (hn.2.resolve_right fun hp => hnew hp.1)
    · rw [update_eq_self]
      exact fun hmem => hmem
    · exact hrunning (hwaiting hp).2
  have hchanged := h.changeOne hc hb (fun _ hmem => hmem) (fun _ hmem _ => hmem)
  rwa [update_eq_self] at hchanged

theorem complete (h : s.Inv) (hc : s.calls id = some c) (hdone : ∀ outcome, c.phase ≠ .completed outcome)
    {outcome : Outcome} (hends : outcome.Ends id) : (s.complete id outcome).Inv := by
  have hset := h.setPhase hc (.completed outcome) (by simp) (by simp) hdone (by simpa using hends)
  have hnew : id ∉ s.returned.map Prod.fst := by
    intro hmem
    obtain ⟨e, he, rfl⟩ := List.mem_map.mp hmem
    obtain ⟨c', hc', hphase⟩ := h.returned e he
    rw [hc] at hc'
    obtain rfl := Option.some.inj hc'
    exact hdone _ hphase
  unfold Connection.complete
  rw [hc, Option.map_some]
  refine { hset with returned := fun e he => ?_, once := List.nodup_cons.mpr ⟨hnew, h.once⟩ }
  obtain rfl | he := List.mem_cons.mp he
  · exact ⟨_, update_self .., rfl⟩
  · exact hset.returned e he

theorem remove (h : s.Inv) (hmem : id ∈ s.expectedRequests backend) {rx : Oneshot} (hrx : rx ≠ .empty)
    (hsent : ∀ response, rx = .sent response → response.requestId = some id) : (s.remove backend id rx).Inv := by
  obtain ⟨c, hc, rfl⟩ := h.slot hmem
  unfold Connection.remove
  rw [hc, Option.map_some]
  refine h.changeOne hc ?_ (Finset.erase_subset _ _) (fun id' hmem' hid => Finset.mem_erase.mpr ⟨hid, hmem'⟩)
  exact ⟨rfl, rfl, fun hp => hp, fun _ hp => hp, fun _ hp => .inl hp, fun response hr => .inr (hsent response hr),
    fun ha => absurd ha.1 hrx, fun hn => absurd hn.1 hrx, fun _ hr => absurd hr hrx⟩

theorem claimReply (h : s.Inv) {s' : Connection} (hs' : s.claimReply backend response = some s') : s'.Inv := by
  unfold Connection.claimReply at hs'
  split at hs'
  · cases hs'
  · rename_i id hid
    split at hs'
    · rename_i hmem
      obtain rfl := Option.some.inj hs'
      refine h.remove hmem (by simp) (fun response' hr => ?_)
      obtain rfl := Oneshot.sent.inj hr
      exact hid
    · cases hs'

theorem abandon (h : s.Inv) : (s.abandon backend id).Inv := by
  unfold Connection.abandon
  split
  · rename_i hmem
    exact h.remove hmem (by simp) (by simp)
  · exact h

theorem abandonAll (h : s.Inv) (backend : Nat) : (s.abandonAll backend).Inv := by
  refine h.change (fun id c hc => ?_) (fun id hnone => ?_) (fun b => ?_)
  · by_cases hmem : id ∈ s.expectedRequests backend
    · refine ⟨{ c with rx := .closed }, by simp [hmem, hc], ?_⟩
      exact ⟨rfl, rfl, fun hp => hp, fun _ hp => hp, fun _ hp => .inl hp, nofun,
        fun ha => (nomatch ha.1), fun hn => (nomatch hn.1), nofun⟩
    · refine ⟨c, by simp [hmem, hc], .refl fun hmem' => ?_⟩
      have hb : c.backend ≠ backend := by
        rintro rfl
        exact hmem hmem'
      rwa [update_of_ne hb]
  · simp [hnone]
  · by_cases hb : b = backend
    · subst hb
      rw [update_self]
      exact Finset.empty_subset _
    · rw [update_of_ne hb]

theorem passOn (h : s.Inv) (hr : ∀ id, response.requestId = some id → id < s.ids ∧ ∀ c, s.calls id = some c → ¬c.Awaits) :
    (s.passOn response).Inv := by
  refine { h with passed := fun response' hmem => ?_ }
  obtain rfl | hmem := List.mem_cons.mp hmem
  · exact hr
  · exact h.passed response' hmem

theorem route (h : s.Inv) (hid : ∀ id, response.requestId = some id → id < s.ids)
    (hfinds : ∀ id c, response.requestId = some id → s.calls id = some c → c.Awaits →
      s.Needs c ∧ (response.cid = c.request.sourceId ∨ s.backends.get response.cid = none)) :
    (s.route response).Inv := by
  unfold Connection.route
  split
  · rename_i hnone
    exact h.passOn (by simp [hnone])
  rename_i id hsome
  -- a backend that has the slot takes the response, so it is passed on only if the asking backend has not
  have hclaims : ∀ {b}, id ∈ s.expectedRequests b → s.claimReply b response ≠ none := by
    intro b hmem
    simp [Connection.claimReply, hsome, hmem]
  have hpassOn : (∀ c, s.calls id = some c → s.Needs c → s.backends.get response.cid = some c.backend ∨
      s.backends.get response.cid = none → False) → (s.passOn response).Inv := by
    intro hno
    refine h.passOn fun id' hid' => ⟨hid id' hid', fun c hc haw => ?_⟩
    obtain rfl := Option.mem_unique hsome hid'
    obtain ⟨hneeds, hcid⟩ := hfinds id c hsome hc haw
    refine hno c hc hneeds (hcid.imp_left fun hcid => ?_)
    rw [hcid]
    exact (h.held hc hneeds).2
  split
  · refine { h with background := fun id' hid' => h.background id' (List.mem_of_mem_filter hid') }
  · split
    · rename_i b hget
      cases hclaim : s.claimReply b response with
      | some s' => exact h.claimReply hclaim
      | none =>
        refine hpassOn fun c hc hneeds hcid => ?_
        rw [hget] at hcid
        obtain rfl := Option.some.inj (hcid.resolve_right (by simp))
        exact hclaims (h.held hc hneeds).1 hclaim
    · rename_i hget
      cases hclaim : (s.backends.entries.map Prod.snd).findSome? fun b => s.claimReply b response with
      | some s' =>
        obtain ⟨b, -, hb⟩ := List.exists_of_findSome?_eq_some hclaim
        exact h.claimReply hb
      | none =>
        refine hpassOn fun c hc hneeds _ => ?_
        obtain ⟨hmem, hregistered⟩ := h.held hc hneeds
        have hentry := List.mem_map_of_mem (f := Prod.snd) (SortedMap.get_eq_some.mp hregistered)
        exact hclaims hmem (List.findSome?_eq_none_iff.mp hclaim _ hentry)

theorem push (h : s.Inv) {r : Request} (hlt : r.requestId < s.ids)
    (hr : ∀ c, s.calls r.requestId = some c → c.request = r ∧ c.phase ≠ .registered) : (s.push r).Inv := by
  refine { h with asked := fun r' hr' => ?_ }
  have hcases : r' = r ∨ r' ∈ s.outbound ++ s.agent := by
    simp only [Connection.push, List.mem_append, List.mem_singleton] at hr' ⊢
    tauto
  obtain rfl | hold := hcases
  · exact ⟨hlt, hr⟩
  · exact h.asked r' hold

theorem draw (h : s.Inv) : Inv { s with ids := s.ids + 1 } :=
  { h with
    call := fun hc => Nat.lt_succ_of_lt (h.call hc)
    asked := fun r hr => (h.asked r hr).imp_left Nat.lt_succ_of_lt
    background := fun id hid => (h.background id hid).imp_left Nat.lt_succ_of_lt
    passed := fun response hmem id hid => (h.passed response hmem id hid).imp_left Nat.lt_succ_of_lt }

theorem calls_ids (h : s.Inv) : s.calls s.ids = none := by
  cases hc : s.calls s.ids with
  | none => rfl
  | some c => exact absurd (h.call hc) (Nat.lt_irrefl _)

theorem pushNew (h : s.Inv) (sourceId answerCid : Nat) :
    Inv { s.push ⟨s.ids, sourceId, answerCid⟩ with ids := s.ids + 1 } := by
  refine h.draw.push (r := ⟨s.ids, sourceId, answerCid⟩) (Nat.lt_succ_self s.ids) fun c hc => ?_
  have hnone := h.calls_ids
  rw [show s.calls s.ids = some c from hc] at hnone
  cases hnone

theorem poll (h : s.Inv) : (s.poll id).Inv := by
  unfold Connection.poll
  split
  · exact h
  rename_i c hc
  split
  · rename_i hphase
    have hdone : ∀ outcome, c.phase ≠ .completed outcome := by simp [hphase]
    split
    · rename_i hlistening
      have hset := h.setPhase hc .waiting (by simp) (fun _ => ⟨hphase, hlistening⟩) hdone (by simp)
      refine hset.push (r := c.request) ?_ fun c' hc' => ?_
      · rw [h.own hc]
        exact h.call hc
      · simp only [h.own hc, update_self] at hc'
        obtain rfl := Option.some.inj hc'
        exact ⟨rfl, by simp⟩
    · rename_i hlistening
      -- nothing will answer a request that never left, and nothing needs the slot
      have hneeds : ¬s.Needs c := by
        rintro ⟨-, hp | hp⟩
        · rw [hphase] at hp
          cases hp
        · exact hlistening hp.2
      have hb : Becomes s (update s.expectedRequests c.backend ((s.expectedRequests c.backend).erase id)) id c c :=
        ⟨rfl, rfl, fun hp => hp, fun _ hp => hp, fun _ hp => .inl hp, fun _ hr => .inl hr, fun ha => ha,
          fun hn => absurd hn hneeds, fun hp hr => .inl ⟨hp, hr⟩⟩
      have hchanged := h.changeOne hc hb (Finset.erase_subset _ _)
        (fun id' hmem' hid => Finset.mem_erase.mpr ⟨hid, hmem'⟩)
      rw [show update s.calls id (some c) = s.calls from by rw [← hc, update_eq_self]] at hchanged
      exact hchanged.complete hc hdone trivial
  · rename_i hphase
    have hdone : ∀ outcome, c.phase ≠ .completed outcome := by simp [hphase]
    split
    · exact h
    · rename_i response hrx
      exact h.complete hc hdone (h.received hc hrx)
    · exact h.complete hc hdone trivial
  · exact h
  · exact h

theorem dropFuture (h : s.Inv) : (s.step (.dropFuture id)).Inv := by
  simp only [step]
  split
  · exact h
  · rename_i c hc
    split
    · rename_i hphase
      exact h.setPhase hc .dropped (by simp) (by simp) (by simp [hphase]) (by simp)
    · exact h

theorem sendAndWait (h : s.Inv) {cid : Nat} (batch : Bool)
    (hregistered : s.listening = true → s.backends.get cid = some backend) : (s.sendAndWait backend cid batch).Inv := by
  have hnone := h.calls_ids
  have hfree : ∀ b, s.ids ∉ s.expectedRequests b := by
    intro b hmem
    obtain ⟨c, hc, -⟩ := h.slot hmem
    exact absurd (h.call hc) (Nat.lt_irrefl _)
  have hsource : ∀ id, (if batch = true then Request.batched cid id else Request.localDb cid id).sourceId = cid := by
    intro id
    cases batch <;> rfl
  have hown : ∀ id, (if batch = true then Request.batched cid id else Request.localDb cid id).requestId = id := by
    intro id
    cases batch <;> rfl
  unfold Connection.sendAndWait
  simp only [hfree, if_false]
  have hkept : ∀ {b id}, id ∈ s.expectedRequests b →
      id ∈ update s.expectedRequests backend (insert s.ids (s.expectedRequests backend)) b := by
    intro b id hmem
    by_cases hb : b = backend
    · subst hb
      rw [update_self]
      exact Finset.mem_insert_of_mem hmem
    · rwa [update_of_ne hb]
  have hnew : s.ids ∈ update s.expectedRequests backend (insert s.ids (s.expectedRequests backend)) backend := by
    rw [update_self]
    exact Finset.mem_insert_self _ _
  have hslot : ∀ {b id}, id ∈ update s.expectedRequests backend (insert s.ids (s.expectedRequests backend)) b →
      id = s.ids ∧ b = backend ∨ id ≠ s.ids ∧ id ∈ s.expectedRequests b := by
    intro b id hmem
    by_cases hb : b = backend
    · subst hb
      rw [update_self, Finset.mem_insert] at hmem
      exact hmem.imp (fun hid => ⟨hid, rfl⟩) fun hmem => ⟨fun hid => hfree b (hid ▸ hmem), hmem⟩
    · rw [update_of_ne hb] at hmem
      exact .inr ⟨fun hid => hfree b (hid ▸ hmem), hmem⟩
  have hne : ∀ {id}, id < s.ids → id ≠ s.ids := fun hlt => Nat.ne_of_lt hlt
  refine ⟨fun hc => ?_, fun hmem => ?_, fun hc hneeds => ?_,
    fun r hr => ⟨Nat.lt_succ_of_lt (h.asked r hr).1, fun c hc => ?_⟩, fun hc => ?_,
    fun id hid => ⟨Nat.lt_succ_of_lt (h.background id hid).1, ?_⟩, fun hc hrx => ?_, fun hc hphase => ?_,
    fun e he => ?_, h.once,
    fun response hr id hid => ⟨Nat.lt_succ_of_lt (h.passed response hr id hid).1, fun c hc => ?_⟩,
    fun cids hcids => ⟨(h.ended cids hcids).1, fun id c hc hphase hrx => ?_⟩⟩
  · obtain ⟨rfl, -⟩ | ⟨-, hc⟩ := of_update_some hc
    · exact Nat.lt_succ_self _
    · exact Nat.lt_succ_of_lt (h.call hc)
  · obtain ⟨rfl, rfl⟩ | ⟨hid, hmem⟩ := hslot hmem
    · exact ⟨_, update_self .., rfl⟩
    · obtain ⟨c, hc, hb⟩ := h.slot hmem
      exact ⟨c, (update_of_ne hid ..).trans hc, hb⟩
  · obtain ⟨rfl, rfl⟩ | ⟨-, hc⟩ := of_update_some hc
    · obtain ⟨-, hphase | ⟨-, hlistening⟩⟩ := hneeds
      · cases hphase
      · refine ⟨hnew, ?_⟩
        rw [hsource]
        exact hregistered hlistening
    · exact (h.held hc hneeds).imp_left hkept
  · exact (h.asked r hr).2 c ((update_of_ne (hne (h.asked r hr).1) ..).symm.trans hc)
  · obtain ⟨rfl, rfl⟩ | ⟨-, hc⟩ := of_update_some hc
    · exact hown _
    · exact h.own hc
  · exact (update_of_ne (hne (h.background id hid).1) ..).trans (h.background id hid).2
  · obtain ⟨rfl, rfl⟩ | ⟨-, hc⟩ := of_update_some hc
    · cases hrx
    · exact h.received hc hrx
  · obtain ⟨rfl, rfl⟩ | ⟨-, hc⟩ := of_update_some hc
    · cases hphase
    · exact h.completed hc hphase
  · obtain ⟨c, hc, hphase⟩ := h.returned e he
    exact ⟨c, (update_of_ne (hne (h.call hc)) ..).trans hc, hphase⟩
  · exact (h.passed response hr id hid).2 c ((update_of_ne (hne (h.passed response hr id hid).1) ..).symm.trans hc)
  · obtain ⟨rfl, rfl⟩ | ⟨-, hc⟩ := of_update_some hc
    · cases hphase
    · exact (h.ended cids hcids).2 id c hc hphase hrx

theorem multiplex (h : s.Inv) {cid : Nat} (hcond : s.Registered (.multiplex cid)) : (s.step (.multiplex cid)).Inv := by
  refine { h with held := fun hc hneeds => ?_ }
  rename_i id c
  have hneeds : s.Needs c := hneeds
  obtain ⟨hmem, hget⟩ := h.held hc hneeds
  refine ⟨hmem, ?_⟩
  have hne : c.request.sourceId ≠ cid := by
    intro hcid
    rw [hcid] at hget
    exact hcond c.backend hget id c hc rfl ⟨hneeds.1, hneeds.2.elim .inr fun hp => .inl hp.1⟩
  exact (s.backends.get_insert ..).trans ((if_neg hne).trans hget)

theorem send (h : s.Inv) (ok : Bool) : (s.step (.send ok)).Inv := by
  simp only [step]
  split
  · rename_i r rest hlistening houtbound
    have hrest : Inv { s with outbound := rest } := by
      refine { h with asked := fun r' hr' => h.asked r' ?_ }
      rw [houtbound]
      exact List.mem_cons_of_mem _ hr'
    split
    · refine { h with asked := fun r' hr' => h.asked r' ?_ }
      rw [houtbound]
      simp only [List.mem_append, List.mem_cons] at hr' ⊢
      tauto
    · split
      · exact hrest.abandon
      · exact hrest
  · exact h

theorem answer (h : s.Inv) {n : Nat} (hcond : s.Registered (.answer n)) : (s.step (.answer n)).Inv := by
  simp only [step]
  split
  · rename_i r hlistening hr
    have hmem : r ∈ s.outbound ++ s.agent := List.mem_append_right _ (List.mem_of_getElem? hr)
    have hrest : Inv { s with agent := s.agent.eraseIdx n } := by
      refine { h with asked := fun r' hr' => h.asked r' ?_ }
      exact (List.mem_append.mp hr').elim (List.mem_append_left _)
        fun hr' => List.mem_append_right _ (List.mem_of_mem_eraseIdx hr')
    refine hrest.route (fun id hid => ?_) (fun id c hid hc haw => ?_)
    · obtain rfl := Option.some.inj hid
      exact (h.asked r hmem).1
    · obtain rfl := Option.some.inj hid
      obtain ⟨rfl, hphase⟩ := (h.asked r hmem).2 c hc
      exact ⟨⟨haw.1, .inl (haw.2.resolve_left hphase)⟩, hcond _ hr⟩
  · exact h

theorem close (h : s.Inv) : (s.step .close).Inv := by
  refine { h with
    held := fun hc hneeds => h.held hc ⟨hneeds.1, .inl (hneeds.2.resolve_right fun hp => (nomatch hp.2))⟩
    ended := fun cids hcids => ⟨rfl, (h.ended cids hcids).2⟩ }

theorem stop (h : s.Inv) : (s.step .stop).Inv := by
  simp only [step]
  split
  · rename_i hstop
    refine { h with ended := fun cids hcids => ⟨hstop.1, fun id c hc hphase hrx => ?_⟩ }
    obtain rfl := Option.some.inj hcids
    rw [SortedMap.mem_keys, (h.held hc ⟨hrx, .inl hphase⟩).2]
    rfl
  · exact h

theorem abandonNext (h : s.Inv) : (s.step .abandonNext).Inv := by
  simp only [step]
  split
  · rename_i cid rest hcids
    split
    · rename_i b hget
      have hall := h.abandonAll b
      refine { hall with ended := fun cids hrest => ⟨(h.ended _ hcids).1, fun id c hc hphase hrx => ?_⟩ }
      obtain rfl := Option.some.inj hrest
      refine List.mem_of_ne_of_mem (fun hcid => ?_) ((hall.ended _ hcids).2 id c hc hphase hrx)
      obtain ⟨hmem, hget'⟩ := hall.held hc ⟨hrx, .inl hphase⟩
      rw [hcid] at hget'
      obtain rfl := Option.mem_unique hget hget'
      have hempty : (s.abandonAll c.backend).expectedRequests c.backend = ∅ := update_self ..
      rw [hempty] at hmem
      exact absurd hmem (Finset.notMem_empty _)
    · rename_i hget
      refine { h with ended := fun cids hrest => ⟨(h.ended _ hcids).1, fun id c hc hphase hrx => ?_⟩ }
      obtain rfl := Option.some.inj hrest
      refine List.mem_of_ne_of_mem (fun hcid => ?_) ((h.ended _ hcids).2 id c hc hphase hrx)
      have hget' := (h.held hc ⟨hrx, .inl hphase⟩).2
      rw [hcid] at hget'
      cases hget.symm.trans hget'
  · exact h

theorem step (h : s.Inv) (act : ConnectionAct) (hcond : s.Registered act) : (s.step act).Inv := by
  cases act with
  | multiplex cid => exact h.multiplex hcond
  | sendAndWait backend batch =>
    simp only [Connection.step]
    split
    · exact h
    · rename_i cid hcid
      exact h.sendAndWait batch fun hlistening => hcond hlistening cid hcid
  | poll id => exact h.poll
  | dropFuture id => exact h.dropFuture
  | bypass sourceId answerCid =>
    simp only [Connection.step]
    split
    · exact h.pushNew sourceId answerCid
    · exact h
  | pollSessions sourceId =>
    simp only [Connection.step]
    split
    · refine { h.pushNew sourceId LOOPBACK_ONLY with background := fun id hid => ?_ }
      obtain rfl | hid := List.mem_cons.mp hid
      · exact ⟨Nat.lt_succ_self _, h.calls_ids⟩
      · exact (h.pushNew sourceId LOOPBACK_ONLY).background id hid
    · exact h
  | send ok => exact h.send ok
  | answer n => exact h.answer hcond
  | notify cid =>
    simp only [Connection.step]
    split
    · exact h.route (nofun) (fun _ _ hid => (nomatch hid))
    · exact h
  | close => exact h.close
  | stop => exact h.stop
  | abandonNext => exact h.abandonNext

end Inv

theorem inv_of_run (h : ConnectionRun Registered s) : s.Inv := by
  induction h with
  | new => exact inv_new
  | step act _ hcond ih => exact ih.step act hcond

theorem Inv.poll_completes (h : s.Inv) (hended : s.abandoning = some []) {id : Nat} {c : Call} (hc : s.calls id = some c)
    (hlive : c.phase = .registered ∨ c.phase = .waiting) :
    ∃ outcome, (id, outcome) ∈ (s.poll id).returned := by
  obtain ⟨hlistening, hcalls⟩ := h.ended [] hended
  unfold Connection.poll
  simp only [hc]
  obtain hphase | hphase := hlive
  · simp only [hphase, hlistening]
    exact ⟨_, List.mem_cons_self⟩
  · simp only [hphase]
    cases hrx : c.rx with
    | empty => exact absurd (hcalls id c hc hphase hrx) List.not_mem_nil
    | sent response => exact ⟨_, List.mem_cons_self⟩
    | closed => exact ⟨_, List.mem_cons_self⟩

theorem abandonNext_ends (cids : List Nat) (h : s.abandoning = some cids) :
    ((fun s : Connection => s.step .abandonNext)^[cids.length] s).abandoning = some [] := by
  induction cids generalizing s with
  | nil => exact h
  | cons cid rest ih =>
    rw [List.length_cons, Function.iterate_succ_apply]
    apply ih
    simp only [step, h]
    split
    · rfl
    · rfl

theorem stop_ends (h : s.listening = false) :
    ∃ n, ((fun s : Connection => s.step .abandonNext)^[n] (s.step .stop)).abandoning = some [] := by
  cases habandoning : s.abandoning with
  | none => exact ⟨s.backends.keys.length, abandonNext_ends _ (by simp [step, h, habandoning])⟩
  | some cids => exact ⟨cids.length, abandonNext_ends _ (by simp [step, habandoning])⟩

end Connection

def askedTwice : Connection :=
  [.multiplex 7, .sendAndWait 0 false, .poll 0, .send true, .answer 0, .poll 0, .sendAndWait 0 true, .poll 1, .close,
    .stop, .abandonNext].foldl Connection.step .new

/-- A second `multiplex` for the CID replaces the backend while it waits. -/
def replaced : Connection :=
  [.multiplex 7, .sendAndWait 0 false, .poll 0, .send true, .multiplex 7, .answer 0, .close, .stop,
    .abandonNext].foldl Connection.step .new

end CitadelAgent.Messenger
