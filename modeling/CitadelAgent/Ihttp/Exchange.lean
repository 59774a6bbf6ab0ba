import CitadelAgent.Ihttp.Pair

/-!
# Internal HTTP: one exchange

An exchange is two channels under credit, the request's and the response's: whatever else the two instances do, what
they keep for it, what is on its way and what was seen of it follow from the two channels.

* `Exchange.Ok` : each channel carries its own message, and an answer is only given to a request that has come whole;
* `View` : all the pair keeps for one exchange; `Exchange.view` and `Pair.view` read it off either level.
-/

namespace CitadelAgent.Ihttp
open Credit Function

def Call.head (call : Call) : RequestHead := Clients.requestHead call.to_ call.request

def Call.text (call : Call) : List FrameKind := message (.requestHead call.head) call.request.body

def Reply.text (reply : Reply) : List FrameKind := message (.responseHead reply.head) reply.body

structure Exchange where
  call : Option Call
  reply : Option Reply
  request : Channel FrameKind
  response : Channel FrameKind
  headVia : Via
  endVia : Via
  replyVia : Via

/-- All the pair keeps for one exchange. -/
@[ext]
structure View where
  call : Option Call
  reply : Option Reply
  stream : Option Stream
  incoming : Option Incoming
  outgoing : Option Outgoing
  forward : List FrameKind
  backward : List FrameKind
  requestOwed : Nat
  responseOwed : Nat
  requestGranted : Nat
  responseGranted : Nat
  writers : List ResponseWriter
  runs : List Request
  events : List ClientEvent
  callSent : List FrameKind
  replySent : List FrameKind

variable {wire : List FrameKind} {reply : Reply}

namespace Exchange

def fresh : Exchange := ⟨none, none, .fresh IHTTP_INITIAL_CREDIT, .fresh IHTTP_INITIAL_CREDIT, .p2p, .p2p, .p2p⟩

def handled (x : Exchange) : Bool := decide (.end_ ∈ x.request.received)

def finished (x : Exchange) : Bool := decide (.end_ ∈ x.response.received)

structure Ok (x : Exchange) : Prop where
  request : x.request.Ok FrameKind.paid IHTTP_INITIAL_CREDIT
  response : x.response.Ok FrameKind.paid IHTTP_INITIAL_CREDIT
  requestText : x.request.text = x.call.elim [] Call.text
  responseText : x.response.text = x.reply.elim [] Reply.text
  replied : x.reply ≠ none → x.handled = true

def event (via : Via) : FrameKind → Option ClientEvent
  | .responseHead head => some (.head head via)
  | .body bytes => some (.body bytes)
  | .end_ => some .end_
  | _ => none

section

variable (who : Side → Caller) (a : Side) (n : Nat) (x : Exchange)

def caller : Caller := stamped who a x.headVia

def assembled : Option (RequestHead × List UInt8) :=
  match x.request.received with
  | .requestHead head :: rest => some (head, bodyOf rest)
  | _ => none

def view : View :=
  { call := x.call
    reply := x.reply
    stream :=
      if x.finished = true then none
      else x.call.map fun call => ⟨call.to_, call.transport, true, ⟨x.request.credit, x.request.queued⟩⟩
    incoming :=
      if x.handled = true then none else x.assembled.map fun r => ⟨x.caller who a, r.1, r.2⟩
    outgoing :=
      if x.handled = true ∧ (x.reply = none ∨ x.response.queued ≠ []) then
        some ⟨stamped who a x.endVia, ⟨x.response.credit, x.response.queued⟩⟩
      else none
    forward := x.request.wire
    backward := x.response.wire
    requestOwed := x.request.owed
    responseOwed := x.response.owed
    requestGranted := x.request.granted
    responseGranted := x.response.granted
    writers := if x.handled = true ∧ x.reply = none then [⟨x.caller who a, n⟩] else []
    runs :=
      if x.handled = true then
        x.assembled.toList.map fun r =>
          ⟨x.caller who a, n, r.1.method, r.1.path, r.1.query, r.1.headers, r.2⟩
      else []
    events := x.response.received.filterMap (event x.replyVia)
    callSent := x.request.sent
    replySent := x.response.sent }

@[simp] theorem view_forward : (x.view who a n).forward = x.request.wire := rfl

@[simp] theorem view_backward : (x.view who a n).backward = x.response.wire := rfl

@[simp] theorem view_requestOwed : (x.view who a n).requestOwed = x.request.owed := rfl

@[simp] theorem view_responseOwed : (x.view who a n).responseOwed = x.response.owed := rfl

@[simp] theorem view_requestGranted : (x.view who a n).requestGranted = x.request.granted := rfl

@[simp] theorem view_responseGranted : (x.view who a n).responseGranted = x.response.granted := rfl

@[simp] theorem view_callSent : (x.view who a n).callSent = x.request.sent := rfl

@[simp] theorem view_replySent : (x.view who a n).replySent = x.response.sent := rfl

end

/-! ## What an exchange in order is like -/

theorem ok_fresh : fresh.Ok :=
  ⟨Channel.ok_fresh _, Channel.ok_fresh _, rfl, rfl, fun h => absurd rfl h⟩

variable {x : Exchange}

theorem whole_of_end {ch : Channel FrameKind} {head : FrameKind} {body : List UInt8} (htext : ch.text = message head body)
    (hhead : head ≠ .end_) (hend : .end_ ∈ ch.received) :
    ch.received = message head body ∧ ch.wire = [] ∧ ch.queued = [] := by
  obtain ⟨before, after, hsplit⟩ := List.append_of_mem hend
  have hplace : before ++ .end_ :: (after ++ (ch.wire ++ ch.queued)) = message head body := by
    rw [← htext, Channel.text, hsplit]
    simp
  rcases message_cases hplace with ⟨-, h⟩ | ⟨_, _, -, h⟩ | ⟨-, -, hafter⟩
  · exact absurd h.symm hhead
  · cases h
  · simp only [List.append_eq_nil_iff] at hafter
    obtain ⟨rfl, hwire, hqueued⟩ := hafter
    refine ⟨?_, hwire, hqueued⟩
    rw [← htext, Channel.text, hwire, hqueued]
    simp

theorem Ok.of_handled (h : x.Ok) (hhandled : x.handled = true) :
    ∃ call, x.call = some call ∧ x.request.received = call.text ∧ x.request.wire = [] ∧ x.request.queued = [] := by
  have hend : .end_ ∈ x.request.received := of_decide_eq_true hhandled
  have htext := h.requestText
  cases hcall : x.call with
  | none =>
      simp only [hcall, Option.elim_none, Channel.text, List.append_eq_nil_iff] at htext
      simp [htext.1] at hend
  | some call =>
      rw [hcall] at htext
      exact ⟨call, rfl, whole_of_end htext (by simp) hend⟩

theorem Ok.of_finished (h : x.Ok) (hfinished : x.finished = true) :
    ∃ reply, x.reply = some reply ∧ x.response.received = reply.text ∧ x.response.wire = [] ∧
      x.response.queued = [] := by
  have hend : .end_ ∈ x.response.received := of_decide_eq_true hfinished
  have htext := h.responseText
  cases hreply : x.reply with
  | none =>
      simp only [hreply, Option.elim_none, Channel.text, List.append_eq_nil_iff] at htext
      simp [htext.1] at hend
  | some reply =>
      rw [hreply] at htext
      exact ⟨reply, rfl, whole_of_end htext (by simp) hend⟩

theorem Ok.reply_none (h : x.Ok) (hhandled : x.handled = false) : x.reply = none := by
  by_contra hreply
  simp [h.replied hreply] at hhandled

theorem Ok.response_fresh (h : x.Ok) (hreply : x.reply = none) : x.response = .fresh IHTTP_INITIAL_CREDIT := by
  apply h.response.eq_fresh
  simpa [hreply] using h.responseText

theorem Ok.view_unopened (h : x.Ok) (hcall : x.call = none) (who : Side → Caller) (a : Side) (n : Nat) :
    x.view who a n = fresh.view who a n := by
  have hrequest : x.request = .fresh IHTTP_INITIAL_CREDIT := h.request.eq_fresh (by simpa [hcall] using h.requestText)
  have hhandled : x.handled = false := by simp [handled, hrequest, Channel.fresh]
  have hreply := h.reply_none hhandled
  have hresponse := h.response_fresh hreply
  simp [view, handled, finished, assembled, Channel.sent, hcall, hreply, hrequest, hresponse, fresh, Channel.fresh]

/-! ## The steps of an exchange -/

def outbox (ch : Channel FrameKind) : Outbox := ⟨ch.credit, ch.queued⟩

/-- The outbox that sends a message on a channel nothing waits on. -/
def sending (text : List FrameKind) : Outbox := ⟨IHTTP_INITIAL_CREDIT, text⟩

def opened (call : Call) : Exchange :=
  { fresh with call := some call, request := (Channel.fresh IHTTP_INITIAL_CREDIT).push FrameKind.paid call.text }

def answered (reply : Reply) (x : Exchange) : Exchange :=
  { x with reply := some reply, response := x.response.push FrameKind.paid reply.text }

def grantRequest (m : Nat) (x : Exchange) : Exchange := { x with request := x.request.grant FrameKind.paid m }

def grantResponse (m : Nat) (x : Exchange) : Exchange := { x with response := x.response.grant FrameKind.paid m }

def readRequest (kind : FrameKind) (wire : List FrameKind) (x : Exchange) : Exchange :=
  { x with request := x.request.read FrameKind.paid kind wire }

def readResponse (kind : FrameKind) (wire : List FrameKind) (x : Exchange) : Exchange :=
  { x with response := x.response.read FrameKind.paid kind wire }

theorem ok_opened (call : Call) : (opened call).Ok where
  request := (Channel.ok_fresh _).push _
  response := Channel.ok_fresh _
  requestText := Channel.text_push call.text _
  responseText := rfl
  replied h := absurd rfl h

theorem Ok.answered (h : x.Ok) (hhandled : x.handled = true) (hreply : x.reply = none) (reply : Reply) :
    (x.answered reply).Ok where
  request := h.request
  response := h.response.push _
  requestText := h.requestText
  responseText := by
    show (x.response.push FrameKind.paid reply.text).text = reply.text
    rw [Channel.text_push, h.response_fresh hreply]
    rfl
  replied _ := hhandled

theorem Ok.grantRequest (h : x.Ok) {m : Nat} (hm : m ≤ x.request.owed) : (x.grantRequest m).Ok where
  request := h.request.grant hm
  response := h.response
  requestText := (Channel.text_grant m _).trans h.requestText
  responseText := h.responseText
  replied := h.replied

theorem Ok.grantResponse (h : x.Ok) {m : Nat} (hm : m ≤ x.response.owed) : (x.grantResponse m).Ok where
  request := h.request
  response := h.response.grant hm
  requestText := h.requestText
  responseText := (Channel.text_grant m _).trans h.responseText
  replied := h.replied

theorem Ok.readRequest (h : x.Ok) {kind : FrameKind} (hwire : x.request.wire = kind :: wire) :
    (x.readRequest kind wire).Ok where
  request := h.request.read hwire
  response := h.response
  requestText := (Channel.text_read hwire).trans h.requestText
  responseText := h.responseText
  replied hreply := by
    have hend : .end_ ∈ x.request.received := of_decide_eq_true (h.replied hreply)
    exact decide_eq_true (List.mem_append_left _ hend)

theorem Ok.readResponse (h : x.Ok) {kind : FrameKind} (hwire : x.response.wire = kind :: wire) :
    (x.readResponse kind wire).Ok where
  request := h.request
  response := h.response.read hwire
  requestText := h.requestText
  responseText := (Channel.text_read hwire).trans h.responseText
  replied := h.replied

theorem Ok.via (h : x.Ok) (headVia endVia replyVia : Via) :
    Ok { x with headVia := headVia, endVia := endVia, replyVia := replyVia } :=
  ⟨h.request, h.response, h.requestText, h.responseText, h.replied⟩

/-! ## How a step changes the view -/

section Views

variable (who : Side → Caller) (a : Side) (n : Nat)

theorem view_opened (call : Call) :
    (opened call).view who a n =
      { fresh.view who a n with
        call := some call
        stream := some ⟨call.to_, call.transport, true, (sending call.text).kept⟩
        forward := (sending call.text).drained
        callSent := (sending call.text).drained } := rfl

theorem Ok.view_outgoing (h : x.Ok) (hhandled : x.handled = true) (hreply : x.reply = none) :
    (x.view who a n).outgoing = some ⟨stamped who a x.endVia, .new⟩ := by
  have hfresh := h.response_fresh hreply
  simp [view, hhandled, hreply, hfresh, Channel.fresh, Outbox.new]

theorem outgoing_kept {before : List FrameKind} (ob : Outbox) (h : before ++ ob.queued = reply.text) (hqueued : ob.queued ≠ [])
    (peer : Caller) :
    (if ob.kept.queued ≠ [] then some (⟨peer, ob.kept⟩ : Outgoing) else none) =
      if ob.drained.any FrameKind.last = true then none else some ⟨peer, ob.kept⟩ := by
  have hlast := Outbox.drained_last h rfl hqueued
  by_cases hkept : ob.kept.queued = []
  · rw [if_neg (not_not.mpr hkept), if_pos (hlast.mpr hkept)]
  · rw [if_pos hkept, if_neg fun hany => hkept (hlast.mp hany)]

theorem Ok.view_answered (h : x.Ok) (hhandled : x.handled = true) (hreply : x.reply = none) (reply : Reply) :
    (x.answered reply).view who a n =
      { x.view who a n with
        reply := some reply
        outgoing :=
          if (sending reply.text).drained.any FrameKind.last = true then none
          else some ⟨stamped who a x.endVia, (sending reply.text).kept⟩
        backward := (sending reply.text).drained
        writers := []
        replySent := (sending reply.text).drained } := by
  have hfresh := h.response_fresh hreply
  have houtgoing := outgoing_kept (sending reply.text) (List.nil_append _) (by simp [sending, Reply.text, message])
    (stamped who a x.endVia)
  have hx : x.answered reply = { x with
      reply := some reply
      response := ⟨(sending reply.text).kept.queued, (sending reply.text).kept.credit, (sending reply.text).drained, [],
        0, 0⟩ } := by
    rw [Exchange.answered, hfresh]
    rfl
  have hend : .end_ ∈ x.request.received := of_decide_eq_true hhandled
  rw [← houtgoing, hx]
  simp [view, handled, finished, assembled, caller, Channel.sent, hfresh, Channel.fresh, hend]

theorem view_grantRequest {call : Call} (hcall : x.call = some call) (hfinished : x.finished = false) (m : Nat) :
    (x.grantRequest m).view who a n =
      let ob : Outbox := ⟨x.request.credit + m, x.request.queued⟩
      { x.view who a n with
        stream := some ⟨call.to_, call.transport, true, ob.kept⟩
        forward := x.request.wire ++ ob.drained
        requestOwed := x.request.owed - m
        requestGranted := x.request.granted + m
        callSent := x.request.sent ++ ob.drained } := by
  have hfinished' : (x.grantRequest m).finished = false := hfinished
  ext1
  case stream =>
      show (if (x.grantRequest m).finished = true then none else _) = _
      rw [hfinished', if_neg Bool.false_ne_true]
      simp [grantRequest, hcall, Channel.grant, Channel.flush, Outbox.kept]
  case callSent => simp [view, grantRequest, Channel.sent, Channel.grant, Channel.flush, Outbox.drained]
  all_goals rfl

theorem view_grantRequest_sent (hqueued : x.request.queued = []) (hfinished : x.finished = true) (m : Nat) :
    (x.grantRequest m).view who a n =
      { x.view who a n with requestOwed := x.request.owed - m, requestGranted := x.request.granted + m } := by
  have hfinished' : (x.grantRequest m).finished = true := hfinished
  have hgrant : x.request.grant FrameKind.paid m = _ := Channel.grant_idle hqueued m
  ext1
  case stream => simp [view, hfinished, hfinished']
  case forward => simp [view, grantRequest, hgrant]
  case callSent => simp [view, grantRequest, hgrant, Channel.sent]
  all_goals rfl

theorem Ok.view_grantResponse (h : x.Ok) (hreply : x.reply = some reply) (hqueued : x.response.queued ≠ []) (m : Nat) :
    (x.grantResponse m).view who a n =
      let ob : Outbox := ⟨x.response.credit + m, x.response.queued⟩
      { x.view who a n with
        outgoing :=
          if ob.drained.any FrameKind.last = true then none else some ⟨stamped who a x.endVia, ob.kept⟩
        backward := x.response.wire ++ ob.drained
        responseOwed := x.response.owed - m
        responseGranted := x.response.granted + m
        replySent := x.response.sent ++ ob.drained } := by
  have hhandled : (x.grantResponse m).handled = true := h.replied (by simp [hreply])
  have htext : (x.response.received ++ x.response.wire) ++ x.response.queued = reply.text := by
    have := h.responseText
    rw [hreply, Channel.text, ← List.append_assoc] at this
    exact this
  have houtgoing := outgoing_kept ⟨x.response.credit + m, x.response.queued⟩ htext hqueued (stamped who a x.endVia)
  ext1
  case outgoing =>
      show (if (x.grantResponse m).handled = true ∧ _ then _ else _) = _
      rw [hhandled]
      refine Eq.trans ?_ houtgoing
      simp only [Exchange.grantResponse, hreply, Channel.grant, Channel.flush, Outbox.kept, true_and, reduceCtorEq,
        false_or]
      congr
  case replySent => simp [view, Exchange.grantResponse, Channel.sent, Channel.grant, Channel.flush, Outbox.drained]
  all_goals rfl

theorem view_grantResponse_sent (hreply : x.reply ≠ none) (hqueued : x.response.queued = []) (m : Nat) :
    (x.grantResponse m).view who a n =
      { x.view who a n with responseOwed := x.response.owed - m, responseGranted := x.response.granted + m } := by
  have hgrant : x.response.grant FrameKind.paid m = _ := Channel.grant_idle hqueued m
  ext1
  case outgoing => simp [view, grantResponse, hgrant, hqueued, hreply]
  case backward => simp [view, grantResponse, hgrant]
  case replySent => simp [view, grantResponse, hgrant, Channel.sent]
  all_goals rfl

theorem view_readHead {call : Call} (hreceived : x.request.received = [])
    (hwire : x.request.wire = .requestHead call.head :: wire) (via : Via) :
    view who a n { x.readRequest (.requestHead call.head) wire with headVia := via } =
      { x.view who a n with incoming := some ⟨stamped who a via, call.head, []⟩, forward := wire } := by
  simp [view, readRequest, Channel.read, handled, finished, assembled, caller, Channel.sent, hreceived, hwire, bodyOf,
    FrameKind.paid]

variable {call : Call} {chunks : List (List UInt8)} {wire : List FrameKind}

theorem view_incoming (hreceived : x.request.received = .requestHead call.head :: chunks.map .body) :
    (x.view who a n).incoming = some ⟨x.caller who a, call.head, chunks.flatten⟩ := by
  simp [view, handled, assembled, hreceived, bodyOf_map]

theorem view_readBody {bytes : List UInt8} (hreceived : x.request.received = .requestHead call.head :: chunks.map .body)
    (hwire : x.request.wire = .body bytes :: wire) :
    view who a n (x.readRequest (.body bytes) wire) =
      { x.view who a n with
        incoming := some ⟨x.caller who a, call.head, chunks.flatten ++ bytes⟩
        forward := wire
        requestOwed := x.request.owed + 1 } := by
  have hbody : bodyOf (chunks.map FrameKind.body ++ [.body bytes]) = chunks.flatten ++ bytes := by
    rw [bodyOf_append, bodyOf_map]
    simp [bodyOf]
  simp [view, readRequest, Channel.read, handled, finished, assembled, caller, Channel.sent, hreceived, hwire, hbody,
    FrameKind.paid]

theorem Ok.view_readEnd (h : x.Ok) (hreceived : x.request.received = .requestHead call.head :: chunks.map .body)
    (hwire : x.request.wire = .end_ :: wire) (via : Via) :
    view who a n { x.readRequest .end_ wire with endVia := via } =
      { x.view who a n with
        incoming := none
        outgoing := some ⟨stamped who a via, .new⟩
        forward := wire
        writers := [⟨x.caller who a, n⟩]
        runs :=
          [⟨x.caller who a, n, call.head.method, call.head.path, call.head.query, call.head.headers, chunks.flatten⟩] } := by
  have hhandled : x.handled = false := by simp [handled, hreceived]
  have hreply := h.reply_none hhandled
  have hfresh := h.response_fresh hreply
  have hbody : bodyOf (chunks.map FrameKind.body ++ [.end_]) = chunks.flatten := by
    rw [bodyOf_append, bodyOf_map]
    simp [bodyOf]
  simp [view, Exchange.readRequest, Channel.read, handled, finished, assembled, caller, Channel.sent, hreceived, hwire,
    hbody, FrameKind.paid, hreply, hfresh, Channel.fresh, Outbox.new]

theorem view_readReplyHead (hreceived : x.response.received = []) (hwire : x.response.wire = .responseHead reply.head :: wire)
    (via : Via) :
    view who a n { x.readResponse (.responseHead reply.head) wire with replyVia := via } =
      { x.view who a n with backward := wire, events := [.head reply.head via] } := by
  simp [view, readResponse, Channel.read, handled, finished, assembled, caller, Channel.sent, hreceived, hwire,
    FrameKind.paid, event]

theorem view_readReplyBody {bytes : List UInt8} (hwire : x.response.wire = .body bytes :: wire) :
    view who a n (x.readResponse (.body bytes) wire) =
      { x.view who a n with
        backward := wire
        responseOwed := x.response.owed + 1
        events := (x.view who a n).events ++ [.body bytes] } := by
  simp [view, readResponse, Channel.read, handled, finished, assembled, caller, Channel.sent, hwire, FrameKind.paid, event]

theorem view_readReplyEnd (hwire : x.response.wire = .end_ :: wire) :
    view who a n (x.readResponse .end_ wire) =
      { x.view who a n with
        stream := none
        backward := wire
        events := (x.view who a n).events ++ [.end_] } := by
  simp [view, readResponse, Channel.read, handled, finished, assembled, caller, Channel.sent, hwire, FrameKind.paid, event]

end Views

end Exchange

end CitadelAgent.Ihttp
