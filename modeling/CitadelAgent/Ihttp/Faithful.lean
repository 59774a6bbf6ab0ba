import CitadelAgent.Ihttp.Exchange

/-!
# Internal HTTP: every exchange on its own

While every frame goes to the side it is meant for, the exchanges of a pair do not touch each other: each step moves one
of them, and what the pair keeps for all the others is as it was.

* `Refines` : every exchange of the pair is an `Exchange` in order;
* `Refines.step` : a routed step moves one exchange;
* `faithful_of_routed` : so every exchange is faithful as long as every frame is routed to the side it is meant for.
-/

namespace CitadelAgent.Ihttp
open Credit Function

variable {a' : Side} {m n' : Nat}

section

variable (who : Side → Caller)

/-- The kind of a frame of the exchange `(a, n)`. -/
def Packet.of (a : Side) (n : Nat) (p : Packet) : Option FrameKind :=
  if p.opener = a ∧ p.frame.stream = n then some p.frame.kind else none

def Pair.view (s : Pair) (a : Side) (n : Nat) : View :=
  { call := s.called (a, n)
    reply := s.answered (a, n)
    stream := (s.sdk a).clients.streams ((who a.other).appId, n)
    incoming := (s.sdk a.other).server.incoming (key (who a) n)
    outgoing := (s.sdk a.other).server.outgoing (key (who a) n)
    forward := (s.frames a).filterMap (Packet.of a n)
    backward := (s.frames a.other).filterMap (Packet.of a n)
    requestOwed := s.owed (a.other, a, n)
    responseOwed := s.owed (a, a, n)
    requestGranted := s.granted (a, a, n)
    responseGranted := s.granted (a.other, a, n)
    writers := (s.writers a.other).filter fun w => decide (w.stream = n)
    runs := s.runs a n
    events := s.events a n
    callSent := s.callSent a n
    replySent := s.replySent a n }

/-! ## What one side does, seen from each exchange -/

/-- An effect of a side that serves the stream `n`. -/
inductive Effect.Serving (n : Nat) : Effect → Prop
  | respond (peer : Caller) (kind : FrameKind) : Serving n (.host (.respond peer (.new n kind)))
  | consumed (peer : Caller) : Serving n (.host (.consumed peer n))
  | handler {request : Request} {writer : ResponseWriter} :
      request.stream = n → writer.stream = n → Serving n (.handler request writer)

/-- An effect of a side that opened the stream `n`. -/
inductive Effect.Calling (n : Nat) : Effect → Prop
  | call (to_ : Address) (kind : FrameKind) (transport : Transport) : Calling n (.host (.call to_ (.new n kind) transport))
  | consumed (peer : Caller) : Calling n (.host (.consumed peer n))
  | sink (appId : String) (event : ClientEvent) : Calling n (.sink (appId, n) event)

theorem serving_responds (peer : Caller) (n : Nat) (kinds : List FrameKind) :
    ∀ e ∈ responds peer n kinds, e.Serving n := by
  intro e he
  obtain ⟨kind, -, rfl⟩ := List.mem_map.mp he
  exact .respond peer kind

theorem calling_calls (to_ : Address) (transport : Transport) (n : Nat) (kinds : List FrameKind) :
    ∀ e ∈ calls to_ transport n kinds, e.Calling n := by
  intro e he
  obtain ⟨kind, -, rfl⟩ := List.mem_map.mp he
  exact .call to_ kind transport

variable {who} {s : Pair} {a : Side} {n : Nat} {sdk : Sdk} {effects : List Effect}

theorem view_after_serving (hserving : ∀ e ∈ effects, e.Serving n) :
    (s.after a.other a n sdk effects).view who a n =
      { s.view who a n with
        incoming := sdk.server.incoming (key (who a) n)
        outgoing := sdk.server.outgoing (key (who a) n)
        backward := (s.view who a n).backward ++ effects.filterMap (Effect.replyFrame n)
        requestOwed := (s.view who a n).requestOwed + effects.countP Effect.isConsumed
        writers := (s.view who a n).writers ++ effects.filterMap Effect.writer
        runs := (s.view who a n).runs ++ effects.filterMap (Effect.ran n)
        replySent := (s.view who a n).replySent ++ effects.filterMap (Effect.replyFrame n) } := by
  have hpackets : (effects.filterMap (Effect.packet a.other)).filterMap (Packet.of a n) =
      effects.filterMap (Effect.replyFrame n) := by
    rw [List.filterMap_filterMap]
    apply List.filterMap_congr
    intro e he
    cases hserving e he <;> simp [Effect.packet, Effect.replyFrame, Packet.of, IhttpFrame.new]
  have hwriters : (effects.filterMap Effect.writer).filter (fun w => decide (w.stream = n)) =
      effects.filterMap Effect.writer := by
    rw [List.filter_eq_self]
    intro w hw
    obtain ⟨e, he, hwriter⟩ := List.mem_filterMap.mp hw
    cases hserving e he with
    | respond peer kind => cases hwriter
    | consumed peer => cases hwriter
    | handler hrequest hstream =>
        obtain rfl := Option.some.inj hwriter
        simp [hstream]
  simp [Pair.view, Pair.after, Pair.runs, Pair.events, Pair.callSent, Pair.replySent, hpackets, hwriters]

theorem view_after_calling (hcalling : ∀ e ∈ effects, e.Calling n) :
    (s.after a a n sdk effects).view who a n =
      { s.view who a n with
        stream := sdk.clients.streams ((who a.other).appId, n)
        forward := (s.view who a n).forward ++ effects.filterMap (Effect.callFrame n)
        responseOwed := (s.view who a n).responseOwed + effects.countP Effect.isConsumed
        events := (s.view who a n).events ++ effects.filterMap (Effect.heard n)
        callSent := (s.view who a n).callSent ++ effects.filterMap (Effect.callFrame n) } := by
  have hpackets : (effects.filterMap (Effect.packet a)).filterMap (Packet.of a n) =
      effects.filterMap (Effect.callFrame n) := by
    rw [List.filterMap_filterMap]
    apply List.filterMap_congr
    intro e he
    cases hcalling e he <;> simp [Effect.packet, Effect.callFrame, Packet.of, IhttpFrame.new]
  simp [Pair.view, Pair.after, Pair.runs, Pair.events, Pair.callSent, Pair.replySent, hpackets]

theorem filterMap_none {α : Type} {P : Effect → Prop} {f : Effect → Option α} (heffects : ∀ e ∈ effects, P e)
    (hf : ∀ e, P e → f e = none) : effects.filterMap f = [] :=
  List.filterMap_eq_nil_iff.mpr fun e he => hf e (heffects e he)

theorem view_after_serving_other (hserving : ∀ e ∈ effects, e.Serving n) (hclients : sdk.clients = (s.sdk a.other).clients)
    (hserver : ∀ n' ≠ n, sdk.server.incoming (key (who a) n') = (s.sdk a.other).server.incoming (key (who a) n') ∧ sdk.server.outgoing (key (who a) n') = (s.sdk a.other).server.outgoing (key (who a) n'))
    (hne : (a', n') ≠ (a, n)) :
    (s.after a.other a n sdk effects).view who a' n' = s.view who a' n' := by
  rcases Side.eq_or_other a a' with rfl | rfl
  · have hn : n' ≠ n := fun h => hne (by rw [h])
    have hpackets : (effects.filterMap (Effect.packet a'.other)).filterMap (Packet.of a' n') = [] := by
      rw [List.filterMap_filterMap]
      apply filterMap_none hserving
      rintro e (⟨peer, kind⟩ | ⟨peer⟩ | ⟨hrequest, hwriter⟩)
      · simp [Effect.packet, Packet.of, IhttpFrame.new, hn.symm]
      · rfl
      · rfl
    have hwriters : (effects.filterMap Effect.writer).filter (fun w => decide (w.stream = n')) = [] := by
      rw [List.filter_filterMap]
      apply filterMap_none hserving
      rintro e (⟨peer, kind⟩ | ⟨peer⟩ | ⟨hrequest, hwriter⟩)
      · rfl
      · rfl
      · simp [Effect.writer, hwriter, hn.symm]
    have hruns : effects.filterMap (Effect.ran n') = [] := by
      apply filterMap_none hserving
      rintro e (⟨peer, kind⟩ | ⟨peer⟩ | ⟨hrequest, hwriter⟩)
      · rfl
      · rfl
      · simp [Effect.ran, hrequest, hn.symm]
    have hreplies : effects.filterMap (Effect.replyFrame n') = [] := by
      apply filterMap_none hserving
      rintro e (⟨peer, kind⟩ | ⟨peer⟩ | ⟨hrequest, hwriter⟩)
      · simp [Effect.replyFrame, IhttpFrame.new, hn.symm]
      · rfl
      · rfl
    simp [Pair.view, Pair.after, Pair.runs, Pair.events, Pair.callSent, Pair.replySent, hpackets, hwriters, hruns,
      hreplies, hserver n' hn, hn]
  · have hpackets : (effects.filterMap (Effect.packet a.other)).filterMap (Packet.of a.other n') = [] := by
      rw [List.filterMap_filterMap]
      apply filterMap_none hserving
      rintro e (⟨peer, kind⟩ | ⟨peer⟩ | ⟨hrequest, hwriter⟩)
      · simp [Effect.packet, Packet.of]
      · rfl
      · rfl
    have hheard : effects.filterMap (Effect.heard n') = [] := by
      apply filterMap_none hserving
      rintro e (⟨peer, kind⟩ | ⟨peer⟩ | ⟨hrequest, hwriter⟩) <;> rfl
    have hcalls : effects.filterMap (Effect.callFrame n') = [] := by
      apply filterMap_none hserving
      rintro e (⟨peer, kind⟩ | ⟨peer⟩ | ⟨hrequest, hwriter⟩) <;> rfl
    simp [Pair.view, Pair.after, Pair.runs, Pair.events, Pair.callSent, Pair.replySent, hpackets, hheard, hcalls,
      hclients]

theorem view_after_calling_other (hcalling : ∀ e ∈ effects, e.Calling n) (hserver : sdk.server = (s.sdk a).server)
    (hclients : ∀ n' ≠ n, sdk.clients.streams ((who a.other).appId, n') = (s.sdk a).clients.streams ((who a.other).appId, n'))
    (hne : (a', n') ≠ (a, n)) :
    (s.after a a n sdk effects).view who a' n' = s.view who a' n' := by
  rcases Side.eq_or_other a a' with rfl | rfl
  · have hn : n' ≠ n := fun h => hne (by rw [h])
    have hpackets : (effects.filterMap (Effect.packet a')).filterMap (Packet.of a' n') = [] := by
      rw [List.filterMap_filterMap]
      apply filterMap_none hcalling
      rintro e (⟨to_, kind, transport⟩ | ⟨peer⟩ | ⟨appId, event⟩)
      · simp [Effect.packet, Packet.of, IhttpFrame.new, hn.symm]
      · rfl
      · rfl
    have hheard : effects.filterMap (Effect.heard n') = [] := by
      apply filterMap_none hcalling
      rintro e (⟨to_, kind, transport⟩ | ⟨peer⟩ | ⟨appId, event⟩)
      · rfl
      · rfl
      · simp [Effect.heard, hn.symm]
    have hcalls : effects.filterMap (Effect.callFrame n') = [] := by
      apply filterMap_none hcalling
      rintro e (⟨to_, kind, transport⟩ | ⟨peer⟩ | ⟨appId, event⟩)
      · simp [Effect.callFrame, IhttpFrame.new, hn.symm]
      · rfl
      · rfl
    simp [Pair.view, Pair.after, Pair.runs, Pair.events, Pair.callSent, Pair.replySent, hpackets, hheard, hcalls,
      hclients n' hn, hn]
  · have hpackets : (effects.filterMap (Effect.packet a)).filterMap (Packet.of a.other n') = [] := by
      rw [List.filterMap_filterMap]
      apply filterMap_none hcalling
      rintro e (⟨to_, kind, transport⟩ | ⟨peer⟩ | ⟨appId, event⟩)
      · simp [Effect.packet, Packet.of]
      · rfl
      · rfl
    have hwriters : effects.filterMap Effect.writer = [] := by
      apply filterMap_none hcalling
      rintro e (⟨to_, kind, transport⟩ | ⟨peer⟩ | ⟨appId, event⟩) <;> rfl
    have hruns : effects.filterMap (Effect.ran n') = [] := by
      apply filterMap_none hcalling
      rintro e (⟨to_, kind, transport⟩ | ⟨peer⟩ | ⟨appId, event⟩) <;> rfl
    have hreplies : effects.filterMap (Effect.replyFrame n') = [] := by
      apply filterMap_none hcalling
      rintro e (⟨to_, kind, transport⟩ | ⟨peer⟩ | ⟨appId, event⟩) <;> rfl
    simp [Pair.view, Pair.after, Pair.runs, Pair.events, Pair.callSent, Pair.replySent, hpackets, hwriters, hruns,
      hreplies, hserver]

section Effects

variable (to_ : Address) (transport : Transport) (peer : Caller) (kinds : List FrameKind)

@[simp] theorem callFrame_calls : (calls to_ transport n kinds).filterMap (Effect.callFrame n) = kinds := by
  simp [calls, List.filterMap_map, comp_def, Effect.callFrame, IhttpFrame.new]

@[simp] theorem heard_calls : (calls to_ transport n kinds).filterMap (Effect.heard n) = [] := by
  simp [calls, List.filterMap_map, comp_def, Effect.heard]

@[simp] theorem consumed_calls : (calls to_ transport n kinds).countP Effect.isConsumed = 0 := by
  simp [calls, Effect.isConsumed]

@[simp] theorem replyFrame_responds : (responds peer n kinds).filterMap (Effect.replyFrame n) = kinds := by
  simp [responds, List.filterMap_map, comp_def, Effect.replyFrame, IhttpFrame.new]

@[simp] theorem writer_responds : (responds peer n kinds).filterMap Effect.writer = [] := by
  simp [responds, List.filterMap_map, comp_def, Effect.writer]

@[simp] theorem ran_responds : (responds peer n kinds).filterMap (Effect.ran n) = [] := by
  simp [responds, List.filterMap_map, comp_def, Effect.ran]

@[simp] theorem consumed_responds : (responds peer n kinds).countP Effect.isConsumed = 0 := by
  simp [responds, Effect.isConsumed]

end Effects

/-! ## A frame leaves the wire -/

section Wire

variable {α β : Type} {l : List α} {i : Nat} {p : α} {f : α → Option β}

theorem split_at (hp : l[i]? = some p) : l = l.take i ++ p :: l.drop (i + 1) := by
  obtain ⟨hi, rfl⟩ := List.getElem?_eq_some_iff.mp hp
  rw [← List.drop_eq_getElem_cons hi, List.take_append_drop]

theorem filterMap_eraseIdx (hp : l[i]? = some p) (hf : f p = none) :
    (l.eraseIdx i).filterMap f = l.filterMap f := by
  conv => rhs; rw [split_at hp]
  rw [List.eraseIdx_eq_take_drop_succ, List.filterMap_append, List.filterMap_append, List.filterMap_cons_none hf]

theorem filterMap_eraseIdx_first (hp : l[i]? = some p) {b : β} (hf : f p = some b) (hfirst : ∀ q ∈ l.take i, f q = none) :
    l.filterMap f = b :: (l.eraseIdx i).filterMap f := by
  have hnone : (l.take i).filterMap f = [] := List.filterMap_eq_nil_iff.mpr hfirst
  conv => lhs; rw [split_at hp]
  rw [List.eraseIdx_eq_take_drop_succ, List.filterMap_append, List.filterMap_append, hnone, List.filterMap_cons_some hf]
  rfl

end Wire

/-- The pair without the frame at `i` of those `c` sent. -/
def Pair.taken (s : Pair) (c : Side) (i : Nat) : Pair :=
  { s with frames := update s.frames c ((s.frames c).eraseIdx i) }

variable {c : Side} {i : Nat} {p : Packet}

theorem Packet.of_self (p : Packet) : p.of p.opener p.frame.stream = some p.frame.kind := by
  simp [Packet.of]

theorem Packet.of_other (hne : (a, n) ≠ (p.opener, p.frame.stream)) : p.of a n = none := by
  rw [Packet.of, if_neg]
  rintro ⟨rfl, rfl⟩
  exact hne rfl

theorem of_earlier (hfirst : ((s.frames c).take i).all (fun q => decide (q.frame.stream ≠ p.frame.stream)) = true)
    (a : Side) : ∀ q ∈ (s.frames c).take i, q.of a p.frame.stream = none := by
  intro q hq
  have := List.all_eq_true.mp hfirst q hq
  rw [Packet.of, if_neg]
  rintro ⟨-, hstream⟩
  simp [hstream] at this

variable (who) in
theorem view_taken_forward (hp : (s.frames p.opener)[i]? = some p)
    (hfirst : ((s.frames p.opener).take i).all (fun q => decide (q.frame.stream ≠ p.frame.stream)) = true) :
    ∃ wire, (s.view who p.opener p.frame.stream).forward = p.frame.kind :: wire ∧
      (s.taken p.opener i).view who p.opener p.frame.stream =
        { s.view who p.opener p.frame.stream with forward := wire } := by
  refine ⟨_, filterMap_eraseIdx_first hp p.of_self (of_earlier hfirst p.opener), ?_⟩
  simp [Pair.view, Pair.taken, Pair.runs, Pair.events, Pair.callSent, Pair.replySent]

variable (who) in
theorem view_taken_backward (hp : (s.frames p.opener.other)[i]? = some p)
    (hfirst : ((s.frames p.opener.other).take i).all (fun q => decide (q.frame.stream ≠ p.frame.stream)) = true) :
    ∃ wire, (s.view who p.opener p.frame.stream).backward = p.frame.kind :: wire ∧
      (s.taken p.opener.other i).view who p.opener p.frame.stream =
        { s.view who p.opener p.frame.stream with backward := wire } := by
  refine ⟨_, filterMap_eraseIdx_first hp p.of_self (of_earlier hfirst p.opener), ?_⟩
  simp [Pair.view, Pair.taken, Pair.runs, Pair.events, Pair.callSent, Pair.replySent]

theorem view_taken_other (hp : (s.frames c)[i]? = some p) (hne : (a, n) ≠ (p.opener, p.frame.stream)) :
    (s.taken c i).view who a n = s.view who a n := by
  have herase := filterMap_eraseIdx hp (Packet.of_other hne)
  have hframes : ∀ d, ((s.taken c i).frames d).filterMap (Packet.of a n) = (s.frames d).filterMap (Packet.of a n) := by
    intro d
    by_cases hd : d = c
    · subst hd
      simpa [Pair.taken] using herase
    · simp [Pair.taken, hd]
  simp only [Pair.view, hframes]
  rfl

/-! ## Every exchange of a pair is one in order -/

variable (who) in
structure Refines (s : Pair) (X : Side × Nat → Exchange) : Prop where
  ok : ∀ a n, (X (a, n)).Ok
  view : ∀ a n, s.view who a n = (X (a, n)).view who a n
  unopened : ∀ a n, (s.sdk a).clients.lastStream < n → (X (a, n)).call = none
  handler : ∀ a, (s.sdk a).server.handler = true

variable {X : Side × Nat → Exchange} {x : Exchange} {t : Pair}

theorem Refines.set (h : Refines who s X) (hok : x.Ok) (hview : t.view who a n = x.view who a n)
    (hother : ∀ a' n', (a', n') ≠ (a, n) → t.view who a' n' = s.view who a' n')
    (hlast : ∀ b, (s.sdk b).clients.lastStream ≤ (t.sdk b).clients.lastStream)
    (hcall : (t.sdk a).clients.lastStream < n → x.call = none) (hhandler : ∀ b, (t.sdk b).server.handler = true) :
    Refines who t (update X (a, n) x) where
  ok a' n' := by
    by_cases hne : (a', n') = (a, n)
    · rw [hne, update_self]
      exact hok
    · rw [update_of_ne hne]
      exact h.ok a' n'
  view a' n' := by
    by_cases hne : (a', n') = (a, n)
    · obtain ⟨rfl, rfl⟩ := Prod.mk.inj hne
      rw [update_self]
      exact hview
    · rw [update_of_ne hne, hother a' n' hne]
      exact h.view a' n'
  unopened a' n' hn := by
    by_cases hne : (a', n') = (a, n)
    · obtain ⟨rfl, rfl⟩ := Prod.mk.inj hne
      rw [update_self]
      exact hcall hn
    · rw [update_of_ne hne]
      exact h.unopened a' n' (Nat.lt_of_le_of_lt (hlast a') hn)
  handler := hhandler

theorem Refines.serving (h : Refines who s X) (hsdk : t.sdk = s.sdk)
    (hother : ∀ a' n', (a', n') ≠ (a, n) → t.view who a' n' = s.view who a' n')
    (hserving : ∀ e ∈ effects, e.Serving n) (hclients : sdk.clients = (s.sdk a.other).clients)
    (hserver : ∀ n' ≠ n, sdk.server.incoming (key (who a) n') = (s.sdk a.other).server.incoming (key (who a) n') ∧
      sdk.server.outgoing (key (who a) n') = (s.sdk a.other).server.outgoing (key (who a) n'))
    (hhandler : sdk.server.handler = (s.sdk a.other).server.handler) (hok : x.Ok) (hcall : x.call = (X (a, n)).call)
    (hview : (t.after a.other a n sdk effects).view who a n = x.view who a n) :
    Refines who (t.after a.other a n sdk effects) (update X (a, n) x) := by
  have hsides : ∀ b, ((t.after a.other a n sdk effects).sdk b).clients = (s.sdk b).clients ∧
      ((t.after a.other a n sdk effects).sdk b).server.handler = (s.sdk b).server.handler := by
    intro b
    rcases Side.eq_or_other a b with rfl | rfl
    · simp [Pair.after, hsdk]
    · simp [Pair.after, hclients, hhandler]
  apply h.set hok hview
  · intro a' n' hne
    rw [← hother a' n' hne]
    exact view_after_serving_other hserving (hsdk ▸ hclients) (hsdk ▸ hserver) hne
  · intro b
    exact Nat.le_of_eq (by rw [(hsides b).1])
  · intro hn
    rw [(hsides a).1] at hn
    rw [hcall]
    exact h.unopened a n hn
  · intro b
    rw [(hsides b).2]
    exact h.handler b

theorem Refines.calling (h : Refines who s X) (hsdk : t.sdk = s.sdk)
    (hother : ∀ a' n', (a', n') ≠ (a, n) → t.view who a' n' = s.view who a' n')
    (hcalling : ∀ e ∈ effects, e.Calling n) (hserver : sdk.server = (s.sdk a).server)
    (hclients : ∀ n' ≠ n, sdk.clients.streams ((who a.other).appId, n') =
      (s.sdk a).clients.streams ((who a.other).appId, n'))
    (hlast : sdk.clients.lastStream = (s.sdk a).clients.lastStream) (hok : x.Ok) (hcall : x.call = (X (a, n)).call)
    (hview : (t.after a a n sdk effects).view who a n = x.view who a n) :
    Refines who (t.after a a n sdk effects) (update X (a, n) x) := by
  have hsides : ∀ b, ((t.after a a n sdk effects).sdk b).clients.lastStream = (s.sdk b).clients.lastStream ∧
      ((t.after a a n sdk effects).sdk b).server = (s.sdk b).server := by
    intro b
    rcases Side.eq_or_other a b with rfl | rfl
    · simp [Pair.after, hlast, hserver]
    · simp [Pair.after, hsdk]
  apply h.set hok hview
  · intro a' n' hne
    rw [← hother a' n' hne]
    exact view_after_calling_other hcalling (hsdk ▸ hserver) (hsdk ▸ hclients) hne
  · intro b
    exact Nat.le_of_eq (by rw [(hsides b).1])
  · intro hn
    rw [(hsides a).1] at hn
    rw [hcall]
    exact h.unopened a n hn
  · intro b
    rw [(hsides b).2]
    exact h.handler b

@[simp] theorem stamped_appId (c : Side) (via : Via) : (stamped who c via).appId = (who c).appId := rfl

@[simp] theorem stamped_via (c : Side) (via : Via) : (stamped who c via).via = via := rfl

@[simp] theorem key_stamped (c : Side) (via : Via) (n : Nat) : key (stamped who c via) n = key (who c) n := rfl

@[simp] theorem owns_stamped (c : Side) (via : Via) (n : Nat) (server : Server) :
    server.owns (stamped who c via) n = server.owns (who c) n := rfl

theorem key_ne {c : Caller} {n : Nat} (hn : n' ≠ n) : key c n' ≠ key c n := by
  simp [key, hn]

theorem Refines.readRequest (h : Refines who s X) (now : HostOp → Bool) (via : Via)
    (hp : (s.frames p.opener)[i]? = some p)
    (hfirst : ((s.frames p.opener).take i).all (fun q => decide (q.frame.stream ≠ p.frame.stream)) = true) :
    let r := onFrame (accepting now) .quiet (stamped who p.opener via) p.frame (s.sdk p.opener.other)
    ∃ X', Refines who ((s.taken p.opener i).after p.opener.other p.opener p.frame.stream r.1 r.2.1) X' := by
  obtain ⟨⟨v, n, kind⟩, a⟩ := p
  obtain ⟨wire, hforward, htaken⟩ := view_taken_forward who hp hfirst
  simp only at hp hfirst hforward htaken ⊢
  have hok := h.ok a n
  have hview := h.view a n
  have hwire : (X (a, n)).request.wire = kind :: wire := by
    rw [hview] at hforward
    exact hforward
  have hother : ∀ a' n', (a', n') ≠ (a, n) → (s.taken a i).view who a' n' = s.view who a' n' :=
    fun a' n' hne => view_taken_other hp hne
  have hincoming := congrArg View.incoming hview
  have houtgoing := congrArg View.outgoing hview
  have htext := hok.requestText
  obtain ⟨call, hcall⟩ : ∃ call, (X (a, n)).call = some call := by
    cases hc : (X (a, n)).call with
    | none => simp [hc, Channel.text, hwire] at htext
    | some call => exact ⟨call, rfl⟩
  rw [hcall, Channel.text, hwire] at htext
  rcases message_cases htext with ⟨hreceived, rfl⟩ | ⟨chunks, bytes, hreceived, rfl⟩ | ⟨hreceived, rfl, hrest⟩
  · -- the head opens the stream
    rw [onFrame_requestHead now (h.handler a.other) call.head]
    refine ⟨_, h.serving (x := { (X (a, n)).readRequest _ wire with headVia := via }) rfl hother (by simp) rfl
      (fun n' hn => ⟨update_of_ne (key_ne hn) .., rfl⟩) rfl ((hok.readRequest hwire).via via _ _) rfl ?_⟩
    rw [view_after_serving (by simp), htaken, hview, Exchange.view_readHead who a n hreceived hwire via]
    simp [← houtgoing, key, stamped, Pair.view]
  · -- a chunk is added to it
    have hinc : (s.sdk a.other).server.incoming (key (stamped who a via) n) = _ :=
      hincoming.trans (Exchange.view_incoming who a n hreceived)
    rw [onFrame_requestBody now hinc bytes]
    refine ⟨_, h.serving (x := (X (a, n)).readRequest _ wire) rfl hother (by simpa using .consumed _) rfl
      (fun n' hn => ⟨update_of_ne (key_ne hn) .., rfl⟩) rfl (hok.readRequest hwire) rfl ?_⟩
    rw [view_after_serving (by simpa using .consumed _), htaken, hview, Exchange.view_readBody who a n hreceived hwire]
    simp [← houtgoing, key, stamped, Pair.view, Effect.replyFrame, Effect.isConsumed, Effect.writer, Effect.ran]
  · -- the end has the handler run
    have hinc : (s.sdk a.other).server.incoming (key (stamped who a via) n) = _ :=
      hincoming.trans (Exchange.view_incoming who a n hreceived)
    rw [onFrame_requestEnd now hinc (h.handler a.other)]
    refine ⟨_, h.serving (x := { (X (a, n)).readRequest _ wire with endVia := via }) rfl hother
      (by simpa using .handler rfl rfl) rfl
      (fun n' hn => ⟨update_of_ne (key_ne hn) .., update_of_ne (key_ne hn) ..⟩) rfl
      ((hok.readRequest hwire).via _ via _) rfl ?_⟩
    rw [view_after_serving (by simpa using .handler rfl rfl), htaken, hview, hok.view_readEnd who a n hreceived hwire via]
    have hhandled : (X (a, n)).handled = false := by simp [Exchange.handled, hreceived]
    have hwriters : ((X (a, n)).view who a n).writers = [] := by simp [Exchange.view, hhandled]
    have hruns : ((X (a, n)).view who a n).runs = [] := by simp [Exchange.view, hhandled]
    simp [key, stamped, Effect.replyFrame, Effect.isConsumed, Effect.writer, Effect.ran, hwriters, hruns]

theorem Refines.readResponse (h : Refines who s X) (now : HostOp → Bool) (via : Via)
    (hp : (s.frames p.opener.other)[i]? = some p)
    (hfirst : ((s.frames p.opener.other).take i).all (fun q => decide (q.frame.stream ≠ p.frame.stream)) = true)
    (hrouted : (s.sdk p.opener).server.owns (who p.opener.other) p.frame.stream = false ∨
      p.frame.kind.isResponseHead = true) :
    let r := onFrame (accepting now) .quiet (stamped who p.opener.other via) p.frame (s.sdk p.opener)
    ∃ X', Refines who ((s.taken p.opener.other i).after p.opener p.opener p.frame.stream r.1 r.2.1) X' := by
  obtain ⟨⟨v, n, kind⟩, a⟩ := p
  obtain ⟨wire, hbackward, htaken⟩ := view_taken_backward who hp hfirst
  simp only at hp hfirst hbackward htaken hrouted ⊢
  have hok := h.ok a n
  have hview := h.view a n
  have hwire : (X (a, n)).response.wire = kind :: wire := by
    rw [hview] at hbackward
    exact hbackward
  have hother : ∀ a' n', (a', n') ≠ (a, n) → (s.taken a.other i).view who a' n' = s.view who a' n' :=
    fun a' n' hne => view_taken_other hp hne
  have htext := hok.responseText
  obtain ⟨reply, hreply⟩ : ∃ reply, (X (a, n)).reply = some reply := by
    cases hr : (X (a, n)).reply with
    | none => simp [hr, Channel.text, hwire] at htext
    | some reply => exact ⟨reply, rfl⟩
  rw [hreply, Channel.text, hwire] at htext
  -- the stream is open: an answer is only given to a call, and its end has not come
  obtain ⟨call, hcall, -⟩ := hok.of_handled (hok.replied (by simp [hreply]))
  have hfinished : (X (a, n)).finished = false := by
    by_contra hne
    obtain ⟨_, -, -, hnil, -⟩ := hok.of_finished (by simpa using hne)
    simp [hwire] at hnil
  have hopen := congrArg View.stream hview
  have hstream : (s.sdk a).clients.streams ((stamped who a.other via).appId, n) = some
      ⟨call.to_, call.transport, true, ⟨(X (a, n)).request.credit, (X (a, n)).request.queued⟩⟩ := by
    simpa [Pair.view, Exchange.view, hfinished, hcall] using hopen
  rcases message_cases htext with ⟨hreceived, rfl⟩ | ⟨chunks, bytes, hreceived, rfl⟩ | ⟨hreceived, rfl, hrest⟩
  · rw [onFrame_responseHead now hstream rfl reply.head]
    refine ⟨_, h.calling (x := { (X (a, n)).readResponse _ wire with replyVia := via }) rfl hother
      (by simpa using .sink _ _) rfl (fun n' hn => rfl) rfl ((hok.readResponse hwire).via _ _ via) rfl ?_⟩
    rw [view_after_calling (by simpa using .sink _ _), htaken, hview,
      Exchange.view_readReplyHead who a n hreceived hwire via]
    have hevents : ((X (a, n)).view who a n).events = [] := by simp [Exchange.view, hreceived]
    simp [← hopen, Effect.callFrame, Effect.isConsumed, Effect.heard, hevents]
    rfl
  · rw [onFrame_responseBody now hstream (by simpa [FrameKind.isResponseHead] using hrouted) rfl bytes]
    refine ⟨_, h.calling (x := (X (a, n)).readResponse _ wire) rfl hother
      (by simpa using ⟨.sink _ _, .consumed _⟩) rfl (fun n' hn => rfl) rfl (hok.readResponse hwire) rfl ?_⟩
    rw [view_after_calling (by simpa using ⟨.sink _ _, .consumed _⟩), htaken, hview,
      Exchange.view_readReplyBody who a n hwire]
    simp [← hopen, Effect.callFrame, Effect.isConsumed, Effect.heard]
    rfl
  · rw [onFrame_responseEnd now hstream (by simpa [FrameKind.isResponseHead] using hrouted) rfl]
    refine ⟨_, h.calling (x := (X (a, n)).readResponse _ wire) rfl hother
      (by simpa using .sink _ _) rfl (fun n' hn => update_of_ne (by simp [hn]) ..) rfl (hok.readResponse hwire) rfl ?_⟩
    rw [view_after_calling (by simpa using .sink _ _), htaken, hview, Exchange.view_readReplyEnd who a n hwire]
    simp [Effect.callFrame, Effect.isConsumed, Effect.heard]

/-- The pair after the host made a credit frame of `m` chunks `c` had read of the exchange `(a, n)`. -/
def Pair.credited (s : Pair) (c a : Side) (n m : Nat) : Pair :=
  { s with
    owed := update s.owed (c, a, n) (s.owed (c, a, n) - m)
    granted := update s.granted (c.other, a, n) (s.granted (c.other, a, n) + m) }

theorem view_credited_request (m : Nat) :
    (s.credited a.other a n m).view who a n =
      { s.view who a n with
        requestOwed := (s.view who a n).requestOwed - m
        requestGranted := (s.view who a n).requestGranted + m } := by
  simp [Pair.view, Pair.credited, Pair.runs, Pair.events, Pair.callSent, Pair.replySent]

theorem view_credited_response (m : Nat) :
    (s.credited a a n m).view who a n =
      { s.view who a n with
        responseOwed := (s.view who a n).responseOwed - m
        responseGranted := (s.view who a n).responseGranted + m } := by
  simp [Pair.view, Pair.credited, Pair.runs, Pair.events, Pair.callSent, Pair.replySent]

theorem view_credited_other (m : Nat) (hne : (a', n') ≠ (a, n)) :
    (s.credited c a n m).view who a' n' = s.view who a' n' := by
  have hkey : ∀ d d' : Side, (d, a', n') ≠ (d', a, n) := by
    intro d d' hd
    exact hne (Prod.mk.inj hd).2
  simp [Pair.view, Pair.credited, Pair.runs, Pair.events, Pair.callSent, Pair.replySent, update_of_ne (hkey _ _)]

theorem Outbox.grant_eq {ob : Outbox} (h : ob.credit + m ≤ IHTTP_INITIAL_CREDIT) :
    ob.grant m = { ob with credit := ob.credit + m } := by
  have hfits : min (ob.credit + m) (2 ^ 32 - 1) = ob.credit + m := by
    unfold IHTTP_INITIAL_CREDIT at h
    omega
  rw [Outbox.grant, hfits]

theorem Refines.creditRequest (h : Refines who s X) (now : HostOp → Bool) (via : Via) (hpos : 0 < m)
    (hm : m ≤ s.owed (a.other, a, n)) (howns : (s.sdk a).server.owns (stamped who a.other via) n = false) :
    let r := onFrame (accepting now) .quiet (stamped who a.other via) (.new n (.credit m)) (s.sdk a)
    ∃ X', Refines who ((s.credited a.other a n m).after a a n r.1 r.2.1) X' := by
  have hok := h.ok a n
  have hview := h.view a n
  have hopen : (s.sdk a).clients.streams ((stamped who a.other via).appId, n) = ((X (a, n)).view who a n).stream :=
    congrArg View.stream hview
  have howed : s.owed (a.other, a, n) = (X (a, n)).request.owed := congrArg View.requestOwed hview
  rw [howed] at hm
  have hother : ∀ a' n', (a', n') ≠ (a, n) → (s.credited a.other a n m).view who a' n' = s.view who a' n' :=
    fun a' n' hne => view_credited_other m hne
  obtain ⟨call, hcall⟩ : ∃ call, (X (a, n)).call = some call := by
    cases hc : (X (a, n)).call with
    | none =>
        have hfresh := hok.request.eq_fresh (by simpa [hc] using hok.requestText)
        simp [hfresh, Channel.fresh] at hm
        omega
    | some call => exact ⟨call, rfl⟩
  cases hfinished : (X (a, n)).finished with
  | true =>
      -- the stream is closed, and its request all sent: the frame is the app's
      obtain ⟨_, hreply, -⟩ := hok.of_finished hfinished
      obtain ⟨_, -, -, -, hqueued⟩ := hok.of_handled (hok.replied (by simp [hreply]))
      have hstream : ((X (a, n)).view who a n).stream = none := by simp [Exchange.view, hfinished]
      unfold IhttpFrame.new
      rw [onFrame_stray now howns (hopen.trans hstream) rfl]
      refine ⟨_, h.calling (x := (X (a, n)).grantRequest m) rfl hother (by simp) rfl (fun n' hn => rfl) rfl
        (hok.grantRequest hm) rfl ?_⟩
      rw [view_after_calling (by simp), view_credited_request, hview,
        Exchange.view_grantRequest_sent who a n hqueued hfinished m]
      simp [← hopen]
  | false =>
      have hstream : ((X (a, n)).view who a n).stream = some
          ⟨call.to_, call.transport, true, ⟨(X (a, n)).request.credit, (X (a, n)).request.queued⟩⟩ := by
        simp [Exchange.view, hfinished, hcall]
      have hgrant : Outbox.grant m ⟨(X (a, n)).request.credit, (X (a, n)).request.queued⟩ =
          ⟨(X (a, n)).request.credit + m, (X (a, n)).request.queued⟩ :=
        Outbox.grant_eq (Nat.le_trans (Nat.add_le_add_left hm _) hok.request.credit_le)
      unfold IhttpFrame.new
      rw [onFrame_requestCredit now (hopen.trans hstream) howns m]
      refine ⟨_, h.calling (x := (X (a, n)).grantRequest m) rfl hother (calling_calls _ _ _ _) rfl
        (fun n' hn => update_of_ne (by simp [hn]) ..) rfl (hok.grantRequest hm) rfl ?_⟩
      rw [view_after_calling (calling_calls _ _ _ _), view_credited_request, hview,
        Exchange.view_grantRequest who a n hcall hfinished m]
      simp [hgrant]

theorem Refines.creditResponse (h : Refines who s X) (now : HostOp → Bool) (via : Via) (hpos : 0 < m)
    (hm : m ≤ s.owed (a, a, n))
    (hrouted : (s.sdk a.other).server.owns (stamped who a via) n = true ∨
      (s.sdk a.other).clients.streams ((stamped who a via).appId, n) = none) :
    let r := onFrame (accepting now) .quiet (stamped who a via) (.new n (.credit m)) (s.sdk a.other)
    ∃ X', Refines who ((s.credited a a n m).after a.other a n r.1 r.2.1) X' := by
  have hok := h.ok a n
  have hview := h.view a n
  have hincoming : (s.sdk a.other).server.incoming (key (stamped who a via) n) = ((X (a, n)).view who a n).incoming :=
    congrArg View.incoming hview
  have houtgoing : (s.sdk a.other).server.outgoing (key (stamped who a via) n) = ((X (a, n)).view who a n).outgoing :=
    congrArg View.outgoing hview
  have howed : s.owed (a, a, n) = (X (a, n)).response.owed := congrArg View.responseOwed hview
  rw [howed] at hm
  have hother : ∀ a' n', (a', n') ≠ (a, n) → (s.credited a a n m).view who a' n' = s.view who a' n' :=
    fun a' n' hne => view_credited_other m hne
  obtain ⟨reply, hreply⟩ : ∃ reply, (X (a, n)).reply = some reply := by
    cases hr : (X (a, n)).reply with
    | none =>
        have hfresh := hok.response_fresh hr
        simp [hfresh, Channel.fresh] at hm
        omega
    | some reply => exact ⟨reply, rfl⟩
  have hhandled := hok.replied (by simp [hreply])
  have hnone : ((X (a, n)).view who a n).incoming = none := by simp [Exchange.view, hhandled]
  by_cases hqueued : (X (a, n)).response.queued = []
  · -- the answer is all sent and the stream closed: the frame is the app's
    have hclosed : ((X (a, n)).view who a n).outgoing = none := by simp [Exchange.view, hreply, hqueued]
    have howns : (s.sdk a.other).server.owns (stamped who a via) n = false := by
      rw [Server.owns, hincoming.trans hnone, houtgoing.trans hclosed]
      rfl
    have hstreams := hrouted.resolve_left (by simp [howns])
    unfold IhttpFrame.new
    rw [onFrame_stray now howns hstreams rfl]
    refine ⟨_, h.serving (x := (X (a, n)).grantResponse m) rfl hother (by simp) rfl (fun n' hn => ⟨rfl, rfl⟩) rfl
      (hok.grantResponse hm) rfl ?_⟩
    rw [view_after_serving (by simp), view_credited_response, hview,
      Exchange.view_grantResponse_sent who a n (by simp [hreply]) hqueued m]
    simp [← hincoming, ← houtgoing]
  · have hopen : ((X (a, n)).view who a n).outgoing = some
        ⟨stamped who a (X (a, n)).endVia, ⟨(X (a, n)).response.credit, (X (a, n)).response.queued⟩⟩ := by
      simp [Exchange.view, hhandled, hqueued]
    have hgrant : Outbox.grant m ⟨(X (a, n)).response.credit, (X (a, n)).response.queued⟩ =
        ⟨(X (a, n)).response.credit + m, (X (a, n)).response.queued⟩ :=
      Outbox.grant_eq (Nat.le_trans (Nat.add_le_add_left hm _) hok.response.credit_le)
    have htext : (X (a, n)).response.sent ++ (X (a, n)).response.queued = reply.text := by
      have := hok.responseText
      rw [hreply, Channel.text, ← List.append_assoc] at this
      exact this
    unfold IhttpFrame.new
    rw [onFrame_responseCredit now (houtgoing.trans hopen) m (message_last htext rfl)]
    refine ⟨_, h.serving (x := (X (a, n)).grantResponse m) rfl hother (serving_responds _ _ _) rfl
      (fun n' hn => ⟨rfl, update_of_ne (key_ne hn) ..⟩) rfl (hok.grantResponse hm) rfl ?_⟩
    rw [view_after_serving (serving_responds _ _ _), view_credited_response, hview,
      hok.view_grantResponse who a n hreply hqueued m]
    simp [hgrant, ← hincoming]

/-- The pair with the call `a` makes on its stream `n` on record. -/
def Pair.calls (s : Pair) (a : Side) (n : Nat) (call : Call) : Pair :=
  { s with called := update s.called (a, n) (some call) }

theorem view_calls (call : Call) : (s.calls a n call).view who a n = { s.view who a n with call := some call } := by
  simp [Pair.view, Pair.calls, Pair.runs, Pair.events, Pair.callSent, Pair.replySent]

theorem view_calls_other (call : Call) (hne : (a', n') ≠ (a, n)) :
    (s.calls a n call).view who a' n' = s.view who a' n' := by
  simp only [Pair.view, Pair.calls, update_of_ne hne]
  rfl

theorem Refines.opens (h : Refines who s X) (now : HostOp → Bool) {call : Call}
    (hto : (target call.to_).1 = (who a.other).appId) (hn : n = (s.sdk a).clients.lastStream + 1) :
    let r := Clients.open_ (accepting now) call.to_ call.transport call.request (s.sdk a).clients
    ∃ X', Refines who ((s.calls a n call).after a a n { s.sdk a with clients := r.1 } r.2) X' := by
  have hview := h.view a n
  rw [(h.ok a n).view_unopened (h.unopened a n (by omega)) who a n] at hview
  have hsending : Outbox.new.message (.requestHead (Clients.requestHead call.to_ call.request)) call.request.body =
      Exchange.sending call.text := rfl
  rw [Clients.open_eq, ← hn, hto]
  have hsides : ∀ (streams : ClientKey → Option Stream) (effects : List Effect) (b : Side),
      let t := (s.calls a n call).after a a n { s.sdk a with clients := ⟨n, streams⟩ } effects
      (s.sdk b).clients.lastStream ≤ (t.sdk b).clients.lastStream ∧
        (t.sdk b).server = (s.sdk b).server := by
    intro streams effects b
    rcases Side.eq_or_other a b with rfl | rfl
    · simp [Pair.after, hn]
    · simp [Pair.after, Pair.calls]
  refine ⟨_, h.set (x := .opened call) (a := a) (n := n) (Exchange.ok_opened call) ?_ ?_ (fun b => (hsides _ _ b).1) ?_
    fun b => ?_⟩
  · rw [view_after_calling (calling_calls _ _ _ _), view_calls, hview, Exchange.view_opened]
    simp [hsending]
    exact ⟨rfl, rfl⟩
  · intro a' n' hne
    refine Eq.trans (view_after_calling_other ?_ ?_ ?_ hne) (view_calls_other call hne)
    · exact calling_calls _ _ _ _
    · rfl
    · intro n' hn'
      simp [Pair.calls, hn']
  · simp [Pair.after]
  · rw [(hsides _ _ b).2]
    exact h.handler b

/-- The pair without the writer at `i`, with the answer it gives on record. -/
def Pair.answers (s : Pair) (b : Side) (i n : Nat) (reply : Reply) : Pair :=
  { s with
    writers := update s.writers b ((s.writers b).eraseIdx i)
    answered := update s.answered (b.other, n) (some reply) }

theorem filter_eraseIdx {α : Type} {l : List α} {i : Nat} {w : α} {f : α → Bool} (hw : l[i]? = some w)
    (hf : f w = false) : (l.eraseIdx i).filter f = l.filter f := by
  simpa [List.filterMap_eq_filter] using filterMap_eraseIdx (f := Option.guard f) hw (by simp [Option.guard, hf])

theorem filter_eraseIdx_single {α : Type} {l : List α} {i : Nat} {w x : α} {f : α → Bool} (hw : l[i]? = some w)
    (hf : f w = true) (hone : l.filter f = [x]) : (l.eraseIdx i).filter f = [] := by
  rw [split_at hw, List.filter_append, List.filter_cons_of_pos hf] at hone
  rw [List.eraseIdx_eq_take_drop_succ, List.filter_append]
  cases hbefore : (l.take i).filter f with
  | nil =>
      rw [hbefore, List.nil_append] at hone
      exact (List.cons.inj hone).2
  | cons y ys => simp [hbefore] at hone

variable {w : ResponseWriter}

theorem view_answers (hw : (s.writers a.other)[i]? = some w) {x : ResponseWriter}
    (hone : (s.view who a w.stream).writers = [x]) (reply : Reply) :
    (s.answers a.other i w.stream reply).view who a w.stream =
      { s.view who a w.stream with reply := some reply, writers := [] } := by
  have herase : ((s.writers a.other).eraseIdx i).filter (fun w' => decide (w'.stream = w.stream)) = [] :=
    filter_eraseIdx_single hw (decide_eq_true rfl) hone
  simp only [Pair.view, Pair.answers, update_self, herase, Side.other_other]
  rfl

theorem view_answers_other (hw : (s.writers a.other)[i]? = some w) (reply : Reply) (hne : (a', n') ≠ (a, w.stream)) :
    (s.answers a.other i w.stream reply).view who a' n' = s.view who a' n' := by
  rcases Side.eq_or_other a a' with rfl | rfl
  · have hn : w.stream ≠ n' := fun h => hne (by rw [h])
    have herase := filter_eraseIdx (f := fun w => decide (w.stream = n')) hw (by simp [hn])
    simp [Pair.view, Pair.answers, Pair.runs, Pair.events, Pair.callSent, Pair.replySent, herase, hn.symm]
  · simp [Pair.view, Pair.answers, Pair.runs, Pair.events, Pair.callSent, Pair.replySent]

theorem Refines.responds (h : Refines who s X) (now : HostOp → Bool) (hw : (s.writers a.other)[i]? = some w)
    (reply : Reply) :
    let r := Server.respondWith (accepting now) w reply.status reply.headers reply.body (s.sdk a.other).server
    ∃ X', Refines who ((s.answers a.other i w.stream reply).after a.other a w.stream
      { s.sdk a.other with server := r.1 } r.2.1) X' := by
  have hok := h.ok a w.stream
  have hview := h.view a w.stream
  have houtgoing : (s.sdk a.other).server.outgoing (key (who a) w.stream) = ((X (a, w.stream)).view who a w.stream).outgoing :=
    congrArg View.outgoing hview
  have hwriters : (s.writers a.other).filter (fun w' => decide (w'.stream = w.stream)) =
      ((X (a, w.stream)).view who a w.stream).writers := congrArg View.writers hview
  have hmem : w ∈ ((X (a, w.stream)).view who a w.stream).writers := by
    rw [← hwriters]
    exact List.mem_filter.mpr ⟨List.mem_of_getElem? hw, by simp⟩
  -- the only writer there is for the exchange is the one its handler was given, and it was not answered with
  obtain ⟨hhandled, hreply⟩ : (X (a, w.stream)).handled = true ∧ (X (a, w.stream)).reply = none := by
    by_contra hnot
    simp [Exchange.view, hnot] at hmem
  have hone : ((X (a, w.stream)).view who a w.stream).writers = [⟨(X (a, w.stream)).caller who a, w.stream⟩] := by
    simp [Exchange.view, hhandled, hreply]
  have hpeer : w.peer = (X (a, w.stream)).caller who a := by
    rw [hone, List.mem_singleton] at hmem
    exact congrArg ResponseWriter.peer hmem
  have hopen : (s.sdk a.other).server.outgoing (key w.peer w.stream) =
      some ⟨stamped who a (X (a, w.stream)).endVia, .new⟩ := by
    rw [hpeer]
    exact houtgoing.trans (hok.view_outgoing who a w.stream hhandled hreply)
  rw [Server.respondWith_eq now hopen rfl]
  have hsending : Outbox.new.message (.responseHead ⟨reply.status, reply.headers, some reply.body.length⟩) reply.body =
      Exchange.sending reply.text := rfl
  refine ⟨_, h.serving (x := (X (a, w.stream)).answered reply) rfl (fun a' n' hne => view_answers_other hw reply hne)
    (serving_responds _ _ _) rfl (fun n' hn => ⟨rfl, ?_⟩) rfl (hok.answered hhandled hreply reply) rfl ?_⟩
  · rw [hpeer]
    exact update_of_ne (key_ne hn) ..
  · rw [view_after_serving (serving_responds _ _ _), view_answers hw (hwriters.trans hone), hview,
      hok.view_answered who a w.stream hhandled hreply reply]
    have hfresh := hok.response_fresh hreply
    have hincoming : (s.sdk a.other).server.incoming (key (who a) w.stream) =
        ((X (a, w.stream)).view who a w.stream).incoming := congrArg View.incoming hview
    have hkey : key ((X (a, w.stream)).caller who a) w.stream = key (who a) w.stream := rfl
    simp [hsending, hpeer, hfresh, hincoming, hkey, Channel.fresh, Channel.sent]

/-! ## Whole runs -/

theorem Refines.step (h : Refines who s X) (now : HostOp → Bool) {act : Act} (hrouted : s.Routed who act)
    (hstep : s.step who now act = some t) : ∃ X', Refines who t X' := by
  cases act with
  | open_ a call =>
      simp only [Pair.step] at hstep
      split at hstep
      · rename_i hto
        obtain rfl := Option.some.inj hstep
        exact h.opens now hto rfl
      · cases hstep
  | respond b i reply =>
      obtain ⟨a, rfl⟩ : ∃ a : Side, b = a.other := ⟨b.other, by simp⟩
      simp only [Pair.step] at hstep
      cases hw : (s.writers a.other)[i]? with
      | none => simp [hw] at hstep
      | some w =>
          simp only [hw, Side.other_other] at hstep
          obtain rfl := Option.some.inj hstep
          have := h.responds now hw reply
          simpa only [Pair.answers, Side.other_other] using this
  | deliver c i via =>
      simp only [Pair.step] at hstep
      cases hp : (s.frames c)[i]? with
      | none => simp [hp] at hstep
      | some p =>
          simp only [hp] at hstep
          split at hstep
          · rename_i hfirst
            obtain rfl := Option.some.inj hstep
            have hframe : s.RoutedFrame who c p.opener p.frame := hrouted p hp
            rcases Side.eq_or_other p.opener c with rfl | rfl
            · exact h.readRequest now via hp hfirst
            · have hcaller : (s.sdk p.opener).server.owns (who p.opener.other) p.frame.stream = false ∨
                  p.frame.kind.isResponseHead = true := by
                simpa [Pair.RoutedFrame] using hframe
              simpa only [Pair.taken, Side.other_other] using h.readResponse now via hp hfirst hcaller
          · cases hstep
  | credit c opener n m via =>
      simp only [Pair.step] at hstep
      split at hstep
      · rename_i hm
        obtain rfl := Option.some.inj hstep
        have hframe : s.RoutedFrame who c opener (.new n (.credit m)) := hrouted
        rcases Side.eq_or_other opener c with rfl | rfl
        · have hserver : (s.sdk c.other).server.owns (who c) n = true ∨
              (s.sdk c.other).clients.streams ((who c).appId, n) = none := by
            simpa [Pair.RoutedFrame, IhttpFrame.new, FrameKind.isRequestHead] using hframe
          exact h.creditResponse now via hm.1 hm.2 hserver
        · have hcaller : (s.sdk opener).server.owns (who opener.other) n = false := by
            simpa [Pair.RoutedFrame, IhttpFrame.new, FrameKind.isResponseHead] using hframe
          have := h.creditRequest now via hm.1 hm.2 hcaller
          simpa only [Pair.credited, Side.other_other] using this
      · cases hstep

theorem refines_start : Refines who .start fun _ => .fresh where
  ok _ _ := Exchange.ok_fresh
  view a n := by
    simp [Pair.view, Pair.start, Pair.runs, Pair.events, Pair.callSent, Pair.replySent, Exchange.view, Exchange.fresh,
      Exchange.handled, Exchange.finished, Exchange.assembled, Channel.fresh, Channel.sent]
  unopened _ _ _ := rfl
  handler _ := rfl

theorem Run.refines (hrun : Run who (Pair.Routed who) s) : ∃ X, Refines who s X := by
  induction hrun with
  | start => exact ⟨_, refines_start⟩
  | step now act _ hrouted hstep ih =>
      obtain ⟨X, h⟩ := ih
      exact h.step now hrouted hstep

/-! ## What an exchange in order promises -/

theorem runs_of_handled (hok : x.Ok) (hhandled : x.handled = true) :
    ∃ call, x.call = some call ∧ (x.view who a n).runs = [call.served (stamped who a x.headVia) n] := by
  obtain ⟨call, hcall, hreceived, -⟩ := hok.of_handled hhandled
  have hbody : bodyOf ((call.request.body.toChunks IHTTP_MAX_CHUNK_BYTES).map FrameKind.body ++ [.end_]) =
      call.request.body := by
    rw [bodyOf_append, bodyOf_map, Chunks.flatten_toChunks]
    simp [bodyOf]
  refine ⟨call, hcall, ?_⟩
  simp [Exchange.view, hhandled, Exchange.assembled, hreceived, Call.text, message, hbody, Call.served, Exchange.caller,
    Call.head, Clients.requestHead]

theorem events_text (reply : Reply) (via : Via) : reply.text.filterMap (Exchange.event via) = reply.events via := by
  simp [Reply.text, message, Reply.events, Exchange.event, List.filterMap_map, comp_def]

theorem events_start_of (hok : x.Ok) :
    (x.view who a n).events = [] ∨
      ∃ reply, x.reply = some reply ∧ (x.view who a n).events <+: reply.events x.replyVia := by
  have htext := hok.responseText
  cases hreply : x.reply with
  | none =>
      left
      have hfresh := hok.response_fresh hreply
      simp [Exchange.view, hfresh, Channel.fresh]
  | some reply =>
      right
      rw [hreply] at htext
      refine ⟨reply, rfl, ?_⟩
      rw [← events_text]
      apply List.IsPrefix.filterMap
      exact ⟨_, htext⟩

theorem settled_of (hok : x.Ok) (hrequest : x.request.wire = [] ∧ x.request.owed = 0)
    (hresponse : x.response.wire = [] ∧ x.response.owed = 0) (hwriters : (x.view who a n).writers = [])
    {call : Call} (hcall : x.call = some call) :
    (x.view who a n).runs = [call.served (stamped who a x.headVia) n] ∧
      ∃ reply, x.reply = some reply ∧ (x.view who a n).events = reply.events x.replyVia := by
  have htext := hok.requestText
  rw [hcall] at htext
  have hreceived := (hok.request.all_read (by decide) hrequest.1 hrequest.2).trans htext
  have hhandled : x.handled = true := by
    apply decide_eq_true
    rw [hreceived]
    simp [Call.text, message]
  obtain ⟨call', hcall', hruns⟩ : ∃ call, x.call = some call ∧
      (x.view who a n).runs = [call.served (stamped who a x.headVia) n] := runs_of_handled hok hhandled
  obtain rfl : call = call' := Option.mem_unique hcall hcall'
  refine ⟨hruns, ?_⟩
  cases hreply : x.reply with
  | none => simp [Exchange.view, hhandled, hreply] at hwriters
  | some reply =>
      have hreplied := hok.responseText
      rw [hreply] at hreplied
      have hall := (hok.response.all_read (by decide) hresponse.1 hresponse.2).trans hreplied
      refine ⟨reply, rfl, ?_⟩
      show x.response.received.filterMap (Exchange.event x.replyVia) = _
      rw [hall]
      exact events_text reply x.replyVia

end

/-- **Exchanges are faithful** in every run in which no frame goes to the wrong side of its receiver. -/
theorem faithful_of_routed (who : Side → Caller) {s : Pair} (hrun : Run who (Pair.Routed who) s) (a : Side) (n : Nat) :
    Faithful who s a n := by
  obtain ⟨X, h⟩ := hrun.refines
  have hok := h.ok a n
  have hview := h.view a n
  have hcall : s.called (a, n) = (X (a, n)).call := congrArg View.call hview
  have hreply : s.answered (a, n) = (X (a, n)).reply := congrArg View.reply hview
  have hruns : s.runs a n = ((X (a, n)).view who a n).runs := congrArg View.runs hview
  have hevents : s.events a n = ((X (a, n)).view who a n).events := congrArg View.events hview
  refine ⟨?_, ?_, ?_, ?_, ?_⟩
  · rw [hruns, hcall]
    cases hhandled : (X (a, n)).handled with
    | false => exact Or.inl (by simp [Exchange.view, hhandled])
    | true =>
        obtain ⟨call, hcall, hserved⟩ := runs_of_handled hok hhandled
        exact Or.inr ⟨call, _, hcall, hserved⟩
  · rw [hevents, hreply]
    rcases events_start_of hok with hnil | ⟨reply, hreply, hstart⟩
    · exact Or.inl hnil
    · exact Or.inr ⟨reply, _, hreply, hstart⟩
  · have hsent : s.callSent a n = (X (a, n)).request.sent := congrArg View.callSent hview
    have hgranted : s.granted (a, a, n) = (X (a, n)).request.granted := congrArg View.requestGranted hview
    rw [hsent, hgranted]
    exact hok.request.sent_le
  · have hsent : s.replySent a n = (X (a, n)).response.sent := congrArg View.replySent hview
    have hgranted : s.granted (a.other, a, n) = (X (a, n)).response.granted := congrArg View.responseGranted hview
    rw [hsent, hgranted]
    exact hok.response.sent_le
  · intro hsettled call hmade
    have hforward : (s.frames a).filterMap (Packet.of a n) = (X (a, n)).request.wire := congrArg View.forward hview
    have hbackward : (s.frames a.other).filterMap (Packet.of a n) = (X (a, n)).response.wire :=
      congrArg View.backward hview
    have hwriters : (s.writers a.other).filter (fun w => decide (w.stream = n)) = ((X (a, n)).view who a n).writers :=
      congrArg View.writers hview
    have hrequestOwed : s.owed (a.other, a, n) = (X (a, n)).request.owed := congrArg View.requestOwed hview
    have hresponseOwed : s.owed (a, a, n) = (X (a, n)).response.owed := congrArg View.responseOwed hview
    rw [(hsettled.1 a).1] at hforward
    rw [(hsettled.1 a.other).1] at hbackward
    rw [(hsettled.1 a.other).2] at hwriters
    rw [hsettled.2] at hrequestOwed hresponseOwed
    obtain ⟨hserved, reply, hanswer, hgiven⟩ := settled_of hok ⟨hforward.symm, hrequestOwed.symm⟩
      ⟨hbackward.symm, hresponseOwed.symm⟩ hwriters.symm (hcall ▸ hmade)
    exact ⟨⟨_, hruns.trans hserved⟩, reply, _, hreply.trans hanswer, hevents.trans hgiven⟩

/-! ## Two instances of one app -/

section Pool

/-- The two sides of the examples, both the app `pool`. -/
def poolSides : Side → Caller
  | .left => ⟨"ann", 1, "pool", "i1", .p2p⟩
  | .right => ⟨"bob", 2, "pool", "i2", .p2p⟩

def poolCall (a : Side) : Call := ⟨.user "pool" (poolSides a.other).username, .p2p, ⟨.get, "/jobs", "", [], []⟩⟩

/-- Acts one after the other, each of which meets `condition` when it is taken. -/
def Pair.follow (who : Side → Caller) (condition : Pair → Act → Bool) : List Act → Pair → Option Pair
  | [], s => some s
  | act :: acts, s =>
      if condition s act = true then (s.step who (fun _ => true) act).bind (Pair.follow who condition acts) else none

theorem run_of_follow {who : Side → Caller} {C : Pair → Act → Prop} {condition : Pair → Act → Bool}
    (hcondition : ∀ s act, condition s act = true → C s act) {acts : List Act} {s t : Pair} (hrun : Run who C s)
    (hfollow : Pair.follow who condition acts s = some t) : Run who C t := by
  induction acts generalizing s with
  | nil => exact Option.some.inj hfollow ▸ hrun
  | cons act acts ih =>
      simp only [Pair.follow] at hfollow
      split at hfollow
      · rename_i hc
        obtain ⟨s', hstep, hrest⟩ := Option.bind_eq_some_iff.mp hfollow
        exact ih (hrun.step _ act (hcondition s act hc) hstep) hrest
      · cases hfollow

instance (who : Side → Caller) (s : Pair) (act : Act) : Decidable (s.Routed who act) :=
  match act with
  | .open_ .. => inferInstanceAs (Decidable True)
  | .respond .. => inferInstanceAs (Decidable True)
  | .deliver .. => inferInstanceAs (Decidable (∀ p ∈ _, _))
  | .credit .. => inferInstanceAs (Decidable (Pair.RoutedFrame ..))

def oneWay : List Act :=
  [.open_ .left (poolCall .left), .deliver .left 0 .p2p, .deliver .left 0 .p2p, .respond .right 0 ⟨200, [], [7]⟩,
    .deliver .right 0 .p2p, .deliver .right 0 .p2p, .deliver .right 0 .p2p, .credit .left .left 1 1 .p2p]

def routedNow (s : Pair) (act : Act) : Bool := decide (s.Routed poolSides act)

theorem faithful_of_routed_oneWay :
    ∃ s, Pair.follow poolSides routedNow oneWay .start = some s ∧
      s.events .left 1 = [.head ⟨200, [], some 1⟩ .p2p, .body [7], .end_] ∧ Faithful poolSides s .left 1 := by
  have hevents : (Pair.follow poolSides routedNow oneWay .start).map (fun s => s.events .left 1) =
      some [.head ⟨200, [], some 1⟩ .p2p, .body [7], .end_] := by decide +kernel
  obtain ⟨s, hs, hgiven⟩ := Option.map_eq_some_iff.mp hevents
  exact ⟨s, hs, hgiven, faithful_of_routed poolSides (run_of_follow (fun _ _ h => of_decide_eq_true h) .start hs) .left 1⟩

/-- Both instances call each other at once; Bob's has not answered Ann's call when the chunk of Ann's answer to his own
arrives, and has when the end arrives. -/
def bothWays : List Act :=
  [.open_ .left (poolCall .left), .open_ .right (poolCall .right), .deliver .left 0 .p2p, .deliver .left 0 .p2p,
    .deliver .right 0 .p2p, .deliver .right 0 .p2p, .respond .left 0 ⟨200, [], [7]⟩, .deliver .left 0 .p2p,
    .deliver .left 0 .p2p, .respond .right 0 ⟨200, [], []⟩, .deliver .left 0 .p2p]

/-- The chunk goes to the side that serves Ann's call, and Bob's caller is given an empty body, complete. -/
theorem chunk_lost_both_ways :
    ∃ s, Run poolSides (fun _ _ => True) s ∧ s.answered (.right, 1) = some ⟨200, [], [7]⟩ ∧
      s.events .right 1 = [.head ⟨200, [], some 1⟩ .p2p, .end_] ∧ ¬ Faithful poolSides s .right 1 := by
  have hend : (Pair.follow poolSides (fun _ _ => true) bothWays .start).map
      (fun s => (s.answered (.right, 1), s.events .right 1)) =
      some (some ⟨200, [], [7]⟩, [.head ⟨200, [], some 1⟩ .p2p, .end_]) := by decide +kernel
  obtain ⟨s, hs, hgiven⟩ := Option.map_eq_some_iff.mp hend
  obtain ⟨hanswered, hevents⟩ := Prod.mk.inj hgiven
  refine ⟨s, run_of_follow (fun _ _ _ => trivial) .start hs, hanswered, hevents, fun h => ?_⟩
  rcases h.events with hnil | ⟨reply, via, hreply, hstart⟩
  · simp [hevents] at hnil
  · obtain rfl : (⟨200, [], [7]⟩ : Reply) = reply := Option.mem_unique hanswered hreply
    have hchunks : ([7] : List UInt8).toChunks IHTTP_MAX_CHUNK_BYTES = [[7]] := by decide
    rw [hevents, Reply.events, hchunks] at hstart
    simp [List.cons_prefix_cons] at hstart

end Pool

end CitadelAgent.Ihttp
