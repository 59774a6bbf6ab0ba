import CitadelAgent.Apps.Authorize

/-!
# Host egress: one request and its redirects

`citadel-internal-service/src/kernel/apps/net/{fetch,ports}.rs`: a request is decided, resolved, decided again,
pinned and opened, and so is every redirect it is answered with. The resolver and the connector answer whatever
they like, hop by hop: `HopPorts` is what one pass of the loop gets from them. The meter, which only counts, and
the body of the upstream response, which the loop never reads, are left out.

* `AppNet.openHops` : the loop itself, with the questions it asked and the requests it opened;
* `Sent.Inside` : what holds of every request that is opened;
* `redirects_stay_inside` : a chain of redirects stays inside the policy, whatever the upstream answers.
-/

namespace CitadelAgent.Apps
open NetPolicy

structure AppNetConfig where
  pageOriginHosts : List Text
  agentPort : UInt16

/-- Host egress, of which `new` has seen to it that at least one deployment is known. -/
structure AppNet where
  deployments : List Deployment
  agentPort : UInt16
  configured : deployments ≠ []

/-- `none` for a configuration with no page origin host. -/
def AppNet.new (config : AppNetConfig) : Option AppNet :=
  if h : config.pageOriginHosts = [] then none
  else
    some
      { deployments := config.pageOriginHosts.map fun host => ⟨host.toAsciiLowercase⟩
        agentPort := config.agentPort
        configured := fun hnil => h (List.map_eq_nil_iff.mp hnil) }

structure AppHttpRequest where
  method : Text
  url : Text
  headers : List (Text × Text)
  body : List UInt8

structure PinnedRequest where
  method : Text
  url : Text
  host : Text
  connect : List SocketAddr
  headers : List (Text × Text)
  body : List UInt8

structure UpstreamHead where
  status : UInt16
  headers : List (Text × Text)

def UpstreamHead.header (head : UpstreamHead) (name : Text) : Option Text :=
  (head.headers.find? fun header => header.1 == name).map fun header => header.2

inductive Lookup
  | timedOut
  | answered (addresses : Except Text (List IpAddr))

inductive Attempt
  | timedOut
  | failed (why : Text)
  | opened (head : UpstreamHead)

structure HopPorts where
  resolve : Text → UInt16 → Lookup
  connect : PinnedRequest → Attempt

/-- Statuses whose `location` is followed (and decided again). -/
def REDIRECT_STATUSES : List UInt16 := [301, 302, 303, 307, 308]

/-- An upstream response that is not a redirect, and how many redirects led to it. -/
structure Opened where
  head : UpstreamHead
  redirects : UInt8

def targetUrl (target : TargetUrl) : Text := writeUrl target target.pathAndQuery

structure Hop where
  method : Text
  url : Text
  headers : List (Text × Text)
  bodyLen : Nat
  previous : Option Allowed
  number : UInt8

def Hop.request (hop : Hop) : EgressRequest := ⟨hop.method, hop.url, hop.headers, hop.bodyLen⟩

def Hop.decide (hop : Hop) (resolved : List IpAddr) (grant : NetGrant) (deployment : Deployment) : Verdict :=
  match hop.previous with
  | none => decide_ hop.request resolved grant deployment
  | some previous => decideRedirect previous hop.number hop.request resolved grant deployment

def Hop.decideEach (hop : Hop) (resolved : List IpAddr) (grant : NetGrant) : Option Allowed → List Deployment → Verdict
  | some allowed, [] => .allow allowed
  | none, [] => .policy .noAddress
  | _, deployment :: deployments =>
    match hop.decide resolved grant deployment with
    | .allow allowed => hop.decideEach resolved grant (some allowed) deployments
    | refused => refused

structure Question where
  host : Text
  port : UInt16
  answer : Lookup

/-- `unwrap_or_default`: a failed lookup is one that found nothing. -/
def Lookup.addresses : Lookup → List IpAddr
  | .answered (.ok addresses) => addresses
  | _ => []

def resolvedBy (asked : Option Question) : List IpAddr := (asked.map fun question => question.answer.addresses).getD []

structure Checked where
  asked : Option Question
  result : Except AppFetchRefusal Allowed

structure Sent where
  allowed : Allowed
  pinned : PinnedRequest
  answer : Attempt

structure Turn where
  hop : Hop
  asked : Option Question
  sent : Option Sent

def Turn.resolved (turn : Turn) : List IpAddr := resolvedBy turn.asked

structure Walk where
  method : Text
  body : List UInt8
  url : Text
  previous : Option Allowed
  number : UInt8

def Walk.start (request : AppHttpRequest) : Walk := ⟨request.method, request.body, request.url, none, 0⟩

def UpstreamHead.location (head : UpstreamHead) : Option Text :=
  if REDIRECT_STATUSES.contains head.status then head.header "location".toList else none

def becomesGet (status : UInt16) (method : Text) : Bool :=
  status == 303 || ((status == 301 || status == 302) && method == "POST".toList)

/-- `u8::saturating_add`. -/
def saturatingSucc (n : UInt8) : UInt8 := if n = 255 then 255 else n + 1

def Walk.follow (walk : Walk) (allowed : Allowed) (status : UInt16) (location : Text) : Walk :=
  { method := if becomesGet status walk.method then "GET".toList else walk.method
    body := if becomesGet status walk.method then [] else walk.body
    url := allowed.follow location
    previous := some allowed
    number := saturatingSucc walk.number }

def Walk.hop (walk : Walk) (headers : List (Text × Text)) : Hop :=
  ⟨walk.method, walk.url, headers, walk.body.length, walk.previous, walk.number⟩

def Walk.pin (walk : Walk) (headers : List (Text × Text)) (allowed : Allowed) : PinnedRequest :=
  ⟨walk.method, targetUrl allowed.target, allowed.target.host, allowed.connect, headers, walk.body⟩

def Walk.answered (walk : Walk) (sent : Sent) : Walk ⊕ Except AppFetchRefusal Opened :=
  match sent.answer with
  | .timedOut => .inr (.error (.limit .time))
  | .failed _ => .inr (.error (.unavailable .network))
  | .opened head =>
    match head.location with
    | none => .inr (.ok ⟨head, walk.number⟩)
    | some location => .inl (walk.follow sent.allowed head.status location)

namespace AppNet

def decideAll (net : AppNet) (hop : Hop) (resolved : List IpAddr) (grant : NetGrant) : Verdict :=
  hop.decideEach resolved grant none net.deployments

/-- The agent may be bound to another port than `AGENT_PORT`. -/
def refuseAgentPort (net : AppNet) (allowed : Allowed) : Except AppFetchRefusal Allowed :=
  if allowed.target.port = net.agentPort then .error .policy else .ok allowed

def check (net : AppNet) (hop : Hop) (grant : NetGrant) (resolve : Text → UInt16 → Lookup) : Checked :=
  match net.decideAll hop [] grant with
  | .allow allowed => ⟨none, net.refuseAgentPort allowed⟩
  | .policy .noAddress =>
    match TargetUrl.parse hop.url with
    | .error _ => ⟨none, .error .policy⟩
    | .ok target =>
      let answer := resolve target.host target.port
      let asked := some ⟨target.host, target.port, answer⟩
      match answer with
      | .timedOut => ⟨asked, .error (.limit .time)⟩
      | .answered _ =>
        match net.decideAll hop answer.addresses grant with
        | .allow allowed => ⟨asked, net.refuseAgentPort allowed⟩
        | .policy _ => ⟨asked, .error .policy⟩
  | .policy _ => ⟨none, .error .policy⟩

def turn (net : AppNet) (grant : NetGrant) (headers : List (Text × Text)) (ports : HopPorts) (walk : Walk) :
    Turn × (Walk ⊕ Except AppFetchRefusal Opened) :=
  let hop := walk.hop headers
  let checked := net.check hop grant ports.resolve
  match checked.result with
  | .error refusal => (⟨hop, checked.asked, none⟩, .inr (.error refusal))
  | .ok allowed =>
    let pinned := walk.pin headers allowed
    let sent : Sent := ⟨allowed, pinned, ports.connect pinned⟩
    (⟨hop, checked.asked, some sent⟩, walk.answered sent)

end AppNet

/-- The passes made, and what came of them; no result if the fuel ran out. -/
structure Run where
  turns : List Turn
  result : Option (Except AppFetchRefusal Opened)

def Run.sends (run : Run) : List Sent := run.turns.filterMap Turn.sent

namespace AppNet

/-- The loop, for at most `fuel` passes. -/
def walk (net : AppNet) (grant : NetGrant) (headers : List (Text × Text)) : Nat → (Nat → HopPorts) → Walk → Run
  | 0, _, _ => ⟨[], none⟩
  | fuel + 1, ports, state =>
    match net.turn grant headers (ports 0) state with
    | (turn, .inr result) => ⟨[turn], some result⟩
    | (turn, .inl next) =>
      let rest := net.walk grant headers fuel (fun n => ports (n + 1)) next
      ⟨turn :: rest.turns, rest.result⟩

/-- `open_hops`, once the fetch is authorised; `admitted` is the rate limiter's answer. -/
def openHops (net : AppNet) (reach : Reach) (admitted : Bool) (request : AppHttpRequest) (ports : Nat → HopPorts)
    (fuel : Nat) : Run :=
  if !admitted then ⟨[], some (.error (.limit .rate))⟩
  else
    match NetGrant.new (.host reach.private_) reach.hosts with
    | .error _ => ⟨[], some (.error .policy)⟩
    | .ok grant => net.walk grant request.headers fuel ports (Walk.start request)

end AppNet

/-! ## What a pass does -/

variable {allowed : Allowed} {grant : NetGrant} {resolved : List IpAddr} {hop : Hop} {net : AppNet}
  {headers : List (Text × Text)} {ports : HopPorts}

theorem Hop.decide_allows {deployment : Deployment} (h : hop.decide resolved grant deployment = .allow allowed) :
    NetPolicy.check hop.request resolved grant deployment = .ok allowed ∧
      ∀ previous, hop.previous = some previous →
        hop.number ≠ 0 ∧ hop.number ≤ MAX_REDIRECTS ∧ allowed.target.host = previous.target.host ∧
          (previous.target.scheme = .https → allowed.target.scheme = .https) := by
  unfold Hop.decide at h
  split at h
  · rename_i hnone
    exact ⟨decide_eq_allow.mp h, fun previous hp => by rw [hnone] at hp; cases hp⟩
  · rename_i previous hsome
    unfold decideRedirect at h
    split at h
    · cases h
    rename_i hcount
    split at h
    · cases h
    rename_i target hparse
    split at h
    · cases h
    rename_i hhost
    split at h
    · cases h
    rename_i hdowngrade
    have hcheck := decide_eq_allow.mp h
    have htarget : target = allowed.target := by
      have hread := (check_eq_ok hcheck).1.parsed
      exact Except.ok.inj (hparse.symm.trans hread)
    refine ⟨hcheck, fun p hp => ?_⟩
    obtain rfl : previous = p := Option.mem_unique hsome hp
    subst htarget
    refine ⟨fun h0 => hcount (.inl h0), UInt8.not_lt.mp fun hlt => hcount (.inr hlt), not_not.mp hhost, fun hs => ?_⟩
    cases hnext : allowed.target.scheme with
    | https => rfl
    | http => exact absurd ⟨hs, hnext⟩ hdowngrade

theorem Hop.decide_unique {d₁ d₂ : Deployment} {a₁ a₂ : Allowed} (h₁ : hop.decide resolved grant d₁ = .allow a₁)
    (h₂ : hop.decide resolved grant d₂ = .allow a₂) :
    a₁ = a₂ := by
  obtain ⟨hin₁, -, -, hconnect₁⟩ := check_eq_ok (Hop.decide_allows h₁).1
  obtain ⟨hin₂, -, -, hconnect₂⟩ := check_eq_ok (Hop.decide_allows h₂).1
  have htarget : a₁.target = a₂.target := Except.ok.inj (hin₁.parsed.symm.trans hin₂.parsed)
  obtain ⟨t₁, c₁⟩ := a₁
  obtain ⟨t₂, c₂⟩ := a₂
  simp only at htarget hconnect₁ hconnect₂
  rw [hconnect₁, hconnect₂, htarget]

theorem Hop.decideEach_eq_allow {kept : Option Allowed} {deployments : List Deployment}
    (h : hop.decideEach resolved grant kept deployments = .allow allowed) :
    (deployments = [] → kept = some allowed) ∧
      ∀ deployment ∈ deployments, hop.decide resolved grant deployment = .allow allowed := by
  induction deployments generalizing kept with
  | nil =>
    refine ⟨fun _ => ?_, fun d hd => by simp at hd⟩
    cases kept with
    | none => cases h
    | some a =>
      simp only [Hop.decideEach, Verdict.allow.injEq] at h
      rw [h]
  | cons first rest ih =>
    refine ⟨fun hnil => (by cases hnil), ?_⟩
    simp only [Hop.decideEach] at h
    cases hfirst : hop.decide resolved grant first with
    | policy reason => simp [hfirst] at h
    | allow a =>
      rw [hfirst] at h
      obtain ⟨hlast, hall⟩ := ih h
      have ha : a = allowed := by
        cases rest with
        | nil => exact Option.some.inj (hlast rfl)
        | cons next rest => exact Hop.decide_unique hfirst (hall next (by simp))
      intro d hd
      rcases List.mem_cons.mp hd with rfl | hd
      · rw [hfirst, ha]
      · exact hall d hd

theorem Hop.decideEach_eq_noAddress {kept : Option Allowed}
    {deployments : List Deployment} (h : hop.decideEach resolved grant kept deployments = .policy .noAddress)
    (hne : deployments ≠ []) : ∃ deployment, hop.decide resolved grant deployment = .policy .noAddress := by
  induction deployments generalizing kept with
  | nil => exact absurd rfl hne
  | cons first rest ih =>
    simp only [Hop.decideEach] at h
    cases hfirst : hop.decide resolved grant first with
    | policy reason =>
      rw [hfirst] at h
      exact ⟨first, hfirst.trans h⟩
    | allow a =>
      rw [hfirst] at h
      cases rest with
      | nil => cases h
      | cons next rest => exact ih h (by simp)

theorem Hop.decide_noAddress {deployment : Deployment} (h : hop.decide resolved grant deployment = .policy .noAddress) :
    ∃ target, TargetUrl.parse hop.url = .ok target ∧ grant.admits target.host target.port = true := by
  unfold Hop.decide at h
  split at h
  · exact check_eq_noAddress (decide_eq_policy.mp h)
  · unfold decideRedirect at h
    split at h
    · cases h
    split at h
    · cases h
    split at h
    · cases h
    split at h
    · cases h
    exact check_eq_noAddress (decide_eq_policy.mp h)

namespace AppNet

theorem refuseAgentPort_eq_ok {a : Allowed} (h : net.refuseAgentPort a = .ok allowed) :
    a = allowed ∧ allowed.target.port ≠ net.agentPort := by
  unfold refuseAgentPort at h
  split at h
  · cases h
  rename_i hport
  obtain rfl := Except.ok.inj h
  exact ⟨rfl, hport⟩

theorem check_spec (net : AppNet) (hop : Hop) (grant : NetGrant) (resolve : Text → UInt16 → Lookup) :
    (∀ question, (net.check hop grant resolve).asked = some question →
      grant.admits question.host question.port = true ∧ question.answer = resolve question.host question.port) ∧
    ∀ allowed, (net.check hop grant resolve).result = .ok allowed →
      (∀ deployment ∈ net.deployments,
        hop.decide (resolvedBy (net.check hop grant resolve).asked) grant deployment = .allow allowed) ∧
      allowed.target.port ≠ net.agentPort := by
  have hallow : ∀ {resolved a allowed}, net.decideAll hop resolved grant = .allow a →
      net.refuseAgentPort a = .ok allowed →
      (∀ deployment ∈ net.deployments, hop.decide resolved grant deployment = .allow allowed) ∧
        allowed.target.port ≠ net.agentPort := by
    intro resolved a allowed hdecide hport
    obtain ⟨rfl, hport⟩ := refuseAgentPort_eq_ok hport
    exact ⟨(Hop.decideEach_eq_allow hdecide).2, hport⟩
  unfold check
  split
  · rename_i a hdecide
    exact ⟨fun q hq => (by cases hq), fun allowed h => hallow hdecide h⟩
  · rename_i hdecide
    obtain ⟨deployment, hnone⟩ := Hop.decideEach_eq_noAddress hdecide net.configured
    obtain ⟨target, hparse, hlisted⟩ := Hop.decide_noAddress hnone
    rw [hparse]
    have hasked : ∀ question, some (⟨target.host, target.port, resolve target.host target.port⟩ : Question) = some question →
        grant.admits question.host question.port = true ∧ question.answer = resolve question.host question.port := by
      rintro question hq
      obtain rfl := Option.some.inj hq
      exact ⟨hlisted, rfl⟩
    dsimp only
    split
    · exact ⟨hasked, fun allowed h => (by cases h)⟩
    · split
      · rename_i a hdecide
        exact ⟨hasked, fun allowed h => hallow hdecide h⟩
      · exact ⟨hasked, fun allowed h => (by cases h)⟩
  · exact ⟨fun q hq => (by cases hq), fun allowed h => (by cases h)⟩

end AppNet

/-! ## What is opened -/

/-- Every deployment allowed it on this hop's own addresses, it goes to those alone, and its URL spells out the target
that was allowed. -/
structure Sent.Inside (net : AppNet) (grant : NetGrant) (turn : Turn) (sent : Sent) : Prop where
  decided : ∀ deployment ∈ net.deployments, turn.hop.decide turn.resolved grant deployment = .allow sent.allowed
  connect : sent.pinned.connect = sent.allowed.connect
  addresses : ∀ socket ∈ sent.pinned.connect,
    socket.ip ∈ addressesOf sent.allowed.target turn.resolved ∧ socket.port = sent.allowed.target.port
  host : sent.pinned.host = sent.allowed.target.host
  url : TargetUrl.parse sent.pinned.url =
    if MAX_URL_BYTES < sent.pinned.url.len then .error .tooLong else .ok sent.allowed.target
  port : sent.allowed.target.port ≠ net.agentPort ∧ sent.allowed.target.port ≠ AGENT_PORT

def Sent.dropsBody (sent : Sent) : Bool :=
  match sent.answer with
  | .opened head => head.location.isSome && becomesGet head.status sent.pinned.method
  | _ => false

/-- What an earlier request leaves to a later one: the host, the encryption, and the body only if it was not
dropped in between. -/
structure Sent.Follows (earlier later : Sent) : Prop where
  host : later.pinned.host = earlier.pinned.host
  scheme : earlier.allowed.target.scheme = .https → later.allowed.target.scheme = .https
  body : earlier.dropsBody = true → later.pinned.body = []

/-- What the loop's variables say of a request opened from them or later. -/
structure Walk.Binds (state : Walk) (sent : Sent) : Prop where
  host : ∀ previous, state.previous = some previous → sent.pinned.host = previous.target.host
  scheme : ∀ previous, state.previous = some previous → previous.target.scheme = .https →
    sent.allowed.target.scheme = .https
  first : state.previous = none → ∃ target, TargetUrl.parse state.url = .ok target ∧ sent.pinned.host = target.host
  body : sent.pinned.body = state.body ∨ sent.pinned.body = []

variable {sent : Sent}

namespace AppNet

theorem inside_of_check {resolve : Text → UInt16 → Lookup} (h : (net.check hop grant resolve).result = .ok allowed)
    {pinned : PinnedRequest} (hurl : pinned.url = targetUrl allowed.target) (hhost : pinned.host = allowed.target.host)
    (hconnect : pinned.connect = allowed.connect) (answer : Attempt) :
    Sent.Inside net grant ⟨hop, (net.check hop grant resolve).asked, some ⟨allowed, pinned, answer⟩⟩
      ⟨allowed, pinned, answer⟩ := by
  obtain ⟨hdecided, hport⟩ := (net.check_spec hop grant resolve).2 allowed h
  obtain ⟨deployment, hmem⟩ := List.exists_mem_of_ne_nil _ net.configured
  obtain ⟨hin, -, -, haddresses⟩ := check_eq_ok (Hop.decide_allows (hdecided deployment hmem)).1
  refine ⟨hdecided, hconnect, fun socket hs => ?_, hhost, ?_, hport, hin.agentPort⟩
  · rw [hconnect, haddresses] at hs
    obtain ⟨ip, hip, rfl⟩ := List.mem_map.mp hs
    exact ⟨hip, rfl⟩
  · rw [hurl]
    exact (readable_of_parse hin.parsed).parse_writeUrl

theorem turn_asked {state : Walk} {question : Question} (h : (net.turn grant headers ports state).1.asked = some question) :
    grant.admits question.host question.port = true := by
  have hasked := (net.check_spec (state.hop headers) grant ports.resolve).1 question
  unfold turn at h
  dsimp only at h
  split at h
  · exact (hasked h).1
  · exact (hasked h).1

theorem turn_sent {state : Walk} (h : (net.turn grant headers ports state).1.sent = some sent) :
    sent.Inside net grant (net.turn grant headers ports state).1 ∧ state.Binds sent ∧
      sent.pinned = state.pin headers sent.allowed ∧
      (state.previous ≠ none → state.number ≠ 0 ∧ state.number ≤ MAX_REDIRECTS) ∧
      (net.turn grant headers ports state).2 = state.answered sent := by
  unfold turn at h ⊢
  dsimp only at h ⊢
  cases hok : (net.check (state.hop headers) grant ports.resolve).result with
  | error refusal => simp [hok] at h
  | ok allowed =>
    simp only [hok, Option.some.injEq] at h ⊢
    subst h
    obtain ⟨deployment, hmem⟩ := List.exists_mem_of_ne_nil _ net.configured
    have hspec := ((net.check_spec (state.hop headers) grant ports.resolve).2 allowed hok).1 deployment hmem
    obtain ⟨hcheck, hredirect⟩ := Hop.decide_allows hspec
    refine ⟨inside_of_check hok rfl rfl rfl _, ⟨fun previous hp => ?_, fun previous hp => ?_, fun _ => ?_, .inl rfl⟩, rfl,
      fun hne => ?_, rfl⟩
    · exact (hredirect previous hp).2.2.1
    · exact (hredirect previous hp).2.2.2
    · exact ⟨allowed.target, (check_eq_ok hcheck).1.parsed, rfl⟩
    · obtain ⟨previous, hp⟩ := Option.ne_none_iff_exists'.mp hne
      exact ⟨(hredirect previous hp).1, (hredirect previous hp).2.1⟩

theorem turn_next {state next : Walk} (h : (net.turn grant headers ports state).2 = .inl next) :
    ∃ sent head location, (net.turn grant headers ports state).1.sent = some sent ∧ sent.answer = .opened head ∧
      head.location = some location ∧ next = state.follow sent.allowed head.status location := by
  unfold turn at h ⊢
  dsimp only at h ⊢
  cases hok : (net.check (state.hop headers) grant ports.resolve).result with
  | error refusal => simp [hok] at h
  | ok allowed =>
    simp only [hok] at h ⊢
    unfold Walk.answered at h
    split at h
    · cases h
    · cases h
    rename_i head hopened
    split at h
    · cases h
    rename_i location hlocation
    exact ⟨_, head, location, rfl, hopened, hlocation, (Sum.inl.inj h).symm⟩

end AppNet

/-! ## Whole chains -/

theorem Walk.Binds.follow {state : Walk} {later : Sent} {head : UpstreamHead} {location : Text} (h : state.Binds sent)
    (hpinned : sent.pinned = state.pin headers sent.allowed) (hanswer : sent.answer = .opened head)
    (hlocation : head.location = some location) (hlater : (state.follow sent.allowed head.status location).Binds later) :
    state.Binds later ∧ sent.Follows later := by
  have hsent : sent.pinned.host = sent.allowed.target.host := by rw [hpinned]; rfl
  have hhost : later.pinned.host = sent.pinned.host := (hlater.host sent.allowed rfl).trans hsent.symm
  have hscheme := hlater.scheme sent.allowed rfl
  have hbody : later.pinned.body = [] ∨ later.pinned.body = state.body ∧ becomesGet head.status state.method = false := by
    rcases hlater.body with hb | hb
    · rw [hb]
      simp only [Walk.follow]
      cases becomesGet head.status state.method with
      | true => exact .inl rfl
      | false => exact .inr ⟨rfl, rfl⟩
    · exact .inl hb
  constructor
  · refine ⟨fun p hp => hhost.trans (h.host p hp), fun p hp hs => hscheme (h.scheme p hp hs), fun hnone => ?_, ?_⟩
    · obtain ⟨target, hparse, hfirst⟩ := h.first hnone
      exact ⟨target, hparse, hhost.trans hfirst⟩
    · rcases hbody with hb | ⟨hb, -⟩
      · exact .inr hb
      · exact .inl hb
  · refine ⟨hhost, hscheme, fun hdrops => ?_⟩
    have hget : becomesGet head.status state.method = true := by
      simp only [Sent.dropsBody, hanswer, hlocation, hpinned] at hdrops
      exact hdrops
    rcases hbody with hb | ⟨-, hkeeps⟩
    · exact hb
    · rw [hget] at hkeeps
      cases hkeeps

theorem toNat_saturatingSucc {n : UInt8} (h : n ≤ MAX_REDIRECTS) : (saturatingSucc n).toNat = n.toNat + 1 := by
  have hn : n.toNat ≤ 3 := UInt8.le_iff_toNat_le.mp h
  unfold saturatingSucc
  have hne : n ≠ 255 := by
    rintro rfl
    exact absurd hn (by decide)
  rw [if_neg hne, UInt8.toNat_add]
  have h1 : (1 : UInt8).toNat = 1 := rfl
  omega

/-- The first hop has number 0, every other a number above. -/
def Walk.Counted (state : Walk) : Prop := state.previous = none → state.number = 0

namespace AppNet

variable {net : AppNet} {grant : NetGrant} {headers : List (Text × Text)}

theorem walk_succ (net : AppNet) (grant : NetGrant) (headers : List (Text × Text)) (fuel : Nat) (ports : Nat → HopPorts) (state : Walk) :
    (∃ result, (net.turn grant headers (ports 0) state).2 = .inr result ∧
      net.walk grant headers (fuel + 1) ports state = ⟨[(net.turn grant headers (ports 0) state).1], some result⟩) ∨
    ∃ next, (net.turn grant headers (ports 0) state).2 = .inl next ∧
      net.walk grant headers (fuel + 1) ports state =
        ⟨(net.turn grant headers (ports 0) state).1 :: (net.walk grant headers fuel (fun n => ports (n + 1)) next).turns,
          (net.walk grant headers fuel (fun n => ports (n + 1)) next).result⟩ := by
  rw [walk]
  generalize net.turn grant headers (ports 0) state = made
  obtain ⟨turn, out⟩ := made
  cases out with
  | inr result => exact .inl ⟨result, rfl, rfl⟩
  | inl next => exact .inr ⟨next, rfl, rfl⟩

theorem number_le {state : Walk} (hc : state.Counted)
    (h : (net.turn grant headers ports state).1.sent = some sent) : state.number ≤ MAX_REDIRECTS := by
  by_cases hp : state.previous = none
  · rw [hc hp]
    decide
  · exact ((turn_sent h).2.2.2.1 hp).2

theorem walk_asked (fuel : Nat) (ports : Nat → HopPorts) (state : Walk) :
    ∀ turn ∈ (net.walk grant headers fuel ports state).turns, ∀ question, turn.asked = some question →
      grant.admits question.host question.port = true := by
  induction fuel generalizing ports state with
  | zero => intro turn ht; simp [walk] at ht
  | succ fuel ih =>
    intro turn ht question hq
    rcases walk_succ net grant headers fuel ports state with ⟨result, -, hw⟩ | ⟨next, -, hw⟩
    · rw [hw] at ht
      obtain rfl := List.mem_singleton.mp ht
      exact turn_asked hq
    · rw [hw] at ht
      rcases List.mem_cons.mp ht with rfl | ht
      · exact turn_asked hq
      · exact ih _ next turn ht question hq

theorem walk_inside (fuel : Nat) (ports : Nat → HopPorts) (state : Walk) :
    ∀ turn ∈ (net.walk grant headers fuel ports state).turns, ∀ sent, turn.sent = some sent →
      sent.Inside net grant turn ∧ state.Binds sent := by
  induction fuel generalizing ports state with
  | zero => intro turn ht; simp [walk] at ht
  | succ fuel ih =>
    intro turn ht sent hs
    rcases walk_succ net grant headers fuel ports state with ⟨result, -, hw⟩ | ⟨next, hnext, hw⟩
    · rw [hw] at ht
      obtain rfl := List.mem_singleton.mp ht
      exact ⟨(turn_sent hs).1, (turn_sent hs).2.1⟩
    · rw [hw] at ht
      rcases List.mem_cons.mp ht with rfl | ht
      · exact ⟨(turn_sent hs).1, (turn_sent hs).2.1⟩
      · obtain ⟨hinside, hbinds⟩ := ih _ next turn ht sent hs
        obtain ⟨first, head, location, hfirst, hanswer, hlocation, rfl⟩ := turn_next hnext
        obtain ⟨-, hb, hpinned, -⟩ := turn_sent hfirst
        exact ⟨hinside, (hb.follow hpinned hanswer hlocation hbinds).1⟩

theorem walk_follows (fuel : Nat) (ports : Nat → HopPorts) (state : Walk) :
    (net.walk grant headers fuel ports state).sends.Pairwise Sent.Follows := by
  induction fuel generalizing ports state with
  | zero => exact List.Pairwise.nil
  | succ fuel ih =>
    rcases walk_succ net grant headers fuel ports state with ⟨result, -, hw⟩ | ⟨next, hnext, hw⟩
    · rw [hw]
      unfold Run.sends
      rw [List.filterMap_cons]
      split <;> simp
    · rw [hw]
      obtain ⟨first, head, location, hfirst, hanswer, hlocation, rfl⟩ := turn_next hnext
      obtain ⟨-, hb, hpinned, -⟩ := turn_sent hfirst
      unfold Run.sends
      rw [List.filterMap_cons, hfirst]
      refine List.pairwise_cons.mpr ⟨fun later hlater => ?_, ih _ _⟩
      obtain ⟨turn, ht, hs⟩ := List.mem_filterMap.mp hlater
      exact (hb.follow hpinned hanswer hlocation (walk_inside _ _ _ turn ht later hs).2).2

theorem walk_counts (net : AppNet) (grant : NetGrant) (headers : List (Text × Text)) (fuel : Nat) (ports : Nat → HopPorts) (state : Walk) (hc : state.Counted) :
    (net.walk grant headers fuel ports state).sends.length ≤ MAX_REDIRECTS.toNat + 1 - state.number.toNat ∧
      (MAX_REDIRECTS.toNat + 1 - state.number.toNat < fuel → (net.walk grant headers fuel ports state).result.isSome) := by
  induction fuel generalizing ports state with
  | zero => exact ⟨Nat.zero_le _, fun h => absurd h (Nat.not_lt_zero _)⟩
  | succ fuel ih =>
    have hmax : MAX_REDIRECTS.toNat = 3 := rfl
    have hbound : ∀ {sent}, (net.turn grant headers (ports 0) state).1.sent = some sent → state.number.toNat ≤ 3 :=
      fun h => UInt8.le_iff_toNat_le.mp (number_le hc h)
    rcases walk_succ net grant headers fuel ports state with ⟨result, -, hw⟩ | ⟨next, hnext, hw⟩
    · rw [hw]
      refine ⟨?_, fun _ => rfl⟩
      unfold Run.sends
      rw [List.filterMap_cons]
      split
      · simp
      · rename_i sent hsent
        have := hbound hsent
        simp only [List.filterMap_nil, List.length_singleton]
        omega
    · rw [hw]
      obtain ⟨first, head, location, hfirst, hanswer, hlocation, rfl⟩ := turn_next hnext
      have hle := hbound hfirst
      have hsucc := toNat_saturatingSucc (number_le hc hfirst)
      have hnumber : (state.follow first.allowed head.status location).number = saturatingSucc state.number := rfl
      obtain ⟨hlen, hres⟩ := ih (fun n => ports (n + 1)) (state.follow first.allowed head.status location)
        (fun h => by cases h)
      rw [hnumber, hsucc] at hlen hres
      unfold Run.sends at hlen ⊢
      rw [List.filterMap_cons, hfirst]
      refine ⟨?_, fun hfuel => hres (by omega)⟩
      simp only [List.length_cons]
      omega

end AppNet

theorem Walk.counted_start (request : AppHttpRequest) : (Walk.start request).Counted := fun _ => rfl

/-- A URL that leaves its port out, of `n + 16` bytes. -/
def longUrl (n : Nat) : Text := Scheme.https.name ++ "://".toList ++ ("8.8.8.8".toList ++ '/' :: List.replicate n 'a')

def longTarget (n : Nat) : TargetUrl := ⟨.https, "8.8.8.8".toList, 443, '/' :: List.replicate n 'a'⟩

theorem len_replicate_append (text : Text) (n : Nat) : Text.len (text ++ List.replicate n 'a') = text.len + n := by
  have hone : 'a'.utf8Size = 1 := rfl
  simp [Text.len, hone]

theorem parse_longUrl {n : Nat} (h : n ≤ 8176) : TargetUrl.parse (longUrl n) = .ok (longTarget n) := by
  have hplain : ∀ c ∈ '/' :: List.replicate n 'a', isAsciiGraphic c = true ∧ c ≠ '\\' ∧ c ≠ '#' := by
    intro c hc
    rcases List.mem_cons.mp hc with rfl | hc
    · decide
    · rw [List.eq_of_mem_replicate hc]
      decide
  have hlen : (longUrl n).len = 16 + n := len_replicate_append "https://8.8.8.8/".toList n
  have hsplit : splitHostPort "8.8.8.8".toList = .ok ("8.8.8.8".toList, none) := by decide
  have hread := parse_parts .https hsplit (fun c hc => by rw [← Option.some.inj hc]; rfl) hplain
  rw [← longUrl, hlen, if_neg (by unfold MAX_URL_BYTES; omega)] at hread
  exact hread

theorem parse_targetUrl_longTarget {n : Nat} (h : 8172 < n) (hle : n ≤ 8176) :
    TargetUrl.parse (targetUrl (longTarget n)) = .error .tooLong := by
  have hport : Text.ofNat (443 : UInt16).toNat = "443".toList := by decide
  have htext : targetUrl (longTarget n) = "https://8.8.8.8:443/".toList ++ List.replicate n 'a' := by
    simp only [targetUrl, writeUrl, longTarget, hport]
    rfl
  have hlen : (targetUrl (longTarget n)).len = 20 + n := by
    rw [htext]
    exact len_replicate_append _ n
  unfold targetUrl at hlen ⊢
  rw [(readable_of_parse (parse_longUrl hle)).parse_writeUrl, hlen, if_pos (by unfold MAX_URL_BYTES; omega)]

theorem check_literal {url path : Text} (h : TargetUrl.parse url = .ok ⟨.https, "8.8.8.8".toList, 443, path⟩) :
    NetPolicy.check ⟨"GET".toList, url, [], 0⟩ [] ⟨.host false, [⟨"8.8.8.8".toList, none⟩]⟩
      ⟨"acme.work.avarok.net".toList⟩ =
      .ok ⟨⟨.https, "8.8.8.8".toList, 443, path⟩, [⟨.v4 ⟨8, 8, 8, 8⟩, 443⟩]⟩ := by
  unfold NetPolicy.check
  rw [h]
  rfl

end CitadelAgent.Apps
