import CitadelAgent.NetPolicy.Url

/-!
# Egress policy: the decision

`citadel-app-net-policy/src/{grant,headers,decide}.rs`: what an install was granted, the headers it may send, and
`decide` and `decideRedirect`, which say whether a request may leave and to which addresses.

* `check_eq_ok` : everything `check` has looked at when it allows a request;
* `decide_allows_only` : no request an app can make is allowed to the agent, to the page's origin, to a metadata
  endpoint or to an address in a range the grant does not reach, however the address is written.
-/

namespace CitadelAgent.NetPolicy

/-! ## The grant -/

inductive Egress
  /-- The member's own machine; `private_` is `net.host.private`. -/
  | host (private_ : Bool)
  | server
  deriving DecidableEq

/-- One allow-listed host, and the one port it may be reached on, or `DEFAULT_PORTS`. -/
structure AllowedHost where
  host : Text
  port : Option UInt16
  deriving DecidableEq

inductive GrantFault
  | noHosts
  | tooManyHosts
  | wildcard (entry : Text)
  | malformed (entry : Text)
  | duplicate (entry : Text)
  deriving DecidableEq

namespace AllowedHost

def parse (entry : Text) : Except GrantFault AllowedHost :=
  if '*' ∈ entry then .error (.wildcard entry)
  else if '/' ∈ entry ∨ '@' ∈ entry ∨ '?' ∈ entry ∨ '#' ∈ entry ∨ entry ≠ entry.toAsciiLowercase then
    .error (.malformed entry)
  else
    match splitHostPort entry with
    | .ok (host, port) => .ok ⟨host, port⟩
    | .error _ => .error (.malformed entry)

def admits (allowed : AllowedHost) (host : Text) (port : UInt16) : Bool :=
  allowed.host == host &&
    match allowed.port with
    | some listed => listed == port
    | none => DEFAULT_PORTS.contains port

end AllowedHost

structure NetGrant where
  egress : Egress
  hosts : List AllowedHost
  deriving DecidableEq

namespace NetGrant

def readHosts (hosts : List AllowedHost) : List Text → Except GrantFault (List AllowedHost)
  | [] => .ok hosts
  | entry :: entries => do
    let host ← AllowedHost.parse entry
    if host ∈ hosts then .error (.duplicate entry) else readHosts (hosts ++ [host]) entries

/-- One to `MAX_HOSTS` distinct, explicit entries. -/
def new (egress : Egress) (entries : List Text) : Except GrantFault NetGrant :=
  if entries.isEmpty then .error .noHosts
  else if MAX_HOSTS < entries.length then .error .tooManyHosts
  else do
    let hosts ← readHosts [] entries
    return ⟨egress, hosts⟩

def private_ (grant : NetGrant) : Bool := grant.egress == .host true

def admits (grant : NetGrant) (host : Text) (port : UInt16) : Bool :=
  grant.hosts.any fun entry => entry.admits host port

end NetGrant

structure Deployment where
  pageOriginHost : Text

/-! ## Headers -/

def ALLOWED_HEADERS : List Text := [
  "accept".toList, "accept-language".toList, "authorization".toList, "cache-control".toList,
  "content-language".toList, "content-type".toList, "cookie".toList, "if-match".toList,
  "if-modified-since".toList, "if-none-match".toList, "if-range".toList, "if-unmodified-since".toList,
  "pragma".toList, "range".toList, "user-agent".toList]

def nameAllowed (name : Text) : Bool :=
  if !(!name.isEmpty && name.all fun c => isAsciiLowercase c || c.isDigit || c == '-') then false
  else if ALLOWED_HEADERS.contains name then true
  else
    "x-".toList.isPrefixOf name && decide (2 < name.len) && !"x-forwarded-".toList.isPrefixOf name &&
      name != "x-real-ip".toList

def valueAllowed (value : Text) : Bool := value.all fun c => c == '\t' || (decide (' ' ≤ c) && decide (c ≤ '~'))

def headersAllowed (headers : List (Text × Text)) : Bool :=
  decide (headers.length ≤ MAX_HEADERS) &&
    headers.all fun (name, value) =>
      decide (name.len + value.len ≤ MAX_HEADER_BYTES) && nameAllowed name && valueAllowed value

/-! ## The decision -/

def METHODS : List Text := ["GET".toList, "POST".toList, "PUT".toList, "DELETE".toList, "PATCH".toList, "HEAD".toList]

structure EgressRequest where
  method : Text
  url : Text
  headers : List (Text × Text)
  bodyLen : Nat

inductive DenyReason
  | url (fault : UrlFault)
  | scheme
  | method
  | body
  | headers
  | notListed
  | agentHost
  | pageOrigin
  | noAddress
  | agentPort
  | metadata (address : IpAddr)
  | address (address : IpAddr) (addressClass : AddressClass)
  | tooManyRedirects
  | redirectOffHost
  | redirectDowngrade
  deriving DecidableEq

structure SocketAddr where
  ip : IpAddr
  port : UInt16
  deriving DecidableEq

/-- The caller connects to `connect` and nowhere else. -/
structure Allowed where
  target : TargetUrl
  connect : List SocketAddr
  deriving DecidableEq

inductive Verdict
  | allow (allowed : Allowed)
  | policy (reason : DenyReason)
  deriving DecidableEq

/-- A `Location` made absolute against this request. -/
def Allowed.follow (allowed : Allowed) (location : Text) : Text :=
  if "/".toList.isPrefixOf location && !"//".toList.isPrefixOf location then writeUrl allowed.target location
  else location

def isAgentHost (host : Text) : Bool := host == AGENT_LOOPBACK_HOST || ('.' :: AGENT_LOOPBACK_HOST).isSuffixOf host

def checkAddress (address : IpAddr) (grant : NetGrant) : Except DenyReason Unit :=
  if METADATA.contains (canonical address) || METADATA.contains address then .error (.metadata address)
  else
    match classify address with
    | .public_ => .ok ()
    | .private_ range => if grant.private_ then .ok () else .error (.address address (.private_ range))
    | .forbidden range => .error (.address address (.forbidden range))

def checkAddresses (grant : NetGrant) : List IpAddr → Except DenyReason Unit
  | [] => .ok ()
  | address :: rest => do
    checkAddress address grant
    checkAddresses grant rest

def bodyAllowed (method : Text) (bodyLen : Nat) : Bool :=
  !(decide (MAX_REQUEST_BODY_BYTES < bodyLen) ||
    ((method == "GET".toList || method == "HEAD".toList) && decide (0 < bodyLen)))

def check (request : EgressRequest) (resolved : List IpAddr) (grant : NetGrant) (deployment : Deployment) :
    Except DenyReason Allowed :=
  match TargetUrl.parse request.url with
  | .error fault => .error (.url fault)
  | .ok target =>
    -- The deployment's own names first, before the grant is even read: no grant reaches them.
    if isAgentHost target.host then .error .agentHost
    else if target.host = deployment.pageOriginHost then .error .pageOrigin
    else if target.port = AGENT_PORT then .error .agentPort
    else if target.scheme = .http ∧ grant.private_ = false then .error .scheme
    else if !METHODS.contains request.method then .error .method
    else if !bodyAllowed request.method request.bodyLen then .error .body
    else if !headersAllowed request.headers then .error .headers
    else if !grant.admits target.host target.port then .error .notListed
    else
      let addresses := target.ipLiteral.elim resolved fun literal => [.v4 literal]
      if addresses.isEmpty then .error .noAddress
      else do
        checkAddresses grant addresses
        return ⟨target, addresses.map fun ip => ⟨ip, target.port⟩⟩

/-- Decide `request`, whose host the caller resolved to `resolved`, under `grant`. -/
def decide_ (request : EgressRequest) (resolved : List IpAddr) (grant : NetGrant) (deployment : Deployment) :
    Verdict :=
  match check request resolved grant deployment with
  | .ok allowed => .allow allowed
  | .error reason => .policy reason

/-- Decide hop `hop` (1 for the first redirect) from `previous` to `next`. -/
def decideRedirect (previous : Allowed) (hop : UInt8) (next : EgressRequest) (resolved : List IpAddr)
    (grant : NetGrant) (deployment : Deployment) : Verdict :=
  if hop = 0 ∨ MAX_REDIRECTS < hop then .policy .tooManyRedirects
  else
    match TargetUrl.parse next.url with
    | .error fault => .policy (.url fault)
    | .ok target =>
      if target.host ≠ previous.target.host then .policy .redirectOffHost
      else if previous.target.scheme = .https ∧ target.scheme = .http then .policy .redirectDowngrade
      else decide_ next resolved grant deployment

/-! ## What an allowed request has passed -/

/-- The addresses a request to `target` connects to. -/
def addressesOf (target : TargetUrl) (resolved : List IpAddr) : List IpAddr :=
  target.ipLiteral.elim resolved fun literal => [.v4 literal]

/-- What `check` looks at before the addresses. -/
structure Admitted (request : EgressRequest) (grant : NetGrant) (deployment : Deployment) (target : TargetUrl) : Prop where
  parsed : TargetUrl.parse request.url = .ok target
  agentHost : isAgentHost target.host = false
  pageOrigin : target.host ≠ deployment.pageOriginHost
  agentPort : target.port ≠ AGENT_PORT
  scheme : target.scheme = .http → grant.private_ = true
  listed : grant.admits target.host target.port = true

variable {grant : NetGrant} {resolved : List IpAddr} {deployment : Deployment} {request : EgressRequest}

theorem checkAddresses_eq_ok {addresses : List IpAddr} (h : checkAddresses grant addresses = .ok ()) :
    ∀ address ∈ addresses, checkAddress address grant = .ok () := by
  induction addresses with
  | nil => exact fun address hmem => by simp at hmem
  | cons address rest ih =>
    obtain ⟨⟨⟩, hfirst, hrest⟩ := Result.bind_eq_ok.mp h
    intro x hx
    rcases List.mem_cons.mp hx with rfl | hx
    · exact hfirst
    · exact ih hrest x hx

theorem check_eq_ok {allowed : Allowed} (h : check request resolved grant deployment = .ok allowed) :
    Admitted request grant deployment allowed.target ∧ addressesOf allowed.target resolved ≠ [] ∧
      (∀ address ∈ addressesOf allowed.target resolved, checkAddress address grant = .ok ()) ∧
      allowed.connect = (addressesOf allowed.target resolved).map fun ip => ⟨ip, allowed.target.port⟩ := by
  unfold check at h
  split at h
  · cases h
  rename_i target hparse
  split at h
  · cases h
  rename_i hagent
  split at h
  · cases h
  rename_i hpage
  split at h
  · cases h
  rename_i hport
  split at h
  · cases h
  rename_i hscheme
  split at h
  · cases h
  split at h
  · cases h
  split at h
  · cases h
  split at h
  · cases h
  rename_i hlisted
  dsimp only at h
  split at h
  · cases h
  rename_i hempty
  obtain ⟨⟨⟩, haddresses, hret⟩ := Result.bind_eq_ok.mp h
  obtain rfl := Except.ok.inj hret
  refine ⟨⟨hparse, by simpa using hagent, hpage, hport, fun hhttp => ?_, by simpa using hlisted⟩, ?_, ?_, rfl⟩
  · by_contra hpriv
    exact hscheme ⟨hhttp, by simpa using hpriv⟩
  · exact fun hnil => hempty (by simpa [addressesOf] using hnil)
  · exact checkAddresses_eq_ok haddresses

theorem check_eq_noAddress (h : check request resolved grant deployment = .error .noAddress) :
    ∃ target, TargetUrl.parse request.url = .ok target ∧ grant.admits target.host target.port = true := by
  unfold check at h
  split at h
  · cases h
  rename_i target hparse
  iterate 7 (split at h; · cases h)
  split at h
  · cases h
  rename_i hlisted
  exact ⟨target, hparse, by simpa using hlisted⟩

theorem decide_eq_allow {allowed : Allowed} :
    decide_ request resolved grant deployment = .allow allowed ↔ check request resolved grant deployment = .ok allowed := by
  unfold decide_
  cases check request resolved grant deployment with
  | ok a => simp
  | error e => simp

theorem decide_eq_policy {reason : DenyReason} :
    decide_ request resolved grant deployment = .policy reason ↔
      check request resolved grant deployment = .error reason := by
  unfold decide_
  cases check request resolved grant deployment with
  | ok a => simp
  | error e => simp

theorem checkAddress_eq_ok {address : IpAddr} (h : checkAddress address grant = .ok ()) {reading : IpAddr}
    (hr : Reading address reading) :
    reading ∉ METADATA ∧ (∀ range : ForbiddenRange, ¬ range.Mem reading) ∧
      (grant.private_ = false → ∀ range : PrivateRange, ¬ range.Mem reading) := by
  unfold checkAddress at h
  split at h
  · cases h
  rename_i hmeta
  have hmeta : canonical address ∉ METADATA ∧ address ∉ METADATA := by simpa using hmeta
  have hclass : (∀ r, classify address ≠ .forbidden r) ∧
      (grant.private_ = false → classify address = .public_) := by
    split at h
    · rename_i hc
      exact ⟨fun r hf => (by rw [hc] at hf; cases hf), fun _ => hc⟩
    · rename_i range hc
      split at h
      · rename_i hp
        exact ⟨fun r hf => (by rw [hc] at hf; cases hf), fun hnot => (by rw [hnot] at hp; cases hp)⟩
      · cases h
    · cases h
  refine ⟨?_, hr.not_forbidden hclass.1, fun hp => hr.not_private (hclass.2 hp)⟩
  rcases hr.eq with rfl | rfl
  · exact hmeta.2
  · exact hmeta.1

theorem isAgentHost_iff {host : Text} :
    isAgentHost host = false ↔ host ≠ AGENT_LOOPBACK_HOST ∧ ∀ below, host ≠ below ++ '.' :: AGENT_LOOPBACK_HOST := by
  simp only [isAgentHost, Bool.or_eq_false_iff, beq_eq_false_iff_ne, ne_eq, and_congr_right_iff]
  intro _
  rw [← Bool.not_eq_true, List.isSuffixOf_iff_suffix]
  exact ⟨fun h below heq => h ⟨below, heq.symm⟩, fun h ⟨below, heq⟩ => h below heq.symm⟩

/-- **No SSRF through the egress policy.** Whatever is asked, resolved and granted, an allowed request is one the grant
admits, not to the agent or the page's origin; and no address it connects to, read directly or as the IPv4 address it
embeds, is a metadata endpoint, forbidden, or private without a private grant. -/
theorem decide_allows_only (request : EgressRequest) (resolved : List IpAddr) (grant : NetGrant)
    (deployment : Deployment) (allowed : Allowed)
    (h : decide_ request resolved grant deployment = .allow allowed) :
    allowed.connect ≠ [] ∧ (∀ socket ∈ allowed.connect, socket.port = allowed.target.port) ∧
    allowed.target.port ≠ AGENT_PORT ∧
    allowed.target.host ≠ AGENT_LOOPBACK_HOST ∧
    (∀ below, allowed.target.host ≠ below ++ '.' :: AGENT_LOOPBACK_HOST) ∧
    allowed.target.host ≠ deployment.pageOriginHost ∧
    grant.admits allowed.target.host allowed.target.port = true ∧
    (allowed.target.scheme = .https ∨ grant.private_ = true) ∧
    (∀ ip : Ipv4Addr, allowed.target.host = ip.dotted → ∀ socket ∈ allowed.connect, socket.ip = .v4 ip) ∧
    ((∀ ip : Ipv4Addr, allowed.target.host ≠ ip.dotted) → ∀ socket ∈ allowed.connect, socket.ip ∈ resolved) ∧
    ∀ socket ∈ allowed.connect, ∀ reading, Reading socket.ip reading →
      reading ∉ METADATA ∧ (∀ range : ForbiddenRange, ¬ range.Mem reading) ∧
        (grant.private_ = false → ∀ range : PrivateRange, ¬ range.Mem reading) := by
  obtain ⟨hadmitted, hne, haddresses, hconnect⟩ := check_eq_ok (decide_eq_allow.mp h)
  obtain ⟨hhost, hbelow⟩ := isAgentHost_iff.mp hadmitted.agentHost
  have hsocket : ∀ socket ∈ allowed.connect, socket.ip ∈ addressesOf allowed.target resolved ∧
      socket.port = allowed.target.port := by
    intro socket hs
    rw [hconnect] at hs
    obtain ⟨ip, hip, rfl⟩ := List.mem_map.mp hs
    exact ⟨hip, rfl⟩
  refine ⟨?_, fun socket hs => (hsocket socket hs).2, hadmitted.agentPort, hhost, hbelow, hadmitted.pageOrigin,
    hadmitted.listed, ?_, fun ip hdotted socket hs => ?_, fun hname socket hs => ?_, fun socket hs reading hr => ?_⟩
  · rw [hconnect]
    exact fun hnil => hne (List.map_eq_nil_iff.mp hnil)
  · cases hs : allowed.target.scheme with
    | https => exact .inl rfl
    | http => exact .inr (hadmitted.scheme hs)
  · have hmem := (hsocket socket hs).1
    simp only [addressesOf, TargetUrl.ipLiteral, canonicalIpv4_iff.mpr hdotted, Option.elim_some,
      List.mem_singleton] at hmem
    exact hmem
  · have hmem := (hsocket socket hs).1
    have hnone : canonicalIpv4 allowed.target.host = none :=
      Option.eq_none_iff_forall_ne_some.mpr fun ip hip => hname ip (canonicalIpv4_iff.mp hip)
    simpa only [addressesOf, TargetUrl.ipLiteral, hnone, Option.elim_none] using hmem
  · exact checkAddress_eq_ok (haddresses socket.ip (hsocket socket hs).1) hr

/-- A name that resolves to one public address, given as a NAT64 address. -/
theorem decide_allows_only_nat64 :
    decide_ ⟨"GET".toList, "https://api.acme.com/v1".toList, [], 0⟩
        [.v6 ⟨0x64, 0xff9b, 0, 0, 0, 0, 0x0808, 0x0808⟩]
        ⟨.host false, [⟨"api.acme.com".toList, none⟩]⟩ ⟨"acme.work.avarok.net".toList⟩ =
      .allow ⟨⟨.https, "api.acme.com".toList, 443, "/v1".toList⟩,
        [⟨.v6 ⟨0x64, 0xff9b, 0, 0, 0, 0, 0x0808, 0x0808⟩, 443⟩]⟩ ∧
    ∀ range : ForbiddenRange, ¬ range.Mem (.v6 ⟨0x64, 0xff9b, 0, 0, 0, 0, 0x0808, 0x0808⟩) := by
  have h : decide_ ⟨"GET".toList, "https://api.acme.com/v1".toList, [], 0⟩
      [.v6 ⟨0x64, 0xff9b, 0, 0, 0, 0, 0x0808, 0x0808⟩]
      ⟨.host false, [⟨"api.acme.com".toList, none⟩]⟩ ⟨"acme.work.avarok.net".toList⟩ =
      .allow ⟨⟨.https, "api.acme.com".toList, 443, "/v1".toList⟩,
        [⟨.v6 ⟨0x64, 0xff9b, 0, 0, 0, 0, 0x0808, 0x0808⟩, 443⟩]⟩ := by decide
  obtain ⟨-, -, -, -, -, -, -, -, -, -, hsafe⟩ := decide_allows_only _ _ _ _ _ h
  exact ⟨h, (hsafe _ (List.mem_singleton.mpr rfl) _ .direct).2.1⟩

end CitadelAgent.NetPolicy
