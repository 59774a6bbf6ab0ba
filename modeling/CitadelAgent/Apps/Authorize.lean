import CitadelAgent.NetPolicy.Decide

/-!
# Host egress: what one fetch may reach

`citadel-internal-service/src/kernel/apps/net/{authority,authorize}.rs` and the refusals of
`citadel-internal-service-types/src/apps_net.rs`: the workspace server's word on the install, narrowed by what the
page asks.

* `authorize` : the reach of a fetch, or why there is none;
* `authorize_narrows` : the page never widens what the server said.
-/

namespace CitadelAgent.Apps
open NetPolicy

/-- What the server says one install may reach, for the member who asked. -/
structure KernelGrant where
  appId : Text
  hosts : List Text
  private_ : Bool

inductive GrantFault
  | linkDown
  | send (err : Text)
  | timeout
  | abandoned

inductive AppFetchLimit
  | rate
  | responseBody
  | time
  | credit
  deriving DecidableEq

inductive AppFetchUnavailable
  | notConfigured
  | network
  | cancelled
  | session
  | duplicate
  | authority
  deriving DecidableEq

inductive AppFetchRefusal
  | policy
  | limit (which : AppFetchLimit)
  | unavailable (why : AppFetchUnavailable)
  deriving DecidableEq

structure AppNetGrant where
  hosts : List Text
  private_ : Bool

structure Reach where
  appId : Text
  hosts : List Text
  private_ : Bool

/-- `str::eq_ignore_ascii_case`. -/
def eqIgnoreAsciiCase (a b : Text) : Bool := a.toAsciiLowercase == b.toAsciiLowercase

def narrowed (page server : List Text) : List Text :=
  page.filter fun asked => server.any fun allowed => eqIgnoreAsciiCase allowed asked

/-- Whether the member has let apps reach the private network. Unset is no, and so is a grant that cannot be
read. -/
def memberAllowsPrivate (stored : Except Text (Option Bool)) : Bool :=
  match stored with
  | .ok granted => granted == some true
  | .error _ => false

/-- `answer` is what `GrantCache::resolve` gave, `member` what is stored of the member's own grant. -/
def authorize (answer : Except GrantFault (Option KernelGrant)) (appId : Text) (page : AppNetGrant)
    (member : Except Text (Option Bool)) : Except AppFetchRefusal Reach :=
  match answer with
  | .error _ => .error (.unavailable .authority)
  | .ok none => .error .policy
  | .ok (some server) =>
    if server.appId ≠ appId then .error .policy
    else
      .ok
        { hosts := narrowed page.hosts server.hosts
          appId := server.appId
          private_ := page.private_ && server.private_ && memberAllowsPrivate member }

/-- **The page may narrow the server's word, never widen it.** Private addresses need all three: the page, the
server and the member. -/
theorem authorize_narrows {answer : Except GrantFault (Option KernelGrant)} {appId : Text} {page : AppNetGrant}
    {member : Except Text (Option Bool)} {reach : Reach} (h : authorize answer appId page member = .ok reach) :
    ∃ server, answer = .ok (some server) ∧ reach.appId = server.appId ∧ server.appId = appId ∧
      (∀ host ∈ reach.hosts, host ∈ page.hosts ∧ ∃ allowed ∈ server.hosts, eqIgnoreAsciiCase allowed host = true) ∧
      (reach.private_ = true → page.private_ = true ∧ server.private_ = true ∧ member = .ok (some true)) := by
  unfold authorize at h
  split at h
  · cases h
  · cases h
  rename_i server
  split at h
  · cases h
  rename_i happ
  obtain rfl := Except.ok.inj h
  refine ⟨server, rfl, rfl, not_not.mp happ, fun host hhost => ?_, fun hprivate => ?_⟩
  · obtain ⟨hpage, hserver⟩ := List.mem_filter.mp hhost
    exact ⟨hpage, List.any_eq_true.mp hserver⟩
  · simp only [Bool.and_eq_true] at hprivate
    refine ⟨hprivate.1.1, hprivate.1.2, ?_⟩
    have hmember := hprivate.2
    cases member with
    | error err => cases hmember
    | ok granted => exact congrArg Except.ok (beq_iff_eq.mp hmember)

end CitadelAgent.Apps
