import CitadelAgent.Apps.Hosts
import CitadelAgent.Apps.Rate
import CitadelAgent.Apps.Stream

/-!
# Host egress, from the page to the upstream

`open` of `citadel-internal-service/src/kernel/apps/net/fetch.rs`, with `authorize` and the rate limiter before its loop, and
the buffered `fetch` of `body.rs` after it. Fetches run beside each other; what they share is the limiter, which each asks
once: they stand in the order in which they ask. The meter is left out.

* `AppNet.open_`, `AppNet.openAll` : one fetch, and those of a run;
* `fetches_warranted` : what is sent was granted, host and address, and keeps to the limit;
* `fetched_as_streamed` : a fetch and a stream give the page the same body.
-/

namespace CitadelAgent.Apps
open NetPolicy

/-- `FetchInput`, with what the server, the settings, the clock and the ports answer. -/
structure FetchInput where
  cid : UInt64
  appId : Text
  page : AppNetGrant
  request : AppHttpRequest
  answer : Except GrantFault (Option KernelGrant)
  member : Except Text (Option Bool)
  now : Nat
  ports : Nat → HopPorts

namespace FetchInput

def reach (f : FetchInput) : Except AppFetchRefusal Reach := authorize f.answer f.appId f.page f.member

/-- Spent from the app the server says this is. -/
def call (f : FetchInput) (reach : Reach) : RateCall := ⟨f.cid, String.ofList reach.appId, f.now⟩

def calls (f : FetchInput) : Option RateCall :=
  match f.reach with
  | .ok reach => some (f.call reach)
  | .error _ => none

end FetchInput

namespace AppNet

/-- `open`, whose loop ends within `MAX_REDIRECTS + 2` passes. -/
def open_ (net : AppNet) (limiter : RateLimiter) (f : FetchInput) : Run × RateLimiter :=
  match f.reach with
  | .error refusal => (⟨[], some (.error refusal)⟩, limiter)
  | .ok reach =>
    let answer := limiter.admit (f.call reach)
    (net.openHops reach answer.1 f.request f.ports (MAX_REDIRECTS.toNat + 2), answer.2)

def openAll (net : AppNet) : RateLimiter → List FetchInput → List (FetchInput × Run)
  | _, [] => []
  | limiter, f :: fetches => (f, (net.open_ limiter f).1) :: net.openAll (net.open_ limiter f).2 fetches

end AppNet

/-- What an app has sent for the fetches of one window. -/
def sentIn (made : List (FetchInput × Run)) (cid : UInt64) (appId : Text) (start : Nat) : List Sent :=
  (made.filter fun x => decide (x.1.cid = cid ∧ x.1.appId = appId ∧ start ≤ x.1.now ∧ x.1.now < start + WINDOW_MS)).flatMap
    fun x => x.2.sends

/-- What stands behind a request: the server named the app and the host, and the page asked for it; a private address was let
through by the page, the server and the member. -/
structure Warranted (f : FetchInput) (server : KernelGrant) (sent : Sent) : Prop where
  answer : f.answer = .ok (some server)
  app : server.appId = f.appId
  host : ∃ asked ∈ f.page.hosts, (∃ listed ∈ server.hosts, eqIgnoreAsciiCase listed asked = true) ∧
    ∃ entry, AllowedHost.parse asked = .ok entry ∧ entry.admits sent.pinned.host sent.allowed.target.port = true
  address : ∀ socket ∈ sent.pinned.connect, ∀ reading, Reading socket.ip reading →
    reading ∉ METADATA ∧ (∀ range : ForbiddenRange, ¬ range.Mem reading) ∧
      ((∃ range : PrivateRange, range.Mem reading) →
        f.page.private_ = true ∧ server.private_ = true ∧ f.member = .ok (some true))

/-! ## One fetch -/

section Fetches

variable {net : AppNet} {limiter : RateLimiter} {f : FetchInput} {turn : Turn} {sent : Sent} {reach : Reach}

theorem hosts_of_new {egress : Egress} {entries : List Text} {grant : NetGrant} (h : NetGrant.new egress entries = .ok grant) :
    grant.egress = egress ∧ ∀ host ∈ grant.hosts, ∃ entry ∈ entries, AllowedHost.parse entry = .ok host := by
  unfold NetGrant.new at h
  split at h
  · cases h
  split at h
  · cases h
  obtain ⟨hosts, hread, hret⟩ := Result.bind_eq_ok.mp h
  obtain rfl := Except.ok.inj hret
  exact ⟨rfl, fun host hhost => (mem_readHosts hread host hhost).resolve_left List.not_mem_nil⟩

/-- The loop runs only for a fetch that is let through. -/
theorem openHops_cases (net : AppNet) (reach : Reach) (admitted : Bool) (request : AppHttpRequest) (ports : Nat → HopPorts)
    (fuel : Nat) :
    (∃ refusal, net.openHops reach admitted request ports fuel = ⟨[], some (.error refusal)⟩) ∨
      admitted = true ∧ ∃ grant, NetGrant.new (.host reach.private_) reach.hosts = .ok grant ∧
        net.openHops reach admitted request ports fuel = net.walk grant request.headers fuel ports (Walk.start request) := by
  unfold AppNet.openHops
  cases admitted with
  | false => exact .inl ⟨_, rfl⟩
  | true =>
    cases hgrant : NetGrant.new (.host reach.private_) reach.hosts with
    | error fault => exact .inl ⟨_, rfl⟩
    | ok grant => exact .inr ⟨rfl, grant, rfl, rfl⟩

theorem openHops_bounds (net : AppNet) (reach : Reach) (admitted : Bool) (request : AppHttpRequest) (ports : Nat → HopPorts) :
    let run := net.openHops reach admitted request ports (MAX_REDIRECTS.toNat + 2)
    run.result.isSome ∧ run.sends.length ≤ if admitted then MAX_REDIRECTS.toNat + 1 else 0 := by
  rcases openHops_cases net reach admitted request ports (MAX_REDIRECTS.toNat + 2) with ⟨refusal, h⟩ | ⟨rfl, grant, -, h⟩
  · rw [h]
    exact ⟨rfl, Nat.zero_le _⟩
  · rw [h]
    have hcounts := net.walk_counts grant request.headers (MAX_REDIRECTS.toNat + 2) ports _ (Walk.counted_start request)
    exact ⟨hcounts.2 (Nat.lt_succ_self _), hcounts.1⟩

theorem open_warranted (hturn : turn ∈ (net.open_ limiter f).1.turns) (hsent : turn.sent = some sent) :
    ∃ server, Warranted f server sent := by
  unfold AppNet.open_ at hturn
  cases hreach : f.reach with
  | error refusal =>
    rw [hreach] at hturn
    exact absurd hturn List.not_mem_nil
  | ok reach =>
    rw [hreach] at hturn
    obtain ⟨server, hanswer, -, happ, hhosts, hprivate⟩ := authorize_narrows hreach
    rcases openHops_cases net reach ( limiter.admit (f.call reach)).1 f.request f.ports (MAX_REDIRECTS.toNat + 2) with
      ⟨refusal, h⟩ | ⟨-, grant, hgrant, h⟩
    · simp only [h] at hturn
      exact absurd hturn List.not_mem_nil
    · simp only [h] at hturn
      obtain ⟨hegress, hentries⟩ := hosts_of_new hgrant
      obtain ⟨hinside, -⟩ := AppNet.walk_inside _ _ _ turn hturn sent hsent
      obtain ⟨deployment, hmem⟩ := List.exists_mem_of_ne_nil _ net.configured
      obtain ⟨hin, -, haddresses, -⟩ := check_eq_ok (Hop.decide_allows (hinside.decided deployment hmem)).1
      refine ⟨server, hanswer, happ, ?_, fun socket hsocket reading hreading => ?_⟩
      · obtain ⟨entry, hentry, hlisted⟩ := List.any_eq_true.mp hin.listed
        obtain ⟨asked, hasked, hparse⟩ := hentries entry hentry
        obtain ⟨hpage, hserver⟩ := hhosts asked hasked
        exact ⟨asked, hpage, hserver, entry, hparse, hinside.host ▸ hlisted⟩
      · obtain ⟨hmetadata, hforbidden, hpublic⟩ :=
          checkAddress_eq_ok (haddresses socket.ip (hinside.addresses socket hsocket).1) hreading
        refine ⟨hmetadata, hforbidden, fun hrange => ?_⟩
        obtain ⟨range, hrange⟩ := hrange
        refine hprivate (Bool.not_eq_false _ ▸ fun hno => hpublic ?_ range hrange)
        rw [NetGrant.private_, hegress, hno]
        rfl

theorem open_answers (net : AppNet) (limiter : RateLimiter) (f : FetchInput) : (net.open_ limiter f).1.result.isSome := by
  unfold AppNet.open_
  split
  · rfl
  · exact (openHops_bounds ..).1

/-! ## All of them -/

theorem mem_openAll {fetches : List FetchInput} {made : FetchInput × Run} (h : made ∈ net.openAll limiter fetches) :
    ∃ limiter, made.2 = (net.open_ limiter made.1).1 := by
  induction fetches generalizing limiter with
  | nil => exact absurd h List.not_mem_nil
  | cons f fetches ih =>
    rcases List.mem_cons.mp h with rfl | h
    · exact ⟨limiter, rfl⟩
    · exact ih h

theorem now_of_calls {call : RateCall} (h : f.calls = some call) : call.now = f.now := by
  unfold FetchInput.calls at h
  split at h
  · exact Option.some.inj h ▸ rfl
  · cases h

/-- Each fetch that is let through sends at most one request more than there are redirects. -/
theorem length_sentIn_le (net : AppNet) (limiter : RateLimiter) (fetches : List FetchInput) (cid : UInt64) (appId : Text)
    (start : Nat) : (sentIn (net.openAll limiter fetches) cid appId start).length ≤ (MAX_REDIRECTS.toNat + 1) *
      (inWindow (RateLimiter.granted limiter (fetches.filterMap FetchInput.calls)) cid (String.ofList appId) start).length := by
  induction fetches generalizing limiter with
  | nil => exact Nat.zero_le _
  | cons f fetches ih =>
    have ih := ih (net.open_ limiter f).2
    unfold sentIn inWindow at ih ⊢
    rw [AppNet.openAll]
    cases hreach : f.reach with
    | error refusal =>
      have hopen : net.open_ limiter f = (⟨[], some (.error refusal)⟩, limiter) := by rw [AppNet.open_, hreach]
      rw [hopen] at ih ⊢
      rw [List.filterMap_cons_none (by rw [FetchInput.calls, hreach]), List.filter_cons]
      split
      · exact ih
      · exact ih
    | ok reach =>
      have hopen : net.open_ limiter f = (net.openHops reach ( limiter.admit (f.call reach)).1 f.request f.ports
          (MAX_REDIRECTS.toNat + 2), ( limiter.admit (f.call reach)).2) := by rw [AppNet.open_, hreach]
      have hbound := (openHops_bounds net reach ( limiter.admit (f.call reach)).1 f.request f.ports).2
      rw [hopen] at ih ⊢
      rw [List.filterMap_cons_some (by rw [FetchInput.calls, hreach]), RateLimiter.granted]
      by_cases hin : f.cid = cid ∧ f.appId = appId ∧ start ≤ f.now ∧ f.now < start + WINDOW_MS
      · rw [List.filter_cons_of_pos (by simpa using hin), List.flatMap_cons, List.length_append]
        split at hbound
        · next hadmitted =>
          obtain ⟨server, -, hserver, happ, -⟩ := authorize_narrows hreach
          have hcounted : (f.call reach).cid = cid ∧ (f.call reach).appId = String.ofList appId ∧
              start ≤ (f.call reach).now ∧ (f.call reach).now < start + WINDOW_MS :=
            ⟨hin.1, congrArg String.ofList ((hserver.trans happ).trans hin.2.1), hin.2.2⟩
          rw [if_pos hadmitted, List.filter_cons_of_pos (by simpa using hcounted), List.length_cons, Nat.mul_succ]
          exact (Nat.add_le_add hbound ih).trans_eq (Nat.add_comm _ _)
        · next hrefused =>
          rw [if_neg hrefused]
          exact (Nat.add_le_add hbound ih).trans_eq (Nat.zero_add _)
      · rw [List.filter_cons_of_neg (by simpa using hin)]
        refine ih.trans (Nat.mul_le_mul_left _ (List.Sublist.filter _ ?_).length_le)
        split
        · exact List.sublist_cons_self _ _
        · exact List.Sublist.refl _

/-- Whatever the page asks and the upstreams answer: every fetch comes to an end, what it sends is warranted, and in no window
does an app of an account send more than the limit lets it. -/
theorem fetches_warranted (net : AppNet) {fetches : List FetchInput} (h : fetches.Pairwise fun a b => a.now ≤ b.now) :
    (∀ made ∈ net.openAll .empty fetches, made.2.result.isSome ∧
      ∀ turn ∈ made.2.turns, ∀ sent, turn.sent = some sent → ∃ server, Warranted made.1 server sent) ∧
    ∀ cid appId start, (sentIn (net.openAll .empty fetches) cid appId start).length ≤
      (MAX_REDIRECTS.toNat + 1) * MAX_REQUESTS_PER_MINUTE := by
  refine ⟨fun made hmade => ?_, fun cid appId start => ?_⟩
  · obtain ⟨limiter, hopen⟩ := mem_openAll hmade
    rw [hopen]
    exact ⟨open_answers net limiter made.1, fun turn hturn sent => open_warranted hturn⟩
  · have hcalls := h.filterMap FetchInput.calls fun a b hab call hcall later hlater =>
      (now_of_calls hcall).trans_le (hab.trans_eq (now_of_calls hlater).symm)
    exact (length_sentIn_le net .empty fetches cid appId start).trans
      (Nat.mul_le_mul_left _ (length_inWindow_le hcalls cid _ start))

def literalNet : AppNet := ⟨[⟨"acme.work".toList⟩], 12345, List.cons_ne_nil _ _⟩

def literalFetch : FetchInput where
  cid := 7
  appId := "a".toList
  page := ⟨["8.8.8.8".toList], false⟩
  request := ⟨"GET".toList, "https://8.8.8.8/".toList, [], []⟩
  answer := .ok (some ⟨"a".toList, ["8.8.8.8".toList], false⟩)
  member := .ok none
  now := 0
  ports _ := ⟨fun _ _ => .timedOut, fun _ => .opened ⟨200, []⟩⟩

theorem fetches_warranted_literal : (sentIn (literalNet.openAll .empty [literalFetch]) 7 "a".toList 0).length = 1 ∧
    ∀ made ∈ literalNet.openAll .empty [literalFetch], made.2.result.isSome ∧
      ∀ turn ∈ made.2.turns, ∀ sent, turn.sent = some sent → ∃ server, Warranted made.1 server sent :=
  ⟨by decide +kernel, (fetches_warranted literalNet (List.pairwise_singleton _ _)).1⟩

end Fetches

/-! ## The body of a response -/

namespace Stream

variable {body : UpstreamBody} {inTime n : Nat} {bytes : Bytes}

structure Fetched where
  status : UInt16
  headers : List (Text × Text)
  body : Bytes
  redirects : UInt8

/-- The loop of `fetch`: so many calls are answered before the deadline. -/
def gather (body : UpstreamBody) : Nat → Nat → Bytes → Except AppFetchRefusal Bytes
  | 0, _, _ => .error (.limit .time)
  | inTime + 1, n, got =>
    match body n with
    | .failed _ => .error (.unavailable .network)
    | .ended => .ok got
    | .chunk bytes =>
      if MAX_RESPONSE_BODY_BYTES < (got ++ bytes).length then .error (.limit .responseBody)
      else gather body inTime (n + 1) (got ++ bytes)

def fetch (opened : Opened) (body : UpstreamBody) (inTime : Nat) : Except AppFetchRefusal Fetched :=
  match gather body inTime 0 [] with
  | .ok bytes => .ok ⟨opened.head.status, shownHeaders opened.head.headers, bytes, opened.redirects⟩
  | .error refusal => .error refusal

theorem whole_of_gather (hflows : body.Flows n) (hle : (body.text n).length ≤ MAX_RESPONSE_BODY_BYTES)
    (h : gather body inTime n (body.text n) = .ok bytes) :
    (∃ k, body.Whole k bytes) ∧ bytes.length ≤ MAX_RESPONSE_BODY_BYTES := by
  induction inTime generalizing n with
  | zero => cases h
  | succ inTime ih =>
    unfold gather at h
    split at h
    · cases h
    · next hended => exact ⟨⟨n, hflows, hended, (Except.ok.inj h).symm⟩, Except.ok.inj h ▸ hle⟩
    · next chunk hchunk =>
      rw [← UpstreamBody.text_chunk hchunk] at h
      split at h
      · cases h
      · next hshort => exact ih (hflows.succ hchunk) (not_lt.mp hshort) h

theorem gather_of_whole {k : Nat} (h : body.Whole k bytes) (hle : bytes.length ≤ MAX_RESPONSE_BODY_BYTES) (hn : n ≤ k)
    (htime : k < n + inTime) : gather body inTime n (body.text n) = .ok bytes := by
  induction inTime generalizing n with
  | zero => omega
  | succ inTime ih =>
    unfold gather
    rcases Nat.eq_or_lt_of_le hn with rfl | hlt
    · simp only [h.ended, h.text_eq]
    · obtain ⟨chunk, hchunk⟩ := h.flows n hlt
      have hshort : (body.text (n + 1)).length ≤ bytes.length := h.text_eq ▸ (body.text_prefix hlt).length_le
      simp only [hchunk, ← UpstreamBody.text_chunk hchunk]
      rw [if_neg (by omega)]
      exact ih hlt (by omega)

/-- A stream that ends has sent what a fetch with time enough returns; and where a fetch returns a body, what a stream has sent
is the beginning of it, and only the page, its connection or the clock can have made the stream fail. -/
theorem fetched_as_streamed (opened : Opened) (body : UpstreamBody) (acts : List Act) :
    let s := run body acts
    (∀ n, s.point = .returned (.ok n) → n = (textOf s.chunks).length ∧ ∃ k, ∀ inTime > k, fetch opened body inTime =
      .ok ⟨opened.head.status, shownHeaders opened.head.headers, textOf s.chunks, opened.redirects⟩) ∧
    ∀ inTime fetched, fetch opened body inTime = .ok fetched →
      textOf s.chunks <+: fetched.body ∧ fetched.body.length ≤ MAX_RESPONSE_BODY_BYTES ∧
      ∀ refusal, s.point = .returned (.error refusal) →
        refusal = .limit .time ∨ refusal = .limit .credit ∨ refusal = .unavailable .cancelled := by
  intro s
  have hinv : Inv body s := inv_run body acts
  have hsent := hinv.sent
  refine ⟨fun n hpoint => ?_, fun inTime fetched h => ?_⟩
  · obtain ⟨hwhole, hlength⟩ := hinv.of_ok hpoint
    refine ⟨hlength, s.asked, fun inTime htime => ?_⟩
    have hgather : gather body inTime 0 [] = .ok (textOf s.chunks) :=
      gather_of_whole hwhole hsent.total_le (Nat.zero_le _) (htime.trans_eq (Nat.zero_add _).symm)
    rw [fetch, hgather]
  · unfold fetch at h
    split at h
    · next bytes hgather =>
      obtain rfl := Except.ok.inj h
      obtain ⟨⟨k, hwhole⟩, hle⟩ := whole_of_gather (fun _ hk => absurd hk (Nat.not_lt_zero _)) (Nat.zero_le _) hgather
      have hasked : body.text s.asked <+: bytes := hwhole.text_eq ▸ body.text_prefix (hwhole.le hsent.flows)
      refine ⟨hsent.text_prefix.trans hasked, hle, fun refusal hpoint => ?_⟩
      unfold Inv at hinv
      rw [hpoint] at hinv
      cases hinv.2 with
      | cancelled => exact .inr (.inr rfl)
      | time => exact .inl rfl
      | credit => exact .inr (.inl rfl)
      | network hfailed =>
        obtain rfl := hwhole.eq hsent.flows fun chunk hchunk => by rw [hfailed] at hchunk; cases hchunk
        rw [hwhole.ended] at hfailed
        cases hfailed
      | responseBody hchunk hlong =>
        have hmore := (body.text_prefix (hwhole.le (hsent.flows.succ hchunk))).length_le
        rw [← hwhole.text_eq] at hmore
        omega
    · cases h

end Stream
end CitadelAgent.Apps
