import CitadelAgent.Telemetry.Redact

/-!
# The telemetry collector

`citadel-internal-service/src/telemetry/{core,browser,entry,config}.rs` and `core/{browser,metric}.rs`: which sessions exist, which
opted in, and what each ring holds.

* `CollectorCore` and its operations; `none` is a panic of a slice in the redaction;
* `telemetry_stays` : what a session drains.
-/

namespace CitadelAgent.Telemetry
open Requests (parseU64)
open Updater (byteLen trim)
open Conversations (Cid)

/-! ## Bounds, events and entries -/

inductive TelemetryError
  | invalidConfig (why : String)
  | unknownSession (cid : Cid)
  | notOptedIn (cid : Cid)

structure RingConfig where
  maxEntries : Nat
  maxBytes : Nat
  maxMessageBytes : Nat
  entries_pos : 0 < maxEntries
  message_pos : 0 < maxMessageBytes
  holds : 2 * maxMessageBytes ≤ maxBytes

def RingConfig.new (maxEntries maxBytes maxMessageBytes : Nat) : Except TelemetryError RingConfig :=
  if hentries : maxEntries = 0 then .error (.invalidConfig "max_entries must be at least 1")
  else if hmessage : maxMessageBytes = 0 then .error (.invalidConfig "max_message_bytes must be at least 1")
  else if hholds : maxBytes < 2 * maxMessageBytes then
    .error (.invalidConfig "max_bytes must hold one maximal entry (2 * max_message_bytes)")
  else .ok ⟨maxEntries, maxBytes, maxMessageBytes, Nat.pos_of_ne_zero hentries, Nat.pos_of_ne_zero hmessage, not_lt.mp hholds⟩

inductive TelemetryLevel
  | metric | warn | error
  deriving DecidableEq

structure StageReport where
  stage : List Char
  failure : Option (List Char)
  elapsedMs : Nat
  deriving DecidableEq

structure PathReport where
  attempt : UInt32
  plan : List Char
  path : List Char
  stages : List StageReport
  deriving DecidableEq

inductive TelemetryMetric
  | pathReport (report : PathReport)
  deriving DecidableEq

def TelemetryMetric.byteLen : TelemetryMetric → Nat
  | .pathReport report => 192 + 64 * report.stages.length

structure TelemetryEntry where
  timeMs : Nat
  level : TelemetryLevel
  target : List Char
  message : List Char
  peerCid : Option Cid
  metric : Option TelemetryMetric
  deriving DecidableEq

def TelemetryEntry.byteLen (e : TelemetryEntry) : Nat :=
  Updater.byteLen e.message + Updater.byteLen e.target + (e.metric.map (·.byteLen)).getD 0

structure CapturedEvent where
  timeMs : Nat
  level : TelemetryLevel
  target : List Char
  message : List Char
  /-- `none` for agent-wide events. -/
  sessionCid : Option Cid
  peerCid : Option Cid

/-! ## A window's console -/

structure BrowserLimits where
  linesPerWindow : Nat
  windowMs : Nat
  entriesPerRequest : Nat
  fieldBytes : Nat

structure BrowserPacer where
  windowStartMs : Option Nat
  admitted : Nat

def BrowserPacer.admit (pacer : BrowserPacer) (nowMs : Nat) (limits : BrowserLimits) : Bool × BrowserPacer :=
  let expired := pacer.windowStartMs.all fun start => nowMs < start || limits.windowMs ≤ nowMs - start
  let pacer := if expired then ⟨some nowMs, 0⟩ else pacer
  if limits.linesPerWindow ≤ pacer.admitted then (false, pacer) else (true, { pacer with admitted := pacer.admitted + 1 })

inductive BrowserConsoleSource
  | consoleError | consoleWarn | windowError | unhandledRejection

structure BrowserConsoleEntry where
  source : BrowserConsoleSource
  message : List Char
  stack : Option (List Char)
  repeats : UInt32

def EXTENSION_MARKERS : List String :=
  ["chrome-extension://", "moz-extension://", "safari-extension://", "safari-web-extension://", "ms-browser-extension://",
    "grammarly"]

def fromExtension (text : List Char) : Bool := EXTENSION_MARKERS.any fun marker => marker.toList <:+: text.map Char.toLower

def acceptable (entry : BrowserConsoleEntry) (limits : BrowserLimits) : Bool :=
  let stack := entry.stack.getD []
  byteLen entry.message ≤ limits.fieldBytes && byteLen stack ≤ limits.fieldBytes && !fromExtension entry.message &&
    !fromExtension stack

def classify : BrowserConsoleSource → String × TelemetryLevel
  | .consoleError => ("browser.console", .error)
  | .consoleWarn => ("browser.console", .warn)
  | .windowError => ("browser.error", .error)
  | .unhandledRejection => ("browser.rejection", .error)

def BrowserConsoleEntry.text (entry : BrowserConsoleEntry) : List Char :=
  let repeated := if 1 < entry.repeats then s!" (repeated {entry.repeats.toNat} times)".toList else []
  let stack := match entry.stack with
    | some stack => if trim stack = [] then [] else '\n' :: stack
    | none => []
  entry.message ++ repeated ++ stack

def admittedLines (timeMs : Nat) (limits : BrowserLimits) :
    BrowserPacer → List BrowserConsoleEntry → List BrowserConsoleEntry × BrowserPacer
  | pacer, [] => ([], pacer)
  | pacer, entry :: entries =>
    if acceptable entry limits then
      match pacer.admit timeMs limits with
      | (false, pacer) => ([], pacer)
      | (true, pacer) =>
        let (lines, pacer) := admittedLines timeMs limits pacer entries
        (entry :: lines, pacer)
    else admittedLines timeMs limits pacer entries

/-- A console line of the session's window, as its log lines are. -/
def BrowserConsoleEntry.event (entry : BrowserConsoleEntry) (cid : Cid) (timeMs : Nat) : CapturedEvent :=
  ⟨timeMs, (classify entry.source).2, (classify entry.source).1.toList, entry.text, some cid, none⟩

/-! ## Rings -/

structure Ring where
  entries : List TelemetryEntry
  bytes : Nat
  salt : Salt
  browser : BrowserPacer
  takesMetrics : Bool

variable {e : TelemetryEntry} {cid other : Cid}

namespace Ring

def opened (salt : Salt) (takesMetrics : Bool) : Ring := ⟨[], 0, salt, ⟨none, 0⟩, takesMetrics⟩

def evict (config : RingConfig) (size : Nat) : Nat → List TelemetryEntry → List TelemetryEntry × Nat
  | bytes, [] => ([], bytes)
  | bytes, old :: rest =>
    if config.maxEntries ≤ rest.length + 1 || config.maxBytes < bytes + size then
      evict config size (bytes - old.byteLen) rest
    else (old :: rest, bytes)

def push (ring : Ring) (entry : TelemetryEntry) (config : RingConfig) : Ring :=
  let size := entry.byteLen
  let (entries, bytes) := evict config size ring.bytes ring.entries
  { ring with entries := entries ++ [entry], bytes := bytes + size }

theorem evict_subset (config : RingConfig) (size bytes : Nat) (entries : List TelemetryEntry) :
    (evict config size bytes entries).1 ⊆ entries := by
  induction entries generalizing bytes with
  | nil => exact List.Subset.refl _
  | cons old rest ih =>
    rw [evict]
    split
    · exact List.subset_cons_of_subset _ (ih _)
    · exact List.Subset.refl _

end Ring

/-- `Ring.push`, on what is held and the bytes counted. -/
def pushOn (config : RingConfig) (held : List TelemetryEntry × Nat) (e : TelemetryEntry) : List TelemetryEntry × Nat :=
  let (rest, bytes) := Ring.evict config e.byteLen held.2 held.1
  (rest ++ [e], bytes + e.byteLen)

theorem mem_pushOn {config : RingConfig} {es : List TelemetryEntry} {held : List TelemetryEntry × Nat}
    (h : e ∈ (es.foldl (pushOn config) held).1) : e ∈ held.1 ∨ e ∈ es := by
  induction es generalizing held with
  | nil => exact .inl h
  | cons new es ih =>
    rcases ih h with h | h
    · rcases List.mem_append.1 h with h | h
      · exact .inl (Ring.evict_subset _ _ _ _ h)
      · exact .inr (List.mem_cons.2 (.inl (List.mem_singleton.1 h)))
    · exact .inr (List.mem_cons_of_mem _ h)

/-- The longest beginning of at most `max` bytes. -/
def truncateAtChar : Nat → List Char → List Char
  | _, [] => []
  | max, c :: text => if c.utf8Size ≤ max then c :: truncateAtChar (max - c.utf8Size) text else []

theorem truncateAtChar_eq {max : Nat} {text : List Char} (h : byteLen text ≤ max) : truncateAtChar max text = text := by
  induction text generalizing max with
  | nil => cases max <;> rfl
  | cons c text ih =>
    rw [byteLen_cons] at h
    rw [truncateAtChar, if_pos (by omega), ih (by omega)]

theorem truncateAtChar_initial (max : Nat) (text : List Char) : truncateAtChar max text <+: text := by
  induction text generalizing max with
  | nil => cases max <;> exact List.prefix_refl _
  | cons c text ih =>
    rw [truncateAtChar]
    split
    · exact List.cons_prefix_cons.mpr ⟨rfl, ih _⟩
    · exact List.nil_prefix

theorem digitRuns_truncate {max : Nat} {text : List Char} {r : Nat × List Char} (h : r ∈ digitRuns 0 (truncateAtChar max text)) :
    r.2 ∈ runsOf text ∨
      truncateAtChar max text ≠ text ∧ r.1 + byteLen r.2 = byteLen (truncateAtChar max text) := by
  by_cases hcut : truncateAtChar max text = text
  · rw [hcut] at h
    exact .inl (List.mem_map.mpr ⟨r, h, rfl⟩)
  obtain ⟨b, hb⟩ := truncateAtChar_initial max text
  obtain ⟨x, y, hxy, hstart, hnil, hdigits, hx, hy⟩ := mem_digitRuns h
  cases y with
  | nil =>
    refine .inr ⟨hcut, ?_⟩
    rw [hxy, hstart, List.append_nil, byteLen_append, Nat.zero_add]
  | cons c y =>
    refine .inl ?_
    have happart : startsDigit (c :: y ++ b) = false := hy
    rw [← hb, hxy, List.append_assoc, runsOf_append (.inr happart), runsOf_append (.inl hx)]
    refine List.mem_append_left _ (List.mem_append_right _ ?_)
    rw [runsOf, digitRuns_digits hnil hdigits]
    exact List.mem_singleton_self _

/-! ## The core -/

structure LocalSession where
  identity : List KnownValue
  peers : List (Cid × List KnownValue)
  ring : Option Ring

structure CollectorCore where
  config : RingConfig
  sessions : List (Cid × LocalSession)
  known : List KnownValue

section
variable (crates : Crates)

def entry (event : CapturedEvent) (known : List KnownValue) (otherSessions : List Cid) (salt : Salt) (config : RingConfig) :
    Option TelemetryEntry :=
  (redactWithSessions crates event.message known otherSessions salt).map fun message =>
    ⟨event.timeMs, event.level, truncateAtChar config.maxMessageBytes event.target,
      truncateAtChar config.maxMessageBytes message, event.peerCid, none⟩

end

def METRIC_TARGET : String := "citadel::metric"

def summary : TelemetryMetric → List Char
  | .pathReport report =>
    s!"path attempt {report.attempt.toNat}: ".toList ++ report.plan ++ " plan, attached ".toList ++ report.path

variable {f : LocalSession → LocalSession}

namespace CollectorCore

def new (config : RingConfig) : CollectorCore := ⟨config, [], []⟩

def session (s : CollectorCore) (cid : Cid) : Option LocalSession := s.sessions.lookup cid

def keys (s : CollectorCore) : List Cid := s.sessions.map Prod.fst

def ring (s : CollectorCore) (cid : Cid) : Option Ring := (s.session cid).bind (·.ring)

def rebuildKnown (s : CollectorCore) : CollectorCore :=
  { s with known := s.sessions.flatMap fun (_, session) => session.identity ++ session.peers.flatMap Prod.snd }

def modify (s : CollectorCore) (cid : Cid) (f : LocalSession → LocalSession) : CollectorCore :=
  { s with sessions := s.sessions.map fun (c, session) => (c, if c = cid then f session else session) }

def registerSession (s : CollectorCore) (cid : Cid) (identity : List KnownValue) : CollectorCore :=
  match s.session cid with
  | some _ => (s.modify cid fun session => { session with identity := identity }).rebuildKnown
  | none => ({ s with sessions := s.sessions ++ [(cid, ⟨identity, [], none⟩)] } : CollectorCore).rebuildKnown

def forgetSession (s : CollectorCore) (cid : Cid) : CollectorCore :=
  match s.session cid with
  | some _ => ({ s with sessions := s.sessions.filter fun (c, _) => c ≠ cid } : CollectorCore).rebuildKnown
  | none => s

def learnPeer (s : CollectorCore) (sessionCid peerCid : Cid) (identity : List KnownValue) :
    Except TelemetryError CollectorCore :=
  match s.session sessionCid with
  | some _ => .ok (s.modify sessionCid fun session =>
      { session with peers := (peerCid, identity) :: session.peers.filter fun (c, _) => c ≠ peerCid }).rebuildKnown
  | none => .error (.unknownSession sessionCid)

def optIn (s : CollectorCore) (cid : Cid) (salt : Salt) (takesMetrics : Bool) : Except TelemetryError CollectorCore :=
  match s.session cid with
  | some _ => .ok (s.modify cid fun session =>
      let ring := session.ring.getD (Ring.opened salt takesMetrics)
      { session with ring := some { ring with takesMetrics := takesMetrics } })
  | none => .error (.unknownSession cid)

def optOut (s : CollectorCore) (cid : Cid) : Except TelemetryError CollectorCore :=
  match s.session cid with
  | some _ => .ok (s.modify cid fun session => { session with ring := none })
  | none => .error (.unknownSession cid)

def setRing (s : CollectorCore) (cid : Cid) (ring : Ring) : CollectorCore :=
  s.modify cid fun session => { session with ring := some ring }

def drain (s : CollectorCore) (cid : Cid) (nextSalt : Salt) : Except TelemetryError (List TelemetryEntry × CollectorCore) :=
  match s.session cid with
  | none => .error (.unknownSession cid)
  | some session =>
    match session.ring with
    | none => .error (.notOptedIn cid)
    | some ring => .ok (ring.entries, s.setRing cid { ring with entries := [], bytes := 0, salt := nextSalt })

section
variable (crates : Crates)

def take (s : CollectorCore) (event : CapturedEvent) (otherSessions : List Cid) (session : LocalSession) : Option LocalSession :=
  match session.ring with
  | none => some session
  | some ring =>
    (entry crates event s.known otherSessions ring.salt s.config).map fun e =>
      { session with ring := some (ring.push e s.config) }

def goesTo (s : CollectorCore) (event : CapturedEvent) (cid : Cid) : Bool :=
  match event.sessionCid with
  | some own => cid = own
  | none => (cidTokens event.message).all fun named => named ∉ s.keys || named = cid

/-- Whose cids are redacted: an agent-wide event names none of them. -/
def othersFor (s : CollectorCore) (event : CapturedEvent) : List Cid :=
  match event.sessionCid with
  | some own => s.keys.filter (· ≠ own)
  | none => []

def capture (s : CollectorCore) (event : CapturedEvent) : Option CollectorCore :=
  (s.sessions.mapM fun (cid, session) =>
    if s.goesTo event cid then (s.take crates event (s.othersFor event) session).map fun session => (cid, session)
    else some (cid, session)).map fun sessions => { s with sessions := sessions }

def captureBrowser (s : CollectorCore) (cid : Cid) (timeMs : Nat) (entries : List BrowserConsoleEntry) (limits : BrowserLimits) :
    Option (Nat × CollectorCore) :=
  match s.ring cid with
  | none => some (0, s)
  | some ring =>
    let (lines, browser) := admittedLines timeMs limits ring.browser (entries.take limits.entriesPerRequest)
    let paced := s.setRing cid { ring with browser := browser }
    (lines.foldlM (fun s line => capture crates s (line.event cid timeMs)) paced).map fun s => (lines.length, s)

end

def captureMetric (s : CollectorCore) (cid : Cid) (timeMs : Nat) (peerCid : Cid) (metric : TelemetryMetric) :
    Bool × CollectorCore :=
  match (s.ring cid).filter (·.takesMetrics) with
  | none => (false, s)
  | some ring =>
    let e : TelemetryEntry := ⟨timeMs, .metric, METRIC_TARGET.toList, summary metric, some peerCid, some metric⟩
    (true, s.setRing cid (ring.push e s.config))

/-! ## What a change leaves in the rings -/

def entriesOf (s : CollectorCore) (cid : Cid) : List TelemetryEntry := ((s.ring cid).map (·.entries)).getD []

variable {s t : CollectorCore}

theorem lookup_map (sessions : List (Cid × LocalSession)) (f : Cid → LocalSession → LocalSession) (cid : Cid) :
    (sessions.map fun (c, session) => (c, f c session)).lookup cid = (sessions.lookup cid).map (f cid) := by
  induction sessions with
  | nil => rfl
  | cons x sessions ih =>
    obtain ⟨c, session⟩ := x
    by_cases h : cid = c
    · subst h
      simp
    · have hne : (cid == c) = false := beq_false_of_ne h
      simp only [List.map_cons, List.lookup, hne]
      exact ih

theorem session_modify (s : CollectorCore) (cid other : Cid) (f : LocalSession → LocalSession) :
    (s.modify cid f).session other = (s.session other).map fun session => if other = cid then f session else session :=
  lookup_map s.sessions (fun c session => if c = cid then f session else session) other

theorem keys_modify (s : CollectorCore) (cid : Cid) (f : LocalSession → LocalSession) : (s.modify cid f).keys = s.keys := by
  rw [keys, keys, modify, List.map_map]
  rfl

theorem lookup_filter_ne (sessions : List (Cid × LocalSession)) (cid other : Cid) :
    (sessions.filter fun (c, _) => c ≠ cid).lookup other = if other = cid then none else sessions.lookup other := by
  induction sessions with
  | nil => simp
  | cons x sessions ih =>
    obtain ⟨c, session⟩ := x
    by_cases hc : c = cid
    · subst hc
      rw [List.filter_cons_of_neg (by simp), ih]
      split
      · rfl
      · rename_i hne
        simp [List.lookup, beq_false_of_ne hne]
    · rw [List.filter_cons_of_pos (by simpa using hc)]
      by_cases ho : other = c
      · subst ho
        simp [hc]
      · simp only [List.lookup, beq_false_of_ne ho]
        exact ih

theorem ring_none (h : s.session cid = none) : s.ring cid = none := by
  rw [ring, h]
  rfl

theorem optOut_error {err : TelemetryError} (herr : s.optOut cid = .error err) : s.ring cid = none := by
  rw [optOut] at herr
  split at herr
  · exact nomatch herr
  · rename_i hnone
    exact ring_none hnone

theorem drain_ok {nextSalt : Salt} {entries : List TelemetryEntry} (hok : s.drain cid nextSalt = .ok (entries, t)) :
    entries = s.entriesOf cid := by
  rw [drain] at hok
  split at hok
  · exact nomatch hok
  · rename_i session hsession
    split at hok
    · exact nomatch hok
    · rename_i ring hring
      obtain ⟨rfl, -⟩ := Prod.mk.inj (Except.ok.inj hok)
      rw [entriesOf, CollectorCore.ring, hsession, Option.bind_some, hring]
      rfl

theorem drain_error {nextSalt : Salt} {err : TelemetryError} (herr : s.drain cid nextSalt = .error err) :
    s.ring cid = none := by
  rw [drain] at herr
  split at herr
  · rename_i hnone
    exact ring_none hnone
  · rename_i session hsession
    split at herr
    · rename_i hnone
      rw [ring, hsession]
      exact hnone
    · exact nomatch herr

/-! ## What a capture adds -/

section
variable {crates : Crates}

/-- No placeholder names a registered session other than that of `cid`. -/
def PlainPlaceholders (crates : Crates) (s : CollectorCore) (cid : Cid) : Prop :=
  ∀ kind value salt, ∀ named ∈ cidTokens (placeholder crates kind value salt), named ∈ s.keys → named = cid

/-- The entry is the event's line: redacted and cut. No other registered session is named in it, unless the cut ends the number. -/
structure Line (crates : Crates) (s : CollectorCore) (cid : Cid) (event : CapturedEvent) (e : TelemetryEntry) : Prop where
  own : event.sessionCid = some cid ∨
    event.sessionCid = none ∧ ∀ named ∈ cidTokens event.message, named ∈ s.keys → named = cid
  metric : e.metric = none
  message : ∃ salt redacted, redactWithSessions crates event.message s.known (s.othersFor event) salt = some redacted ∧
    e.message = truncateAtChar s.config.maxMessageBytes redacted ∧
    (PlainPlaceholders crates s cid → ∀ r ∈ digitRuns 0 e.message, ∀ named, parseU64 r.2 = some named → named ∈ s.keys →
      named = cid ∨ e.message ≠ redacted ∧ r.1 + byteLen r.2 = byteLen e.message)

theorem entry_line (hs : crates.Sound) {event : CapturedEvent} (hgoes : s.goesTo event cid = true) (salt : Salt) :
    ∃ e, entry crates event s.known (s.othersFor event) salt s.config = some e ∧ Line crates s cid event e := by
  obtain ⟨redacted, hredacted, hruns⟩ := redact_runs hs event.message s.known (s.othersFor event) salt
  have hclean : PlainPlaceholders crates s cid → ∀ named ∈ cidTokens redacted, named ∈ s.keys → named = cid := by
    intro hplain named hnamed hkey
    rw [cidTokens_eq] at hnamed
    obtain ⟨run, hrun, hparse⟩ := List.mem_filterMap.mp hnamed
    rcases hruns run hrun with ⟨kind, value, hplaceholder⟩ | ⟨hinput, hothers⟩
    · refine hplain kind value salt named ?_ hkey
      rw [cidTokens_eq]
      exact List.mem_filterMap.mpr ⟨run, hplaceholder, hparse⟩
    · unfold goesTo at hgoes
      unfold othersFor at hothers
      split at hgoes
      · rename_i own hown
        rw [hown] at hothers
        obtain rfl : cid = own := of_decide_eq_true hgoes
        by_contra hne
        exact hothers named (List.mem_filter.mpr ⟨hkey, by simpa using hne⟩) hparse
      · have hmem : named ∈ cidTokens event.message := by
          rw [cidTokens_eq]
          exact List.mem_filterMap.mpr ⟨run, hinput, hparse⟩
        simpa [hkey] using List.all_eq_true.mp hgoes named hmem
  refine ⟨_, by rw [entry, hredacted, Option.map_some], ?_, rfl, salt, redacted, hredacted, rfl,
    fun hplain r hr named hparse hkey => ?_⟩
  · unfold goesTo at hgoes
    split at hgoes
    · rename_i own hown
      rw [hown, of_decide_eq_true hgoes]
      exact .inl rfl
    · rename_i hnone
      refine .inr ⟨hnone, fun named hnamed hkey => ?_⟩
      simpa [hkey] using List.all_eq_true.mp hgoes named hnamed
  · refine (digitRuns_truncate hr).imp_left fun hrun => hclean hplain named ?_ hkey
    rw [cidTokens_eq]
    exact List.mem_filterMap.mpr ⟨r.2, hrun, hparse⟩

structure SameNames (t s : CollectorCore) : Prop where
  config : t.config = s.config
  keys : t.keys = s.keys
  known : t.known = s.known

def captureIn (crates : Crates) (s : CollectorCore) (event : CapturedEvent) (cid : Cid) (session : LocalSession) :
    Option LocalSession :=
  if s.goesTo event cid then s.take crates event (s.othersFor event) session else some session

theorem capture_eq (event : CapturedEvent) : s.capture crates event =
    (s.sessions.mapM fun x => (s.captureIn crates event x.1 x.2).map fun session => (x.1, session)).map fun sessions =>
      { s with sessions := sessions } := by
  rw [capture]
  congr 2
  funext x
  obtain ⟨cid, session⟩ := x
  show (if s.goesTo event cid then _ else _) = Option.map _ (s.captureIn crates event cid session)
  rw [captureIn]
  by_cases hgoes : s.goesTo event cid = true
  · rw [if_pos hgoes, if_pos hgoes]
  · rw [if_neg hgoes, if_neg hgoes]
    rfl

theorem captureIn_isSome (hs : crates.Sound) (s : CollectorCore) (event : CapturedEvent) (cid : Cid) (session : LocalSession) :
    (s.captureIn crates event cid session).isSome := by
  rw [captureIn]
  split
  · rename_i hgoes
    rw [take]
    split
    · rfl
    · rename_i ring hring
      obtain ⟨e, he, -⟩ := entry_line hs hgoes ring.salt
      rw [he]
      rfl
  · rfl

theorem mapM_sessions {f : Cid → LocalSession → Option LocalSession} (hf : ∀ cid session, (f cid session).isSome)
    (sessions : List (Cid × LocalSession)) :
    ∃ new, (sessions.mapM fun x => (f x.1 x.2).map fun session => (x.1, session)) = some new ∧
      new.map Prod.fst = sessions.map Prod.fst ∧ ∀ cid, new.lookup cid = (sessions.lookup cid).bind (f cid) := by
  induction sessions with
  | nil => exact ⟨[], rfl, rfl, fun cid => rfl⟩
  | cons x sessions ih =>
    obtain ⟨new, hnew, hkeys, hlookup⟩ := ih
    obtain ⟨session, hsession⟩ := Option.isSome_iff_exists.mp (hf x.1 x.2)
    refine ⟨(x.1, session) :: new, ?_, by rw [List.map_cons, List.map_cons, hkeys], fun cid => ?_⟩
    · rw [List.mapM_cons, hnew, hsession]
      rfl
    · by_cases h : cid = x.1
      · subst h
        simp [List.lookup, hsession]
      · have hne : (cid == x.1) = false := beq_false_of_ne h
        simp only [List.lookup, hne]
        exact hlookup cid

end

end CollectorCore

/-! ## Runs of the collector -/

inductive Op
  | registerSession (cid : Cid) (identity : List KnownValue)
  | forgetSession (cid : Cid)
  | learnPeer (sessionCid peerCid : Cid) (identity : List KnownValue)
  | optIn (cid : Cid) (salt : Salt) (takesMetrics : Bool)
  | optOut (cid : Cid)
  | drain (cid : Cid) (nextSalt : Salt)
  | capture (event : CapturedEvent)
  | captureBrowser (cid : Cid) (timeMs : Nat) (entries : List BrowserConsoleEntry) (limits : BrowserLimits)
  | captureMetric (cid : Cid) (timeMs : Nat) (peerCid : Cid) (metric : TelemetryMetric)

section
variable (crates : Crates)
open CollectorCore

def settled (s : CollectorCore) : Except TelemetryError CollectorCore → CollectorCore
  | .ok t => t
  | .error _ => s

def step (s : CollectorCore) : Op → Option CollectorCore
  | .registerSession cid identity => some (s.registerSession cid identity)
  | .forgetSession cid => some (s.forgetSession cid)
  | .learnPeer sessionCid peerCid identity => some (settled s (s.learnPeer sessionCid peerCid identity))
  | .optIn cid salt takesMetrics => some (settled s (s.optIn cid salt takesMetrics))
  | .optOut cid => some (settled s (s.optOut cid))
  | .drain cid nextSalt => some (settled s ((s.drain cid nextSalt).map Prod.snd))
  | .capture event => s.capture crates event
  | .captureBrowser cid timeMs entries limits => (s.captureBrowser crates cid timeMs entries limits).map Prod.snd
  | .captureMetric cid timeMs peerCid metric => some (s.captureMetric cid timeMs peerCid metric).2

def run (config : RingConfig) (ops : List Op) : Option CollectorCore := ops.foldlM (step crates) (new config)

/-- What the session's ring held is taken or dropped. -/
def Resets (cid : Cid) : Op → Prop
  | .forgetSession c | .optOut c | .drain c _ => c = cid
  | _ => False

def From (s : CollectorCore) (cid : Cid) (e : TelemetryEntry) : Op → Prop
  | .capture event => Line crates s cid event e
  | .captureBrowser c timeMs entries _ => c = cid ∧ ∃ entry ∈ entries, Line crates s cid (entry.event c timeMs) e
  | .captureMetric c _ _ metric => c = cid ∧ e.metric = some metric ∧ e.message = summary metric
  | _ => False

variable (s : CollectorCore) (cid : Cid)

def LocalSession.contents (session : LocalSession) : List TelemetryEntry × Nat :=
  (session.ring.map fun r => (r.entries, r.bytes)).getD ([], 0)

def contents : List TelemetryEntry × Nat := ((s.session cid).map LocalSession.contents).getD ([], 0)

def captured (event : CapturedEvent) : List TelemetryEntry :=
  ((s.ring cid).bind fun r =>
    if s.goesTo event cid then entry crates event s.known (s.othersFor event) r.salt s.config else none).toList

def metricEntry (timeMs : Nat) (peerCid : Cid) (metric : TelemetryMetric) : TelemetryEntry :=
  ⟨timeMs, .metric, METRIC_TARGET.toList, summary metric, some peerCid, some metric⟩

def pushedOn : Op → List TelemetryEntry
  | .capture event => captured crates s cid event
  | .captureBrowser c timeMs entries limits =>
    (((s.ring c).map fun r => (admittedLines timeMs limits r.browser (entries.take limits.entriesPerRequest)).1).getD []).flatMap
      fun line => captured crates s cid (line.event c timeMs)
  | .captureMetric c timeMs peerCid metric =>
    if c = cid ∧ ((s.ring c).filter (·.takesMetrics)).isSome then [metricEntry timeMs peerCid metric] else []
  | _ => []

end

section
variable {crates : Crates} {s t : CollectorCore} {c : Cid} {f : LocalSession → LocalSession} {op : Op} {r : Ring}
open CollectorCore
namespace CollectorCore

theorem contents_eq (s : CollectorCore) (cid : Cid) :
    contents s cid = ((s.ring cid).map fun r => (r.entries, r.bytes)).getD ([], 0) := by
  unfold contents ring
  cases s.session cid <;> rfl

theorem entriesOf_eq (s : CollectorCore) (cid : Cid) : s.entriesOf cid = (contents s cid).1 := by
  rw [contents_eq, entriesOf]
  cases s.ring cid <;> rfl

theorem contents_none (h : s.ring cid = none) : contents s cid = ([], 0) := by
  rw [contents_eq, h]
  rfl

theorem ring_setRing (h : s.ring c = some r) (new : Ring) (cid : Cid) :
    (s.setRing c new).ring cid = if cid = c then some new else s.ring cid := by
  unfold ring at h ⊢
  rw [setRing, session_modify]
  split_ifs with hc
  · obtain ⟨session, hsession, -⟩ := Option.bind_eq_some_iff.1 h
    rw [hc, hsession]
    rfl
  · rw [Option.map_id']

theorem contents_rebuildKnown : contents s.rebuildKnown cid = contents s cid := rfl

theorem contents_others (h : c ≠ cid) : contents (s.modify c f) cid = contents s cid := by
  unfold contents
  rw [session_modify]
  simp only [if_neg h.symm, Option.map_id']

theorem contents_kept (hf : ∀ session, (f session).contents = session.contents) : contents (s.modify c f) cid = contents s cid := by
  unfold contents
  rw [session_modify, Option.map_map]
  congr 2
  funext session
  show (if cid = c then f session else session).contents = session.contents
  split_ifs
  · exact hf session
  · rfl

theorem contents_emptied (hf : ∀ session, (f session).contents = ([], 0)) : contents (s.modify c f) c = ([], 0) := by
  unfold contents
  rw [session_modify]
  cases s.session c with
  | none => rfl
  | some session =>
    simp only [Option.map_some, if_pos, Option.getD_some]
    exact hf session

theorem contents_registerSession (identity : List KnownValue) : contents (s.registerSession c identity) cid = contents s cid := by
  rw [registerSession]
  split
  · exact contents_kept (f := fun session => { session with identity := identity }) fun session => rfl
  · show ((List.lookup cid (s.sessions ++ [(c, (⟨identity, [], none⟩ : LocalSession))])).map _).getD _ = _
    unfold contents session
    rw [List.lookup_append]
    cases s.sessions.lookup cid with
    | some session => rfl
    | none =>
      rw [Option.none_or, List.lookup]
      split <;> rfl

theorem capture_rings (hs : crates.Sound) (s : CollectorCore) (event : CapturedEvent) :
    ∃ t, s.capture crates event = some t ∧ t.SameNames s ∧ ∀ cid,
      contents t cid = (captured crates s cid event).foldl (pushOn s.config) (contents s cid) ∧
      (t.ring cid).map (·.salt) = (s.ring cid).map (·.salt) := by
  obtain ⟨new, hnew, hkeys, hlookup⟩ := mapM_sessions (captureIn_isSome hs s event) s.sessions
  refine ⟨{ s with sessions := new }, by rw [capture_eq, hnew, Option.map_some], ⟨rfl, hkeys, rfl⟩, fun cid => ?_⟩
  unfold contents captured ring session
  dsimp only
  rw [hlookup]
  cases s.sessions.lookup cid with
  | none => exact ⟨rfl, rfl⟩
  | some session =>
    obtain ⟨session', h'⟩ := Option.isSome_iff_exists.1 (captureIn_isSome hs s event cid session)
    rw [Option.bind_some, Option.bind_some, h']
    rw [captureIn, take] at h'
    cases hr : session.ring with
    | none =>
      simp only [hr, ite_self] at h'
      obtain rfl := Option.some.inj h'
      rw [Option.bind_some, hr]
      exact ⟨rfl, rfl⟩
    | some r =>
      simp only [hr] at h'
      rw [Option.bind_some, Option.bind_some]
      split at h'
      · obtain ⟨e, he, rfl⟩ := Option.map_eq_some_iff.1 h'
        rw [if_pos ‹_›, he]
        simp only [Option.map_some, Option.getD_some, LocalSession.contents, hr]
        exact ⟨rfl, rfl⟩
      · obtain rfl := Option.some.inj h'
        rw [if_neg ‹_›, hr]
        exact ⟨rfl, rfl⟩

theorem captured_of_same (h : t.SameNames s) (hsalt : (t.ring cid).map (·.salt) = (s.ring cid).map (·.salt)) :
    captured crates t cid = captured crates s cid := by
  funext event
  unfold captured goesTo othersFor
  rw [h.config, h.keys, h.known]
  cases hr : s.ring cid with
  | none =>
    rw [hr] at hsalt
    rw [Option.map_eq_none_iff.1 hsalt]
  | some r =>
    rw [hr] at hsalt
    obtain ⟨r', hr', hsalt⟩ := Option.map_eq_some_iff.1 hsalt
    rw [hr', Option.bind_some, Option.bind_some, hsalt]

theorem captures_rings (hs : crates.Sound) (s : CollectorCore) (events : List CapturedEvent) :
    ∃ t, events.foldlM (fun s event => s.capture crates event) s = some t ∧ t.config = s.config ∧ ∀ cid,
      contents t cid = (events.flatMap (captured crates s cid)).foldl (pushOn s.config) (contents s cid) := by
  induction events generalizing s with
  | nil => exact ⟨s, rfl, rfl, fun cid => rfl⟩
  | cons event events ih =>
    obtain ⟨u, hu, hsame, hrings⟩ := capture_rings hs s event
    obtain ⟨t, ht, hconfig, hcontents⟩ := ih u
    refine ⟨t, by rw [List.foldlM_cons, hu]; exact ht, hconfig.trans hsame.config, fun cid => ?_⟩
    rw [hcontents, (hrings cid).1, captured_of_same hsame (hrings cid).2, hsame.config, List.flatMap_cons, List.foldl_append]

theorem contents_step (hs : crates.Sound) (s : CollectorCore) (op : Op) : ∃ t, step crates s op = some t ∧ t.config = s.config ∧
    ∀ cid, (Resets cid op → contents t cid = ([], 0)) ∧
      (¬ Resets cid op → contents t cid = (pushedOn crates s cid op).foldl (pushOn s.config) (contents s cid)) := by
  cases op with
  | registerSession c identity =>
    refine ⟨_, rfl, ?_⟩
    refine ⟨?_, fun cid => ⟨nofun, fun _ => contents_registerSession identity⟩⟩
    rw [registerSession]
    split <;> rfl
  | forgetSession c =>
    refine ⟨_, rfl, ?_⟩
    rw [forgetSession]
    split
    · refine ⟨rfl, fun cid => ?_⟩
      have hlookup := lookup_filter_ne s.sessions c cid
      refine ⟨fun heq => ?_, fun hne => ?_⟩
      · rw [if_pos (Eq.symm heq)] at hlookup
        exact congrArg (fun session => (session.map LocalSession.contents).getD ([], 0)) hlookup
      · rw [if_neg (Ne.symm hne)] at hlookup
        exact congrArg (fun session => (session.map LocalSession.contents).getD ([], 0)) hlookup
    · rename_i hnone
      refine ⟨rfl, fun cid => ⟨fun heq => ?_, fun _ => rfl⟩⟩
      obtain rfl : c = cid := heq
      exact contents_none (ring_none hnone)
  | learnPeer c peerCid identity =>
    refine ⟨_, rfl, ?_⟩
    rw [learnPeer]
    split
    · refine ⟨rfl, fun cid => ⟨nofun, fun _ => ?_⟩⟩
      show contents (s.modify c _).rebuildKnown cid = _
      rw [contents_rebuildKnown]
      refine (contents_kept ?_).trans rfl
      exact fun session => rfl
    · exact ⟨rfl, fun cid => ⟨nofun, fun _ => rfl⟩⟩
  | optIn c salt takesMetrics =>
    refine ⟨_, rfl, ?_⟩
    rw [optIn]
    split
    · refine ⟨rfl, fun cid => ⟨nofun, fun _ => ?_⟩⟩
      dsimp only [settled, pushedOn, List.foldl_nil]
      refine contents_kept fun session => ?_
      unfold LocalSession.contents
      cases session.ring <;> rfl
    · exact ⟨rfl, fun cid => ⟨nofun, fun _ => rfl⟩⟩
  | optOut c =>
    refine ⟨_, rfl, ?_⟩
    cases hok : s.optOut c with
    | ok t =>
      rw [optOut] at hok
      split at hok
      · obtain rfl := Except.ok.inj hok
        dsimp only [settled, pushedOn, List.foldl_nil]
        refine ⟨rfl, fun cid => ⟨fun heq => ?_, contents_others⟩⟩
        obtain rfl : c = cid := heq
        exact contents_emptied fun session => rfl
      · cases hok
    | error err =>
      refine ⟨rfl, fun cid => ⟨fun heq => ?_, fun _ => rfl⟩⟩
      obtain rfl : c = cid := heq
      exact contents_none (optOut_error hok)
  | drain c nextSalt =>
    refine ⟨_, rfl, ?_⟩
    cases hok : s.drain c nextSalt with
    | ok out =>
      rw [drain] at hok
      split at hok
      · cases hok
      · split at hok
        · cases hok
        · obtain rfl := Except.ok.inj hok
          dsimp only [settled, Except.map, pushedOn, List.foldl_nil, setRing]
          refine ⟨rfl, fun cid => ⟨fun heq => ?_, contents_others⟩⟩
          obtain rfl : c = cid := heq
          exact contents_emptied fun session => rfl
    | error err =>
      refine ⟨rfl, fun cid => ⟨fun heq => ?_, fun _ => rfl⟩⟩
      obtain rfl : c = cid := heq
      exact contents_none (drain_error hok)
  | capture event =>
    obtain ⟨t, ht, hsame, hrings⟩ := capture_rings hs s event
    exact ⟨t, ht, hsame.config, fun cid => ⟨nofun, fun _ => (hrings cid).1⟩⟩
  | captureBrowser c timeMs entries limits =>
    simp only [step, captureBrowser, pushedOn]
    cases hwindow : s.ring c with
    | none => exact ⟨s, rfl, rfl, fun cid => ⟨nofun, fun _ => rfl⟩⟩
    | some window =>
      dsimp only
      obtain ⟨t, ht, hconfig, hcontents⟩ := captures_rings hs (s.setRing c _) (List.map _ _)
      rw [List.foldlM_map] at ht
      refine ⟨t, by rw [ht]; rfl, hconfig, fun cid => ⟨nofun, fun _ => (hcontents cid).trans ?_⟩⟩
      -- pacing changes nothing that is held, or that decides what is taken
      have hring := fun browser => ring_setRing hwindow { window with browser := browser } cid
      rw [captured_of_same (s := s) (t := s.setRing c _) ⟨rfl, keys_modify _ _ _, rfl⟩ ?_, contents_eq, contents_eq, hring, List.flatMap_map]
      · split_ifs with hc
        · rw [hc, hwindow]
          rfl
        · rfl
      · rw [hring]
        split_ifs with hc
        · rw [hc, hwindow]
          rfl
        · rfl
  | captureMetric c timeMs peerCid metric =>
    refine ⟨_, rfl, ?_⟩
    simp only [captureMetric, pushedOn]
    split
    · rename_i hnone
      rw [hnone]
      exact ⟨rfl, fun cid => ⟨nofun, fun _ => by rw [if_neg (by simp)]; rfl⟩⟩
    · rename_i r hr
      obtain ⟨hring, -⟩ := Option.filter_eq_some_iff.1 hr
      refine ⟨rfl, fun cid => ⟨nofun, fun _ => ?_⟩⟩
      rw [hr]
      by_cases hc : c = cid
      · subst hc
        rw [if_pos ⟨rfl, rfl⟩, contents_eq, contents_eq, ring_setRing hring, if_pos rfl, hring]
        rfl
      · rw [if_neg (by simp [hc])]
        exact contents_others hc

end CollectorCore

theorem mem_admittedLines {timeMs : Nat} {limits : BrowserLimits} {pacer : BrowserPacer} {entries : List BrowserConsoleEntry}
    {line : BrowserConsoleEntry} (h : line ∈ (admittedLines timeMs limits pacer entries).1) : line ∈ entries := by
  induction entries generalizing pacer with
  | nil => exact absurd h List.not_mem_nil
  | cons entry entries ih =>
    rw [admittedLines] at h
    split at h
    · split at h
      · exact absurd h List.not_mem_nil
      · rcases List.mem_cons.mp h with rfl | h
        · exact List.mem_cons_self
        · exact List.mem_cons_of_mem _ (ih h)
    · exact List.mem_cons_of_mem _ (ih h)

theorem line_of_mem (hs : crates.Sound) {event : CapturedEvent} (h : e ∈ captured crates s cid event) :
    (s.ring cid).isSome ∧ s.goesTo event cid = true ∧ Line crates s cid event e := by
  obtain ⟨r, hr, h⟩ := Option.bind_eq_some_iff.1 (Option.mem_toList.1 h)
  split_ifs at h with hgoes
  obtain ⟨e', he', hline⟩ := entry_line hs hgoes r.salt
  obtain rfl := Option.mem_unique he' h
  exact ⟨Option.isSome_of_eq_some hr, hgoes, hline⟩

theorem from_of_mem (hs : crates.Sound) (h : e ∈ pushedOn crates s cid op) : (s.ring cid).isSome ∧ From crates s cid e op := by
  cases op with
  | capture event => exact ⟨(line_of_mem hs h).1, (line_of_mem hs h).2.2⟩
  | captureBrowser c timeMs entries limits =>
    obtain ⟨line, hmem, h⟩ := List.mem_flatMap.1 h
    obtain ⟨hring, hgoes, hline⟩ := line_of_mem hs h
    obtain rfl : cid = c := of_decide_eq_true hgoes
    obtain ⟨window, hwindow⟩ := Option.isSome_iff_exists.1 hring
    rw [hwindow] at hmem
    exact ⟨hring, rfl, line, List.mem_of_mem_take (mem_admittedLines hmem), hline⟩
  | captureMetric c timeMs peerCid metric =>
    rw [pushedOn] at h
    split_ifs at h with hkept
    · obtain ⟨rfl, hkept⟩ := hkept
      obtain ⟨r, hr⟩ := Option.isSome_iff_exists.1 hkept
      rw [List.mem_singleton.1 h]
      exact ⟨Option.isSome_of_eq_some (Option.filter_eq_some_iff.1 hr).1, rfl, rfl, rfl⟩
    · cases h
  | _ => cases h

theorem entriesOf_step (hs : crates.Sound) (s : CollectorCore) (op : Op) :
    ∃ t, step crates s op = some t ∧ ∀ cid, ∀ e ∈ t.entriesOf cid,
      e ∈ s.entriesOf cid ∧ ¬ Resets cid op ∨ (s.ring cid).isSome ∧ From crates s cid e op := by
  obtain ⟨t, ht, -, hrings⟩ := CollectorCore.contents_step hs s op
  refine ⟨t, ht, fun cid e he => ?_⟩
  obtain ⟨hempty, hpushed⟩ := hrings cid
  rw [CollectorCore.entriesOf_eq] at he ⊢
  by_cases hreset : Resets cid op
  · rw [hempty hreset] at he
    cases he
  · rw [hpushed hreset] at he
    exact (mem_pushOn he).imp (fun h => ⟨h, hreset⟩) (from_of_mem hs)

theorem entriesOf_run (hs : crates.Sound) (config : RingConfig) (ops : List Op) :
    ∃ s, run crates config ops = some s ∧ ∀ cid, ∀ e ∈ s.entriesOf cid,
      ∃ before op since, ops = before ++ op :: since ∧ (∀ o ∈ since, ¬ Resets cid o) ∧
        ∃ t, run crates config before = some t ∧ (t.ring cid).isSome ∧ From crates t cid e op := by
  induction ops using List.reverseRecOn with
  | nil => exact ⟨new config, rfl, fun cid e he => absurd he List.not_mem_nil⟩
  | append_singleton ops op ih =>
    obtain ⟨s, hs', hentries⟩ := ih
    obtain ⟨t, ht, hstep⟩ := entriesOf_step hs s op
    refine ⟨t, ?_, fun cid e he => ?_⟩
    · rw [run] at hs' ⊢
      rw [List.foldlM_append, hs']
      show ([op].foldlM (step crates) s) = some t
      rw [List.foldlM_cons, ht]
      rfl
    · rcases hstep cid e he with ⟨he, hreset⟩ | ⟨hring, hfrom⟩
      · obtain ⟨before, op', since, rfl, hsince, hcaptured⟩ := hentries cid e he
        refine ⟨before, op', since ++ [op], by rw [List.append_assoc, List.cons_append], fun o ho => ?_, hcaptured⟩
        rcases List.mem_append.mp ho with ho | ho
        · exact hsince o ho
        · rwa [List.mem_singleton.mp ho]
      · exact ⟨ops, op, [], rfl, fun o ho => absurd ho List.not_mem_nil, s, hs', hring, hfrom⟩

/-- What a session drains was captured for it while it was opted in, since it was last drained or opted out; no line
names another registered session, unless the cut of a long line ends a number. -/
theorem telemetry_stays (hs : crates.Sound) (config : RingConfig) (ops : List Op) :
    ∃ s, run crates config ops = some s ∧ ∀ cid nextSalt entries s', s.drain cid nextSalt = .ok (entries, s') → ∀ e ∈ entries,
      ∃ before op since, ops = before ++ op :: since ∧ (∀ o ∈ since, ¬ Resets cid o) ∧
        ∃ t, run crates config before = some t ∧ (t.ring cid).isSome ∧ From crates t cid e op := by
  obtain ⟨s, hrun, hentries⟩ := entriesOf_run hs config ops
  refine ⟨s, hrun, fun cid nextSalt entries s' hdrain e he => ?_⟩
  rw [drain_ok hdrain] at he
  exact hentries cid e he

end

def plainCrates : Crates := ⟨fun c => c.isAlphanum, fun _ => [], fun _ _ => List.replicate 32 0⟩

theorem plainCrates_sound : plainCrates.Sound :=
  ⟨fun c h => by simp [plainCrates, Char.isAlphanum, h], fun input hit h => absurd h List.not_mem_nil⟩

def shortLines : RingConfig := ⟨8, 1024, 4, by decide, by decide, by decide⟩

def noSalt : Salt := Vector.replicate 32 0

def twoSessions (cid other : Cid) : List Op := [.registerSession cid [], .registerSession other [], .optIn cid noSalt true]

def ownLine (cid : Cid) (message : String) : CapturedEvent := ⟨0, .warn, [], message.toList, some cid, none⟩

def drained (cid : Cid) (ops : List Op) : Option (List TelemetryEntry) :=
  (run plainCrates shortLines ops).bind fun s => (s.drain cid noSalt).toOption.map Prod.fst

theorem telemetry_stays_ownLine :
    ∃ s, run plainCrates shortLines (twoSessions 7 8 ++ [.capture (ownLine 7 "lost")]) = some s ∧
      drained 7 (twoSessions 7 8 ++ [.capture (ownLine 7 "lost")]) = some [⟨0, .warn, [], "lost".toList, none, none⟩] ∧
      ∀ cid nextSalt entries s', s.drain cid nextSalt = .ok (entries, s') → ∀ e ∈ entries,
        ∃ before op since, twoSessions 7 8 ++ [.capture (ownLine 7 "lost")] = before ++ op :: since ∧
          (∀ o ∈ since, ¬ Resets cid o) ∧
          ∃ t, run plainCrates shortLines before = some t ∧ (t.ring cid).isSome ∧ From plainCrates t cid e op := by
  obtain ⟨s, hrun, hentries⟩ := telemetry_stays plainCrates_sound shortLines (twoSessions 7 8 ++ [.capture (ownLine 7 "lost")])
  exact ⟨s, hrun, by decide +kernel, hentries⟩

/-- A metric carries its attempt's number as it is, also where this is the cid of another registered session; and a cut can leave the
beginning of a number that is one. -/
theorem drained_message_names_another_session :
    (drained 7 (twoSessions 7 8 ++ [.captureMetric 7 0 9 (.pathReport ⟨8, "Direct".toList, "Direct".toList, []⟩)])).map
        (fun entries => entries.map fun e => cidTokens e.message) = some [[8]] ∧
    (drained 7 (twoSessions 7 2222 ++ [.capture (ownLine 7 "22223")])).map
        (fun entries => entries.map fun e => (e.message, cidTokens e.message)) = some [("2222".toList, [2222])] := by
  decide +kernel

end CitadelAgent.Telemetry
