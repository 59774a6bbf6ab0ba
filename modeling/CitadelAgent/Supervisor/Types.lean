import Mathlib

/-!
# Supervisor: the vocabulary of the core

The data `kernel/supervisor` decides over, from `types.rs`, `policy.rs` and `core/peer.rs`:

* `Duration` : a `std::time::Duration`, as its whole nanoseconds, never above `Duration.maxNanos`;
* `Backoff`, `SupervisorPolicy` : every number the supervisor decides by;
* `Input`, `Command`, `SupervisorEvent` : what goes into `Core.step` and what comes out;
* `Rng` : splitmix64 and the jittered backoff `Rng.delay`.
-/

namespace CitadelAgent.Supervisor

abbrev Cid := UInt64

/-- The largest value of a `u64`. -/
def u64Max : Nat := 2 ^ 64 - 1

/-- `u64::saturating_add`. -/
def saturatingAdd64 (a b : UInt64) : UInt64 := UInt64.ofNat (min (a.toNat + b.toNat) u64Max)

/-- `u32::saturating_add(1)`. -/
def saturatingSucc32 (n : UInt32) : UInt32 := UInt32.ofNat (min (n.toNat + 1) (2 ^ 32 - 1))

/-! ## Time -/

/-- `Duration::MAX`, in nanoseconds: `u64::MAX` seconds and all but one nanosecond of another. -/
def Duration.maxNanos : Nat := 2 ^ 64 * 1000000000 - 1

structure Duration where
  nanos : Nat
  le_max : nanos ≤ Duration.maxNanos
  deriving DecidableEq

namespace Duration

def ofMillis (ms : UInt64) : Duration where
  nanos := ms.toNat * 1000000
  le_max := by have := ms.toNat_lt; unfold maxNanos; omega

def ofSecs (secs : UInt64) : Duration where
  nanos := secs.toNat * 1000000000
  le_max := by have := secs.toNat_lt; unfold maxNanos; omega

/-- `Duration::as_millis`, a `u128`. -/
def asMillis (d : Duration) : Nat := d.nanos / 1000000

/-- `u64::try_from(d.as_millis()).unwrap_or(u64::MAX)`. -/
def clampedMillis (d : Duration) : UInt64 := UInt64.ofNat (min d.asMillis u64Max)

def saturatingMul (d : Duration) (k : UInt32) : Duration where
  nanos := min (d.nanos * k.toNat) maxNanos
  le_max := Nat.min_le_right _ _

instance : LE Duration := ⟨fun a b => a.nanos ≤ b.nanos⟩
instance : LT Duration := ⟨fun a b => a.nanos < b.nanos⟩
instance (a b : Duration) : Decidable (a ≤ b) := inferInstanceAs (Decidable (a.nanos ≤ b.nanos))
instance (a b : Duration) : Decidable (a < b) := inferInstanceAs (Decidable (a.nanos < b.nanos))

/-- `Ord::min`. -/
def min (a b : Duration) : Duration := if b < a then b else a

end Duration

/-- A point on the supervisor's clock, in milliseconds. -/
structure Millis where
  ms : UInt64
  deriving DecidableEq

namespace Millis

instance : LE Millis := ⟨fun a b => a.ms ≤ b.ms⟩
instance : LT Millis := ⟨fun a b => a.ms < b.ms⟩
instance (a b : Millis) : Decidable (a ≤ b) := inferInstanceAs (Decidable (a.ms ≤ b.ms))
instance (a b : Millis) : Decidable (a < b) := inferInstanceAs (Decidable (a.ms < b.ms))

def after (m : Millis) (wait : Duration) : Millis := ⟨saturatingAdd64 m.ms wait.clampedMillis⟩

def since (m earlier : Millis) : Duration := Duration.ofMillis (UInt64.ofNat (m.ms.toNat - earlier.ms.toNat))

/-- `Ord::max`. -/
def max (a b : Millis) : Millis := if b < a then a else b

end Millis

/-! ## The policy -/

/-- Doubling from `initial` up to `max`. -/
structure Backoff where
  initial : Duration
  max : Duration

structure SupervisorPolicy where
  probeInterval : Duration
  probeTimeout : Duration
  missedProbes : UInt32
  dialBackoff : Backoff
  unreachableAfter : UInt32
  unreachableBackoff : Backoff
  upgradeBackoff : Backoff
  stableAfter : Duration
  redialWindow : Duration
  interestCeiling : Duration
  backlogPoll : Duration
  jitterSeed : UInt64
  /-- Fraction of a backoff (in thousandths) that jitter may remove. -/
  jitterPermille : UInt32
  dialPeers : Bool

/-- `AGENT_SUPERVISOR`: what the shipped agent runs. -/
def agentSupervisor : SupervisorPolicy where
  probeInterval := .ofSecs 15
  probeTimeout := .ofSecs 5
  missedProbes := 2
  dialBackoff := ⟨.ofSecs 1, .ofSecs 30⟩
  unreachableAfter := 3
  unreachableBackoff := ⟨.ofSecs 60, .ofSecs 900⟩
  upgradeBackoff := ⟨.ofSecs 5, .ofSecs 300⟩
  stableAfter := .ofSecs 60
  redialWindow := .ofSecs 600
  interestCeiling := .ofSecs 120
  backlogPoll := .ofSecs 2
  jitterSeed := 0x9E3779B97F4A7C15
  jitterPermille := 250
  dialPeers := true

/-! ## Inputs and commands -/

/-- Where the account's server link stands, as `kernel/reconnect` reports it. -/
inductive LinkStatus
  | up
  | reconnecting
  | ended
  deriving DecidableEq

inductive ProbeOutcome
  | ok (rtt : Duration)
  | timeout
  | error
  deriving DecidableEq

inductive DialOutcome
  | connected
  | failed
  | inProgress
  deriving DecidableEq

inductive P2pPathReport
  | direct
  | turn
  | serverRelay
  deriving DecidableEq

inductive Input
  | tick (now : Millis)
  | networkChanged (now : Millis)
  | serverProbe (now : Millis) (outcome : ProbeOutcome)
  | serverLink (now : Millis) (state : LinkStatus)
  | forceFailed (now : Millis)
  | peerLost (now : Millis) (peer : Cid)
  | peerReleased (now : Millis) (peer : Cid)
  | peerUp (now : Millis) (peer : Cid) (path : P2pPathReport)
  | peerReachable (now : Millis) (peer : Cid)
  | peerPath (now : Millis) (peer : Cid) (path : P2pPathReport)
  | dialResult (now : Millis) (peer : Cid) (outcome : DialOutcome)
  | backlog (peer : Cid) (pending : UInt32)
  | interest (peer : Cid) (until_ : Millis)

inductive HealCause
  | linkLost
  | probesMissed
  deriving DecidableEq

inductive SupervisorEvent
  | healing (cause : HealCause)
  | healed
  | peerDialing (peerCid : Cid)
  | peerRestored (peerCid : Cid) (path : P2pPathReport)
  | degraded (peerCid : Cid)
  deriving DecidableEq

inductive Command
  | probeServer
  | forceReconnect
  | rebindTransports
  | dialPeer (peer : Cid)
  | upgradePath (peer : Cid) (restoreUdp : Bool)
  | report (event : SupervisorEvent)
  deriving DecidableEq

/-! ## One peer -/

/-- One retried action: when it may next run, and how many times it has run since the last stable route. -/
structure Retry where
  attempts : UInt32
  nextAt : Millis
  inFlight : Bool

def Retry.new (now : Millis) : Retry := ⟨0, now, false⟩

structure Peer where
  connected : Bool
  path : Option P2pPathReport
  since : Option Millis
  lostAt : Option Millis
  backlog : UInt32
  interestUntil : Option Millis
  dial : Retry
  /-- Dials that failed since the peer last connected or was heard to be reachable. -/
  failedDials : UInt32
  upgrade : Retry
  dialingReported : Bool
  degradedReported : Bool

namespace Peer

def new (now : Millis) : Peer where
  connected := false
  path := none
  since := none
  lostAt := none
  backlog := 0
  interestUntil := none
  dial := Retry.new now
  failedDials := 0
  upgrade := Retry.new now
  dialingReported := false
  degradedReported := false

def hasInterest (p : Peer) (now : Millis) : Bool := p.interestUntil.any (fun until_ => decide (now < until_))

def inUse (p : Peer) (now : Millis) : Bool := decide (0 < p.backlog) || p.hasInterest now

def wanted (p : Peer) (now : Millis) (redialWindow : Duration) : Bool :=
  p.inUse now || p.lostAt.any (fun lost => decide (now.since lost < redialWindow))

def onRelay (p : Peer) : Bool := p.connected && p.path == some .serverRelay

end Peer

/-! ## Jitter -/

/-- splitmix64: one 64-bit state. -/
structure Rng where
  state : UInt64

namespace Rng

def seeded (seed : UInt64) (cid : Cid) : Rng := ⟨seed ^^^ cid⟩

def next (r : Rng) : UInt64 × Rng :=
  let s := r.state + 0x9E3779B97F4A7C15
  let z := (s ^^^ (s >>> 30)) * 0xBF58476D1CE4E5B9
  let z := (z ^^^ (z >>> 27)) * 0x94D049BB133111EB
  (z ^^^ (z >>> 31), ⟨s⟩)

/-- `1u32.checked_shl(attempts).unwrap_or(u32::MAX)`. -/
def doubling (attempts : UInt32) : UInt32 :=
  if attempts < 32 then 1 <<< attempts else UInt32.ofNat (2 ^ 32 - 1)

/-- `backoff` doubled `attempts` times and capped, less up to `jitterPermille`/1000 of itself. The generator
advances only when there is something to cut. -/
def delay (r : Rng) (backoff : Backoff) (attempts jitterPermille : UInt32) : Duration × Rng :=
  let doubled := backoff.initial.saturatingMul (doubling attempts)
  let capped := Duration.min doubled backoff.max
  let millis := capped.clampedMillis
  let span := UInt64.ofNat (min (millis.toNat * jitterPermille.toNat) u64Max / 1000)
  if span = 0 then (Duration.ofMillis millis, r)
  else
    let (draw, r) := r.next
    -- `millis - cut` panics below zero; the cut is under `millis` whenever `jitterPermille ≤ 1000`
    (Duration.ofMillis (millis - draw % span), r)

end Rng

end CitadelAgent.Supervisor
