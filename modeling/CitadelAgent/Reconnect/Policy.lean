import Mathlib

/-!
# When to try again, and when to stop

`reconnect/policy.rs`: how long a run waits before each attempt, and whether it goes on after one that failed.

* `ReconnectPolicy` : the delays and limits, `afterFailure` what a run does next;
* `outOfTime_iff` : a run gives up for want of time when the next attempt would start past its limit.
-/

namespace CitadelAgent.Reconnect

/-- `Duration::MAX`, in nanoseconds. -/
def Duration.MAX : Nat := (2 ^ 64 - 1) * 10 ^ 9 + 999999999

structure Duration where
  nanos : Nat
  le_max : nanos ≤ Duration.MAX
  deriving DecidableEq

namespace Duration

def clamp (nanos : Nat) : Duration := ⟨min nanos MAX, Nat.min_le_right ..⟩

def ZERO : Duration := ⟨0, Nat.zero_le _⟩

def ofSecs (secs : UInt64) : Duration := ⟨secs.toNat * 10 ^ 9, by have := secs.toNat_lt; unfold MAX; omega⟩

def ofMillis (millis : UInt64) : Duration := ⟨millis.toNat * 10 ^ 6, by have := millis.toNat_lt; unfold MAX; omega⟩

def asSecs (d : Duration) : UInt64 := UInt64.ofNat (d.nanos / 10 ^ 9)

def saturatingAdd (a b : Duration) : Duration := clamp (a.nanos + b.nanos)

def checkedMul (d : Duration) (factor : UInt32) : Option Duration :=
  if h : d.nanos * factor.toNat ≤ MAX then some ⟨d.nanos * factor.toNat, h⟩ else none

def max (a b : Duration) : Duration := if a.nanos ≤ b.nanos then b else a

def min (a b : Duration) : Duration := if a.nanos ≤ b.nanos then a else b

theorem nanos_clamp_le (nanos : Nat) : (clamp nanos).nanos ≤ nanos := Nat.min_le_left ..

end Duration

inductive FailureKind
  /-- The server will say the same thing next time. -/
  | refused
  /-- The server is unreachable or not ready yet. -/
  | transient
  /-- The server still holds the session that dropped. -/
  | serverHoldsSession
  deriving DecidableEq

inductive GiveUp
  | refused
  | outOfTime
  deriving DecidableEq

inductive Next
  | retryAfter (delay : Duration)
  | giveUp (why : GiveUp)
  deriving DecidableEq

structure ReconnectPolicy where
  firstDelay : Duration
  maxDelay : Duration
  giveUpAfter : Duration
  attemptTimeout : Duration
  /-- How long after the drop the server may still hold the session that dropped. -/
  serverHoldsSessionFor : Duration

namespace ReconnectPolicy

variable (p : ReconnectPolicy)

/-- `1u32.checked_shl(attempt).unwrap_or(u32::MAX)` -/
def factor (attempt : UInt32) : UInt32 := if attempt < 32 then 1 <<< attempt else 2 ^ 32 - 1

def delayBefore (attempt : UInt32) : Duration :=
  match p.firstDelay.checkedMul (factor attempt) with
  | some delay => delay.min p.maxDelay
  | none => p.maxDelay

/-- `attempt.saturating_add(1)` -/
def nextAttempt (attempt : UInt32) : UInt32 := if attempt = 2 ^ 32 - 1 then attempt else attempt + 1

def limit : FailureKind → Duration
  | .serverHoldsSession => p.giveUpAfter.max p.serverHoldsSessionFor
  | .refused => p.giveUpAfter
  | .transient => p.giveUpAfter

/-- After an attempt failed, `elapsed` since the run started. -/
def afterFailure (attempt : UInt32) (elapsed : Duration) (kind : FailureKind) : Next :=
  if kind = .refused then .giveUp .refused
  else
    let delay := p.delayBefore (nextAttempt attempt)
    if (p.limit kind).nanos < (elapsed.saturatingAdd delay).nanos then .giveUp .outOfTime else .retryAfter delay

/-- `server_session_expiry`: the latest a server ends a session whose keep-alives stopped, when it checks every
`keepAliveCheck`. -/
def serverSessionExpiry (keepAliveCheck keepAliveTimeout : Duration) : Duration :=
  keepAliveTimeout.saturatingAdd keepAliveCheck

def forKeepAlive (keepAliveCheck : Duration) : Option Duration → ReconnectPolicy
  | none => p
  | some timeout =>
      { p with
        serverHoldsSessionFor :=
          if timeout.asSecs = 0 then .ZERO else serverSessionExpiry keepAliveCheck (.ofSecs timeout.asSecs) }

variable {p}

theorem outOfTime_iff {attempt : UInt32} {elapsed : Duration} {kind : FailureKind} :
    p.afterFailure attempt elapsed kind = .giveUp .outOfTime ↔ kind ≠ .refused ∧
      (p.limit kind).nanos < (elapsed.saturatingAdd (p.delayBefore (nextAttempt attempt))).nanos := by
  unfold afterFailure
  split
  · simp_all
  · dsimp only
    split
    · simp_all
    · simp_all

end ReconnectPolicy

/-- Half a second at first, up to half a minute, for ten minutes, or an hour while the server holds the session. -/
def tenMinutes : ReconnectPolicy :=
  ⟨.ofMillis 500, .ofSecs 30, .ofSecs 600, .ofSecs 30, .ofSecs 3600⟩

end CitadelAgent.Reconnect
